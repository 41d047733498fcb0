import Que.Lib.Prog
import Que.Lib.Ring
import Que.Lib.Checked
import Que.Lib.Layout
import Que.Channel
import Que.Lossless.Producer
import Que.Lossless.Consumer
import Que.Lossless.System
import Que.Lossless.Contract
import Que.Lossless.ProducerSafe
import Que.Lossless.ProducerCalls
import Que.Lossless.Sequential
import Que.Lossless.ConsumerSafe
import Que.Lossless.Invariant
import Que.Lossless.Fifo
import Que.Lossless.Initialise
import Que.Lossless.Calls
import Que.Lossless.Backpressure
import Que.Lossless.WriteIter
import Que.Lossless.Footprint
import Que.Lossless.Alike
import Que.Lossless.Abandon
import Que.Lossless.Append
import Que.Lossless.Batch
import Que.Lossless.Agree
import Que.Lossless.Wrap
import Que.Lossless.Lap
import Que.Lossless.Drain
import Que.Headless.Producer
import Que.Headless.Consumer
import Que.Headless.System
import Que.Headless.Contract
import Que.Headless.ProducerSafe
import Que.Headless.ConsumerSafe
import Que.Headless.Invariant
import Que.Headless.Cursor
import Que.Headless.Distinct
import Que.Headless.Partition
import Que.Headless.Rounds
import Que.Headless.Limit
import Que.Startup.System
import Que.Startup.Atomic
import Que.Startup.Handshake
import Que.Startup.Entry
import Que.Startup.Indexing
import Que.Sessions
import Que.Ownership.System
import Que.Ownership.Accounting
import Que.C.Endpoints
import Que.C.Simulation
import Que.Segment
import Que.C.Shmem
import Que.Overflow.Code
import Que.Overflow.Sure
import Que.Overflow.Lossless
import Que.Overflow.Headless
import Que.Lib.Private
import Que.C.Mixed
import Que.Memory.Cells
import Que.Memory.Confined
import Que.Memory.System
import Que.Memory.Hostile
import Que.Answers
import Que.Lossless.WaitFree
import Que.Lib.Fair
import Que.Retry.System
import Que.Retry.Calls
import Que.Retry.Phases
import Que.Retry.Progress
import Que.Polling.System
import Que.Polling.Phases
import Que.Polling.Steps
import Que.Polling.Progress
import Que.Polling.Delivery
import Que.Polling.Broadcast
import Que.Ownership.Multi
