import MapReduceCpp.Lib.InputStream
import MapReduceCpp.Lib.Grouping
import MapReduceCpp.Lib.Partition
import MapReduceCpp.Lib.Shuffle
import MapReduceCpp.Lib.FileProg
import MapReduceCpp.Lib.Transition
import MapReduceCpp.Lib.Fairness
import MapReduceCpp.Lib.Interleave
import MapReduceCpp.Lib.Restart
import MapReduceCpp.Lib.Incremental
import MapReduceCpp.Basic
import MapReduceCpp.Utility
import MapReduceCpp.Controller
import MapReduceCpp.Controller.Map
import MapReduceCpp.Controller.Reduce
import MapReduceCpp.Job
import MapReduceCpp.Reference
import MapReduceCpp.Format
import MapReduceCpp.Routing
import MapReduceCpp.Tasks
import MapReduceCpp.Errors
import MapReduceCpp.Clients
import MapReduceCpp.Clients.WordCounter
import MapReduceCpp.Clients.InvertedIndex
import MapReduceCpp.Clients.SparkInvertedIndex
import MapReduceCpp.Clients.ReverseWeblinkGraph
import MapReduceCpp.Process
import MapReduceCpp.Process.Step
import MapReduceCpp.Process.Control
import MapReduceCpp.Process.Server
import MapReduceCpp.Process.Topology
import MapReduceCpp.Process.Accounting
import MapReduceCpp.Process.Credit
import MapReduceCpp.Process.Files
import MapReduceCpp.Process.Recovery
import MapReduceCpp.Process.Session
import MapReduceCpp.Process.Outcomes
import MapReduceCpp.Process.Survival
import MapReduceCpp.Process.WakeUp
import MapReduceCpp.Process.Progress
import MapReduceCpp.Process.Counts
import MapReduceCpp.Process.Ranking
import MapReduceCpp.Process.Advance
import MapReduceCpp.Process.Liveness
import MapReduceCpp.Clients.Main
import MapReduceCpp.Clients.Spark
import MapReduceCpp.Programs
import MapReduceCpp.Rpc.Dispatcher
import MapReduceCpp.Rpc.Connection
import MapReduceCpp.Rpc.Transit
import MapReduceCpp.Rpc.Matching
import MapReduceCpp.Rpc.Delivery
import MapReduceCpp.Rpc.Requests
import MapReduceCpp.Rpc.Refinement
import MapReduceCpp.Rpc.Msgpack
import MapReduceCpp.Rpc.Unpacker
import MapReduceCpp.Rpc.Repack
import MapReduceCpp.Rpc.Link
