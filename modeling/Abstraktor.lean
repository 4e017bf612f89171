import Abstraktor.Lib.Bytes
import Abstraktor.Lib.Counter
import Abstraktor.Lib.ListSearch
import Abstraktor.Lib.Regex
import Abstraktor.Lib.SortedMap
import Abstraktor.Lib.Toposort
import Abstraktor.Str
import Abstraktor.Instrumentor.Regexes
import Abstraktor.Instrumentor.Targets
import Abstraktor.Instrumentor.Groups
import Abstraktor.Instrumentor.Variables
import Abstraktor.EventGraph.Graph
import Abstraktor.EventGraph.Dot
import Abstraktor.Mediator.LogFormat
import Abstraktor.Runtime.Events
import Abstraktor.CovServer.Collect
import Abstraktor.Mediator.Decode
import Abstraktor.Mediator.Watermarks
import Abstraktor.Mediator.Clocks
import Abstraktor.Mediator.CommitManager
import Abstraktor.Mediator.Event
import Abstraktor.Mediator.Timeline
import Abstraktor.Mediator.PhaseTwo
import Abstraktor.Mediator.TimelineRun
import Abstraktor.Mediator.Submission
import Abstraktor.Lib.OrderStat
import Abstraktor.Raft.Progress
import Abstraktor.Raft.Replication
import Abstraktor.Lib.CircularBuffer
import Abstraktor.Raft.Log
import Abstraktor.Raft.LogRefine
import Abstraktor.Raft.LogRun
import Abstraktor.Lib.XorFingerprint
import Abstraktor.Feedback.ChangeAwareSet
import Abstraktor.Feedback.Summary
import Abstraktor.Feedback.TimelineGraph
import Abstraktor.Feedback.Worklist
import Abstraktor.Lib.Buckets
import Abstraktor.Raft.LogRefs
import Abstraktor.Raft.LogClient
