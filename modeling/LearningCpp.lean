import LearningCpp.AsyncEcho.Conversation
import LearningCpp.AsyncEcho.HandlerMemory
import LearningCpp.AsyncEcho.Session
import LearningCpp.CharConvert.Agreement
import LearningCpp.CharConvert.UrlDecode
import LearningCpp.Chat.Client
import LearningCpp.Chat.Conversation
import LearningCpp.Chat.Message
import LearningCpp.Chat.Quiescence
import LearningCpp.Chat.Room
import LearningCpp.Chat.Session
import LearningCpp.Echo.Separation
import LearningCpp.Echo.Server
import LearningCpp.EncodeConvert.Convert
import LearningCpp.EncodeConvert.Gbk
import LearningCpp.EncodeConvert.GbkScan
import LearningCpp.EncodeConvert.Utf8
import LearningCpp.EpollServer.Loop
import LearningCpp.EpollTrigger.Pipe
import LearningCpp.EpollTrigger.Servers
import LearningCpp.ExpConf.HandOver
import LearningCpp.ExpConf.Load
import LearningCpp.ExpConf.Lookup
import LearningCpp.ExpConf.Sections
import LearningCpp.ExpConf.Text
import LearningCpp.FileCp.Display
import LearningCpp.FileCp.Process
import LearningCpp.FileCp.Thread
import LearningCpp.FiveClients.Server
import LearningCpp.Fjp.Build
import LearningCpp.Fjp.Creator
import LearningCpp.Fjp.PartialRead
import LearningCpp.Fjp.RoundTrip
import LearningCpp.Fjp.Table
import LearningCpp.Fjp.Weights
import LearningCpp.Fjp.ZTable
import LearningCpp.FuturePool.Join
import LearningCpp.FuturePool.ThreadPool
import LearningCpp.GlobalHelper.SplitRequest
import LearningCpp.Http.Connection
import LearningCpp.Http.Decode
import LearningCpp.Http.Grammar
import LearningCpp.Http.Handler
import LearningCpp.Http.Headers
import LearningCpp.Http.Parser
import LearningCpp.Http.Recognition
import LearningCpp.Http.Reply
import LearningCpp.Http.Residual
import LearningCpp.Http.Version
import LearningCpp.HttpClient.AsyncClient
import LearningCpp.HttpClient.Conversation
import LearningCpp.HttpClient.Request
import LearningCpp.HttpClient.Response
import LearningCpp.HttpServer.Manager
import LearningCpp.HttpServer.Runs
import LearningCpp.IniFile.Lines
import LearningCpp.IniFile.Read
import LearningCpp.IniFile.Reading
import LearningCpp.Invert.Answers
import LearningCpp.Invert.Build
import LearningCpp.Invert.Creator
import LearningCpp.Invert.Loading
import LearningCpp.Invert.Rebuild
import LearningCpp.Invert.Serving
import LearningCpp.Invert.Table
import LearningCpp.Library.CString
import LearningCpp.Library.Census
import LearningCpp.Library.Countdown
import LearningCpp.Library.DoublyLinked
import LearningCpp.Library.Escapes
import LearningCpp.Library.FirstOccurrence
import LearningCpp.Library.Frames
import LearningCpp.Library.Framing
import LearningCpp.Library.Languages
import LearningCpp.Library.LeastUnused
import LearningCpp.Library.Machine
import LearningCpp.Library.MapFold
import LearningCpp.Library.Measure
import LearningCpp.Library.Mutex
import LearningCpp.Library.Occurrences
import LearningCpp.Library.Pages
import LearningCpp.Library.Pattern
import LearningCpp.Library.Pieces
import LearningCpp.Library.RangeCopy
import LearningCpp.Library.Readiness
import LearningCpp.Library.Recency
import LearningCpp.Library.Recognizer
import LearningCpp.Library.RecordCodec
import LearningCpp.Library.Ring
import LearningCpp.Library.RunIndex
import LearningCpp.Library.Runs
import LearningCpp.Library.Semaphore
import LearningCpp.Library.Simulation
import LearningCpp.Library.StableSort
import LearningCpp.Library.Strip
import LearningCpp.Library.Units
import LearningCpp.Library.Walk
import LearningCpp.Library.Workers
import LearningCpp.Lru.Cache
import LearningCpp.Lru.History
import LearningCpp.Philosopher.Progress
import LearningCpp.Philosopher.Table
import LearningCpp.PollServer.Reports
import LearningCpp.PollServer.Server
import LearningCpp.Pool.Arguments
import LearningCpp.Pool.Bounds
import LearningCpp.Pool.Model
import LearningCpp.Pool.Moves
import LearningCpp.Pool.Queue
import LearningCpp.Pool.Shutdown
import LearningCpp.Pool11.Ending
import LearningCpp.Pool11.Program
import LearningCpp.Pool14.Drain
import LearningCpp.Pool98.Stop
import LearningCpp.Reactor.Echo
import LearningCpp.Reactor.Leaks
import LearningCpp.Reactor.Model
import LearningCpp.Reactor.Registration
import LearningCpp.Reactor.Rounds
import LearningCpp.Repository.Fifo
import LearningCpp.Repository.Model
import LearningCpp.Repository.Progress
import LearningCpp.Repository.Recount
import LearningCpp.Repository.Termination
import LearningCpp.Repository.VariantRuns
import LearningCpp.Repository.Variants
import LearningCpp.Runtime.Extract
import LearningCpp.Runtime.InStream
import LearningCpp.Runtime.MapFile
import LearningCpp.Runtime.Memory
import LearningCpp.SelectServer.Descriptors
import LearningCpp.SelectServer.Server
import LearningCpp.Shell.ExecuteCmd
import LearningCpp.SimplePool.Jobs
import LearningCpp.SimplePool.LinkedList
import LearningCpp.SimplePool.Pool
import LearningCpp.SimpleReactor.Listener
import LearningCpp.SimpleReactor.Model
import LearningCpp.Stl.String
import LearningCpp.Stl.StringSplit
import LearningCpp.Wrap.Lines
import LearningCpp.Wrap.Readline
import LearningCpp.Wrap.Transfer
