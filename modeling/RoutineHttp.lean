import RoutineHttp.Lib.Records
import RoutineHttp.Lib.Segments
import RoutineHttp.Lib.Dictionary
import RoutineHttp.Lib.Message
import RoutineHttp.Lib.PrefixTree
import RoutineHttp.Lib.RuleSet
import RoutineHttp.Lib.Arrival
import RoutineHttp.Lib.Runs
import RoutineHttp.Lib.Channel
import RoutineHttp.Lib.Turns
import RoutineHttp.Lib.Framing
import RoutineHttp.Lib.Shares
import RoutineHttp.Lib.WriteQueue
import RoutineHttp.Text
import RoutineHttp.Types
import RoutineHttp.Utils
import RoutineHttp.Splitters
import RoutineHttp.Headers
import RoutineHttp.Params
import RoutineHttp.BodyStorage
import RoutineHttp.StorageObservers
import RoutineHttp.Request
import RoutineHttp.Response
import RoutineHttp.RouteHandler
import RoutineHttp.Routing
import RoutineHttp.RegistrationOrder
import RoutineHttp.RouterInvariant
import RoutineHttp.PathBindings
import RoutineHttp.RouterRefinement
import RoutineHttp.QueryRouting
import RoutineHttp.ResponseFraming
import RoutineHttp.RequestFraming
import RoutineHttp.RequestLine
import RoutineHttp.PathTemplate
import RoutineHttp.HeaderRoundTrip
import RoutineHttp.HeaderSlices
import RoutineHttp.HeaderViews
import RoutineHttp.HeaderCase
import RoutineHttp.FieldGrammar
import RoutineHttp.RequestRoundTrip
import RoutineHttp.QueryRoundTrip
import RoutineHttp.ReflectedInput
import RoutineHttp.RequestHandler
import RoutineHttp.HttpSession
import RoutineHttp.Segmentation
import RoutineHttp.RequestService
import RoutineHttp.ResponseDecoding
import RoutineHttp.Resending
import RoutineHttp.RequestRelay
import RoutineHttp.ParameterFields
import RoutineHttp.ParameterDelivery
import RoutineHttp.QueryDelivery
import RoutineHttp.ChunkedRequests
import RoutineHttp.BodyLength
import RoutineHttp.HandlerProtocol
import RoutineHttp.PreparedBody
import RoutineHttp.SessionSteps
import RoutineHttp.ResponseStream
import RoutineHttp.ServerClose
import RoutineHttp.IdleTimeout
import RoutineHttp.HeadCompletion
import RoutineHttp.Acceptor
import RoutineHttp.ClientSession
import RoutineHttp.IoThreads
import RoutineHttp.TimeoutClose
import RoutineHttp.ThreadPool
import RoutineHttp.LoadBalance
import RoutineHttp.PoolConservation
import RoutineHttp.SchedulerRun
import RoutineHttp.WorkerConstruction
import RoutineHttp.IoLoops
import RoutineHttp.PoolOrder
import RoutineHttp.PoolProgress
import RoutineHttp.Conversation
import RoutineHttp.LoopRefinement
