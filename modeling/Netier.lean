import Netier.CString
import Netier.Connection.Actions
import Netier.Connection.Buffer
import Netier.Connection.Consuming
import Netier.Connection.Context
import Netier.Connection.Destruction
import Netier.Connection.Edges
import Netier.Connection.Effects
import Netier.Connection.Endpoints
import Netier.Connection.Fate
import Netier.Connection.Files
import Netier.Connection.Frame
import Netier.Connection.HandlerEffects
import Netier.Connection.Handlers
import Netier.Connection.Hearing
import Netier.Connection.Input
import Netier.Connection.IoContext
import Netier.Connection.LifeCycle
import Netier.Connection.Locality
import Netier.Connection.Operations
import Netier.Connection.Output
import Netier.Connection.OutputCalls
import Netier.Connection.OutputOrder
import Netier.Connection.Overloads
import Netier.Connection.Passes
import Netier.Connection.Primitives
import Netier.Connection.QueuedOutput
import Netier.Connection.Reading
import Netier.Connection.Record
import Netier.Connection.Registration
import Netier.Connection.ShortWrites
import Netier.Connection.Sizes
import Netier.Connection.Streams
import Netier.Connection.Teardown
import Netier.Connection.TrivialFile
import Netier.Connection.World
import Netier.Http.Body
import Netier.Http.Grammar
import Netier.Http.Limits
import Netier.Http.Lines
import Netier.Http.Message
import Netier.Http.Request
import Netier.Http.RequestText
import Netier.Http.Response
import Netier.Http.ResponseText
import Netier.Http.RoundTrip
import Netier.Http.Safety
import Netier.Http.Text
import Netier.Http.Url
import Netier.Http.UrlEnds
import Netier.Http.UrlText
import Netier.Http.Version
import Netier.Kernel
import Netier.Lib.Census
import Netier.Lib.Channel
import Netier.Lib.Feed
import Netier.Lib.Flags
import Netier.Lib.Iteration
import Netier.Lib.Outcome
import Netier.Lib.Ownership
import Netier.Lib.Projection
import Netier.Lib.Relational
import Netier.Lib.Run
import Netier.Numerals
import Netier.Pool.Draining
import Netier.Pool.Rejection
import Netier.Pool.Serving
import Netier.Pool.Shutdown
import Netier.Pool.ThreadPool
import Netier.Pool.Waiting
import Netier.Server.Batch
import Netier.Server.Containment
import Netier.Server.Creation
import Netier.Server.Descriptors
import Netier.Server.Destructor
import Netier.Server.Dispatch
import Netier.Server.Independence
import Netier.Server.Readiness
import Netier.Server.Registry
import Netier.Server.Serve
import Netier.Server.Server
import Netier.Server.Staging
import Netier.Server.StaysOut
import Netier.Socket.Acceptor
import Netier.Socket.Address
import Netier.Socket.Blocking
import Netier.Socket.Ownership
import Netier.Socket.Socket
