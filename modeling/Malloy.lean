import Malloy.Core.ActionQueue
import Malloy.Server.Auth.Basic
import Malloy.Server.Http.RequestParser
import Malloy.Server.Routing.FileServing
import Malloy.Server.Routing.Policy
import Malloy.Server.Http.Connection
import Malloy.Server.Http.Framing
import Malloy.Server.Http.Pipelining
import Malloy.Core.Websocket.Connection
import Malloy.Core.Websocket.Lifecycle
import Malloy.Server.Routing.Nesting
import Malloy.Server.Routing.SubrouterOrder
import Malloy.Core.Html.Multipart
import Malloy.Core.Html.Form
import Malloy.Core.Html.Submission
import Malloy.Core.Http.Cookie
import Malloy.Lib.KeyMap
import Malloy.Lib.Machine
import Malloy.Core.Http.Session.Storage
import Malloy.Core.Http.Session.Manager
import Malloy.Core.Http.Session.Refinement
import Malloy.Core.Http.Session.Lifetime
import Malloy.Core.Http.Session.Returning
import Malloy.Server.Routing.Registration
import Malloy.Server.Routing.Move
import Malloy.Core.Websocket.Closing
import Malloy.Client.Controller
import Malloy.Server.Routing.Assembly
import Malloy.Server.Routing.Inheritance
import Malloy.Lib.Log
import Malloy.Server.Http.Serving
import Malloy.Server.Listener
import Malloy.Core.Html.Cutting
import Malloy.Core.Html.Delimiters
import Malloy.Core.Html.BoundaryParameter
import Malloy.Core.Html.Spelling
import Malloy.Core.Html.Urlencoded
import Malloy.Core.Html.UrlDecoding
import Malloy.Core.Html.Segments
import Malloy.Core.Http.CookieReaders
import Malloy.Core.Http.SetCookie
import Malloy.Core.Html.Populate
import Malloy.Core.Html.Renderer
import Malloy.Core.Html.MediaType
import Malloy.Client.Http.Connection
import Malloy.Server.Routing.Members
import Malloy.Server.Routing.Mounting
import Malloy.Server.Routing.Patterns
import Malloy.Server.Routing.Preflight
import Malloy.Core.ActionQueue.Draining
import Malloy.Core.Websocket.Queues
import Malloy.Core.Websocket.Draining
import Malloy.Lib.Coupling
import Malloy.Core.Http.Session.Isolation
import Malloy.Server.Auth.Guard
import Malloy.Server.Routing.Growth
import Malloy.Core.Websocket.Disconnecting
import Malloy.Server.Http.Turns
import Malloy.Core.ControllerRunResult
import Malloy.Core.ControllerRunResult.Owning
import Malloy.Core.ControllerRunResult.Ending
import Malloy.Server.Http.Stream
import Malloy.Core.Html.FormData
import Malloy.Core.Websocket.Order
import Malloy.Server.RoutingContext
import Malloy.Client.Http.Delivery
