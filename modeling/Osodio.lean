import Osodio.Http.Pipelining
import Osodio.Http.Isolation
import Osodio.Http.Routing
import Osodio.Http.Integrity
import Osodio.Http.Cookies
import Osodio.Http.Lifetimes
import Osodio.Http.StaticFiles
import Osodio.Ws.Closing
import Osodio.Ws.Streams
import Osodio.Ws.Accept
import Osodio.Syntax.Lines
import Osodio.Syntax.Margin
import Osodio.Syntax.Complete
import Osodio.Syntax.Grammar
import Osodio.Syntax.Printing
import Osodio.Syntax.Roundtrip
import Osodio.Syntax.Progress
import Osodio.Syntax.Reads
import Osodio.Syntax.Sound
import Osodio.Syntax.Statements
import Osodio.Syntax.Compound
import Osodio.Syntax.Silent
import Osodio.Syntax.Whole
import Osodio.Ws.Validation
import Osodio.Ws.Recv
import Osodio.Ws.Output
import Osodio.Core.Callbacks
import Osodio.Db.Transactions
import Osodio.Runtime.Cancellation
import Osodio.Odio.Vm
import Osodio.Odio.Passes
import Osodio.Odio.Program
import Osodio.Odio.Shapes
import Osodio.Odio.Discipline
import Osodio.Odio.Pieces
import Osodio.Odio.Frames
import Osodio.Odio.Stacked
import Osodio.Odio.Unwinding
import Osodio.Odio.Yielding
import Osodio.Odio.Suspension
import Osodio.Odio.Correctness
import Osodio.Odio.Admission
import Osodio.Odio.Hygiene
import Osodio.Odio.Specialisation
import Osodio.Odio.Cycles
import Osodio.Odio.Interleaving
import Osodio.Odio.WellStructured
import Osodio.Odio.Messages
import Osodio.Odio.Scoping
import Osodio.Odio.Nesting
import Osodio.Odio.Tags
import Osodio.Odio.Structure
import Osodio.Odio.Dictionaries
import Osodio.Odio.Received
import Osodio.Odio.Exactness
import Osodio.Lib.EventStream
import Osodio.Lib.Digest
import Osodio.Http.SseWriter
import Osodio.Odio.Groups
import Osodio.Auth.Session
import Osodio.Odio.Responses
import Osodio.Odio.ErrorHandlers
import Osodio.Odio.Guards
import Osodio.Json.Doubles
import Osodio.Json.Streaming
import Osodio.Db.Reconnect
import Osodio.Db.LastId
import Osodio.Db.Workers
import Osodio.Db.Params
import Osodio.Db.Placeholders
import Osodio.Http.Multipart
import Osodio.Runtime.Watch
import Osodio.Runtime.Durations
import Osodio.Db.Registry
import Osodio.Odio.Patterns
import Osodio.Odio.Typed
import Osodio.Odio.Validation
import Osodio.Odio.Calls
import Osodio.Odio.Coercion
