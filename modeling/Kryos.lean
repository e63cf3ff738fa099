import Kryos.Mir.ConstEval
import Kryos.Wasm.IntRuns
import Kryos.Wasm.Relooper
import Kryos.Mir.PureCse
import Kryos.Mir.Dce
import Kryos.Mir.Tco
import Kryos.Mir.Inline
import Kryos.Runtime.Channel
import Kryos.Runtime.Spawn
import Kryos.Runtime.Actor
import Kryos.Runtime.ClosureLock
import Kryos.Runtime.MapStore
import Kryos.Mir.DynSound
import Kryos.Runtime.ArrayCounts
import Kryos.SelfHost.LinkSound
import Kryos.Runtime.Budget
import Kryos.Stdlib.JsonRoundTrip
import Kryos.Package.ResolveOrder
import Kryos.Types.DenyVerdict
import Kryos.Types.UnifySound
import Kryos.Types.RowCharge
import Kryos.Ownership.DefiniteInit
import Kryos.Stdlib.WaitGroup
import Kryos.Package.Lock
import Kryos.Package.Checksum
import Kryos.Wasm.StringMemory
import Kryos.Driver.NodeTables
import Kryos.Parser.IntLiteral
import Kryos.Capabilities.LocalClosureCaps
import Kryos.Types.CapSlots
import Kryos.Runtime.AsyncExecutor
import Kryos.Lexer.Tokens
import Kryos.Capabilities.InferenceAgreement
import Kryos.Stdlib.Base64
import Kryos.Stdlib.Websocket
import Kryos.CfgStrip
import Kryos.Runtime.Buffer
import Kryos.Package.CapsBadge
import Kryos.Stdlib.Regex
import Kryos.Types.Exhaustive
import Kryos.Stdlib.HttpMessage
import Kryos.Lsp.Positions
import Kryos.Stdlib.StdJsonRoundTrip
import Kryos.SelfHost.OptimizeSound
import Kryos.Stdlib.Iter
import Kryos.Stdlib.Mathx
import Kryos.Stdlib.RateLimit
import Kryos.Stdlib.Format
import Kryos.Stdlib.Fuzzy
import Kryos.Stdlib.Csv
import Kryos.Stdlib.FromTimestamp
import Kryos.Types.MethodLookup
import Kryos.Stdlib.PathRelative
import Kryos.Native.IntPower
import Kryos.Package.Precedence
import Kryos.Mir.Unreachable
import Kryos.Runtime.CoopRounds
import Kryos.Lexer.EscapeString
import Kryos.Package.Sha256
