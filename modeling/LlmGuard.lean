import LlmGuard.Masker.Reveals
import LlmGuard.Code.Demasker
import LlmGuard.Demasker.Exact
import LlmGuard.Demasker.RoundTrip
import LlmGuard.Demasker.Tolerant
import LlmGuard.Code.Json
import LlmGuard.Demasker.Chunks
import LlmGuard.Demasker.LookAlikes
import LlmGuard.Json.Elements
import LlmGuard.Json.Leaves
import LlmGuard.Json.Scoped
import LlmGuard.Json.Strings
import LlmGuard.Scanner.FanOut
import LlmGuard.Code.Extract
import LlmGuard.Demasker.Arguments
import LlmGuard.Demasker.HoldBack
import LlmGuard.Extract.Complete
import LlmGuard.Extract.Patch
import LlmGuard.Code.Boot
import LlmGuard.Code.ConnectionPool
import LlmGuard.Code.Migrations
import LlmGuard.Code.RegistryIndex
import LlmGuard.Code.Sse
import LlmGuard.Core.Boot
import LlmGuard.Database.Migrations
import LlmGuard.Database.Pool
import LlmGuard.Demasker.Calls
import LlmGuard.Lib.Frames
import LlmGuard.Lib.Utf8Text
import LlmGuard.Masker.Workers
import LlmGuard.Registry.Index
import LlmGuard.Sse.Events
import LlmGuard.Demasker.OwnPlaceholders
import LlmGuard.Demasker.Runes
import LlmGuard.Code.Base64
import LlmGuard.Code.Pg
import LlmGuard.Database.Conninfo
import LlmGuard.Demasker.Replacer
import LlmGuard.Lib.Base64
import LlmGuard.Lib.Decimal
import LlmGuard.Pattern.Fuel
import LlmGuard.Scanner.AllMatches
import LlmGuard.Sse.CloseTracker
import LlmGuard.Utils.Base64
import LlmGuard.Validators.Checksums
import LlmGuard.Validators.Ip
import LlmGuard.Pattern.Guarantee
import LlmGuard.Validators.Utf8
import LlmGuard.Pipeline.RoundTrip
import LlmGuard.Database.Transactions
import LlmGuard.Database.Routing
import LlmGuard.Cache.Fresh
import LlmGuard.Config.Settings
import LlmGuard.RulesYaml.Register
import LlmGuard.Pipeline.Response
import LlmGuard.Masker.Conversation
import LlmGuard.Database.MigrationFaults
import LlmGuard.Observability.Logs
import LlmGuard.Api.Paths
import LlmGuard.Code.Server
import LlmGuard.Code.Tasks
import LlmGuard.Code.WantsStream
import LlmGuard.Lib.CheckDigits
import LlmGuard.Lib.Moments
import LlmGuard.Masker.Growth
import LlmGuard.Pipeline.Frame
import LlmGuard.Server.Answers
import LlmGuard.Tasks.Timers
import LlmGuard.Validators.Registers
