import VyattaRest.Lib.Bytes
import VyattaRest.Lib.Percent
import VyattaRest.Lib.Markup
import VyattaRest.Lib.Decimal
import VyattaRest.Lib.Split
import VyattaRest.Lib.OrdMap
import VyattaRest.Common
import VyattaRest.StrProc
import VyattaRest.Chunker.Wire
import VyattaRest.Chunker.Tokenize
import VyattaRest.Chunker.OpenQuote
import VyattaRest.Chunker.Table
import VyattaRest.Chunker.Response
import VyattaRest.RestClient
import VyattaRest.Lib.Prog
import VyattaRest.Server.Http
import VyattaRest.Lib.Frame
import VyattaRest.Server.Framing
import VyattaRest.Server.Calls
import VyattaRest.Server.Auth
import VyattaRest.Server.Configuration
import VyattaRest.Server.TemplateOrder
import VyattaRest.Server.Enumeration
import VyattaRest.Server.NodeStates
import VyattaRest.Server.ConfMode
import VyattaRest.Server.ConfCalls
import VyattaRest.Server.OpMode
import VyattaRest.Server.AppMode
import VyattaRest.Lib.FileTree
import VyattaRest.Server.ServicePath
import VyattaRest.Lib.Strip
import VyattaRest.Lib.Word
import VyattaRest.Server.HeaderBlock
import VyattaRest.Server.Permissions
import VyattaRest.Server.Main
import VyattaRest.Server.Access
import VyattaRest.Lib.Shell
import VyattaRest.Lib.Exports
import VyattaRest.Server.CommandLine
import VyattaRest.Server.Ownership
import VyattaRest.Server.Registration
import VyattaRest.Server.OutOfRange
import VyattaRest.Lib.Machine
import VyattaRest.Server.Credentials
import VyattaRest.Server.Descriptions
import VyattaRest.Server.Effects
import VyattaRest.Server.JsonObject
import VyattaRest.Lib.Lines
import VyattaRest.Lib.JsonText
import VyattaRest.Lib.JsonEscape
import VyattaRest.Server.Messages
import VyattaRest.SessionKey
import VyattaRest.Server.SessionFile
import VyattaRest.SessionLock
import VyattaRest.Chunker.Manager
import VyattaRest.Chunker.Isolation
import VyattaRest.Chunker.Entries
import VyattaRest.Chunker.StartNew
import VyattaRest.Chunker.Kill
import VyattaRest.Chunker.Escalation
import VyattaRest.Delivery
import VyattaRest.Lib.Pages
import VyattaRest.Paging
import VyattaRest.ClientSession
import VyattaRest.ClientBatch
import VyattaRest.ClientCommand
import VyattaRest.RoundTrip
import VyattaRest.AppMessage
import VyattaRest.Lib.ConfigTree
import VyattaRest.AppReconcile
import VyattaRest.AppRead
import VyattaRest.AppFailure
import VyattaRest.Lib.HashTree
import VyattaRest.AppErrors
import VyattaRest.AppCommands
import VyattaRest.AppBuild
import VyattaRest.AppEdit
import VyattaRest.Server.ServiceIndex
import VyattaRest.Server.ConfUrls
import VyattaRest.Server.Token
import VyattaRest.Lib.Loop
import VyattaRest.ConfRoundTrip
