import EchoAi.Json.Value
import EchoAi.Json.Text
import EchoAi.Faults
import EchoAi.Table
import EchoAi.Durable.Program
import EchoAi.Agent.Message
import EchoAi.Agent.MessageJson
import EchoAi.Agent.MessageReceived
import EchoAi.Agent.MessageRoundTrip
import EchoAi.Session.Encryption
import EchoAi.Session.SessionSerialize
import EchoAi.Session.SessionIntact
import EchoAi.Session.Reencrypt
import EchoAi.Session.Migration
import EchoAi.Session.MigrationPhases
import EchoAi.Session.VaultRuns
import EchoAi.Session.OwnerRecovery
import EchoAi.Session.MigrationPreserves
import EchoAi.Chains
import EchoAi.Session.Branch
import EchoAi.Session.BranchChains
import EchoAi.Session.BranchFaults
import EchoAi.Session.BranchAtomic
import EchoAi.Session.BranchInfo
import EchoAi.Budget
import EchoAi.Agent.Context
import EchoAi.Agent.ContextSelection
import EchoAi.Agent.ContextWindow
import EchoAi.Agent.ContextPairs
import EchoAi.Agent.SaveSession
import EchoAi.Agent.Run
import EchoAi.Agent.RunAnswers
import EchoAi.Agent.RunAgreement
import EchoAi.Agent.RunHistory
import EchoAi.ChangeTracker
import EchoAi.Server.WsChat
import EchoAi.Server.WsBind
import EchoAi.Server.WsAgreement
import EchoAi.Bytes
import EchoAi.Server.WebSocket
import EchoAi.Server.WebSocketReads
import EchoAi.Splitting
import EchoAi.Splicing
import EchoAi.Tools.Edit
import EchoAi.Safety.Config
import EchoAi.Safety.Command
import EchoAi.FileTree
import EchoAi.Safety.ResolvePath
import EchoAi.Json.Wire
import EchoAi.Llm.Ollama
import EchoAi.Llm.OllamaCalls
import EchoAi.Server.HttpParse
import EchoAi.Llm.OpenaiStream
import EchoAi.Llm.OpenaiChunks
import EchoAi.Tools.Delegate
import EchoAi.Safety.Approvals
import EchoAi.Chronicle
import EchoAi.Server.WsLoop
import EchoAi.Server.WsMoves
import EchoAi.Server.WsApprovals
import EchoAi.Server.WsStack
import EchoAi.Server.WsLifetime
import EchoAi.Server.WsCancel
import EchoAi.Utils.HtmlWriter
import EchoAi.Utils.HtmlExtract
import EchoAi.Utils.HtmlCitations
import EchoAi.Utils.HtmlAssembly
import EchoAi.Ledger
import EchoAi.Utf8
import EchoAi.Ctype
import EchoAi.Utils.Transcode
import EchoAi.Session.Fernet
import EchoAi.Safety.LoadConf
import EchoAi.Safety.Network
import EchoAi.Tools.WebFetch
import EchoAi.Session.InitEncryption
import EchoAi.Llm.OpenaiRequest
import EchoAi.Session.SessionTransfer
import EchoAi.Llm.CompatibleAgreement
import EchoAi.Llm.OauthSystem
import EchoAi.Llm.OauthLogout
import EchoAi.Llm.OauthPolling
import EchoAi.Utils.Metrics
import EchoAi.Config.ConfLoad
import EchoAi.Config.ConfEntries
import EchoAi.Server.Middleware
import EchoAi.Server.ServeStatic
import EchoAi.Llm.OauthCallback
import EchoAi.Tui.Wrap
import EchoAi.Places
import EchoAi.Tui.Chat
import EchoAi.Tui.Transcript
import EchoAi.Tui.ChatShows
import EchoAi.Lockstep
import EchoAi.Tui.PromptStore
import EchoAi.Tui.PromptStoreRuns
import EchoAi.Marks
import EchoAi.Tui.StreamClassifier
import EchoAi.Ring
import EchoAi.Tui.Events
import EchoAi.Tui.Input
import EchoAi.Tui.InputRuns
import EchoAi.Tui.Keys
import EchoAi.Tui.KeysRuns
import EchoAi.Utils.RateLimiter
import EchoAi.Tools.SearchIndexRuns
import EchoAi.Tools.EnsureParents
import EchoAi.Server.WebSocketSend
import EchoAi.Server.ContentLength
import EchoAi.Tools.MultiEdit
import EchoAi.Tools.EditUnique
import EchoAi.Utils.CircuitBreaker
import EchoAi.Json.Tokens
import EchoAi.Utils.SanitizeJson
import EchoAi.Llm.OpenaiEvents
import EchoAi.Llm.CompatibleCalls
import EchoAi.Llm.Thinking
import EchoAi.Llm.ThinkingStreams
import EchoAi.Llm.OauthVault
import EchoAi.Utils.HttpClient
import EchoAi.Utils.HtmlUnicode
import EchoAi.Llm.OauthCodec
import EchoAi.Tui.Columns
import EchoAi.Tui.WrapLines
import EchoAi.Tui.InputBuffer
import EchoAi.Double
import EchoAi.Tools.ReadFile
import EchoAi.Memory
import EchoAi.Tools.Bash
import EchoAi.Tools.GrepLines
import EchoAi.Tools.Grep
import EchoAi.Safety.UrlPolicy
import EchoAi.Tui.ChatFaults
import EchoAi.Llm.OpenaiCalls
import EchoAi.Utils.Ellipsis
import EchoAi.Utils.HtmlRawText
import EchoAi.Tui.Markdown
import EchoAi.Tui.MarkdownSpans
import EchoAi.LineRuns
import EchoAi.Tools.EditDiff
import EchoAi.Tools.EditRuns
import EchoAi.Mailbox
import EchoAi.Browser.Cdp
import EchoAi.Browser.CdpRuns
import EchoAi.Server.Auth
import EchoAi.Server.AuthRuns
import EchoAi.RollingWindow
import EchoAi.Server.AuthThrottle
import EchoAi.Tui.Dialogs
