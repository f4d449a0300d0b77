import Centaurx.System.Registry
import Centaurx.System.OutputOrder
import Centaurx.System.Durability
import Centaurx.System.LoadFailure
import Centaurx.TabRuns.OneRun
import Centaurx.SshServer.Login
import Centaurx.System.ActiveTab
import Centaurx.System.BufferViews
import Centaurx.TabRuns.CloseStops
import Centaurx.TabRuns.Renew
import Centaurx.Paths.StateFiles
import Centaurx.Repo.GitCommands
import Centaurx.Repo.MappedPaths
import Centaurx.Repo.CloneURL
import Centaurx.Command.Parse
import Centaurx.Command.GitCommit
import Centaurx.Markdown.Markers
import Centaurx.Command.ShellOutput
import Centaurx.Lib.ShellWords
import Centaurx.Output.Producers
import Centaurx.Output.CommandItems
import Centaurx.SshServer.Frame
import Centaurx.SshServer.Cursor
import Centaurx.SshServer.TabLayout
import Centaurx.SshServer.WrappedLines
import Centaurx.SshServer.LineEditing
import Centaurx.SshServer.CodexAuthPaste
import Centaurx.SshServer.HistoryKeys
import Centaurx.SshServer.Secrets
import Centaurx.SshServer.PromptQueue
import Centaurx.HttpApi.Delivery
import Centaurx.HttpApi.Reconnect
import Centaurx.HttpApi.StreamConnect
import Centaurx.HttpApi.Snapshot
import Centaurx.HttpApi.Sessions
import Centaurx.HttpApi.SessionRestart
import Centaurx.Auth.FailedChanges
import Centaurx.Auth.SharedFile
import Centaurx.RunnerContainer.Responses
import Centaurx.RunnerContainer.Orphans
import Centaurx.RunnerContainer.Busy
import Centaurx.RunnerContainer.Stops
import Centaurx.RunnerGrpc.Protocol
import Centaurx.SshKeys.Rotation
import Centaurx.UserHome
import Centaurx.SshAgent
import Centaurx.RunnerGrpc.Signals
import Centaurx.HttpApi.TabLists
import Centaurx.RunnerContainer.FailedStarts
import Centaurx.RunnerContainer.Names
import Centaurx.Codex.Stream
import Centaurx.RunnerGrpc.LongLines
import Centaurx.RunnerContainer.SharedRunner
import Centaurx.RunnerGrpc.ProcessTree
import Centaurx.Core.BufferLife
import Centaurx.Core.PromptHistory
import Centaurx.Core.TabNames
import Centaurx.HttpApi.TabWindow
import Centaurx.HttpApi.AndroidRefresh
import Centaurx.TabRuns.StopScope
import Centaurx.Shipohoy.RingBuffer
import Centaurx.Shipohoy.LogSearch
import Centaurx.Bootstrap.Overrides
import Centaurx.Command.UsageReset
