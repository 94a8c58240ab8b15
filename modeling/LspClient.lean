import LspClient.Lib.Splice
import LspClient.Lib.Lines
import LspClient.Lib.ByteStream
import LspClient.Lib.Run
import LspClient.Lib.Tasks
import LspClient.Lib.Channel
import LspClient.Lib.Actions
import LspClient.Lib.Fallback
import LspClient.Lib.Mro
import LspClient.Lib.Journal
import LspClient.Lib.FileTree
import LspClient.Lib.Percent
import LspClient.Lib.Lexical
import LspClient.Text
import LspClient.TextEdit
import LspClient.Framing
import LspClient.ResponseTable
import LspClient.Requests
import LspClient.Strays
import LspClient.Hooks
import LspClient.ServerRequests
import LspClient.Servers
import LspClient.Capabilities
import LspClient.Uri
import LspClient.Workspace
import LspClient.WorkspaceId
import LspClient.Configuration
import LspClient.DocumentState
import LspClient.Brackets
import LspClient.Client
import LspClient.Outstanding
import LspClient.Release
import LspClient.Reentry
import LspClient.WorkspaceEdit
import LspClient.Resources
import LspClient.Rename
import LspClient.Mirror
import LspClient.Writers
import LspClient.WriteFile
import LspClient.EditRaces
import LspClient.Columns
import LspClient.Handlers
import LspClient.Inspection
import LspClient.Queries
import LspClient.Endings
import LspClient.Lib.StableSort
import LspClient.Lifecycle
import LspClient.LineEnds
import LspClient.SharedStarts
import LspClient.OpenClosed
import LspClient.Lib.FilePlaces
import LspClient.ManagerRuns
import LspClient.Versions
import LspClient.Contents
import LspClient.Atomicity
import LspClient.TrackedFiles
import LspClient.Lib.Dict
import LspClient.Config
import LspClient.Lib.Refresh
import LspClient.Lib.Rose
import LspClient.Lib.Separated
import LspClient.Lib.Gather
import LspClient.Lib.Condition
import LspClient.Symbols
import LspClient.Mounts
import LspClient.Hierarchy
import LspClient.Reruns
import LspClient.WakeUps
import LspClient.CodeActions
import LspClient.Lib.Ancestors
import LspClient.Projects
