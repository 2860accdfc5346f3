import OphidiaWorkflow.Response.Accepted
import OphidiaWorkflow.Response.Extraction
import OphidiaWorkflow.Engine.Progress
import OphidiaWorkflow.Lib.Loops
import OphidiaWorkflow.Lib.Digraph
import OphidiaWorkflow.Model.Structs
import OphidiaWorkflow.Setup.Indexing
import OphidiaWorkflow.Setup.Validate
import OphidiaWorkflow.Setup.Topological
import OphidiaWorkflow.Engine.SetStatus
import OphidiaWorkflow.Engine.Execute
import OphidiaWorkflow.Engine.Notify
import OphidiaWorkflow.Flow.Loop
import OphidiaWorkflow.Flow.Selection
import OphidiaWorkflow.Engine.System
import OphidiaWorkflow.Engine.Dependences
import OphidiaWorkflow.Engine.Accounting
import OphidiaWorkflow.Engine.AtMostOnce
import OphidiaWorkflow.Setup.FlowControl
import OphidiaWorkflow.Setup.Blocks
import OphidiaWorkflow.Engine.Layout
import OphidiaWorkflow.Flow.Iteration
import OphidiaWorkflow.Flow.Disable
import OphidiaWorkflow.Lib.Cut
import OphidiaWorkflow.Text.Query
import OphidiaWorkflow.Lib.Decimal
import OphidiaWorkflow.Text.Submission
import OphidiaWorkflow.Engine.Inbox
import OphidiaWorkflow.Engine.Start
import OphidiaWorkflow.Request.Store
import OphidiaWorkflow.Lib.Heap
import OphidiaWorkflow.Request.Environment
import OphidiaWorkflow.Request.Checkpoint
import OphidiaWorkflow.Request.Restoring
import OphidiaWorkflow.Request.Variables
import OphidiaWorkflow.Flow.Values
import OphidiaWorkflow.Engine.Arguments
import OphidiaWorkflow.Engine.Delivery
import OphidiaWorkflow.Flow.Supply
import OphidiaWorkflow.Text.Comments
import OphidiaWorkflow.Text.Parse
import OphidiaWorkflow.Text.Print
import OphidiaWorkflow.Request.Load
import OphidiaWorkflow.Request.Stages
import OphidiaWorkflow.Request.ReadBack
import OphidiaWorkflow.Request.RoundTrip
import OphidiaWorkflow.Server.Markers
import OphidiaWorkflow.Lib.Linked
import OphidiaWorkflow.Server.JobList
import OphidiaWorkflow.Server.Expiry
import OphidiaWorkflow.Server.Farm
import OphidiaWorkflow.Server.Queue
import OphidiaWorkflow.Server.Handlers
import OphidiaWorkflow.Server.Monitor
import OphidiaWorkflow.Server.Polls
import OphidiaWorkflow.Server.Limits
import OphidiaWorkflow.Text.Expansion
import OphidiaWorkflow.Text.Survival
import OphidiaWorkflow.Text.Jansson
import OphidiaWorkflow.Request.Carried
import OphidiaWorkflow.Request.Pasted
import OphidiaWorkflow.Request.Reload
import OphidiaWorkflow.Auth.Roles
import OphidiaWorkflow.Auth.Session
import OphidiaWorkflow.Auth.Attempts
import OphidiaWorkflow.Server.Waiting
import OphidiaWorkflow.Text.Stripping
import OphidiaWorkflow.Text.TaskString
import OphidiaWorkflow.Text.Commented
import OphidiaWorkflow.Text.Bracketed
import OphidiaWorkflow.Server.Folders
import OphidiaWorkflow.Setup.Reserved
import OphidiaWorkflow.Engine.Backoff
import OphidiaWorkflow.Request.Amounts
import OphidiaWorkflow.Request.Nulls
import OphidiaWorkflow.Request.Inheritance
import OphidiaWorkflow.Flow.References
import OphidiaWorkflow.Flow.Sizes
import OphidiaWorkflow.Lib.Replicate
import OphidiaWorkflow.Flow.Parallel
import OphidiaWorkflow.Engine.Retries
import OphidiaWorkflow.Server.Detached
import OphidiaWorkflow.Server.Selected
import OphidiaWorkflow.Auth.Files
import OphidiaWorkflow.Server.Confinement
import OphidiaWorkflow.Lib.Progression
import OphidiaWorkflow.Text.Subset
import OphidiaWorkflow.Flow.Counter
import OphidiaWorkflow.Text.Ranges
import OphidiaWorkflow.Flow.Compression
import OphidiaWorkflow.Engine.ExitCubes
import OphidiaWorkflow.Server.Paths
import OphidiaWorkflow.Lib.Block
import OphidiaWorkflow.Server.PathBuffers
import OphidiaWorkflow.Text.Massive
import OphidiaWorkflow.Request.Command
import OphidiaWorkflow.Flow.Descent
import OphidiaWorkflow.Text.Multiple
import OphidiaWorkflow.Lib.Exchange
import OphidiaWorkflow.Model.HashTable
import OphidiaWorkflow.Text.ArgsList
import OphidiaWorkflow.Server.JobQueue
import OphidiaWorkflow.Server.Saved
import OphidiaWorkflow.Server.Workers
import OphidiaWorkflow.Lib.Padded
import OphidiaWorkflow.Text.Segments
import OphidiaWorkflow.Text.Versions
import OphidiaWorkflow.Server.Searched
