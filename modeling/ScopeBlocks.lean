import ScopeBlocks.Cli.Arguments
import ScopeBlocks.Cli.Compile
import ScopeBlocks.Cli.Drive
import ScopeBlocks.Cli.Load
import ScopeBlocks.Cli.Report
import ScopeBlocks.Cli.Run
import ScopeBlocks.Device.Errand
import ScopeBlocks.Device.Http
import ScopeBlocks.Device.Prepared
import ScopeBlocks.Device.Request
import ScopeBlocks.Device.Route
import ScopeBlocks.Device.Settings
import ScopeBlocks.Dict
import ScopeBlocks.Json.Basic
import ScopeBlocks.Json.Reader
import ScopeBlocks.Main
import ScopeBlocks.Number.Basic
import ScopeBlocks.Number.Decimal
import ScopeBlocks.Number.Shortest
import ScopeBlocks.Number.Word
import ScopeBlocks.Script.Builder
import ScopeBlocks.Script.Call
import ScopeBlocks.Script.Error
import ScopeBlocks.Script.Eval
import ScopeBlocks.Script.Grammar
import ScopeBlocks.Script.Machine
import ScopeBlocks.Script.Operator
import ScopeBlocks.Script.Parse
import ScopeBlocks.Script.Primitive
import ScopeBlocks.Script.Rules
import ScopeBlocks.Script.Store
import ScopeBlocks.Script.Surface
import ScopeBlocks.Script.Syntax
import ScopeBlocks.Script.Token
import ScopeBlocks.Script.Value
import ScopeBlocks.Session.Basic
import ScopeBlocks.Session.Highlight
import ScopeBlocks.Session.Queue
import ScopeBlocks.Session.Scheduler
import ScopeBlocks.Session.Timeline
import ScopeBlocks.Storage.Basic
import ScopeBlocks.Storage.Folder
import ScopeBlocks.Text.Blank
import ScopeBlocks.Text.Position
import ScopeBlocks.Text.Quoted
import ScopeBlocks.Text.Reader
import ScopeBlocks.Text.Split
import ScopeBlocks.Toml.Document
import ScopeBlocks.Toml.Scalar
import ScopeBlocks.Toml.Text
import ScopeBlocks.Toml.Value
import ScopeBlocks.Workspace.Block
import ScopeBlocks.Workspace.Build
import ScopeBlocks.Workspace.Code
import ScopeBlocks.Workspace.Export
import ScopeBlocks.Workspace.Import
import ScopeBlocks.Workspace.Names
import ScopeBlocks.Workspace.Plan
import ScopeBlocks.Workspace.Planning
import ScopeBlocks.Xml.Entity
import ScopeBlocks.Xml.Error
import ScopeBlocks.Xml.Event
import ScopeBlocks.Xml.Node
import ScopeBlocks.Xml.Tag
import ScopeBlocks.Proofs.Script.Dialogue
import ScopeBlocks.Proofs.Script.Reference
import ScopeBlocks.Proofs.Script.Replay
import ScopeBlocks.Proofs.Script.Suspension
import ScopeBlocks.Proofs.Device.Conversation
import ScopeBlocks.Proofs.Number.Rounding
import ScopeBlocks.Proofs.Number.Shortest
import ScopeBlocks.Proofs.Script.Lexing
import ScopeBlocks.Proofs.Script.Printing
import ScopeBlocks.Proofs.Script.Standing
import ScopeBlocks.Proofs.Script.Tidy
import ScopeBlocks.Proofs.Session.OneAtATime
import ScopeBlocks.Proofs.Session.Rows
import ScopeBlocks.Proofs.Dict
import ScopeBlocks.Proofs.Workspace.Pruned
import ScopeBlocks.Proofs.Workspace.Reimport
import ScopeBlocks.Proofs.Xml.NodeReadBack
import ScopeBlocks.Proofs.Xml.TagReadBack
import ScopeBlocks.Proofs.Workspace.Coordinates
import ScopeBlocks.Proofs.Workspace.Saving
import ScopeBlocks.Proofs.Workspace.Reload
import ScopeBlocks.Proofs.Script.Frames
import ScopeBlocks.Proofs.Script.Stepping
import ScopeBlocks.Proofs.Script.Views
import ScopeBlocks.Proofs.Session.Course
import ScopeBlocks.Proofs.Session.Held
import ScopeBlocks.Proofs.Session.Pace
import ScopeBlocks.Proofs.Session.Loaded
import ScopeBlocks.Proofs.Session.Fresh
import ScopeBlocks.Proofs.Session.Cancellation
import ScopeBlocks.Proofs.Script.Outcomes
import ScopeBlocks.Proofs.Script.Followed
import ScopeBlocks.Proofs.Script.FreeUses
import ScopeBlocks.Proofs.Workspace.FollowedScript
import ScopeBlocks.Proofs.Session.BlockByBlock
import ScopeBlocks.Proofs.Session.SteppedRuns
import ScopeBlocks.Proofs.Workspace.DeclaredScript
import ScopeBlocks.Proofs.Workspace.DeclaredRuns
import ScopeBlocks.Proofs.Script.Spelling
import ScopeBlocks.Proofs.Script.Adjacency
import ScopeBlocks.Proofs.Script.Rendering
import ScopeBlocks.Proofs.Session.Accounting
import ScopeBlocks.Proofs.Script.Indexed.Accepted
import ScopeBlocks.Proofs.Script.Indexed.Following
import ScopeBlocks.Proofs.Script.Indexed.Units
import ScopeBlocks.Proofs.Script.Indexed.Runs
import ScopeBlocks.Proofs.Script.Renamed
import ScopeBlocks.Proofs.Workspace.TwinNames
import ScopeBlocks.Proofs.Workspace.RenamedPlan
import ScopeBlocks.Proofs.Workspace.RenamedScript
import ScopeBlocks.Proofs.Workspace.RenamedRuns
import ScopeBlocks.Proofs.Session.Rest
import ScopeBlocks.Proofs.Workspace.Truncated
import ScopeBlocks.Proofs.Xml.Prefixes
import ScopeBlocks.Proofs.Script.RenamedWalk
import ScopeBlocks.Proofs.Script.SameRuns
import ScopeBlocks.Proofs.Workspace.SharedNames
import ScopeBlocks.Proofs.Workspace.TwinRuns
import ScopeBlocks.Proofs.Workspace.Enabled
import ScopeBlocks.Proofs.Workspace.Cleared
import ScopeBlocks.Proofs.Workspace.ClearedRuns
import ScopeBlocks.Proofs.Script.LoopRounds
import ScopeBlocks.Proofs.Workspace.RangeLoops
import ScopeBlocks.Proofs.Workspace.LoopBodies
import ScopeBlocks.Proofs.Workspace.RangeBlocks
import ScopeBlocks.Proofs.Number.Counting
import ScopeBlocks.Proofs.Script.CountedRounds
import ScopeBlocks.Proofs.Workspace.CountedBlocks
import ScopeBlocks.Proofs.Device.Polling
import ScopeBlocks.Proofs.Script.Atomicity
import ScopeBlocks.Proofs.Script.Marks
import ScopeBlocks.Proofs.Workspace.BlockOrder
import ScopeBlocks.Proofs.Workspace.MarkedBlocks
import ScopeBlocks.Proofs.Workspace.Requests
import ScopeBlocks.Proofs.Workspace.EmptyElements
import ScopeBlocks.Proofs.Workspace.ForeignContent
import ScopeBlocks.Proofs.Workspace.FirstFault
import ScopeBlocks.Proofs.Session.UnitCounts
import ScopeBlocks.Proofs.Session.Precedence
import ScopeBlocks.Proofs.Script.Rules.Fitting
import ScopeBlocks.Proofs.Script.Rules.TokenText
import ScopeBlocks.Proofs.Script.Rules.Uses
import ScopeBlocks.Proofs.Script.Rules.Expressions
import ScopeBlocks.Proofs.Script.Rules.Clauses
import ScopeBlocks.Proofs.Script.Rules.Statements
import ScopeBlocks.Proofs.Script.Rules.AcceptedExpressions
import ScopeBlocks.Proofs.Script.Rules.AcceptedStatements
import ScopeBlocks.Proofs.Script.Rules.Occurrences
import ScopeBlocks.Proofs.Script.Rules.Refusals
import ScopeBlocks.Proofs.Script.Failures
import ScopeBlocks.Proofs.Number.Written
import ScopeBlocks.Proofs.Script.Vetted
import ScopeBlocks.Proofs.Device.Numbers
import ScopeBlocks.Proofs.Session.Meaningful
import ScopeBlocks.Proofs.Script.Equality
import ScopeBlocks.Proofs.Script.Rules.QuotedText
import ScopeBlocks.Proofs.Session.Growth
import ScopeBlocks.Proofs.Cli.Stages
import ScopeBlocks.Proofs.Cli.Echo
