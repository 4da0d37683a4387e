import WarmCompile.Cli.Command
import WarmCompile.Cli.Report
import WarmCompile.Cli.Switches
import WarmCompile.Client.Exchange
import WarmCompile.Client.Multiplexer
import WarmCompile.Compile.Backend
import WarmCompile.Compile.Error
import WarmCompile.Compile.External
import WarmCompile.Compile.Source
import WarmCompile.Config.Dirs
import WarmCompile.Config.Load
import WarmCompile.Config.Settings
import WarmCompile.Daemon.Log
import WarmCompile.Daemon.Needs
import WarmCompile.Daemon.Service
import WarmCompile.Digest.Sha256
import WarmCompile.Host.Disk
import WarmCompile.Host.Error
import WarmCompile.Host.Machine
import WarmCompile.Host.Process
import WarmCompile.Host.Shell.Arithmetic
import WarmCompile.Host.Shell.Builtin
import WarmCompile.Host.Shell.Edit
import WarmCompile.Host.Shell.Field
import WarmCompile.Host.Shell.Filters
import WarmCompile.Host.Shell.Format
import WarmCompile.Host.Shell.Grammar
import WarmCompile.Host.Shell.Pattern
import WarmCompile.Host.Shell.Program
import WarmCompile.Host.Shell.Run
import WarmCompile.Host.Shell.Script
import WarmCompile.Host.Shell.State
import WarmCompile.Host.Shell.Word
import WarmCompile.Host.Socket
import WarmCompile.Host.Tree
import WarmCompile.Json.Adjacent
import WarmCompile.Json.Basic
import WarmCompile.Json.Fault
import WarmCompile.Json.Print
import WarmCompile.Json.Read
import WarmCompile.Json.Shape
import WarmCompile.Json.Shape.Text
import WarmCompile.Json.Shape.Tree
import WarmCompile.Json.Skip
import WarmCompile.Json.Token
import WarmCompile.Main
import WarmCompile.Markup.Attribute
import WarmCompile.Markup.Event
import WarmCompile.Markup.Reference
import WarmCompile.Markup.Scan
import WarmCompile.Path
import WarmCompile.Project.Basic
import WarmCompile.Project.Document
import WarmCompile.Project.Walk
import WarmCompile.Proofs.Client.Answered
import WarmCompile.Proofs.Client.Consistent
import WarmCompile.Proofs.Client.Conversation
import WarmCompile.Proofs.Client.Multiplexed
import WarmCompile.Proofs.Client.Routed
import WarmCompile.Proofs.Compile.Deliver
import WarmCompile.Proofs.Compile.Incremental
import WarmCompile.Proofs.Compile.Source
import WarmCompile.Proofs.Json.Shape
import WarmCompile.Proofs.Json.Token
import WarmCompile.Proofs.Json.Value
import WarmCompile.Proofs.Path.Fold
import WarmCompile.Proofs.Path.Join
import WarmCompile.Proofs.Project.Closure
import WarmCompile.Proofs.Project.Document
import WarmCompile.Proofs.Project.Order
import WarmCompile.Proofs.Project.Walk
import WarmCompile.Proofs.Session.Fresh
import WarmCompile.Proofs.Session.Invisible
import WarmCompile.Proofs.Session.Linear
import WarmCompile.Proofs.Session.Marked
import WarmCompile.Proofs.Session.Noted
import WarmCompile.Proofs.Session.Outcome
import WarmCompile.Proofs.Session.Quiet
import WarmCompile.Proofs.Session.Run
import WarmCompile.Proofs.Session.Scene
import WarmCompile.Proofs.Session.Turn
import WarmCompile.Proofs.Session.Unmixed
import WarmCompile.Proofs.Table
import WarmCompile.Proofs.Wire.Envelope
import WarmCompile.Proofs.Wire.Lines
import WarmCompile.Proofs.Wire.Request
import WarmCompile.Proofs.Wire.Response
import WarmCompile.Proofs.Wire.Stream
import WarmCompile.Serve.Connection
import WarmCompile.Serve.Front
import WarmCompile.Serve.Incoming
import WarmCompile.Session.Actor
import WarmCompile.Session.Basic
import WarmCompile.Session.Mailbox
import WarmCompile.Session.Schedule
import WarmCompile.Table
import WarmCompile.Text.Blank
import WarmCompile.Text.Printable
import WarmCompile.Text.Quoted
import WarmCompile.Text.Shortest
import WarmCompile.Text.Utf8
import WarmCompile.Toml.Document
import WarmCompile.Toml.Read
import WarmCompile.Toml.Scalar
import WarmCompile.Wire.Call
import WarmCompile.Wire.CallError
import WarmCompile.Wire.Lines
import WarmCompile.Wire.Outcome
import WarmCompile.Wire.Project
import WarmCompile.Wire.Request
import WarmCompile.Wire.Response
import WarmCompile.Proofs.Project.Named
import WarmCompile.Proofs.Compile.Refused
import WarmCompile.Proofs.Session.Accepted
import WarmCompile.Proofs.Client.Callers
import WarmCompile.Proofs.Client.Settled
import WarmCompile.Proofs.Wire.Id
import WarmCompile.Proofs.Serve.Matched
import WarmCompile.Proofs.Serve.Visit
import WarmCompile.Proofs.Session.Progress
import WarmCompile.Proofs.Serve.Attended
import WarmCompile.Proofs.Serve.Served
import WarmCompile.Proofs.Notes
import WarmCompile.Proofs.Serve.Leveled
import WarmCompile.Proofs.Serve.Counted
import WarmCompile.Proofs.Session.Ledger
import WarmCompile.Proofs.Compile.Affected
import WarmCompile.Proofs.Project.Offence
import WarmCompile.Proofs.Host.Tree
import WarmCompile.Proofs.Project.Spelling
import WarmCompile.Proofs.Markup.Content
import WarmCompile.Proofs.Project.Sequence
import WarmCompile.Proofs.Path.Canonical
import WarmCompile.Proofs.Path.Length
import WarmCompile.Proofs.Host.Names
import WarmCompile.Proofs.Path.Absolute
import WarmCompile.Proofs.Cli.Directories
import WarmCompile.Proofs.Host.Entered
import WarmCompile.Proofs.Compile.Started
import WarmCompile.Proofs.Compile.Told
import WarmCompile.Proofs.Compile.Snapshot
import WarmCompile.Proofs.Project.Defines
import WarmCompile.Proofs.Compile.Handed
import WarmCompile.Proofs.Markup.Escaping
import WarmCompile.Proofs.Project.Decoded
import WarmCompile.Proofs.Json.Members
import WarmCompile.Proofs.Json.Taken
import WarmCompile.Proofs.Wire.Grammar
import WarmCompile.Proofs.Wire.Parsed
import WarmCompile.Proofs.Session.Fingerprints
import WarmCompile.Proofs.Project.Readings
import WarmCompile.Proofs.Json.Skip
import WarmCompile.Proofs.Json.Typed
import WarmCompile.Proofs.Json.Remnant
import WarmCompile.Proofs.Config.Fallback
