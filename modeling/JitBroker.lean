import JitBroker.Backend.Stub
import JitBroker.Bench
import JitBroker.Bench.Reading
import JitBroker.Bench.Running
import JitBroker.Bench.Script
import JitBroker.Bench.Session
import JitBroker.Broker
import JitBroker.Broker.Action
import JitBroker.Broker.Completion
import JitBroker.Broker.Control
import JitBroker.Broker.Staffing
import JitBroker.Broker.Submission
import JitBroker.Broker.Work
import JitBroker.CodeCache
import JitBroker.CommandLine
import JitBroker.CommandLine.Grammar
import JitBroker.CommandLine.Number
import JitBroker.CommandLine.Run
import JitBroker.Compilation
import JitBroker.CompileLog
import JitBroker.Compiler
import JitBroker.Config
import JitBroker.Config.Document
import JitBroker.Directive
import JitBroker.Directive.File
import JitBroker.Directive.Pattern
import JitBroker.Directive.Stack
import JitBroker.Error
import JitBroker.Gate
import JitBroker.Json
import JitBroker.Json.Number
import JitBroker.Json.Reader
import JitBroker.Main
import JitBroker.Method
import JitBroker.Queue
import JitBroker.Queue.Selector
import JitBroker.Queue.TaskList
import JitBroker.Random
import JitBroker.Recorder
import JitBroker.Report
import JitBroker.Request
import JitBroker.Simulation
import JitBroker.Simulation.Report
import JitBroker.Simulation.Workload
import JitBroker.Statistics
import JitBroker.Statistics.ShortName
import JitBroker.System
import JitBroker.Table
import JitBroker.Task
import JitBroker.TaskPool
import JitBroker.Text.Fixed
import JitBroker.Text.Nearest
import JitBroker.Text.Quoted
import JitBroker.Text.Shortest
import JitBroker.Text.Unprintable
import JitBroker.Tier
import JitBroker.Toml
import JitBroker.Toml.Codec
import JitBroker.Toml.Reader
import JitBroker.Toml.Scalar
import JitBroker.Proofs.Agenda
import JitBroker.Proofs.Fittings
import JitBroker.Proofs.Kinds
import JitBroker.Proofs.Books.Entries
import JitBroker.Proofs.Code.Balance
import JitBroker.Proofs.Code.Space
import JitBroker.Proofs.Code.Verdict
import JitBroker.Proofs.Jobs.Restart
import JitBroker.Proofs.Jobs.Stop
import JitBroker.Proofs.Ledger.Locks
import JitBroker.Proofs.Shutdown.Closed
import JitBroker.Proofs.Task.Handshake
import JitBroker.Proofs.Task.Place
import JitBroker.Proofs.Ledger.Pool
import JitBroker.Proofs.Books.Accounts
import JitBroker.Proofs.Jobs.States
import JitBroker.Proofs.Rest.Alert
import JitBroker.Proofs.Rest.Crews
import JitBroker.Proofs.Rest.Judged
import JitBroker.Proofs.Rest.Standstill
import JitBroker.Proofs.Rest.Start
import JitBroker.Proofs.Rest.Stranded
import JitBroker.Proofs.Recording.Replay
import JitBroker.Proofs.Crew.Strength
import JitBroker.Proofs.Numbers.Window
import JitBroker.Proofs.Pause.Refusals
import JitBroker.Proofs.Pause.Guards
import JitBroker.Proofs.Code.History
import JitBroker.Proofs.Code.Sizes
import JitBroker.Proofs.Directive.Layers
import JitBroker.Proofs.Config.RoundTrip
import JitBroker.Proofs.Code.Decompiled
import JitBroker.Proofs.Task.Picked
import JitBroker.Proofs.Request.Refused
import JitBroker.Proofs.Request.Installed
import JitBroker.Proofs.Marks.Permanent
import JitBroker.Proofs.Crew.Growth
import JitBroker.Proofs.Request.Patience
import JitBroker.Proofs.Backend.Startup
import JitBroker.Proofs.Queue.Passage
import JitBroker.Proofs.Counters.Agreement
import JitBroker.Proofs.Counters.ShortNames
import JitBroker.Proofs.Directive.Globs
import JitBroker.Proofs.Directive.Meaning
import JitBroker.Proofs.Directive.Printed
import JitBroker.Proofs.Recording.Count
import JitBroker.Proofs.Log.Diary
import JitBroker.Proofs.Crew.Launch
