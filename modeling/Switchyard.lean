import Switchyard.Binary64
import Switchyard.Bytes
import Switchyard.Channel.Codec
import Switchyard.Channel.Command
import Switchyard.Channel.Endpoint
import Switchyard.Channel.Health
import Switchyard.Channel.Message
import Switchyard.Channel.Timestamp
import Switchyard.CommandLine
import Switchyard.Configuration.Load
import Switchyard.Configuration.Variable
import Switchyard.Decimal.Notation
import Switchyard.Decimal.Shortest
import Switchyard.Engine.Breakpoint
import Switchyard.Engine.CallStack
import Switchyard.Engine.Codec
import Switchyard.Engine.Controller
import Switchyard.Engine.Engine
import Switchyard.Engine.Noise
import Switchyard.Engine.Turn
import Switchyard.Json.Basic
import Switchyard.Json.Fields
import Switchyard.Json.Printer
import Switchyard.Json.Reader
import Switchyard.Json.Skip
import Switchyard.Main
import Switchyard.Mms.Exchange
import Switchyard.Mms.Packet
import Switchyard.Mms.Tlv
import Switchyard.Modbus.Frame
import Switchyard.Modbus.Function
import Switchyard.Modbus.Pdu
import Switchyard.Modbus.Service
import Switchyard.Plant
import Switchyard.Project.Apply
import Switchyard.Project.FileTree
import Switchyard.Project.Load
import Switchyard.Project.Manifest
import Switchyard.Proofs.Binary64
import Switchyard.Proofs.Channel.Detour
import Switchyard.Proofs.Channel.Fitting
import Switchyard.Proofs.Channel.RoundTrip
import Switchyard.Proofs.Engine.Announcements
import Switchyard.Proofs.Engine.CallStack
import Switchyard.Proofs.Engine.Calls
import Switchyard.Proofs.Engine.Completion
import Switchyard.Proofs.Engine.Conditions
import Switchyard.Proofs.Engine.DeviceCalls
import Switchyard.Proofs.Engine.Effects
import Switchyard.Proofs.Engine.Executed
import Switchyard.Proofs.Engine.FailStop
import Switchyard.Proofs.Engine.Hits
import Switchyard.Proofs.Engine.Independence
import Switchyard.Proofs.Engine.Installed
import Switchyard.Proofs.Engine.Ledger
import Switchyard.Proofs.Engine.Pauses
import Switchyard.Proofs.Engine.Registers
import Switchyard.Proofs.Engine.Resumption
import Switchyard.Proofs.Engine.RunState
import Switchyard.Proofs.Engine.SingleStep
import Switchyard.Proofs.Json.Record
import Switchyard.Proofs.Mms.Answers
import Switchyard.Proofs.Mms.Association
import Switchyard.Proofs.Mms.Framing
import Switchyard.Proofs.Mms.Requests
import Switchyard.Proofs.Mms.Values
import Switchyard.Proofs.Modbus.Access
import Switchyard.Proofs.Modbus.Framing
import Switchyard.Proofs.Modbus.Packing
import Switchyard.Proofs.Modbus.Reply
import Switchyard.Proofs.Modbus.Requests
import Switchyard.Proofs.Project.Scripts
import Switchyard.Proofs.Relay.Circuit
import Switchyard.Proofs.Relay.Conservation
import Switchyard.Proofs.Relay.Correlation
import Switchyard.Proofs.Relay.Endpoints
import Switchyard.Proofs.Relay.LogicalDevices
import Switchyard.Proofs.Relay.Settling
import Switchyard.Proofs.Scalar
import Switchyard.Proofs.Script.Answers
import Switchyard.Proofs.Script.Atomicity
import Switchyard.Proofs.Script.Blocks
import Switchyard.Proofs.Script.Comparison
import Switchyard.Proofs.Script.Constants
import Switchyard.Proofs.Script.Consumption
import Switchyard.Proofs.Script.Cursor
import Switchyard.Proofs.Script.Declared
import Switchyard.Proofs.Script.Detached
import Switchyard.Proofs.Script.Effects
import Switchyard.Proofs.Script.Failure
import Switchyard.Proofs.Script.Joining
import Switchyard.Proofs.Script.Layout
import Switchyard.Proofs.Script.LetterCase.Expressions
import Switchyard.Proofs.Script.LetterCase.Programs
import Switchyard.Proofs.Script.LetterCase.Runs
import Switchyard.Proofs.Script.Lexemes
import Switchyard.Proofs.Script.Lexing
import Switchyard.Proofs.Script.LineWords
import Switchyard.Proofs.Script.Lines
import Switchyard.Proofs.Script.Modulo
import Switchyard.Proofs.Script.Nesting
import Switchyard.Proofs.Script.Outline
import Switchyard.Proofs.Script.Precedence
import Switchyard.Proofs.Script.Progress
import Switchyard.Proofs.Script.Reading
import Switchyard.Proofs.Script.Refinement
import Switchyard.Proofs.Script.Rendering
import Switchyard.Proofs.Script.RoundTrip
import Switchyard.Proofs.Script.Separation
import Switchyard.Proofs.Script.Stability
import Switchyard.Proofs.Script.StepTime
import Switchyard.Proofs.Script.Structured
import Switchyard.Proofs.Script.Termination
import Switchyard.Proofs.Script.Tracking
import Switchyard.Proofs.Script.Types
import Switchyard.Proofs.Script.Unplaced
import Switchyard.Proofs.Script.WellFormed
import Switchyard.Proofs.Script.Yields
import Switchyard.Proofs.Station.Burst
import Switchyard.Proofs.Station.Commutation
import Switchyard.Proofs.Station.Detection
import Switchyard.Proofs.Station.Effect
import Switchyard.Proofs.Station.Exclusion
import Switchyard.Proofs.Station.Freshness
import Switchyard.Proofs.Station.Goose
import Switchyard.Proofs.Station.History
import Switchyard.Proofs.Station.Interlock
import Switchyard.Proofs.Station.Interval
import Switchyard.Proofs.Station.Operation
import Switchyard.Proofs.Station.Places
import Switchyard.Proofs.Station.Publication
import Switchyard.Proofs.Station.Schedule
import Switchyard.Proofs.Station.Selection
import Switchyard.Proofs.Station.Shown
import Switchyard.Relay.Basic
import Switchyard.Relay.Bridge
import Switchyard.Relay.Control
import Switchyard.Relay.Listener
import Switchyard.Relay.Pending
import Switchyard.Relay.Settings
import Switchyard.Relay.Traffic
import Switchyard.Scalar
import Switchyard.Script.Compile
import Switchyard.Script.Device
import Switchyard.Script.Error
import Switchyard.Script.Eval
import Switchyard.Script.Execution
import Switchyard.Script.Parser
import Switchyard.Script.Rehearsal
import Switchyard.Script.Scope
import Switchyard.Script.Syntax
import Switchyard.Script.Token
import Switchyard.SortedMap
import Switchyard.Station.Codec
import Switchyard.Station.Control
import Switchyard.Station.DataModel
import Switchyard.Station.Goose
import Switchyard.Station.IedDocument
import Switchyard.Station.IedNode
import Switchyard.Station.Path
import Switchyard.Station.Profile
import Switchyard.Station.Substation
import Switchyard.Station.Table
import Switchyard.Text
import Switchyard.Toml.DateTime
import Switchyard.Toml.Reader
import Switchyard.Toml.Table
