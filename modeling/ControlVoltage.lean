import ControlVoltage.Boot.Config
import ControlVoltage.Boot.Reading
import ControlVoltage.Clock
import ControlVoltage.CommandLine.Disk
import ControlVoltage.CommandLine.Manual
import ControlVoltage.CommandLine.Outcome
import ControlVoltage.CommandLine.Request
import ControlVoltage.CommandLine.Setting
import ControlVoltage.Engine.Command
import ControlVoltage.Engine.CommandError
import ControlVoltage.Engine.Input
import ControlVoltage.Engine.Perform
import ControlVoltage.Engine.State
import ControlVoltage.Engine.Tick
import ControlVoltage.Fifo
import ControlVoltage.Main
import ControlVoltage.Output.DeviceError
import ControlVoltage.Output.Recording
import ControlVoltage.Output.Ring
import ControlVoltage.Output.Sink
import ControlVoltage.Output.Trace
import ControlVoltage.Player
import ControlVoltage.Program.Block
import ControlVoltage.Program.Cells
import ControlVoltage.Program.Columns
import ControlVoltage.Program.Compile
import ControlVoltage.Program.Formula
import ControlVoltage.Proofs.Engine.Account
import ControlVoltage.Proofs.Engine.Answers
import ControlVoltage.Proofs.Engine.Cells
import ControlVoltage.Proofs.Engine.Conditions
import ControlVoltage.Proofs.Engine.Endings
import ControlVoltage.Proofs.Engine.Failure
import ControlVoltage.Proofs.Engine.Guards
import ControlVoltage.Proofs.Engine.InRange
import ControlVoltage.Proofs.Engine.Incorrupt
import ControlVoltage.Proofs.Engine.Moves
import ControlVoltage.Proofs.Engine.Output
import ControlVoltage.Proofs.Engine.Override
import ControlVoltage.Proofs.Engine.Playback
import ControlVoltage.Proofs.Engine.Reports
import ControlVoltage.Proofs.Engine.Restart
import ControlVoltage.Proofs.Engine.Schedule
import ControlVoltage.Proofs.Engine.Separation
import ControlVoltage.Proofs.Engine.Sound
import ControlVoltage.Proofs.Engine.Stages
import ControlVoltage.Proofs.Engine.Wakeup
import ControlVoltage.Proofs.Output.Batches
import ControlVoltage.Proofs.Output.Conservation
import ControlVoltage.Proofs.Output.Recording
import ControlVoltage.Proofs.Output.Rows
import ControlVoltage.Proofs.Output.Taping
import ControlVoltage.Proofs.Player.Deeds
import ControlVoltage.Proofs.Player.Ending
import ControlVoltage.Proofs.Player.Fits
import ControlVoltage.Proofs.Player.Guards
import ControlVoltage.Proofs.Player.Nodes
import ControlVoltage.Proofs.Player.Play
import ControlVoltage.Proofs.Player.Trail
import ControlVoltage.Proofs.Player.Writes
import ControlVoltage.Proofs.Program.Cells
import ControlVoltage.Proofs.Program.Columns
import ControlVoltage.Proofs.Program.Declarations
import ControlVoltage.Proofs.Program.Formula
import ControlVoltage.Proofs.Program.Laid
import ControlVoltage.Proofs.Program.Layout
import ControlVoltage.Proofs.Program.Mutations
import ControlVoltage.Proofs.Program.ReadBack
import ControlVoltage.Proofs.Program.WellFormed
import ControlVoltage.Proofs.Program.Writes
import ControlVoltage.Proofs.Score.Contents
import ControlVoltage.Proofs.Session.Clock
import ControlVoltage.Proofs.Session.Moves
import ControlVoltage.Proofs.Session.Rendering
import ControlVoltage.Proofs.Session.Setup
import ControlVoltage.Proofs.Session.Timing
import ControlVoltage.Proofs.Session.Triggers
import ControlVoltage.Proofs.Session.Waiting
import ControlVoltage.Proofs.Signal.CurveTable
import ControlVoltage.Proofs.Signal.Curves
import ControlVoltage.Proofs.Signal.Progress
import ControlVoltage.Proofs.Signal.Quantizer
import ControlVoltage.Proofs.Signal.Rate
import ControlVoltage.Proofs.Signal.Semitones
import ControlVoltage.Proofs.Single.Arithmetic
import ControlVoltage.Proofs.Single.Compare
import ControlVoltage.Proofs.Single.Division
import ControlVoltage.Proofs.Single.Exactness
import ControlVoltage.Proofs.Single.Nearness
import ControlVoltage.Proofs.Single.Order
import ControlVoltage.Proofs.Single.Packing
import ControlVoltage.Proofs.Single.Rounding
import ControlVoltage.Proofs.Single.Unpacked
import ControlVoltage.Proofs.Voice.Completions
import ControlVoltage.Proofs.Voice.Endings
import ControlVoltage.Proofs.Voice.Glide
import ControlVoltage.Proofs.Voice.Guards
import ControlVoltage.Proofs.Voice.Jumps
import ControlVoltage.Proofs.Voice.Moves
import ControlVoltage.Proofs.Voice.Sound
import ControlVoltage.Proofs.Voice.Stages
import ControlVoltage.Proofs.Voice.Staircase
import ControlVoltage.Proofs.Voice.Stretch
import ControlVoltage.Proofs.Voice.Timing
import ControlVoltage.Proofs.Voice.Twins
import ControlVoltage.Proofs.Voice.Wakeup
import ControlVoltage.Score.Node
import ControlVoltage.Score.Stock
import ControlVoltage.Session.Basic
import ControlVoltage.Session.Live
import ControlVoltage.Session.Render
import ControlVoltage.Session.SessionError
import ControlVoltage.SetupError
import ControlVoltage.Signal.Channel
import ControlVoltage.Signal.Curve
import ControlVoltage.Signal.CurveTable
import ControlVoltage.Signal.PerChannel
import ControlVoltage.Signal.Quantizer
import ControlVoltage.Signal.Ramp
import ControlVoltage.Signal.Range
import ControlVoltage.Signal.Rate
import ControlVoltage.Single.Basic
import ControlVoltage.Single.Cosine
import ControlVoltage.Single.Decimal
import ControlVoltage.Single.Places
import ControlVoltage.Single.PowerOfTwo
import ControlVoltage.Single.Shortest
import ControlVoltage.Text.Blank
import ControlVoltage.Toml.Document
import ControlVoltage.Toml.Scalar
import ControlVoltage.Toml.Table
import ControlVoltage.Toml.Token
import ControlVoltage.Toml.Value
