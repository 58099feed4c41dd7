import MotorStand.Imperative.Exec
import MotorStand.Imperative.Meets
import MotorStand.Imperative.Part
import MotorStand.Imperative.Loop
import MotorStand.Imperative.Heap
import MotorStand.Imperative.Region
import MotorStand.Imperative.While
import MotorStand.Imperative.Trace
import MotorStand.Rounding.Nearest
import MotorStand.Rounding.Sums
import MotorStand.Algebra.Elimination
import MotorStand.Algebra.LeastSquares
import MotorStand.Numerical.Matrix
import MotorStand.Numerical.Product
import MotorStand.Numerical.LuDecomp
import MotorStand.Numerical.PivotScaling
import MotorStand.Numerical.Solve
import MotorStand.Numerical.Inverse
import MotorStand.Numerical.Elementwise
import MotorStand.Numerical.Calls
import MotorStand.Numerical.Determinant
import MotorStand.Numerical.Script
import MotorStand.Fit.NormalSystem
import MotorStand.Fit.Filters
import MotorStand.Fit.Stable
import MotorStand.Fit.Rounded
import MotorStand.Calibration.Session
import MotorStand.Calibration.Routes
import MotorStand.Calibration.Completion
import MotorStand.Bytes.LittleEndian
import MotorStand.Bytes.MsbFirst
import MotorStand.Text.Digits
import MotorStand.Text.Integer
import MotorStand.Text.Decimal
import MotorStand.Text.Arithmetic
import MotorStand.Text.Comma
import MotorStand.Text.Address
import MotorStand.Text.Fixed
import MotorStand.Text.Lines
import MotorStand.Text.Pieces
import MotorStand.Stream.Blocks
import MotorStand.Stream.Window
import MotorStand.Stream.Marked
import MotorStand.Server.Batch
import MotorStand.Server.Sampling
import MotorStand.Server.Writethrough
import MotorStand.Client.Logger
import MotorStand.Client.Constants
import MotorStand.Calibration.Weights
import MotorStand.Server.Arguments
import MotorStand.Server.Main
import MotorStand.Client.LogFile
import MotorStand.Client.LoggerMain
import MotorStand.Rewrite.OutputRewrite
import MotorStand.Rewrite.LoggedRows
import MotorStand.Rewrite.EveryFile
import MotorStand.Rewrite.Idempotence
import MotorStand.Rewrite.Delivered
import MotorStand.Command.Message
import MotorStand.Command.Handler
import MotorStand.Command.Actor
import MotorStand.Transition.System
import MotorStand.Command.Interleaving
import MotorStand.Command.Average
import MotorStand.Command.Progress
import MotorStand.Command.Conversation
import MotorStand.Ui.Graph
import MotorStand.Ui.Controls
import MotorStand.Ui.MainLoop
import MotorStand.Ui.Axes
import MotorStand.Ui.Hover
import MotorStand.Adc.Ads1115
import MotorStand.Adc.Runs
import MotorStand.Adc.Hx711
import MotorStand.Calibration.CommandLoop
import MotorStand.Calibration.Keyboard
import MotorStand.Server.Recorded
