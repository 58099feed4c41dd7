import MotorStand.Client.LoggerMain
import MotorStand.Rewrite.Idempotence
import MotorStand.Server.Main

/-!
# From the samples to the adjusted file

The server broadcasts what it samples, the logger writes down the batches which reach it, and
`output_rewrite` reads the log. A reading comes through all of them as it was.
-/

namespace MotorStand

open CText Imperative Imperative.Exec BlockStream

/-! ## What a run of the logger leaves -/

variable {entry : OutputMinimal} {constant : Double}

end MotorStand
