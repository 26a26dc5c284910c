import Expansion.Phase
import Expansion.Value

/-!
  What a completed expansion did, phase by phase.
-/

namespace Expansion

/-- The walks of one phase and the modifiers that it ran. -/
structure PhaseReport where
  phase : Phase
  walks : Nat
  modifiers : Nat
  deriving DecidableEq, Repr, Inhabited

/-- The reports of the phases, in running order. -/
structure Report where
  phases : List PhaseReport
  deriving DecidableEq, Repr, Inhabited

namespace Report

/-- The walks of all phases. -/
def walks (report : Report) : Nat := report.phases.foldr (fun r n => r.walks + n) 0

/-- The modifiers of all phases. -/
def modifiers (report : Report) : Nat := report.phases.foldr (fun r n => r.modifiers + n) 0

/-- A report as a value. -/
def toValue (report : Report) : Value :=
  .object [("phases", .array (report.phases.map fun r =>
    .object [("modifiers", .whole r.modifiers), ("phase", .string r.phase.title),
      ("walks", .whole r.walks)]))]

end Report

end Expansion
