import Mathlib.Data.Int.Notation

/-! # The message types that the daemons exchange -/

namespace Ctguard

/-- `libs::source_event`: one log line, or a control message of a scanner. -/
structure SourceEvent where
  hostname : String := ""
  sourceProgram : String := ""
  sourceDomain : String := ""
  message : String := ""
  controlMessage : Bool := false
  timeScanned : ℤ := 0
  timeSend : ℤ := 0
  deriving DecidableEq, Repr

/-- `libs::intervention_cmd`, with strings of the given type. -/
structure InterventionCmd (σ : Type) where
  name : σ
  argument : σ
  deriving DecidableEq, Repr

end Ctguard
