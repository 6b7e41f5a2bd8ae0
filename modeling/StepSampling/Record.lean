/-!
# Log records

What the program has to say besides its results, in order of severity.  A record is plain data:
deciding which records are shown is a filter by level.
-/

namespace StepSampling

/-- How severe a record is. -/
inductive Level where
  /-- The work on a file was given up. -/
  | error
  /-- A setting was not taken as given. -/
  | warn
  /-- A step of the work is done. -/
  | info
  /-- A part of a step is done. -/
  | debug
  deriving DecidableEq, Repr

namespace Level

/-- The position in the order of decreasing severity. -/
def rank : Level → Nat
  | .error => 1
  | .warn => 2
  | .info => 3
  | .debug => 4

/-- The name of the level in the log. -/
def label : Level → String
  | .error => "ERROR"
  | .warn => "WARN"
  | .info => "INFO"
  | .debug => "DEBUG"

end Level

/-- One entry of the log. -/
structure Record where
  /-- How severe it is. -/
  level : Level
  /-- What it says. -/
  text : String
  deriving DecidableEq, Repr

/-- The records that a threshold lets through; no threshold shows nothing. -/
def Record.visible (threshold : Option Level) (records : List Record) : List Record :=
  match threshold with
  | none => []
  | some level => records.filter (·.level.rank ≤ level.rank)

namespace Record

theorem visible_append (threshold : Option Level) (a b : List Record) :
    visible threshold (a ++ b) = visible threshold a ++ visible threshold b := by
  cases threshold with
  | none => rfl
  | some level => exact List.filter_append a b

/-- The parts of a step are not shown among the steps. -/
theorem visible_info_of_debug {records : List Record} (hDebug : ∀ r ∈ records, r.level = .debug) :
    visible (some .info) records = [] := by
  rw [visible, List.filter_eq_nil_iff]
  intro r hMem
  rw [hDebug r hMem]
  decide

end Record

end StepSampling
