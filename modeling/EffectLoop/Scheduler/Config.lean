import EffectLoop.Text.Blank
import EffectLoop.Text.Numeral

/-!
# Scheduler settings

The label of a scheduler and its limit on consecutive pass-through yields, read from named settings.
An unset or blank name keeps the default; a limit that is set has to be a positive number.
-/

namespace EffectLoop

/-- Settings of a scheduler. -/
structure SchedulerConfig where
  /-- Stands in the span of every task. -/
  name : String := "yield-effect"
  /-- How many pass-through yields in a row are allowed; no limit if absent. -/
  passThroughLimit : Option Nat := none
deriving DecidableEq, Inhabited

namespace SchedulerConfig

def nameKey : String := "YIELD_EFFECT_SCHEDULER_NAME"

def limitKey : String := "YIELD_EFFECT_PASS_THROUGH_LIMIT"

/-- A setting that is not a positive number. -/
structure InvalidNumber where
  key : String
  value : String
deriving DecidableEq

def InvalidNumber.message (e : InvalidNumber) : String :=
  e.key ++ " must be a positive integer, got `" ++ e.value ++ "`"

/-- The name that a setting gives. -/
def readName (setting : Option String) : String :=
  match setting with
  | none => ({} : SchedulerConfig).name
  | some raw => if Text.trim raw = "" then ({} : SchedulerConfig).name else Text.trim raw

/-- The limit that a setting gives. -/
def readLimit (setting : Option String) : Except InvalidNumber (Option Nat) :=
  match setting with
  | none => .ok none
  | some raw =>
    match Text.readNumeral Text.maxWord (Text.trimChars raw.toList) with
    | .ok (n + 1) => .ok (some (n + 1))
    | _ => .error ⟨limitKey, raw⟩

/-- Read the settings that `lookup` finds. -/
def ofLookup (lookup : String → Option String) : Except InvalidNumber SchedulerConfig := do
  let limit ← readLimit (lookup limitKey)
  pure ⟨readName (lookup nameKey), limit⟩

/-- The settings as lines for the log. -/
def lines (config : SchedulerConfig) : List String :=
  ["Scheduler config loaded:",
   "  " ++ nameKey ++ ": " ++ config.name,
   "  " ++ limitKey ++ ": " ++ (config.passThroughLimit.elim "<unbounded>" toString)]

end SchedulerConfig

end EffectLoop
