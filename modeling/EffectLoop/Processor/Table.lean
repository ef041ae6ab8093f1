import EffectLoop.Data.Assoc
import EffectLoop.Effect.Kind

/-!
# Processor tables

Which processor takes which kind of effect. The four built-in kinds have a place each that is always
filled; custom kinds are kept by tag beside them, so a custom kind whose tag is a built-in word
shares nothing with the built-in kind.
-/

namespace EffectLoop

/-- Kinds to processors of type `α`. -/
structure ProcessorTable (α : Type) where
  put : α
  call : α
  fork : α
  join : α
  custom : Assoc String α := []
deriving Inhabited

namespace ProcessorTable

variable {α : Type}

/-- Store `p` for `kind`, over what was there. -/
def insert (table : ProcessorTable α) (kind : EffectKind) (p : α) : ProcessorTable α :=
  match kind with
  | .put => { table with put := p }
  | .call => { table with call := p }
  | .fork => { table with fork := p }
  | .join => { table with join := p }
  | .custom tag => { table with custom := table.custom.insert tag p }

/-- The table with `p` for `kind`, to be built up in a chain. -/
def adding (table : ProcessorTable α) (kind : EffectKind) (p : α) : ProcessorTable α :=
  table.insert kind p

/-- Store several in order; of two for one kind the later counts. -/
def extend (table : ProcessorTable α) (overrides : List (EffectKind × α)) : ProcessorTable α :=
  overrides.foldl (fun table o => table.insert o.1 o.2) table

/-- The processor for `kind`. -/
def get? (table : ProcessorTable α) : EffectKind → Option α
  | .put => some table.put
  | .call => some table.call
  | .fork => some table.fork
  | .join => some table.join
  | .custom tag => table.custom.find? tag

def contains (table : ProcessorTable α) (kind : EffectKind) : Bool := (table.get? kind).isSome

/-- The kinds with a processor: the built-in ones, then the custom ones by tag. -/
def kinds (table : ProcessorTable α) : List EffectKind :=
  EffectKind.builtins ++ (table.custom.keys.mergeSort (· ≤ ·)).map .custom

theorem get?_insert (table : ProcessorTable α) (kind kind' : EffectKind) (p : α) :
    (table.insert kind p).get? kind' = if kind = kind' then some p else table.get? kind' := by
  cases kind <;> cases kind' <;> simp [insert, get?, Assoc.find?_insert]

end ProcessorTable

end EffectLoop
