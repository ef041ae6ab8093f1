import EffectLoop.Loop.Program
import Mathlib.Data.List.Nodup
import Mathlib.Data.String.Basic

/-!
# What a processor table serves

A table is filled by five operations, three of its own and two of a scheduler under construction. The
reference is the list of what they register (`registrations`), which knows no slots: `LastFor` says which
registration of a kind is the last.

* `get?_extend`: a table gives what was registered last for exactly this kind, else what it gave before.
* `mem_kinds_iff`, `kinds_eq`: the listing has the kinds with a processor, each once, the custom ones by tag.

`TableKept` collects what can be relied on after any operations on the built-in table.
-/

namespace EffectLoop

/-! ## The last registration of a kind -/

variable {α : Type}

/-- The last entry for this kind, and for no other, is `p`. -/
def LastFor (log : List (EffectKind × α)) (kind : EffectKind) (p : α) : Prop :=
  ∃ before after, log = before ++ (kind, p) :: after ∧ ∀ q, (kind, q) ∉ after

theorem lastFor_cons {entry : EffectKind × α} {log : List (EffectKind × α)} {kind : EffectKind} {p : α} :
    LastFor (entry :: log) kind p ↔ LastFor log kind p ∨ entry = (kind, p) ∧ ∀ q, (kind, q) ∉ log := by
  constructor
  · rintro ⟨before, after, happ, hlast⟩
    cases before with
    | nil =>
      cases happ
      exact .inr ⟨rfl, hlast⟩
    | cons first before =>
      cases happ
      exact .inl ⟨before, after, rfl, hlast⟩
  · rintro (⟨before, after, rfl, hlast⟩ | ⟨rfl, hfree⟩)
    · exact ⟨entry :: before, after, rfl, hlast⟩
    · exact ⟨[], log, rfl, hfree⟩

theorem LastFor.mem {log : List (EffectKind × α)} {kind : EffectKind} {p : α} (h : LastFor log kind p) :
    (kind, p) ∈ log := by
  obtain ⟨before, after, rfl, -⟩ := h
  exact List.mem_append_right _ List.mem_cons_self

/-- What is registered at all is registered last once. -/
theorem exists_lastFor {log : List (EffectKind × α)} {kind : EffectKind} (h : ∃ q, (kind, q) ∈ log) :
    ∃ p, LastFor log kind p := by
  induction log with
  | nil =>
    obtain ⟨q, hq⟩ := h
    cases hq
  | cons entry log ih =>
    by_cases hrest : ∃ q, (kind, q) ∈ log
    · obtain ⟨p, hp⟩ := ih hrest
      exact ⟨p, lastFor_cons.mpr (.inl hp)⟩
    · obtain ⟨q, hq⟩ := h
      have hentry : entry = (kind, q) := ((List.mem_cons.mp hq).resolve_right fun hq => hrest ⟨q, hq⟩).symm
      exact ⟨q, lastFor_cons.mpr (.inr ⟨hentry, fun q' hq' => hrest ⟨q', hq'⟩⟩)⟩

namespace ProcessorTable

theorem extend_append (table : ProcessorTable α) (log more : List (EffectKind × α)) :
    table.extend (log ++ more) = (table.extend log).extend more := List.foldl_append

/-- **Of several registrations the last for exactly this kind counts.** -/
theorem get?_extend (table : ProcessorTable α) (log : List (EffectKind × α)) (kind : EffectKind) (p : α) :
    (table.extend log).get? kind = some p ↔
      LastFor log kind p ∨ (∀ q, (kind, q) ∉ log) ∧ table.get? kind = some p := by
  induction log generalizing table with
  | nil =>
    refine ⟨fun h => .inr ⟨nofun, h⟩, fun h => h.elim ?_ And.right⟩
    rintro ⟨before, after, happ, -⟩
    cases before <;> cases happ
  | cons entry log ih =>
    obtain ⟨kind', p'⟩ := entry
    rw [extend, List.foldl_cons]
    refine (ih (table.insert kind' p')).trans ?_
    rw [get?_insert, lastFor_cons, or_assoc]
    refine or_congr_right ?_
    by_cases he : kind' = kind
    · subst he
      rw [if_pos rfl]
      constructor
      · rintro ⟨hfree, hp⟩
        exact .inl ⟨congrArg (Prod.mk kind') (Option.some.inj hp), hfree⟩
      · rintro (⟨hentry, hfree⟩ | ⟨hfree, -⟩)
        · exact ⟨hfree, congrArg some (Prod.mk.inj hentry).2⟩
        · exact absurd List.mem_cons_self (hfree p')
    · simp [he, Ne.symm he]

/-- What is registered for other kinds does not matter. -/
theorem get?_extend_of_free (table : ProcessorTable α) {log : List (EffectKind × α)} {kind : EffectKind}
    (h : ∀ q, (kind, q) ∉ log) : (table.extend log).get? kind = table.get? kind := by
  apply Option.ext
  intro p
  rw [get?_extend]
  exact ⟨fun hp => hp.elim (fun hlast => absurd hlast.mem (h p)) And.right, fun hp => .inr ⟨h, hp⟩⟩

/-! ## The listing -/

theorem mem_kinds_iff (table : ProcessorTable α) (kind : EffectKind) :
    kind ∈ table.kinds ↔ table.contains kind = true := by
  cases kind with
  | custom tag =>
    simp [kinds, contains, get?, EffectKind.builtins, List.mem_mergeSort, Assoc.mem_keys_iff_find?_isSome]
  | _ => simp [kinds, contains, get?, EffectKind.builtins]

/-- No tag is kept twice. -/
theorem nodup_custom_extend {table : ProcessorTable α} (h : table.custom.keys.Nodup)
    (log : List (EffectKind × α)) : (table.extend log).custom.keys.Nodup := by
  induction log generalizing table with
  | nil => exact h
  | cons entry log ih =>
    obtain ⟨kind, p⟩ := entry
    refine ih ?_
    cases kind with
    | custom tag => exact Assoc.nodup_keys_insert h tag p
    | _ => exact h

/-- The built-in kinds come first, then the custom ones by tag. -/
theorem kinds_eq {table : ProcessorTable α} (h : table.custom.keys.Nodup) :
    ∃ tags : List String, table.kinds = EffectKind.builtins ++ tags.map .custom ∧
      tags.Pairwise (· < ·) := by
  refine ⟨_, rfl, ?_⟩
  have hsorted : (table.custom.keys.mergeSort (· ≤ ·)).Pairwise fun a b => decide (a ≤ b) = true :=
    List.pairwise_mergeSort
      (fun a b c hab hbc => by simpa using le_trans (of_decide_eq_true hab) (of_decide_eq_true hbc))
      (fun a b => by simpa using le_total a b) table.custom.keys
  have hdistinct : (table.custom.keys.mergeSort (· ≤ ·)).Nodup :=
    (List.mergeSort_perm _ _).nodup_iff.mpr h
  exact (hsorted.and hdistinct).imp fun hab => lt_of_le_of_ne (of_decide_eq_true hab.1) hab.2

theorem nodup_kinds {table : ProcessorTable α} (h : table.custom.keys.Nodup) : table.kinds.Nodup := by
  have hcustom : ∀ tag, EffectKind.custom tag ∉ EffectKind.builtins := fun tag hmem => by
    simp [EffectKind.builtins] at hmem
  refine List.nodup_append.mpr ⟨by decide, ?_, fun kind hkind kind' hkind' he => ?_⟩
  · exact List.Nodup.map (fun _ _ he => EffectKind.custom.inj he)
      ((List.mergeSort_perm _ _).nodup_iff.mpr h)
  · obtain ⟨tag, -, rfl⟩ := List.mem_map.mp hkind'
    exact hcustom tag (he ▸ hkind)

end ProcessorTable

/-! ## Operations -/

/-- Something done to the table of a scheduler: to the table itself, or to the scheduler under
construction. -/
inductive TableOp
  | insert (kind : EffectKind) (p : ProcessorRef)
  | adding (kind : EffectKind) (p : ProcessorRef)
  | extend (overrides : List (EffectKind × ProcessorRef))
  | withProcessor (kind : EffectKind) (p : ProcessorRef)
  | withProcessors (overrides : List (EffectKind × ProcessorRef))

namespace TableOp

/-- What an operation registers, in order. -/
def entries : TableOp → List (EffectKind × ProcessorRef)
  | .insert kind p | .adding kind p | .withProcessor kind p => [(kind, p)]
  | .extend overrides | .withProcessors overrides => overrides

/-- What an operation makes of a scheduler under construction. -/
def act (spec : SchedulerSpec) : TableOp → SchedulerSpec
  | .insert kind p => { spec with processors := spec.processors.insert kind p }
  | .adding kind p => { spec with processors := spec.processors.adding kind p }
  | .extend overrides => { spec with processors := spec.processors.extend overrides }
  | .withProcessor kind p => spec.withProcessor kind p
  | .withProcessors overrides => spec.withProcessors overrides

theorem processors_act (spec : SchedulerSpec) (op : TableOp) :
    (op.act spec).processors = spec.processors.extend op.entries := by
  cases op <;> rfl

end TableOp

/-- The scheduler that some operations make, beginning with the built-in processors. -/
def built (sink : SinkId) (ops : List TableOp) : SchedulerSpec :=
  ops.foldl (fun spec op => op.act spec) (.builder sink)

/-- What some operations register, in order. -/
def registrations (ops : List TableOp) : List (EffectKind × ProcessorRef) := ops.flatMap TableOp.entries

theorem processors_foldl (spec : SchedulerSpec) (ops : List TableOp) :
    (ops.foldl (fun spec op => op.act spec) spec).processors = spec.processors.extend (registrations ops) := by
  induction ops generalizing spec with
  | nil => rfl
  | cons op ops ih =>
    rw [List.foldl_cons, ih, TableOp.processors_act, registrations, registrations, List.flatMap_cons,
      ProcessorTable.extend_append]

theorem processors_built (sink : SinkId) (ops : List TableOp) :
    (built sink ops).processors = ProcessorTable.builtin.extend (registrations ops) :=
  processors_foldl (.builder sink) ops

theorem get?_builtin (kind : EffectKind) (p : ProcessorRef) :
    ProcessorTable.builtin.get? kind = some p ↔ ∃ b : Builtin, b.kind = kind ∧ p = .builtin b := by
  constructor
  · intro h
    cases kind with
    | put => exact ⟨.put, rfl, (Option.some.inj h).symm⟩
    | call => exact ⟨.call, rfl, (Option.some.inj h).symm⟩
    | fork => exact ⟨.fork, rfl, (Option.some.inj h).symm⟩
    | join => exact ⟨.join, rfl, (Option.some.inj h).symm⟩
    | custom tag => cases h
  · rintro ⟨b, rfl, rfl⟩
    cases b <;> rfl

/-- What can be relied on after some operations on the built-in table. -/
structure TableKept (sink : SinkId) (ops : List TableOp) : Prop where
  /-- A kind is served by what was registered for it last, else by its built-in processor, -/
  lookup : ∀ kind p, (built sink ops).processors.get? kind = some p ↔
    LastFor (registrations ops) kind p ∨
      (∀ q, (kind, q) ∉ registrations ops) ∧ ∃ b : Builtin, b.kind = kind ∧ p = .builtin b
  /-- else by nothing. -/
  absent : ∀ kind, (built sink ops).processors.get? kind = none ↔
    (∀ q, (kind, q) ∉ registrations ops) ∧ ∀ b : Builtin, b.kind ≠ kind
  /-- An operation that registers nothing for a kind leaves what serves it, -/
  spared : ∀ (op : TableOp) kind, (∀ q, (kind, q) ∉ op.entries) →
    (built sink (ops ++ [op])).processors.get? kind = (built sink ops).processors.get? kind
  /-- so custom registrations leave the built-in slots, -/
  slots : ∀ op : TableOp, (∀ entry ∈ op.entries, ∃ tag, entry.1 = .custom tag) → ∀ b : Builtin,
    (built sink (ops ++ [op])).processors.get? b.kind = (built sink ops).processors.get? b.kind
  /-- and the others leave the custom ones, whatever their tags. -/
  customs : ∀ op : TableOp, (∀ entry ∈ op.entries, ∃ b : Builtin, entry.1 = b.kind) → ∀ tag,
    (built sink (ops ++ [op])).processors.get? (.custom tag) =
      (built sink ops).processors.get? (.custom tag)
  /-- The listing has the kinds that are served, each once, -/
  contains : ∀ kind, (built sink ops).processors.contains kind = true ↔
    kind ∈ (built sink ops).processors.kinds
  distinct : (built sink ops).processors.kinds.Nodup
  /-- the built-in ones first and then the custom ones by tag. -/
  order : ∃ tags : List String,
    (built sink ops).processors.kinds = EffectKind.builtins ++ tags.map .custom ∧ tags.Pairwise (· < ·)

theorem table_kept (sink : SinkId) (ops : List TableOp) : TableKept sink ops := by
  have htable := processors_built sink ops
  have hcustom : (built sink ops).processors.custom.keys.Nodup := by
    have hbuiltin : ProcessorTable.builtin.custom.keys.Nodup := List.nodup_nil
    rw [htable]
    exact ProcessorTable.nodup_custom_extend hbuiltin _
  have hlookup : ∀ kind p, (built sink ops).processors.get? kind = some p ↔
      LastFor (registrations ops) kind p ∨
        (∀ q, (kind, q) ∉ registrations ops) ∧ ∃ b : Builtin, b.kind = kind ∧ p = .builtin b := by
    intro kind p
    rw [htable, ProcessorTable.get?_extend, get?_builtin]
  have hspared : ∀ (op : TableOp) kind, (∀ q, (kind, q) ∉ op.entries) →
      (built sink (ops ++ [op])).processors.get? kind = (built sink ops).processors.get? kind := by
    intro op kind hfree
    rw [built, List.foldl_append, List.foldl_cons, List.foldl_nil, TableOp.processors_act]
    exact ProcessorTable.get?_extend_of_free _ hfree
  constructor
  case lookup => exact hlookup
  case absent =>
    intro kind
    constructor
    · intro hnone
      have hnever : ∀ p, ¬ (built sink ops).processors.get? kind = some p := fun p hp => by
        rw [hnone] at hp
        cases hp
      have hfree : ∀ q, (kind, q) ∉ registrations ops := fun q hq => by
        obtain ⟨p, hp⟩ := exists_lastFor ⟨q, hq⟩
        exact hnever p ((hlookup kind p).mpr (.inl hp))
      exact ⟨hfree, fun b hb => hnever (.builtin b) ((hlookup kind _).mpr (.inr ⟨hfree, b, hb, rfl⟩))⟩
    · rintro ⟨hfree, hother⟩
      rw [Option.eq_none_iff_forall_ne_some]
      intro p hp
      rcases (hlookup kind p).mp hp with hlast | ⟨-, b, hb, -⟩
      · exact hfree p hlast.mem
      · exact hother b hb
  case spared => exact hspared
  case slots =>
    intro op hentries b
    refine hspared op b.kind fun q hq => ?_
    obtain ⟨tag, htag⟩ := hentries _ hq
    cases b <;> cases htag
  case customs =>
    intro op hentries tag
    refine hspared op (.custom tag) fun q hq => ?_
    obtain ⟨b, hb⟩ := hentries _ hq
    cases b <;> cases hb
  case contains => exact fun kind => (ProcessorTable.mem_kinds_iff _ kind).symm
  case distinct => exact ProcessorTable.nodup_kinds hcustom
  case order => exact ProcessorTable.kinds_eq hcustom

/-- A custom kind that is spelled like a built-in one has nothing to do with it. -/
example : (built ⟨"sink"⟩ [.insert (.custom "PUT") (.own 0)]).processors.get? .put =
    some (.builtin .put) := rfl

end EffectLoop
