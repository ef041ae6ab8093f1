/-!
# Keyed lists

A finite map kept as a list of pairs. `insert` overwrites in place or appends, so the keys stay in
the order of their first insertion and never repeat. `find?_insert` is the whole law of the type:
what was stored last under a key is what is found there, and other keys are left alone.
-/

namespace EffectLoop

/-- A finite map as a list of key and value. -/
abbrev Assoc (κ α : Type) := List (κ × α)

namespace Assoc

variable {κ α : Type} [DecidableEq κ]

/-- The value stored under `k`. -/
def find? : Assoc κ α → κ → Option α
  | [], _ => none
  | (k', v) :: rest, k => if k' = k then some v else find? rest k

/-- Store `v` under `k`, over what was there. -/
def insert : Assoc κ α → κ → α → Assoc κ α
  | [], k, v => [(k, v)]
  | (k', v') :: rest, k, v => if k' = k then (k, v) :: rest else (k', v') :: insert rest k v

/-- The keys, in the order of their first insertion. -/
def keys (m : Assoc κ α) : List κ := m.map Prod.fst

theorem find?_insert (m : Assoc κ α) (k k' : κ) (v : α) :
    (m.insert k v).find? k' = if k = k' then some v else m.find? k' := by
  induction m with
  | nil => simp [insert, find?]
  | cons p rest ih =>
    obtain ⟨a, b⟩ := p
    by_cases h : a = k
    · subst h; by_cases h' : a = k' <;> simp [insert, find?, h']
    · by_cases h' : a = k'
      · subst h'; simp [insert, find?, h, Ne.symm h]
      · simp [insert, find?, h, h', ih]

theorem mem_keys_iff_find?_isSome (m : Assoc κ α) (k : κ) :
    k ∈ m.keys ↔ (m.find? k).isSome := by
  induction m with
  | nil => simp [keys, find?]
  | cons p rest ih =>
    obtain ⟨a, b⟩ := p
    by_cases h : a = k
    · simp [keys, find?, h]
    · have : k ≠ a := Ne.symm h
      simp [keys, find?, h, this] at ih ⊢
      exact ih

theorem mem_keys_insert (m : Assoc κ α) (k k' : κ) (v : α) :
    k' ∈ (m.insert k v).keys ↔ k' = k ∨ k' ∈ m.keys := by
  rw [mem_keys_iff_find?_isSome, mem_keys_iff_find?_isSome, find?_insert]
  by_cases h : k = k'
  · simp only [h, if_true, Option.isSome_some, true_or]
  · simp only [h, if_false, Ne.symm h, false_or]

theorem nodup_keys_insert {m : Assoc κ α} (h : m.keys.Nodup) (k : κ) (v : α) :
    (m.insert k v).keys.Nodup := by
  induction m with
  | nil => exact List.nodup_cons.mpr ⟨List.not_mem_nil, List.nodup_nil⟩
  | cons entry rest ih =>
    obtain ⟨k', v'⟩ := entry
    obtain ⟨hnew, hrest⟩ := List.nodup_cons.mp h
    rw [insert]
    split
    · rename_i he
      exact List.nodup_cons.mpr ⟨he ▸ hnew, hrest⟩
    · rename_i hne
      refine List.nodup_cons.mpr ⟨fun hmem => ?_, ih hrest⟩
      rcases (mem_keys_insert rest k k' v).mp hmem with he | hmem
      · exact hne he
      · exact hnew hmem

end Assoc

end EffectLoop
