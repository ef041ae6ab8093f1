import EffectLoop.Task.Active

/-!
# The register of active tasks

What each operation on `ActiveTasks` does to the entries, to the outcomes and to the numbers given
out. `ActiveTasks.Sound` is what they keep: a number that was given out has an entry or an outcome
and never both, and no other number has either.
-/

namespace EffectLoop.ActiveTasks

/-- The number was given to a task. -/
def Allotted (tasks : ActiveTasks) (id : TaskId) : Prop := 1 ≤ id.val ∧ id.val ≤ tasks.lastId

theorem contains_iff (tasks : ActiveTasks) (id : TaskId) :
    tasks.contains id = true ↔ id ∈ tasks.entries.map TaskEntry.id := by
  simp only [contains, List.any_eq_true, beq_iff_eq, List.mem_map]

theorem nextId_not_allotted (tasks : ActiveTasks) : ¬ tasks.Allotted tasks.nextId := by
  rintro ⟨_, h⟩
  exact absurd h (Nat.not_succ_le_self _)

/-! ## Registering -/

@[simp] theorem lastId_register (tasks : ActiveTasks) (name : String) :
    (tasks.register name).lastId = tasks.lastId + 1 := rfl

@[simp] theorem outcome?_register (tasks : ActiveTasks) (name : String) (id : TaskId) :
    (tasks.register name).outcome? id = tasks.outcome? id := rfl

theorem contains_register (tasks : ActiveTasks) (name : String) (id : TaskId) :
    (tasks.register name).contains id = true ↔ tasks.contains id = true ∨ id = tasks.nextId := by
  simp only [contains_iff, register, List.map_append, List.map_cons, List.map_nil, List.mem_append,
    List.mem_singleton]

theorem allotted_register (tasks : ActiveTasks) (name : String) (id : TaskId) :
    (tasks.register name).Allotted id ↔ tasks.Allotted id ∨ id = tasks.nextId := by
  obtain ⟨n⟩ := id
  simp only [Allotted, lastId_register, nextId, TaskId.mk.injEq]
  omega

/-! ## Noting a state -/

@[simp] theorem outcome?_setState (tasks : ActiveTasks) (id id' : TaskId) (state : TaskState) :
    (tasks.setState id state).1.outcome? id' = tasks.outcome? id' := rfl

@[simp] theorem ids_setState (tasks : ActiveTasks) (id : TaskId) (state : TaskState) :
    (tasks.setState id state).1.entries.map TaskEntry.id = tasks.entries.map TaskEntry.id := by
  simp only [setState, List.map_map]
  apply List.map_congr_left
  intro e _
  simp only [Function.comp_apply]
  split <;> rfl

@[simp] theorem contains_setState (tasks : ActiveTasks) (id id' : TaskId) (state : TaskState) :
    (tasks.setState id state).1.contains id' = tasks.contains id' := by
  apply Bool.eq_iff_iff.mpr
  rw [contains_iff, contains_iff, ids_setState]

theorem setState_of_not_contains {tasks : ActiveTasks} {id : TaskId} (h : tasks.contains id = false)
    (state : TaskState) : (tasks.setState id state).1 = tasks := by
  have hentries : (tasks.entries.map fun e => if e.id = id then { e with state } else e) =
      tasks.entries := by
    refine (List.map_congr_left fun e he => ?_).trans (List.map_id _)
    refine if_neg fun hid => ?_
    have hc := (contains_iff tasks e.id).mpr (List.mem_map_of_mem he)
    rw [hid, h] at hc
    exact Bool.false_ne_true hc
  rw [setState, hentries]

/-! ## Settling -/

/-- Settling a task that is not active changes nothing, and says so. -/
theorem settle_of_not_contains {tasks : ActiveTasks} {id : TaskId} (h : tasks.contains id = false)
    (o : Outcome) : tasks.settle id o = (tasks, false) :=
  if_neg (by rw [h]; exact Bool.false_ne_true)

theorem settle_snd (tasks : ActiveTasks) (id : TaskId) (o : Outcome) :
    (tasks.settle id o).2 = tasks.contains id := by
  unfold settle
  split
  · exact Eq.symm ‹_›
  · exact (Bool.eq_false_iff.mpr ‹_›).symm

@[simp] theorem lastId_settle (tasks : ActiveTasks) (id : TaskId) (o : Outcome) :
    (tasks.settle id o).1.lastId = tasks.lastId := by
  unfold settle
  split <;> rfl

/-- To settle a task takes its entry away and no other. -/
theorem entries_settle (tasks : ActiveTasks) (id : TaskId) (o : Outcome) :
    (tasks.settle id o).1.entries = tasks.entries.filter (·.id ≠ id) := by
  unfold settle
  split
  · rfl
  · rename_i hc
    symm
    rw [List.filter_eq_self]
    intro e he
    rw [decide_eq_true_eq]
    rintro rfl
    exact hc ((contains_iff tasks e.id).mpr (List.mem_map_of_mem he))

theorem contains_settle (tasks : ActiveTasks) (id id' : TaskId) (o : Outcome) :
    (tasks.settle id o).1.contains id' = true ↔ tasks.contains id' = true ∧ id' ≠ id := by
  unfold settle
  split
  · simp only [contains_iff, List.mem_map, List.mem_filter, decide_eq_true_eq]
    constructor
    · rintro ⟨e, ⟨he, hne⟩, rfl⟩
      exact ⟨⟨e, he, rfl⟩, hne⟩
    · rintro ⟨⟨e, he, rfl⟩, hne⟩
      exact ⟨e, ⟨he, hne⟩, rfl⟩
  · rename_i h
    constructor
    · intro h'
      exact ⟨h', fun e => h (e ▸ h')⟩
    · exact And.left

theorem ids_settle_sublist (tasks : ActiveTasks) (id : TaskId) (o : Outcome) :
    ((tasks.settle id o).1.entries.map TaskEntry.id).Sublist (tasks.entries.map TaskEntry.id) := by
  unfold settle
  split
  · exact List.filter_sublist.map _
  · exact List.Sublist.refl _

/-- The outcome of a task that had none is the one it is settled with. -/
theorem outcome?_settle_self {tasks : ActiveTasks} {id : TaskId} (h : tasks.contains id = true)
    (hnone : tasks.outcome? id = none) (o : Outcome) :
    (tasks.settle id o).1.outcome? id = some o := by
  have hfind : tasks.settlements.find? (·.1 == id) = none := Option.map_eq_none_iff.mp hnone
  simp only [settle, h, if_true, outcome?, List.find?_append, hfind, Option.none_or,
    List.find?_singleton, beq_self_eq_true, Option.map_some]

/-- To settle an active task adds its outcome to those there are. -/
theorem outcome?_settle_same {tasks : ActiveTasks} {id : TaskId} (h : tasks.contains id = true)
    (o : Outcome) : (tasks.settle id o).1.outcome? id = (tasks.outcome? id).or (some o) := by
  simp only [settle, h, if_true, outcome?, List.find?_append, List.find?_singleton,
    beq_self_eq_true, Option.map_or, Option.map_some]

/-- Settling one task leaves the outcomes of the others. -/
theorem outcome?_settle_of_ne (tasks : ActiveTasks) {id id' : TaskId} (h : id' ≠ id) (o : Outcome) :
    (tasks.settle id o).1.outcome? id' = tasks.outcome? id' := by
  unfold settle
  split
  · have hne : (id == id') = false := by simpa using Ne.symm h
    simp only [outcome?, List.find?_append, List.find?_singleton, hne, Bool.false_eq_true, if_false,
      Option.or_none]
  · rfl

/-! ## What the operations keep -/

/-- The register accounts for the numbers it has given out, and for no others. -/
structure Sound (tasks : ActiveTasks) : Prop where
  distinct : (tasks.entries.map TaskEntry.id).Nodup
  allotted_of_contains : ∀ id, tasks.contains id = true → tasks.Allotted id
  allotted_of_outcome : ∀ id, tasks.outcome? id ≠ none → tasks.Allotted id
  active_iff : ∀ id, tasks.Allotted id → (tasks.contains id = true ↔ tasks.outcome? id = none)

namespace Sound

variable {tasks : ActiveTasks}

theorem outcome_eq_none (h : tasks.Sound) {id : TaskId} (hc : tasks.contains id = true) :
    tasks.outcome? id = none :=
  (h.active_iff id (h.allotted_of_contains id hc)).mp hc

theorem not_contains_of_outcome (h : tasks.Sound) {id : TaskId} {o : Outcome}
    (ho : tasks.outcome? id = some o) : tasks.contains id = false := by
  cases hc : tasks.contains id with
  | false => rfl
  | true => rw [h.outcome_eq_none hc] at ho; cases ho

theorem empty : Sound {} where
  distinct := List.nodup_nil
  allotted_of_contains := fun _ h => nomatch h
  allotted_of_outcome := fun _ h => absurd rfl h
  active_iff := fun _ h => absurd (Nat.le_trans h.1 h.2) (Nat.not_succ_le_zero 0)

theorem register (h : tasks.Sound) (name : String) : (tasks.register name).Sound where
  distinct := by
    show ((tasks.entries ++ [_]).map TaskEntry.id).Nodup
    rw [List.map_append, List.nodup_append]
    refine ⟨h.distinct, List.pairwise_singleton _ _, ?_⟩
    intro a ha b hb hab
    rw [List.map_singleton, List.mem_singleton] at hb
    rw [hab, hb, ← contains_iff] at ha
    exact tasks.nextId_not_allotted (h.allotted_of_contains _ ha)
  allotted_of_contains := fun id hc =>
    (allotted_register tasks name id).mpr
      (((contains_register tasks name id).mp hc).imp_left (h.allotted_of_contains id))
  allotted_of_outcome := fun id ho =>
    (allotted_register tasks name id).mpr (.inl (h.allotted_of_outcome id ho))
  active_iff := fun id ha => by
    rw [contains_register, outcome?_register]
    rcases (allotted_register tasks name id).mp ha with ha | rfl
    · constructor
      · rintro (hc | rfl)
        · exact (h.active_iff id ha).mp hc
        · exact absurd ha tasks.nextId_not_allotted
      · exact fun ho => .inl ((h.active_iff id ha).mpr ho)
    · refine ⟨fun _ => ?_, fun _ => .inr rfl⟩
      cases ho : tasks.outcome? tasks.nextId with
      | none => rfl
      | some o =>
        exact absurd (h.allotted_of_outcome _ (by rw [ho]; exact nofun)) tasks.nextId_not_allotted

theorem setState (h : tasks.Sound) (id : TaskId) (state : TaskState) :
    (tasks.setState id state).1.Sound where
  distinct := by rw [ids_setState]; exact h.distinct
  allotted_of_contains := fun id' hc =>
    h.allotted_of_contains id' (by rwa [contains_setState] at hc)
  allotted_of_outcome := fun id' ho => h.allotted_of_outcome id' ho
  active_iff := fun id' ha => by
    rw [contains_setState, outcome?_setState]
    exact h.active_iff id' ha

theorem settle (h : tasks.Sound) (id : TaskId) (o : Outcome) : (tasks.settle id o).1.Sound where
  distinct := h.distinct.sublist (tasks.ids_settle_sublist id o)
  allotted_of_contains := fun id' hc => by
    have ha := h.allotted_of_contains id' ((contains_settle tasks id id' o).mp hc).1
    exact ⟨ha.1, (lastId_settle tasks id o).symm ▸ ha.2⟩
  allotted_of_outcome := fun id' ho => by
    have ha : tasks.Allotted id' := by
      by_cases hid : id' = id
      · subst hid
        cases hc : tasks.contains id' with
        | true => exact h.allotted_of_contains id' hc
        | false =>
          rw [settle_of_not_contains hc] at ho
          exact h.allotted_of_outcome id' ho
      · rw [outcome?_settle_of_ne tasks hid] at ho
        exact h.allotted_of_outcome id' ho
    exact ⟨ha.1, (lastId_settle tasks id o).symm ▸ ha.2⟩
  active_iff := fun id' ha => by
    have ha' : tasks.Allotted id' := ⟨ha.1, (lastId_settle tasks id o) ▸ ha.2⟩
    rw [contains_settle]
    by_cases hid : id' = id
    · subst hid
      cases hc : tasks.contains id' with
      | true =>
        rw [outcome?_settle_self hc (h.outcome_eq_none hc)]
        exact ⟨fun hn => absurd rfl hn.2, fun hn => nomatch hn⟩
      | false =>
        rw [settle_of_not_contains hc, ← h.active_iff id' ha', hc]
        exact ⟨And.left, fun hn => nomatch hn⟩
    · rw [outcome?_settle_of_ne tasks hid, ← h.active_iff id' ha']
      exact ⟨And.left, fun hc => ⟨hc, hid⟩⟩

end Sound

end EffectLoop.ActiveTasks
