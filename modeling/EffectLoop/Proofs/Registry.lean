import EffectLoop.Proofs.Postings

/-!
# No task is lost

A task is kept in three places: its entry in the register, its outcome once it has one, and the
guard that the driver working on it holds. After every run the three agree: a number that was given
out has an entry exactly as long as it has no outcome, and as long as it has none exactly one driver
holds its guard. So when no driver is left every task has its outcome.
-/

namespace EffectLoop

namespace EventLoop

variable {Co Fu : Type}

/-- The drivers that hold a guard of a task. -/
def guardians (l : EventLoop Co Fu) (h : TaskHandle) : List (Driver Co Fu) :=
  l.drivers.filter fun d => d.task.scheduler = h.scheduler ∧ d.guard.id = h.id

/-- Of an active task one driver holds the guard. -/
theorem guardians_of_contains {l : EventLoop Co Fu} (h : l.books.Balanced) {t : TaskHandle}
    (hc : (l.activeTasks t.scheduler).contains t.id = true) : ∃ d, l.guardians t = [d] := by
  obtain ⟨duty, hduty, hs, hi⟩ := h.owed t.scheduler t.id hc
  obtain ⟨d, hd, rfl⟩ := List.mem_map.mp hduty
  have hdistinct : (l.drivers.map fun d => (d.task.scheduler, d.guard.id)).Nodup := by
    have := h.distinct
    rwa [show l.books.duties = l.drivers.map Driver.duty from rfl, List.map_map] at this
  refine ⟨d, ?_⟩
  rw [← filter_eq_singleton hdistinct hd]
  unfold guardians
  apply List.filter_congr
  intro x _
  rw [show t.scheduler = d.task.scheduler from hs.symm, show t.id = d.guard.id from hi.symm]
  simp only [Prod.mk.injEq]

/-- A register without entries, when nobody owes anything. -/
theorem entries_eq_nil {l : EventLoop Co Fu} (h : l.books.Balanced) (hd : l.drivers = [])
    (s : SchedulerId) : (l.activeTasks s).entries = [] := by
  rw [List.eq_nil_iff_forall_not_mem]
  intro e he
  have hc : (l.activeTasks s).contains e.id = true :=
    (ActiveTasks.contains_iff _ _).mpr (List.mem_map_of_mem he)
  obtain ⟨duty, hduty, _⟩ := h.owed s e.id hc
  rw [show l.books.duties = l.drivers.map Driver.duty from rfl, hd] at hduty
  cases hduty

/-- Every driver guards its own task. -/
theorem guard_after (p : Program Co Fu) (moves : List (Move Co Fu)) {d : Driver Co Fu}
    (hd : d ∈ (after p {} moves).drivers) : d.guard.id = d.task.id :=
  (proper_after p proper_empty moves d hd).2.guard

/-- The task of a driver that there ever was has been given its number. -/
theorem allotted_after (p : Program Co Fu) (first rest : List (Move Co Fu)) {d : Driver Co Fu}
    (hd : d ∈ (after p {} first).drivers) :
    ((after p {} (first ++ rest)).activeTasks d.task.scheduler).Allotted d.task.id := by
  have hbalanced := balanced_after p balanced_empty first
  have hfirst := hbalanced.allotted d.duty (List.mem_map_of_mem hd)
  have hrest := Books.allotted_postAll hfirst (ledger p (after p {} first) rest)
  rw [← books_after, ← after_append] at hrest
  rw [← guard_after p first hd]
  exact hrest

/-- **After every run each task is accounted for**: the register holds each number at most once and
only numbers that were given out; such a number has an entry exactly as long as its task has no
outcome, and then exactly one driver holds the guard. When no driver is left the registers are empty
and every task that ever had a driver has its outcome. -/
theorem tasks_accounted_for (p : Program Co Fu) (moves : List (Move Co Fu)) :
    (∀ s, (((after p {} moves).activeTasks s).entries.map TaskEntry.id).Nodup) ∧
    (∀ s id, ((after p {} moves).activeTasks s).contains id = true →
      1 ≤ id.val ∧ id.val ≤ ((after p {} moves).activeTasks s).lastId) ∧
    (∀ t : TaskHandle, 1 ≤ t.id.val →
      t.id.val ≤ ((after p {} moves).activeTasks t.scheduler).lastId →
      (((after p {} moves).activeTasks t.scheduler).contains t.id = true ↔
        (after p {} moves).outcome? t = none) ∧
      ((after p {} moves).outcome? t = none → ∃ d, (after p {} moves).guardians t = [d])) ∧
    ((after p {} moves).drivers = [] →
      (∀ s, ((after p {} moves).activeTasks s).entries = []) ∧
      (∀ t : TaskHandle, 1 ≤ t.id.val →
        t.id.val ≤ ((after p {} moves).activeTasks t.scheduler).lastId →
        (after p {} moves).outcome? t ≠ none) ∧
      ∀ first rest, moves = first ++ rest → ∀ d ∈ (after p {} first).drivers,
        (after p {} moves).outcome? d.task ≠ none) := by
  have hb := balanced_after p balanced_empty moves
  have hactive : ∀ t : TaskHandle, ((after p {} moves).activeTasks t.scheduler).Allotted t.id →
      (((after p {} moves).activeTasks t.scheduler).contains t.id = true ↔
        (after p {} moves).outcome? t = none) := fun t => (hb.sound t.scheduler).active_iff t.id
  have hsettled : (after p {} moves).drivers = [] → ∀ t : TaskHandle,
      ((after p {} moves).activeTasks t.scheduler).Allotted t.id →
      (after p {} moves).outcome? t ≠ none := by
    intro hd t ht ho
    have hc := (hactive t ht).mpr ho
    rw [ActiveTasks.contains_iff, entries_eq_nil hb hd] at hc
    cases hc
  refine ⟨fun s => (hb.sound s).distinct, fun s => (hb.sound s).allotted_of_contains, ?_, ?_⟩
  · intro t hpos hle
    refine ⟨hactive t ⟨hpos, hle⟩, fun ho => guardians_of_contains hb ?_⟩
    exact (hactive t ⟨hpos, hle⟩).mpr ho
  · intro hd
    refine ⟨fun s => entries_eq_nil hb hd s, fun t hpos hle => hsettled hd t ⟨hpos, hle⟩, ?_⟩
    rintro first rest rfl d hmem
    exact hsettled hd d.task (allotted_after p first rest hmem)

end EventLoop

end EffectLoop
