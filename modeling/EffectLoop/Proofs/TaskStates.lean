import EffectLoop.Proofs.Books
import Mathlib.Data.List.Chain

/-!
# The states of a task

A register keeps a state for each active task. `Books.stored` lists the states that postings store for
one task, in order and without those that come too late; they are what the register shows one after the
other (`Books.Sound.state_postAll`). `IsLife` says which lists of states a task may go through: it is
created, runs, and then is suspended and runs in turn.

Postings that note only a state that may follow the one shown keep to this (`Books.Sound.isLife_stored`).
That a loop posts no others is a matter of what its drivers do, and not shown here.
-/

namespace EffectLoop

namespace TaskState

/-- One state of an active task follows another. -/
inductive Next : TaskState → TaskState → Prop
  | begun : Next .created .running
  | again : Next .running .running
  | suspended (kind : EffectKind) : Next .running (.suspended kind)
  | resumed (kind : EffectKind) : Next (.suspended kind) .running

/-- The states of a task since it was created. -/
structure IsLife (states : List TaskState) : Prop where
  chain : states.IsChain Next
  created : ∀ state ∈ states.head?, state = .created

/-- A state that a task comes to is not one in which it is over. -/
theorem Next.not_isTerminal {state state' : TaskState} (h : Next state state') :
    state'.isTerminal = false := by
  cases h <;> rfl

/-- A task that has an entry is never shown as over. -/
theorem IsLife.not_isTerminal {states : List TaskState} (h : IsLife states) {state : TaskState}
    (hs : state ∈ states) : state.isTerminal = false := by
  obtain ⟨first, rest, rfl⟩ := List.append_of_mem hs
  rcases List.eq_nil_or_concat first with rfl | ⟨first, before, rfl⟩
  · rw [h.created state rfl]
    rfl
  · have hchain := h.chain
    rw [List.concat_eq_append, List.append_assoc] at hchain
    exact (List.isChain_cons_cons.mp hchain.right_of_append).1.not_isTerminal

end TaskState

namespace ActiveTasks

theorem isSome_state? (tasks : ActiveTasks) (id : TaskId) :
    (tasks.state? id).isSome = tasks.contains id := by
  rw [state?, Option.isSome_map, contains, Bool.eq_iff_iff, List.find?_isSome, List.any_eq_true]

theorem state?_eq_none {tasks : ActiveTasks} {id : TaskId} (h : tasks.contains id = false) :
    tasks.state? id = none := by
  rw [← Option.not_isSome_iff_eq_none, isSome_state?, h]
  exact Bool.false_ne_true

theorem state?_register (tasks : ActiveTasks) (name : String) (id : TaskId) :
    (tasks.register name).state? id =
      (tasks.state? id).or (if tasks.nextId = id then some .created else none) := by
  simp only [state?, register, List.find?_append, Option.map_or, List.find?_singleton, beq_iff_eq]
  split <;> rfl

theorem state?_setState (tasks : ActiveTasks) (id id' : TaskId) (state : TaskState) :
    (tasks.setState id state).1.state? id' =
      (tasks.state? id').map fun old => if id = id' then state else old := by
  simp only [state?, setState]
  induction tasks.entries with
  | nil => rfl
  | cons e entries ih =>
    rw [List.map_cons, List.find?_cons, List.find?_cons]
    by_cases he : e.id = id'
    · subst he
      by_cases hid : e.id = id
      · simp [hid]
      · simp [hid, Ne.symm hid]
    · by_cases hid : e.id = id
      · subst hid
        simp only [if_true, beq_eq_false_iff_ne.mpr he]
        exact ih
      · simp only [hid, if_false, beq_eq_false_iff_ne.mpr he]
        exact ih

theorem state?_settle_of_ne (tasks : ActiveTasks) {id id' : TaskId} (h : id' ≠ id) (o : Outcome) :
    (tasks.settle id o).1.state? id' = tasks.state? id' := by
  rw [state?, state?, entries_settle, List.find?_filter]
  congr 2
  funext e
  by_cases he : e.id = id'
  · simp [he, h]
  · simp [he]

/-- A state is known of the tasks that have an entry, and of no others. -/
theorem state?_eq_some_iff {tasks : ActiveTasks} (h : tasks.Sound) {id : TaskId} {state : TaskState} :
    tasks.state? id = some state ↔ ∃ e ∈ tasks.entries, e.id = id ∧ e.state = state := by
  rw [state?, Option.map_eq_some_iff]
  constructor
  · rintro ⟨e, he, hstate⟩
    exact ⟨e, List.mem_of_find?_eq_some he, by simpa using List.find?_some he, hstate⟩
  · rintro ⟨e, he, rfl, rfl⟩
    cases hfind : tasks.entries.find? (·.id == e.id) with
    | none => exact absurd (beq_self_eq_true e.id) (List.find?_eq_none.mp hfind e he)
    | some found =>
      have hid : found.id = e.id := by simpa using List.find?_some hfind
      rw [List.inj_on_of_nodup_map h.distinct (List.mem_of_find?_eq_some hfind) he hid]
      exact ⟨e, rfl, rfl⟩

end ActiveTasks

/-- The state that a posting notes for a task. -/
def Posting.notedFor (s : SchedulerId) (id : TaskId) : Posting → Option TaskState
  | .note s' id' state => if s' = s ∧ id' = id then some state else none
  | _ => none

namespace Books

/-- The state that a posting stores for a task: a note is kept for an active task only. -/
def stores (b : Books) (s : SchedulerId) (id : TaskId) : Posting → Option TaskState
  | .enter s' _ => if s' = s ∧ (b.tasks s).nextId = id then some .created else none
  | .note s' id' state =>
    if (b.tasks s).contains id then (Posting.note s' id' state).notedFor s id else none
  | .attempt _ => none

/-- The states that postings store for a task, in order. -/
def stored (b : Books) (s : SchedulerId) (id : TaskId) : List Posting → List TaskState
  | [] => []
  | x :: ps => (b.stores s id x).toList ++ (b.post x).stored s id ps

theorem stored_append (b : Books) (s : SchedulerId) (id : TaskId) (ps qs : List Posting) :
    b.stored s id (ps ++ qs) = b.stored s id ps ++ (b.postAll ps).stored s id qs := by
  induction ps generalizing b with
  | nil => rfl
  | cons x ps ih => rw [List.cons_append, stored, ih, stored, List.append_assoc, postAll_cons]

variable {b : Books} {s : SchedulerId} {id : TaskId} {x : Posting} {ps : List Posting}

/-! ## What is shown is what was stored last -/

/-- What a posting that decides nothing about a task stores is what the task then shows. -/
theorem state_post (hs : b.Sound) (hx : x.outcomeFor s id = none) :
    ((b.post x).tasks s).state? id = (b.stores s id x).or ((b.tasks s).state? id) := by
  by_cases hsched : s = x.scheduler
  · rw [tasks_post_of_eq b hsched]
    cases x with
    | enter s' name =>
      cases (show s = s' from hsched)
      rw [stores, Posting.revise, ActiveTasks.state?_register]
      by_cases hid : (b.tasks s).nextId = id
      · subst hid
        have hnone : (b.tasks s).state? (b.tasks s).nextId = none := by
          refine ActiveTasks.state?_eq_none (Bool.eq_false_iff.mpr fun hc => ?_)
          exact ActiveTasks.nextId_not_allotted _ ((hs s).allotted_of_contains _ hc)
        rw [hnone]
        simp
      · simp [hid]
    | note s' id' state =>
      cases (show s = s' from hsched)
      rw [stores, Posting.notedFor, Posting.revise, ActiveTasks.state?_setState,
        ← ActiveTasks.isSome_state?]
      by_cases hid : id' = id
      · cases (b.tasks s).state? id <;> simp [hid]
      · cases (b.tasks s).state? id <;> simp [hid]
    | attempt a =>
      have hne : id ≠ a.id := by
        rintro rfl
        simp [Posting.outcomeFor, show s = a.scheduler from hsched] at hx
      rw [stores, Option.none_or]
      exact ActiveTasks.state?_settle_of_ne _ hne _
  · rw [tasks_post_of_ne b hsched]
    have hnone : b.stores s id x = none := by
      cases x with
      | enter s' name => exact if_neg fun h => hsched h.1.symm
      | note s' id' state =>
        have hn : (Posting.note s' id' state).notedFor s id = none :=
          if_neg fun h => hsched h.1.symm
        rw [stores, hn, ite_self]
      | attempt a => rfl
    rw [hnone, Option.none_or]

/-- A task that is entered is created. -/
theorem Sound.state_enter (hs : b.Sound) (s : SchedulerId) (name : String) :
    ((b.post (.enter s name)).tasks s).state? (b.tasks s).nextId = some .created := by
  have hnone : (b.tasks s).state? (b.tasks s).nextId = none := by
    refine ActiveTasks.state?_eq_none (Bool.eq_false_iff.mpr fun hc => ?_)
    exact ActiveTasks.nextId_not_allotted _ ((hs s).allotted_of_contains _ hc)
  rw [state_post hs rfl, hnone, Option.or_none]
  exact if_pos ⟨rfl, rfl⟩

/-- For a task that has an outcome nothing is stored any more. -/
theorem Sound.stored_of_outcome (hs : b.Sound) {o : Outcome}
    (ho : (b.tasks s).outcome? id = some o) (ps : List Posting) : b.stored s id ps = [] := by
  induction ps generalizing b with
  | nil => rfl
  | cons x ps ih =>
    rw [stored, ih (hs.post x) (hs.outcome_post ho x), List.append_nil, Option.toList_eq_nil_iff]
    have hc := (hs s).not_contains_of_outcome ho
    cases x with
    | enter s' name =>
      refine if_neg fun h => ActiveTasks.nextId_not_allotted (b.tasks s) ?_
      rw [h.2]
      exact (hs s).allotted_of_outcome id (by rw [ho]; exact nofun)
    | note s' id' state => exact if_neg (by rw [hc]; exact nofun)
    | attempt a => rfl

/-- A task without an entry that an attempt is made on has none afterwards either. -/
theorem Sound.state_post_of_outcomeFor (hs : b.Sound) {o : Outcome}
    (hx : x.outcomeFor s id = some o) :
    b.stores s id x = none ∧ ((b.post x).tasks s).state? id = none ∧
      ((b.tasks s).contains id = true → ((b.post x).tasks s).outcome? id = some o) := by
  have hstores : b.stores s id x = none := by
    cases x with
    | attempt a => rfl
    | _ => cases hx
  have hdecides : (b.tasks s).contains id = true →
      ((b.post x).tasks s).outcome? id = some o := by
    intro hc
    obtain ⟨hsched, ho⟩ := Posting.outcome_revise_of_outcomeFor (hs s) hc hx
    rwa [tasks_post_of_eq b hsched.symm]
  refine ⟨hstores, ActiveTasks.state?_eq_none ?_, hdecides⟩
  cases hc : (b.tasks s).contains id with
  | true => exact (hs.post x s).not_contains_of_outcome (hdecides hc)
  | false =>
    cases x with
    | attempt a =>
      obtain ⟨⟨rfl, rfl⟩, _⟩ := Option.ite_none_right_eq_some.mp hx
      rw [tasks_post_of_not_takes (a := a) hc]
      exact hc
    | _ => cases hx

/-- **While a task is active it shows the state that was stored last.** -/
theorem Sound.state_postAll (hs : b.Sound) (ps : List Posting)
    (hc : ((b.postAll ps).tasks s).contains id = true) :
    ((b.postAll ps).tasks s).state? id =
      (b.stored s id ps).getLast?.or ((b.tasks s).state? id) := by
  induction ps generalizing b with
  | nil => rfl
  | cons x ps ih =>
    rw [postAll_cons] at hc ⊢
    rw [ih (hs.post x) hc, stored, List.getLast?_append, Option.or_assoc]
    congr 1
    cases hx : x.outcomeFor s id with
    | none =>
      rw [state_post hs hx]
      cases b.stores s id x <;> rfl
    | some o =>
      obtain ⟨hstores, hnone, hdecides⟩ := hs.state_post_of_outcomeFor hx
      rw [hstores, hnone]
      cases hb : (b.tasks s).contains id with
      | false => rw [ActiveTasks.state?_eq_none hb]; rfl
      | true =>
        have ho := (hs.post x).outcome_postAll (hdecides hb) ps
        rw [((hs.post x).postAll ps s).not_contains_of_outcome ho] at hc
        cases hc

/-- What is stored for a task that stays active is all that is noted for it. -/
theorem Sound.stored_of_contains (hs : b.Sound) (hb : (b.tasks s).contains id = true)
    (hc : ((b.postAll ps).tasks s).contains id = true) :
    b.stored s id ps = ps.filterMap (Posting.notedFor s id) := by
  induction ps generalizing b with
  | nil => rfl
  | cons x ps ih =>
    cases hx : x.outcomeFor s id with
    | none =>
      rw [stored, ih (hs.post x) (contains_post hb hx) hc]
      cases x with
      | enter s' name =>
        have hne : ¬(s' = s ∧ (b.tasks s).nextId = id) := fun h =>
          ActiveTasks.nextId_not_allotted (b.tasks s) (h.2 ▸ (hs s).allotted_of_contains id hb)
        rw [stores, if_neg hne]
        rfl
      | note s' id' state =>
        rw [stores, if_pos hb, List.filterMap_cons]
        cases Posting.notedFor s id (.note s' id' state) <;> rfl
      | attempt a => rfl
    | some o =>
      have ho := (hs.post x).outcome_postAll ((hs.state_post_of_outcomeFor hx).2.2 hb) ps
      rw [postAll_cons, ((hs.post x).postAll ps s).not_contains_of_outcome ho] at hc
      cases hc

/-! ## Postings that keep to the life of a task -/

/-- The state that is noted may follow the one that the task shows. -/
def Lives (b : Books) : Posting → Prop
  | .note s id state => ∀ old, (b.tasks s).state? id = some old → old.Next state
  | _ => True

/-- Every posting in order notes a state that may follow. -/
def LivesAll : Books → List Posting → Prop
  | _, [] => True
  | b, x :: ps => b.Lives x ∧ LivesAll (b.post x) ps

theorem livesAll_of_attempts (b : Books) (as : List Attempt) : b.LivesAll (as.map .attempt) := by
  induction as generalizing b with
  | nil => trivial
  | cons a as ih => exact ⟨trivial, ih _⟩

theorem livesAll_append {ps qs : List Posting} (h : b.LivesAll ps)
    (h' : (b.postAll ps).LivesAll qs) : b.LivesAll (ps ++ qs) := by
  induction ps generalizing b with
  | nil => exact h'
  | cons x ps ih => exact ⟨h.1, ih h.2 h'⟩

/-- What is stored may follow what is shown, and for a task that shows nothing it is its creation. -/
theorem follows_of_stores (hs : b.Sound) (hx : b.Lives x) {state : TaskState}
    (hstores : b.stores s id x = some state) :
    (∀ old, (b.tasks s).state? id = some old → old.Next state) ∧
      ((b.tasks s).state? id = none → state = .created) := by
  cases x with
  | enter s' name =>
    obtain ⟨⟨rfl, rfl⟩, he⟩ := Option.ite_none_right_eq_some.mp hstores
    refine ⟨fun old hold => ?_, fun _ => (Option.some.inj he).symm⟩
    have hc : (b.tasks s').contains (b.tasks s').nextId = true := by
      rw [← ActiveTasks.isSome_state?, hold]
      rfl
    exact absurd ((hs s').allotted_of_contains _ hc) (ActiveTasks.nextId_not_allotted _)
  | note s' id' state' =>
    obtain ⟨hc, he⟩ := Option.ite_none_right_eq_some.mp hstores
    simp only [Posting.notedFor, Option.ite_none_right_eq_some, Option.some.injEq] at he
    obtain ⟨⟨rfl, rfl⟩, rfl⟩ := he
    refine ⟨hx, fun hnone => ?_⟩
    rw [← ActiveTasks.isSome_state?, hnone] at hc
    cases hc
  | attempt a => cases hstores

/-- What is stored from now on follows what is shown now. -/
theorem Sound.chain_stored (hs : b.Sound) (h : b.LivesAll ps) :
    (((b.tasks s).state? id).toList ++ b.stored s id ps).IsChain TaskState.Next := by
  induction ps generalizing b with
  | nil => cases (b.tasks s).state? id <;> simp [stored]
  | cons x ps ih =>
    have hrest := ih (hs.post x) h.2
    rw [stored]
    cases hx : x.outcomeFor s id with
    | some o =>
      obtain ⟨hstores, hnone, hdecides⟩ := hs.state_post_of_outcomeFor hx
      rw [hstores, Option.toList_none, List.nil_append]
      cases hb : (b.tasks s).contains id with
      | false =>
        rw [hnone] at hrest
        rwa [ActiveTasks.state?_eq_none hb]
      | true =>
        rw [(hs.post x).stored_of_outcome (hdecides hb)]
        cases (b.tasks s).state? id <;> simp
    | none =>
      rw [state_post hs hx] at hrest
      cases hstores : b.stores s id x with
      | none =>
        rw [hstores, Option.none_or] at hrest
        exact hrest
      | some state =>
        rw [hstores, Option.some_or] at hrest
        cases hold : (b.tasks s).state? id with
        | none => exact hrest
        | some old =>
          exact List.isChain_cons_cons.mpr
            ⟨(follows_of_stores hs h.1 hstores).1 old hold, hrest⟩

/-- What is first stored for a task that shows nothing is that it is created. -/
theorem Sound.head_stored (hs : b.Sound) (h : b.LivesAll ps)
    (hnone : (b.tasks s).state? id = none) :
    ∀ state ∈ (b.stored s id ps).head?, state = .created := by
  induction ps generalizing b with
  | nil => exact nofun
  | cons x ps ih =>
    rw [stored]
    cases hstores : b.stores s id x with
    | some state =>
      rintro _ ⟨⟩
      exact (follows_of_stores hs h.1 hstores).2 hnone
    | none =>
      refine ih (hs.post x) h.2 ?_
      cases hx : x.outcomeFor s id with
      | none => rw [state_post hs hx, hstores, hnone]; rfl
      | some o => exact (hs.state_post_of_outcomeFor hx).2.1

/-- **Postings that note what may follow take every task through its life.** -/
theorem Sound.isLife_stored (hs : b.Sound) (h : b.LivesAll ps)
    (hnone : (b.tasks s).state? id = none) : TaskState.IsLife (b.stored s id ps) where
  chain := by
    have hchain : (((b.tasks s).state? id).toList ++ b.stored s id ps).IsChain _ := hs.chain_stored h
    rwa [hnone] at hchain
  created := hs.head_stored h hnone

end Books

end EffectLoop
