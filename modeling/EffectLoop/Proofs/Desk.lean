import EffectLoop.Proofs.TaskStates
import Mathlib.Data.List.Induction

/-!
# The register as a store

One register of tasks with the guards that were taken for them, used in any order and with any numbers:
of tasks that were never entered, that are gone, or that come up again. The reference is the list of what
was done, with every guard replaced by the task it is for (`RegisterAct`); it knows no table.

* `Since`: a number was given to a task, and this was done since. The number is one more than the tasks
  that were entered before.
* `OnShow`: nothing was decided about the task since, and this is its name and the state noted last.
* `mem_entries_tasksAfter`, `outcome?_tasksAfter`: the register shows exactly these tasks, and the outcome
  of any other is that of the first decision since it was entered.

`StoreKept` collects what an observer may rely on after any operations, `store_kept` proves it: operation
by operation the register follows the reference (`tasks_run`), and each act has one law on either side.
-/

namespace EffectLoop

/-! ## Operations -/

/-- Something done to a register, or to a guard of one of its tasks. -/
inductive RegisterOp
  | register (name : String)
  | setState (id : TaskId) (state : TaskState)
  | settle (id : TaskId) (outcome : Outcome)
  | terminate (id : TaskId)
  /-- Take a guard for a task; guards are numbered from zero. -/
  | guard (id : TaskId)
  /-- Settle with the guard of this number, which is used up by that. -/
  | guardSettle (number : Nat) (outcome : Outcome)
  | guardDrop (number : Nat)

namespace RegisterOp

def registers : RegisterOp → Bool
  | .register _ => true
  | _ => false

def guards : RegisterOp → Bool
  | .guard _ => true
  | _ => false

/-- The guard of a number is used up. -/
def uses (number : Nat) : RegisterOp → Prop
  | .guardSettle n _ | .guardDrop n => n = number
  | _ => False

end RegisterOp

/-- What an operation is answered with. -/
inductive RegisterReply
  | handle (h : TaskHandle)
  /-- Whether the task was active. -/
  | active (b : Bool)
  | guard (number : Nat)
  | nothing

/-- A register and the guards ever taken, by number; in place of one that is used up there is nothing. -/
structure Desk where
  tasks : ActiveTasks := {}
  guards : List (Option SettleGuard) := []

/-- What is done to a register, with every guard resolved. -/
inductive RegisterAct
  | entered (name : String)
  | noted (id : TaskId) (state : TaskState)
  | decided (id : TaskId) (o : Outcome)

namespace Desk

/-- The guard of a number, if it is not used up. -/
def held (d : Desk) (number : Nat) : Option SettleGuard := d.guards[number]?.join

/-- Use a guard up: what becomes of the register is up to it. -/
def useUp (d : Desk) (number : Nat) (act : SettleGuard → ActiveTasks → ActiveTasks × Bool) :
    Desk × RegisterReply :=
  match d.held number with
  | some g =>
    let (tasks, active) := act g d.tasks
    (⟨tasks, d.guards.set number none⟩, .active active)
  | none => (d, .nothing)

/-- One operation on the register of the scheduler `s`. -/
def step (s : SchedulerId) (d : Desk) : RegisterOp → Desk × RegisterReply
  | .register name => ({ d with tasks := d.tasks.register name }, .handle ⟨s, d.tasks.nextId, name⟩)
  | .setState id state =>
    let (tasks, active) := d.tasks.setState id state
    ({ d with tasks }, .active active)
  | .settle id outcome =>
    let (tasks, active) := d.tasks.settle id outcome
    ({ d with tasks }, .active active)
  | .terminate id =>
    let (tasks, active) := d.tasks.terminate id
    ({ d with tasks }, .active active)
  | .guard id => ({ d with guards := d.guards ++ [some ⟨id⟩] }, .guard d.guards.length)
  | .guardSettle number outcome => d.useUp number fun g => g.settle outcome
  | .guardDrop number => d.useUp number SettleGuard.drop

/-- What an operation does to the register, if it does anything. -/
def act? (d : Desk) : RegisterOp → Option RegisterAct
  | .register name => some (.entered name)
  | .setState id state => some (.noted id state)
  | .settle id outcome => some (.decided id outcome)
  | .terminate id => some (.decided id (.error (.terminated id)))
  | .guard _ => none
  | .guardSettle number outcome => (d.held number).map fun g => .decided g.id outcome
  | .guardDrop number => (d.held number).map fun g => .decided g.id (.error (.abandoned g.id))

/-- What is left after some operations on a new register. -/
def run (s : SchedulerId) (ops : List RegisterOp) : Desk := ops.foldl (fun d op => (d.step s op).1) {}

/-- What some operations do to the register, one after the other. -/
def actsFrom (s : SchedulerId) : Desk → List RegisterOp → List RegisterAct
  | _, [] => []
  | d, op :: ops => (d.act? op).toList ++ actsFrom s (d.step s op).1 ops

/-- What some operations do to a new register. -/
def acts (s : SchedulerId) (ops : List RegisterOp) : List RegisterAct := actsFrom s {} ops

end Desk

/-! ## The reference -/

namespace RegisterAct

def enters : RegisterAct → Bool
  | .entered _ => true
  | _ => false

def stateFor (id : TaskId) : RegisterAct → Option TaskState
  | .noted id' state => if id' = id then some state else none
  | _ => none

def outcomeFor (id : TaskId) : RegisterAct → Option Outcome
  | .decided id' o => if id' = id then some o else none
  | _ => none

/-- What becomes of a register. -/
def revise : RegisterAct → ActiveTasks → ActiveTasks
  | .entered name, tasks => tasks.register name
  | .noted id state, tasks => (tasks.setState id state).1
  | .decided id o, tasks => (tasks.settle id o).1

end RegisterAct

/-- How many tasks were entered. -/
def enteredIn (acts : List RegisterAct) : Nat := acts.countP RegisterAct.enters

/-- The number `id` was given to a task called `name`, and `rest` was done since. -/
def Since (acts : List RegisterAct) (id : TaskId) (name : String) (rest : List RegisterAct) : Prop :=
  ∃ before, acts = before ++ .entered name :: rest ∧ id.val = enteredIn before + 1

/-- The state that was noted last for a task that was entered before. -/
def lastState (id : TaskId) (rest : List RegisterAct) : TaskState :=
  (rest.filterMap (RegisterAct.stateFor id)).getLast?.getD .created

/-- What was decided first about a task. -/
def firstOutcome (id : TaskId) (rest : List RegisterAct) : Option Outcome :=
  rest.findSome? (RegisterAct.outcomeFor id)

/-- A task is active, under this name and in this state. -/
def OnShow (acts : List RegisterAct) (e : TaskEntry) : Prop :=
  ∃ rest, Since acts e.id e.name rest ∧ firstOutcome e.id rest = none ∧ e.state = lastState e.id rest

/-- What becomes of a new register. -/
def tasksAfter (acts : List RegisterAct) : ActiveTasks := acts.foldl (fun tasks a => a.revise tasks) {}

theorem tasksAfter_snoc (acts : List RegisterAct) (a : RegisterAct) :
    tasksAfter (acts ++ [a]) = a.revise (tasksAfter acts) := List.foldl_append

theorem enteredIn_snoc (acts : List RegisterAct) (a : RegisterAct) :
    enteredIn (acts ++ [a]) = enteredIn acts + if a.enters then 1 else 0 := by
  rw [enteredIn, List.countP_append, List.countP_singleton]
  rfl

theorem firstOutcome_snoc (id : TaskId) (rest : List RegisterAct) (a : RegisterAct) :
    firstOutcome id (rest ++ [a]) = (firstOutcome id rest).or (a.outcomeFor id) := by
  rw [firstOutcome, List.findSome?_append, List.findSome?_singleton]
  rfl

theorem lastState_snoc (id : TaskId) (rest : List RegisterAct) (a : RegisterAct) :
    lastState id (rest ++ [a]) = (a.stateFor id).getD (lastState id rest) := by
  rw [lastState, List.filterMap_append]
  cases hstate : a.stateFor id with
  | none =>
    rw [List.filterMap_cons_none hstate, List.filterMap_nil, List.append_nil]
    rfl
  | some state =>
    rw [List.filterMap_cons_some hstate, List.filterMap_nil, List.getLast?_concat]
    rfl

/-- A history that is one longer is cut before its last, or at it. -/
theorem cut_snoc {α : Type} {log before after : List α} {x y : α} :
    log ++ [y] = before ++ x :: after ↔
      (∃ earlier, after = earlier ++ [y] ∧ log = before ++ x :: earlier) ∨
      (after = [] ∧ log = before ∧ y = x) := by
  constructor
  · intro happ
    rcases List.eq_nil_or_concat after with rfl | ⟨earlier, z, rfl⟩
    · obtain ⟨rfl, hx⟩ := List.append_inj' happ rfl
      exact .inr ⟨rfl, rfl, (List.cons.inj hx).1⟩
    · rw [List.concat_eq_append, ← List.cons_append, ← List.append_assoc] at happ
      obtain ⟨rfl, hz⟩ := List.append_inj' happ rfl
      cases hz
      exact .inl ⟨earlier, List.concat_eq_append, rfl⟩
  · rintro (⟨earlier, rfl, rfl⟩ | ⟨rfl, rfl, rfl⟩)
    · rw [List.append_assoc, List.cons_append]
    · rfl

theorem not_since_nil {id : TaskId} {name : String} {rest : List RegisterAct} : ¬ Since [] id name rest := by
  rintro ⟨before, happ, -⟩
  exact List.append_ne_nil_of_right_ne_nil before (List.cons_ne_nil _ _) happ.symm

/-- One act more is either something done since, or it enters the task. -/
theorem since_snoc {acts : List RegisterAct} {a : RegisterAct} {id : TaskId} {name : String}
    {rest : List RegisterAct} :
    Since (acts ++ [a]) id name rest ↔
      (∃ earlier, rest = earlier ++ [a] ∧ Since acts id name earlier) ∨
      (a = .entered name ∧ rest = [] ∧ id.val = enteredIn acts + 1) := by
  constructor
  · rintro ⟨before, happ, hid⟩
    rcases cut_snoc.mp happ with ⟨earlier, rfl, rfl⟩ | ⟨rfl, rfl, rfl⟩
    · exact .inl ⟨earlier, rfl, before, rfl, hid⟩
    · exact .inr ⟨rfl, rfl, hid⟩
  · rintro (⟨earlier, rfl, before, rfl, hid⟩ | ⟨rfl, rfl, hid⟩)
    · exact ⟨before, cut_snoc.mpr (.inl ⟨earlier, rfl, rfl⟩), hid⟩
    · exact ⟨acts, rfl, hid⟩

/-- A number was given out if and only if a task was entered under it. -/
theorem exists_since_iff {acts : List RegisterAct} {id : TaskId} :
    (∃ name rest, Since acts id name rest) ↔ 1 ≤ id.val ∧ id.val ≤ enteredIn acts := by
  induction acts using List.reverseRecOn with
  | nil =>
    refine iff_of_false ?_ fun h => absurd (h.1.trans h.2) (Nat.not_succ_le_zero 0)
    rintro ⟨name, rest, h⟩
    exact not_since_nil h
  | append_singleton acts a ih =>
    rw [enteredIn_snoc]
    constructor
    · rintro ⟨name, rest, h⟩
      rcases since_snoc.mp h with ⟨earlier, -, h⟩ | ⟨rfl, -, hid⟩
      · have := ih.mp ⟨name, earlier, h⟩
        omega
      · simp only [RegisterAct.enters, if_true]
        omega
    · rintro ⟨hpos, hle⟩
      by_cases hold : id.val ≤ enteredIn acts
      · obtain ⟨name, rest, h⟩ := ih.mpr ⟨hpos, hold⟩
        exact ⟨name, _, since_snoc.mpr (.inl ⟨rest, rfl, h⟩)⟩
      · cases a with
        | entered name =>
          simp only [RegisterAct.enters, if_true] at hle
          exact ⟨name, [], since_snoc.mpr (.inr ⟨rfl, rfl, by omega⟩)⟩
        | _ => exact absurd hle hold

/-! ## The register follows the reference -/

theorem sound_tasksAfter (acts : List RegisterAct) : (tasksAfter acts).Sound := by
  induction acts using List.reverseRecOn with
  | nil => exact .empty
  | append_singleton acts a ih =>
    rw [tasksAfter_snoc]
    cases a with
    | entered name => exact ih.register name
    | noted id state => exact ih.setState id state
    | decided id o => exact ih.settle id o

theorem lastId_tasksAfter (acts : List RegisterAct) : (tasksAfter acts).lastId = enteredIn acts := by
  induction acts using List.reverseRecOn with
  | nil => rfl
  | append_singleton acts a ih =>
    rw [tasksAfter_snoc, enteredIn_snoc, ← ih]
    cases a with
    | entered name => rfl
    | noted id state => rfl
    | decided id o => exact ActiveTasks.lastId_settle _ id o

/-- The outcomes after an act are those before, and what it decides about a task that has none. -/
theorem outcome?_revise {tasks : ActiveTasks} (h : tasks.Sound) {id : TaskId} (hid : tasks.Allotted id)
    (a : RegisterAct) :
    (a.revise tasks).outcome? id = (tasks.outcome? id).or (a.outcomeFor id) := by
  cases a with
  | entered name => exact (Option.or_none).symm
  | noted id' state => exact (Option.or_none).symm
  | decided id' o =>
    rw [RegisterAct.outcomeFor]
    by_cases he : id' = id
    · subst he
      rw [if_pos rfl, RegisterAct.revise]
      cases hc : tasks.contains id' with
      | true => exact ActiveTasks.outcome?_settle_same hc o
      | false =>
        rw [ActiveTasks.settle_of_not_contains hc]
        cases ho : tasks.outcome? id' with
        | none => rw [(h.active_iff id' hid).mpr ho] at hc; cases hc
        | some first => rfl
    · rw [if_neg he, Option.or_none]
      exact ActiveTasks.outcome?_settle_of_ne tasks (Ne.symm he) o

/-- **The first decision counts**: a task has the outcome that was decided first since it was entered. -/
theorem outcome?_tasksAfter {acts : List RegisterAct} {id : TaskId} {name : String}
    {rest : List RegisterAct} (h : Since acts id name rest) :
    (tasksAfter acts).outcome? id = firstOutcome id rest := by
  induction acts using List.reverseRecOn generalizing rest with
  | nil => exact absurd h not_since_nil
  | append_singleton acts a ih =>
    rcases since_snoc.mp h with ⟨earlier, rfl, hearlier⟩ | ⟨rfl, rfl, hid⟩
    · have hid := exists_since_iff.mp ⟨name, earlier, hearlier⟩
      rw [← lastId_tasksAfter] at hid
      rw [tasksAfter_snoc, outcome?_revise (sound_tasksAfter acts) hid, ih hearlier,
        firstOutcome_snoc]
    · -- The number was not given out before, so nothing can have been decided.
      cases ho : (tasksAfter (acts ++ [.entered name])).outcome? id with
      | none => rfl
      | some o =>
        rw [tasksAfter_snoc] at ho
        have hold : (tasksAfter acts).outcome? id ≠ none := by
          rw [show (tasksAfter acts).outcome? id = some o from ho]
          exact Option.some_ne_none o
        have hle := ((sound_tasksAfter acts).allotted_of_outcome id hold).2
        rw [lastId_tasksAfter] at hle
        omega

theorem mem_entries_revise {tasks : ActiveTasks} {a : RegisterAct} {e : TaskEntry} :
    e ∈ (a.revise tasks).entries ↔
      match a with
      | .entered name => e ∈ tasks.entries ∨ e = ⟨tasks.nextId, name, .created⟩
      | .noted id state => ∃ old ∈ tasks.entries, (if old.id = id then { old with state } else old) = e
      | .decided id _ => e ∈ tasks.entries ∧ e.id ≠ id := by
  cases a with
  | entered name =>
    simp only [RegisterAct.revise, ActiveTasks.register, List.mem_append, List.mem_singleton]
  | noted id state => simp only [RegisterAct.revise, ActiveTasks.setState, List.mem_map]
  | decided id o =>
    simp only [RegisterAct.revise, ActiveTasks.entries_settle, List.mem_filter, decide_eq_true_eq]

theorem onShow_entered {acts : List RegisterAct} {name : String} {e : TaskEntry} :
    OnShow (acts ++ [.entered name]) e ↔
      OnShow acts e ∨ e = ⟨⟨enteredIn acts + 1⟩, name, .created⟩ := by
  constructor
  · rintro ⟨rest, hsince, hnone, hstate⟩
    rcases since_snoc.mp hsince with ⟨earlier, rfl, hearlier⟩ | ⟨hname, rfl, hid⟩
    · rw [firstOutcome_snoc] at hnone
      rw [lastState_snoc] at hstate
      exact .inl ⟨earlier, hearlier, (Option.or_eq_none_iff.mp hnone).1, hstate⟩
    · obtain ⟨⟨id⟩, name', state⟩ := e
      cases hname
      cases hid
      cases hstate
      exact .inr rfl
  · rintro (⟨rest, hsince, hnone, hstate⟩ | rfl)
    · refine ⟨_, since_snoc.mpr (.inl ⟨rest, rfl, hsince⟩), ?_, ?_⟩
      · rw [firstOutcome_snoc, hnone]
        rfl
      · rw [lastState_snoc]
        exact hstate
    · exact ⟨[], since_snoc.mpr (.inr ⟨rfl, rfl, rfl⟩), rfl, rfl⟩

theorem onShow_noted {acts : List RegisterAct} {id : TaskId} {state : TaskState} {e : TaskEntry} :
    OnShow (acts ++ [.noted id state]) e ↔
      ∃ old, OnShow acts old ∧ (if old.id = id then { old with state } else old) = e := by
  have hlast : ∀ (id' : TaskId) (rest : List RegisterAct),
      lastState id' (rest ++ [.noted id state]) = if id' = id then state else lastState id' rest := by
    intro id' rest
    rw [lastState_snoc, RegisterAct.stateFor]
    by_cases hid : id = id'
    · rw [if_pos hid, if_pos hid.symm]
      rfl
    · rw [if_neg hid, if_neg (Ne.symm hid)]
      rfl
  constructor
  · rintro ⟨rest, hsince, hnone, hstate⟩
    rcases since_snoc.mp hsince with ⟨earlier, rfl, hearlier⟩ | ⟨hname, -⟩
    · rw [firstOutcome_snoc] at hnone
      rw [hlast] at hstate
      refine ⟨⟨e.id, e.name, lastState e.id earlier⟩,
        ⟨earlier, hearlier, (Option.or_eq_none_iff.mp hnone).1, rfl⟩, ?_⟩
      by_cases hid : e.id = id
      · rw [if_pos hid] at hstate ⊢
        rw [← hstate]
      · rw [if_neg hid] at hstate ⊢
        rw [← hstate]
    · cases hname
  · rintro ⟨old, ⟨rest, hsince, hnone, hstate⟩, rfl⟩
    have hkeep : (if old.id = id then { old with state } else old) =
        ⟨old.id, old.name, if old.id = id then state else old.state⟩ := by
      split <;> rfl
    rw [hkeep]
    refine ⟨_, since_snoc.mpr (.inl ⟨rest, rfl, hsince⟩), ?_, ?_⟩
    · rw [firstOutcome_snoc, hnone]
      rfl
    · rw [hlast, ← hstate]

theorem onShow_decided {acts : List RegisterAct} {id : TaskId} {o : Outcome} {e : TaskEntry} :
    OnShow (acts ++ [.decided id o]) e ↔ OnShow acts e ∧ e.id ≠ id := by
  constructor
  · rintro ⟨rest, hsince, hnone, hstate⟩
    rcases since_snoc.mp hsince with ⟨earlier, rfl, hearlier⟩ | ⟨hname, -⟩
    · rw [firstOutcome_snoc, Option.or_eq_none_iff, RegisterAct.outcomeFor] at hnone
      rw [lastState_snoc] at hstate
      refine ⟨⟨earlier, hearlier, hnone.1, hstate⟩, fun he => ?_⟩
      rw [if_pos he.symm] at hnone
      exact nomatch hnone.2
    · cases hname
  · rintro ⟨⟨rest, hsince, hnone, hstate⟩, hne⟩
    refine ⟨_, since_snoc.mpr (.inl ⟨rest, rfl, hsince⟩), ?_, ?_⟩
    · rw [firstOutcome_snoc, hnone, RegisterAct.outcomeFor, if_neg (Ne.symm hne)]
      rfl
    · rw [lastState_snoc]
      exact hstate

/-- **The register shows the tasks that nothing was decided about**, each under its name and in its last
state. -/
theorem mem_entries_tasksAfter {acts : List RegisterAct} {e : TaskEntry} :
    e ∈ (tasksAfter acts).entries ↔ OnShow acts e := by
  induction acts using List.reverseRecOn generalizing e with
  | nil =>
    refine iff_of_false nofun ?_
    rintro ⟨rest, h, -⟩
    exact not_since_nil h
  | append_singleton acts a ih =>
    rw [tasksAfter_snoc, mem_entries_revise]
    cases a with
    | entered name =>
      rw [onShow_entered, ih, ActiveTasks.nextId, lastId_tasksAfter]
    | noted id state => simp only [onShow_noted, ih]
    | decided id o => rw [onShow_decided, ih]

theorem contains_tasksAfter {acts : List RegisterAct} {id : TaskId} :
    (tasksAfter acts).contains id = true ↔
      ∃ name rest, Since acts id name rest ∧ firstOutcome id rest = none := by
  rw [ActiveTasks.contains_iff, List.mem_map]
  constructor
  · rintro ⟨e, he, rfl⟩
    obtain ⟨rest, hsince, hnone, -⟩ := mem_entries_tasksAfter.mp he
    exact ⟨e.name, rest, hsince, hnone⟩
  · rintro ⟨name, rest, hsince, hnone⟩
    exact ⟨⟨id, name, lastState id rest⟩, mem_entries_tasksAfter.mpr ⟨rest, hsince, hnone, rfl⟩, rfl⟩

/-- Entries stand in the order in which their numbers were given out. -/
theorem ascending_tasksAfter (acts : List RegisterAct) :
    (tasksAfter acts).entries.Pairwise fun a b => a.id.val < b.id.val := by
  induction acts using List.reverseRecOn with
  | nil => exact .nil
  | append_singleton acts a ih =>
    rw [tasksAfter_snoc]
    cases a with
    | entered name =>
      refine List.pairwise_append.mpr ⟨ih, List.pairwise_singleton _ _, ?_⟩
      intro e he new hnew
      rw [List.mem_singleton.mp hnew]
      have hc := (ActiveTasks.contains_iff _ e.id).mpr (List.mem_map_of_mem he)
      exact Nat.lt_succ_of_le ((sound_tasksAfter acts).allotted_of_contains e.id hc).2
    | noted id state =>
      refine List.pairwise_map.mpr (ih.imp fun {a b} h => ?_)
      split <;> split <;> exact h
    | decided id o =>
      rw [RegisterAct.revise, ActiveTasks.entries_settle]
      exact ih.filter _

/-! ## Guards -/

/-- The guard of this number was taken for the task and is not used up. -/
def Guarded (ops : List RegisterOp) (number : Nat) (id : TaskId) : Prop :=
  ∃ before after, ops = before ++ .guard id :: after ∧ before.countP RegisterOp.guards = number ∧
    ∀ op ∈ after, ¬ op.uses number

/-- After `ops`, this operation decides `o` about the task: right away, or with a guard that is held. -/
def Decides (ops : List RegisterOp) (id : TaskId) (o : Outcome) : RegisterOp → Prop
  | .settle id' o' => id' = id ∧ o' = o
  | .terminate id' => id' = id ∧ o = .error (.terminated id)
  | .guardSettle number o' => Guarded ops number id ∧ o' = o
  | .guardDrop number => Guarded ops number id ∧ o = .error (.abandoned id)
  | _ => False

theorem guarded_snoc {ops : List RegisterOp} {op : RegisterOp} {number : Nat} {id : TaskId} :
    Guarded (ops ++ [op]) number id ↔
      (Guarded ops number id ∧ ¬ op.uses number) ∨
      (op = .guard id ∧ ops.countP RegisterOp.guards = number) := by
  constructor
  · rintro ⟨before, after, happ, hnumber, hunused⟩
    rcases cut_snoc.mp happ with ⟨earlier, rfl, rfl⟩ | ⟨rfl, rfl, rfl⟩
    · exact .inl ⟨⟨before, earlier, rfl, hnumber, fun op hop => hunused op (List.mem_append_left _ hop)⟩,
        hunused op (List.mem_append_right _ List.mem_cons_self)⟩
    · exact .inr ⟨rfl, hnumber⟩
  · rintro (⟨⟨before, earlier, rfl, hnumber, hunused⟩, hop⟩ | ⟨rfl, hnumber⟩)
    · refine ⟨before, earlier ++ [op], cut_snoc.mpr (.inl ⟨earlier, rfl, rfl⟩), hnumber, ?_⟩
      intro x hx
      rcases List.mem_append.mp hx with hx | hx
      · exact hunused x hx
      · rwa [List.mem_singleton.mp hx]
    · exact ⟨ops, [], rfl, hnumber, nofun⟩

namespace Desk

variable {s : SchedulerId} {d : Desk}

/-- To use a guard up that is not there changes nothing either. -/
theorem guards_useUp (number : Nat) (act : SettleGuard → ActiveTasks → ActiveTasks × Bool) :
    (d.useUp number act).1.guards = d.guards.set number none := by
  unfold useUp held
  cases hg : d.guards[number]? with
  | none => exact (List.set_eq_of_length_le (List.getElem?_eq_none_iff.mp hg)).symm
  | some g? =>
    cases g? with
    | none =>
      obtain ⟨hlt, hget⟩ := List.getElem?_eq_some_iff.mp hg
      have hset : d.guards.set number none = d.guards := by
        rw [← hget]
        exact List.set_getElem_self hlt
      rw [hset]
      rfl
    | some g => rfl

theorem held_useUp (number number' : Nat) (act : SettleGuard → ActiveTasks → ActiveTasks × Bool) :
    (d.useUp number act).1.held number' = if number = number' then none else d.held number' := by
  rw [held, guards_useUp, List.getElem?_set]
  by_cases he : number = number'
  · rw [if_pos he, if_pos he]
    split <;> rfl
  · rw [if_neg he, if_neg he]
    rfl

theorem held_step {op : RegisterOp} {number : Nat} {g : SettleGuard} :
    (d.step s op).1.held number = some g ↔
      (d.held number = some g ∧ ¬ op.uses number) ∨ (op = .guard g.id ∧ d.guards.length = number) := by
  have hused : ∀ n, ((if n = number then none else d.held number) = some g) ↔
      d.held number = some g ∧ ¬ n = number := by
    intro n
    by_cases hn : n = number
    · simp only [hn, if_true, reduceCtorEq, not_true_eq_false, and_false]
    · simp only [hn, if_false, not_false_eq_true, and_true]
  cases op with
  | register | setState | settle | terminate =>
    simp only [step, held, RegisterOp.uses, not_false_eq_true, and_true, reduceCtorEq, false_and, or_false]
  | guard id =>
    simp only [step, held, RegisterOp.uses, not_false_eq_true, and_true, RegisterOp.guard.injEq]
    rcases Nat.lt_trichotomy number d.guards.length with hlt | rfl | hgt
    · rw [List.getElem?_append_left hlt]
      exact (or_iff_left fun h => Nat.ne_of_gt hlt h.2).symm
    · rw [List.getElem?_concat_length, List.getElem?_eq_none (Nat.le_refl _)]
      obtain ⟨gid⟩ := g
      simp
    · rw [List.getElem?_eq_none, List.getElem?_eq_none (Nat.le_of_lt hgt)]
      · simp [Nat.ne_of_lt hgt]
      · rw [List.length_append]
        exact hgt
  | guardSettle | guardDrop =>
    simp only [step, held_useUp, hused, RegisterOp.uses, reduceCtorEq, false_and, or_false]

theorem length_guards_step (op : RegisterOp) :
    (d.step s op).1.guards.length = d.guards.length + if op.guards then 1 else 0 := by
  cases op with
  | register | setState | settle | terminate => rfl
  | guard id => exact List.length_append
  | guardSettle | guardDrop => rw [step, guards_useUp, List.length_set]; rfl

theorem run_snoc (ops : List RegisterOp) (op : RegisterOp) :
    run s (ops ++ [op]) = ((run s ops).step s op).1 := List.foldl_append

theorem run_append (ops ops' : List RegisterOp) :
    run s (ops ++ ops') = ops'.foldl (fun d op => (d.step s op).1) (run s ops) := List.foldl_append

theorem length_guards_run (ops : List RegisterOp) :
    (run s ops).guards.length = ops.countP RegisterOp.guards := by
  induction ops using List.reverseRecOn with
  | nil => rfl
  | append_singleton ops op ih =>
    rw [run_snoc, length_guards_step, ih, List.countP_append, List.countP_singleton]

/-- **A guard can be used once**: it is held from when it was taken until it is used up. -/
theorem held_run {ops : List RegisterOp} {number : Nat} {g : SettleGuard} :
    (run s ops).held number = some g ↔ Guarded ops number g.id := by
  induction ops using List.reverseRecOn with
  | nil =>
    refine iff_of_false nofun ?_
    rintro ⟨before, after, happ, -⟩
    cases before <;> cases happ
  | append_singleton ops op ih =>
    rw [run_snoc, held_step, guarded_snoc, ih, length_guards_run]

/-! ## The desk follows the reference -/

theorem tasks_useUp (number : Nat) (act : SettleGuard → ActiveTasks → ActiveTasks × Bool) :
    (d.useUp number act).1.tasks = (d.held number).elim d.tasks fun g => (act g d.tasks).1 := by
  unfold useUp
  cases d.held number <;> rfl

/-- What is done to the register is all that becomes of it. -/
theorem tasks_step (op : RegisterOp) :
    (d.step s op).1.tasks = (d.act? op).elim d.tasks fun a => a.revise d.tasks := by
  cases op with
  | register | setState | settle | terminate | guard => rfl
  | guardSettle n | guardDrop n =>
    rw [step, tasks_useUp, act?]
    cases d.held n <;> rfl

theorem actsFrom_append (d : Desk) (ops ops' : List RegisterOp) :
    actsFrom s d (ops ++ ops') =
      actsFrom s d ops ++ actsFrom s (ops.foldl (fun d op => (d.step s op).1) d) ops' := by
  induction ops generalizing d with
  | nil => rfl
  | cons op ops ih => rw [List.cons_append, actsFrom, ih, actsFrom, List.append_assoc, List.foldl_cons]

theorem acts_snoc (ops : List RegisterOp) (op : RegisterOp) :
    acts s (ops ++ [op]) = acts s ops ++ ((run s ops).act? op).toList := by
  rw [acts, actsFrom_append, actsFrom, actsFrom, List.append_nil]
  rfl

theorem tasks_run (ops : List RegisterOp) : (run s ops).tasks = tasksAfter (acts s ops) := by
  induction ops using List.reverseRecOn with
  | nil => rfl
  | append_singleton ops op ih =>
    rw [run_snoc, tasks_step, acts_snoc, ih]
    cases (run s ops).act? op with
    | none => rw [Option.toList_none, List.append_nil]; rfl
    | some a => rw [Option.toList_some, tasksAfter_snoc]; rfl

theorem eq_register_of_act? {op : RegisterOp} {name : String} (h : d.act? op = some (.entered name)) :
    op = .register name := by
  cases op with
  | register => cases h; rfl
  | setState | settle | terminate | guard => cases h
  | guardSettle | guardDrop =>
    obtain ⟨g, -, hact⟩ := Option.map_eq_some_iff.mp h
    cases hact

theorem enters_act? (op : RegisterOp) :
    enteredIn (d.act? op).toList = if op.registers then 1 else 0 := by
  cases op with
  | register | setState | settle | terminate | guard => rfl
  | guardSettle n | guardDrop n =>
    rw [act?]
    cases d.held n <;> rfl

theorem enteredIn_acts (ops : List RegisterOp) :
    enteredIn (acts s ops) = ops.countP RegisterOp.registers := by
  induction ops using List.reverseRecOn with
  | nil => rfl
  | append_singleton ops op ih =>
    rw [acts_snoc, enteredIn, List.countP_append, List.countP_append, List.countP_singleton,
      ← enters_act? (d := run s ops) op, ← ih]
    rfl

/-- A decision is answered with whether the task was active. -/
theorem reply_of_decided {op : RegisterOp} {id : TaskId} {o : Outcome}
    (h : d.act? op = some (.decided id o)) :
    (d.step s op).2 = .active (d.tasks.contains id) := by
  cases op with
  | register | setState | guard => cases h
  | settle | terminate =>
    cases h
    exact congrArg RegisterReply.active (ActiveTasks.settle_snd _ _ _)
  | guardSettle n | guardDrop n =>
    obtain ⟨g, hg, hact⟩ := Option.map_eq_some_iff.mp h
    cases hact
    rw [step, useUp, hg]
    exact congrArg RegisterReply.active (ActiveTasks.settle_snd _ _ _)

/-- The number of a task is the number of the operation that registered it, counted among its kind. -/
theorem since_acts_iff {ops : List RegisterOp} {id : TaskId} {name : String} {rest : List RegisterAct} :
    Since (acts s ops) id name rest ↔
      ∃ before after, ops = before ++ .register name :: after ∧
        id.val = before.countP RegisterOp.registers + 1 ∧
        rest = actsFrom s (run s (before ++ [.register name])) after := by
  constructor
  · intro h
    induction ops using List.reverseRecOn generalizing rest with
    | nil => exact absurd h not_since_nil
    | append_singleton ops op ih =>
      -- Done since the task was entered: one operation more.
      have later : ∀ earlier, Since (acts s ops) id name earlier →
          rest = earlier ++ ((run s ops).act? op).toList →
          ∃ before after, ops ++ [op] = before ++ .register name :: after ∧
            id.val = before.countP RegisterOp.registers + 1 ∧
            rest = actsFrom s (run s (before ++ [.register name])) after := by
        rintro earlier hearlier rfl
        obtain ⟨before, after, rfl, hid, rfl⟩ := ih hearlier
        refine ⟨before, after ++ [op], cut_snoc.mpr (.inl ⟨after, rfl, rfl⟩), hid, ?_⟩
        rw [actsFrom_append, actsFrom, actsFrom, List.append_nil, ← run_append, ← List.append_cons]
      rw [acts_snoc] at h
      cases hact : (run s ops).act? op with
      | none =>
        rw [hact, Option.toList_none, List.append_nil] at h
        exact later rest h (by rw [hact, Option.toList_none, List.append_nil])
      | some a =>
        rw [hact, Option.toList_some] at h
        rcases since_snoc.mp h with ⟨earlier, rfl, hearlier⟩ | ⟨rfl, rfl, hid⟩
        · exact later earlier hearlier (by rw [hact, Option.toList_some])
        · rw [enteredIn_acts] at hid
          exact ⟨ops, [], by rw [eq_register_of_act? hact], hid, rfl⟩
  · rintro ⟨before, after, rfl, hid, rfl⟩
    refine ⟨acts s before, ?_, by rw [hid, enteredIn_acts]⟩
    rw [List.append_cons, acts, actsFrom_append]
    show acts s (before ++ [_]) ++ _ = _
    rw [acts_snoc, List.append_assoc]
    rfl

theorem act?_eq_decided_iff {ops : List RegisterOp} {op : RegisterOp} {id : TaskId} {o : Outcome} :
    (run s ops).act? op = some (.decided id o) ↔ Decides ops id o op := by
  cases op with
  | register | setState | guard => exact iff_of_false nofun not_false
  | settle id' o' =>
    simp only [act?, Decides, Option.some.injEq, RegisterAct.decided.injEq]
  | terminate id' =>
    simp only [act?, Decides, Option.some.injEq, RegisterAct.decided.injEq]
    exact and_congr_right fun he => by rw [he]; exact eq_comm
  | guardSettle number o' =>
    simp only [act?, Decides, Option.map_eq_some_iff, RegisterAct.decided.injEq, held_run]
    exact ⟨fun ⟨g, hg, hid, ho⟩ => ⟨hid ▸ hg, ho⟩, fun ⟨hg, ho⟩ => ⟨⟨id⟩, hg, rfl, ho⟩⟩
  | guardDrop number =>
    simp only [act?, Decides, Option.map_eq_some_iff, RegisterAct.decided.injEq, held_run]
    exact ⟨fun ⟨g, hg, hid, ho⟩ => ⟨hid ▸ hg, (hid ▸ ho).symm⟩,
      fun ⟨hg, ho⟩ => ⟨⟨id⟩, hg, rfl, ho.symm⟩⟩

/-! ## What the desk shows -/

theorem sound_run (ops : List RegisterOp) : (run s ops).tasks.Sound := by
  rw [tasks_run]
  exact sound_tasksAfter _

theorem lastId_run (ops : List RegisterOp) :
    (run s ops).tasks.lastId = ops.countP RegisterOp.registers := by
  rw [tasks_run, lastId_tasksAfter, enteredIn_acts]

/-- A number that is not given out yet is no task's. -/
theorem fresh_run {ops : List RegisterOp} {id : TaskId} (h : ops.countP RegisterOp.registers < id.val) :
    (¬ ∃ name rest, Since (acts s ops) id name rest) ∧
      (run s ops).tasks.contains id = false ∧ (run s ops).tasks.outcome? id = none := by
  have hunallotted : ¬ (run s ops).tasks.Allotted id := fun hall => by
    have hle := hall.2
    rw [lastId_run] at hle
    exact absurd hle (Nat.not_le_of_gt h)
  refine ⟨fun hsince => ?_, ?_, ?_⟩
  · have hle := (exists_since_iff.mp hsince).2
    rw [enteredIn_acts] at hle
    exact absurd hle (Nat.not_le_of_gt h)
  · exact Bool.eq_false_iff.mpr fun hc => hunallotted ((sound_run ops).allotted_of_contains id hc)
  · by_contra ho
    exact hunallotted ((sound_run ops).allotted_of_outcome id ho)

theorem contains_run {ops : List RegisterOp} {id : TaskId} :
    (run s ops).tasks.contains id = true ↔
      ∃ name rest, Since (acts s ops) id name rest ∧ firstOutcome id rest = none := by
  rw [tasks_run]
  exact contains_tasksAfter

theorem outcome_run {ops : List RegisterOp} {id : TaskId} {o : Outcome} :
    (run s ops).tasks.outcome? id = some o ↔
      ∃ name rest, Since (acts s ops) id name rest ∧ firstOutcome id rest = some o := by
  constructor
  · intro ho
    have hall := (sound_run ops).allotted_of_outcome id (by rw [ho]; exact Option.some_ne_none o)
    rw [ActiveTasks.Allotted, lastId_run, ← enteredIn_acts (s := s)] at hall
    obtain ⟨name, rest, hsince⟩ := exists_since_iff.mpr hall
    rw [tasks_run, outcome?_tasksAfter hsince] at ho
    exact ⟨name, rest, hsince, ho⟩
  · rintro ⟨name, rest, hsince, ho⟩
    rw [tasks_run, outcome?_tasksAfter hsince, ho]

theorem tasks_of_decides {ops : List RegisterOp} {op : RegisterOp} {id : TaskId} {o : Outcome}
    (h : Decides ops id o op) :
    ((run s ops).step s op).1.tasks = ((run s ops).tasks.settle id o).1 := by
  rw [tasks_step, act?_eq_decided_iff.mpr h]
  rfl

theorem reply_of_decides {ops : List RegisterOp} {op : RegisterOp} {id : TaskId} {o : Outcome}
    (h : Decides ops id o op) :
    ((run s ops).step s op).2 = .active ((run s ops).tasks.contains id) :=
  reply_of_decided (act?_eq_decided_iff.mpr h)

/-- A guard that is used up decides nothing. -/
theorem step_of_spent {ops : List RegisterOp} {number : Nat} (h : ¬ ∃ id, Guarded ops number id)
    {op : RegisterOp} (hop : op.uses number) : (run s ops).step s op = (run s ops, .nothing) := by
  have hheld : (run s ops).held number = none := by
    rw [Option.eq_none_iff_forall_ne_some]
    exact fun g hg => h ⟨g.id, held_run.mp hg⟩
  cases op with
  | register | setState | settle | terminate | guard => exact hop.elim
  | guardSettle | guardDrop =>
    cases hop
    rw [step, useUp, hheld]

end Desk

/-! ## The theorem -/

/-- What an observer may rely on after some operations on the register of a scheduler. -/
structure StoreKept (s : SchedulerId) (ops : List RegisterOp) : Prop where
  /-- The next task gets the number after those that were given out, -/
  numbered : ∀ name, ((Desk.run s ops).step s (.register name)).2 =
    .handle ⟨s, ⟨ops.countP RegisterOp.registers + 1⟩, name⟩
  /-- which is no task's yet. -/
  fresh : ∀ id : TaskId, ops.countP RegisterOp.registers < id.val →
    (¬ ∃ name rest, Since (Desk.acts s ops) id name rest) ∧
    (Desk.run s ops).tasks.contains id = false ∧ (Desk.run s ops).tasks.outcome? id = none
  /-- A task comes from one operation, and all that was done after it counts as done since. -/
  since : ∀ id name rest, Since (Desk.acts s ops) id name rest ↔
    ∃ before after, ops = before ++ .register name :: after ∧
      id.val = before.countP RegisterOp.registers + 1 ∧
      rest = Desk.actsFrom s (Desk.run s (before ++ [.register name])) after
  /-- On show are the tasks that nothing was decided about since, each in its last state, -/
  entries : ∀ e, e ∈ (Desk.run s ops).tasks.snapshot ↔ OnShow (Desk.acts s ops) e
  /-- once and in the order of their numbers. -/
  ascending : (Desk.run s ops).tasks.snapshot.Pairwise fun a b => a.id.val < b.id.val
  size : (Desk.run s ops).tasks.size = (Desk.run s ops).tasks.snapshot.length
  contains : ∀ id, (Desk.run s ops).tasks.contains id = true ↔
    ∃ e ∈ (Desk.run s ops).tasks.snapshot, e.id = id
  state : ∀ id state, (Desk.run s ops).tasks.state? id = some state ↔
    ∃ e ∈ (Desk.run s ops).tasks.snapshot, e.id = id ∧ e.state = state
  /-- A task has the outcome that was decided first since it was entered. -/
  outcome : ∀ id o, (Desk.run s ops).tasks.outcome? id = some o ↔
    ∃ name rest, Since (Desk.acts s ops) id name rest ∧ firstOutcome id rest = some o
  /-- What counts as decided is what was said directly, or with a guard not used before. -/
  decides : ∀ op id o, (Desk.run s ops).act? op = some (.decided id o) ↔ Decides ops id o op
  /-- A decision takes effect if and only if it is the first since the task was entered, and is
  answered with that. -/
  removes : ∀ op id o, Decides ops id o op →
    ∃ first, ((Desk.run s ops).step s op).2 = .active first ∧
      (first = true ↔
        ∃ name rest, Since (Desk.acts s ops) id name rest ∧ firstOutcome id rest = none) ∧
      (first = true →
        ((Desk.run s ops).step s op).1.tasks.outcome? id = some o ∧
        ((Desk.run s ops).step s op).1.tasks.contains id = false) ∧
      (first = false → ((Desk.run s ops).step s op).1.tasks = (Desk.run s ops).tasks)
  /-- A guard that is used up decides nothing. -/
  spent : ∀ number, (¬ ∃ id, Guarded ops number id) → ∀ op : RegisterOp, op.uses number →
    (Desk.run s ops).step s op = (Desk.run s ops, .nothing)
  /-- To note a state makes no entry, and changes the state of its task and nothing else. -/
  notes : ∀ id state, ((Desk.run s ops).step s (.setState id state)).2 =
      .active ((Desk.run s ops).tasks.contains id) ∧
    ((Desk.run s ops).tasks.contains id = false →
      ((Desk.run s ops).step s (.setState id state)).1 = Desk.run s ops) ∧
    ∀ e, e ∈ ((Desk.run s ops).step s (.setState id state)).1.tasks.snapshot ↔
      ∃ old ∈ (Desk.run s ops).tasks.snapshot, (if old.id = id then { old with state } else old) = e

/-- **A register is a store**: after any operations, with any numbers and any guards, it shows what the
list of operations says. -/
theorem store_kept (s : SchedulerId) (ops : List RegisterOp) : StoreKept s ops := by
  have hsound := Desk.sound_run (s := s) ops
  constructor
  case numbered =>
    intro name
    rw [← Desk.lastId_run (s := s)]
    rfl
  case fresh => exact fun id => Desk.fresh_run
  case since => exact fun id name rest => Desk.since_acts_iff
  case entries =>
    intro e
    rw [Desk.tasks_run]
    exact mem_entries_tasksAfter
  case ascending =>
    rw [Desk.tasks_run]
    exact ascending_tasksAfter _
  case size => rfl
  case contains =>
    intro id
    rw [ActiveTasks.contains_iff, List.mem_map]
    rfl
  case state => exact fun id state => ActiveTasks.state?_eq_some_iff hsound
  case outcome => exact fun id o => Desk.outcome_run
  case decides => exact fun op id o => Desk.act?_eq_decided_iff
  case removes =>
    intro op id o hop
    refine ⟨_, Desk.reply_of_decides hop, Desk.contains_run, fun hc => ?_, fun hc => ?_⟩
    · rw [Desk.tasks_of_decides hop]
      refine ⟨ActiveTasks.outcome?_settle_self hc (hsound.outcome_eq_none hc) o, ?_⟩
      rw [Bool.eq_false_iff]
      exact fun hc => ((ActiveTasks.contains_settle _ _ _ _).mp hc).2 rfl
    · rw [Desk.tasks_of_decides hop, ActiveTasks.settle_of_not_contains hc]
  case spent => exact fun number hspent op hop => Desk.step_of_spent hspent hop
  case notes =>
    intro id state
    refine ⟨rfl, fun hc => ?_, fun e => mem_entries_revise (a := .noted id state)⟩
    have hkeep := ActiveTasks.setState_of_not_contains hc state
    exact congrArg (fun tasks => { Desk.run s ops with tasks }) hkeep

/-- A guard comes too late for a task that was terminated. -/
example : ((Desk.run ⟨0⟩ [.register "a", .guard ⟨1⟩, .terminate ⟨1⟩]).step ⟨0⟩ (.guardDrop 0)).2 =
    .active false := rfl

end EffectLoop
