import EffectLoop.Proofs.Arrivals
import EffectLoop.Proofs.Driving

/-!
# Acts from beginning to end

The loop carries out one request of an act at a time. `Executes` takes an act as a whole: from the state in
which it begins to the one in which it has its value, with the calls of sinks that it makes itself. What
the called sinks and targets do in turn is inside those calls.

An act is carried out at a site: around the loop, or in the middle of what the driver in focus does. At
either site it is carried out by moves of the loop, and in these moves nothing happens to a coroutine but
that some become tasks (`Executes.run`). The other way round, what the surroundings have carried out to its
value is `Executes` (`carries_of_runAct`).
-/

namespace EffectLoop

variable {Co Fu α β : Type}

/-- A call of a sink, with what it has returned unless it panicked. -/
structure SinkCall where
  sink : SinkId
  event : Json
  returned : Option Json

/-- The first request of an act is answered by the loop alone: no user code runs for it. -/
def Act.direct : Act Co Fu α → Bool
  | .ask _ _ | .start _ _ _ _ | .spawn _ _ _ _ | .nest _ _ _ _ => true
  | _ => false

theorem Act.asks_of_direct {a : Act Co Fu α} (h : a.direct = true) : a.asks = true := by
  cases a <;> first | rfl | cases h

theorem Act.asks_bind {a : Act Co Fu α} (h : a.asks = true) (k : α → Act Co Fu β) :
    (a.bind k).asks = true := by
  cases a <;> first | rfl | cases h

theorem Act.bind_ret (a : Act Co Fu α) : a.bind .ret = a := by
  induction a with
  | ret v => rfl
  | panic => rfl
  | ask q k ih => exact congrArg (Act.ask q) (funext ih)
  | invoke target args k ih => exact congrArg (Act.invoke target args) (funext ih)
  | dispatch sink event k ih => exact congrArg (Act.dispatch sink event) (funext ih)
  | start s name co k ih => exact congrArg (Act.start s name co) (funext ih)
  | spawn s name fu k ih => exact congrArg (Act.spawn s name fu) (funext ih)
  | nest s name co k ih => exact congrArg (Act.nest s name co) (funext ih)

/-- The act that the driver in focus is about to carry out, in what it is doing. -/
inductive Doing.Carrying : {β : Type} → (Act Co Fu β → Doing Co Fu) → Prop
  | advance : Carrying Doing.advance
  | work (spot : Spot Fu) : Carrying fun a => .work a spot
  | invoke (b : Builtin) (target : Target) (spot : Spot Fu) : Carrying fun a => .invoke b target a spot
  | dispatch (spot : Spot Fu) : Carrying fun a => .dispatch a spot

theorem Doing.Carrying.ne_leave {doing : Act Co Fu β → Doing Co Fu} (h : Doing.Carrying doing)
    (a : Act Co Fu β) (outcome : Option Outcome) : doing a ≠ .leave outcome := by
  cases h <;> exact nofun

/-- A request is nothing that happens to a coroutine. -/
theorem Doing.Carrying.event?_eq_none {doing : Act Co Fu β → Doing Co Fu} (h : Doing.Carrying doing)
    (d : Driver Co Fu) {a : Act Co Fu β} (ha : a.asks = true) : (doing a).event? d = none := by
  unfold Doing.event?
  cases h with
  | advance =>
    cases a with
    | ret v => cases ha
    | panic => cases ha
    | _ => cases d.job <;> rfl
  | _ => cases d.job <;> rfl

theorem Driver.enters_of_entry? {d : Driver Co Fu} {e : TaskEvent Co} (h : d.entry? = some e) :
    e.enters = true := by
  unfold Driver.entry? at h
  split at h <;> cases h
  rfl

/-- Where an act is carried out. -/
inductive Site (Co Fu β : Type)
  /-- Around the loop. -/
  | outside
  /-- In what a driver does that is polled by these. -/
  | inside (pollers : List (Poller Co Fu)) (key : DriverKey) (doing : Act Co Fu β → Doing Co Fu)

namespace EventLoop

/-- An act is carried out on behalf of `current`, from one state of the loop to another, with its value, or
with none if it panics. The calls are those of the act itself. -/
inductive Executes (p : Program Co Fu) (current : Option DriverKey) :
    {α : Type} → EventLoop Co Fu → Act Co Fu α → List SinkCall → EventLoop Co Fu → Option α → Prop
  | ret {α : Type} (l : EventLoop Co Fu) (v : α) : Executes p current l (.ret v) [] l (some v)
  | panic {α : Type} (l : EventLoop Co Fu) : Executes p current l (.panic : Act Co Fu α) [] l none
  | request {α : Type} {l l' : EventLoop Co Fu} {a : Act Co Fu α} {calls : List SinkCall} {r : Option α}
      (ha : a.direct = true)
      (h : Executes p current (l.perform p current a).1 (l.perform p current a).2 calls l' r) :
      Executes p current l a calls l' r
  | dispatch {α : Type} {l l₁ l' : EventLoop Co Fu} {sink : SinkId} {event v : Json}
      {k : Json → Act Co Fu α} {inner calls : List SinkCall} {r : Option α}
      (hsink : Executes p current l (p.dispatch sink event) inner l₁ (some v))
      (h : Executes p current l₁ (k v) calls l' r) :
      Executes p current l (.dispatch sink event k) (⟨sink, event, some v⟩ :: calls) l' r
  | dispatchPanics {α : Type} {l l' : EventLoop Co Fu} {sink : SinkId} {event : Json}
      {k : Json → Act Co Fu α} {inner : List SinkCall}
      (hsink : Executes p current l (p.dispatch sink event) inner l' none) :
      Executes p current l (.dispatch sink event k) [⟨sink, event, none⟩] l' none
  | invoke {α : Type} {l l₁ l' : EventLoop Co Fu} {target : Target} {args : List Json}
      {k : Invoked Co Fu → Act Co Fu α} {invoked : Invoked Co Fu} {inner calls : List SinkCall}
      {r : Option α} (htarget : Executes p current l (p.invoke target args) inner l₁ (some invoked))
      (h : Executes p current l₁ (k invoked) calls l' r) :
      Executes p current l (.invoke target args k) calls l' r
  | invokePanics {α : Type} {l l' : EventLoop Co Fu} {target : Target} {args : List Json}
      {k : Invoked Co Fu → Act Co Fu α} {inner : List SinkCall}
      (htarget : Executes p current l (p.invoke target args) inner l' none) :
      Executes p current l (.invoke target args k) [] l' none

/-- Some requests lead from one act to what is left of it. -/
inductive Proceeds (p : Program Co Fu) (current : Option DriverKey) :
    EventLoop Co Fu → Act Co Fu β → EventLoop Co Fu → Act Co Fu β → Prop
  | refl (l : EventLoop Co Fu) (a : Act Co Fu β) : Proceeds p current l a l a
  | step {l l' : EventLoop Co Fu} {a a' : Act Co Fu β} (ha : a.asks = true)
      (h : Proceeds p current (l.perform p current a).1 (l.perform p current a).2 l' a') :
      Proceeds p current l a l' a'

/-- What is left of an act that has come to this, with what follows its value. -/
def rest (k : α → Act Co Fu β) : Option α → Act Co Fu β
  | some v => k v
  | none => .panic

section

variable (p : Program Co Fu) {l l' l'' : EventLoop Co Fu} {current : Option DriverKey}
  {a a' a'' : Act Co Fu β}

theorem Proceeds.trans (h : Proceeds p current l a l' a') (h' : Proceeds p current l' a' l'' a'') :
    Proceeds p current l a l'' a'' := by
  induction h with
  | refl l a => exact h'
  | step ha _ ih => exact .step ha (ih h')

theorem perform_bind (l : EventLoop Co Fu) (current : Option DriverKey) {a : Act Co Fu α}
    (h : a.direct = true) (k : α → Act Co Fu β) :
    l.perform p current (a.bind k) =
      ((l.perform p current a).1, (l.perform p current a).2.bind k) := by
  cases a <;> first | rfl | cases h

/-- **An act that is carried out leads to what follows its value**, request by request. -/
theorem Executes.proceeds {α : Type} {l l' : EventLoop Co Fu} {a : Act Co Fu α} {calls : List SinkCall}
    {r : Option α} (h : Executes p current l a calls l' r) {β : Type} (k : α → Act Co Fu β) :
    Proceeds p current l (a.bind k) l' (rest k r) := by
  induction h generalizing β with
  | ret l v => exact .refl l (k v)
  | panic l => exact .refl l .panic
  | request ha _ ih =>
    refine .step (Act.asks_bind (Act.asks_of_direct ha) k) ?_
    rw [perform_bind p _ _ ha]
    exact ih k
  | @dispatch _ _ _ _ _ _ v f _ _ _ _ _ ihsink ih =>
    refine .step rfl (.trans p (ihsink fun v => (f v).bind k) (ih k))
  | @dispatchPanics _ _ _ _ _ f _ _ ihsink =>
    exact .step rfl (ihsink fun v => (f v).bind k)
  | @invoke _ _ _ _ _ _ f _ _ _ _ _ _ ihtarget ih =>
    exact .step rfl (.trans p (ihtarget fun v => (f v).bind k) (ih k))
  | @invokePanics _ _ _ _ _ f _ _ ihtarget =>
    exact .step rfl (ihtarget fun v => (f v).bind k)

/-! ## Acts as moves -/

/-- A request adds drivers, and takes none away. -/
theorem drivers_perform (l : EventLoop Co Fu) (current : Option DriverKey) (a : Act Co Fu β) :
    ∃ new, (l.perform p current a).1.drivers = l.drivers ++ new := by
  cases ha : a.arrival? with
  | some x => exact ⟨_, drivers_perform_of_arrival p ha⟩
  | none =>
    refine ⟨[], ?_⟩
    rw [List.append_nil]
    cases a with
    | ask q k =>
      cases q with
      | openGate name v =>
        show (l.openGate name v).drivers = l.drivers
        unfold openGate
        split <;> rfl
      | terminate s id => exact terminate_drivers l _ s id
      | _ => rfl
    | start s name co k => cases ha
    | spawn s name fu k => cases ha
    | nest s name co k => cases ha
    | _ => rfl

theorem driver?_perform {key : DriverKey} {d : Driver Co Fu} (hd : l.driver? key = some d) :
    (l.perform p current a).1.driver? key = some d := by
  obtain ⟨new, hnew⟩ := drivers_perform p l current a
  unfold driver? at hd ⊢
  rw [hnew, List.find?_append, hd]
  rfl

omit p in
theorem openGate_focusOn (l : EventLoop Co Fu) (pollers : List (Poller Co Fu)) (key : DriverKey)
    (doing : Doing Co Fu) (name : String) (v : Json) :
    (l.focusOn pollers key doing).openGate name v = (l.openGate name v).focusOn pollers key doing := by
  have hgates : (l.focusOn pollers key doing).gates = l.gates := rfl
  unfold openGate
  rw [hgates]
  split <;> rfl

omit p in
theorem terminate_focusOn (l : EventLoop Co Fu) (pollers : List (Poller Co Fu)) (key : DriverKey)
    (doing : Doing Co Fu) (spans : List Span) (s : SchedulerId) (id : TaskId) :
    (l.focusOn pollers key doing).terminate spans s id =
      ((l.terminate spans s id).1.focusOn pollers key doing, (l.terminate spans s id).2) := by
  have htasks : (l.focusOn pollers key doing).activeTasks s = l.activeTasks s := rfl
  rw [terminate_eq, terminate_eq, htasks]
  split <;> rfl

/-- What is in focus plays no part in a request. -/
theorem perform_focusOn (l : EventLoop Co Fu) (current : Option DriverKey) (a : Act Co Fu β)
    (pollers : List (Poller Co Fu)) (key : DriverKey) (doing : Doing Co Fu) :
    (l.focusOn pollers key doing).perform p current a =
      ((l.perform p current a).1.focusOn pollers key doing, (l.perform p current a).2) := by
  cases a with
  | ask q k =>
    cases q with
    | openGate name v => exact congrArg (·, k ()) (openGate_focusOn l pollers key doing name v)
    | terminate s id =>
      have h := terminate_focusOn l pollers key doing (l.spansOf current) s id
      exact congrArg (fun r => (r.1, k r.2)) h
    | _ => rfl
  | _ => rfl

theorem stepDriver_of_carrying {doing : Act Co Fu β → Doing Co Fu} (hc : Doing.Carrying doing)
    (l : EventLoop Co Fu) (pollers : List (Poller Co Fu)) (d : Driver Co Fu) (ha : a.asks = true) :
    l.stepDriver p pollers d (doing a) =
      (l.perform p (some d.key) a).1.focusOn pollers d.key (doing (l.perform p (some d.key) a).2) := by
  cases hc with
  | advance => exact stepDriver_advance p l pollers d ha
  | work spot => exact stepDriver_work p l pollers d ha spot
  | invoke b target spot => exact stepDriver_invoke p l pollers d b target ha spot
  | dispatch spot => exact stepDriver_dispatch p l pollers d ha spot

end

end EventLoop

/-! ## Sites -/

namespace Site

open EventLoop

variable (site : Site Co Fu β)

/-- On whose behalf the act is carried out. -/
def current : Option DriverKey :=
  match site with
  | .outside => none
  | .inside _ key _ => some key

/-- The loop when the act is what is carried out next. -/
def state (l : EventLoop Co Fu) (a : Act Co Fu β) : EventLoop Co Fu :=
  match site with
  | .outside => l
  | .inside pollers key doing => l.focusOn pollers key (doing a)

/-- An act can be carried out at the site. -/
def Apt (l : EventLoop Co Fu) : Prop :=
  match site with
  | .outside => l.focus = .idle
  | .inside _ key doing => Doing.Carrying doing ∧ ∃ d, l.driver? key = some d

/-- The move that carries out the first request of an act. -/
def move (a : Act Co Fu β) : Move Co Fu :=
  match site with
  | .outside => .act (a.bind fun _ => .ret ())
  | .inside _ _ _ => .step

section

variable {site} (p : Program Co Fu) {l l' : EventLoop Co Fu} {a a' : Act Co Fu β}

/-- A request is one move of the loop, in which nothing happens to those who were there before. -/
theorem move_state (hs : site.Apt l) (ha : a.asks = true) :
    (site.state l a).move p (site.move a) =
        site.state (l.perform p site.current a).1 (l.perform p site.current a).2 ∧
      site.Apt (l.perform p site.current a).1 ∧ (site.state l a).acting (site.move a) = [] := by
  cases site with
  | outside =>
    have hidle : l.focus = .idle := hs
    refine ⟨?_, (perform_focus p l none a).trans hidle, acting_of_idle hidle _⟩
    show l.move p (.act _) = (l.perform p none a).1
    rw [move_of_idle p hidle]
    exact perform_bind_fst p l none a _ fun v he => by
      rw [he] at ha
      cases ha
  | inside pollers key doing =>
    obtain ⟨hc, d, hd⟩ := hs
    cases key_of_driver? hd
    have hfocus : (l.focusOn pollers d.key (doing a)).focus = .active pollers d.key (doing a) := rfl
    refine ⟨?_, ⟨hc, d, driver?_perform p hd⟩, ?_⟩
    · show (l.focusOn pollers d.key (doing a)).move p .step = _
      rw [move_step_of_driver p hfocus hd (hc.ne_leave a), stepDriver_of_carrying p hc _ pollers d ha, perform_focusOn]
      rfl
    · show (l.focusOn pollers d.key (doing a)).acting .step = []
      rw [acting_of_driver hfocus hd, hc.event?_eq_none d ha]
      rfl

/-- **Requests are carried out by moves of the loop**, and in these nothing happens to a coroutine but that
some become tasks. -/
theorem run_of_proceeds (h : Proceeds p site.current l a l' a') (hs : site.Apt l) :
    ∃ moves, (site.state l a).after p moves = site.state l' a' ∧ site.Apt l' ∧
      ∀ x ∈ trace p (site.state l a) moves, x.2.enters = true := by
  induction h with
  | refl l a => exact ⟨[], rfl, hs, fun _ hx => nomatch hx⟩
  | @step l l' a a' ha _ ih =>
    obtain ⟨hmove, hapt, hacting⟩ := move_state p hs ha
    obtain ⟨moves, hmoves, hs', htrace⟩ := ih hapt
    refine ⟨site.move a :: moves, ?_, hs', fun x hx => ?_⟩
    · rw [after_cons, hmove, hmoves]
    · rw [trace, hmove] at hx
      rcases List.mem_append.mp hx with hx | hx
      · unfold happenings at hx
        rw [hacting, List.nil_append] at hx
        obtain ⟨d, _, he⟩ := List.mem_filterMap.mp hx
        obtain ⟨e, hentry, rfl⟩ := Option.map_eq_some_iff.mp he
        exact Driver.enters_of_entry? hentry
      · exact htrace x hx

/-- **An act is carried out by moves of the loop.** -/
theorem run_of_executes {b : Act Co Fu α} {calls : List SinkCall}
    {r : Option α} (h : Executes p site.current l b calls l' r) (k : α → Act Co Fu β) (hs : site.Apt l) :
    ∃ moves, (site.state l (b.bind k)).after p moves = site.state l' (rest k r) ∧ site.Apt l' ∧
      ∀ x ∈ trace p (site.state l (b.bind k)) moves, x.2.enters = true :=
  run_of_proceeds p (h.proceeds p k) hs

end

end Site

namespace EventLoop

/-! ## What the surroundings have carried out -/

variable (p : Program Co Fu)

theorem runAct_of_asks (fuel : Nat) (l : EventLoop Co Fu) {a : Act Co Fu α} (h : a.asks = true) :
    l.runAct p (fuel + 1) a = (l.perform p none a).1.runAct p fuel (l.perform p none a).2 := by
  cases a <;> first | rfl | cases h

/-- What the surroundings carry out to its end comes first to the value of its beginning. -/
theorem exists_executes (fuel : Nat) {α β : Type} {l l' : EventLoop Co Fu} {a : Act Co Fu α}
    {k : α → Act Co Fu β} {v : β} (h : l.runAct p fuel (a.bind k) = (l', some v)) :
    ∃ calls l₁ x fuel', Executes p none l a calls l₁ (some x) ∧ fuel' ≤ fuel ∧
      l₁.runAct p fuel' (k x) = (l', some v) := by
  induction fuel using Nat.strongRecOn generalizing α l a k with
  | ind fuel ih =>
    cases fuel with
    | zero =>
      cases a with
      | ret x => exact ⟨[], l, x, 0, .ret l x, Nat.le_refl _, h⟩
      | _ => cases h
    | succ fuel =>
      have hdirect : a.direct = true → ∃ calls l₁ x fuel', Executes p none l a calls l₁ (some x) ∧
          fuel' ≤ fuel + 1 ∧ l₁.runAct p fuel' (k x) = (l', some v) := by
        intro ha
        rw [runAct_of_asks p fuel l (Act.asks_bind (Act.asks_of_direct ha) k), perform_bind p l none ha] at h
        obtain ⟨calls, l₁, x, fuel', hx, hle, hrest⟩ := ih fuel (Nat.lt_succ_self _) h
        exact ⟨calls, l₁, x, fuel', .request ha hx, Nat.le_succ_of_le hle, hrest⟩
      cases a with
      | ret x => exact ⟨[], l, x, fuel + 1, .ret l x, Nat.le_refl _, h⟩
      | panic => cases h
      | dispatch sink event f =>
        rw [runAct_of_asks p fuel l (Act.asks_bind rfl k)] at h
        obtain ⟨inner, l₁, j, fuel₁, hsink, hle₁, hrest⟩ :=
          ih fuel (Nat.lt_succ_self _) (k := fun j => (f j).bind k) h
        obtain ⟨calls, l₂, x, fuel₂, hx, hle₂, hrest⟩ := ih fuel₁ (Nat.lt_succ_of_le hle₁) hrest
        exact ⟨_, l₂, x, fuel₂, .dispatch hsink hx, by omega, hrest⟩
      | invoke target args f =>
        rw [runAct_of_asks p fuel l (Act.asks_bind rfl k)] at h
        obtain ⟨inner, l₁, i, fuel₁, htarget, hle₁, hrest⟩ :=
          ih fuel (Nat.lt_succ_self _) (k := fun i => (f i).bind k) h
        obtain ⟨calls, l₂, x, fuel₂, hx, hle₂, hrest⟩ := ih fuel₁ (Nat.lt_succ_of_le hle₁) hrest
        exact ⟨_, l₂, x, fuel₂, .invoke htarget hx, by omega, hrest⟩
      | _ => exact hdirect rfl

/-- **What the surroundings have carried out to its value has been executed.** -/
theorem executes_of_runAct {fuel : Nat} {l l' : EventLoop Co Fu} {a : Act Co Fu α} {v : α}
    (h : l.runAct p fuel a = (l', some v)) : ∃ calls, Executes p none l a calls l' (some v) := by
  rw [← a.bind_ret] at h
  obtain ⟨calls, l₁, x, fuel', hx, _, hrest⟩ := exists_executes p fuel h
  cases fuel' with
  | zero => cases hrest
  | succ fuel' =>
    cases hrest
    exact ⟨calls, hx⟩

end EventLoop

end EffectLoop
