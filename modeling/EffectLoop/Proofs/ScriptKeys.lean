import EffectLoop.Proofs.Keeping
import EffectLoop.Script.Program

/-!
# Scripts keep their keys

Code gets the key of a nested driver only where it runs a coroutine, and there it waits for the driver at
once and never sees the key (`Code.within_pause`). A block holds the keys that its code waits for, on
whichever branch, and drops them when the wait is over (`Block.within_advance`). No statement of a script
says otherwise (`Script.within_execAll`), so every session keeps its keys (`Script.World.keeps`) and its
nested drivers are polled by their owners.
-/

namespace EffectLoop

variable {Co Fu : Type} {K K' : DriverKey → Prop}

/-! ## Code -/

/-- The code may come to poll only drivers in `K`, and those it runs itself. -/
def Code.Within (K : DriverKey → Prop) : Code → Prop
  | .done _ | .panic => True
  | .ask _ k => ∀ r, (k r).Within K
  | .dispatch _ _ k => ∀ v, (k v).Within K
  | .start _ _ _ _ k | .spawn _ _ _ _ k => ∀ h, (k h).Within K
  | .run _ _ _ _ k | .suspend _ k | .delegate _ _ k => ∀ r, (k r).Within K
  | .wait w k => w.Within K ∧ ∀ r, (k r).Within K
  | .both left right k => left.Within K ∧ right.Within K ∧ ∀ r r', (k r r').Within K

def Pause.Within (K : DriverKey → Prop) : Pause → Prop
  | .done _ => True
  | .suspend _ k | .delegate _ _ k => ∀ r, (k r).Within K
  | .wait w k => w.Within K ∧ ∀ r, (k r).Within K
  | .both left right k => left.Within K ∧ right.Within K ∧ ∀ r r', (k r r').Within K

def Stage.Within (K : DriverKey → Prop) : Stage Code → Prop
  | .done _ => True
  | .suspend _ k => ∀ r, (k r).Within K
  | .foreign w k => w.Within K ∧ ∀ r, (k r).Within K
  | .both left right k => left.Within K ∧ right.Within K ∧ ∀ r r', (k r r').Within K

namespace Code

theorem Within.mono (h : ∀ key, K key → K' key) {c : Code} (hw : c.Within K) : c.Within K' := by
  induction c with
  | done r => trivial
  | panic => trivial
  | wait w k ih => exact ⟨hw.1.mono h, fun r => ih r (hw.2 r)⟩
  | both left right k ihl ihr ihk =>
    exact ⟨ihl hw.1, ihr hw.2.1, fun r r' => ihk r r' (hw.2.2 r r')⟩
  | _ => rename_i ih; exact fun r => ih r (hw r)

variable {g : Grasp Co Code}

/-- To its next stop code comes to poll nothing new but a driver it has just entered. -/
theorem within_pause {c : Code} (h : c.Within K) :
    (c.pause : Act Co Code Pause).Within g Pause.Within K := by
  induction c with
  | ask q k ih => exact fun r => ih r (h r)
  | dispatch sink event k ih => exact fun v => ih v (h v)
  | start s name target args k ih =>
    rw [pause]
    intro i hi
    cases i with
    | coroutine co => exact ⟨hi, fun t => ih t (h t)⟩
    | pending fu => trivial
  | spawn s name target args k ih =>
    rw [pause]
    intro i hi
    cases i with
    | coroutine co => trivial
    | pending fu => exact ⟨hi, fun t => ih t (h t)⟩
  | run s name target args k ih =>
    intro i hi
    cases i with
    | coroutine co =>
      refine ⟨hi, fun key => ⟨?_, fun r => (h r).mono fun x hx => .inr hx⟩⟩
      rintro _ ⟨⟩
      exact .inl rfl
    | pending fu => trivial
  | done r => trivial
  | panic => trivial
  | suspend y k ih => exact h
  | wait w k ih => exact h
  | delegate b e k ih => exact h
  | both left right k ihl ihr ihk => exact h

theorem within_stage {c : Code} (h : c.Within K) :
    (c.stage : Act Co Code (Stage Code)).Within g Stage.Within K := by
  refine (within_pause h).bind fun K' stop _ hstop => ?_
  cases stop with
  | delegate b e k => trivial
  | _ => exact hstop

theorem within_await (hfu : ∀ {K c}, Code.Within K c → g.fu K c) {c : Code} (h : c.Within K) :
    (c.await : Act Co Code (Await Code)).Within g (Await.Within g) K := by
  refine (within_pause h).bind fun K' stop _ hstop => ?_
  cases stop with
  | done r => trivial
  | suspend y k => trivial
  | wait w k => exact ⟨hstop.1, fun r => hfu (hstop.2 r)⟩
  | delegate b e k => exact fun r => hfu (hstop r)
  | both left right k =>
    exact ⟨hfu hstop.1, hfu hstop.2.1, fun r r' => hfu (hstop.2.2 r r')⟩

theorem within_finish {c : Code} (h : c.Within K) :
    (c.finish : Act Co Code Resume).Within g (fun _ _ => True) K := by
  refine (within_pause h).bind fun K' stop _ hstop => ?_
  cases stop <;> trivial

end Code

/-! ## Blocks -/

def Tree.Within (K : DriverKey → Prop) : Tree Code → Prop
  | .code c => c.Within K
  | .suspended k => ∀ r, (k r).Within K
  | .foreign w k => w.Within K ∧ ∀ r, (k r).Within K
  | .both left right k => left.Within K ∧ right.Within K ∧ ∀ r r', (k r r').Within K
  | .finished _ => True

def Crumb.Within (K : DriverKey → Prop) : Crumb Code → Prop
  | .left beside k | .right beside k => beside.Within K ∧ ∀ r r', (k r r').Within K

/-- The code of the block may come to poll only drivers in `K`, and those it runs itself. -/
def Block.Within (K : DriverKey → Prop) (b : Block Code) : Prop :=
  match b.state with
  | .resting tree => tree.Within K
  | .polling poll => (∀ c ∈ poll.path, c.Within K) ∧ poll.focus.Within K
  | .over | .broken => True

theorem Tree.Within.mono (h : ∀ key, K key → K' key) {tree : Tree Code} (hw : tree.Within K) :
    tree.Within K' := by
  induction tree with
  | code c => exact Code.Within.mono h hw
  | suspended k => exact fun r => (hw r).mono h
  | foreign w k => exact ⟨hw.1.mono h, fun r => (hw.2 r).mono h⟩
  | both left right k ihl ihr => exact ⟨ihl hw.1, ihr hw.2.1, fun r r' => (hw.2.2 r r').mono h⟩
  | finished r => trivial

theorem Crumb.Within.mono (h : ∀ key, K key → K' key) {c : Crumb Code} (hw : c.Within K) :
    c.Within K' := by
  cases c <;> exact ⟨hw.1.mono h, fun r r' => (hw.2 r r').mono h⟩

namespace Block

theorem Within.mono (h : ∀ key, K key → K' key) {b : Block Code} (hw : b.Within K) :
    b.Within K' := by
  obtain ⟨exchange, started, state⟩ := b
  cases state with
  | resting tree => exact Tree.Within.mono h hw
  | polling poll => exact ⟨fun c hc => (hw.1 c hc).mono h, hw.2.mono h⟩
  | _ => trivial

theorem within_resume {b : Block Code} (h : b.Within K) (input : Resume) :
    (b.resume input).Within K := by
  obtain ⟨exchange, started, state⟩ := b
  cases state with
  | resting tree => exact ⟨fun c hc => (nomatch hc), h⟩
  | _ => trivial

theorem within_stop {b : Block Code} {path : List (Crumb Code)} (hpath : ∀ c ∈ path, c.Within K)
    {stage : Stage Code} (h : stage.Within K) : (b.stop path stage).Within K := by
  cases stage with
  | done r => exact ⟨hpath, trivial⟩
  | suspend y k =>
    unfold stop
    dsimp only
    split
    · exact ⟨hpath, h _⟩
    · exact ⟨hpath, h⟩
  | foreign w k => cases w <;> exact ⟨hpath, h⟩
  | both left right k => exact ⟨hpath, h⟩

variable {g : Grasp Co Code} {toCo : Block Code → Co}
  (hco : ∀ {K b}, Within K b → g.co K (toCo b))
include hco

theorem within_descend (b : Block Code) {path : List (Crumb Code)}
    (hpath : ∀ c ∈ path, c.Within K) {tree : Tree Code} (h : tree.Within K) :
    (b.descend Code.stage path tree).Within g (fun K p => (p.map toCo).Within g K) K := by
  have hpolling : ∀ {b : Block Code} {focus : Tree Code} {down : Bool}, focus.Within K →
      g.co K (toCo (b.pollAt path focus down)) := fun h => hco ⟨hpath, h⟩
  cases tree with
  | code c =>
    refine (Code.within_stage h).bind fun K' stage hle hstage => ?_
    exact hco (within_stop (fun c hc => (hpath c hc).mono hle) hstage)
  | suspended k =>
    unfold descend
    dsimp only
    split
    · exact hpolling (h _)
    · exact hpolling h
  | foreign w k =>
    cases w with
    | turn => exact hpolling (h.2 _)
    | nested key =>
      refine ⟨h.1 key rfl, fun outcome => ?_⟩
      cases outcome with
      | some o => exact hpolling (h.2 _)
      | none => exact hpolling h
    | _ =>
      intro reply
      cases reply with
      | some r => exact hpolling (h.2 r)
      | none => exact hpolling h
  | both left right k =>
    exact hco ⟨List.forall_mem_cons.mpr ⟨h.2, hpath⟩, h.1⟩
  | finished r => exact hpolling h

theorem within_ascend (b : Block Code) {path : List (Crumb Code)}
    (hpath : ∀ c ∈ path, c.Within K) {tree : Tree Code} (h : tree.Within K) :
    ((b.ascend tree path).map toCo).Within g K := by
  cases path with
  | nil =>
    unfold ascend
    split
    · rename_i hnil
      cases hnil
    · rename_i hnil
      cases hnil
    · split
      · trivial
      · split
        · exact hco h
        · trivial
  | cons crumb path =>
    obtain ⟨hcrumb, hrest⟩ := List.forall_mem_cons.mp hpath
    cases crumb with
    | left right k =>
      obtain ⟨hright, hk⟩ := hcrumb
      exact hco ⟨List.forall_mem_cons.mpr ⟨⟨h, hk⟩, hrest⟩, hright⟩
    | right left k =>
      obtain ⟨hleft, hk⟩ := hcrumb
      unfold ascend
      dsimp only
      split
      · exact hco ⟨hrest, hk _ _⟩
      · exact hco ⟨hrest, hleft, h, hk⟩

theorem within_advance {b : Block Code} (h : b.Within K) :
    (b.advance Code.stage).Within g (fun K p => (p.map toCo).Within g K) K := by
  obtain ⟨exchange, started, state⟩ := b
  cases state with
  | resting tree => exact hco ⟨fun c hc => (nomatch hc), h⟩
  | polling poll =>
    obtain ⟨path, focus, down⟩ := poll
    cases down with
    | true => exact within_descend hco _ h.1 h.2
    | false => exact within_ascend hco _ h.1 h.2
  | _ => trivial

end Block

/-! ## Flows -/

/-- The flow polls only drivers in `K`, and those it runs itself, if what follows does so. -/
def Flow.Within (K : DriverKey → Prop) {α : Type} (x : Flow α) : Prop :=
  ∀ k : Except EffectError α → Code, (∀ r, (k r).Within K) → (x.run k).Within K

theorem Inquiry.within_code {α : Type} (q : Inquiry α) {f : α → Code}
    (h : ∀ a, (f a).Within K) : (q.code f).Within K := by
  induction q with
  | ret a => exact h a
  | ask q k ih => exact ih

namespace Flow

variable {α β : Type}

theorem within_pure (a : α) : (pure a : Flow α).Within K := fun _ h => h _

theorem within_throw (e : EffectError) : (throw e : Flow α).Within K := fun _ h => h _

theorem within_bind {x : Flow α} {f : α → Flow β} (hx : x.Within K) (hf : ∀ a, (f a).Within K) :
    (x >>= f).Within K := by
  refine fun k h => hx _ fun r => ?_
  cases r with
  | ok a => exact hf a k h
  | error e => exact h _

theorem within_ofExcept (r : Except EffectError α) : (ofExcept r).Within K := fun _ h => h r

theorem within_request (q : Request) : (request q).Within K := fun _ h r => h (.ok r)

theorem within_suspend (y : Yielded) : (suspend y).Within K := fun _ h => h

theorem within_perform (e : Effect) : (perform e).Within K := within_suspend _

theorem within_pass (o : Output) : (pass o).Within K := within_suspend _

theorem within_wait {w : Wait} (hw : w.Within K) : (wait w).Within K := fun _ h => ⟨hw, h⟩

theorem within_attempt {x : Flow α} (hx : x.Within K) : x.attempt.Within K :=
  fun _ h => hx _ fun r => h (.ok r)

theorem within_sleep (ms : Nat) : (sleep ms).Within K :=
  within_bind (within_request _) fun _ =>
    within_bind (within_wait fun _ h => nomatch h) fun _ => within_pure _

theorem within_put (event : Json) : (put event).Within K :=
  within_bind (within_ofExcept _) fun _ => within_bind (within_perform _) fun _ => within_ofExcept _

theorem within_call (target : Target) (args : List Json) : (call target args).Within K :=
  within_bind (within_perform _) fun _ => within_ofExcept _

theorem within_fork (target : Target) (args : List Json) : (fork target args).Within K :=
  within_bind (within_perform _) fun _ => within_ofExcept _

theorem within_join (h : TaskHandle) : (join h).Within K :=
  within_bind (within_perform _) fun _ => within_ofExcept _

theorem within_code {x : Flow Json} (h : x.Within K) : x.code.Within K := h _ fun _ => trivial

end Flow

namespace Script

theorem within_inquire {α : Type} (q : Inquiry α) : (inquire q).Within K :=
  fun _ h => q.within_code fun a => h (.ok a)

open EffectLoop.Flow in
theorem within_flow (processing : Option Processing) (env : Env) (a : Action) :
    (a.flow processing env).Within K := by
  have value : ∀ {α : Type} {q : Inquiry α} {f : α → Flow Output}, (∀ a, (f a).Within K) →
      (inquire q >>= f).Within K := fun hf => within_bind (within_inquire _) hf
  cases a with
  | put event => exact value fun _ => within_bind (within_put _) fun _ => within_pure _
  | call target args => exact value fun _ => within_bind (within_call _ _) fun _ => within_pure _
  | fork target args => exact value fun _ => within_bind (within_fork _ _) fun _ => within_pure _
  | join x =>
    unfold Action.flow
    dsimp only
    split
    · exact within_bind (within_join _) fun _ => within_pure _
    · exact within_bind (within_ofExcept _) fun _ => within_bind (within_perform _) fun _ =>
        within_bind (within_ofExcept _) fun _ => within_pure _
  | perform spec =>
    exact value fun _ => within_bind (within_ofExcept _) fun _ => within_perform _
  | pass what => exact value fun _ => within_pass _
  | log v => exact value fun _ => within_bind (within_request _) fun _ => within_pure _
  | set v => exact value fun _ => within_pure _
  | intoValue x => exact within_bind (within_ofExcept _) fun _ => within_pure _
  | intoTask x => exact within_bind (within_ofExcept _) fun _ => within_pure _
  | sleep ms => exact value fun _ => within_bind (within_sleep _) fun _ => within_pure _
  | turn => exact within_wait nofun
  | never => exact within_wait nofun
  | gate name => exact within_wait nofun
  | openGate name v => exact value fun _ => within_bind (within_request _) fun _ => within_pure _
  | publish x key => exact within_bind (within_request _) fun _ => within_pure _
  | fetch key => exact within_bind (within_request _) fun _ => within_pure _
  | active host => exact within_bind (within_request _) fun _ => within_pure _
  | terminate host victim =>
    exact value fun _ => within_bind (within_request _) fun _ => within_pure _
  | start host target args => exact value fun _ k h t => h _
  | spawn host name target args => exact value fun _ k h t => h _
  | run host name target args => exact value fun _ k h => h
  | dispatch event =>
    refine value fun _ => ?_
    cases processing with
    | some p => exact fun k h v => h _
    | none => exact fun _ _ => trivial
  | delegate b spec =>
    have delegated : ∀ e, (⟨fun k => .delegate b e k⟩ : Flow Output).Within K := fun e k h => h
    cases spec with
    | some spec =>
      exact value fun _ => within_bind (within_ofExcept _) fun e => delegated e
    | none =>
      cases processing with
      | some p => exact within_bind (within_pure _) fun e => delegated e
      | none => exact within_bind (fun _ _ => trivial) fun e => delegated e

theorem within_repeated {body : Env → (Exit → Code) → Code}
    (hbody : ∀ env k, (∀ exit, (k exit).Within K) → (body env k).Within K) (bound : Option String)
    {k : Exit → Code} (hk : ∀ exit, (k exit).Within K) (count index : Nat) (env : Env) :
    (repeated body bound k count index env).Within K := by
  induction count generalizing index env with
  | zero => exact hk _
  | succ count ih =>
    refine hbody _ _ fun exit => ?_
    cases exit with
    | next env => exact ih _ env
    | _ => exact hk _

mutual

theorem within_exec (processing : Option Processing) (env : Env) (s : Stmt) {k : Exit → Code}
    (hk : ∀ exit, (k exit).Within K) : (s.exec processing env k).Within K := by
  cases s with
  | act a bound =>
    rw [Stmt.exec]
    refine within_flow processing env a _ fun r => ?_
    cases r <;> exact hk _
  | attempt body handler bound =>
    rw [Stmt.exec]
    refine within_execAll processing env body fun exit => ?_
    cases exit with
    | failed e env => exact within_execAll processing _ handler hk
    | _ => exact hk _
  | times count body index =>
    rw [Stmt.exec]
    refine Inquiry.within_code _ fun count => ?_
    exact within_repeated (fun env k h => within_execAll processing env body h) _ hk _ _ _
  | choose condition yes no =>
    rw [Stmt.exec]
    refine Inquiry.within_code _ fun v => ?_
    split
    · exact within_execAll processing env yes hk
    · exact within_execAll processing env no hk
  | both left right bound =>
    rw [Stmt.exec]
    exact ⟨within_execAll processing env left fun _ => trivial,
      within_execAll processing env right fun _ => trivial, fun _ _ => hk _⟩
  | give what =>
    rw [Stmt.exec]
    exact Inquiry.within_code _ fun o => hk _
  | fail spec =>
    rw [Stmt.exec]
    exact Inquiry.within_code _ fun e => hk _
  | rethrow x =>
    rw [Stmt.exec]
    split <;> exact hk _
  | panic => trivial

/-- **No statement names a nested driver.** -/
theorem within_execAll (processing : Option Processing) (env : Env) (script : List Stmt)
    {k : Exit → Code} (hk : ∀ exit, (k exit).Within K) :
    (execAll processing env script k).Within K := by
  cases script with
  | nil => exact hk _
  | cons s rest =>
    rw [execAll]
    refine within_exec processing env s fun exit => ?_
    cases exit with
    | next env => exact within_execAll processing env rest hk
    | _ => exact hk _

end

theorem within_body (script : List Stmt) (args : List Json) : (body script args).Within K :=
  within_execAll none _ script fun _ => trivial

theorem within_processor (script : List Stmt) (p : Processing) : (processor script p).Within K :=
  within_execAll (some p) _ script fun _ => trivial

end Script

/-! ## The checkout -/

namespace Order

open EffectLoop.Flow

theorem within_rollback (services : Services) (productId : String) (e : EffectError) :
    (rollback services productId e).Within K :=
  within_bind (within_request _) fun _ => within_bind (within_call _ _) fun _ =>
    within_bind (within_put _) fun _ => within_throw _

theorem within_checkout (services : Services) (productId userId : String)
    (address price : TaskHandle) : (checkout services productId userId address price).Within K :=
  within_bind (within_call _ _) fun _ => within_bind (within_call _ _) fun _ =>
    within_bind (within_put _) fun _ => within_bind (within_join _) fun _ =>
    within_bind (within_call _ _) fun _ => within_bind (within_join _) fun _ =>
    within_bind (within_put _) fun _ => within_bind (within_call _ _) fun _ =>
    within_bind (within_put _) fun _ => within_pure _

theorem within_orderProduct (services : Services) (productId userId : String) :
    (orderProduct services productId userId).Within K := by
  refine within_bind (within_fork _ _) fun address => within_bind (within_fork _ _) fun price => ?_
  refine within_bind (within_attempt (within_checkout _ _ _ _ _)) fun result => ?_
  cases result with
  | ok order => exact within_pure _
  | error e => exact within_rollback _ _ _

theorem within_makePayment (services : Services) (args : List Json) :
    (makePayment services args).Within K := by
  refine within_bind (within_call _ _) fun validation => ?_
  split
  · exact within_bind (within_put _) fun _ => within_bind (within_call _ _) fun _ =>
      within_bind (within_put _) fun _ => within_pure _
  · exact within_throw _

variable {g : Grasp Co Code} {ofBlock : Block Code → Co}
  (hco : ∀ {K b}, Block.Within K b → g.co K (ofBlock b))
  (hfu : ∀ {K c}, Code.Within K c → g.fu K c)
include hco hfu

theorem free_invoke (services : Services) (service : Service) (args : List Json) :
    (invoke ofBlock services service args).Free g := by
  cases service with
  | makePayment => exact hco (Flow.within_code (within_makePayment services args))
  | validateCard => exact hfu trivial
  | _ => exact hfu (Flow.within_code (within_bind (within_sleep _) fun _ => within_pure _))

theorem free_of_invoke? {target : Target} {args : List Json} {i : Invoked Co Code}
    (h : invoke? ofBlock target args = some i) : i.Free g := by
  unfold invoke? at h
  simp only [Option.bind_eq_bind, Option.bind_eq_some_iff, Option.pure_def, Option.some.injEq] at h
  obtain ⟨services, _, service, _, rfl⟩ := h
  exact free_invoke hco hfu services service args

end Order

/-! ## Sessions -/

namespace Script

def Routine.Within (K : DriverKey → Prop) : Routine → Prop
  | .block b => b.Within K
  | .stepper _ => True

/-- What scripts may come to poll. -/
def grasp : Grasp Routine Code where
  co := Routine.Within
  fu := Code.Within
  co_mono := by
    intro K K' routine h hw
    cases routine with
    | block b => exact Block.Within.mono h hw
    | stepper m => trivial
  fu_mono := fun h hw => Code.Within.mono h hw

theorem within_act {α : Type} {ret : (DriverKey → Prop) → α → Prop} (h : ∀ a, ret K a)
    (q : Inquiry α) : (q.act : Act Co Fu α).Within g ret K := by
  induction q with
  | ret a => exact h a
  | ask q k ih => exact ih

/-- A coroutine made of steps polls nothing. -/
theorem within_stepper (m : Stepper) :
    (m.advance : Act Routine Code (Progress Stepper)).Within grasp
      (fun K p => (p.map .stepper).Within grasp K) K := by
  have hstep : (m.step.act : Act Routine Code _).Within grasp (fun _ _ => True) K :=
    within_act (fun _ => trivial) m.step
  refine hstep.bind fun K' step _ _ => ?_
  cases step with
  | none => trivial
  | some step => cases step <;> trivial

theorem within_routine {routine : Routine} (h : routine.Within K) :
    routine.advance.Within grasp (Progress.Within grasp) K := by
  cases routine with
  | block b =>
    have hblock : ∀ {K b}, Block.Within K b → grasp.co K (.block b) := fun h => h
    exact (Block.within_advance hblock h).bind fun _ _ _ hprogress => hprogress
  | stepper m => exact (within_stepper m).bind fun _ _ _ hprogress => hprogress

namespace World

variable (w : World)

theorem within_eagerly (eager : List Stmt) (args : List Json) {made : Invoked Routine Code}
    (h : made.Free grasp) : (eagerly eager args made).Within grasp (fun _ i => i.Free grasp) K :=
  (Code.within_finish (within_body eager args)).bind fun _ _ _ _ => h

theorem within_invokeDefinition (args : List Json) (definition : Definition) :
    (invokeDefinition args definition).Within grasp (fun _ i => i.Free grasp) K := by
  cases definition with
  | function script =>
    exact (Code.within_finish (within_body script args)).bind fun _ _ _ _ => trivial
  | future eager script => exact within_eagerly eager args (within_body script args)
  | coroutine eager script => exact within_eagerly eager args (within_body script args)
  | steps eager steps => exact within_eagerly eager args trivial
  | order services => exact Flow.within_code (Order.within_orderProduct services _ _)
  | service services s => exact Order.free_invoke id id services s args

theorem within_invoke (target : Target) (args : List Json) :
    (w.invoke target args).Within grasp (fun _ i => i.Free grasp) K := by
  unfold invoke
  split
  · rename_i h
    exact Order.free_of_invoke? id id h
  · split
    · exact within_invokeDefinition args _
    · trivial

theorem within_dispatch (sink : SinkId) (event : Json) :
    (w.dispatch sink event).Within grasp (fun _ _ => True) K := by
  unfold dispatch
  dsimp only
  split
  · exact fun _ => trivial
  · exact fun _ => trivial
  · exact fun _ _ => trivial
  · exact fun _ => trivial
  · refine fun _ => ?_
    split <;> trivial
  · refine fun _ => ?_
    split
    · split
      · intro i hi
        cases i with
        | coroutine co => exact ⟨hi, fun _ => trivial⟩
        | pending fu => trivial
      · trivial
    · trivial

/-- **Sessions keep their keys.** -/
theorem keeps : w.program.Keeps grasp where
  resume := by
    intro K routine h r
    cases routine with
    | block b => exact Block.within_resume h r
    | stepper m => trivial
  advance := within_routine
  work := Code.within_await fun h => h
  invoke := w.within_invoke
  process := fun _ _ _ => within_processor _ _
  dispatch := w.within_dispatch

/-- **In a session nested drivers are polled by their owners**, whatever is done around it. -/
theorem ownersPollIn {moves : List (EffectLoop.Move Routine Code)}
    (hm : ∀ m ∈ moves, m.Keeps grasp) : EventLoop.OwnersPollIn w.program moves :=
  EventLoop.ownersPollIn_of_keeps w.keeps hm

end World

end Script

end EffectLoop
