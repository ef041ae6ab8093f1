import EffectLoop.Proofs.Grasps
import EffectLoop.Proofs.Ladders
import EffectLoop.Proofs.Waking

/-!
# Nested drivers are kept

In a run of a program that keeps its keys whatever a driver may come to poll is nested in it, between
polls and during a poll (`Kept`, `kept_after`). A step of a driver keeps what it has, as one look at
everything the step can be tells (`keepingStep_stepDriver`), and whom it enters has nothing
(`free_of_stepDriver`). So nested drivers are polled by their owners (`ownersPollIn_of_keeps`).
-/

namespace EffectLoop

variable {Co Fu α : Type}

theorem Driver.IsRoot.key?_eq_none {d : Driver Co Fu} (h : d.IsRoot) : d.owner.key? = none := by
  cases how : d.owner with
  | driver key => exact absurd how (h key)
  | _ => rfl

namespace EventLoop

section

variable {p : Program Co Fu} {g : Grasp Co Fu} (hp : p.Keeps g) {K : DriverKey → Prop}
  {ret : (DriverKey → Prop) → α → Prop}
  (hret : ∀ K K' a, (∀ key, K key → K' key) → ret K a → ret K' a)
  {l : EventLoop Co Fu} {pollers : List (Poller Co Fu)} {d d' : Driver Co Fu}

include hp hret in
/-- What an act comes to in one step polls no more than it could, but what it has entered. -/
theorem within_perform {a : Act Co Fu α} (ha : a.Within g ret K) (current : Option DriverKey)
    (hnest : ∀ s name co k, a = .nest s name co k → K ⟨l.lastKey + 1⟩) :
    (l.perform p current a).2.Within g ret K := by
  cases a with
  | ret x => exact ha
  | panic => trivial
  | ask q k => exact ha _
  | invoke target args k =>
    have hinvoke : (p.invoke target args).Within g (fun _ i => i.Free g) K :=
      (hp.invoke target args).mono (fun _ _ _ _ hi => hi) fun _ hk => hk.elim
    exact hinvoke.bind fun K' i hle hi => (ha i hi).mono hret hle
  | dispatch sink event k =>
    have hdispatch : (p.dispatch sink event).Within g (fun _ _ => True) K :=
      (hp.dispatch sink event).mono (fun _ _ _ _ _ => trivial) fun _ hk => hk.elim
    exact hdispatch.bind fun K' j hle _ => (ha j).mono hret hle
  | start s name co k => exact ha.2 _
  | spawn s name fu k => exact ha.2 _
  | nest s name co k =>
    refine (ha.2 _).mono hret fun key hk => ?_
    rcases hk with rfl | hk
    · exact hnest s name co k rfl
    · exact hk

/-- Whom an act enters may come to poll nothing that was there. -/
theorem free_of_perform (hl : Proper l) {a : Act Co Fu α} (ha : a.Within g ret K)
    {current : Option DriverKey} (hcurrent : ∀ key ∈ current, key.val ≤ l.lastKey)
    (hd : d ∈ (l.perform p current a).1.drivers) (hnew : l.lastKey < d.key.val) :
    d.Within g fun _ => False := by
  have hold : d ∉ l.drivers := fun hmem => by
    have := (hl d hmem).1
    omega
  cases h : a.enters with
  | false => exact absurd hnew (not_new_of_perform p hl hcurrent h hd)
  | true =>
    cases a with
    | start s name co k =>
      rw [List.mem_singleton.mp ((List.mem_append.mp hd).resolve_left hold)]
      exact ⟨ha.1, trivial⟩
    | spawn s name fu k =>
      rw [List.mem_singleton.mp ((List.mem_append.mp hd).resolve_left hold)]
      exact ⟨trivial, ha.1⟩
    | nest s name co k =>
      rw [List.mem_singleton.mp ((List.mem_append.mp hd).resolve_left hold)]
      exact ⟨ha.1, trivial⟩
    | _ => cases h

theorem free_of_stepInvoked {invoked : Invoked Co Fu} (hi : invoked.Free g) (b : Builtin)
    (target : Target) (spot : Spot Fu)
    (hd : d' ∈ (l.stepInvoked p pollers d b target spot invoked).drivers) (hold : d' ∉ l.drivers) :
    d'.Within g fun _ => False := by
  cases invoked with
  | pending fu =>
    cases b with
    | fork =>
      rw [List.mem_singleton.mp ((List.mem_append.mp hd).resolve_left hold)]
      exact ⟨trivial, hi⟩
    | _ => exact absurd hd hold
  | coroutine co =>
    cases b <;>
      (rw [List.mem_singleton.mp ((List.mem_append.mp hd).resolve_left hold)]
       exact ⟨hi, trivial⟩)

/-- Whom a step enters may come to poll nothing that was there. -/
theorem free_of_stepDriver (hl : Proper l) (hx : d ∈ l.drivers) {doing : Doing Co Fu}
    (hdoing : doing.Within g K) (hleave : ∀ outcome, doing ≠ .leave outcome)
    (hd : d' ∈ (l.stepDriver p pollers d doing).drivers) (hnew : l.lastKey < d'.key.val) :
    d'.Within g fun _ => False := by
  have hcurrent := current_le (hl d hx).1
  cases h : doing.enters with
  | false => exact absurd hnew (not_new_of_stepDriver p hl hx hleave h hd)
  | true =>
    cases doing with
    | advance a =>
      rw [stepDriver_advance p l pollers d (asks_of_enters h)] at hd
      exact free_of_perform hl hdoing hcurrent hd hnew
    | work a spot =>
      rw [stepDriver_work p l pollers d (asks_of_enters h)] at hd
      exact free_of_perform hl hdoing.1 hcurrent hd hnew
    | invoke b target a spot =>
      cases a with
      | ret invoked =>
        refine free_of_stepInvoked hdoing.1 b target spot hd fun hmem => ?_
        have := (hl d' hmem).1
        omega
      | panic => cases h
      | _ =>
        rw [stepDriver_invoke p l pollers d b target rfl] at hd
        exact free_of_perform hl hdoing.1 hcurrent hd hnew
    | dispatch a spot =>
      rw [stepDriver_dispatch p l pollers d (asks_of_enters h)] at hd
      exact free_of_perform hl hdoing.1 hcurrent hd hnew
    | _ => cases h

end

/-! ## Steps -/

/-- The driver with the key, if it is there, is nested in `owner`, or in no other. -/
def Belongs (l : EventLoop Co Fu) (owner : Option DriverKey) (key : DriverKey) : Prop :=
  key.val ≤ l.lastKey ∧ ∀ d ∈ l.drivers, d.key = key → d.owner.key? = owner

section

variable {l l' : EventLoop Co Fu}

theorem Belongs.touches {owner : Option DriverKey} {key k : DriverKey} (h : Belongs l owner key)
    (ht : Touches k l l') : Belongs l' owner key := by
  refine ⟨Nat.le_trans h.1 ht.lastKey_le, fun d hd hk => ?_⟩
  rcases ht.old_or_new d hd with hold | ⟨_, d₀, hd₀, he⟩ | ⟨⟨hnew, _⟩, _⟩
  · exact h.2 d hold hk
  · have howner := h.2 d₀ hd₀ (by rw [← hk, he])
    rw [he]
    exact howner
  · have := h.1
    rw [hk] at hnew
    omega

theorem belongs_nest (hl : Proper l) (spec : SchedulerSpec) (owner : DriverKey) (s : SchedulerId)
    (name : String) (co : Co) :
    Belongs (l.nest spec (some owner) s name co).1 (some owner) ⟨l.lastKey + 1⟩ := by
  refine ⟨Nat.le_refl _, fun d hd hk => ?_⟩
  rcases List.mem_append.mp hd with hd | hd
  · have := (hl d hd).1
    rw [hk] at this
    exact absurd this (Nat.not_succ_le_self _)
  · rw [List.mem_singleton.mp hd]
    rfl

end

section

variable (g : Grasp Co Fu) (K : DriverKey → Prop) (l : EventLoop Co Fu)
  (pollers : List (Poller Co Fu)) (d : Driver Co Fu)

/-- A step of `d` after which `d`, and what it is about to do, polls only drivers in `K`. -/
inductive KeepingStep : EventLoop Co Fu → Prop
  | on {l' : EventLoop Co Fu} {doing : Doing Co Fu}
      (hown : ∀ d' ∈ l'.drivers, d'.key = d.key → d'.Within g K) (h : doing.Within g K) :
      KeepingStep (l'.focusOn pollers d.key doing)
  | nested {poller : Poller Co Fu} {key : DriverKey} (hp : poller.key? = some d.key)
      (h : poller.Within g K) (hk : K key) : KeepingStep (l.focusOn (poller :: pollers) key .poll)
  | crash : KeepingStep { l.crash d.home with focus := .idle }

end

section

variable {p : Program Co Fu} {g : Grasp Co Fu} {K : DriverKey → Prop} {l : EventLoop Co Fu}
  {pollers : List (Poller Co Fu)} {d : Driver Co Fu} (hb : d.key.val ≤ l.lastKey)
  (hu : ∀ x ∈ l.drivers, x.key = d.key → x = d) (hd : d.Within g K)
include hb hu hd

theorem KeepingStep.spares {l' : EventLoop Co Fu} (hl : Spares l l') {doing : Doing Co Fu}
    (h : doing.Within g K) : KeepingStep g K l pollers d (l'.focusOn pollers d.key doing) := by
  refine .on (fun d' hd' hk => ?_) h
  rw [hl.eq_of_key hu hb hd' hk]
  exact hd

theorem KeepingStep.here {doing : Doing Co Fu} (h : doing.Within g K) :
    KeepingStep g K l pollers d (l.focusOn pollers d.key doing) :=
  .spares hb hu hd (.refl l) h

theorem keepingStep_poll : KeepingStep g K l pollers d (l.stepDriver p pollers d .poll) := by
  unfold stepDriver
  dsimp only
  split
  · exact .spares hb hu hd (.of_eq rfl rfl : Spares l (l.record ..)) trivial
  · rename_i branch hactivity
    have hbranch := hd.activity
    rw [hactivity] at hbranch
    refine .on (fun d' hd' hk => ?_) ⟨hbranch, fun f hf => nomatch hf⟩
    rw [eq_of_mem_modifyDriver hu hd' hk]
    exact ⟨hd.job, trivial⟩
  · exact .here hb hu hd trivial

theorem keepingStep_pause {branch : Branch Fu} {forks : List (Fork Fu)} (h : branch.Within g K)
    (hforks : ∀ f ∈ forks, f.Within g K) :
    KeepingStep g K l pollers d (l.stepDriver p pollers d (.pause branch forks)) := by
  cases forks with
  | nil =>
    refine .on (fun d' hd' hk => ?_) trivial
    rw [eq_of_mem_modifyDriver hu hd' hk]
    exact ⟨hd.job, h⟩
  | cons fork forks =>
    obtain ⟨hfork, hrest⟩ := List.forall_mem_cons.mp hforks
    cases fork with
    | left right k frames =>
      obtain ⟨hright, hk, hframes⟩ := hfork
      exact .here hb hu hd ⟨hright, List.forall_mem_cons.mpr ⟨⟨h, hk, hframes⟩, hrest⟩⟩
    | right left k frames =>
      obtain ⟨hleft, hk, hframes⟩ := hfork
      exact .here hb hu hd ⟨⟨hleft, h, hk, hframes⟩, hrest⟩

theorem keepingStep_wait {w : Wait} {spot : Spot Fu} (hw : w.Within K) (hspot : spot.Within g K)
    {l' : EventLoop Co Fu} (hl : Spares l l') :
    KeepingStep g K l pollers d
      (l'.focusOn pollers d.key (.pause (.waiting w spot.frames) spot.forks)) :=
  .spares hb hu hd hl ⟨⟨hw, hspot.frames⟩, hspot.forks⟩

theorem keepingStep_await {w : Wait} {spot : Spot Fu} (hw : w.Within K) (hspot : spot.Within g K) :
    KeepingStep g K l pollers d (l.stepDriver p pollers d (.await w spot)) := by
  rcases l.stepDriver_await p pollers d w spot with ⟨key, rfl, h⟩ | ⟨r, _, h⟩ | ⟨_, h⟩
  · exact h ▸ .nested rfl hspot (hw key rfl)
  · exact h ▸ .here hb hu hd hspot
  · exact h ▸ keepingStep_wait hb hu hd hw hspot (l.spares_wait pollers d w)

theorem keepingStep_visit (hp : p.Keeps g) {branch : Branch Fu} {forks : List (Fork Fu)}
    (h : branch.Within g K) (hforks : ∀ f ∈ forks, f.Within g K) :
    KeepingStep g K l pollers d (l.stepDriver p pollers d (.visit branch forks)) := by
  cases branch with
  | unbegun fu => exact .here hb hu hd ⟨hp.work h, fun f hf => (nomatch hf), hforks⟩
  | waiting w frames =>
    obtain ⟨hw, hframes⟩ := h
    rcases l.stepDriver_visit_waiting p pollers d w frames forks with
      ⟨key, rfl, he⟩ | ⟨r, _, he⟩ | ⟨_, he⟩
    · exact he ▸ .nested rfl ⟨hframes, hforks⟩ (hw key rfl)
    · exact he ▸ .here hb hu hd ⟨hframes, hforks⟩
    · exact he ▸ .here hb hu hd ⟨⟨hw, hframes⟩, hforks⟩
  | both left right k frames =>
    obtain ⟨hleft, hright, hk, hframes⟩ := h
    exact .here hb hu hd ⟨hleft, List.forall_mem_cons.mpr ⟨⟨hright, hk, hframes⟩, hforks⟩⟩
  | finished r => exact .here hb hu hd ⟨fun f hf => (nomatch hf), hforks⟩

theorem keepingStep_answer (hp : p.Keeps g) (r : Resume) {spot : Spot Fu} (h : spot.Within g K) :
    KeepingStep g K l pollers d (l.stepAnswer p pollers d r spot) := by
  obtain ⟨frames, forks⟩ := spot
  obtain ⟨hframes, hforks⟩ := h
  dsimp only at hframes hforks
  cases frames with
  | cons frame frames =>
    obtain ⟨hframe, hrest⟩ := List.forall_mem_cons.mp hframes
    have hspot : (⟨frames, forks⟩ : Spot Fu).Within g K := ⟨hrest, hforks⟩
    cases frame with
    | code k => exact .here hb hu hd ⟨hp.work (hframe r), hspot⟩
    | call => exact .here hb hu hd hspot
    | deliver event =>
      refine .here hb hu hd ⟨?_, hspot⟩
      exact (hp.dispatch _ event).mono (fun _ _ _ _ _ => trivial) fun _ hk => hk.elim
  | nil =>
    cases forks with
    | cons fork forks =>
      obtain ⟨hfork, hrest⟩ := List.forall_mem_cons.mp hforks
      cases fork with
      | left right k frames =>
        obtain ⟨hright, hk, hf⟩ := hfork
        exact .here hb hu hd ⟨hright, List.forall_mem_cons.mpr ⟨⟨trivial, hk, hf⟩, hrest⟩⟩
      | right left k frames =>
        obtain ⟨hleft, hk, hf⟩ := hfork
        cases left with
        | finished r' => exact .here hb hu hd ⟨hp.work (hk r' r), hf, hrest⟩
        | _ => exact .here hb hu hd ⟨⟨hleft, trivial, hk, hf⟩, hrest⟩
    | nil =>
      unfold stepAnswer
      dsimp only
      split
      · exact .spares hb hu hd (.of_eq rfl rfl : Spares l (l.record ..)) trivial
      · exact .here hb hu hd trivial
      · exact .here hb hu hd trivial

theorem KeepingStep.own {l' : EventLoop Co Fu} (h : KeepingStep g K l pollers d l') :
    ∀ d' ∈ l'.drivers, d'.key = d.key → d'.Within g K := by
  intro d' hd' hk
  cases h with
  | on hown _ => exact hown d' hd' hk
  | nested _ _ _ =>
    rw [hu d' hd' hk]
    exact hd
  | crash =>
    rw [(l.spares_crash d.home).eq_of_key hu hb hd' hk]
    exact hd

omit hb in
theorem keepingStep_yield {passes : Nat} {kind : EffectKind} {co : Co} (h : g.co K co)
    (y : Yielded) :
    KeepingStep g K l pollers d (l.stepYield p pollers d passes kind co y) := by
  have hown : ∀ {job : Job Co}, job.Within g K → ∀ d' ∈ (l.setJob d.key job).drivers,
      d'.key = d.key → d'.Within g K := by
    intro job hjob d' hd' hk
    rw [eq_of_mem_modifyDriver hu hd' hk]
    exact ⟨hjob, hd.activity⟩
  unfold stepYield
  cases y with
  | pass o =>
    have hjob : (Job.coroutine co (passes + 1) kind).Within g K := h
    dsimp only
    split
    · split
      · exact .on (hown hjob) trivial
      · exact .on (hown hjob) trivial
    · exact .on (hown hjob) trivial
  | effect e =>
    have hjob : (Job.coroutine co 0 e.kind).Within g K := h
    have hspot : ({} : Spot Fu).Within g K := ⟨fun f hf => (nomatch hf), fun f hf => (nomatch hf)⟩
    dsimp only
    split
    · exact .on (hown hjob) trivial
    · exact .on (hown hjob) hspot

theorem keepingStep_resume (hp : p.Keeps g) (input : Resume) :
    KeepingStep g K l pollers d (l.stepDriver p pollers d (.resume input)) := by
  unfold stepDriver
  dsimp only
  split
  · rename_i co passes kind hjob
    have hco : g.co K co := by
      have h := hd.job
      rwa [hjob] at h
    have hco' : g.co K (p.resume co input) := hp.resume hco input
    refine .on (fun d' hd' hk => ?_) (hp.advance hco')
    rw [eq_of_mem_resume hu _ hd' hk]
    exact ⟨hco', trivial⟩
  · exact .here hb hu hd trivial

omit hb hu hd in
theorem within_builtinDoing (hp : p.Keeps g) (b : Builtin) (e : Effect) {spot : Spot Fu}
    (h : spot.Within g K) : (builtinDoing p b e spot).Within g K := by
  have hinvoke : ∀ target args, (p.invoke target args).Within g (fun _ i => i.Free g) K :=
    fun target args => (hp.invoke target args).mono (fun _ _ _ _ hi => hi) fun _ hk => hk.elim
  unfold builtinDoing
  split
  · exact ⟨fun key hk => (nomatch hk), List.forall_mem_cons.mpr ⟨trivial, h.frames⟩, h.forks⟩
  · exact ⟨hinvoke _ _, h⟩
  · exact ⟨hinvoke _ _, h⟩
  · exact ⟨fun key hk => (nomatch hk), h⟩
  · exact h

theorem keepingStep_invoked (hp : p.Keeps g) (hl : Proper l) {b : Builtin} {target : Target}
    {spot : Spot Fu} {invoked : Invoked Co Fu} (hi : invoked.Free g) (h : spot.Within g K)
    (hnew : ∀ key,
      Belongs (l.stepInvoked p pollers d b target spot invoked) (some d.key) key → K key) :
    KeepingStep g K l pollers d (l.stepInvoked p pollers d b target spot invoked) := by
  have hcalled : Spot.Within g K { spot with frames := .call :: spot.frames } :=
    ⟨List.forall_mem_cons.mpr ⟨trivial, h.frames⟩, h.forks⟩
  cases invoked with
  | pending fu =>
    cases b with
    | fork => exact .spares hb hu hd (l.spares_spawn ..) h
    | _ => exact .here hb hu hd ⟨hp.work (g.fu_mono (fun _ hk => hk.elim) hi), hcalled⟩
  | coroutine co =>
    cases b with
    | fork => exact .spares hb hu hd (l.spares_start ..) h
    | _ =>
      have hkey := hnew _ (belongs_nest hl _ d.key _ _ co)
      refine .spares hb hu hd (l.spares_nest _ (current_le hb) ..) ⟨?_, hcalled⟩
      rintro _ ⟨⟩
      exact hkey

omit hb hu hd in
/-- A driver that an act nests is one that the step which performs the act enters. -/
theorem entered_of_nest (hl : Proper l) {doing doing' : Doing Co Fu}
    (hnew : ∀ key, Belongs (l.stepDriver p pollers d doing) (some d.key) key → K key)
    {a : Act Co Fu α} (he : l.stepDriver p pollers d doing =
      (l.perform p (some d.key) a).1.focusOn pollers d.key doing')
    (s : SchedulerId) (name : String) (co : Co) (k : DriverKey → Act Co Fu α)
    (ha : a = .nest s name co k) : K ⟨l.lastKey + 1⟩ := by
  subst ha
  rw [he] at hnew
  exact hnew _ (belongs_nest hl (p.scheduler s) d.key s name co)

theorem keepingStep_advance (hp : p.Keeps g) (hl : Proper l) {a : Act Co Fu (Progress Co)}
    (h : (Doing.advance a : Doing Co Fu).Within g K)
    (hnew : ∀ key, Belongs (l.stepDriver p pollers d (.advance a)) (some d.key) key → K key) :
    KeepingStep g K l pollers d (l.stepDriver p pollers d (.advance a)) := by
  cases hasks : a.asks with
  | true =>
    have he := stepDriver_advance p l pollers d hasks
    rw [he]
    refine .spares hb hu hd (l.spares_perform p _ (current_le hb) a) ?_
    exact within_perform hp (fun _ _ _ hle hx => hx.mono hle) h _ (entered_of_nest hl hnew he)
  | false =>
    cases a with
    | ret progress =>
      cases progress with
      | more co => exact .here hb hu hd (hp.advance h)
      | poll key k => exact .nested rfl h.2 h.1
      | yield y co =>
        unfold stepDriver
        dsimp only
        split
        · exact keepingStep_yield hu hd h y
        · exact .here hb hu hd trivial
      | done outcome co => exact .spares hb hu hd (l.spares_dropNested d.key) trivial
    | panic => exact .here hb hu hd trivial
    | _ => cases hasks

theorem keepingStep_work (hp : p.Keeps g) (hl : Proper l) {a : Act Co Fu (Await Fu)}
    {spot : Spot Fu} (h : (Doing.work a spot : Doing Co Fu).Within g K)
    (hnew : ∀ key, Belongs (l.stepDriver p pollers d (.work a spot)) (some d.key) key → K key) :
    KeepingStep g K l pollers d (l.stepDriver p pollers d (.work a spot)) := by
  obtain ⟨hact, hspot⟩ := h
  cases hasks : a.asks with
  | true =>
    have he := stepDriver_work p l pollers d hasks spot
    rw [he]
    refine .spares hb hu hd (l.spares_perform p _ (current_le hb) a) ⟨?_, hspot⟩
    exact within_perform hp (fun _ _ _ hle hx => hx.mono hle) hact _ (entered_of_nest hl hnew he)
  | false =>
    cases a with
    | ret await =>
      cases await with
      | done r => exact .here hb hu hd hspot
      | wait w k =>
        exact .here hb hu hd ⟨hact.1, List.forall_mem_cons.mpr ⟨hact.2, hspot.frames⟩, hspot.forks⟩
      | delegate b e k =>
        have hcode : (Frame.code k).Within g K := hact
        have hspot' : (⟨.code k :: spot.frames, spot.forks⟩ : Spot Fu).Within g K :=
          ⟨List.forall_mem_cons.mpr ⟨hcode, hspot.frames⟩, hspot.forks⟩
        exact .here hb hu hd hspot'
      | both left right k =>
        obtain ⟨hleft, hright, hk⟩ := hact
        exact .here hb hu hd ⟨hp.work hleft, fun f hf => (nomatch hf),
          List.forall_mem_cons.mpr ⟨⟨hright, hk, hspot.frames⟩, hspot.forks⟩⟩
    | panic => exact .here hb hu hd trivial
    | _ => cases hasks

/-- **A step keeps what it has**: what the driver may come to poll it could before, or has entered. -/
theorem keepingStep_stepDriver (hp : p.Keeps g) (hl : Proper l) {doing : Doing Co Fu}
    (h : doing.Within g K) (hleave : ∀ outcome, doing ≠ .leave outcome)
    (hnew : ∀ key, Belongs (l.stepDriver p pollers d doing) (some d.key) key → K key) :
    KeepingStep g K l pollers d (l.stepDriver p pollers d doing) := by
  cases doing with
  | poll => exact keepingStep_poll hb hu hd
  | resume input => exact keepingStep_resume hb hu hd hp input
  | advance a => exact keepingStep_advance hb hu hd hp hl h hnew
  | visit branch forks => exact keepingStep_visit hb hu hd hp h.1 h.2
  | work a spot => exact keepingStep_work hb hu hd hp hl h hnew
  | process ref e spot =>
    cases ref with
    | own number =>
      exact .here hb hu hd ⟨hp.work (g.fu_mono (fun _ hk => hk.elim) (hp.process _ _ e)), h⟩
    | builtin b => exact .here hb hu hd (within_builtinDoing hp b e h)
  | invoke b target a spot =>
    cases hasks : a.asks with
    | true =>
      have he := stepDriver_invoke p l pollers d b target hasks spot
      rw [he]
      refine .spares hb hu hd (l.spares_perform p _ (current_le hb) a) ⟨?_, h.2⟩
      exact within_perform hp (fun _ _ _ _ hi => hi) h.1 _ (entered_of_nest hl hnew he)
    | false =>
      cases a with
      | ret invoked => exact keepingStep_invoked hb hu hd hp hl h.1 h.2 hnew
      | panic => exact .here hb hu hd trivial
      | _ => cases hasks
  | dispatch a spot =>
    cases hasks : a.asks with
    | true =>
      have he := stepDriver_dispatch p l pollers d hasks spot
      rw [he]
      refine .spares hb hu hd (l.spares_perform p _ (current_le hb) a) ⟨?_, h.2⟩
      exact within_perform hp (fun _ _ _ _ _ => trivial) h.1 _ (entered_of_nest hl hnew he)
    | false =>
      cases a with
      | ret v => exact .here hb hu hd h.2
      | panic => exact .here hb hu hd trivial
      | _ => cases hasks
  | await w spot => exact keepingStep_await hb hu hd h.1 h.2
  | answer r spot => exact keepingStep_answer hb hu hd hp r h
  | pause branch forks => exact keepingStep_pause hb hu hd h.1 h.2
  | finish outcome => exact .spares hb hu hd (l.spares_conclude d outcome) trivial
  | leave outcome => exact absurd rfl (hleave outcome)
  | crash => exact .crash

end

/-! ## Whole states -/

section

variable (g : Grasp Co Fu) (l : EventLoop Co Fu)

/-- Each poller polls a driver nested in it, and may come to poll no other; the first one polls a
driver that is nested in none. -/
def Stacked : DriverKey → List (Poller Co Fu) → Prop
  | key, [] => Belongs l none key
  | key, poller :: pollers => Belongs l poller.key? key ∧ ∀ k, poller.key? = some k →
    poller.Within g (Belongs l (some k)) ∧ Stacked k pollers

/-- Whatever a driver may come to poll is nested in it, between polls and during a poll. -/
structure Kept : Prop where
  drivers : ∀ d ∈ l.drivers, d.Within g (Belongs l (some d.key))
  focus : ∀ pollers key doing, l.focus = .active pollers key doing →
    doing.Within g (Belongs l (some key)) ∧ Stacked g l key pollers

end

section

variable {g : Grasp Co Fu} {l l' : EventLoop Co Fu} {pollers : List (Poller Co Fu)} {key : DriverKey}

theorem Stacked.mono (hmono : ∀ owner key, Belongs l owner key → Belongs l' owner key)
    (h : Stacked g l key pollers) : Stacked g l' key pollers := by
  induction pollers generalizing key with
  | nil => exact hmono _ _ h
  | cons poller pollers ih =>
    obtain ⟨hkey, hbelow⟩ := h
    refine ⟨hmono _ _ hkey, fun k hk => ?_⟩
    obtain ⟨hpoller, hrest⟩ := hbelow k hk
    exact ⟨hpoller.mono (hmono _), ih hrest⟩

theorem Stacked.belongs (h : Stacked g l key pollers) :
    Belongs l (pollers.head?.bind Poller.key?) key := by
  cases pollers with
  | nil => exact h
  | cons poller pollers => exact h.1

theorem stacked_floor (h : Belongs l none key) (hp : pollers.filterMap Poller.key? = []) :
    Stacked g l key pollers := by
  cases pollers with
  | nil => exact h
  | cons poller pollers =>
    cases hkey : poller.key? with
    | none =>
      refine ⟨hkey ▸ h, fun k hk => ?_⟩
      rw [hkey] at hk
      cases hk
    | some k =>
      rw [List.filterMap_cons_some hkey] at hp
      cases hp

/-- **What is kept is polled by its owner.** -/
theorem Kept.ownersPoll (h : Kept g l) : OwnersPoll l :=
  fun pollers key hf d hd hk => (h.focus pollers key .poll hf).2.belongs.2 d hd hk

theorem Kept.empty : Kept g ({} : EventLoop Co Fu) where
  drivers := fun _ h => nomatch h
  focus := fun _ _ _ h => nomatch h

end

/-! ## Moves -/

section

variable {p : Program Co Fu} {g : Grasp Co Fu} {l : EventLoop Co Fu} (ho : Orderly l)

include ho in
/-- What the surroundings poll is nested in no other driver. -/
theorem belongs_outside (hs : SummonsRoots l) (hidle : l.focus = .idle) (m : Move Co Fu)
    {pollers : List (Poller Co Fu)} {key : DriverKey} {doing : Doing Co Fu}
    (hf : (l.outside p m).focus = .active pollers key doing) :
    Belongs (l.outside p m) none key := by
  have hnone : l.focus ≠ .active pollers key doing := fun h => nomatch hidle.symm.trans h
  unfold outside at hf ⊢
  split at hf
  · exact absurd hf hnone
  · exact absurd ((perform_focus ..).symm.trans hf) hnone
  · split at hf
    · rename_i hq
      cases hf
      obtain ⟨hle, hroots⟩ := hs key (List.mem_append_left _ (List.mem_append_left _ hq))
      rw [if_pos hq]
      exact ⟨hle, fun d hd hk => (hroots d hd hk).key?_eq_none⟩
    · exact absurd hf hnone
  · split at hf
    · rename_i d hd
      split at hf
      · rename_i howner
        cases hf
        have hmem := mem_of_driver? hd
        have hk := key_of_driver? hd
        rw [if_pos howner]
        refine ⟨hk ▸ (ho.proper d hmem).1, fun d' hd' hk' => ?_⟩
        rw [ho.eq_of_key hd' hmem (hk'.trans hk.symm), howner]
        rfl
      · exact absurd hf hnone
    · exact absurd hf hnone
  · exact absurd hf hnone
  · split at hf
    · exact absurd hf hnone
    · exact absurd hf hnone
  · split at hf
    · exact absurd ((abandon_focus ..).symm.trans hf) hnone
    · exact absurd hf hnone
  · split at hf
    · exact absurd hf hnone
    · exact absurd hf hnone

include ho in
theorem kept_outside (h : Kept g l) (hs : SummonsRoots l) (hidle : l.focus = .idle) {m : Move Co Fu}
    (hm : m.Keeps g) : Kept g (l.outside p m) := by
  have hspares := spares_outside p l m
  have hl' := hspares.proper ho.proper
  refine ⟨fun d hd => ?_, fun pollers key doing hf => ?_⟩
  · rcases hspares.old_or_new d hd with hold | ⟨⟨hnew, _⟩, _⟩
    · exact (h.drivers d hold).mono fun key hk => hk.touches (k := d.key) (.of_spares hspares)
    · by_cases hact : ∃ a, m = .act a
      · obtain ⟨a, rfl⟩ := hact
        have hnobody : ∀ key ∈ (none : Option DriverKey), key.val ≤ l.lastKey := nofun
        exact (free_of_perform ho.proper hm hnobody hd hnew).mono fun key hk => hk.elim
      · have hlast := lastKey_outside p hidle fun a ha => hact ⟨a, ha⟩
        exact absurd hnew (not_new_of_lastKey_eq hl' hlast hd)
  · rcases outside_focus p hidle m with hi | ⟨ps, k, hf', hps⟩
    · rw [hi] at hf
      cases hf
    · have hbelongs := belongs_outside ho hs hidle m hf
      rw [hf'] at hf
      cases hf
      exact ⟨trivial, stacked_floor hbelongs hps⟩

variable (hp : p.Keeps g)
include hp

theorem kept_leave (h : Kept g l) {pollers : List (Poller Co Fu)} {key : DriverKey}
    {doing : Doing Co Fu} (hfocus : l.focus = .active pollers key doing) (outcome : Option Outcome) :
    Kept g (l.leave p key outcome pollers) := by
  have hdrivers : (l.leave p key outcome pollers).drivers = l.drivers :=
    (leave_drivers p key outcome).1
  have hlast : (l.leave p key outcome pollers).lastKey = l.lastKey :=
    (leave_drivers p key outcome).2
  have hspares : Spares l (l.leave p key outcome pollers) := .of_eq hdrivers hlast
  have hmono : ∀ owner k, Belongs l owner k → Belongs (l.leave p key outcome pollers) owner k :=
    fun _ _ hk => hk.touches (k := key) (.of_spares hspares)
  obtain ⟨_, hstacked⟩ := h.focus pollers key doing hfocus
  refine ⟨fun d hd => (h.drivers d (hdrivers ▸ hd)).mono (hmono _), fun ps k doing' hf => ?_⟩
  cases pollers with
  | nil => cases hf
  | cons poller pollers =>
    obtain ⟨hkey, hbelow⟩ := hstacked
    cases poller with
    | hand => cases hf
    | body owner f =>
      obtain ⟨hpoller, hrest⟩ := hbelow owner rfl
      cases hf
      exact ⟨hp.advance (g.co_mono (hmono _) (hpoller outcome)), hrest.mono hmono⟩
    | waiting owner spot =>
      obtain ⟨hpoller, hrest⟩ := hbelow owner rfl
      have hspot : spot.Within g _ := hpoller.mono (hmono _)
      cases outcome with
      | some o =>
        cases hf
        exact ⟨hspot, hrest.mono hmono⟩
      | none =>
        cases hf
        refine ⟨⟨⟨?_, hspot.frames⟩, hspot.forks⟩, hrest.mono hmono⟩
        rintro _ ⟨⟩
        exact hmono _ _ hkey

include ho in
theorem kept_stepDriver (h : Kept g l) {pollers : List (Poller Co Fu)} {d : Driver Co Fu}
    {doing : Doing Co Fu} (hfocus : l.focus = .active pollers d.key doing) (hd : d ∈ l.drivers)
    (hleave : ∀ outcome, doing ≠ .leave outcome) : Kept g (l.stepDriver p pollers d doing) := by
  have hb := (ho.proper d hd).1
  have hu : ∀ x ∈ l.drivers, x.key = d.key → x = d := fun x hx hk => ho.eq_of_key hx hd hk
  have htouches := (driverStep_stepDriver p l pollers d hb hleave).touches p hb
  have hmono : ∀ owner k, Belongs l owner k → Belongs (l.stepDriver p pollers d doing) owner k :=
    fun _ _ hk => hk.touches htouches
  obtain ⟨hdoing, hstacked⟩ := h.focus pollers d.key doing hfocus
  have hown := (h.drivers d hd).mono (hmono _)
  have hstep := keepingStep_stepDriver hb hu hown hp ho.proper (hdoing.mono (hmono _)) hleave
    fun _ hk => hk
  refine ⟨fun d' hd' => ?_, fun ps k doing' hf => ?_⟩
  · by_cases hk : d'.key = d.key
    · rw [hk]
      exact hstep.own hb hu hown d' hd' hk
    · rcases htouches.old_or_new d' hd' with hold | ⟨hk', _⟩ | ⟨⟨hnew, _⟩, _⟩
      · exact (h.drivers d' hold).mono (hmono _)
      · exact absurd hk' hk
      · exact (free_of_stepDriver ho.proper hd hdoing hleave hd' hnew).mono fun key hk => hk.elim
  · have hstacked := hstacked.mono hmono
    generalize l.stepDriver p pollers d doing = l' at hf hstep hstacked
    cases hstep with
    | on _ hdoing' =>
      cases hf
      exact ⟨hdoing', hstacked⟩
    | nested hpoller hwithin hkey =>
      cases hf
      refine ⟨trivial, hpoller ▸ hkey, fun k hk => ?_⟩
      cases hpoller.symm.trans hk
      exact ⟨hwithin, hstacked⟩
    | crash => cases hf

include ho in
/-- **Nested drivers are kept** by every move that hands none on. -/
theorem kept_move (h : Kept g l) (hs : SummonsRoots l) {m : Move Co Fu} (hm : m.Keeps g) :
    Kept g (l.move p m) := by
  have hturn := turn_move p m (l := l)
  generalize l.move p m = l' at hturn ⊢
  cases hturn with
  | outside hidle m => exact kept_outside ho h hs hidle hm
  | refused _ _ => exact h
  | leave hfocus _ outcome => exact kept_leave hp h hfocus outcome
  | driver hfocus hd hleave => exact kept_stepDriver ho hp h hfocus (mem_of_driver? hd) hleave

theorem kept_after {moves : List (Move Co Fu)} (hm : ∀ m ∈ moves, m.Keeps g) :
    Kept g (after p {} moves) ∧ SummonsRoots (after p {} moves) := by
  induction moves using List.reverseRecOn with
  | nil => exact ⟨.empty, .empty⟩
  | append_singleton moves m ih =>
    obtain ⟨hmoves, hlast⟩ := List.forall_mem_append.mp hm
    obtain ⟨hkept, hsummons⟩ := ih hmoves
    have ho := orderly_after p moves
    rw [after_snoc]
    exact ⟨kept_move ho hp hkept hsummons (hlast m (List.mem_singleton.mpr rfl)),
      summonsRoots_move p ho (housed_after p moves) hsummons m⟩

/-- **Nested drivers are polled by their owners**, in every run of a program that keeps its keys. -/
theorem ownersPollIn_of_keeps {moves : List (Move Co Fu)} (hm : ∀ m ∈ moves, m.Keeps g) :
    OwnersPollIn p moves := fun _ hfirst =>
  (kept_after hp fun m hmem => hm m (hfirst.subset hmem)).1.ownersPoll

end

end EventLoop

end EffectLoop
