import EffectLoop.Proofs.Answers
import EffectLoop.Proofs.FanOut
import EffectLoop.Proofs.Kin
import EffectLoop.Proofs.Uniform

/-!
# A call is a fork that is joined

One run has a coroutine that calls a target; another one, or another part of the same, has a coroutine that
forks the target, and somebody who joins the handle. The two go different ways through the loop: the called
target is worked on by its caller, or by a driver that the caller polls itself, and the forked one by a
driver with a home of its own. The reference `Comes` knows nothing of that, and one thing may come of a
uniform target. So both are answered alike (`Agreement`, `calls_agree_with_forks`).
-/

namespace EffectLoop

variable {Co Fu : Type}

namespace EventLoop

section

variable (p : Program Co Fu) {pollers : List (Poller Co Fu)} {d : Driver Co Fu} {key : DriverKey}
  {moves : List (Move Co Fu)} {past rest : List (TaskEvent Co)} {target : Target} {args : List Json}
  {r : Resume}

/-- The next step begins to invoke a target for the effect of the coroutine of the driver `key`. -/
inductive Invokes (l : EventLoop Co Fu) (key : DriverKey) (target : Target) (args : List Json) : Prop
  | intro {pollers : List (Poller Co Fu)} {d : Driver Co Fu} {b : Builtin} {e : Effect}
      (hfocus : l.focus = .active pollers key (.process (.builtin b) e {}))
      (hd : l.driver? key = some d) (hjob : d.job ≠ .plain)
      (he : b = .call ∧ e = .call target args ∨ b = .fork ∧ e = .fork target args)
      (hnext : (l.move p .step).focus = .active pollers key (.invoke b target (p.invoke target args) {}))

/-- While the effect is processed that is `given` to its processor after `past`, this target is invoked for
it with these arguments, once, and no other. -/
def InvokesOnce (moves : List (Move Co Fu)) (key : DriverKey) (past : List (TaskEvent Co))
    (given : TaskEvent Co) (target : Target) (args : List Json) : Prop :=
  ∃ first, first ++ [.step] <+: moves ∧ history p first key = past ∧
    Invokes p (after p {} first) key target args ∧
    ∀ first' target' args', first' ++ [.step] <+: moves → past <+: history p first' key →
      history p first' key <+: past ++ [given] → Invokes p (after p {} first') key target' args' →
      first' = first ∧ target' = target ∧ args' = args

/-- The step in which a call or a fork is given to its processor begins to invoke the target. -/
theorem invokes_of_given {l : EventLoop Co Fu} {b : Builtin} {e : Effect} {doing : Doing Co Fu}
    (hfocus : l.focus = .active pollers d.key doing) (hd : l.driver? d.key = some d)
    (hgiven : doing.event? d = some (.given (.builtin b) e))
    (he : b = .call ∧ e = .call target args ∨ b = .fork ∧ e = .fork target args) :
    Invokes p l d.key target args := by
  cases process_of_given hgiven
  refine .intro hfocus hd (fun hplain => ?_) he ?_
  · simp [Doing.event?, hplain] at hgiven
  · rw [move_step_of_driver p hfocus hd (by simp)]
    rcases he with ⟨rfl, rfl⟩ | ⟨rfl, rfl⟩ <;> rfl

/-- A step begins to invoke one target. -/
theorem invokes_unique {l : EventLoop Co Fu} {target' : Target} {args' : List Json}
    (h : Invokes p l key target args) (h' : Invokes p l key target' args') :
    target = target' ∧ args = args' := by
  obtain ⟨hfocus, _, _, he, _⟩ := h
  obtain ⟨hfocus', _, _, he', _⟩ := h'
  cases hfocus.symm.trans hfocus'
  rcases he with ⟨rfl, rfl⟩ | ⟨rfl, rfl⟩ <;> rcases he' with ⟨hb, he'⟩ | ⟨hb, he'⟩
  · cases he'
    exact ⟨rfl, rfl⟩
  · cases hb
  · cases hb
  · cases he'
    exact ⟨rfl, rfl⟩

/-- A target is invoked when the effect is given to its processor. -/
theorem Invokes.history (h : Invokes p (after p {} moves) key target args) :
    ∃ b e, (b = .call ∧ e = .call target args ∨ b = .fork ∧ e = .fork target args) ∧
      EventLoop.history p (moves ++ [.step]) key =
        EventLoop.history p moves key ++ [.given (.builtin b) e] := by
  obtain @⟨pollers, d, b, e, hfocus, hd, hjob, he, _⟩ := h
  cases key_of_driver? hd
  refine ⟨b, e, he, ?_⟩
  rw [history_step p hfocus hd]
  cases hj : d.job with
  | plain => exact absurd hj hjob
  | coroutine co passes kind => simp [Doing.event?, hj]

/-- What comes next in a history comes in one place of the run. -/
theorem eq_of_history_snoc {total first first' : List (Move Co Fu)} {m m' : Move Co Fu}
    {e e' : TaskEvent Co} (hle : first ++ [m] <+: total) (hle' : first' ++ [m'] <+: total)
    (hpast : history p first key = past) (hpast' : history p first' key = past)
    (h : history p (first ++ [m]) key = past ++ [e])
    (h' : history p (first' ++ [m']) key = past ++ [e']) : first = first' :=
  eq_of_neither_before hle hle' (fun hbefore => history_ne_of_event p hbefore h hpast')
    fun hbefore => history_ne_of_event p hbefore h' hpast

/-- While an effect is processed no other is given to a processor. -/
theorem not_given_twice {ref ref' : ProcessorRef} {e e' : Effect} :
    history p moves key ≠ past ++ [.given ref e] ++ [.given ref' e'] := by
  intro h
  obtain ⟨s, co, told, ph, hentered, hp, _⟩ := exists_stands p h rfl
  cases past with
  | nil => cases hentered
  | cons first past =>
    cases hentered
    obtain ⟨ph', hp', hnext⟩ := hp.last
    obtain ⟨co', rfl⟩ := hp'.processing_of_given
    cases hnext

/-- **A call and a fork invoke their target once.** -/
theorem invokesOnce_of_given {b : Builtin} {e : Effect}
    (he : b = .call ∧ e = .call target args ∨ b = .fork ∧ e = .fork target args)
    (h : history p moves key = past ++ .given (.builtin b) e :: rest) :
    InvokesOnce p moves key past (.given (.builtin b) e) target args := by
  obtain ⟨first, pollers, d, doing, hle, hpast, rfl, hfocus, hd, hgiven⟩ := exists_step_of_event p h rfl
  have hinvokes := invokes_of_given p hfocus hd hgiven he
  have hsnoc : history p (first ++ [.step]) d.key = past ++ [.given (.builtin b) e] := by
    rw [history_step p hfocus hd, hpast, hgiven]
    rfl
  refine ⟨first, hle, hpast, hinvokes, fun first' target' args' hle' hfrom hto hinvokes' => ?_⟩
  obtain ⟨b', e', _, hnext⟩ := hinvokes'.history
  rcases List.prefix_concat_iff.mp hto with hgiven' | hpast'
  · rw [hgiven'] at hnext
    exact absurd hnext (not_given_twice p)
  · have hpast' := hfrom.eq_of_length_le hpast'.length_le
    rw [← hpast'] at hnext
    cases eq_of_history_snoc p hle hle' hpast hpast'.symm hsnoc hnext
    exact ⟨rfl, invokes_unique p hinvokes' hinvokes⟩

/-! ## A call that is over -/

/-- The target that the coroutine of the driver `key` has called has come to its end, with this answer: the
driver has worked on it itself, or is left by the driver that was entered for it. -/
inductive CallOver (l : EventLoop Co Fu) (pollers : List (Poller Co Fu)) (key : DriverKey) : Resume → Prop
  | computed {r : Resume} (h : l.focus = .active pollers key (.work (.ret (.done r)) ⟨[.call], []⟩)) :
      CallOver l pollers key r.wired
  | driven {n : DriverKey} {o : Outcome}
      (h : l.focus = .active (.waiting key ⟨[.call], []⟩ :: pollers) n (.leave (some o))) :
      CallOver l pollers key (o.map .value)

/-- The next step takes the answer to the caller, and nothing happens to its coroutine. -/
theorem CallOver.step (h : CallOver (after p {} moves) pollers d.key r)
    (hd : (after p {} moves).driver? d.key = some d) :
    history p (moves ++ [.step]) d.key = history p moves d.key ∧
      ∃ r₀ : Resume, r₀.wired = r ∧
        Acts (after p {} (moves ++ [.step])) pollers d (.answer r₀ ⟨[.call], []⟩) := by
  rw [after_snoc]
  cases h with
  | @computed r hfocus =>
    refine ⟨?_, r, rfl, ?_⟩
    · rw [history_step p hfocus hd]
      cases hj : d.job <;> simp [Doing.event?, hj]
    · rw [move_step_of_driver p hfocus hd (by simp)]
      exact ⟨rfl, hd⟩
  | @driven n o hfocus =>
    refine ⟨?_, o.map .value, Resume.wired_map_value o, ?_⟩
    · have hproper := (orderly_after p (moves ++ [.step])).proper
      rw [after_snoc] at hproper
      have hkey : ((after p {} moves).move p .step).lastKey = (after p {} moves).lastKey := by
        rw [move_step_of_leave p hfocus]
        rfl
      rw [history_snoc, happenings, acting_of_gone hfocus (.inl ⟨_, rfl⟩),
        newcomers_eq_nil hproper hkey]
      exact List.append_nil _
    · rw [move_step_of_leave p hfocus]
      exact ⟨rfl, hd⟩

/-- **A caller is resumed as soon as the called target is over**, within the same poll. -/
theorem resumed_of_callOver {hist : List (TaskEvent Co)} {ref : ProcessorRef} {e : Effect}
    (h : history p moves d.key = hist ++ [.given ref e])
    (hover : CallOver (after p {} moves) pollers d.key r)
    (hd : (after p {} moves).driver? d.key = some d) :
    ∃ co, history p (moves ++ [.step] ++ [.step] ++ [.step] ++ [.step]) d.key =
      history p moves d.key ++ [.resolved r, .resumed co r] := by
  obtain ⟨_, _, _, ph, _, _, hstands⟩ := exists_stands p h rfl
  obtain ⟨co, passes, kind, hjob⟩ := exists_job_of_stands (hstands d (mem_of_driver? hd) rfl)
  obtain ⟨h₁, r₀, rfl, hcall⟩ := hover.step p hd
  have hanswer : Acts (after p {} (moves ++ [.step] ++ [.step])) pollers d (.answer r₀.wired {}) := by
    rw [after_snoc, move_step_of_driver p hcall.focus hcall.driver nofun]
    exact ⟨rfl, hcall.driver⟩
  have hresume := acts_answer p hjob hanswer
  rw [← after_snoc] at hresume
  have h₂ := history_step p hcall.focus hcall.driver
  have h₃ := history_step p hanswer.focus hanswer.driver
  have h₄ := history_step p hresume.focus hresume.driver
  refine ⟨co, ?_⟩
  rw [h₄, h₃, h₂, h₁]
  simp [Doing.event?, hjob]

/-- After the answer of an effect the coroutine is resumed with it. -/
theorem resumed_of_resolved (h : history p moves key = past ++ .resolved r :: rest) :
    rest = [] ∨ ∃ co more, rest = .resumed co r :: more := by
  cases rest with
  | nil => exact .inl rfl
  | cons e rest =>
    rcases told_after p moves key with ⟨hnil, _⟩ | ⟨s, co, told, ph, htold, _, hp, _⟩
    · rw [hnil] at h
      exact absurd h.symm (by simp)
    · rw [htold] at h
      cases past with
      | nil => cases h
      | cons first past =>
        obtain ⟨_, rfl⟩ := List.cons.inj h
        have hmore : Protocol (p.scheduler s) co (past ++ [.resolved r] ++ [e] ++ rest) ph := by
          simpa using hp
        obtain ⟨ph', hp'⟩ := hmore.front
        obtain ⟨ph'', hp'', hnext⟩ := hp'.last
        obtain ⟨co', rfl⟩ := hp''.owed_of_resolved
        cases hnext
        exact .inr ⟨co', rest, rfl⟩

/-! ## A call and a fork that is joined -/

/-- What can be relied on about a coroutine that calls a target, in one run, and a coroutine that forks it
and gets the handle `t`, in another. -/
structure Agreement (target : Target) (args : List Json) (moves : List (Move Co Fu)) (caller : DriverKey)
    (past : List (TaskEvent Co)) (moves' : List (Move Co Fu)) (forker : DriverKey)
    (past' : List (TaskEvent Co)) (t : TaskHandle) : Prop where
  /-- Where the call and a join of the handle are answered, they are answered with one outcome, and the
  coroutines are resumed with it next. -/
  same : ∀ r rest joiner t' hist r' rest',
    history p moves caller = past ++ .given (.builtin .call) (.call target args) :: .resolved r :: rest →
    (t' == t) = true →
    history p moves' joiner = hist ++ .given (.builtin .join) (.join t') :: .resolved r' :: rest' →
    ∃ o : Outcome, r = o.map .value ∧ r' = o.map .value ∧
      (rest = [] ∨ ∃ co more, rest = .resumed co r :: more) ∧
      (rest' = [] ∨ ∃ co more, rest' = .resumed co r' :: more)
  /-- The target is invoked once for the call, and once for the fork, -/
  calledOnce : InvokesOnce p moves caller past (.given (.builtin .call) (.call target args)) target args
  forkedOnce : InvokesOnce p moves' forker past' (.given (.builtin .fork) (.fork target args)) target args
  /-- and nothing is invoked for a join. -/
  joinedFree : ∀ joiner t' hist first target' args', first ++ [.step] <+: moves' →
    hist ++ [.given (.builtin .join) (.join t')] <+: history p moves' joiner →
    hist <+: history p first joiner →
    history p first joiner <+: hist ++ [.given (.builtin .join) (.join t')] →
    ¬ Invokes p (after p {} first) joiner target' args'
  /-- The caller is resumed as soon as the target is over, -/
  prompt : ∀ pollers d r, history p moves caller = past ++ [.given (.builtin .call) (.call target args)] →
    CallOver (after p {} moves) pollers caller r → (after p {} moves).driver? caller = some d →
    ∃ co, history p (moves ++ [.step] ++ [.step] ++ [.step] ++ [.step]) caller =
      history p moves caller ++ [.resolved r, .resumed co r]
  /-- and a joiner when it is polled after that, -/
  answered : ∀ pollers d t' hist branch o, (t' == t) = true → (after p {} moves').outcome? t = some o →
    history p moves' d.key = hist ++ [.given (.builtin .join) (.join t')] →
    Acts (after p {} moves') pollers d .poll → d.activity = .pending branch →
    ∃ co, history p (moves' ++ [.step] ++ [.step] ++ [.step] ++ [.step]) d.key =
      history p moves' d.key ++ [.resolved (o.map .value), .resumed co (o.map .value)]
  /-- which is not forgotten: a joiner that nobody is about to poll joins a target that is not over. -/
  unforgotten : OwnersPollIn p moves' → (after p {} moves').focus = .idle → ∀ d t' hist, (t' == t) = true →
    Attended (HeardIn p moves') (after p {} moves') d → d.home ∉ (after p {} moves').queue →
    history p moves' d.key = hist ++ [.given (.builtin .join) (.join t')] →
    (after p {} moves').outcome? t = none

/-- Nothing is invoked for a join. -/
theorem not_invokes_of_joining {t : TaskHandle} {joiner : DriverKey} {first : List (Move Co Fu)}
    (hle : first ++ [.step] <+: moves)
    (h : past ++ [.given (.builtin .join) (.join t)] <+: history p moves joiner)
    (hfrom : past <+: history p first joiner)
    (hto : history p first joiner <+: past ++ [.given (.builtin .join) (.join t)]) :
    ¬ Invokes p (after p {} first) joiner target args := by
  intro hinvokes
  obtain ⟨b, e, he, hnext⟩ := hinvokes.history
  rcases List.prefix_concat_iff.mp hto with hjoining | hpast
  · rw [hjoining] at hnext
    exact not_given_twice p hnext
  · -- the step would give the join to its processor, and that is no call and no fork
    have hpast := hfrom.eq_of_length_le hpast.length_le
    rw [← hpast] at hnext
    have hsame := (List.prefix_of_prefix_length_le (hnext ▸ history_prefix p hle joiner) h (by simp)).eq_of_length
      (by simp)
    have hgiven := List.append_cancel_left hsame
    rcases he with ⟨rfl, rfl⟩ | ⟨rfl, rfl⟩ <;> cases hgiven

/-- What may come of a call may come of the work that the target gives. -/
theorem exists_work_of_call {s : SchedulerId} {w : Reading Co Fu}
    (h : Comes p s w (.effect (.builtin .call) (.call target args)) r) :
    ∃ work, (p.invoke target args).Gives p work ∧ Comes p s w (.invoked work) r := by
  cases h with
  | call hg hr => exact ⟨_, hg, hr⟩
  | mismatch hkind => exact absurd rfl hkind

/-- A join is answered with the outcome of the task. -/
theorem outcome_of_joined {t : TaskHandle}
    (h : history p moves key = past ++ .given (.builtin .join) (.join t) :: .resolved r :: rest) :
    ∃ o, (after p {} moves).outcome? t = some o ∧ r = o.map .value := by
  rcases history_joined p moves h with hnil | ⟨o, ho, hrest | ⟨_, _, hrest⟩⟩
  · cases hnil
  · cases hrest
    exact ⟨o, ho, rfl⟩
  · cases hrest
    exact ⟨o, ho, rfl⟩

variable {moves' : List (Move Co Fu)} {caller forker : DriverKey} {past' rest' : List (TaskEvent Co)}
  {s : SchedulerId} {co₀ co₁ : Co} {t : TaskHandle} {T : Target → List Json → Prop}
  {known : TaskHandle → Prop} {co : Pairing → Co → Co → Prop} {fu : Pairing → Fu → Fu → Prop}
  {others : TaskHandle → Option Outcome}

/-- **A call agrees with a fork that is joined.** -/
theorem calls_agree_with_forks (hu : Uniform p T known co fu) (hT : T target args)
    (hsink : SinkAnswers p (p.scheduler s).sink) (hbuiltin : (p.scheduler s).processors = .builtin)
    (hknown : ∀ t, known t → others t ≠ none)
    (hcall : history p moves caller =
      .entered s co₀ :: past ++ .given (.builtin .call) (.call target args) :: rest)
    (hleft : Undisturbed p moves caller
      (.entered s co₀ :: past ++ [.given (.builtin .call) (.call target args)]) others)
    (hfork : history p moves' forker = .entered s co₁ :: past' ++
      .given (.builtin .fork) (.fork target args) :: .resolved (.ok (.task t)) :: rest')
    (hleft' : Undisturbed p moves' forker
      (.entered s co₁ :: past' ++ [.given (.builtin .fork) (.fork target args)]) others) :
    Agreement p target args moves caller (.entered s co₀ :: past) moves' forker
      (.entered s co₁ :: past') t := by
  constructor
  case same =>
    intro r rest joiner t' hist r' rest' hresolved ht hjoin
    -- what may come of the target by itself is the answer of the call,
    obtain ⟨w, hothers, hforked⟩ := exists_reading p moves caller
      (.entered s co₀ :: past ++ [.given (.builtin .call) (.call target args)]) others
    have hanswer : Comes p s w (.effect (.builtin .call) (.call target args)) r :=
      comes_of_resolved p hothers hforked rfl rfl hleft (hresolved.trans (List.append_cons _ _ _))
    obtain ⟨work, hgives, hcomes⟩ := exists_work_of_call p hanswer
    -- and the outcome of the task that was entered for the fork.
    obtain ⟨w', hothers', hforked'⟩ := exists_reading p moves' forker
      (.entered s co₁ :: past' ++ [.given (.builtin .fork) (.fork target args)]) others
    obtain ⟨_, hhandle, work', key', hgives', first, hle, hgiven, henters⟩ :=
      forked_of_resolved p hfork
    cases hhandle
    obtain ⟨o, ho, hr'⟩ := outcome_of_joined p hjoin
    rw [outcome_of_beq ht] at ho
    have hcomes' : Comes p s w' (.invoked work') (o.map .value) :=
      comes_of_settled p hothers' hforked' rfl hleft' (List.prefix_refl _) (.first hle hgiven henters) ho
    have hr : r = o.map .value := by
      refine eq_of_invoked p s hu hsink hbuiltin (fun t ht => ?_) hT hgives hgives' hcomes hcomes'
      rw [hothers, hothers']
      obtain ⟨o, ho⟩ := Option.ne_none_iff_exists'.mp (hknown t ht)
      exact ⟨o, ho, ho⟩
    rw [List.append_cons] at hresolved hjoin
    exact ⟨o, hr, hr', resumed_of_resolved p hresolved, resumed_of_resolved p hjoin⟩
  case calledOnce => exact invokesOnce_of_given p (.inl ⟨rfl, rfl⟩) hcall
  case forkedOnce => exact invokesOnce_of_given p (.inr ⟨rfl, rfl⟩) hfork
  case joinedFree => exact fun joiner t' hist first target' args' hle h hfrom hto =>
      not_invokes_of_joining p hle h hfrom hto
  case prompt =>
    intro pollers d r hgiven hover hd
    cases key_of_driver? hd
    exact resumed_of_callOver p hgiven hover hd
  case answered =>
    intro pollers d t' hist branch o ht ho hjoin hacts hrest
    rw [← outcome_of_beq ht] at ho
    exact joined_when_polled p hjoin ho hacts hrest
  case unforgotten =>
    intro hown hidle d t' hist ht hd hqueue hjoin
    rw [← outcome_of_beq ht]
    exact unsettled_of_joining p hown hidle hd hqueue hjoin

end

/-! ## A target that forks, joins, calls and puts -/

def outer : Target := ⟨"outer", .coroutine, ⟨"outer", []⟩⟩

def inner : Target := ⟨"inner", .function, ⟨"inner", []⟩⟩

def outerTask : TaskHandle := ⟨⟨0⟩, ⟨2⟩, "outer"⟩

def innerTask : TaskHandle := ⟨⟨0⟩, ⟨3⟩, "inner"⟩

/-- A coroutine that has come to this page, with the last handle and the last value it has got. -/
structure Diary where
  page : Nat
  handle : Option TaskHandle := none
  value : Json := .null

/-- The next page, with an answer. -/
def Diary.turn (co : Diary) : Resume → Diary
  | .ok (.task t) => { co with page := co.page + 1, handle := some t }
  | .ok (.value v) => { co with page := co.page + 1, value := v }
  | .error _ => { co with page := co.page + 1 }

/-- What is written on a page. Pages 0 and 10 begin a coroutine that calls the outer target, and one that
forks and joins it. The outer target begins at page 20: it forks the inner one, joins it, calls it and puts
the answer. -/
def Diary.effect? (co : Diary) : Option Effect :=
  match co.page with
  | 1 => some (.call outer [])
  | 11 => some (.fork outer [])
  | 12 | 22 => co.handle.map .join
  | 21 => some (.fork inner [])
  | 23 => some (.call inner [])
  | 24 => some (.put co.value)
  | _ => none

def Diary.next (co : Diary) : Progress Diary :=
  match co.effect? with
  | some e => .yield (.effect e) co
  | none => .done (.ok co.value) co

def nests : Program Diary Unit where
  scheduler := fun _ => { sink := ⟨"sink"⟩ }
  resume := Diary.turn
  advance := fun co => .ret co.next
  work := fun _ => .ret (.done (.ok (.value (.bool true))))
  invoke := fun target _ => .ret (if target.name = "outer" then .coroutine { page := 20 } else .pending ())
  process := fun _ _ _ => ()
  dispatch := fun _ event => .ret (.arr [event])

/-- Diaries at one page that differ in nothing but corresponding handles. -/
structure Diary.Same (R : Pairing) (co co' : Diary) : Prop where
  page : co.page = co'.page
  handle : Option.Rel R co.handle co'.handle
  value : co.value = co'.value

theorem Diary.Same.turn {R : Pairing} {co co' : Diary} {r r' : Resume} (h : co.Same R co')
    (hr : Resume.Same R r r') : (co.turn r).Same R (co'.turn r') := by
  obtain ⟨hpage, hhandle, hvalue⟩ := h
  cases hr with
  | value v => exact ⟨congrArg (· + 1) hpage, hhandle, rfl⟩
  | task ht => exact ⟨congrArg (· + 1) hpage, .some ht, hvalue⟩
  | error e => exact ⟨congrArg (· + 1) hpage, hhandle, hvalue⟩

theorem Diary.Same.effect? {R : Pairing} {co co' : Diary} (h : co.Same R co') :
    Option.Rel (Effect.Same (fun _ _ => True) R) co.effect? co'.effect? := by
  obtain ⟨page, handle, value⟩ := co
  obtain ⟨page', handle', value'⟩ := co'
  obtain ⟨rfl, hhandle, rfl⟩ := h
  have hjoin : Option.Rel (Effect.Same (fun _ _ => True) R) (handle.map .join) (handle'.map .join) := by
    cases hhandle with
    | none => exact .none
    | some ht => exact .some (.join ht)
  dsimp only [Diary.effect?]
  split
  · exact .some (.call trivial)
  · exact .some (.fork trivial)
  · exact hjoin
  · exact hjoin
  · exact .some (.fork trivial)
  · exact .some (.call trivial)
  · exact .some (.put _)
  · exact .none

theorem Diary.Same.next {R : Pairing} {co co' : Diary} (h : co.Same R co') :
    co.next.Same (fun _ _ => True) (Diary.Same R) R co'.next := by
  have he := h.effect?
  unfold Diary.next
  rw [← h.value]
  generalize co.effect? = e, co'.effect? = e' at he
  cases he with
  | none => exact .done _ _ _
  | some he => exact .yielded he h

theorem nests_uniform : Uniform nests (fun _ _ => True) (fun _ => False) Diary.Same fun _ _ _ => True where
  invoked := by
    intro R target _ work work' _ _ h h'
    cases Act.gives_ret.mp h
    cases Act.gives_ret.mp h'
    split
    · exact .coroutine ⟨rfl, .none, rfl⟩
    · exact .pending trivial
  resumed := fun _ _ _ _ _ h hr => h.turn hr
  advanced := by
    intro R co co' x x' hsame h h'
    cases Act.gives_ret.mp h
    cases Act.gives_ret.mp h'
    exact hsame.next
  worked := by
    intro R f f' x x' _ h h'
    cases Act.gives_ret.mp h
    cases Act.gives_ret.mp h'
    exact .done _

theorem nests_sinkAnswers (sink : SinkId) : SinkAnswers nests sink :=
  fun _ _ _ h h' => (Act.gives_ret.mp h).trans (Act.gives_ret.mp h').symm

def begun (page : Nat) : Move Diary Unit :=
  .act (.start ⟨0⟩ "main" { page := page } fun _ => .ret ())

def pollOf (key steps : Nat) : List (Move Diary Unit) := .poll ⟨key⟩ :: List.replicate steps .step

/-- The outer target is called, and driven by a driver that the caller polls. -/
def callsOuter : List (Move Diary Unit) :=
  begun 0 :: (pollOf 1 20 ++ pollOf 3 6 ++ pollOf 1 20 ++ .flush :: pollOf 1 17)

/-- The outer target is forked and joined. -/
def forksOuter : List (Move Diary Unit) :=
  begun 10 :: (pollOf 1 12 ++ pollOf 2 12 ++ pollOf 3 6 ++ pollOf 2 16 ++ .flush :: pollOf 2 9 ++ pollOf 1 7)

/-- A task with an outcome that is waited for is the one or the other. -/
def Waited (l : EventLoop Diary Unit) : Prop :=
  match l.focus with
  | .active _ _ doing => match doing.wait? with
    | some (.task t) => (l.outcome? t).isSome = true →
      t.scheduler = ⟨0⟩ ∧ (t.id = ⟨2⟩ ∧ t.name = "outer" ∨ t.id = ⟨3⟩ ∧ t.name = "inner")
    | _ => True
  | _ => True

instance : DecidablePred Waited := fun l => by
  unfold Waited
  split
  · split <;> infer_instance
  · infer_instance

instance (moves : List (Move Diary Unit)) :
    Decidable (∀ first, first <+: moves → Waited (after nests {} first)) :=
  decidableAlong nests (P := Waited) {} moves

theorem task_of_waited {l : EventLoop Diary Unit} (h : Waited l) {pollers : List (Poller Diary Unit)}
    {key : DriverKey} {doing : Doing Diary Unit} (hfocus : l.focus = .active pollers key doing)
    {t : TaskHandle} (hwait : doing.wait? = some (.task t)) {o : Outcome} (ho : l.outcome? t = some o) :
    t = outerTask ∨ t = innerTask := by
  simp only [Waited, hfocus, hwait, ho, Option.isSome_some, true_implies] at h
  obtain ⟨s, id, name⟩ := t
  obtain ⟨rfl, ⟨rfl, rfl⟩ | ⟨rfl, rfl⟩⟩ := h
  · exact .inl rfl
  · exact .inr rfl

/-- What the run tells of coroutine 1 up to the effect. -/
def toCall : List (TaskEvent Diary) :=
  [.entered ⟨0⟩ { page := 0 }, .resumed { page := 0 } (.ok (.value .null)),
    .yielded (.effect (.call outer [])) { page := 1 }, .given (.builtin .call) (.call outer [])]

def toFork : List (TaskEvent Diary) :=
  [.entered ⟨0⟩ { page := 10 }, .resumed { page := 10 } (.ok (.value .null)),
    .yielded (.effect (.fork outer [])) { page := 11 }, .given (.builtin .fork) (.fork outer [])]

theorem outer_kin_of_call : Kin nests callsOuter ⟨1⟩ toCall ⟨2⟩ outerTask (.coroutine { page := 20 }) :=
  .first (show callsOuter.take 6 ++ [.step] <+: callsOuter from ⟨callsOuter.drop 7, rfl⟩) rfl
    (.of_eq rfl rfl (.inr ⟨_, rfl⟩) rfl rfl)

theorem inner_kin_of_call : Kin nests callsOuter ⟨1⟩ toCall ⟨3⟩ innerTask (.pending ()) :=
  .next outer_kin_of_call (show callsOuter.take 12 ++ [.step] <+: callsOuter from ⟨callsOuter.drop 13, rfl⟩)
    (.of_eq rfl rfl (.inl rfl) rfl rfl)

theorem outer_kin_of_fork : Kin nests forksOuter ⟨1⟩ toFork ⟨2⟩ outerTask (.coroutine { page := 20 }) :=
  .first (show forksOuter.take 6 ++ [.step] <+: forksOuter from ⟨forksOuter.drop 7, rfl⟩) rfl
    (.of_eq rfl rfl (.inl rfl) rfl rfl)

theorem inner_kin_of_fork : Kin nests forksOuter ⟨1⟩ toFork ⟨3⟩ innerTask (.pending ()) :=
  .next outer_kin_of_fork (show forksOuter.take 19 ++ [.step] <+: forksOuter from ⟨forksOuter.drop 20, rfl⟩)
    (.of_eq rfl rfl (.inl rfl) rfl rfl)

/-- Nobody else has a part in what comes of the effect. -/
theorem undisturbed_of_waited {moves : List (Move Diary Unit)} {told : List (TaskEvent Diary)}
    {work work' : Invoked Diary Unit} (hledger : ∀ x ∈ ledger nests {} moves, x.Unforced)
    (houter : Kin nests moves ⟨1⟩ told ⟨2⟩ outerTask work)
    (hinner : Kin nests moves ⟨1⟩ told ⟨3⟩ innerTask work')
    (hwaited : ∀ first, first <+: moves → Waited (after nests {} first)) :
    Undisturbed nests moves ⟨1⟩ told fun _ => none where
  spared := fun _ _ _ _ => spared_of_ledger nests hledger
  own := fun _ _ _ _ => rfl
  foreign := by
    intro first k pollers doing t o hle _ hfocus hwait ho hforeign
    have hfirst := hwaited first ((List.prefix_append _ _).trans hle)
    rcases task_of_waited hfirst hfocus hwait ho with rfl | rfl
    · exact absurd houter (hforeign _ _)
    · exact absurd hinner (hforeign _ _)

/-- Whether it is called or forked and joined, the outer target comes to the same. -/
theorem nests_agrees :
    Agreement nests outer [] callsOuter ⟨1⟩ (toCall.take 3) forksOuter ⟨1⟩ (toFork.take 3) outerTask ∧
    history nests callsOuter ⟨1⟩ = toCall ++ [.resolved (.ok (.value (.arr [.bool true]))),
      .resumed { page := 1 } (.ok (.value (.arr [.bool true]))),
      .returned (.ok (.arr [.bool true])), .ended (.ok (.arr [.bool true]))] ∧
    history nests forksOuter ⟨1⟩ = toFork ++ [.resolved (.ok (.task outerTask)),
      .resumed { page := 11 } (.ok (.task outerTask)),
      .yielded (.effect (.join outerTask)) { page := 12, handle := some outerTask },
      .given (.builtin .join) (.join outerTask), .resolved (.ok (.value (.arr [.bool true]))),
      .resumed { page := 12, handle := some outerTask } (.ok (.value (.arr [.bool true]))),
      .returned (.ok (.arr [.bool true])), .ended (.ok (.arr [.bool true]))] :=
  ⟨calls_agree_with_forks nests nests_uniform trivial (nests_sinkAnswers _) (s := ⟨0⟩) rfl (fun _ h => h.elim) rfl
      (undisturbed_of_waited (by decide +kernel) outer_kin_of_call inner_kin_of_call (by decide +kernel)) rfl
      (undisturbed_of_waited (by decide +kernel) outer_kin_of_fork inner_kin_of_fork (by decide +kernel)),
    rfl, rfl⟩

end EventLoop

end EffectLoop
