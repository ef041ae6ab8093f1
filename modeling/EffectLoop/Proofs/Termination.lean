import EffectLoop.Proofs.Discretion

/-!
# To end a task early is advisory

`terminate` removes the entry of an active task, fixes its outcome and touches nothing else
(`EndsEarly`). Whoever drives the task is not told: two runs that differ in such calls, and in what
those do who look at the task, go on alike for everybody else, the driver of the task included
(`Twins`, `termination_is_advisory`).
-/

namespace EffectLoop

variable {Co Fu : Type}

/-- What a run is made of when tasks are ended early at any moment, also while a poll is under way. -/
inductive Moment (Co Fu : Type)
  | move (m : Move Co Fu)
  | cut (spans : List Span) (s : SchedulerId) (id : TaskId)

namespace EventLoop

variable (p : Program Co Fu) {l l' : EventLoop Co Fu}

/-- What a moment makes of the loop. -/
def pass (l : EventLoop Co Fu) : Moment Co Fu → EventLoop Co Fu
  | .move m => l.move p m
  | .cut spans s id => (l.terminate spans s id).1

/-- The state that a run leads to. -/
def reach (run : List (Moment Co Fu)) : EventLoop Co Fu := run.foldl (pass p) {}

@[simp] theorem reach_nil : reach p [] = {} := rfl

@[simp] theorem reach_snoc (run : List (Moment Co Fu)) (x : Moment Co Fu) :
    reach p (run ++ [x]) = (reach p run).pass p x := by
  simp [reach]

/-! ## Runs with tasks ended early -/

theorem orderly_terminate (ho : Orderly l) (spans : List Span) (s : SchedulerId) (id : TaskId) :
    Orderly (l.terminate spans s id).1 := by
  have hbalanced : (l.terminate spans s id).1.books.Balanced := by
    rw [books_terminate]
    exact ho.balanced.attempt nofun
  revert hbalanced
  rw [terminate_eq]
  split
  · exact fun hbalanced => ⟨hbalanced, ho.proper, ho.distinct, ho.bounded, ho.busy⟩
  · exact fun _ => ho

theorem housed_terminate (hh : Housed l) (spans : List Span) (s : SchedulerId) (id : TaskId) :
    Housed (l.terminate spans s id).1 := by
  rw [terminate_eq]
  split
  · exact ⟨hh.root, hh.nested, hh.head, hh.bounded⟩
  · exact hh

theorem orderly_pass (ho : Orderly l) (x : Moment Co Fu) : Orderly (l.pass p x) := by
  cases x with
  | move m => exact orderly_move p ho m
  | cut spans s id => exact orderly_terminate ho spans s id

theorem orderly_reach (run : List (Moment Co Fu)) : Orderly (reach p run) := by
  induction run using List.reverseRecOn with
  | nil => exact .empty
  | append_singleton run x ih =>
    rw [reach_snoc]
    exact orderly_pass p ih x

theorem housed_reach (run : List (Moment Co Fu)) : Housed (reach p run) := by
  induction run using List.reverseRecOn with
  | nil => exact .empty
  | append_singleton run x ih =>
    rw [reach_snoc]
    cases x with
    | move m => exact housed_move p (orderly_reach p run) ih m
    | cut spans s id => exact housed_terminate ih spans s id

/-- An outcome stays in every run. -/
theorem outcome_pass (ho : Orderly l) {t : TaskHandle} {o : Outcome} (h : l.outcome? t = some o)
    (x : Moment Co Fu) : (l.pass p x).outcome? t = some o := by
  have hsound := ho.balanced.sound
  have hnow : (l.books.tasks t.scheduler).outcome? t.id = some o := h
  show ((l.pass p x).books.tasks t.scheduler).outcome? t.id = some o
  cases x with
  | move m =>
    show ((l.move p m).books.tasks _).outcome? _ = _
    rw [books_move]
    exact hsound.outcome_postAll hnow _
  | cut spans s id =>
    show ((l.terminate spans s id).1.books.tasks _).outcome? _ = _
    rw [books_terminate]
    exact hsound.outcome_post hnow _

theorem outcome_reach {run : List (Moment Co Fu)} {t : TaskHandle} {o : Outcome}
    (h : (reach p run).outcome? t = some o) (more : List (Moment Co Fu)) :
    (reach p (run ++ more)).outcome? t = some o := by
  induction more using List.reverseRecOn with
  | nil => rwa [List.append_nil]
  | append_singleton more x ih =>
    rw [← List.append_assoc, reach_snoc]
    exact outcome_pass p (orderly_reach p _) ih x

/-! ## What an early end changes -/

/-- What a call that ends a task early makes of the loop, and what it answers: nothing if the task
is not active, and else the entry of the task is removed, its outcome is fixed and those who wait for
it are woken, and nothing else. -/
structure EndsEarly (l l' : EventLoop Co Fu) (s : SchedulerId) (id : TaskId) (answer : Bool) :
    Prop where
  told : answer = (l.activeTasks s).contains id
  refused : answer = false → l' = l
  removed : answer = true → ∀ s' e, e ∈ (l'.activeTasks s').entries ↔
    e ∈ (l.activeTasks s').entries ∧ ¬ (s' = s ∧ e.id = id)
  settled : answer = true → (l'.activeTasks s).outcome? id = some (.error (.terminated id))
  others : ∀ t, ¬ (t.scheduler = s ∧ t.id = id) → l'.outcome? t = l.outcome? t
  numbers : ∀ s', (l'.activeTasks s').lastId = (l.activeTasks s').lastId
  waits : ∀ w home, (w, home) ∈ l'.waiting ↔ (w, home) ∈ l.waiting ∧
    (answer = true → Wait.isFor s id w = false)
  drivers : l'.drivers = l.drivers
  focus : l'.focus = l.focus
  deferred : l'.deferred = l.deferred
  world : l'.now = l.now ∧ l'.gates = l.gates ∧ l'.board = l.board ∧ l'.sinks = l.sinks

theorem endsEarly_terminate (ho : Orderly l) (spans : List Span) (s : SchedulerId) (id : TaskId) :
    EndsEarly l (l.terminate spans s id).1 s id (l.terminate spans s id).2 := by
  rw [terminate_eq]
  split
  · rename_i hc
    have htasks : ∀ s', ((l.setTasks s
        ((l.activeTasks s).settle id (.error (.terminated id))).1).activeTasks s') =
          if s' = s then ((l.activeTasks s).settle id (.error (.terminated id))).1
          else l.activeTasks s' := by
      intro s'
      rw [activeTasks_setTasks, Function.update_apply]
    have hnone := (ho.balanced.sound s).outcome_eq_none hc
    refine ⟨hc.symm, nofun, fun _ s' e => ?_, fun _ => ?_, fun t ht => ?_, fun s' => ?_,
      fun w home => ?_, rfl, rfl, rfl, rfl, rfl, rfl, rfl⟩
    · show e ∈ ((l.setTasks s _).activeTasks s').entries ↔ _
      rw [htasks]
      split
      · rename_i hs
        subst hs
        simp [ActiveTasks.entries_settle]
      · rename_i hs
        simp [hs]
    · show ((l.setTasks s _).activeTasks s).outcome? id = _
      rw [htasks, if_pos rfl]
      exact ActiveTasks.outcome?_settle_self hc hnone _
    · show (l.setTasks s _).outcome? t = _
      rw [outcome?_setTasks]
      split
      · rename_i hs
        subst hs
        exact ActiveTasks.outcome?_settle_of_ne _ (fun hid => ht ⟨rfl, hid⟩) _
      · rfl
    · show ((l.setTasks s _).activeTasks s').lastId = _
      rw [htasks]
      split
      · rename_i hs
        rw [hs]
        exact ActiveTasks.lastId_settle ..
      · rfl
    · show _ ∈ l.waiting.filter _ ↔ _
      simp
  · rename_i hc
    refine ⟨(Bool.eq_false_iff.mpr hc).symm, fun _ => rfl, nofun, nofun, fun _ _ => rfl,
      fun _ => rfl, ?_, rfl, rfl, rfl, rfl, rfl, rfl, rfl⟩
    simp

/-! ## Two runs -/

/-- Who acts in a moment, and what it does. -/
def deedsIn (l : EventLoop Co Fu) : Moment Co Fu → List (Driver Co Fu × Doing Co Fu)
  | .move m => (l.deed m).toList
  | .cut _ _ _ => []

/-- All that drivers do in a run, in order: with which inputs coroutines are resumed, what they yield,
what is made of their effects and what is dispatched. -/
def deedsFrom (l : EventLoop Co Fu) : List (Moment Co Fu) → List (Driver Co Fu × Doing Co Fu)
  | [] => []
  | x :: run => l.deedsIn x ++ deedsFrom (l.pass p x) run

def deeds (run : List (Moment Co Fu)) : List (Driver Co Fu × Doing Co Fu) := deedsFrom p {} run

/-- What one driver does in a run. -/
def conduct (run : List (Moment Co Fu)) (key : DriverKey) : List (Driver Co Fu × Doing Co Fu) :=
  (deeds p run).filter (·.1.key = key)

theorem deedsFrom_append (l : EventLoop Co Fu) (run more : List (Moment Co Fu)) :
    deedsFrom p l (run ++ more) = deedsFrom p l run ++ deedsFrom p (run.foldl (pass p) l) more := by
  induction run generalizing l with
  | nil => rfl
  | cons x run ih => simp [deedsFrom, ih]

theorem deeds_append (run more : List (Moment Co Fu)) :
    deeds p (run ++ more) = deeds p run ++ deedsFrom p (reach p run) more :=
  deedsFrom_append p {} run more

theorem deeds_snoc (run : List (Moment Co Fu)) (x : Moment Co Fu) :
    deeds p (run ++ [x]) = deeds p run ++ (reach p run).deedsIn x := by
  simp [deeds_append, deedsFrom]

/-- What one of two runs may have that the other has not: a task out of sight is ended early, or
somebody out of sight makes a move that changes nothing in sight. -/
inductive Apart (v : Veil) (l : EventLoop Co Fu) : Moment Co Fu → Prop
  | cut (spans : List Span) {s : SchedulerId} {id : TaskId} (h : v.tasks s id = true) :
      Apart v l (.cut spans s id)
  | move {m : Move Co Fu} (halike : Alike v l (l.move p m))
      (haside : ∀ e ∈ l.deed m, v.shows e.1 = false) : Apart v l (.move m)

/-- Two runs that share what those do who look at nothing out of sight, and differ in the rest. The
veil grows: who is about to look behind it steps behind it. -/
inductive Twins : Veil → List (Moment Co Fu) → List (Moment Co Fu) → Prop
  | start (v : Veil) : Twins v [] []
  | shared {v : Veil} {run run' : List (Moment Co Fu)} {m : Move Co Fu} (h : Twins v run run')
      (hm : Shared v (reach p run) (reach p run') m) :
      Twins v (run ++ [.move m]) (run' ++ [.move m])
  | left {v : Veil} {run run' : List (Moment Co Fu)} {x : Moment Co Fu} (h : Twins v run run')
      (hx : Apart p v (reach p run) x) : Twins v (run ++ [x]) run'
  | right {v : Veil} {run run' : List (Moment Co Fu)} {x : Moment Co Fu} (h : Twins v run run')
      (hx : Apart p v (reach p run') x) : Twins v run (run' ++ [x])
  | veil {v v' : Veil} {run run' : List (Moment Co Fu)} (h : Twins v run run') (hle : v.Le v')
      (hwaits : ∀ w ∈ (reach p run).waiting, v'.homes w.2 = false → v'.InSight w.1) :
      Twins v' run run'

theorem Alike.empty (v : Veil) : Alike v ({} : EventLoop Co Fu) {} :=
  ⟨rfl, fun _ => rfl, fun _ _ => rfl, fun _ _ => rfl, fun _ _ => rfl, fun _ _ => rfl, rfl, rfl, rfl,
    rfl, fun _ h => absurd h List.not_mem_nil, rfl⟩

theorem Apart.alike {v : Veil} {x : Moment Co Fu} (hx : Apart p v l x) (h : Alike v l l') :
    Alike v (l.pass p x) l' := by
  cases hx with
  | cut spans hid => exact h.terminate_hidden spans hid
  | move halike _ => exact halike.symm.trans h

/-- Nobody in sight acts in what one run has for itself. -/
theorem Apart.deedsIn {v : Veil} {x : Moment Co Fu} (hx : Apart p v l x) :
    (l.deedsIn x).filter (fun e => v.shows e.1) = [] := by
  cases hx with
  | cut spans hid => rfl
  | move _ haside =>
    rw [List.filter_eq_nil_iff]
    intro e he
    simp [haside e (Option.mem_toList.mp he)]

/-- **Twin runs are alike in sight**, and whoever is in sight does the same in both. -/
theorem Twins.alike {v : Veil} {run run' : List (Moment Co Fu)} (h : Twins p v run run') :
    Alike v (reach p run) (reach p run') ∧
      (deeds p run).filter (fun e => v.shows e.1) = (deeds p run').filter (fun e => v.shows e.1) := by
  induction h with
  | start v => exact ⟨.empty v, rfl⟩
  | @shared v run run' m _ hm ih =>
    obtain ⟨hmove, hdeed⟩ := alike_move p ih.1 (orderly_reach p run) (orderly_reach p run')
      (housed_reach p run) (housed_reach p run') hm
    rw [reach_snoc, reach_snoc, deeds_snoc, deeds_snoc, List.filter_append, List.filter_append, ih.2]
    refine ⟨hmove, ?_⟩
    simp only [EventLoop.deedsIn, hdeed]
  | left _ hx ih =>
    rw [reach_snoc, deeds_snoc, List.filter_append, hx.deedsIn, List.append_nil]
    exact ⟨hx.alike p ih.1, ih.2⟩
  | right _ hx ih =>
    rw [reach_snoc, deeds_snoc, List.filter_append, hx.deedsIn, List.append_nil]
    exact ⟨(hx.alike p ih.1.symm).symm, ih.2⟩
  | veil _ hle hwaits ih =>
    refine ⟨ih.1.mono hle hwaits, filter_of_imp (fun e he => ?_) ih.2⟩
    simp only [Veil.shows, Bool.not_eq_true'] at he ⊢
    exact Veil.eq_false_of_le (hle.homes _) he

/-! ## Drivers that are gone -/

/-- A driver after a moment was there before, at the same home, or is new. -/
theorem tenant_pass (ho : Orderly l) (x : Moment Co Fu) {d : Driver Co Fu}
    (hd : d ∈ (l.pass p x).drivers) :
    (∃ d₀ ∈ l.drivers, d₀.key = d.key ∧ d₀.home = d.home) ∨ l.lastKey < d.key.val := by
  cases x with
  | move m =>
    rcases tenant_move p ho.proper m hd with ⟨d₀, hd₀, hk, _, hhome, _⟩ | ⟨hnew, _⟩
    · exact .inl ⟨d₀, hd₀, hk, hhome⟩
    · exact .inr hnew
  | cut spans s id =>
    have hd' : d ∈ (l.terminate spans s id).1.drivers := hd
    rw [terminate_drivers] at hd'
    exact .inl ⟨d, hd', rfl, rfl⟩

theorem lastKey_pass_le (ho : Orderly l) (x : Moment Co Fu) : l.lastKey ≤ (l.pass p x).lastKey := by
  cases x with
  | move m =>
    obtain ⟨_, _, htouches⟩ := touches_move p ho.proper m
    exact htouches.lastKey_le
  | cut spans s id => exact (spares_terminate l spans s id).lastKey_le

theorem mem_of_mem_deedsIn {x : Moment Co Fu} {e : Driver Co Fu × Doing Co Fu}
    (he : e ∈ l.deedsIn x) : e.1 ∈ l.drivers := by
  cases x with
  | cut spans s id => cases he
  | move m =>
    have hdeed : l.deed m = some e := Option.mem_toList.mp he
    cases m with
    | step =>
      unfold deed at hdeed
      dsimp only at hdeed
      split at hdeed
      · cases hdeed
      · cases hdeed
      · obtain ⟨d, hd, rfl⟩ := Option.map_eq_some_iff.mp hdeed
        exact mem_of_driver? hd
    | _ => cases hdeed

/-- The key was given out, and its driver is gone. -/
structure Gone (l : EventLoop Co Fu) (key : DriverKey) : Prop where
  given : key.val ≤ l.lastKey
  gone : ∀ d ∈ l.drivers, d.key ≠ key

/-- A driver that is gone does nothing more. -/
theorem Gone.deedsFrom (ho : Orderly l) {key : DriverKey} (h : Gone l key)
    (run : List (Moment Co Fu)) : (deedsFrom p l run).filter (·.1.key = key) = [] := by
  induction run generalizing l with
  | nil => rfl
  | cons x run ih =>
    have hnext : Gone (l.pass p x) key := by
      refine ⟨Nat.le_trans h.given (lastKey_pass_le p ho x), fun d hd hk => ?_⟩
      rcases tenant_pass p ho x hd with ⟨d₀, hd₀, hk₀, _⟩ | hnew
      · exact h.gone d₀ hd₀ (hk₀.trans hk)
      · have := h.given
        rw [hk] at hnew
        omega
    have hnow : (l.deedsIn x).filter (·.1.key = key) = [] := by
      rw [List.filter_eq_nil_iff]
      intro e he hk
      exact h.gone e.1 (mem_of_mem_deedsIn he) (of_decide_eq_true hk)
    simp only [EventLoop.deedsFrom, List.filter_append, hnow, ih (orderly_pass p ho x) hnext,
      List.append_nil]

/-- A driver that is still there lives where it lived when it acted. -/
theorem home_of_mem_deeds {run : List (Moment Co Fu)} {e : Driver Co Fu × Doing Co Fu}
    (he : e ∈ deeds p run) : e.1.key.val ≤ (reach p run).lastKey ∧
      ∀ d ∈ (reach p run).drivers, d.key = e.1.key → d.home = e.1.home := by
  induction run using List.reverseRecOn with
  | nil => cases he
  | append_singleton run x ih =>
    have ho := orderly_reach p run
    have hbefore : e.1.key.val ≤ (reach p run).lastKey ∧
        ∀ d ∈ (reach p run).drivers, d.key = e.1.key → d.home = e.1.home := by
      rw [deeds_snoc] at he
      rcases List.mem_append.mp he with he | he
      · exact ih he
      · have hmem := mem_of_mem_deedsIn he
        refine ⟨(ho.proper e.1 hmem).1, fun d hd hk => ?_⟩
        rw [ho.eq_of_key hd hmem hk]
    obtain ⟨hle, hhome⟩ := hbefore
    rw [reach_snoc]
    refine ⟨Nat.le_trans hle (lastKey_pass_le p ho x), fun d hd hk => ?_⟩
    rcases tenant_pass p ho x hd with ⟨d₀, hd₀, hk₀, hhome₀⟩ | hnew
    · rw [← hhome₀]
      exact hhome d₀ hd₀ (hk₀.trans hk)
    · rw [hk] at hnew
      omega

/-- What a driver in sight has done is the same in both of two twin runs. -/
theorem Twins.conduct_eq {v : Veil} {run run' : List (Moment Co Fu)} (h : Twins p v run run')
    {d : Driver Co Fu} (hd : d ∈ (reach p run).drivers) (hd' : d ∈ (reach p run').drivers)
    (hv : v.shows d = true) : conduct p run d.key = conduct p run' d.key := by
  have hsight : ∀ {run : List (Moment Co Fu)}, d ∈ (reach p run).drivers →
      conduct p run d.key =
        ((deeds p run).filter fun e => v.shows e.1).filter (·.1.key = d.key) := by
    intro run hd
    unfold conduct
    rw [List.filter_filter]
    apply List.filter_congr
    intro e he
    by_cases hk : e.1.key = d.key
    · have hhome := (home_of_mem_deeds p he).2 d hd hk.symm
      rw [Veil.shows, hhome] at hv
      simp [hk, Veil.shows, hv]
    · simp [hk]
  rw [hsight hd, hsight hd', h.alike.2]

/-- A driver that finishes does nothing more, whatever comes after. -/
theorem conduct_of_finish {run : List (Moment Co Fu)} {pollers : List (Poller Co Fu)}
    {d : Driver Co Fu} {outcome : Outcome}
    (hfocus : (reach p run).focus = .active pollers d.key (.finish outcome))
    (hd : (reach p run).driver? d.key = some d) (more : List (Moment Co Fu)) :
    conduct p (run ++ .move .step :: more) d.key = conduct p run d.key ++ [(d, .finish outcome)] := by
  have ho := orderly_reach p run
  have hgone : Gone ((reach p run).pass p (.move .step)) d.key := by
    show Gone ((reach p run).move p .step) d.key
    rw [move_step_of_driver p hfocus hd nofun]
    refine ⟨?_, fun x hx => key_ne_of_mem_conclude hx⟩
    exact Nat.le_trans (ho.proper d (mem_of_driver? hd)).1
      (spares_conclude (reach p run) d outcome).lastKey_le
  have hdeed : (reach p run).deed .step = some (d, .finish outcome) := by
    rw [deed_of_active hfocus nofun, hd]
    rfl
  have hrest := hgone.deedsFrom p (orderly_pass p ho (.move .step)) more
  unfold conduct
  rw [deeds_append, EventLoop.deedsFrom, List.filter_append, List.filter_append, hrest,
    List.append_nil]
  simp [EventLoop.deedsIn, hdeed]

/-! ## Termination is advisory -/

/-- **To end a task early is advisory and framed.** In every state that a run with such calls leads to:
a call answers whether the task was active, and if it was removes its entry, fixes its outcome and
changes nothing else; the entry never comes back and the outcome stays. And in two runs that differ
in such calls at any moments, and in what those do who look at the task or are led by those who do,
every driver that looks at nothing of it goes on alike, the driver of the task included: it is resumed
with the same inputs, yields the same, has its effects processed in the same order and dispatches the
same events, up to its end when the poller that hears of it looks at the outcome. -/
theorem termination_is_advisory :
    (∀ run spans s id, EndsEarly (reach p run) ((reach p run).terminate spans s id).1 s id
      ((reach p run).terminate spans s id).2) ∧
    (∀ run spans s id, ((reach p run).terminate spans s id).2 = true → ∀ more,
      ((reach p (run ++ .cut spans s id :: more)).activeTasks s).contains id = false ∧
      ((reach p (run ++ .cut spans s id :: more)).activeTasks s).outcome? id =
        some (.error (.terminated id))) ∧
    ∀ v run run', Twins p v run run' →
      ((deeds p run).filter (fun e => v.shows e.1) = (deeds p run').filter fun e => v.shows e.1) ∧
      (∀ d ∈ (reach p run).drivers, v.shows d = true →
        d ∈ (reach p run').drivers ∧ conduct p run d.key = conduct p run' d.key) ∧
      ∀ pollers d outcome, v.shows d = true → v.homes (root pollers d.key) = false →
        (reach p run).focus = .active pollers d.key (.finish outcome) →
        (reach p run).driver? d.key = some d → ∀ more more',
          conduct p (run ++ .move .step :: more) d.key =
            conduct p (run' ++ .move .step :: more') d.key := by
  refine ⟨fun run spans s id => endsEarly_terminate (orderly_reach p run) spans s id, ?_, ?_⟩
  · intro run spans s id hanswer more
    have hends := endsEarly_terminate (orderly_reach p run) spans s id
    have hsettled : (reach p (run ++ [.cut spans s id])).outcome? ⟨s, id, ""⟩ =
        some (.error (.terminated id)) := by
      rw [reach_snoc]
      exact hends.settled hanswer
    have hstays := outcome_reach p hsettled more
    rw [List.append_assoc, List.singleton_append] at hstays
    exact ⟨((orderly_reach p _).balanced.sound s).not_contains_of_outcome hstays, hstays⟩
  · intro v run run' h
    have halike := h.alike p
    have hthere : ∀ d ∈ (reach p run).drivers, v.shows d = true → d ∈ (reach p run').drivers := by
      intro d hd hv
      have hmem : d ∈ (reach p run).drivers.filter v.shows := List.mem_filter.mpr ⟨hd, hv⟩
      rw [halike.1.drivers] at hmem
      exact (List.mem_filter.mp hmem).1
    refine ⟨halike.2, fun d hd hv => ⟨hthere d hd hv, ?_⟩, ?_⟩
    · exact h.conduct_eq p hd (hthere d hd hv) hv
    · intro pollers d outcome hv hroot hfocus hd more more'
      have hmem := mem_of_driver? hd
      have hmem' := hthere d hmem hv
      obtain ⟨doing', hfocus', hheard⟩ := halike.1.focus_eq hfocus hroot
      cases Doing.eq_of_heard hheard nofun
      rw [conduct_of_finish p hfocus hd,
        conduct_of_finish p hfocus' (driver?_of_mem (orderly_reach p run') hmem'),
        h.conduct_eq p hmem hmem' hv]

/-- A coroutine that counts its resumes: the first is answered by passing on, the second ends it. -/
def passesOnce : Program Nat Unit where
  scheduler := fun _ => { sink := ⟨"sink"⟩ }
  resume := fun co _ => co + 1
  advance := fun co =>
    if co = 1 then .ret (.yield (.pass (.value .null)) co) else .ret (.done (.ok .null) co)
  work := fun _ => .ret (.done (.ok (.value .null)))
  invoke := fun _ _ => .ret (.coroutine 0)
  process := fun _ _ _ => ()
  dispatch := fun _ _ => .ret .null

/-- It is started, and then driven until it is about to finish, with or without an early end first. -/
def toFinish (first : List (Moment Nat Unit)) : List (Moment Nat Unit) :=
  .move (.act (.start ⟨0⟩ "counting" 0 fun _ => .ret ())) :: first ++
    [.move (.poll ⟨1⟩), .move .step, .move .step, .move .step, .move .step, .move .step]

theorem twins_toFinish : Twins passesOnce { tasks := fun s id => s == ⟨0⟩ && id == ⟨1⟩ } (toFinish [])
    (toFinish [.cut [] ⟨0⟩ ⟨1⟩]) := by
  have hstart : Twins passesOnce { tasks := fun s id => s == ⟨0⟩ && id == ⟨1⟩ } _ _ :=
    .shared (.start _) (.outside rfl rfl (m := .act (.start ⟨0⟩ "counting" 0 fun _ => .ret ()))
      ⟨rfl, rfl⟩)
  have hcut := hstart.right (x := .cut [] ⟨0⟩ ⟨1⟩) (.cut [] rfl)
  have hpoll := hcut.shared (.outside rfl rfl (m := .poll ⟨1⟩) rfl)
  have hresume := hpoll.shared (.step rfl rfl (fun _ _ => rfl) (fun _ _ => rfl) fun _ _ => trivial)
  have hyield := hresume.shared (.step rfl rfl (fun _ _ => rfl) (fun _ _ => rfl) fun _ _ => trivial)
  have hpass := hyield.shared (.step rfl rfl (fun _ _ => rfl) (fun _ _ => rfl) fun _ _ => trivial)
  have hagain := hpass.shared (.step rfl rfl (fun _ _ => rfl) (fun _ _ => rfl) fun _ _ => trivial)
  exact hagain.shared (.step rfl rfl (fun _ _ => rfl) (fun _ _ => rfl) fun _ _ => trivial)

/-- Ended early before its first resume, the coroutine goes on as it would, up to its end. -/
theorem passesOnce_advisory : ∃ d : Driver Nat Unit,
    (reach passesOnce (toFinish [])).driver? d.key = some d ∧
    (reach passesOnce (toFinish [])).focus = .active [] d.key (.finish (.ok .null)) ∧
    ((reach passesOnce (toFinish [])).terminate [] ⟨0⟩ ⟨1⟩).2 = true ∧
    ((reach passesOnce (toFinish [] ++ [.cut [] ⟨0⟩ ⟨1⟩])).activeTasks ⟨0⟩).contains ⟨1⟩ = false ∧
    conduct passesOnce (toFinish [] ++ [.move .step]) d.key =
      conduct passesOnce (toFinish [.cut [] ⟨0⟩ ⟨1⟩] ++ [.move .step]) d.key ∧
    (conduct passesOnce (toFinish []) d.key).length = 5 := by
  have hkey : ((reach passesOnce (toFinish [])).driver? ⟨1⟩).map Driver.key = some ⟨1⟩ := rfl
  obtain ⟨d, hd, hk⟩ := Option.map_eq_some_iff.mp hkey
  rw [← hk] at hd
  have hfocus : (reach passesOnce (toFinish [])).focus =
      .active [] d.key (.finish (.ok .null)) := by
    rw [hk]
    rfl
  obtain ⟨_, hnever, htwins⟩ := termination_is_advisory passesOnce
  have hlast := (htwins _ _ _ twins_toFinish).2.2 [] d (.ok .null) rfl rfl hfocus hd
  refine ⟨d, hd, hfocus, rfl, (hnever (toFinish []) [] ⟨0⟩ ⟨1⟩ rfl []).1, hlast [] [], ?_⟩
  rw [hk]
  rfl

end EventLoop

end EffectLoop
