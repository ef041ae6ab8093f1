import EffectLoop.Proofs.Postings
import Mathlib.Data.List.Induction

/-!
# Whose turn it is

While a poll is under way the driver in focus works and the drivers below it wait for it, each as a
poller. A driver that is held this way is held once, and it is busy, so nobody else can begin to poll
it: that is what keeps two polls from working on one coroutine (`Orderly`, `orderly_after`).

`place` says of one driver where a poll has left it. A step moves the places of no driver but the one
that works, and the end of a nested poll hands the focus back to its poller (`place_of_nextFocus`).
-/

namespace EffectLoop

variable {Co Fu : Type}

/-- The driver in focus works; otherwise it is about to be polled, or its poll is over. -/
def Doing.works : Doing Co Fu → Bool
  | .poll | .leave _ => false
  | _ => true

theorem Doing.works_of_computes {doing : Doing Co Fu} (h : doing.computes = true) :
    doing.works = true := by
  cases doing with
  | poll => cases h
  | leave outcome => cases h
  | _ => rfl

/-- Where a poll has left a driver. -/
inductive Place (Co Fu : Type)
  | away
  | working (doing : Doing Co Fu)
  /-- Its coroutine polls a nested driver. -/
  | body
  /-- Its computation polls a nested driver. -/
  | waiting

namespace EventLoop

/-- The drivers that a poll under way holds. -/
def held (l : EventLoop Co Fu) : List DriverKey :=
  match l.focus with
  | .idle => []
  | .active pollers key doing =>
    (if doing.works then [key] else []) ++ pollers.filterMap Poller.key?

/-- The place among the pollers. -/
def placeIn (key : DriverKey) : List (Poller Co Fu) → Place Co Fu
  | [] => .away
  | .hand :: pollers => placeIn key pollers
  | .body k _ :: pollers => if k = key then .body else placeIn key pollers
  | .waiting k _ :: pollers => if k = key then .waiting else placeIn key pollers

/-- The place of the driver `key`. -/
def place (l : EventLoop Co Fu) (key : DriverKey) : Place Co Fu :=
  match l.focus with
  | .idle => .away
  | .active pollers k doing => if k = key ∧ doing.works then .working doing else placeIn key pollers

/-- A poll under way holds no driver twice, and those it holds are busy. -/
structure Orderly (l : EventLoop Co Fu) : Prop where
  balanced : l.books.Balanced
  proper : Proper l
  distinct : l.held.Nodup
  bounded : ∀ key ∈ l.held, key.val ≤ l.lastKey
  busy : ∀ d ∈ l.drivers, d.key ∈ l.held →
    d.activity = .busy ∨ ∃ pollers input, l.focus = .active pollers d.key (.resume input)

/-! ## Places -/

theorem held_of_idle {l : EventLoop Co Fu} (h : l.focus = .idle) : l.held = [] := by
  simp only [held, h]

theorem held_of_works {l : EventLoop Co Fu} {pollers : List (Poller Co Fu)} {key : DriverKey}
    {doing : Doing Co Fu} (h : l.focus = .active pollers key doing) (hw : doing.works = true) :
    l.held = key :: pollers.filterMap Poller.key? := by
  simp only [held, h, hw, if_true, List.singleton_append]

theorem held_of_not_works {l : EventLoop Co Fu} {pollers : List (Poller Co Fu)} {key : DriverKey}
    {doing : Doing Co Fu} (h : l.focus = .active pollers key doing) (hw : doing.works = false) :
    l.held = pollers.filterMap Poller.key? := by
  simp only [held, h, hw, Bool.false_eq_true, if_false, List.nil_append]

theorem place_of_idle {l : EventLoop Co Fu} (h : l.focus = .idle) (key : DriverKey) :
    l.place key = .away := by
  simp only [place, h]

theorem place_of_works {l : EventLoop Co Fu} {pollers : List (Poller Co Fu)} {key : DriverKey}
    {doing : Doing Co Fu} (h : l.focus = .active pollers key doing) (hw : doing.works = true) :
    l.place key = .working doing := by
  simp only [place, h, hw, and_self, if_true]

theorem place_of_not_works {l : EventLoop Co Fu} {pollers : List (Poller Co Fu)} {k : DriverKey}
    {doing : Doing Co Fu} (h : l.focus = .active pollers k doing) (hw : doing.works = false)
    (key : DriverKey) : l.place key = placeIn key pollers := by
  simp only [place, h, hw, Bool.false_eq_true, and_false, if_false]

theorem place_of_ne {l : EventLoop Co Fu} {pollers : List (Poller Co Fu)} {k : DriverKey}
    {doing : Doing Co Fu} (h : l.focus = .active pollers k doing) {key : DriverKey}
    (hne : key ≠ k) : l.place key = placeIn key pollers := by
  simp only [place, h, Ne.symm hne, false_and, if_false]

/-- Who is not among the pollers is away. -/
theorem placeIn_of_not_mem {key : DriverKey} {pollers : List (Poller Co Fu)}
    (h : key ∉ pollers.filterMap Poller.key?) : placeIn key pollers = .away := by
  induction pollers with
  | nil => rfl
  | cons poller pollers ih =>
    cases poller with
    | hand => exact ih h
    | body k f =>
      have hk : k ≠ key := fun he => h (he ▸ List.mem_cons_self)
      show (if k = key then _ else _) = _
      rw [if_neg hk]
      exact ih fun hm => h (List.mem_cons_of_mem _ hm)
    | waiting k spot =>
      have hk : k ≠ key := fun he => h (he ▸ List.mem_cons_self)
      show (if k = key then _ else _) = _
      rw [if_neg hk]
      exact ih fun hm => h (List.mem_cons_of_mem _ hm)

/-- A poller of another driver is passed over. -/
theorem placeIn_cons_of_ne {key : DriverKey} {poller : Poller Co Fu}
    (h : poller.key? ≠ some key) (pollers : List (Poller Co Fu)) :
    placeIn key (poller :: pollers) = placeIn key pollers := by
  cases poller with
  | hand => rfl
  | body k f => exact if_neg fun he => h (congrArg some he)
  | waiting k spot => exact if_neg fun he => h (congrArg some he)

theorem place_eq_away {l : EventLoop Co Fu} {key : DriverKey} (h : key ∉ l.held) :
    l.place key = .away := by
  cases hfocus : l.focus with
  | idle => exact place_of_idle hfocus key
  | active pollers k doing =>
    cases hw : doing.works with
    | false =>
      rw [held_of_not_works hfocus hw] at h
      rw [place_of_not_works hfocus hw]
      exact placeIn_of_not_mem h
    | true =>
      rw [held_of_works hfocus hw, List.mem_cons, not_or] at h
      rw [place_of_ne hfocus h.1]
      exact placeIn_of_not_mem h.2

/-! ## Where a step leaves the focus -/

/-- Where a step of the driver `key` leaves the focus: with it, with a driver it polls, or nowhere. -/
inductive NextFocus (pollers : List (Poller Co Fu)) (key : DriverKey) : Focus Co Fu → Prop
  | on (doing : Doing Co Fu) : NextFocus pollers key (.active pollers key doing)
  | nested {poller : Poller Co Fu} (h : poller.key? = some key) (k : DriverKey) :
      NextFocus pollers key (.active (poller :: pollers) k .poll)
  | idle : NextFocus pollers key .idle

section

variable (p : Program Co Fu) {l : EventLoop Co Fu} {pollers : List (Poller Co Fu)}
  {d : Driver Co Fu}

theorem DriverStep.nextFocus {l' : EventLoop Co Fu} (h : DriverStep p l pollers d l') :
    NextFocus pollers d.key l'.focus := by
  cases h with
  | on _ doing => exact .on doing
  | nested hpoller key => exact .nested hpoller key
  | turn _ => exact .on _
  | resume _ _ doing => exact .on doing
  | yield _ co y =>
    unfold stepYield
    cases y with
    | pass o =>
      dsimp only
      split
      · split <;> exact .on _
      · exact .on _
    | effect e =>
      dsimp only
      split <;> exact .on _
  | crash => exact .idle

/-- A step of a driver that works holds nobody new. -/
theorem NextFocus.held_sublist {l' : EventLoop Co Fu} {key : DriverKey}
    (h : NextFocus pollers key l'.focus) :
    l'.held.Sublist (key :: pollers.filterMap Poller.key?) := by
  cases hfocus : l'.focus with
  | idle =>
    rw [held_of_idle hfocus]
    exact List.nil_sublist _
  | active ps k doing =>
    rw [hfocus] at h
    cases h with
    | on doing =>
      cases hw : doing.works with
      | true =>
        rw [held_of_works hfocus hw]
      | false =>
        rw [held_of_not_works hfocus hw]
        exact List.sublist_cons_self ..
    | nested hpoller k =>
      rw [held_of_not_works hfocus rfl, List.filterMap_cons_some hpoller]

/-- A step moves no other driver, unless the poll breaks off. -/
theorem NextFocus.place_eq {l' : EventLoop Co Fu} {k : DriverKey}
    (h : NextFocus pollers k l'.focus) {key : DriverKey} (hne : key ≠ k) :
    l'.place key = placeIn key pollers ∨ l'.focus = .idle := by
  cases hfocus : l'.focus with
  | idle => exact .inr rfl
  | active ps k' doing =>
    rw [hfocus] at h
    cases h with
    | on doing => exact .inl (place_of_ne hfocus hne)
    | nested hpoller k' =>
      refine .inl ?_
      rw [place_of_not_works hfocus rfl]
      refine placeIn_cons_of_ne ?_ pollers
      rw [hpoller]
      exact fun he => hne (Option.some.inj he).symm

/-! ## What a step makes of its own driver -/

/-- The modified driver, where keys are unique. -/
theorem eq_of_mem_modifyDriver (hu : ∀ x ∈ l.drivers, x.key = d.key → x = d)
    {f : Driver Co Fu → Driver Co Fu} {d' : Driver Co Fu}
    (h : d' ∈ (l.modifyDriver d.key f).drivers) (hk : d'.key = d.key) : d' = f d := by
  obtain ⟨x, hx, rfl⟩ := mem_modifyDriver h
  by_cases hxk : x.key = d.key
  · rw [if_pos hxk, hu x hx hxk]
  · rw [if_neg hxk] at hk
    exact absurd hk hxk

theorem Spares.eq_of_key {l' : EventLoop Co Fu} (h : Spares l l')
    (hu : ∀ x ∈ l.drivers, x.key = d.key → x = d) (hd : d.key.val ≤ l.lastKey)
    {d' : Driver Co Fu} (hd' : d' ∈ l'.drivers) (hk : d'.key = d.key) : d' = d := by
  rcases h.old_or_new d' hd' with hd' | ⟨⟨hlt, _⟩, _⟩
  · exact hu d' hd' hk
  · rw [hk] at hlt
    omega

theorem eq_of_mem_resume (hu : ∀ x ∈ l.drivers, x.key = d.key → x = d) (job : Job Co)
    {d' : Driver Co Fu} (hd' : d' ∈
      (((l.setState d.task .running).setActivity d.key .busy).setJob d.key job).drivers)
    (hk : d'.key = d.key) : d' = { d with job, activity := .busy } := by
  have hbusy : ∀ x ∈ ((l.setState d.task .running).setActivity d.key .busy).drivers,
      x.key = d.key → x = { d with activity := .busy } := fun x hx hxk =>
    eq_of_mem_modifyDriver (l := l.setState d.task .running) hu hx hxk
  exact eq_of_mem_modifyDriver (d := { d with activity := .busy }) hbusy hd' hk

/-- A coroutine comes to be driven only when its task is entered. -/
theorem DriverStep.job_plain {l' : EventLoop Co Fu} (h : DriverStep p l pollers d l')
    (hu : ∀ x ∈ l.drivers, x.key = d.key → x = d) (hd : d.key.val ≤ l.lastKey)
    (hjob : d.job = .plain) {d' : Driver Co Fu} (hd' : d' ∈ l'.drivers) (hk : d'.key = d.key) :
    d'.job = .plain := by
  cases h with
  | on hl doing => rw [hl.eq_of_key hu hd hd' hk, hjob]
  | nested _ _ => rw [hu d' hd' hk, hjob]
  | turn _ => exact (congrArg Driver.job (eq_of_mem_modifyDriver hu hd' hk)).trans hjob
  | resume h _ _ =>
    rw [hjob] at h
    cases h
  | yield h _ _ =>
    rw [hjob] at h
    cases h
  | crash => rw [(l.spares_crash _).eq_of_key hu hd hd' hk, hjob]

/-- What the driver keeps of a coroutine that has yielded. -/
def jobAfter (passes : Nat) (kind : EffectKind) (co : Co) : Yielded → Job Co
  | .pass _ => .coroutine co (passes + 1) kind
  | .effect e => .coroutine co 0 e.kind

theorem stepYield_own (hu : ∀ x ∈ l.drivers, x.key = d.key → x = d) (passes : Nat)
    (kind : EffectKind) (co : Co) (y : Yielded) {d' : Driver Co Fu}
    (hd' : d' ∈ (l.stepYield p pollers d passes kind co y).drivers) (hk : d'.key = d.key) :
    d' = { d with job := jobAfter passes kind co y } := by
  cases y with
  | pass o =>
    have hmem : d' ∈ (l.setJob d.key (.coroutine co (passes + 1) kind)).drivers := by
      unfold stepYield at hd'
      dsimp only at hd'
      split at hd'
      · split at hd'
        · exact hd'
        · exact hd'
      · exact hd'
    exact eq_of_mem_modifyDriver hu hmem hk
  | effect e =>
    have hmem : d' ∈ (l.setJob d.key (.coroutine co 0 e.kind)).drivers := by
      unfold stepYield at hd'
      dsimp only at hd'
      split at hd'
      · exact hd'
      · exact hd'
    exact eq_of_mem_modifyDriver hu hmem hk

/-- A step leaves the activity of its driver, or makes it busy, or the driver comes to rest. -/
theorem DriverStep.activity {l' : EventLoop Co Fu} (h : DriverStep p l pollers d l')
    (hu : ∀ x ∈ l.drivers, x.key = d.key → x = d) (hd : d.key.val ≤ l.lastKey)
    {d' : Driver Co Fu} (hd' : d' ∈ l'.drivers) (hk : d'.key = d.key) :
    d'.activity = d.activity ∨ d'.activity = .busy ∨
      l'.focus = .active pollers d.key (.leave none) := by
  cases h with
  | on hl doing => exact .inl (congrArg Driver.activity (hl.eq_of_key hu hd hd' hk))
  | nested _ _ => exact .inl (congrArg Driver.activity (hu d' hd' hk))
  | turn hturn =>
    have he := congrArg Driver.activity (eq_of_mem_modifyDriver hu hd' hk)
    rcases hturn with rfl | rfl
    · exact .inr (.inl he)
    · exact .inr (.inr rfl)
  | resume _ co doing =>
    exact .inr (.inl (congrArg Driver.activity (eq_of_mem_resume hu _ hd' hk)))
  | yield _ co y =>
    refine .inl ?_
    rw [stepYield_own p hu _ _ co y hd' hk]
  | crash => exact .inl (congrArg Driver.activity ((l.spares_crash _).eq_of_key hu hd hd' hk))

/-! ## Order is kept -/

theorem Orderly.nodup_keys (ho : Orderly l) : (l.drivers.map Driver.key).Nodup := by
  have h := ho.balanced.keys
  rwa [show l.books.duties = l.drivers.map Driver.duty from rfl, List.map_map] at h

theorem Orderly.eq_of_key (ho : Orderly l) {x : Driver Co Fu} (hx : x ∈ l.drivers)
    (hd : d ∈ l.drivers) (hk : x.key = d.key) : x = d :=
  List.inj_on_of_nodup_map ho.nodup_keys hx hd hk

theorem driver?_of_mem (ho : Orderly l) (hd : d ∈ l.drivers) : l.driver? d.key = some d := by
  cases h : l.driver? d.key with
  | none => exact absurd (beq_self_eq_true d.key) (List.find?_eq_none.mp h d hd)
  | some x => rw [ho.eq_of_key (mem_of_driver? h) hd (key_of_driver? h)]

theorem Orderly.empty : Orderly ({} : EventLoop Co Fu) where
  balanced := balanced_empty
  proper := proper_empty
  distinct := List.nodup_nil
  bounded := fun _ h => nomatch h
  busy := fun _ h => nomatch h

theorem abandon_focus (l : EventLoop Co Fu) (d : Driver Co Fu) : (l.abandon d).focus = l.focus := by
  have hdischarge : (l.discharge d (.error (.abandoned d.guard.id))).focus = l.focus := by
    show ((l.settle d _).1).focus = l.focus
    rw [settle_fst]
    split <;> rfl
  rcases l.abandon_eq d with h | h
  · rw [h, hdischarge]
  · rw [h]
    exact hdischarge

theorem foldl_abandon_focus (ds : List (Driver Co Fu)) (l : EventLoop Co Fu) :
    (ds.foldl abandon l).focus = l.focus := by
  induction ds generalizing l with
  | nil => rfl
  | cons d ds ih => rw [List.foldl_cons, ih, abandon_focus]

/-- The surroundings leave the loop idle or begin a poll. -/
theorem outside_focus (h : l.focus = .idle) (m : Move Co Fu) :
    (l.outside p m).focus = .idle ∨ ∃ pollers key,
      (l.outside p m).focus = .active pollers key .poll ∧ pollers.filterMap Poller.key? = [] := by
  unfold outside
  split
  · exact .inl h
  · exact .inl ((perform_focus ..).trans h)
  · split
    · exact .inr ⟨_, _, rfl, rfl⟩
    · exact .inl h
  · split
    · split
      · refine .inr ⟨_, _, rfl, ?_⟩
        split <;> rfl
      · exact .inl h
    · exact .inl h
  · exact .inl h
  · split
    · exact .inl h
    · exact .inl h
  · split
    · exact .inl ((abandon_focus ..).trans h)
    · exact .inl h
  · split
    · exact .inl h
    · exact .inl h

theorem orderly_outside (ho : Orderly l) (h : l.focus = .idle) (m : Move Co Fu) :
    Orderly (l.outside p m) := by
  have hheld : (l.outside p m).held = [] := by
    rcases outside_focus p h m with hf | ⟨ps, key, hf, hps⟩
    · exact held_of_idle hf
    · rw [held_of_not_works hf rfl, hps]
  refine ⟨?_, (spares_outside ..).proper ho.proper, ?_, ?_, ?_⟩
  · rw [← move_of_idle p h]
    exact balanced_move p ho.balanced m
  · rw [hheld]
    exact List.nodup_nil
  · rw [hheld]
    exact fun _ hk => nomatch hk
  · rw [hheld]
    exact fun _ _ hk => nomatch hk

/-- The focus goes back to a poller, which was held already. -/
theorem held_leave_sublist (key : DriverKey) (outcome : Option Outcome) :
    (l.leave p key outcome pollers).held.Sublist (pollers.filterMap Poller.key?) := by
  cases pollers with
  | nil => exact List.nil_sublist _
  | cons poller pollers =>
    cases poller with
    | hand => exact List.nil_sublist _
    | body owner k => exact List.Sublist.refl _
    | waiting owner spot => cases outcome <;> exact List.Sublist.refl _

theorem leave_drivers (key : DriverKey) (outcome : Option Outcome) :
    (l.leave p key outcome pollers).drivers = l.drivers ∧
      (l.leave p key outcome pollers).lastKey = l.lastKey := by
  unfold leave
  split
  case h_4 => split <;> exact ⟨rfl, rfl⟩
  all_goals exact ⟨rfl, rfl⟩

theorem orderly_leave (ho : Orderly l) {key : DriverKey} {doing : Doing Co Fu}
    (hfocus : l.focus = .active pollers key doing)
    (hgone : doing.works = true → ∀ d ∈ l.drivers, d.key ≠ key) (outcome : Option Outcome) :
    Orderly (l.leave p key outcome pollers) := by
  have hdrivers : (l.leave p key outcome pollers).drivers = l.drivers :=
    (leave_drivers p key outcome).1
  have hlast : (l.leave p key outcome pollers).lastKey = l.lastKey :=
    (leave_drivers p key outcome).2
  have hsub : (l.leave p key outcome pollers).held.Sublist (pollers.filterMap Poller.key?) :=
    held_leave_sublist p key outcome
  have hheld : (pollers.filterMap Poller.key?).Sublist l.held := by
    cases hw : doing.works with
    | true =>
      rw [held_of_works hfocus hw]
      exact List.sublist_cons_self ..
    | false => rw [held_of_not_works hfocus hw]
  refine ⟨?_, (spares_leave ..).proper ho.proper, ho.distinct.sublist (hsub.trans hheld), ?_, ?_⟩
  · rw [books_leave]
    exact ho.balanced
  · rw [hlast]
    exact fun k hk => ho.bounded k ((hsub.trans hheld).subset hk)
  · intro d hd hk
    rw [hdrivers] at hd
    rcases ho.busy d hd ((hsub.trans hheld).subset hk) with hb | ⟨ps, input, hf⟩
    · exact .inl hb
    · rw [hfocus] at hf
      cases hf
      exact absurd rfl (hgone rfl d hd)

/-- A driver that is polled while a poller has it is busy, and the poll is over. -/
theorem poll_of_held (ho : Orderly l) (hfocus : l.focus = .active pollers d.key .poll)
    (hd : d ∈ l.drivers) (hk : d.key ∈ pollers.filterMap Poller.key?) :
    d.activity = .busy ∧
      l.stepDriver p pollers d .poll = l.focusOn pollers d.key (.leave none) := by
  have hb : d.activity = .busy := by
    rcases ho.busy d hd (by rwa [held_of_not_works hfocus rfl]) with hb | ⟨ps, input, hf⟩
    · exact hb
    · rw [hfocus] at hf
      cases hf
  refine ⟨hb, ?_⟩
  unfold stepDriver
  rw [hb]

/-- After a step of `d` that it can make only while no poller has it, `d` is held once. -/
theorem held_stepDriver (ho : Orderly l) {doing : Doing Co Fu}
    (hfocus : l.focus = .active pollers d.key doing) (hd : d ∈ l.drivers)
    (hleave : ∀ outcome, doing ≠ .leave outcome) :
    (l.stepDriver p pollers d doing).held.Nodup ∧
      ∀ k ∈ (l.stepDriver p pollers d doing).held, k = d.key ∨ k ∈ l.held := by
  have hsub := ((driverStep_stepDriver p l pollers d (ho.proper d hd).1 hleave).nextFocus
    p).held_sublist
  cases hw : doing.works with
  | true =>
    have hheld := held_of_works hfocus hw
    rw [← hheld] at hsub
    exact ⟨ho.distinct.sublist hsub, fun k hk => .inr (hsub.subset hk)⟩
  | false =>
    have hheld := held_of_not_works hfocus hw
    have hpoll : doing = .poll := by
      cases doing with
      | poll => rfl
      | leave outcome => exact absurd rfl (hleave outcome)
      | _ => cases hw
    subst hpoll
    by_cases hk : d.key ∈ pollers.filterMap Poller.key?
    · rw [(poll_of_held p ho hfocus hd hk).2, held_of_not_works rfl rfl, ← hheld]
      exact ⟨ho.distinct, fun k hk => .inr hk⟩
    · refine ⟨List.Nodup.sublist hsub (List.nodup_cons.mpr ⟨hk, hheld ▸ ho.distinct⟩), ?_⟩
      intro k hmem
      rw [hheld]
      exact List.mem_cons.mp (hsub.subset hmem)

/-- After its step a driver that is still held is busy or about to be resumed. -/
theorem busy_stepDriver (ho : Orderly l) {doing : Doing Co Fu}
    (hfocus : l.focus = .active pollers d.key doing) (hd : d ∈ l.drivers)
    (hleave : ∀ outcome, doing ≠ .leave outcome) {d' : Driver Co Fu}
    (hd' : d' ∈ (l.stepDriver p pollers d doing).drivers) (hk : d'.key = d.key)
    (hheld : d.key ∈ (l.stepDriver p pollers d doing).held) :
    d'.activity = .busy ∨ ∃ input,
      (l.stepDriver p pollers d doing).focus = .active pollers d.key (.resume input) := by
  have hb := (ho.proper d hd).1
  have hu : ∀ x ∈ l.drivers, x.key = d.key → x = d := fun x hx => ho.eq_of_key hx hd
  have hstep := driverStep_stepDriver p l pollers d hb hleave
  by_cases hpoll : doing = .poll
  · subst hpoll
    cases hactivity : d.activity with
    | busy =>
      rcases hstep.activity p hu hb hd' hk with h | h | h
      · exact .inl (h.trans hactivity)
      · exact .inl h
      · rw [held_of_not_works h rfl] at hheld
        rw [(poll_of_held p ho hfocus hd hheld).2] at hd'
        rw [hu d' hd' hk]
        exact .inl hactivity
    | fresh =>
      refine .inr ⟨.ok (.value .null), ?_⟩
      unfold stepDriver
      rw [hactivity]
      rfl
    | pending branch =>
      rw [show l.stepDriver p pollers d .poll = (l.setActivity d.key .busy).focusOn pollers d.key
        (.visit branch []) by unfold stepDriver; rw [hactivity]] at hd'
      exact .inl (congrArg Driver.activity (eq_of_mem_modifyDriver hu hd' hk))
  · have hw : doing.works = true := by
      cases doing with
      | poll => exact absurd rfl hpoll
      | leave outcome => exact absurd rfl (hleave outcome)
      | _ => rfl
    -- the driver is among those held, so it cannot be among the pollers as well
    have hdistinct := ho.distinct
    rw [held_of_works hfocus hw, List.nodup_cons] at hdistinct
    have hrest : (l.stepDriver p pollers d doing).focus ≠ .active pollers d.key (.leave none) := by
      intro h
      rw [held_of_not_works h rfl] at hheld
      exact hdistinct.1 hheld
    by_cases hresume : ∃ input, doing = .resume input
    · obtain ⟨input, rfl⟩ := hresume
      cases hjob : d.job with
      | plain =>
        refine absurd ?_ hrest
        unfold stepDriver
        rw [hjob]
        rfl
      | coroutine co passes kind =>
        unfold stepDriver at hd'
        rw [hjob] at hd'
        exact .inl (congrArg Driver.activity (eq_of_mem_resume hu _ hd' hk))
    · rcases hstep.activity p hu hb hd' hk with h | h | h
      · have hmem : d.key ∈ l.held := by
          rw [held_of_works hfocus hw]
          exact List.mem_cons_self
        rcases ho.busy d hd hmem with hbusy | ⟨ps, input, hf⟩
        · exact .inl (h.trans hbusy)
        · rw [hfocus] at hf
          cases hf
          exact absurd ⟨input, rfl⟩ hresume
      · exact .inl h
      · exact absurd h hrest

theorem orderly_stepDriver (ho : Orderly l) {doing : Doing Co Fu}
    (hfocus : l.focus = .active pollers d.key doing) (hd : d ∈ l.drivers)
    (hleave : ∀ outcome, doing ≠ .leave outcome) :
    Orderly (l.stepDriver p pollers d doing) := by
  have hb := (ho.proper d hd).1
  have hstep := driverStep_stepDriver p l pollers d hb hleave
  have htouches := hstep.touches p hb
  obtain ⟨hnodup, hmem⟩ := held_stepDriver p ho hfocus hd hleave
  have hbounded : ∀ k ∈ (l.stepDriver p pollers d doing).held, k.val ≤ l.lastKey := by
    intro k hk
    rcases hmem k hk with rfl | hk
    · exact hb
    · exact ho.bounded k hk
  refine ⟨?_, htouches.proper ho.proper, hnodup, ?_, ?_⟩
  · rw [books_stepDriver]
    exact ho.balanced.postAll (admitsAll_doingPostings p ho.balanced hd doing)
  · exact fun k hk => Nat.le_trans (hbounded k hk) htouches.lastKey_le
  · intro d' hd' hk
    by_cases hkey : d'.key = d.key
    · rw [hkey] at hk ⊢
      exact (busy_stepDriver p ho hfocus hd hleave hd' hkey hk).imp_right
        fun ⟨input, h⟩ => ⟨pollers, input, h⟩
    · have hold := htouches.mem_of_ne hd' hkey (hbounded _ hk)
      have hheld := (hmem _ hk).resolve_left hkey
      rcases ho.busy d' hold hheld with hbusy | ⟨ps, input, hf⟩
      · exact .inl hbusy
      · rw [hfocus] at hf
        exact absurd (Focus.active.inj hf).2.1.symm hkey

theorem gone_of_leave {key : DriverKey} {doing : Doing Co Fu}
    (h : (∃ outcome, doing = .leave outcome) ∨ l.driver? key = none) (hw : doing.works = true) :
    ∀ d ∈ l.drivers, d.key ≠ key := by
  intro d hd hk
  rcases h with ⟨outcome, rfl⟩ | h
  · cases hw
  · exact List.find?_eq_none.mp h d hd (beq_iff_eq.mpr hk)

theorem orderly_move (ho : Orderly l) (m : Move Co Fu) : Orderly (l.move p m) := by
  have hturn := turn_move p m (l := l)
  generalize l.move p m = l' at hturn ⊢
  cases hturn with
  | outside h m => exact orderly_outside p ho h m
  | refused _ _ => exact ho
  | leave h hgone outcome => exact orderly_leave p ho h (gone_of_leave hgone) outcome
  | driver h hd hleave => exact orderly_stepDriver p ho h (mem_of_driver? hd) hleave

/-- A move holds no driver that is new. -/
theorem held_move_le (ho : Orderly l) (m : Move Co Fu) :
    ∀ key ∈ (l.move p m).held, key.val ≤ l.lastKey := by
  have hturn := turn_move p m (l := l)
  generalize l.move p m = l' at hturn ⊢
  cases hturn with
  | outside h m =>
    intro key hk
    rcases outside_focus p h m with hf | ⟨ps, k, hf, hps⟩
    · rw [held_of_idle hf] at hk
      cases hk
    · rw [held_of_not_works hf rfl, hps] at hk
      cases hk
  | refused _ _ => exact ho.bounded
  | leave h hgone outcome =>
    intro key hk
    have hmem := (held_leave_sublist p _ outcome).subset hk
    refine ho.bounded key ?_
    rename_i doing
    cases hw : doing.works with
    | true =>
      rw [held_of_works h hw]
      exact List.mem_cons_of_mem _ hmem
    | false => rwa [held_of_not_works h hw]
  | driver h hd hleave =>
    intro key hk
    rcases (held_stepDriver p ho h (mem_of_driver? hd) hleave).2 key hk with rfl | hk
    · exact (ho.proper _ (mem_of_driver? hd)).1
    · exact ho.bounded key hk

/-- **No driver is held twice and nobody polls a driver that is held**, after every run. -/
theorem orderly_after (moves : List (Move Co Fu)) : Orderly (after p {} moves) := by
  induction moves using List.reverseRecOn with
  | nil => exact .empty
  | append_singleton moves m ih =>
    rw [after_snoc]
    exact orderly_move p ih m

/-! ## Drivers that go away with what held them -/

/-- Drivers that go away one after the other do so by moves. -/
theorem foldl_abandon_reached (ho : Orderly l) (hf : l.focus = .idle) {ds : List (Driver Co Fu)}
    (hds : ∀ d ∈ ds, d ∈ l.drivers) (hn : (ds.map Driver.key).Nodup) :
    Reaches p l (ds.foldl abandon l) := by
  induction ds generalizing l with
  | nil => exact .refl
  | cons d ds ih =>
    obtain ⟨hd, hds⟩ := List.forall_mem_cons.mp hds
    obtain ⟨hkey, hn⟩ := List.nodup_cons.mp hn
    have hdrop : l.move p (.drop d.key) = l.abandon d := by
      rw [move_of_idle p hf, outside, driver?_of_mem ho hd]
    refine .trans (.of_move _ hdrop) (ih (hdrop ▸ orderly_move p ho _) ?_ ?_ hn)
    · exact (abandon_focus l d).trans hf
    · intro x hx
      rw [drivers_abandon]
      refine List.mem_filter.mpr ⟨hds x hx, decide_eq_true ?_⟩
      intro hk
      exact hkey (hk ▸ List.mem_map_of_mem hx)

theorem cancel_reached (ho : Orderly l) (hf : l.focus = .idle) (key : DriverKey) :
    Reaches p l (l.cancel key) := by
  have hsub := nestedBelow_sublist [key] l.drivers
  have hnested : Reaches p l (l.dropNested key) := by
    refine foldl_abandon_reached p ho hf ?_ ?_
    · exact fun d hd => hsub.subset (List.mem_reverse.mp hd)
    · rw [List.map_reverse, List.nodup_reverse]
      exact ho.nodup_keys.sublist (hsub.map _)
  obtain ⟨moves, hmoves⟩ := hnested
  have hidle : (l.dropNested key).focus = .idle := (foldl_abandon_focus _ l).trans hf
  refine .trans ⟨moves, hmoves⟩ (.of_move (.drop key) ?_)
  rw [move_of_idle p hidle]
  rfl

/-- A loop that goes away drops the drivers that are left. -/
theorem shutdown_reached (ho : Orderly l) (hf : l.focus = .idle) : Reaches p l l.shutdown := by
  refine foldl_abandon_reached p ho hf ?_ ?_
  · exact fun d hd => List.mem_reverse.mp hd
  · rw [List.map_reverse, List.nodup_reverse]
    exact ho.nodup_keys

theorem drivers_shutdown (l : EventLoop Co Fu) : l.shutdown.drivers = [] := by
  rw [List.eq_nil_iff_forall_not_mem]
  intro d hd
  obtain ⟨hmem, hne⟩ := mem_foldl_abandon.mp hd
  exact hne d (List.mem_reverse.mpr hmem) rfl

end

end EventLoop

end EffectLoop
