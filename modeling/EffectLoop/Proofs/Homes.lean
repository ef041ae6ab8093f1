import EffectLoop.Proofs.Focus

/-!
# Where drivers live

A driver that is nested in no other has a runtime task of its own, and is its own home; a nested one
lives at the home of the driver it is nested in, so a chain of nested drivers lives in one runtime task
to any depth. `Housed` says so of a state, and `housed_after` of every state that a run comes to: a
driver never moves, and the home it is given when it is entered is right (`movesIn_move`).
-/

namespace EffectLoop

variable {Co Fu α : Type}

/-- The driver is nested in no other. -/
def Driver.IsRoot (d : Driver Co Fu) : Prop := ∀ key, d.owner ≠ .driver key

/-- The act begins with entering a task. -/
def Act.enters : Act Co Fu α → Bool
  | .start _ _ _ _ | .spawn _ _ _ _ | .nest _ _ _ _ => true
  | _ => false

/-- The next step of the driver may enter a task. -/
def Doing.enters : Doing Co Fu → Bool
  | .advance a => a.enters
  | .work a _ => a.enters
  | .invoke _ _ (.ret _) _ => true
  | .invoke _ _ a _ => a.enters
  | .dispatch a _ => a.enters
  | _ => false

namespace EventLoop

/-- Homes are as drivers are nested. -/
structure Housed (l : EventLoop Co Fu) : Prop where
  root : ∀ d ∈ l.drivers, d.IsRoot → d.home = d.key
  nested : ∀ d ∈ l.drivers, ∀ o ∈ l.drivers, d.owner = .driver o.key → d.home = o.home
  head : ∀ d ∈ l.drivers, ∀ x ∈ l.drivers, x.key = d.home → x.IsRoot
  bounded : ∀ d ∈ l.drivers, d.home.val ≤ l.lastKey

/-- A driver that is entered gets a home of its own, or the home of a driver that is there. -/
inductive MovesIn (l : EventLoop Co Fu) (d : Driver Co Fu) : Prop
  | root (h : d.IsRoot) (hhome : d.home = d.key)
  | nested {o : Driver Co Fu} (ho : o ∈ l.drivers) (h : d.owner = .driver o.key)
      (hhome : d.home = o.home)

/-! ## Drivers that are entered -/

section

variable (p : Program Co Fu) {l : EventLoop Co Fu} {pollers : List (Poller Co Fu)}
  {d d' : Driver Co Fu}

theorem movesIn_enter (hl : Proper l) (spec : SchedulerSpec) (current : Option DriverKey)
    (owner : Owner) (howner : ∀ key, owner = .driver key → ∃ o, l.driver? key = some o)
    (s : SchedulerId) (name : String) (job : Job Co) (activity : Activity Fu)
    (hd : d ∈ (l.enter spec current owner s name job activity).1.drivers)
    (hnew : l.lastKey < d.key.val) : MovesIn l d := by
  rcases List.mem_append.mp hd with hd | hd
  · have := (hl d hd).1
    omega
  · rw [List.mem_singleton.mp hd]
    cases owner with
    | driver key =>
      obtain ⟨o, ho⟩ := howner key rfl
      cases key_of_driver? ho
      refine .nested (mem_of_driver? ho) rfl ?_
      show ((l.driver? o.key).map Driver.home).getD o.key = o.home
      rw [ho]
      rfl
    | _ => exact .root (fun _ => nofun) rfl

/-- Where no key is given out there is no new driver. -/
theorem not_new_of_lastKey_eq {l' : EventLoop Co Fu} (hl' : Proper l') (hlast : l'.lastKey = l.lastKey)
    (hd : d ∈ l'.drivers) : ¬ l.lastKey < d.key.val := by
  have := (hl' d hd).1
  omega

theorem ne_enter_of_mem_abandonments {ds : List (Driver Co Fu)} {x : Posting}
    (h : x ∈ abandonments ds) (s : SchedulerId) (name : String) : x ≠ .enter s name := by
  obtain ⟨a, _, rfl⟩ := List.mem_map.mp h
  exact nofun

theorem ne_enter_of_mem_actPostings {a : Act Co Fu α} (ha : a.enters = false) {x : Posting}
    (h : x ∈ l.actPostings a) (s : SchedulerId) (name : String) : x ≠ .enter s name := by
  cases a with
  | ask q k =>
    cases q with
    | terminate s' id =>
      rw [List.mem_singleton.mp h]
      exact nofun
    | _ => cases h
  | start s name co k => cases ha
  | spawn s name fu k => cases ha
  | nest s name co k => cases ha
  | _ => cases h

/-- Only a driver that may enter a task gives out a key. -/
theorem lastKey_stepDriver {doing : Doing Co Fu} (h : doing.enters = false) :
    (l.stepDriver p pollers d doing).lastKey = l.lastKey := by
  have hbooks := congrArg Books.lastKey (books_stepDriver p l pollers d doing)
  rwa [Books.lastKey_postAll] at hbooks
  intro x hx s name
  unfold doingPostings at hx
  split at hx
  · split at hx
    · rw [List.mem_singleton.mp hx]
      exact nofun
    · cases hx
  · split at hx
    · rw [List.mem_singleton.mp hx]
      exact nofun
    · cases hx
  · exact ne_enter_of_mem_abandonments hx s name
  · cases h
  · exact ne_enter_of_mem_actPostings h hx s name
  · exact ne_enter_of_mem_actPostings h hx s name
  · rename_i a _ hret
    refine ne_enter_of_mem_actPostings ?_ hx s name
    cases a with
    | ret invoked => exact absurd rfl (hret _)
    | _ => exact h
  · exact ne_enter_of_mem_actPostings h hx s name
  · rcases List.mem_cons.mp hx with rfl | hx
    · exact nofun
    · exact ne_enter_of_mem_abandonments hx s name
  · exact ne_enter_of_mem_abandonments hx s name
  · cases hx

/-- An act that enters nobody leaves no new driver. -/
theorem not_new_of_perform (hl : Proper l) {current : Option DriverKey}
    (hcurrent : ∀ key ∈ current, key.val ≤ l.lastKey) {a : Act Co Fu α} (h : a.enters = false)
    (hd : d ∈ (l.perform p current a).1.drivers) : ¬ l.lastKey < d.key.val := by
  have hlast := congrArg Books.lastKey (l.books_perform p current a)
  rw [Books.lastKey_postAll _ fun x hx => ne_enter_of_mem_actPostings h hx] at hlast
  exact not_new_of_lastKey_eq ((l.spares_perform p current hcurrent a).proper hl) hlast hd

/-- A step that enters nobody leaves no new driver. -/
theorem not_new_of_stepDriver (hl : Proper l) (hx : d ∈ l.drivers) {doing : Doing Co Fu}
    (hleave : ∀ outcome, doing ≠ .leave outcome) (h : doing.enters = false)
    (hd : d' ∈ (l.stepDriver p pollers d doing).drivers) : ¬ l.lastKey < d'.key.val := by
  have hb := (hl d hx).1
  have hl' := ((driverStep_stepDriver p l pollers d hb hleave).touches p hb).proper hl
  exact not_new_of_lastKey_eq hl' (lastKey_stepDriver p h) hd

theorem movesIn_perform (hl : Proper l) {current : Option DriverKey}
    (hcurrent : ∀ key ∈ current, ∃ o, l.driver? key = some o) (a : Act Co Fu α)
    (hd : d ∈ (l.perform p current a).1.drivers) (hnew : l.lastKey < d.key.val) : MovesIn l d := by
  cases h : a.enters with
  | false =>
    have hc : ∀ key ∈ current, key.val ≤ l.lastKey := by
      intro key hkey
      obtain ⟨o, ho⟩ := hcurrent key hkey
      rw [← key_of_driver? ho]
      exact (hl o (mem_of_driver? ho)).1
    exact absurd hnew (not_new_of_perform p hl hc h hd)
  | true =>
    cases a with
    | start s name co k =>
      exact movesIn_enter hl _ current .loop nofun s name _ _ hd hnew
    | spawn s name fu k =>
      exact movesIn_enter hl _ current .loop nofun s name _ _ hd hnew
    | nest s name co k =>
      refine movesIn_enter hl _ current _ (fun key hkey => ?_) s name _ _ hd hnew
      cases current with
      | none => cases hkey
      | some key' =>
        cases hkey
        exact hcurrent _ rfl
    | _ => cases h

theorem movesIn_stepInvoked (hl : Proper l) (hx : l.driver? d.key = some d) (b : Builtin)
    (target : Target) (spot : Spot Fu) (invoked : Invoked Co Fu)
    (hd : d' ∈ (l.stepInvoked p pollers d b target spot invoked).drivers)
    (hnew : l.lastKey < d'.key.val) : MovesIn l d' := by
  have hold : d' ∉ l.drivers := fun hmem => by
    have := (hl d' hmem).1
    omega
  cases invoked with
  | pending fu =>
    cases b with
    | fork => exact movesIn_enter hl _ _ .loop nofun _ _ _ _ hd hnew
    | _ => exact absurd hd hold
  | coroutine co =>
    cases b with
    | fork => exact movesIn_enter hl _ _ .loop nofun _ _ _ _ hd hnew
    | _ =>
      refine movesIn_enter hl _ _ _ (fun key hkey => ?_) _ _ _ _ hd hnew
      cases hkey
      exact ⟨d, hx⟩

theorem asks_of_enters {a : Act Co Fu α} (h : a.enters = true) : a.asks = true := by
  cases a <;> first | rfl | cases h

theorem movesIn_stepDriver (hl : Proper l) (hx : l.driver? d.key = some d) {doing : Doing Co Fu}
    (hleave : ∀ outcome, doing ≠ .leave outcome)
    (hd : d' ∈ (l.stepDriver p pollers d doing).drivers) (hnew : l.lastKey < d'.key.val) :
    MovesIn l d' := by
  have hcurrent : ∀ key ∈ some d.key, ∃ o, l.driver? key = some o := by
    rintro _ ⟨⟩
    exact ⟨d, hx⟩
  cases h : doing.enters with
  | false => exact absurd hnew (not_new_of_stepDriver p hl (mem_of_driver? hx) hleave h hd)
  | true =>
    cases doing with
    | advance a =>
      rw [stepDriver_advance p l pollers d (asks_of_enters h)] at hd
      exact movesIn_perform p hl hcurrent a hd hnew
    | work a spot =>
      rw [stepDriver_work p l pollers d (asks_of_enters h)] at hd
      exact movesIn_perform p hl hcurrent a hd hnew
    | invoke b target a spot =>
      cases a with
      | ret invoked => exact movesIn_stepInvoked p hl hx b target spot invoked hd hnew
      | panic => cases h
      | _ =>
        rw [stepDriver_invoke p l pollers d b target rfl] at hd
        exact movesIn_perform p hl hcurrent _ hd hnew
    | dispatch a spot =>
      rw [stepDriver_dispatch p l pollers d (asks_of_enters h)] at hd
      exact movesIn_perform p hl hcurrent a hd hnew
    | _ => cases h

/-- The surroundings give out a key only by an act. -/
theorem lastKey_outside (h : l.focus = .idle) {m : Move Co Fu} (hact : ∀ a, m ≠ .act a) :
    (l.outside p m).lastKey = l.lastKey := by
  have hbooks := congrArg Books.lastKey (books_move p l m)
  rw [move_of_idle p h, Books.lastKey_postAll] at hbooks
  · exact hbooks
  · intro x hx
    unfold postings at hx
    rw [h] at hx
    cases m with
    | act a => exact absurd rfl (hact a)
    | drop key => exact ne_enter_of_mem_abandonments hx
    | _ => cases hx

/-- **A driver that a move enters moves in where it should.** -/
theorem movesIn_move (hl : Proper l) (m : Move Co Fu) (hd : d ∈ (l.move p m).drivers)
    (hnew : l.lastKey < d.key.val) : MovesIn l d := by
  have hproper := proper_move p hl m
  have hturn := turn_move p m (l := l)
  generalize l.move p m = l' at hturn hd hproper
  cases hturn with
  | outside h m =>
    by_cases hact : ∃ a, m = .act a
    · obtain ⟨a, rfl⟩ := hact
      exact movesIn_perform p hl (fun key hkey => absurd hkey (Option.not_mem_none key)) a hd hnew
    · have hlast := lastKey_outside p h fun a ha => hact ⟨a, ha⟩
      exact absurd hnew (not_new_of_lastKey_eq hproper hlast hd)
  | refused _ _ => exact absurd hnew (not_new_of_lastKey_eq hl rfl hd)
  | leave h hgone outcome =>
    exact absurd hnew (not_new_of_lastKey_eq hproper (leave_drivers p _ outcome).2 hd)
  | driver h hx hleave => exact movesIn_stepDriver p hl hx hleave hd hnew

/-! ## Homes are kept -/

/-- A driver after a move was there before, with the same owner and home, or has just moved in. -/
theorem tenant_move (hl : Proper l) (m : Move Co Fu) (hd : d ∈ (l.move p m).drivers) :
    (∃ d₀ ∈ l.drivers, d₀.key = d.key ∧ d₀.owner = d.owner ∧ d₀.home = d.home ∧
      d₀.task = d.task) ∨ l.lastKey < d.key.val ∧ MovesIn l d := by
  obtain ⟨key, _, htouches⟩ := touches_move p hl m
  rcases htouches.old_or_new d hd with hold | ⟨_, d₀, hd₀, he⟩ | ⟨⟨hnew, _, _⟩, _⟩
  · exact .inl ⟨d, hold, rfl, rfl, rfl, rfl⟩
  · exact .inl ⟨d₀, hd₀, by rw [he], by rw [he], by rw [he], by rw [he]⟩
  · exact .inr ⟨hnew, movesIn_move p hl m hd hnew⟩

theorem Housed.empty : Housed ({} : EventLoop Co Fu) where
  root := fun _ h => nomatch h
  nested := fun _ h => nomatch h
  head := fun _ h => nomatch h
  bounded := fun _ h => nomatch h

theorem housed_move (ho : Orderly l) (hh : Housed l) (m : Move Co Fu) : Housed (l.move p m) := by
  have ho' := orderly_move p ho m
  have hle : l.lastKey ≤ (l.move p m).lastKey := by
    obtain ⟨_, _, htouches⟩ := touches_move p ho.proper m
    exact htouches.lastKey_le
  have hroot : ∀ {d d₀ : Driver Co Fu}, d₀.owner = d.owner → (d₀.IsRoot ↔ d.IsRoot) := fun he => by
    unfold Driver.IsRoot
    rw [he]
  constructor
  case root =>
    intro d hd hr
    rcases tenant_move p ho.proper m hd with ⟨d₀, hd₀, hk, how, hhome, _⟩ | ⟨_, hin⟩
    · rw [← hk, ← hhome]
      exact hh.root d₀ hd₀ ((hroot how).mpr hr)
    · cases hin with
      | root _ hhome => exact hhome
      | nested _ h _ => exact absurd h (hr _)
  case nested =>
    intro d hd o ho₁ hown
    rcases tenant_move p ho.proper m ho₁ with ⟨o₀, ho₀, hok, _, hohome, _⟩ | ⟨honew, _⟩
    · rcases tenant_move p ho.proper m hd with ⟨d₀, hd₀, _, how, hhome, _⟩ | ⟨_, hin⟩
      · rw [← hhome, ← hohome]
        exact hh.nested d₀ hd₀ o₀ ho₀ (by rw [how, hown, hok])
      · cases hin with
        | root hr _ => exact absurd hown (hr _)
        | nested hx h hhome =>
          rw [h] at hown
          cases ho.eq_of_key hx ho₀ ((Owner.driver.inj hown).trans hok.symm)
          rw [hhome, hohome]
    · -- an owner is older than the driver nested in it, so it was there when that one was entered
      rcases tenant_move p ho.proper m hd with ⟨d₀, hd₀, hk, how, _⟩ | ⟨_, hin⟩
      · have hlt := (ho.proper d₀ hd₀).2.owner _ (how.trans hown)
        have := (ho.proper d₀ hd₀).1
        omega
      · cases hin with
        | root hr _ => exact absurd hown (hr _)
        | nested hx h _ =>
          rw [h] at hown
          have hx := (ho.proper _ hx).1
          rw [Owner.driver.inj hown] at hx
          omega
  case head =>
    intro d hd x hx hxk
    rcases tenant_move p ho.proper m hx with ⟨x₀, hx₀, hk, how, _⟩ | ⟨hnew, _⟩
    · refine (hroot how).mp ?_
      rcases tenant_move p ho.proper m hd with ⟨d₀, hd₀, _, _, hhome, _⟩ | ⟨hdnew, hin⟩
      · exact hh.head d₀ hd₀ x₀ hx₀ (by rw [hk, hxk, hhome])
      · cases hin with
        | root _ hhome =>
          have := (ho.proper x₀ hx₀).1
          rw [hk, hxk, hhome] at this
          omega
        | nested ho₁ _ hhome => exact hh.head _ ho₁ x₀ hx₀ (by rw [hk, hxk, hhome])
    · rcases tenant_move p ho.proper m hd with ⟨d₀, hd₀, _, _, hhome, _⟩ | ⟨_, hin⟩
      · have := hh.bounded d₀ hd₀
        rw [hxk, ← hhome] at hnew
        omega
      · cases hin with
        | root hr hhome =>
          rw [hhome] at hxk
          rw [ho'.eq_of_key hx hd hxk]
          exact hr
        | nested ho₁ _ hhome =>
          have := hh.bounded _ ho₁
          rw [hxk, hhome] at hnew
          omega
  case bounded =>
    intro d hd
    rcases tenant_move p ho.proper m hd with ⟨d₀, hd₀, _, _, hhome, _⟩ | ⟨_, hin⟩
    · rw [← hhome]
      exact Nat.le_trans (hh.bounded d₀ hd₀) hle
    · cases hin with
      | root _ hhome =>
        rw [hhome]
        exact (ho'.proper d hd).1
      | nested ho₁ _ hhome =>
        rw [hhome]
        exact Nat.le_trans (hh.bounded _ ho₁) hle

/-- **Every driver is at home where it should be**, after every run. -/
theorem housed_after (moves : List (Move Co Fu)) : Housed (after p {} moves) := by
  induction moves using List.reverseRecOn with
  | nil => exact .empty
  | append_singleton moves m ih =>
    rw [after_snoc]
    exact housed_move p (orderly_after p moves) ih m

end

/-! ## Chains of nested drivers -/

/-- The driver is the one with the key `root`, or nested in it at some depth. -/
inductive LivesUnder (l : EventLoop Co Fu) (root : DriverKey) : Driver Co Fu → Prop
  | root {d : Driver Co Fu} (hd : d ∈ l.drivers) (hr : d.IsRoot) (hk : d.key = root) :
      LivesUnder l root d
  | nested {d o : Driver Co Fu} (hd : d ∈ l.drivers) (h : d.owner = .driver o.key)
      (ho : LivesUnder l root o) : LivesUnder l root d

theorem LivesUnder.mem {l : EventLoop Co Fu} {root : DriverKey} {d : Driver Co Fu}
    (h : LivesUnder l root d) : d ∈ l.drivers := by
  cases h with
  | root hd _ _ => exact hd
  | nested hd _ _ => exact hd

/-- A chain of nested drivers lives at one home. -/
theorem LivesUnder.home_eq {l : EventLoop Co Fu} (hh : Housed l) {root : DriverKey}
    {d : Driver Co Fu} (h : LivesUnder l root d) : d.home = root := by
  induction h with
  | root hd hr hk => rw [hh.root _ hd hr, hk]
  | nested hd h ho ih => rw [hh.nested _ hd _ ho.mem h, ih]

end EventLoop

end EffectLoop
