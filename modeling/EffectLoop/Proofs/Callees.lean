import EffectLoop.Proofs.Fates
import EffectLoop.Proofs.Kin
import EffectLoop.Proofs.Stays

/-!
# What a call is answered with

A called target gives a computation, which its caller works on itself, or a coroutine, for which a driver is
entered that the caller polls. Of computations only the simplest kind is followed here: one that asks,
sleeps and comes to one and the same end (`Idles`), as a service does that answers after a while. A call of
such a target is answered with that (`resolved_of_idle`). A fork of it enters a driver that lives alone and
has nothing else to end with, so its task settles with that, or it is terminated or its driver dropped
(`alone_after`, `outcome_of_undropped_idle`).

A call of a coroutine is answered with the outcome of the task that was entered for it, when its driver has
come to its end (`driven_of_resolved`, `ended_of_over`).
-/

namespace EffectLoop

variable {Co Fu : Type}

/-- A computation that only asks and sleeps, and always comes to the end `r`. -/
inductive Idles (p : Program Co Fu) (r : Resume) : Act Co Fu (Await Fu) → Prop
  | done : Idles p r (.ret (.done r))
  | ask {q : Request} {k : q.Reply → Act Co Fu (Await Fu)} (h : ∀ reply, Idles p r (k reply)) :
      Idles p r (.ask q k)
  | sleep {deadline : Nat} {k : Resume → Fu} (h : Idles p r (p.work (k (.ok (.value .null))))) :
      Idles p r (.ret (.wait (.sleep deadline) k))

/-- The seats of a driver that works on such a computation, with these frames below. -/
inductive Idling (p : Program Co Fu) (r : Resume) (base : List (Frame Fu)) : Seat Co Fu → Prop
  | works {a : Act Co Fu (Await Fu)} (h : Idles p r a) : Idling p r base (.working (.work a ⟨base, []⟩))
  | awaits {deadline : Nat} {k : Resume → Fu} (h : Idles p r (p.work (k (.ok (.value .null))))) :
      Idling p r base (.working (.await (.sleep deadline) ⟨.code k :: base, []⟩))
  | pauses {deadline : Nat} {k : Resume → Fu} (h : Idles p r (p.work (k (.ok (.value .null))))) :
      Idling p r base (.working (.pause (.waiting (.sleep deadline) (.code k :: base)) []))
  | rests {deadline : Nat} {k : Resume → Fu} (h : Idles p r (p.work (k (.ok (.value .null))))) :
      Idling p r base (.resting (.pending (.waiting (.sleep deadline) (.code k :: base))))
  | visits {deadline : Nat} {k : Resume → Fu} (h : Idles p r (p.work (k (.ok (.value .null))))) :
      Idling p r base (.working (.visit (.waiting (.sleep deadline) (.code k :: base)) []))
  | wakes {k : Resume → Fu} (h : Idles p r (p.work (k (.ok (.value .null))))) :
      Idling p r base (.working (.answer (.ok (.value .null)) ⟨.code k :: base, []⟩))
  | ready : Idling p r base (.working (.answer r ⟨base, []⟩))
  | busy : Idling p r base (.resting .busy)

namespace EventLoop

section

variable {p : Program Co Fu} {l : EventLoop Co Fu} {d : Driver Co Fu} {r : Resume} {base : List (Frame Fu)}
  {doing : Doing Co Fu} {job : Job Co} {seat : Seat Co Fu}

theorem Idles.of_perform {current : Option DriverKey} {a : Act Co Fu (Await Fu)} (h : Idles p r a) :
    Idles p r (l.perform p current a).2 := by
  cases h with
  | done => exact .done
  | ask h => exact h _
  | sleep h => exact .sleep h

/-- A sleep ends with null. -/
theorem eq_null_of_peek {deadline : Nat} {r : Resume} (h : l.peek (.sleep deadline) = some r) :
    r = .ok (.value .null) := by
  unfold peek at h
  dsimp only at h
  split at h
  · exact (Option.some.inj h).symm
  · cases h

/-- A step of a driver that idles leaves it so, until the computation is over. -/
theorem idling_stride (h : Idling p r base (.working doing)) (hs : Stride p l d doing job seat)
    (hover : doing ≠ .answer r ⟨base, []⟩) : Idling p r base seat := by
  cases h with
  | works h =>
    cases hs with
    | works _ _ => exact .works (Idles.of_perform h)
    | workDone r' _ =>
      cases h
      exact .ready
    | workPanics _ => cases h
    | workWaits w k _ =>
      cases h with
      | sleep h => exact .awaits h
    | workDelegates _ _ _ _ => cases h
    | workForks _ _ _ _ => cases h
  | awaits h =>
    cases hs with
    | awaitsReady _ hpeek =>
      cases eq_null_of_peek hpeek
      exact .wakes h
    | awaits _ _ => exact .pauses h
  | pauses h =>
    cases hs with
    | rests _ => exact .rests h
  | visits h =>
    cases hs with
    | visitsReady _ _ hpeek =>
      cases eq_null_of_peek hpeek
      exact .wakes h
    | visitsWaiting _ _ _ _ => exact .pauses h
  | wakes h =>
    cases hs with
    | answersCode _ _ _ _ => exact .works h
  | ready => exact absurd rfl hover

/-! ## A fork of work that idles -/

/-- The seats of a driver that was entered for a computation that idles. -/
inductive Loiters (p : Program Co Fu) (r : Resume) : Seat Co Fu → Prop
  | unbegun {fu : Fu} (h : Idles p r (p.work fu)) : Loiters p r (.resting (.pending (.unbegun fu)))
  | begins {fu : Fu} (h : Idles p r (p.work fu)) : Loiters p r (.working (.visit (.unbegun fu) []))
  | idles {seat : Seat Co Fu} (h : Idling p r [] seat) : Loiters p r seat
  | finishes : Loiters p r (.working (.finish (r.map Output.wire)))

theorem loiters_stride (h : Loiters p r (.working doing)) (hs : Stride p l d doing job seat)
    (hevent : doing.event? d = none) : Loiters p r seat := by
  cases h with
  | begins h =>
    cases hs with
    | begun _ _ => exact .idles (.works h)
  | finishes => cases hs
  | idles h =>
    by_cases hover : doing = .answer r ⟨[], []⟩
    · subst hover
      cases hs with
      | resolves hjob _ => simp [Doing.event?, hjob] at hevent
      | ends _ _ => exact .finishes
    · exact .idles (idling_stride h hs hover)

theorem eq_of_finishing {o : Outcome} (h : Loiters p r (.working (.finish o))) : o = r.map Output.wire := by
  cases h with
  | finishes => rfl
  | idles h => cases h

theorem Loiters.arrival?_eq_none (h : Loiters p r (.working doing)) : doing.arrival? d = none := by
  cases h with
  | begins | finishes => rfl
  | idles h =>
    cases h with
    | works h => cases h <;> rfl
    | _ => rfl

theorem stays_loitering (key : DriverKey) (hist : List (TaskEvent Co)) (r : Resume) :
    Stays p key hist fun _ => Loiters p r where
  later := fun _ _ _ h => h
  busy := fun _ => .idles .busy
  fresh := by
    intro moves h
    cases h with
    | idles h => cases h
  pending := by
    intro moves branch h
    cases h with
    | unbegun h => exact .begins h
    | idles h =>
      cases h with
      | rests h => exact .idles (.visits h)
  back := by
    intro moves m polled spot outcome pollers doing h
    cases h with
    | idles h => cases h
  bodyBack := by
    intro moves polled k outcome h
    cases h with
    | idles h => cases h
  stride := by
    intro moves d pollers doing job seat _ _ _ _ h hevent hs
    exact loiters_stride h hs hevent

end

section

variable (p : Program Co Fu) {first moves : List (Move Co Fu)} {parent key : DriverKey} {b : Builtin}
  {work : Invoked Co Fu} {t : TaskHandle} {r : Resume}

/-- A driver that was entered rests right after that, about to begin. -/
theorem Enters.seat (h : Enters (after p {} first) parent b work key t) :
    ∀ d ∈ (after p {} (first ++ [.step])).drivers, d.key = key →
      ∃ x : Arrival Co Fu, x.work = work ∧ d.task = t ∧ d.job = x.job ∧
        (after p {} (first ++ [.step])).seat d = .resting x.activity := by
  intro d hd hk
  have ho := orderly_after p first
  rw [after_snoc] at hd ⊢
  obtain ⟨x, hx, d₀, hd₀, hk₀, ht, hjob, hactivity⟩ := h.driver p
  cases (orderly_move p ho .step).eq_of_key hd hd₀ (hk.trans hk₀.symm)
  have haway : d.key ∉ ((after p {} first).move p .step).held := by
    intro hheld
    have hle := held_move_le p ho .step _ hheld
    rw [hk, h.key_eq] at hle
    omega
  exact ⟨x, hx, ht, hjob, (seat_of_not_held haway).trans (congrArg _ hactivity)⟩

/-- A driver that is there before anything has happened to its coroutine drives none, and nothing will. -/
theorem plain_after (hle : first <+: moves) (hold : key.val ≤ (after p {} first).lastKey)
    (h : history p first key = []) :
    history p moves key = [] ∧ ∀ d ∈ (after p {} moves).drivers, d.key = key → d.job = .plain := by
  obtain ⟨rest, rfl⟩ := hle
  induction rest using List.reverseRecOn with
  | nil =>
    rw [List.append_nil]
    rcases told_after p first key with htold | ⟨_, _, _, _, htold, _⟩
    · exact htold
    · rw [h] at htold
      cases htold
  | append_singleton rest m ih =>
    obtain ⟨hnil, hplain⟩ := ih
    have ho := orderly_after p (first ++ rest)
    have hold : key.val ≤ (after p {} (first ++ rest)).lastKey := by
      rw [after_append]
      exact hold.trans (lastKey_le_after p (orderly_after p _).proper rest)
    rw [← List.append_assoc]
    constructor
    · rw [history_snoc, happenings, eventsOf_append, hnil, eventsOf_acting_of_plain hplain,
        eventsOf_newcomers_old hold]
      rfl
    · intro d' hd' hk
      rw [after_snoc] at hd'
      obtain ⟨d, hd, hdk, _, hjob⟩ := exists_before p ho m hd' (hk ▸ hold)
      exact hjob (hplain d hd (hdk.symm.trans hk))

/-- A driver whose coroutine becomes a task does so when it is entered. -/
theorem history_ne_nil (hle : first <+: moves) {d : Driver Co Fu} (hd : d ∈ (after p {} first).drivers)
    (h : history p moves d.key ≠ []) : history p first d.key ≠ [] := fun hnil =>
  h (plain_after p hle ((orderly_after p first).proper d hd).1 hnil).1

/-- A driver that was entered for a plain computation drives no coroutine, and none is in its history. -/
theorem history_of_pending {fu : Fu} (h : Enters (after p {} first) parent b (.pending fu) key t) :
    history p (first ++ [.step]) key = [] := by
  rcases told_after p (first ++ [.step]) key with ⟨hnil, _⟩ | ⟨_, _, _, _, _, _, _, hstands⟩
  · exact hnil
  · obtain ⟨x, _, d, hd, hk, _⟩ := h.driver p
    rw [← after_snoc] at hd
    obtain ⟨_, _, _, hjob⟩ := exists_job_of_stands (hstands d hd hk).2
    obtain ⟨x, hx, _, hplain, _⟩ := h.seat p d hd hk
    rw [hjob, Arrival.job, hx] at hplain
    cases hplain

/-- **A driver that was entered for a computation that idles does nothing else**, and has nothing else to
end with. -/
theorem loitering_after {fu : Fu} (hle : first ++ [.step] <+: moves)
    (h : Enters (after p {} first) parent b (.pending fu) key t) (hidles : Idles p r (p.work fu)) :
    ∀ d ∈ (after p {} moves).drivers, d.key = key → Loiters p r ((after p {} moves).seat d) := by
  have hold := (h.allotted p (orderly_after p first)).1
  rw [← after_snoc] at hold
  have hnil := history_of_pending p h
  refine stays_after (stays_loitering key [] r) hle hold hnil (plain_after p hle hold hnil).1
    fun d hd hk => ?_
  obtain ⟨x, hx, _, _, hseat⟩ := h.seat p d hd hk
  rw [hseat]
  unfold Arrival.activity
  rw [hx]
  exact .unbegun hidles

/-- It finishes with what the computation comes to. -/
theorem eq_of_finishing_idle {fu : Fu} (hle : first ++ [.step] <+: moves)
    (h : Enters (after p {} first) parent b (.pending fu) key t) (hidles : Idles p r (p.work fu))
    {before : List (Move Co Fu)} (hbefore : before ++ [.step] <+: moves) {o : Outcome}
    (hfinishing : Finishing (after p {} before) key o) : o = r.map Output.wire := by
  obtain ⟨pollers, d, hfocus, hd⟩ := hfinishing
  cases key_of_driver? hd
  have hmem := mem_of_driver? hd
  have hentered := h.before p hle ((List.prefix_append ..).trans hbefore)
    ((orderly_after p before).proper d hmem).1
  have hloiters := loitering_after p hentered h hidles d hmem rfl
  rw [seat_of_works hfocus rfl] at hloiters
  exact eq_of_finishing hloiters

/-- A result of a forked computation that idles is what it comes to, -/
theorem outcome_of_idle {fu : Fu} (hle : first ++ [.step] <+: moves)
    (h : Enters (after p {} first) parent b (.pending fu) key t) (hidles : Idles p r (p.work fu))
    {v : Json} (ho : (after p {} moves).outcome? t = some (.ok v)) : .ok v = r.map Output.wire := by
  obtain ⟨before, hbefore, hfinishing⟩ := finishing_of_ok p hle h (List.prefix_refl _) ho
  exact eq_of_finishing_idle p hle h hidles hbefore hfinishing

/-- What is entered for a plain computation is nested in nobody. -/
theorem Enters.unnested {l : EventLoop Co Fu} {fu : Fu} (h : Enters l parent b (.pending fu) key t) :
    ∃ x, l.arrival? .step = some (some parent, x) ∧ x.nested = false := by
  cases h with
  | @intro pollers target spot d hfocus hd hown =>
    cases key_of_driver? hd
    rcases hown with rfl | ⟨co, hco⟩
    · exact ⟨_, by rw [arrival?_of_driver hfocus hd]; rfl, rfl⟩
    · cases hco

/-- A driver that idles enters nobody. -/
theorem parent_ne_of_arrival {fu : Fu} (hle : first ++ [.step] <+: moves)
    (h : Enters (after p {} first) parent b (.pending fu) key t) (hidles : Idles p r (p.work fu)) {m : Move Co Fu}
    {current : Option DriverKey} {x : Arrival Co Fu} (hx : (after p {} moves).arrival? m = some (current, x)) :
    current ≠ some key := by
  rintro rfl
  unfold arrival? at hx
  split at hx
  · cases hact : Act.arrival? _ with
    | none => rw [hact] at hx; cases hx
    | some x => rw [hact] at hx; cases hx
  · rename_i pollers k doing hfocus
    obtain ⟨d, hd, hx⟩ := Option.bind_eq_some_iff.mp hx
    obtain ⟨x', hx', he⟩ := Option.map_eq_some_iff.mp hx
    cases he
    cases key_of_driver? hd
    have hloiters := loitering_after p hle h hidles d (mem_of_driver? hd) rfl
    by_cases hw : doing.works = true
    · rw [seat_of_works hfocus hw] at hloiters
      cases hloiters.arrival?_eq_none.symm.trans hx'
    · cases doing <;> first | cases hx' | exact absurd rfl hw
  · cases hx

/-- **A driver that idles is nested in nobody, and lives alone.** -/
theorem alone_after {fu : Fu} (hle : first ++ [.step] <+: moves)
    (h : Enters (after p {} first) parent b (.pending fu) key t) (hidles : Idles p r (p.work fu)) :
    ∀ d ∈ (after p {} moves).drivers, (d.key = key → d.IsRoot) ∧ (d.home = key → d.key = key) := by
  have hkey := h.key_eq
  obtain ⟨rest, rfl⟩ := hle
  induction rest using List.reverseRecOn with
  | nil =>
    intro d hd
    have ho := orderly_after p first
    rw [List.append_nil, after_snoc] at hd
    rcases tenant_move p ho.proper .step hd with ⟨d₀, hd₀, hk, _, hhome, _⟩ | ⟨hnew, _⟩
    · have hold := (ho.proper d₀ hd₀).1
      have hbounded := (housed_after p first).bounded d₀ hd₀
      exact ⟨fun he => by rw [hk, he] at hold; omega, fun he => by rw [hhome, he] at hbounded; omega⟩
    · obtain ⟨current, x, hx, rfl⟩ := arrival_move p ho.proper .step hd hnew
      obtain ⟨x', hx', hnested⟩ := h.unnested
      cases hx.symm.trans hx'
      refine ⟨fun _ k hk => ?_, fun _ => ?_⟩
      · rw [Arrival.owner_driver, Arrival.owner, hnested] at hk
        cases hk
      · rw [Arrival.key_driver, ← hkey]
  | append_singleton rest m ih =>
    intro d hd
    have ho := orderly_after p (first ++ [.step] ++ rest)
    have hold : key.val ≤ (after p {} (first ++ [.step] ++ rest)).lastKey := by
      rw [after_append, after_snoc]
      exact (h.allotted p (orderly_after p first)).1.trans (lastKey_le_after p (orderly_move p (orderly_after p first) _).proper rest)
    rw [← List.append_assoc, after_snoc] at hd
    rcases tenant_move p ho.proper m hd with ⟨d₀, hd₀, hk, howner, hhome, _⟩ | ⟨hnew, hin⟩
    · obtain ⟨hroot, halone⟩ := ih d₀ hd₀
      rw [← hk, ← hhome]
      refine ⟨fun he k => ?_, halone⟩
      rw [← howner]
      exact hroot he k
    · have hne : d.key ≠ key := fun he => by rw [he] at hnew; omega
      refine ⟨fun he => absurd he hne, fun he => ?_⟩
      cases hin with
      | root _ hhome => exact hhome.symm.trans he
      | @nested o ho' howner hhome =>
        have hokey := (ih o ho').2 (hhome.symm.trans he)
        obtain ⟨current, x, hx, rfl⟩ := arrival_move p ho.proper m hd hnew
        have hcurrent := parent_ne_of_arrival p (List.prefix_append ..) h hidles hx
        rw [Arrival.owner_driver, Arrival.owner, hokey] at howner
        split at howner
        · cases current with
          | none => cases howner
          | some k => exact absurd (congrArg some (Owner.driver.inj howner)) hcurrent
        · cases howner

/-- So it goes away before its end only when it is dropped. -/
theorem dropped_of_goesAway {fu : Fu} (hle : first ++ [.step] <+: moves)
    (h : Enters (after p {} first) parent b (.pending fu) key t) (hidles : Idles p r (p.work fu))
    {d : Driver Co Fu} (hd : d ∈ (after p {} moves).drivers) (hk : d.key = key) {m : Move Co Fu}
    (hgoes : GoesAway (after p {} moves) d m) : m = .drop key := by
  have halone := alone_after p hle h hidles
  have hroot := (halone d hd).1 hk
  cases hgoes with
  | dropped => rw [hk]
  | nested h => exact absurd hroot h
  | @panics pollers x hfocus hx hhome =>
    exfalso
    have hxkey : x.key = key := (halone x (mem_of_driver? hx)).2 <| by
      rw [← hhome, (housed_after p moves).root d hd hroot, hk]
    have hloiters := loitering_after p hle h hidles x (mem_of_driver? hx) hxkey
    rw [seat_of_works hfocus rfl] at hloiters
    cases hloiters with
    | idles h => cases h

/-- and so is any outcome, if the task is not terminated and its driver not dropped. -/
theorem outcome_of_undropped_idle {fu : Fu} (hle : first ++ [.step] <+: moves)
    (h : Enters (after p {} first) parent b (.pending fu) key t) (hidles : Idles p r (p.work fu))
    (hterminated : ¬ Terminated p moves t) (hdropped : ∀ before, ¬ before ++ [.drop key] <+: moves) {o : Outcome}
    (ho : (after p {} moves).outcome? t = some o) : o = r.map Output.wire := by
  obtain ⟨before, m, a, hbefore, hnone, ha, hs, hid, rfl⟩ := attempt_of_settled p ho
  have hto := (List.prefix_append before [m]).trans hbefore
  cases a with
  | outcome duty o =>
    obtain ⟨rfl, hfinishing⟩ := finishing_of_attempt p hle h hto ha hs hid
    exact eq_of_finishing_idle p hle h hidles hbefore hfinishing
  | terminate s id =>
    cases hs
    cases hid
    exact absurd ⟨before, m, hbefore, hnone, ha⟩ hterminated
  | abandon duty =>
    exfalso
    rcases cases_of_attempt p ha (by simp [Attempt.duty?]) with ⟨_, _, _, _, _, _, he⟩ | ⟨d, hd, he, hgoes⟩
    · cases he
    · cases he
      have hproper := (orderly_after p before).proper d hd
      have hk := h.key_of_task p hle hto hd hs (hproper.2.guard.symm.trans hid)
      have hentered := h.before p hle hto (hk ▸ hproper.1)
      cases dropped_of_goesAway p hentered h hidles hd hk hgoes
      exact hdropped before hbefore

end

/-! ## A call of work that idles -/

section

variable {p : Program Co Fu} {moves : List (Move Co Fu)} {key : DriverKey} {target : Target}
  {args : List Json} {past rest : List (TaskEvent Co)} {r r' : Resume} {l : EventLoop Co Fu}
  {d : Driver Co Fu} {doing : Doing Co Fu} {job : Job Co} {seat : Seat Co Fu}

/-- A coroutine that waits for an answer drives: its driver does not end with the answer. -/
theorem not_answer_of_event (hjob : d.job ≠ .plain) (hevent : (Doing.answer r {} : Doing Co Fu).event? d = none) :
    False := by
  cases hd : d.job with
  | plain => exact hjob hd
  | coroutine _ _ _ => simp [Doing.event?, hd] at hevent

/-- The seats of a driver whose coroutine has called a target that gives nothing but work that idles. -/
inductive CallsIdle (p : Program Co Fu) (target : Target) (args : List Json) (r : Resume) : Seat Co Fu → Prop
  | invokes {a : Act Co Fu (Invoked Co Fu)}
      (h : ∀ work, a.Gives p work → (p.invoke target args).Gives p work) :
      CallsIdle p target args r (.working (.invoke .call target a {}))
  | idles {seat : Seat Co Fu} (h : Idling p r [.call] seat) : CallsIdle p target args r seat
  | answers : CallsIdle p target args r (.working (.answer r.wired {}))
  | crashes : CallsIdle p target args r (.working .crash)

/-- A target gives nothing but work that idles. -/
def GivesIdle (p : Program Co Fu) (target : Target) (args : List Json) (r : Resume) : Prop :=
  ∀ work, (p.invoke target args).Gives p work → ∃ fu, work = .pending fu ∧ Idles p r (p.work fu)

theorem callsIdle_stride (hgives : GivesIdle p target args r) (h : CallsIdle p target args r (.working doing))
    (hs : Stride p l d doing job seat) (hjob : d.job ≠ .plain) (hevent : doing.event? d = none) :
    CallsIdle p target args r seat := by
  cases h with
  | invokes h =>
    cases hs with
    | invokes _ _ _ _ => exact .invokes fun work hw => h work (gives_of_perform l _ hw)
    | invokePanics _ _ _ => exact .crashes
    | calledPending _ _ fu _ =>
      obtain ⟨_, he, hidles⟩ := hgives _ (h _ (.ret _))
      cases he
      exact .idles (.works hidles)
    | calledCoroutine _ _ co _ =>
      obtain ⟨_, he, _⟩ := hgives _ (h _ (.ret _))
      cases he
  | crashes => cases hs
  | answers => exact (not_answer_of_event hjob hevent).elim
  | idles h =>
    by_cases hover : doing = .answer r ⟨[.call], []⟩
    · subst hover
      cases hs with
      | answersCall _ _ _ => exact .answers
    · exact .idles (idling_stride h hs hover)

theorem stays_callsIdle (hgives : GivesIdle p target args r) {hist : List (TaskEvent Co)} (hne : hist ≠ []) :
    Stays p key hist fun _ => CallsIdle p target args r where
  later := fun _ _ _ h => h
  busy := fun _ => .idles .busy
  fresh := by
    intro moves h
    cases h with
    | idles h => cases h
  pending := by
    intro moves branch h
    cases h with
    | idles h =>
      cases h with
      | rests h => exact .idles (.visits h)
  back := by
    intro moves m polled spot outcome pollers doing h
    cases h with
    | idles h => cases h
  bodyBack := by
    intro moves polled k outcome h
    cases h with
    | idles h => cases h
  stride := by
    intro moves d pollers doing job seat hk hd hhist _ h hevent hs
    have hjob : d.job ≠ .plain := job_of_history hd (by rwa [hk, hhist])
    exact callsIdle_stride hgives h hs hjob hevent

/-- What a driver begins with when a call is given to the built-in processor. -/
theorem invoke_of_given
    (hevent : doing.event? d = some (.given (.builtin .call) (.call target args)))
    (hs : Stride p l d doing job seat) : seat = .working (.invoke .call target (p.invoke target args) {}) := by
  cases process_of_given hevent
  cases hs with
  | processes _ _ _ => rfl

theorem callsIdle_after (hgives : GivesIdle p target args r)
    (h : history p moves key = past ++ [.given (.builtin .call) (.call target args)]) :
    ∀ d ∈ (after p {} moves).drivers, d.key = key → CallsIdle p target args r ((after p {} moves).seat d) := by
  refine stays_since (stays_callsIdle hgives (by simp)) h rfl ?_
  intro first d pollers doing job seat _ _ _ hevent hs
  rw [invoke_of_given hevent hs]
  exact .invokes fun _ hw => hw

/-- **A call of work that idles is answered with what it comes to.** -/
theorem resolved_of_idle (hgives : GivesIdle p target args r) (h : history p moves key =
      past ++ .given (.builtin .call) (.call target args) :: .resolved r' :: rest) : r' = r.wired := by
  rw [List.append_cons] at h
  obtain ⟨first, pollers, d, doing, _, hpast, rfl, hfocus, hd, hevent⟩ := exists_step_of_event p h rfl
  cases answer_of_resolved hevent
  have hseat := callsIdle_after hgives hpast d (mem_of_driver? hd) rfl
  rw [seat_of_works hfocus rfl] at hseat
  cases hseat with
  | answers => rfl
  | idles h => cases h

/-! ## A call of a coroutine -/

/-- The driver `n` was entered in the run for a coroutine that the target has given, when `hist` was all
that had happened to the caller. -/
def Called (p : Program Co Fu) (moves : List (Move Co Fu)) (key : DriverKey) (hist : List (TaskEvent Co))
    (target : Target) (args : List Json) (n : DriverKey) : Prop :=
  ∃ first co t, first ++ [.step] <+: moves ∧ history p first key = hist ∧
    Enters (after p {} first) key .call (.coroutine co) n t ∧ (p.invoke target args).Gives p (.coroutine co)

/-- The driver `n` was left in the run with this outcome. -/
def Over (p : Program Co Fu) (moves : List (Move Co Fu)) (n : DriverKey) (o : Outcome) : Prop :=
  ∃ first pollers, first <+: moves ∧ (after p {} first).focus = .active pollers n (.leave (some o))

theorem Called.mono {moves' : List (Move Co Fu)} {hist : List (TaskEvent Co)} {n : DriverKey}
    (h : Called p moves key hist target args n) (hle : moves <+: moves') :
    Called p moves' key hist target args n := by
  obtain ⟨first, co, t, hfirst, h⟩ := h
  exact ⟨first, co, t, hfirst.trans hle, h⟩

theorem Over.mono {moves' : List (Move Co Fu)} {n : DriverKey} {o : Outcome} (h : Over p moves n o)
    (hle : moves <+: moves') : Over p moves' n o := by
  obtain ⟨first, pollers, hfirst, h⟩ := h
  exact ⟨first, pollers, hfirst.trans hle, h⟩

/-- The seats of a driver that has entered the driver `n` for a call, and polls it until it is left. -/
inductive Awaits (n : DriverKey) (left : Outcome → Prop) : Seat Co Fu → Prop
  | awaits : Awaits n left (.working (.await (.nested n) ⟨[.call], []⟩))
  | polls : Awaits n left (.polling n ⟨[.call], []⟩)
  | pauses : Awaits n left (.working (.pause (.waiting (.nested n) [.call]) []))
  | rests : Awaits n left (.resting (.pending (.waiting (.nested n) [.call])))
  | visits : Awaits n left (.working (.visit (.waiting (.nested n) [.call]) []))
  | returns {o : Outcome} (h : left o) : Awaits n left (.working (.answer (o.map .value) ⟨[.call], []⟩))
  | answers {o : Outcome} (h : left o) : Awaits n left (.working (.answer (o.map .value) {}))
  | busy : Awaits n left (.resting .busy)

theorem Awaits.mono {n : DriverKey} {left left' : Outcome → Prop} (h : Awaits n left seat)
    (hleft : ∀ o, left o → left' o) : Awaits n left' seat := by
  cases h with
  | awaits => exact .awaits
  | polls => exact .polls
  | pauses => exact .pauses
  | rests => exact .rests
  | visits => exact .visits
  | returns h => exact .returns (hleft _ h)
  | answers h => exact .answers (hleft _ h)
  | busy => exact .busy

theorem awaits_stride {n : DriverKey} {left : Outcome → Prop} (h : Awaits n left (.working doing))
    (hs : Stride p l d doing job seat) (hjob : d.job ≠ .plain) (hevent : doing.event? d = none) :
    Awaits n left seat := by
  cases h with
  | awaits =>
    cases hs with
    | awaitsNested _ _ => exact .polls
    | awaitsReady _ hpeek => cases hpeek
    | awaits _ _ => exact .pauses
  | pauses =>
    cases hs with
    | rests _ => exact .rests
  | visits =>
    cases hs with
    | visitsNested _ _ _ => exact .polls
    | visitsReady _ _ hpeek => cases hpeek
    | visitsWaiting _ _ _ _ => exact .pauses
  | @returns o h =>
    cases hs with
    | answersCall _ _ _ =>
      have hseat : Awaits n left (.working (.answer (o.map .value) {}) : Seat Co Fu) := .answers h
      rwa [← Resume.wired_map_value o] at hseat
  | answers _ => exact (not_answer_of_event hjob hevent).elim

theorem stays_awaiting (n : DriverKey) {hist : List (TaskEvent Co)} (hne : hist ≠ []) :
    Stays p key hist fun moves => Awaits n (Over p moves n) where
  later := fun moves m _ h => h.mono fun _ hn => hn.mono (List.prefix_append ..)
  busy := fun _ => .busy
  fresh := by
    intro moves h
    cases h
  pending := by
    intro moves branch h
    cases h with
    | rests => exact .visits
  back := by
    intro moves m polled spot outcome pollers doing h hfocus hleft
    cases h with
    | polls =>
      cases outcome with
      | none => exact .pauses
      | some o =>
        obtain rfl | ⟨hnone, _⟩ := hleft
        · exact .returns ⟨moves, _, List.prefix_append .., hfocus⟩
        · cases hnone
  bodyBack := by
    intro moves polled k outcome h
    cases h
  stride := by
    intro moves d pollers doing job seat hk hd hhist _ h hevent hs
    have hjob : d.job ≠ .plain := job_of_history hd (by rwa [hk, hhist])
    exact awaits_stride (h.mono fun _ hn => hn.mono (List.prefix_append ..)) hs hjob hevent

/-- The seats of a driver whose coroutine has called a target that gives nothing but coroutines, if `called`
are the drivers that were entered for them. -/
inductive CallsCoroutine (p : Program Co Fu) (moves : List (Move Co Fu)) (target : Target) (args : List Json)
    (called : DriverKey → Prop) : Seat Co Fu → Prop
  | invokes {a : Act Co Fu (Invoked Co Fu)}
      (h : ∀ work, a.Gives p work → (p.invoke target args).Gives p work) :
      CallsCoroutine p moves target args called (.working (.invoke .call target a {}))
  | awaits {n : DriverKey} {seat : Seat Co Fu} (hn : called n) (h : Awaits n (Over p moves n) seat) :
      CallsCoroutine p moves target args called seat
  | crashes : CallsCoroutine p moves target args called (.working .crash)
  | busy : CallsCoroutine p moves target args called (.resting .busy)

/-- A target gives nothing but coroutines. -/
def GivesCoroutine (p : Program Co Fu) (target : Target) (args : List Json) : Prop :=
  ∀ work, (p.invoke target args).Gives p work → ∃ co, work = .coroutine co

theorem stays_callsCoroutine (hgives : GivesCoroutine p target args) {hist : List (TaskEvent Co)}
    (hne : hist ≠ []) : Stays p key hist fun moves =>
      CallsCoroutine p moves target args (Called p moves key hist target args) where
  later := by
    intro moves m seat h
    cases h with
    | invokes h => exact .invokes h
    | @awaits n _ hn h =>
      have hstays : Stays p key hist _ := stays_awaiting n hne
      exact .awaits (hn.mono (List.prefix_append ..)) (hstays.later moves m _ h)
    | crashes => exact .crashes
    | busy => exact .busy
  busy := fun _ => .busy
  fresh := by
    intro moves h
    cases h with
    | awaits _ h => cases h
  pending := by
    intro moves branch h
    cases h with
    | @awaits n _ hn h =>
      have hstays : Stays p key hist _ := stays_awaiting n hne
      exact .awaits hn (hstays.pending moves branch h)
  back := by
    intro moves m polled spot outcome pollers doing h hfocus hleft
    cases h with
    | awaits hn h =>
      exact .awaits (hn.mono (List.prefix_append ..))
        ((stays_awaiting _ hne).back moves m polled spot outcome pollers doing h hfocus hleft)
  bodyBack := by
    intro moves polled k outcome h
    cases h with
    | awaits _ h => cases h
  stride := by
    intro moves d pollers doing job seat hk hd hhist hfocus h hevent hs
    cases h with
    | invokes h =>
      cases hs with
      | invokes _ _ _ _ => exact .invokes fun work hw => h work (gives_of_perform _ _ hw)
      | invokePanics _ _ _ => exact .crashes
      | calledPending _ _ fu _ =>
        obtain ⟨_, he⟩ := hgives _ (h _ (.ret _))
        cases he
      | calledCoroutine _ _ co _ =>
        subst hk
        have henters : Enters (after p {} moves) d.key .call (.coroutine co)
            ⟨(after p {} moves).lastKey + 1⟩ _ :=
          .intro hfocus (driver?_of_mem (orderly_after p moves) hd) (.inr ⟨co, rfl⟩)
        exact .awaits ⟨moves, co, _, List.prefix_refl _, hhist, henters, h _ (.ret _)⟩ .awaits
    | awaits hn h =>
      exact .awaits (hn.mono (List.prefix_append ..))
        ((stays_awaiting _ hne).stride moves d pollers doing job seat hk hd hhist hfocus h hevent hs)
    | crashes => cases hs

theorem callsCoroutine_after (hgives : GivesCoroutine p target args)
    (h : history p moves key = past ++ [.given (.builtin .call) (.call target args)]) :
    ∀ d ∈ (after p {} moves).drivers, d.key = key → CallsCoroutine p moves target args
      (Called p moves key (past ++ [.given (.builtin .call) (.call target args)]) target args)
      ((after p {} moves).seat d) := by
  refine stays_since (stays_callsCoroutine hgives (by simp)) h rfl ?_
  intro first d pollers doing job seat _ _ _ hevent hs
  rw [invoke_of_given hevent hs]
  exact .invokes fun _ hw => hw

theorem over_of_answering {n : DriverKey} {left : Outcome → Prop}
    (h : Awaits n left (.working (.answer r {}) : Seat Co Fu)) : ∃ o, left o ∧ r = o.map .value := by
  generalize hdoing : (Doing.answer r {} : Doing Co Fu) = doing at h
  cases h with
  | answers h =>
    cases hdoing
    exact ⟨_, h, rfl⟩
  | _ => cases hdoing

/-- **A call of a coroutine is answered with the outcome of the driver that was entered for it**, which by
then was left with it. -/
theorem driven_of_resolved (hgives : GivesCoroutine p target args) (h : history p moves key =
      past ++ .given (.builtin .call) (.call target args) :: .resolved r :: rest) :
    ∃ first n o, first ++ [.step] <+: moves ∧
      history p first key = past ++ [.given (.builtin .call) (.call target args)] ∧
      Called p first key (past ++ [.given (.builtin .call) (.call target args)]) target args n ∧
      Over p first n o ∧ r = o.map .value := by
  rw [List.append_cons] at h
  obtain ⟨first, pollers, d, doing, hle, hpast, rfl, hfocus, hd, hevent⟩ := exists_step_of_event p h rfl
  cases answer_of_resolved hevent
  have hseat := callsCoroutine_after hgives hpast d (mem_of_driver? hd) rfl
  rw [seat_of_works hfocus rfl] at hseat
  cases hseat with
  | @awaits n _ hcalled h =>
    obtain ⟨o, hover, rfl⟩ := over_of_answering h
    exact ⟨first, n, o, hle, hpast, hcalled, hover, rfl⟩

/-- Who is entered while a call of a coroutine is processed is entered for it, -/
theorem invoking_of_enters (hgives : GivesCoroutine p target args) {b : Builtin} {work : Invoked Co Fu}
    {n : DriverKey} {t : TaskHandle}
    (h : history p moves key = past ++ [.given (.builtin .call) (.call target args)])
    (henters : Enters (after p {} moves) key b work n t) :
    ∃ pollers co, work = .coroutine co ∧ (p.invoke target args).Gives p (.coroutine co) ∧
      n = ⟨(after p {} moves).lastKey + 1⟩ ∧
      (after p {} moves).focus = .active pollers key (.invoke .call target (.ret (.coroutine co)) {}) := by
  obtain ⟨hfocus, hd, _⟩ := henters
  cases key_of_driver? hd
  have hseat := callsCoroutine_after hgives h _ (mem_of_driver? hd) rfl
  rw [seat_of_works hfocus rfl] at hseat
  cases hseat with
  | invokes hwork =>
    have hgiven := hwork work (.ret work)
    obtain ⟨co, rfl⟩ := hgives work hgiven
    exact ⟨_, co, rfl, hgiven, rfl, hfocus⟩
  | awaits _ hseat => cases hseat

/-- and is awaited right after that. -/
theorem awaits_of_enters (hgives : GivesCoroutine p target args) {b : Builtin} {work : Invoked Co Fu}
    {n : DriverKey} {t : TaskHandle} (left : Outcome → Prop)
    (h : history p moves key = past ++ [.given (.builtin .call) (.call target args)])
    (henters : Enters (after p {} moves) key b work n t) :
    history p (moves ++ [.step]) key = history p moves key ∧
    ∀ d ∈ (after p {} (moves ++ [.step])).drivers, d.key = key →
      Awaits n left ((after p {} (moves ++ [.step])).seat d) := by
  have ho := orderly_after p moves
  obtain ⟨pollers, co, rfl, _, rfl, hfocus⟩ := invoking_of_enters hgives h henters
  obtain ⟨_, hd₀, _⟩ := henters
  cases key_of_driver? hd₀
  refine ⟨?_, fun d hd hk => ?_⟩
  · rw [history_step p hfocus hd₀]
    simp [Doing.event?]
  · rw [after_snoc, move_step_of_driver p hfocus hd₀ (not_leave_of_works rfl)] at hd ⊢
    have hs := stride_stepDriver p ho (mem_of_driver? hd₀) hfocus rfl hd hk
    generalize d.job = job at hs
    generalize EventLoop.seat _ d = seat at hs ⊢
    cases hs with
    | invokes _ _ ha _ => cases ha
    | calledCoroutine _ _ _ _ => exact .awaits

/-- **For one call one driver is entered.** -/
theorem called_once (hgives : GivesCoroutine p target args) {first first' : List (Move Co Fu)}
    (hle : first ++ [.step] <+: moves) (hle' : first' ++ [.step] <+: moves)
    (h : history p first key = past ++ [.given (.builtin .call) (.call target args)])
    (h' : history p first' key = past ++ [.given (.builtin .call) (.call target args)]) {b b' : Builtin}
    {work work' : Invoked Co Fu} {n n' : DriverKey} {t t' : TaskHandle}
    (henters : Enters (after p {} first) key b work n t)
    (henters' : Enters (after p {} first') key b' work' n' t') : first = first' := by
  -- whoever comes first waits for its callee from then on, and does not come to enter another
  have honce : ∀ {first first' : List (Move Co Fu)} {b b' : Builtin} {work work' : Invoked Co Fu}
      {n n' : DriverKey} {t t' : TaskHandle}, first ++ [.step] <+: first' →
      history p first key = past ++ [.given (.builtin .call) (.call target args)] →
      history p first' key = past ++ [.given (.builtin .call) (.call target args)] →
      Enters (after p {} first) key b work n t → ¬ Enters (after p {} first') key b' work' n' t' := by
    intro first first' b b' work work' n n' t t' hle h h' henters henters'
    obtain ⟨hsame, hbase⟩ := awaits_of_enters hgives (Over p (first ++ [.step]) n) h henters
    have hnow := hsame.trans h
    have hawaits := stays_after (stays_awaiting n (by simp)) hle (old_of_history p (by simp [hnow])) hnow h' hbase
    obtain ⟨_, _, rfl, _, _, hfocus⟩ := invoking_of_enters hgives h' henters'
    obtain ⟨_, hd, _⟩ := henters'
    have hseat := hawaits _ (mem_of_driver? hd) (key_of_driver? hd)
    cases key_of_driver? hd
    rw [seat_of_works hfocus rfl] at hseat
    cases hseat
  exact eq_of_neither_before hle hle' (fun hbefore => honce hbefore h h' henters henters')
    fun hbefore => honce hbefore h' h henters' henters

end

/-! ## Drivers that are left -/

section

variable (p : Program Co Fu) {first moves : List (Move Co Fu)} {parent n : DriverKey} {b : Builtin} {co : Co}
  {t : TaskHandle} {o : Outcome}

/-- A coroutine that is entered becomes a task. -/
theorem entered_of_arrival {m : Move Co Fu} {current : Option DriverKey} {x : Arrival Co Fu}
    (hx : (after p {} first).arrival? m = some (current, x)) (hwork : x.work = .coroutine co) :
    history p (first ++ [m]) (x.driver p (after p {} first) current).key = [.entered x.scheduler co] := by
  have ho := orderly_after p first
  have hd : x.driver p (after p {} first) current ∈ ((after p {} first).move p m).drivers := by
    rw [(drivers_move_of_arrival p hx).1]
    exact List.mem_append_right _ List.mem_cons_self
  have hnew : (after p {} first).lastKey < (x.driver p (after p {} first) current).key.val := Nat.lt_succ_self _
  have hacting : eventsOf (x.driver p (after p {} first) current).key ((after p {} first).acting m) = [] := by
    rcases eventsOf_acting (after p {} first) m (x.driver p (after p {} first) current).key with
      hnone | ⟨_, d, _, _, _, _, hd, hk, _, _⟩
    · exact hnone
    · have hold := (ho.proper d (mem_of_driver? hd)).1
      rw [hk] at hold
      exact absurd hold (Nat.not_succ_le_self _)
  have hentry : Driver.entry? (x.driver p (after p {} first) current) = some (.entered x.scheduler co) := by
    unfold Driver.entry?
    rw [Arrival.job_driver, Arrival.job, hwork]
    rfl
  rw [history_snoc, history_eq_nil p first hnew, happenings, eventsOf_append, hacting,
    eventsOf_newcomers_of_mem (orderly_move p ho m) hd hnew, hentry]
  rfl

/-- The coroutine of a driver that was entered for it becomes a task. -/
theorem entered_of_enters (h : Enters (after p {} first) parent b (.coroutine co) n t) :
    history p (first ++ [.step]) n = [.entered t.scheduler co] := by
  obtain ⟨x, hx, hwork, rfl, rfl⟩ := h.arrival p
  exact entered_of_arrival p hx hwork

/-- The coroutine of a driver that comes to its end has come to its end. -/
theorem ended_of_finish {pollers : List (Poller Co Fu)} {d : Driver Co Fu}
    (h : Acts (after p {} moves) pollers d (.finish o)) (hne : history p moves d.key ≠ []) :
    .ended o ∈ history p (moves ++ [.step]) d.key := by
  rw [history_step p h.focus h.driver]
  cases hd : d.job with
  | plain => exact absurd hd (job_of_history (mem_of_driver? h.driver) hne)
  | coroutine _ _ _ => simp [Doing.event?, hd]

/-- The coroutine of a driver that was entered for it has come to its end when the driver has. -/
theorem ended_of_finishing (hle : first ++ [.step] <+: moves)
    (henters : Enters (after p {} first) parent b (.coroutine co) n t) {before : List (Move Co Fu)}
    (hbefore : before ++ [.step] <+: moves) (h : Finishing (after p {} before) n o) :
    .ended o ∈ history p moves n := by
  obtain ⟨pollers, d, hfocus, hd⟩ := h
  cases key_of_driver? hd
  have hentered := henters.before p hle ((List.prefix_append ..).trans hbefore)
    ((orderly_after p before).proper d (mem_of_driver? hd)).1
  have hne : history p before d.key ≠ [] := history_ne_of_event p hentered (entered_of_enters p henters)
  exact ( history_prefix p hbefore d.key).subset (ended_of_finish p ⟨hfocus, hd⟩ hne)

/-- **Who was left with an outcome has come to its end**: with that very outcome, if that is a result or
the task was not terminated. -/
theorem ended_of_over (hle : first ++ [.step] <+: moves)
    (henters : Enters (after p {} first) parent b (.coroutine co) n t) (h : Over p moves n o) :
    ∃ own, .ended own ∈ history p moves n ∧ (∀ v, o = .ok v → own = o) ∧ (¬ Terminated p moves t → own = o) := by
  obtain ⟨upto, pollers, hupto, hfocus⟩ := h
  obtain ⟨before, d, own, hbefore, hfinish, hd, ho⟩ := outcome_of_over p hfocus
  have hmem := mem_of_driver? hd
  cases key_of_driver? hd
  have hto := ((List.prefix_append ..).trans hbefore).trans hupto
  have hentered := henters.before p hle hto ((orderly_after p before).proper d hmem).1
  have htask := henters.task_eq p hle hto hmem rfl
  have hended := ( history_prefix p hupto d.key).subset
    (ended_of_finishing p (hentered.trans ((List.prefix_append ..).trans hbefore)) henters hbefore ⟨_, d, hfinish, hd⟩)
  have hsettled : (after p {} moves).outcome? d.task = some o := by
    obtain ⟨rest, rfl⟩ := hupto
    exact outcome_after p ho rest
  refine ⟨own, hended, ?_, fun hterminated => ?_⟩
  all_goals rcases outcome_of_ended p hended hto hmem rfl with hown | ⟨hlost, hwhy⟩
  · rintro v rfl
    exact Option.some.inj (hown.symm.trans hsettled)
  · rintro v rfl
    cases hlost.symm.trans hsettled
  · exact Option.some.inj (hown.symm.trans hsettled)
  · exact absurd (htask ▸ hwhy) hterminated

end

end EventLoop

end EffectLoop
