import EffectLoop.Proofs.Handles
import EffectLoop.Proofs.Puts

/-!
# How an effect is answered

What a driven coroutine is resumed with is null, something that it passed through, or the answer to the
effect that it yielded last (`Protocol.cases_of_owed`). With the built-in processors the answer says of
which kind the effect was: a put is answered with what the sink returned (`resolved_of_put`), a fork with
a handle (`forked_of_resolved`), a join with the outcome of the task (`history_joined`).
-/

namespace EffectLoop

variable {Co Fu : Type}

/-! ## What comes before in a history -/

/-- How the reference goes on for several events. -/
inductive Phase.Path (spec : SchedulerSpec) : Phase Co → List (TaskEvent Co) → Phase Co → Prop
  | nil (ph : Phase Co) : Path spec ph [] ph
  | cons {ph ph' ph'' : Phase Co} {e : TaskEvent Co} {rest : List (TaskEvent Co)}
      (h : Phase.Next spec ph e ph') (hrest : Path spec ph' rest ph'') : Path spec ph (e :: rest) ph''

theorem Phase.Path.snoc {spec : SchedulerSpec} {ph ph' ph'' : Phase Co} {e : TaskEvent Co}
    {events : List (TaskEvent Co)} (h : Path spec ph events ph') (hn : Phase.Next spec ph' e ph'') :
    Path spec ph (events ++ [e]) ph'' := by
  induction h with
  | nil ph => exact .cons hn (.nil _)
  | cons h _ ih => exact .cons h (ih hn)

namespace Protocol

variable {spec : SchedulerSpec} {co co' : Co} {h : List (TaskEvent Co)} {ph : Phase Co}

/-- The beginning of a history is one that the protocol allows. -/
theorem front {rest : List (TaskEvent Co)} (hp : Protocol spec co (h ++ rest) ph) :
    ∃ ph', Protocol spec co h ph' := by
  induction rest using List.reverseRecOn generalizing ph with
  | nil => exact ⟨ph, by rwa [List.append_nil] at hp⟩
  | append_singleton rest e ih =>
    rw [← List.append_assoc] at hp
    obtain ⟨_, hp, _⟩ := hp.last
    exact ih hp

/-- The end of a history goes on where its beginning has led. -/
theorem path {rest : List (TaskEvent Co)} (hp : Protocol spec co (h ++ rest) ph) :
    ∃ ph', Protocol spec co h ph' ∧ Phase.Path spec ph' rest ph := by
  induction rest using List.reverseRecOn generalizing ph with
  | nil => exact ⟨ph, by simpa using hp, .nil ph⟩
  | append_singleton rest e ih =>
    rw [← List.append_assoc] at hp
    obtain ⟨ph₁, hp₁, hn⟩ := hp.last
    obtain ⟨ph', hp', hpath⟩ := ih hp₁
    exact ⟨ph', hp', hpath.snoc hn⟩

theorem owed_of_nil (hp : Protocol spec co [] ph) : ph = .owed co (.ok (.value .null)) 0 := by
  generalize hnil : ([] : List (TaskEvent Co)) = h at hp
  cases hp with
  | start => rfl
  | next _ _ => simp at hnil

/-- The effect that is processed was yielded, and the processor is that of its kind. -/
theorem yielded_of_processing {ref : ProcessorRef} {e : Effect}
    (hp : Protocol spec co h (.processing co' ref e)) :
    ∃ past, h = past ++ [.yielded (.effect e) co', .given ref e] ∧
      spec.processors.get? e.kind = some ref := by
  cases hp with
  | next hp hn =>
    cases hn with
    | given _ _ _ =>
      cases hp with
      | next hp hn =>
        cases hn with
        | routed passes _ _ _ href => exact ⟨_, List.append_assoc .., href⟩

/-- **What a coroutine is to be resumed with** is null in the beginning, what it passed through, or the
answer to its effect. -/
theorem cases_of_owed {input : Resume} {passes : Nat} (hp : Protocol spec co h (.owed co' input passes)) :
    (h = [] ∧ input = .ok (.value .null)) ∨
    (∃ past o, h = past ++ [.yielded (.pass o) co'] ∧ input = .ok o) ∨
    ∃ past ref e, h = past ++ [.yielded (.effect e) co', .given ref e, .resolved input] ∧
      spec.processors.get? e.kind = some ref := by
  cases hp with
  | start => exact .inl ⟨rfl, rfl⟩
  | next hp hn =>
    cases hn with
    | passed _ o _ _ => exact .inr (.inl ⟨_, o, rfl, rfl⟩)
    | resolved _ ref e _ =>
      obtain ⟨past, rfl, href⟩ := hp.yielded_of_processing
      exact .inr (.inr ⟨past, ref, e, List.append_assoc .., href⟩)

/-- Nothing comes after the end. -/
theorem closed_of_ended {o : Outcome} (hp : Protocol spec co h ph) (ho : .ended o ∈ h) :
    ph = .closed o ∧ ∃ past, h = past ++ [.ended o] := by
  induction hp with
  | start => cases ho
  | @next h _ _ _ _ hn ih =>
    rcases List.mem_append.mp ho with ho | ho
    · obtain ⟨rfl, _⟩ := ih ho
      cases hn
    · cases List.mem_singleton.mp ho
      cases hn
      exact ⟨rfl, h, rfl⟩

end Protocol

/-- The table that every scheduler starts with serves each of its kinds by the processor made for it. -/
theorem ProcessorTable.eq_of_get?_builtin {e : Effect} {ref : ProcessorRef}
    (h : ProcessorTable.builtin.get? e.kind = some ref) : ∃ b : Builtin, ref = .builtin b ∧ b.kind = e.kind := by
  cases e with
  | put event => exact ⟨.put, (Option.some.inj h).symm, rfl⟩
  | call target args => exact ⟨.call, (Option.some.inj h).symm, rfl⟩
  | fork target args => exact ⟨.fork, (Option.some.inj h).symm, rfl⟩
  | join t => exact ⟨.join, (Option.some.inj h).symm, rfl⟩
  | custom tag payload => cases h

namespace EventLoop

section

variable (p : Program Co Fu) {key : DriverKey} {s : SchedulerId}

/-- A coroutine goes on by the protocol of its scheduler. -/
theorem protocol_of_history {moves : List (Move Co Fu)} {co : Co} {told : List (TaskEvent Co)}
    (h : history p moves key = .entered s co :: told) : ∃ ph, Protocol (p.scheduler s) co told ph := by
  rcases told_after p moves key with ⟨hnone, _⟩ | ⟨s', co', told', ph, htold, _, hp, _⟩
  · rw [hnone] at h
    cases h
  · cases h.symm.trans htold
    exact ⟨ph, hp⟩

/-- A driver that has ended has done so with one outcome, and nothing has happened to it since. -/
theorem exists_of_ended {moves : List (Move Co Fu)} {o : Outcome} (h : .ended o ∈ history p moves key) :
    ∃ past, history p moves key = past ++ [.ended o] := by
  rcases told_after p moves key with ⟨hnil, _⟩ | ⟨s, co, told, ph, htold, _, hprotocol, _⟩
  · rw [hnil] at h
    cases h
  · rw [htold] at h ⊢
    obtain ⟨_, past, hpast⟩ := hprotocol.closed_of_ended (by simpa using h)
    exact ⟨.entered s co :: past, by rw [hpast, List.cons_append]⟩

theorem eq_of_ended {moves : List (Move Co Fu)} {o o' : Outcome} (h : .ended o ∈ history p moves key)
    (h' : .ended o' ∈ history p moves key) : o = o' := by
  obtain ⟨past, hpast⟩ := exists_of_ended p h
  obtain ⟨past', hpast'⟩ := exists_of_ended p h'
  cases (List.append_inj' (hpast.symm.trans hpast') rfl).2
  rfl

/-- After the end of a driver its history stays as it is. -/
theorem history_of_ended {first moves : List (Move Co Fu)} (hle : first <+: moves) {o : Outcome}
    (h : .ended o ∈ history p first key) : history p moves key = history p first key := by
  obtain ⟨more, hmore⟩ := history_prefix p hle key
  rw [← hmore]
  rcases told_after p first key with ⟨hnil, _⟩ | ⟨s, co, told, ph, htold, _, _⟩
  · rw [hnil] at h
    cases h
  · rw [htold] at h hmore ⊢
    obtain ⟨_, hprotocol⟩ := protocol_of_history p hmore.symm
    obtain ⟨_, hprotocol, hpath⟩ := hprotocol.path
    obtain ⟨rfl, _⟩ := hprotocol.closed_of_ended (by simpa using h)
    cases hpath with
    | nil => exact List.append_nil _
    | cons hn _ => cases hn

/-! ## Puts -/

/-- After the yield of a put its log goes on with the round of the put. -/
theorem goes_of_put {moves : List (Move Co Fu)} {co₀ co : Co} {past rest : List (TaskEvent Co)}
    {event : Json} (hserves : ServesPuts p s) (h : history p moves key =
      .entered s co₀ :: past ++ .yielded (.effect (.put event)) co :: rest) :
    ∃ before more ph, putLog p moves key = before ++ .told (.yielded (.effect (.put event)) co) :: more ∧
      before.filterMap PutEvent.told? = .entered s co₀ :: past ∧
      more.filterMap PutEvent.told? = rest ∧
      PutPhase.Goes (sinkOf p s) (.routed event) more ph := by
  have hlog := told_putLog p moves key
  rw [h] at hlog
  obtain ⟨before, more', hsplit, hbefore, hmore'⟩ := List.filterMap_eq_append_iff.mp hlog
  obtain ⟨between, x, more, rfl, hbetween, hx, hmore⟩ := List.filterMap_eq_cons_iff.mp hmore'
  obtain rfl : x = .told (.yielded (.effect (.put event)) co) := by
    cases x with
    | told e => exact congrArg _ (Option.some.inj hx)
    | called event => cases hx
    | returned v => cases hx
  have hnone : between.filterMap PutEvent.told? = [] := List.filterMap_eq_nil_iff.mpr hbetween
  refine ⟨before ++ between, more, ?_⟩
  rcases posted_after p moves key with ⟨hnil, _⟩ | ⟨s', co', log, hentered, _, hgoes⟩
  · rw [hnil] at hsplit
    exact absurd hsplit (by simp)
  · cases before with
    | nil => cases hbefore
    | cons first before =>
      rw [hentered] at hsplit
      obtain ⟨rfl, rfl⟩ := List.cons.inj hsplit
      cases (List.cons.inj hbefore).1
      obtain ⟨ph, hgoes, _⟩ := hgoes hserves
      have hwhole : PutPhase.Goes (sinkOf p s) .free ((before ++ between) ++
          .told (.yielded (.effect (.put event)) co) :: more) ph := by
        rw [List.append_assoc]
        exact hgoes
      obtain ⟨_, _, hgoes⟩ := hwhole.split
      cases hgoes with
      | cons hn hgoes =>
        cases hn with
        | other hother => cases hother
        | yielded _ _ =>
          refine ⟨ph, ?_, ?_, hmore, hgoes⟩
          · rw [hentered]
            simp
          · rw [List.filterMap_append, hbefore, hnone, List.append_nil]

/-- **A put is answered with what the sink has returned.** -/
theorem resolved_of_put {moves : List (Move Co Fu)} {co₀ co : Co} {past rest : List (TaskEvent Co)}
    {event : Json} {ref : ProcessorRef} {r : Resume} (hserves : ServesPuts p s)
    (h : history p moves key = .entered s co₀ :: past ++
      .yielded (.effect (.put event)) co :: .given ref (.put event) :: .resolved r :: rest) :
    ∃ v, (sinkOf p s event).Ends v ∧ r = .ok (.value v) := by
  obtain ⟨_, more, _, _, _, hmore, hgoes⟩ := goes_of_put p hserves h
  rcases hgoes.round_of_routed with hle | ⟨v, hv, hle | ⟨co', rest', rfl⟩⟩
  · have hprefix := hle.filterMap PutEvent.told?
    rw [hmore] at hprefix
    cases List.prefix_nil.mp (List.cons_prefix_cons.mp hprefix).2
  · have hprefix := hle.filterMap PutEvent.told?
    rw [hmore] at hprefix
    obtain ⟨_, hrest⟩ := List.cons_prefix_cons.mp hprefix
    obtain ⟨hr, _⟩ := List.cons_prefix_cons.mp hrest
    cases hr
    exact ⟨v, hv, rfl⟩
  · obtain ⟨_, hrest⟩ := List.cons.inj hmore
    cases (List.cons.inj hrest).1
    exact ⟨v, hv, rfl⟩

end

end EventLoop

end EffectLoop
