import EffectLoop.Proofs.Checkout
import EffectLoop.Proofs.Plans

/-!
# A payment, answer by answer

The coroutine of a payment is taken by itself: it may have any arguments, and each resume may give it any value,
any handle or any error. `paymentPlan` lists its effects: what follows the validation depends on whether its
answer approves the card (`Approved`). `charges_only_approved` says that a card is charged after that alone, once,
and by the amount that was asked for.
-/

namespace EffectLoop.Order

open EventLoop

/-! ## Approval -/

/-- The answer of the validation approves the card. -/
def Approved (answer : Json) : Prop :=
  answer.isObject = true ∧ answer.member? "status" = some (.str "success")

theorem status_eq_success_iff (answer : Json) :
    (answer.field "status" == .str "success") = true ↔ Approved answer := by
  have hbeq : ∀ v : Json, (v == .str "success") = true ↔ v = .str "success" := by
    intro v
    cases v <;> simp [BEq.beq, Json.beq]
  rw [hbeq, Json.field, Approved]
  cases answer with
  | obj members => cases h : Json.member? (.obj members) "status" <;> simp [Json.isObject]
  | _ => simp [Json.member?, Json.isObject]

instance (answer : Json) : Decidable (Approved answer) :=
  decidable_of_iff _ (status_eq_success_iff answer)

/-! ## The plan -/

/-- The card is validated; if it is approved it is charged, and both are told. -/
def chargeEffects (services : Services) (args : List Json) (received : List Output) : List Effect :=
  .call (services.target .validateCard) [arg args 0] ::
    if Approved (valueAt received 0) then
      [.put cardValidation, .call (services.target .pay) [arg args 0, arg args 1], .put paymentCompletion]
    else []

def paymentPlan (services : Services) (args : List Json) : Plan where
  effects := chargeEffects services args
  need _ := .value
  result received := if Approved (valueAt received 0) then .ok .null else .error (refusal (arg args 0))
  undo := fail

section

variable (services : Services) (args : List Json) (received : List Output)

theorem chargeEffects_of_approved (h : Approved (valueAt received 0)) :
    chargeEffects services args received = [.call (services.target .validateCard) [arg args 0],
      .put cardValidation, .call (services.target .pay) [arg args 0, arg args 1], .put paymentCompletion] := by
  rw [chargeEffects, if_pos h]

theorem chargeEffects_of_refused (h : ¬ Approved (valueAt received 0)) :
    chargeEffects services args received = [.call (services.target .validateCard) [arg args 0]] := by
  rw [chargeEffects, if_neg h]

theorem length_chargeEffects_le : (chargeEffects services args received).length ≤ 4 := by
  by_cases h : Approved (valueAt received 0)
  · rw [chargeEffects_of_approved _ _ _ h]
    exact Nat.le_refl 4
  · rw [chargeEffects_of_refused _ _ _ h]
    exact Nat.le_add_left 1 3

end

variable {services : Services} {args : List Json} {received : List Output}

/-- A charge is the third effect, of an approved card. -/
theorem of_charge {n : Nat} {charged : List Json}
    (h : (chargeEffects services args received)[n]? = some (.call (services.target .pay) charged)) :
    n = 2 ∧ charged = [arg args 0, arg args 1] ∧ Approved (valueAt received 0) := by
  have hne : services.target .validateCard ≠ services.target .pay := (target_injective services).ne (by decide)
  by_cases happroved : Approved (valueAt received 0)
  · rw [chargeEffects_of_approved _ _ _ happroved] at h
    match n, h with
    | 0, h => exact absurd (Effect.call.inj (Option.some.inj h)).1 hne
    | 1, h => cases h
    | 2, h => exact ⟨rfl, (Effect.call.inj (Option.some.inj h)).2.symm, happroved⟩
    | 3, h => cases h
    | n + 4, h => cases h
  · rw [chargeEffects_of_refused _ _ _ happroved] at h
    match n, h with
    | 0, h => exact absurd (Effect.call.inj (Option.some.inj h)).1 hne
    | n + 1, h => cases h

/-- That a payment is complete is the fourth effect, for an approved card. -/
theorem of_completion {n : Nat}
    (h : (chargeEffects services args received)[n]? = some (.put paymentCompletion)) :
    n = 3 ∧ Approved (valueAt received 0) := by
  by_cases happroved : Approved (valueAt received 0)
  · rw [chargeEffects_of_approved _ _ _ happroved] at h
    match n, h with
    | 0, h => cases h
    | 1, h =>
      have htype : IsOf "CARD_VALIDATION_SUCCESS" paymentCompletion := by
        rw [← Effect.put.inj (Option.some.inj h), isOf_cardValidation]
      exact absurd (isOf_paymentCompletion.mp htype) (by decide)
    | 2, h => cases h
    | 3, _ => exact ⟨rfl, happroved⟩
    | n + 4, h => cases h
  · rw [chargeEffects_of_refused _ _ _ happroved] at h
    match n, h with
    | 0, h => cases h
    | n + 1, h => cases h

/-- The code of the payment follows its plan. -/
theorem directs_makePayment (services : Services) (args : List Json) :
    (paymentPlan services args).Directs [] (makePayment services args).code := by
  refine .askValue (Flow.asks_call _ _) rfl rfl (fun v => ?_) fun _ => .fail rfl
  by_cases happroved : Approved v
  · have heffects : ∀ {received : List Output} {n : Nat}, received[0]? = some (.value v) →
        ((paymentPlan services args).effects received)[n]? = [.call (services.target .validateCard) [arg args 0],
          .put cardValidation, .call (services.target .pay) [arg args 0, arg args 1],
          .put paymentCompletion][n]? := by
      intro received n h
      refine congrArg (·[n]?) (chargeEffects_of_approved _ _ _ ?_)
      rw [valueAt, h]
      exact happroved
    rw [if_pos ((status_eq_success_iff v).mpr happroved)]
    refine .askValue (Flow.asks_put rfl) rfl (heffects rfl) (fun _ => ?_) fun _ => .fail rfl
    refine .askValue (Flow.asks_call _ _) rfl (heffects rfl) (fun _ => ?_) fun _ => .fail rfl
    refine .askValue (Flow.asks_put rfl) rfl (heffects rfl) (fun _ => ?_) fun _ => .fail rfl
    exact .ends (o := .ok .null) (heffects rfl) (if_pos happroved)
  · rw [if_neg (mt (status_eq_success_iff v).mp happroved)]
    refine .ends (o := .error (refusal (arg args 0))) ?_ (if_neg happroved)
    exact congrArg (·[1]?) (chargeEffects_of_refused services args [.value v] happroved)

/-! ## A whole payment -/

/-- The yield of a charge. -/
def charging (services : Services) (args : List Json) : Step :=
  .yield (.effect (.call (services.target .pay) args))

/-- What holds of the steps of a payment with these arguments for these answers. -/
structure Charges (services : Services) (args : List Json) (answers : List Resume) (steps : List Step) :
    Prop where
  planned : (paymentPlan services args).Steps [] answers steps
  done : DoneWithin 5 steps
  /-- A charge is the third step, of the card that was validated, approved and told to be valid, and by the amount
  that was asked for. -/
  charged : ∀ (n : Nat) (charged : List Json), steps[n]? = some (charging services charged) →
    n = 2 ∧ charged = [arg args 0, arg args 1] ∧
      steps[0]? = some (.yield (.effect (.call (services.target .validateCard) [arg args 0]))) ∧
      (∃ v, answers[0]? = some (.ok (.value v)) ∧ Approved v) ∧
      steps[1]? = some (.yield (.effect (.put cardValidation))) ∧ ∃ v, answers[1]? = some (.ok (.value v))
  /-- A payment is only called complete once it has been charged. -/
  completed : ∀ n : Nat, steps[n]? = some (.yield (.effect (.put paymentCompletion))) →
    steps[2]? = some (charging services [arg args 0, arg args 1]) ∧ ∃ v, answers[2]? = some (.ok (.value v))
  /-- A card that is not approved is refused. -/
  refused : ∀ v later, answers = .ok (.value v) :: later → ¬ Approved v →
    steps.tail = ending (.error (refusal (arg args 0))) later
  /-- An answer that is of no use ends the payment with its error. -/
  failed : ∀ (n : Nat) (y : Yielded) (r : Resume) (e : EffectError), steps[n]? = some (Step.yield y) →
    answers[n]? = some r → Need.value.check r = .error e →
    steps.drop (n + 1) = ending (.error e) (answers.drop (n + 1))

section

variable {answers : List Resume} {steps : List Step} {more : List Output}

/-- The value at a place has been received in an answer. -/
theorem exists_answer_of_receives (h : (paymentPlan services args).Receives [] answers steps more) {n : Nat}
    (hn : n < more.length) : ∃ v, answers[n]? = some (.ok (.value v)) ∧ valueAt more n = v := by
  have ho := List.getElem?_eq_getElem hn
  obtain ⟨r, hr, hcheck⟩ := h.answered n _ ho
  obtain ⟨v, rfl, hv⟩ := Need.check_value_eq_ok hcheck
  refine ⟨v, hr, ?_⟩
  rw [valueAt, ho, hv]
  rfl

/-- Up to where it has come, the payment of an approved card has yielded all its effects. -/
theorem step_of_receives (h : (paymentPlan services args).Receives [] answers steps more)
    (happroved : Approved (valueAt more 0)) {n : Nat} (hn : n ≤ more.length) :
    ∃ e, (chargeEffects services args more)[n]? = some e ∧ steps[n]? = some (.yield (.effect e)) := by
  obtain ⟨e, he, hstep⟩ := h.yielded n hn
  rw [List.nil_append, List.length_nil, Nat.zero_add] at he
  refine ⟨e, ?_, hstep⟩
  cases n with
  | zero => exact he
  | succ n =>
    have hfirst : valueAt (more.take (n + 1)) 0 = valueAt more 0 := by
      cases more <;> rfl
    rw [chargeEffects_of_approved _ _ _ happroved]
    exact chargeEffects_of_approved services args (more.take (n + 1)) (hfirst ▸ happroved) ▸ he

theorem charges_of_steps (h : (paymentPlan services args).Steps [] answers steps) :
    Charges services args answers steps where
  planned := h
  done := (h.doneWithin (n := 4) (m := 1) (by decide) (length_chargeEffects_le services args)
    fun _ _ _ _ hfail => hfail ▸ doneWithin_ending (by decide) _ _).mono (by decide)
  charged n charged hn := by
    obtain ⟨more, rfl, hmore⟩ := h.exists_receives rfl hn
    obtain ⟨e, he, hstep⟩ := hmore.yielded more.length (Nat.le_refl _)
    cases hn.symm.trans hstep
    rw [List.take_length, List.nil_append, List.length_nil, Nat.zero_add] at he
    obtain ⟨hlength, hcharged, happroved⟩ := of_charge he
    obtain ⟨v, hv, hvalue⟩ := exists_answer_of_receives hmore (n := 0) (by omega)
    obtain ⟨w, hw, _⟩ := exists_answer_of_receives hmore (n := 1) (by omega)
    obtain ⟨e₀, he₀, hstep₀⟩ := step_of_receives hmore happroved (n := 0) (by omega)
    obtain ⟨e₁, he₁, hstep₁⟩ := step_of_receives hmore happroved (n := 1) (by omega)
    rw [chargeEffects_of_approved _ _ _ happroved] at he₀ he₁
    cases he₀
    cases he₁
    exact ⟨hlength, hcharged, hstep₀, ⟨v, hv, hvalue ▸ happroved⟩, hstep₁, w, hw⟩
  completed n hn := by
    obtain ⟨more, rfl, hmore⟩ := h.exists_receives rfl hn
    obtain ⟨e, he, hstep⟩ := hmore.yielded more.length (Nat.le_refl _)
    cases hn.symm.trans hstep
    rw [List.take_length, List.nil_append, List.length_nil, Nat.zero_add] at he
    obtain ⟨hlength, happroved⟩ := of_completion he
    obtain ⟨w, hw, _⟩ := exists_answer_of_receives hmore (n := 2) (by omega)
    obtain ⟨e₂, he₂, hstep₂⟩ := step_of_receives hmore happroved (n := 2) (by omega)
    rw [chargeEffects_of_approved _ _ _ happroved] at he₂
    cases he₂
    exact ⟨hstep₂, w, hw⟩
  refused v later hv hrefused := by
    have hnone : ((paymentPlan services args).effects [.value v])[1]? = none :=
      congrArg (·[1]?) (chargeEffects_of_refused services args [.value v] hrefused)
    have hresult : (paymentPlan services args).result [.value v] = .error (refusal (arg args 0)) := if_neg hrefused
    subst hv
    cases h with
    | ends _ h => cases h
    | fails _ hr _ => cases hr
    | goesOn _ hr hs =>
      cases hr
      cases hs with
      | ends _ _ => exact congrArg (ending · later) hresult
      | waits he => cases he.symm.trans hnone
      | goesOn he _ _ => cases he.symm.trans hnone
      | fails he _ _ => cases he.symm.trans hnone
  failed n y r e hn hr he := h.drop_of_useless rfl hn hr he

variable {Co : Type} {p : Program Co Code} {ofBlock : Block Code → Co}

/-- **A payment charges no card but an approved one**, whatever its arguments are and whatever its coroutine is
resumed with. -/
theorem charges_only_approved (hp : p.RunsBlocks ofBlock) (services : Services) (args : List Json)
    (answers : List Resume) : ∃ co steps,
      (invoke ofBlock services .makePayment args : Invoked Co Code) = .coroutine co ∧
      Charges services args answers steps ∧ ∀ first, ResumesTo p co (first :: answers) steps := by
  obtain ⟨steps, hyields, hsteps⟩ := directs_makePayment services args answers
  exact ⟨_, steps, rfl, charges_of_steps hsteps, fun first => resumesTo_of_yields hp (.fresh _ first) hyields⟩

/-- An answer of the validation that approves the card. -/
def approval : Json := .object [("status", .str "success")]

/-- The card is approved, but that cannot be told, so it is not charged. -/
theorem payment_untold : (program {}).RunsBlocks id ∧ ∃ co,
    (invoke id ⟨250, true⟩ .makePayment [cardNumber] : Invoked (Block Code) Code) = .coroutine co ∧
    ResumesTo (program {}) co
      [.ok (.value .null), .ok (.value approval), .error (.plain "sink closed")]
      [.yield (.effect (.call (Services.target ⟨250, true⟩ .validateCard) [cardNumber])),
        .yield (.effect (.put cardValidation)), .done (.error (.plain "sink closed"))] := by
  have hblocks := (offers_program {} ⟨250, true⟩).blocks
  have heffects := chargeEffects_of_approved ⟨250, true⟩ [cardNumber] [.value approval] (by decide)
  obtain ⟨co, steps, hco, hcharges, hresumes⟩ := charges_only_approved hblocks ⟨250, true⟩ [cardNumber]
    [.ok (.value approval), .error (.plain "sink closed")]
  refine ⟨hblocks, co, hco, ?_⟩
  cases hcharges.planned with
  | ends _ hnone => cases hnone
  | fails _ hr _ => cases hr
  | goesOn he hr hs =>
    cases he
    cases hr
    cases hs with
    | ends _ hnone => cases (congrArg (·[1]?) heffects).symm.trans hnone
    | goesOn _ hr _ => cases hr
    | fails he hr hundo =>
      cases (congrArg (·[1]?) heffects).symm.trans he
      cases hr
      cases hundo
      exact hresumes (.ok (.value .null))

end

end EffectLoop.Order
