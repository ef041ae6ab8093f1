import EffectLoop.Proofs.Checkout
import EffectLoop.Proofs.Plans

/-!
# An order, answer by answer

The coroutine that orders a product is taken by itself: each resume may give it any value, any handle or any
error. `orderPlan` lists its effects with the data that has been received, and `rollbackPlan` what it does about
a failure after the look-ups. `orders_as_planned` says that it follows them, and does not panic.

An error that the rollback meets with comes in the place of the one that it is about: `rollback_is_undone` says
what is told and returned in each case, and `rollback_hides_failure` is an order that ends with the later error.
-/

namespace EffectLoop.Order

open EventLoop

/-! ## The plans -/

/-- The effects of an order, with the data received in answer to the earlier ones. -/
def orderEffects (services : Services) (productId userId : String) (received : List Output) : List Effect :=
  let card := (valueAt received 3).field "cardNumber"
  let price := (valueAt received 5).field "price"
  let address := (valueAt received 7).field "address"
  [.fork (services.target .fetchUserAddress) [.str userId],
    .fork (services.target .fetchProductPrice) [.str productId],
    .call (services.target .reserveProduct) [.str productId],
    .call (services.target .fetchUserPaymentDetails) [.str userId],
    .put (event "UPDATE_USER_CARD_NUMBER" card),
    .join (handleAt received 1),
    .call (services.target .makePayment) [card, price],
    .join (handleAt received 0),
    .put (event "UPDATE_USER_ADDRESS" address),
    .call (services.target .completeOrder) [.str productId, .str userId, address],
    .put (event "COMPLETE_ORDER" ((valueAt received 9).field "orderId"))]

/-- The reservation is cancelled, the failure is told, and its error is the outcome. -/
def rollbackPlan (services : Services) (productId : String) (e : EffectError) : Plan where
  effects _ := [.call (services.target .cancelProductReservation) [.str productId], .put (orderFailure e)]
  need _ := .value
  result _ := .error e
  undo := fail

/-- The two look-ups are forked, then all else is done on the way to the order. A look-up that is not forked
ends it; a later failure is rolled back. -/
def orderPlan (services : Services) (productId userId : String) : Plan where
  effects := orderEffects services productId userId
  need n := if n < 2 then .handle else .value
  result received := .ok (valueAt received 9)
  undo n e := if n < 2 then fail n e else (rollbackPlan services productId e).Steps []

variable {services : Services} {productId userId : String}

theorem undo_of_lookup {n : Nat} (hn : n < 2) (e : EffectError) :
    (orderPlan services productId userId).undo n e = fail n e := if_pos hn

theorem undo_of_checkout {n : Nat} (hn : 2 ≤ n) (e : EffectError) :
    (orderPlan services productId userId).undo n e = (rollbackPlan services productId e).Steps [] :=
  if_neg (Nat.not_lt.mpr hn)

/-! ## The code follows them -/

theorem directs_rollback (services : Services) (productId : String) (e : EffectError) :
    (rollbackPlan services productId e).Directs [] (rollback services productId e).code := by
  have hrun : (rollbackPlan services productId e).Directs [] (do
      let _ ← Flow.call (services.target .cancelProductReservation) [.str productId]
      let _ ← Flow.put (orderFailure e)
      throw e : Flow Json).code := by
    refine .askValue (Flow.asks_call _ _) rfl rfl (fun _ => ?_) fun _ => .fail rfl
    refine .askValue (Flow.asks_put rfl) rfl rfl (fun _ => ?_) fun _ => .fail rfl
    exact .ends (o := .error e) rfl rfl
  intro answers
  obtain ⟨steps, hyields, hsteps⟩ := hrun answers
  exact ⟨steps, .ask fun _ => hyields, hsteps⟩

theorem directs_orderProduct (services : Services) (productId userId : String) :
    (orderPlan services productId userId).Directs [] (orderProduct services productId userId).code := by
  have hfail : ∀ n err, n < 2 → (orderPlan services productId userId).Undoes n err (.done (.error err)) := by
    intro n err hn answers
    exact ⟨_, .done (.error err) answers, by rw [undo_of_lookup hn]; rfl⟩
  have hundo : ∀ n err, 2 ≤ n →
      (orderPlan services productId userId).Undoes n err (rollback services productId err).code := by
    intro n err hn answers
    rw [undo_of_checkout hn]
    exact directs_rollback services productId err answers
  refine .askHandle (Flow.asks_fork _ _) rfl rfl (fun address => ?_) fun err => hfail 0 err (by decide)
  refine .askHandle (Flow.asks_fork _ _) rfl rfl (fun price => ?_) fun err => hfail 1 err (by decide)
  refine .askValue (Flow.asks_call _ _) rfl rfl (fun _ => ?_) fun err => hundo 2 err (by decide)
  refine .askValue (Flow.asks_call _ _) rfl rfl (fun payment => ?_) fun err => hundo 3 err (by decide)
  refine .askValue (Flow.asks_put rfl) rfl rfl (fun _ => ?_) fun err => hundo 4 err (by decide)
  refine .askValue (Flow.asks_join _) rfl rfl (fun price => ?_) fun err => hundo 5 err (by decide)
  refine .askValue (Flow.asks_call _ _) rfl rfl (fun _ => ?_) fun err => hundo 6 err (by decide)
  refine .askValue (Flow.asks_join _) rfl rfl (fun address => ?_) fun err => hundo 7 err (by decide)
  refine .askValue (Flow.asks_put rfl) rfl rfl (fun _ => ?_) fun err => hundo 8 err (by decide)
  refine .askValue (Flow.asks_call _ _) rfl rfl (fun order => ?_) fun err => hundo 9 err (by decide)
  refine .askValue (Flow.asks_put rfl) rfl rfl (fun _ => ?_) fun err => hundo 10 err (by decide)
  exact .ends (o := .ok order) rfl rfl

/-! ## A whole order -/

section

variable {received : List Output} {answers : List Resume} {steps : List Step} {e : EffectError}

theorem doneWithin_of_rollback (h : (rollbackPlan services productId e).Steps received answers steps) :
    DoneWithin 3 steps :=
  (h.doneWithin (n := 2) (m := 1) (by decide) (fun _ => Nat.le_refl 2) fun _ _ _ _ hfail =>
    hfail ▸ doneWithin_ending (by decide) _ _).mono (by omega)

theorem doneWithin_of_order (h : (orderPlan services productId userId).Steps received answers steps) :
    DoneWithin 14 steps := by
  have hundo : ∀ n e answers steps, (orderPlan services productId userId).undo n e answers steps →
      DoneWithin 3 steps := by
    intro n e answers steps hundo
    rcases Nat.lt_or_ge n 2 with hn | hn
    · rw [undo_of_lookup hn] at hundo
      exact hundo ▸ doneWithin_ending (by decide) _ _
    · rw [undo_of_checkout hn] at hundo
      exact doneWithin_of_rollback hundo
  exact (h.doneWithin (n := 11) (by decide) (fun _ => Nat.le_refl 11) hundo).mono (by omega)

variable {Co : Type} {p : Program Co Code} {ofBlock : Block Code → Co}

/-- **An order goes as planned** whatever its coroutine is resumed with: it does not panic, its effects carry
what has been received, and it is done after fourteen resumes at the latest. -/
theorem orders_as_planned (hp : p.RunsBlocks ofBlock) (services : Services) (productId userId : String)
    (answers : List Resume) : ∃ steps, (orderPlan services productId userId).Steps [] answers steps ∧
      DoneWithin 14 steps ∧ ∀ first,
        ResumesTo p (ofBlock (.ofCode (orderProduct services productId userId).code)) (first :: answers) steps := by
  obtain ⟨steps, hyields, hsteps⟩ := directs_orderProduct services productId userId answers
  exact ⟨steps, hsteps, doneWithin_of_order hsteps, fun first => resumesTo_of_yields hp (.fresh _ first) hyields⟩

/-- The look-up of the address cannot be forked. -/
theorem order_without_address : (program {}).RunsBlocks id ∧
    ResumesTo (program {}) (.ofCode (orderProduct ⟨250, true⟩ "product" "user").code)
      [.ok (.value .null), .error (.plain "no task")]
      [.yield (.effect (.fork (Services.target ⟨250, true⟩ .fetchUserAddress) [.str "user"])),
        .done (.error (.plain "no task"))] := by
  have hblocks := (offers_program {} ⟨250, true⟩).blocks
  obtain ⟨steps, hsteps, _, hresumes⟩ :=
    orders_as_planned hblocks ⟨250, true⟩ "product" "user" [.error (.plain "no task")]
  refine ⟨hblocks, ?_⟩
  cases hsteps with
  | ends _ hnone => cases hnone
  | goesOn _ hr _ => cases hr
  | fails he hr hundo =>
    cases he
    cases hr
    cases hundo
    exact hresumes (.ok (.value .null))

/-! ## The rollback -/

/-- The yield of the cancellation. -/
def cancelling (services : Services) (productId : String) : Step :=
  .yield (.effect (.call (services.target .cancelProductReservation) [.str productId]))

/-- The yield that tells of the failure. -/
def telling (e : EffectError) : Step := .yield (.effect (.put (orderFailure e)))

/-- The steps of a rollback: the cancellation, the failure with the text of the error that caused it, and that
error. An error on the way takes its place. -/
inductive RolledBack (services : Services) (productId : String) (e : EffectError) :
    List Resume → List Step → Prop
  | begun : RolledBack services productId e [] [cancelling services productId]
  | uncancelled {r : Resume} {err : EffectError} (hr : Need.value.check r = .error err) (answers : List Resume) :
      RolledBack services productId e (r :: answers)
        (cancelling services productId :: ending (.error err) answers)
  | cancelled (v : Json) :
      RolledBack services productId e [.ok (.value v)] [cancelling services productId, telling e]
  | untold (v : Json) {r : Resume} {err : EffectError} (hr : Need.value.check r = .error err)
      (answers : List Resume) : RolledBack services productId e (.ok (.value v) :: r :: answers)
        (cancelling services productId :: telling e :: ending (.error err) answers)
  | told (v w : Json) (answers : List Resume) :
      RolledBack services productId e (.ok (.value v) :: .ok (.value w) :: answers)
        (cancelling services productId :: telling e :: ending (.error e) answers)

theorem rolledBack_of_rollback (h : (rollbackPlan services productId e).Steps [] answers steps) :
    RolledBack services productId e answers steps := by
  cases h with
  | ends _ hnone => cases hnone
  | waits he =>
    cases he
    exact .begun
  | fails he hr hs =>
    cases he
    cases hs
    exact .uncancelled hr _
  | goesOn he hr hs =>
    cases he
    obtain ⟨v, rfl, rfl⟩ := Need.check_value_eq_ok hr
    cases hs with
    | ends _ hnone => cases hnone
    | waits he =>
      cases he
      exact .cancelled v
    | fails he hr hs =>
      cases he
      cases hs
      exact .untold v hr _
    | goesOn he hr hs =>
      cases he
      obtain ⟨w, rfl, rfl⟩ := Need.check_value_eq_ok hr
      cases hs with
      | ends _ _ => exact .told v w _
      | waits he => cases he
      | goesOn he _ _ => cases he
      | fails he _ _ => cases he

/-- The first answer that is of no use, once the look-ups have been forked, begins the rollback. -/
theorem exists_rolledBack (services : Services) (productId userId : String)
    (hleast : 2 ≤ received.length) (hmost : received.length < 11)
    (hneeded : ∀ n o, received[n]? = some o →
      ((orderPlan services productId userId).need n).check (.ok o) = .ok o)
    {r : Resume} (hr : Need.value.check r = .error e) (answers : List Resume) :
    ∃ (es : List Effect) (steps : List Step), es.length = received.length + 1 ∧
      RolledBack services productId e answers steps ∧
      (orderProduct services productId userId).code.Yields (received.map .ok ++ r :: answers)
        (es.map (.yield ∘ .effect) ++ steps) := by
  have hasks : ∀ (outputs : List Output) {n : Nat}, n < 11 →
      ((orderPlan services productId userId).effects outputs)[n]? ≠ none := by
    intro outputs n hn hnone
    exact absurd hn (Nat.not_lt.mpr (List.getElem?_eq_none_iff.mp hnone))
  obtain ⟨steps, hyields, hsteps⟩ := directs_orderProduct services productId userId
    (received.map .ok ++ r :: answers)
  obtain ⟨es, after, rfl, hlength, hafter⟩ := hsteps.split fun n o ho => by
    have hn := (List.getElem?_eq_some_iff.mp ho).1
    rw [List.length_nil, Nat.zero_add]
    exact ⟨hneeded n o ho, hasks _ (by omega)⟩
  have hneed : (orderPlan services productId userId).need received.length = .value :=
    if_neg (Nat.not_lt.mpr hleast)
  rw [List.nil_append] at hafter
  cases hafter with
  | ends _ hnone => exact absurd hnone (hasks received hmost)
  | goesOn _ hok _ =>
    rw [hneed] at hok
    cases hok.symm.trans hr
  | @fails _ last _ _ _ after _ hfail hundo =>
    rw [hneed] at hfail
    cases hfail.symm.trans hr
    rw [undo_of_checkout hleast] at hundo
    refine ⟨es ++ [last], after, by simp [hlength], rolledBack_of_rollback hundo, ?_⟩
    simpa using hyields

/-- **An order that fails after its look-ups have been forked is rolled back**: it goes on with the cancellation
and tells of the failure, and ends with the error that caused it or with the one that stopped the rollback. -/
theorem failed_order_is_rolled_back (hp : p.RunsBlocks ofBlock) (services : Services)
    (productId userId : String) (hleast : 2 ≤ received.length) (hmost : received.length < 11)
    (hneeded : ∀ n o, received[n]? = some o →
      ((orderPlan services productId userId).need n).check (.ok o) = .ok o)
    {r : Resume} (hr : Need.value.check r = .error e) (answers : List Resume) :
    ∃ (es : List Effect) (steps : List Step), es.length = received.length + 1 ∧
      RolledBack services productId e answers steps ∧ ∀ first,
        ResumesTo p (ofBlock (.ofCode (orderProduct services productId userId).code))
          (first :: (received.map .ok ++ r :: answers)) (es.map (.yield ∘ .effect) ++ steps) := by
  obtain ⟨es, steps, hlength, hback, hyields⟩ :=
    exists_rolledBack services productId userId hleast hmost hneeded hr answers
  exact ⟨es, steps, hlength, hback, fun first => resumesTo_of_yields hp (.fresh _ first) hyields⟩

/-- What an order has received by the time the product is reserved. -/
def reserved : List Output :=
  [.task ⟨⟨0⟩, ⟨2⟩, "fetch_user_address"⟩, .task ⟨⟨0⟩, ⟨3⟩, "fetch_product_price"⟩, .value .null]

theorem needed_of_reserved (n : Nat) (o : Output) (h : reserved[n]? = some o) :
    ((orderPlan services productId userId).need n).check (.ok o) = .ok o := by
  match n, h with
  | 0, h => cases h; rfl
  | 1, h => cases h; rfl
  | 2, h => cases h; rfl
  | n + 3, h => cases h

/-- The inputs of an order that is reserved, but whose payment details are missing, and what comes then. -/
def withoutDetails (answers : List Resume) : List Resume :=
  .ok (.value .null) :: (reserved.map .ok ++ .error (.plain "no details") :: answers)

/-- The order is undone, and ends for want of the payment details. -/
theorem order_without_details : (program {}).RunsBlocks id ∧ ∃ es : List Effect, es.length = 4 ∧
    ResumesTo (program {}) (.ofCode (orderProduct ⟨250, true⟩ "product" "user").code)
      (withoutDetails [.ok (.value .null), .ok (.value .null)])
      (es.map (.yield ∘ .effect) ++ [cancelling ⟨250, true⟩ "product", telling (.plain "no details"),
        .done (.error (.plain "no details"))]) := by
  have hblocks := (offers_program {} ⟨250, true⟩).blocks
  obtain ⟨es, steps, hlength, hback, hresumes⟩ := failed_order_is_rolled_back hblocks ⟨250, true⟩ "product" "user"
    (by decide) (by decide) needed_of_reserved (Need.check_error .value (.plain "no details"))
    [.ok (.value .null), .ok (.value .null)]
  refine ⟨hblocks, es, hlength, ?_⟩
  cases hback with
  | uncancelled hr _ => cases hr
  | untold _ hr _ => cases hr
  | told _ _ _ => exact hresumes (.ok (.value .null))

/-- **A rollback that fails hides the failure it is about**: the order has failed for want of the payment details,
the failure cannot be told, and it is with this that the order ends. -/
theorem rollback_hides_failure : ∃ es : List Effect, es.length = 4 ∧
    ResumesTo (program {}) (.ofCode (orderProduct ⟨250, true⟩ "product" "user").code)
      (withoutDetails [.ok (.value .null), .error (.plain "sink closed")])
      (es.map (.yield ∘ .effect) ++ [cancelling ⟨250, true⟩ "product", telling (.plain "no details"),
        .done (.error (.plain "sink closed"))]) ∧
    EffectError.plain "sink closed" ≠ .plain "no details" := by
  obtain ⟨es, steps, hlength, hback, hyields⟩ := exists_rolledBack ⟨250, true⟩ "product" "user" (by decide)
    (by decide) needed_of_reserved (Need.check_error .value (.plain "no details"))
    [.ok (.value .null), .error (.plain "sink closed")]
  refine ⟨es, hlength, ?_, by simp [EffectError.plain]⟩
  cases hback with
  | uncancelled hr _ => cases hr
  | untold _ hr _ =>
    cases hr
    exact resumesTo_of_yields (offers_program {} ⟨250, true⟩).blocks (.fresh _ _) hyields

end

end EffectLoop.Order
