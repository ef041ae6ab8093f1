import EffectLoop.Proofs.Fates
import EffectLoop.Proofs.Services

/-!
# A checkout from its first event to its last

The flows of a checkout are followed rule by rule (`meets_makePayment`, `meets_orderProduct`): whatever tasks
are terminated, an order fails where a look-up is lost or the payment fails, and undoes what it has done, or
else it goes on to its end. The effects of the payment come in where it is called, so the effects of a whole
order are known (`Conducted`), and with them what it tells the sink: all five events, or a part of them and
then its failure (`Concluded`). `completes_of_ended` puts this together for every run.
-/

namespace EffectLoop.Order

open EventLoop

/-! ## What a checkout tells the sink -/

def cardUpdate : Json := event "UPDATE_USER_CARD_NUMBER" cardNumber
def cardValidation : Json := .object [("type", .str "CARD_VALIDATION_SUCCESS")]
def paymentCompletion : Json := .object [("type", .str "PAYMENT_COMPLETE")]
def addressUpdate : Json := event "UPDATE_USER_ADDRESS" (.str shippingAddress)
def orderCompletion : Json := event "COMPLETE_ORDER" (.str orderId)

/-- The events of an order that is placed, in their order. -/
def events : List Json := [cardUpdate, cardValidation, paymentCompletion, addressUpdate, orderCompletion]

/-- The event of an order that has failed. -/
def orderFailure (e : EffectError) : Json :=
  .object [("type", .str "ORDER_FAILED"), ("error", .str e.message)]

/-- The event is of this type. -/
def IsOf (type : String) (event : Json) : Prop := event.field "type" = .str type

/-- Among the events there is one of this type. -/
def Tells (type : String) (xs : List Json) : Prop := ∃ x ∈ xs, IsOf type x

/-- The order as it is confirmed. -/
def confirmation (productId userId : String) : Json :=
  .object [("orderId", .str orderId), ("productId", .str productId), ("userId", .str userId),
    ("address", .str shippingAddress)]

/-- How a card is refused. -/
def refusal (card : Json) : EffectError :=
  .failure ("card number " ++ card.compact ++ " is not valid") (.object [("cardNumber", card)])

theorem isOf_event {type type' : String} {payload : Json} : IsOf type (event type' payload) ↔ type' = type := by
  simp [IsOf, event, Json.field, Json.member?_object]

theorem isOf_cardValidation {type : String} : IsOf type cardValidation ↔ "CARD_VALIDATION_SUCCESS" = type := by
  simp [IsOf, cardValidation, Json.field, Json.member?_object]

theorem isOf_paymentCompletion {type : String} : IsOf type paymentCompletion ↔ "PAYMENT_COMPLETE" = type := by
  simp [IsOf, paymentCompletion, Json.field, Json.member?_object]

theorem isOf_orderFailure {type : String} {e : EffectError} : IsOf type (orderFailure e) ↔ "ORDER_FAILED" = type := by
  simp [IsOf, orderFailure, Json.field, Json.member?_object]

theorem not_tells_failure : ¬ Tells "ORDER_FAILED" events := by
  simp [Tells, events, cardUpdate, addressUpdate, orderCompletion, isOf_event, isOf_cardValidation,
    isOf_paymentCompletion]

theorem not_tells_completion {n : Nat} (h : n < events.length) : ¬ Tells "COMPLETE_ORDER" (events.take n) := by
  rintro ⟨x, hx, htype⟩
  have hfour : x ∈ events.take 4 := (List.take_prefix_take_left (Nat.le_of_lt_succ h)).subset hx
  have hnone : ¬ Tells "COMPLETE_ORDER" (events.take 4) := by
    simp [Tells, events, cardUpdate, addressUpdate, isOf_event, isOf_cardValidation, isOf_paymentCompletion]
  exact hnone ⟨x, hfour, htype⟩

/-- How an order ends, and what it has told the sink by then. -/
inductive Concluded (productId userId : String) : List Json → Outcome → Prop
  | placed : Concluded productId userId events (.ok (confirmation productId userId))
  | failed (n : Nat) (e : EffectError) (hpos : 0 < n) (hn : n < events.length) :
      Concluded productId userId (events.take n ++ [orderFailure e]) (.error e)

namespace Concluded

variable {productId userId : String} {xs : List Json} {o : Outcome}

theorem tells_failure_iff (h : Concluded productId userId xs o) : Tells "ORDER_FAILED" xs ↔ ∃ e, o = .error e := by
  cases h with
  | placed => simp [not_tells_failure]
  | failed n e _ _ =>
    exact iff_of_true ⟨_, List.mem_append_right _ (List.mem_singleton_self _), isOf_orderFailure.mpr rfl⟩ ⟨e, rfl⟩

theorem ok_of_tells_completion (h : Concluded productId userId xs o) (ht : Tells "COMPLETE_ORDER" xs) :
    o = .ok (confirmation productId userId) ∧ xs = events := by
  cases h with
  | placed => exact ⟨rfl, rfl⟩
  | failed n e _ hn =>
    obtain ⟨x, hx, htype⟩ := ht
    rcases List.mem_append.mp hx with hx | hx
    · exact absurd ⟨x, hx, htype⟩ (not_tells_completion hn)
    · cases List.mem_singleton.mp hx
      exact absurd (isOf_orderFailure.mp htype) (by decide)

theorem exclusive (h : Concluded productId userId xs o) :
    ¬ (Tells "COMPLETE_ORDER" xs ∧ Tells "ORDER_FAILED" xs) := by
  rintro ⟨hcompletion, hfailure⟩
  obtain ⟨_, he⟩ := h.tells_failure_iff.mp hfailure
  cases he.symm.trans (h.ok_of_tells_completion hcompletion).1

theorem paid (h : Concluded productId userId xs o) {before : List Json} {x : Json} (hle : before ++ [x] <+: xs)
    (htype : IsOf "COMPLETE_ORDER" x) : Tells "PAYMENT_COMPLETE" before := by
  obtain ⟨_, rfl⟩ := h.ok_of_tells_completion ⟨x, hle.subset (by simp), htype⟩
  rcases List.prefix_concat_iff.mp (show before ++ [x] <+: events.take 4 ++ [orderCompletion] from hle) with he | hle
  · obtain ⟨rfl, _⟩ := List.append_inj' he rfl
    exact ⟨paymentCompletion, by simp [events], isOf_paymentCompletion.mpr rfl⟩
  · exact absurd ⟨x, hle.subset (by simp), htype⟩ (not_tells_completion (by decide))

end Concluded

/-! ## Rules for the effects of a checkout -/

namespace Backs

variable {services : Services} {A : Effect → Resume → Prop} (h : Backs services A) {α : Type}
  {f : Json → Flow α} {Q : List (Effect × Resume) → Except EffectError α → Prop} {args : List Json}
include h

theorem meets_call {service : Service} (hs : service ≠ .makePayment)
    (hk : (f (services.respond service args)).Meets A fun ys b =>
      Q ((.call (services.target service) args, .ok (.value (services.respond service args))) :: ys) b) :
    (Flow.call (services.target service) args >>= f).Meets A Q := by
  refine Flow.Meets.settle (Flow.asks_call _ _) (fun r ha => ⟨.ok _, h.call hs ha⟩) (fun v ha => ?_) fun err ha => ?_
  · cases h.call hs ha
    exact hk
  · cases h.call hs ha

theorem meets_put {event : Json} (hobject : event.isObject = true)
    (hk : ∀ v, (f v).Meets A fun ys b => Q ((.put event, .ok (.value v)) :: ys) b) :
    (Flow.put event >>= f).Meets A Q := by
  refine Flow.Meets.settle (Flow.asks_put hobject) (fun r ha => ?_) (fun v _ => hk v) fun err ha => ?_
  · obtain ⟨v, hv⟩ := h.put ha
    exact ⟨.ok v, hv⟩
  · obtain ⟨v, hv⟩ := h.put ha
    cases hv

theorem meets_join {t : TaskHandle}
    (hok : ∀ v, A (.join t) (.ok (.value v)) → (f v).Meets A fun ys b => Q ((.join t, .ok (.value v)) :: ys) b)
    (herr : ∀ err, A (.join t) (.error err) → Q [(.join t, .error err)] (.error err)) :
    (Flow.join t >>= f).Meets A Q :=
  .settle (Flow.asks_join t) (fun _ => h.join) hok herr

theorem meets_payment
    (hok : ∀ v, (f v).Meets A fun ys b => Q ((.call (services.target .makePayment) args, .ok (.value v)) :: ys) b)
    (herr : ∀ err, Q [(.call (services.target .makePayment) args, .error err)] (.error err)) :
    (Flow.call (services.target .makePayment) args >>= f).Meets A Q :=
  .settle (Flow.asks_call _ _) (fun _ => h.payment) (fun v _ => hok v) fun err _ => herr err

theorem meets_fork {f : TaskHandle → Flow α} {target : Target}
    (hk : ∀ t, A (.fork target args) (.ok (.task t)) →
      (f t).Meets A fun ys b => Q ((.fork target args, .ok (.task t)) :: ys) b) :
    (Flow.fork target args >>= f).Meets A Q := by
  refine Flow.Meets.ask (Flow.asks_fork _ _) (fun o t ha htake => ?_) fun r err ha htake => ?_
  · obtain ⟨_, ht⟩ := h.fork ha
    cases ht
    cases htake
    exact hk t ha
  · obtain ⟨_, rfl⟩ := h.fork ha
    cases htake

end Backs

/-! ## The payment -/

/-- The effects of a payment. -/
def paymentEffects (services : Services) (card amount : Json) : List Effect :=
  .call (services.target .validateCard) [card] ::
    if services.cardValid then
      [.put cardValidation, .call (services.target .pay) [card, amount], .put paymentCompletion]
    else []

/-- What a payment comes to. -/
def paid (cardValid : Bool) (card : Json) : Outcome := if cardValid then .ok .null else .error (refusal card)

section

variable {services : Services} {A : Effect → Resume → Prop}

theorem validated_iff (services : Services) (args : List Json) :
    ((services.respond .validateCard args).field "status" == .str "success") = services.cardValid := by
  have hstatus : (services.respond .validateCard args).field "status" =
      .str (if services.cardValid then "success" else "failure") := by
    simp [Services.respond, Json.field, Json.member?_object]
  rw [hstatus]
  cases services.cardValid <;> decide

theorem cardValid_of_paid {cardValid : Bool} {card : Json} {v : Output}
    (h : .ok v = (paid cardValid card).map Output.value) : cardValid = true := by
  cases cardValid with
  | true => rfl
  | false => cases h

/-- A card is validated, and then charged if it is valid. -/
theorem meets_makePayment (h : Backs services A) (args : List Json) :
    (makePayment services args).Meets A fun ys b =>
      ys.map Prod.fst = paymentEffects services (arg args 0) (arg args 1) ∧
        b = paid services.cardValid (arg args 0) := by
  refine h.meets_call (by decide) ?_
  simp only [validated_iff]
  cases hvalid : services.cardValid with
  | true =>
    refine h.meets_put rfl fun _ => h.meets_call (by decide) (h.meets_put rfl fun _ => .pure ?_)
    simp [paymentEffects, paid, hvalid, cardValidation, paymentCompletion]
  | false =>
    refine .throw ?_
    simp [paymentEffects, paid, hvalid, refusal]

theorem sequential_makePayment (services : Services) (args : List Json) :
    (makePayment services args).Sequential := by
  refine (Flow.Sequential.call _ _).bind fun v => ?_
  split
  · exact (Flow.Sequential.put rfl).bind fun _ => (Flow.Sequential.call _ _).bind fun _ =>
      (Flow.Sequential.put rfl).bind fun _ => .pure _
  · exact .throw _

end

/-! ## The checkout -/

/-- The look-ups that go on beside the checkout. -/
def lookupEffects (services : Services) (productId userId : String) : List Effect :=
  [.fork (services.target .fetchUserAddress) [.str userId],
    .fork (services.target .fetchProductPrice) [.str productId]]

/-- The effects of a checkout before the payment, -/
def openingEffects (services : Services) (productId userId : String) (price : TaskHandle) : List Effect :=
  [.call (services.target .reserveProduct) [.str productId],
    .call (services.target .fetchUserPaymentDetails) [.str userId], .put cardUpdate, .join price]

/-- the payment itself, -/
def paymentCall (services : Services) : Effect :=
  .call (services.target .makePayment) [cardNumber, productPrice]

/-- and the effects after it. -/
def closingEffects (services : Services) (productId userId : String) (address : TaskHandle) : List Effect :=
  [.join address, .put addressUpdate,
    .call (services.target .completeOrder) [.str productId, .str userId, .str shippingAddress],
    .put orderCompletion]

/-- What is done about a failure. -/
def undoEffects (services : Services) (productId : String) : Outcome → List Effect
  | .ok _ => []
  | .error e =>
    [.call (services.target .cancelProductReservation) [.str productId], .put (orderFailure e)]

/-- How a checkout goes, with the tasks of its look-ups: it fails when a look-up is lost or the payment fails. -/
inductive Course (A : Effect → Resume → Prop) (services : Services) (productId userId : String)
    (address price : TaskHandle) : List (Effect × Resume) → Outcome → Prop
  | unpriced {xs : List (Effect × Resume)} {e : EffectError}
      (hxs : xs.map Prod.fst = openingEffects services productId userId price)
      (hlost : A (.join price) (.error e)) : Course A services productId userId address price xs (.error e)
  | unpaid (before : List (Effect × Resume)) {e : EffectError}
      (hbefore : before.map Prod.fst = openingEffects services productId userId price) :
      Course A services productId userId address price (before ++ [(paymentCall services, .error e)]) (.error e)
  | unaddressed (before later : List (Effect × Resume)) {v : Output} {e : EffectError}
      (hbefore : before.map Prod.fst = openingEffects services productId userId price)
      (hlater : later.map Prod.fst = [.join address]) (hlost : A (.join address) (.error e)) :
      Course A services productId userId address price (before ++ (paymentCall services, .ok v) :: later)
        (.error e)
  | placed (before later : List (Effect × Resume)) {v : Output}
      (hbefore : before.map Prod.fst = openingEffects services productId userId price)
      (hlater : later.map Prod.fst = closingEffects services productId userId address) :
      Course A services productId userId address price (before ++ (paymentCall services, .ok v) :: later)
        (.ok (confirmation productId userId))

/-- How an order goes: the look-ups are forked, the checkout goes its course, and a failure is undone. -/
inductive Ordering (A : Effect → Resume → Prop) (services : Services) (productId userId : String) :
    List (Effect × Resume) → Outcome → Prop
  | intro {address price : TaskHandle} {o : Outcome} (forks course undo : List (Effect × Resume))
      (hforks : forks.map Prod.fst = lookupEffects services productId userId)
      (haddress : A (.fork (services.target .fetchUserAddress) [.str userId]) (.ok (.task address)))
      (hprice : A (.fork (services.target .fetchProductPrice) [.str productId]) (.ok (.task price)))
      (hcourse : Course A services productId userId address price course o)
      (hundo : undo.map Prod.fst = undoEffects services productId o) :
      Ordering A services productId userId (forks ++ (course ++ undo)) o

section

variable {services : Services} {A : Effect → Resume → Prop} {productId userId : String}
  {address price : TaskHandle}

theorem cardNumber_of_details (services : Services) (args : List Json) :
    (services.respond .fetchUserPaymentDetails args).field "cardNumber" = cardNumber := by
  simp [Services.respond, Json.field, Json.member?_object]

theorem price_of_product (services : Services) (args : List Json) :
    (services.respond .fetchProductPrice args).field "price" = productPrice := by
  simp [Services.respond, Json.field, Json.member?_object]

theorem address_of_user (services : Services) (args : List Json) :
    (services.respond .fetchUserAddress args).field "address" = .str shippingAddress := by
  simp [Services.respond, Json.field, Json.member?_object]

theorem orderId_of_order (services : Services) (args : List Json) :
    (services.respond .completeOrder args).field "orderId" = .str orderId := by
  simp [Services.respond, Json.field, Json.member?_object]

/-- **The checkout goes its course.** -/
theorem meets_checkout (h : Backs services A)
    (haddress : A (.fork (services.target .fetchUserAddress) [.str userId]) (.ok (.task address)))
    (hprice : A (.fork (services.target .fetchProductPrice) [.str productId]) (.ok (.task price))) :
    (checkout services productId userId address price).Meets A
      (Course A services productId userId address price) := by
  refine h.meets_call (by decide) (h.meets_call (by decide) ?_)
  rw [cardNumber_of_details]
  refine h.meets_put rfl fun _ => h.meets_join (fun v hv => ?_) fun e hlost => .unpriced rfl hlost
  cases h.joined (by decide) hprice hv
  rw [price_of_product]
  refine h.meets_payment (fun _ => ?_) fun e => .unpaid [_, _, _, _] rfl
  refine h.meets_join (fun v hv => ?_) fun e hlost => .unaddressed [_, _, _, _] [_] rfl rfl hlost
  cases h.joined (by decide) haddress hv
  rw [address_of_user]
  refine h.meets_put rfl fun _ => h.meets_call (by decide) ?_
  rw [orderId_of_order]
  exact h.meets_put rfl fun _ => .pure (.placed [_, _, _, _] [_, _, _, _] rfl rfl)

/-- A failure is undone, and given back. -/
theorem meets_rollback (h : Backs services A) (e : EffectError) :
    (rollback services productId e).Meets A fun ys b =>
      ys.map Prod.fst = undoEffects services productId (.error e) ∧ b = .error e :=
  .request fun _ => h.meets_call (by decide) (h.meets_put rfl fun _ => .throw ⟨rfl, rfl⟩)

theorem meets_orderProduct (h : Backs services A) :
    (orderProduct services productId userId).Meets A (Ordering A services productId userId) := by
  refine h.meets_fork fun address haddress => h.meets_fork fun price hprice => ?_
  refine .bind (.attempt (meets_checkout h haddress hprice)) (fun ys o hcourse => ?_) fun ys e hcourse => ?_
  · obtain ⟨_, ho, hcourse⟩ := hcourse
    cases ho
    cases o with
    | ok order =>
      refine .pure ?_
      exact .intro [_, _] ys [] rfl haddress hprice hcourse rfl
    | error e =>
      refine (meets_rollback h e).mono fun zs b hundo => ?_
      obtain ⟨hzs, rfl⟩ := hundo
      exact .intro [_, _] ys zs rfl haddress hprice hcourse hzs
  · obtain ⟨_, hb, _⟩ := hcourse
    cases hb

/-! ## It is sequential -/

theorem sequential_checkout (services : Services) (productId userId : String) (address price : TaskHandle) :
    (checkout services productId userId address price).Sequential :=
  (Flow.Sequential.call _ _).bind fun _ => (Flow.Sequential.call _ _).bind fun _ =>
    (Flow.Sequential.put rfl).bind fun _ => (Flow.Sequential.join _).bind fun _ =>
    (Flow.Sequential.call _ _).bind fun _ => (Flow.Sequential.join _).bind fun _ =>
    (Flow.Sequential.put rfl).bind fun _ => (Flow.Sequential.call _ _).bind fun _ =>
    (Flow.Sequential.put rfl).bind fun _ => .pure _

theorem sequential_orderProduct (services : Services) (productId userId : String) :
    (orderProduct services productId userId).Sequential := by
  refine (Flow.Sequential.fork _ _).bind fun address => (Flow.Sequential.fork _ _).bind fun price =>
    (sequential_checkout services productId userId address price).attempt.bind fun o => ?_
  cases o with
  | ok order => exact .pure _
  | error e =>
    exact (Flow.Sequential.request _).bind fun _ => (Flow.Sequential.call _ _).bind fun _ =>
      (Flow.Sequential.put rfl).bind fun _ => .throw _

end

/-! ## A run of it -/

/-- All effects of an order that has come to its end, the payment's among them. -/
inductive Conducted (services : Services) (productId userId : String) : List Effect → Outcome → Prop
  | unpriced (price : TaskHandle) (e : EffectError) :
      Conducted services productId userId
        (lookupEffects services productId userId ++ (openingEffects services productId userId price ++
          undoEffects services productId (.error e))) (.error e)
  | unpaid (price : TaskHandle) (e : EffectError) :
      Conducted services productId userId
        (lookupEffects services productId userId ++ openingEffects services productId userId price ++
          paymentCall services :: (paymentEffects services cardNumber productPrice ++
            undoEffects services productId (.error e))) (.error e)
  | unaddressed (price address : TaskHandle) (e : EffectError) (hvalid : services.cardValid = true) :
      Conducted services productId userId
        (lookupEffects services productId userId ++ openingEffects services productId userId price ++
          paymentCall services :: (paymentEffects services cardNumber productPrice ++
            .join address :: undoEffects services productId (.error e))) (.error e)
  | placed (price address : TaskHandle) (hvalid : services.cardValid = true) :
      Conducted services productId userId
        (lookupEffects services productId userId ++ openingEffects services productId userId price ++
          paymentCall services :: (paymentEffects services cardNumber productPrice ++
            closingEffects services productId userId address)) (.ok (confirmation productId userId))

/-- The outcome of an order that nothing hinders. -/
def due (cardValid : Bool) (productId userId : String) : Outcome :=
  if cardValid then .ok (confirmation productId userId) else .error (refusal cardNumber)

section

variable {Co : Type} {p : Program Co Code} {ofBlock : Block Code → Co} {services : Services}
  (hp : Offers p ofBlock services)
include hp

theorem closed_call {service : Service} (hs : service ≠ .makePayment) (args : List Json) :
    Closed p (.call (services.target service) args) := .call (givesIdle_of_offers hp hs args)

theorem leafy_lookups (productId userId : String) : ∀ e ∈ lookupEffects services productId userId, Leafy p e := by
  simp only [lookupEffects, List.forall_mem_cons]
  exact ⟨.fork (givesIdle_of_offers hp (by decide) _), .fork (givesIdle_of_offers hp (by decide) _), by simp⟩

theorem closed_opening (productId userId : String) (price : TaskHandle) :
    ∀ e ∈ openingEffects services productId userId price, Closed p e := by
  simp only [openingEffects, List.forall_mem_cons]
  exact ⟨closed_call hp (by decide) _, closed_call hp (by decide) _, .put _, .join _, by simp⟩

theorem closed_closing (productId userId : String) (address : TaskHandle) :
    ∀ e ∈ closingEffects services productId userId address, Closed p e := by
  simp only [closingEffects, List.forall_mem_cons]
  exact ⟨.join _, .put _, closed_call hp (by decide) _, .put _, by simp⟩

theorem closed_undo (productId : String) (o : Outcome) : ∀ e ∈ undoEffects services productId o, Closed p e := by
  cases o with
  | ok v => simp [undoEffects]
  | error e =>
    simp only [undoEffects, List.forall_mem_cons]
    exact ⟨closed_call hp (by decide) _, .put _, by simp⟩

theorem closed_payment (card amount : Json) : ∀ e ∈ paymentEffects services card amount, Closed p e := by
  unfold paymentEffects
  refine List.forall_mem_cons.mpr ⟨closed_call hp (by decide) _, ?_⟩
  split
  · simp only [List.forall_mem_cons]
    exact ⟨.put _, closed_call hp (by decide) _, .put _, by simp⟩
  · simp

variable {s : SchedulerId} (hbuiltin : (p.scheduler s).processors = .builtin) {moves : List (Move Co Code)}
  {key : DriverKey} {co₀ : Co} {input : Resume} {rest : List (TaskEvent Co)} {o : Outcome}
include hbuiltin

/-- What is done on behalf of a coroutine whose effects are leafy but for one payment. -/
theorem transcript_of_payment
    (h : history p moves key = .entered s co₀ :: .resumed co₀ input :: (rest ++ [.returned o, .ended o]))
    {before later : List (Effect × Resume)} {r : Resume}
    (hn : Narrates rest (before ++ (paymentCall services, r) :: later))
    (hbefore : ∀ e ∈ before.map Prod.fst, Leafy p e) (hlater : ∀ e ∈ later.map Prod.fst, Leafy p e) :
    Transcript p moves key (before.map Prod.fst ++ paymentCall services ::
      (paymentEffects services cardNumber productPrice ++ later.map Prod.fst)) ∧
      (∀ v, r = .ok v → r = (paid services.cardValid cardNumber).map .value) ∧
      (Unhindered p moves key → r = (paid services.cardValid cardNumber).map .value) := by
  have hmeets : ∀ n ys r', (makePayment services [cardNumber, productPrice]).code.Talks
        (Answered p moves n s (ofBlock (.ofCode (makePayment services [cardNumber, productPrice]).code))) ys r' →
      ys.map Prod.fst = paymentEffects services cardNumber productPrice ∧
        r' = (paid services.cardValid cardNumber).map .value := by
    intro n ys r' htalks
    obtain ⟨b, ⟨hys, rfl⟩, rfl⟩ := (meets_makePayment (backs_answered hp hbuiltin) _).of_code htalks
    exact ⟨hys, rfl⟩
  obtain ⟨n, ys, r', htalks, htranscript, hok, hunhindered⟩ :=
    transcript_of_exchange hp.blocks hbuiltin h hn hbefore hlater (fun _ => eq_of_gives_payment hp)
      (sequential_makePayment services _).code fun n ys r' htalks =>
        (hmeets n ys r' htalks).1 ▸ closed_payment hp _ _
  obtain ⟨hys, rfl⟩ := hmeets n ys r' htalks
  have hwired : Resume.wired ((paid services.cardValid cardNumber).map .value) =
      (paid services.cardValid cardNumber).map .value := by
    cases paid services.cardValid cardNumber <;> rfl
  rw [hwired] at hok hunhindered
  rw [hys] at htranscript
  exact ⟨htranscript, hok, hunhindered⟩

/-- **What is done on behalf of an order that has come to its end.** -/
theorem conducted_of_ended {productId userId : String} {told : List (TaskEvent Co)}
    (h : history p moves key =
      .entered s (ofBlock (.ofCode (orderProduct services productId userId).code)) :: told)
    (ho : .ended o ∈ told) :
    ∃ es, Transcript p moves key es ∧ Conducted services productId userId es o ∧
      (Unhindered p moves key → o = due services.cardValid productId userId) := by
  obtain ⟨xs, r, rest, htalks, rfl, rfl, hn⟩ :=
    talks_of_ended hp.blocks hbuiltin (sequential_orderProduct services productId userId).code h ho
  obtain ⟨o, hordering, rfl⟩ := (meets_orderProduct (backs_answered hp hbuiltin)).of_code htalks
  have hwire : (o.map Output.value).map Output.wire = o := by cases o <;> rfl
  rw [hwire] at h ho ⊢
  have hlookups := leafy_lookups hp productId userId
  have hopening : ∀ price, ∀ e ∈ openingEffects services productId userId price, Leafy p e := fun price e he =>
    .closed (closed_opening hp productId userId price e he)
  have hundone : ∀ o, ∀ e ∈ undoEffects services productId o, Leafy p e := fun o e he =>
    .closed (closed_undo hp productId o e he)
  obtain ⟨forks, course, undo, hforks, haddress, hprice, hcourse, hundo⟩ := hordering
  rw [← hforks] at hlookups
  cases hcourse with
  | unpriced hxs hlost =>
    have htranscript := transcript_of_narrates hbuiltin h hn <| by
      simp only [List.map_append, List.forall_mem_append, hxs, hundo]
      exact ⟨hlookups, hopening _, hundone _⟩
    simp only [List.map_append, hforks, hxs, hundo] at htranscript
    refine ⟨_, htranscript, .unpriced _ _, fun hu => ?_⟩
    cases joined_of_unhindered hp (by decide) hu hprice hlost
  | unpaid before hbefore =>
    rw [List.append_assoc, ← List.append_assoc, List.singleton_append] at hn
    obtain ⟨htranscript, _, hunhindered⟩ := transcript_of_payment hp hbuiltin h hn
      (by simpa only [List.map_append, List.forall_mem_append, hbefore] using ⟨hlookups, hopening _⟩)
      (hundo ▸ hundone _)
    simp only [List.map_append, hforks, hbefore, hundo] at htranscript
    refine ⟨_, htranscript, .unpaid _ _, fun hu => ?_⟩
    have hpaid := hunhindered hu
    cases hvalid : services.cardValid with
    | true =>
      rw [hvalid] at hpaid
      cases hpaid
    | false =>
      rw [hvalid] at hpaid
      cases hpaid
      rfl
  | unaddressed before later hbefore hlater hlost =>
    rw [List.append_assoc, ← List.append_assoc, List.cons_append] at hn
    obtain ⟨htranscript, hok, _⟩ := transcript_of_payment hp hbuiltin h hn
      (by simpa only [List.map_append, List.forall_mem_append, hbefore] using ⟨hlookups, hopening _⟩)
      (by
        simp only [List.map_append, List.forall_mem_append, hlater, hundo, List.forall_mem_singleton]
        exact ⟨.closed (.join _), hundone _⟩)
    simp only [List.map_append, hforks, hbefore, hlater, hundo, List.singleton_append] at htranscript
    refine ⟨_, htranscript, .unaddressed _ _ _ (cardValid_of_paid (hok _ rfl)), fun hu => ?_⟩
    cases joined_of_unhindered hp (by decide) hu haddress hlost
  | placed before later hbefore hlater =>
    obtain rfl : undo = [] := List.map_eq_nil_iff.mp hundo
    rw [List.append_nil, ← List.append_assoc] at hn
    obtain ⟨htranscript, hok, _⟩ := transcript_of_payment hp hbuiltin h hn
      (by simpa only [List.map_append, List.forall_mem_append, hbefore] using ⟨hlookups, hopening _⟩)
      fun e he => .closed (closed_closing hp productId userId _ e (hlater ▸ he))
    simp only [List.map_append, hforks, hbefore, hlater] at htranscript
    have hvalid := cardValid_of_paid (hok _ rfl)
    exact ⟨_, htranscript, .placed _ _ hvalid, fun _ => by rw [due, if_pos hvalid]⟩

end

/-! ## What follows from the effects -/

section

variable {services : Services} {productId userId : String}

theorem eventsIn_lookups : eventsIn (lookupEffects services productId userId) = [] := rfl

theorem eventsIn_opening {price : TaskHandle} :
    eventsIn (openingEffects services productId userId price) = [cardUpdate] := rfl

theorem eventsIn_payment {card amount : Json} : eventsIn (paymentEffects services card amount) =
    if services.cardValid then [cardValidation, paymentCompletion] else [] := by
  unfold paymentEffects
  split <;> rfl

theorem eventsIn_closing {address : TaskHandle} :
    eventsIn (closingEffects services productId userId address) = [addressUpdate, orderCompletion] := rfl

theorem eventsIn_undo {e : EffectError} : eventsIn (undoEffects services productId (.error e)) = [orderFailure e] :=
  rfl

theorem target_injective (services : Services) : Function.Injective services.target := by
  intro a b h
  have hname : a.name = b.name := congrArg Target.name h
  have hfound := ofName?_name a
  rw [hname, ofName?_name] at hfound
  exact (Option.some.inj hfound).symm

namespace Conducted

variable {es : List Effect} {o : Outcome}

theorem concluded (h : Conducted services productId userId es o) : Concluded productId userId (eventsIn es) o := by
  cases h with
  | unpriced price e =>
    simp only [eventsIn_append, eventsIn_lookups, eventsIn_opening, eventsIn_undo]
    exact .failed 1 e (by decide) (by decide)
  | unpaid price e =>
    simp only [eventsIn_append, eventsIn_cons, eventsIn_lookups, eventsIn_opening, eventsIn_payment, eventsIn_undo]
    split
    · exact .failed 3 e (by decide) (by decide)
    · exact .failed 1 e (by decide) (by decide)
  | unaddressed price address e hvalid =>
    simp only [eventsIn_append, eventsIn_cons, eventsIn_lookups, eventsIn_opening, eventsIn_payment, hvalid,
      if_true, eventsIn_undo]
    exact .failed 3 e (by decide) (by decide)
  | placed price address hvalid =>
    simp only [eventsIn_append, eventsIn_cons, eventsIn_lookups, eventsIn_opening, eventsIn_payment, hvalid,
      if_true, eventsIn_closing]
    exact .placed

/-- The reservation is cancelled if the order fails. -/
theorem cancels_iff (h : Conducted services productId userId es o) :
    (∃ args, .call (services.target .cancelProductReservation) args ∈ es) ↔ ∃ e, o = .error e := by
  cases h with
  | unpriced price e => exact iff_of_true ⟨[.str productId], by simp [undoEffects]⟩ ⟨e, rfl⟩
  | unpaid price e => exact iff_of_true ⟨[.str productId], by simp [undoEffects]⟩ ⟨e, rfl⟩
  | unaddressed price address e _ => exact iff_of_true ⟨[.str productId], by simp [undoEffects]⟩ ⟨e, rfl⟩
  | placed price address hvalid =>
    simp [lookupEffects, openingEffects, paymentCall, paymentEffects, closingEffects, hvalid,
      (target_injective services).eq_iff]

/-- The events of an order with the outcome that is due. -/
theorem eventsIn_of_due (h : Conducted services productId userId es o)
    (ho : o = due services.cardValid productId userId) : eventsIn es =
      if services.cardValid then events else [cardUpdate, orderFailure (refusal cardNumber)] := by
  cases hvalid : services.cardValid with
  | true =>
    rw [hvalid] at ho
    have htold := h.concluded
    rw [ho] at htold
    generalize eventsIn es = xs at htold
    cases htold
    rfl
  | false =>
    rw [hvalid] at ho
    cases h with
    | unpriced price e =>
      cases ho
      rfl
    | unpaid price e =>
      cases ho
      simp only [eventsIn_append, eventsIn_cons, eventsIn_lookups, eventsIn_opening, eventsIn_payment, hvalid,
        eventsIn_undo]
      rfl
    | unaddressed price address e hvalid' => cases hvalid.symm.trans hvalid'
    | placed price address hvalid' => cases hvalid.symm.trans hvalid'

end Conducted

end

/-- What there is to know of an order that has come to its end in the run with the outcome `o`. -/
structure Completes {Co : Type} (p : Program Co Code) (moves : List (Move Co Code)) (key : DriverKey)
    (services : Services) (productId userId : String) (o : Outcome) : Prop where
  concluded : Concluded productId userId (dispatched p moves key) o
  exclusive : ¬ (Tells "COMPLETE_ORDER" (dispatched p moves key) ∧ Tells "ORDER_FAILED" (dispatched p moves key))
  paid : ∀ before x, before ++ [x] <+: dispatched p moves key → IsOf "COMPLETE_ORDER" x →
    Tells "PAYMENT_COMPLETE" before
  cancelled : (∃ args, ProcessedFor p moves key (.call (services.target .cancelProductReservation) args)) ↔
    Tells "ORDER_FAILED" (dispatched p moves key)
  /-- The latency does not matter. -/
  unhindered : Unhindered p moves key → o = due services.cardValid productId userId ∧ dispatched p moves key =
    if services.cardValid then events else [cardUpdate, orderFailure (refusal cardNumber)]
  settled : (∃ t, WorksOn p moves key t) ∧ ∀ t, WorksOn p moves key t →
    (after p {} moves).outcome? t = some o ∨
      (after p {} moves).outcome? t = some (.error (.terminated t.id)) ∧ Terminated p moves t

/-- **A checkout from end to end.** However slow the services are and whatever tasks are terminated when, an
order that comes to its end has told the sink all five events and is confirmed, or has told a part of them
and then that it failed, and fails with that error. -/
theorem completes_of_ended {Co : Type} {p : Program Co Code} {ofBlock : Block Code → Co} {services : Services}
    (hp : Offers p ofBlock services) {s : SchedulerId} (hbuiltin : (p.scheduler s).processors = .builtin)
    {moves : List (Move Co Code)} {key : DriverKey} {productId userId : String} {told : List (TaskEvent Co)}
    {o : Outcome} (h : history p moves key =
      .entered s (ofBlock (.ofCode (orderProduct services productId userId).code)) :: told)
    (ho : .ended o ∈ told) : Completes p moves key services productId userId o := by
  obtain ⟨es, htranscript, hconducted, hdue⟩ := conducted_of_ended hp hbuiltin h ho
  have hconcluded := hconducted.concluded
  rw [← htranscript.dispatched] at hconcluded
  have hended : .ended o ∈ history p moves key := h ▸ List.mem_cons_of_mem _ ho
  exact {
    concluded := hconcluded
    exclusive := hconcluded.exclusive
    paid := fun before x hle htype => hconcluded.paid hle htype
    cancelled := by
      rw [hconcluded.tells_failure_iff, ← hconducted.cancels_iff]
      exact exists_congr fun args => htranscript.processed _
    unhindered := fun hu => ⟨hdue hu, htranscript.dispatched.trans (hconducted.eventsIn_of_due (hdue hu))⟩
    settled := by
      refine ⟨exists_worksOn p hended, ?_⟩
      rintro t ⟨first, d, hfirst, hd, hk, rfl⟩
      exact outcome_of_ended p hended hfirst hd hk }

/-- A home is polled, and the poll takes so many steps. -/
def pollFor (home steps : Nat) : List (Move (Block Code) Code) := .poll ⟨home⟩ :: List.replicate steps .step

/-- The order of a product with a card that is valid, while the clock runs from one answer of a service to the
next. -/
def ordersProduct : List (Move (Block Code) Code) :=
  .act (.start ⟨0⟩ "order" (.ofCode (orderProduct ⟨250, true⟩ "product" "user").code) fun _ => .ret ()) ::
    (pollFor 1 25 ++ pollFor 2 7 ++ pollFor 3 7 ++ .jump 750 :: pollFor 1 17 ++
      .jump 1000 :: pollFor 2 7 ++ pollFor 3 7 ++ .jump 1250 :: pollFor 1 14 ++ .flush :: pollFor 1 38 ++
      .flush :: pollFor 1 20 ++ .jump 1750 :: pollFor 1 18 ++ .flush :: pollFor 1 30 ++
      .flush :: pollFor 1 16 ++ .jump 2250 :: pollFor 1 14 ++ .flush :: pollFor 1 11)

/-- The driver ends with a value. -/
def endsWell {Co : Type} : TaskEvent Co → Bool
  | .ended (.ok _) => true
  | _ => false

theorem eq_ended_of_endsWell {Co : Type} {e : TaskEvent Co} (h : endsWell e = true) :
    ∃ v, e = .ended (.ok v) := by
  unfold endsWell at h
  split at h
  · exact ⟨_, rfl⟩
  · cases h

theorem ordersProduct_ends : ∃ v, .ended (.ok v) ∈ history (program {}) ordersProduct ⟨1⟩ := by
  have hends : (history (program {}) ordersProduct ⟨1⟩).any endsWell = true := by decide +kernel
  obtain ⟨e, he, hend⟩ := List.any_eq_true.mp hends
  obtain ⟨v, rfl⟩ := eq_ended_of_endsWell hend
  exact ⟨v, he⟩

/-- The order is confirmed, and has told all five events. -/
theorem ordersProduct_completes : ∃ told, history (program {}) ordersProduct ⟨1⟩ =
      .entered ⟨0⟩ (.ofCode (orderProduct ⟨250, true⟩ "product" "user").code) :: told ∧
    .ended (.ok (confirmation "product" "user")) ∈ told ∧
    Completes (program {}) ordersProduct ⟨1⟩ ⟨250, true⟩ "product" "user" (.ok (confirmation "product" "user")) ∧
    dispatched (program {}) ordersProduct ⟨1⟩ = events := by
  have hhistory : history (program {}) ordersProduct ⟨1⟩ =
      .entered ⟨0⟩ (id (.ofCode (orderProduct ⟨250, true⟩ "product" "user").code)) ::
        (history (program {}) ordersProduct ⟨1⟩).tail := by rfl
  obtain ⟨v, hv⟩ := ordersProduct_ends
  have hended : .ended (.ok v) ∈ (history (program {}) ordersProduct ⟨1⟩).tail := by
    rw [hhistory] at hv
    simpa using hv
  have hcompletes := completes_of_ended (offers_program {} ⟨250, true⟩) rfl hhistory hended
  have hconcluded := hcompletes.concluded
  generalize hxs : dispatched (program {}) ordersProduct ⟨1⟩ = xs at hconcluded
  cases hconcluded
  exact ⟨_, hhistory, hended, hcompletes, rfl⟩

end EffectLoop.Order
