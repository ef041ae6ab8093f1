import EffectLoop.Order.Services

/-!
# Checkout

Reserve, pay for and ship a product. The address and the price are looked up while the order goes on.
After the look-ups any failure cancels the reservation, is told by `ORDER_FAILED`, and is the outcome
of the order, unless one of these fails in its turn; a card that is not valid is never charged.
-/

namespace EffectLoop.Order

/-- An event with a payload. -/
def event (type : String) (payload : Json) : Json :=
  .object [("type", .str type), ("payload", payload)]

/-- Cancel the reservation and give the failure back as the outcome. -/
def rollback (services : Services) (productId : String) (error : EffectError) : Flow Json := do
  Flow.request (.record .info .order "Order failed, cancelling reservation"
    [⟨"product_id", productId, true⟩, ⟨"error", error.message, false⟩])
  let _ ← Flow.call (services.target .cancelProductReservation) [.str productId]
  let _ ← Flow.put (.object [("type", .str "ORDER_FAILED"), ("error", .str error.message)])
  throw error

/-- Everything after the look-ups have been forked. -/
def checkout (services : Services) (productId userId : String) (address price : TaskHandle) :
    Flow Json := do
  let _ ← Flow.call (services.target .reserveProduct) [.str productId]
  let payment ← Flow.call (services.target .fetchUserPaymentDetails) [.str userId]
  let card := payment.field "cardNumber"
  let _ ← Flow.put (event "UPDATE_USER_CARD_NUMBER" card)
  let price ← Flow.join price
  let _ ← Flow.call (services.target .makePayment) [card, price.field "price"]
  let address := (← Flow.join address).field "address"
  let _ ← Flow.put (event "UPDATE_USER_ADDRESS" address)
  let order ← Flow.call (services.target .completeOrder) [.str productId, .str userId, address]
  let _ ← Flow.put (event "COMPLETE_ORDER" (order.field "orderId"))
  pure order

/-- Order a product. -/
def orderProduct (services : Services) (productId userId : String) : Flow Json := do
  let address ← Flow.fork (services.target .fetchUserAddress) [.str userId]
  let price ← Flow.fork (services.target .fetchProductPrice) [.str productId]
  match ← Flow.attempt (checkout services productId userId address price) with
  | .ok order => pure order
  | .error error => rollback services productId error

/-- Validate the card, then charge it. Arguments: card number and amount. -/
def makePayment (services : Services) (args : List Json) : Flow Json := do
  let card := arg args 0
  let validation ← Flow.call (services.target .validateCard) [card]
  if validation.field "status" == .str "success" then
    let _ ← Flow.put (.object [("type", .str "CARD_VALIDATION_SUCCESS")])
    let _ ← Flow.call (services.target .pay) [card, arg args 1]
    let _ ← Flow.put (.object [("type", .str "PAYMENT_COMPLETE")])
    pure .null
  else
    throw (.failure ("card number " ++ card.compact ++ " is not valid")
      (.object [("cardNumber", card)]))

/-- What invoking a service gives: the payment is a coroutine, the validation is done at once, all
else answers later. -/
def invoke {Co : Type} (ofBlock : Block Code → Co) (services : Services) (service : Service)
    (args : List Json) : Invoked Co Code :=
  match service with
  | .makePayment => .coroutine (ofBlock (.ofCode (makePayment services args).code))
  | .validateCard => .pending (.done (.ok (.value (services.respond .validateCard args))))
  | service => .pending (services.delayed service args).code

/-- What invoking a target gives, if its body is a service's. -/
def invoke? {Co : Type} (ofBlock : Block Code → Co) (target : Target) (args : List Json) :
    Option (Invoked Co Code) := do
  let services ← Services.ofCaptured? target.body.captured
  let service ← Service.ofName? target.body.label
  pure (invoke ofBlock services service args)

end EffectLoop.Order
