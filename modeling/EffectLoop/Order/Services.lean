import EffectLoop.Coroutine.Flow

/-!
# The services of a checkout

Stand-ins for the systems a checkout talks to. Each is a target that answers after a multiple of a
base latency; the validation of a card answers at once.
-/

namespace EffectLoop.Order

/-- How slow the services are, and whether the card is good. -/
structure Services where
  /-- Milliseconds. -/
  latency : Nat
  cardValid : Bool
deriving DecidableEq, Inhabited

/-- A service, or the payment that is made of two of them. -/
inductive Service
  | fetchUserAddress
  | fetchProductPrice
  | reserveProduct
  | cancelProductReservation
  | fetchUserPaymentDetails
  | validateCard
  | pay
  | completeOrder
  | makePayment
deriving DecidableEq, Inhabited

namespace Service

def all : List Service :=
  [.fetchUserAddress, .fetchProductPrice, .reserveProduct, .cancelProductReservation,
   .fetchUserPaymentDetails, .validateCard, .pay, .completeOrder, .makePayment]

def name : Service → String
  | .fetchUserAddress => "fetch_user_address"
  | .fetchProductPrice => "fetch_product_price"
  | .reserveProduct => "reserve_product"
  | .cancelProductReservation => "cancel_product_reservation"
  | .fetchUserPaymentDetails => "fetch_user_payment_details"
  | .validateCard => "validate_card"
  | .pay => "pay"
  | .completeOrder => "complete_order"
  | .makePayment => "make_payment"

/-- The service of a name. -/
def ofName? (name : String) : Option Service := all.find? fun s => s.name == name

/-- How many base latencies a service takes. -/
def units : Service → Nat
  | .fetchUserAddress | .fetchProductPrice => 4
  | .reserveProduct => 3
  | .cancelProductReservation => 1
  | .fetchUserPaymentDetails | .pay | .completeOrder => 2
  | .validateCard | .makePayment => 0

/-- Only the payment is a coroutine. -/
def shape : Service → Shape
  | .makePayment => .coroutine
  | _ => .function

end Service

def shippingAddress : String := "Stationsplein, 1012 AB Amsterdam, Netherlands"

def cardNumber : Json := .nat 1111222233334444

def productPrice : Json := .decimal ⟨false, 2499, 2⟩

def orderId : String := "ORD_ID_4242"

/-- The argument at a place, or null. -/
def arg (args : List Json) (i : Nat) : Json := (args[i]?).getD .null

namespace Services

/-- What a service answers. -/
def respond (services : Services) (service : Service) (args : List Json) : Json :=
  match service with
  | .fetchUserAddress =>
    .object [("userId", arg args 0), ("address", .str shippingAddress)]
  | .fetchProductPrice => .object [("productId", arg args 0), ("price", productPrice)]
  | .reserveProduct => .object [("productId", arg args 0), ("status", .str "reserved")]
  | .cancelProductReservation => .object [("productId", arg args 0), ("status", .str "success")]
  | .fetchUserPaymentDetails => .object [("userId", arg args 0), ("cardNumber", cardNumber)]
  | .validateCard =>
    .object [("cardNumber", arg args 0),
      ("status", .str (if services.cardValid then "success" else "failure"))]
  | .pay | .makePayment => .null
  | .completeOrder =>
    .object [("orderId", .str orderId), ("productId", arg args 0), ("userId", arg args 1),
      ("address", arg args 2)]

/-- A service as a target; its body closes over the settings of the services. -/
def target (services : Services) (service : Service) : Target where
  name := service.name
  shape := service.shape
  body := ⟨service.name, [services.latency, if services.cardValid then 1 else 0]⟩

/-- The services a body closes over. -/
def ofCaptured? : List Nat → Option Services
  | [latency, valid] => some ⟨latency, valid == 1⟩
  | _ => none

/-- A service that answers after its latency. -/
def delayed (services : Services) (service : Service) (args : List Json) : Flow Json := do
  Flow.sleep (services.latency * service.units)
  pure (services.respond service args)

end Services

end EffectLoop.Order
