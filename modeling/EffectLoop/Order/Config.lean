import EffectLoop.Text.Blank
import EffectLoop.Text.Numeral

/-!
# Checkout settings

Who orders what, whether the card is good, and how slow the services are, read from named settings.
The ids are taken as they stand; only the latency can be unfit.
-/

namespace EffectLoop.Order

/-- Settings of a checkout. -/
structure Config where
  productId : String := "PRDCT_ID_1122"
  userId : String := "USR_ID_9999"
  /-- If false, the card is refused and the order is rolled back. -/
  happyPath : Bool := true
  /-- Base latency of the services in milliseconds. -/
  latency : Nat := 250
deriving DecidableEq, Inhabited

namespace Config

def productKey : String := "ORDER_PRODUCT_ID"
def userKey : String := "ORDER_USER_ID"
def happyPathKey : String := "ORDER_HAPPY_PATH"
def latencyKey : String := "ORDER_LATENCY_MS"

/-- A latency that is not a number, and why. -/
structure InvalidLatency where
  value : String
  cause : Text.NumeralError
deriving DecidableEq

def InvalidLatency.message (e : InvalidLatency) : String :=
  latencyKey ++ " must be a number, got `" ++ e.value ++ "`"

/-- Whether a setting leaves the happy path on. -/
def readHappyPath (setting : Option String) : Bool :=
  match setting with
  | none => ({} : Config).happyPath
  | some raw => (Text.trimChars raw.toList).map Char.toLower ∉ ["false".toList, "0".toList, "no".toList]

/-- The latency that a setting gives. -/
def readLatency (setting : Option String) : Except InvalidLatency Nat :=
  match setting with
  | none => .ok ({} : Config).latency
  | some raw =>
    match Text.readNumeral Text.maxWord (Text.trimChars raw.toList) with
    | .ok n => .ok n
    | .error cause => .error ⟨raw, cause⟩

/-- Read the settings that `lookup` finds. -/
def ofLookup (lookup : String → Option String) : Except InvalidLatency Config := do
  let latency ← readLatency (lookup latencyKey)
  pure {
    productId := (lookup productKey).getD ({} : Config).productId
    userId := (lookup userKey).getD ({} : Config).userId
    happyPath := readHappyPath (lookup happyPathKey)
    latency }

/-- The settings as lines for the log. -/
def lines (config : Config) : List String :=
  ["Demo config loaded:",
   "  " ++ productKey ++ ": " ++ config.productId,
   "  " ++ userKey ++ ": " ++ config.userId,
   "  " ++ happyPathKey ++ ": " ++ (if config.happyPath then "true" else "false"),
   "  " ++ latencyKey ++ ": " ++ toString config.latency]

end Config

end EffectLoop.Order
