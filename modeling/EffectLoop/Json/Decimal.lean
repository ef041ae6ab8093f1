/-!
# Exact decimals

A number written with a fraction. The value is `±digits / 10 ^ places`; two decimals are equal when
their values are, so `0.0` and `-0.0` are equal although they print differently. A decimal prints
positionally with the digits it needs and at least one place.
-/

namespace EffectLoop

/-- `±digits / 10 ^ places`. -/
structure Decimal where
  negative : Bool
  digits : Nat
  places : Nat
deriving Inhabited

namespace Decimal

/-- Drop final zeros of the fraction while more than one place is left. -/
def trimPlaces : Nat → Nat → Nat × Nat
  | digits, 0 => (digits * 10, 1)
  | digits, 1 => (digits, 1)
  | digits, places + 2 =>
    if digits % 10 = 0 then trimPlaces (digits / 10) (places + 1) else (digits, places + 2)

/-- The decimal of this value with as few places as it needs, but at least one. -/
def ofDigits (negative : Bool) (digits places : Nat) : Decimal :=
  let (digits, places) := trimPlaces digits places
  ⟨negative, digits, places⟩

/-- The signed digits. -/
def signed (d : Decimal) : Int := if d.negative then -(d.digits : Int) else d.digits

/-- Equality of values: cross multiplication, so the sign of zero does not count. -/
protected def beq (a b : Decimal) : Bool :=
  a.signed * Int.pow 10 b.places == b.signed * Int.pow 10 a.places

instance : BEq Decimal := ⟨Decimal.beq⟩

/-- The fraction, padded with zeros on the left to its number of places. -/
def fractionText (digits places : Nat) : String :=
  let text := toString (digits % Nat.pow 10 places)
  "".pushn '0' (places - text.length) ++ text

/-- Positional notation. -/
def text (d : Decimal) : String :=
  (if d.negative then "-" else "") ++ toString (d.digits / Nat.pow 10 d.places) ++ "."
    ++ fractionText d.digits d.places

end Decimal

end EffectLoop
