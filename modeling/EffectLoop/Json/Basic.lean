import EffectLoop.Json.Decimal

/-!
# JSON values

The dynamic values that events, arguments and results are made of. An object lists its members by
increasing key, each key once; `insertMember` keeps that form and `Json.object` builds it. Whole
numbers and decimals are different values even where they denote the same number.
-/

namespace EffectLoop

/-- A JSON value. -/
inductive Json
  | null
  | bool (b : Bool)
  | int (n : Int)
  | decimal (d : Decimal)
  | str (s : String)
  | arr (items : List Json)
  | obj (members : List (String × Json))
deriving Inhabited

namespace Json

mutual

/-- Equality of values. Decimals compare by value, all else by form. -/
def beq : Json → Json → Bool
  | .null, .null => true
  | .bool a, .bool b => a == b
  | .int a, .int b => a == b
  | .decimal a, .decimal b => a == b
  | .str a, .str b => a == b
  | .arr a, .arr b => beqItems a b
  | .obj a, .obj b => beqMembers a b
  | _, _ => false

def beqItems : List Json → List Json → Bool
  | [], [] => true
  | a :: as, b :: bs => beq a b && beqItems as bs
  | _, _ => false

def beqMembers : List (String × Json) → List (String × Json) → Bool
  | [], [] => true
  | (k, a) :: as, (l, b) :: bs => k == l && beq a b && beqMembers as bs
  | _, _ => false

end

instance : BEq Json := ⟨beq⟩

/-- Put a member at its place by key, over a member of that key. -/
def insertMember (key : String) (value : Json) : List (String × Json) → List (String × Json)
  | [] => [(key, value)]
  | (k, v) :: rest =>
    if key < k then (key, value) :: (k, v) :: rest
    else if k < key then (k, v) :: insertMember key value rest
    else (key, value) :: rest

/-- The object with these members; of two members with one key the later counts. -/
def object (members : List (String × Json)) : Json :=
  .obj (members.foldl (fun acc m => insertMember m.1 m.2 acc) [])

/-- A whole number. -/
def nat (n : Nat) : Json := .int n

/-- The member under `key`, if this is an object that has one. -/
def member? : Json → String → Option Json
  | .obj members, key => (members.find? fun m => m.1 == key).map Prod.snd
  | _, _ => none

/-- The member under `key`, or null. -/
def field (j : Json) (key : String) : Json := (j.member? key).getD .null

/-- The element at `i`, if this is an array that long. -/
def item? : Json → Nat → Option Json
  | .arr items, i => items[i]?
  | _, _ => none

/-- Whether this is an object. -/
def isObject : Json → Bool
  | .obj _ => true
  | _ => false

/-- The string, if this is one. -/
def asString? : Json → Option String
  | .str s => some s
  | _ => none

/-- The number, if this is a whole number in the range of a signed 64-bit word. -/
def asInt64? : Json → Option Int
  | .int n => if -Int.pow 2 63 ≤ n ∧ n < Int.pow 2 63 then some n else none
  | _ => none

/-- The number, if this is a whole number in the range of an unsigned 64-bit word. -/
def asNat64? : Json → Option Nat
  | .int n => if 0 ≤ n ∧ n < Int.pow 2 64 then some n.toNat else none
  | _ => none

/-- The array's elements; none of any other value. -/
def items : Json → List Json
  | .arr items => items
  | _ => []

/-- The object's members; none of any other value. -/
def members : Json → List (String × Json)
  | .obj members => members
  | _ => []

/-- A value if there is one, else null. -/
def ofOption (v : Option Json) : Json := v.getD .null

theorem find?_key_cons (m : String × Json) (members : List (String × Json)) (k : String) :
    (m :: members).find? (fun x => x.1 == k) =
      if m.1 = k then some m else members.find? fun x => x.1 == k := by
  by_cases h : m.1 = k <;> simp [h]

/-- A member that was put in is found under its key, and every other key keeps what it had. -/
theorem find?_insertMember (key : String) (value : Json) (members : List (String × Json)) (k : String) :
    (insertMember key value members).find? (fun x => x.1 == k) =
      if key = k then some (key, value) else members.find? fun x => x.1 == k := by
  induction members with
  | nil => rw [insertMember, find?_key_cons]
  | cons m rest ih =>
    rw [insertMember]
    split
    · rw [find?_key_cons]
    · split
      · rename_i hlt
        rw [find?_key_cons, find?_key_cons, ih]
        by_cases hk : key = k
        · rw [if_pos hk, if_pos hk, if_neg fun hm => Std.lt_irrefl (hm.trans hk.symm ▸ hlt)]
        · rw [if_neg hk, if_neg hk]
      · rename_i hle hge
        cases Std.le_antisymm (Std.not_lt.mp hge) (Std.not_lt.mp hle)
        rw [find?_key_cons, find?_key_cons]
        split <;> rfl

/-- What a built object has under a key is the last of the given members with that key. -/
theorem member?_object (members : List (String × Json)) (key : String) :
    (object members).member? key = (members.reverse.find? fun x => x.1 == key).map Prod.snd := by
  rw [object, List.foldl_eq_foldr_reverse, member?]
  congr 1
  induction members.reverse with
  | nil => rfl
  | cons m ms ih => rw [List.foldr_cons, find?_insertMember, find?_key_cons, ih]

end Json

end EffectLoop
