/-
# SymbolAtlas.Json.Basic -- JSON values

Objects are lists of members in the order in which they are written.  A number
is kept as it was read: a whole number of units of a power of ten.
-/
import SymbolAtlas.Text.Utf8

set_option autoImplicit false

namespace SymbolAtlas

/-- The number `digits * 10 ^ scale`. -/
structure Decimal where
  digits : Int
  scale : Int := 0
deriving DecidableEq, Repr, Inhabited

/-- A JSON value. -/
inductive Json where
  | null
  | bool (value : Bool)
  | num (value : Decimal)
  | str (value : String)
  | arr (items : List Json)
  | obj (members : List (String × Json))
deriving Inhabited

namespace Json

/-- A whole number as a JSON value. -/
def int (n : Int) : Json := .num ⟨n, 0⟩

instance : Coe String Json := ⟨.str⟩

instance : Coe Bool Json := ⟨.bool⟩
instance : Coe Int Json := ⟨.int⟩
instance : Coe Nat Json := ⟨fun n => .int n⟩

/-- Bytes are shown as text, with a replacement character for each that is none. -/
instance : Coe (List UInt8) Json := ⟨fun bytes => .str (Text.Utf8.decode bytes)⟩

/-- The value of a member of an object; of two members with one name the last counts. -/
def member? (key : String) : Json → Option Json
  | .obj members => (members.reverse.find? (·.1 = key)).map (·.2)
  | _ => none

/-- The member `key`, or null. -/
def member (key : String) (j : Json) : Json := (j.member? key).getD .null

/-- The text of a string. -/
def str? : Json → Option String
  | .str s => some s
  | _ => none

/-- The truth value of a boolean. -/
def bool? : Json → Option Bool
  | .bool b => some b
  | _ => none

/-- The items of an array. -/
def arr? : Json → Option (List Json)
  | .arr items => some items
  | _ => none

/-- The members of an object. -/
def obj? : Json → Option (List (String × Json))
  | .obj members => some members
  | _ => none

/-- The number of a number. -/
def num? : Json → Option Decimal
  | .num d => some d
  | _ => none

/-- A whole number that is written without fraction and exponent. -/
def int? : Json → Option Int
  | .num ⟨n, 0⟩ => some n
  | _ => none

/-- The string at `key`, or the empty text. -/
def text (key : String) (j : Json) : String := ((j.member key).str?).getD ""

/-- The boolean at `key`, or false. -/
def flag (key : String) (j : Json) : Bool := ((j.member key).bool?).getD false

/-- The whole number at `key`, or zero. -/
def number (key : String) (j : Json) : Int := ((j.member key).int?).getD 0

/-- The array at `key`, or the empty list. -/
def items (key : String) (j : Json) : List Json := ((j.member key).arr?).getD []

/-- The texts in the array at `key`. -/
def texts (key : String) (j : Json) : List String := (j.items key).filterMap str?

/-- The whole numbers in the array at `key`. -/
def numbers (key : String) (j : Json) : List Int := (j.items key).filterMap int?

/-- An array of texts. -/
def ofTexts (xs : List String) : Json := .arr (xs.map .str)

/-- An array of whole numbers. -/
def ofInts (xs : List Int) : Json := .arr (xs.map .int)

mutual

/-- The number of values that are nested in one another. -/
def depth : Json → Nat
  | .arr items => depthOfItems items + 1
  | .obj members => depthOfMembers members + 1
  | _ => 1

/-- The greatest depth of items. -/
def depthOfItems : List Json → Nat
  | [] => 0
  | item :: rest => max (depth item) (depthOfItems rest)

/-- The greatest depth of members. -/
def depthOfMembers : List (String × Json) → Nat
  | [] => 0
  | (_, value) :: rest => max (depth value) (depthOfMembers rest)

end

end Json

namespace Decimal

/-- The greatest finite double is below `2 ^ 1024`, and everything from half a
unit past it on is out of range. -/
def overflow : Nat := Nat.pow 2 1024 - Nat.pow 2 970

/-- The quotient of two natural numbers, rounded to the nearest one, a tie to the even
one. -/
def roundQuotient (n d : Nat) : Nat :=
  let low := n / d
  let rest := n % d
  if d < 2 * rest ∨ (2 * rest = d ∧ low % 2 = 1) then low + 1 else low

/-- The quotient of two natural numbers as a double, cut off to a whole number. -/
def wholeDouble (n d : Nat) : Nat :=
  let whole := n / d
  let bits := if whole = 0 then 0 else whole.log2 + 1
  if bits ≤ 53 then
    let unit := Nat.pow 2 (53 - bits)
    roundQuotient (n * unit) d / unit
  else
    let unit := Nat.pow 2 (bits - 53)
    roundQuotient n (d * unit) * unit

/-- The magnitude as a double, cut off to a whole number; nothing if it exceeds every
double.  With more places than bits the number is far below one. -/
def wholePart? (d : Decimal) : Option Nat :=
  let m := d.digits.natAbs
  if m = 0 then some 0
  else if d.scale < 0 then
    let places := d.scale.natAbs
    if m.log2 + 1 ≤ places then some 0
    else if overflow ≤ m / Nat.pow 10 places then none
    else some (wholeDouble m (Nat.pow 10 places))
  else if 310 ≤ d.scale then none
  else
    let n := m * Nat.pow 10 d.scale.natAbs
    if overflow ≤ n then none else some (wholeDouble n 1)

/-- The number as a double, cut off to a 64-bit integer: out of its range the
least one. -/
def toInt64? (d : Decimal) : Option Int :=
  d.wholePart?.map fun n =>
    if n < Nat.pow 2 63 then (if d.digits < 0 then -(n : Int) else n) else -(Nat.pow 2 63 : Int)

end Decimal

namespace Json

mutual

/-- Whether every number in a value is in the range of doubles. -/
def numbersFit : Json → Bool
  | .num d => d.wholePart?.isSome
  | .arr items => itemsFit items
  | .obj members => membersFit members
  | _ => true

/-- Whether every number in some items is in the range of doubles. -/
def itemsFit : List Json → Bool
  | [] => true
  | item :: rest => numbersFit item && itemsFit rest

/-- Whether every number in some members is in the range of doubles. -/
def membersFit : List (String × Json) → Bool
  | [] => true
  | (_, value) :: rest => numbersFit value && membersFit rest

end

/-- A list, and null in the place of an empty one. -/
def listOrNull : List Json → Json
  | [] => .null
  | items => .arr items

/-- A member, unless its value says nothing. -/
def unlessEmpty (key value : String) : List (String × Json) :=
  if value = "" then [] else [(key, .str value)]

/-- A member, if its value is true. -/
def ifTrue (key : String) (value : Bool) : List (String × Json) :=
  if value then [(key, .bool true)] else []

end Json
end SymbolAtlas
