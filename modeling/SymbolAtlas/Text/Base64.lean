/-
# SymbolAtlas.Text.Base64 -- bytes in printable characters

Four characters stand for three bytes; the last four may end in one or two equals
signs.  Line breaks do not count.
-/
set_option autoImplicit false

namespace SymbolAtlas.Text.Base64

/-- The six bits of a character. -/
def sextet? (c : Char) : Option Nat :=
  if 'A' ≤ c ∧ c ≤ 'Z' then some (c.toNat - 65)
  else if 'a' ≤ c ∧ c ≤ 'z' then some (c.toNat - 71)
  else if '0' ≤ c ∧ c ≤ '9' then some (c.toNat + 4)
  else if c = '+' then some 62
  else if c = '/' then some 63
  else none

/-- The bytes of groups of four characters, behind those in `done`, which are reversed. -/
def groups? (done : List UInt8) : List Char → Option (List UInt8)
  | [] => some done.reverse
  | [a, b, '=', '='] => do
      let n := 64 * (← sextet? a) + (← sextet? b)
      return ((n / 16).toUInt8 :: done).reverse
  | [a, b, c, '='] => do
      let n := 64 * (64 * (← sextet? a) + (← sextet? b)) + (← sextet? c)
      return ((n / 4).toUInt8 :: (n / 1024).toUInt8 :: done).reverse
  | a :: b :: c :: d :: rest =>
      match sextet? a, sextet? b, sextet? c, sextet? d with
      | some a, some b, some c, some d =>
          let n := 64 * (64 * (64 * a + b) + c) + d
          groups? (n.toUInt8 :: (n / 256).toUInt8 :: (n / 65536).toUInt8 :: done) rest
      | _, _, _, _ => none
  | _ => none

/-- The bytes that a text stands for. -/
def decode? (text : String) : Option (List UInt8) :=
  groups? [] (text.toList.filter fun c => c ≠ '\n' ∧ c ≠ '\r')

end SymbolAtlas.Text.Base64
