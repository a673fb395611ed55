/-
# SymbolAtlas.Text.Utf8 -- bytes read as text, one code point at a time

File contents are bytes and need not be valid UTF-8.  `next` reads one code
point from a non-empty list of bytes; a byte that starts no well-formed sequence
is read alone, as the replacement character.  Everything that counts or decodes
is an iteration of `next`: `units` counts UTF-16 code units, and `decode` gives
the text an editor would show.
-/
set_option autoImplicit false

namespace SymbolAtlas.Text.Utf8

/-- The code point that stands for a byte that cannot be decoded. -/
def replacement : Nat := 0xFFFD

/-- The payload of a continuation byte. -/
def continuation? (low high : UInt8) (b : UInt8) : Option Nat :=
  if low ≤ b ∧ b ≤ high then some (b.toNat % 64) else none

/-- The range of the second byte: shorter encodings, surrogates and code points
past the last plane are cut off here. -/
def secondByte (lead : UInt8) : UInt8 × UInt8 :=
  if lead = 0xE0 then (0xA0, 0xBF)
  else if lead = 0xED then (0x80, 0x9F)
  else if lead = 0xF0 then (0x90, 0xBF)
  else if lead = 0xF4 then (0x80, 0x8F)
  else (0x80, 0xBF)

/-- One code point and the bytes after it. -/
def next (lead : UInt8) (rest : List UInt8) : Nat × List UInt8 :=
  let failed := (replacement, rest)
  let second := secondByte lead
  if lead < 0x80 then (lead.toNat, rest)
  else if lead < 0xC2 then failed
  else if lead < 0xE0 then
    match rest with
    | b :: rest' =>
        match continuation? 0x80 0xBF b with
        | some x => (lead.toNat % 32 * 64 + x, rest')
        | none => failed
    | _ => failed
  else if lead < 0xF0 then
    match rest with
    | b :: c :: rest' =>
        match continuation? second.1 second.2 b, continuation? 0x80 0xBF c with
        | some x, some y => ((lead.toNat % 16 * 64 + x) * 64 + y, rest')
        | _, _ => failed
    | _ => failed
  else if lead < 0xF5 then
    match rest with
    | b :: c :: d :: rest' =>
        match continuation? second.1 second.2 b, continuation? 0x80 0xBF c,
            continuation? 0x80 0xBF d with
        | some x, some y, some z => (((lead.toNat % 8 * 64 + x) * 64 + y) * 64 + z, rest')
        | _, _, _ => failed
    | _ => failed
  else failed

/-- Reading a code point takes the lead byte and perhaps more. -/
theorem next_length_le (lead : UInt8) (rest : List UInt8) :
    (next lead rest).2.length ≤ rest.length := by
  unfold next
  dsimp only
  repeat' split
  all_goals simp only [List.length_cons, Nat.le_refl]
  all_goals omega

/-- The number of UTF-16 code units of a code point. -/
def unitsOf (code : Nat) : Nat := if code < 0x10000 then 1 else 2

/-- Fold `f` over the code points of a byte sequence. -/
def fold {α : Type} (f : α → Nat → α) (acc : α) : List UInt8 → α
  | [] => acc
  | lead :: rest => fold f (f acc (next lead rest).1) (next lead rest).2
termination_by bytes => bytes.length
decreasing_by
  have := next_length_le lead rest
  simp only [List.length_cons]
  omega

/-- The number of UTF-16 code units of a byte sequence. -/
def units (bytes : List UInt8) : Nat := fold (fun n code => n + unitsOf code) 0 bytes

/-- The text of a byte sequence, a replacement character for each byte that
cannot be decoded. -/
def decode (bytes : List UInt8) : String :=
  fold (fun text code => text.push (Char.ofNat code)) "" bytes

/-- The bytes of a text. -/
def encode (text : String) : List UInt8 := text.toUTF8.toList

end SymbolAtlas.Text.Utf8
