/-
# SymbolAtlas.Text.Source -- from byte offsets to editor positions

A `Source` holds the bytes of a file and the offsets at which its lines start.
`offsetPosition` maps a byte offset to a line and a UTF-16 column,
`columnPosition` does the same for a line and a byte column that count from one.
-/
import SymbolAtlas.Text.Utf8
import SymbolAtlas.Text.Span

set_option autoImplicit false

namespace SymbolAtlas.Text

/-- The bytes of a file with the offsets of its lines. -/
structure Source where
  bytes : List UInt8 := []
  lines : List Nat := []

namespace Source

/-- The offsets that follow a newline, the first byte of `bytes` being at `at`. -/
def startsAfter (offset : Nat) : List UInt8 → List Nat
  | [] => []
  | b :: rest =>
      if b = 10 then (offset + 1) :: startsAfter (offset + 1) rest
      else startsAfter (offset + 1) rest

/-- The source with these bytes; its first line starts at offset zero. -/
def ofBytes (bytes : List UInt8) : Source := ⟨bytes, 0 :: startsAfter 0 bytes⟩

/-- The source of a file that cannot be read: it has no lines. -/
def unreadable : Source := {}

/-- The last line that starts at or before `offset`, with its start. -/
def lineAt (offset : Nat) : Nat × Nat → Nat → List Nat → Nat × Nat
  | best, _, [] => best
  | best, index, start :: rest =>
      if start ≤ offset then lineAt offset (index, start) (index + 1) rest else best

/-- The line and the byte column of an offset, both from one. -/
def lineColumn (s : Source) (offset : Nat) : Nat × Nat :=
  let (line, start) := lineAt offset (0, 0) 0 s.lines
  (line + 1, offset - start + 1)

/-- The position of a byte offset; an offset past the end is the end. -/
def offsetPosition (s : Source) (offset : Nat) : Position :=
  match s.bytes with
  | [] => {}
  | _ :: _ =>
      let offset := min offset s.bytes.length
      let (line, start) := lineAt offset (0, 0) 0 s.lines
      ⟨line, Utf8.units ((s.bytes.drop start).take (offset - start))⟩

/-- The position of a line and a byte column, both from one.  Past the last
known line the byte column is kept. -/
def columnPosition (s : Source) (line column : Int) : Position :=
  if line < 1 then {}
  else
    match s.lines[(line - 1).toNat]? with
    | none => ⟨line - 1, max (column - 1) 0⟩
    | some start => s.offsetPosition (start + (column - 1).toNat)

/-- The span of a name that starts at a line and a byte column, both from one. -/
def nameSpan (s : Source) (line column : Int) (name : List UInt8) : Span :=
  let start := s.columnPosition line column
  ⟨start, ⟨start.line, start.character + Utf8.units name⟩⟩

end Source
end SymbolAtlas.Text
