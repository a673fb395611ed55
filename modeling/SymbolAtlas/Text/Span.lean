/-
# SymbolAtlas.Text.Span -- positions and half-open spans in a file

Lines and characters count from zero; a character is a UTF-16 code unit.
-/
set_option autoImplicit false

namespace SymbolAtlas.Text

/-- A place in a file: a line and a character on it, both from zero. -/
structure Position where
  line : Int := 0
  character : Int := 0
deriving DecidableEq, Repr, Inhabited

/-- The span from `start` up to, and without, `stop`. -/
structure Span where
  start : Position := {}
  stop : Position := {}
deriving DecidableEq, Repr, Inhabited

namespace Span

/-- The span in the form `0:4-0:9`. -/
def render (s : Span) : String :=
  toString s.start.line ++ ":" ++ toString s.start.character ++ "-" ++
    toString s.stop.line ++ ":" ++ toString s.stop.character

/-- Whether a position lies in the span. -/
def contains (s : Span) (p : Position) : Bool :=
  s.start.line ≤ p.line && p.line ≤ s.stop.line &&
    !(p.line = s.start.line && p.character < s.start.character) &&
    !(p.line = s.stop.line && s.stop.character ≤ p.character)

end Span
end SymbolAtlas.Text
