/-
# SymbolAtlas.Glob -- path patterns

A pattern is matched element by element.  Inside an element `*` stands for any
characters, `?` for one, `[...]` for one of a class and `{a,b}` for one of the
alternatives; a backslash takes away the meaning of the next character.  The
element `**` stands for any number of elements.  A malformed pattern matches
nothing, but it is noticed only where matching reaches the fault.
-/
import SymbolAtlas.Text.Utf8

set_option autoImplicit false

namespace SymbolAtlas.Glob

open Text

/-- The outcome of matching one element. -/
inductive Outcome where
  | yes
  | no
  | malformed
deriving DecidableEq, Repr

/-- Cut at the first `mark` that no backslash stands before. -/
def cutAt (mark : Char) : Option Char → List Char → Option (List Char × List Char)
  | _, [] => none
  | before, c :: rest =>
      if c = mark then
        if before = some '\\' then (cutAt mark none rest).map fun (a, b) => (c :: a, b)
        else some ([], rest)
      else (cutAt mark (some c) rest).map fun (a, b) => (c :: a, b)

/-- A character before the first of some parts. -/
def lengthen (c : Char) : List (List Char) → List (List Char)
  | [] => [[c]]
  | part :: parts => (c :: part) :: parts

/-- The parts between the marks that no backslash stands before. -/
def partsFrom (mark : Char) : Option Char → List Char → List (List Char)
  | _, [] => [[]]
  | before, c :: rest =>
      if c = mark then
        if before = some '\\' then lengthen c (partsFrom mark none rest)
        else [] :: partsFrom mark none rest
      else lengthen c (partsFrom mark (some c) rest)

/-- The parts between the marks. -/
def splitAtMarks (mark : Char) (text : List Char) : List (List Char) := partsFrom mark none text

/-- One end of a range of a class, and what follows it. -/
def classEnd? : List Char → Option (Char × List Char)
  | [] => none
  | '-' :: _ => none
  | '\\' :: c :: rest => some (c, rest)
  | ['\\'] => none
  | c :: rest => some (c, rest)

/-- Whether a character lies in a class; nothing if the class is malformed.  The
fuel is the length of the class. -/
def inClass? (c : Char) : Nat → List Char → Option Bool
  | _, [] => some false
  | 0, _ :: _ => none
  | fuel + 1, inside => do
      let (low, rest) ← classEnd? inside
      let (high, rest) ← match rest with
        | '-' :: more => classEnd? more
        | _ => some (low, rest)
      let others ← inClass? c fuel rest
      return (decide (low ≤ c) && decide (c ≤ high)) || others

/-- Whether a class, which may be negated, takes a character. -/
def classMatches? (c : Char) (inside : List Char) : Option Bool :=
  match inside with
  | [] => none
  | '^' :: rest => (inClass? c rest.length rest).map not
  | _ => inClass? c inside.length inside

/-- The ends of a name that are tried after a star: the name itself, and what is left
when `width` bytes are dropped once, twice and so on.  The fuel is the length. -/
def ends (width : Nat) : Nat → List UInt8 → List (List UInt8)
  | 0, _ => []
  | _, [] => []
  | fuel + 1, name => name :: ends width fuel (name.drop width)

/-- Match the rest of a pattern against the rest of an element.  The element is read
one character at a time; the first character after a star tells how many bytes are
skipped at once.  Every step uses up a character of the pattern, so its length is fuel
enough. -/
def matchRest : Nat → List Char → List UInt8 → Outcome
  | _, [], [] => .yes
  | _, [], _ :: _ => .no
  | _, pattern, [] => if pattern = ['*'] ∨ pattern = ['*', '*'] then .yes else .no
  | 0, _ :: _, _ :: _ => .no
  | fuel + 1, p :: rest, lead :: bytes =>
      let (code, name) := Utf8.next lead bytes
      let c := Char.ofNat code
      if p = '\\' then
        match rest with
        | [] => .malformed
        | q :: rest =>
            if q = '\uFFFD' then .malformed
            else if q = c then matchRest fuel rest name else .no
      else if p = '*' then
        let width := bytes.length + 1 - name.length
        if rest = [] then .yes
        else if (ends width (bytes.length + 1) (lead :: bytes)).any fun text =>
            matchRest fuel rest text = .yes then .yes
        else .no
      else if p = '[' then
        match cutAt ']' none rest with
        | none => .malformed
        | some (inside, rest) =>
            match classMatches? c inside with
            | none => .malformed
            | some true => matchRest fuel rest name
            | some false => .no
      else if p = '\x7b' then
        match cutAt '\x7d' none rest with
        | none => .malformed
        | some (inside, rest) =>
            ((splitAtMarks ',' inside).findSome? fun option =>
              match matchRest fuel (option ++ rest) (lead :: bytes) with
              | .no => none
              | outcome => some outcome).getD .no
      else if p = '?' ∨ p = c then matchRest fuel rest name
      else .no

/-- Match one element. -/
def matchElement (pattern name : List Char) : Outcome :=
  if name = [] then if pattern = [] ∨ pattern = ['*'] then .yes else .no
  else matchRest pattern.length pattern (String.ofList name).toUTF8.toList

/-- Whether a test holds of names from one of them on. -/
def anyRest (test : List (List Char) → Bool) : List (List Char) → Bool
  | [] => false
  | n :: names => test (n :: names) || anyRest test names

/-- Match elements. -/
def matchElements : List (List Char) → List (List Char) → Bool
  | [], names => names.isEmpty
  | p :: rest, names =>
      if p = ['*', '*'] then anyRest (fun names => rest.isEmpty || matchElements rest names) names
      else
        match names with
        | [] => false
        | n :: names => matchElement p n = .yes && matchElements rest names

/-- Whether a pattern matches a path. -/
def isMatch (pattern path : String) : Bool :=
  matchElements (splitAtMarks '/' pattern.toList) (splitAtMarks '/' path.toList)

end SymbolAtlas.Glob
