/-
# SymbolAtlas.Text.Lines -- lines of a file, read up to a limit

A line ends at a newline or at the end of the file; a carriage return before the
end does not belong to it.  A reader has a buffer of `limit` bytes that must hold
the line with its newline, so a line of `limit` bytes or more cannot be read, and
the lines before it still can.
-/
import SymbolAtlas.Text.Utf8

set_option autoImplicit false

namespace SymbolAtlas.Text.Lines

/-- The lines as they stand in the file, each without its newline. -/
def raw (bytes : List UInt8) : List (List UInt8) :=
  let parts := bytes.splitOn 10
  if parts.getLast? = some [] then parts.dropLast else parts

/-- A line without the carriage return at its end. -/
def dropReturn (line : List UInt8) : List UInt8 :=
  if line.getLast? = some 13 then line.dropLast else line

/-- Whether a buffer of `limit` bytes is too small for a line. -/
def tooLong (limit : Nat) (line : List UInt8) : Bool := limit ≤ line.length

/-- All lines, or none at all if one of them cannot be read. -/
def readAll? (limit : Nat) (bytes : List UInt8) : Option (List (List UInt8)) :=
  let lines := raw bytes
  if lines.any (tooLong limit) then none else some (lines.map dropReturn)

/-- Why an excerpt of a file cannot be given. -/
inductive ExcerptError where
  | unreadable (reason : String)
  | lineTooLong
  | noLines (first last : Int) (seen : Nat)

/-- The error in words. -/
def ExcerptError.message : ExcerptError → String
  | .unreadable reason => "open: " ++ reason
  | .lineTooLong => "scan: bufio.Scanner: token too long"
  | .noLines first last seen =>
      "no lines found in range " ++ toString first ++ "-" ++ toString last ++
        " (file has " ++ toString seen ++ " lines)"

/-- A line number, at least four characters wide. -/
def numberColumn (n : Nat) : String :=
  let digits := toString n
  String.ofList (List.replicate (4 - digits.length) ' ') ++ digits

/-- One line of an excerpt: its bytes as they are, behind its number. -/
def numbered (n : Nat) (line : List UInt8) : List UInt8 :=
  Utf8.encode (numberColumn n ++ " | ") ++ dropReturn line ++ [10]

/-- The buffer of the reader of excerpts. -/
def excerptLimit : Nat := 1048576

/-- What a reader of an excerpt has between two lines: how many lines it has seen, and those that
are wanted. -/
structure Reading where
  seen : Nat := 0
  text : List UInt8 := []

/-- Take the next line, and keep it if it is wanted. -/
def Reading.take (first : Int) (r : Reading) (line : List UInt8) : Reading :=
  let number := r.seen + 1
  { seen := number, text := if first ≤ number then r.text ++ numbered number line else r.text }

/-- Take line after line.  The reader stops at the line behind `last`, so it has to be able to
read this one too. -/
def Reading.run (first last : Int) (r : Reading) :
    List (List UInt8) → Except ExcerptError Reading
  | [] => .ok r
  | line :: rest =>
      if tooLong excerptLimit line then .error .lineTooLong
      else if last < r.seen + 1 then .ok { r with seen := r.seen + 1 }
      else (r.take first line).run first last rest

/-- The lines `first` to `last`, counted from one, each behind its number. -/
def excerpt (bytes : List UInt8) (first last : Int) : Except ExcerptError (List UInt8) :=
  match ({} : Reading).run first last (raw bytes) with
  | .error e => .error e
  | .ok r => if r.text = [] then .error (.noLines first last r.seen) else .ok r.text

end SymbolAtlas.Text.Lines
