/-
# SymbolAtlas.Yaml.Meaning -- what a scalar stands for

A plain scalar may be null, a truth value, a number or a time; everything else is
text.  An explicit tag must agree with what the scalar looks like.
-/
import SymbolAtlas.Json.Reader
import SymbolAtlas.Text.Base64
import SymbolAtlas.Yaml.Node

set_option autoImplicit false

namespace SymbolAtlas.Yaml

/-- What a scalar stands for. -/
inductive Meaning where
  | null
  | flag (value : Bool)
  /-- A whole number; `isSigned` if it has a place among the signed 64-bit ones. -/
  | whole (isSigned : Bool)
  | real
  | time
  | text (value : String)
deriving DecidableEq, Repr, Inhabited

/-! ## Times -/

/-- A number of one or two digits. -/
def oneOrTwo? : List Char → Option (Nat × List Char)
  | a :: b :: rest =>
      if a.isDigit then
        if b.isDigit then some ((a.toNat - 48) * 10 + (b.toNat - 48), rest)
        else some (a.toNat - 48, b :: rest)
      else none
  | [a] => if a.isDigit then some (a.toNat - 48, []) else none
  | [] => none

/-- The rest of a text after a character. -/
def after? (c : Char) : List Char → Option (List Char)
  | d :: rest => if c = d then some rest else none
  | [] => none

/-- The days of a month. -/
def daysIn (year month : Nat) : Nat :=
  if month = 2 then
    if year % 4 = 0 ∧ (year % 100 ≠ 0 ∨ year % 400 = 0) then 29 else 28
  else if [4, 6, 9, 11].contains month then 30 else 31

/-- The text after a time of day, with fractions of a second. -/
def timeOfDay? (cs : List Char) : Option (List Char) := do
  let (hour, cs) ← oneOrTwo? cs
  let (minute, cs) ← oneOrTwo? (← after? ':' cs)
  let (second, cs) ← oneOrTwo? (← after? ':' cs)
  if 24 ≤ hour ∨ 60 ≤ minute ∨ 60 ≤ second then none
  match cs with
  | mark :: d :: rest =>
      if (mark = '.' ∨ mark = ',') ∧ d.isDigit then return rest.dropWhile Char.isDigit
      else return cs
  | _ => return cs

/-- Whether a text is a time zone. -/
def isZone : List Char → Bool
  | ['Z'] => true
  | [sign, a, b, ':', c, d] =>
      (sign = '+' || sign = '-') && [a, b, c, d].all Char.isDigit &&
        (a.toNat - 48) * 10 + (b.toNat - 48) ≤ 24 && (c.toNat - 48) * 10 + (d.toNat - 48) ≤ 60
  | _ => false

/-- Whether a text is a date, perhaps with a time of day. -/
def isTime (text : List Char) : Bool :=
  let (digits, rest) := text.span Char.isDigit
  if digits.length ≠ 4 then false
  else
    let parsed : Option Bool := do
      let (month, rest) ← oneOrTwo? (← after? '-' rest)
      let (day, rest) ← oneOrTwo? (← after? '-' rest)
      if month = 0 ∨ 12 < month ∨ day = 0 ∨ daysIn (Json.ofDigits digits) month < day then none
      match rest with
      | [] => return true
      | c :: more =>
          if c = 'T' ∨ c = 't' then return isZone (← timeOfDay? more)
          else if c = ' ' then return (← timeOfDay? (more.dropWhile (· = ' '))) = []
          else return false
    parsed.getD false

/-! ## Numbers -/

/-- The value of digits in some base. -/
def number? (radix : Nat) (cs : List Char) : Option Nat :=
  cs.foldl (fun acc c => do
    let n ← acc
    let d ← hexDigit? c
    if d < radix then return n * radix + d else none) (some 0)

/-- The value of digits with the mark of their base in front. -/
def marked? : List Char → Option Nat
  | '0' :: m :: d :: rest =>
      let digits := d :: rest
      if m.toLower = 'b' then number? 2 digits
      else if m.toLower = 'o' then number? 8 digits
      else if m.toLower = 'x' then number? 16 digits
      else number? 8 (m :: digits)
  | '0' :: rest => number? 8 rest
  | [] => none
  | cs => number? 10 cs

/-- Whether a sign and a magnitude are a signed 64-bit number. -/
def fitsSigned (negative : Bool) (n : Nat) : Bool :=
  if negative then n ≤ Nat.pow 2 63 else n < Nat.pow 2 63

/-- The whole number that digits and a sign stand for, read by `magnitude`. -/
def wholeNumber? (magnitude : List Char → Option Nat) (cs : List Char) : Option Meaning :=
  let signed (negative : Bool) (rest : List Char) : Option Meaning :=
    (magnitude rest).bind fun n => if fitsSigned negative n then some (.whole true) else none
  match cs with
  | '-' :: rest => signed true rest
  | '+' :: rest => signed false rest
  | _ =>
      (magnitude cs).bind fun n =>
        if fitsSigned false n then some (.whole true)
        else if n < Nat.pow 2 64 then some (.whole false) else none

/-- Digits of a base, at least one. -/
def someDigits? (radix : Nat) (cs : List Char) : Option Nat :=
  if cs = [] then none else number? radix cs

/-- Whether a text is a decimal fraction that is no greater than any double.  `loose`
digits may have underscores between them. -/
def isReal (loose : Bool) (cs : List Char) : Bool :=
  let isDigit (c : Char) : Bool := c.isDigit || (loose && c = '_')
  let cs := match cs with
    | '-' :: rest | '+' :: rest => rest
    | _ => cs
  let (whole, cs) := cs.span isDigit
  let (fraction, dotted, cs) := match cs with
    | '.' :: rest =>
        let (fraction, rest) := rest.span isDigit
        (fraction, true, rest)
    | _ => ([], false, cs)
  let power : Option (Int × List Char) := match cs with
    | [] => some (0, [])
    | e :: rest =>
        if e = 'e' ∨ e = 'E' then
          let (sign, rest) := match rest with
            | '-' :: rest => ((-1 : Int), rest)
            | '+' :: rest => (1, rest)
            | _ => (1, rest)
          if headIs Char.isDigit rest && rest.all isDigit then
            some (sign * Json.ofDigits (rest.filter Char.isDigit), rest)
          else none
        else none
  let separated (ds : List Char) : Bool :=
    ds.head? ≠ some '_' && ds.getLast? ≠ some '_' &&
      !(ds.zip (ds.drop 1)).any fun (a, b) => a = '_' ∧ b = '_'
  let digits := (whole ++ fraction).filter Char.isDigit
  match power with
  | none => false
  | some (power, exponent) =>
      digits ≠ [] && (whole ≠ [] || (dotted && fraction ≠ [])) &&
        [whole, fraction, exponent].all separated &&
        (Decimal.wholePart? ⟨Json.ofDigits digits, power - (fraction.filter Char.isDigit).length⟩
          |>.isSome)

/-- The number that a text stands for. -/
def numberMeaning? (text : List Char) : Option Meaning :=
  let plain := text.filter (· ≠ '_')
  match wholeNumber? marked? plain with
  | some m => some m
  | none =>
      if isReal false plain then some .real
      else
        match plain with
        | '0' :: 'b' :: rest => wholeNumber? (someDigits? 2) rest
        | '0' :: 'o' :: rest => wholeNumber? (someDigits? 8) rest
        | _ => none

/-! ## Scalars -/

/-- What a text stands for in a plain scalar without a tag. -/
def meaningOf (text : String) : Meaning :=
  if ["", "~", "null", "Null", "NULL"].contains text then .null
  else if ["true", "True", "TRUE"].contains text then .flag true
  else if ["false", "False", "FALSE"].contains text then .flag false
  else if [".nan", ".NaN", ".NAN", ".inf", ".Inf", ".INF", "+.inf", "+.Inf", "+.INF", "-.inf",
      "-.Inf", "-.INF"].contains text then .real
  else
    let cs := text.toList
    match cs with
    | c :: _ =>
        if c = '.' then (if isReal true cs then .real else .text text)
        else if c.isDigit || c = '+' || c = '-' then
          if isTime cs then .time else (numberMeaning? cs).getD (.text text)
        else .text text
    | [] => .null

/-- The tag of a meaning. -/
def Meaning.tag : Meaning → String
  | null => "!!null"
  | flag _ => "!!bool"
  | whole _ => "!!int"
  | real => "!!float"
  | time => "!!timestamp"
  | text _ => "!!str"

/-- What a scalar stands for.  A tag of the standard must agree with the text, except
that a whole number may be called a fraction; other tags make it text. -/
def Scalar.meaning? (s : Scalar) : Option Meaning :=
  match s.tag with
  | none => some (if s.plain && s.text ≠ "<<" then meaningOf s.text else .text s.text)
  | some tag =>
      if tag = "!!str" then some (.text s.text)
      else if tag = "!!binary" then
        (Text.Base64.decode? s.text).map fun bytes => .text (Text.Utf8.decode bytes)
      else if ["!!bool", "!!int", "!!float", "!!null", "!!timestamp"].contains tag then
        let m := meaningOf s.text
        if m.tag = tag then some m
        else if tag = "!!float" && m = .whole true then some .real
        else none
      else some (.text s.text)

/-- Whether a scalar asks for the entries of another mapping to be merged. -/
def Scalar.isMerge (s : Scalar) : Bool :=
  s.text = "<<" && (match s.tag with
    | none => s.plain
    | some tag => tag = "!!merge")

/-! ## Words for truth values -/

/-- Words that mean yes where a truth value is asked for. -/
def yesWords : List String := ["y", "Y", "yes", "Yes", "YES", "on", "On", "ON"]

/-- Words that mean no where a truth value is asked for. -/
def noWords : List String := ["n", "N", "no", "No", "NO", "off", "Off", "OFF"]

end SymbolAtlas.Yaml
