/-
# SymbolAtlas.Proofs.Module.Escaping -- module paths and versions in the module cache

A library writes module paths and versions into the names of the module cache, and reads them
back.  How it does this is not said here: an `Escaping` is any way to write them, and
`Escaping.Lawful` is all that is relied on, that what is written is read back, and that it has
no signs in it that would end it too early.  Then the elements of the directory of a module are
names (`Escaping.Lawful.directory_inside`).

The library that the program is built with is lawful (`Module.lawful_escaping`): a module path
is read back (`Module.unescapePath?_escape`), and so is every version that may be written at all
(`Module.unescapeVersion?_escape`).
-/
import Mathlib
import SymbolAtlas.CommandLine.Libraries
import SymbolAtlas.Proofs.Text.Places

set_option autoImplicit false

namespace SymbolAtlas

open Text Text.Path

/-- An element with an at sign that stays between slashes is a name. -/
theorem isName_of_at {first second : String} (whole : '/' ∉ first.toList)
    (whole' : '/' ∉ second.toList) : IsName (first ++ "@" ++ second) := by
  have sign : '@' ∈ (first ++ "@" ++ second).toList := by simp
  refine ⟨?_, ?_, ?_, by simp [whole, whole']⟩ <;> intro same <;> rw [same] at sign <;>
    exact absurd sign (by decide)

/-! ## Ways to write module paths and versions -/

/-- Which texts are module paths and versions, and how they are written into the names of
directories. -/
structure Escaping where
  IsPath : String → Prop
  IsVersion : String → Prop
  path : String → String
  version : String → String

namespace Escaping

/-- The directory of a module in the cache. -/
def directory (e : Escaping) (module version : String) : String :=
  e.path module ++ "@" ++ e.version version

/-- A path and a version are read back from what is written.  A path is made of names, also when
it is written, and the signs that end a path and a version in the cache are not in them. -/
structure Lawful [ModuleNames] (e : Escaping) : Prop where
  unescapePath : ∀ path, e.IsPath path → ModuleNames.unescapePath? (e.path path) = some path
  unescapeVersion : ∀ version, e.IsVersion version →
    ModuleNames.unescapeVersion? (e.version version) = some version
  names : ∀ path, e.IsPath path → ∀ part ∈ elements path, IsName part
  written : ∀ path, e.IsPath path → ∀ part ∈ elements (e.path path), IsName part
  unsigned : ∀ path, e.IsPath path → '@' ∉ (e.path path).toList
  whole : ∀ version, e.IsVersion version → '/' ∉ (e.version version).toList

/-- **The elements of the directory of a module are names.** -/
theorem Lawful.directory_inside [ModuleNames] {e : Escaping} (lawful : e.Lawful)
    {path version : String} (isPath : e.IsPath path) (isVersion : e.IsVersion version) :
    ∃ names, names ≠ [] ∧ (∀ name ∈ names, IsName name) ∧
      e.directory path version = ofElements names := by
  rcases List.eq_nil_or_concat (elements (e.path path)) with none | ⟨before, last, parts⟩
  · exact absurd none (elements_ne_nil _)
  · rw [List.concat_eq_append] at parts
    obtain ⟨first, name⟩ := List.forall_mem_append.1 (parts ▸ lawful.written path isPath)
    have last_ : IsName (last ++ "@" ++ e.version version) :=
      isName_of_at (name last List.mem_cons_self).whole (lawful.whole version isVersion)
    refine ⟨before ++ [last ++ "@" ++ e.version version], by simp,
      List.forall_mem_append.2 ⟨first, by simpa using last_⟩, ?_⟩
    rw [directory, ← ofElements_elements (e.path path), parts]
    by_cases alone : before = []
    · rw [alone, List.nil_append, List.nil_append, ofElements_singleton, ofElements_singleton]
    · rw [ofElements_append alone (by simp), ofElements_append alone (by simp),
        ofElements_singleton, ofElements_singleton]
      simp only [String.append_assoc]

end Escaping

namespace Module

/-- A text with its upper-case letters escaped. -/
def escape (text : String) : String := String.ofList (escapeChars text.toList)

/-! ## Reading escaped characters back -/

theorem mem_letters_of_isUpper {c : Char} (upper : c.isUpper = true) :
    c ∈ "ABCDEFGHIJKLMNOPQRSTUVWXYZ".toList := by
  have range : 65 ≤ c.toNat ∧ c.toNat ≤ 90 := by
    simpa [Char.isUpper, UInt32.le_iff_toNat_le] using upper
  simp only [String.reduceToList, List.mem_cons, Char.ext_iff, ← UInt32.toNat_inj]
  simp
  omega

theorem isLower_toLower {c : Char} (upper : c.isUpper = true) : c.toLower.isLower = true := by
  have letters :
      "ABCDEFGHIJKLMNOPQRSTUVWXYZ".toList.all (fun c => c.toLower.isLower) = true := by decide
  exact List.all_eq_true.1 letters c (mem_letters_of_isUpper upper)

theorem toUpper_toLower {c : Char} (upper : c.isUpper = true) : c.toLower.toUpper = c := by
  have letters :
      "ABCDEFGHIJKLMNOPQRSTUVWXYZ".toList.all (fun c => c.toLower.toUpper = c) = true := by decide
  exact of_decide_eq_true (List.all_eq_true.1 letters c (mem_letters_of_isUpper upper))

/-- A character that escaping keeps apart from its own signs. -/
def IsPlain (c : Char) : Prop := c.toNat < 0x80 ∧ c ≠ '!'

instance (c : Char) : Decidable (IsPlain c) := inferInstanceAs (Decidable (_ ∧ _))

theorem isPlain_of_all {text : String} (h : text.toList.all (fun c => IsPlain c) = true) :
    ∀ c ∈ text.toList, IsPlain c := fun c member =>
  of_decide_eq_true (List.all_eq_true.1 h c member)

/-- **Escaped characters are read back.** -/
theorem unescapeChars?_escapeChars {text : List Char} (plain : ∀ c ∈ text, IsPlain c) :
    unescapeChars? (escapeChars text) = some text := by
  induction text with
  | nil => rfl
  | cons c text ih =>
      have rest := ih fun other member => plain other (List.mem_cons_of_mem _ member)
      obtain ⟨ascii, mark⟩ := plain c List.mem_cons_self
      rw [escapeChars]
      split
      · rename_i upper
        rw [unescapeChars?, if_pos (isLower_toLower upper), rest, toUpper_toLower upper]
        rfl
      · rename_i lower
        have kept : ¬(c = '!' ∨ 0x80 ≤ c.toNat ∨ c.isUpper = true) := by
          rintro (same | far | upper)
          · exact mark same
          · exact absurd ascii (Nat.not_lt.2 far)
          · exact lower upper
        rw [unescapeChars?.eq_3 _ _ fun _ _ same _ => mark same, if_neg kept, rest]
        rfl

theorem unescape?_escape {text : String} (plain : ∀ c ∈ text.toList, IsPlain c) :
    unescape? (escape text) = some text := by
  rw [unescape?, escape, String.toList_ofList, unescapeChars?_escapeChars plain]
  exact congrArg some String.ofList_toList

theorem escape_injective {text text' : String} (plain : ∀ c ∈ text.toList, IsPlain c)
    (plain' : ∀ c ∈ text'.toList, IsPlain c) (same : escape text = escape text') :
    text = text' := by
  have read := unescape?_escape plain
  rw [same, unescape?_escape plain'] at read
  exact (Option.some.inj read).symm

/-- Escaping adds exclamation marks and lower-case letters only. -/
theorem mem_of_mem_escapeChars {text : List Char} {c : Char} (member : c ∈ escapeChars text)
    (mark : c ≠ '!') (lower : c.isLower = false) : c ∈ text := by
  induction text with
  | nil => exact member
  | cons first text ih =>
      rw [escapeChars] at member
      split at member
      · rename_i upper
        rcases List.mem_cons.1 member with same | member
        · exact absurd same mark
        · rcases List.mem_cons.1 member with rfl | member
          · rw [isLower_toLower upper] at lower
            exact absurd lower (by decide)
          · exact List.mem_cons_of_mem _ (ih member)
      · rcases List.mem_cons.1 member with rfl | member
        · exact List.mem_cons_self
        · exact List.mem_cons_of_mem _ (ih member)

theorem not_mem_escape {text : String} {c : Char} (absent : c ∉ text.toList) (mark : c ≠ '!')
    (lower : c.isLower = false) : c ∉ (escape text).toList := by
  rw [escape, String.toList_ofList]
  exact fun member => absent (mem_of_mem_escapeChars member mark lower)

theorem escapeChars_append (first second : List Char) :
    escapeChars (first ++ second) = escapeChars first ++ escapeChars second := by
  induction first with
  | nil => rfl
  | cons c first ih =>
      rw [List.cons_append, escapeChars, escapeChars, ih]
      split <;> rfl

theorem escape_append (first second : String) :
    escape (first ++ second) = escape first ++ escape second := by
  rw [escape, String.toList_append, escapeChars_append, String.ofList_append]
  rfl

/-- A joined path is escaped element by element. -/
theorem escape_ofElements (parts : List String) :
    escape (ofElements parts) = ofElements (parts.map escape) := by
  induction parts with
  | nil => rfl
  | cons part parts ih =>
      by_cases alone : parts = []
      · rw [alone, List.map_singleton, ofElements_singleton, ofElements_singleton]
      · rw [ofElements_cons alone, List.map_cons, ofElements_cons (by simpa using alone), ← ih,
          escape_append, escape_append]
        rfl

/-! ## Module paths -/

/-- The characters of an element are those that are allowed in it. -/
theorem allowed_of_isElement {allowed : Char → Bool} {element : List Char}
    (fit : isElement allowed element = true) : ∀ c ∈ element, allowed c = true := by
  simp only [isElement, Bool.and_eq_true, List.all_eq_true] at fit
  exact fit.1.2

theorem isName_of_isElement {allowed : Char → Bool} {element : List Char}
    (fit : isElement allowed element = true) (slash : allowed '/' = false) :
    IsName (String.ofList element) := by
  have whole : '/' ∉ element := fun member => by
    rw [allowed_of_isElement fit _ member] at slash
    exact absurd slash (by decide)
  have dots : ∀ text : String, String.ofList element = text → text.toList.any (· ≠ '.') = true := by
    rintro _ rfl
    simp only [isElement, Bool.and_eq_true] at fit
    rw [String.toList_ofList]
    exact fit.1.1.1
  exact ⟨fun same => absurd (dots _ same) (by decide), fun same => absurd (dots _ same) (by decide),
    fun same => absurd (dots _ same) (by decide), by rwa [String.toList_ofList]⟩

/-- Letters and digits are ASCII. -/
theorem ascii_of_isAlphanum {c : Char} (h : c.isDigit = true ∨ c.isAlpha = true) :
    c.toNat < 0x80 := by
  simp only [Char.isDigit, Char.isAlpha, Char.isUpper, Char.isLower, Bool.or_eq_true,
    Bool.and_eq_true, decide_eq_true_eq, ge_iff_le, UInt32.le_iff_toNat_le] at h
  simp at h
  omega

theorem isPlain_of_isPathChar {c : Char} (h : isPathChar c = true) : IsPlain c := by
  refine ⟨?_, ?_⟩
  · simp only [isPathChar, Bool.or_eq_true, decide_eq_true_eq] at h
    rcases h with ((((rfl | rfl) | rfl) | rfl) | digit) | letter
    · decide
    · decide
    · decide
    · decide
    · exact ascii_of_isAlphanum (.inl digit)
    · exact ascii_of_isAlphanum (.inr letter)
  · rintro rfl
    exact absurd h (by decide)

theorem ascii_of_isNameChar {c : Char} (h : isNameChar c = true) : c.toNat < 0x80 := by
  simp only [isNameChar, Bool.or_eq_true, List.contains_iff_mem] at h
  rcases h with (digit | letter) | sign
  · exact ascii_of_isAlphanum (.inl digit)
  · exact ascii_of_isAlphanum (.inr letter)
  · have signs :
        "!#$%&()+,-.=@[]^_\x7b\x7d~ ".toList.all (fun c => c.toNat < 0x80) = true := by decide
    exact of_decide_eq_true (List.all_eq_true.1 signs c sign)

theorem isPathElement_of_mem {path part : String} (valid : isModulePath path = true)
    (member : part ∈ elements path) : isElement isPathChar part.toList = true := by
  obtain ⟨element, here, rfl⟩ := List.mem_map.1 member
  simp only [isModulePath, Bool.and_eq_true, List.all_eq_true] at valid
  have fit := valid.1.1.2 element here
  simp only [isPathElement, Bool.and_eq_true] at fit
  rw [String.toList_ofList]
  exact fit.1.1

/-- The elements of a module path are names. -/
theorem isName_of_mem_elements {path part : String} (valid : isModulePath path = true)
    (member : part ∈ elements path) : IsName part := by
  have name := isName_of_isElement (isPathElement_of_mem valid member) (by decide)
  rwa [String.ofList_toList] at name

theorem isPathChar_of_mem {path part : String} (valid : isModulePath path = true)
    (member : part ∈ elements path) {c : Char} (here : c ∈ part.toList) : isPathChar c = true :=
  allowed_of_isElement (isPathElement_of_mem valid member) c here

/-- A character of a module path is a slash or stands in one of its elements. -/
theorem isPathChar_of_isModulePath {path : String} (valid : isModulePath path = true) {c : Char}
    (member : c ∈ path.toList) : c = '/' ∨ isPathChar c = true := by
  rw [← ofElements_elements path] at member
  rcases mem_ofElements member with slash | ⟨part, here, inside⟩
  · exact .inl slash
  · exact .inr (isPathChar_of_mem valid here inside)

theorem isPlain_of_isModulePath {path : String} (valid : isModulePath path = true) :
    ∀ c ∈ path.toList, IsPlain c := by
  intro c member
  rcases isPathChar_of_isModulePath valid member with rfl | allowed
  · decide
  · exact isPlain_of_isPathChar allowed

/-- **A module path is read back from the directory that it is written into.** -/
theorem unescapePath?_escape {path : String} (valid : isModulePath path = true) :
    unescapePath? (escape path) = some path := by
  rw [unescapePath?, unescape?_escape (isPlain_of_isModulePath valid), Option.filter_some,
    if_pos valid]

/-! ## Versions -/

/-- A version that may be written into the name of a directory. -/
structure IsVersion (version : String) : Prop where
  fit : isElement isNameChar version.toList = true
  unmarked : '!' ∉ version.toList

namespace IsVersion

variable {version : String}

theorem plain (h : IsVersion version) : ∀ c ∈ version.toList, IsPlain c := by
  intro c member
  refine ⟨ascii_of_isNameChar (allowed_of_isElement h.fit c member), ?_⟩
  rintro rfl
  exact h.unmarked member

theorem whole (h : IsVersion version) : '/' ∉ (escape version).toList :=
  not_mem_escape (fun member => absurd (allowed_of_isElement h.fit _ member) (by decide))
    (by decide) (by decide)

end IsVersion

/-- **A version is read back from the directory that it is written into.** -/
theorem unescapeVersion?_escape {version : String} (h : IsVersion version) :
    unescapeVersion? (escape version) = some version := by
  rw [unescapeVersion?, unescape?_escape h.plain, Option.filter_some, if_pos h.fit]

/-! ## The library of the program -/

theorem isName_escape {part : String} (name : IsName part) (plain : ∀ c ∈ part.toList, IsPlain c) :
    IsName (escape part) where
  nonempty same := name.nonempty (escape_injective plain (isPlain_of_all (by decide)) same)
  stays same := name.stays (escape_injective plain (isPlain_of_all (by decide)) same)
  below same := name.below (escape_injective plain (isPlain_of_all (by decide)) same)
  whole := not_mem_escape name.whole (by decide) (by decide)

/-- The elements of an escaped path are the escaped elements. -/
theorem elements_escape {path : String} (valid : isModulePath path = true) :
    elements (escape path) = (elements path).map escape := by
  have whole : ∀ part ∈ (elements path).map escape, '/' ∉ part.toList := by
    refine List.forall_mem_map.2 fun part member => ?_
    exact not_mem_escape (isName_of_mem_elements valid member).whole (by decide) (by decide)
  have shape := escape_ofElements (elements path)
  rw [ofElements_elements] at shape
  rw [shape, elements_ofElements whole (by simpa using elements_ne_nil path)]

/-- How the library of the program writes paths and versions. -/
def escaping : Escaping where
  IsPath path := isModulePath path = true
  IsVersion := IsVersion
  path := escape
  version := escape

/-- **The library of the program is lawful.** -/
theorem lawful_escaping : escaping.Lawful where
  unescapePath _ valid := unescapePath?_escape valid
  unescapeVersion _ h := unescapeVersion?_escape h
  names _ valid _ member := isName_of_mem_elements valid member
  written path valid part member := by
    rw [show escaping.path path = escape path from rfl, elements_escape valid] at member
    obtain ⟨part, here, rfl⟩ := List.mem_map.1 member
    exact isName_escape (isName_of_mem_elements valid here) fun c inside =>
      isPlain_of_isPathChar (isPathChar_of_mem valid here inside)
  unsigned path valid := by
    refine not_mem_escape (fun member => ?_) (by decide) (by decide)
    exact absurd (isPathChar_of_isModulePath valid member) (by decide)
  whole _ h := h.whole

end Module
end SymbolAtlas
