/-
# SymbolAtlas.Proofs.Discovery.Patterns -- what is left out of a project

The patterns of a project are those that are given and what the lines of its ignore file say
(`mem_patternsOf_iff`).  A pattern excludes what it matches; of a directory, also what it has before
`/**`; and without a slash it is matched against the last name (`excludes_iff`).  What a pattern
matches is up to the library that decides it (`Globs`): nothing is asked of it.  From these it
follows which files are sources (`isSource_iff`) and which directories are left out with all that
lies in them (`prunes_iff`).
-/
import SymbolAtlas.Discovery
import SymbolAtlas.Proofs.Discovery.Directories

set_option autoImplicit false

namespace SymbolAtlas

open Text Text.Path

namespace Text.Path

/-! ## The last name of a path -/

variable {root name : String} {before : List String}

theorem endsWith_iff {text tail : String} :
    endsWith text tail = true ↔ ∃ first, text = first ++ tail := by
  rw [endsWith, List.isSuffixOf_iff_suffix]
  constructor
  · rintro ⟨first, shape⟩
    refine ⟨String.ofList first, String.toList_injective ?_⟩
    rw [String.toList_append, String.toList_ofList, shape]
  · rintro ⟨first, rfl⟩
    rw [String.toList_append]
    exact List.suffix_append _ _

theorem trimTail_append (first tail : String) : trimTail (first ++ tail) tail = first := by
  rw [trimTail, if_pos (endsWith_iff.2 ⟨first, rfl⟩), String.length_append, Nat.add_sub_cancel,
    String.toList_append, ← String.length_toList, List.take_left, String.ofList_toList]

theorem base_ofElements (proper : ∀ part ∈ before, IsName part) (isName : IsName name) :
    base (ofElements (before ++ [name])) = name := by
  have whole : ∀ part ∈ before ++ [name], '/' ∉ part.toList :=
    List.forall_mem_append.2 ⟨fun part member => (proper part member).whole,
      by simpa using isName.whole⟩
  have read := elements_ofElements whole (by simp)
  have some_ : ofElements (before ++ [name]) ≠ "" := fun none => by
    rw [none] at read
    have parts : before ++ [name] = [""] := read.symm.trans (by decide)
    exact isName.nonempty (by simpa using congrArg List.getLast? parts)
  rw [base, if_neg some_, read, List.reverse_append, List.reverse_singleton, List.singleton_append,
    List.find?_cons_of_pos (by simpa using isName.nonempty)]
  rfl

/-- A path ends with its last name. -/
theorem exists_below (some_ : root ≠ "") (proper : ∀ part ∈ before, IsName part)
    (isName : IsName name) : ∃ (p : Place) (last : ∀ part ∈ [name], IsName part),
      under root (before ++ [name]) = (p.below [name] last).text := by
  obtain ⟨p, leads⟩ := exists_place root
  have last : ∀ part ∈ [name], IsName part := by simpa using isName
  refine ⟨p.below before proper, last, ?_⟩
  rw [under_eq leads some_ (List.forall_mem_append.2 ⟨proper, last⟩), Place.below_below]

theorem endsWith_under {tail : String} (some_ : root ≠ "") (proper : ∀ part ∈ before, IsName part)
    (isName : IsName name) (whole : '/' ∉ tail.toList) :
    endsWith (under root (before ++ [name])) tail = endsWith name tail := by
  obtain ⟨p, last, text⟩ := exists_below some_ proper isName
  rw [text, endsWith_below whole]

theorem extension_under (some_ : root ≠ "") (proper : ∀ part ∈ before, IsName part)
    (isName : IsName name) : extension (under root (before ++ [name])) = extension name := by
  obtain ⟨p, last, text⟩ := exists_below some_ proper isName
  have read := Place.elements_text (p := p.below [name] last) (by simp)
  rw [Place.parts_below, ← List.append_assoc] at read
  rw [text, extension, extension, read, elements_of_whole isName.whole, List.getLast?_concat,
    List.getLast?_singleton]

end Text.Path

namespace Discovery

/-! ## Patterns -/

/-- The ignore file of the project at `root`. -/
def ignoreFileOf (root : String) (o : Options) : String :=
  if o.ignoreFile = "" then Path.join [root, ignoreFileName] else o.ignoreFile

/-- What a line of an ignore file says. -/
def said (line : List UInt8) : String := Blank.trim (Utf8.decode (Lines.dropReturn line))

/-- A pattern of the project at `root`: a given one, or what a line of the ignore file says, if it
says something and is no comment, without a slash at its end. -/
inductive IsPattern (tree : FileTree) (root : String) (o : Options) : String → Prop
  | given {pattern : String} : pattern ∈ o.excludes → IsPattern tree root o pattern
  | listed {bytes line : List UInt8} : tree.readBytes? (ignoreFileOf root o) = some bytes →
      line ∈ Lines.raw bytes → said line ≠ "" → Path.startsWith (said line) "#" = false →
      IsPattern tree root o (Path.trimTail (said line) "/")

/-- All lines of the ignore file can be read. -/
def IsLegible (tree : FileTree) (root : String) (o : Options) : Prop :=
  ∀ bytes, tree.readBytes? (ignoreFileOf root o) = some bytes →
    ∀ line ∈ Lines.raw bytes, line.length < ignoreLineLimit

variable {tree : FileTree} {root : String} {o : Options} {pattern name : String}
  {before : List String}

theorem mem_ignorePatterns_iff {bytes : List UInt8}
    (legible : ∀ line ∈ Lines.raw bytes, line.length < ignoreLineLimit) :
    pattern ∈ ignorePatterns bytes ↔ ∃ line ∈ Lines.raw bytes, said line ≠ "" ∧
      Path.startsWith (said line) "#" = false ∧ pattern = Path.trimTail (said line) "/" := by
  have read : Lines.readAll? ignoreLineLimit bytes =
      some ((Lines.raw bytes).map Lines.dropReturn) := by
    rw [Lines.readAll?]
    refine if_neg fun long => ?_
    obtain ⟨line, member, long⟩ := List.any_eq_true.1 long
    exact absurd (legible line member) (Nat.not_lt.2 (of_decide_eq_true long))
  have patterns : ignorePatterns bytes = (((Lines.raw bytes).map said).filter fun text =>
      text ≠ "" && !Path.startsWith text "#").map fun text => Path.trimTail text "/" := by
    simp only [ignorePatterns, read, List.map_map]
    rfl
  simp only [patterns, List.mem_map, List.mem_filter]
  constructor
  · rintro ⟨text, ⟨⟨line, member, rfl⟩, kept⟩, rfl⟩
    obtain ⟨some_, comment⟩ := Bool.and_eq_true_iff.1 kept
    exact ⟨line, member, by simpa using some_, by simpa using comment, rfl⟩
  · rintro ⟨line, member, some_, comment, same⟩
    refine ⟨_, ⟨⟨line, member, rfl⟩, ?_⟩, same.symm⟩
    exact Bool.and_eq_true_iff.2 ⟨decide_eq_true some_, by simpa using comment⟩

/-- **The patterns of a project.** -/
theorem mem_patternsOf_iff (legible : IsLegible tree root o) :
    pattern ∈ patternsOf tree root o ↔ IsPattern tree root o pattern := by
  have patterns : patternsOf tree root o =
      o.excludes ++ ((tree.readBytes? (ignoreFileOf root o)).map ignorePatterns).getD [] := rfl
  rw [patterns, List.mem_append]
  constructor
  · rintro (given | listed)
    · exact .given given
    · cases read : tree.readBytes? (ignoreFileOf root o) with
      | none =>
          rw [read, Option.map_none, Option.getD_none] at listed
          cases listed
      | some bytes =>
          rw [read, Option.map_some, Option.getD_some] at listed
          obtain ⟨line, member, some_, comment, same⟩ :=
            (mem_ignorePatterns_iff (legible bytes read)).1 listed
          rw [same]
          exact .listed read member some_ comment
  · rintro (given | @⟨bytes, line, read, member, some_, comment⟩)
    · exact .inl given
    · rw [read, Option.map_some, Option.getD_some]
      exact .inr ((mem_ignorePatterns_iff (legible bytes read)).2
        ⟨line, member, some_, comment, rfl⟩)

section Matching

variable [Globs]

/-- A pattern excludes what names lead to. -/
inductive Excludes (pattern : String) (names : List String) (isDirectory : Bool) : Prop
  | whole : Globs.matchesPath pattern (ofElements names) = true → Excludes pattern names isDirectory
  /-- A pattern for all that lies below a directory excludes the directory. -/
  | above {first : String} : isDirectory = true → pattern = first ++ "/**" →
      Globs.matchesPath first (ofElements names) = true → Excludes pattern names isDirectory
  /-- A pattern without a slash counts at any depth. -/
  | last {before : List String} {name : String} : '/' ∉ pattern.toList →
      names = before ++ [name] → Globs.matchesName pattern name = true →
      Excludes pattern names isDirectory

theorem excludes_iff (proper : ∀ part ∈ before, IsName part) (isName : IsName name)
    (isDirectory : Bool) : excludes pattern (ofElements (before ++ [name])) isDirectory = true ↔
      Excludes pattern (before ++ [name]) isDirectory := by
  rw [excludes, base_ofElements proper isName, Bool.or_eq_true, Bool.or_eq_true, Bool.and_eq_true,
    Bool.and_eq_true, Bool.and_eq_true, endsWith_iff]
  constructor
  · rintro ((whole | ⟨⟨directory, first, rfl⟩, matched⟩) | ⟨bare, matched⟩)
    · exact .whole whole
    · rw [trimTail_append] at matched
      exact .above directory rfl matched
    · exact .last (by simpa using bare) rfl matched
  · rintro (whole | ⟨directory, rfl, matched⟩ | @⟨before', name', bare, same, matched⟩)
    · exact .inl (.inl whole)
    · refine .inl (.inr ⟨⟨directory, _, rfl⟩, ?_⟩)
      rwa [trimTail_append]
    · obtain ⟨-, names⟩ := List.append_inj' same rfl
      obtain rfl := List.cons.inj names |>.1
      exact .inr ⟨by simpa using bare, matched⟩

theorem isExcluded_iff (legible : IsLegible tree root o) (proper : ∀ part ∈ before, IsName part)
    (isName : IsName name) (isDirectory : Bool) :
    isExcluded (patternsOf tree root o) (ofElements (before ++ [name])) isDirectory = true ↔
      ∃ pattern, IsPattern tree root o pattern ∧
        Excludes pattern (before ++ [name]) isDirectory := by
  simp only [isExcluded, List.any_eq_true, excludes_iff proper isName, mem_patternsOf_iff legible]

/-! ## Directories and files -/

/-- A directory of the project that is left out, with all that lies in it. -/
inductive Prunes (tree : FileTree) (root : String) (o : Options) (before : List String)
    (name : String) : Prop
  | ignored : name = "node_modules" ∨ name = "testdata" → Prunes tree root o before name
  | hidden : Path.startsWith name "_" = true ∨ Path.startsWith name "." = true →
      Prunes tree root o before name
  | excluded {pattern : String} : IsPattern tree root o pattern →
      Excludes pattern (before ++ [name]) true → Prunes tree root o before name
  | module : tree.exists (Path.join [under root (before ++ [name]), "go.mod"]) = true →
      Prunes tree root o before name

theorem prunes_iff (legible : IsLegible tree root o) (proper : ∀ part ∈ before, IsName part)
    (isName : IsName name) :
    (skipsDirectory (patternsOf tree root o) name (ofElements (before ++ [name])) ||
      isModule tree (under root (before ++ [name]))) = true ↔ Prunes tree root o before name := by
  rw [skipsDirectory, isModule, Bool.or_eq_true, Bool.or_eq_true, Bool.or_eq_true, Bool.or_eq_true,
    isExcluded_iff legible proper isName]
  constructor
  · rintro ((((ignored | hidden) | hidden) | ⟨pattern, counts, excluded⟩) | module)
    · exact .ignored (by simpa [ignoredNames] using ignored)
    · exact .hidden (.inl hidden)
    · exact .hidden (.inr hidden)
    · exact .excluded counts excluded
    · exact .module module
  · rintro (ignored | (hidden | hidden) | ⟨counts, excluded⟩ | module)
    · exact .inl (.inl (.inl (.inl (by simpa [ignoredNames] using ignored))))
    · exact .inl (.inl (.inl (.inr hidden)))
    · exact .inl (.inl (.inr hidden))
    · exact .inl (.inr ⟨_, counts, excluded⟩)
    · exact .inr module

theorem isSource_iff (legible : IsLegible tree root o) (some_ : root ≠ "")
    (proper : ∀ part ∈ before, IsName part) (isName : IsName name) :
    isSource (patternsOf tree root o) o.tests (under root (before ++ [name]))
        (ofElements (before ++ [name])) = true ↔
      Path.extension name = ".go" ∧ (o.tests = true ∨ Path.endsWith name "_test.go" = false) ∧
        ∀ pattern, IsPattern tree root o pattern → ¬ Excludes pattern (before ++ [name]) false := by
  rw [isSource, extension_under some_ proper isName,
    endsWith_under some_ proper isName (by decide), Bool.and_eq_true, Bool.and_eq_true,
    Bool.not_eq_true', ← Bool.not_eq_true, isExcluded_iff legible proper isName]
  simp only [decide_eq_true_eq, Bool.or_eq_true, Bool.not_eq_true', not_exists, not_and, and_assoc]

end Matching

end Discovery
end SymbolAtlas
