/-
# SymbolAtlas.Proofs.Text.Nesting -- one directory in another

A directory contains a path whose names go on from its own (`Contains`).  For rooted directories
this is what the relative path between the two says (`isWithin_iff_contains`), and of two
directories around one file the deeper one has the longer text (`size_lt_of_depth_lt`).  For
directories inside a project it is what comparing the texts says, if the shorter one is compared
up to a slash (`contains_iff_startsWith`).
-/
import SymbolAtlas.Proofs.Text.Places

set_option autoImplicit false

namespace SymbolAtlas.Text.Path

/-! ## Roots above a file -/

/-- How many names lead to a rooted directory. -/
def depth (path : String) : Nat := (cleanElements path).length

/-- A directory contains what lies behind its names. -/
def Contains (root file : String) : Prop := cleanElements root <+: cleanElements file

instance (root file : String) : Decidable (Contains root file) :=
  inferInstanceAs (Decidable (_ <+: _))

variable {root root' file : String}

theorem isWithin_iff_contains (rooted : isRooted root = true) (rooted' : isRooted file = true) :
    isWithin root file = true ↔ Contains root file := by
  obtain ⟨p, leads⟩ := exists_place root
  obtain ⟨q, leads'⟩ := exists_place file
  have start : p.rooted = true := leads.rooted.trans rooted
  have start' : q.rooted = true := leads'.rooted.trans rooted'
  rw [isWithin_iff_of_rooted leads leads' start', Contains, ← leads.parts, ← leads'.parts,
    Place.parts_of_rooted start, Place.parts_of_rooted start']
  exact and_iff_right start

theorem Absolute.text (h : Absolute root) : root = "/" ++ ofElements (cleanElements root) := by
  have shape := h.2
  rw [clean, if_pos h.1] at shape
  exact shape.symm

theorem Absolute.size_pos (h : Absolute root) : 0 < root.utf8ByteSize := by
  rw [h.text, String.utf8ByteSize_append]
  exact Nat.lt_add_right _ (by decide)

/-- More names make a longer text. -/
theorem size_lt_append {names more : List String} (proper : ∀ name ∈ more, IsName name)
    (some_ : more ≠ []) :
    (ofElements names).utf8ByteSize < (ofElements (names ++ more)).utf8ByteSize := by
  by_cases none : names = []
  · obtain ⟨name, rest, rfl⟩ := List.exists_cons_of_ne_nil some_
    have nonempty : name.utf8ByteSize ≠ 0 := fun zero =>
      (proper name List.mem_cons_self).nonempty (String.utf8ByteSize_eq_zero_iff.1 zero)
    have start : (ofElements names).utf8ByteSize = 0 := by rw [none]; rfl
    rw [start, none, List.nil_append]
    by_cases alone : rest = []
    · rw [alone, ofElements_singleton]
      exact Nat.pos_of_ne_zero nonempty
    · rw [ofElements_cons alone, String.utf8ByteSize_append, String.utf8ByteSize_append]
      omega
  · rw [ofElements_append none some_, String.utf8ByteSize_append, String.utf8ByteSize_append]
    have slash : "/".utf8ByteSize = 1 := by decide
    omega

/-- **Of two roots above one file the deeper one has the longer text.** -/
theorem size_lt_of_depth_lt (h : Absolute root) (h' : Absolute root') (above : Contains root file)
    (above' : Contains root' file) (less : depth root < depth root') :
    root.utf8ByteSize < root'.utf8ByteSize := by
  obtain ⟨more, names⟩ := List.prefix_of_prefix_length_le above above' (Nat.le_of_lt less)
  have proper : ∀ name ∈ more, IsName name := fun name member =>
    cleanElements_names h'.1 name (names ▸ List.mem_append_right _ member)
  have some_ : more ≠ [] := by
    rintro rfl
    rw [depth, depth, ← names, List.append_nil] at less
    exact Nat.lt_irrefl _ less
  rw [h.text, h'.text, String.utf8ByteSize_append, String.utf8ByteSize_append, ← names]
  exact Nat.add_lt_add_left (size_lt_append proper some_) _

/-! ## Directories inside a directory -/

/-- A directory inside another one: a relative path in normal form that does not lead out. -/
structure Inward (path : String) : Prop where
  relative : isRooted path = false
  clean : clean path = path
  stays : leaves path = false

theorem Inward.exists_names {path : String} (h : Inward path) :
    ∃ names proper, path = (Place.inside names proper).text :=
  exists_inside h.relative h.clean h.stays

namespace Place

variable {names names' : List String} {proper : ∀ name ∈ names, IsName name}
  {proper' : ∀ name ∈ names', IsName name}

@[simp]
theorem cleanElements_inside : cleanElements (inside names proper).text = names :=
  (leadsTo_text (inside names proper)).parts.symm

theorem inward_inside : Inward (inside names proper).text where
  relative := isRooted_text
  clean := (leadsTo_text _).clean
  stays := Bool.eq_false_iff.2 fun away => (leaves_text_iff.1 away).2 rfl

theorem text_inside_inj : (inside names proper).text = (inside names' proper').text ↔
    names = names' := by
  constructor
  · intro same
    have read := congrArg cleanElements same
    rwa [cleanElements_inside, cleanElements_inside] at read
  · rintro rfl
    rfl

theorem text_inside_eq_dot_iff : (inside names proper).text = "." ↔ names = [] := by
  rw [show "." = (inside [] (List.forall_mem_nil _)).text from rfl, text_inside_inj]

theorem contains_inside_iff :
    Contains (inside names proper).text (inside names' proper').text ↔ names <+: names' := by
  rw [Contains, cleanElements_inside, cleanElements_inside]

/-- Joined paths to places inside a directory lead to the place inside the one that the other
leads to. -/
theorem join_inside : join [(inside names proper).text, (inside names' proper').text] =
    (inside (names ++ names') (List.forall_mem_append.2 ⟨proper, proper'⟩)).text :=
  join_below (leadsTo_text _) (by simp) (by simpa using descends_inside) proper'
    (by rw [List.flatMap_singleton, steps_text_inside])

/-- What starts with the text of a directory and a slash goes on from its names. -/
theorem startsWith_inside_iff (some_ : names ≠ []) :
    startsWith (inside names' proper').text ((inside names proper).text ++ "/") = true ↔
      ∃ rest, rest ≠ [] ∧ names' = names ++ rest := by
  rw [startsWith_iff, text_inside some_]
  constructor
  · rintro ⟨tail, shape⟩
    have read : elements (inside names' proper').text = names ++ elements tail := by
      rw [shape, elements_append, elements_ofElements (fun _ here => (proper _ here).whole) some_]
    by_cases none : names' = []
    · subst none
      obtain ⟨first, more, rfl⟩ := List.exists_cons_of_ne_nil some_
      have dot : elements (inside [] proper').text = ["."] :=
        (show elements "." = ["."] by decide)
      rw [dot, List.cons_append] at read
      exact absurd (List.cons.inj read).1.symm (proper first List.mem_cons_self).stays
    · refine ⟨elements tail, elements_ne_nil tail, ?_⟩
      rw [← read, elements_text (p := inside names' proper') none]
      rfl
  · rintro ⟨rest, more, rfl⟩
    exact ⟨ofElements rest, by rw [text_inside (by simp [some_]), ofElements_append some_ more]⟩

/-- A directory inside a project contains another one exactly if that one is equal to it or starts
with it and a slash. -/
theorem contains_iff_startsWith (some_ : names ≠ []) :
    Contains (inside names proper).text (inside names' proper').text ↔
      (inside names' proper').text = (inside names proper).text ∨
        startsWith (inside names' proper').text ((inside names proper).text ++ "/") = true := by
  rw [startsWith_inside_iff some_, text_inside_inj, contains_inside_iff]
  constructor
  · rintro ⟨rest, rfl⟩
    by_cases none : rest = []
    · exact .inl (by rw [none, List.append_nil])
    · exact .inr ⟨rest, none, rfl⟩
  · rintro (rfl | ⟨rest, -, rfl⟩)
    · exact List.prefix_rfl
    · exact List.prefix_append _ _

end Place

end SymbolAtlas.Text.Path
