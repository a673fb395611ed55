/-
# SymbolAtlas.Proofs.Checked.Grammar -- what a parser may report

A report of a syntax tree says for each piece of syntax what its form is and which parts stand in
which fields.  Where the form decides how the parts are read, the grammar says which fields there
are, how often, and what may stand in them (`slots?`); all other forms may have any parts.  A piece
is formed if the grammar holds in it and in everything inside it (`Formed`), and whether it is can
be computed.

The identifiers of a piece are the pieces inside it that have the form of one (`occurrences`).  In a
formed piece with slots they are those of the parts, slot by slot (`occurrences_perm_slots`).
-/
import Mathlib.Data.List.Basic
import SymbolAtlas.Checked.Report

set_option autoImplicit false

namespace SymbolAtlas

/-! ## Depth -/

namespace Json

variable {j x : Json} {key : String}

attribute [local simp] depth depthOfItems depthOfMembers

theorem one_le_depth (j : Json) : 1 ≤ j.depth := by
  cases j <;> simp [depth]

theorem depth_le_depthOfItems {items : List Json} (member : x ∈ items) :
    x.depth ≤ depthOfItems items := by
  induction items with
  | nil => cases member
  | cons y rest ih =>
      rw [depthOfItems]
      rcases List.mem_cons.1 member with rfl | later
      · exact Nat.le_max_left _ _
      · exact Nat.le_trans (ih later) (Nat.le_max_right _ _)

theorem depth_le_depthOfMembers {members : List (String × Json)} {entry : String × Json}
    (member : entry ∈ members) : entry.2.depth ≤ depthOfMembers members := by
  induction members with
  | nil => cases member
  | cons first rest ih =>
      obtain ⟨name, value⟩ := first
      rw [depthOfMembers]
      rcases List.mem_cons.1 member with rfl | later
      · exact Nat.le_max_left _ _
      · exact Nat.le_trans (ih later) (Nat.le_max_right _ _)

/-- What an object holds is nested less deep. -/
theorem depth_lt_of_member? (found : j.member? key = some x) : x.depth < j.depth := by
  cases j with
  | obj members =>
      obtain ⟨entry, first, rfl⟩ := Option.map_eq_some_iff.1 found
      have inside := depth_le_depthOfMembers (List.mem_reverse.1 (List.mem_of_find?_eq_some first))
      rw [depth]
      omega
  | _ => cases found

theorem depth_lt_of_mem_items (member : x ∈ j.items key) : x.depth + 1 < j.depth := by
  unfold items Json.member at member
  cases found : j.member? key with
  | none => simp [found, arr?] at member
  | some value =>
      have shallow := depth_lt_of_member? found
      cases value with
      | arr items =>
          have inside : x ∈ items := by simpa [found, arr?] using member
          have bound := depth_le_depthOfItems inside
          rw [depth] at shallow
          omega
      | _ => simp [found, arr?] at member

end Json

namespace Checked.Report

variable {j : Json} {field form : String}

/-- Parts are nested less deep than what they are parts of. -/
theorem depth_lt_of_mem_parts {p : String × Json} (member : p ∈ parts j) :
    p.2.depth < j.depth := by
  obtain ⟨item, listed, read⟩ := List.mem_filterMap.1 member
  have shallow := Json.depth_lt_of_mem_items listed
  split at read
  · obtain rfl := Option.some.inj read
    simp only [Json.depth, Json.depthOfItems] at shallow
    dsimp only
    omega
  · cases read

theorem mem_partsAt {part : Json} : part ∈ partsAt field j ↔ (field, part) ∈ parts j := by
  unfold partsAt
  rw [List.mem_filterMap]
  constructor
  · rintro ⟨⟨name, other⟩, member, kept⟩
    dsimp only at kept
    split at kept
    · rename_i same
      obtain rfl := Option.some.inj kept
      exact same ▸ member
    · cases kept
  · intro member
    exact ⟨_, member, if_pos rfl⟩

theorem depth_lt_of_mem_partsAt {part : Json} (member : part ∈ partsAt field j) :
    part.depth < j.depth := depth_lt_of_mem_parts (mem_partsAt.1 member)

theorem partAt_of_eq {part : Json} {rest : List Json} (only : partsAt field j = part :: rest) :
    partAt field j = part := by
  rw [partAt, only, List.head?_cons, Option.getD_some]

/-! ## Pieces -/

/-- A piece of syntax and everything inside it down to a depth. -/
def piecesWithin : Nat → Json → List Json
  | 0, _ => []
  | depth + 1, j => j :: (parts j).flatMap fun p => piecesWithin depth p.2

/-- A piece of syntax and everything inside it, in the order of the text. -/
def pieces (j : Json) : List Json := piecesWithin j.depth j

theorem piecesWithin_eq_of_le {n n' : Nat} (deep : j.depth ≤ n) (deep' : j.depth ≤ n') :
    piecesWithin n j = piecesWithin n' j := by
  induction n generalizing j n' with
  | zero => exact absurd (Nat.le_trans j.one_le_depth deep) (by simp)
  | succ n ih =>
      cases n' with
      | zero => exact absurd (Nat.le_trans j.one_le_depth deep') (by simp)
      | succ n' =>
          rw [piecesWithin, piecesWithin]
          congr 1
          refine List.flatMap_congr fun p member => ?_
          have shallow := depth_lt_of_mem_parts member
          exact ih (by omega) (by omega)

theorem pieces_eq (j : Json) : pieces j = j :: (parts j).flatMap fun p => pieces p.2 := by
  have deep : j.depth = j.depth - 1 + 1 := (Nat.sub_add_cancel j.one_le_depth).symm
  rw [pieces, deep, piecesWithin]
  congr 1
  refine List.flatMap_congr fun p member => ?_
  have shallow := depth_lt_of_mem_parts member
  exact piecesWithin_eq_of_le (by omega) (Nat.le_refl _)

theorem mem_pieces_self (j : Json) : j ∈ pieces j := by
  rw [pieces_eq]
  exact List.mem_cons_self

theorem pieces_subset_of_mem_parts {p : String × Json} (member : p ∈ parts j) :
    pieces p.2 ⊆ pieces j := by
  intro piece inside
  rw [pieces_eq]
  exact List.mem_cons_of_mem _ (List.mem_flatMap.2 ⟨p, member, inside⟩)

/-- The identifiers in a piece of syntax. -/
def occurrences (j : Json) : List Json := (pieces j).filter (·.text "k" = "Ident")

theorem occurrences_eq (j : Json) :
    occurrences j = (if j.text "k" = "Ident" then [j] else []) ++
      ((parts j).map (·.2)).flatMap occurrences := by
  rw [occurrences, pieces_eq, List.filter_cons, List.filter_flatMap, List.flatMap_map]
  by_cases identifier : j.text "k" = "Ident"
  · simp [identifier, occurrences]
  · simp [identifier, occurrences]

/-! ## The grammar -/

/-- How often a field of a piece of syntax is there. -/
inductive Count where
  | one
  | optional
  | many
deriving DecidableEq

/-- Whether a field may be there a number of times. -/
def Count.allows : Count → Nat → Bool
  | .one, n => n = 1
  | .optional, n => n ≤ 1
  | .many, _ => true

/-- A field of a form of syntax. -/
structure Slot where
  field : String
  count : Count
  /-- The forms of what may stand in it, if it may not be anything. -/
  forms? : Option (List String) := none

/-- Whether parts may stand in a field. -/
def Slot.accepts (s : Slot) (js : List Json) : Bool :=
  s.count.allows js.length && js.all fun j => s.forms?.all (·.contains (j.text "k"))

/-- The fields of the forms that have fixed ones. -/
def slots? : String → Option (List Slot)
  | "Ident" | "BasicLit" => some []
  | "SelectorExpr" => some [⟨"X", .one, none⟩, ⟨"Sel", .one, some ["Ident"]⟩]
  | "AssignStmt" => some [⟨"Lhs", .many, none⟩, ⟨"Rhs", .many, none⟩]
  | "TypeSwitchStmt" =>
      some [⟨"Init", .optional, none⟩, ⟨"Assign", .one, none⟩, ⟨"Body", .one, none⟩]
  | "FuncType" =>
      some [⟨"TypeParams", .optional, none⟩, ⟨"Params", .optional, none⟩,
        ⟨"Results", .optional, none⟩]
  | "StructType" => some [⟨"Fields", .one, some ["FieldList"]⟩]
  | "InterfaceType" => some [⟨"Methods", .one, some ["FieldList"]⟩]
  | "FieldList" => some [⟨"List", .many, some ["Field"]⟩]
  | "Field" =>
      some [⟨"Names", .many, some ["Ident"]⟩, ⟨"Type", .one, none⟩,
        ⟨"Tag", .optional, some ["BasicLit"]⟩]
  | "GenDecl" => some [⟨"Specs", .many, some ["ImportSpec", "TypeSpec", "ValueSpec"]⟩]
  | "ImportSpec" => some [⟨"Name", .optional, some ["Ident"]⟩, ⟨"Path", .one, some ["BasicLit"]⟩]
  | "TypeSpec" =>
      some [⟨"Name", .one, some ["Ident"]⟩, ⟨"TypeParams", .optional, none⟩, ⟨"Type", .one, none⟩]
  | "ValueSpec" =>
      some [⟨"Names", .many, some ["Ident"]⟩, ⟨"Type", .optional, none⟩, ⟨"Values", .many, none⟩]
  | "FuncDecl" =>
      some [⟨"Recv", .optional, none⟩, ⟨"Name", .one, some ["Ident"]⟩,
        ⟨"Type", .one, some ["FuncType"]⟩, ⟨"Body", .optional, none⟩]
  | "File" => some [⟨"Name", .one, some ["Ident"]⟩, ⟨"Decls", .many, none⟩]
  | _ => none

/-- A piece of syntax has the parts that its form allows.  What a wrapper wraps comes first, and an
element of an interface has one name at most. -/
def Shaped (j : Json) : Prop :=
  (∀ slots ∈ slots? (j.text "k"), (∀ p ∈ parts j, p.1 ∈ slots.map Slot.field) ∧
    ∀ s ∈ slots, s.accepts (partsAt s.field j)) ∧
  (wrapperForms.contains (j.text "k") → (parts j).head?.map (·.1) = some "X") ∧
  (j.text "k" = "InterfaceType" → ∀ list ∈ partsAt "Methods" j, ∀ element ∈ partsAt "List" list,
    (partsAt "Names" element).length ≤ 1)

instance (j : Json) : Decidable (Shaped j) := inferInstanceAs (Decidable (_ ∧ _))

/-- The grammar holds in a piece of syntax and in everything inside it. -/
def Formed (j : Json) : Prop := ∀ piece ∈ pieces j, Shaped piece

instance (j : Json) : Decidable (Formed j) := inferInstanceAs (Decidable (∀ _ ∈ _, _))

/-- A file is formed. -/
def FormedFile (j : Json) : Prop := j.text "k" = "File" ∧ Formed j

instance (j : Json) : Decidable (FormedFile j) := inferInstanceAs (Decidable (_ ∧ _))

variable {slots : List Slot} {s : Slot}

theorem Formed.shaped (formed : Formed j) : Shaped j := formed j (mem_pieces_self j)

theorem Formed.of_mem_parts (formed : Formed j) {p : String × Json} (member : p ∈ parts j) :
    Formed p.2 := fun piece inside => formed piece (pieces_subset_of_mem_parts member inside)

theorem Formed.of_mem_partsAt (formed : Formed j) {part : Json} (member : part ∈ partsAt field j) :
    Formed part := formed.of_mem_parts (mem_partsAt.1 member)

/-- What must be there once is there once. -/
theorem Formed.exists_part (formed : Formed j) (field : String)
    (form : slots? (j.text "k") = some slots)
    (once : ∃ s ∈ slots, s.field = field ∧ s.count = .one) :
    ∃ part, partsAt field j = [part] := by
  obtain ⟨s, member, rfl, one⟩ := once
  have accepted := (formed.shaped.1 slots form).2 s member
  simp only [Slot.accepts, one, Count.allows, Bool.and_eq_true, decide_eq_true_eq] at accepted
  exact List.length_eq_one_iff.1 accepted.1

/-- What may be there once is there at most once. -/
theorem Formed.length_partsAt_le (formed : Formed j) (field : String)
    (form : slots? (j.text "k") = some slots)
    (seldom : ∃ s ∈ slots, s.field = field ∧ s.count = .optional) :
    (partsAt field j).length ≤ 1 := by
  obtain ⟨s, member, rfl, optional⟩ := seldom
  have accepted := (formed.shaped.1 slots form).2 s member
  simp only [Slot.accepts, optional, Count.allows, Bool.and_eq_true, decide_eq_true_eq] at accepted
  exact accepted.1

/-- Only some forms may stand in a slot. -/
theorem Formed.form_of_mem (formed : Formed j) {forms : List String} {part : Json}
    (form : slots? (j.text "k") = some slots)
    (only : ∃ s ∈ slots, s.field = field ∧ s.forms? = some forms)
    (there : part ∈ partsAt field j) : part.text "k" ∈ forms := by
  obtain ⟨s, member, rfl, same⟩ := only
  have accepted := (formed.shaped.1 slots form).2 s member
  simp only [Slot.accepts, same, Bool.and_eq_true, List.all_eq_true, Option.all_some] at accepted
  exact List.contains_iff_mem.1 (accepted.2 part there)

/-! ## Occurrences -/

/-- Parts are those of the fields, field by field. -/
theorem map_perm_flatMap_fields {ps : List (String × Json)} {fields : List String}
    (distinct : fields.Nodup) (cover : ∀ p ∈ ps, p.1 ∈ fields) :
    (ps.map (·.2)).Perm (fields.flatMap fun field =>
      ps.filterMap fun (name, part) => if name = field then some part else none) := by
  induction fields generalizing ps with
  | nil =>
      have empty : ps = [] := List.eq_nil_iff_forall_not_mem.2 fun p member =>
        List.not_mem_nil (cover p member)
      simp [empty]
  | cons field rest ih =>
      obtain ⟨apart, distinct⟩ := List.nodup_cons.1 distinct
      have covered : ∀ p ∈ ps.filter fun p => !decide (p.1 = field), p.1 ∈ rest := by
        intro p member
        obtain ⟨there, other⟩ := List.mem_filter.1 member
        exact (List.mem_cons.1 (cover p there)).resolve_left (by simpa using other)
      have others := ih distinct covered
      have mine : ps.filterMap (fun (name, part) => if name = field then some part else none) =
          (ps.filter fun p => decide (p.1 = field)).map (·.2) := by
        rw [← List.filterMap_eq_map, List.filterMap_filter]
        simp
      rw [List.flatMap_cons, mine]
      refine ((List.filter_append_perm (fun p => decide (p.1 = field)) ps).symm.map (·.2)).trans ?_
      rw [List.map_append]
      refine (others.trans (.of_eq ?_)).append_left _
      refine List.flatMap_congr fun name member => ?_
      rw [List.filterMap_filter]
      refine List.filterMap_congr fun p _ => ?_
      by_cases same : p.1 = field
      · have different : field ≠ name := fun equal => apart (equal ▸ member)
        simp [same, different]
      · simp [same]

/-- **The identifiers of a formed piece are those of its parts, slot by slot.** -/
theorem occurrences_perm_slots (formed : Formed j) (form : slots? (j.text "k") = some slots)
    (distinct : (slots.map Slot.field).Nodup) (other : j.text "k" ≠ "Ident") :
    (occurrences j).Perm ((slots.map Slot.field).flatMap fun field =>
      (partsAt field j).flatMap occurrences) := by
  have cover := (formed.shaped.1 slots form).1
  rw [occurrences_eq, if_neg other, List.nil_append]
  refine ((map_perm_flatMap_fields distinct cover).flatMap_right occurrences).trans (.of_eq ?_)
  rw [List.flatMap_assoc]
  rfl

/-- An identifier is the only one in itself. -/
theorem occurrences_of_ident (formed : Formed j) (form : j.text "k" = "Ident") :
    occurrences j = [j] := by
  have none : parts j = [] := List.eq_nil_iff_forall_not_mem.2 fun p member =>
    List.not_mem_nil ((formed.shaped.1 [] (by rw [form]; rfl)).1 p member)
  rw [occurrences_eq, if_pos form, none]
  rfl

theorem occurrences_of_literal (formed : Formed j) (form : j.text "k" = "BasicLit") :
    occurrences j = [] := by
  have none : parts j = [] := List.eq_nil_iff_forall_not_mem.2 fun p member =>
    List.not_mem_nil ((formed.shaped.1 [] (by rw [form]; rfl)).1 p member)
  rw [occurrences_eq, if_neg (by rw [form]; decide), none]
  rfl

/-- Where only identifiers stand, they are the occurrences. -/
theorem flatMap_occurrences_of_idents (formed : Formed j) (field : String)
    (form : slots? (j.text "k") = some slots)
    (only : ∃ s ∈ slots, s.field = field ∧ s.forms? = some ["Ident"]) :
    (partsAt field j).flatMap occurrences = partsAt field j := by
  have single : ∀ i ∈ partsAt field j, occurrences i = [i] := fun i member =>
    occurrences_of_ident (formed.of_mem_partsAt member)
      (List.mem_singleton.1 (formed.form_of_mem form only member))
  rw [List.flatMap_congr single, List.flatMap_singleton']

/-- Where only literals stand, there are no occurrences. -/
theorem flatMap_occurrences_of_literals (formed : Formed j) (field : String)
    (form : slots? (j.text "k") = some slots)
    (only : ∃ s ∈ slots, s.field = field ∧ s.forms? = some ["BasicLit"]) :
    (partsAt field j).flatMap occurrences = [] := by
  refine List.flatMap_eq_nil_iff.2 fun part member => ?_
  exact occurrences_of_literal (formed.of_mem_partsAt member)
    (List.mem_singleton.1 (formed.form_of_mem form only member))

/-- The occurrences in a field are its names and those in its type. -/
theorem occurrences_of_field (formed : Formed j) (form : j.text "k" = "Field") :
    ∃ type, partsAt "Type" j = [type] ∧
      (occurrences j).Perm (partsAt "Names" j ++ occurrences type) := by
  have slots := congrArg slots? form
  obtain ⟨type, only⟩ := formed.exists_part "Type" slots (by decide)
  have names := flatMap_occurrences_of_idents formed "Names" slots (by decide)
  have tags := flatMap_occurrences_of_literals formed "Tag" slots (by decide)
  refine ⟨type, only, ?_⟩
  simpa [only, names, tags] using
    occurrences_perm_slots formed slots (by decide) (by rw [form]; decide)

end Checked.Report
end SymbolAtlas
