/-
# SymbolAtlas.Proofs.Checked.Reading -- no identifier is read twice or lost

Reading a report turns pieces of syntax into phrases and gives each identifier the next mark.  Every
form is read in its own way, some by naming their fields one by one and some by listing all parts,
and what is said of each reader is the same: it reads some pieces and marks exactly the identifiers
among them, in some order and without a gap (`Reads`).  Readers that follow each other read what
they read together (`Reads.bind`), and so each form is read completely if its parts are
(`spells_phraseWith`).  By induction on the depth a whole file is (`identifiers_fileOf`).
-/
import SymbolAtlas.Proofs.Checked.Grammar

set_option autoImplicit false

namespace SymbolAtlas.Checked

/-! ## The identifiers of phrases -/

mutual

/-- The identifiers of a phrase in the order of the text, each once. -/
@[simp]
def Phrase.identifiers : Phrase → List Identifier
  | .identifier i => [i]
  | .selector operand name => operand.identifiers ++ [name]
  | .wrapped operand arguments => operand.identifiers ++ identifiersOfAll arguments
  | .sequence parts => identifiersOfAll parts
  | .signature _ parts => identifiersOfAll parts
  | .scope _ _ parts => identifiersOfAll parts
  | .typeSwitch _ init guard subject body =>
      identifiersOfAll init ++ guard.toList.map (·.1) ++ identifiersOfAll subject ++
        body.identifiers
  | .structType _ fields => identifiersOfFields fields
  | .interfaceType _ elements => identifiersOfElements elements
  | .declarations _ _ specs => identifiersOfSpecs specs
  | .function _ _ name _ typeParameters _ signature body =>
      [name] ++ identifiersOfAll typeParameters ++ identifiersOfAll signature ++
        identifiersOfAll body

/-- The identifiers of phrases. -/
@[simp]
def identifiersOfAll : List Phrase → List Identifier
  | [] => []
  | p :: rest => p.identifiers ++ identifiersOfAll rest

/-- The identifiers of the fields of a struct type. -/
@[simp]
def identifiersOfFields : List Field → List Identifier
  | [] => []
  | .mk _ _ names type :: rest => (names ++ type.identifiers) ++ identifiersOfFields rest

/-- The identifiers of the elements of an interface type. -/
@[simp]
def identifiersOfElements : List Element → List Identifier
  | [] => []
  | .mk _ _ name type :: rest =>
      (name.toList ++ type.identifiers) ++ identifiersOfElements rest

/-- The identifiers of declarations after a keyword. -/
@[simp]
def identifiersOfSpecs : List Spec → List Identifier
  | [] => []
  | .imported i :: rest => i.name.toList ++ identifiersOfSpecs rest
  | .type _ _ name parameters type :: rest =>
      ([name] ++ identifiersOfAll parameters ++ type.identifiers) ++ identifiersOfSpecs rest
  | .value _ _ _ names parts :: rest =>
      (names ++ identifiersOfAll parts) ++ identifiersOfSpecs rest

end

/-- The identifiers of a file: that of its package clause and those of its declarations. -/
def SourceFile.identifiers (f : SourceFile) : List Identifier :=
  [f.name] ++ identifiersOfAll f.declarations

theorem identifiersOfAll_eq (ps : List Phrase) :
    identifiersOfAll ps = ps.flatMap Phrase.identifiers := by
  induction ps with
  | nil => rw [identifiersOfAll, List.flatMap_nil]
  | cons p rest ih => rw [identifiersOfAll, ih, List.flatMap_cons]

theorem identifiersOfFields_eq (fields : List Field) :
    identifiersOfFields fields = fields.flatMap fun field => identifiersOfFields [field] := by
  induction fields with
  | nil => rw [identifiersOfFields, List.flatMap_nil]
  | cons field rest ih =>
      obtain ⟨extent, doc, names, type⟩ := field
      rw [List.flatMap_cons, ← ih, identifiersOfFields, identifiersOfFields, identifiersOfFields,
        List.append_nil]

theorem identifiersOfElements_eq (elements : List Element) :
    identifiersOfElements elements =
      elements.flatMap fun element => identifiersOfElements [element] := by
  induction elements with
  | nil => rw [identifiersOfElements, List.flatMap_nil]
  | cons element rest ih =>
      obtain ⟨extent, doc, name, type⟩ := element
      rw [List.flatMap_cons, ← ih, identifiersOfElements, identifiersOfElements,
        identifiersOfElements, List.append_nil]

theorem identifiersOfSpecs_eq (specs : List Spec) :
    identifiersOfSpecs specs = specs.flatMap fun spec => identifiersOfSpecs [spec] := by
  induction specs with
  | nil => rw [identifiersOfSpecs, List.flatMap_nil]
  | cons spec rest ih =>
      rw [List.flatMap_cons, ← ih]
      cases spec <;> simp only [identifiersOfSpecs, List.append_nil]

namespace Report

variable {α β : Type} {s : Nat} {j : Json} {js occ occ' : List Json} {q : Marking α}

/-! ## Marks -/

/-- Pieces as identifiers with marks that follow each other. -/
def marked (s : Nat) (js : List Json) : List Identifier :=
  (js.zipIdx s).map fun (j, mark) => (identifierOf j mark).1

theorem marked_append (s : Nat) (js js' : List Json) :
    marked s (js ++ js') = marked s js ++ marked (s + js.length) js' := by
  rw [marked, List.zipIdx_append, List.map_append]
  rfl

theorem map_mark_marked (s : Nat) (js : List Json) :
    (marked s js).map (·.mark) = List.range' s js.length := by
  rw [marked, List.map_map]
  exact List.zipIdx_map_snd s js

/-- No two identifiers have the same mark. -/
theorem nodup_marked (s : Nat) (js : List Json) : ((marked s js).map (·.mark)).Nodup := by
  rw [map_mark_marked]
  exact List.nodup_range'

/-! ## Readers -/

/-- A reader reads exactly some pieces, in some order, and marks them from where the marks are; what
it makes of them is said by `post`. -/
def Reads (q : Marking α) (occ : List Json) (post : α → List Identifier → Prop) : Prop :=
  ∀ s, ∃ js : List Json, js.Perm occ ∧ (q s).2 = s + js.length ∧ post (q s).1 (marked s js)

namespace Reads

variable {post post' : α → List Identifier → Prop} {next : β → List Identifier → Prop}

theorem pure {x : α} (here : post x []) : Reads (pure x) [] post := by
  intro s
  exact ⟨[], .refl _, rfl, here⟩

/-- **Readers that follow each other read their pieces together.** -/
theorem bind {r : α → Marking β} (first : Reads q occ post)
    (second : ∀ x is, post x is → Reads (r x) occ' fun y is' => next y (is ++ is')) :
    Reads (q >>= r) (occ ++ occ') next := by
  intro s
  obtain ⟨js, listed, after, here⟩ := first s
  obtain ⟨js', listed', after', here'⟩ := second _ _ here (q s).2
  refine ⟨js ++ js', listed.append listed', ?_, ?_⟩
  · show (r (q s).1 (q s).2).2 = _
    rw [after', after, List.length_append, Nat.add_assoc]
  · rw [marked_append, ← after]
    exact here'

theorem perm (h : Reads q occ post) (same : occ.Perm occ') : Reads q occ' post := by
  intro s
  obtain ⟨js, listed, rest⟩ := h s
  exact ⟨js, listed.trans same, rest⟩

/-- A reader whose result is wrapped up. -/
theorem bind_pure {f : α → β} (h : Reads q occ post)
    (wrapped : ∀ x is, post x is → next (f x) is) : Reads (do return f (← q)) occ next := by
  intro s
  obtain ⟨js, listed, after, here⟩ := h s
  exact ⟨js, listed, after, wrapped _ _ here⟩

end Reads

/-- What was read is all of what something consists of. -/
abbrev Spells (q : Marking α) (occ : List Json) (identifiers : α → List Identifier) : Prop :=
  Reads q occ fun x is => identifiers x = is

/-- Several pieces are read one after the other. -/
theorem spells_mapM {read : Json → Marking α} {pieces : Json → List Json}
    (identifiers : α → List Identifier)
    (each : ∀ j ∈ js, Spells (read j) (pieces j) identifiers) :
    Spells (js.mapM read) (js.flatMap pieces) fun xs => xs.flatMap identifiers := by
  induction js with
  | nil => exact .pure rfl
  | cons j rest ih =>
      have later := ih fun j member => each j (List.mem_cons_of_mem _ member)
      rw [List.mapM_cons, List.flatMap_cons]
      refine (each j List.mem_cons_self).bind fun x is first => ?_
      refine later.bind_pure fun xs is' second => ?_
      dsimp only at second ⊢
      rw [List.flatMap_cons, first, second]

theorem spells_identifierOf (j : Json) : Spells (identifierOf j) [j] fun i => [i] := by
  intro s
  exact ⟨[j], .refl _, rfl, rfl⟩

theorem spells_identifiersAt (field : String) (j : Json) :
    Spells (identifiersAt field j) (partsAt field j) id := by
  have all : Spells ((partsAt field j).mapM identifierOf) _ _ :=
    spells_mapM _ fun j _ => spells_identifierOf j
  simp only [List.flatMap_singleton'] at all
  exact all

/-- The identifier in a field where one stands. -/
theorem spells_identifierAt {field : String} {name : Json} (only : partsAt field j = [name]) :
    Spells (identifierAt field j) [name] fun i => [i] := by
  rw [identifierAt, partAt_of_eq only]
  exact spells_identifierOf name

/-- Where one identifier may stand, the first is all there is. -/
theorem spells_firstAt {field : String} (alone : (partsAt field j).length ≤ 1) :
    Spells (identifiersAt field j) (partsAt field j) fun names => names.head?.toList := by
  intro s
  obtain ⟨js, listed, after, here⟩ := spells_identifiersAt field j s
  refine ⟨js, listed, after, ?_⟩
  dsimp only at here ⊢
  have few : (identifiersAt field j s).1.length ≤ 1 := by
    rw [← id_eq (identifiersAt field j s).1, here, marked, List.length_map, List.length_zipIdx,
      listed.length_eq]
    exact alone
  rw [← here]
  match (identifiersAt field j s).1, few with
  | [], _ => rfl
  | [i], _ => rfl

/-- A type switch gives a name to its subject by an assignment to a single identifier. -/
theorem guardName?_eq_some {name : Json} (guarded : guardName? j = some name) :
    j.text "k" = "AssignStmt" ∧ partsAt "Lhs" j = [name] ∧ name.text "k" = "Ident" := by
  unfold guardName? at guarded
  split at guarded
  · rename_i form only
    split at guarded
    · rename_i identifier
      obtain rfl := Option.some.inj guarded
      exact ⟨form, only, identifier⟩
    · cases guarded
  · cases guarded

/-! ## Forms -/

/-- A reader of phrases reads a piece completely. -/
abbrev SpellsPhrase (read : Json → Marking Phrase) (j : Json) : Prop :=
  Spells (read j) (occurrences j) Phrase.identifiers

variable {read : Json → Marking Phrase}

theorem spells_all (reads : ∀ j ∈ js, SpellsPhrase read j) :
    Spells (js.mapM read) (js.flatMap occurrences) identifiersOfAll := by
  simpa only [← identifiersOfAll_eq] using spells_mapM _ reads

section Forms

variable (reads : ∀ part : Json, part.depth < j.depth → Formed part → SpellsPhrase read part)
  (formed : Formed j)

include reads formed

/-- All parts are read one after the other. -/
theorem spells_children (other : j.text "k" ≠ "Ident") :
    Spells (((parts j).map (·.2)).mapM read) (occurrences j) identifiersOfAll := by
  rw [occurrences_eq, if_neg other, List.nil_append]
  refine spells_all fun part member => ?_
  obtain ⟨p, listed, rfl⟩ := List.mem_map.1 member
  exact reads p.2 (depth_lt_of_mem_parts listed) (formed.of_mem_parts listed)

/-- The parts in a field are read one after the other. -/
theorem spells_partsAt (field : String) :
    Spells ((partsAt field j).mapM read) ((partsAt field j).flatMap occurrences)
      identifiersOfAll :=
  spells_all fun part member =>
    reads part (depth_lt_of_mem_partsAt member) (formed.of_mem_partsAt member)

/-- The part in a field where one stands is read. -/
theorem spells_partAt {field : String} {part : Json} (only : partsAt field j = [part]) :
    Spells (read (partAt field j)) (occurrences part) Phrase.identifiers := by
  have member : part ∈ partsAt field j := only ▸ List.mem_cons_self
  rw [partAt_of_eq only]
  exact reads part (depth_lt_of_mem_partsAt member) (formed.of_mem_partsAt member)

/-- An operand and a name are all of a selector. -/
theorem spells_selector (form : j.text "k" = "SelectorExpr") :
    Spells (do return .selector (← read (partAt "X" j)) (← identifierAt "Sel" j)) (occurrences j)
      Phrase.identifiers := by
  have slots := congrArg slots? form
  obtain ⟨operand, left⟩ := formed.exists_part "X" slots (by decide)
  obtain ⟨name, right⟩ := formed.exists_part "Sel" slots (by decide)
  have named := flatMap_occurrences_of_idents formed "Sel" slots (by decide)
  rw [right, List.flatMap_singleton] at named
  have whole : (occurrences j).Perm (occurrences operand ++ [name]) := by
    simpa [left, right, named] using
      occurrences_perm_slots formed slots (by decide) (by rw [form]; decide)
  refine Reads.perm (Reads.bind (spells_partAt reads formed left) ?_) whole.symm
  rintro operand _ rfl
  refine Reads.bind_pure (spells_identifierAt right) ?_
  rintro name _ rfl
  rw [Phrase.identifiers]

/-- What is wrapped comes first. -/
theorem spells_wrapped (form : wrapperForms.contains (j.text "k") = true) :
    Spells (do
        return .wrapped (← read (partAt "X" j)) (← ((parts j).tail.map (·.2)).mapM read))
      (occurrences j) Phrase.identifiers := by
  have other : j.text "k" ≠ "Ident" := fun same => by rw [same] at form; revert form; decide
  obtain ⟨⟨_, operand⟩, first, rfl⟩ := Option.map_eq_some_iff.1 (formed.shaped.2.1 form)
  obtain ⟨rest, listed⟩ := List.head?_eq_some_iff.1 first
  have member : ("X", operand) ∈ parts j := listed ▸ List.mem_cons_self
  have here : partAt "X" j = operand := by simp [partAt, partsAt, listed]
  rw [occurrences_eq, if_neg other, listed, here, List.tail_cons, List.map_cons,
    List.flatMap_cons, List.nil_append]
  refine Reads.bind (reads operand (depth_lt_of_mem_parts member) (formed.of_mem_parts member)) ?_
  rintro operand _ rfl
  refine Reads.bind_pure (spells_all fun part inside => ?_) ?_
  · obtain ⟨p, behind, rfl⟩ := List.mem_map.1 inside
    have member : p ∈ parts j := listed ▸ List.mem_cons_of_mem _ behind
    exact reads p.2 (depth_lt_of_mem_parts member) (formed.of_mem_parts member)
  · rintro arguments _ rfl
    rw [Phrase.identifiers]

/-- Names and a type are all of a field. -/
theorem spells_field (form : j.text "k" = "Field") :
    Spells (do
        return Field.mk (extentOf j) (docOf j) (← identifiersAt "Names" j)
          (← read (partAt "Type" j)))
      (occurrences j) fun field => identifiersOfFields [field] := by
  obtain ⟨type, only, whole⟩ := occurrences_of_field formed form
  refine Reads.perm (Reads.bind (spells_identifiersAt "Names" j) ?_) whole.symm
  rintro names _ rfl
  refine Reads.bind_pure (spells_partAt reads formed only) ?_
  rintro type _ rfl
  simp [identifiersOfFields]

/-- A name, if there is one, and a type are all of an element. -/
theorem spells_element (form : j.text "k" = "Field") (alone : (partsAt "Names" j).length ≤ 1) :
    Spells (do
        return Element.mk (extentOf j) (docOf j) (← identifiersAt "Names" j).head?
          (← read (partAt "Type" j)))
      (occurrences j) fun element => identifiersOfElements [element] := by
  obtain ⟨type, only, whole⟩ := occurrences_of_field formed form
  refine Reads.perm (Reads.bind (spells_firstAt alone) ?_) whole.symm
  rintro names _ rfl
  refine Reads.bind_pure (spells_partAt reads formed only) ?_
  rintro type _ rfl
  simp [identifiersOfElements]

omit reads in
/-- The fields in a list are read one after the other. -/
theorem spells_listed {α : Type} {field : String} {read : Json → Marking α}
    {identifiers : α → List Identifier} {slots : List Slot} {list : Json}
    (known : slots? (j.text "k") = some slots) (only : partsAt field j = [list])
    (lists : ∃ s ∈ slots, s.field = field ∧ s.forms? = some ["FieldList"])
    (each : ∀ f ∈ partsAt "List" list, f.depth < j.depth → Formed f → f.text "k" = "Field" →
      Spells (read f) (occurrences f) identifiers) :
    Spells ((partsAt "List" (partAt field j)).mapM read) (occurrences list)
      fun xs => xs.flatMap identifiers := by
  have member : list ∈ partsAt field j := only ▸ List.mem_cons_self
  have inside := formed.of_mem_partsAt member
  have form := List.mem_singleton.1 (formed.form_of_mem known lists member)
  have slots := congrArg slots? form
  have whole : (occurrences list).Perm ((partsAt "List" list).flatMap occurrences) := by
    simpa using occurrences_perm_slots inside slots (by decide) (by rw [form]; decide)
  rw [partAt_of_eq only]
  refine (spells_mapM _ fun f listed => each f listed ?_ ?_ ?_).perm whole.symm
  · exact Nat.lt_trans (depth_lt_of_mem_partsAt listed) (depth_lt_of_mem_partsAt member)
  · exact inside.of_mem_partsAt listed
  · exact List.mem_singleton.1 (inside.form_of_mem slots (by decide) listed)

/-- The fields are all of a struct type. -/
theorem spells_structType (form : j.text "k" = "StructType") :
    Spells (do
        return .structType (extentOf j) (← (partsAt "List" (partAt "Fields" j)).mapM fun f => do
          return .mk (extentOf f) (docOf f) (← identifiersAt "Names" f) (← read (partAt "Type" f))))
      (occurrences j) Phrase.identifiers := by
  have slots := congrArg slots? form
  obtain ⟨list, only⟩ := formed.exists_part "Fields" slots (by decide)
  have whole : (occurrences j).Perm (occurrences list) := by
    simpa [only] using occurrences_perm_slots formed slots (by decide) (by rw [form]; decide)
  refine (Reads.bind_pure (spells_listed formed slots only (by decide) fun f _ deep inside form =>
    spells_field (fun part deeper => reads part (Nat.lt_trans deeper deep)) inside form)
    ?_).perm whole.symm
  rintro fields _ rfl
  rw [Phrase.identifiers, identifiersOfFields_eq]

/-- The elements are all of an interface type. -/
theorem spells_interfaceType (form : j.text "k" = "InterfaceType") :
    Spells (do
        return .interfaceType (extentOf j)
          (← (partsAt "List" (partAt "Methods" j)).mapM fun f => do
            return .mk (extentOf f) (docOf f) (← identifiersAt "Names" f).head?
              (← read (partAt "Type" f))))
      (occurrences j) Phrase.identifiers := by
  have slots := congrArg slots? form
  obtain ⟨list, only⟩ := formed.exists_part "Methods" slots (by decide)
  have whole : (occurrences j).Perm (occurrences list) := by
    simpa [only] using occurrences_perm_slots formed slots (by decide) (by rw [form]; decide)
  have alone := formed.shaped.2.2 form list (only ▸ List.mem_cons_self)
  refine (Reads.bind_pure (spells_listed formed slots only (by decide)
    fun f listed deep inside form => spells_element
      (fun part deeper => reads part (Nat.lt_trans deeper deep)) inside form (alone f listed))
    ?_).perm whole.symm
  rintro elements _ rfl
  rw [Phrase.identifiers, identifiersOfElements_eq]

omit reads in
/-- A name, if there is one, is all of an import. -/
theorem spells_import (form : j.text "k" = "ImportSpec") :
    Spells (do return .imported (← importOf j)) (occurrences j)
      fun spec => identifiersOfSpecs [spec] := by
  have slots := congrArg slots? form
  have alone := formed.length_partsAt_le "Name" slots (by decide)
  have names := flatMap_occurrences_of_idents formed "Name" slots (by decide)
  have paths := flatMap_occurrences_of_literals formed "Path" slots (by decide)
  have whole : (occurrences j).Perm (partsAt "Name" j) := by
    simpa [names, paths] using
      occurrences_perm_slots formed slots (by decide) (by rw [form]; decide)
  have import_ : Spells (importOf j) (partsAt "Name" j) fun i => i.name.toList :=
    (spells_firstAt alone).bind_pure fun _ _ here => here
  refine (import_.bind_pure ?_).perm whole.symm
  rintro i _ rfl
  simp [identifiersOfSpecs]

/-- A name, parameters and a type are all of the declaration of a type. -/
theorem spells_typeSpec (form : j.text "k" = "TypeSpec") :
    Spells (do
        return .type (extentOf j) (docOf j) (← identifierAt "Name" j)
          (← (partsAt "TypeParams" j).mapM read) (← read (partAt "Type" j)))
      (occurrences j) fun spec => identifiersOfSpecs [spec] := by
  have slots := congrArg slots? form
  obtain ⟨name, only⟩ := formed.exists_part "Name" slots (by decide)
  obtain ⟨type, only'⟩ := formed.exists_part "Type" slots (by decide)
  have named := flatMap_occurrences_of_idents formed "Name" slots (by decide)
  rw [only, List.flatMap_singleton] at named
  have whole : (occurrences j).Perm
      ([name] ++ ((partsAt "TypeParams" j).flatMap occurrences ++ occurrences type)) := by
    simpa [only, only', named] using
      occurrences_perm_slots formed slots (by decide) (by rw [form]; decide)
  refine Reads.perm (Reads.bind (spells_identifierAt only) ?_) whole.symm
  rintro name _ rfl
  refine Reads.bind (spells_partsAt reads formed "TypeParams") ?_
  rintro parameters _ rfl
  refine Reads.bind_pure (spells_partAt reads formed only') ?_
  rintro type _ rfl
  simp [identifiersOfSpecs]

/-- Names, a type and values are all of the declaration of constants or variables. -/
theorem spells_valueSpec (form : j.text "k" = "ValueSpec") (isConstant : Bool) :
    Spells (do
        return .value isConstant (extentOf j) (docOf j) (← identifiersAt "Names" j)
          (← (partsAt "Type" j ++ partsAt "Values" j).mapM read))
      (occurrences j) fun spec => identifiersOfSpecs [spec] := by
  have slots := congrArg slots? form
  have names := flatMap_occurrences_of_idents formed "Names" slots (by decide)
  have whole : (occurrences j).Perm
      (partsAt "Names" j ++ (partsAt "Type" j ++ partsAt "Values" j).flatMap occurrences) := by
    simpa [names] using occurrences_perm_slots formed slots (by decide) (by rw [form]; decide)
  refine Reads.perm (Reads.bind (spells_identifiersAt "Names" j) ?_) whole.symm
  rintro names _ rfl
  refine Reads.bind_pure (spells_all fun part member => ?_) ?_
  · rcases List.mem_append.1 member with type | value
    · exact reads part (depth_lt_of_mem_partsAt type) (formed.of_mem_partsAt type)
    · exact reads part (depth_lt_of_mem_partsAt value) (formed.of_mem_partsAt value)
  · rintro parts _ rfl
    simp [identifiersOfSpecs]

/-- The declarations are all that stands behind a keyword. -/
theorem spells_declarations (form : j.text "k" = "GenDecl") :
    Spells (do
        return .declarations (extentOf j) (docOf j) (← (partsAt "Specs" j).mapM fun s => do
          match s.text "k" with
          | "ImportSpec" => return .imported (← importOf s)
          | "TypeSpec" =>
              return .type (extentOf s) (docOf s) (← identifierAt "Name" s)
                (← (partsAt "TypeParams" s).mapM read) (← read (partAt "Type" s))
          | _ =>
              return .value (j.text "tok" = "const") (extentOf s) (docOf s)
                (← identifiersAt "Names" s) (← (partsAt "Type" s ++ partsAt "Values" s).mapM read)))
      (occurrences j) Phrase.identifiers := by
  have slots := congrArg slots? form
  have whole : (occurrences j).Perm ((partsAt "Specs" j).flatMap occurrences) := by
    simpa using occurrences_perm_slots formed slots (by decide) (by rw [form]; decide)
  refine (Reads.bind_pure (spells_mapM (fun spec => identifiersOfSpecs [spec])
    fun s member => ?_) ?_).perm whole.symm
  · have inside := formed.of_mem_partsAt member
    have forms : s.text "k" ∈ ["ImportSpec", "TypeSpec", "ValueSpec"] :=
      formed.form_of_mem slots (by decide) member
    have reads : ∀ part : Json, part.depth < s.depth → Formed part → SpellsPhrase read part :=
      fun part deeper => reads part (Nat.lt_trans deeper (depth_lt_of_mem_partsAt member))
    simp only [List.mem_cons, List.not_mem_nil, or_false] at forms
    rcases forms with form | form | form
    · rw [form]
      exact spells_import inside form
    · rw [form]
      exact spells_typeSpec reads inside form
    · rw [form]
      exact spells_valueSpec reads inside form _
  · rintro specs _ rfl
    rw [Phrase.identifiers, identifiersOfSpecs_eq]

/-- The receiver, the name, what the type says and the body are all of a function. -/
theorem spells_function (form : j.text "k" = "FuncDecl") :
    Spells (do
        return .function (extentOf j) (docOf j) (← identifierAt "Name" j)
          (!(partsAt "Recv" j).isEmpty) (← (partsAt "TypeParams" (partAt "Type" j)).mapM read)
          (extentOf (partAt "Type" j))
          (← (partsAt "Recv" j ++ partsAt "Params" (partAt "Type" j) ++
            partsAt "Results" (partAt "Type" j)).mapM read)
          (← (partsAt "Body" j).mapM read))
      (occurrences j) Phrase.identifiers := by
  have slots := congrArg slots? form
  obtain ⟨name, only⟩ := formed.exists_part "Name" slots (by decide)
  obtain ⟨type, only'⟩ := formed.exists_part "Type" slots (by decide)
  have named := flatMap_occurrences_of_idents formed "Name" slots (by decide)
  rw [only, List.flatMap_singleton] at named
  have member : type ∈ partsAt "Type" j := only' ▸ List.mem_cons_self
  have inside := formed.of_mem_partsAt member
  have form' : type.text "k" ∈ ["FuncType"] := formed.form_of_mem slots (by decide) member
  have form' := List.mem_singleton.1 form'
  have reads' : ∀ part : Json, part.depth < type.depth → Formed part → SpellsPhrase read part :=
    fun part deeper => reads part (Nat.lt_trans deeper (depth_lt_of_mem_partsAt member))
  have whole : (occurrences j).Perm ((partsAt "Recv" j).flatMap occurrences ++
      ([name] ++ (occurrences type ++ (partsAt "Body" j).flatMap occurrences))) := by
    simpa [only, only', named] using
      occurrences_perm_slots formed slots (by decide) (by rw [form]; decide)
  have typed : (occurrences type).Perm ((partsAt "TypeParams" type).flatMap occurrences ++
      ((partsAt "Params" type).flatMap occurrences ++
        (partsAt "Results" type).flatMap occurrences)) := by
    simpa using occurrences_perm_slots inside (congrArg slots? form') (by decide)
      (by rw [form']; decide)
  have order : ([name] ++ ((partsAt "TypeParams" type).flatMap occurrences ++
      ((partsAt "Recv" j ++ partsAt "Params" type ++ partsAt "Results" type).flatMap occurrences ++
        (partsAt "Body" j).flatMap occurrences))).Perm (occurrences j) := by
    refine .trans ?_ (whole.trans ((typed.append_right _).append_left _ |>.append_left _)).symm
    simp only [List.flatMap_append, List.append_assoc]
    refine .trans (.append_left _ ?_) (List.perm_append_comm_assoc _ _ _)
    exact List.perm_append_comm_assoc _ _ _
  rw [partAt_of_eq only']
  refine Reads.perm (Reads.bind (spells_identifierAt only) ?_) order
  rintro name _ rfl
  refine Reads.bind (spells_partsAt reads' inside "TypeParams") ?_
  rintro parameters _ rfl
  refine Reads.bind (spells_all fun part member => ?_) ?_
  · rcases List.mem_append.1 member with first | result
    · rcases List.mem_append.1 first with receiver | parameter
      · exact reads part (depth_lt_of_mem_partsAt receiver) (formed.of_mem_partsAt receiver)
      · exact reads' part (depth_lt_of_mem_partsAt parameter) (inside.of_mem_partsAt parameter)
    · exact reads' part (depth_lt_of_mem_partsAt result) (inside.of_mem_partsAt result)
  rintro signature _ rfl
  refine Reads.bind_pure (spells_partsAt reads formed "Body") ?_
  rintro body _ rfl
  simp [Phrase.identifiers]

/-- A type switch consists of what stands before it, its guard and its body; where a name is given
to the subject, that name and the subject are all of the guard. -/
theorem spells_typeSwitch (form : j.text "k" = "TypeSwitchStmt") :
    Spells (do
        let init ← (partsAt "Init" j).mapM read
        match guardName? (partAt "Assign" j) with
        | some name =>
            return .typeSwitch (extentOf j) init
              (some (← identifierOf name, extentOf (partAt "Assign" j)))
              (← (partsAt "Rhs" (partAt "Assign" j)).mapM read) (← read (partAt "Body" j))
        | none =>
            return .typeSwitch (extentOf j) init none (← (partsAt "Assign" j).mapM read)
              (← read (partAt "Body" j)))
      (occurrences j) Phrase.identifiers := by
  have slots := congrArg slots? form
  obtain ⟨assign, only⟩ := formed.exists_part "Assign" slots (by decide)
  obtain ⟨body, only'⟩ := formed.exists_part "Body" slots (by decide)
  have member : assign ∈ partsAt "Assign" j := only ▸ List.mem_cons_self
  have whole : (occurrences j).Perm ((partsAt "Init" j).flatMap occurrences ++
      (occurrences assign ++ occurrences body)) := by
    simpa [only, only'] using
      occurrences_perm_slots formed slots (by decide) (by rw [form]; decide)
  rw [partAt_of_eq only]
  refine Reads.perm (Reads.bind (spells_partsAt reads formed "Init") ?_) whole.symm
  rintro init _ rfl
  cases guarded : guardName? assign with
  | none =>
      refine Reads.bind (by simpa [only] using spells_partsAt reads formed "Assign") ?_
      rintro subject _ rfl
      refine Reads.bind_pure (spells_partAt reads formed only') ?_
      rintro body _ rfl
      simp [Phrase.identifiers]
  | some name =>
      have inside := formed.of_mem_partsAt member
      obtain ⟨form', named, identifier⟩ := guardName?_eq_some guarded
      have occurs : occurrences name = [name] :=
        occurrences_of_ident (inside.of_mem_partsAt (named ▸ List.mem_cons_self)) identifier
      have parts : (occurrences assign).Perm
          ([name] ++ (partsAt "Rhs" assign).flatMap occurrences) := by
        simpa [named, occurs] using occurrences_perm_slots inside (congrArg slots? form')
          (by decide) (by rw [form']; decide)
      have reads' : ∀ part : Json, part.depth < assign.depth → Formed part →
          SpellsPhrase read part :=
        fun part deeper => reads part (Nat.lt_trans deeper (depth_lt_of_mem_partsAt member))
      refine Reads.perm (Reads.bind (spells_identifierOf name) ?_)
        (.trans (.of_eq (List.append_assoc ..).symm) (parts.append_right _).symm)
      rintro name _ rfl
      refine Reads.bind (spells_partsAt reads' inside "Rhs") ?_
      rintro subject _ rfl
      refine Reads.bind_pure (spells_partAt reads formed only') ?_
      rintro body _ rfl
      simp [Phrase.identifiers]

/-- **A phrase is read completely if its parts are.** -/
theorem spells_phraseWith : SpellsPhrase (phraseWith read) j := by
  unfold SpellsPhrase phraseWith
  dsimp only
  by_cases identifier : j.text "k" = "Ident"
  · rw [if_pos identifier, occurrences_of_ident formed identifier]
    refine (spells_identifierOf j).bind_pure ?_
    rintro i _ rfl
    rw [Phrase.identifiers]
  rw [if_neg identifier]
  by_cases selector : j.text "k" = "SelectorExpr"
  · rw [if_pos selector]
    exact spells_selector reads formed selector
  rw [if_neg selector]
  by_cases wrapper : wrapperForms.contains (j.text "k") = true
  · rw [if_pos wrapper]
    exact spells_wrapped reads formed wrapper
  rw [if_neg wrapper]
  have children := spells_children reads formed identifier
  by_cases signature : j.text "k" = "FuncType"
  · rw [if_pos signature]
    refine children.bind_pure ?_
    rintro parts _ rfl
    rw [Phrase.identifiers]
  rw [if_neg signature]
  by_cases scope : scopeForms.contains (j.text "k") = true
  · rw [if_pos scope]
    refine children.bind_pure ?_
    rintro parts _ rfl
    rw [Phrase.identifiers]
  rw [if_neg scope]
  by_cases typeSwitch : j.text "k" = "TypeSwitchStmt"
  · rw [if_pos typeSwitch]
    exact spells_typeSwitch reads formed typeSwitch
  rw [if_neg typeSwitch]
  by_cases structType : j.text "k" = "StructType"
  · rw [if_pos structType]
    exact spells_structType reads formed structType
  rw [if_neg structType]
  by_cases interfaceType : j.text "k" = "InterfaceType"
  · rw [if_pos interfaceType]
    exact spells_interfaceType reads formed interfaceType
  rw [if_neg interfaceType]
  by_cases declarations : j.text "k" = "GenDecl"
  · rw [if_pos declarations]
    exact spells_declarations reads formed declarations
  rw [if_neg declarations]
  by_cases function : j.text "k" = "FuncDecl"
  · rw [if_pos function]
    exact spells_function reads formed function
  rw [if_neg function]
  refine children.bind_pure ?_
  rintro parts _ rfl
  rw [Phrase.identifiers]

end Forms

/-- A phrase is read completely if it is not nested too deep. -/
theorem spells_phraseWithin {depth : Nat} (deep : j.depth ≤ depth) (formed : Formed j) :
    SpellsPhrase (phraseWithin depth) j := by
  induction depth generalizing j with
  | zero => exact absurd (Nat.le_trans j.one_le_depth deep) (by simp)
  | succ depth ih =>
      exact spells_phraseWith (fun part shallow inside => ih (by omega) inside) formed

/-- **A parsed file has exactly the identifiers of its package clause and its declarations, and
their marks follow each other.** -/
theorem identifiers_fileOf (formed : FormedFile j) :
    ∃ js, js.Perm (occurrences j) ∧ (fileOf j).identifiers = marked 0 js := by
  obtain ⟨form, formed⟩ := formed
  have slots := congrArg slots? form
  obtain ⟨name, only⟩ := formed.exists_part "Name" slots (by decide)
  have named := flatMap_occurrences_of_idents formed "Name" slots (by decide)
  rw [only, List.flatMap_singleton] at named
  have whole : (occurrences j).Perm ([name] ++ (partsAt "Decls" j).flatMap occurrences) := by
    simpa [only, named] using
      occurrences_perm_slots formed slots (by decide) (by rw [form]; decide)
  have file : Reads (do
      return ({ extent := extentOf j, doc := docOf j, name := ← identifierAt "Name" j
                declarations := ← (partsAt "Decls" j).mapM (phraseWithin j.depth) } : SourceFile))
      ([name] ++ (partsAt "Decls" j).flatMap occurrences) fun f is => f.identifiers = is := by
    refine Reads.bind (spells_identifierAt only) ?_
    rintro name _ rfl
    refine Reads.bind_pure (spells_all fun part member => ?_) ?_
    · exact spells_phraseWithin (Nat.le_of_lt (depth_lt_of_mem_partsAt member))
        (formed.of_mem_partsAt member)
    · rintro declarations _ rfl
      rw [SourceFile.identifiers]
  obtain ⟨js, listed, -, same⟩ := file 0
  exact ⟨js, listed.trans whole.symm, same⟩

end Report
end SymbolAtlas.Checked
