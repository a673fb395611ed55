/-
# SymbolAtlas.Proofs.Text.Places -- the places that paths lead to

A place is a root or none, some steps up and then names.  Every path leads to one
(`exists_place`), and its normal form is the text of that place (`LeadsTo.clean`).  Joining
more path adds names (`join_below`), the directory of a file drops the last one
(`directory_below`), and from a place to one below it lead the names between the two
(`within?_below`), whatever the root is: rooted, above the working directory or empty.
-/
import SymbolAtlas.FileTree
import SymbolAtlas.Proofs.Text.Paths

set_option autoImplicit false

namespace SymbolAtlas.Text.Path

/-! ## Elements of joined texts -/

theorem elements_append (first second : String) :
    elements (first ++ "/" ++ second) = elements first ++ elements second := by
  have text : (first ++ "/" ++ second).toList = first.toList ++ '/' :: second.toList := by
    rw [String.toList_append, String.toList_append, List.append_assoc]
    rfl
  have split : (first.toList ++ '/' :: second.toList).splitOn '/' =
      first.toList.splitOn '/' ++ second.toList.splitOn '/' := by
    simp only [List.splitOn_eq_splitOnP]
    exact List.splitOnP_append_cons _ _ (beq_self_eq_true '/')
  rw [elements, text, split, List.map_append]
  rfl

theorem ofElements_singleton (part : String) : ofElements [part] = part :=
  String.intercalate_singleton

theorem ofElements_cons {part : String} {parts : List String} (some_ : parts ≠ []) :
    ofElements (part :: parts) = part ++ "/" ++ ofElements parts := by
  obtain ⟨next, rest, rfl⟩ := List.exists_cons_of_ne_nil some_
  exact String.intercalate_cons_cons

theorem elements_ne_nil (path : String) : elements path ≠ [] := by
  rw [elements, List.splitOn_eq_splitOnP, ne_eq, List.map_eq_nil_iff]
  exact List.splitOnP_ne_nil _ _

theorem mem_ofElements {parts : List String} {c : Char} (member : c ∈ (ofElements parts).toList) :
    c = '/' ∨ ∃ part ∈ parts, c ∈ part.toList := by
  induction parts with
  | nil => exact absurd member List.not_mem_nil
  | cons part parts ih =>
      by_cases alone : parts = []
      · rw [alone, ofElements_singleton] at member
        exact .inr ⟨part, List.mem_cons_self, member⟩
      · rw [ofElements_cons alone, String.toList_append, String.toList_append] at member
        rcases List.mem_append.1 member with early | late
        · rcases List.mem_append.1 early with here | slash
          · exact .inr ⟨part, List.mem_cons_self, here⟩
          · exact .inl (List.mem_singleton.1 slash)
        · exact (ih late).imp_right fun ⟨other, later, inside⟩ =>
            ⟨other, List.mem_cons_of_mem _ later, inside⟩

/-- Joined paths have the elements of each. -/
theorem elements_ofElements_flatMap {parts : List String} (some_ : parts ≠ []) :
    elements (ofElements parts) = parts.flatMap elements := by
  induction parts with
  | nil => exact absurd rfl some_
  | cons part parts ih =>
      by_cases last : parts = []
      · rw [last, ofElements_singleton, List.flatMap_singleton]
      · rw [ofElements_cons last, elements_append, ih last, List.flatMap_cons]

theorem ofElements_append {parts more : List String} (some_ : parts ≠ []) (some' : more ≠ []) :
    ofElements (parts ++ more) = ofElements parts ++ "/" ++ ofElements more := by
  induction parts with
  | nil => exact absurd rfl some_
  | cons first parts ih =>
      rw [List.cons_append, ofElements_cons (by simp [some'])]
      by_cases alone : parts = []
      · rw [alone, List.nil_append, ofElements_singleton]
      · rw [ih alone, ofElements_cons alone]
        simp only [String.append_assoc]

theorem isRooted_append {first : String} (some_ : first ≠ "") (second : String) :
    isRooted (first ++ second) = isRooted first := by
  obtain ⟨c, rest, text⟩ := List.exists_cons_of_ne_nil
    (fun none => some_ (String.toList_eq_nil_iff.1 none) : first.toList ≠ [])
  simp [isRooted, text]

theorem isRooted_of_whole {part : String} (whole : '/' ∉ part.toList) : isRooted part = false := by
  refine Bool.eq_false_iff.2 fun rooted => whole ?_
  exact List.mem_of_mem_head? (by simpa [isRooted] using rooted)

/-- What starts at the root has nothing before its first slash. -/
theorem head?_elements_of_rooted {path : String} (rooted : isRooted path = true) :
    (elements path).head? = some "" := by
  cases text : path.toList with
  | nil => simp [isRooted, text] at rooted
  | cons first rest =>
      obtain rfl : first = '/' := by simpa [isRooted, text] using rooted
      simp [elements, text, List.splitOn_eq_splitOnP, List.splitOnP_cons_eq_if_modifyHead]

/-! ## Steps of a normalisation -/

theorem IsName.said {name : String} (h : IsName name) : name ≠ "" ∧ name ≠ "." :=
  ⟨h.nonempty, h.stays⟩

theorem step_of_unsaid {part : String} (h : part = "" ∨ part = ".") (rooted : Bool)
    (stack : List String) : step rooted stack part = stack := by
  unfold step
  exact if_pos h

theorem step_name {name : String} (h : IsName name) (rooted : Bool) (stack : List String) :
    step rooted stack name = name :: stack := by
  unfold step
  rw [if_neg (not_or.2 h.said), if_neg h.below]

/-- Elements of which those that say something are names are put on the stack. -/
theorem foldl_step_names {parts : List String} (rooted : Bool) (stack : List String)
    (names : ∀ name ∈ parts.filter (fun e => e ≠ "" ∧ e ≠ "."), IsName name) :
    parts.foldl (step rooted) stack =
      (parts.filter (fun e => e ≠ "" ∧ e ≠ ".")).reverse ++ stack := by
  induction parts generalizing stack with
  | nil => rfl
  | cons part parts ih =>
      rw [List.foldl_cons]
      by_cases unsaid : part = "" ∨ part = "."
      · have silent : ¬(part ≠ "" ∧ part ≠ ".") := fun said => unsaid.elim said.1 said.2
        rw [List.filter_cons_of_neg (by simpa using silent)] at names ⊢
        rw [step_of_unsaid unsaid]
        exact ih _ names
      · rw [List.filter_cons_of_pos (by simpa using unsaid)] at names ⊢
        rw [step_name (names part List.mem_cons_self), List.reverse_cons, List.append_assoc]
        exact ih _ fun name member => names name (List.mem_cons_of_mem _ member)

/-! ## Places -/

/-- Where a path leads: from the root or from where one stands, some steps up and then
down by names.  Nothing lies above the root. -/
structure Place where
  rooted : Bool
  ups : Nat
  names : List String
  proper : ∀ name ∈ names, IsName name
  top : rooted = true → ups = 0

namespace Place

/-- The elements of the shortest path to a place. -/
def parts (p : Place) : List String := List.replicate p.ups ".." ++ p.names

/-- The shortest path to a place. -/
def text (p : Place) : String :=
  if p.rooted then "/" ++ ofElements p.parts
  else if p.parts = [] then "." else ofElements p.parts

/-- The place that names lead to from another one. -/
def below (p : Place) (names : List String) (proper : ∀ name ∈ names, IsName name) : Place :=
  { p with
    names := p.names ++ names
    proper := List.forall_mem_append.2 ⟨p.proper, proper⟩ }

/-- The place that names lead to from where one stands. -/
def inside (names : List String) (proper : ∀ name ∈ names, IsName name) : Place :=
  { rooted := false, ups := 0, names, proper, top := fun h => absurd h Bool.false_ne_true }

variable {p : Place} {names : List String} {proper : ∀ name ∈ names, IsName name}

@[simp]
theorem rooted_below : (p.below names proper).rooted = p.rooted := rfl

@[simp]
theorem parts_below : (p.below names proper).parts = p.parts ++ names :=
  (List.append_assoc ..).symm

@[simp]
theorem rooted_inside : (inside names proper).rooted = false := rfl

@[simp]
theorem parts_inside : (inside names proper).parts = names := rfl

theorem below_below {more : List String} {proper' : ∀ name ∈ more, IsName name} :
    (p.below names proper).below more proper' =
      p.below (names ++ more) (List.forall_mem_append.2 ⟨proper, proper'⟩) := by
  simp only [below, List.append_assoc]

theorem text_inside (some_ : names ≠ []) : (inside names proper).text = ofElements names := by
  rw [text, if_neg (by simp), if_neg (by simpa using some_), parts_inside]

theorem mem_parts {part : String} (member : part ∈ p.parts) : part = ".." ∨ IsName part := by
  rcases List.mem_append.1 member with up | name
  · exact .inl (List.eq_of_mem_replicate up)
  · exact .inr (p.proper part name)

theorem part_proper {part : String} (member : part ∈ p.parts) :
    part ≠ "" ∧ part ≠ "." ∧ '/' ∉ part.toList := by
  rcases mem_parts member with rfl | name
  · decide
  · exact ⟨name.nonempty, name.stays, name.whole⟩

/-- The elements of a place, read from the joined text. -/
theorem elements_parts (some_ : p.parts ≠ []) : elements (ofElements p.parts) = p.parts :=
  elements_ofElements (fun _ member => (part_proper member).2.2) some_

theorem isRooted_parts : isRooted (ofElements p.parts) = false := by
  refine Bool.eq_false_iff.2 fun rooted => ?_
  have head := head?_elements_of_rooted rooted
  by_cases none : p.parts = []
  · rw [none] at rooted
    exact absurd rooted (by decide)
  · rw [elements_parts none] at head
    exact (part_proper (List.mem_of_mem_head? head)).1 rfl

@[simp]
theorem isRooted_text : isRooted p.text = p.rooted := by
  rw [text]
  split
  · rename_i rooted
    rw [isRooted_append (by decide), rooted]
    decide
  · rename_i relative
    rw [Bool.eq_false_iff.2 relative]
    split
    · decide
    · exact isRooted_parts

/-- Normalising the elements of a place keeps them. -/
theorem foldl_step_parts : p.parts.foldl (step p.rooted) [] = p.parts.reverse := by
  have ups : (List.replicate p.ups "..").foldl (step p.rooted) [] =
      List.replicate p.ups ".." := by
    cases rooted : p.rooted with
    | true => rw [p.top rooted]; rfl
    | false =>
        induction p.ups with
        | zero => rfl
        | succ n ih =>
            rw [List.replicate_succ', List.foldl_append, ih]
            cases n <;> simp [step, List.replicate_succ, ← List.replicate_succ']
  have said : p.names.filter (fun e => e ≠ "" ∧ e ≠ ".") = p.names :=
    List.filter_eq_self.2 fun name member => by simpa using (p.proper name member).said
  have proper : ∀ name ∈ p.names.filter (fun e => e ≠ "" ∧ e ≠ "."), IsName name :=
    fun name member => p.proper name (List.mem_filter.1 member).1
  have names := foldl_step_names p.rooted (List.replicate p.ups "..") proper
  rw [parts, List.foldl_append, ups, names, said, List.reverse_append, List.reverse_replicate]

end Place

/-- The place a path leads to. -/
structure LeadsTo (path : String) (p : Place) : Prop where
  rooted : p.rooted = isRooted path
  parts : p.parts = cleanElements path

/-- The normal form of a path is the shortest path to its place. -/
theorem LeadsTo.clean {path : String} {p : Place} (h : LeadsTo path p) : clean path = p.text := by
  rw [Path.clean, Place.text, h.rooted, h.parts]

/-- A path that starts like its place and has its elements, up to some that say nothing. -/
theorem leadsTo_of_elements {path : String} {p : Place} (rooted : isRooted path = p.rooted)
    (read : (elements path).filter (· ≠ "") = p.parts) : LeadsTo path p := by
  have skip : ∀ (parts stack : List String), parts.foldl (step p.rooted) stack =
      (parts.filter (· ≠ "")).foldl (step p.rooted) stack := by
    intro parts
    induction parts with
    | nil => exact fun _ => rfl
    | cons part parts ih =>
        intro stack
        rw [List.foldl_cons, ih]
        by_cases none : part = ""
        · rw [List.filter_cons_of_neg (by simpa using none), step_of_unsaid (.inl none)]
        · rw [List.filter_cons_of_pos (by simpa using none), List.foldl_cons]
  refine ⟨rooted.symm, ?_⟩
  rw [cleanElements, rooted, skip, read, Place.foldl_step_parts, List.reverse_reverse]

namespace Place

theorem root_append (path : String) : "/" ++ path = "" ++ "/" ++ path := rfl

/-- The elements of the text of a place, without what stands before a root. -/
theorem strip_text {p : Place} (some_ : p.rooted = true ∨ p.parts ≠ []) :
    (elements p.text).filter (· ≠ "") = p.parts := by
  have kept : (elements (ofElements p.parts)).filter (· ≠ "") = p.parts := by
    by_cases none : p.parts = []
    · rw [none]
      decide
    · rw [elements_parts none]
      exact List.filter_eq_self.2 fun part member => by simpa using (part_proper member).1
  rw [text]
  split
  · rw [root_append, elements_append, List.filter_append, kept]
    rfl
  · rename_i relative
    rw [if_neg (some_.resolve_left relative), kept]

theorem elements_text {p : Place} (some_ : p.parts ≠ []) :
    elements p.text = (if p.rooted then [""] else []) ++ p.parts := by
  rw [text]
  split
  · rw [root_append, elements_append, elements_parts some_]
    rfl
  · rw [elements_parts some_]
    rfl

theorem leadsTo_text (p : Place) : LeadsTo p.text p := by
  by_cases some_ : p.rooted = true ∨ p.parts ≠ []
  · exact leadsTo_of_elements isRooted_text (strip_text some_)
  · obtain ⟨relative, none⟩ := not_or.1 some_
    refine ⟨isRooted_text.symm, ?_⟩
    rw [text, if_neg relative, Classical.not_not.1 none, if_pos rfl]
    decide

end Place

/-! ## Every path leads to a place -/

/-- A step of the normalisation leads from a place to a place. -/
theorem step_place {p : Place} {part : String} (whole : '/' ∉ part.toList) :
    ∃ q : Place, q.rooted = p.rooted ∧ q.parts.reverse = step p.rooted p.parts.reverse part := by
  by_cases said : part = "" ∨ part = "."
  · exact ⟨p, rfl, (step_of_unsaid said _ _).symm⟩
  · by_cases up : part = ".."
    · subst up
      rcases List.eq_nil_or_concat p.names with none | ⟨names, last, names_⟩
      · have parts : p.parts = List.replicate p.ups ".." := by
          rw [Place.parts, none, List.append_nil]
        cases rooted : p.rooted with
        | true =>
            refine ⟨p, rooted, ?_⟩
            rw [parts, p.top rooted]
            rfl
        | false =>
            refine ⟨⟨false, p.ups + 1, [], by simp, by simp⟩, rfl, ?_⟩
            rw [parts, Place.parts, List.append_nil, List.reverse_replicate, List.reverse_replicate]
            cases p.ups <;> rfl
      · have name : IsName last := p.proper last (by simp [names_])
        refine ⟨{ p with names, proper := fun other member => p.proper other ?_ }, rfl, ?_⟩
        · rw [names_, List.concat_eq_append]
          exact List.mem_append_left _ member
        · simp [Place.parts, names_, name.below, step]
    · obtain ⟨nonempty, stays⟩ := not_or.1 said
      have name : IsName part := ⟨nonempty, stays, up, whole⟩
      refine ⟨p.below [part] (by simpa using name), rfl, ?_⟩
      rw [step_name name, Place.parts_below, List.reverse_append, List.reverse_singleton]
      rfl

/-- **Every path leads to a place.** -/
theorem exists_place (path : String) : ∃ p : Place, LeadsTo path p := by
  have folded : ∀ (parts : List String) (p : Place), (∀ part ∈ parts, '/' ∉ part.toList) →
      ∃ q : Place, q.rooted = p.rooted ∧
        q.parts.reverse = parts.foldl (step p.rooted) p.parts.reverse := by
    intro parts
    induction parts with
    | nil => exact fun p _ => ⟨p, rfl, rfl⟩
    | cons part parts ih =>
        intro p whole
        obtain ⟨next, rooted, stepped⟩ := step_place (p := p) (whole part List.mem_cons_self)
        obtain ⟨q, rooted', rest⟩ := ih next fun other member =>
          whole other (List.mem_cons_of_mem _ member)
        exact ⟨q, rooted'.trans rooted, by rw [rest, stepped, rooted, List.foldl_cons]⟩
  obtain ⟨q, rooted, parts⟩ := folded (elements path) ⟨isRooted path, 0, [], by simp, by simp⟩
    fun part => not_mem_of_mem_elements
  exact ⟨q, rooted, List.reverse_eq_iff.1 parts⟩

theorem clean_clean (path : String) : clean (clean path) = clean path := by
  obtain ⟨p, h⟩ := exists_place path
  rw [h.clean, p.leadsTo_text.clean]

theorem LeadsTo.cleaned {path : String} {p : Place} (h : LeadsTo path p) :
    LeadsTo (Path.clean path) p := by
  rw [h.clean]
  exact p.leadsTo_text

/-! ## Joined paths -/

/-- A path that leads down or nowhere. -/
structure Descends (path : String) : Prop where
  nonempty : path ≠ ""
  relative : isRooted path = false
  names : ∀ name ∈ FileTree.steps path, IsName name

theorem names_of_descends {paths : List String} (down : ∀ path ∈ paths, Descends path) :
    ∀ name ∈ paths.flatMap FileTree.steps, IsName name := by
  intro name member
  obtain ⟨path, here, step⟩ := List.mem_flatMap.1 member
  exact (down path here).names name step

theorem isRooted_ofElements_cons {path : String} (some_ : path ≠ "") (paths : List String) :
    isRooted (ofElements (path :: paths)) = isRooted path := by
  by_cases alone : paths = []
  · rw [alone, ofElements_singleton]
  · rw [ofElements_cons alone, String.append_assoc, isRooted_append some_]

/-- What descends adds its names to the elements of a place. -/
theorem leadsTo_below {path : String} {p : Place} {paths : List String} (first : List String)
    (down : ∀ path ∈ paths, Descends path) (rooted : isRooted path = p.rooted)
    (read : elements path = first ++ paths.flatMap elements)
    (led : first.foldl (step p.rooted) [] = p.parts.reverse) :
    LeadsTo path (p.below _ (names_of_descends down)) where
  rooted := rooted.symm
  parts := by
    have steps : (paths.flatMap elements).filter (fun e => e ≠ "" ∧ e ≠ ".") =
        paths.flatMap FileTree.steps := List.filter_flatMap
    have names := names_of_descends down
    rw [← steps] at names
    rw [cleanElements, rooted, read, List.foldl_append, led, foldl_step_names _ _ names, steps,
      List.reverse_append, List.reverse_reverse, List.reverse_reverse, Place.parts_below]

/-- **Joined paths lead below the place that the first one leads to.** -/
theorem join_below {root : String} {p : Place} (h : LeadsTo root p) {paths names : List String}
    (some_ : paths ≠ []) (down : ∀ path ∈ paths, Descends path)
    (proper : ∀ name ∈ names, IsName name) (read : paths.flatMap FileTree.steps = names) :
    join (root :: paths) = (p.below names proper).text := by
  subst read
  have kept : paths.filter (· ≠ "") = paths :=
    List.filter_eq_self.2 fun path member => by simpa using (down path member).nonempty
  by_cases empty : root = ""
  · subst empty
    obtain ⟨first, rest, rfl⟩ := List.exists_cons_of_ne_nil some_
    have below : LeadsTo (ofElements (first :: rest)) (p.below _ proper) := by
      have here := down first List.mem_cons_self
      refine leadsTo_below [] down ?_ (elements_ofElements_flatMap some_) ?_
      · rw [isRooted_ofElements_cons here.nonempty, here.relative, h.rooted]
        decide
      · rw [h.parts]
        rfl
    rw [← below.clean, join, List.filter_cons_of_neg (by simp), kept]
  · have below : LeadsTo (ofElements (root :: paths)) (p.below _ proper) := by
      refine leadsTo_below (elements root) down ?_
        (elements_ofElements_flatMap (List.cons_ne_nil _ _)) ?_
      · rw [isRooted_ofElements_cons empty, h.rooted]
      · rw [h.parts, h.rooted, cleanElements, List.reverse_reverse]
    rw [← below.clean, join, List.filter_cons_of_pos (by simpa using empty), kept]

/-! ## Directories -/

/-- What stands before the last slash of a path. -/
theorem leadsTo_slash {p : Place} {parts : List String} (some_ : parts ≠ [])
    (whole : ∀ part ∈ parts, '/' ∉ part.toList)
    (start : parts.head? = some "" ↔ p.rooted = true)
    (read : parts.filter (· ≠ "") = p.parts) : LeadsTo (ofElements parts ++ "/") p := by
  obtain ⟨first, rest, rfl⟩ := List.exists_cons_of_ne_nil some_
  have slash : ofElements (first :: rest) ++ "/" = ofElements (first :: rest) ++ "/" ++ "" :=
    String.append_empty.symm
  refine leadsTo_of_elements ?_ ?_
  · have shape : ∃ more, ofElements (first :: rest) ++ "/" = first ++ ("/" ++ more) := by
      by_cases alone : rest = []
      · exact ⟨"", by rw [alone, ofElements_singleton, String.append_empty]⟩
      · refine ⟨ofElements rest ++ "/", ?_⟩
        rw [ofElements_cons alone]
        simp only [String.append_assoc]
    obtain ⟨more, shape⟩ := shape
    rw [List.head?_cons, Option.some.injEq] at start
    rw [shape]
    by_cases empty : first = ""
    · rw [start.1 empty, empty, String.empty_append, isRooted_append (by decide)]
      decide
    · rw [isRooted_append empty, isRooted_of_whole (whole first List.mem_cons_self)]
      exact (Bool.eq_false_iff.2 fun rooted => empty (start.2 rooted)).symm
  · rw [slash, elements_append, elements_ofElements whole some_, List.filter_append, read]
    exact List.append_nil _

/-- **The directory of a file is the place that it lies below.** -/
theorem directory_below {p : Place} {name : String} {proper : ∀ part ∈ [name], IsName part} :
    directory (p.below [name] proper).text = p.text := by
  have read := Place.elements_text (p := p.below [name] proper) (by simp)
  rw [Place.rooted_below, Place.parts_below, ← List.append_assoc] at read
  have whole : ∀ part ∈ p.parts, '/' ∉ part.toList := fun part member =>
    (Place.part_proper member).2.2
  have said : p.parts.filter (· ≠ "") = p.parts :=
    List.filter_eq_self.2 fun part member => by simpa using (Place.part_proper member).1
  rw [directory, read, List.dropLast_concat]
  cases rooted : p.rooted with
  | true =>
      have kept : ("" :: p.parts).filter (· ≠ "") = p.parts := said
      have whole : ∀ part ∈ "" :: p.parts, '/' ∉ part.toList :=
        List.forall_mem_cons.2 ⟨by decide, whole⟩
      exact (leadsTo_slash (List.cons_ne_nil _ _) whole (by simp [rooted]) kept).clean
  | false =>
      show (if p.parts = [] then "." else clean (ofElements p.parts ++ "/")) = p.text
      split
      · rename_i none
        rw [Place.text, if_neg (by simp [rooted]), if_pos none]
      · rename_i away
        refine (leadsTo_slash away whole ?_ said).clean
        rw [rooted]
        refine iff_of_false (fun head => ?_) Bool.false_ne_true
        exact (Place.part_proper (List.mem_of_mem_head? head)).1 rfl

/-! ## From a place to one below it -/

theorem startsWith_iff {text lead : String} :
    startsWith text lead = true ↔ ∃ rest, text = lead ++ rest := by
  rw [startsWith, List.isPrefixOf_iff_prefix]
  constructor
  · rintro ⟨rest, shape⟩
    refine ⟨String.ofList rest, String.toList_injective ?_⟩
    rw [String.toList_append, String.toList_ofList, shape]
  · rintro ⟨rest, rfl⟩
    rw [String.toList_append]
    exact List.prefix_append _ _

theorem trimLead_append (lead rest : String) : trimLead (lead ++ rest) lead = rest := by
  rw [trimLead, if_pos (startsWith_iff.2 ⟨rest, rfl⟩), String.toList_append,
    ← String.length_toList, List.drop_left, String.ofList_toList]

theorem ofElements_elements (path : String) : ofElements (elements path) = path := by
  refine String.toList_injective ?_
  rw [ofElements, String.toList_intercalate, elements, List.map_map]
  have same : String.toList ∘ String.ofList = id := funext fun _ => String.toList_ofList
  rw [same, List.map_id]
  exact List.intercalate_splitOn '/'

/-- A path leads out of where it starts if its first element leads up. -/
theorem leaves_iff {path : String} : leaves path = true ↔ (elements path).head? = some ".." := by
  rw [leaves, Bool.or_eq_true, decide_eq_true_iff, startsWith_iff]
  constructor
  · rintro (rfl | ⟨rest, rfl⟩)
    · decide
    · rw [show "../" ++ rest = ".." ++ "/" ++ rest by rw [show "../" = ".." ++ "/" by decide],
        elements_append]
      rfl
  · intro head
    obtain ⟨rest, shape⟩ := List.head?_eq_some_iff.1 head
    rw [← ofElements_elements path, shape]
    by_cases alone : rest = []
    · exact .inl (by rw [alone]; rfl)
    · exact .inr ⟨ofElements rest, by rw [ofElements_cons alone]; rfl⟩

theorem Place.leaves_text_iff {p : Place} :
    leaves p.text = true ↔ p.rooted = false ∧ p.ups ≠ 0 := by
  rw [leaves_iff]
  by_cases none : p.parts = []
  · obtain ⟨ups, -⟩ := List.append_eq_nil_iff.1 none
    have level : p.ups = 0 := List.replicate_eq_nil_iff _ |>.1 ups
    rw [text, none]
    refine iff_of_false ?_ fun away => away.2 level
    split <;> decide
  · rw [elements_text none]
    cases rooted : p.rooted with
    | true => exact iff_of_false (by simp) fun away => nomatch away.1
    | false =>
        rw [if_neg Bool.false_ne_true, List.nil_append, parts]
        cases level : p.ups with
        | zero =>
            refine iff_of_false (fun head => ?_) fun away => away.2 rfl
            exact (p.proper ".." (List.mem_of_mem_head? head)).below rfl
        | succ n => exact iff_of_true rfl ⟨rfl, Nat.succ_ne_zero n⟩

theorem dropCommon_append (first second : List String) :
    dropCommon first (first ++ second) = ([], second) := by
  induction first with
  | nil => cases second <;> rfl
  | cons part parts ih => rw [List.cons_append, dropCommon, if_pos rfl, ih]

theorem relative?_below {root : String} {p : Place} (h : LeadsTo root p) {names : List String}
    {proper : ∀ name ∈ names, IsName name} :
    relative? root (p.below names proper).text = some (Place.inside names proper).text := by
  have target : clean (p.below names proper).text = (p.below names proper).text :=
    (Place.leadsTo_text _).clean
  unfold relative?
  simp only [h.clean, target]
  by_cases here : names = []
  · subst here
    have same : (p.below [] proper).text = p.text := by
      simp [Place.text]
    rw [if_pos same]
    rfl
  · have away : (p.below names proper).text ≠ p.text := fun same => here <| by
      have parts := (Place.leadsTo_text (p.below names proper)).parts
      rw [same, ← (Place.leadsTo_text p).parts, Place.parts_below] at parts
      exact List.append_right_eq_self.1 parts
    have up : (if p.text = "." then [] else (elements p.text).filter (· ≠ "")) = p.parts := by
      split
      · rename_i dot
        have parts := (Place.leadsTo_text p).parts
        rw [dot] at parts
        exact parts.symm
      · rename_i proper
        refine Place.strip_text (Decidable.or_iff_not_imp_left.2 fun relative none => proper ?_)
        rw [Place.text, if_neg relative, if_pos none]
    have down : (elements (p.below names proper).text).filter (· ≠ "") = p.parts ++ names := by
      rw [Place.strip_text (.inr (by simp [here])), Place.parts_below]
    rw [if_neg away, if_neg (by simp), up, down, dropCommon_append, Place.text_inside here]
    rfl

theorem within?_clean (root target : String) :
    within? (clean root) target = within? root target := by
  rw [within?, within?, relative?, relative?, clean_clean]

theorem within?_clean_target (root target : String) :
    within? root (clean target) = within? root target := by
  rw [within?, within?, relative?, relative?, clean_clean]

/-- **From a place to one below it lead the names between the two.** -/
theorem within?_below {root : String} {p : Place} (h : LeadsTo root p) {names : List String}
    {proper : ∀ name ∈ names, IsName name} :
    within? root (p.below names proper).text = some (Place.inside names proper).text := by
  have stays : leaves (Place.inside names proper).text = false :=
    Bool.eq_false_iff.2 fun away => (Place.leaves_text_iff.1 away).2 rfl
  rw [within?, relative?_below h, Option.filter_some, if_pos (by rw [stays]; rfl)]

theorem Place.parts_of_rooted {p : Place} (rooted : p.rooted = true) : p.parts = p.names := by
  rw [Place.parts, p.top rooted]
  rfl

theorem Place.absolute_text {p : Place} (rooted : p.rooted = true) : Absolute p.text :=
  ⟨Place.isRooted_text.trans rooted, p.leadsTo_text.clean⟩

/-- Steps that do not begin with a step up only lead down. -/
theorem prefix_of_steps {up down : List String} (proper : ∀ name ∈ down, IsName name)
    (stays : leaves (ofElements (steps up down)) = false) : up <+: down := by
  obtain ⟨common, before, after⟩ := dropCommon_split up down
  cases rest : (dropCommon up down).1 with
  | nil =>
      rw [rest, List.append_nil] at before
      subst before
      exact ⟨_, after.symm⟩
  | cons first more =>
      have shape : steps up down =
          ".." :: (more.map (fun _ => "..") ++ (dropCommon up down).2) := by
        rw [steps, rest]
        rfl
      have away : leaves (ofElements (steps up down)) = true := by
        rw [leaves_iff, (ofElements_steps proper (by simp [shape])).2.2, shape]
        rfl
      rw [away] at stays
      cases stays

/-- A rooted directory holds the places that its names begin to lead to. -/
theorem isWithin_iff_of_rooted {root target : String} {p q : Place} (h : LeadsTo root p)
    (h' : LeadsTo target q) (rooted : q.rooted = true) :
    isWithin root target = true ↔ p.rooted = true ∧ p.names <+: q.names := by
  constructor
  · intro within
    obtain ⟨way, within⟩ := Option.isSome_iff_exists.1 within
    obtain ⟨led, stays⟩ := Option.filter_eq_some_iff.1 within
    have led : relative? p.text q.text = some way := by
      rw [← led, relative?, relative?, p.leadsTo_text.clean, q.leadsTo_text.clean, h.clean,
        h'.clean]
    have start : p.rooted = true := by
      cases relative : p.rooted with
      | true => rfl
      | false =>
          have apart : isRooted p.text ≠ isRooted q.text := by simp [relative, rooted]
          have away : q.text ≠ p.text := fun same => apart (by rw [same])
          rw [relative?, p.leadsTo_text.clean, q.leadsTo_text.clean] at led
          simp only [if_neg away, if_pos apart] at led
          cases led
    refine ⟨start, ?_⟩
    have origin := Place.strip_text (p := p) (.inl start)
    have destination := Place.strip_text (p := q) (.inl rooted)
    rw [Place.parts_of_rooted start] at origin
    rw [Place.parts_of_rooted rooted] at destination
    rcases relative?_of_absolute (Place.absolute_text start) (Place.absolute_text rooted) led with
      ⟨same, -⟩ | ⟨-, shape⟩
    · have equal : p.names = q.names := by rw [← origin, ← destination, same]
      exact equal ▸ List.prefix_rfl
    · rw [origin, destination] at shape
      exact prefix_of_steps q.proper (by simpa [shape] using stays)
  · rintro ⟨start, names, shape⟩
    have proper : ∀ name ∈ names, IsName name := fun name member =>
      q.proper name (shape ▸ List.mem_append_right _ member)
    have below : q.text = (p.below names proper).text := by
      rw [Place.text, Place.text, Place.rooted_below, Place.parts_below, rooted, start,
        Place.parts_of_rooted rooted, Place.parts_of_rooted start, shape]
    have within : within? root (p.below names proper).text = some _ := within?_below h
    rw [isWithin, ← within?_clean_target, h'.clean, below, within]
    rfl

/-- What lies below a rooted place lies in no directory that is apart from the place: neither
holds the other. -/
theorem isWithin_below_of_apart {root target : String} {p : Place} (h : LeadsTo target p)
    (rooted : p.rooted = true) (apart : isWithin root target = false)
    (apart' : isWithin target root = false) {names : List String}
    {proper : ∀ name ∈ names, IsName name} : isWithin root (p.below names proper).text = false := by
  obtain ⟨r, leads⟩ := exists_place root
  refine Bool.eq_false_iff.2 fun within => ?_
  obtain ⟨start, before⟩ := (isWithin_iff_of_rooted leads
    (Place.leadsTo_text (p.below names proper)) rooted).1 within
  rcases List.prefix_or_prefix_of_prefix before (List.prefix_append p.names names) with
    above | below
  · rw [(isWithin_iff_of_rooted leads h rooted).2 ⟨start, above⟩] at apart
    cases apart
  · rw [(isWithin_iff_of_rooted h leads start).2 ⟨rooted, below⟩] at apart'
    cases apart'

/-! ## Paths inside a directory -/

namespace Place

variable {names : List String} {proper : ∀ name ∈ names, IsName name}

theorem steps_text_inside : FileTree.steps (inside names proper).text = names := by
  by_cases none : names = []
  · subst none
    show FileTree.steps "." = []
    decide
  · rw [FileTree.steps, elements_text (p := inside names proper) none]
    exact List.filter_eq_self.2 fun name member => by simpa using (proper name member).said

/-- What leads to a place inside a directory descends. -/
theorem descends_inside : Descends (inside names proper).text where
  nonempty none := by
    have parts := (leadsTo_text (inside names proper)).parts
    rw [none] at parts
    have empty : (inside names proper).text = "." := by
      rw [text, if_neg (by simp), if_pos (parts.trans (by decide))]
    exact absurd (none.symm.trans empty) (by decide)
  relative := isRooted_text
  names := by
    rw [steps_text_inside]
    exact proper

end Place

/-- A text without slashes is the text of one name. -/
theorem IsName.text_inside {name : String} (h : IsName name) :
    (Place.inside [name] (by simpa using h)).text = name := by
  rw [Place.text_inside (by simp), ofElements_singleton]

theorem descends_of_inside {path : String} {names : List String}
    {proper : ∀ name ∈ names, IsName name} (shape : path = (Place.inside names proper).text) :
    Descends path ∧ FileTree.steps path = names := by
  subst shape
  exact ⟨Place.descends_inside, Place.steps_text_inside⟩

theorem IsName.descends {name : String} (h : IsName name) : Descends name :=
  (descends_of_inside h.text_inside.symm).1

theorem IsName.steps {name : String} (h : IsName name) : FileTree.steps name = [name] :=
  (descends_of_inside h.text_inside.symm).2

/-- A relative path in normal form that does not lead out is a list of names. -/
theorem exists_inside {path : String} (relative : isRooted path = false)
    (normal : clean path = path) (stays : leaves path = false) :
    ∃ names proper, path = (Place.inside names proper).text := by
  obtain ⟨p, h⟩ := exists_place path
  obtain ⟨rooted, ups, names, proper, top⟩ := p
  obtain rfl : rooted = false := h.rooted.trans relative
  have here : path = Place.text _ := normal.symm.trans h.clean
  have level : ups = 0 := Decidable.byContradiction fun up => by
    rw [here, Place.leaves_text_iff.2 ⟨rfl, up⟩] at stays
    exact absurd stays (by decide)
  subst level
  exact ⟨names, proper, here⟩

/-! ## The end of a path -/

theorem endsWith_append_slash {first last tail : String} (whole : '/' ∉ tail.toList) :
    endsWith (first ++ "/" ++ last) tail = endsWith last tail := by
  have text : (first ++ "/" ++ last).toList = first.toList ++ '/' :: last.toList := by
    rw [String.toList_append, String.toList_append, List.append_assoc]
    rfl
  rw [endsWith, endsWith, text, Bool.eq_iff_iff, List.isSuffixOf_iff_suffix,
    List.isSuffixOf_iff_suffix]
  constructor
  · intro ends
    rcases List.suffix_or_suffix_of_suffix ends (List.suffix_append _ _) with short | long
    · refine (List.suffix_cons_iff.1 short).resolve_left fun same => whole ?_
      exact same ▸ List.mem_cons_self
    · exact absurd (long.subset List.mem_cons_self) whole
  · exact fun ends => ends.trans ((List.suffix_cons _ _).trans (List.suffix_append _ _))

/-- A file ends like its name. -/
theorem endsWith_below {p : Place} {name tail : String} {proper : ∀ part ∈ [name], IsName part}
    (whole : '/' ∉ tail.toList) :
    endsWith (p.below [name] proper).text tail = endsWith name tail := by
  have read := Place.elements_text (p := p.below [name] proper) (by simp)
  rw [Place.rooted_below, Place.parts_below, ← List.append_assoc] at read
  rw [← ofElements_elements (p.below [name] proper).text, read]
  generalize (if p.rooted = true then [""] else []) ++ p.parts = before
  by_cases alone : before = []
  · rw [alone, List.nil_append, ofElements_singleton]
  · rw [ofElements_append alone (by simp), ofElements_singleton, endsWith_append_slash whole]

/-! ## Files -/

/-- A file in a directory: the path is in normal form, and it ends like the name. -/
structure Place.Holds (p : Place) (name file : String) : Prop where
  clean : Path.clean file = file
  directory : Path.directory file = p.text
  ends : ∀ tail : String, '/' ∉ tail.toList → endsWith file tail = endsWith name tail

/-- **A joined path to a name is a file in the directory that the path before it leads to.** -/
theorem holds_join {root name : String} {p : Place} (h : LeadsTo root p)
    (paths : List String) {names : List String} (down : ∀ path ∈ paths, Descends path)
    (proper : ∀ name ∈ names, IsName name) (read : paths.flatMap FileTree.steps = names)
    (isName : IsName name) :
    (p.below names proper).Holds name (join (root :: (paths ++ [name]))) := by
  have last : ∀ part ∈ [name], IsName part := by simpa using isName
  have file : join (root :: (paths ++ [name])) =
      ((p.below names proper).below [name] last).text := by
    rw [Place.below_below]
    refine join_below h (by simp) (List.forall_mem_append.2 ⟨down, ?_⟩) _ ?_
    · simpa using isName.descends
    · rw [List.flatMap_append, read, List.flatMap_singleton, isName.steps]
  rw [file]
  exact ⟨(Place.leadsTo_text _).clean, directory_below, fun tail => endsWith_below⟩

end SymbolAtlas.Text.Path
