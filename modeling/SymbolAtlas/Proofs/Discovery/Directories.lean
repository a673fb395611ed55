/-
# SymbolAtlas.Proofs.Discovery.Directories -- what stands in a directory

The keys of a tree are paths in normal form, so what stands in a directory stands behind one more
name (`mem_children_iff`), and no name twice (`nodup_children`).  A walk through a tree, along links
or not, puts only names on its stack: where a path leads is a path in normal form
(`absolute_of_resolveWith`).
-/
import Mathlib
import SymbolAtlas.Proofs.Text.Places

set_option autoImplicit false

namespace SymbolAtlas

open Text Text.Path

namespace Text.Path

/-! ## Names behind a directory -/

/-- The path that names lead to from a directory. -/
def under (root : String) (names : List String) : String := join [root, ofElements names]

variable {root : String} {names : List String}

theorem under_eq {p : Place} (h : LeadsTo root p) (some_ : root ≠ "")
    (proper : ∀ name ∈ names, IsName name) : under root names = (p.below names proper).text := by
  by_cases here : names = []
  · subst here
    have stays : (p.below [] proper).text = p.text := by simp [Place.text]
    have kept : [root, ofElements []].filter (· ≠ "") = [root] := by
      simp [some_, ofElements]
    rw [under, join, kept, stays, ← h.clean]
    show clean (ofElements [root]) = clean root
    rw [ofElements_singleton]
  · have text : (Place.inside names proper).text = ofElements names := Place.text_inside here
    rw [under, ← text]
    exact join_below h (by simp) (by simpa using Place.descends_inside) proper
      (by rw [List.flatMap_singleton, Place.steps_text_inside])

theorem under_nil (some_ : root ≠ "") (normal : clean root = root) : under root [] = root := by
  obtain ⟨p, leads⟩ := exists_place root
  have stays : (p.below [] (List.forall_mem_nil _)).text = p.text := by simp [Place.text]
  rw [under_eq leads some_ (List.forall_mem_nil _), stays, ← leads.clean, normal]

theorem clean_absolute {start path : String} (some_ : absolute start path ≠ "") :
    clean (absolute start path) = absolute start path := by
  unfold absolute join at some_ ⊢
  split
  · exact clean_clean _
  · rename_i relative
    rw [if_neg relative] at some_
    split
    · rename_i none
      rw [none] at some_
      exact absurd rfl some_
    · exact clean_clean _

/-- One name more. -/
theorem join_under {name : String} (some_ : root ≠ "") (proper : ∀ name ∈ names, IsName name)
    (isName : IsName name) : join [under root names, name] = under root (names ++ [name]) := by
  obtain ⟨p, leads⟩ := exists_place root
  have last : ∀ part ∈ [name], IsName part := by simpa using isName
  rw [under_eq leads some_ proper, under_eq leads some_ (List.forall_mem_append.2 ⟨proper, last⟩),
    join_below (Place.leadsTo_text _) (by simp) (by simpa using isName.descends) last
      (by rw [List.flatMap_singleton, isName.steps]), Place.below_below]

theorem under_under {name : String} (some_ : root ≠ "") (proper : ∀ name ∈ names, IsName name)
    (isName : IsName name) : under (under root names) [name] = under root (names ++ [name]) := by
  rw [← join_under some_ proper isName, under, ofElements_singleton]

theorem under_inj {names' : List String} (some_ : root ≠ "") (proper : ∀ name ∈ names, IsName name)
    (proper' : ∀ name ∈ names', IsName name) :
    under root names = under root names' ↔ names = names' := by
  obtain ⟨p, leads⟩ := exists_place root
  rw [under_eq leads some_ proper, under_eq leads some_ proper']
  constructor
  · intro same
    have parts := congrArg cleanElements same
    rw [← (Place.leadsTo_text _).parts, ← (Place.leadsTo_text _).parts, Place.parts_below,
      Place.parts_below] at parts
    exact List.append_cancel_left parts
  · rintro rfl
    rfl

theorem elements_of_whole (whole : '/' ∉ root.toList) : elements root = [root] := by
  have read : elements (ofElements [root]) = [root] :=
    elements_ofElements (by simpa using whole) (by simp)
  rwa [ofElements_singleton] at read

/-- What a path in normal form has between slashes are names. -/
theorem Absolute.isName {part : String} (h : Absolute root) (member : part ∈ elements root)
    (some_ : part ≠ "") : IsName part := by
  obtain ⟨names, proper, -, read⟩ := h.names
  exact proper part (read ▸ List.mem_filter.2 ⟨member, by simpa using some_⟩)

theorem Absolute.ne_empty (h : Absolute root) : root ≠ "" := fun none => by
  have rooted := h.1
  rw [none] at rooted
  exact absurd rooted (by decide)

theorem Absolute.under (h : Absolute root) (proper : ∀ name ∈ names, IsName name) :
    Absolute (under root names) := by
  obtain ⟨p, leads⟩ := exists_place root
  rw [under_eq leads h.ne_empty proper]
  exact Place.absolute_text (leads.rooted.trans h.1)

/-- What the names in a directory stand behind. -/
def lead (directory : String) : String := if directory = "/" then "/" else directory ++ "/"

theorem lead_append {name : String} (h : Absolute root) (isName : IsName name) :
    lead root ++ name = under root [name] := by
  obtain ⟨p, leads⟩ := exists_place root
  have start : p.rooted = true := leads.rooted.trans h.1
  have text : root = "/" ++ ofElements p.names := by
    rw [← h.2, leads.clean, Place.text, if_pos start, Place.parts_of_rooted start]
  have last : ∀ part ∈ [name], IsName part := by simpa using isName
  have below : under root [name] = "/" ++ ofElements (p.names ++ [name]) := by
    rw [under_eq leads h.ne_empty last, Place.text, Place.rooted_below, if_pos start,
      Place.parts_below, Place.parts_of_rooted start]
  rw [below, lead]
  by_cases top : p.names = []
  · rw [if_pos (by rw [text, top]; rfl), top, List.nil_append, ofElements_singleton]
  · have away : root ≠ "/" := fun same => top <| by
      rw [← Place.parts_of_rooted start, leads.parts, same]
      decide
    rw [if_neg away, text, ofElements_append top (by simp), ofElements_singleton]
    simp only [String.append_assoc]

/-- Behind what leads into a directory, a path in normal form has one more name. -/
theorem eq_lead_append_iff {path name : String} (h : Absolute root) :
    (Absolute path ∧ name ≠ "" ∧ '/' ∉ name.toList ∧ path = lead root ++ name) ↔
      IsName name ∧ path = under root [name] := by
  constructor
  · rintro ⟨normal, some_, whole, shape⟩
    have member : name ∈ elements path := by
      have last : ∀ first : String, name ∈ elements (first ++ "/" ++ name) := fun first => by
        rw [elements_append, elements_of_whole whole]
        exact List.mem_append_right _ List.mem_cons_self
      rw [shape, lead]
      split
      · exact last ""
      · exact last root
    have isName := normal.isName member some_
    exact ⟨isName, shape.trans (lead_append h isName)⟩
  · rintro ⟨isName, shape⟩
    refine ⟨?_, isName.nonempty, isName.whole, shape.trans (lead_append h isName).symm⟩
    rw [shape]
    exact h.under (by simpa using isName)

end Text.Path

namespace FileTree

variable {t : FileTree} {real : String}

/-! ## Directories -/

/-- All that stands in a tree stands at a path in normal form. -/
def Clean (t : FileTree) : Prop := t.entries.All fun path _ => Absolute path

/-- The name of what stands at a path, if the path leads into the directory and no further. -/
def nameIn? (directory path : String) : Option String :=
  if Path.startsWith path (lead directory) then
    let name := Path.trimLead path (lead directory)
    if name = "" ∨ name.toList.contains '/' then none else some name
  else none

theorem nameIn?_eq_some_iff {path name : String} : nameIn? real path = some name ↔
    name ≠ "" ∧ '/' ∉ name.toList ∧ path = lead real ++ name := by
  rw [nameIn?]
  split
  · rename_i starts
    obtain ⟨rest, rfl⟩ := startsWith_iff.1 starts
    have same : lead real ++ rest = lead real ++ name ↔ rest = name := by
      refine ⟨fun texts => ?_, fun names => by rw [names]⟩
      rw [← trimLead_append (lead real) rest, texts, trimLead_append]
    simp only [trimLead_append, same]
    split
    · rename_i none
      refine iff_of_false (by simp) ?_
      rintro ⟨some_, whole, rfl⟩
      exact none.elim some_ (by simpa using whole)
    · rename_i proper
      obtain ⟨some_, whole⟩ := not_or.1 proper
      constructor
      · rintro ⟨⟩
        exact ⟨some_, by simpa using whole, rfl⟩
      · rintro ⟨-, -, rfl⟩
        rfl
  · rename_i away
    refine iff_of_false (by simp) ?_
    rintro ⟨-, -, shape⟩
    exact away (startsWith_iff.2 ⟨name, shape⟩)

/-- The entries of a directory, before they are sorted. -/
def unsorted (t : FileTree) (real : String) : List (String × Entry) :=
  t.entries.entries.filterMap fun (path, e) => (nameIn? real path).map fun name => (name, e)

theorem children_eq : t.children real = (t.unsorted real).mergeSort fun a b => a.1 ≤ b.1 := by
  have each : ∀ entry : String × Entry,
      (if Path.startsWith entry.1 (lead real) then
        let name := Path.trimLead entry.1 (lead real)
        if name = "" ∨ name.toList.contains '/' then none else some (name, entry.2)
      else none) = (nameIn? real entry.1).map fun name => (name, entry.2) := by
    intro entry
    rw [nameIn?]
    split
    · simp only
      split <;> rfl
    · rfl
  rw [unsorted, ← funext each]
  rfl

/-- **What stands in a directory** is what stands behind one more name. -/
theorem mem_children_iff (h : t.Clean) (h' : Absolute real) {name : String} {e : Entry} :
    (name, e) ∈ t.children real ↔
      IsName name ∧ t.entries.get? (under real [name]) = some e := by
  rw [children_eq, List.mem_mergeSort, unsorted, List.mem_filterMap]
  constructor
  · rintro ⟨⟨path, e'⟩, member, found⟩
    obtain ⟨other, named, same⟩ := Option.map_eq_some_iff.1 found
    obtain ⟨rfl, rfl⟩ := Prod.mk.inj same
    rw [Table.mem_entries_iff] at member
    obtain ⟨isName, rfl⟩ :=
      (eq_lead_append_iff h').1 ⟨h path e' member, nameIn?_eq_some_iff.1 named⟩
    exact ⟨isName, member⟩
  · rintro ⟨isName, found⟩
    refine ⟨(_, e), Table.mem_entries_iff.2 found, Option.map_eq_some_iff.2 ⟨name, ?_, rfl⟩⟩
    exact nameIn?_eq_some_iff.2 ((eq_lead_append_iff h').2 ⟨isName, rfl⟩).2

/-- A name stands once in a directory. -/
theorem nodup_children : ((t.children real).map Prod.fst).Nodup := by
  have names : (t.unsorted real).map Prod.fst = t.entries.keys.filterMap (nameIn? real) := by
    rw [unsorted, List.map_filterMap, Table.keys, List.filterMap_map]
    refine List.filterMap_congr fun entry _ => ?_
    simp [Option.map_map, Function.comp_def]
  rw [children_eq, ((List.mergeSort_perm _ _).map Prod.fst).nodup_iff, names]
  refine t.entries.distinct.filterMap fun path path' name here here' => ?_
  rw [Option.mem_def, nameIn?_eq_some_iff] at here here'
  exact here.2.2.trans here'.2.2.symm

/-! ## Walks -/

/-- What is walked: names and steps up. -/
def IsStep (part : String) : Prop := IsName part ∨ part = ".."

theorem isStep_of_mem_steps {path part : String} (member : part ∈ steps path) : IsStep part := by
  obtain ⟨here, said⟩ := List.mem_filter.1 member
  obtain ⟨some_, stays⟩ : part ≠ "" ∧ part ≠ "." := by simpa using said
  by_cases up : part = ".."
  · exact .inr up
  · exact .inl ⟨some_, stays, up, not_mem_of_mem_elements here⟩

/-- A walk that goes through names stands behind names. -/
def Walk.Named : Walk → Prop
  | .arrived stack => ∀ name ∈ stack, IsName name
  | .failed _ => True
  | .link _ stack rest => (∀ name ∈ stack, IsName name) ∧ ∀ part ∈ rest, IsStep part

theorem walk_named (follow : Bool) {stack todo : List String} (h : ∀ name ∈ stack, IsName name)
    (h' : ∀ part ∈ todo, IsStep part) : (t.walk follow stack todo).Named := by
  fun_induction walk t follow stack todo with
  | case1 stack => exact h
  | case2 stack rest ih =>
      exact ih (fun name member => h name (List.mem_of_mem_drop member))
        (List.forall_mem_cons.1 h').2
  | case3 => trivial
  | case4 stack part rest down directory ih =>
      obtain ⟨here, later⟩ := List.forall_mem_cons.1 h'
      exact ih (List.forall_mem_cons.2 ⟨here.resolve_right down, h⟩) later
  | case5 stack part down | case7 stack part rest down =>
      exact List.forall_mem_cons.2 ⟨(h' part List.mem_cons_self).resolve_right down, h⟩
  | case6 => trivial
  | case8 => exact ⟨h, (List.forall_mem_cons.1 h').2⟩

theorem walkDown_named {follow : Bool} {links : Nat} {stack todo stack' : List String}
    (h : ∀ name ∈ stack, IsName name) (h' : ∀ part ∈ todo, IsStep part)
    (found : t.walkDown follow links stack todo = .ok stack') : ∀ name ∈ stack', IsName name := by
  fun_induction walkDown t follow links stack todo with
  | case1 links stack todo there walked =>
      have named := walk_named (t := t) follow h h'
      rw [walked] at named
      exact Except.ok.inj found ▸ named
  | case2 | case3 => cases found
  | case4 stack todo target there rest links walked ih =>
      have named := walk_named (t := t) follow h h'
      rw [walked] at named
      refine ih ?_ (List.forall_mem_append.2 ⟨fun _ => isStep_of_mem_steps, named.2⟩) found
      split
      · exact List.forall_mem_nil _
      · exact named.1

theorem absolute_pathOf {stack : List String} (h : ∀ name ∈ stack, IsName name) :
    Absolute (pathOf stack) := by
  let place : Place :=
    { rooted := true, ups := 0, names := stack.reverse
      proper := fun name member => h name (List.mem_reverse.1 member), top := fun _ => rfl }
  have text : pathOf stack = place.text := by
    rw [Place.text, if_pos rfl, Place.parts_of_rooted rfl]
    rfl
  rw [text]
  exact Place.absolute_text rfl

/-- **A path leads to a path in normal form.** -/
theorem absolute_of_resolveWith {follow : Bool} {path : String}
    (found : t.resolveWith follow path = .ok real) : Absolute real := by
  unfold resolveWith at found
  split at found
  · cases found
  · simp only at found
    generalize (if Path.isRooted path then path else t.workingDirectory ++ "/" ++ path) = start
      at found
    cases walked : t.walkDown follow 40 [] (steps start) with
    | error e => rw [walked] at found; cases found
    | ok stack =>
        rw [walked] at found
        obtain rfl := Except.ok.inj found
        exact absolute_pathOf
          (walkDown_named (List.forall_mem_nil _) (fun _ => isStep_of_mem_steps) walked)

theorem ne_empty_of_resolveWith {follow : Bool} {path : String}
    (found : t.resolveWith follow path = .ok real) : path ≠ "" := by
  rintro rfl
  cases found

/-- What stands at a path, a link being one, stands where the path leads. -/
theorem resolveParent_of_lstat {path : String} {e : Entry} (found : t.lstat path = .ok e) :
    ∃ real, t.resolveParent path = .ok real ∧ t.entry? real = some e := by
  unfold lstat at found
  cases resolved : t.resolveParent path with
  | error reason => rw [resolved] at found; cases found
  | ok real =>
      rw [resolved] at found
      refine ⟨real, rfl, ?_⟩
      simp only [bind, Except.bind] at found
      split at found
      · rename_i stands
        rw [stands]
        exact congrArg some (Except.ok.inj found)
      · cases found

end FileTree

end SymbolAtlas
