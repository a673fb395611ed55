/-
# SymbolAtlas.Proofs.Text.Paths -- paths in normal form and the names in them

A path in normal form that starts at the root is a list of names (`Absolute.names`), and it is
found again from the path that leads to it from another one: the names that the two have in
common are as many as the steps up leave (`relative_injective`).  So a project shows two files
under one path only if they are one (`displayPath_injective`).
-/
import SymbolAtlas.Session.State

set_option autoImplicit false

namespace SymbolAtlas.Text.Path

/-! ## Names -/

/-- An element of a path that is neither empty nor a step. -/
structure IsName (part : String) : Prop where
  nonempty : part ≠ ""
  stays : part ≠ "."
  below : part ≠ ".."
  whole : '/' ∉ part.toList

/-- What stands between slashes has none. -/
theorem not_mem_of_mem_splitOn {text part : List Char} (member : part ∈ text.splitOn '/') :
    '/' ∉ part := by
  rw [List.splitOn_eq_splitOnP] at member
  induction text generalizing part with
  | nil =>
      rw [List.splitOnP_nil, List.mem_singleton] at member
      simp [member]
  | cons first text ih =>
      rw [List.splitOnP_cons_eq_if_modifyHead] at member
      split at member
      · rcases List.mem_cons.1 member with rfl | later
        · exact List.not_mem_nil
        · exact ih later
      · rename_i other
        obtain ⟨head, rest, parts⟩ := List.exists_cons_of_ne_nil
          (List.splitOnP_ne_nil (fun c => c == '/') text)
        rw [parts] at member ih
        rcases List.mem_cons.1 member with rfl | later
        · refine fun inside => (List.mem_cons.1 inside).elim ?_ (ih List.mem_cons_self)
          rintro rfl
          simp at other
        · exact ih (List.mem_cons_of_mem _ later)

theorem not_mem_of_mem_elements {path part : String} (member : part ∈ elements path) :
    '/' ∉ part.toList := by
  obtain ⟨chars, here, rfl⟩ := List.mem_map.1 member
  rw [String.toList_ofList]
  exact not_mem_of_mem_splitOn here

/-- The texts between the slashes of joined texts. -/
theorem elements_ofElements {parts : List String} (whole : ∀ part ∈ parts, '/' ∉ part.toList)
    (some_ : parts ≠ []) : elements (ofElements parts) = parts := by
  have texts : (ofElements parts).toList.splitOn '/' = parts.map String.toList := by
    rw [ofElements, String.toList_intercalate]
    refine List.splitOn_intercalate '/' ?_ (by simpa using some_)
    rintro text member
    obtain ⟨part, here, rfl⟩ := List.mem_map.1 member
    exact whole part here
  rw [elements, texts, List.map_map]
  exact (List.map_congr_left fun part _ => String.ofList_toList).trans (List.map_id _)

/-! ## Paths from the root -/

/-- A path in normal form that starts at the root. -/
def Absolute (path : String) : Prop := isRooted path = true ∧ clean path = path

instance (path : String) : Decidable (Absolute path) := inferInstanceAs (Decidable (_ ∧ _))

theorem step_names {stack : List String} {part : String} (h : ∀ name ∈ stack, IsName name)
    (whole : '/' ∉ part.toList) : ∀ name ∈ step true stack part, IsName name := by
  unfold step
  split
  · exact h
  · rename_i proper
    obtain ⟨nonempty, stays⟩ := not_or.1 proper
    split
    · cases stack with
      | nil => simp
      | cons top rest =>
          simp only
          rw [if_neg (h top List.mem_cons_self).below]
          exact fun name member => h name (List.mem_cons_of_mem _ member)
    · rename_i below
      exact List.forall_mem_cons.2 ⟨⟨nonempty, stays, below, whole⟩, h⟩

theorem cleanElements_names {path : String} (rooted : isRooted path = true) :
    ∀ name ∈ cleanElements path, IsName name := by
  have folded : ∀ (parts stack : List String), (∀ name ∈ stack, IsName name) →
      (∀ part ∈ parts, '/' ∉ part.toList) → ∀ name ∈ parts.foldl (step true) stack, IsName name := by
    intro parts
    induction parts with
    | nil => exact fun stack h _ => h
    | cons part parts ih =>
        intro stack h whole
        exact ih _ (step_names h (whole part List.mem_cons_self)) fun other member =>
          whole other (List.mem_cons_of_mem _ member)
  intro name member
  rw [cleanElements, rooted, List.mem_reverse] at member
  exact folded _ [] (by simp) (fun part => not_mem_of_mem_elements) name member

/-- **A path from the root is the list of its names.** -/
theorem Absolute.names {path : String} (h : Absolute path) :
    ∃ names : List String, (∀ name ∈ names, IsName name) ∧ path = "/" ++ ofElements names ∧
      (elements path).filter (· ≠ "") = names := by
  obtain ⟨rooted, clean_⟩ := h
  have shape : path = "/" ++ ofElements (cleanElements path) := by
    rw [clean, if_pos rooted] at clean_
    exact clean_.symm
  have names := cleanElements_names rooted
  generalize cleanElements path = parts at shape names
  refine ⟨parts, names, shape, ?_⟩
  have first : elements path = "" :: elements (ofElements parts) := by
    rw [shape]
    simp [elements, String.toList_append, List.splitOn_eq_splitOnP,
      List.splitOnP_cons_eq_if_modifyHead]
  rw [first]
  cases parts with
  | nil => rfl
  | cons part parts =>
      rw [elements_ofElements (fun name member => (names name member).whole) (by simp),
        List.filter_cons_of_neg (by simp)]
      exact List.filter_eq_self.2 fun name member => by simpa using (names name member).nonempty

/-! ## The way from one path to another -/

/-- What two lists have in common at the front is dropped from both. -/
theorem dropCommon_split (up down : List String) :
    ∃ common, up = common ++ (dropCommon up down).1 ∧ down = common ++ (dropCommon up down).2 := by
  induction up generalizing down with
  | nil => exact ⟨[], rfl, by cases down <;> rfl⟩
  | cons a as ih =>
      cases down with
      | nil => exact ⟨[], rfl, rfl⟩
      | cons b bs =>
          rw [dropCommon]
          split
          · rename_i same
            subst same
            obtain ⟨common, up, down⟩ := ih bs
            exact ⟨a :: common, congrArg _ up, congrArg _ down⟩
          · exact ⟨[], rfl, rfl⟩

/-- The steps from some names to others. -/
def steps (up down : List String) : List String :=
  (dropCommon up down).1.map (fun _ => "..") ++ (dropCommon up down).2

theorem steps_eq_nil {up down : List String} (none : steps up down = []) : up = down := by
  obtain ⟨up_, down_⟩ := List.append_eq_nil_iff.1 none
  obtain ⟨common, first, second⟩ := dropCommon_split up down
  rw [List.map_eq_nil_iff.1 up_] at first
  rw [down_] at second
  exact first.trans second.symm

/-- A step leads up or down to a name. -/
theorem mem_steps {up down : List String} (names : ∀ name ∈ down, IsName name) {part : String}
    (member : part ∈ steps up down) : part = ".." ∨ IsName part := by
  rcases List.mem_append.1 member with here | here
  · obtain ⟨_, _, rfl⟩ := List.mem_map.1 here
    exact .inl rfl
  · obtain ⟨common, -, second⟩ := dropCommon_split up down
    exact .inr (names part (second ▸ List.mem_append_right _ here))

/-- As many steps up, then the same names. -/
theorem ups_append_injective {n n' : Nat} {names names' : List String}
    (h : ∀ name ∈ names, IsName name) (h' : ∀ name ∈ names', IsName name)
    (same : List.replicate n ".." ++ names = List.replicate n' ".." ++ names') :
    n = n' ∧ names = names' := by
  induction n generalizing n' with
  | zero =>
      cases n' with
      | zero => exact ⟨rfl, same⟩
      | succ n' =>
          refine absurd rfl (h ".." ?_).below
          rw [show names = _ from same]
          exact List.mem_cons_self
  | succ n ih =>
      cases n' with
      | zero =>
          refine absurd rfl ( h' ".." ?_).below
          rw [show names' = _ from same.symm]
          exact List.mem_cons_self
      | succ n' =>
          obtain ⟨rfl, equal⟩ := ih (List.cons.inj same).2
          exact ⟨rfl, equal⟩

/-- The steps from a place lead to one place. -/
theorem steps_injective {up down down' : List String} (h : ∀ name ∈ down, IsName name)
    (h' : ∀ name ∈ down', IsName name) (same : steps up down = steps up down') : down = down' := by
  obtain ⟨common, first, second⟩ := dropCommon_split up down
  obtain ⟨common', first', second'⟩ := dropCommon_split up down'
  unfold steps at same
  generalize dropCommon up down = cut at first second same
  generalize dropCommon up down' = cut' at first' second' same
  rw [List.map_const', List.map_const'] at same
  obtain ⟨size, equal⟩ := ups_append_injective
    (fun name member => h name (second ▸ List.mem_append_right _ member))
    (fun name member => h' name (second' ▸ List.mem_append_right _ member)) same
  obtain ⟨rfl, -⟩ := List.append_inj' (first.symm.trans first') size
  rw [second, second', equal]

/-- Steps that lead somewhere do not begin at the root, and are no path to where they begin. -/
theorem ofElements_steps {up down : List String} (names : ∀ name ∈ down, IsName name)
    (some_ : steps up down ≠ []) :
    isRooted (ofElements (steps up down)) = false ∧ ofElements (steps up down) ≠ "." ∧
      elements (ofElements (steps up down)) = steps up down := by
  have whole : ∀ part ∈ steps up down, '/' ∉ part.toList := by
    intro part member
    rcases mem_steps names member with rfl | name
    · decide
    · exact name.whole
  have read := elements_ofElements whole some_
  have proper : "" ∉ steps up down ∧ "." ∉ steps up down := by
    constructor <;> intro member <;> rcases mem_steps names member with equal | name
    · exact absurd equal (by decide)
    · exact name.nonempty rfl
    · exact absurd equal (by decide)
    · exact name.stays rfl
  refine ⟨Bool.eq_false_iff.2 fun rooted => proper.1 ?_, fun same => proper.2 ?_, read⟩
  · rw [← read]
    unfold elements
    cases text : (ofElements (steps up down)).toList with
    | nil => simp [isRooted, text] at rooted
    | cons first rest =>
        obtain rfl : first = '/' := by simpa [isRooted, text] using rooted
        simp [List.splitOn_eq_splitOnP, List.splitOnP_cons_eq_if_modifyHead]
  · rw [← read, same]
    decide

/-- A path from another one is the steps that lead to it. -/
theorem relative?_of_absolute {root path way : String} (h : Absolute root) (h' : Absolute path)
    (led : relative? root path = some way) :
    (path = root ∧ way = ".") ∨
    (path ≠ root ∧ way = ofElements
      (steps ((elements root).filter (· ≠ "")) ((elements path).filter (· ≠ "")))) := by
  unfold relative? at led
  simp only [h.2, h'.2] at led
  split at led
  · rename_i same
    exact .inl ⟨same, (Option.some.inj led).symm⟩
  · rename_i other
    refine .inr ⟨other, ?_⟩
    have somewhere : root ≠ "." := by
      rintro rfl
      exact absurd h.1 (by decide)
    rw [if_neg (by simp [h.1, h'.1]), if_neg somewhere] at led
    unfold steps
    split at led
    · cases led
    · rename_i rest down _ cut
      rw [cut]
      exact (Option.some.inj led).symm

end SymbolAtlas.Text.Path

namespace SymbolAtlas.Session

open Text.Path

/-- How a project with a root shows a path from the root. -/
theorem displayPath_cases {root path : String} (h : Absolute root) (h' : Absolute path) :
    displayPath root path = path ∨ (path = root ∧ displayPath root path = ".") ∨
    (path ≠ root ∧ displayPath root path = ofElements
      (steps ((elements root).filter (· ≠ "")) ((elements path).filter (· ≠ "")))) := by
  unfold displayPath
  split
  · exact .inl rfl
  · unfold within?
    cases led : relative? root path with
    | none => exact .inl rfl
    | some way =>
        rcases Option.eq_none_or_eq_some ((some way).filter fun relative => !leaves relative) with
          outside | ⟨shown, inside⟩
        · exact .inl (by rw [outside]; rfl)
        · obtain rfl : way = shown := Option.some.inj (Option.filter_eq_some_iff.1 inside).1
          rw [inside]
          exact .inr (relative?_of_absolute h h' led)

/-- **A project shows one file under one path.** -/
theorem displayPath_injective {root first second : String} (h : Absolute root)
    (h₁ : Absolute first) (h₂ : Absolute second)
    (same : displayPath root first = displayPath root second) : first = second := by
  obtain ⟨names, proper, shape, read⟩ := h.names
  obtain ⟨names₁, proper₁, shape₁, read₁⟩ := h₁.names
  obtain ⟨names₂, proper₂, shape₂, read₂⟩ := h₂.names
  have cases₁ := displayPath_cases h h₁
  have cases₂ := displayPath_cases h h₂
  rw [read, read₁] at cases₁
  rw [read, read₂] at cases₂
  have away₁ : first ≠ root → steps names names₁ ≠ [] := fun other none =>
    other (by rw [shape₁, shape, steps_eq_nil none])
  have away₂ : second ≠ root → steps names names₂ ≠ [] := fun other none =>
    other (by rw [shape₂, shape, steps_eq_nil none])
  have dot : isRooted "." = false := by decide
  rcases cases₁ with shown₁ | ⟨here₁, shown₁⟩ | ⟨other₁, shown₁⟩ <;>
    rcases cases₂ with shown₂ | ⟨here₂, shown₂⟩ | ⟨other₂, shown₂⟩ <;>
    rw [shown₁, shown₂] at same
  · exact same
  · exact absurd h₁.1 (by simp [same, dot])
  · exact absurd h₁.1 (by simp [same, (ofElements_steps proper₂ (away₂ other₂)).1])
  · exact absurd h₂.1 (by simp [← same, dot])
  · exact here₁.trans here₂.symm
  · exact absurd same.symm (ofElements_steps proper₂ (away₂ other₂)).2.1
  · exact absurd h₂.1 (by simp [← same, (ofElements_steps proper₁ (away₁ other₁)).1])
  · exact absurd same (ofElements_steps proper₁ (away₁ other₁)).2.1
  · have equal : steps names names₁ = steps names names₂ := by
      rw [← (ofElements_steps proper₁ (away₁ other₁)).2.2, same,
        (ofElements_steps proper₂ (away₂ other₂)).2.2]
    rw [shape₁, shape₂, steps_injective proper₁ proper₂ equal]

end SymbolAtlas.Session
