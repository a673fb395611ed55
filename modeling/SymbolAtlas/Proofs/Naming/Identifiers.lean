/-
# SymbolAtlas.Proofs.Naming.Identifiers -- which names lead to one identifier

The names of an export path are joined by dots, and the dots inside a name are doubled.  As
long as no name begins with a dot, this can be read back (`exportPath_inj`).  But the mark
between two names is written like half a dot inside a name, so of three dots in a row the
single one may come first or last: `a.` and `b` are written `a...b`, and so are `a` and `.b`.

`identifierOf_eq_iff` says that nothing else happens.  Identifiers are equal exactly if the
packages are, and one chain of names is turned into the other by steps (`Shift`) that move a
dot from one name to its neighbour, or let two names swallow a dot that is a name of its own
between them.  Both chains are read from the left, one character at a time; where one of them
begins a new name and the other one does not, a step makes them alike again.
-/
import Mathlib.Logic.Relation
import SymbolAtlas.Moniker
import SymbolAtlas.Proofs.Naming.Rendering

set_option autoImplicit false

namespace SymbolAtlas.Moniker

open Relation (EqvGen)

/-! ## Chains of names that are written alike -/

/-- A step between two chains of names that are written alike. -/
inductive Shift : List String → List String → Prop
  /-- The last dot of a name becomes the first one of the next name. -/
  | across (before after : List String) {name next : String} (named : name ≠ "")
      (named' : next ≠ "") :
      Shift (before ++ (name ++ ".") :: next :: after) (before ++ name :: ("." ++ next) :: after)
  /-- A name that is a dot, and the marks before and after it, become dots of one name. -/
  | swallow (before after : List String) {name next : String} (named : name ≠ "")
      (named' : next ≠ "") :
      Shift (before ++ name :: "." :: next :: after) (before ++ (name ++ ".." ++ next) :: after)

namespace Shift

theorem cons {names names' : List String} (h : Shift names names') (first : String) :
    Shift (first :: names) (first :: names') := by
  cases h with
  | across before after named named' => exact .across (first :: before) after named named'
  | swallow before after named named' => exact .swallow (first :: before) after named named'

end Shift

/-- Steps between two chains leave what stands before them alone. -/
theorem shifts_cons {names names' : List String} (h : EqvGen Shift names names')
    (first : String) : EqvGen Shift (first :: names) (first :: names') := by
  induction h with
  | rel names names' step => exact .rel _ _ (step.cons first)
  | refl names => exact .refl _
  | symm _ _ _ ih => exact .symm _ _ ih
  | trans _ _ _ _ _ first second => exact .trans _ _ _ first second

/-! ## The text of a chain -/

theorem doubleDots_eq (cs : List Char) : doubleDots cs = Descriptor.double '.' cs := by
  induction cs with
  | nil => rfl
  | cons c cs ih => rw [doubleDots, Descriptor.double, ih]

theorem doubleDots_nil : doubleDots [] = [] := rfl

theorem doubleDots_dot (cs : List Char) : doubleDots ('.' :: cs) = '.' :: '.' :: doubleDots cs :=
  rfl

theorem doubleDots_of_ne {c : Char} (plain : c ≠ '.') (cs : List Char) :
    doubleDots (c :: cs) = c :: doubleDots cs :=
  if_neg plain

/-- What is written for names that follow another one. -/
def following (names : List String) : List Char :=
  names.flatMap fun name => '.' :: doubleDots name.toList

theorem following_cons (name : String) (names : List String) :
    following (name :: names) = '.' :: (doubleDots name.toList ++ following names) := rfl

theorem intercalate_cons (sep cs : List Char) (texts : List (List Char)) :
    sep.intercalate (cs :: texts) = cs ++ texts.flatMap (sep ++ ·) := by
  induction texts generalizing cs with
  | nil => simp [List.intercalate_singleton]
  | cons text texts ih =>
      rw [List.intercalate_cons_cons, ih, List.flatMap_cons]
      simp only [List.append_assoc]

theorem toList_exportPath (name : String) (names : List String) :
    (exportPath (name :: names)).toList = doubleDots name.toList ++ following names := by
  simp only [exportPath, String.toList_intercalate, List.map_cons, intercalate_cons,
    List.flatMap_map, escapeSegment, String.toList_ofList]
  rfl

theorem following_eq (name : String) (names : List String) :
    following (name :: names) = '.' :: (exportPath (name :: names)).toList := by
  rw [toList_exportPath, following_cons]

theorem following_append (names names' : List String) :
    following (names ++ names') = following names ++ following names' :=
  List.flatMap_append

theorem doubleDots_append (cs cs' : List Char) :
    doubleDots (cs ++ cs') = doubleDots cs ++ doubleDots cs' := by
  simp only [doubleDots_eq, Descriptor.double_append]

/-- A step keeps the text. -/
theorem Shift.following_eq {names names' : List String} (h : Shift names names') :
    following names = following names' := by
  cases h with
  | across | swallow =>
      simp [following_append, following_cons, doubleDots_append, doubleDots]

theorem Shift.ne_nil {names names' : List String} (h : Shift names names') :
    names ≠ [] ∧ names' ≠ [] := by
  cases h <;> simp

theorem following_eq_of_shifts {names names' : List String} (h : EqvGen Shift names names') :
    following names = following names' ∧ (names = [] ↔ names' = []) := by
  induction h with
  | rel _ _ step => exact ⟨step.following_eq, by simp [step.ne_nil]⟩
  | refl => exact ⟨rfl, Iff.rfl⟩
  | symm _ _ _ ih => exact ⟨ih.1.symm, ih.2.symm⟩
  | trans _ _ _ _ _ first second =>
      exact ⟨first.1.trans second.1, first.2.trans second.2⟩

/-! ## Reading two chains at once -/

/-- Where both texts are inside a name, the names go on alike. -/
theorem doubleDots_cons_inj {c d : Char} {cs ds rest rest' : List Char}
    (h : doubleDots (c :: cs) ++ rest = doubleDots (d :: ds) ++ rest') :
    c = d ∧ doubleDots cs ++ rest = doubleDots ds ++ rest' := by
  by_cases dot : c = '.' <;> by_cases dot' : d = '.'
  · subst dot dot'
    exact ⟨rfl, by simpa [doubleDots_dot] using h⟩
  · subst dot
    rw [doubleDots_dot, doubleDots_of_ne dot'] at h
    exact absurd (List.cons.inj h).1.symm dot'
  · subst dot'
    rw [doubleDots_dot, doubleDots_of_ne dot] at h
    exact absurd (List.cons.inj h).1 dot
  · rw [doubleDots_of_ne dot, doubleDots_of_ne dot'] at h
    exact List.cons.inj h

/-- Where one text is at a mark and the other one inside a name, the name goes on with a dot. -/
theorem dot_of_doubleDots {d : Char} {ds rest rest' : List Char}
    (h : '.' :: rest = doubleDots (d :: ds) ++ rest') :
    d = '.' ∧ rest = '.' :: (doubleDots ds ++ rest') := by
  by_cases dot : d = '.'
  · subst dot
    exact ⟨rfl, (List.cons.inj h).2⟩
  · rw [doubleDots_of_ne dot] at h
    exact absurd (List.cons.inj h).1.symm dot

/-- Chains that are alike up to `start`, and whose texts are equal and shorter than `size` from
there on, come from each other by steps.  A chain has begun with a name, or is about to. -/
def ReadsBelow (size : Nat) : Prop :=
  ∀ (start cs ds : List Char) (names names' : List String), "" ∉ names → "" ∉ names' →
    (start ≠ [] ∨ cs ≠ [] ∧ ds ≠ []) → (doubleDots cs ++ following names).length < size →
    doubleDots cs ++ following names = doubleDots ds ++ following names' →
    EqvGen Shift (String.ofList (start ++ cs) :: names) (String.ofList (start ++ ds) :: names')

/-- A chain without empty names starts with a character. -/
theorem exists_first {name : String} {names : List String} (named : "" ∉ name :: names) :
    ∃ c cs, name = String.ofList (c :: cs) ∧ "" ∉ names := by
  obtain ⟨this, others⟩ : "" ≠ name ∧ "" ∉ names := by simpa using named
  cases split : name.toList with
  | nil => exact absurd (String.toList_injective split).symm this
  | cons c cs => exact ⟨c, cs, String.toList_injective (by simpa using split), others⟩

/-- A single mark is not the end of a text. -/
theorem doubleDots_append_following_ne {ds : List Char} {names : List String}
    (named : "" ∉ names) : doubleDots ds ++ following names ≠ ['.'] := by
  intro same
  cases ds with
  | cons d ds => cases (dot_of_doubleDots same.symm).2
  | nil =>
      cases names with
      | nil => cases same
      | cons name names =>
          obtain ⟨c, cs, rfl, -⟩ := exists_first named
          have empty := (List.cons.inj same).2
          rw [String.toList_ofList, doubleDots] at empty
          split at empty <;> cases empty

/-- One chain begins a new name, the other one goes on with a dot.  If the new name begins with a
dot too, the dot moves to the name before; if it is a dot, the names around it swallow it. -/
theorem shifts_at_mark {size : Nat} (reads : ReadsBelow size) {start ds : List Char}
    {names names' : List String} (named : "" ∉ names) (named' : "" ∉ names')
    (begun : start ≠ []) (inside : ds ≠ []) (short : (following names).length < size + 1)
    (same : following names = doubleDots ds ++ following names') :
    EqvGen Shift (String.ofList start :: names) (String.ofList (start ++ ds) :: names') := by
  obtain ⟨d, ds, rfl⟩ := List.exists_cons_of_ne_nil inside
  have started : String.ofList start ≠ "" := by simpa using begun
  cases names with
  | nil =>
      rw [doubleDots] at same
      split at same <;> cases same
  | cons name names =>
      obtain ⟨c, cs, rfl, rest⟩ := exists_first named
      rw [following_cons, String.toList_ofList] at same short
      obtain ⟨rfl, begins⟩ := dot_of_doubleDots same
      obtain ⟨rfl, later⟩ := dot_of_doubleDots begins.symm
      simp only [doubleDots_dot, List.length_cons, List.cons_append, List.length_append] at short
      have ahead : start ++ ['.'] ≠ [] := by simp
      cases cs with
      | cons c cs =>
          have moved : Shift ((String.ofList start ++ ".") :: String.ofList (c :: cs) :: names)
              (String.ofList start :: ("." ++ String.ofList (c :: cs)) :: names) :=
            .across [] names started (by simp)
          have onward := reads (start ++ ['.']) [] ds (String.ofList (c :: cs) :: names) names'
            (by simpa using rest) named' (.inl ahead)
            (by simp [doubleDots_nil, following_cons]; omega)
            (by rw [later, following_cons, String.toList_ofList]; rfl)
          refine .trans _ _ _ (.symm _ _ (.rel _ _ ?_)) (by simpa using onward)
          simpa using moved
      | nil =>
          cases names with
          | nil => exact absurd later (doubleDots_append_following_ne named')
          | cons next names =>
              obtain ⟨filled, rest⟩ : "" ≠ next ∧ "" ∉ names := by simpa using rest
              have swallowed : Shift (String.ofList start :: "." :: next :: names)
                  ((String.ofList start ++ ".." ++ next) :: names) :=
                .swallow [] names started filled.symm
              have onward := reads (start ++ ['.']) ('.' :: next.toList) ds names names' rest
                named' (.inl ahead) (by simp [doubleDots_dot, following_cons] at short ⊢; omega)
                (by rw [later, following_cons]; rfl)
              have whole : String.ofList (start ++ ['.'] ++ '.' :: next.toList) =
                  String.ofList start ++ ".." ++ next := String.toList_injective (by simp)
              rw [whole] at onward
              exact .trans _ _ _ (.rel _ _ swallowed) (by simpa using onward)

/-- **Chains with one text come from each other by steps.** -/
theorem reads_below (size : Nat) : ReadsBelow size := by
  induction size with
  | zero => exact fun _ _ _ _ _ _ _ _ short => absurd short (Nat.not_lt_zero _)
  | succ size reads =>
      intro start cs ds names names' named named' begun short same
      cases cs with
      | cons c cs =>
          cases ds with
          | cons d ds =>
              obtain ⟨rfl, later⟩ := doubleDots_cons_inj same
              have less : (doubleDots cs).length < (doubleDots (c :: cs)).length := by
                rw [doubleDots]
                split <;> simp only [List.length_cons] <;> omega
              have onward := reads (start ++ [c]) cs ds names names' named named'
                (.inl (by simp)) (by simp only [List.length_append] at short ⊢; omega) later
              simpa using onward
          | nil =>
              have started : start ≠ [] := by simpa using begun
              rw [same] at short
              have back := shifts_at_mark reads named' named started (List.cons_ne_nil c cs) short
                same.symm
              simpa using EqvGen.symm _ _ back
      | nil =>
          have started : start ≠ [] := by simpa using begun
          cases ds with
          | cons d ds =>
              simpa using shifts_at_mark reads named named' started (List.cons_ne_nil d ds) short
                same
          | nil =>
              cases names with
              | nil =>
                  cases names' with
                  | nil => exact .refl _
                  | cons => cases same
              | cons name names =>
                  cases names' with
                  | nil => cases same
                  | cons name' names' =>
                      obtain ⟨c, cs, rfl, rest⟩ := exists_first named
                      obtain ⟨d, ds, rfl, rest'⟩ := exists_first named'
                      have later := (List.cons.inj same).2
                      rw [String.toList_ofList, String.toList_ofList] at later
                      have onward := reads [] (c :: cs) (d :: ds) names names' rest rest'
                        (.inr ⟨by simp, by simp⟩)
                        (by simpa [doubleDots_nil, following_cons] using short) later
                      exact shifts_cons onward _

/-! ## Identifiers -/

/-- Export paths are equal exactly if steps lead from one to the other. -/
theorem exportPath_eq_iff {names names' : List String} (named : "" ∉ names)
    (named' : "" ∉ names') (empty : names = [] ↔ names' = []) :
    exportPath names = exportPath names' ↔ EqvGen Shift names names' := by
  cases names with
  | nil =>
      obtain rfl := empty.1 rfl
      exact ⟨fun _ => .refl _, fun _ => rfl⟩
  | cons name names =>
      have filled : names' ≠ [] := fun none => by simpa using empty.2 none
      obtain ⟨name', names', rfl⟩ := List.exists_cons_of_ne_nil filled
      constructor
      · intro same
        have texts := congrArg String.toList same
        obtain ⟨c, cs, rfl, rest⟩ := exists_first named
        obtain ⟨d, ds, rfl, rest'⟩ := exists_first named'
        rw [toList_exportPath, toList_exportPath, String.toList_ofList,
          String.toList_ofList] at texts
        exact reads_below _ [] (c :: cs) (d :: ds) names names' rest rest'
          (.inr ⟨by simp, by simp⟩) (Nat.lt_succ_self _) texts
      · intro shifts
        have texts := (following_eq_of_shifts shifts).1
        rw [following_eq, following_eq] at texts
        exact String.toList_injective (List.cons.inj texts).2

theorem toList_identifierOf (path name : String) (names : List String) :
    (identifierOf path (name :: names)).toList =
      path.toList ++ ':' :: (exportPath (name :: names)).toList := by
  simp [identifierOf]

/-- A package without a colon, and what comes after it, can be read off an identifier. -/
theorem identifierOf_inj {path path' : String} {names names' : List String}
    (plain : ':' ∉ path.toList) (plain' : ':' ∉ path'.toList)
    (h : identifierOf path names = identifierOf path' names') :
    path = path' ∧ (names = [] ↔ names' = []) ∧ exportPath names = exportPath names' := by
  have lists := congrArg String.toList h
  cases names with
  | nil =>
      cases names' with
      | nil => exact ⟨h, Iff.rfl, rfl⟩
      | cons name' names' =>
          rw [toList_identifierOf] at lists
          exact absurd (show ':' ∈ path.toList from lists ▸ by simp) plain
  | cons name names =>
      cases names' with
      | nil =>
          rw [toList_identifierOf] at lists
          exact absurd (show ':' ∈ path'.toList from lists ▸ by simp) plain'
      | cons name' names' =>
          rw [toList_identifierOf, toList_identifierOf] at lists
          have colons : ∀ {text : String}, ':' ∉ text.toList → text.toList.all (· ≠ ':') := by
            intro text fine
            simpa [List.all_eq_true] using fun c member (same : c = ':') => fine (same ▸ member)
          obtain ⟨same, rest⟩ := Descriptor.append_inj_of_all (colons plain) (colons plain')
            (by simp) (by simp) lists
          exact ⟨String.toList_injective same, by simp,
            String.toList_injective (List.cons.inj rest).2⟩

/-- **When two identifiers are equal.**  Packages without a colon and chains of non-empty names
give one identifier exactly if they are one package, and steps that move dots between
neighbours lead from one chain to the other. -/
theorem identifierOf_eq_iff {path path' : String} {names names' : List String}
    (plain : ':' ∉ path.toList) (plain' : ':' ∉ path'.toList) (named : "" ∉ names)
    (named' : "" ∉ names') :
    identifierOf path names = identifierOf path' names' ↔
      path = path' ∧ EqvGen Shift names names' := by
  constructor
  · intro same
    obtain ⟨rfl, empty, texts⟩ := identifierOf_inj plain plain' same
    exact ⟨rfl, (exportPath_eq_iff named named' empty).1 texts⟩
  · rintro ⟨rfl, shifts⟩
    have empty := (following_eq_of_shifts shifts).2
    unfold identifierOf
    rw [(exportPath_eq_iff named named' empty).2 shifts]
    simp only [empty]

/-- Two chains with one text, and two whose texts differ by a single mark. -/
theorem identifierOf_eq_iff_threeDots :
    (':' ∉ "example.com/app".toList ∧ "" ∉ ["a.", "b"] ∧ "" ∉ ["a", ".b"] ∧ "" ∉ ["a.b"]) ∧
      EqvGen Shift ["a.", "b"] ["a", ".b"] ∧ ¬ EqvGen Shift ["a.", "b"] ["a.b"] := by
  have plain : ':' ∉ "example.com/app".toList := by decide
  have named : "" ∉ ["a.", "b"] := by decide
  have named' : "" ∉ ["a", ".b"] := by decide
  have whole : "" ∉ ["a.b"] := by decide
  refine ⟨⟨plain, named, named', whole⟩, ?_, fun shifts => ?_⟩
  · exact ((identifierOf_eq_iff plain plain named named').1 (by decide)).2
  · exact absurd ((identifierOf_eq_iff plain plain named whole).2 ⟨rfl, shifts⟩) (by decide)

/-- Different chains of names with one identifier. -/
theorem identifierOf_collision :
    ∃ names names' : List String, ':' ∉ "example.com/app".toList ∧ "" ∉ names ∧ "" ∉ names' ∧
      names ≠ names' ∧
      identifierOf "example.com/app" names = identifierOf "example.com/app" names' :=
  ⟨["a.", "b"], ["a", ".b"], by decide⟩

/-! ## Names that do not begin with a dot -/

/-- No name of the chain is empty or begins with a dot. -/
def Plain (names : List String) : Prop :=
  ∀ name ∈ names, ∃ c cs, name.toList = c :: cs ∧ c ≠ '.'

/-- Where a new name begins, the other text does not go on with a name. -/
theorem following_ne_doubleDots {names : List String} (plain : Plain names) (d : Char)
    (ds rest : List Char) : following names ≠ doubleDots (d :: ds) ++ rest := by
  intro same
  cases names with
  | nil =>
      rw [doubleDots] at same
      split at same <;> cases same
  | cons name names =>
      obtain ⟨c, cs, split, undotted⟩ := plain name List.mem_cons_self
      rw [following_cons, split] at same
      obtain ⟨-, begins⟩ := dot_of_doubleDots same
      exact undotted (dot_of_doubleDots begins.symm).1

/-- What a text is in can be told from the names after it. -/
theorem doubleDots_append_inj {cs ds : List Char} {names names' : List String}
    (plain : Plain names) (plain' : Plain names')
    (same : doubleDots cs ++ following names = doubleDots ds ++ following names') :
    cs = ds ∧ following names = following names' := by
  induction cs generalizing ds with
  | nil =>
      cases ds with
      | nil => exact ⟨rfl, same⟩
      | cons d ds => exact absurd same (following_ne_doubleDots plain d ds _)
  | cons c cs ih =>
      cases ds with
      | nil => exact absurd same.symm (following_ne_doubleDots plain' c cs _)
      | cons d ds =>
          obtain ⟨rfl, later⟩ := doubleDots_cons_inj same
          obtain ⟨rfl, rest⟩ := ih later
          exact ⟨rfl, rest⟩

theorem following_inj {names names' : List String} (plain : Plain names) (plain' : Plain names')
    (same : following names = following names') : names = names' := by
  induction names generalizing names' with
  | nil =>
      cases names' with
      | nil => rfl
      | cons => cases same
  | cons name names ih =>
      cases names' with
      | nil => cases same
      | cons name' names' =>
          obtain ⟨-, others⟩ := List.forall_mem_cons.1 plain
          obtain ⟨-, others'⟩ := List.forall_mem_cons.1 plain'
          obtain ⟨first, rest⟩ := doubleDots_append_inj others others' (List.cons.inj same).2
          rw [String.toList_injective first, ih others others' rest]

/-- **Export paths of plain names are unambiguous.** -/
theorem exportPath_inj {names names' : List String} (plain : Plain names) (plain' : Plain names')
    (empty : names = [] ↔ names' = []) (h : exportPath names = exportPath names') :
    names = names' := by
  cases names with
  | nil => exact (empty.1 rfl).symm
  | cons name names =>
      have filled : names' ≠ [] := fun none => by simpa using empty.2 none
      obtain ⟨name', names', rfl⟩ := List.exists_cons_of_ne_nil filled
      refine following_inj plain plain' ?_
      rw [following_eq, following_eq, h]

/-- **Identifiers of plain names are unambiguous.** -/
theorem identifierOf_unambiguous {path path' : String} {names names' : List String}
    (colonless : ':' ∉ path.toList) (colonless' : ':' ∉ path'.toList) (plain : Plain names)
    (plain' : Plain names') (h : identifierOf path names = identifierOf path' names') :
    path = path' ∧ names = names' := by
  obtain ⟨rfl, empty, texts⟩ := identifierOf_inj colonless colonless' h
  exact ⟨rfl, exportPath_inj plain plain' empty texts⟩

end SymbolAtlas.Moniker
