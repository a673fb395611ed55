/-
# SymbolAtlas.Proofs.Naming.Decoding -- a symbol can be read off its text

The text of a global symbol is four fields, each with a blank after it, and the
descriptors.  Inside a field blanks are doubled, so a single blank ends it, provided that
what comes next does not start with a blank: the fields are cut off from the left
(`append_fields_inj`).  The descriptors are cut off from the right, one at a time; before
the first of them stands the last blank, which no name ends in (`join_render_inj`).

Two things are lost in a field.  A blank at its front joins the blank that ends the field
before it, and the empty field is written as a dot.  Symbols without such fields are
`Legible`; a blank at the end of a field does no harm.
-/
import Mathlib.Data.List.Induction
import SymbolAtlas.Proofs.Naming.Collisions

set_option autoImplicit false

namespace SymbolAtlas

namespace Descriptor

/-! ## Fields -/

/-- The field can be read back: it is not written like the empty one, and does not start with
a blank. -/
def Legible (field : String) : Prop := field ≠ "." ∧ field.toList.head? ≠ some ' '

instance (field : String) : Decidable (Legible field) :=
  inferInstanceAs (Decidable (field ≠ "." ∧ field.toList.head? ≠ some ' '))

/-- What is written for a field before blanks are doubled. -/
def filled (field : String) : List Char := if field = "" then ['.'] else field.toList

theorem toList_escapeField (field : String) :
    (escapeField field).toList = double ' ' (filled field) := by
  unfold escapeField filled
  split
  · rfl
  · simp

theorem filled_inj {field field' : String} (legible : Legible field) (legible' : Legible field')
    (h : filled field = filled field') : field = field' := by
  have dot : ∀ {other : String}, Legible other → other.toList ≠ ['.'] := fun fine same =>
    fine.1 (String.toList_injective same)
  unfold filled at h
  split at h <;> split at h
  · rename_i empty empty'
    exact empty.trans empty'.symm
  · exact absurd h.symm (dot legible')
  · exact absurd h (dot legible)
  · exact String.toList_injective h

theorem head?_double {mark : Char} {xs : List Char} : (double mark xs).head? = xs.head? := by
  cases xs with
  | nil => rfl
  | cons x xs =>
      simp only [double]
      split
      · rename_i same
        simp [same]
      · rfl

theorem filled_ne_nil (field : String) : filled field ≠ [] := by
  unfold filled
  split
  · simp
  · simpa using ‹field ≠ ""›

/-- What comes after a blank starts with no other one, if a legible field comes. -/
theorem head?_escapeField_append {field : String} (legible : Legible field) (rest : List Char) :
    (double ' ' (filled field) ++ rest).head? ≠ some ' ' := by
  have filled_head : (filled field).head? ≠ some ' ' := by
    unfold filled
    split
    · decide
    · exact legible.2
  cases shape : filled field with
  | nil => exact absurd shape (filled_ne_nil field)
  | cons c cs =>
      rw [List.head?_append, head?_double, ← shape, Option.or_of_isSome (by simp [shape])]
      exact filled_head

/-- Fields, each with a blank after it. -/
def fields (texts : List String) : List Char :=
  texts.flatMap fun text => double ' ' (filled text) ++ [' ']

theorem fields_cons (text : String) (texts : List String) (rest : List Char) :
    fields (text :: texts) ++ rest = double ' ' (filled text) ++ ' ' :: (fields texts ++ rest) := by
  simp [fields]

theorem head?_fields_append {texts : List String} {rest : List Char}
    (legible : ∀ text ∈ texts, Legible text) (unblank : rest.head? ≠ some ' ') :
    (fields texts ++ rest).head? ≠ some ' ' := by
  cases texts with
  | nil => exact unblank
  | cons text texts =>
      rw [fields_cons]
      exact head?_escapeField_append (legible text List.mem_cons_self) _

/-- **As many fields, and what comes after them, can be read from the left.** -/
theorem append_fields_inj {texts texts' : List String} {rest rest' : List Char}
    (length : texts.length = texts'.length) (legible : ∀ text ∈ texts, Legible text)
    (legible' : ∀ text ∈ texts', Legible text) (unblank : rest.head? ≠ some ' ')
    (unblank' : rest'.head? ≠ some ' ') (h : fields texts ++ rest = fields texts' ++ rest') :
    texts = texts' ∧ rest = rest' := by
  induction texts generalizing texts' with
  | nil =>
      obtain rfl := List.length_eq_zero_iff.1 length.symm
      exact ⟨rfl, h⟩
  | cons text texts ih =>
      obtain ⟨text', texts', rfl⟩ := List.exists_cons_of_length_eq_add_one length.symm
      rw [fields_cons, fields_cons] at h
      obtain ⟨here, here'⟩ := List.forall_mem_cons.1 legible
      obtain ⟨there, there'⟩ := List.forall_mem_cons.1 legible'
      obtain ⟨first, others⟩ := double_append_inj (head?_fields_append here' unblank)
        (head?_fields_append there' unblank') h
      obtain rfl := filled_inj here there first
      obtain ⟨rfl, same⟩ := ih (Nat.succ.inj length) here' there' others
      exact ⟨rfl, same⟩

/-! ## Descriptors -/

/-- A descriptor starts with a plain character or a quote. -/
theorem head?_render (d : Descriptor) (rest : List Char) :
    (d.render.toList ++ rest).head? ≠ some ' ' := by
  rw [render, String.toList_append, List.append_assoc, escapeName]
  split
  · rename_i plain
    obtain ⟨filled, plain⟩ := plain
    cases shape : d.name.toList with
    | nil => exact absurd (String.toList_injective shape) filled
    | cons c cs =>
        rw [shape] at plain
        rintro ⟨⟩
        exact absurd plain (by simp [show isPlain ' ' = false by decide])
  · simp

theorem head?_join_render (ds : List Descriptor) :
    (String.join (ds.map render)).toList.head? ≠ some ' ' := by
  cases ds with
  | nil => simp [String.join]
  | cons d ds =>
      rw [List.map_cons, String.join_cons, String.toList_append]
      exact head?_render d _

theorem join_render_append (text : String) (ds : List Descriptor) (d : Descriptor) :
    text ++ String.join ((ds ++ [d]).map render) =
      text ++ String.join (ds.map render) ++ d.render := by
  simp [String.join_append, String.append_assoc]

/-- After a closed text marked descriptors leave a closed text. -/
theorem closed_append_join {text : String} (closed : Closed text) {ds : List Descriptor}
    (marked : ∀ d ∈ ds, d.suffix ≠ .bare) : Closed (text ++ String.join (ds.map render)) := by
  rcases List.eq_nil_or_concat ds with rfl | ⟨ds, d, rfl⟩
  · simpa [String.join] using closed
  · rw [List.concat_eq_append, join_render_append]
    exact closed_append_render _ (marked d (by simp))

/-- A text gets longer by a descriptor, so it is not the closed text before it. -/
theorem append_render_ne (text : String) (ds : List Descriptor) (d : Descriptor)
    (marked : d.suffix ≠ .bare) : text ++ String.join (ds.map render) ++ d.render ≠ text := by
  intro same
  have lengths := congrArg String.length same
  have visible : 0 < d.suffix.mark.length := by
    cases shape : d.suffix with
    | bare => exact absurd shape marked
    | _ => decide
  simp only [String.length_append, render] at lengths
  omega

/-- **Marked descriptors after a closed text can be read from the right.** -/
theorem join_render_inj {text : String} (closed : Closed text) {ds ds' : List Descriptor}
    (marked : ∀ d ∈ ds, d.suffix ≠ .bare) (marked' : ∀ d ∈ ds', d.suffix ≠ .bare)
    (h : text ++ String.join (ds.map render) = text ++ String.join (ds'.map render)) :
    ds = ds' := by
  have empty : text ++ String.join (([] : List Descriptor).map render) = text := by
    simp [String.join]
  induction ds using List.reverseRecOn generalizing ds' with
  | nil =>
      rcases List.eq_nil_or_concat ds' with rfl | ⟨ds', d', rfl⟩
      · rfl
      · rw [List.concat_eq_append, join_render_append, empty] at h
        exact absurd h.symm (append_render_ne text ds' d' (marked' d' (by simp)))
  | append_singleton ds d ih =>
      rw [join_render_append] at h
      rcases List.eq_nil_or_concat ds' with rfl | ⟨ds', d', rfl⟩
      · rw [empty] at h
        exact absurd h (append_render_ne text ds d (marked d (by simp)))
      · rw [List.concat_eq_append] at marked' ⊢
        rw [List.concat_eq_append, join_render_append] at h
        have before : ∀ e ∈ ds, e.suffix ≠ .bare := fun e member =>
          marked e (List.mem_append_left _ member)
        have before' : ∀ e ∈ ds', e.suffix ≠ .bare := fun e member =>
          marked' e (List.mem_append_left _ member)
        obtain ⟨others, rfl⟩ := append_render_inj (closed_append_join closed before)
          (closed_append_join closed before') (marked d (by simp)) (marked' d' (by simp)) h
        rw [ih before before' others]

end Descriptor

namespace SymbolName

open Descriptor (double filled fields)

/-! ## Symbols -/

/-- The symbol can be read off its text: so can its fields, and every descriptor has a mark. -/
def Legible : SymbolName → Prop
  | .localName _ => True
  | .globalName scheme package ds =>
      (∀ field ∈ [scheme, package.manager, package.name, package.version],
        Descriptor.Legible field) ∧ ∀ d ∈ ds, d.suffix ≠ .bare

instance : (name : SymbolName) → Decidable name.Legible
  | .localName _ => isTrue trivial
  | .globalName scheme package ds =>
      inferInstanceAs (Decidable ((∀ field ∈ [scheme, package.manager, package.name,
        package.version], Descriptor.Legible field) ∧ ∀ d ∈ ds, d.suffix ≠ .bare))

theorem toList_render_global (scheme : String) (package : PackageInfo) (ds : List Descriptor) :
    (globalName scheme package ds).render.toList =
      fields [scheme, package.manager, package.name, package.version] ++
        (String.join (ds.map Descriptor.render)).toList := by
  simp [render, fields, Descriptor.toList_escapeField]

/-- Every field is followed by a blank. -/
theorem length_le_count_fields (texts : List String) :
    texts.length ≤ (fields texts).count ' ' := by
  induction texts with
  | nil => exact Nat.zero_le _
  | cons text texts ih =>
      have split := congrArg (List.count ' ') (Descriptor.fields_cons text texts [])
      simp only [List.append_nil, List.count_append, List.count_cons_self] at split
      rw [split, List.length_cons]
      omega

theorem isDigit_of_mem_toString {n : Nat} {c : Char} (member : c ∈ (toString n).toList) :
    c.isDigit := by
  rw [Nat.toString_eq_ofList_toDigits, String.toList_ofList] at member
  exact Nat.isDigit_of_mem_toDigits (by decide) (by decide) member

theorem toString_negSucc (n : Nat) : toString (Int.negSucc n) = "-" ++ toString (n + 1) := rfl

/-- A number has no blank in it. -/
theorem count_toString (n : Int) : (toString n).toList.count ' ' = 0 := by
  have digits : ∀ m : Nat, (toString m).toList.count ' ' = 0 := fun m =>
    List.count_eq_zero.2 fun member => absurd (isDigit_of_mem_toString member) (by decide)
  cases n with
  | ofNat m => exact digits m
  | negSucc m =>
      rw [toString_negSucc, String.toList_append, List.count_append, digits]
      rfl

/-- Numbers with a sign are told apart by their texts. -/
theorem toString_inj {i j : Int} (h : toString i = toString j) : i = j := by
  have unsigned : ∀ m n : Nat, toString m ≠ "-" ++ toString (n + 1) := fun m n same =>
    absurd (isDigit_of_mem_toString (n := m) (c := '-') (by simp [same])) (by decide)
  cases i with
  | ofNat m =>
      cases j with
      | ofNat n => rw [Namer.toString_inj h]
      | negSucc n => exact absurd h (unsigned m n)
  | negSucc m =>
      cases j with
      | ofNat n => exact absurd h.symm (unsigned n m)
      | negSucc n =>
          rw [toString_negSucc, toString_negSucc] at h
          rw [Nat.succ.inj (Namer.toString_inj ((String.append_right_inj _).1 h))]

/-- A local symbol has one blank, a global one at least four. -/
theorem render_global_ne_local (scheme : String) (package : PackageInfo) (ds : List Descriptor)
    (number : Int) : (globalName scheme package ds).render ≠ (localName number).render := by
  intro same
  have blanks := congrArg (fun text : String => text.toList.count ' ') same
  have many := length_le_count_fields [scheme, package.manager, package.name, package.version]
  simp only [toList_render_global, List.count_append] at blanks
  simp only [render, String.toList_append, List.count_append, count_toString] at blanks
  have one : ("local ".toList).count ' ' = 1 := by decide
  rw [one] at blanks
  simp only [List.length_cons, List.length_nil] at many
  omega

/-- The fields of a legible global symbol, and then its descriptors, are read off its text: a blank
after the last field closes the text before the descriptors. -/
theorem render_global_inj {scheme scheme' : String} {package package' : PackageInfo}
    {ds ds' : List Descriptor} (legible : (globalName scheme package ds).Legible)
    (legible' : (globalName scheme' package' ds').Legible)
    (h : (globalName scheme package ds).render = (globalName scheme' package' ds').render) :
    globalName scheme package ds = globalName scheme' package' ds' := by
  have lists := congrArg String.toList h
  rw [toList_render_global, toList_render_global] at lists
  have four : [scheme, package.manager, package.name, package.version].length =
      [scheme', package'.manager, package'.name, package'.version].length := rfl
  obtain ⟨texts, chains⟩ := Descriptor.append_fields_inj four legible.1 legible'.1
    (Descriptor.head?_join_render ds) (Descriptor.head?_join_render ds') lists
  obtain ⟨rfl, managers, names, versions⟩ : scheme = scheme' ∧ package.manager = package'.manager ∧
      package.name = package'.name ∧ package.version = package'.version := by
    simpa using texts
  obtain rfl : package = package' := by
    cases package
    cases package'
    simp_all
  have closed : Descriptor.Closed " " := ⟨' ', [], rfl, by decide, by decide⟩
  rw [Descriptor.join_render_inj closed legible.2 legible'.2
    (congrArg (" " ++ ·) (String.toList_injective chains))]

/-- **The text of a symbol is unambiguous.**  Legible symbols have one text exactly if they are
one symbol, and no global symbol, legible or not, has the text of a local one. -/
theorem render_unambiguous :
    (∀ a b : SymbolName, a.Legible → b.Legible → (a.render = b.render ↔ a = b)) ∧
    ∀ (scheme : String) (package : PackageInfo) (ds : List Descriptor) (number : Int),
      (globalName scheme package ds).render ≠ (localName number).render := by
  refine ⟨fun a b legible legible' => ⟨fun same => ?_, congrArg render⟩, render_global_ne_local⟩
  cases a with
  | globalName scheme package ds =>
      cases b with
      | globalName scheme' package' ds' => exact render_global_inj legible legible' same
      | localName number => exact (render_global_ne_local _ _ _ _ same).elim
  | localName number =>
      cases b with
      | globalName scheme package ds => exact (render_global_ne_local _ _ _ _ same.symm).elim
      | localName number' => rw [toString_inj ((String.append_right_inj _).1 same)]

/-- Two names that need quotes, one below the other. -/
def quotedPair : SymbolName :=
  .globalName "gomod" { name := "a  b " } [⟨"x y", .term⟩, ⟨"z/w", .method⟩]

/-- One name with the quotes and the mark between those two in it. -/
def quotedOne : SymbolName :=
  .globalName "gomod" { name := "a  b " } [⟨"x y\x60.\x60z/w", .method⟩]

theorem render_unambiguous_quoted :
    quotedPair.Legible ∧ quotedOne.Legible ∧ quotedPair.render ≠ quotedOne.render ∧
      (localName (-1)).render ≠ (localName 1).render ∧
      quotedPair.render ≠ (localName 1).render := by
  have pair : quotedPair.Legible := by decide +kernel
  have one : quotedOne.Legible := by decide +kernel
  obtain ⟨legible, apart⟩ := render_unambiguous
  refine ⟨pair, one, fun same => ?_, fun same => ?_, apart _ _ _ _⟩
  · exact absurd ((legible quotedPair quotedOne pair one).1 same) (by decide)
  · exact absurd ((legible (localName (-1)) (localName 1) trivial trivial).1 same) (by decide)

end SymbolName
end SymbolAtlas
