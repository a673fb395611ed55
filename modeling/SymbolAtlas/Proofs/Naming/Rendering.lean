/-
# SymbolAtlas.Proofs.Naming.Rendering -- the last descriptor can be read off a text

The text of a symbol is that of its container and one descriptor more.  Read from the
right, the descriptor comes first: its mark, then either plain characters or a name
between back quotes.  The text of the container ends where plain characters end or the
quotes close, because it ends in a mark itself (`Closed`).

So a text with one more descriptor determines both (`append_render_inj`).
-/
import SymbolAtlas.Descriptor

set_option autoImplicit false

namespace SymbolAtlas.Descriptor

/-! ## Characters -/

@[simp] theorem isPlain_quote : isPlain '\x60' = false := by decide

theorem double_append (mark : Char) (xs ys : List Char) :
    double mark (xs ++ ys) = double mark xs ++ double mark ys := by
  induction xs with
  | nil => rfl
  | cons x xs ih =>
      simp only [List.cons_append, double, ih]
      split <;> rfl

theorem reverse_double (mark : Char) (xs : List Char) :
    (double mark xs).reverse = double mark xs.reverse := by
  induction xs with
  | nil => rfl
  | cons x xs ih =>
      rw [List.reverse_cons, double_append, ← ih]
      simp only [double]
      split <;> simp

/-- Where marks are doubled, the first single one ends the name. -/
theorem double_append_inj {mark : Char} {xs ys rest rest' : List Char}
    (single : rest.head? ≠ some mark) (single' : rest'.head? ≠ some mark)
    (h : double mark xs ++ mark :: rest = double mark ys ++ mark :: rest') :
    xs = ys ∧ rest = rest' := by
  induction xs generalizing ys with
  | nil =>
      cases ys with
      | nil => exact ⟨rfl, (List.cons.inj h).2⟩
      | cons y ys =>
          simp only [double] at h
          split at h
          · simp [(List.cons.inj h).2] at single
          · exact absurd (List.cons.inj h).1.symm ‹_›
  | cons x xs ih =>
      cases ys with
      | nil =>
          simp only [double] at h
          split at h
          · simp [← (List.cons.inj h).2] at single'
          · exact absurd (List.cons.inj h).1 ‹_›
      | cons y ys =>
          simp only [double] at h
          split at h <;> split at h
          · obtain ⟨-, tail⟩ := List.cons.inj h
            obtain ⟨rfl, same⟩ := ih (List.cons.inj tail).2
            exact ⟨by simp_all, same⟩
          · exact absurd (List.cons.inj h).1.symm ‹_›
          · exact absurd (List.cons.inj h).1 ‹_›
          · obtain ⟨rfl, tail⟩ := List.cons.inj h
            obtain ⟨rfl, same⟩ := ih tail
            exact ⟨rfl, same⟩

/-- Where a run of characters of one sort ends, it ends. -/
theorem append_inj_of_all {p : Char → Bool} {xs ys : List Char} {c d : Char}
    {rest rest' : List Char} (all : xs.all p) (all' : ys.all p) (stop : p c = false)
    (stop' : p d = false) (h : xs ++ c :: rest = ys ++ d :: rest') :
    xs = ys ∧ c :: rest = d :: rest' := by
  induction xs generalizing ys with
  | nil =>
      cases ys with
      | nil => exact ⟨rfl, h⟩
      | cons y ys =>
          obtain ⟨rfl, -⟩ := List.cons.inj h
          simp [stop] at all'
  | cons x xs ih =>
      simp only [List.all_cons, Bool.and_eq_true] at all
      cases ys with
      | nil =>
          obtain ⟨rfl, -⟩ := List.cons.inj h
          simp [stop'] at all
      | cons y ys =>
          simp only [List.all_cons, Bool.and_eq_true] at all'
          obtain ⟨rfl, tail⟩ := List.cons.inj h
          obtain ⟨rfl, same⟩ := ih all.2 all'.2 tail
          exact ⟨rfl, same⟩

/-! ## Texts from the right -/

/-- The text ends in a character that no name ends in. -/
def Closed (text : String) : Prop :=
  ∃ c rest, text.toList.reverse = c :: rest ∧ isPlain c = false ∧ c ≠ '\x60'

/-- A name from the right: plain characters, or quotes around it. -/
theorem reverse_escapeName (name : String) :
    (∃ c rest, (escapeName name).toList.reverse = c :: rest ∧ name.toList.reverse = c :: rest ∧
      (c :: rest).all isPlain) ∨
    (escapeName name).toList.reverse =
      '\x60' :: (double '\x60' name.toList.reverse ++ ['\x60']) := by
  unfold escapeName
  split
  · rename_i plain
    left
    cases reversed : name.toList.reverse with
    | nil =>
        have : name = "" := by simpa using reversed
        exact absurd this plain.1
    | cons c rest =>
        refine ⟨c, rest, rfl, rfl, ?_⟩
        rw [← reversed, List.all_reverse]
        exact plain.2
  · right
    simp [reverse_double]

/-- A text and a name after it determine both. -/
theorem append_escapeName_inj {text text' name name' : String} (closed : Closed text)
    (closed' : Closed text') (h : text ++ escapeName name = text' ++ escapeName name') :
    text = text' ∧ name = name' := by
  obtain ⟨c, rest, last, stop, unquoted⟩ := closed
  obtain ⟨c', rest', last', stop', unquoted'⟩ := closed'
  have reversed := congrArg (fun t : String => t.toList.reverse) h
  simp only [String.toList_append, List.reverse_append, last, last'] at reversed
  have texts : c :: rest = c' :: rest' → text = text' := fun same =>
    String.toList_injective (List.reverse_inj.1 (last.trans (same.trans last'.symm)))
  have names : name.toList.reverse = name'.toList.reverse → name = name' := fun same =>
    String.toList_injective (List.reverse_inj.1 same)
  rcases reverse_escapeName name with ⟨d, plain, shape, own, all⟩ | shape <;>
    rcases reverse_escapeName name' with ⟨d', plain', shape', own', all'⟩ | shape'
  · rw [shape, shape'] at reversed
    obtain ⟨same, same'⟩ := append_inj_of_all all all' stop stop' reversed
    exact ⟨texts same', names (own.trans (same.trans own'.symm))⟩
  · rw [shape, shape'] at reversed
    simp [(List.cons.inj reversed).1] at all
  · rw [shape, shape'] at reversed
    simp [← (List.cons.inj reversed).1] at all'
  · rw [shape, shape'] at reversed
    simp only [List.cons_append, List.append_assoc, List.nil_append, List.cons.injEq, true_and]
      at reversed
    obtain ⟨same, same'⟩ := double_append_inj (by simpa using unquoted) (by simpa using unquoted')
      reversed
    exact ⟨texts same', names same⟩

/-- A name ends in a plain character or in a quote. -/
theorem last_escapeName (text name : String) :
    ∃ c rest, (text ++ escapeName name).toList.reverse = c :: rest ∧
      (isPlain c = true ∨ c = '\x60') := by
  rw [String.toList_append, List.reverse_append]
  rcases reverse_escapeName name with ⟨c, rest, shape, -, all⟩ | shape
  · rw [shape]
    simp only [List.all_cons, Bool.and_eq_true] at all
    exact ⟨c, _, rfl, .inl all.1⟩
  · rw [shape]
    exact ⟨_, _, rfl, .inr rfl⟩

/-- The mark at the end of a text can be told from the name before it. -/
theorem append_mark_inj {text text' : String} {suffix suffix' : Suffix} {c c' : Char}
    {rest rest' : List Char} (marked : suffix ≠ .bare) (marked' : suffix' ≠ .bare)
    (last : text.toList.reverse = c :: rest) (last' : text'.toList.reverse = c' :: rest')
    (inside : isPlain c = true ∨ c = '\x60') (inside' : isPlain c' = true ∨ c' = '\x60')
    (h : text ++ suffix.mark = text' ++ suffix'.mark) : text = text' ∧ suffix = suffix' := by
  have reversed := congrArg (fun t : String => t.toList.reverse) h
  simp only [String.toList_append, List.reverse_append, last, last'] at reversed
  have same : suffix = suffix' := by
    cases suffix <;> cases suffix' <;> simp [Suffix.mark] at reversed marked marked' ⊢
    · exact absurd inside (by rw [reversed.1]; decide)
    · exact absurd inside' (by rw [← reversed.1]; decide)
  subst same
  refine ⟨String.toList_injective (List.reverse_inj.1 ?_), rfl⟩
  rw [last, last']
  exact List.append_cancel_left reversed

/-- **A text and a descriptor after it determine both.** -/
theorem append_render_inj {text text' : String} {d d' : Descriptor} (closed : Closed text)
    (closed' : Closed text') (marked : d.suffix ≠ .bare) (marked' : d'.suffix ≠ .bare)
    (h : text ++ d.render = text' ++ d'.render) : text = text' ∧ d = d' := by
  obtain ⟨name, suffix⟩ := d
  obtain ⟨name', suffix'⟩ := d'
  simp only [render, ← String.append_assoc] at h
  obtain ⟨c, rest, last, inside⟩ := last_escapeName text name
  obtain ⟨c', rest', last', inside'⟩ := last_escapeName text' name'
  obtain ⟨same, rfl⟩ := append_mark_inj marked marked' last last' inside inside' h
  obtain ⟨rfl, rfl⟩ := append_escapeName_inj closed closed' same
  exact ⟨rfl, rfl⟩

theorem closed_append_render (text : String) {d : Descriptor} (marked : d.suffix ≠ .bare) :
    Closed (text ++ d.render) := by
  obtain ⟨name, suffix⟩ := d
  unfold Closed render
  simp only [String.toList_append, List.reverse_append]
  cases suffix with
  | bare => exact absurd rfl marked
  | _ => exact ⟨_, _, rfl, by decide, by decide⟩

end SymbolAtlas.Descriptor
