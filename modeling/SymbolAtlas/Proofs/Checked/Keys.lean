/-
# SymbolAtlas.Proofs.Checked.Keys -- keys tell entities apart

A key is a text with bars between its parts, and the place at its end has a file that may contain
anything.  So the parts are cut off from the left up to the place, and the place is read from the
right: its line, its column and the number of a clause contain no colon.  If names and paths of
packages contain no bar (`Base.Legible`), entities with one key are alike in all that the key
mentions (`alike_of_entityKey`).
-/
import SymbolAtlas.Checked.Memory
import SymbolAtlas.Proofs.Naming.Decoding

set_option autoImplicit false

namespace SymbolAtlas.Checked

/-! ## Texts -/

section Texts

variable {c : Char} {xs xs' ys ys' : List Char}

/-- The first of two parts ends at the first separator. -/
theorem cut_front (free : c ∉ xs) (free' : c ∉ xs') (same : xs ++ c :: ys = xs' ++ c :: ys') :
    xs = xs' ∧ ys = ys' := by
  have all {zs : List Char} (free : c ∉ zs) : (zs.all fun d => d ≠ c) = true :=
    List.all_eq_true.2 fun d member => decide_eq_true fun same => free (same ▸ member)
  obtain ⟨first, rest⟩ := Descriptor.append_inj_of_all (all free) (all free') (by simp) (by simp) same
  exact ⟨first, (List.cons.inj rest).2⟩

/-- The second of two parts starts at the last separator. -/
theorem cut_back (free : c ∉ ys) (free' : c ∉ ys') (same : xs ++ c :: ys = xs' ++ c :: ys') :
    xs = xs' ∧ ys = ys' := by
  have turned := congrArg List.reverse same
  simp only [List.reverse_append, List.reverse_cons, List.append_assoc, List.singleton_append]
    at turned
  obtain ⟨second, first⟩ := cut_front (by simpa using free) (by simpa using free') turned
  exact ⟨List.reverse_inj.1 first, List.reverse_inj.1 second⟩

end Texts

/-! ## Places -/

theorem not_mem_toString {c : Char} (digit : c.isDigit = false) (n : Nat) :
    c ∉ (toString n).toList := fun member =>
  absurd (SymbolName.isDigit_of_mem_toString member) (by simp [digit])

/-- The number of a clause, as it stands behind a place. -/
def clauseMark (clause : Option Nat) : List Char :=
  match clause with
  | none => []
  | some i => '#' :: ("case".toList ++ (toString i).toList)

theorem not_mem_clauseMark (clause : Option Nat) : ':' ∉ clauseMark clause := by
  cases clause with
  | none => exact List.not_mem_nil
  | some i =>
      have number := not_mem_toString (c := ':') (by decide) i
      simp only [clauseMark, List.mem_cons, List.mem_append, not_or]
      exact ⟨by decide, by decide, number⟩

/-- A column is read up to the mark of the clause. -/
theorem column_inj {column column' : Nat} {clause clause' : Option Nat}
    (same : (toString column).toList ++ clauseMark clause =
      (toString column').toList ++ clauseMark clause') : column = column' ∧ clause = clause' := by
  have free (n : Nat) : '#' ∉ (toString n).toList := not_mem_toString (by decide) n
  cases clause with
  | none =>
      rw [clauseMark, List.append_nil] at same
      cases clause' with
      | none =>
          rw [clauseMark, List.append_nil] at same
          exact ⟨Namer.toString_inj (String.toList_injective same), rfl⟩
      | some i => exact absurd (same ▸ by simp [clauseMark]) (free column)
  | some i =>
      cases clause' with
      | none =>
          rw [clauseMark.eq_1, List.append_nil] at same
          exact absurd (same ▸ by simp [clauseMark]) (free column')
      | some j =>
          obtain ⟨first, second⟩ := cut_front (free column) (free column') same
          exact ⟨Namer.toString_inj (String.toList_injective first),
            congrArg some (Namer.toString_inj
              (String.toList_injective (List.append_cancel_left second)))⟩

/-- **A place is read from the right**, whatever its file is called. -/
theorem place_inj {p p' : Place} {clause clause' : Option Nat}
    (same : p.render.toList ++ clauseMark clause = p'.render.toList ++ clauseMark clause') :
    (p.file = p'.file ∧ p.line = p'.line ∧ p.column = p'.column) ∧ clause = clause' := by
  have parts (p : Place) (clause : Option Nat) : p.render.toList ++ clauseMark clause =
      (p.file.toList ++ ':' :: (toString p.line).toList) ++
        ':' :: ((toString p.column).toList ++ clauseMark clause) := by
    simp [Place.render]
  have free (p : Place) (clause : Option Nat) :
      ':' ∉ (toString p.column).toList ++ clauseMark clause := by
    rw [List.mem_append, not_or]
    exact ⟨not_mem_toString (by decide) _, not_mem_clauseMark clause⟩
  rw [parts, parts] at same
  obtain ⟨before, behind⟩ := cut_back (free p clause) (free p' clause') same
  obtain ⟨file, line⟩ := cut_back (not_mem_toString (by decide) _) (not_mem_toString (by decide) _)
    before
  obtain ⟨column, clause⟩ := column_inj behind
  exact ⟨⟨String.toList_injective file, Namer.toString_inj (String.toList_injective line), column⟩,
    clause⟩

/-! ## Keys -/

variable {b : Base} {e e' : Entity} {clause clause' : Option Nat}

/-- The name of an entity and the path of its package contain nothing that separates parts. -/
structure Base.Legible (b : Base) (e : Entity) : Prop where
  name : '|' ∉ e.name.toList
  path : ∀ package, e.package = some package → '|' ∉ (b.facts.package package).path.toList

/-- Entities, with the clauses that declare them, agree in all that keys mention. -/
inductive Base.Alike (b : Base) (e : Entity) (clause : Option Nat) (e' : Entity)
    (clause' : Option Nat) : Prop where
  | predeclared (first : e.package = none) (second : e'.package = none)
      (name : b.facts.universeName e = b.facts.universeName e')
  | declared {package package' : PackageId} (first : e.package = some package)
      (second : e'.package = some package') (tag : e.tag = e'.tag)
      (path : (b.facts.package package).path = (b.facts.package package').path)
      (name : e.name = e'.name)
      (place : (b.placeOf e).file = (b.placeOf e').file ∧
        (b.placeOf e).line = (b.placeOf e').line ∧ (b.placeOf e).column = (b.placeOf e').column)
      (clause : clause = clause')

theorem not_mem_tag (e : Entity) : '|' ∉ e.tag.toList ∧ e.tag ≠ "universe" := by
  unfold Entity.tag
  split <;> decide

theorem toList_entityKey_none (undeclared : e.package = none) :
    (b.entityKey e clause).toList = "universe".toList ++ '|' :: (b.facts.universeName e).toList := by
  simp [Base.entityKey, undeclared]

theorem toList_entityKey_some {package : PackageId} (declared : e.package = some package) :
    (b.entityKey e clause).toList = e.tag.toList ++ '|' :: ((b.facts.package package).path.toList ++
      '|' :: (e.name.toList ++ '|' :: ((b.placeOf e).render.toList ++ clauseMark clause))) := by
  cases clause <;> simp [Base.entityKey, declared, clauseMark]

/-- **Entities with one key are alike.** -/
theorem alike_of_entityKey (legible : b.Legible e) (legible' : b.Legible e')
    (same : b.entityKey e clause = b.entityKey e' clause') : b.Alike e clause e' clause' := by
  have same := congrArg String.toList same
  have own (e : Entity) := (not_mem_tag e).1
  have apart (e : Entity) : "universe".toList ≠ e.tag.toList := fun same =>
    (not_mem_tag e).2 (String.toList_injective same).symm
  cases first : e.package with
  | none =>
      rw [toList_entityKey_none first] at same
      cases second : e'.package with
      | none =>
          rw [toList_entityKey_none second] at same
          obtain ⟨-, name⟩ := cut_front (by decide) (by decide) same
          exact .predeclared first second (String.toList_injective name)
      | some package' =>
          rw [toList_entityKey_some second] at same
          exact absurd (cut_front (by decide) (own e') same).1 (apart e')
  | some package =>
      rw [toList_entityKey_some first] at same
      cases second : e'.package with
      | none =>
          rw [toList_entityKey_none second] at same
          exact absurd (cut_front (own e) (by decide) same).1.symm (apart e)
      | some package' =>
          rw [toList_entityKey_some second] at same
          obtain ⟨tag, same⟩ := cut_front (own e) (own e') same
          obtain ⟨path, same⟩ := cut_front (legible.path _ first) (legible'.path _ second) same
          obtain ⟨name, same⟩ := cut_front legible.name legible'.name same
          obtain ⟨place, clause⟩ := place_inj same
          exact .declared first second (String.toList_injective tag) (String.toList_injective path)
            (String.toList_injective name) place clause

end SymbolAtlas.Checked
