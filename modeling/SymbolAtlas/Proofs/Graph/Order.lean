/-
# SymbolAtlas.Proofs.Graph.Order -- what stands behind what in a stream

A consumer that reads a stream once may rely on its order: after an edge that closes
something, nothing about it comes any more.  `NeverAfter P Q` says so for two sorts of
elements, and `Consecutive P` that the elements of one sort stand side by side.  Both are
kept by elements of another sort (`NeverAfter.append`, `Consecutive.append`).
-/
import SymbolAtlas.Proofs.Graph.WellFormed

set_option autoImplicit false

namespace SymbolAtlas.Graph

/-- The range of an occurrence in a document. -/
def Body.RangeIn (document : Id) : Body → Prop
  | .range r => r.document = document
  | _ => False

/-- The range of an occurrence of a symbol. -/
def Body.RangeOf (resultSet : Id) : Body → Prop
  | .range r => r.resultSet = resultSet
  | _ => False

/-- An item edge of any symbol. -/
def Body.IsItem : Body → Prop
  | .item _ => True
  | _ => False

/-- An item edge of a symbol. -/
def Body.ItemOf (resultSet : Id) : Body → Prop
  | .item i => i.outV = resultSet
  | _ => False

/-- The edge from a document or a project to its parts. -/
def Body.ListsFrom (outV : Id) : Body → Prop
  | .contains v _ => v = outV
  | _ => False

/-- An item edge is one of one symbol. -/
theorem Body.ItemOf.unique {body : Body} {first second : Id} (h : body.ItemOf first)
    (h' : body.ItemOf second) : first = second := by
  cases body with
  | item i => exact h.symm.trans h'
  | _ => exact absurd h (fun none => none)

theorem Body.ItemOf.not_rangeOf {body : Body} {first second : Id} (h : body.ItemOf first) :
    ¬ body.RangeOf second := by
  cases body with
  | item i => exact fun none => none
  | _ => exact absurd h (fun none => none)

/-- No element with `Q` stands behind one with `P`. -/
def NeverAfter (P Q : Body → Prop) (stream : List Element) : Prop :=
  stream.Pairwise fun e later => P e.body → ¬ Q later.body

/-- The elements with `P` stand side by side. -/
def Consecutive (P : Body → Prop) (stream : List Element) : Prop :=
  ∃ before block after, stream = before ++ block ++ after ∧ (∀ e ∈ before, ¬ P e.body) ∧
    (∀ e ∈ block, P e.body) ∧ ∀ e ∈ after, ¬ P e.body

variable {P Q : Body → Prop} {stream more : List Element}

/-- Nothing with `Q` stands behind what has no `P`. -/
theorem neverAfter_of_none (none : ∀ e ∈ stream, ¬ P e.body) : NeverAfter P Q stream :=
  List.pairwise_of_forall_mem_list fun e member _ _ has => absurd has (none e member)

theorem neverAfter_of_last (none : ∀ e ∈ stream, ¬ Q e.body) : NeverAfter P Q stream :=
  List.pairwise_of_forall_mem_list fun _ _ e member _ => none e member

theorem neverAfter_append :
    NeverAfter P Q (stream ++ more) ↔ NeverAfter P Q stream ∧ NeverAfter P Q more ∧
      ∀ e ∈ stream, ∀ later ∈ more, P e.body → ¬ Q later.body :=
  List.pairwise_append

/-- Elements without `Q` may be added. -/
theorem NeverAfter.append (h : NeverAfter P Q stream) (other : ∀ e ∈ more, ¬ Q e.body) :
    NeverAfter P Q (stream ++ more) :=
  neverAfter_append.2 ⟨h, neverAfter_of_last other, fun _ _ e member _ => other e member⟩

/-- Anything may be added to what has no `P`, as long as the addition keeps the order. -/
theorem NeverAfter.append_of_none (none : ∀ e ∈ stream, ¬ P e.body) (h : NeverAfter P Q more) :
    NeverAfter P Q (stream ++ more) :=
  neverAfter_append.2 ⟨neverAfter_of_none none, h, fun e member _ _ has =>
    absurd has (none e member)⟩

theorem consecutive_of_none (none : ∀ e ∈ stream, ¬ P e.body) : Consecutive P stream :=
  ⟨stream, [], [], by simp, none, by simp, by simp⟩

/-- Elements without `P` may be added. -/
theorem Consecutive.append (h : Consecutive P stream) (other : ∀ e ∈ more, ¬ P e.body) :
    Consecutive P (stream ++ more) := by
  obtain ⟨before, block, after, split, first, middle, last⟩ := h
  refine ⟨before, block, after ++ more, by simp [split], first, middle, fun e member => ?_⟩
  rcases List.mem_append.1 member with old | new
  · exact last e old
  · exact other e new

/-- Elements with `P` may be added where there was none. -/
theorem consecutive_append_of_none (none : ∀ e ∈ stream, ¬ P e.body)
    (all : ∀ e ∈ more, P e.body) : Consecutive P (stream ++ more) :=
  ⟨stream, more, [], by simp, none, all, by simp⟩

/-! ## What reading a stream says about its order -/

theorem not_itemOf_of_nil {resultSet : Id} (none : itemsFrom resultSet stream = []) :
    ∀ e ∈ stream, ¬ e.body.ItemOf resultSet := by
  rintro ⟨id, body⟩ member has
  cases body with
  | item i =>
      have inside : i ∈ itemsFrom resultSet stream := mem_itemsFrom.2 ⟨has, id, member⟩
      simp [none] at inside
  | _ => exact has

theorem not_listsFrom_of_nil {outV : Id} (none : listingsOf outV stream = []) :
    ∀ e ∈ stream, ¬ e.body.ListsFrom outV := by
  rintro ⟨id, body⟩ member has
  cases body with
  | contains v inVs =>
      obtain rfl : v = outV := has
      have inside : inVs ∈ listingsOf v stream := mem_listingsOf.2 ⟨id, member⟩
      simp [none] at inside
  | _ => exact has

end SymbolAtlas.Graph
