/-
# SymbolAtlas.Proofs.Session.Containers -- the containers around a node come to an end

To name a node one climbs the nodes that it is attached to, and to confine it one climbs its
parents.  Nothing in a session keeps either way from going round in a circle; that it does not is
part of what an oracle promises: `Oracle.Acyclic` says that every step up lowers a rank, and that
the size which the oracle states bounds the ranks.

Then both climbs get to the top (`Oracle.Acyclic.resolves`, `Oracle.Acyclic.confines`), and with
more fuel they say the same (`Namer.resolveWith_of_le`, `inBlock?_of_le`).  Where the containers
do go round in a circle, no fuel is enough (`Namer.resolveWith_endless`).
-/
import SymbolAtlas.Session.Symbols
import SymbolAtlas.Sketch

set_option autoImplicit false

namespace SymbolAtlas

/-! ## Steps up -/

/-- Steps up that lower a rank which is at most `size`. -/
def Bounded (size : Nat) (up : NodeId → NodeId → Prop) : Prop :=
  ∃ rank : NodeId → Nat, ∀ id, rank id ≤ size ∧ ∀ above, up id above → rank above < rank id

theorem Bounded.mono {size : Nat} {up up' : NodeId → NodeId → Prop} (h : Bounded size up)
    (fewer : ∀ id above, up' id above → up id above) : Bounded size up' := by
  obtain ⟨rank, lower⟩ := h
  exact ⟨rank, fun id => ⟨(lower id).1, fun above here => (lower id).2 above (fewer id above here)⟩⟩

namespace Oracle

variable {μ : Type}

/-- At some time `above` is the parent of a node. -/
def HasParent (o : Oracle μ) (id above : NodeId) : Prop :=
  ∃ m, (o.node id m).parent = some above

/-- At some time `above` is what a node is attached to, or the package clause of a file. -/
def HasContainer (o : Oracle μ) (id above : NodeId) : Prop :=
  ∃ m, (o.owner id m).1 = some above ∨
    (o.node id m).kind = .package ∧ (o.node id m).parent = some above

/-- Parents and containers come to an end, as soon as the size that the oracle states says. -/
structure Acyclic (o : Oracle μ) : Prop where
  parents : Bounded o.size o.HasParent
  containers : Bounded o.size o.HasContainer

end Oracle

/-! ## Naming -/

namespace Namer

variable {μ : Type} {o : Oracle μ}

theorem derive_ok {resolve : Option NodeId → Namer → Climbing μ (Resolved × Namer)} {id : NodeId}
    {node : Node} {m : μ} (same : node = o.node id m) (n : Namer)
    (spec : ∀ start, (∀ above ∈ start, o.HasContainer id above) → ∀ n m,
      ∃ answer m', resolve start n m = (.ok answer, m')) :
    ∃ answer m', n.derive o resolve id node m = (.ok answer, m') := by
  subst same
  have attached := spec (o.owner id m).1 (fun above here => ⟨m, .inl here⟩) n (o.owner id m).2
  rw [derive_eq]
  split
  · obtain ⟨⟨container, n'⟩, m', resolved⟩ := attached
    rw [resolved]
    exact ⟨_, _, rfl⟩
  · split
    · exact ⟨_, _, rfl⟩
    · rename_i kind
      exact spec _ (fun above here => ⟨m, .inr ⟨kind, here⟩⟩) n m
    · exact attached
    · exact ⟨_, _, rfl⟩
    · exact ⟨_, _, rfl⟩
    · exact ⟨_, _, rfl⟩

/-- A node whose rank is less than the fuel is resolved. -/
theorem resolveWith_ok {rank : NodeId → Nat}
    (lower : ∀ id above, o.HasContainer id above → rank above < rank id) (fuel : Nat)
    {start : Option NodeId} (enough : ∀ id ∈ start, rank id < fuel) (n : Namer) (m : μ) :
    ∃ answer m', resolveWith o fuel start n m = (.ok answer, m') := by
  induction fuel generalizing start n m with
  | zero =>
      cases start with
      | none => exact ⟨_, _, rfl⟩
      | some id => exact absurd (enough id rfl) (Nat.not_lt_zero _)
  | succ fuel ih =>
      cases start with
      | none => exact ⟨_, _, rfl⟩
      | some id =>
          rw [resolveWith_succ]
          cases n.memo.get? id with
          | some r => exact ⟨_, _, rfl⟩
          | none =>
              have here := enough id rfl
              obtain ⟨⟨r, n'⟩, m', derived⟩ := derive_ok (m := m) rfl n fun start up n m =>
                ih (fun above member => by have := lower id above (up above member); omega) n m
              rw [derived]
              exact ⟨_, _, rfl⟩

/-- What derives an answer with one way to resolve containers derives it with another one that
gives at least the same answers. -/
theorem derive_mono {resolve resolve' : Option NodeId → Namer → Climbing μ (Resolved × Namer)}
    (more : ∀ start n m answer m', resolve start n m = (.ok answer, m') →
      resolve' start n m = (.ok answer, m'))
    {id : NodeId} {node : Node} {n : Namer} {m m' : μ} {answer : Resolved × Namer}
    (derived : n.derive o resolve id node m = (.ok answer, m')) :
    n.derive o resolve' id node m = (.ok answer, m') := by
  rw [derive_eq] at derived ⊢
  split at derived
  · split at derived
    · rename_i resolved
      rw [more _ _ _ _ _ resolved]
      exact derived
    · cases (Prod.mk.inj derived).1
  · split at derived
    · exact derived
    · exact more _ _ _ _ _ derived
    · exact more _ _ _ _ _ derived
    · exact derived
    · exact derived
    · exact derived

/-- **With more fuel a node is resolved to the same.** -/
theorem resolveWith_of_le {fuel more : Nat} (enough : fuel ≤ more) {start : Option NodeId}
    {n : Namer} {m m' : μ} {answer : Resolved × Namer}
    (resolved : resolveWith o fuel start n m = (.ok answer, m')) :
    resolveWith o more start n m = (.ok answer, m') := by
  induction fuel generalizing more start n m m' answer with
  | zero =>
      cases start with
      | none => cases more <;> exact resolved
      | some id => cases (Prod.mk.inj resolved).1
  | succ fuel ih =>
      obtain ⟨more, rfl⟩ : ∃ k, more = k + 1 := ⟨more - 1, by omega⟩
      cases start with
      | none => exact resolved
      | some id =>
          rw [resolveWith_succ] at resolved ⊢
          cases known : n.memo.get? id with
          | some r =>
              rw [known] at resolved
              exact resolved
          | none =>
              simp only [known] at resolved
              split at resolved
              · rename_i derived
                rw [derive_mono (fun _ _ _ _ _ => ih (by omega)) derived]
                exact resolved
              · cases (Prod.mk.inj resolved).1

/-- **Where declarations are attached to each other without end, no fuel is enough** to resolve
one of them. -/
theorem resolveWith_endless {up : Nat → NodeId}
    (declared : ∀ i m, (suffix? (o.node (up i) m).kind).isSome = true)
    (attached : ∀ i m, (o.owner (up i) m).1 = some (up (i + 1))) {n : Namer}
    (new : ∀ i, n.memo.get? (up i) = none) (fuel i : Nat) (m : μ) :
    (resolveWith o fuel (some (up i)) n m).1 = .error {} := by
  induction fuel generalizing i m with
  | zero => rfl
  | succ fuel ih =>
      obtain ⟨suffix, kind⟩ := Option.isSome_iff_exists.1 (declared i m)
      have above := ih (i + 1) (o.owner (up i) m).2
      rw [resolveWith_succ, new i, derive_eq, kind]
      simp only [attached i m]
      generalize resolveWith o fuel (some (up (i + 1))) n (o.owner (up i) m).2 = result at above ⊢
      obtain ⟨e | answer, m'⟩ := result
      · exact above
      · cases above

end Namer

section Acyclic

variable {μ : Type} {o : Oracle μ}

/-- **Every node is resolved**, and it is resolved to the same with more fuel. -/
theorem Oracle.Acyclic.resolves (acyclic : o.Acyclic) (start : Option NodeId) (n : Namer)
    (m : μ) : ∃ answer m', ∀ fuel, o.size < fuel →
      Namer.resolveWith o fuel start n m = (.ok answer, m') := by
  obtain ⟨rank, lower⟩ := acyclic.containers
  obtain ⟨answer, m', resolved⟩ : ∃ answer m',
      Namer.resolveWith o (o.size + 1) start n m = (.ok answer, m') :=
    Namer.resolveWith_ok (fun id => (lower id).2) _ (fun id _ => Nat.lt_succ_of_le (lower id).1) n m
  exact ⟨answer, m', fun fuel enough => Namer.resolveWith_of_le enough resolved⟩

/-- Every symbol has a name. -/
theorem Oracle.Acyclic.names (acyclic : o.Acyclic) (declarations : List NodeId) (n : Namer)
    (m : μ) : ∃ answer m', n.nameFirst? o declarations m = (.ok answer, m') := by
  cases declarations with
  | nil => exact ⟨_, _, rfl⟩
  | cons first rest =>
      obtain ⟨answer, m', resolved⟩ := acyclic.resolves (some first) n m
      show ∃ answer m', n.nameOf? o (some first) m = (.ok answer, m')
      rw [Namer.nameOf?_eq, resolved _ (Nat.lt_succ_self _)]
      rcases answer with ⟨_ | name, n'⟩ <;> exact ⟨_, _, rfl⟩

end Acyclic

/-! ## Confining -/

namespace Session

variable {μ ω : Type} {c : Context μ ω} {memory : μ}

/-- A node whose rank is less than the fuel is in a block or not. -/
theorem isSome_inBlock? {rank : NodeId → Nat}
    (lower : ∀ id above, c.oracle.HasParent id above → rank above < rank id) (fuel : Nat)
    {start : Option NodeId} (enough : ∀ id ∈ start, rank id < fuel) :
    (inBlock? c memory fuel start).isSome = true := by
  induction fuel generalizing start with
  | zero =>
      cases start with
      | none => rfl
      | some id => exact absurd (enough id rfl) (Nat.not_lt_zero _)
  | succ fuel ih =>
      cases start with
      | none => rfl
      | some id =>
          rw [inBlock?]
          split
          · rfl
          · rfl
          · have here := enough id rfl
            refine ih fun above member => ?_
            have := lower id above ⟨memory, member⟩
            omega

/-- With more fuel it is the same. -/
theorem inBlock?_of_le {fuel more : Nat} (enough : fuel ≤ more) {start : Option NodeId}
    {inside : Bool} (found : inBlock? c memory fuel start = some inside) :
    inBlock? c memory more start = some inside := by
  induction fuel generalizing more start with
  | zero =>
      cases start with
      | none => cases more <;> exact found
      | some id => cases found
  | succ fuel ih =>
      obtain ⟨more, rfl⟩ : ∃ k, more = k + 1 := ⟨more - 1, by omega⟩
      cases start with
      | none => exact found
      | some id =>
          rw [inBlock?] at found ⊢
          cases kind : (c.oracle.node id memory).kind with
          | block => simpa only [kind] using found
          | file => simpa only [kind] using found
          | _ =>
              simp only [kind] at found ⊢
              exact ih (by omega) found

theorem isSome_areConfined? (acyclic : c.oracle.Acyclic) (file : String)
    (declarations : List Node) : (areConfined? c memory file declarations).isSome = true := by
  obtain ⟨rank, lower⟩ := acyclic.parents
  induction declarations with
  | nil => rfl
  | cons d rest ih =>
      have found : (isConfined? c memory d).isSome = true := by
        unfold isConfined?
        split
        · rfl
        · rfl
        · exact isSome_inBlock? (fun id => (lower id).2) _
            fun id _ => Nat.lt_succ_of_le (lower id).1
      obtain ⟨confined, found⟩ := Option.isSome_iff_exists.1 found
      rw [areConfined?]
      split
      · rfl
      · cases confined
        · simp [found]
        · simpa [found] using ih

end Session

/-! ## Sketches -/

namespace Sketch

/-- What a node of a sketch is attached to is older than the node. -/
def IsDownward (s : Sketch) : Prop :=
  ∀ i : Fin s.nodes.size, ∀ above ∈ s.nodes[i].node.parent.toList ++ s.nodes[i].owner.toList,
    above.index < i

instance (s : Sketch) : Decidable s.IsDownward := inferInstanceAs (Decidable (∀ _ : Fin _, _))

theorem bounded_of_isDownward {s : Sketch} (downward : s.IsDownward)
    {up : NodeId → NodeId → Prop}
    (attached : ∀ id above, up id above → ∃ bound : id.index < s.nodes.size,
      above ∈ s.nodes[id.index].node.parent.toList ++ s.nodes[id.index].owner.toList) :
    Bounded s.oracle.size up := by
  refine ⟨fun id => min id.index s.nodes.size, fun id => ⟨?_, fun above here => ?_⟩⟩
  · show min id.index s.nodes.size ≤ s.nodes.size + s.symbols.size + 1
    omega
  · obtain ⟨bound, member⟩ := attached id above here
    have older : above.index < id.index := downward ⟨id.index, bound⟩ above member
    show min above.index s.nodes.size < min id.index s.nodes.size
    omega

/-- A sketch that is drawn from the top down is acyclic. -/
theorem acyclic_of_isDownward {s : Sketch} (downward : s.IsDownward) : s.oracle.Acyclic := by
  have parent : ∀ id above, (s.node id).parent = some above →
      ∃ bound : id.index < s.nodes.size, s.nodes[id.index].node.parent = some above := by
    intro id above here
    unfold Sketch.node at here
    by_cases bound : id.index < s.nodes.size
    · rw [Array.getElem?_eq_getElem bound] at here
      exact ⟨bound, here⟩
    · rw [Array.getElem?_eq_none (Nat.le_of_not_lt bound)] at here
      cases here
  constructor
  · refine bounded_of_isDownward downward ?_
    rintro id above ⟨m, here⟩
    obtain ⟨bound, here⟩ := parent id above here
    exact ⟨bound, by simp [here]⟩
  · refine bounded_of_isDownward downward ?_
    rintro id above ⟨m, owner | ⟨-, here⟩⟩
    · have owner : s.ownerOf id = some above := owner
      unfold Sketch.ownerOf at owner
      split at owner
      · cases owner
      · rename_i n found
        obtain ⟨bound, rfl⟩ := Array.getElem?_eq_some_iff.1 found
        refine ⟨bound, ?_⟩
        rcases Option.or_eq_some_iff.1 owner with own | ⟨-, up⟩
        · simp [own]
        · simp [up]
    · obtain ⟨bound, here⟩ := parent id above here
      exact ⟨bound, by simp [here]⟩

end Sketch
end SymbolAtlas
