/-
# SymbolAtlas.Proofs.Session.Requests -- what a request for a node is made of

A request for the node of a symbol establishes symbols and ties their nodes together.  A
relation between states that is kept by both holds across the whole request, however deep it
goes (`Requesting.symbolNode`): the induction on the depth is made here, and every later fact
about requests is an instance.  What a request leads to is what the nodes are linked to
(`State.Leads`).

What ties nodes together makes none and leaves the monikers alone (`Linking`).
-/
import SymbolAtlas.Proofs.Session.Visits

set_option autoImplicit false

namespace SymbolAtlas.Session

variable {μ ω : Type} {c : Context μ ω} {use : Option NodeId}

/-- A move that ties a node to others or to its document: no node is made, and all keep their
monikers. -/
structure Linking (c : Context μ ω) (s s' : State μ ω) : Prop where
  move : Move c s s'
  same : ∀ key, s'.Has key → s.Has key
  monikers : ∀ key n, s.symbols.get? key = some n →
    ∃ n', s'.symbols.get? key = some n' ∧ n'.monikers = n.monikers

/-- A detail that changes no node ties at most. -/
theorem linking_detail {s s' : State μ ω} (h : Detail c s s') (symbols : s'.symbols = s.symbols) :
    Linking c s s' where
  move := .detail h
  same _ has := (kept_of_core h.core.symm).has has
  monikers _ n node := ⟨n, symbols ▸ node, rfl⟩

/-- Writing links into a node. -/
theorem linking_modify {s : State μ ω} {key : String} {f : SymbolNode → SymbolNode}
    (growth : Growth c s { s with symbols := s.symbols.modify key f })
    (monikers : ∀ n, (f n).monikers = n.monikers) :
    Linking c s { s with symbols := s.symbols.modify key f } where
  move := .growth growth
  same other has := by
    unfold State.Has at has ⊢
    rwa [← Table.mem_keys_iff, Table.keys_modify, Table.mem_keys_iff] at has
  monikers _ _ node := Table.get?_modify_rel
    (R := fun n n' : SymbolNode => n'.monikers = n.monikers) (fun _ => rfl)
    (fun n _ => monikers n) node

/-- A symbol that a node is linked to. -/
def State.Leads (s : State μ ω) (sym : Symbol) : Prop :=
  ∃ key n v, s.symbols.get? key = some n ∧ n.variant = some v ∧ sym ∈ v.links

/-- A relation that is kept by all that a request does; `use` is where the symbol was met, and
`G` are the symbols that may be requested in a state. -/
structure Requesting (c : Context μ ω) (use : Option NodeId) (G : State μ ω → Symbol → Prop)
    (R : State μ ω → State μ ω → Prop) : Prop where
  refl : ∀ s, R s s
  trans : ∀ {s t s'}, R s t → R t s' → R s s'
  leads : ∀ {s : State μ ω} {sym : Symbol}, s.Leads sym → G s sym
  /-- All that is done for a new symbol before it is linked. -/
  made : ∀ {sym : Symbol} {s t : State μ ω} {v : Variant}, G s sym →
    s.symbols.get? sym.key = none →
    Yields (establish c sym use)
      { s with symbols := s.symbols.insert sym.key { symbol := sym } } v t → R s t
  linked : ∀ {s s'}, Linking c s s' → R s s'

namespace Requesting

variable {G : State μ ω → Symbol → Prop} {R : State μ ω → State μ ω → Prop}
  (h : Requesting c use G R)

include h

/-- The loop over the bases of a member. -/
theorem forIn_bases {resolve : Symbol → Indexing μ ω String} (spec : Resolves c resolve)
    (each : ∀ sym s key s', G s sym → Yields (resolve sym) s key s' → R s s') {key : String}
    {container : Symbol} {bases todo : List Symbol} (within : todo ⊆ bases) {s s' : State μ ω}
    {n : SymbolNode} (node : s.symbols.get? key = some n)
    (method : n.variant = some (.method container bases)) {u : PUnit}
    (loop : Yields (forIn todo PUnit.unit fun base _ => do
      let baseKey ← resolve base
      if baseKey = key then pure (ForInStep.yield PUnit.unit)
      else do
        modifySymbol key fun n => { n with bases := n.bases ++ [baseKey] }
        pure (ForInStep.yield PUnit.unit)) s u s') : R s s' := by
  induction todo generalizing s n with
  | nil =>
      obtain ⟨-, rfl⟩ := yields_pure.1 loop
      exact h.refl _
  | cons base todo ih =>
      rw [List.forIn_cons] at loop
      obtain ⟨_, t, first, loop⟩ := yields_bind.1 loop
      obtain ⟨baseKey, t', asked, first⟩ := yields_bind.1 first
      obtain ⟨rfl, r⟩ := spec _ _ _ _ asked
      have leads : s.Leads base :=
        ⟨key, n, _, node, method, within List.mem_cons_self⟩
      have resolved := each _ _ _ _ (h.leads leads) asked
      obtain ⟨n', node', same⟩ := r.kept key n node
      have method' := (variant_of_core same).trans method
      have rest : todo ⊆ bases := fun other member => within (List.mem_cons_of_mem _ member)
      by_cases own : base.key = key
      · rw [if_pos own] at first
        obtain ⟨rfl, rfl⟩ := yields_pure.1 first
        exact h.trans resolved (ih rest node' method' loop)
      · rw [if_neg own, yields_modifySymbol_bind] at first
        obtain ⟨rfl, rfl⟩ := yields_pure.1 first
        obtain ⟨m, baseNode⟩ := r.has
        have based : Linking c t' _ := linking_modify
          (.based node' method' (within List.mem_cons_self) own baseNode) fun _ => rfl
        have linked := Table.get?_modify_self t'.symbols key fun n =>
          { n with bases := n.bases ++ [base.key] }
        rw [node', Option.map_some] at linked
        exact h.trans (h.trans resolved (h.linked based)) (ih rest linked method' loop)

/-- Linking a node resolves the symbols that it is linked to. -/
theorem link {resolve : Symbol → Indexing μ ω String} (spec : Resolves c resolve)
    (each : ∀ sym s key s', G s sym → Yields (resolve sym) s key s' → R s s') {key : String}
    {v : Variant}
    {s s' : State μ ω} {n : SymbolNode} (node : s.symbols.get? key = some n)
    (variant : n.variant = some v) (unset : n.members = []) {u : Unit}
    (linked : Yields (link c resolve key v) s u s') : R s s' := by
  cases v with
  | standard => exact (yields_pure.1 linked).2 ▸ h.refl _
  | transient => exact (yields_pure.1 linked).2 ▸ h.refl _
  | aliasOf target =>
      cases target with
      | none => exact (yields_pure.1 linked).2 ▸ h.refl _
      | some target =>
          obtain ⟨_, t, asked, linked⟩ := yields_bind.1 linked
          obtain ⟨rfl, r⟩ := spec _ _ _ _ asked
          obtain ⟨n', node', same⟩ := r.kept key n node
          obtain ⟨m, targetNode⟩ := r.has
          simp only [yields_lookup_bind, yields_emit_bind, yields_pure, node', targetNode,
            Option.getD_some] at linked
          obtain ⟨-, rfl⟩ := linked
          have joined : Detail c t _ :=
            .joined node' ((variant_of_core same).trans variant) targetNode
          have leads : s.Leads target := ⟨key, n, _, node, variant, List.mem_singleton_self _⟩
          exact h.trans (each _ _ _ _ (h.leads leads) asked) (h.linked (linking_detail joined rfl))
  | method container bases =>
      obtain ⟨_, _, loop, linked⟩ := yields_bind.1 linked
      obtain ⟨-, rfl⟩ := yields_pure.1 linked
      exact h.forIn_bases spec each (List.Subset.refl _) node variant loop
  | composite members =>
      obtain rfl := yields_modifySymbol.1 linked
      exact h.linked (linking_modify (.composed node variant unset) fun _ => rfl)

theorem symbolNodeWith (fuel : Nat) (sym : Symbol) {s s' : State μ ω} {key : String}
    (granted : G s sym) (requested : Yields (symbolNodeWith c use fuel sym) s key s') : R s s' := by
  induction fuel generalizing sym s key s' with
  | zero => exact absurd requested yields_throw
  | succ fuel ih =>
      rw [Session.symbolNodeWith, yields_get_bind] at requested
      split at requested
      · exact (yields_pure.1 requested).2 ▸ h.refl _
      rename_i new
      have absent : s.symbols.get? sym.key = none := by simpa [Table.contains] using new
      rw [yields_modify_bind] at requested
      obtain ⟨v, t, established, requested⟩ := yields_bind.1 requested
      have made := h.made granted absent established
      obtain ⟨declarations, name, namer, m₁, m₂, m₃, classified, declared, called, details, -⟩ :=
        yields_establish established
      obtain ⟨n, node, variant, -, members⟩ :=
        ((underway_enrolled absent (.enrolled absent classified declared called)).details
          details).node
      obtain ⟨_, t₁, linked, requested⟩ := yields_bind.1 requested
      have spec := resolves_symbolNodeWith (c := c) use fuel
      have founded : R s t₁ :=
        h.trans made
          (h.link spec (fun other _ _ _ granted => ih other granted) node variant members linked)
      rw [yields_lookup_bind] at requested
      split at requested
      · rename_i local_
        obtain ⟨_, t₂, confined, requested⟩ := yields_bind.1 requested
        obtain ⟨-, rfl⟩ := yields_pure.1 requested
        cases node₁ : t₁.symbols.get? sym.key with
        | none => exact absurd local_ (by simp [node₁]; rfl)
        | some n₁ =>
            rw [node₁, Option.getD_some] at local_
            rcases yields_confine node₁ local_ confined with rfl | ⟨tied, symbols⟩
            · exact founded
            · exact h.trans founded (h.linked (linking_detail tied symbols))
      · exact (yields_pure.1 requested).2 ▸ founded

/-- **What a request for a node keeps.** -/
theorem symbolNode {sym : Symbol} {s s' : State μ ω} {key : String} (granted : G s sym)
    (requested : Yields (symbolNode c sym use) s key s') : R s s' :=
  h.symbolNodeWith _ sym granted requested

end Requesting

end SymbolAtlas.Session
