/-
# SymbolAtlas.Proofs.Naming.Forest -- naming, whoever is asked about the nodes

A namer asks an oracle what its nodes are and what they are attached to.  Where the answers do
not depend on what was asked before, the nodes are a `Forest`, and resolving one of them is a
relation between namers (`Forest.Resolves`): one rule for each sort of node, without an oracle,
its memory, or a bound on how many containers there are.  What a namer keeps in order is proved
by induction on these rules.

`resolves_resolveWith` says that a namer does what the rules say, where the containers around a
node come to an end (`Forest.Chain`) and the oracle knows how many there can be.  Every sketch
is such an oracle (`Sketch.shows`).  `runs_answerAll` carries this over to calls in any order,
for names of nodes, for the name of nothing and for fresh names.
-/
import Mathlib.Data.List.Nodup
import Mathlib.Data.List.Perm.Subperm
import SymbolAtlas.Proofs.Sketch.Likeness

set_option autoImplicit false

namespace SymbolAtlas

/-- Whether a node has the name of its container. -/
def Node.Passes (node : Node) : Prop := node.kind = .package ∨ node.kind = .group

theorem Node.suffix?_of_passes {node : Node} (passes : node.Passes) :
    Namer.suffix? node.kind = none := by
  rcases passes with kind | kind <;> rw [kind] <;> rfl

/-- Nodes, and what each of them is attached to. -/
structure Forest where
  node : NodeId → Node
  owner : NodeId → Option NodeId

namespace Namer

/-- A declaration gets a fresh local name, or one more descriptor than its container. -/
theorem below_cases (n : Namer) (container : Resolved) (node : Node) (suffix : Suffix) :
    ((globalOf container = none ∨ node.name = "") ∧
      n.below container node suffix = n.newLocal) ∨
    ∃ scheme package ds, container = some (.globalName scheme package ds) ∧ node.name ≠ "" ∧
      n.below container node suffix =
        (.globalName scheme package (ds ++ [⟨numbered node
            (n.count (SymbolName.globalName scheme package ds).render node.name), suffix⟩]),
          n.counted (SymbolName.globalName scheme package ds).render node.name) := by
  rcases container with _ | (⟨scheme, package, ds⟩ | number)
  · exact .inl ⟨.inl rfl, rfl⟩
  · rw [below_global]
    by_cases named : node.name = ""
    · exact .inl ⟨.inr named, if_pos named⟩
    · exact .inr ⟨scheme, package, ds, rfl, named, if_neg named⟩
  · exact .inl ⟨.inl rfl, rfl⟩

/-- Naming a declaration remembers nothing yet. -/
theorem memo_below (n : Namer) (container : Resolved) (node : Node) (suffix : Suffix) :
    (n.below container node suffix).2.memo = n.memo := by
  rcases n.below_cases container node suffix with ⟨-, same⟩ | ⟨_, _, _, -, -, same⟩ <;>
    rw [same] <;> rfl

theorem nextLocal_le_below (n : Namer) (container : Resolved) (node : Node) (suffix : Suffix) :
    n.nextLocal ≤ (n.below container node suffix).2.nextLocal := by
  rcases n.below_cases container node suffix with ⟨-, same⟩ | ⟨_, _, _, -, -, same⟩ <;> rw [same]
  · exact Nat.le_succ _
  · exact Nat.le_refl _

end Namer

namespace Forest

open Namer (suffix?)

variable (F : Forest)

/-- The container that a node gets its name from, unless it needs none. -/
def above (id : NodeId) : Option NodeId :=
  (F.node id).face.above (F.node id).parent (F.owner id)

/-- The containers around a node come to an end: the node and all of them, from the inside. -/
inductive Chain : Option NodeId → List NodeId → Prop
  | nil : Chain none []
  | cons {id : NodeId} {ids : List NodeId} : Chain (F.above id) ids → Chain (some id) (id :: ids)

/-- Resolving a node, or none, makes `n` into `n'` and comes to something. -/
inductive Resolves : Option NodeId → Namer → Resolved → Namer → Prop
  | nothing (n : Namer) : Resolves none n none n
  | known {id : NodeId} {n : Namer} {r : Resolved} (known : n.memo.get? id = some r) :
      Resolves (some id) n r n
  | file {id : NodeId} {n : Namer} (new : n.memo.get? id = none)
      (kind : (F.node id).kind = .file) :
      Resolves (some id) n (n.ofFile (F.node id).file)
        (n.remember id (n.ofFile (F.node id).file))
  | passed {id : NodeId} {n n' : Namer} {r : Resolved} (new : n.memo.get? id = none)
      (passes : (F.node id).Passes) (first : Resolves (F.above id) n r n') :
      Resolves (some id) n r (n'.remember id r)
  | scope {id : NodeId} {n : Namer} (new : n.memo.get? id = none)
      (kind : (F.node id).kind = .block ∨ (F.node id).kind = .signature) :
      Resolves (some id) n none (n.remember id none)
  | alone {id : NodeId} {n : Namer} (new : n.memo.get? id = none)
      (kind : suffix? (F.node id).kind = none)
      (other : (F.node id).kind ∉ [.file, .package, .group, .block, .signature]) :
      Resolves (some id) n (some n.newLocal.1) (n.newLocal.2.remember id (some n.newLocal.1))
  | declared {id : NodeId} {n n' : Namer} {container : Resolved} {suffix : Suffix}
      (new : n.memo.get? id = none) (kind : suffix? (F.node id).kind = some suffix)
      (first : Resolves (F.above id) n container n') :
      Resolves (some id) n (some (n'.below container (F.node id) suffix).1)
        ((n'.below container (F.node id) suffix).2.remember id
          (some (n'.below container (F.node id) suffix).1))

variable {F}

/-! ## Chains -/

theorem above_of_suffix {id : NodeId} {suffix : Suffix}
    (kind : suffix? (F.node id).kind = some suffix) : F.above id = F.owner id := by
  unfold above Face.above
  rw [show (F.node id).face.kind = (F.node id).kind from rfl, kind]

theorem above_of_package {id : NodeId} (kind : (F.node id).kind = .package) :
    F.above id = (F.node id).parent := by
  unfold above Face.above
  rw [show (F.node id).face.kind = (F.node id).kind from rfl, kind]
  rfl

theorem above_of_group {id : NodeId} (kind : (F.node id).kind = .group) :
    F.above id = F.owner id := by
  unfold above Face.above
  rw [show (F.node id).face.kind = (F.node id).kind from rfl, kind]
  rfl

theorem above_of_other {id : NodeId} (kind : suffix? (F.node id).kind = none)
    (stands : ¬ (F.node id).Passes) : F.above id = none := by
  unfold above Face.above
  rw [show (F.node id).face.kind = (F.node id).kind from rfl, kind]
  dsimp only
  split
  · rename_i sort
    exact absurd (.inl sort) stands
  · rename_i sort
    exact absurd (.inr sort) stands
  · rfl

theorem suffix?_of_scope {id : NodeId}
    (kind : (F.node id).kind = .block ∨ (F.node id).kind = .signature) :
    suffix? (F.node id).kind = none := by
  rcases kind with kind | kind <;> rw [kind] <;> rfl

theorem kind_of_scope {id : NodeId}
    (kind : (F.node id).kind = .block ∨ (F.node id).kind = .signature) :
    (F.node id).kind ∉ [.file, .package, .group] := by
  rcases kind with kind | kind <;> simp [kind]

namespace Chain

theorem unique {start : Option NodeId} {ids ids' : List NodeId} (h : F.Chain start ids)
    (h' : F.Chain start ids') : ids = ids' := by
  induction h generalizing ids' with
  | nil =>
      cases h'
      rfl
  | cons _ ih =>
      cases h' with
      | cons rest => rw [ih rest]

/-- From every container on the way the rest of the chain goes on. -/
theorem onward {start : Option NodeId} {ids : List NodeId} (h : F.Chain start ids) {id : NodeId}
    (member : id ∈ ids) : ∃ before after, ids = before ++ id :: after ∧
      F.Chain (some id) (id :: after) := by
  induction h with
  | nil => cases member
  | @cons first rest chain ih =>
      rcases List.mem_cons.1 member with rfl | later
      · exact ⟨[], rest, rfl, .cons chain⟩
      · obtain ⟨before, after, rfl, onward⟩ := ih later
        exact ⟨first :: before, after, rfl, onward⟩

/-- No node contains itself. -/
theorem not_mem {id : NodeId} {ids : List NodeId} (h : F.Chain (some id) (id :: ids)) :
    id ∉ ids := by
  intro member
  cases h with
  | cons rest =>
      obtain ⟨before, after, rfl, onward⟩ := rest.onward member
      have same := congrArg List.length (unique (.cons rest) onward)
      simp only [List.length_cons, List.length_append] at same
      omega

theorem nodup {start : Option NodeId} {ids : List NodeId} (h : F.Chain start ids) : ids.Nodup := by
  induction h with
  | nil => exact List.nodup_nil
  | cons rest ih => exact List.nodup_cons.2 ⟨(cons rest).not_mem, ih⟩

end Chain

/-! ## What resolving leaves as it was -/

namespace Resolves

/-- What is remembered stays so. -/
theorem kept {start : Option NodeId} {n n' : Namer} {r : Resolved} (h : F.Resolves start n r n')
    {id : NodeId} {res : Resolved} (here : n.memo.get? id = some res) :
    n'.memo.get? id = some res := by
  have beside : ∀ {other : NodeId} {n₁ : Namer} (r₁ : Resolved), n.memo.get? other = none →
      n₁.memo.get? id = some res → (n₁.remember other r₁).memo.get? id = some res := by
    intro other n₁ r₁ new there
    rw [Namer.get?_remember, if_neg, there]
    rintro rfl
    exact absurd (here.symm.trans new) (by simp)
  induction h with
  | nothing | known => exact here
  | file new | scope new => exact beside _ new here
  | alone new => exact beside _ new here
  | passed new _ _ ih => exact beside _ new (ih here beside)
  | declared new _ _ ih =>
      refine beside _ new ?_
      rw [Namer.memo_below]
      exact ih here beside

/-- What is remembered was remembered before or stands in the chain. -/
theorem inside {start : Option NodeId} {n n' : Namer} {r : Resolved} (h : F.Resolves start n r n')
    {ids : List NodeId} (chain : F.Chain start ids) {id : NodeId}
    (here : (n'.memo.get? id).isSome) : (n.memo.get? id).isSome ∨ id ∈ ids := by
  induction h generalizing ids with
  | nothing | known => exact .inl here
  | file | scope | alone =>
      cases chain
      rcases Namer.isSome_remember_iff.1 here with rfl | before
      · exact .inr List.mem_cons_self
      · exact .inl before
  | passed _ _ _ ih =>
      cases chain with
      | cons rest =>
          rcases Namer.isSome_remember_iff.1 here with rfl | before
          · exact .inr List.mem_cons_self
          · exact (ih rest before).imp_right (List.mem_cons_of_mem _)
  | declared _ _ _ ih =>
      cases chain with
      | cons rest =>
          rcases Namer.isSome_remember_iff.1 here with rfl | before
          · exact .inr List.mem_cons_self
          · rw [Namer.memo_below] at before
            exact (ih rest before).imp_right (List.mem_cons_of_mem _)

theorem nextLocal_le {start : Option NodeId} {n n' : Namer} {r : Resolved}
    (h : F.Resolves start n r n') : n.nextLocal ≤ n'.nextLocal := by
  induction h with
  | nothing | known | file | scope => exact Nat.le_refl _
  | alone => exact Nat.le_succ _
  | passed _ _ _ ih => exact ih
  | declared _ _ _ ih => exact Nat.le_trans ih (Namer.nextLocal_le_below ..)

/-- What a node is resolved to is remembered. -/
theorem remembered {start : Option NodeId} {n n' : Namer} {r : Resolved}
    (h : F.Resolves start n r n') {id : NodeId} (own : start = some id) :
    n'.memo.get? id = some r := by
  subst own
  cases h with
  | known here => exact here
  | _ => exact Table.get?_insert_self ..

end Resolves

end Forest

/-! ## What is right for a node with its containers -/

/-- Everything that is remembered is right for the nodes from there outwards, and files are
named as `n₀` names them. -/
structure Namer.Upholds (F : Forest) (Right : List Node → Resolved → Prop) (n n₀ : Namer) :
    Prop where
  scheme : n.scheme = n₀.scheme
  locate : n.locate = n₀.locate
  memo : ∀ id r ids, n.memo.get? id = some r → F.Chain (some id) ids → Right (ids.map F.node) r

namespace Namer

variable {F : Forest} {Right : List Node → Resolved → Prop} {n n₀ : Namer}

theorem upholds_start (memo : n₀.memo = .empty) : n₀.Upholds F Right n₀ :=
  ⟨rfl, rfl, by simp [memo]⟩

theorem Upholds.newLocal (h : n.Upholds F Right n₀) : n.newLocal.2.Upholds F Right n₀ :=
  ⟨h.scheme, h.locate, h.memo⟩

theorem Upholds.counted (h : n.Upholds F Right n₀) (text name : String) :
    (n.counted text name).Upholds F Right n₀ :=
  ⟨h.scheme, h.locate, h.memo⟩

theorem Upholds.remember (h : n.Upholds F Right n₀) {id : NodeId} {ids : List NodeId}
    {r : Resolved} (chain : F.Chain (some id) ids) (right : Right (ids.map F.node) r) :
    (n.remember id r).Upholds F Right n₀ := by
  refine ⟨h.scheme, h.locate, fun other r' ids' here chain' => ?_⟩
  rw [get?_remember] at here
  split at here
  · rename_i own
    subst own
    exact Option.some.inj here ▸ chain.unique chain' ▸ right
  · exact h.memo other r' ids' here chain'

theorem Upholds.ofFile_eq (h : n.Upholds F Right n₀) : n.ofFile = n₀.ofFile :=
  ofFile_congr h.scheme h.locate

end Namer

/-! ## An oracle that shows a forest -/

/-- The oracle shows a forest, whatever it was asked before, and it knows how many containers
there are around a node at most. -/
structure Oracle.Shows {μ : Type} (o : Oracle μ) (F : Forest) : Prop where
  node : ∀ id m, o.node id m = F.node id
  owner : ∀ id m, (o.owner id m).1 = F.owner id
  bounded : ∀ {id ids}, F.Chain (some id) ids → ids.length ≤ o.size + 1

section Spec

variable {μ : Type} {o : Oracle μ} {F : Forest}

open Namer (suffix? resolveWith Climbing)

/-- What is derived for a node that was not resolved yet, and remembered. -/
theorem Oracle.Shows.resolves_derive (shows : o.Shows F)
    {resolve : Option NodeId → Namer → Climbing μ (Resolved × Namer)} {fuel : Nat}
    (spec : ∀ {start ids} n m, F.Chain start ids → ids.length ≤ fuel →
      ∃ r n' m', resolve start n m = (.ok (r, n'), m') ∧ F.Resolves start n r n')
    {id : NodeId} {ids : List NodeId} (chain : F.Chain (F.above id) ids)
    (short : ids.length ≤ fuel) {n : Namer} (new : n.memo.get? id = none) (m : μ) :
    ∃ r n' m', n.derive o resolve id (F.node id) m = (.ok (r, n'), m') ∧
      F.Resolves (some id) n r (n'.remember id r) := by
  rw [Namer.derive_eq]
  cases kind : suffix? (F.node id).kind with
  | some suffix =>
      have up : (o.owner id m).1 = F.above id :=
        (shows.owner id m).trans (Forest.above_of_suffix kind).symm
      obtain ⟨container, n₁, m₁, above, first⟩ := spec n (o.owner id m).2 chain short
      simp only [up, above]
      exact ⟨_, _, _, rfl, .declared new kind first⟩
  | none =>
      cases sort : (F.node id).kind with
      | file => exact ⟨_, _, _, rfl, .file new sort⟩
      | package =>
          obtain ⟨r, n₁, m₁, above, first⟩ := spec n m chain short
          exact ⟨r, n₁, m₁, Forest.above_of_package sort ▸ above, .passed new (.inl sort) first⟩
      | group =>
          have up : (o.owner id m).1 = F.above id :=
            (shows.owner id m).trans (Forest.above_of_group sort).symm
          obtain ⟨r, n₁, m₁, above, first⟩ := spec n (o.owner id m).2 chain short
          simp only [up]
          exact ⟨r, n₁, m₁, above, .passed new (.inr sort) first⟩
      | block => exact ⟨_, _, _, rfl, .scope new (.inl sort)⟩
      | signature => exact ⟨_, _, _, rfl, .scope new (.inr sort)⟩
      | _ => exact ⟨_, _, _, rfl, .alone new kind (by simp [sort])⟩

/-- **A namer resolves as the rules say.** -/
theorem Oracle.Shows.resolves_resolveWith (shows : o.Shows F) (fuel : Nat)
    {start : Option NodeId} {ids : List NodeId} (n : Namer) (m : μ) (chain : F.Chain start ids)
    (short : ids.length ≤ fuel) :
    ∃ r n' m', resolveWith o fuel start n m = (.ok (r, n'), m') ∧ F.Resolves start n r n' := by
  induction fuel generalizing start ids n m with
  | zero =>
      cases chain with
      | nil => exact ⟨_, _, _, rfl, .nothing n⟩
      | cons => exact absurd short (Nat.not_succ_le_zero _)
  | succ fuel ih =>
      cases chain with
      | nil => exact ⟨_, _, _, rfl, .nothing n⟩
      | @cons id rest chain =>
          rw [Namer.resolveWith_succ]
          cases known : n.memo.get? id with
          | some r => exact ⟨_, _, _, rfl, .known known⟩
          | none =>
              obtain ⟨r, n', m', derived, resolves⟩ :=
                shows.resolves_derive (fun n m chain short => ih n m chain short) chain
                  (Nat.le_of_succ_le_succ short) known m
              rw [shows.node, derived]
              exact ⟨_, _, _, rfl, resolves⟩

end Spec

/-! ## Calls one after the other -/

namespace Namer

/-- What a namer is asked for: the name of a node, or of nothing, or a fresh name. -/
inductive Call where
  | name (id : Option NodeId)
  | fresh
deriving DecidableEq, Repr

/-- The node that a call is about. -/
def Call.node : Call → Option NodeId
  | .name id => id
  | .fresh => none

variable {μ : Type}

/-- Answer a call. -/
def answer (o : Oracle μ) : Call → Namer → StateM μ (SymbolName × Namer)
  | .name id, n => n.nameOf o id
  | .fresh, n => pure n.newLocal

/-- Answer calls one after the other. -/
def answerAll (o : Oracle μ) : List Call → Namer → StateM μ (List SymbolName × Namer)
  | [], n => pure ([], n)
  | call :: rest, n => do
      let (name, n) ← n.answer o call
      let (names, n) ← answerAll o rest n
      return (name :: names, n)

theorem answerAll_cons (o : Oracle μ) (call : Call) (rest : List Call) (n : Namer) (m : μ) :
    answerAll o (call :: rest) n m =
      let ((name, n), m) := n.answer o call m
      let ((names, n), m) := answerAll o rest n m
      ((name :: names, n), m) :=
  rfl

end Namer

namespace Forest

open Namer (Call)

/-- Answering a call makes `n` into `n'`. -/
inductive Answers (F : Forest) : Call → Namer → SymbolName → Namer → Prop
  | unbound {call : Call} {n : Namer} (node : call.node = none) :
      Answers F call n n.newLocal.1 n.newLocal.2
  | resolved {call : Call} {id : NodeId} {n n' : Namer} {name : SymbolName}
      (node : call.node = some id) (first : F.Resolves (some id) n (some name) n') :
      Answers F call n name n'
  | unresolved {call : Call} {id : NodeId} {n n' : Namer} (node : call.node = some id)
      (first : F.Resolves (some id) n none n') :
      Answers F call n n'.newLocal.1 (n'.newLocal.2.remember id (some n'.newLocal.1))

/-- Answering calls one after the other makes `n` into `n'`. -/
inductive Runs (F : Forest) : List Call → Namer → List SymbolName → Namer → Prop
  | nil (n : Namer) : Runs F [] n [] n
  | cons {call : Call} {calls : List Call} {n n₁ n' : Namer} {name : SymbolName}
      {names : List SymbolName} (first : F.Answers call n name n₁)
      (rest : Runs F calls n₁ names n') : Runs F (call :: calls) n (name :: names) n'

/-- The containers around every node that is asked for come to an end. -/
def Grounded (F : Forest) (calls : List Call) : Prop :=
  ∀ call ∈ calls, ∃ ids, F.Chain call.node ids

variable {F : Forest}

/-- What holds of one call after the other holds of all of them. -/
theorem Runs.invariant {calls : List Call} {n n' : Namer} {names : List SymbolName}
    (h : F.Runs calls n names n') (Inv : Namer → Prop) (Good : Call → SymbolName → Prop)
    (step : ∀ {call n name n'}, call ∈ calls → Inv n → F.Answers call n name n' →
      Inv n' ∧ Good call name)
    (start : Inv n) : Inv n' ∧ ∀ answer ∈ calls.zip names, Good answer.1 answer.2 := by
  induction h with
  | nil => exact ⟨start, by simp⟩
  | cons first _ ih =>
      obtain ⟨here, good⟩ := step List.mem_cons_self start first
      obtain ⟨last, others⟩ := ih (fun member => step (List.mem_cons_of_mem _ member)) here
      exact ⟨last, List.forall_mem_cons.2 ⟨good, others⟩⟩

/-- What one call is answered rightly by, all of them are. -/
theorem Runs.right {calls : List Call} {n n' : Namer} {names : List SymbolName}
    (h : F.Runs calls n names n') (Inv : Namer → Prop) (Right : List Node → Resolved → Prop)
    (grounded : F.Grounded calls)
    (step : ∀ {call n name n' ids}, Inv n → F.Answers call n name n' → F.Chain call.node ids →
      Inv n' ∧ Right (ids.map F.node) (some name))
    (start : Inv n) : ∀ answer ∈ calls.zip names, ∀ ids, F.Chain answer.1.node ids →
      Right (ids.map F.node) (some answer.2) := by
  have invariant := h.invariant Inv fun call name =>
    ∀ ids, F.Chain call.node ids → Right (ids.map F.node) (some name)
  refine (invariant (fun member state answers => ?_) start).2
  obtain ⟨ids, chain⟩ := grounded _ member
  obtain ⟨later, right⟩ := step state answers chain
  exact ⟨later, fun ids' chain' => chain'.unique chain ▸ right⟩

end Forest

section Spec

variable {μ : Type} {o : Oracle μ} {F : Forest}

open Namer (Call answer answerAll)

theorem Oracle.Shows.answers_answer (shows : o.Shows F) {call : Call} {ids : List NodeId}
    (chain : F.Chain call.node ids) (n : Namer) (m : μ) :
    F.Answers call n (n.answer o call m).1.1 (n.answer o call m).1.2 := by
  match call with
  | .fresh => exact .unbound rfl
  | .name none => exact .unbound rfl
  | .name (some id) =>
      have chain : F.Chain (some id) ids := chain
      obtain ⟨r, n₁, m₁, resolved, first⟩ :=
        shows.resolves_resolveWith (o.size + 1) n m chain (shows.bounded chain)
      rw [answer, Namer.nameOf_eq, resolved]
      cases r with
      | none => exact .unresolved rfl first
      | some name => exact .resolved rfl first

/-- **A namer answers as the rules say.** -/
theorem Oracle.Shows.runs_answerAll (shows : o.Shows F) {calls : List Call}
    (grounded : F.Grounded calls) (n : Namer) (m : μ) :
    F.Runs calls n (answerAll o calls n m).1.1 (answerAll o calls n m).1.2 := by
  induction calls generalizing n m with
  | nil => exact .nil n
  | cons call calls ih =>
      obtain ⟨⟨ids, chain⟩, others⟩ := List.forall_mem_cons.1 grounded
      rw [Namer.answerAll_cons]
      exact .cons (shows.answers_answer chain n m) (ih others _ _)

end Spec

/-! ## Sketches -/

namespace Sketch

/-- The nodes of a sketch. -/
def forest (s : Sketch) : Forest := ⟨s.node, s.ownerOf⟩

theorem above_of_absent {s : Sketch} {id : NodeId} (absent : ¬ id.index < s.nodes.size) :
    s.forest.above id = none := by
  show (s.node id).face.above (s.node id).parent (s.ownerOf id) = none
  rw [node_of_absent absent, ownerOf_of_absent absent]
  rfl

/-- All nodes of a chain but the last one are there. -/
theorem index_lt_of_chain {s : Sketch} {start : Option NodeId} {ids : List NodeId}
    (chain : s.forest.Chain start ids) : ∀ id ∈ ids.dropLast, id.index < s.nodes.size := by
  induction chain with
  | nil => simp
  | @cons id ids rest ih =>
      cases ids with
      | nil => simp
      | cons up ids =>
          rw [List.dropLast_cons_cons]
          refine List.forall_mem_cons.2 ⟨?_, ih⟩
          by_contra absent
          rw [above_of_absent absent] at rest
          cases rest

/-- **A sketch shows its nodes**, and no chain is longer than there are nodes. -/
theorem shows (s : Sketch) : s.oracle.Shows s.forest where
  node _ _ := rfl
  owner _ _ := rfl
  bounded {id ids} chain := by
    have distinct : (ids.dropLast.map NodeId.index).Nodup :=
      (chain.nodup.sublist (List.dropLast_sublist ids)).map fun x y same => by
        cases x
        cases y
        simpa using same
    have inside : ids.dropLast.map NodeId.index ⊆ List.range s.nodes.size := by
      intro index member
      obtain ⟨other, here, rfl⟩ := List.mem_map.1 member
      exact List.mem_range.2 (index_lt_of_chain chain other here)
    have few := (distinct.subperm inside).length_le
    simp only [List.length_map, List.length_dropLast, List.length_range] at few
    show ids.length ≤ s.nodes.size + s.symbols.size + 1 + 1
    omega

end Sketch

end SymbolAtlas
