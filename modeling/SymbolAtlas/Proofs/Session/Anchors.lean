/-
# SymbolAtlas.Proofs.Session.Anchors -- nodes that stay what they are

An oracle may make up its nodes as it is asked for them, so a node is fixed only once it was
shown: as a part of a file, as a declaration of a symbol, or as the name or the parent of
another one (`Oracle.Shown`).  `Oracle.Anchored` is the contract of nodes: one that was shown
never changes, and a name hangs in the file of the declaration that it names.  Then the place
where a declaration is marked is the same whenever it is looked up (`Anchored.siteIn_later`).
-/
import SymbolAtlas.Proofs.Session.Questions
import SymbolAtlas.Sketch

set_option autoImplicit false

namespace SymbolAtlas

open Session (Context Site siteIn markIn)

section Contract

variable {μ : Type} (o : Oracle μ) (start : μ)

/-- The nodes that the indexer has come across when the oracle has a memory. -/
inductive Oracle.Shown : μ → NodeId → Prop where
  | visited {file : Tree} {n : Node} (indexed : file ∈ o.files) (inside : n ∈ file.nodes) :
      Shown start n.id
  | declared {sym : Symbol} {m : μ} {id : NodeId} (later : o.Later start m)
      (answer : id ∈ (o.declarationsOf sym m).1) : Shown (o.declarationsOf sym m).2 id
  | name {m : μ} {id name : NodeId} (shown : Shown m id)
      (named : (o.node id m).nameNode = some name) : Shown m name
  | parent {m : μ} {id parent : NodeId} (shown : Shown m id)
      (up : (o.node id m).parent = some parent) : Shown m parent
  | asked {m m' : μ} {id : NodeId} (shown : Shown m id) (question : o.Asked m m') : Shown m' id

/-- The contract of nodes. -/
structure Oracle.Anchored : Prop where
  /-- The trees are made of the nodes that the oracle knows, and these report their file. -/
  tree : ∀ file ∈ o.files, ∀ n ∈ file.nodes, o.node n.id start = n ∧ n.file = file.root.file
  /-- A node that was shown never changes. -/
  stays : ∀ {m m' : μ} {id : NodeId}, o.Shown start m id → o.Asked m m' →
    o.node id m' = o.node id m
  /-- A name hangs in the file of what it names. -/
  name_file : ∀ {m : μ} {id name : NodeId}, o.Shown start m id →
    (o.node id m).nameNode = some name → (o.node name m).file = (o.node id m).file

end Contract

section Nodes

variable {μ : Type} {o : Oracle μ} {start : μ}

theorem Oracle.Shown.later {m m' : μ} {id : NodeId} (h : o.Shown start m id)
    (later : o.Later m m') : o.Shown start m' id := by
  induction later with
  | refl => exact h
  | tail _ last ih => exact .asked ih last

namespace Oracle.Anchored

variable (h : o.Anchored start) {m m' : μ} {id : NodeId} {file : Tree} {n : Node}

include h

theorem node_later (shown : o.Shown start m id) (later : o.Later m m') :
    o.node id m' = o.node id m := by
  induction later with
  | refl => rfl
  | tail before last ih => exact (h.stays (shown.later before) last).trans ih

/-- A node of a file is what its tree says. -/
theorem node_tree (indexed : file ∈ o.files) (inside : n ∈ file.nodes)
    (later : o.Later start m) : o.node n.id m = n :=
  (h.node_later (.visited indexed inside) later).trans (h.tree file indexed n inside).1

/-- Whether an identifier of a file names a declaration is settled from the start. -/
theorem isDefinitionSite_later (indexed : file ∈ o.files) (inside : n ∈ file.nodes)
    (later : o.Later start m) (later' : o.Later m m') :
    o.isDefinitionSite m' n = o.isDefinitionSite m n := by
  unfold Oracle.isDefinitionSite
  cases up : n.parent with
  | none => rfl
  | some p =>
      have shown : o.Shown start m n.id := .later (.visited indexed inside) later
      have above : o.Shown start m p := .parent shown (by rw [h.node_tree indexed inside later, up])
      simp only [h.node_later above later']

end Oracle.Anchored

end Nodes

namespace Session

variable {μ ω : Type} {c : Context μ ω} {start m m' : μ} {id : NodeId}

theorem siteIn_of_name {name : NodeId} (named : (c.oracle.node id m).nameNode = some name) :
    siteIn c m id = Site.ofNode (c.oracle.node name m) := by
  unfold siteIn markIn
  rw [named]
  rfl

theorem siteIn_of_unnamed (unnamed : (c.oracle.node id m).nameNode = none) :
    siteIn c m id = Site.ofNode (c.oracle.node id m) := by
  unfold siteIn markIn
  rw [unnamed]
  rfl

/-- The place where a declaration is marked is the same whenever it is looked up. -/
theorem siteIn_later (anchored : c.oracle.Anchored start) (shown : c.oracle.Shown start m id)
    (later : c.oracle.Later m m') : siteIn c m' id = siteIn c m id := by
  have same := anchored.node_later shown later
  cases named : (c.oracle.node id m).nameNode with
  | none => rw [siteIn_of_unnamed named, siteIn_of_unnamed (same ▸ named), same]
  | some name =>
      rw [siteIn_of_name named, siteIn_of_name (same ▸ named),
        anchored.node_later (.name shown named) later]

/-- A declaration is marked in its own file. -/
theorem file_siteIn (anchored : c.oracle.Anchored start) (shown : c.oracle.Shown start m id) :
    (siteIn c m id).file = (c.oracle.node id m).file := by
  cases named : (c.oracle.node id m).nameNode with
  | none => rw [siteIn_of_unnamed named]; rfl
  | some name => rw [siteIn_of_name named]; exact anchored.name_file shown named

/-- An identifier that names its parent marks it. -/
theorem siteIn_parent (anchored : c.oracle.Anchored start) {file : Tree} {name : Node}
    (indexed : file ∈ c.oracle.files) (inside : name ∈ file.nodes)
    (later : c.oracle.Later start m) (definition : c.oracle.isDefinitionSite m name = true)
    (up : name.parent = some id) : siteIn c m id = Site.ofNode name := by
  unfold Oracle.isDefinitionSite at definition
  simp only [up, Bool.and_eq_true, decide_eq_true_eq] at definition
  rw [siteIn_of_name definition.2.2, anchored.node_tree indexed inside later]

end Session

/-! ## Sketches -/

/-- The nodes of a sketch never change, so the contract is one of the sketch alone. -/
theorem Sketch.anchored {s : Sketch} (log : AliasLog)
    (tree : ∀ file ∈ s.oracle.files, ∀ n ∈ file.nodes,
      s.node n.id = n ∧ n.file = file.root.file)
    (names : ∀ e ∈ s.nodes.toList, ∀ name ∈ e.node.nameNode, (s.node name).file = e.node.file) :
    s.oracle.Anchored log where
  tree := tree
  stays _ _ := rfl
  name_file := by
    intro m id name _ named
    have named : (s.node id).nameNode = some name := named
    show (s.node name).file = (s.node id).file
    unfold Sketch.node at named ⊢
    cases here : s.nodes[id.index]? with
    | none => simp [here] at named
    | some e =>
        simp only [here, Option.map_some, Option.getD_some] at named ⊢
        have inside : e ∈ s.nodes.toList := Array.mem_toList_iff.2 (Array.mem_of_getElem? here)
        exact names e inside name named

end SymbolAtlas
