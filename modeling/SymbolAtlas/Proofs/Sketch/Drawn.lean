/-
# SymbolAtlas.Proofs.Sketch.Drawn -- the sketches that can be drawn

A sketch is drawn step by step (`Sketch.Drawn`), and each step mentions only nodes that are
there.  So nodes are linked to nodes of their own file, every span lies on one line, and two
nodes of a file that share a line share their span: a declaration stands where its name does,
and no other two nodes meet (`Sketch.Proper`, `Sketch.Drawn.proper`).
-/
import SymbolAtlas.Proofs.Session.Anchors

set_option autoImplicit false

namespace SymbolAtlas

open Text (Span)

namespace Sketch

/-- The file in which a node stands. -/
def fileAt (s : Sketch) (id : NodeId) : Option String := s.nodes[id.index]?.map (·.node.file)

/-- The next free line of a file. -/
def nextLine (s : Sketch) (file : String) : Nat := (s.lines.get? file).getD 0

/-- A span from the beginning of a line. -/
def onLine (line width : Nat) : Span := ⟨⟨line, 0⟩, ⟨line, width⟩⟩

/-! ## Sketches that were drawn -/

/-- What can be drawn. -/
inductive Drawn : Sketch → Prop where
  | blank : Drawn {}
  | file {s : Sketch} (h : Drawn s) (path : String) : Drawn (s.addFile path).2
  | library {s : Sketch} (h : Drawn s) (path : String) : Drawn (s.addLibrary path).2
  | child {s : Sketch} (h : Drawn s) {parent : NodeId} (there : parent.index < s.nodes.size)
      (kind : NodeKind) (name : String) : Drawn (s.addChild parent kind name).2
  | declare {s : Sketch} (h : Drawn s) {parent : NodeId} (there : parent.index < s.nodes.size)
      (kind : NodeKind) (name : String) : Drawn (s.declare parent kind name).2
  | symbol {s : Sketch} (h : Drawn s) (key name : String) (flags : SymbolFlags) :
      Drawn (s.addSymbol key name flags).2
  | bind {s : Sketch} (h : Drawn s) (id : NodeId) (handle : Nat) : Drawn (s.bind id handle)
  | declarations {s : Sketch} (h : Drawn s) (handle : Nat) {nodes : List NodeId}
      (there : ∀ id ∈ nodes, id.index < s.nodes.size) : Drawn (s.addDeclarations handle nodes)
  | alias {s : Sketch} (h : Drawn s) (handle : Nat) (target : Option Nat) :
      Drawn (s.setAlias handle target)
  | composite {s : Sketch} (h : Drawn s) (handle : Nat) (members : Option (List Nat)) :
      Drawn (s.setComposite handle members)
  | container {s : Sketch} (h : Drawn s) (handle container : Nat) :
      Drawn (s.setContainer handle container)
  | bases {s : Sketch} (h : Drawn s) (container : Nat) (name : String) (bases : List Nat) :
      Drawn (s.setBases container name bases)
  | exportPath {s : Sketch} (h : Drawn s) (handle : Nat) (segments : List String) :
      Drawn (s.setExportPath handle segments)
  | exportAlias {s : Sketch} (h : Drawn s) (id : NodeId) (name : String) :
      Drawn (s.setExportAlias id name)
  | external {s : Sketch} (h : Drawn s) (path : String) :
      Drawn { s with externalFiles := path :: s.externalFiles }
  | defaultLibrary {s : Sketch} (h : Drawn s) (path : String) :
      Drawn { s with defaultLibraries := path :: s.defaultLibraries }
  | hover {s : Sketch} (h : Drawn s) (handle : Nat) (hover : Hover) :
      Drawn (s.modifySymbol handle fun e => { e with hover })
  | hoverError {s : Sketch} (h : Drawn s) (handle : Nat) (message : String) :
      Drawn (s.modifySymbol handle fun e => { e with hoverError := some message })
  | owner {s : Sketch} (h : Drawn s) (id : NodeId) (owner : Option NodeId) :
      Drawn (s.modifyNode id fun n => { n with owner })
  | redeclarable {s : Sketch} (h : Drawn s) (id : NodeId) :
      Drawn (s.modifyNode id fun n => { n with node := { n.node with redeclarable := true } })

/-- A node in its place: its links stay in its file, and its span lies on a line that is
taken. -/
structure Placed (s : Sketch) (i : Nat) (e : SketchNode) : Prop where
  id : e.node.id = ⟨i⟩
  links : ∀ other, e.node.parent = some other ∨ other ∈ e.children ∨ e.node.nameNode = some other →
    s.fileAt other = some e.node.file
  line : ∃ line width, e.node.span = onLine line width ∧ line < s.nextLine e.node.file

/-- What holds of every sketch that was drawn. -/
structure Proper (s : Sketch) : Prop where
  placed : ∀ (i : Nat) (e : SketchNode), s.nodes[i]? = some e → s.Placed i e
  /-- Nodes of a file on one line share their span. -/
  aligned : ∀ (i j : Nat) (e e' : SketchNode), s.nodes[i]? = some e → s.nodes[j]? = some e' →
    e.node.file = e'.node.file → e.node.span.start.line = e'.node.span.start.line →
    e.node.span = e'.node.span
  files : ∀ id ∈ s.files, (s.fileAt id).isSome = true
  declared : ∀ handle, ∀ id ∈ (s.symbol handle).declarations, (s.fileAt id).isSome = true

variable {s s' : Sketch}

theorem isSome_fileAt {id : NodeId} : (s.fileAt id).isSome = true ↔ id.index < s.nodes.size := by
  simp [fileAt]

namespace Proper

/-! ## Steps that add no node -/

/-- What changes no node. -/
theorem of_nodes (h : s.Proper) (nodes : s'.nodes = s.nodes) (lines : s'.lines = s.lines)
    (files : s'.files = s.files)
    (declared : ∀ handle, ∀ id ∈ (s'.symbol handle).declarations, (s.fileAt id).isSome = true) :
    s'.Proper := by
  have same : s'.fileAt = s.fileAt := by
    funext id
    rw [fileAt, nodes]
    rfl
  refine ⟨fun i e here => ?_, ?_, ?_, ?_⟩
  · obtain ⟨id, links, line⟩ := h.placed i e (nodes ▸ here)
    refine ⟨id, ?_, ?_⟩
    · rw [same]
      exact links
    · unfold nextLine
      rw [lines]
      exact line
  · rw [nodes]
    exact h.aligned
  · rw [files, same]
    exact h.files
  · rw [same]
    exact declared

theorem modifySymbol (h : s.Proper) (handle : Nat) {f : SketchSymbol → SketchSymbol}
    (only : ∀ e, ∀ id ∈ (f e).declarations, id ∈ e.declarations ∨ (s.fileAt id).isSome = true) :
    (s.modifySymbol handle f).Proper := by
  refine h.of_nodes rfl rfl rfl fun other id member => ?_
  have before := h.declared other id
  unfold Sketch.symbol at member before
  rw [Sketch.modifySymbol, Array.getElem?_modify] at member
  by_cases here : handle = other
  · rw [if_pos here] at member
    cases known : s.symbols[other]? with
    | none =>
        rw [known] at member
        cases member
    | some e =>
        rw [known] at member before
        rcases only e id member with old | there
        · exact before old
        · exact there
  · rw [if_neg here] at member
    exact before member

/-- A change of a symbol that keeps its declarations. -/
theorem modifySymbol_of_same (h : s.Proper) (handle : Nat) {f : SketchSymbol → SketchSymbol}
    (same : ∀ e, (f e).declarations = e.declarations) : (s.modifySymbol handle f).Proper :=
  h.modifySymbol handle fun e _ member => .inl (same e ▸ member)

theorem addSymbol (h : s.Proper) (key name : String) (flags : SymbolFlags) :
    (s.addSymbol key name flags).2.Proper := by
  refine h.of_nodes rfl rfl rfl fun handle id member => ?_
  unfold Sketch.symbol at member
  rw [Sketch.addSymbol, Array.getElem?_push] at member
  split at member
  · cases member
  · exact h.declared handle id member

/-! ## Steps that add or change a node -/

/-- A change of a node that keeps its place, or moves it to where a node of its file stands. -/
theorem modifyNode (h : s.Proper) {id : NodeId} {f : SketchNode → SketchNode}
    (kept : ∀ e, s.nodes[id.index]? = some e →
      (f e).node.id = e.node.id ∧ (f e).node.file = e.node.file ∧
      (f e).node.parent = e.node.parent ∧ (f e).children = e.children ∧
      (∀ name, (f e).node.nameNode = some name → s.fileAt name = some e.node.file) ∧
      ∃ (j : Nat) (e' : SketchNode), s.nodes[j]? = some e' ∧ e'.node.file = e.node.file ∧
        (f e).node.span = e'.node.span) :
    (s.modifyNode id f).Proper := by
  have stood : ∀ (i : Nat) (e : SketchNode), (s.modifyNode id f).nodes[i]? = some e →
      ∃ e₀ : SketchNode, s.nodes[i]? = some e₀ ∧
      e.node.id = e₀.node.id ∧ e.node.file = e₀.node.file ∧ e.node.parent = e₀.node.parent ∧
      e.children = e₀.children ∧
      (∀ name, e.node.nameNode = some name → s.fileAt name = some e₀.node.file) ∧
      ∃ (j : Nat) (e' : SketchNode), s.nodes[j]? = some e' ∧ e'.node.file = e₀.node.file ∧
        e.node.span = e'.node.span := by
    intro i e here
    rw [Sketch.modifyNode, Array.getElem?_modify] at here
    split at here
    · rename_i same
      subst same
      obtain ⟨e₀, before, rfl⟩ := Option.map_eq_some_iff.1 here
      exact ⟨e₀, before, kept e₀ before⟩
    · exact ⟨e, here, rfl, rfl, rfl, rfl, fun name named =>
        (h.placed i e here).links name (.inr (.inr named)), i, e, here, rfl, rfl⟩
  have files : (s.modifyNode id f).fileAt = s.fileAt := by
    funext other
    unfold fileAt
    rw [Sketch.modifyNode, Array.getElem?_modify]
    split
    · rename_i same
      cases before : s.nodes[other.index]? with
      | none => rfl
      | some e =>
          rw [Option.map_some, Option.map_some, Option.map_some,
            (kept e (same ▸ before)).2.1]
    · rfl
  refine ⟨fun i e here => ?_, fun i j e e' here there file line => ?_, ?_, ?_⟩
  · obtain ⟨e₀, before, id_, file, parent, children, name, j, e', spot, file', span⟩ :=
      stood i e here
    obtain ⟨id₀, links, -⟩ := h.placed i e₀ before
    obtain ⟨-, -, line, width, shape, taken⟩ := h.placed j e' spot
    refine ⟨id_.trans id₀, fun other linked => ?_, line, width, span.trans shape, ?_⟩
    · rw [files, file]
      rcases linked with up | down | named
      · exact links other (.inl (parent ▸ up))
      · exact links other (.inr (.inl (children ▸ down)))
      · exact name other named
    · rw [file, ← file']
      exact taken
  · obtain ⟨e₀, -, -, own, -, -, -, k, f₀, spot, file₀, span⟩ := stood i e here
    obtain ⟨e₁, -, -, own', -, -, -, l, f₁, spot', file₁, span'⟩ := stood j e' there
    rw [span, span'] at line ⊢
    exact h.aligned k l f₀ f₁ spot spot'
      (by rw [file₀, file₁, ← own, ← own', file]) line
  · rw [files]
    exact h.files
  · rw [files]
    exact h.declared

end Proper

/-! ## One more node -/

section AddNode

variable {parent : Option NodeId} {file : String} {kind : NodeKind} {name : String}

theorem addNode_fst : (s.addNode parent file kind name).1 = ⟨s.nodes.size⟩ := by
  cases parent <;> rfl

theorem lines_addNode : (s.addNode parent file kind name).2.lines =
    s.lines.insert file (s.nextLine file + 1) := by
  cases parent <;> rfl

theorem symbols_addNode : (s.addNode parent file kind name).2.symbols = s.symbols := by
  cases parent <;> rfl

theorem files_addNode : (s.addNode parent file kind name).2.files = s.files := by
  cases parent <;> rfl

/-- The nodes after one more: the new one, and the old ones, among which the parent has one more
child. -/
theorem get?_addNode (there : ∀ p ∈ parent, p.index < s.nodes.size) {i : Nat} {e : SketchNode}
    (here : (s.addNode parent file kind name).2.nodes[i]? = some e) :
    (i = s.nodes.size ∧ e.node.id = ⟨s.nodes.size⟩ ∧ e.node.kind = kind ∧ e.node.file = file ∧
      e.node.parent = parent ∧ e.node.nameNode = none ∧ e.children = [] ∧
      e.node.span = onLine (s.nextLine file) name.utf8ByteSize) ∨
    ∃ e₀, s.nodes[i]? = some e₀ ∧ e.node = e₀.node ∧
      ∀ child ∈ e.children, child ∈ e₀.children ∨ child = ⟨s.nodes.size⟩ ∧ parent = some ⟨i⟩ := by
  cases parent with
  | none =>
      have here : (s.nodes.push _)[i]? = some e := here
      rw [Array.getElem?_push] at here
      split at here
      · obtain rfl := Option.some.inj here
        exact .inl ⟨‹_›, rfl, rfl, rfl, rfl, rfl, rfl, rfl⟩
      · exact .inr ⟨e, here, rfl, fun _ member => .inl member⟩
  | some p =>
      have inside := there p rfl
      have here : ((s.nodes.push _).modify p.index _)[i]? = some e := here
      rw [Array.getElem?_modify, Array.getElem?_push] at here
      split at here
      · rename_i same
        subst same
        rw [if_neg (Nat.ne_of_lt inside)] at here
        obtain ⟨e₀, before, rfl⟩ := Option.map_eq_some_iff.1 here
        refine .inr ⟨e₀, before, rfl, fun child member => ?_⟩
        exact (List.mem_append.1 member).imp_right fun new => ⟨List.mem_singleton.1 new, rfl⟩
      · split at here
        · obtain rfl := Option.some.inj here
          exact .inl ⟨‹_›, rfl, rfl, rfl, rfl, rfl, rfl, rfl⟩
        · exact .inr ⟨e, here, rfl, fun _ member => .inl member⟩

theorem fileAt_addNode (there : ∀ p ∈ parent, p.index < s.nodes.size) (id : NodeId) :
    (s.addNode parent file kind name).2.fileAt id =
      if id.index = s.nodes.size then some file else s.fileAt id := by
  cases parent with
  | none =>
      show Option.map _ (s.nodes.push _)[id.index]? = _
      rw [Array.getElem?_push]
      split <;> rfl
  | some p =>
      have inside := there p rfl
      show Option.map _ ((s.nodes.push _).modify p.index _)[id.index]? = _
      rw [Array.getElem?_modify, Array.getElem?_push]
      split
      · rename_i same
        rw [if_neg (by omega), if_neg (by omega)]
        unfold fileAt
        cases s.nodes[id.index]? <;> rfl
      · split <;> rfl

/-- A file that is known stays known. -/
theorem fileAt_addNode_of_some (there : ∀ p ∈ parent, p.index < s.nodes.size) {id : NodeId}
    {known : String} (here : s.fileAt id = some known) :
    (s.addNode parent file kind name).2.fileAt id = some known := by
  have inside : id.index < s.nodes.size := isSome_fileAt.1 (by simp [here])
  rw [fileAt_addNode there, if_neg (Nat.ne_of_lt inside), here]

theorem Proper.addNode (h : s.Proper) (there : ∀ p ∈ parent, s.fileAt p = some file) :
    (s.addNode parent file kind name).2.Proper := by
  have inside : ∀ p ∈ parent, p.index < s.nodes.size := fun p up =>
    isSome_fileAt.1 (by simp [there p up])
  have grows : ∀ id, (s.fileAt id).isSome = true →
      ((s.addNode parent file kind name).2.fileAt id).isSome = true := by
    intro id known
    obtain ⟨path, here⟩ := Option.isSome_iff_exists.1 known
    rw [fileAt_addNode_of_some inside here]
    rfl
  have next : ∀ path, (s.addNode parent file kind name).2.nextLine path =
      if file = path then s.nextLine file + 1 else s.nextLine path := by
    intro path
    unfold nextLine
    rw [lines_addNode, Table.get?_insert]
    split <;> rfl
  have taken : ∀ (i : Nat) (e : SketchNode), s.nodes[i]? = some e → e.node.file = file →
      e.node.span.start.line ≠ (s.nextLine file : Int) := by
    intro i e here own same
    obtain ⟨-, -, line, width, shape, below⟩ := h.placed i e here
    rw [shape, onLine] at same
    rw [own] at below
    exact Nat.ne_of_lt below (Int.ofNat.inj same)
  refine ⟨fun i e here => ?_, fun i j e e' here there' file_ line => ?_, fun id member => ?_,
    fun handle id member => ?_⟩
  · rcases get?_addNode inside here with
      ⟨rfl, id, -, own, up, unnamed, childless, span⟩ | ⟨e₀, before, same, children⟩
    · refine ⟨id, fun other linked => ?_, _, _, span, ?_⟩
      · rw [own]
        rcases linked with linked | linked | linked
        · exact fileAt_addNode_of_some inside (there other (up ▸ linked))
        · simp [childless] at linked
        · simp [unnamed] at linked
      · rw [own, next, if_pos rfl]
        exact Nat.lt_succ_self _
    · obtain ⟨id, links, line, width, shape, below⟩ := h.placed i e₀ before
      refine ⟨same ▸ id, fun other linked => ?_, line, width, same ▸ shape, ?_⟩
      · rw [same] at linked ⊢
        rcases linked with linked | linked | linked
        · exact fileAt_addNode_of_some inside (links other (.inl linked))
        · rcases children other linked with old | ⟨rfl, up⟩
          · exact fileAt_addNode_of_some inside (links other (.inr (.inl old)))
          · have own := there _ up
            rw [fileAt, before, Option.map_some] at own
            rw [fileAt_addNode inside, if_pos rfl, Option.some.inj own]
        · exact fileAt_addNode_of_some inside (links other (.inr (.inr linked)))
      · rw [same, next]
        split
        · rename_i own
          exact Nat.lt_succ_of_lt (own ▸ below)
        · exact below
  · rcases get?_addNode inside here with
      ⟨rfl, -, -, own, -, -, -, span⟩ | ⟨e₀, before, same, -⟩ <;>
      rcases get?_addNode inside there' with
        ⟨rfl, -, -, own', -, -, -, span'⟩ | ⟨e₁, before', same', -⟩
    · rw [span, span']
    · rw [span, same'] at line
      exact absurd line.symm (taken j e₁ before' (by rw [← same', ← file_, own]))
    · rw [span', same] at line
      exact absurd line (taken i e₀ before (by rw [← same, file_, own']))
    · rw [same, same'] at file_ line ⊢
      exact h.aligned i j e₀ e₁ before before' file_ line
  · rw [files_addNode] at member
    exact grows id (h.files id member)
  · unfold Sketch.symbol at member
    rw [symbols_addNode] at member
    exact grows id (h.declared handle id member)

end AddNode

theorem node_of_get {id : NodeId} {e : SketchNode} (here : s.nodes[id.index]? = some e) :
    s.node id = e.node := by
  rw [node, here]
  rfl

theorem exists_node {id : NodeId} {file : String} (known : s.fileAt id = some file) :
    ∃ e, s.nodes[id.index]? = some e ∧ s.node id = e.node ∧ e.node.file = file := by
  obtain ⟨e, here, own⟩ := Option.map_eq_some_iff.1 known
  exact ⟨e, here, node_of_get here, own⟩

theorem fileAt_of_lt {id : NodeId} (there : id.index < s.nodes.size) :
    s.fileAt id = some (s.node id).file := by
  obtain ⟨file, known⟩ := Option.isSome_iff_exists.1 (isSome_fileAt.2 there)
  obtain ⟨e, -, same, own⟩ := exists_node known
  rw [known, same, own]

namespace Proper

theorem addFile (h : s.Proper) (path : String) : (s.addFile path).2.Proper := by
  have added : (s.addNode none path .file path).2.Proper := h.addNode (by simp)
  refine ⟨fun i e here => ?_, added.aligned, fun id member => ?_, added.declared⟩
  · obtain ⟨id, links, line⟩ := added.placed i e here
    exact ⟨id, links, line⟩
  rcases List.mem_append.1 member with old | new
  · exact added.files id old
  · obtain rfl := List.mem_singleton.1 new
    show ((s.addNode none path .file path).2.fileAt _).isSome = true
    rw [fileAt_addNode (by simp), if_pos rfl]
    rfl

theorem addLibrary (h : s.Proper) (path : String) : (s.addLibrary path).2.Proper :=
  have listed : Proper { s with externalFiles := path :: s.externalFiles } :=
    h.of_nodes rfl rfl rfl h.declared
  listed.addNode (by simp)

theorem addChild (h : s.Proper) {parent : NodeId} (there : parent.index < s.nodes.size)
    (kind : NodeKind) (name : String) : (s.addChild parent kind name).2.Proper := by
  refine h.addNode fun p up => ?_
  obtain rfl := Option.some.inj up
  exact fileAt_of_lt there

theorem declare (h : s.Proper) {parent : NodeId} (there : parent.index < s.nodes.size)
    (kind : NodeKind) (name : String) : (s.declare parent kind name).2.Proper := by
  unfold Sketch.declare
  simp only
  have first := h.addChild there kind name
  have inside : ∀ p ∈ some parent, p.index < s.nodes.size := fun p up => Option.some.inj up ▸ there
  have id : (s.addChild parent kind name).1 = ⟨s.nodes.size⟩ := addNode_fst
  have known : (s.addChild parent kind name).2.fileAt ⟨s.nodes.size⟩ = some (s.node parent).file :=
    (fileAt_addNode inside _).trans (if_pos rfl)
  generalize (s.addChild parent kind name).2 = drawn at first known
  rw [id]
  have there' := isSome_fileAt.1 (Option.isSome_iff_exists.2 ⟨_, known⟩)
  have second := first.addChild there' .identifier name
  have inside' : ∀ p ∈ some (⟨s.nodes.size⟩ : NodeId), p.index < drawn.nodes.size :=
    fun p up => Option.some.inj up ▸ there'
  have nameId : (drawn.addChild ⟨s.nodes.size⟩ .identifier name).1 = ⟨drawn.nodes.size⟩ :=
    addNode_fst
  obtain ⟨_, _, own, file⟩ := exists_node known
  have named : (drawn.addChild ⟨s.nodes.size⟩ .identifier name).2.fileAt ⟨drawn.nodes.size⟩ =
      some (s.node parent).file := by
    rw [← file, ← own]
    exact (fileAt_addNode inside' _).trans (if_pos rfl)
  have still : (drawn.addChild ⟨s.nodes.size⟩ .identifier name).2.fileAt ⟨s.nodes.size⟩ =
      some (s.node parent).file := fileAt_addNode_of_some inside' known
  rw [nameId]
  obtain ⟨e', spot, same, file'⟩ := exists_node named
  refine second.modifyNode fun e here => ⟨rfl, rfl, rfl, rfl, fun name_ equal => ?_,
    drawn.nodes.size, e', spot, ?_, ?_⟩
  all_goals
    rw [fileAt, here, Option.map_some] at still
  · obtain rfl := Option.some.inj equal
    rw [named, Option.some.inj still]
  · rw [file', Option.some.inj still]
  · rw [← same]

end Proper

/-- **What is drawn is proper.** -/
theorem Drawn.proper (h : s.Drawn) : s.Proper := by
  induction h with
  | blank =>
      refine ⟨by simp, by simp, by simp, fun handle id member => ?_⟩
      simp only [Sketch.symbol, List.getElem?_toArray, List.getElem?_nil, Option.getD_none]
        at member
      exact absurd member List.not_mem_nil
  | file _ path ih => exact ih.addFile path
  | library _ path ih => exact ih.addLibrary path
  | child _ there kind name ih => exact ih.addChild there kind name
  | declare _ there kind name ih => exact ih.declare there kind name
  | symbol _ key name flags ih => exact ih.addSymbol key name flags
  | bind _ id handle ih => exact ih.of_nodes rfl rfl rfl ih.declared
  | declarations _ handle there ih =>
      refine ih.modifySymbol handle fun e id member => ?_
      exact (List.mem_append.1 member).imp_right fun new => isSome_fileAt.2 (there id new)
  | «alias» _ handle target ih =>
      have flagged := ih.modifySymbol_of_same handle
        (f := fun e => { e with symbol :=
          { e.symbol with flags := { e.symbol.flags with aliasing := true } } }) fun _ => rfl
      cases target with
      | none => exact flagged
      | some target => exact flagged.modifySymbol_of_same handle fun _ => rfl
  | composite _ handle members ih =>
      refine Proper.modifySymbol_of_same ?_ handle fun _ => rfl
      exact ih.modifySymbol_of_same handle fun _ => rfl
  | container _ handle container ih =>
      refine Proper.modifySymbol_of_same ?_ handle fun _ => rfl
      exact ih.modifySymbol_of_same handle fun _ => rfl
  | bases _ container name bases ih => exact ih.of_nodes rfl rfl rfl ih.declared
  | exportPath _ handle segments ih => exact ih.modifySymbol_of_same handle fun _ => rfl
  | exportAlias _ id name ih => exact ih.of_nodes rfl rfl rfl ih.declared
  | external _ path ih => exact ih.of_nodes rfl rfl rfl ih.declared
  | defaultLibrary _ path ih => exact ih.of_nodes rfl rfl rfl ih.declared
  | hover _ handle hover ih => exact ih.modifySymbol_of_same handle fun _ => rfl
  | hoverError _ handle message ih => exact ih.modifySymbol_of_same handle fun _ => rfl
  | @owner s _ id owner ih =>
      refine ih.modifyNode fun e here => ⟨rfl, rfl, rfl, rfl, fun name named => ?_, id.index, e,
        here, rfl, rfl⟩
      exact (ih.placed _ e here).links name (.inr (.inr named))
  | @redeclarable s _ id ih =>
      refine ih.modifyNode fun e here => ⟨rfl, rfl, rfl, rfl, fun name named => ?_, id.index, e,
        here, rfl, rfl⟩
      exact (ih.placed _ e here).links name (.inr (.inr named))

theorem Drawn.define (h : s.Drawn) {parent : NodeId} (there : parent.index < s.nodes.size)
    (kind : NodeKind) (name : String) (handle : Nat) :
    Drawn (s.define parent kind name handle).2 := by
  have declared := h.declare there kind name
  have inside : (s.declare parent kind name).1.index < (s.declare parent kind name).2.nodes.size := by
    simp only [Sketch.declare, Sketch.addChild, Sketch.addNode, Sketch.modifyNode,
      Array.size_modify, Array.size_push]
    omega
  unfold Sketch.define
  cases named : ((s.declare parent kind name).2.node (s.declare parent kind name).1).nameNode with
  | none =>
      simp only [named]
      exact declared.declarations handle fun id member => List.mem_singleton.1 member ▸ inside
  | some nameId =>
      simp only [named]
      exact (declared.bind nameId handle).declarations handle
        fun id member => List.mem_singleton.1 member ▸ inside

theorem Drawn.addUse (h : s.Drawn) {parent : NodeId} (there : parent.index < s.nodes.size)
    (handle : Nat) : Drawn (s.addUse parent handle).2 :=
  (h.child there .identifier _).bind _ handle

/-! ## What an oracle may show of it -/

theorem mem_nodesOf {n : Node} {trees : List Tree} :
    n ∈ Tree.nodesOf trees ↔ ∃ t ∈ trees, n ∈ t.nodes := by
  induction trees with
  | nil => simp [Tree.nodesOf]
  | cons t rest ih => simp [Tree.nodesOf, ih]

theorem root_tree (id : NodeId) : (s.tree id).root = s.node id := by
  unfold tree
  cases s.nodes.size <;> rfl

namespace Proper

/-- A tree is made of nodes of one file. -/
theorem mem_treeWith (h : s.Proper) {depth : Nat} {id : NodeId} {file : String}
    (known : s.fileAt id = some file) {n : Node} (member : n ∈ (s.treeWith depth id).nodes) :
    s.node n.id = n ∧ n.file = file ∧ s.fileAt n.id = some file := by
  have root : ∀ {id : NodeId}, s.fileAt id = some file →
      s.node (s.node id).id = s.node id ∧ (s.node id).file = file ∧
        s.fileAt (s.node id).id = some file := by
    intro id known
    obtain ⟨e, here, same, own⟩ := exists_node known
    have self : (s.node id).id = id := same ▸ (h.placed _ e here).id
    rw [self]
    exact ⟨rfl, same ▸ own, known⟩
  induction depth generalizing id with
  | zero =>
      obtain rfl := List.mem_singleton.1 member
      exact root known
  | succ depth ih =>
      rcases List.mem_cons.1 member with rfl | below
      · exact root known
      · obtain ⟨t, child, inside⟩ := mem_nodesOf.1 below
        obtain ⟨other, linked, rfl⟩ := List.mem_map.1 child
        obtain ⟨e, here, -, own⟩ := exists_node known
        rw [here] at linked
        exact ih (own ▸ (h.placed _ e here).links other (.inr (.inl linked))) inside

theorem mem_file (h : s.Proper) {file : Tree} (indexed : file ∈ s.oracle.files) {n : Node}
    (inside : n ∈ file.nodes) :
    s.node n.id = n ∧ n.file = file.root.file ∧ s.fileAt n.id = some file.root.file := by
  obtain ⟨id, listed, rfl⟩ := List.mem_map.1 indexed
  rw [root_tree]
  exact h.mem_treeWith (fileAt_of_lt (isSome_fileAt.1 (h.files id listed))) inside

/-- Its nodes stay what they are. -/
theorem anchored (h : s.Proper) (log : AliasLog) : s.oracle.Anchored log := by
  refine Sketch.anchored log (fun file indexed n inside => ?_) fun e member name named => ?_
  · obtain ⟨same, own, -⟩ := h.mem_file indexed inside
    exact ⟨same, own⟩
  · obtain ⟨i, bound, rfl⟩ := List.getElem_of_mem member
    have here : s.nodes[i]? = some s.nodes.toList[i] := by simp
    obtain ⟨_, _, same, own⟩ := exists_node ((h.placed i _ here).links name (.inr (.inr named)))
    rw [same, own]

/-- What is shown of it is there. -/
theorem fileAt_of_shown (h : s.Proper) {log memory : AliasLog} {id : NodeId}
    (shown : s.oracle.Shown log memory id) : (s.fileAt id).isSome = true := by
  have linked : ∀ {id other : NodeId}, (s.fileAt id).isSome = true →
      (s.node id).parent = some other ∨ (s.node id).nameNode = some other →
      (s.fileAt other).isSome = true := by
    intro id other known link
    obtain ⟨file, known⟩ := Option.isSome_iff_exists.1 known
    obtain ⟨e, here, same, -⟩ := exists_node known
    rw [same] at link
    exact Option.isSome_iff_exists.2 ⟨_, (h.placed _ e here).links other
      (link.imp_right .inr)⟩
  induction shown with
  | visited indexed inside =>
      exact Option.isSome_iff_exists.2 ⟨_, (h.mem_file indexed inside).2.2⟩
  | @declared sym m id later answer => exact h.declared sym.handle id answer
  | name _ named ih => exact linked ih (.inr named)
  | parent _ up ih => exact linked ih (.inl up)
  | asked _ _ ih => exact ih

/-- **Two nodes of a file that share a line share their span**, which lies on that line. -/
theorem span_eq (h : s.Proper) {id other : NodeId} {file : String}
    (known : s.fileAt id = some file) (known' : s.fileAt other = some file)
    (line : (s.node id).span.start.line = (s.node other).span.start.line) :
    (s.node id).span = (s.node other).span := by
  obtain ⟨e, here, same, own⟩ := exists_node known
  obtain ⟨e', here', same', own'⟩ := exists_node known'
  rw [same, same'] at line ⊢
  exact h.aligned _ _ e e' here here' (own.trans own'.symm) line

theorem span_onLine (h : s.Proper) {id : NodeId} {file : String}
    (known : s.fileAt id = some file) : ∃ line width, (s.node id).span = onLine line width := by
  obtain ⟨e, here, same, -⟩ := exists_node known
  obtain ⟨line, width, shape, -⟩ := (h.placed _ e here).line
  exact ⟨line, width, same ▸ shape⟩

end Proper

end Sketch

end SymbolAtlas
