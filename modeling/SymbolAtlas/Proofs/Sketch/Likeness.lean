/-
# SymbolAtlas.Proofs.Sketch.Likeness -- what a sketch is a sketch of

The oracle of a sketch answers from the sketch and never changes its mind, so a sketch is the
program that it answers from, once keys are told from handles: every symbol that is mentioned is
there, and no two have one key (`Sketch.Whole`).  That is `Sketch.likeness`, and
`Sketch.portrays` is the contract.
-/
import Mathlib.Data.List.Nodup
import SymbolAtlas.Proofs.Naming.Titles
import SymbolAtlas.Sketch

set_option autoImplicit false

namespace SymbolAtlas

namespace Sketch

/-- Nothing is missing from a sketch: symbols stand under their handles, no two of them have one
key, and those that others mention are there; containers are older than what they contain, and
declarations are named by identifiers. -/
structure Whole (s : Sketch) : Prop where
  handle : ∀ h, h < s.symbols.size → (s.symbol h).symbol.handle = h
  keys : (s.symbols.toList.map (·.symbol.key)).Nodup
  bound : ∀ entry ∈ s.bindings.entries, entry.2 < s.symbols.size
  based : ∀ entry ∈ s.bases.entries, ∀ h ∈ entry.2, h < s.symbols.size
  target : ∀ h, h < s.symbols.size → ∀ t ∈ (s.symbol h).target, t < s.symbols.size
  container : ∀ h, h < s.symbols.size → ∀ t ∈ (s.symbol h).container, t < s.symbols.size
  parent : ∀ i, i < s.nodes.size → ∀ p ∈ (s.node ⟨i⟩).parent, p.index < i
  owner : ∀ i, i < s.nodes.size → ∀ p ∈ s.ownerOf ⟨i⟩, p.index < i
  named : ∀ i, i < s.nodes.size → ∀ name ∈ (s.node ⟨i⟩).nameNode, (s.node name).kind = .identifier

/-- The symbol with a key. -/
def keyed (s : Sketch) (key : String) : SketchSymbol :=
  (s.symbols.toList.find? (·.symbol.key = key)).getD default

/-- The key of the symbol with a handle. -/
def keyOf (s : Sketch) (handle : Nat) : String := (s.symbol handle).symbol.key

/-- How old a node is; the nodes that are not there are the oldest. -/
def ageOf (s : Sketch) (id : NodeId) : Nat := if id.index < s.nodes.size then id.index else 0

section Absent

variable {s : Sketch} {id : NodeId} (absent : ¬ id.index < s.nodes.size)

include absent

theorem node_of_absent : s.node id = { id } := by
  rw [node, Array.getElem?_eq_none (Nat.not_lt.1 absent), Option.map_none, Option.getD_none]

theorem ownerOf_of_absent : s.ownerOf id = none := by
  rw [ownerOf, Array.getElem?_eq_none (Nat.not_lt.1 absent)]

end Absent

namespace Whole

variable {s : Sketch} (h : s.Whole)

include h

theorem ageOf_lt {id p : NodeId} (inside : id.index < s.nodes.size)
    (above : (s.node id).parent = some p ∨ s.ownerOf id = some p) : s.ageOf p < s.ageOf id := by
  have less : p.index < id.index := above.elim (h.parent id.index inside p) (h.owner id.index inside p)
  rw [ageOf, ageOf, if_pos (Nat.lt_trans less inside), if_pos inside]
  exact less

/-- Containers are older than what they contain. -/
theorem ageOf_above {id p : NodeId}
    (up : (s.node id).face.above (s.node id).parent (s.ownerOf id) = some p) :
    s.ageOf p < s.ageOf id := by
  have above : (s.node id).parent = some p ∨ s.ownerOf id = some p := by
    unfold Face.above at up
    split at up
    · exact .inr up
    · split at up
      · exact .inl up
      · exact .inr up
      · cases up
  by_cases inside : id.index < s.nodes.size
  · exact h.ageOf_lt inside above
  · rw [node_of_absent inside, ownerOf_of_absent inside] at above
    rcases above with up | up <;> cases up

theorem kind_nameNode {id name : NodeId} (named : (s.node id).nameNode = some name) :
    (s.node name).kind = .identifier := by
  by_cases inside : id.index < s.nodes.size
  · exact h.named id.index inside name named
  · rw [node_of_absent inside] at named
    cases named

/-- A symbol is found by its key. -/
theorem keyed_keyOf {handle : Nat} (there : handle < s.symbols.size) :
    s.keyed (s.keyOf handle) = s.symbol handle := by
  have here : s.symbols[handle]? = some s.symbols[handle] := Array.getElem?_eq_getElem there
  have own : s.symbol handle = s.symbols[handle] := by rw [symbol, here, Option.getD_some]
  have inside : s.symbols[handle] ∈ s.symbols.toList := Array.getElem_mem_toList there
  unfold keyed
  cases found : s.symbols.toList.find? (·.symbol.key = s.keyOf handle) with
  | none =>
      have other := List.find?_eq_none.1 found _ inside
      rw [keyOf, own] at other
      simp at other
  | some e =>
      have key : e.symbol.key = s.keyOf handle := by simpa using List.find?_some found
      rw [Option.getD_some, own]
      refine List.inj_on_of_nodup_map h.keys (List.mem_of_find?_eq_some found) inside ?_
      rw [key, keyOf, own]

end Whole

/-- A sketch as a program: its nodes are the places. -/
def likeness (s : Sketch) (whole : s.Whole) : Portrait NodeId where
  face id := (s.node id).face
  parent id := (s.node id).parent
  nameNode id := (s.node id).nameNode
  owner := s.ownerOf
  denotes id := (s.bindings.get? id).map s.keyOf
  publishes id := s.exportAliases.get? id
  label key := (s.keyed key).symbol.name
  flags key := (s.keyed key).symbol.flags
  declarations key := (s.keyed key).declarations
  target key := (s.keyed key).target.map s.keyOf
  members key := (s.keyed key).members.map (·.map s.keyOf)
  container key := (s.keyed key).container.map s.keyOf
  bases key name := ((s.bases.get? (key, name)).getD []).map s.keyOf
  exported key := (s.keyed key).exportPath
  depth := s.ageOf
  depth_above _ _ := whole.ageOf_above
  kind_nameNode _ _ := whole.kind_nameNode

/-- What is known of a sketch, whatever it was asked: all nodes, and the symbols that are there. -/
def recalled (s : Sketch) : Recall AliasLog NodeId where
  reads _ := some
  knows _ sym := sym.handle < s.symbols.size ∧ (s.symbol sym.handle).symbol = sym

section Contract

variable {s : Sketch} (whole : s.Whole) {m : AliasLog}

include whole

theorem knows_symbol {handle : Nat} (there : handle < s.symbols.size) :
    s.recalled.knows m (s.symbol handle).symbol := by
  show (s.symbol handle).symbol.handle < s.symbols.size ∧ _
  rw [whole.handle handle there]
  exact ⟨there, rfl⟩

theorem keyed_of_knows {sym : Symbol} (known : s.recalled.knows m sym) :
    s.keyed sym.key = s.symbol sym.handle := by
  obtain ⟨there, same⟩ := known
  have key : s.keyOf sym.handle = sym.key := congrArg Symbol.key same
  rw [← key, whole.keyed_keyOf there]

/-- A handle that is answered names a symbol. -/
theorem names_handle {handle : Option Nat} (there : ∀ h ∈ handle, h < s.symbols.size) :
    s.recalled.Names m (handle.map fun h => (s.symbol h).symbol) (handle.map s.keyOf) := by
  refine ⟨by rw [Option.map_map]; rfl, fun sym found => ?_⟩
  obtain ⟨h, answered, rfl⟩ := Option.map_eq_some_iff.1 found
  exact knows_symbol whole (there h answered)

theorem namesAll_handles {handles : List Nat} (there : ∀ h ∈ handles, h < s.symbols.size) :
    s.recalled.NamesAll m (handles.map fun h => (s.symbol h).symbol) (handles.map s.keyOf) := by
  refine ⟨by rw [List.map_map]; rfl, fun sym found => ?_⟩
  obtain ⟨h, answered, rfl⟩ := List.mem_map.1 found
  exact knows_symbol whole (there h answered)

/-- What is answered of a known symbol is what is on record under its key. -/
theorem names_related {sym : Symbol} (known : s.recalled.knows m sym)
    (relation : SketchSymbol → Option Nat)
    (there : ∀ h, h < s.symbols.size → ∀ t ∈ relation (s.symbol h), t < s.symbols.size)
    {m' : AliasLog} :
    s.recalled.Names m' ((relation (s.symbol sym.handle)).map fun t => (s.symbol t).symbol)
      ((relation (s.keyed sym.key)).map s.keyOf) := by
  rw [keyed_of_knows whole known]
  exact names_handle whole (there sym.handle known.1)

/-- **The oracle of a sketch portrays the sketch.** -/
theorem portrays (start : AliasLog) : s.oracle.Portrays start (s.likeness whole) s.recalled where
  reads_asked _ read := read
  reads_inj read read' := Option.some.inj (read.trans read'.symm)
  knows_asked _ known := known
  tree _ _ _ _ := rfl
  face read := Option.some.inj read ▸ rfl
  parent {_ _ _} read := by
    obtain rfl := Option.some.inj read
    rfl
  nameNode read := by
    obtain rfl := Option.some.inj read
    rfl
  owner read := by
    obtain rfl := Option.some.inj read
    rfl
  symbolAt {m id x} read := by
    obtain rfl := Option.some.inj read
    have answer : (s.oracle.symbolAt id m).1 =
        (s.bindings.get? id).map fun h => (s.symbol h).symbol := Option.map_map ..
    rw [answer]
    refine names_handle whole fun h bound => ?_
    exact whole.bound (id, h) (Table.mem_entries_iff.2 bound)
  exportAlias read := Option.some.inj read ▸ rfl
  symbol {m sym} known := by
    show _ = (s.keyed sym.key).symbol.name ∧ _ = (s.keyed sym.key).symbol.flags
    rw [keyed_of_knows whole known, known.2]
    exact ⟨rfl, rfl⟩
  declarationsOf {m sym} known := by
    show (s.symbol sym.handle).declarations.map some = (s.keyed sym.key).declarations.map some
    rw [keyed_of_knows whole known]
  resolveAlias known := names_related whole known (·.target) whole.target
  compositeMembers {m sym} use known := by
    show ((s.symbol sym.handle).members.map _).map _ = (s.keyed sym.key).members.map _
    rw [keyed_of_knows whole known, Option.map_map]
    refine congrArg (Option.map · _) (funext fun members => ?_)
    exact List.map_map
  containerOf known := names_related whole known (·.container) whole.container
  baseMembers {m container} name known := by
    refine namesAll_handles whole fun h member => ?_
    cases listed : s.bases.get? (container.key, name) with
    | none => simp [listed] at member
    | some handles =>
        rw [listed, Option.getD_some] at member
        exact whole.based (_, handles) (Table.mem_entries_iff.2 listed) h member
  exportPath {m sym} known := by
    show (s.symbol sym.handle).exportPath = (s.keyed sym.key).exportPath
    rw [keyed_of_knows whole known]
  exportPath_stays _ _ _ := rfl
  depth id := by
    show s.ageOf id ≤ s.nodes.size + s.symbols.size + 1
    unfold ageOf
    split <;> omega

end Contract

/-- In a sketch it is enough to compare the nodes that are there. -/
theorem apart_likeness {s : Sketch} {whole : s.Whole} {n₀ : Namer} {κ : Type}
    {key : SymbolName → κ}
    (alone : ∀ i, i < s.nodes.size → ∀ j, j < s.nodes.size →
      ((s.likeness whole).address n₀ key ⟨i⟩).isSome = true →
      (s.likeness whole).address n₀ key ⟨i⟩ = (s.likeness whole).address n₀ key ⟨j⟩ → i = j)
    (once : ∀ i, i < s.nodes.size → (s.node ⟨i⟩).redeclarable = false) :
    (s.likeness whole).Apart n₀ key := by
  have inside : ∀ {id : NodeId}, ((s.likeness whole).address n₀ key id).isSome = true →
      id.index < s.nodes.size := by
    intro id some_
    by_contra absent
    have kind : ((s.likeness whole).face id).kind = .other :=
      congrArg Node.kind (node_of_absent absent)
    rw [Portrait.address, kind] at some_
    cases some_
  refine ⟨fun x y at_ here there => ?_, fun x some_ => once x.index (inside some_)⟩
  have some_ : ((s.likeness whole).address n₀ key x).isSome = true := by rw [here]; rfl
  have some' : ((s.likeness whole).address n₀ key y).isSome = true := by rw [there]; rfl
  have same := alone x.index (inside some_) y.index (inside some') some_ (here.trans there.symm)
  exact congrArg NodeId.mk same

end Sketch

end SymbolAtlas
