/-
# SymbolAtlas.Proofs.Session.Founding -- new nodes are made with all that belongs to them

The moves of a request, grouped by the nodes that it makes.  A `Founding` is a move that
makes no node, or everything from the reservation of a key to the last declaration of its
symbol.  So an invariant of nodes has to hold of a new node only when its declarations are on
record, and a request is made of foundings (`foundings_symbolNode`).

A node is made for a symbol that the oracle named: where it was met, or as one that another
node is linked to (`Context.Raises`).
-/
import SymbolAtlas.Proofs.Session.Questions
import SymbolAtlas.Proofs.Session.Requests

set_option autoImplicit false

namespace SymbolAtlas.Session

variable {μ ω : Type} {c : Context μ ω} {start : μ} {use : Option NodeId}

/-- The oracle named the symbol: as what `use` denotes, some time after `start`, or as one that a
node is linked to. -/
def Context.Raises (c : Context μ ω) (start : μ) (use : Option NodeId) (s : State μ ω)
    (sym : Symbol) : Prop :=
  (∃ id ∈ use, ∃ m, c.oracle.Later start m ∧ (c.oracle.symbolAt id m).1 = some sym ∧
    c.oracle.Later (c.oracle.symbolAt id m).2 s.memory) ∨ s.Leads sym

/-- A move that makes no node, or all that is done for a new node before it is linked; `use` is
where the symbol was met. -/
inductive Founding (c : Context μ ω) (start : μ) (use : Option NodeId) :
    State μ ω → State μ ω → Prop where
  | move {s s' : State μ ω} (move : Move c s s') (same : ∀ key, s'.Has key → s.Has key) :
      Founding c start use s s'
  | made {s s' : State μ ω} {sym : Symbol} {variant : Variant} {declarations : List NodeId}
      {name : SymbolName} {namer : Namer} {m₁ m₂ m₃ : μ} (raised : c.Raises start use s sym)
      (fresh : s.symbols.get? sym.key = none)
      (classified : (variant, m₁) = Variant.classify c.oracle sym use s.memory)
      (declared : (declarations, m₂) = variant.declarationsOf c.oracle sym use m₁)
      (called : (.ok (name, namer), m₃) = s.namer.nameFirst? c.oracle declarations m₂)
      (details : Details c (s.enrolled c sym variant declarations name namer m₃) s')
      (notes : ∀ id ∈ declarations, s'.Notes c s'.memory sym.key id) : Founding c start use s s'

/-- Foundings one after the other. -/
abbrev Foundings (c : Context μ ω) (start : μ) (use : Option NodeId) :
    State μ ω → State μ ω → Prop :=
  Relation.ReflTransGen (Founding c start use)

theorem Founding.moves {s s' : State μ ω} (h : Founding c start use s s') : Moves c s s' := by
  cases h with
  | move move => exact .single move
  | made _ fresh classified declared called details =>
      exact .head (.growth (.enrolled fresh classified declared called)) details.moves

theorem Foundings.moves {s s' : State μ ω} (h : Foundings c start use s s') : Moves c s s' := by
  induction h with
  | refl => exact .refl
  | tail _ last ih => exact ih.trans last.moves

theorem Detail.founding {s s' : State μ ω} (h : Detail c s s') : Founding c start use s s' :=
  .move (.detail h) fun _ has => (kept_of_core h.core.symm).has has

theorem Details.foundings {s s' : State μ ω} (h : Details c s s') : Foundings c start use s s' :=
  Relation.ReflTransGen.mono (fun _ _ h => h.founding) _ _ h

/-! ## Requests -/

theorem requesting_foundings :
    Requesting c use (c.Raises start use) (Foundings c start use) where
  refl _ := .refl
  trans first second := first.trans second
  leads := .inr
  linked h := .single (.move h.move h.same)
  made raised absent established := by
    obtain ⟨declarations, name, namer, m₁, m₂, m₃, classified, declared, called, details, notes⟩ :=
      yields_establish established
    exact .single (.made raised absent classified declared called details notes)

/-- **A request for a node is made of foundings.** -/
theorem foundings_symbolNode {sym : Symbol} {s s' : State μ ω} {key : String}
    (raised : c.Raises start use s sym) (h : Yields (symbolNode c sym use) s key s') :
    Foundings c start use s s' :=
  requesting_foundings.symbolNode raised h

theorem foundings_linkExport {declaration : Node} {name path : String} {nameNode : NodeId}
    {sym : Symbol} {s s' : State μ ω} {u : Unit} (later : c.oracle.Later start s.memory)
    (current : s.current = some path) (named : declaration.nameNode = some nameNode)
    (found : (c.oracle.symbolAt nameNode s.memory).1 = some sym)
    (h : Yields (linkExport c declaration name) s u s') :
    Foundings c start (some nameNode) s s' := by
  obtain ⟨t, n, requested, node, exporting⟩ := exporting_linkExport current named found h
  have asked : Detail c s { s with memory := (c.oracle.symbolAt nameNode s.memory).2 } :=
    .asked (.symbolAt ..)
  have first : Foundings c start (some nameNode) s t :=
    .head asked.founding (foundings_symbolNode
      (.inl ⟨nameNode, rfl, s.memory, later, found, .refl⟩) requested)
  have both {target : Symbol} {v : State μ ω} (variant : n.variant = some (.aliasOf (some target)))
      (requested : Yields (symbolNode c target (some nameNode)) t target.key v) :
      Foundings c start (some nameNode) s v :=
    first.trans (foundings_symbolNode
      (.inr ⟨_, n, _, node, variant, List.mem_singleton_self _⟩) requested)
  cases exporting with
  | other => exact first
  | withheld variant requested => exact both variant requested
  | published variant requested targetNode _ _ attached tallied =>
      exact ((both variant requested).trans
        (details_attachMoniker targetNode attached).foundings).trans tallied.details.foundings

/-- The visit of a node after its children is made of foundings. -/
theorem foundings_leave {path : String} {n : Node} {s s' : State μ ω} {u : Unit}
    (later : c.oracle.Later start s.memory) (current : s.current = some path)
    (h : Yields (leave c n) s u s') : Foundings c start n.nameNode s s' := by
  by_cases idle : s.failure.isSome = true ∨ symbolPublished c.oracle n s.memory = none
  · obtain ⟨_, details, -⟩ := asking_leave current idle h
    exact details.foundings
  · obtain ⟨ok, publishes⟩ := not_or.1 idle
    obtain ⟨sym, published⟩ := Option.ne_none_iff_exists'.1 publishes
    obtain ⟨name, nameNode, -, named, found, linked⟩ :=
      exporting_leave (by simpa using ok) published h
    have asked : Detail c s { s with memory := (c.oracle.exportAlias n.id s.memory).2 } :=
      .asked (.exportAlias ..)
    rw [named]
    exact .head asked.founding (foundings_linkExport
      (later.tail (.quiet (.exportAlias n.id s.memory))) (by exact current) named found linked)

end SymbolAtlas.Session
