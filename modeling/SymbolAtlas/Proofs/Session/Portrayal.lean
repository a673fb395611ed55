/-
# SymbolAtlas.Proofs.Session.Portrayal -- nodes that say what the program says

What a node says about its symbol could depend on when the node was made: the oracle is asked
then, and the symbol gets its name then.  If the oracle portrays a program, it does not.  A node
is addressed as its symbol is in the program, has the declarations that the symbol has there,
and is global exactly if the program gives it a name (`SymbolNode.Portrayed`).

Only foundings make nodes, and they make them for symbols that the oracle has named
(`knows_of_raises`), so this holds whatever part of its schedule a run has performed
(`portrayed_performed`).
-/
import SymbolAtlas.Proofs.Naming.Titles
import SymbolAtlas.Proofs.Session.Marks

set_option autoImplicit false

namespace SymbolAtlas.Session

variable {μ ω π : Type} {c : Context μ ω} {start m m' : μ} {P : Portrait π} {r : Recall μ π}
  {n₀ : Namer}

/-- The node of a key says what the program says. -/
structure SymbolNode.Portrayed (P : Portrait π) (r : Recall μ π) (n₀ : Namer) (m : μ)
    (key : String) (n : SymbolNode) : Prop where
  own : n.symbol.key = key
  known : r.knows m n.symbol
  outline : n.variant.map Variant.outline = some (P.outline key)
  links : ∀ v, n.variant = some v → ∀ sym ∈ v.links, r.knows m sym
  declarations : (P.outline key).isAtUse = false →
    n.declarations.map (r.reads m) = (P.declarations key).map some
  isLocal : n.isLocal = (P.titleOf n₀ key).isNone
  identifier : ∀ name, P.titleOf n₀ key = some name → n.identifier = name.render

/-- Names and nodes say what the program says. -/
structure State.Portrayed (P : Portrait π) (r : Recall μ π) (n₀ : Namer) (s : State μ ω) :
    Prop where
  namer : s.namer.Faithful P r n₀ s.memory
  nodes : s.symbols.All fun key n => n.Portrayed P r n₀ s.memory key

theorem map_reads_later (portrays : c.oracle.Portrays start P r) {ids : List NodeId}
    {places : List π} (read : ids.map (r.reads m) = places.map some)
    (later : c.oracle.Later m m') : ids.map (r.reads m') = places.map some := by
  induction ids generalizing places with
  | nil => exact read
  | cons id ids ih =>
      cases places with
      | nil => cases read
      | cons x places =>
          obtain ⟨first, rest⟩ := List.cons.inj read
          exact congrArg₂ List.cons (portrays.reads_later first later) (ih rest)

theorem SymbolNode.Portrayed.later (portrays : c.oracle.Portrays start P r) {key : String}
    {n : SymbolNode} (h : n.Portrayed P r n₀ m key) (later : c.oracle.Later m m') :
    n.Portrayed P r n₀ m' key where
  own := h.own
  known := portrays.knows_later h.known later
  outline := h.outline
  links v variant sym member := portrays.knows_later (h.links v variant sym member) later
  declarations addressed := map_reads_later portrays (h.declarations addressed) later
  isLocal := h.isLocal
  identifier := h.identifier

theorem SymbolNode.Portrayed.of_profile {key : String} {n n' : SymbolNode}
    (h : n.Portrayed P r n₀ m key) (same : n'.profile = n.profile) :
    n'.Portrayed P r n₀ m key := by
  have isLocal : n'.isLocal = n.isLocal := (congrArg SymbolNode.isLocal same :)
  have identifier : n'.identifier = n.identifier := (congrArg SymbolNode.identifier same :)
  obtain ⟨own, known, outline, links, declarations, local_, named⟩ := h
  rw [← symbol_of_profile same] at own known
  rw [← variant_of_profile same] at outline links
  rw [← declarations_of_profile same] at declarations
  exact ⟨own, known, outline, links, declarations, isLocal.trans local_, identifier ▸ named⟩

/-- Where a symbol is met: at an identifier that the oracle had shown from the start. -/
def Recall.Met (P : Portrait π) (r : Recall μ π) (start : μ) (use : Option NodeId) : Prop :=
  ∀ id ∈ use, ∃ x, r.reads start id = some x ∧ (P.face x).kind = .identifier

/-! ## New nodes -/

/-- A symbol that is raised was named. -/
theorem knows_of_raises (portrays : c.oracle.Portrays start P r) {use : Option NodeId}
    (met : Recall.Met P r start use) {s : State μ ω} (h : s.Portrayed P r n₀) {sym : Symbol}
    (raised : c.Raises start use s sym) : r.knows s.memory sym := by
  rcases raised with ⟨id, used, m, later, named, rest⟩ | ⟨key, n, v, node, variant, member⟩
  · obtain ⟨x, read, -⟩ := met id used
    have names := portrays.symbolAt (portrays.reads_later read later)
    exact portrays.knows_later (names.2 sym named) rest
  · exact (h.nodes key n node).links v variant sym member

/-- **A new node says what the program says**, and so do the names that were given for it. -/
theorem portrayed_made (portrays : c.oracle.Portrays start P r)
    (apart : P.Apart n₀ SymbolName.render) {use : Option NodeId} (met : Recall.Met P r m use) {sym : Symbol} {v : Variant}
    {declarations : List NodeId} {name : SymbolName} {n namer : Namer} {m₁ m₂ m₃ : μ}
    (known : r.knows m sym) (faithful : n.Faithful P r n₀ m)
    (classified : (v, m₁) = Variant.classify c.oracle sym use m)
    (declared : (declarations, m₂) = v.declarationsOf c.oracle sym use m₁)
    (called : (.ok (name, namer), m₃) = n.nameFirst? c.oracle declarations m₂) (resultSet : Graph.Id) :
    (nodeOfSymbol sym v declarations name resultSet).Portrayed P r n₀ m₃ sym.key ∧
      namer.Faithful P r n₀ m₃ := by
  have later₁ : c.oracle.Later m m₁ := by
    have asked := c.oracle.later_classify sym use m
    rwa [← classified] at asked
  have later₂ : c.oracle.Later m₁ m₂ := by
    have asked := (c.oracle.hushed_declarationsOf sym use v m₁).later
    rwa [← declared] at asked
  have later₃ : c.oracle.Later m₂ m₃ := by
    have asked := (c.oracle.hushed_nameFirst? declarations n m₂).later
    rwa [← called] at asked
  have known₁ := portrays.knows_later known later₁
  obtain ⟨outline, links⟩ := outline_classify portrays known use
  rw [← classified] at outline links
  have atUse : (P.outline sym.key).isAtUse = v.isAtUse := outline ▸ v.isAtUse_outline
  obtain ⟨places, read, chosen, title⟩ : ∃ places : List π,
      declarations.map (r.reads m₂) = places.map some ∧
      (v.isAtUse = false → places = P.declarations sym.key) ∧
      places.head?.bind (P.title n₀) = P.titleOf n₀ sym.key := by
    unfold Portrait.titleOf
    rw [atUse]
    unfold Variant.declarationsOf at declared
    by_cases use_ : v.isAtUse = true
    · rw [if_pos use_] at declared
      obtain ⟨rfl, rfl⟩ := Prod.mk.inj declared
      simp only [use_, if_true]
      cases use with
      | none => exact ⟨[], rfl, by simp, rfl⟩
      | some id =>
          obtain ⟨x, read, kind⟩ := met id rfl
          refine ⟨[x], ?_, by simp, P.title_of_identifier kind⟩
          exact congrArg (fun y => [y]) (portrays.reads_later read (later₁.trans later₂))
    · rw [if_neg use_] at declared
      obtain rfl : declarations = (c.oracle.declarationsOf sym m₁).1 := congrArg Prod.fst declared
      obtain rfl : m₂ = (c.oracle.declarationsOf sym m₁).2 := congrArg Prod.snd declared
      refine ⟨P.declarations sym.key, portrays.declarationsOf known₁, fun _ => rfl, ?_⟩
      rw [if_neg use_]
  obtain ⟨_, _, _, told, named, faithful'⟩ := Namer.faithful_nameFirst? portrays apart read
    (faithful.later portrays (later₁.trans later₂))
  rw [← called] at told
  obtain ⟨⟨rfl, rfl⟩, rfl⟩ := told
  rw [title] at named
  refine ⟨⟨rfl, ?_, congrArg some outline, ?_, ?_, ?_, ?_⟩, faithful'⟩
  · exact portrays.knows_later known₁ (later₂.trans later₃)
  · rintro _ ⟨⟩ other member
    exact portrays.knows_later (links other member) (later₂.trans later₃)
  · intro addressed
    rw [atUse] at addressed
    exact map_reads_later portrays (chosen addressed ▸ read) later₃
  · exact named ▸ SymbolName.isLocal_of_global?
  · intro title' titled
    exact congrArg SymbolName.render (SymbolName.global?_eq_some (named.trans titled))

/-! ## Steps -/

section Steps

variable {s s' : State μ ω}

theorem Detail.namer (step : Detail c s s') : s'.namer = s.namer := by
  cases step <;> rfl

theorem Details.namer (details : Details c s s') : s'.namer = s.namer := by
  induction details with
  | refl => rfl
  | tail _ last ih => exact last.namer.trans ih

/-- Only new nodes have to be compared with the program. -/
theorem State.Portrayed.steps (portrays : c.oracle.Portrays start P r) (h : s.Portrayed P r n₀)
    (steps : Steps c s s') (namer : s'.namer = s.namer)
    (same : ∀ key, s'.Has key → s.Has key) : s'.Portrayed P r n₀ := by
  refine ⟨namer ▸ h.namer.later portrays steps.later, fun key n' node' => ?_⟩
  obtain ⟨n, node⟩ := same key ⟨n', node'⟩
  obtain ⟨n'', node'', profile⟩ := steps.profile node
  obtain rfl := Option.some.inj (node'.symm.trans node'')
  exact ((h.nodes key n node).later portrays steps.later).of_profile profile

theorem State.Portrayed.of_core (portrays : c.oracle.Portrays start P r)
    (h : s.Portrayed P r n₀) (steps : Steps c s s') (namer : s'.namer = s.namer)
    (core : s'.coreAt = s.coreAt) : s'.Portrayed P r n₀ :=
  h.steps portrays steps namer fun _ has => (kept_of_core core.symm).has has

theorem Founding.portrayed (portrays : c.oracle.Portrays start P r)
    (apart : P.Apart n₀ SymbolName.render) {use : Option NodeId}
    (met : Recall.Met P r start use) (founding : Founding c start use s s')
    (later : c.oracle.Later start s.memory) (h : s.Portrayed P r n₀) : s'.Portrayed P r n₀ := by
  cases founding with
  | move move same =>
      have steps : Steps c s s' := Moves.steps (.single move)
      cases move with
      | detail step => exact h.of_core portrays steps step.namer step.core
      | growth step =>
          cases step with
          | @enrolled sym _ _ _ _ _ _ _ _ fresh =>
              obtain ⟨n, node⟩ := same sym.key ⟨_, by rw [get?_enrolled, if_pos rfl]⟩
              simp [fresh] at node
          | based | composed => exact h.steps portrays steps rfl same
  | @made sym v declarations name namer m₁ m₂ m₃ raised fresh classified declared called details =>
      have growth : Growth c s (s.enrolled c sym v declarations name namer m₃) :=
        .enrolled fresh classified declared called
      have known := knows_of_raises portrays met h raised
      have met' : Recall.Met P r s.memory use := fun id used => by
        obtain ⟨x, read, kind⟩ := met id used
        exact ⟨x, portrays.reads_later read later, kind⟩
      obtain ⟨made, faithful⟩ := portrayed_made portrays apart met' known h.namer classified
        declared called (s.lastId + 1)
      have enrolled : (s.enrolled c sym v declarations name namer m₃).Portrayed P r n₀ := by
        refine ⟨faithful, Table.All.insert ?_ made⟩
        exact h.nodes.imp fun key n _ portrayed => portrayed.later portrays growth.later
      exact enrolled.of_core portrays details.moves.steps (Details.namer details) details.core

theorem Foundings.portrayed (portrays : c.oracle.Portrays start P r)
    (apart : P.Apart n₀ SymbolName.render) {use : Option NodeId} (met : Recall.Met P r start use)
    (foundings : Foundings c start use s s') (later : c.oracle.Later start s.memory)
    (h : s.Portrayed P r n₀) : s'.Portrayed P r n₀ := by
  induction foundings with
  | refl => exact h
  | tail before last ih =>
      exact last.portrayed portrays apart met
        (later.trans (Foundings.moves before).steps.later) ih

theorem Endings.portrayed (portrays : c.oracle.Portrays start P r) (endings : Endings c s s')
    (h : s.Portrayed P r n₀) : s'.Portrayed P r n₀ := by
  refine h.of_core portrays endings.steps ?_ endings.core
  obtain ⟨_, _, _, _, _, rfl⟩ := endings.shape
  rfl

end Steps

/-! ## Runs -/

section Performed

variable {memory : μ} {output : ω}

/-- How a session names files and what lies below them. -/
abbrev Context.namer (c : Context μ ω) : Namer := .start c.options.scheme c.locate

/-- What a file shows was met from the start. -/
theorem met_of_inside (portrays : c.oracle.Portrays memory P r) {file : Tree}
    (indexed : file ∈ c.oracle.files) {n : Node} (inside : n ∈ file.nodes)
    (node : c.oracle.node n.id memory = n) (kind : n.kind = .identifier) :
    Recall.Met P r memory (some n.id) := by
  rintro _ ⟨⟩
  obtain ⟨x, read⟩ := portrays.reads_tree indexed inside
  have face := portrays.face (read memory .refl)
  rw [node] at face
  exact ⟨x, read memory .refl, (congrArg Face.kind face).symm.trans kind⟩

/-- The name of a declaration in a file was met from the start. -/
theorem met_of_name (portrays : c.oracle.Portrays memory P r) {file : Tree}
    (indexed : file ∈ c.oracle.files) {n : Node} (inside : n ∈ file.nodes)
    (node : c.oracle.node n.id memory = n) : Recall.Met P r memory n.nameNode := by
  intro id named
  obtain ⟨x, read⟩ := portrays.reads_tree indexed inside
  have sees := portrays.nameNode (read memory .refl)
  rw [node, show n.nameNode = some id from named] at sees
  obtain ⟨y, up, read'⟩ := sees.exists_of_some
  exact ⟨y, read', P.kind_nameNode x y up⟩

/-- **Whatever part of its schedule a run has performed**, its nodes say what the program says. -/
theorem portrayed_performed (anchored : c.oracle.Anchored memory)
    (portrays : c.oracle.Portrays memory P r) (apart : P.Apart c.namer SymbolName.render)
    {first rest : List Moment} {s : State μ ω} (split : schedule c.oracle.files = first ++ rest)
    (course : Course c first ((State.start c memory output).opened c) s)
    (ok : s.failure = none) : s.Portrayed P r c.namer := by
  refine deed_induction anchored (P := fun _ s => s.Portrayed P r c.namer) ?_ ?_ split course ok
  · exact ⟨Namer.faithful_start memory rfl rfl, Table.all_empty _⟩
  rintro first m rest s s' split course - deed steps h
  have later := course.steps.later
  cases deed with
  | opened | skipped => exact h.of_core portrays steps rfl rfl
  | ignored => exact h
  | closed endings =>
      exact Endings.portrayed portrays endings (s := { s with current := none }) ⟨h.namer, h.nodes⟩
  | @left n _ shown foundings =>
      have moment : .leaving n ∈ schedule c.oracle.files := by
        rw [split]
        simp
      obtain ⟨file, indexed, inside⟩ := leaving_inside moment
      have node := (anchored.tree file indexed _ inside).1
      exact foundings.portrayed portrays apart (met_of_name portrays indexed inside node) later h
  | @recorded path file n sym t s' indexed inside here sighted shown foundings recorded =>
      have node := (anchored.tree file indexed n inside).1
      have kind : n.kind = .identifier := by
        have named := named_of_sighting sighted
        simp only [Moment.named?] at named
        split at named
        · assumption
        · cases named
      have founded := foundings.portrayed portrays apart
        (met_of_inside portrays indexed inside node kind) later h
      rcases recorded.usage with rfl | usage
      · exact founded
      · refine founded.of_core portrays recorded.steps ?_ usage.core
        obtain ⟨_, _, _, _, _, rfl⟩ := usage.shape
        rfl

/-- The nodes of a completed run say what the program says. -/
theorem portrayed_run (anchored : c.oracle.Anchored memory)
    (portrays : c.oracle.Portrays memory P r) (apart : P.Apart c.namer SymbolName.render)
    {canceled : Cancellation Nat} {stats : Stats} {s' : State μ ω}
    (completed : Yields (run c canceled) (.start c memory output) (stats, none) s') :
    s'.symbols.All fun key n => n.Portrayed P r c.namer s'.memory key := by
  obtain ⟨t, u, course, endings, -, -, rfl, ok⟩ := course_run completed
  have okT := endings.steps.failure_none (failure_none_of_concluded ok)
  have portrayed := portrayed_performed anchored portrays apart (List.append_nil _).symm course okT
  rw [symbols_concluded, memory_concluded]
  exact (Endings.portrayed portrays endings portrayed).nodes

end Performed

end SymbolAtlas.Session
