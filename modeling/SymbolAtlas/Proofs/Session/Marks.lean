/-
# SymbolAtlas.Proofs.Session.Marks -- what nodes know about their declarations

A node knows where each of its declarations is marked, and at which places a definition of its
symbol was recorded.  If the oracle keeps the contract of nodes, what it knows stays true
(`State.Rooted`): the declarations are nodes that were shown, each site is the place where a
declaration is marked, and in the files of the run a definition was recorded only where the
run came upon an identifier.

Between two moments every declaration is on record (`State.Noted`): a node is made with its
declarations, and what was put on record stays there.  `marked_performed` says both of any part
of the schedule that a run has performed.
-/
import SymbolAtlas.Proofs.Session.Anchors
import SymbolAtlas.Proofs.Session.Occurrences
import SymbolAtlas.Proofs.Session.Sightings

set_option autoImplicit false

namespace SymbolAtlas.Session

open SymbolAtlas.Graph (Id)

variable {μ ω : Type} {c : Context μ ω} {start : μ} {seen : List Site}

/-! ## What is done at a moment -/

/-- What a run does at a moment, in terms of nodes that were shown. -/
inductive Deed (c : Context μ ω) (start : μ) (s : State μ ω) : Moment → State μ ω → Prop where
  | opened {path : String} (fresh : s.documents.get? path = none) :
      Deed c start s (.opening path) { s.began c path with current := some path }
  | ignored {path : String} {n : Node}
      (unsighted : (Moment.entering path n).sighting? c.oracle s.memory = none) :
      Deed c start s (.entering path n) s
  | skipped {path : String} {n : Node}
      (sighted : (Moment.entering path n).sighting? c.oracle s.memory = some ⟨path, n, none⟩) :
      Deed c start s (.entering path n)
        (State.passed { s with memory := (c.oracle.symbolAt n.id s.memory).2 })
  | recorded {path : String} {file : Tree} {n : Node} {sym : Symbol} {t s' : State μ ω}
      (indexed : file ∈ c.oracle.files) (inside : n ∈ file.nodes) (here : path = file.root.file)
      (sighted : (Moment.entering path n).sighting? c.oracle s.memory = some ⟨path, n, some sym⟩)
      (shown : ∀ id ∈ some n.id, c.oracle.Shown start s.memory id)
      (foundings : Foundings c start (some n.id) s t) (recorded : Recorded c path sym.key n t s') :
      Deed c start s (.entering path n) s'
  | left {n : Node} {s' : State μ ω} (shown : ∀ id ∈ n.nameNode, c.oracle.Shown start s.memory id)
      (foundings : Foundings c start n.nameNode s s') : Deed c start s (.leaving n) s'
  | closed {path : String} {s' : State μ ω} (endings : Endings c { s with current := none } s') :
      Deed c start s (.closing path) s'

theorem deed_performed {memory : μ} {output : ω} (anchored : c.oracle.Anchored memory)
    {first rest : List Moment} {m : Moment} {s s' : State μ ω}
    (split : schedule c.oracle.files = first ++ m :: rest)
    (course : Course c first ((State.start c memory output).opened c) s)
    (ok : s.failure = none) (performed : Yields (m.perform c) s () s') (effect : m.Effect c s s') :
    Deed c memory s m s' := by
  have later : c.oracle.Later memory s.memory := course.steps.later
  have moment : m ∈ schedule c.oracle.files := split ▸ by simp
  cases m with
  | opening path =>
      obtain ⟨fresh, -, rfl⟩ := effect
      exact .opened fresh
  | closing path =>
      obtain ⟨d, t, document, writable, endings, same, frozen, rfl⟩ := effect
      exact .closed (endings.tail (.document (same ▸ document) writable frozen))
  | leaving n =>
      obtain ⟨file, indexed, inside⟩ := leaving_inside moment
      have node := anchored.node_tree indexed inside later
      refine .left (fun id named => ?_) (left_performed split course.performs performed)
      exact .name (.later (.visited indexed inside) later) (node.symm ▸ named)
  | entering path n =>
      obtain ⟨file, indexed, inside, here⟩ := entering_inside moment
      rcases entered_performed split course.performs ok performed with
        ⟨unsighted, rfl⟩ | ⟨sighted, rfl⟩ | ⟨sym, t, sighted, foundings, recorded⟩
      · exact .ignored unsighted
      · exact .skipped sighted
      · exact .recorded indexed inside here sighted
          (fun id same => Option.some.inj same ▸ .later (.visited indexed inside) later)
          foundings recorded

/-- What holds when a run comes to its files and is kept by every deed holds whatever part of
its schedule the run has performed, as long as nothing is refused. -/
theorem deed_induction {memory : μ} {output : ω} (anchored : c.oracle.Anchored memory)
    {P : List Moment → State μ ω → Prop} (start : P [] ((State.start c memory output).opened c))
    (step : ∀ first m rest s s', schedule c.oracle.files = first ++ m :: rest →
      Course c first ((State.start c memory output).opened c) s → s'.failure = none →
      Deed c memory s m s' → Steps c s s' → P first s → P (first ++ [m]) s')
    {first rest : List Moment} {s : State μ ω} (split : schedule c.oracle.files = first ++ rest)
    (course : Course c first ((State.start c memory output).opened c) s)
    (ok : s.failure = none) : P first s := by
  revert ok
  refine course_induction (P := fun first s => s.failure = none → P first s)
    (fun _ => start) ?_ split course
  intro first m rest s s' split course performed effect ih ok
  have ok' := effect.steps.failure_none ok
  exact step first m rest s s' split course ok
    (deed_performed anchored split course ok' performed effect) effect.steps (ih ok')

/-! ## Declarations and sites -/

/-- The declarations were shown, and a site is the place where one of them is marked. -/
structure SymbolNode.Rooted (c : Context μ ω) (start memory : μ) (n : SymbolNode) : Prop where
  shown : ∀ id ∈ n.declarations, c.oracle.Shown start memory id
  sites : n.sites.All fun site id => id ∈ n.declarations ∧ siteIn c memory id = site

/-- Nodes know their declarations, and in the files of the run definitions were recorded at
the places in `seen` only. -/
structure State.Rooted (c : Context μ ω) (start : μ) (seen : List Site) (s : State μ ω) :
    Prop where
  later : c.oracle.Later start s.memory
  nodes : s.symbols.All fun _ n => n.Rooted c start s.memory
  foreign : s.symbols.All fun _ n => ∀ site ∈ n.recorded, site.file ∈ s.traversal → site ∈ seen

theorem State.Rooted.mono {s : State μ ω} {more : List Site} (h : s.Rooted c start seen)
    (inside : seen ⊆ more) : s.Rooted c start more :=
  ⟨h.later, h.nodes, h.foreign.imp fun _ _ _ all site member visited =>
    inside (all site member visited)⟩

theorem SymbolNode.Rooted.later (anchored : c.oracle.Anchored start) {m m' : μ} {n : SymbolNode}
    (h : n.Rooted c start m) (later : c.oracle.Later m m') : n.Rooted c start m' := by
  refine ⟨fun id chosen => (h.shown id chosen).later later, fun site id found => ?_⟩
  obtain ⟨chosen, marked⟩ := h.sites site id found
  exact ⟨chosen, (siteIn_later anchored (h.shown id chosen) later).trans marked⟩

theorem Detail.rooted (anchored : c.oracle.Anchored start) {s s' : State μ ω}
    (step : Detail c s s') (h : s.Rooted c start seen) : s'.Rooted c start seen := by
  cases step with
  | asked quiet =>
      have question : c.oracle.Later s.memory _ := .single (.quiet quiet)
      exact ⟨h.later.trans question, h.nodes.imp fun _ _ _ rooted => rooted.later anchored question,
        h.foreign⟩
  | counted | began | hovered | joined | awaited | confined => exact ⟨h.later, h.nodes, h.foreign⟩
  | attached =>
      exact ⟨h.later, h.nodes.modify fun _ _ rooted => ⟨rooted.shown, rooted.sites⟩,
        h.foreign.modify fun _ _ foreign => foreign⟩
  | sited node chosen =>
      refine ⟨h.later, h.nodes.modify fun m here rooted => ?_,
        h.foreign.modify fun _ _ foreign => foreign⟩
      obtain rfl := Option.some.inj (node.symm.trans here)
      exact ⟨rooted.shown, rooted.sites.insert ⟨chosen, rfl⟩⟩
  | @defined key path n d declaration name node _ _ _ _ early =>
      obtain ⟨⟨id, chosen, rfl⟩, rfl, rfl, outside⟩ := early
      refine ⟨h.later, h.nodes.modify fun _ _ rooted => ⟨rooted.shown, rooted.sites⟩,
        h.foreign.modify fun _ _ foreign site member visited => ?_⟩
      rcases List.mem_cons.1 member with rfl | old
      · have own := file_siteIn anchored ((h.nodes key n node).shown id chosen)
        exact absurd (own ▸ visited) outside
      · exact foreign site old visited

theorem Details.rooted (anchored : c.oracle.Anchored start) {s s' : State μ ω}
    (details : Details c s s') (h : s.Rooted c start seen) : s'.Rooted c start seen := by
  induction details with
  | refl => exact h
  | tail _ last ih => exact last.rooted anchored ih

/-- What a variant is addressed through was shown, if the use was. -/
theorem shown_declarationsOf {sym : Symbol} {use : Option NodeId} {v : Variant} {m m' : μ}
    {declarations : List NodeId} (later : c.oracle.Later start m)
    (use_shown : ∀ id ∈ use, c.oracle.Shown start m id)
    (declared : (declarations, m') = v.declarationsOf c.oracle sym use m) :
    ∀ id ∈ declarations, c.oracle.Shown start m' id := by
  intro id chosen
  unfold Variant.declarationsOf at declared
  split at declared
  · obtain ⟨rfl, rfl⟩ := Prod.mk.inj declared
    exact use_shown id (Option.mem_toList.1 chosen)
  · obtain rfl : declarations = (c.oracle.declarationsOf sym m).1 := congrArg Prod.fst declared
    obtain rfl : m' = (c.oracle.declarationsOf sym m).2 := congrArg Prod.snd declared
    exact .declared later chosen

/-- A new node knows its declarations. -/
theorem rooted_enrolled (anchored : c.oracle.Anchored start) {s : State μ ω} {sym : Symbol}
    {use : Option NodeId} {v : Variant} {declarations : List NodeId} {name : SymbolName}
    {namer : Namer} {m₁ m₂ m₃ : μ} (h : s.Rooted c start seen)
    (use_shown : ∀ id ∈ use, c.oracle.Shown start s.memory id)
    (fresh : s.symbols.get? sym.key = none)
    (classified : (v, m₁) = Variant.classify c.oracle sym use s.memory)
    (declared : (declarations, m₂) = v.declarationsOf c.oracle sym use m₁)
    (called : (.ok (name, namer), m₃) = s.namer.nameFirst? c.oracle declarations m₂) :
    (s.enrolled c sym v declarations name namer m₃).Rooted c start seen := by
  have first : c.oracle.Later s.memory m₁ := by
    have asked := (c.oracle.hushed_classify sym use s.memory).later
    rw [← classified] at asked
    split at asked
    · exact .head (.resolveAlias sym s.memory) asked
    · exact asked
  have third : c.oracle.Later m₂ m₃ := by
    have asked := (c.oracle.hushed_nameFirst? declarations s.namer m₂).later
    rwa [← called] at asked
  have growth : Growth c s (s.enrolled c sym v declarations name namer m₃) :=
    .enrolled fresh classified declared called
  have shown := shown_declarationsOf (h.later.trans first)
    (fun id same => (use_shown id same).later first) declared
  refine ⟨h.later.trans growth.later, Table.All.insert ?_ ?_, Table.All.insert h.foreign ?_⟩
  · exact h.nodes.imp fun _ _ _ rooted => rooted.later anchored growth.later
  · exact ⟨fun id chosen => (shown id chosen).later third, Table.all_empty _⟩
  · exact fun site member => nomatch member

theorem Founding.rooted (anchored : c.oracle.Anchored start) {use : Option NodeId}
    {s s' : State μ ω} (founding : Founding c start use s s')
    (use_shown : ∀ id ∈ use, c.oracle.Shown start s.memory id) (h : s.Rooted c start seen) :
    s'.Rooted c start seen := by
  cases founding with
  | move move same =>
      cases move with
      | detail step => exact step.rooted anchored h
      | growth step =>
          cases step with
          | @enrolled sym _ _ _ _ _ _ _ _ fresh =>
              obtain ⟨n, node⟩ := same sym.key ⟨_, by rw [get?_enrolled, if_pos rfl]⟩
              simp [fresh] at node
          | based | composed =>
              exact ⟨h.later, h.nodes.modify fun _ _ rooted => ⟨rooted.shown, rooted.sites⟩,
                h.foreign.modify fun _ _ foreign => foreign⟩
  | made _ fresh classified declared called details notes =>
      exact details.rooted anchored
        (rooted_enrolled anchored h use_shown fresh classified declared called)

theorem Foundings.rooted (anchored : c.oracle.Anchored start) {use : Option NodeId}
    {s s' : State μ ω} (foundings : Foundings c start use s s')
    (use_shown : ∀ id ∈ use, c.oracle.Shown start s.memory id) (h : s.Rooted c start seen) :
    s'.Rooted c start seen := by
  induction foundings with
  | refl => exact h
  | tail before last ih =>
      have later := (Foundings.moves before).steps.later
      exact last.rooted anchored (fun id same => (use_shown id same).later later) ih

/-- What counting a reference for other symbols changes in no node holds of all nodes after it. -/
theorem all_foldl_forwarded {P : String → SymbolNode → Prop} (path : String) (document id : Id)
    (keys : List String) {s : State μ ω} (h : s.symbols.All P)
    (kept : ∀ key n, P key n → P key (n.addReferenceId path document id)) :
    (keys.foldl (State.forwarded path document id) s).symbols.All P := by
  induction keys generalizing s with
  | nil => exact h
  | cons first keys ih =>
      refine ih fun key n node => ?_
      rw [get?_forwarded] at node
      obtain ⟨m, before, rfl⟩ := Option.map_eq_some_iff.1 node
      split
      · exact kept key m (h key m before)
      · exact h key m before

/-! ## What is on record -/

/-- What a step does to nodes that refer to an occurrence keeps what is on record. -/
theorem grows_foldl_forwarded {path key : String} {document id : Id} {keys : List String}
    {s : State μ ω} {n : SymbolNode} (node : s.symbols.get? key = some n) :
    ∃ n', (keys.foldl (State.forwarded path document id) s).symbols.get? key = some n' ∧
      n.Grows n' := by
  induction keys generalizing s n with
  | nil => exact ⟨n, node, .refl n⟩
  | cons first keys ih =>
      have here := get?_forwarded path document id s first key
      rw [node, Option.map_some] at here
      obtain ⟨n', node', grows⟩ := ih here
      refine ⟨n', node', SymbolNode.Grows.trans ?_ grows⟩
      split
      · exact ⟨fun _ known => known, List.Subset.refl _⟩
      · exact .refl n

theorem Step.grows {s s' : State μ ω} (step : Step c s s') {key : String} {n : SymbolNode}
    (node : s.symbols.get? key = some n) : ∃ n', s'.symbols.get? key = some n' ∧ n.Grows n' := by
  cases step with
  | detail step => exact step.grows node
  | opened | turned | passed => exact ⟨n, node, .refl n⟩
  | growth step =>
      cases step with
      | @enrolled sym _ _ _ _ _ _ _ _ fresh =>
          refine ⟨n, ?_, .refl n⟩
          rw [get?_enrolled, if_neg, node]
          rintro rfl
          simp [fresh] at node
      | based | composed =>
          refine grows_modify ?_ node
          exact fun n => ⟨fun _ known => known, List.Subset.refl _⟩
  | usage step =>
      cases step with
      | marked =>
          refine grows_modify ?_ node
          exact fun n => ⟨fun _ known => known, List.subset_cons_self ..⟩
      | @referred own path m d name _ _ _ _ =>
          have modified : ∃ n', (s.referred c own path m d name).symbols.get? key = some n' ∧
              n.Grows n' := by
            refine grows_modify ?_ node
            exact fun n => ⟨fun _ known => known, List.Subset.refl _⟩
          obtain ⟨n', node', grows⟩ := modified
          obtain ⟨n'', node'', grows'⟩ := grows_foldl_forwarded node'
          exact ⟨n'', node'', grows.trans grows'⟩
  | ending step =>
      cases step with
      | symbol =>
          refine grows_modify ?_ node
          exact fun n => ⟨fun _ known => known, List.Subset.refl _⟩
      | @document path d _ _ _ =>
          obtain ⟨_, _, _, shape⟩ := s.documentEnded_eq (c := c) path d
          exact ⟨n, by rw [shape]; exact node, .refl n⟩

theorem Steps.grows {s s' : State μ ω} (steps : Steps c s s') {key : String} {n : SymbolNode}
    (node : s.symbols.get? key = some n) : ∃ n', s'.symbols.get? key = some n' ∧ n.Grows n' := by
  induction steps with
  | refl => exact ⟨n, node, .refl n⟩
  | tail _ last ih =>
      obtain ⟨m, node', grows⟩ := ih
      obtain ⟨n', node'', grows'⟩ := last.grows node'
      exact ⟨n', node'', grows.trans grows'⟩

/-- A document that is closed stays closed, whatever is done. -/
theorem Step.closed {s s' : State μ ω} (step : Step c s s') {path : String} {d : DocumentNode}
    (document : s.documents.get? path = some d) (ended : d.ended = true) :
    ∃ d', s'.documents.get? path = some d' ∧ d'.ended = true := by
  cases step with
  | detail step => exact step.closed document ended
  | turned | passed => exact ⟨d, document, ended⟩
  | growth step => cases step <;> exact ⟨d, document, ended⟩
  | usage step =>
      obtain ⟨_, _, _, _, _, rfl⟩ := step.shape
      exact closed_modify (fun _ ended => ended) document ended
  | opened fresh => exact closed_began fresh document ended
  | ending step =>
      cases step with
      | symbol => exact ⟨d, by rw [State.symbolEnded]; simpa using document, ended⟩
      | @document own e _ _ _ =>
          obtain ⟨_, _, _, shape⟩ := s.documentEnded_eq (c := c) own e
          rw [shape]
          exact closed_modify (fun _ _ => rfl) document ended

/-- What is on record stays there. -/
theorem Steps.notes {memory : μ} {s s' : State μ ω} (steps : Steps c s s') {key : String}
    {id : NodeId} (notes : s.Notes c memory key id) : s'.Notes c memory key id := by
  induction steps with
  | refl => exact notes
  | tail _ last ih =>
      exact ih.kept last.settled.1 (fun _ node => last.grows node)
        fun _ _ document ended => last.closed document ended

theorem State.Notes.later (anchored : c.oracle.Anchored start) {m m' : μ} {s : State μ ω}
    {key : String} {id : NodeId} (h : s.Notes c m key id) (shown : c.oracle.Shown start m id)
    (later : c.oracle.Later m m') : s.Notes c m' key id := by
  unfold State.Notes
  rw [siteIn_later anchored shown later, anchored.node_later shown later]
  exact h

/-- Every declaration of every node is on record. -/
def State.Noted (c : Context μ ω) (s : State μ ω) : Prop :=
  s.symbols.All fun key n => ∀ id ∈ n.declarations, s.Notes c s.memory key id

/-- Only the declarations of new nodes have to be put on record. -/
theorem State.Noted.steps (anchored : c.oracle.Anchored start) {s s' : State μ ω}
    (h : s.Noted c) (rooted : s.Rooted c start seen) (steps : Steps c s s')
    (new : ∀ key n', s'.symbols.get? key = some n' →
      s.Has key ∨ ∀ id ∈ n'.declarations, s'.Notes c s'.memory key id) : s'.Noted c := by
  intro key n' node' id chosen
  rcases new key n' node' with ⟨n, node⟩ | notes
  · obtain ⟨n'', node'', same⟩ := steps.profile node
    obtain rfl := Option.some.inj (node'.symm.trans node'')
    rw [declarations_of_profile same] at chosen
    have shown := (rooted.nodes key n node).shown id chosen
    exact (steps.notes (h key n node id chosen)).later anchored shown steps.later
  · exact notes id chosen

/-- What makes no node leaves every declaration on record. -/
theorem State.Noted.of_core (anchored : c.oracle.Anchored start) {s s' : State μ ω}
    (h : s.Noted c) (rooted : s.Rooted c start seen) (steps : Steps c s s')
    (same : s'.coreAt = s.coreAt) : s'.Noted c :=
  h.steps anchored rooted steps fun _ _ node => .inl ((kept_of_core same.symm).has ⟨_, node⟩)

theorem Founding.noted (anchored : c.oracle.Anchored start) {use : Option NodeId}
    {s s' : State μ ω} (founding : Founding c start use s s') (rooted : s.Rooted c start seen)
    (h : s.Noted c) : s'.Noted c := by
  refine h.steps anchored rooted founding.moves.steps fun key n' node' => ?_
  cases founding with
  | move move same => exact .inl (same key ⟨n', node'⟩)
  | @made sym v declarations name namer m₁ m₂ m₃ _ fresh classified declared called details notes =>
      obtain ⟨n, node, core⟩ := kept_of_core details.core.symm key n' node'
      rw [get?_enrolled] at node
      split at node
      · rename_i own
        obtain rfl := Option.some.inj node
        right
        rw [← declarations_of_core core, ← own]
        exact notes
      · exact .inl ⟨n, node⟩

theorem Foundings.noted (anchored : c.oracle.Anchored start) {use : Option NodeId}
    {s s' : State μ ω} (foundings : Foundings c start use s s')
    (use_shown : ∀ id ∈ use, c.oracle.Shown start s.memory id) (rooted : s.Rooted c start seen)
    (h : s.Noted c) : s'.Noted c := by
  induction foundings with
  | refl => exact h
  | tail before last ih =>
      exact last.noted anchored (Foundings.rooted anchored before use_shown rooted) ih

/-! ## Identifiers -/

section Identifiers

variable {file : Tree} {name : Node} {s s' : State μ ω} {n : SymbolNode} {key : String}

/-- The declaration that an identifier is taken to mark is marked where the identifier stands. -/
theorem siteIn_found (anchored : c.oracle.Anchored start) (rooted : s.Rooted c start seen)
    (indexed : file ∈ c.oracle.files) (inside : name ∈ file.nodes)
    (node : s.symbols.get? key = some n) (definition : n.takes c s.memory name = true)
    {id : NodeId} (found : (n.sites.get? (Site.ofNode name)).or name.parent = some id) :
    siteIn c s.memory id = Site.ofNode name := by
  cases sited : n.sites.get? (Site.ofNode name) with
  | some id' =>
      rw [sited, Option.some_or] at found
      obtain rfl := Option.some.inj found
      exact ((rooted.nodes key n node).sites _ _ sited).2
  | none =>
      rw [sited, Option.none_or] at found
      have names : c.oracle.isDefinitionSite s.memory name = true := by
        simpa [SymbolNode.takes, Table.contains, sited] using definition
      exact siteIn_parent anchored indexed inside rooted.later names found

/-- Recording an identifier changes at most what its node has on record. -/
theorem Recorded.rooted (anchored : c.oracle.Anchored start) {path : String}
    (recorded : Recorded c path key name s s') (indexed : file ∈ c.oracle.files)
    (inside : name ∈ file.nodes) (own : Site.ofNode name ∈ seen) (h : s.Rooted c start seen) :
    s'.Rooted c start seen := by
  cases recorded with
  | known => exact h
  | @defined n d id node _ _ _ definition found _ =>
      have here := siteIn_found anchored h indexed inside node definition found
      refine ⟨h.later, h.nodes.modify fun _ _ rooted => ⟨rooted.shown, rooted.sites⟩,
        h.foreign.modify fun _ _ foreign site member visited => ?_⟩
      rcases List.mem_cons.1 member with same | old
      · exact (same.trans here) ▸ own
      · exact foreign site old visited
  | @referred n d node =>
      obtain ⟨symbols, shape⟩ := State.foldl_forwarded_eq path d.id (s.lastId + 1)
        (n.forwards key) (s.referred c key path n d name)
      have nodes := all_foldl_forwarded path d.id (s.lastId + 1) (n.forwards key)
        (s := s.referred c key path n d name)
        (h.nodes.modify fun _ _ rooted => ⟨rooted.shown, rooted.sites⟩)
        fun _ _ rooted => ⟨rooted.shown, rooted.sites⟩
      have foreign := all_foldl_forwarded path d.id (s.lastId + 1) (n.forwards key)
        (s := s.referred c key path n d name)
        (h.foreign.modify fun _ _ foreign => foreign) fun _ _ foreign => foreign
      rw [shape] at nodes foreign ⊢
      exact ⟨h.later, nodes, foreign⟩

/-- The place of a declaration is on record once an identifier was recorded there. -/
theorem Recorded.mem_recorded (anchored : c.oracle.Anchored start) {path : String}
    (recorded : Recorded c path key name s s') (indexed : file ∈ c.oracle.files)
    (inside : name ∈ file.nodes) (rooted : s.Rooted c start seen)
    (node : s.symbols.get? key = some n) (sited : n.sites.contains (Site.ofNode name) = true) :
    ∃ n', s'.symbols.get? key = some n' ∧ Site.ofNode name ∈ n'.recorded := by
  cases recorded with
  | known node' definition found old =>
      exact ⟨_, node', siteIn_found anchored rooted indexed inside node' definition found ▸ old⟩
  | @defined m d id node' _ _ _ definition found _ =>
      have here := siteIn_found anchored rooted indexed inside node' definition found
      refine ⟨_, (Table.get?_modify_self ..).trans (congrArg _ node'), ?_⟩
      exact here ▸ List.mem_cons_self
  | referred node' _ _ _ reference =>
      obtain rfl := Option.some.inj (node.symm.trans node')
      simp [SymbolNode.takes, sited] at reference

end Identifiers

/-! ## Whatever part of its schedule a run has performed -/

theorem Ending.rooted {s s' : State μ ω} (ending : Ending c s s') (h : s.Rooted c start seen) :
    s'.Rooted c start seen := by
  cases ending with
  | @symbol key n node open_ =>
      obtain ⟨_, _, _, shape⟩ := s.emittedAll_eq (c := c) (n.items.map .item)
      rw [State.symbolEnded, shape]
      exact ⟨h.later, h.nodes.modify fun _ _ rooted => ⟨rooted.shown, rooted.sites⟩,
        h.foreign.modify fun _ _ foreign => foreign⟩
  | @document path d document writable frozen =>
      obtain ⟨_, _, _, shape⟩ := s.documentEnded_eq (c := c) path d
      rw [shape]
      exact ⟨h.later, h.nodes, h.foreign⟩

theorem Endings.rooted {s s' : State μ ω} (endings : Endings c s s') (h : s.Rooted c start seen) :
    s'.Rooted c start seen := by
  induction endings with
  | refl => exact h
  | tail _ last ih => exact last.rooted ih

/-- The places at which a run has come upon identifiers. -/
def placesSeen (c : Context μ ω) (moments : List Moment) (s : State μ ω) : List Site :=
  (sightings c moments s).map fun x => Site.ofNode x.name

/-- **Between two moments** nodes know their declarations, and every declaration is on record. -/
theorem marked_performed {memory : μ} {output : ω} (anchored : c.oracle.Anchored memory)
    {first rest : List Moment} {s : State μ ω} (split : schedule c.oracle.files = first ++ rest)
    (course : Course c first ((State.start c memory output).opened c) s)
    (ok : s.failure = none) :
    s.Rooted c memory (placesSeen c first ((State.start c memory output).opened c)) ∧
      s.Noted c := by
  refine deed_induction anchored (P := fun first s =>
    s.Rooted c memory (placesSeen c first ((State.start c memory output).opened c)) ∧ s.Noted c)
    ⟨⟨.refl, Table.all_empty _, Table.all_empty _⟩, Table.all_empty _⟩ ?_ split course ok
  rintro first m rest s s' - course - deed steps ⟨rooted, noted⟩
  have places : placesSeen c (first ++ [m]) ((State.start c memory output).opened c) =
      placesSeen c first ((State.start c memory output).opened c) ++
        (m.sighting? c.oracle s.memory).toList.map fun x => Site.ofNode x.name := by
    rw [placesSeen, sightings_snoc course.performs, List.map_append]
    rfl
  have more : s.Rooted c memory
      (placesSeen c (first ++ [m]) ((State.start c memory output).opened c)) :=
    rooted.mono (places ▸ List.subset_append_left _ _)
  cases deed with
  | opened fresh =>
      exact ⟨⟨more.later, more.nodes, more.foreign⟩, noted.of_core anchored rooted steps rfl⟩
  | ignored unsighted => exact ⟨more, noted⟩
  | @skipped path n sighted =>
      have question : Detail c s { s with memory := (c.oracle.symbolAt n.id s.memory).2 } :=
        .asked (.symbolAt ..)
      have asked := question.rooted anchored more
      exact ⟨⟨asked.later, asked.nodes, asked.foreign⟩, noted.of_core anchored rooted steps rfl⟩
  | left shown foundings =>
      exact ⟨foundings.rooted anchored shown more, foundings.noted anchored shown rooted noted⟩
  | closed endings =>
      have turned : State.Rooted c memory _ { s with current := none } :=
        ⟨more.later, more.nodes, more.foreign⟩
      exact ⟨endings.rooted turned, noted.of_core anchored rooted steps endings.core⟩
  | @recorded path file n sym t s' indexed inside here sighted shown foundings recorded =>
      have rooted' := foundings.rooted anchored shown more
      have noted' := foundings.noted anchored shown rooted noted
      have own : Site.ofNode n ∈
          placesSeen c (first ++ [.entering path n]) ((State.start c memory output).opened c) := by
        rw [places, sighted]
        simp
      refine ⟨recorded.rooted anchored indexed inside own rooted', ?_⟩
      rcases recorded.usage with rfl | usage
      · exact noted'
      · exact noted'.of_core anchored rooted' (.single (.usage usage)) usage.core

/-- **The name of a declaration that a run comes upon is recorded**, if it denotes the symbol of
the declaration then. -/
theorem mem_recorded_performed {memory : μ} {output : ω} (anchored : c.oracle.Anchored memory)
    {first rest : List Moment} {m : Moment} {s t : State μ ω}
    (split : schedule c.oracle.files = first ++ m :: rest)
    (course : Course c first ((State.start c memory output).opened c) s)
    (next : Course c (m :: rest) s t) (ok : t.failure = none) {path : String} {name : Node}
    {sym : Symbol} (sighted : m.sighting? c.oracle s.memory = some ⟨path, name, some sym⟩)
    {n : SymbolNode} (node : t.symbols.get? sym.key = some n) {id : NodeId}
    (chosen : id ∈ n.declarations) (here : siteIn c t.memory id = Site.ofNode name) :
    Site.ofNode name ∈ n.recorded := by
  have okS := next.steps.failure_none ok
  obtain ⟨rooted, noted⟩ := marked_performed anchored split course okS
  obtain ⟨u, performed, effect, after⟩ :
      ∃ u, Yields (m.perform c) s () u ∧ m.Effect c s u ∧ Course c rest u t := by
    cases next with
    | cons performed effect next => exact ⟨_, performed, effect, next⟩
  cases deed_performed anchored split course okS performed effect with
  | opened | left | closed => cases sighted
  | ignored unsighted => rw [unsighted] at sighted; cases sighted
  | skipped skipped => rw [skipped] at sighted; cases sighted
  | @recorded _ file _ _ v _ indexed inside _ found shown foundings recorded =>
      rw [found] at sighted
      obtain ⟨rfl, rfl, same⟩ := Sighting.mk.inj (Option.some.inj sighted)
      obtain rfl := Option.some.inj same
      have rootedV := foundings.rooted anchored shown rooted
      have notedV := foundings.noted anchored shown rooted noted
      obtain ⟨k, nodeV⟩ := recorded.node
      have later : Steps c v t := recorded.steps.trans after.steps
      obtain ⟨n', node', same⟩ := later.profile nodeV
      obtain rfl := Option.some.inj (node.symm.trans node')
      rw [declarations_of_profile same] at chosen
      have shownV := (rootedV.nodes _ k nodeV).shown id chosen
      obtain ⟨k', nodeV', sited, -⟩ := notedV _ k nodeV id chosen
      obtain rfl := Option.some.inj (nodeV.symm.trans nodeV')
      rw [← siteIn_later anchored shownV later.later, here] at sited
      obtain ⟨n₁, node₁, member⟩ :=
        recorded.mem_recorded anchored indexed inside rootedV nodeV sited
      obtain ⟨n₂, node₂, grows⟩ := after.steps.grows node₁
      obtain rfl := Option.some.inj (node.symm.trans node₂)
      exact grows.recorded member

end SymbolAtlas.Session
