/-
# SymbolAtlas.Proofs.Session.Operations -- operations are made of steps

Each operation of a session on documents and on single symbols, taken apart into the
steps of `Proofs.Session.Step`.  Where an operation is one change, its completion is
that change exactly (`yields_recordDefinition`, `yields_addReference`,
`yields_endSymbol`); the longer ones are a run of details.

A detail never touches the part of a node that other symbols rely on, its `core`
(`Detail.core`); so a node that exists stays the same node for all who read it.
-/
import SymbolAtlas.Proofs.Session.Step

set_option autoImplicit false

namespace SymbolAtlas.Session

open SymbolAtlas.Graph (Id)

variable {μ ω : Type} {c : Context μ ω}

/-! ## What details leave alone -/

/-- A node without its monikers and occurrences, as if it were open. -/
def SymbolNode.core (n : SymbolNode) : SymbolNode :=
  { n with
    monikers := #[], sites := .empty, recorded := [], occurrences := .empty, ended := false }

/-- The part of a node that details leave alone. -/
def State.coreAt (s : State μ ω) (key : String) : Option SymbolNode :=
  (s.symbols.get? key).map SymbolNode.core

theorem coreAt_modify {s s' : State μ ω} {key other : String} {f : SymbolNode → SymbolNode}
    (changed : s'.symbols = s.symbols.modify key f) (same : ∀ n, (f n).core = n.core) :
    s'.coreAt other = s.coreAt other := by
  unfold State.coreAt
  rw [changed, Table.map_get?_modify _ _ _ same]

theorem Detail.core {s s' : State μ ω} (h : Detail c s s') : s'.coreAt = s.coreAt := by
  funext key
  cases h with
  | asked quiet => rfl
  | counted => rfl
  | began fresh outside => rfl
  | sited => exact coreAt_modify rfl fun _ => rfl
  | defined => exact coreAt_modify rfl fun _ => rfl
  | attached => exact coreAt_modify rfl fun _ => rfl
  | hovered => rfl
  | joined => rfl
  | awaited => rfl
  | confined => rfl

theorem Details.core {s s' : State μ ω} (h : Details c s s') : s'.coreAt = s.coreAt := by
  induction h with
  | refl => rfl
  | tail _ last ih => rw [last.core, ih]

/-- What an added reference leaves alone is left alone when a reference is forwarded. -/
theorem same_foldl_forwarded {β : Type} {f : State μ ω → β} {path : String} {document id : Id}
    (same : ∀ s key, f { s with
      symbols := s.symbols.modify key fun n => n.addReferenceId path document id } = f s)
    (keys : List String) (s : State μ ω) :
    f (keys.foldl (State.forwarded path document id) s) = f s := by
  induction keys generalizing s with
  | nil => rfl
  | cons key keys ih =>
      rw [List.foldl_cons, ih]
      unfold State.forwarded
      split
      · rfl
      · split
        · rfl
        · exact same s key

theorem coreAt_foldl_forwarded (path : String) (document id : Id) (keys : List String)
    (s : State μ ω) : (keys.foldl (State.forwarded path document id) s).coreAt = s.coreAt :=
  same_foldl_forwarded (fun _ _ => funext fun _ => coreAt_modify rfl fun _ => rfl) keys s

theorem Usage.core {s s' : State μ ω} (h : Usage c s s') : s'.coreAt = s.coreAt := by
  cases h with
  | marked node open_ document writable new =>
      funext key
      exact coreAt_modify rfl fun _ => rfl
  | referred node open_ document writable =>
      rw [coreAt_foldl_forwarded]
      funext key
      exact coreAt_modify rfl fun _ => rfl

/-- A node is found where there was one, with the same core. -/
theorem node_of_core {s s' : State μ ω} (same : s'.coreAt = s.coreAt) {key : String}
    {n : SymbolNode} (node : s.symbols.get? key = some n) :
    ∃ n', s'.symbols.get? key = some n' ∧ n'.core = n.core := by
  have here := congrFun same key
  simp only [State.coreAt, node, Option.map_some, Option.map_eq_some_iff] at here
  exact here

/-! ## What is put on record -/

/-- No site of a node is lost, and no definition. -/
structure SymbolNode.Grows (n n' : SymbolNode) : Prop where
  sites : ∀ site, n.sites.contains site = true → n'.sites.contains site = true
  recorded : n.recorded ⊆ n'.recorded

theorem SymbolNode.Grows.refl (n : SymbolNode) : n.Grows n :=
  ⟨fun _ known => known, List.Subset.refl _⟩

theorem SymbolNode.Grows.trans {n n' n'' : SymbolNode} (first : n.Grows n')
    (second : n'.Grows n'') : n.Grows n'' :=
  ⟨fun site known => second.sites site (first.sites site known),
    List.Subset.trans first.recorded second.recorded⟩

theorem grows_modify {symbols : Table String SymbolNode} {key other : String}
    {f : SymbolNode → SymbolNode} (grows : ∀ n : SymbolNode, n.Grows (f n)) {n : SymbolNode}
    (node : symbols.get? other = some n) :
    ∃ n', (symbols.modify key f).get? other = some n' ∧ n.Grows n' :=
  Table.get?_modify_rel SymbolNode.Grows.refl (fun n _ => grows n) node

theorem Detail.grows {s s' : State μ ω} (h : Detail c s s') {key : String} {n : SymbolNode}
    (node : s.symbols.get? key = some n) : ∃ n', s'.symbols.get? key = some n' ∧ n.Grows n' := by
  cases h with
  | asked | counted | began | hovered | joined | awaited | confined => exact ⟨n, node, .refl n⟩
  | sited =>
      refine grows_modify ?_ node
      refine fun n => ⟨fun site known => ?_, List.Subset.refl _⟩
      unfold Table.contains at known ⊢
      rw [Table.get?_insert]
      split
      · rfl
      · exact known
  | defined =>
      refine grows_modify ?_ node
      exact fun n => ⟨fun _ known => known, List.subset_cons_self ..⟩
  | attached =>
      refine grows_modify ?_ node
      exact fun n => ⟨fun _ known => known, List.Subset.refl _⟩

theorem closed_modify {documents : Table String DocumentNode} {own path : String}
    {f : DocumentNode → DocumentNode} (stays : ∀ d, d.ended = true → (f d).ended = true)
    {d : DocumentNode} (document : documents.get? path = some d) (ended : d.ended = true) :
    ∃ d', (documents.modify own f).get? path = some d' ∧ d'.ended = true := by
  obtain ⟨d', document', kept⟩ := Table.get?_modify_rel
    (R := fun d d' => d.ended = true → d'.ended = true) (fun _ ended => ended)
    (fun d _ => stays d) document
  exact ⟨d', document', kept ended⟩

theorem closed_began {s : State μ ω} {own path : String} (fresh : s.documents.get? own = none)
    {d : DocumentNode} (document : s.documents.get? path = some d) (ended : d.ended = true) :
    ∃ d', (s.began c own).documents.get? path = some d' ∧ d'.ended = true := by
  have different : own ≠ path := by
    rintro rfl
    simp [fresh] at document
  exact ⟨d, by simp [State.began, Table.get?_insert, different, document], ended⟩

/-- A document that is closed stays closed. -/
theorem Detail.closed {s s' : State μ ω} (h : Detail c s s') {path : String} {d : DocumentNode}
    (document : s.documents.get? path = some d) (ended : d.ended = true) :
    ∃ d', s'.documents.get? path = some d' ∧ d'.ended = true := by
  cases h with
  | asked | counted | sited | attached | hovered | joined | awaited => exact ⟨d, document, ended⟩
  | began fresh outside => exact closed_began fresh document ended
  | defined => exact closed_modify (fun _ ended => ended) document ended
  | confined => exact closed_modify (fun _ ended => ended) document ended

/-- A declaration of a symbol is on record: its site is, and its definition, unless its file is
one that the run visits or its document is closed. -/
def State.Notes (c : Context μ ω) (memory : μ) (s : State μ ω) (key : String) (id : NodeId) :
    Prop :=
  ∃ n, s.symbols.get? key = some n ∧ n.sites.contains (siteIn c memory id) = true ∧
    ((c.oracle.node id memory).file ∈ s.traversal ∨
      (∃ d, s.documents.get? (c.oracle.node id memory).file = some d ∧ d.ended = true) ∨
      siteIn c memory id ∈ n.recorded)

/-- What is on record stays there when no site, no definition and no end is lost. -/
theorem State.Notes.kept {memory : μ} {s s' : State μ ω} {key : String} {id : NodeId}
    (h : s.Notes c memory key id) (traversal : s'.traversal = s.traversal)
    (grows : ∀ n, s.symbols.get? key = some n →
      ∃ n', s'.symbols.get? key = some n' ∧ n.Grows n')
    (closed : ∀ path d, s.documents.get? path = some d → d.ended = true →
      ∃ d', s'.documents.get? path = some d' ∧ d'.ended = true) : s'.Notes c memory key id := by
  obtain ⟨n, node, sited, early⟩ := h
  obtain ⟨n', node', grown⟩ := grows n node
  refine ⟨n', node', grown.sites _ sited, ?_⟩
  rcases early with inside | ⟨d, document, ended⟩ | recorded
  · exact .inl (traversal ▸ inside)
  · exact .inr (.inl (closed _ d document ended))
  · exact .inr (.inr (grown.recorded recorded))

theorem Detail.notes {memory : μ} {s s' : State μ ω} (h : Detail c s s') {key : String}
    {id : NodeId} (notes : s.Notes c memory key id) : s'.Notes c memory key id := by
  have traversal : s'.traversal = s.traversal := by cases h <;> rfl
  exact notes.kept traversal (fun _ node => h.grows node)
    fun _ _ document ended => h.closed document ended

theorem Details.notes {memory : μ} {s s' : State μ ω} (h : Details c s s') {key : String}
    {id : NodeId} (notes : s.Notes c memory key id) : s'.Notes c memory key id := by
  induction h with
  | refl => exact notes
  | tail _ last ih => exact last.notes ih

/-! ## Documents -/

theorem yields_beginDocument {path : String} {s s' : State μ ω} {d : DocumentNode} :
    Yields (beginDocument c path) s d s' ↔ d = s.newDocument c path ∧ s' = s.began c path := by
  simp only [beginDocument, yields_bind, yields_emit, yields_get, yields_set, yields_count,
    yields_pure]
  constructor
  · rintro ⟨_, _, ⟨rfl, rfl⟩, _, _, ⟨rfl, rfl⟩, _, _, rfl, _, _, rfl, rfl, rfl⟩
    exact ⟨rfl, rfl⟩
  · rintro ⟨rfl, rfl⟩
    exact ⟨_, _, ⟨rfl, rfl⟩, _, _, ⟨rfl, rfl⟩, ⟨⟩, _, rfl, ⟨⟩, _, rfl, rfl, rfl⟩

theorem yields_document_of_present {path : String} {s s' : State μ ω} {d d' : DocumentNode}
    (present : s.documents.get? path = some d) :
    Yields (document c path) s d' s' ↔ d' = d ∧ s' = s := by
  rw [document, yields_get_bind]
  simp [present]

theorem yields_document_of_absent {path : String} {s s' : State μ ω} {d : DocumentNode}
    (absent : s.documents.get? path = none) :
    Yields (document c path) s d s' ↔ d = s.newDocument c path ∧ s' = s.began c path := by
  rw [document, yields_get_bind]
  simp only [absent]
  exact yields_beginDocument

@[simp] theorem get?_began (s : State μ ω) (path : String) :
    (s.began c path).documents.get? path = some (s.newDocument c path) :=
  Table.get?_insert_self ..

theorem yields_addRange {path : String} {range : Graph.Range} {s s' : State μ ω} {id : Id}
    {d : DocumentNode} (h : Yields (addRange c path range) s id s')
    (present : s.documents.get? path = some d) :
    d.ended = false ∧ id = s.lastId + 1 ∧
      s' = { s.emitted c (.range { range with document := d.id }) with
        documents := s.documents.modify path fun d =>
          { d with ranges := d.ranges.push (s.lastId + 1) } } := by
  rw [addRange, yields_bind_of_iff fun _ _ => yields_document_of_present present] at h
  cases ended : d.ended
  · simp only [ended, Bool.false_eq_true, if_false, yields_emit_bind, yields_modify_bind,
      yields_pure] at h
    exact ⟨rfl, h.1, h.2⟩
  · simp [ended] at h

/-! ## Occurrences -/

theorem yields_recordDefinition {key path : String} {declaration : Node} {s s' : State μ ω}
    {u : Unit} {n : SymbolNode} {d : DocumentNode} (node : s.symbols.get? key = some n)
    (document : s.documents.get? path = some d)
    (h : Yields (recordDefinition c key path declaration) s u s') :
    (Site.ofNode (markIn c s.memory declaration) ∈ n.recorded ∧ s' = s) ∨
      (Site.ofNode (markIn c s.memory declaration) ∉ n.recorded ∧ n.ended = false ∧
        d.ended = false ∧
        s' = s.defined c key path n d declaration (markIn c s.memory declaration)) := by
  simp only [recordDefinition, yields_requireOpen_bind, yields_markOf_bind, yields_lookup_bind,
    node, Option.getD_some, List.contains_iff_mem, yields_ite, yields_pure] at h
  obtain ⟨open_, ⟨known, -, rfl⟩ | ⟨new, h⟩⟩ := h
  · exact .inl ⟨known, rfl⟩
  · obtain ⟨_, _, added, h⟩ := yields_bind.1 (yields_modifySymbol_bind.1 h)
    obtain ⟨writable, rfl, rfl⟩ := yields_addRange added document
    simp only [yields_documentId_bind, yields_modifySymbol_bind, Table.get?_modify_self, document,
      Option.map_some, Option.getD_some, yields_count] at h
    refine .inr ⟨new, open_, writable, h.trans ?_⟩
    simp only [State.defined, State.emitted, Table.modify_modify]
    rfl

/-- A declaration whose site is known is on record after this. -/
theorem yields_recordEarly {key : String} {id : NodeId} {s s' : State μ ω} {u : Unit}
    {n : SymbolNode} (node : s.symbols.get? key = some n) (chosen : id ∈ n.declarations)
    (h : Yields (recordEarly c key (c.oracle.node id s.memory)) s u s') :
    Details c s s' ∧ s'.memory = s.memory ∧
      (n.sites.contains (siteIn c s.memory id) = true → s'.Notes c s.memory key id) := by
  generalize told : c.oracle.node id s.memory = declaration at h
  simp only [recordEarly, yields_get_bind] at h
  by_cases inside : declaration.file ∈ s.traversal
  · simp only [List.contains_iff_mem, inside, if_true, yields_pure] at h
    obtain ⟨-, rfl⟩ := h
    exact ⟨.refl, rfl, fun sited => ⟨n, node, sited, .inl (told ▸ inside)⟩⟩
  · simp only [List.contains_iff_mem, inside, if_false, yields_bind] at h
    obtain ⟨d, t, opened, rest⟩ := h
    have ready : Details c s t ∧ t.documents.get? declaration.file = some d ∧
        t.symbols.get? key = some n ∧ t.memory = s.memory ∧ t.traversal = s.traversal := by
      cases present : s.documents.get? declaration.file with
      | some d' =>
          obtain ⟨rfl, rfl⟩ := (yields_document_of_present present).1 opened
          exact ⟨.refl, present, node, rfl, rfl⟩
      | none =>
          obtain ⟨rfl, rfl⟩ := (yields_document_of_absent present).1 opened
          exact ⟨.single (.began present inside ⟨key, n, id, node, chosen, by rw [told]⟩),
            get?_began s _, node, rfl, rfl⟩
    obtain ⟨details, document, node, memory, traversal⟩ := ready
    split at rest
    · rename_i ended
      obtain ⟨-, rfl⟩ := yields_pure.1 rest
      exact ⟨details, memory, fun sited =>
        ⟨n, node, sited, .inr (.inl ⟨d, told ▸ document, ended⟩)⟩⟩
    · have mark : Site.ofNode (markIn c t.memory declaration) = siteIn c s.memory id := by
        rw [siteIn, told, memory]
      rcases yields_recordDefinition node document rest with
        ⟨known, rfl⟩ | ⟨new, open_, writable, rfl⟩
      · exact ⟨details, memory, fun sited => ⟨n, node, sited, .inr (.inr (mark ▸ known))⟩⟩
      · have early : t.Early c n declaration.file declaration (markIn c t.memory declaration) :=
          ⟨⟨id, chosen, by rw [memory, told]⟩, rfl, rfl, by rwa [traversal]⟩
        refine ⟨details.tail (.defined node open_ document writable new early), memory,
          fun sited => ⟨_, (Table.get?_modify_self ..).trans (congrArg _ node), sited,
            .inr (.inr ?_)⟩⟩
        exact mark ▸ List.mem_cons_self

theorem yields_isDefinition {key : String} {name : Node} {s s' : State μ ω} {b : Bool} :
    Yields (isDefinition c key name) s b s' ↔
      b = ((((s.symbols.get? key).getD default).sites.contains (Site.ofNode name)) ||
        c.oracle.isDefinitionSite s.memory name) ∧ s' = s := by
  simp only [isDefinition, yields_bind, yields_lookup, yields_get, yields_pure]
  constructor
  · rintro ⟨_, _, ⟨rfl, rfl⟩, _, _, ⟨rfl, rfl⟩, rfl, rfl⟩
    exact ⟨rfl, rfl⟩
  · rintro ⟨rfl, rfl⟩
    exact ⟨_, _, ⟨rfl, rfl⟩, _, _, ⟨rfl, rfl⟩, rfl, rfl⟩

theorem yields_markDefinition {key path : String} {name : Node} {s s' : State μ ω} {u : Unit}
    {n : SymbolNode} {d : DocumentNode} (node : s.symbols.get? key = some n)
    (document : s.documents.get? path = some d)
    (h : Yields (markDefinition c key path name) s u s') :
    ∃ id, (n.sites.get? (Site.ofNode name)).or name.parent = some id ∧
      ((siteIn c s.memory id ∈ n.recorded ∧ s' = s) ∨
        (siteIn c s.memory id ∉ n.recorded ∧ n.ended = false ∧ d.ended = false ∧
          s' = s.defined c key path n d (c.oracle.node id s.memory)
            (markIn c s.memory (c.oracle.node id s.memory)))) := by
  simp only [markDefinition, yields_lookup_bind, node, Option.getD_some] at h
  split at h
  · rename_i id found
    rw [yields_nodeOf_bind] at h
    exact ⟨id, found, yields_recordDefinition node document h⟩
  · simp only [yields_bind, yields_throw, and_false, exists_false] at h

theorem yields_forward {key path : String} {document id : Id} {s s' : State μ ω} {u : Unit} :
    Yields (forward key path document id) s u s' ↔ s' = s.forwarded path document id key := by
  rw [forward, yields_get_bind, State.forwarded]
  cases s.symbols.get? key with
  | none => simp
  | some n => cases ended : n.ended <;> simp [ended, SymbolNode.addReferenceId]

theorem yields_forIn_forward {keys : List String} {path : String} {document id : Id}
    {s s' : State μ ω} {u : PUnit} :
    Yields (forIn keys PUnit.unit fun key _ => do
        forward key path document id; pure (ForInStep.yield PUnit.unit)) s u s' ↔
      s' = keys.foldl (State.forwarded path document id) s := by
  induction keys generalizing s with
  | nil => simp
  | cons key keys ih =>
      rw [yields_forIn_cons, List.foldl_cons]
      simp only [yields_forward, exists_eq_left]
      exact ih

theorem yields_forIn_forward_others {keys : List String} {key path : String} {document id : Id}
    {s s' : State μ ω} {u : PUnit} :
    Yields (forIn keys PUnit.unit fun member _ =>
        if member = key then pure (ForInStep.yield PUnit.unit)
        else do forward member path document id; pure (ForInStep.yield PUnit.unit)) s u s' ↔
      s' = (keys.filter (· ≠ key)).foldl (State.forwarded path document id) s := by
  induction keys generalizing s with
  | nil => simp
  | cons member keys ih =>
      simp only [List.forIn_cons, yields_bind]
      by_cases own : member = key
      · simp only [own, if_true, yields_pure, and_assoc, exists_and_left, exists_eq_left]
        simpa using ih
      · simp only [own, if_false, yields_bind, yields_forward, yields_pure]
        constructor
        · rintro ⟨_, _, ⟨_, _, rfl, rfl, rfl⟩, rest⟩
          simpa [own] using ih.1 rest
        · intro reached
          refine ⟨_, _, ⟨⟨⟩, _, rfl, rfl, rfl⟩, ih.2 ?_⟩
          simpa [own] using reached

theorem yields_addReference {key path : String} {name : Node} {s s' : State μ ω} {u : Unit}
    {n : SymbolNode} {d : DocumentNode} (node : s.symbols.get? key = some n)
    (document : s.documents.get? path = some d)
    (h : Yields (addReference c key path name) s u s') :
    n.ended = false ∧ d.ended = false ∧
      s' = (n.forwards key).foldl (State.forwarded path d.id (s.lastId + 1))
        (s.referred c key path n d name) := by
  simp only [addReference, yields_requireOpen_bind, yields_lookup_bind, node,
    Option.getD_some] at h
  obtain ⟨open_, h⟩ := h
  obtain ⟨_, _, added, h⟩ := yields_bind.1 h
  obtain ⟨writable, rfl, rfl⟩ := yields_addRange added document
  simp only [yields_documentId_bind, yields_modifySymbol_bind, yields_count_bind,
    Table.get?_modify_self, document, Option.map_some, Option.getD_some] at h
  obtain ⟨_, _, first, h⟩ := yields_bind.1 h
  obtain ⟨_, _, second, h⟩ := yields_bind.1 h
  obtain rfl := yields_forIn_forward.1 first
  obtain rfl := yields_forIn_forward_others.1 second
  refine ⟨open_, writable, ?_⟩
  rw [SymbolNode.forwards, List.foldl_append]
  exact (yields_pure.1 h).2

/-! ## Monikers, hovers and confinement -/

theorem yields_attachMoniker {key : String} {m : Moniker} {s s' : State μ ω} {u : Unit}
    {n : SymbolNode} (node : s.symbols.get? key = some n)
    (h : Yields (attachMoniker c key m) s u s') :
    n.ended = false ∧ (((∃ other ∈ n.monikers, other.identifier = m.identifier) ∧ s' = s) ∨
      ((∀ other ∈ n.monikers, other.identifier ≠ m.identifier) ∧ s' = s.attached c key n m)) := by
  simp only [attachMoniker, yields_requireOpen_bind, yields_lookup_bind, node,
    Option.getD_some] at h
  obtain ⟨open_, h⟩ := h
  refine ⟨open_, ?_⟩
  split at h
  · rename_i known
    obtain ⟨other, member, same⟩ := Array.any_eq_true'.1 known
    exact .inl ⟨⟨other, member, by simpa using same⟩, (yields_pure.1 h).2⟩
  · rename_i new
    simp only [yields_emit_bind, yields_modifySymbol_bind, yields_count] at h
    refine .inr ⟨fun other member => ?_, h⟩
    simpa using fun same => new (Array.any_eq_true'.2 ⟨other, member, by simpa using same⟩)

theorem details_attachMoniker {key : String} {m : Moniker} {s s' : State μ ω} {u : Unit}
    {n : SymbolNode} (node : s.symbols.get? key = some n)
    (h : Yields (attachMoniker c key m) s u s') : Details c s s' := by
  obtain ⟨open_, ⟨-, rfl⟩ | ⟨new, rfl⟩⟩ := yields_attachMoniker node h
  · exact .refl
  · exact .single (.attached node open_ new)

theorem details_attachExported {key : String} {s s' : State μ ω} {u : Unit} {n : SymbolNode}
    (node : s.symbols.get? key = some n) (h : Yields (attachExported c key n) s u s') :
    Details c s s' := by
  rw [attachExported] at h
  split at h
  · exact (yields_pure.1 h).2 ▸ .refl
  rw [yields_ask_bind] at h
  have asked : Detail c s { s with memory := (c.oracle.exportPath n.symbol s.memory).2 } :=
    .asked (.exportPath ..)
  split at h
  · exact (yields_pure.1 h).2 ▸ .single asked
  rw [yields_nodesOf_bind] at h
  split at h
  · exact (yields_pure.1 h).2 ▸ .single asked
  · exact .head asked (details_attachMoniker (by exact node) h)

theorem details_attachPrimary {key : String} {s s' : State μ ω} {u : Unit} {n : SymbolNode}
    (node : s.symbols.get? key = some n) (h : Yields (attachPrimary c key) s u s') :
    Details c s s' := by
  simp only [attachPrimary, yields_lookup_bind, node, Option.getD_some] at h
  split at h
  · exact details_attachExported node h
  · exact details_attachExported node h
  · exact (yields_pure.1 h).2 ▸ .refl

theorem details_attachHover {key : String} {s s' : State μ ω} {u : Unit} {n : SymbolNode}
    (node : s.symbols.get? key = some n) (h : Yields (attachHover c key) s u s') :
    Details c s s' := by
  simp only [attachHover, yields_lookup_bind, node, Option.getD_some] at h
  split at h
  · exact (yields_pure.1 h).2 ▸ .refl
  rw [yields_nodesOf_bind] at h
  split at h
  · exact (yields_pure.1 h).2 ▸ .refl
  rename_i name _
  rw [yields_ask_bind] at h
  have asked : Detail c s { s with memory := (c.oracle.hoverText name s.memory).2 } :=
    .asked (.hoverText ..)
  split at h
  · exact (yields_pure.1 h).2 ▸ .single asked
  · split at h
    · exact (yields_pure.1 h).2 ▸ .single asked
    · simp only [yields_emit_bind, yields_pure] at h
      obtain ⟨-, rfl⟩ := h
      exact (Relation.ReflTransGen.single asked).tail (.hovered _ node)

theorem areConfined?_eq_some_true {memory : μ} {file : String} {declarations : List Node} :
    areConfined? c memory file declarations = some true ↔
      ∀ d ∈ declarations, d.file = file ∧ isConfined? c memory d = some true := by
  induction declarations with
  | nil => simp [areConfined?]
  | cons d rest ih =>
      by_cases here : d.file = file
      · rcases confined : isConfined? c memory d with - | - | - <;>
          simp [areConfined?, here, confined, ih]
      · simp [areConfined?, here]

/-- A local symbol is tied to its document, or to the path that waits for one; no node
changes. -/
theorem yields_confine {key : String} {s s' : State μ ω} {u : Unit} {n : SymbolNode}
    (node : s.symbols.get? key = some n) (local_ : n.isLocal = true)
    (h : Yields (confine c key) s u s') :
    s' = s ∨ Detail c s s' ∧ s'.symbols = s.symbols := by
  simp only [confine, yields_lookup_bind, node, Option.getD_some, yields_nodesOf_bind] at h
  split at h
  · exact .inl (yields_pure.1 h).2
  rename_i first rest declared
  rw [yields_get_bind] at h
  by_cases visited : s.traversal.contains first.file = true
  case neg =>
    rw [if_neg visited, yields_pure] at h
    exact .inl h.2
  rw [if_pos visited] at h
  rcases within : areConfined? c s.memory first.file
      (n.declarations.map (c.oracle.node · s.memory)) with - | - | -
  · simp [within] at h
  · exact .inl (by simpa [within] using h)
  have confined : n.ConfinedTo c s first.file := by
    refine ⟨local_, ?_, by simpa using visited, fun id member => ?_⟩
    · rintro none
      simp [none] at declared
    · exact areConfined?_eq_some_true.1 within _ (List.mem_map_of_mem member)
  simp only [within] at h
  split at h
  · rename_i missing
    obtain rfl := yields_set.1 h
    exact .inr ⟨.awaited node confined missing, rfl⟩
  · rename_i d document
    cases ended : d.ended
    · simp only [ended, Bool.false_eq_true, if_false, yields_set] at h
      subst h
      exact .inr ⟨.confined node confined document ended, rfl⟩
    · simp only [ended, if_true, yields_pure] at h
      exact .inl h.2

theorem details_confine {key : String} {s s' : State μ ω} {u : Unit} {n : SymbolNode}
    (node : s.symbols.get? key = some n) (local_ : n.isLocal = true)
    (h : Yields (confine c key) s u s') : Details c s s' := by
  rcases yields_confine node local_ h with rfl | ⟨tied, -⟩
  · exact .refl
  · exact .single tied

/-! ## Endings -/

theorem yields_forIn_emit {items : List Graph.Item} {s s' : State μ ω} {u : PUnit} :
    Yields (forIn items PUnit.unit fun item _ => do
        let _ ← emit c (.item item); pure (ForInStep.yield PUnit.unit)) s u s' ↔
      s' = s.emittedAll c (items.map .item) := by
  induction items generalizing s with
  | nil => simp [State.emittedAll]
  | cons item items ih =>
      simp only [List.forIn_cons, yields_bind, yields_emit, yields_pure, List.map_cons,
        State.emittedAll, List.foldl_cons]
      constructor
      · rintro ⟨_, _, ⟨_, _, ⟨rfl, rfl⟩, rfl, rfl⟩, rest⟩
        exact ih.1 rest
      · intro reached
        exact ⟨_, _, ⟨_, _, ⟨rfl, rfl⟩, rfl, rfl⟩, ih.2 reached⟩

@[simp] theorem symbols_emittedAll (s : State μ ω) (bodies : List Graph.Body) :
    (s.emittedAll c bodies).symbols = s.symbols := by
  induction bodies generalizing s with
  | nil => rfl
  | cons body bodies ih => exact ih (s.emitted c body)

@[simp] theorem documents_emittedAll (s : State μ ω) (bodies : List Graph.Body) :
    (s.emittedAll c bodies).documents = s.documents := by
  induction bodies generalizing s with
  | nil => rfl
  | cons body bodies ih => exact ih (s.emitted c body)

theorem yields_endSymbol {key : String} {s s' : State μ ω} {u : Unit} {n : SymbolNode}
    (node : s.symbols.get? key = some n) (h : Yields (endSymbol c key) s u s') :
    n.ended = false ∧ s' = s.symbolEnded c key n := by
  rw [endSymbol, yields_get_bind] at h
  simp only [node] at h
  cases ended : n.ended
  · simp only [ended, Bool.false_eq_true, if_false] at h
    obtain ⟨_, _, emitted, h⟩ := yields_bind.1 h
    obtain rfl := yields_forIn_emit.1 emitted
    refine ⟨rfl, ?_⟩
    simpa [State.symbolEnded, SymbolNode.items] using h
  · simp [ended] at h

/-- An ending leaves an ended symbol: the one that was open is frozen now. -/
theorem yields_endOpenSymbol {key : String} {s s' : State μ ω} {u : Unit}
    (h : Yields (endOpenSymbol c key) s u s') :
    (s' = s ∧ ∀ n, s.symbols.get? key = some n → n.ended = true) ∨
      ∃ n, s.symbols.get? key = some n ∧ n.ended = false ∧ s' = s.symbolEnded c key n := by
  rw [endOpenSymbol, yields_get_bind] at h
  cases node : s.symbols.get? key with
  | none =>
      simp only [node, yields_pure] at h
      exact .inl ⟨h.2, by simp⟩
  | some n =>
      simp only [node] at h
      cases ended : n.ended
      · simp only [ended, Bool.false_eq_true, if_false] at h
        exact .inr ⟨n, rfl, ended, (yields_endSymbol node h).2⟩
      · simp only [ended, if_true, yields_pure] at h
        exact .inl ⟨h.2, by simp [ended]⟩

/-- Endings one after the other. -/
abbrev Endings (c : Context μ ω) : State μ ω → State μ ω → Prop :=
  Relation.ReflTransGen (Ending c)

theorem Endings.steps {s s' : State μ ω} (h : Endings c s s') : Steps c s s' :=
  Relation.ReflTransGen.mono (fun _ _ h => Step.ending h) _ _ h

/-- Every symbol of a list is frozen. -/
def State.Frozen (s : State μ ω) (keys : List String) : Prop :=
  ∀ key ∈ keys, ∀ n, s.symbols.get? key = some n → n.ended = true

theorem get?_symbolEnded (s : State μ ω) (key other : String) (n : SymbolNode) :
    (s.symbolEnded c key n).symbols.get? other =
      if key = other then (s.symbols.get? other).map fun n => { n with ended := true }
      else s.symbols.get? other :=
  Table.get?_modify ..

theorem frozen_symbolEnded {s : State μ ω} {keys : List String} (frozen : s.Frozen keys)
    (key : String) (n : SymbolNode) : (s.symbolEnded c key n).Frozen (key :: keys) := by
  intro other member m node
  rw [get?_symbolEnded] at node
  split at node
  · obtain ⟨_, _, rfl⟩ := Option.map_eq_some_iff.1 node
    rfl
  · rename_i different
    exact frozen other (List.mem_of_ne_of_mem (Ne.symm different) member) m node

/-- A loop of endings freezes its symbols and leaves the documents alone. -/
theorem endings_forIn_endOpenSymbol {keys : List String} {s s' : State μ ω} {u : PUnit}
    (done : List String) (before : s.Frozen done)
    (h : Yields (forIn keys PUnit.unit fun key _ => do
      endOpenSymbol c key; pure (ForInStep.yield PUnit.unit)) s u s') :
    Endings c s s' ∧ s'.documents = s.documents ∧ s'.Frozen (keys ++ done) := by
  induction keys generalizing s done with
  | nil =>
      simp only [List.forIn_nil, yields_pure] at h
      exact ⟨h.2 ▸ .refl, h.2 ▸ rfl, h.2 ▸ before⟩
  | cons key keys ih =>
      obtain ⟨t, first, rest⟩ := yields_forIn_cons.1 h
      have first : Endings c s t ∧ t.documents = s.documents ∧ t.Frozen (key :: done) := by
        rcases yields_endOpenSymbol first with ⟨rfl, ended⟩ | ⟨n, node, open_, rfl⟩
        · refine ⟨.refl, rfl, fun other member n node => ?_⟩
          rcases List.mem_cons.1 member with rfl | member
          · exact ended n node
          · exact before other member n node
        · refine ⟨.single (.symbol node open_), ?_, frozen_symbolEnded before key n⟩
          exact documents_emittedAll s _
      obtain ⟨endings, documents, frozen⟩ := first
      obtain ⟨endings', documents', frozen'⟩ := ih _ frozen rest
      refine ⟨endings.trans endings', documents'.trans documents, fun other member => ?_⟩
      refine frozen' other ?_
      simp only [List.cons_append, List.mem_cons, List.mem_append] at member ⊢
      exact or_left_comm.1 member

theorem yields_endDocument {path : String} {s s' : State μ ω} {u : Unit} {d : DocumentNode}
    (document : s.documents.get? path = some d) (h : Yields (endDocument c path) s u s') :
    d.ended = false ∧ ∃ t, Endings c s t ∧ t.documents = s.documents ∧ t.Frozen d.locals ∧
      s' = t.documentEnded c path d := by
  rw [endDocument, yields_get_bind] at h
  simp only [document] at h
  cases ended : d.ended
  · simp only [ended, Bool.false_eq_true, if_false] at h
    obtain ⟨_, t, loop, h⟩ := yields_bind.1 h
    obtain ⟨endings, documents, frozen⟩ :=
      endings_forIn_endOpenSymbol [] (by simp [State.Frozen]) loop
    refine ⟨rfl, t, endings, documents, by simpa using frozen, ?_⟩
    unfold State.documentEnded
    cases empty : d.ranges.isEmpty
    · simp only [empty, Bool.false_eq_true, if_false, yields_emit_bind, yields_modify] at h ⊢
      exact h
    · simp only [empty, if_true, yields_modify] at h ⊢
      exact h
  · simp [ended] at h

end SymbolAtlas.Session
