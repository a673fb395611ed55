/-
# SymbolAtlas.Proofs.Session.Ranges -- the ranges of the files of a run

The document of a file of the run shows what the run came upon in the file: one range for each
identifier that denotes a symbol, in the order in which they stand in the tree.

Two things could disturb that.  Definitions are also recorded when a symbol gets its node, but
only in files that the run does not visit, so whatever is done between two identifiers leaves
the documents of its files alone (`State.Silent`).  And a definition is dropped where one is on
record, but in a file of the run only identifiers that were seen put one there, and no two
identifiers stand at one place (`Recorded.placed`).
-/
import SymbolAtlas.Proofs.Session.Definitions

set_option autoImplicit false

namespace SymbolAtlas.Session

open SymbolAtlas.Graph (Id Element)

variable {μ ω : Type} {c : Context μ ω} {view : ω → List Element} {start : μ} {seen : List Site}

/-! ## What a range says -/

/-- A name marks a symbol: it stands where a declaration of the symbol is marked, or it names
the declaration that it hangs in. -/
def SymbolNode.Marks (c : Context μ ω) (memory : μ) (n : SymbolNode) (name : Node) : Prop :=
  Site.ofNode name ∈ n.declarations.map (siteIn c memory) ∨
    c.oracle.isDefinitionSite memory name = true

instance (memory : μ) (n : SymbolNode) (name : Node) : Decidable (n.Marks c memory name) :=
  inferInstanceAs (Decidable (_ ∨ _))

/-- A range shows an identifier that was seen: it stands where the identifier stands, it is one
of the symbol that the identifier denotes, and its role is that of the identifier. -/
def Sighting.Shows (c : Context μ ω) (s : State μ ω) (x : Sighting) (r : Graph.Range) : Prop :=
  ∃ sym n, x.symbol = some sym ∧ s.symbols.get? sym.key = some n ∧ r.span = x.name.span ∧
    r.resultSet = n.resultSet ∧
    r.role = if n.Marks c s.memory x.name then .definition else .reference

/-- What a name is taken for is what it is. -/
theorem takes_eq {memory : μ} {n : SymbolNode} (rooted : n.Rooted c start memory)
    (sited : ∀ id ∈ n.declarations, n.sites.contains (siteIn c memory id) = true) (name : Node) :
    n.takes c memory name = decide (n.Marks c memory name) := by
  have places : n.sites.contains (Site.ofNode name) = true ↔
      Site.ofNode name ∈ n.declarations.map (siteIn c memory) := by
    constructor
    · intro known
      obtain ⟨id, found⟩ := Option.isSome_iff_exists.1 known
      obtain ⟨chosen, here⟩ := rooted.sites _ id found
      exact here ▸ List.mem_map_of_mem chosen
    · intro member
      obtain ⟨id, chosen, here⟩ := List.mem_map.1 member
      exact here ▸ sited id chosen
  rw [Bool.eq_iff_iff, decide_eq_true_iff, SymbolNode.takes, Bool.or_eq_true, places]
  exact Iff.rfl

/-- Between two moments a name is taken for what it is. -/
theorem State.Noted.takes_eq {s : State μ ω} (noted : s.Noted c) (rooted : s.Rooted c start seen)
    {key : String} {n : SymbolNode} (node : s.symbols.get? key = some n) (name : Node) :
    n.takes c s.memory name = decide (n.Marks c s.memory name) := by
  refine Session.takes_eq (rooted.nodes _ n node) (fun id chosen => ?_) name
  obtain ⟨n', node', known, -⟩ := noted _ n node id chosen
  obtain rfl := Option.some.inj (node.symm.trans node')
  exact known

/-- A range goes on showing what it shows. -/
theorem Sighting.Shows.later (anchored : c.oracle.Anchored start) {s s' : State μ ω}
    {x : Sighting} {r : Graph.Range} {file : Tree} (h : x.Shows c s r)
    (rooted : s.Rooted c start seen) (indexed : file ∈ c.oracle.files)
    (inside : x.name ∈ file.nodes) (steps : Steps c s s') : x.Shows c s' r := by
  obtain ⟨sym, n, denotes, node, span, home, role⟩ := h
  obtain ⟨n', node', same⟩ := steps.profile node
  have places : n'.declarations.map (siteIn c s'.memory) =
      n.declarations.map (siteIn c s.memory) := by
    rw [declarations_of_profile same]
    exact List.map_congr_left fun id chosen =>
      siteIn_later anchored ((rooted.nodes _ n node).shown id chosen) steps.later
  have marks : n'.Marks c s'.memory x.name ↔ n.Marks c s.memory x.name := by
    unfold SymbolNode.Marks
    rw [places, anchored.isDefinitionSite_later indexed inside rooted.later steps.later]
  refine ⟨sym, n', denotes, node', span, home.trans (resultSet_of_profile same).symm, ?_⟩
  simp only [role, marks]

/-! ## Between two identifiers -/

/-- What the document of a path has filed. -/
def filedIn (documents : Table String DocumentNode) (path : String) : List Id :=
  ((documents.get? path).map (·.ranges.toList)).getD []

theorem filedIn_modify (documents : Table String DocumentNode) (own path : String)
    {f : DocumentNode → DocumentNode} (kept : ∀ d, (f d).ranges = d.ranges) :
    filedIn (documents.modify own f) path = filedIn documents path := by
  unfold filedIn
  rw [Table.map_get?_modify documents own path fun d => congrArg Array.toList (kept d)]

theorem filedIn_modify_of_ne (documents : Table String DocumentNode) {own path : String}
    (f : DocumentNode → DocumentNode) (other : own ≠ path) :
    filedIn (documents.modify own f) path = filedIn documents path := by
  unfold filedIn
  rw [Table.get?_modify, if_neg other]

theorem filedIn_insert {documents : Table String DocumentNode} {own : String} {d : DocumentNode}
    (fresh : documents.get? own = none) (blank : d.ranges = #[]) (path : String) :
    filedIn (documents.insert own d) path = filedIn documents path := by
  unfold filedIn
  rw [Table.get?_insert]
  split
  · rename_i same
    subst same
    simp [fresh, blank]
  · rfl

/-- No range is filed for a file of the run, and no identifier is passed over. -/
structure State.Silent (s s' : State μ ω) : Prop where
  filed : ∀ path ∈ s.traversal, filedIn s'.documents path = filedIn s.documents path
  skipped : s'.stats.skipped = s.stats.skipped

theorem State.Silent.refl (s : State μ ω) : s.Silent s := ⟨fun _ _ => rfl, rfl⟩

theorem State.Silent.trans {s t s' : State μ ω} (first : s.Silent t) (second : t.Silent s')
    (settled : t.traversal = s.traversal) : s.Silent s' :=
  ⟨fun path visited => (second.filed path (settled ▸ visited)).trans (first.filed path visited),
    second.skipped.trans first.skipped⟩

theorem silent_began {s : State μ ω} {path : String} (fresh : s.documents.get? path = none) :
    s.Silent (s.began c path) :=
  ⟨fun other _ => filedIn_insert fresh rfl other, rfl⟩

theorem Detail.silent {s s' : State μ ω} (step : Detail c s s') : s.Silent s' := by
  cases step with
  | asked | counted | sited | attached | hovered | joined | awaited => exact ⟨fun _ _ => rfl, rfl⟩
  | began fresh outside => exact silent_began fresh
  | @defined key path n d declaration name node open_ document writable new early =>
      refine ⟨fun other visited => filedIn_modify_of_ne _ _ ?_, rfl⟩
      rintro rfl
      exact early.outside visited
  | confined => exact ⟨fun other _ => filedIn_modify _ _ other fun _ => rfl, rfl⟩

theorem Move.silent {s s' : State μ ω} (move : Move c s s') : s.Silent s' := by
  cases move with
  | detail step => exact step.silent
  | growth step => cases step <;> exact ⟨fun _ _ => rfl, rfl⟩

theorem Moves.silent {s s' : State μ ω} (moves : Moves c s s') : s.Silent s' := by
  induction moves with
  | refl => exact .refl _
  | tail before last ih => exact ih.trans last.silent (Moves.steps before).settled.1

theorem Ending.silent {s s' : State μ ω} (ending : Ending c s s') : s.Silent s' := by
  cases ending with
  | @symbol key n node open_ =>
      obtain ⟨_, _, _, shape⟩ := s.emittedAll_eq (c := c) (n.items.map .item)
      rw [State.symbolEnded, shape]
      exact ⟨fun _ _ => rfl, rfl⟩
  | @document path d document writable frozen =>
      obtain ⟨_, _, _, shape⟩ := s.documentEnded_eq (c := c) path d
      rw [shape]
      exact ⟨fun other _ => filedIn_modify _ _ other fun _ => rfl, rfl⟩

theorem Endings.silent {s s' : State μ ω} (endings : Endings c s s') : s.Silent s' := by
  induction endings with
  | refl => exact .refl _
  | tail before last ih => exact ih.trans last.silent (Endings.steps before).settled.1

/-! ## The ranges of a path -/

/-- The ranges in the document of a path with their numbers. -/
def State.rangesAt (view : ω → List Element) (s : State μ ω) (path : String) :
    List (Id × Graph.Range) :=
  ((s.documents.get? path).map fun d => Graph.rangesIn d.id (view s.output)).getD []

theorem State.Filed.map_rangesAt {s : State μ ω} (h : s.Filed view) (path : String) :
    (s.rangesAt view path).map Prod.fst = filedIn s.documents path := by
  unfold State.rangesAt filedIn
  cases document : s.documents.get? path with
  | none => rfl
  | some d => exact h.sorted.ranges path d document

/-- The ranges of a path stay, and more may follow them. -/
theorem rangesAt_grow (records : c.sink.Records view) {s s' : State μ ω} (steps : Steps c s s')
    (filed : s.Filed view) (ok : s'.failure = none) (path : String) :
    ∃ more, s'.rangesAt view path = s.rangesAt view path ++ more := by
  obtain ⟨-, same, more, stream⟩ := steps.sorted records filed.traced filed.sorted ok
  unfold State.rangesAt
  cases document : s.documents.get? path with
  | none => exact ⟨_, rfl⟩
  | some d =>
      obtain ⟨d', document', number⟩ := same path d document
      rw [document', stream]
      exact ⟨Graph.rangesIn d'.id more, by simp [number]⟩

/-- The ranges of a path are what they were if its document has filed no other. -/
theorem rangesAt_still (records : c.sink.Records view) {s s' : State μ ω} (steps : Steps c s s')
    (filed : s.Filed view) (ok : s'.failure = none) {path : String}
    (still : filedIn s'.documents path = filedIn s.documents path) :
    s'.rangesAt view path = s.rangesAt view path := by
  obtain ⟨filed', -, -⟩ := steps.filed records filed ok
  obtain ⟨more, grown⟩ := rangesAt_grow records steps filed ok path
  have numbers := filed'.map_rangesAt path
  rw [still, ← filed.map_rangesAt path, grown, List.map_append, List.append_right_eq_self,
    List.map_eq_nil_iff] at numbers
  rw [grown, numbers, List.append_nil]

/-! ## An identifier is recorded once -/

/-- A range is filed in the document of a path. -/
def State.Filing (c : Context μ ω) (s s' : State μ ω) (path : String) (r : Graph.Range) : Prop :=
  ∃ d symbols, ∃ f : Stats → Stats, s.documents.get? path = some d ∧ r.document = d.id ∧
    (∀ k, (f k).skipped = k.skipped) ∧
    s' = { s.emitted c (.range r) with
      symbols
      documents := s.documents.modify path fun d =>
        { d with ranges := d.ranges.push (s.lastId + 1) }
      stats := f s.stats }

theorem State.Filing.rangesAt (records : c.sink.Records view) {s s' : State μ ω} {path : String}
    {r : Graph.Range} (h : s.Filing c s' path r) (ok : s'.failure = none) :
    s'.rangesAt view path = s.rangesAt view path ++ [((s.lastId + 1 : Id), r)] := by
  obtain ⟨d, symbols, f, document, home, -, rfl⟩ := h
  have stream : view (s.emitted c (.range r)).output = _ := view_emitted records ok
  unfold State.rangesAt
  simp only [Table.get?_modify_self, document, Option.map_some, Option.getD_some, stream,
    Graph.rangesIn_append]
  simp [Graph.rangesIn, home]

/-- **An identifier is recorded** in the document of its path and in the role that it has, unless
a definition of its symbol is on record where it stands. -/
theorem Recorded.known_or_filing (anchored : c.oracle.Anchored start) {path key : String}
    {name : Node} {file : Tree} {s s' : State μ ω} (recorded : Recorded c path key name s s')
    (indexed : file ∈ c.oracle.files) (inside : name ∈ file.nodes)
    (rooted : s.Rooted c start seen) :
    ∃ n, s.symbols.get? key = some n ∧
      (n.takes c s.memory name = true ∧ Site.ofNode name ∈ n.recorded ∧ s' = s ∨
      ∃ r, r.span = name.span ∧ r.resultSet = n.resultSet ∧
        r.role = (if n.takes c s.memory name = true then .definition else .reference) ∧
        s.Filing c s' path r) := by
  cases recorded with
  | known node definition found old =>
      have here := siteIn_found anchored rooted indexed inside node definition found
      exact ⟨_, node, .inl ⟨definition, here ▸ old, rfl⟩⟩
  | @defined n d id node open_ document writable definition found new =>
      have here := siteIn_found anchored rooted indexed inside node definition found
      have span : (markIn c s.memory (c.oracle.node id s.memory)).span = name.span :=
        congrArg Site.span here
      refine ⟨n, node, .inr ⟨_, ?_, ?_, ?_, d, _,
        fun k => { k with definitions := k.definitions + 1 }, document, ?_, fun _ => rfl, rfl⟩⟩
      · exact span
      · rfl
      · rw [if_pos definition]
      · rfl
  | @referred n d node open_ document writable reference =>
      obtain ⟨symbols, shape⟩ := State.foldl_forwarded_eq path d.id (s.lastId + 1)
        (n.forwards key) (s.referred c key path n d name)
      refine ⟨n, node, .inr ⟨_, ?_, ?_, ?_, d, symbols,
        fun k => { k with references := k.references + 1 }, document, ?_, fun _ => rfl, shape⟩⟩
      · rfl
      · rfl
      · rw [if_neg (by simp [reference])]
      · rfl

/-- An identifier that is seen for the first time is recorded. -/
theorem Recorded.filing (anchored : c.oracle.Anchored start) {path key : String} {name : Node}
    {file : Tree} {s s' : State μ ω} (recorded : Recorded c path key name s s')
    (indexed : file ∈ c.oracle.files) (inside : name ∈ file.nodes)
    (rooted : s.Rooted c start seen) (visited : name.file ∈ s.traversal)
    (unseen : Site.ofNode name ∉ seen) :
    ∃ n r, s.symbols.get? key = some n ∧ r.span = name.span ∧ r.resultSet = n.resultSet ∧
      r.role = (if n.takes c s.memory name = true then .definition else .reference) ∧
      s.Filing c s' path r := by
  obtain ⟨n, node, ⟨-, old, -⟩ | ⟨r, rest⟩⟩ :=
    recorded.known_or_filing anchored indexed inside rooted
  · exact absurd (rooted.foreign key _ node _ old visited) unseen
  · exact ⟨n, r, node, rest⟩

/-- No identifier was seen where another one stands. -/
theorem not_mem_placesSeen (distinct : (c.oracle.files.map (·.root.file)).Nodup)
    (apart : ((Tree.identifiers c.oracle.files).map fun x => Site.ofNode x.2).Nodup)
    {first rest : List Moment} {m : Moment} (split : schedule c.oracle.files = first ++ m :: rest)
    {path : String} {name : Node} (named : m.named? = some (path, name)) (s : State μ ω) :
    Site.ofNode name ∉ placesSeen c first s := by
  have places : placesSeen c first s =
      (first.filterMap Moment.named?).map fun x => Site.ofNode x.2 := by
    rw [← names_sightings_moments (c := c) first s, List.map_map]
    rfl
  rw [← named_schedule distinct, split, List.filterMap_append, List.filterMap_cons_some named,
    List.map_append, List.map_cons] at apart
  rw [places]
  exact fun member => (List.nodup_append.1 apart).2.2 _ member _ List.mem_cons_self rfl

/-! ## Whatever part of its schedule a run has performed -/

/-- The documents of the files show what was seen, and what denotes nothing was passed over. -/
structure State.Displays (c : Context μ ω) (view : ω → List Element) (seen : List Sighting)
    (s : State μ ω) : Prop where
  ranges : ∀ path ∈ s.traversal, List.Forall₂ (fun x entry => x.Shows c s entry.2)
    (seen.filter fun x => x.path = path ∧ x.symbol.isSome) (s.rangesAt view path)
  skipped : s.stats.skipped = seen.countP (·.symbol.isNone)

/-- Ranges go on showing what they show. -/
theorem shows_later (anchored : c.oracle.Anchored start) {s s' : State μ ω}
    (rooted : s.Rooted c start seen) (steps : Steps c s s') {shown : List Sighting}
    {entries : List (Id × Graph.Range)}
    (inside : ∀ x ∈ shown, ∃ file ∈ c.oracle.files, x.name ∈ file.nodes)
    (h : List.Forall₂ (fun x entry => x.Shows c s entry.2) shown entries) :
    List.Forall₂ (fun x entry => x.Shows c s' entry.2) shown entries := by
  refine ((List.forall₂_and_left _ _).2 ⟨inside, h⟩).imp ?_
  rintro x entry ⟨⟨file, indexed, here⟩, shown⟩
  exact shown.later anchored rooted indexed here steps

theorem State.Displays.silent {shown : List Sighting} (records : c.sink.Records view)
    (anchored : c.oracle.Anchored start) {s s' : State μ ω} (h : s.Displays c view shown)
    (steps : Steps c s s') (silent : s.Silent s') (filed : s.Filed view)
    (rooted : s.Rooted c start seen)
    (inside : ∀ x ∈ shown, ∃ file ∈ c.oracle.files, x.name ∈ file.nodes)
    (ok : s'.failure = none) : s'.Displays c view shown := by
  refine ⟨fun path visited => ?_, silent.skipped.trans h.skipped⟩
  rw [steps.settled.1] at visited
  rw [rangesAt_still records steps filed ok (silent.filed path visited)]
  exact shows_later anchored rooted steps (fun x member => inside x (List.mem_of_mem_filter member))
    (h.ranges path visited)

/-- One more identifier is shown where it stands. -/
theorem State.Displays.filing {shown : List Sighting} {x : Sighting} {r : Graph.Range}
    (records : c.sink.Records view) (anchored : c.oracle.Anchored start) {s s' : State μ ω}
    (h : s.Displays c view shown) (steps : Steps c s s') (filing : s.Filing c s' x.path r)
    (denotes : x.symbol.isSome = true) (here : x.Shows c s r) (filed : s.Filed view)
    (rooted : s.Rooted c start seen)
    (inside : ∀ y ∈ shown ++ [x], ∃ file ∈ c.oracle.files, y.name ∈ file.nodes)
    (ok : s'.failure = none) : s'.Displays c view (shown ++ [x]) := by
  refine ⟨fun path visited => ?_, ?_⟩
  · rw [steps.settled.1] at visited
    refine shows_later anchored rooted steps
      (fun y member => inside y (List.mem_of_mem_filter member)) ?_
    rw [List.filter_append]
    by_cases own : x.path = path
    · subst own
      rw [filing.rangesAt records ok]
      refine List.rel_append (h.ranges _ visited) ?_
      simp [denotes, here]
    · have still : filedIn s'.documents path = filedIn s.documents path := by
        obtain ⟨d, symbols, f, -, -, -, rfl⟩ := filing
        exact filedIn_modify_of_ne _ _ own
      rw [rangesAt_still records steps filed ok still]
      simpa [own] using h.ranges path visited
  · obtain ⟨d, symbols, f, -, -, kept, rfl⟩ := filing
    have none : x.symbol.isNone = false := by simpa using denotes
    rw [List.countP_append, ← h.skipped]
    simpa [none] using kept s.stats

/-- What denotes nothing is passed over. -/
theorem State.Displays.passed {shown : List Sighting} {path : String} {n : Node}
    (anchored : c.oracle.Anchored start) {s : State μ ω} {memory : μ}
    (h : s.Displays c view shown) (steps : Steps c s (State.passed { s with memory }))
    (rooted : s.Rooted c start seen)
    (inside : ∀ x ∈ shown, ∃ file ∈ c.oracle.files, x.name ∈ file.nodes) :
    (State.passed { s with memory }).Displays c view (shown ++ [⟨path, n, none⟩]) := by
  refine ⟨fun other visited => ?_, ?_⟩
  · rw [List.filter_append, List.filter_cons_of_neg (by simp), List.filter_nil, List.append_nil]
    exact shows_later anchored rooted steps
      (fun x member => inside x (List.mem_of_mem_filter member)) (h.ranges other visited)
  · simp [State.passed, h.skipped]

/-- What denotes a symbol is recorded once. -/
theorem State.Displays.recorded {shown : List Sighting} {path : String} {n : Node} {sym : Symbol}
    {file : Tree} (records : c.sink.Records view) (anchored : c.oracle.Anchored start)
    {s s' : State μ ω} (h : s.Displays c view shown) (recorded : Recorded c path sym.key n s s')
    (indexed : file ∈ c.oracle.files) (own : n ∈ file.nodes) (filed : s.Filed view)
    (rooted : s.Rooted c start seen) (noted : s.Noted c) (visited : n.file ∈ s.traversal)
    (unseen : Site.ofNode n ∉ seen)
    (inside : ∀ x ∈ shown, ∃ file ∈ c.oracle.files, x.name ∈ file.nodes)
    (ok : s'.failure = none) : s'.Displays c view (shown ++ [⟨path, n, some sym⟩]) := by
  obtain ⟨node, r, here, span, home, role, filing⟩ :=
    recorded.filing anchored indexed own rooted visited unseen
  have known : ∀ x ∈ shown ++ [⟨path, n, some sym⟩],
      ∃ file ∈ c.oracle.files, x.name ∈ file.nodes := by
    intro x member
    rcases List.mem_append.1 member with old | new
    · exact inside x old
    · obtain rfl := List.mem_singleton.1 new
      exact ⟨file, indexed, own⟩
  refine h.filing records anchored recorded.steps filing rfl ?_ filed rooted known ok
  refine ⟨sym, node, rfl, here, span, home, ?_⟩
  rw [role, noted.takes_eq rooted here n]
  simp

/-- **Whatever part of its schedule a run has performed**, its documents show what it saw. -/
theorem displays_performed (records : c.sink.Records view) {memory : μ} {output : ω}
    (empty : view output = []) (anchored : c.oracle.Anchored memory)
    (distinct : (c.oracle.files.map (·.root.file)).Nodup)
    (apart : ((Tree.identifiers c.oracle.files).map fun x => Site.ofNode x.2).Nodup)
    {first rest : List Moment} {s : State μ ω} (split : schedule c.oracle.files = first ++ rest)
    (course : Course c first ((State.start c memory output).opened c) s)
    (ok : s.failure = none) :
    s.Displays c view (sightings c first ((State.start c memory output).opened c)) := by
  refine deed_induction anchored (P := fun first s =>
    s.Displays c view (sightings c first ((State.start c memory output).opened c)))
    ⟨fun _ _ => .nil, rfl⟩ ?_ split course ok
  intro first m rest s s' split course ok deed steps displays
  have ok' := steps.failure_none ok
  obtain ⟨rooted, noted⟩ := marked_performed anchored split course ok'
  have filed := course.filed records empty ok'
  have inside : ∀ x ∈ sightings c first ((State.start c memory output).opened c),
      ∃ file ∈ c.oracle.files, x.name ∈ file.nodes := fun _ => inside_of_mem_sightings split
  rw [sightings_snoc course.performs]
  have quiet : m.sighting? c.oracle s.memory = none → s.Silent s' →
      s'.Displays c view (sightings c first ((State.start c memory output).opened c) ++
        (m.sighting? c.oracle s.memory).toList) := by
    intro unsighted silent
    rw [unsighted, Option.toList_none, List.append_nil]
    exact displays.silent records anchored steps silent filed rooted inside ok
  cases deed with
  | opened fresh => exact quiet rfl ⟨fun other _ => filedIn_insert fresh rfl other, rfl⟩
  | ignored unsighted => exact quiet unsighted (.refl s)
  | left shown foundings => exact quiet rfl foundings.moves.silent
  | closed endings =>
      have turned : s.Silent { s with current := none } := ⟨fun _ _ => rfl, rfl⟩
      exact quiet rfl (turned.trans endings.silent rfl)
  | skipped sighted =>
      rw [sighted]
      exact displays.passed anchored steps rooted inside
  | @recorded path file n sym t _ indexed own _ sighted shown foundings recorded =>
      have okT := recorded.steps.failure_none ok
      have stepsT := foundings.moves.steps
      obtain ⟨filedT, -, -⟩ := stepsT.filed records filed okT
      have displaysT :=
        displays.silent records anchored stepsT foundings.moves.silent filed rooted inside okT
      have visited : n.file ∈ t.traversal := by
        rw [stepsT.settled.1, course.steps.settled.1, (anchored.tree file indexed n own).2]
        exact List.mem_map_of_mem indexed
      have unseen := not_mem_placesSeen distinct apart split (named_of_sighting sighted)
        ((State.start c memory output).opened c)
      rw [sighted]
      exact displaysT.recorded records anchored recorded indexed own filedT
        (foundings.rooted anchored shown rooted) (foundings.noted anchored shown rooted noted)
        visited unseen inside ok

/-! ## Runs -/

theorem rangesAt_concluded (records : c.sink.Records view) {s : State μ ω}
    (filed : s.Filed view) (ok : (s.concluded c).failure = none) (path : String) :
    (s.concluded c).rangesAt view path = s.rangesAt view path := by
  obtain ⟨last, stream, concluding, -⟩ :=
    view_concluded records filed.traced.project filed.sorted ok
  unfold State.rangesAt
  simp only [documents_concluded, stream, Graph.rangesIn_append, concluding.rangesIn_nil,
    List.append_nil]

theorem shows_concluded {s : State μ ω} {x : Sighting} {r : Graph.Range} :
    x.Shows c (s.concluded c) r ↔ x.Shows c s r := by
  unfold Sighting.Shows
  rw [symbols_concluded, memory_concluded]

theorem mem_opening {files : List Tree} (distinct : (files.map (·.root.file)).Nodup) {file : Tree}
    (indexed : file ∈ files) : .opening file.root.file ∈ schedule files := by
  rw [schedule, firsts_of_distinct distinct (by simp)]
  exact List.mem_flatMap.2 ⟨file, indexed, List.mem_cons_self⟩

/-- **The documents of a run show what it came upon.**  A run sees the identifiers of its files,
file by file and in pre-order, each with what it denotes by then.  If no two of them stand at
one place, the ranges in the document of a file are, one by one and in this order, those of the
identifiers of the file that denote a symbol; the others are counted as skipped. -/
theorem run_ranges (c : Context μ ω) {canceled : Cancellation Nat} {memory : μ} {output : ω}
    {stats : Stats} {s' : State μ (ω × Array Element)}
    (completed : Yields (run c.recorded canceled) (.start c.recorded memory (output, #[]))
      (stats, none) s')
    (anchored : c.oracle.Anchored memory)
    (distinct : (c.oracle.files.map (·.root.file)).Nodup)
    (apart : ((Tree.identifiers c.oracle.files).map fun x => Site.ofNode x.2).Nodup) :
    let seen := sightings c.recorded (schedule c.oracle.files)
      ((State.start c.recorded memory (output, #[])).opened c.recorded)
    seen.map (fun x => (x.path, x.name)) = Tree.identifiers c.oracle.files ∧
    (∀ file ∈ c.oracle.files,
      (seen.filter (·.path = file.root.file)).map (·.name) =
        file.nodes.filter (·.kind = .identifier) ∧
      ∃ d, s'.documents.get? file.root.file = some d ∧
        List.Forall₂ (fun x entry => x.Shows c.recorded s' entry.2)
          (seen.filter fun x => x.path = file.root.file ∧ x.symbol.isSome)
          (Graph.rangesIn d.id s'.stream)) ∧
    stats.skipped = seen.countP (·.symbol.isNone) := by
  intro seen
  obtain ⟨t, u₁, u, course, endings₁, -, -, endings₂, -, rfl, ok, rfl⟩ := phases_run completed
  have records := records_recorded c
  have anchored : c.recorded.oracle.Anchored memory := anchored
  have endings : Endings c.recorded t u := endings₁.trans endings₂
  have okU := failure_none_of_concluded ok
  have okT := endings.steps.failure_none okU
  have whole : schedule c.recorded.oracle.files = schedule c.recorded.oracle.files ++ [] :=
    (List.append_nil _).symm
  have filed := course.filed records rfl okT
  obtain ⟨rooted, -⟩ := marked_performed anchored whole course okT
  obtain ⟨situated, -, -⟩ := situated_performed whole course.performs
  have displays := (displays_performed records rfl anchored distinct apart whole course okT).silent
    records anchored endings.steps endings.silent filed rooted
    (fun _ => inside_of_mem_sightings whole) okU
  refine ⟨names_sightings distinct _, fun file indexed =>
    ⟨names_sightings_of_file distinct indexed _, ?_⟩, ?_⟩
  · obtain ⟨d₀, document₀, -⟩ := situated.opened file.root.file (mem_opening distinct indexed)
    obtain ⟨filedU, -, same⟩ := endings.steps.filed records filed okU
    obtain ⟨d, document, -⟩ := same _ d₀ document₀
    have visited : file.root.file ∈ u.traversal := by
      rw [endings.steps.settled.1, course.steps.settled.1]
      exact List.mem_map_of_mem indexed
    have ranges : Graph.rangesIn d.id (u.concluded c.recorded).stream =
        u.rangesAt (·.2.toList) file.root.file := by
      rw [← rangesAt_concluded records filedU ok, State.rangesAt, documents_concluded, document]
      rfl
    refine ⟨d, (documents_concluded u).symm ▸ document, ?_⟩
    rw [ranges]
    exact (displays.ranges _ visited).imp fun _ _ => shows_concluded.2
  · rw [stats_concluded]
    exact displays.skipped

theorem run_ranges_layered :
    ∃ stats s', Yields (run (Context.ofSketch layered).recorded false)
      (.start (Context.ofSketch layered).recorded [] ((), #[])) (stats, none) s' ∧
      stats.skipped = 1 ∧ (∃ d, s'.documents.get? "b.go" = some d ∧
        List.Forall₂ (fun x entry => x.Shows (Context.ofSketch layered).recorded s' entry.2)
          ((sightings (Context.ofSketch layered).recorded (schedule layered.oracle.files)
            ((State.start (Context.ofSketch layered).recorded [] ((), #[])).opened
              (Context.ofSketch layered).recorded)).filter
            fun x => x.path = "b.go" ∧ x.symbol.isSome)
          (Graph.rangesIn d.id s'.stream)) := by
  have completed := yields_of_answer completed_layered
  have indexed : ∃ file ∈ (Context.ofSketch layered).oracle.files, file.root.file = "b.go" := by
    decide +kernel
  obtain ⟨file, indexed, path⟩ := indexed
  obtain ⟨-, ranges, -⟩ := run_ranges (Context.ofSketch layered) completed anchored_layered
    (by decide +kernel) (by decide +kernel)
  obtain ⟨-, d, document, shown⟩ := ranges file indexed
  rw [path] at document shown
  exact ⟨_, _, completed, rfl, d, document, shown⟩

end SymbolAtlas.Session
