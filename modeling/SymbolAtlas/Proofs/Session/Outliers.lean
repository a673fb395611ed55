/-
# SymbolAtlas.Proofs.Session.Outliers -- files that the run does not visit

A file that the run does not visit gets its document for the declarations in it, and these are
recorded when their symbols get nodes.  So there is nothing but definitions in such a document
(`State.Defining`), and each of them stands where a declaration of its symbol is marked
(`State.Apposite`).
-/
import SymbolAtlas.Proofs.Session.Ranges

set_option autoImplicit false

namespace SymbolAtlas.Session

open SymbolAtlas.Graph (Id Element)

variable {μ ω : Type} {c : Context μ ω} {view : ω → List Element} {start : μ} {seen : List Site}

/-! ## What is filed -/

/-- In files that the run does not visit there are only definitions. -/
def State.Defining (view : ω → List Element) (s : State μ ω) : Prop :=
  ∀ path, path ∉ s.traversal → ∀ entry ∈ s.rangesAt view path, entry.2.role = .definition

/-- Nothing is filed, or one range, which is a definition unless its file is one of the run. -/
def State.FilesAtMost (c : Context μ ω) (s s' : State μ ω) : Prop :=
  (∀ path, filedIn s'.documents path = filedIn s.documents path) ∨
    ∃ path r, (path ∈ s.traversal ∨ r.role = .definition) ∧ s.Filing c s' path r

theorem State.Defining.step (records : c.sink.Records view) {s s' : State μ ω}
    (h : s.Defining view) (steps : Steps c s s') (files : s.FilesAtMost c s')
    (filed : s.Filed view) (ok : s'.failure = none) : s'.Defining view := by
  intro path outside entry member
  rw [steps.settled.1] at outside
  rcases files with still | ⟨own, r, either, filing⟩
  · rw [rangesAt_still records steps filed ok (still path)] at member
    exact h path outside entry member
  by_cases here : own = path
  · subst here
    rw [filing.rangesAt records ok] at member
    rcases List.mem_append.1 member with old | last
    · exact h own outside entry old
    · obtain rfl := List.mem_singleton.1 last
      exact either.resolve_left outside
  · have still : filedIn s'.documents path = filedIn s.documents path := by
      obtain ⟨d, symbols, f, -, -, -, rfl⟩ := filing
      exact filedIn_modify_of_ne _ _ here
    rw [rangesAt_still records steps filed ok still] at member
    exact h path outside entry member

theorem Detail.filesAtMost {s s' : State μ ω} (step : Detail c s s') : s.FilesAtMost c s' := by
  cases step with
  | asked | counted | sited | attached | hovered | joined | awaited => exact .inl fun _ => rfl
  | began fresh => exact .inl fun path => filedIn_insert fresh rfl path
  | confined => exact .inl fun path => filedIn_modify _ _ path fun _ => rfl
  | @defined key path n d declaration name node _ document =>
      refine .inr ⟨path, _, .inr ?_, d, _, fun k => { k with definitions := k.definitions + 1 },
        document, ?_, fun _ => rfl, rfl⟩
      · rfl
      · rfl

theorem Growth.filesAtMost {s s' : State μ ω} (step : Growth c s s') : s.FilesAtMost c s' := by
  cases step <;> exact .inl fun _ => rfl

theorem Ending.filesAtMost {s s' : State μ ω} (ending : Ending c s s') : s.FilesAtMost c s' := by
  cases ending with
  | @symbol key n node open_ =>
      obtain ⟨_, _, _, shape⟩ := s.emittedAll_eq (c := c) (n.items.map .item)
      rw [State.symbolEnded, shape]
      exact .inl fun _ => rfl
  | @document path d document writable frozen =>
      obtain ⟨_, _, _, shape⟩ := s.documentEnded_eq (c := c) path d
      rw [shape]
      exact .inl fun other => filedIn_modify _ _ other fun _ => rfl

theorem Endings.defining (records : c.sink.Records view) {s s' : State μ ω}
    (endings : Endings c s s') (filed : s.Filed view) (h : s.Defining view)
    (ok : s'.failure = none) : s'.Defining view := by
  induction endings with
  | refl => exact h
  | tail before last ih =>
      have ok' := (Step.ending last).failure_none ok
      obtain ⟨filed', -, -⟩ := (Endings.steps before).filed records filed ok'
      exact (ih ok').step records (.single (.ending last)) last.filesAtMost filed' ok

/-! ## What is on record -/

/-- What is on record in files that the run does not visit are marks of declarations. -/
def State.Apposite (c : Context μ ω) (s : State μ ω) : Prop :=
  s.symbols.All fun _ n => ∀ site ∈ n.recorded, site.file ∉ s.traversal →
    site ∈ n.declarations.map (siteIn c s.memory)

/-- The marks of declarations are where they were. -/
theorem SymbolNode.Rooted.map_siteIn (anchored : c.oracle.Anchored start) {m m' : μ}
    {n : SymbolNode} (h : n.Rooted c start m) (later : c.oracle.Later m m') :
    n.declarations.map (siteIn c m') = n.declarations.map (siteIn c m) :=
  List.map_congr_left fun id chosen => siteIn_later anchored (h.shown id chosen) later

/-- Questions move no mark. -/
theorem State.Apposite.asked (anchored : c.oracle.Anchored start) {s : State μ ω} {memory : μ}
    (h : s.Apposite c) (rooted : s.Rooted c start seen)
    (later : c.oracle.Later s.memory memory) :
    s.symbols.All fun _ n => ∀ site ∈ n.recorded, site.file ∉ s.traversal →
      site ∈ n.declarations.map (siteIn c memory) := by
  intro key n node site member outside
  rw [(rooted.nodes key n node).map_siteIn anchored later]
  exact h key n node site member outside

theorem Detail.apposite (anchored : c.oracle.Anchored start) {s s' : State μ ω}
    (step : Detail c s s') (rooted : s.Rooted c start seen) (h : s.Apposite c) :
    s'.Apposite c := by
  cases step with
  | asked quiet => exact h.asked anchored rooted (.single (.quiet quiet))
  | counted | began | hovered | joined | awaited | confined => exact h
  | attached | sited => exact Table.All.modify h fun _ _ apposite => apposite
  | @defined key path n d declaration name node _ _ _ _ early =>
      obtain ⟨⟨id, chosen, rfl⟩, rfl, -, -⟩ := early
      refine Table.All.modify h fun n' here apposite site member outside => ?_
      obtain rfl := Option.some.inj (node.symm.trans here)
      rcases List.mem_cons.1 member with rfl | old
      · exact List.mem_map_of_mem (f := siteIn c s.memory) chosen
      · exact apposite site old outside

theorem Growth.apposite (anchored : c.oracle.Anchored start) {s s' : State μ ω}
    (step : Growth c s s') (rooted : s.Rooted c start seen) (h : s.Apposite c) :
    s'.Apposite c := by
  have later := step.later
  cases step with
  | enrolled =>
      refine Table.All.insert (h.asked anchored rooted later) fun site member => ?_
      exact absurd member List.not_mem_nil
  | based | composed => exact Table.All.modify h fun _ _ apposite => apposite

/-- Identifiers of the run leave no mark in other files. -/
theorem Recorded.apposite (anchored : c.oracle.Anchored start) {path key : String} {name : Node}
    {file : Tree} {s s' : State μ ω} (recorded : Recorded c path key name s s')
    (indexed : file ∈ c.oracle.files) (inside : name ∈ file.nodes)
    (visited : name.file ∈ s.traversal) (rooted : s.Rooted c start seen) (h : s.Apposite c) :
    s'.Apposite c := by
  cases recorded with
  | known => exact h
  | @defined n d id node _ _ _ definition found _ =>
      have here := siteIn_found anchored rooted indexed inside node definition found
      refine Table.All.modify h fun _ _ apposite site member outside => ?_
      rcases List.mem_cons.1 member with same | old
      · have own : site.file = name.file := congrArg Site.file (same.trans here)
        exact absurd visited (own ▸ outside)
      · exact apposite site old outside
  | @referred n d node =>
      obtain ⟨symbols, shape⟩ := State.foldl_forwarded_eq path d.id (s.lastId + 1)
        (n.forwards key) (s.referred c key path n d name)
      have nodes := all_foldl_forwarded path d.id (s.lastId + 1) (n.forwards key)
        (s := s.referred c key path n d name)
        (Table.All.modify h fun _ _ apposite => apposite) fun _ _ apposite => apposite
      rw [shape] at nodes ⊢
      exact nodes

theorem Ending.apposite {s s' : State μ ω} (ending : Ending c s s') (h : s.Apposite c) :
    s'.Apposite c := by
  cases ending with
  | @symbol key n node open_ =>
      obtain ⟨_, _, _, shape⟩ := s.emittedAll_eq (c := c) (n.items.map .item)
      rw [State.symbolEnded, shape]
      exact Table.All.modify h fun _ _ apposite => apposite
  | @document path d document writable frozen =>
      obtain ⟨_, _, _, shape⟩ := s.documentEnded_eq (c := c) path d
      rw [shape]
      exact h

theorem Endings.apposite {s s' : State μ ω} (endings : Endings c s s') (h : s.Apposite c) :
    s'.Apposite c := by
  induction endings with
  | refl => exact h
  | tail _ last ih => exact last.apposite ih

/-! ## Whatever part of its schedule a run has performed -/

theorem Foundings.outlying (records : c.sink.Records view) (anchored : c.oracle.Anchored start)
    {use : Option NodeId} {s s' : State μ ω} (foundings : Foundings c start use s s')
    (use_shown : ∀ id ∈ use, c.oracle.Shown start s.memory id) (filed : s.Filed view)
    (rooted : s.Rooted c start seen) (h : s.Defining view ∧ s.Apposite c)
    (ok : s'.failure = none) : s'.Defining view ∧ s'.Apposite c := by
  refine foundings.keeps records anchored (Q := fun t => t.Defining view ∧ t.Apposite c) ?_ ?_
    use_shown filed rooted h ok
  · rintro t t' step filed rooted ok ⟨defining, apposite⟩
    exact ⟨defining.step records (.single (.detail step)) step.filesAtMost filed ok,
      step.apposite anchored rooted apposite⟩
  · rintro t t' step filed rooted ok ⟨defining, apposite⟩
    exact ⟨defining.step records (.single (.growth step)) step.filesAtMost filed ok,
      step.apposite anchored rooted apposite⟩

/-- **Whatever part of its schedule a run has performed**, in the files that it does not visit
there are only definitions, and they stand where declarations are marked. -/
theorem outlying_performed (records : c.sink.Records view) {memory : μ} {output : ω}
    (empty : view output = []) (anchored : c.oracle.Anchored memory) {first rest : List Moment}
    {s : State μ ω} (split : schedule c.oracle.files = first ++ rest)
    (course : Course c first ((State.start c memory output).opened c) s)
    (ok : s.failure = none) : s.Defining view ∧ s.Apposite c := by
  refine deed_induction anchored (P := fun _ s => s.Defining view ∧ s.Apposite c)
    ⟨fun _ _ _ member => absurd member List.not_mem_nil, Table.all_empty _⟩ ?_ split course ok
  rintro first m rest s s' split course ok deed steps ⟨defining, apposite⟩
  have ok' := steps.failure_none ok
  obtain ⟨rooted, -⟩ := marked_performed anchored split course ok'
  have filed := course.filed records empty ok'
  have still : (∀ path, filedIn s'.documents path = filedIn s.documents path) →
      s'.Defining view := fun still => defining.step records steps (.inl still) filed ok
  cases deed with
  | opened fresh => exact ⟨still fun path => filedIn_insert fresh rfl path, apposite⟩
  | ignored unsighted => exact ⟨defining, apposite⟩
  | @skipped path n sighted =>
      exact ⟨still fun _ => rfl,
        apposite.asked anchored rooted (.single (.quiet (.symbolAt n.id s.memory)))⟩
  | left shown foundings =>
      exact foundings.outlying records anchored shown filed rooted ⟨defining, apposite⟩ ok
  | closed endings =>
      have turned : Step c s { s with current := none } := .turned s none
      obtain ⟨filed', -, -⟩ := Steps.filed records (.single turned) filed ok'
      exact ⟨endings.defining records filed' defining ok, endings.apposite apposite⟩
  | @recorded path file n sym t _ indexed inside here sighted shown foundings recorded =>
      have okT := recorded.steps.failure_none ok
      have stepsT := foundings.moves.steps
      obtain ⟨filedT, -, -⟩ := stepsT.filed records filed okT
      have rootedT := foundings.rooted anchored shown rooted
      obtain ⟨definingT, appositeT⟩ :=
        foundings.outlying records anchored shown filed rooted ⟨defining, apposite⟩ okT
      have visited : path ∈ t.traversal := by
        rw [stepsT.settled.1, course.steps.settled.1, here]
        exact List.mem_map_of_mem indexed
      have own : n.file = path := (anchored.tree file indexed n inside).2.trans here.symm
      refine ⟨?_, recorded.apposite anchored indexed inside (own ▸ visited) rootedT appositeT⟩
      obtain ⟨node, -, ⟨-, -, rfl⟩ | ⟨r, -, -, -, filing⟩⟩ :=
        recorded.known_or_filing anchored indexed inside rootedT
      · exact definingT
      · exact definingT.step records recorded.steps (.inr ⟨path, r, .inl visited, filing⟩) filedT ok

end SymbolAtlas.Session
