/-
# SymbolAtlas.Proofs.Session.Course -- the course of a run

`Course c moments s s'` says that the moments were performed one after the other, and
what each of them did.  Whatever part of its schedule a run has performed, its documents
fit the part (`situated_performed`), also when the sink refused an element on the way.

A walk performs the moments of its tree (`outcome_walk`) and a run those of its files
(`performs_indexFiles`), so `phases_run` is the shape of every completed run: the schedule,
then the endings, first of the symbols and then of the documents.
-/
import Mathlib.Data.List.Induction
import SymbolAtlas.Proofs.Session.Schedule
import SymbolAtlas.Proofs.Session.Visits

set_option autoImplicit false

namespace SymbolAtlas.Session

variable {μ ω : Type} {c : Context μ ω}

/-- What is done at a moment. -/
def Moment.perform (c : Context μ ω) : Moment → Indexing μ ω Unit
  | .opening path => do
      let _ ← document c path
      modify fun s => { s with current := some path }
  | .entering path n => do
      let _ ← enter c path n
  | .leaving n => leave c n
  | .closing path => do
      modify fun s => { s with current := none }
      endDocument c path

/-- What is done at several moments. -/
def performAll (c : Context μ ω) : List Moment → Indexing μ ω Unit
  | [] => pure ()
  | m :: rest => do
      m.perform c
      performAll c rest

theorem outcome_performAll_append (first second : List Moment) (s : State μ ω) :
    outcome (performAll c (first ++ second)) s =
      outcome (performAll c first >>= fun _ => performAll c second) s := by
  induction first generalizing s with
  | nil => rfl
  | cons m first ih =>
      show outcome (m.perform c >>= fun _ => performAll c (first ++ second)) s =
        outcome ((m.perform c >>= fun _ => performAll c first) >>= fun _ => performAll c second) s
      rw [bind_assoc]
      exact outcome_bind_congr rfl fun _ t _ => ih t

theorem yields_performAll_append {first second : List Moment} {s s' : State μ ω} :
    Yields (performAll c (first ++ second)) s () s' ↔
      ∃ t, Yields (performAll c first) s () t ∧ Yields (performAll c second) t () s' := by
  unfold Yields
  rw [outcome_performAll_append]
  exact yields_bind.trans ⟨fun ⟨_, t, first, second⟩ => ⟨t, first, second⟩,
    fun ⟨t, first, second⟩ => ⟨(), t, first, second⟩⟩

theorem performAll_singleton (m : Moment) : performAll c [m] = m.perform c :=
  bind_pure_unit

/-- What a moment does to the state. -/
def Moment.Effect (c : Context μ ω) (s s' : State μ ω) : Moment → Prop
  | .opening path =>
      s.documents.get? path = none ∧ path ∈ s.traversal ∧
        s' = { s.began c path with current := some path }
  | .entering _ n => Visit c s s' (symbolNamed c.oracle n s.memory)
  | .leaving n => Visit c s s' (symbolPublished c.oracle n s.memory)
  | .closing path =>
      ∃ d t, s.documents.get? path = some d ∧ d.ended = false ∧
        Endings c { s with current := none } t ∧ t.documents = s.documents ∧
        t.Frozen d.locals ∧ s' = t.documentEnded c path d

/-- Moments performed one after the other, with what each of them did. -/
inductive Course (c : Context μ ω) : List Moment → State μ ω → State μ ω → Prop where
  | nil (s : State μ ω) : Course c [] s s
  | cons {m : Moment} {rest : List Moment} {s t s' : State μ ω}
      (performed : Yields (m.perform c) s () t) (effect : m.Effect c s t)
      (next : Course c rest t s') : Course c (m :: rest) s s'

theorem Course.append {first second : List Moment} {s t s' : State μ ω}
    (h : Course c first s t) (h' : Course c second t s') : Course c (first ++ second) s s' := by
  induction h with
  | nil s => exact h'
  | cons performed effect _ ih => exact .cons performed effect (ih h')

theorem Course.split {first second : List Moment} {s s' : State μ ω}
    (h : Course c (first ++ second) s s') : ∃ t, Course c first s t ∧ Course c second t s' := by
  induction first generalizing s with
  | nil => exact ⟨s, .nil s, h⟩
  | cons m first ih =>
      cases h with
      | cons performed effect next =>
          obtain ⟨t, course, rest⟩ := ih next
          exact ⟨t, .cons performed effect course, rest⟩

theorem Course.performs {moments : List Moment} {s s' : State μ ω} (h : Course c moments s s') :
    Yields (performAll c moments) s () s' := by
  induction h with
  | nil s => exact yields_pure.2 ⟨rfl, rfl⟩
  | cons performed _ _ ih => exact yields_bind.2 ⟨_, _, performed, ih⟩

/-! ## A course is made of steps -/

theorem Moment.Effect.steps {m : Moment} {s s' : State μ ω} (h : m.Effect c s s') :
    Steps c s s' := by
  cases m with
  | opening path =>
      obtain ⟨fresh, inside, rfl⟩ := h
      exact .tail (.single (.opened fresh inside)) (.turned _ _)
  | entering path n => exact Visit.steps h
  | leaving n => exact Visit.steps h
  | closing path =>
      obtain ⟨d, t, document, writable, endings, same, frozen, rfl⟩ := h
      have turned : Step c s { s with current := none } := .turned s none
      exact .head turned (endings.steps.tail
        (.ending (.document (same ▸ document) writable frozen)))

theorem Course.steps {moments : List Moment} {s s' : State μ ω} (h : Course c moments s s') :
    Steps c s s' := by
  induction h with
  | nil s => exact .refl
  | cons _ effect _ ih => exact effect.steps.trans ih

/-! ## What a course keeps -/

theorem Ending.core {s s' : State μ ω} (h : Ending c s s') : s'.coreAt = s.coreAt := by
  funext key
  cases h with
  | symbol => exact coreAt_modify rfl fun _ => rfl
  | @document path d document writable frozen =>
      obtain ⟨_, _, _, same⟩ := s.documentEnded_eq (c := c) path d
      rw [same]
      rfl

theorem Endings.core {s s' : State μ ω} (h : Endings c s s') : s'.coreAt = s.coreAt := by
  induction h with
  | refl => rfl
  | tail _ last ih => rw [last.core, ih]

/-- What a node is from the moment that it is made: its core without its links. -/
def SymbolNode.profile (n : SymbolNode) : SymbolNode := { n.core with bases := [], members := [] }

theorem profile_of_core {n n' : SymbolNode} (same : n'.core = n.core) : n'.profile = n.profile :=
  congrArg (fun core => { core with bases := [], members := [] }) same

theorem symbol_of_profile {n n' : SymbolNode} (same : n'.profile = n.profile) :
    n'.symbol = n.symbol :=
  (congrArg SymbolNode.symbol same :)

theorem variant_of_profile {n n' : SymbolNode} (same : n'.profile = n.profile) :
    n'.variant = n.variant :=
  (congrArg SymbolNode.variant same :)

theorem declarations_of_profile {n n' : SymbolNode} (same : n'.profile = n.profile) :
    n'.declarations = n.declarations :=
  (congrArg SymbolNode.declarations same :)

theorem resultSet_of_profile {n n' : SymbolNode} (same : n'.profile = n.profile) :
    n'.resultSet = n.resultSet :=
  (congrArg SymbolNode.resultSet same :)

/-- A node stays what it is, whatever is done. -/
theorem Step.profile {s s' : State μ ω} (step : Step c s s') {key : String} {n : SymbolNode}
    (node : s.symbols.get? key = some n) :
    ∃ n', s'.symbols.get? key = some n' ∧ n'.profile = n.profile := by
  have kept : s'.coreAt = s.coreAt →
      ∃ n', s'.symbols.get? key = some n' ∧ n'.profile = n.profile := by
    intro same
    obtain ⟨n', node', core⟩ := node_of_core same node
    exact ⟨n', node', profile_of_core core⟩
  have linked : ∀ (own : String) (f : SymbolNode → SymbolNode),
      (∀ m, (f m).profile = m.profile) →
      ∃ n', (s.symbols.modify own f).get? key = some n' ∧ n'.profile = n.profile := by
    intro own f same
    rw [Table.get?_modify, node]
    split
    · exact ⟨f n, rfl, same n⟩
    · exact ⟨n, rfl, rfl⟩
  cases step with
  | detail step => exact kept step.core
  | usage step => exact kept step.core
  | ending step => exact kept step.core
  | opened | turned | passed => exact ⟨n, node, rfl⟩
  | growth step =>
      cases step with
      | enrolled fresh =>
          refine ⟨n, ?_, rfl⟩
          rw [get?_enrolled, if_neg, node]
          rintro rfl
          simp [fresh] at node
      | based => exact linked _ _ fun _ => rfl
      | composed => exact linked _ _ fun _ => rfl

theorem Steps.profile {s s' : State μ ω} (steps : Steps c s s') {key : String} {n : SymbolNode}
    (node : s.symbols.get? key = some n) :
    ∃ n', s'.symbols.get? key = some n' ∧ n'.profile = n.profile := by
  induction steps with
  | refl => exact ⟨n, node, rfl⟩
  | tail _ last ih =>
      obtain ⟨m, node', same⟩ := ih
      obtain ⟨n', node'', same'⟩ := last.profile node'
      exact ⟨n', node'', same'.trans same⟩

/-- Every node has all that its variant asks for. -/
def State.Settled (s : State μ ω) : Prop := ∀ key, s.Has key → s.Complete key

theorem settled_of_core {s s' : State μ ω} (same : s'.coreAt = s.coreAt) (h : s.Settled) :
    s'.Settled :=
  fun key has => (kept_of_core same).complete (h key ((kept_of_core same.symm).has has))

theorem Resolution.settled {s s' : State μ ω} {root : String} (r : Resolution c s s' root)
    (h : s.Settled) : s'.Settled := by
  intro key has
  rcases r.new key has with old | ⟨complete, -⟩
  · exact r.kept.complete (h key old)
  · exact complete

/-- A visit keeps every node that exists, and leaves none unfinished. -/
theorem Visit.settled {s s' : State μ ω} {subject : Option Symbol} (h : Visit c s s' subject)
    (settled : s.Settled) : s.Kept s' ∧ s'.Settled := by
  cases subject with
  | none =>
      obtain ⟨t, details, later⟩ := h
      have same : s'.coreAt = s.coreAt := by
        rcases later with rfl | rfl
        · exact details.core
        · exact details.core
      exact ⟨kept_of_core same, settled_of_core same settled⟩
  | some sym =>
      obtain ⟨t, r, later⟩ := h
      have same : s'.coreAt = t.coreAt := later.elim (fun details => details.core) (·.core)
      exact ⟨r.kept.trans (kept_of_core same), settled_of_core same (r.settled settled)⟩

theorem Moment.Effect.settled {m : Moment} {s s' : State μ ω} (h : m.Effect c s s')
    (settled : s.Settled) : s.Kept s' ∧ s'.Settled := by
  have quiet : s'.coreAt = s.coreAt → s.Kept s' ∧ s'.Settled := fun same =>
    ⟨kept_of_core same, settled_of_core same settled⟩
  cases m with
  | opening path =>
      obtain ⟨-, -, rfl⟩ := h
      exact quiet rfl
  | entering path n => exact Visit.settled h settled
  | leaving n => exact Visit.settled h settled
  | closing path =>
      obtain ⟨d, t, document, writable, endings, same, frozen, rfl⟩ := h
      have last : (t.documentEnded c path d).coreAt = t.coreAt :=
        (Ending.document (same ▸ document) writable frozen).core
      exact quiet (last.trans endings.core)

/-- Between two moments no node is unfinished, and those that exist stay as they are. -/
theorem Course.settled {moments : List Moment} {s s' : State μ ω} (h : Course c moments s s')
    (settled : s.Settled) : s.Kept s' ∧ s'.Settled := by
  induction h with
  | nil s => exact ⟨fun _ n node => ⟨n, node, rfl⟩, settled⟩
  | cons _ effect _ ih =>
      obtain ⟨kept, settled'⟩ := effect.settled settled
      obtain ⟨kept', settled''⟩ := ih settled'
      exact ⟨kept.trans kept', settled''⟩

/-! ## Where a run is -/

theorem get?_documentEnded (s : State μ ω) (path other : String) (d : DocumentNode) :
    (s.documentEnded c path d).documents.get? other =
      if path = other then
        (s.documents.get? other).map fun d => { d with locals := [], ended := true }
      else s.documents.get? other :=
  Table.get?_modify ..

/-- The documents of the files of a run fit the moments that were performed: they exist when
their file was opened, and they are frozen when it was closed. -/
structure State.Situated (s : State μ ω) (first : List Moment) : Prop where
  opened : ∀ path, .opening path ∈ first →
    ∃ d, s.documents.get? path = some d ∧ (d.ended = true ↔ .closing path ∈ first)
  fresh : ∀ path ∈ s.traversal, .opening path ∉ first → s.documents.get? path = none
  current : ∀ path, .opening path ∈ first → .closing path ∉ first → s.current = some path

/-- A visit neither opens nor closes a file. -/
theorem State.Situated.steady {s s' : State μ ω} {first : List Moment} {m : Moment}
    (h : s.Situated first) (steady : s.Steady s')
    (visit : ∀ path, m ≠ .opening path ∧ m ≠ .closing path) : s'.Situated (first ++ [m]) := by
  have opening : ∀ path, .opening path ∈ first ++ [m] ↔ .opening path ∈ first := by
    intro path
    simp [Ne.symm (visit path).1]
  have closing : ∀ path, .closing path ∈ first ++ [m] ↔ .closing path ∈ first := by
    intro path
    simp [Ne.symm (visit path).2]
  constructor
  · intro path member
    obtain ⟨d, document, ended⟩ := h.opened path ((opening path).1 member)
    obtain ⟨d', document', same⟩ := steady.document document
    have same : d'.ended = d.ended := (congrArg DocumentNode.ended same :)
    exact ⟨d', document', by rw [same, ended, closing]⟩
  · intro path inside absent
    rw [steady.traversal] at inside
    rw [opening] at absent
    have here := steady.headers path (.inl inside)
    simpa [State.headerAt, h.fresh path inside absent] using here
  · intro path opened unclosed
    rw [opening] at opened
    rw [closing] at unclosed
    exact steady.current.trans (h.current path opened unclosed)

theorem State.Situated.opening {s : State μ ω} {first : List Moment} {path : String}
    (h : s.Situated first) (follows : (Moment.opening path).Follows first) :
    State.Situated { s.began c path with current := some path } (first ++ [.opening path]) := by
  constructor
  · intro other member
    by_cases own : path = other
    · subst own
      exact ⟨_, get?_began s path, by simp [State.newDocument, follows.2.1]⟩
    · have before : .opening other ∈ first := by simpa [Ne.symm own] using member
      obtain ⟨d, document, ended⟩ := h.opened other before
      exact ⟨d, by simp [State.began, Table.get?_insert, own, document], by simp [ended]⟩
  · intro other within absent
    have different : path ≠ other := by
      rintro rfl
      simp at absent
    have missing := h.fresh other within (fun before => absent (List.mem_append_left _ before))
    simp [State.began, Table.get?_insert, different, missing]
  · intro other opened unclosed
    by_cases own : path = other
    · rw [own]
    · have before : .opening other ∈ first := by simpa [Ne.symm own] using opened
      exact absurd (List.mem_append_left _ (follows.2.2 other before)) unclosed

theorem State.Situated.closing {s t : State μ ω} {first : List Moment} {path : String}
    {d : DocumentNode} (h : s.Situated first) (document : s.documents.get? path = some d)
    (traversal : t.traversal = s.traversal)
    (same : t.documents = s.documents) (follows : (Moment.closing path).Follows first) :
    (t.documentEnded c path d).Situated (first ++ [.closing path]) := by
  constructor
  · intro other member
    have before : .opening other ∈ first := by simpa using member
    obtain ⟨d', document', ended⟩ := h.opened other before
    rw [get?_documentEnded, same]
    by_cases own : path = other
    · subst own
      exact ⟨_, by rw [if_pos rfl, document]; rfl, by simp⟩
    · exact ⟨d', by rw [if_neg own, document'], by simp [ended, Ne.symm own]⟩
  · intro other within absent
    obtain ⟨_, _, _, shape⟩ := t.documentEnded_eq (c := c) path d
    rw [shape] at within
    have missing := h.fresh other (traversal ▸ within) (by simpa using absent)
    have different : path ≠ other := by
      rintro rfl
      simp [document] at missing
    rw [get?_documentEnded, same, if_neg different, missing]
  · intro other opened unclosed
    have before : .opening other ∈ first := by simpa using opened
    simp only [List.mem_append, not_or] at unclosed
    have here := h.current other before unclosed.1
    rw [h.current path follows.1 follows.2] at here
    exact absurd (Option.some.inj here).symm (by simpa using unclosed.2)

theorem outcome_enter_of_failed {path : String} {n : Node} {s : State μ ω}
    (failed : s.failure.isSome = true) : outcome (enter c path n) s = (.ok false, s) := by
  rw [enter, outcome_bind, outcome_get]
  simp [failed]

/-- A visit after a refusal does nothing. -/
theorem outcome_visit_of_failed {m : Moment} {s : State μ ω}
    (visit : ∀ path, m ≠ .opening path ∧ m ≠ .closing path) (failed : s.failure.isSome = true) :
    outcome (m.perform c) s = (.ok (), s) := by
  cases m with
  | opening path => exact absurd rfl (visit path).1
  | entering path n =>
      rw [Moment.perform, outcome_bind, outcome_enter_of_failed failed]
      rfl
  | leaving n =>
      rw [Moment.perform, leave, outcome_bind, outcome_get]
      simp [failed]
  | closing path => exact absurd rfl (visit path).2

/-- **A moment in its place has its effect**, or it is a visit after a refusal. -/
theorem Moment.situated {m : Moment} {first : List Moment} {s s' : State μ ω}
    (h : s.Situated first) (follows : m.Follows first)
    (inside : ∀ path, m = .opening path → path ∈ s.traversal)
    (performed : Yields (m.perform c) s () s') :
    s'.Situated (first ++ [m]) ∧ (m.Effect c s s' ∨ s.failure.isSome = true ∧ s' = s) := by
  have visit : (∀ path, m ≠ .opening path ∧ m ≠ .closing path) →
      (s.failure = none → ∃ subject, Visit c s s' subject ∧ m.Effect c s s') →
      s'.Situated (first ++ [m]) ∧ (m.Effect c s s' ∨ s.failure.isSome = true ∧ s' = s) := by
    intro visits visited
    cases failed : s.failure with
    | none =>
        obtain ⟨subject, visit, effect⟩ := visited failed
        exact ⟨h.steady visit.steady visits, .inl effect⟩
    | some reason =>
        have idle := outcome_visit_of_failed (c := c) visits (s := s) (by simp [failed])
        obtain ⟨-, rfl⟩ := performed.unique idle
        exact ⟨h.steady (.refl s') visits, .inr ⟨rfl, rfl⟩⟩
  cases m with
  | opening path =>
      have fresh := h.fresh path (inside path rfl) follows.1
      rw [Moment.perform, yields_bind_of_iff fun _ _ => yields_document_of_absent fresh,
        yields_modify] at performed
      exact performed ▸ ⟨h.opening follows, .inl ⟨fresh, inside path rfl, rfl⟩⟩
  | entering path n =>
      refine visit (by simp) fun ok => ?_
      obtain ⟨d, document, -⟩ := h.opened path follows.1
      obtain ⟨b, _, entered, same⟩ := yields_bind.1 performed
      obtain ⟨-, rfl⟩ := yields_pure.1 same
      have visit := (visit_enter ok document entered).2
      exact ⟨_, visit, visit⟩
  | leaving n =>
      refine visit (by simp) fun ok => ?_
      obtain ⟨path, opened, unclosed⟩ := follows
      have visit := visit_leave ok (h.current path opened unclosed) performed
      exact ⟨_, visit, visit⟩
  | closing path =>
      obtain ⟨d, document, ended⟩ := h.opened path follows.1
      rw [Moment.perform, yields_modify_bind] at performed
      obtain ⟨writable, t, endings, same, frozen, rfl⟩ :=
        yields_endDocument (by exact document) performed
      exact ⟨h.closing document endings.steps.settled.1 same follows,
        .inl ⟨d, t, document, writable, endings, same, frozen, rfl⟩⟩

/-- The element that opens a run. -/
def metadataBody (c : Context μ ω) : Graph.Metadata :=
  { version := "0.4.3"
    projectRoot := "file://" ++ c.options.root
    toolName := c.options.toolName
    toolVersion := c.options.toolVersion }

/-- The element of the project of a run. -/
def projectBody (c : Context μ ω) : Graph.Project :=
  { name := c.options.projectName
    root := c.options.root
    kind := c.options.languageId
    runId := c.options.runId }

/-- The state when a run comes to its first file. -/
def State.opened (c : Context μ ω) (s : State μ ω) : State μ ω :=
  { (State.emitted c { s with ran := true } (.metadata (metadataBody c))).emitted c
      (.project (projectBody c)) with
    projectId := s.lastId + 2
    traversal := c.oracle.files.map (·.root.file) }

theorem settled_opened (memory : μ) (output : ω) :
    ((State.start c memory output).opened c).Settled := by
  rintro key ⟨n, node⟩
  simp [State.opened, State.emitted, State.start] at node

/-- **Whatever part of its schedule a run has performed**, its documents fit the part, it got
there by steps, and by a course as long as nothing was refused. -/
theorem situated_performed {memory : μ} {output : ω} {first rest : List Moment} {s : State μ ω}
    (split : schedule c.oracle.files = first ++ rest)
    (performed : Yields (performAll c first) ((State.start c memory output).opened c) () s) :
    s.Situated first ∧ Steps c ((State.start c memory output).opened c) s ∧
      (s.failure = none → Course c first ((State.start c memory output).opened c) s) := by
  induction first using List.reverseRecOn generalizing rest s with
  | nil =>
      obtain ⟨-, rfl⟩ := yields_pure.1 performed
      exact ⟨⟨by simp, fun _ _ _ => rfl, by simp⟩, .refl, fun _ => .nil _⟩
  | append_singleton first m ih =>
      obtain ⟨t, before, last⟩ := yields_performAll_append.1 performed
      rw [performAll_singleton] at last
      have split : schedule c.oracle.files = first ++ m :: rest := by simpa using split
      obtain ⟨situated, steps, course⟩ := ih split before
      have inside : ∀ path, m = .opening path → path ∈ t.traversal := by
        rintro path rfl
        rw [steps.settled.1]
        exact opening_inside (split ▸ by simp)
      obtain ⟨situated', effect | ⟨failed, rfl⟩⟩ :=
        Moment.situated situated (follows_schedule split) inside last
      · refine ⟨situated', steps.trans effect.steps, fun ok => ?_⟩
        exact (course (effect.steps.failure_none ok)).append (.cons last effect (.nil s))
      · refine ⟨situated', steps, fun ok => ?_⟩
        rw [ok] at failed
        cases failed

/-- A moment of the schedule in its place has its effect, or it is a visit after a refusal. -/
theorem effect_performed {memory : μ} {output : ω} {first rest : List Moment} {m : Moment}
    {s t : State μ ω} (split : schedule c.oracle.files = first ++ m :: rest)
    (before : Yields (performAll c first) ((State.start c memory output).opened c) () s)
    (performed : Yields (m.perform c) s () t) :
    m.Effect c s t ∨ s.failure.isSome = true ∧ t = s := by
  obtain ⟨situated, steps, -⟩ := situated_performed split before
  refine (Moment.situated situated (follows_schedule split) ?_ performed).2
  rintro path rfl
  rw [steps.settled.1]
  exact opening_inside (split ▸ by simp)

/-- **What holds when a run comes to its files and is kept by every moment in its place** holds
whatever part of its schedule the run has performed. -/
theorem course_induction {memory : μ} {output : ω} {P : List Moment → State μ ω → Prop}
    (start : P [] ((State.start c memory output).opened c))
    (step : ∀ first m rest s s', schedule c.oracle.files = first ++ m :: rest →
      Course c first ((State.start c memory output).opened c) s →
      Yields (m.perform c) s () s' → m.Effect c s s' → P first s → P (first ++ [m]) s')
    {first rest : List Moment} {s : State μ ω} (split : schedule c.oracle.files = first ++ rest)
    (course : Course c first ((State.start c memory output).opened c) s) : P first s := by
  induction first using List.reverseRecOn generalizing rest s with
  | nil =>
      cases course
      exact start
  | append_singleton first m ih =>
      obtain ⟨t, before, last⟩ := course.split
      have split : schedule c.oracle.files = first ++ m :: rest := by simpa using split
      cases last with
      | cons performed effect next =>
          cases next
          exact step first m rest t s split before performed effect (ih split before)

/-- Any part of the schedule is performed by steps. -/
theorem steps_performed {memory : μ} {output : ω} {first middle rest : List Moment}
    {s t : State μ ω} (split : schedule c.oracle.files = first ++ (middle ++ rest))
    (before : Yields (performAll c first) ((State.start c memory output).opened c) () s)
    (performed : Yields (performAll c middle) s () t) : Steps c s t := by
  induction middle generalizing first s with
  | nil =>
      obtain ⟨-, rfl⟩ := yields_pure.1 performed
      exact .refl
  | cons m middle ih =>
      obtain ⟨_, u, here, later⟩ := yields_bind.1 performed
      have moved : Steps c s u := by
        rcases effect_performed split before here with effect | ⟨-, rfl⟩
        · exact effect.steps
        · exact .refl
      have split' : schedule c.oracle.files = (first ++ [m]) ++ (middle ++ rest) := by
        simpa using split
      have before' := yields_performAll_append.2 ⟨s, before, by rwa [performAll_singleton]⟩
      exact moved.trans (ih split' before' later)

/-! ## From files to moments

A walk performs the moments of its tree, whatever comes out of it; and the visit of a file
that was not seen before performs its passage. -/

theorem outcome_visits_of_failed {moments : List Moment} {s : State μ ω}
    (visits : ∀ m ∈ moments, ∀ path, m ≠ .opening path ∧ m ≠ .closing path)
    (failed : s.failure.isSome = true) : outcome (performAll c moments) s = (.ok (), s) := by
  induction moments with
  | nil => rfl
  | cons m moments ih =>
      rw [performAll, outcome_bind,
        outcome_visit_of_failed (visits m List.mem_cons_self) failed]
      exact ih fun other member => visits other (List.mem_cons_of_mem _ member)

theorem visits_moments {path : String} {t : Tree} :
    ∀ m ∈ t.moments path, ∀ p, m ≠ .opening p ∧ m ≠ .closing p := by
  intro m member p
  obtain ⟨n, -, rfl | rfl⟩ := mem_moments member
  · simp
  · simp

mutual

/-- **A walk performs the moments of its tree.** -/
theorem outcome_walk (path : String) (t : Tree) (s : State μ ω) :
    outcome (t.walk (enter c path) (leave c)) s = outcome (performAll c (t.moments path)) s := by
  obtain ⟨n, children⟩ := t
  show outcome (enter c path n >>= _) s = outcome ((enter c path n >>= fun _ => pure ()) >>= _) s
  rw [bind_assoc]
  refine outcome_bind_congr rfl fun b t entered => ?_
  obtain ⟨rfl, -⟩ := yields_enter.1 entered
  rw [pure_bind]
  cases failed : s.failure.isSome with
  | true =>
      obtain ⟨-, rfl⟩ := entered.unique (outcome_enter_of_failed failed)
      refine (outcome_visits_of_failed (fun m member => ?_) failed).symm
      exact visits_moments (t := .node n children) m (List.mem_cons_of_mem _ member)
  | false =>
      rw [outcome_performAll_append, performAll_singleton]
      exact outcome_bind_congr (outcome_walkAll path children t) fun _ _ _ => rfl

theorem outcome_walkAll (path : String) (ts : List Tree) (s : State μ ω) :
    outcome (Tree.walkAll (enter c path) (leave c) ts) s =
      outcome (performAll c (Tree.momentsOf path ts)) s := by
  match ts with
  | [] => rfl
  | t :: rest =>
      rw [Tree.momentsOf, outcome_performAll_append]
      exact outcome_bind_congr (outcome_walk path t s) fun _ t' _ => outcome_walkAll path rest t'

end

/-- A file whose path is new is passed through. -/
theorem outcome_indexFile {file : Tree} {s : State μ ω}
    (fresh : s.documents.get? file.root.file = none) :
    outcome (indexFile c file) s = outcome (performAll c file.passage) s := by
  have begin_ : outcome (indexFile c file) s = outcome (document c file.root.file >>= fun _ => do
      modify fun s => { s with current := some file.root.file }
      file.walk (enter c file.root.file) (leave c)
      modify fun s => { s with current := none }
      endDocument c file.root.file) s := by
    rw [indexFile, outcome_bind, outcome_get]
    simp [fresh]
  rw [begin_]
  show _ = outcome ((document c file.root.file >>= fun _ => _) >>= fun _ => performAll c _) s
  rw [bind_assoc]
  refine outcome_bind_congr rfl fun _ t _ => outcome_bind_congr rfl fun _ t' _ => ?_
  rw [outcome_performAll_append, performAll_singleton]
  exact outcome_bind_congr (outcome_walk file.root.file file t') fun _ _ _ => rfl

/-- A file whose document is frozen is passed over. -/
theorem outcome_indexFile_of_ended {file : Tree} {s : State μ ω} {d : DocumentNode}
    (document : s.documents.get? file.root.file = some d) (ended : d.ended = true) :
    outcome (indexFile c file) s = (.ok (), s) := by
  rw [indexFile, outcome_bind, outcome_get]
  simp [document, ended]

/-- The files whose paths were seen are those that were opened, and all of them are closed. -/
structure Between (seen : List String) (first : List Moment) : Prop where
  opened : ∀ path, .opening path ∈ first ↔ path ∈ seen
  closed : ∀ path ∈ seen, .closing path ∈ first

theorem between_nil : Between [] [] := ⟨by simp, by simp⟩

theorem Between.passage {seen : List String} {first : List Moment} (h : Between seen first)
    (file : Tree) : Between (file.root.file :: seen) (first ++ file.passage) := by
  have opening : ∀ path, .opening path ∈ file.passage ↔ path = file.root.file := fun path =>
    ⟨path_of_opening, fun own => own ▸ List.mem_cons_self⟩
  constructor
  · intro path
    rw [List.mem_append, h.opened, opening, List.mem_cons, or_comm]
  · intro path member
    rcases List.mem_cons.1 member with rfl | old
    · exact List.mem_append_right _ (by simp [Tree.passage])
    · exact List.mem_append_left _ (h.closed path old)

/-- The document of the next file: it is frozen if its path was seen, and there is none if it
was not. -/
theorem document_next {memory : μ} {output : ω} {seen : List String} {first rest : List Moment}
    {file : Tree} {s : State μ ω} (split : schedule c.oracle.files = first ++ rest)
    (between : Between seen first) (inside : file ∈ c.oracle.files)
    (performed : Yields (performAll c first) ((State.start c memory output).opened c) () s) :
    (file.root.file ∈ seen →
      ∃ d, s.documents.get? file.root.file = some d ∧ d.ended = true) ∧
    (file.root.file ∉ seen → s.documents.get? file.root.file = none) := by
  obtain ⟨situated, steps, -⟩ := situated_performed split performed
  refine ⟨fun known => ?_, fun new => ?_⟩
  · obtain ⟨d, document, ended⟩ := situated.opened file.root.file ((between.opened _).2 known)
    exact ⟨d, document, ended.2 (between.closed _ known)⟩
  · have visited : file.root.file ∈ s.traversal := by
      rw [steps.settled.1]
      exact List.mem_map_of_mem inside
    exact situated.fresh _ visited (mt (between.opened _).1 new)

/-- **What the next file is to a run**: it is passed over if its path was seen, and passed
through if it was not. -/
theorem outcome_next {memory : μ} {output : ω} {seen : List String} {first rest : List Moment}
    {file : Tree} {s : State μ ω} (split : schedule c.oracle.files = first ++ rest)
    (between : Between seen first) (inside : file ∈ c.oracle.files)
    (performed : Yields (performAll c first) ((State.start c memory output).opened c) () s) :
    outcome (indexFile c file) s = if file.root.file ∈ seen then (.ok (), s)
      else outcome (performAll c file.passage) s := by
  obtain ⟨frozen, fresh⟩ := document_next split between inside performed
  split
  · obtain ⟨d, document, ended⟩ := frozen ‹_›
    exact outcome_indexFile_of_ended document ended
  · exact outcome_indexFile (fresh ‹_›)

/-- Files are indexed to the end if no look before them sees that the run is canceled, and nothing
is refused. -/
theorem yields_indexFiles_cons {canceled : Cancellation Nat} {file : Tree} {rest : List Tree}
    {s s' : State μ ω} :
    Yields (indexFiles c canceled (file :: rest)) s none s' ↔
      canceled.seen (rest.length + 1) = false ∧ ∃ t, Yields (indexFile c file) s () t ∧
        t.failure = none ∧ Yields (indexFiles c canceled rest) t none s' := by
  rw [indexFiles]
  cases canceled.seen (rest.length + 1) with
  | true => simp
  | false =>
      simp only [Bool.false_eq_true, if_false, true_and]
      constructor
      · intro h
        obtain ⟨⟨⟩, t, indexed, later⟩ := yields_bind.1 h
        rw [yields_get_bind] at later
        cases ok : t.failure with
        | some reason => simp [ok] at later
        | none => exact ⟨t, indexed, ok, by simpa only [ok] using later⟩
      · rintro ⟨t, indexed, ok, later⟩
        refine yields_bind.2 ⟨(), t, indexed, ?_⟩
        rw [yields_get_bind, ok]
        exact later

/-- **The files are passed through in their order, each path once.** -/
theorem performs_indexFiles {canceled : Cancellation Nat} {memory : μ} {output : ω}
    {files : List Tree} {seen : List String} {first : List Moment} {s s' : State μ ω}
    (split : schedule c.oracle.files = first ++ (Tree.firsts seen files).flatMap Tree.passage)
    (between : Between seen first) (inside : files ⊆ c.oracle.files)
    (performed : Yields (performAll c first) ((State.start c memory output).opened c) () s)
    (h : Yields (indexFiles c canceled files) s none s') :
    s'.failure = none ∧ ∃ t, Yields (performAll c (schedule c.oracle.files))
      ((State.start c memory output).opened c) () t ∧ Yields (finish c) t () s' := by
  induction files generalizing seen first s with
  | nil =>
      obtain ⟨_, t, finished, h⟩ := yields_bind.1 h
      rw [yields_get_bind, yields_pure] at h
      obtain ⟨none_, rfl⟩ := h
      rw [Tree.firsts, List.flatMap_nil, List.append_nil] at split
      exact ⟨by simpa using none_.symm, s, split ▸ performed, finished⟩
  | cons file rest ih =>
      obtain ⟨-, t, indexed, -, later⟩ := yields_indexFiles_cons.1 h
      have within : rest ⊆ c.oracle.files :=
        fun other member => inside (List.mem_cons_of_mem _ member)
      rw [Yields, outcome_next split between (inside List.mem_cons_self) performed] at indexed
      by_cases known : file.root.file ∈ seen
      · rw [if_pos known] at indexed
        obtain rfl := (Prod.mk.inj indexed).2
        rw [Tree.firsts, if_pos known] at split
        exact ih split between within performed later
      · rw [if_neg known] at indexed
        rw [Tree.firsts, if_neg known, List.flatMap_cons, ← List.append_assoc] at split
        exact ih split (between.passage file) within
          (yields_performAll_append.2 ⟨s, performed, indexed⟩) later

/-! ## The end of a run -/

/-- Every symbol is frozen. -/
def State.SymbolsFrozen (s : State μ ω) : Prop :=
  ∀ key n, s.symbols.get? key = some n → n.ended = true

/-- Every document is frozen. -/
def State.DocumentsFrozen (s : State μ ω) : Prop :=
  ∀ path d, s.documents.get? path = some d → d.ended = true

/-- An ending makes no node. -/
theorem Ending.keys {s s' : State μ ω} (h : Ending c s s') : s'.symbols.keys = s.symbols.keys := by
  cases h with
  | @symbol key n node open_ => exact Table.keys_modify ..
  | @document path d document writable frozen =>
      obtain ⟨_, _, _, same⟩ := s.documentEnded_eq (c := c) path d
      rw [same]

theorem Endings.keys {s s' : State μ ω} (h : Endings c s s') :
    s'.symbols.keys = s.symbols.keys := by
  induction h with
  | refl => rfl
  | tail _ last ih => exact last.keys.trans ih

/-- An ending begins no document. -/
theorem Ending.paths {s s' : State μ ω} (h : Ending c s s') :
    s'.documents.keys = s.documents.keys := by
  cases h with
  | @symbol key n node open_ => exact congrArg Table.keys (documents_emittedAll s _)
  | @document path d document writable frozen =>
      obtain ⟨_, _, _, same⟩ := s.documentEnded_eq (c := c) path d
      rw [same]
      exact Table.keys_modify ..

theorem Endings.paths {s s' : State μ ω} (h : Endings c s s') :
    s'.documents.keys = s.documents.keys := by
  induction h with
  | refl => rfl
  | tail _ last ih => exact last.paths.trans ih

theorem Ending.symbolsFrozen {s s' : State μ ω} (h : Ending c s s') (frozen : s.SymbolsFrozen) :
    s'.SymbolsFrozen := by
  intro key n node
  cases h with
  | @symbol own m _ open_ =>
      rw [get?_symbolEnded] at node
      split at node
      · obtain ⟨_, _, rfl⟩ := Option.map_eq_some_iff.1 node
        rfl
      · exact frozen key n node
  | @document path d document writable _ =>
      obtain ⟨_, _, _, same⟩ := s.documentEnded_eq (c := c) path d
      rw [same] at node
      exact frozen key n node

theorem Endings.symbolsFrozen {s s' : State μ ω} (h : Endings c s s') (frozen : s.SymbolsFrozen) :
    s'.SymbolsFrozen := by
  induction h with
  | refl => exact frozen
  | tail _ last ih => exact last.symbolsFrozen ih

/-- The loop that freezes the documents that are open.  Every document that is not in the
rest of the list is frozen already. -/
theorem endings_forIn_endDocument {todo : List (String × DocumentNode)} {s s' : State μ ω}
    {u : PUnit} (distinct : (todo.map Prod.fst).Nodup)
    (present : ∀ path d, (path, d) ∈ todo → s.documents.get? path = some d)
    (others : ∀ path d, s.documents.get? path = some d → path ∉ todo.map Prod.fst →
      d.ended = true)
    (h : Yields (forIn todo PUnit.unit fun entry _ =>
      if entry.2.ended then pure (ForInStep.yield PUnit.unit)
      else do endDocument c entry.1; pure (ForInStep.yield PUnit.unit)) s u s') :
    Endings c s s' ∧ s'.DocumentsFrozen := by
  induction todo generalizing s with
  | nil =>
      simp only [List.forIn_nil, yields_pure] at h
      obtain ⟨-, rfl⟩ := h
      exact ⟨.refl, fun path d document => others path d document (by simp)⟩
  | cons entry todo ih =>
      obtain ⟨path, d⟩ := entry
      simp only [List.map_cons, List.nodup_cons] at distinct
      have here := present path d (by simp)
      rw [List.forIn_cons] at h
      obtain ⟨_, t, first, rest⟩ := yields_bind.1 h
      cases ended : d.ended with
      | true =>
          simp only [ended, if_true, yields_pure] at first
          obtain ⟨rfl, rfl⟩ := first
          refine ih distinct.2 (fun p e member => present p e (by simp [member]))
            (fun p e document absent => ?_) rest
          by_cases own : p = path
          · subst own
            obtain rfl := Option.some.inj (here.symm.trans document)
            exact ended
          · exact others p e document (by simp [own, absent])
      | false =>
          simp only [ended, Bool.false_eq_true, if_false] at first
          obtain ⟨_, _, closed, first⟩ := yields_bind.1 first
          obtain ⟨rfl, rfl⟩ := yields_pure.1 first
          obtain ⟨writable, t', endings, same, frozen, rfl⟩ := yields_endDocument here closed
          have endings' := endings.tail (.document (same ▸ here) writable frozen)
          have reads : ∀ p, p ≠ path →
              (t'.documentEnded c path d).documents.get? p = s.documents.get? p := by
            intro p different
            rw [get?_documentEnded, if_neg (Ne.symm different), same]
          have present' : ∀ p e, (p, e) ∈ todo →
              (t'.documentEnded c path d).documents.get? p = some e := by
            intro p e member
            have different : p ≠ path := by
              rintro rfl
              exact distinct.1 (List.mem_map.2 ⟨_, member, rfl⟩)
            rw [reads p different]
            exact present p e (by simp [member])
          have others' : ∀ p e, (t'.documentEnded c path d).documents.get? p = some e →
              p ∉ todo.map Prod.fst → e.ended = true := by
            intro p e document absent
            by_cases own : p = path
            · subst own
              rw [get?_documentEnded, if_pos rfl] at document
              obtain ⟨_, _, rfl⟩ := Option.map_eq_some_iff.1 document
              rfl
            · rw [reads p own] at document
              exact others p e document (by simp [own, absent])
          obtain ⟨more, all⟩ := ih distinct.2 present' others' rest
          exact ⟨endings'.trans more, all⟩

/-- The state after the project was joined to its documents. -/
def State.concluded (c : Context μ ω) (s : State μ ω) : State μ ω :=
  if s.documents.entries.isEmpty then s
  else s.emitted c (.contains s.projectId (s.documents.values.map (·.id)))

/-! The last element is all that a conclusion adds. -/

section Concluded

variable (s : State μ ω)

theorem symbols_concluded : (s.concluded c).symbols = s.symbols := by
  unfold State.concluded
  split <;> rfl

theorem documents_concluded : (s.concluded c).documents = s.documents := by
  unfold State.concluded
  split <;> rfl

theorem memory_concluded : (s.concluded c).memory = s.memory := by
  unfold State.concluded
  split <;> rfl

theorem traversal_concluded : (s.concluded c).traversal = s.traversal := by
  unfold State.concluded
  split <;> rfl

theorem stats_concluded : (s.concluded c).stats = s.stats := by
  unfold State.concluded
  split <;> rfl

end Concluded

theorem core_concluded (s : State μ ω) : (s.concluded c).coreAt = s.coreAt := by
  funext key
  rw [State.coreAt, symbols_concluded, State.coreAt]

/-- The end of a run: the symbols are frozen, then the documents, then the project is joined
to the documents. -/
theorem endings_finish {s s' : State μ ω} {u : Unit} (h : Yields (finish c) s u s') :
    ∃ t₁ t₂, Endings c s t₁ ∧ t₁.documents = s.documents ∧ t₁.SymbolsFrozen ∧
      Endings c t₁ t₂ ∧ t₂.DocumentsFrozen ∧ s' = t₂.concluded c := by
  rw [finish, yields_get_bind] at h
  obtain ⟨_, t₁, symbols, h⟩ := yields_bind.1 h
  rw [yields_get_bind] at h
  obtain ⟨_, t₂, documents, h⟩ := yields_bind.1 h
  rw [yields_get_bind] at h
  obtain ⟨endings₁, same, frozen₁⟩ :=
    endings_forIn_endOpenSymbol [] (by simp [State.Frozen]) symbols
  obtain ⟨endings₂, frozen₂⟩ := endings_forIn_endDocument t₁.documents.distinct
    (fun path d member => Table.mem_entries_iff.1 member)
    (fun path d document absent =>
      absurd (List.mem_map.2 ⟨_, Table.mem_entries_iff.2 document, rfl⟩) absent) documents
  refine ⟨t₁, t₂, endings₁, same, fun key n node => ?_, endings₂, frozen₂, ?_⟩
  · have member : key ∈ s.symbols.keys := endings₁.keys ▸ Table.mem_keys_iff.2 ⟨n, node⟩
    exact frozen₁ key (by simpa using member) n node
  · unfold State.concluded
    cases empty : t₂.documents.entries.isEmpty
    · simp only [empty, Bool.false_eq_true, if_false, yields_emit_bind, yields_pure] at h ⊢
      exact h.2
    · simp only [empty, if_true, yields_pure] at h ⊢
      exact h.2

theorem failure_none_of_concluded {s : State μ ω} (ok : (s.concluded c).failure = none) :
    s.failure = none := by
  unfold State.concluded at ok
  split at ok
  · exact ok
  · exact failure_none_of_emitted ok

/-- A run that begins hands over its head, and then indexes its files. -/
theorem yields_run {canceled : Cancellation Nat} {memory : μ} {output : ω} {stats : Stats}
    {error : Option RunError} {s' : State μ ω} :
    Yields (run c canceled) (.start c memory output) (stats, error) s' ↔
      Yields (indexFiles c canceled c.oracle.files) ((State.start c memory output).opened c) error
        s' ∧ stats = s'.stats := by
  rw [run, yields_get_bind, if_neg (by simp [State.start])]
  simp only [yields_modify_bind, yields_emit_bind]
  constructor
  · intro h
    obtain ⟨_, _, indexed, h⟩ := yields_bind.1 h
    rw [yields_get_bind, yields_pure] at h
    obtain ⟨equal, rfl⟩ := h
    obtain ⟨rfl, rfl⟩ := Prod.mk.inj equal
    exact ⟨indexed, rfl⟩
  · rintro ⟨indexed, rfl⟩
    refine yields_bind.2 ⟨error, s', indexed, ?_⟩
    rw [yields_get_bind, yields_pure]
    exact ⟨rfl, rfl⟩

/-- **The shape of a completed run.**  It performs its schedule; then it freezes the symbols
that are open, then the documents, and joins the project to them. -/
theorem phases_run {canceled : Cancellation Nat} {memory : μ} {output : ω} {stats : Stats}
    {s' : State μ ω} (h : Yields (run c canceled) (.start c memory output) (stats, none) s') :
    ∃ t u₁ u, Course c (schedule c.oracle.files) ((State.start c memory output).opened c) t ∧
      Endings c t u₁ ∧ u₁.documents = t.documents ∧ u₁.SymbolsFrozen ∧
      Endings c u₁ u ∧ u.DocumentsFrozen ∧ s' = u.concluded c ∧ s'.failure = none ∧
      stats = s'.stats := by
  obtain ⟨indexed, rfl⟩ := yields_run.1 h
  have nothing : Yields (performAll c []) ((State.start c memory output).opened c) () _ :=
    yields_pure.2 ⟨rfl, rfl⟩
  obtain ⟨ok, t, performed, finished⟩ :=
    performs_indexFiles rfl between_nil (List.Subset.refl _) nothing indexed
  obtain ⟨u₁, u, endings, same, symbols, endings', documents, rfl⟩ := endings_finish finished
  obtain ⟨-, -, course⟩ := situated_performed (List.append_nil _).symm performed
  have ended : Endings c t u := endings.trans endings'
  have done := ended.steps.failure_none (failure_none_of_concluded ok)
  exact ⟨t, u₁, u, course done, endings, same, symbols, endings', documents, rfl, ok, rfl⟩

/-- A completed run performs its schedule, and after that everything is frozen. -/
theorem course_run {canceled : Cancellation Nat} {memory : μ} {output : ω} {stats : Stats}
    {s' : State μ ω} (h : Yields (run c canceled) (.start c memory output) (stats, none) s') :
    ∃ t u, Course c (schedule c.oracle.files) ((State.start c memory output).opened c) t ∧
      Endings c t u ∧ u.SymbolsFrozen ∧ u.DocumentsFrozen ∧ s' = u.concluded c ∧
      s'.failure = none := by
  obtain ⟨t, u₁, u, course, endings, -, symbols, endings', documents, shape, ok, -⟩ :=
    phases_run h
  exact ⟨t, u, course, endings.trans endings', endings'.symbolsFrozen symbols, documents, shape,
    ok⟩

end SymbolAtlas.Session
