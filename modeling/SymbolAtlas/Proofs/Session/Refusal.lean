/-
# SymbolAtlas.Proofs.Session.Refusal -- a session whose sink refuses an element

A run that nothing is refused in fixes what every other run over the same oracle does: it goes
as that run until its sink refuses an element, visits nothing more, closes the document that is
open and ends with the refusal.  So whatever the sink is, it is left as if the elements of the
run had been handed to it one after the other up to the first that it refused
(`run_replayed`); for a sink that takes a number of elements and then refuses all, these are
the first so many elements (`run_limited`).
-/
import Mathlib.Data.List.Induction
import SymbolAtlas.Proofs.Session.Replay
import SymbolAtlas.Proofs.Session.Safety
import SymbolAtlas.Proofs.Session.Shelf

set_option autoImplicit false

namespace SymbolAtlas

open SymbolAtlas.Graph (Id Element Sink)

namespace Graph

/-- The sink, beginning with `output`, takes these elements one after the other and is `output'`
then. -/
def Sink.Takes {ω : Type} (sink : Sink ω) (output : ω) (elements : List Element) (output' : ω) :
    Prop :=
  elements.foldlM (fun output e => sink e output) output = .ok output'

/-- The sink, beginning with `output`, takes `limit` elements and refuses every further one. -/
def Sink.Limited {ω : Type} (sink : Sink ω) (output : ω) (limit : Nat) : Prop :=
  ∀ elements output', sink.Takes output elements output' →
    ∀ e, (sink e output').isOk = decide (elements.length < limit)

variable {ω : Type} {sink : Sink ω} {output : ω} {limit : Nat}

theorem takes_nil : sink.Takes output [] output := rfl

theorem takes_snoc {elements : List Element} {e : Element} {output'' : ω} :
    sink.Takes output (elements ++ [e]) output'' ↔
      ∃ output', sink.Takes output elements output' ∧ sink e output' = .ok output'' := by
  unfold Sink.Takes
  rw [List.foldlM_append]
  cases elements.foldlM (fun output e => sink e output) output with
  | error reason => simp [bind, Except.bind]
  | ok output' =>
      have last : ([e].foldlM (fun output e => sink e output) output') = sink e output' :=
        bind_pure _
      show [e].foldlM (fun output e => sink e output) output' = _ ↔ _
      simp [last]

/-- Up to its limit a sink takes whatever it is handed. -/
theorem Sink.Limited.takes (h : sink.Limited output limit) {elements : List Element}
    (within : elements.length ≤ limit) : ∃ output', sink.Takes output elements output' := by
  induction elements using List.reverseRecOn with
  | nil => exact ⟨output, takes_nil⟩
  | append_singleton elements e ih =>
      rw [List.length_append, List.length_singleton] at within
      obtain ⟨output', taken⟩ := ih (Nat.le_of_succ_le within)
      have accepted := h elements output' taken e
      rw [decide_eq_true (Nat.lt_of_succ_le within)] at accepted
      cases next : sink e output' with
      | error reason => simp [next, Except.isOk, Except.toBool] at accepted
      | ok output'' => exact ⟨output'', takes_snoc.2 ⟨output', taken, next⟩⟩

/-- Past its limit a sink refuses whatever it is handed. -/
theorem Sink.Limited.refuses (h : sink.Limited output limit) {elements : List Element}
    {output' : ω} (taken : sink.Takes output elements output') (full : limit ≤ elements.length)
    (e : Element) : ∃ reason, sink e output' = .error reason := by
  have refused := h elements output' taken e
  rw [decide_eq_false (Nat.not_lt.2 full)] at refused
  cases next : sink e output' with
  | error reason => exact ⟨reason, rfl⟩
  | ok output'' => simp [next, Except.isOk, Except.toBool] at refused

/-- A sink with a bound on its number of elements is limited by it. -/
theorem limited_upTo (limit : Nat) (reason : String) :
    (Sink.upTo limit reason Sink.collect).Limited (0, #[]) limit := by
  have counts : ∀ elements output',
      (Sink.upTo limit reason Sink.collect).Takes (0, #[]) elements output' →
        output'.1 = elements.length := by
    intro elements
    induction elements using List.reverseRecOn with
    | nil =>
        intro output' taken
        obtain rfl := Except.ok.inj taken
        rfl
    | append_singleton elements e ih =>
        intro output'' taken
        obtain ⟨⟨number, kept⟩, before, last⟩ := takes_snoc.1 taken
        obtain rfl : number = elements.length := ih _ before
        rw [List.length_append, List.length_singleton]
        by_cases room : elements.length < limit
        · simp only [Sink.upTo, Sink.collect, room, if_true] at last
          exact (congrArg Prod.fst (Except.ok.inj last)).symm
        · simp [Sink.upTo, room] at last
  intro elements output' taken e
  have count := counts elements output' taken
  obtain ⟨number, kept⟩ := output'
  obtain rfl : number = elements.length := count
  by_cases room : elements.length < limit
  · simp [Sink.upTo, Sink.collect, room, Except.map, Except.isOk, Except.toBool]
  · simp [Sink.upTo, room, Except.isOk, Except.toBool]

end Graph

namespace Session

variable {μ ω : Type} {c : Context μ ω} {output : ω}

/-! ## After a refusal -/

/-- What a session over the sink of `c` has once a collecting session has kept `kept`. -/
def State.Hears (c : Context μ ω) (output : ω) (s : State μ ω) (kept : Array Element) : Prop :=
  (s.output, s.failure) = heard c output kept.toList

/-- A state without a refusal is heard exactly. -/
theorem hears_replayed {s : State μ (Array Element)} (ok : s.failure = none) :
    (s.replayed c output).Hears c output s.output := by
  unfold State.Hears State.replayed told
  rw [ok]

/-- What comes after a refusal is not heard. -/
theorem State.Hears.ahead {s : State μ ω} {kept kept' : Array Element} {reason : String}
    (h : s.Hears c output kept) (refused : s.failure = some reason) {more : List Element}
    (later : kept'.toList = kept.toList ++ more) : s.Hears c output kept' := by
  unfold State.Hears at h ⊢
  have told : (heard c output kept.toList).2 = some reason := h ▸ refused
  rw [later, heard_append_of_refused told]
  exact h

theorem emitted_of_refused {s : State μ ω} {reason : String} (refused : s.failure = some reason)
    (body : Graph.Body) :
    (s.emitted c body).output = s.output ∧ (s.emitted c body).failure = some reason := by
  simp [State.emitted, deliver, refused]

theorem emittedAll_of_refused {s : State μ ω} {reason : String}
    (refused : s.failure = some reason) (bodies : List Graph.Body) :
    (s.emittedAll c bodies).output = s.output ∧ (s.emittedAll c bodies).failure = some reason := by
  induction bodies generalizing s with
  | nil => exact ⟨rfl, refused⟩
  | cons body bodies ih =>
      obtain ⟨same, refused'⟩ := emitted_of_refused (c := c) refused body
      obtain ⟨same', refused''⟩ := ih refused'
      exact ⟨same'.trans same, refused''⟩

theorem documentEnded_of_refused {s : State μ ω} {reason : String}
    (refused : s.failure = some reason) (path : String) (d : DocumentNode) :
    (s.documentEnded c path d).output = s.output ∧
      (s.documentEnded c path d).failure = some reason := by
  unfold State.documentEnded
  split
  · exact ⟨rfl, refused⟩
  · exact emitted_of_refused refused _

/-- What is ended after a refusal is ended in silence. -/
theorem Endings.of_refused {s s' : State μ ω} (h : Endings c s s') {reason : String}
    (refused : s.failure = some reason) : s'.output = s.output ∧ s'.failure = some reason := by
  induction h with
  | refl => exact ⟨rfl, refused⟩
  | tail _ last ih =>
      obtain ⟨same, refused'⟩ := ih
      cases last with
      | symbol =>
          obtain ⟨same', refused''⟩ := emittedAll_of_refused (c := c) refused' _
          exact ⟨same'.trans same, refused''⟩
      | document =>
          obtain ⟨same', refused''⟩ := documentEnded_of_refused (c := c) refused' _ _
          exact ⟨same'.trans same, refused''⟩

/-- After a refusal an open document can still be closed, and nothing is handed on. -/
theorem closes_of_refused {s : State μ ω} {path : String} {d : DocumentNode}
    (document : s.documents.get? path = some d) (writable : d.ended = false) {reason : String}
    (refused : s.failure = some reason) :
    ∃ s', Yields ((Moment.closing path).perform c) s () s' ∧ s'.output = s.output ∧
      s'.failure = some reason := by
  have openly : Answers (endDocument c path) { s with current := none } := by
    refine answers_endDocument fun e here => ?_
    obtain rfl := Option.some.inj (document.symm.trans here)
    exact writable
  obtain ⟨⟨⟩, s', closed⟩ := openly
  obtain ⟨-, t, endings, -, -, rfl⟩ := yields_endDocument (by exact document) closed
  have still : ({ s with current := none } : State μ ω).failure = some reason := refused
  obtain ⟨same, refused'⟩ := endings.of_refused still
  obtain ⟨same', refused''⟩ := documentEnded_of_refused (c := c) refused' path d
  exact ⟨_, yields_modify_bind.2 closed, same'.trans same, refused''⟩

/-! ## Moments -/

theorem failure_none_of_replayed {s : State μ (Array Element)}
    (ok : (s.replayed c output).failure = none) : s.failure = none := by
  cases failed : s.failure with
  | none => rfl
  | some reason => simp [State.replayed, told, failed] at ok

/-- A file is opened and closed alike, whatever was refused. -/
theorem replays_opening (path : String) :
    Replays c output ((Moment.opening path).perform c.collected)
      ((Moment.opening path).perform c) :=
  .bind (.document path) fun _ => .modify fun _ => rfl

theorem replays_closing (path : String) :
    Replays c output ((Moment.closing path).perform c.collected)
      ((Moment.closing path).perform c) :=
  .bind (.modify fun _ => rfl) fun _ => .endDocument path

theorem replays_enter {path : String} {n : Node} {s : State μ (Array Element)}
    (ok : (s.replayed c output).failure = none) :
    outcome (enter c path n) (s.replayed c output) =
      ((outcome (enter c.collected path n) s).1,
        (outcome (enter c.collected path n) s).2.replayed c output) := by
  have going : Replays c output
      (do if n.kind = .identifier then visitIdentifier c.collected path n
          return true)
      (do if n.kind = .identifier then visitIdentifier c path n
          return true) := by
    split
    · exact .bind (.visitIdentifier path n) fun _ => .pure _
    · exact .pure _
  rw [enter, enter, outcome_get_bind, outcome_get_bind, ok, failure_none_of_replayed ok]
  exact going s

theorem replays_leave {n : Node} {s : State μ (Array Element)}
    (ok : (s.replayed c output).failure = none) :
    outcome (leave c n) (s.replayed c output) =
      ((outcome (leave c.collected n) s).1,
        (outcome (leave c.collected n) s).2.replayed c output) := by
  rw [leave, leave, outcome_get_bind, outcome_get_bind, ok, failure_none_of_replayed ok]
  refine Replays.ite (.pure _) (.bind (.ask _) fun found => ?_) s
  cases found with
  | none => exact .pure _
  | some name => exact .linkExport n name

/-- Until an element is refused, a moment does what it does when all are collected. -/
theorem Moment.replays {m : Moment} {s : State μ (Array Element)}
    (ok : (s.replayed c output).failure = none) :
    outcome (m.perform c) (s.replayed c output) =
      ((outcome (m.perform c.collected) s).1,
        (outcome (m.perform c.collected) s).2.replayed c output) := by
  cases m with
  | opening path => exact replays_opening path s
  | entering path n =>
      rw [Moment.perform, Moment.perform, outcome_bind, outcome_bind, replays_enter ok]
      rcases outcome (enter c.collected path n) s with ⟨e | a, t⟩
      · rfl
      · rfl
  | leaving n => exact replays_leave ok
  | closing path => exact replays_closing path s

/-- Visits go on until an element is refused, and the rest of them is passed over. -/
theorem replays_visits (output : ω) {moments : List Moment}
    (visits : ∀ m ∈ moments, ∀ path, m ≠ .opening path ∧ m ≠ .closing path)
    {s s' : State μ (Array Element)} (performed : Yields (performAll c.collected moments) s () s') :
    ∃ done rest t, moments = done ++ rest ∧ Yields (performAll c.collected done) s () t ∧
      Yields (performAll c.collected rest) t () s' ∧
      Yields (performAll c moments) (s.replayed c output) () (t.replayed c output) ∧
      ((t.replayed c output).failure = none → rest = []) := by
  induction moments generalizing s with
  | nil =>
      obtain ⟨-, rfl⟩ := yields_pure.1 performed
      exact ⟨[], [], s', rfl, performed, performed, yields_pure.2 ⟨rfl, rfl⟩, fun _ => rfl⟩
  | cons m moments ih =>
      cases failed : (s.replayed c output).failure with
      | some reason =>
          refine ⟨[], m :: moments, s, rfl, yields_pure.2 ⟨rfl, rfl⟩, performed, ?_, fun ok => ?_⟩
          · exact outcome_visits_of_failed visits (by simp [failed])
          · rw [failed] at ok
            cases ok
      | none =>
          obtain ⟨⟨⟩, u, here, later⟩ := yields_bind.1 performed
          obtain ⟨done, rest, t, split, before, after, replayed, complete⟩ :=
            ih (fun other member => visits other (List.mem_cons_of_mem _ member)) later
          have here' : Yields (m.perform c) (s.replayed c output) () (u.replayed c output) := by
            rw [Yields, Moment.replays failed, here]
          exact ⟨m :: done, rest, t, congrArg (m :: ·) split, yields_bind.2 ⟨(), u, here, before⟩,
            after, yields_bind.2 ⟨(), _, here', replayed⟩, complete⟩

/-! ## Runs -/

theorem opened_replayed (memory : μ) :
    ((State.start c.collected memory #[]).opened c.collected).replayed c output =
      (State.start c memory output).opened c := by
  have first := @emitted_replayed _ _ c output
    { State.start c.collected memory #[] with ran := true } (.metadata (metadataBody c.collected))
  have second := @emitted_replayed _ _ c output
    (State.emitted c.collected { State.start c.collected memory #[] with ran := true }
      (.metadata (metadataBody c.collected))) (.project (projectBody c.collected))
  rw [first] at second
  exact congrArg (fun s : State μ ω => { s with
    projectId := 2
    traversal := c.oracle.files.map fun file : Tree => file.root.file }) second

/-- All that a run keeps from some state on is ahead of that state. -/
def Ahead (c : Context μ ω) (memory : μ) (kept : Array Element) : Prop :=
  ∀ first rest s, schedule c.oracle.files = first ++ rest →
    Yields (performAll c.collected first) ((State.start c.collected memory #[]).opened c.collected)
      () s →
    s.failure = none ∧ ∃ more, kept.toList = s.output.toList ++ more

theorem Ahead.hears {memory : μ} {kept : Array Element} (ahead : Ahead c memory kept)
    (output : ω) {first rest : List Moment} {s : State μ (Array Element)}
    (split : schedule c.oracle.files = first ++ rest)
    (performed : Yields (performAll c.collected first)
      ((State.start c.collected memory #[]).opened c.collected) () s) {reason : String}
    (refused : (s.replayed c output).failure = some reason) :
    (s.replayed c output).Hears c output kept := by
  obtain ⟨ok, more, later⟩ := ahead first rest s split performed
  exact (hears_replayed ok).ahead refused later

/-- **A file is passed through alike**, or its sink has refused an element at the end of it. -/
theorem passage_replayed {memory : μ} {kept : Array Element} (ahead : Ahead c memory kept)
    (output : ω) {first rest : List Moment} {file : Tree} {s s' : State μ (Array Element)}
    (split : schedule c.oracle.files = first ++ (file.passage ++ rest))
    (before : Yields (performAll c.collected first)
      ((State.start c.collected memory #[]).opened c.collected) () s)
    (performed : Yields (performAll c.collected file.passage) s () s') :
    ∃ t, Yields (performAll c file.passage) (s.replayed c output) () t ∧
      (t.failure = none → t = s'.replayed c output) ∧
      (t.failure.isSome = true → t.Hears c output kept) := by
  obtain ⟨⟨⟩, s₁, opened, later⟩ := yields_bind.1 performed
  obtain ⟨s₂, visited, closed⟩ := yields_performAll_append.1 later
  rw [performAll_singleton] at closed
  obtain ⟨done, todo, u, visits, here, after, replayed, complete⟩ :=
    replays_visits output visits_moments visited
  have opened' : Yields _ (s.replayed c output) () (s₁.replayed c output) :=
    (replays_opening file.root.file).yields opened
  cases failed : (u.replayed c output).failure with
  | none =>
      obtain rfl := complete failed
      obtain ⟨-, rfl⟩ := after.unique (yields_pure.2 ⟨rfl, rfl⟩)
      have closed' : Yields _ (s₂.replayed c output) () (s'.replayed c output) :=
        (replays_closing file.root.file).yields closed
      refine ⟨s'.replayed c output, ?_, fun _ => rfl, fun refused => ?_⟩
      · refine yields_bind.2 ⟨(), _, opened', yields_performAll_append.2 ⟨_, replayed, ?_⟩⟩
        rwa [performAll_singleton]
      · obtain ⟨reason, refused⟩ := Option.isSome_iff_exists.1 refused
        have place : schedule c.oracle.files = (first ++ file.passage) ++ rest := by
          rw [split, List.append_assoc]
        exact ahead.hears output place (yields_performAll_append.2 ⟨s, before, performed⟩) refused
  | some reason =>
      have place : schedule c.oracle.files =
          (first ++ .opening file.root.file :: done) ++
            (todo ++ .closing file.root.file :: rest) := by
        rw [split, Tree.passage, visits]
        simp
      have reached : Yields (performAll c.collected (first ++ .opening file.root.file :: done))
          ((State.start c.collected memory #[]).opened c.collected) () u :=
        yields_performAll_append.2 ⟨s, before, yields_bind.2 ⟨(), s₁, opened, here⟩⟩
      obtain ⟨situated, -, -⟩ := situated_performed (c := c.collected) place reached
      obtain ⟨d, document, ended⟩ := situated.opened file.root.file (by simp)
      have unclosed : .closing file.root.file ∉ first ++ .opening file.root.file :: done := by
        have follows : (Moment.closing file.root.file).Follows
            (first ++ .opening file.root.file :: (done ++ todo)) := by
          apply follows_schedule
          rw [place]
          simp
          rfl
        exact fun member => follows.2 (by simp at member ⊢; tauto)
      have writable : d.ended = false := by simpa using mt ended.1 unclosed
      obtain ⟨t, closed', same, refused⟩ := closes_of_refused (c := c)
        (s := u.replayed c output) document writable failed
      refine ⟨t, ?_, fun ok => ?_, fun _ => ?_⟩
      · refine yields_bind.2 ⟨(), _, opened', yields_performAll_append.2 ⟨_, replayed, ?_⟩⟩
        rwa [performAll_singleton]
      · rw [refused] at ok
        cases ok
      · have heard := ahead.hears output place reached failed
        unfold State.Hears at heard ⊢
        rwa [same, refused, ← failed]

/-- **What the next file is to the other run**, and where both are after it: it goes on from the
same place, or its sink has refused an element. -/
theorem file_replayed {memory : μ} {kept : Array Element} (ahead : Ahead c memory kept)
    (output : ω) {file : Tree} {rest : List Tree} {seen : List String} {first : List Moment}
    {s s' : State μ (Array Element)}
    (split : schedule c.oracle.files =
      first ++ (Tree.firsts seen (file :: rest)).flatMap Tree.passage)
    (between : Between seen first) (inside : file ∈ c.oracle.files)
    (performed : Yields (performAll c.collected first)
      ((State.start c.collected memory #[]).opened c.collected) () s)
    (indexed : Yields (indexFile c.collected file) s () s') :
    ∃ first' seen' t,
      schedule c.oracle.files = first' ++ (Tree.firsts seen' rest).flatMap Tree.passage ∧
      Between seen' first' ∧
      Yields (performAll c.collected first')
        ((State.start c.collected memory #[]).opened c.collected) () s' ∧
      Yields (indexFile c file) (s.replayed c output) () t ∧
      (t.failure = none → t = s'.replayed c output) ∧
      (t.failure.isSome = true → t.Hears c output kept) := by
  obtain ⟨frozen, fresh⟩ := document_next (c := c.collected) split between inside performed
  by_cases known : file.root.file ∈ seen
  · rw [Tree.firsts, if_pos known] at split
    obtain ⟨d, document, ended⟩ := frozen known
    rw [Yields, outcome_indexFile_of_ended document ended] at indexed
    obtain rfl := (Prod.mk.inj indexed).2
    refine ⟨first, seen, s.replayed c output, split, between, performed,
      outcome_indexFile_of_ended (by exact document) ended, fun _ => rfl, fun refused => ?_⟩
    obtain ⟨reason, refused⟩ := Option.isSome_iff_exists.1 refused
    exact ahead.hears output split performed refused
  · rw [Tree.firsts, if_neg known, List.flatMap_cons] at split
    have fresh := fresh known
    rw [Yields, outcome_indexFile fresh] at indexed
    obtain ⟨t, passed, goes, stops⟩ := passage_replayed ahead output split performed
      indexed
    refine ⟨first ++ file.passage, file.root.file :: seen, t, by rw [split, List.append_assoc],
      between.passage file, yields_performAll_append.2 ⟨s, performed, indexed⟩, ?_, goes, stops⟩
    rw [Yields, outcome_indexFile (by exact fresh)]
    exact passed

/-- **The files are indexed alike until an element is refused**, and then no more. -/
theorem indexFiles_replayed {canceled : Cancellation Nat} {memory : μ} {kept : Array Element}
    (ahead : Ahead c memory kept) (output : ω) {files : List Tree} {seen : List String}
    {first : List Moment} {s s' : State μ (Array Element)}
    (split : schedule c.oracle.files = first ++ (Tree.firsts seen files).flatMap Tree.passage)
    (between : Between seen first) (inside : files ⊆ c.oracle.files)
    (performed : Yields (performAll c.collected first)
      ((State.start c.collected memory #[]).opened c.collected) () s)
    (h : Yields (indexFiles c.collected canceled files) s none s') (last : kept = s'.output) :
    ∃ t, Yields (indexFiles c canceled files) (s.replayed c output) (t.failure.map .refused) t ∧
      t.Hears c output kept := by
  induction files generalizing seen first s with
  | nil =>
      obtain ⟨⟨⟩, _, finished, h⟩ := yields_bind.1 h
      rw [yields_get_bind, yields_pure] at h
      obtain ⟨none_, rfl⟩ := h
      refine ⟨s'.replayed c output, ?_, last ▸ hears_replayed (by simpa using none_.symm)⟩
      refine yields_bind.2 ⟨(), _, Replays.finish.yields finished, ?_⟩
      rw [yields_get_bind, yields_pure]
      exact ⟨rfl, rfl⟩
  | cons file rest ih =>
      obtain ⟨unseen, u, indexed, ok, later⟩ := yields_indexFiles_cons.1 h
      have within : rest ⊆ c.oracle.files :=
        fun other member => inside (List.mem_cons_of_mem _ member)
      obtain ⟨first', seen', t, split', between', performed', indexed', goes, stops⟩ :=
        file_replayed ahead output split between (inside List.mem_cons_self) performed indexed
      rw [indexFiles, if_neg (by simp [unseen])]
      cases failed : t.failure with
      | none =>
          obtain rfl := goes failed
          obtain ⟨v, indexedAll, hears⟩ := ih split' between' within performed' later
          refine ⟨v, yields_bind.2 ⟨(), _, indexed', ?_⟩, hears⟩
          rw [yields_get_bind, failed]
          exact indexedAll
      | some reason =>
          refine ⟨t, yields_bind.2 ⟨(), t, indexed', ?_⟩, stops (by simp [failed])⟩
          rw [yields_get_bind, failed, yields_pure]
          exact ⟨rfl, rfl⟩

theorem records_collected (c : Context μ ω) : c.collected.sink.Records (·.toList) := by
  intro e kept kept' taken
  obtain rfl := Except.ok.inj taken
  exact Array.toList_push ..

/-- What a completed run has kept at the end is ahead of all that it has kept before. -/
theorem ahead_run {canceled : Cancellation Nat} {memory : μ} {stats : Stats}
    {s : State μ (Array Element)}
    (completed : Yields (run c.collected canceled) (.start c.collected memory #[]) (stats, none)
      s) :
    Ahead c memory s.output := by
  obtain ⟨t, u, course, endings, -, -, rfl, ok⟩ := course_run completed
  have records := records_collected c
  have ok' := failure_none_of_concluded ok
  intro first rest s split performed
  obtain ⟨v, before, after⟩ := (split ▸ course : Course _ (first ++ rest) _ _).split
  obtain ⟨-, rfl⟩ := performed.unique before.performs
  have steps : Steps c.collected s u := after.steps.trans endings.steps
  have okS := steps.failure_none ok'
  have begun := before.steps.failure_none okS
  have traced := traced_opened records rfl begun
  have sorted := (before.steps.sorted records traced (sorted_opened records rfl begun) okS).1
  obtain ⟨-, -, more, seen⟩ :=
    steps.sorted records (before.steps.traced records traced okS) sorted ok'
  refine ⟨okS, ?_⟩
  unfold State.concluded at ok ⊢
  split
  · exact ⟨more, seen⟩
  · rw [if_neg ‹_›] at ok
    have added := view_emitted records ok
    rw [seen, List.append_assoc] at added
    exact ⟨_, added⟩

/-- **What a session does to its sink**: it leaves it as if the elements of the run that nothing
is refused in had been handed to it one after the other up to the first that it refuses, and
fails with that refusal.  It breaks nothing. -/
theorem run_replayed (c : Context μ ω) {canceled : Cancellation Nat} {memory : μ} (output : ω)
    {stats : Stats} {s : State μ (Array Element)}
    (completed : Yields (run c.collected canceled) (.start c.collected memory #[]) (stats, none)
      s) :
    ∃ stats' t, Yields (run c canceled) (.start c memory output)
        (stats', t.failure.map .refused) t ∧ t.Hears c output s.output := by
  have ahead := ahead_run completed
  obtain ⟨indexed, rfl⟩ := yields_run.1 completed
  have nothing : Yields (performAll c.collected [])
      ((State.start c.collected memory #[]).opened c.collected) () _ := yields_pure.2 ⟨rfl, rfl⟩
  obtain ⟨t, indexed', hears⟩ := indexFiles_replayed ahead output rfl between_nil
    (List.Subset.refl _) nothing indexed rfl
  rw [opened_replayed] at indexed'
  exact ⟨t.stats, t, yields_run.2 ⟨indexed', rfl⟩, hears⟩

/-! ### Sinks with a limit -/

theorem heard_of_takes {elements : List Element} {output' : ω}
    (taken : c.sink.Takes output elements output') : heard c output elements = (output', none) := by
  induction elements using List.reverseRecOn generalizing output' with
  | nil =>
      obtain rfl := Except.ok.inj taken
      rfl
  | append_singleton elements e ih =>
      obtain ⟨middle, before, last⟩ := Graph.takes_snoc.1 taken
      rw [heard_snoc, ih before]
      simp [deliver, last]

/-- A limited sink hears as many elements as it takes. -/
theorem heard_of_limited {limit : Nat} (limited : c.sink.Limited output limit)
    (elements : List Element) :
    ∃ output', c.sink.Takes output (elements.take limit) output' ∧
      (heard c output elements).1 = output' ∧
      ((heard c output elements).2.isSome = true ↔ limit < elements.length) ∧
      ∀ e, elements[limit]? = some e → ∃ reason,
        c.sink e output' = .error reason ∧ (heard c output elements).2 = some reason := by
  obtain ⟨output', taken⟩ := limited.takes (List.length_take_le limit elements)
  have heardTake := heard_of_takes taken
  refine ⟨output', taken, ?_⟩
  cases next : elements[limit]? with
  | none =>
      have short := List.getElem?_eq_none_iff.1 next
      rw [List.take_of_length_le short] at heardTake
      simp [heardTake, short]
  | some e =>
      obtain ⟨within, rfl⟩ := List.getElem?_eq_some_iff.1 next
      obtain ⟨reason, refused⟩ := limited.refuses taken
        (by rw [List.length_take]; omega) elements[limit]
      have told : heard c output (elements.take limit ++ [elements[limit]]) =
          (output', some reason) := by
        rw [heard_snoc, heardTake]
        simp [deliver, refused]
      have all : heard c output elements = (output', some reason) := by
        have failed : (heard c output (elements.take limit ++ [elements[limit]])).2 =
            some reason := by
          rw [told]
        have more := heard_append_of_refused failed (elements.drop (limit + 1))
        rw [List.take_append_getElem, List.take_append_drop] at more
        rw [more, ← List.take_append_getElem within, told]
      rw [all]
      refine ⟨rfl, by simp [within], fun e same => ?_⟩
      obtain rfl := Option.some.inj same
      exact ⟨reason, refused, rfl⟩

/-- **A sink that takes `limit` elements and then refuses every one** gets the first `limit`
elements of the run that nothing is refused in, exactly; the session breaks nothing and fails,
with the reason that the sink gave, if and only if the run has more. -/
theorem run_limited (c : Context μ ω) {output : ω} {limit : Nat}
    (limited : c.sink.Limited output limit) {canceled : Cancellation Nat} {memory : μ}
    {stats : Stats} {s : State μ (Array Element)}
    (completed : Yields (run c.collected canceled) (.start c.collected memory #[]) (stats, none)
      s) :
    ∃ stats' error t, Yields (run c canceled) (.start c memory output) (stats', error) t ∧
      c.sink.Takes output (s.output.toList.take limit) t.output ∧
      (error.isSome = true ↔ limit < s.output.size) ∧
      ∀ e, s.output[limit]? = some e → ∃ reason,
        c.sink e t.output = .error reason ∧ error = some (.refused reason) := by
  obtain ⟨stats', t, ran, hears⟩ := run_replayed c output completed
  obtain ⟨output', taken, same, fails, refuses⟩ := heard_of_limited limited s.output.toList
  rw [← hears] at same fails refuses
  obtain rfl : t.output = output' := same
  refine ⟨stats', _, t, ran, taken, ?_, fun e next => ?_⟩
  · rw [Option.isSome_map]
    exact fails
  · obtain ⟨reason, refused, failure⟩ := refuses e (by rwa [Array.getElem?_toList])
    exact ⟨reason, refused, congrArg (Option.map RunError.refused) failure⟩

/-- A session over the cycles whose sink takes eight elements. -/
def cyclicLimited : Context Sketch.AliasLog (Nat × Array Element) where
  oracle := cyclic.oracle
  sink := Sink.upTo 8 "full" Sink.collect
  options := {}
  locate _ := some { path := "p" }

theorem run_limited_cyclic :
    ∃ stats s, Yields (run cyclicLimited.collected false)
        (.start cyclicLimited.collected [] #[]) (stats, none) s ∧
      ∃ stats' error t, Yields (run cyclicLimited false) (.start cyclicLimited [] (0, #[]))
          (stats', error) t ∧
        cyclicLimited.sink.Takes (0, #[]) (s.output.toList.take 8) t.output ∧
        (error.isSome = true ↔ 8 < s.output.size) ∧
        ∀ e, s.output[8]? = some e → ∃ reason,
          cyclicLimited.sink e t.output = .error reason ∧ error = some (.refused reason) := by
  have completed : (outcome (run cyclicLimited.collected false)
      (.start cyclicLimited.collected [] #[])).1.toOption =
        some ({ documents := 1, symbols := 4, definitions := 2, references := 2 }, none) := by
    decide +kernel
  have ran := yields_of_answer completed
  exact ⟨_, _, ran, run_limited cyclicLimited (Graph.limited_upTo 8 "full") ran⟩

end Session
end SymbolAtlas
