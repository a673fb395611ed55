/-
# SymbolAtlas.Proofs.Session.Collected -- the elements of a completed run

A run that its sink refuses nothing in goes as the run that collects its elements
(`run_collected`), so what is proved of the collected elements holds of what the sink took, one
element after the other, whatever the sink makes of them.
-/
import SymbolAtlas.Proofs.Session.Refusal

set_option autoImplicit false

namespace SymbolAtlas.Session

open SymbolAtlas.Graph (Id Element Sink)

variable {μ ω α : Type} {c : Context μ ω} {output : ω}

/-- A step that replays another answers only where the other does. -/
theorem Replays.lift {m : Indexing μ (Array Element) α} {m' : Indexing μ ω α}
    (h : Replays c output m m') {s : State μ (Array Element)} {t : State μ ω} {a : α}
    (done : Yields m' (s.replayed c output) a t) :
    ∃ s', Yields m s a s' ∧ s'.replayed c output = t := by
  rw [Yields, h] at done
  obtain ⟨answer, rfl⟩ := Prod.mk.inj done
  exact ⟨_, Prod.ext answer rfl, rfl⟩

theorem Moment.lift {m : Moment} {s : State μ (Array Element)} {t : State μ ω}
    (ok : (s.replayed c output).failure = none)
    (done : Yields (m.perform c) (s.replayed c output) () t) :
    ∃ s', Yields (m.perform c.collected) s () s' ∧ s'.replayed c output = t := by
  rw [Yields, Moment.replays ok] at done
  obtain ⟨answer, rfl⟩ := Prod.mk.inj done
  exact ⟨_, Prod.ext answer rfl, rfl⟩

/-- Visits without a refusal go as those that collect. -/
theorem visits_lift {moments : List Moment}
    (visits : ∀ m ∈ moments, ∀ path, m ≠ .opening path ∧ m ≠ .closing path)
    {s : State μ (Array Element)} {t : State μ ω}
    (performed : Yields (performAll c moments) (s.replayed c output) () t) (ok : t.failure = none) :
    ∃ s', Yields (performAll c.collected moments) s () s' ∧ s'.replayed c output = t := by
  induction moments generalizing s with
  | nil =>
      obtain ⟨-, rfl⟩ := yields_pure.1 performed
      exact ⟨s, yields_pure.2 ⟨rfl, rfl⟩, rfl⟩
  | cons m moments ih =>
      cases failed : (s.replayed c output).failure with
      | some reason =>
          have idle := outcome_visits_of_failed (c := c) visits (s := s.replayed c output)
            (by simp [failed])
          obtain ⟨-, rfl⟩ := performed.unique idle
          rw [failed] at ok
          cases ok
      | none =>
          obtain ⟨⟨⟩, t₁, here, later⟩ := yields_bind.1 performed
          obtain ⟨s₁, here', rfl⟩ := Moment.lift failed here
          obtain ⟨s', later', same⟩ :=
            ih (fun other member => visits other (List.mem_cons_of_mem _ member)) later
          exact ⟨s', yields_bind.2 ⟨(), s₁, here', later'⟩, same⟩

theorem passage_lift {file : Tree} {s : State μ (Array Element)} {t : State μ ω}
    (performed : Yields (performAll c file.passage) (s.replayed c output) () t)
    (ok : t.failure = none) :
    ∃ s', Yields (performAll c.collected file.passage) s () s' ∧ s'.replayed c output = t := by
  obtain ⟨⟨⟩, t₁, opened, later⟩ := yields_bind.1 performed
  obtain ⟨t₂, visited, closed⟩ := yields_performAll_append.1 later
  rw [performAll_singleton] at closed
  obtain ⟨s₁, opened', rfl⟩ := (replays_opening file.root.file).lift opened
  have ok₂ : t₂.failure = none := by
    rw [Moment.perform, yields_modify_bind] at closed
    cases document : t₂.documents.get? file.root.file with
    | none =>
        rw [endDocument, yields_get_bind] at closed
        simp only [document, yields_pure] at closed
        obtain ⟨-, rfl⟩ := closed
        exact ok
    | some d =>
        obtain ⟨writable, u, endings, same, frozen, rfl⟩ :=
          yields_endDocument (by exact document) closed
        have last : Ending c u _ := .document (by rw [same]; exact document) writable frozen
        exact (Endings.steps (endings.tail last)).failure_none ok
  obtain ⟨s₂, visited', rfl⟩ := visits_lift visits_moments visited ok₂
  obtain ⟨s', closed', same⟩ := (replays_closing file.root.file).lift closed
  refine ⟨s', yields_bind.2 ⟨(), s₁, opened', yields_performAll_append.2 ⟨s₂, visited', ?_⟩⟩, same⟩
  rwa [performAll_singleton]

theorem indexFiles_lift {canceled : Cancellation Nat} {memory : μ} {files : List Tree}
    {seen : List String} {first : List Moment} {s : State μ (Array Element)} {t : State μ ω}
    (split : schedule c.oracle.files = first ++ (Tree.firsts seen files).flatMap Tree.passage)
    (between : Between seen first) (inside : files ⊆ c.oracle.files)
    (performed : Yields (performAll c.collected first)
      ((State.start c.collected memory #[]).opened c.collected) () s)
    (h : Yields (indexFiles c canceled files) (s.replayed c output) none t) :
    ∃ s', Yields (indexFiles c.collected canceled files) s none s' ∧ s'.failure = none ∧
      s'.replayed c output = t := by
  induction files generalizing seen first s with
  | nil =>
      obtain ⟨⟨⟩, _, finished, h⟩ := yields_bind.1 h
      rw [yields_get_bind, yields_pure] at h
      obtain ⟨none_, rfl⟩ := h
      obtain ⟨s', finished', rfl⟩ := Replays.finish.lift finished
      have replayed : (s'.replayed c output).failure = none := by simpa using none_.symm
      have ok := failure_none_of_replayed replayed
      refine ⟨s', yields_bind.2 ⟨(), s', finished', ?_⟩, ok, rfl⟩
      rw [yields_get_bind, yields_pure, ok]
      exact ⟨rfl, rfl⟩
  | cons file rest ih =>
      obtain ⟨unseen, t₁, indexed, ok, later⟩ := yields_indexFiles_cons.1 h
      have next : ∃ first' seen' s₁,
          schedule c.oracle.files = first' ++ (Tree.firsts seen' rest).flatMap Tree.passage ∧
          Between seen' first' ∧
          Yields (performAll c.collected first')
            ((State.start c.collected memory #[]).opened c.collected) () s₁ ∧
          Yields (indexFile c.collected file) s () s₁ ∧ s₁.replayed c output = t₁ := by
        obtain ⟨frozen, fresh⟩ := document_next (c := c.collected) split between
          (inside List.mem_cons_self) performed
        by_cases known : file.root.file ∈ seen
        · rw [Tree.firsts, if_pos known] at split
          obtain ⟨d, document, ended⟩ := frozen known
          rw [Yields, outcome_indexFile_of_ended (by exact document) ended] at indexed
          exact ⟨first, seen, s, split, between, performed,
            outcome_indexFile_of_ended document ended, (Prod.mk.inj indexed).2⟩
        · rw [Tree.firsts, if_neg known, List.flatMap_cons] at split
          have fresh := fresh known
          rw [Yields, outcome_indexFile (by exact fresh)] at indexed
          obtain ⟨s₁, passed, same⟩ := passage_lift indexed ok
          refine ⟨first ++ file.passage, file.root.file :: seen, s₁,
            by rw [split, List.append_assoc], between.passage file,
            yields_performAll_append.2 ⟨s, performed, passed⟩, ?_, same⟩
          rw [Yields, outcome_indexFile fresh]
          exact passed
      obtain ⟨first', seen', s₁, split', between', performed', indexed', rfl⟩ := next
      have within : rest ⊆ c.oracle.files :=
        fun other member => inside (List.mem_cons_of_mem _ member)
      obtain ⟨s', later', ok', same⟩ := ih split' between' within performed' later
      exact ⟨s', yields_indexFiles_cons.2
        ⟨unseen, s₁, indexed', failure_none_of_replayed ok, later'⟩, ok', same⟩

theorem takes_of_heard {elements : List Element} {output' : ω}
    (heard_ : heard c output elements = (output', none)) :
    c.sink.Takes output elements output' := by
  induction elements using List.reverseRecOn generalizing output' with
  | nil =>
      obtain ⟨rfl, -⟩ := Prod.mk.inj heard_
      exact Graph.takes_nil
  | append_singleton elements e ih =>
      rw [heard_snoc] at heard_
      rcases before : heard c output elements with ⟨middle, _ | reason⟩
      · rw [before] at heard_
        simp only [deliver] at heard_
        cases taken : c.sink e middle with
        | error reason => simp [taken] at heard_
        | ok output'' =>
            rw [taken] at heard_
            obtain ⟨rfl, -⟩ := Prod.mk.inj heard_
            exact Graph.takes_snoc.2 ⟨middle, ih before, taken⟩
      · simp [before, deliver] at heard_

/-- **A completed run collects what its sink takes**: the run that collects its elements is
completed with the same counters, and the sink has taken these elements in their order. -/
theorem run_collected {canceled : Cancellation Nat} {memory : μ} {stats : Stats} {t : State μ ω}
    (completed : Yields (run c canceled) (.start c memory output) (stats, none) t) :
    ∃ s, Yields (run c.collected canceled) (.start c.collected memory #[]) (stats, none) s ∧
      s.replayed c output = t ∧ c.sink.Takes output s.output.toList t.output := by
  obtain ⟨-, -, -, -, -, -, -, taken⟩ := course_run completed
  obtain ⟨indexed, rfl⟩ := yields_run.1 completed
  rw [← opened_replayed] at indexed
  have nothing : Yields (performAll c.collected [])
      ((State.start c.collected memory #[]).opened c.collected) () _ := yields_pure.2 ⟨rfl, rfl⟩
  obtain ⟨s, indexed', ok, rfl⟩ := indexFiles_lift rfl between_nil (List.Subset.refl _) nothing
    indexed
  refine ⟨s, yields_run.2 ⟨indexed', rfl⟩, rfl, takes_of_heard ?_⟩
  rw [← hears_replayed ok, taken]

/-- **A completed run hands over the same elements wherever they go**: a sink that takes them
from another start ends the same run with the same counters. -/
theorem run_elsewhere {canceled : Cancellation Nat} {memory : μ} {stats : Stats} {t : State μ ω}
    (completed : Yields (run c canceled) (.start c memory output) (stats, none) t) :
    ∃ elements, c.sink.Takes output elements t.output ∧
      ∀ output' result, c.sink.Takes output' elements result →
        ∃ t', Yields (run c canceled) (.start c memory output') (stats, none) t' ∧
          t'.output = result := by
  obtain ⟨s, collected, -, taken⟩ := run_collected completed
  refine ⟨s.output.toList, taken, fun output' result taken' => ?_⟩
  obtain ⟨stats', t', ran, hears⟩ := run_replayed c output' collected
  obtain ⟨same, ok⟩ := Prod.mk.inj (hears.trans (heard_of_takes taken'))
  rw [ok] at ran
  obtain ⟨s', collected', -, -⟩ := run_collected ran
  obtain ⟨equal, -⟩ := collected.unique collected'
  obtain rfl : stats = stats' := (Prod.mk.inj equal).1
  exact ⟨t', ran, same⟩

end SymbolAtlas.Session
