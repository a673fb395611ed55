/-
# SymbolAtlas.Proofs.Session.Tally -- what the counters of a run count

A session counts at the places where it emits, but a counter and the elements that it stands for
are changed by different operations.  `Graph.tally` reads the numbers off the elements alone.  A
step changes both alike (`Step.tallied`), so the counters of a completed run are the numbers of
its stream (`tally_run`).  The documents of a stream have different addresses (`uri_unique_run`).
-/
import SymbolAtlas.Proofs.Session.Vertices

set_option autoImplicit false

namespace SymbolAtlas

open SymbolAtlas.Graph (Id Element Body)

namespace Graph

/-- How many elements of some sorts there are. -/
structure Tally where
  documents : Nat := 0
  symbols : Nat := 0
  definitions : Nat := 0
  references : Nat := 0
  monikers : Nat := 0
deriving DecidableEq, Repr

/-- The numbers after one more element.  A range that is no definition is a reference, and a
moniker counts as often as it is attached. -/
def Tally.add (t : Tally) : Body → Tally
  | .document _ => { t with documents := t.documents + 1 }
  | .resultSet _ => { t with symbols := t.symbols + 1 }
  | .range r =>
      if r.role.name = "definition" then { t with definitions := t.definitions + 1 }
      else { t with references := t.references + 1 }
  | .monikerEdge _ _ => { t with monikers := t.monikers + 1 }
  | _ => t

theorem Tally.add_definition (t : Tally) {r : Range} (role : r.role = .definition) :
    t.add (.range r) = { t with definitions := t.definitions + 1 } := by
  rw [Tally.add, role, if_pos (by decide)]

theorem Tally.add_reference (t : Tally) {r : Range} (role : r.role = .reference) :
    t.add (.range r) = { t with references := t.references + 1 } := by
  rw [Tally.add, role, if_neg (by decide)]

/-- The numbers of a stream. -/
def tally (stream : List Element) : Tally := stream.foldl (fun t e => t.add e.body) {}

theorem tally_snoc (stream : List Element) (e : Element) :
    tally (stream ++ [e]) = (tally stream).add e.body := by
  unfold tally
  rw [List.foldl_append]
  rfl

/-- Elements that count nothing may be added. -/
theorem tally_append_of_quiet {stream more : List Element}
    (quiet : ∀ e ∈ more, ∀ t : Tally, t.add e.body = t) : tally (stream ++ more) = tally stream := by
  induction more using List.reverseRecOn with
  | nil => rw [List.append_nil]
  | append_singleton more e ih =>
      rw [← List.append_assoc, tally_snoc, quiet e (by simp),
        ih fun other member => quiet other (List.mem_append_left _ member)]

end Graph

namespace Session

open SymbolAtlas.Graph (Tally)

variable {μ ω : Type} {c : Context μ ω} {view : ω → List Element}

/-- The counters that count elements. -/
def Stats.tally (n : Stats) : Tally where
  documents := n.documents
  symbols := n.symbols
  definitions := n.definitions
  references := n.references
  monikers := n.monikers

/-- The counters are the numbers of the stream. -/
def State.Tallied (view : ω → List Element) (s : State μ ω) : Prop :=
  s.stats.tally = Graph.tally (view s.output)

/-- One more element adds to the numbers what it counts. -/
theorem tallied_emitted (records : c.sink.Records view) {s : State μ ω} {body : Body}
    (h : s.Tallied view) (ok : (s.emitted c body).failure = none) :
    s.stats.tally.add body = Graph.tally (view (s.emitted c body).output) := by
  rw [view_emitted records ok, Graph.tally_snoc, h]

theorem tallied_began (records : c.sink.Records view) {s : State μ ω} {path : String}
    (h : s.Tallied view) (ok : (s.began c path).failure = none) : (s.began c path).Tallied view :=
  tallied_emitted records h ok

theorem tallied_defined (records : c.sink.Records view) {s : State μ ω} {key path : String}
    {n : SymbolNode} {d : DocumentNode} {declaration name : Node} (h : s.Tallied view)
    (ok : (s.defined c key path n d declaration name).failure = none) :
    (s.defined c key path n d declaration name).Tallied view := by
  have counted := tallied_emitted records h ok
  rw [Tally.add_definition _ rfl] at counted
  exact counted

theorem tallied_referred (records : c.sink.Records view) {s : State μ ω} {key path : String}
    {n : SymbolNode} {d : DocumentNode} {name : Node} (h : s.Tallied view)
    (ok : (s.referred c key path n d name).failure = none) :
    (s.referred c key path n d name).Tallied view := by
  have counted := tallied_emitted records h ok
  rw [Tally.add_reference _ rfl] at counted
  exact counted

/-- **A step counts what it emits.** -/
theorem Step.tallied (records : c.sink.Records view) {s s' : State μ ω} (step : Step c s s')
    (h : s.Tallied view) (ok : s'.failure = none) : s'.Tallied view := by
  cases step with
  | detail step =>
      cases step with
      | asked | counted | sited | awaited | confined => exact h
      | began => exact tallied_began records h ok
      | defined => exact tallied_defined records h ok
      | attached =>
          have first := failure_none_of_emitted ok
          exact tallied_emitted records
            (show State.Tallied view (s.emitted c _) from tallied_emitted records h first) ok
      | hovered =>
          have first := failure_none_of_emitted ok
          exact tallied_emitted records
            (show State.Tallied view (s.emitted c _) from tallied_emitted records h first) ok
      | joined => exact tallied_emitted records h ok
  | growth step =>
      cases step with
      | enrolled => exact tallied_emitted records h ok
      | based | composed => exact h
  | usage step =>
      cases step with
      | marked => exact tallied_defined records h ok
      | @referred key path n d name =>
          obtain ⟨symbols, shape⟩ := State.foldl_forwarded_eq path d.id (s.lastId + 1)
            (n.forwards key) (s.referred c key path n d name)
          rw [shape] at ok ⊢
          have own : (s.referred c key path n d name).Tallied view := tallied_referred records h ok
          exact own
  | ending step =>
      cases step with
      | @symbol key n =>
          obtain ⟨added, seen, items⟩ : ∃ added,
              view (s.emittedAll c (n.items.map .item)).output = view s.output ++ added ∧
                added.map (·.body) = n.items.map .item := view_emittedAll records ok
          obtain ⟨_, _, _, shape⟩ := s.emittedAll_eq (c := c) (n.items.map .item)
          have quiet : ∀ e ∈ added, ∀ t : Tally, t.add e.body = t := by
            intro e member t
            have item : e.body ∈ n.items.map Body.item := items ▸ List.mem_map_of_mem member
            obtain ⟨i, -, body⟩ := List.mem_map.1 item
            rw [← body]
            rfl
          have unchanged : (s.emittedAll c (n.items.map .item)).stats = s.stats := by rw [shape]
          show (s.emittedAll c _).stats.tally = Graph.tally (view (s.emittedAll c _).output)
          rw [unchanged, seen, Graph.tally_append_of_quiet quiet]
          exact h
      | @document path d =>
          unfold State.documentEnded at ok ⊢
          split at ok
          · rename_i blank
            rw [if_pos blank]
            exact h
          · rename_i listed
            rw [if_neg listed]
            exact tallied_emitted records h ok
  | opened => exact tallied_began records h ok
  | turned | passed => exact h

theorem Steps.tallied (records : c.sink.Records view) {s s' : State μ ω} (steps : Steps c s s')
    (h : s.Tallied view) (ok : s'.failure = none) : s'.Tallied view := by
  induction steps with
  | refl => exact h
  | tail before last ih => exact last.tallied records (ih (last.failure_none ok)) ok

/-- **The counters of a completed run are the numbers of its stream.** -/
theorem tally_run (records : c.sink.Records view) {canceled : Cancellation Nat} {memory : μ}
    {output : ω} {stats : Stats} {s' : State μ ω} (empty : view output = [])
    (completed : Yields (run c canceled) (.start c memory output) (stats, none) s') :
    stats.tally = Graph.tally (view s'.output) := by
  obtain ⟨t, u₁, u, course, endings₁, -, -, endings₂, -, rfl, ok, rfl⟩ := phases_run completed
  have endings : Endings c t u := endings₁.trans endings₂
  have steps : Steps c _ u := course.steps.trans endings.steps
  have okU := failure_none_of_concluded ok
  have okStart := steps.failure_none okU
  have begun := filed_opened records empty okStart
  obtain ⟨filed, -, -⟩ := steps.filed records begun okU
  have opened : ((State.start c memory output).opened c).Tallied view := by
    rw [State.Tallied, view_opened records empty okStart]
    rfl
  have tallied : u.stats.tally = _ := steps.tallied records opened okU
  obtain ⟨last, stream, concluding, -⟩ :=
    view_concluded records filed.traced.project filed.sorted ok
  rw [stats_concluded, tallied, stream, Graph.tally_append_of_quiet]
  intro e member t
  obtain ⟨ids, body⟩ := concluding.joins e member
  rw [body]
  rfl

/-- The documents of a completed run have different addresses. -/
theorem uri_unique_run (records : c.sink.Records view) {canceled : Cancellation Nat} {memory : μ}
    {output : ω} {stats : Stats} {s' : State μ ω} (empty : view output = [])
    (completed : Yields (run c canceled) (.start c memory output) (stats, none) s') {id id' : Id}
    {d d' : Graph.Document} (member : ⟨id, .document d⟩ ∈ view s'.output)
    (member' : ⟨id', .document d'⟩ ∈ view s'.output) (same : d.uri = d'.uri) : id = id' := by
  obtain ⟨-, known⟩ := described_run records empty completed
  obtain ⟨path, n, document, rfl, rfl⟩ := known id d member
  obtain ⟨path', n', document', rfl, rfl⟩ := known id' d' member'
  obtain rfl : path = path' := String.append_right_inj _ |>.1 same
  rw [Option.some.inj (document.symm.trans document')]

end Session
end SymbolAtlas
