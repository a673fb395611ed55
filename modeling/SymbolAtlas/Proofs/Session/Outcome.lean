/-
# SymbolAtlas.Proofs.Session.Outcome -- how a step of a session comes out

`Yields m s a s'` says that the step `m`, begun in `s`, ends in `s'` with the
answer `a` and breaks nothing.  A step that is made of steps comes out as they do
(`yields_bind`), so a completed operation can be taken apart into what it did.

The primitives of a session are read off here once: each has an exact outcome
(`yields_emit`, `yields_ask`, `yields_lookup`), and no later proof opens them again.
`State.emitted` is the state after one more element.
-/
import SymbolAtlas.Session.Run

set_option autoImplicit false

namespace SymbolAtlas.Session

open SymbolAtlas.Graph (Id Element)

variable {μ ω α β : Type}

/-- What a step answers or breaks, and the state it leaves. -/
def outcome (m : Indexing μ ω α) (s : State μ ω) : Except Broken α × State μ ω := m.run.run s

/-- `m`, begun in `s`, ends in `s'` with the answer `a`. -/
def Yields (m : Indexing μ ω α) (s : State μ ω) (a : α) (s' : State μ ω) : Prop :=
  outcome m s = (.ok a, s')

theorem yields_of_answer {m : Indexing μ ω α} {s : State μ ω} {a : α}
    (h : (outcome m s).1.toOption = some a) : Yields m s a (outcome m s).2 := by
  unfold Yields
  generalize outcome m s = result at h ⊢
  obtain ⟨e | b, s'⟩ := result
  · simp [Except.toOption] at h
  · obtain rfl : b = a := by simpa [Except.toOption] using h
    rfl

/-- A step comes out in one way. -/
theorem Yields.unique {m : Indexing μ ω α} {s t t' : State μ ω} {a b : α} (h : Yields m s a t)
    (h' : Yields m s b t') : a = b ∧ t = t' := by
  have same := Prod.mk.inj (h.symm.trans h')
  exact ⟨Except.ok.inj same.1, same.2⟩

/-! ## Sequencing -/

@[simp] theorem outcome_pure (a : α) (s : State μ ω) :
    outcome (pure a : Indexing μ ω α) s = (.ok a, s) := rfl

@[simp] theorem outcome_throw (e : Broken) (s : State μ ω) :
    outcome (throw e : Indexing μ ω α) s = (.error e, s) := rfl

@[simp] theorem outcome_get (s : State μ ω) :
    outcome (get : Indexing μ ω (State μ ω)) s = (.ok s, s) := rfl

@[simp] theorem outcome_set (t s : State μ ω) :
    outcome (set t : Indexing μ ω PUnit) s = (.ok PUnit.unit, t) := rfl

@[simp] theorem outcome_modify (f : State μ ω → State μ ω) (s : State μ ω) :
    outcome (modify f : Indexing μ ω PUnit) s = (.ok PUnit.unit, f s) := rfl

/-- The second step begins where the first ends; a broken invariant ends both. -/
theorem outcome_bind (m : Indexing μ ω α) (f : α → Indexing μ ω β) (s : State μ ω) :
    outcome (m >>= f) s = match outcome m s with
      | (.ok a, s') => outcome (f a) s'
      | (.error e, s') => (.error e, s') := by
  show (ExceptT.bindCont f (m.run.run s).1).run (m.run.run s).2 = _
  unfold outcome
  rcases m.run.run s with ⟨_ | _, _⟩ <;> rfl

@[simp] theorem yields_pure {a b : α} {s s' : State μ ω} :
    Yields (pure a) s b s' ↔ b = a ∧ s' = s := by
  simp [Yields, eq_comm]

@[simp] theorem yields_throw {e : Broken} {a : α} {s s' : State μ ω} :
    ¬ Yields (throw e) s a s' := by
  simp [Yields]

@[simp] theorem yields_bind {m : Indexing μ ω α} {f : α → Indexing μ ω β} {b : β}
    {s s'' : State μ ω} :
    Yields (m >>= f) s b s'' ↔ ∃ a s', Yields m s a s' ∧ Yields (f a) s' b s'' := by
  unfold Yields
  rw [outcome_bind]
  rcases outcome m s with ⟨_ | a, s'⟩
  · simp
  · simp [and_assoc]

/-- Steps that come out alike, followed by steps that come out alike. -/
theorem outcome_bind_congr {m m' : Indexing μ ω α} {f f' : α → Indexing μ ω β} {s : State μ ω}
    (first : outcome m' s = outcome m s)
    (second : ∀ a t, Yields m s a t → outcome (f' a) t = outcome (f a) t) :
    outcome (m' >>= f') s = outcome (m >>= f) s := by
  rw [outcome_bind, outcome_bind, first]
  rcases h : outcome m s with ⟨e | a, t⟩
  · rfl
  · exact second a t h

@[simp] theorem yields_map {m : Indexing μ ω α} {f : α → β} {b : β} {s s' : State μ ω} :
    Yields (f <$> m) s b s' ↔ ∃ a, Yields m s a s' ∧ b = f a := by
  rw [map_eq_pure_bind, yields_bind]
  simp only [yields_pure]
  constructor
  · rintro ⟨a, _, first, rfl, rfl⟩
    exact ⟨a, first, rfl⟩
  · rintro ⟨a, first, rfl⟩
    exact ⟨a, _, first, rfl, rfl⟩

@[simp] theorem yields_get {s t s' : State μ ω} :
    Yields (get : Indexing μ ω (State μ ω)) s t s' ↔ t = s ∧ s' = s := by
  simp [Yields, eq_comm]

/-- Reading the state and going on is going on with it. -/
theorem yields_get_bind {f : State μ ω → Indexing μ ω β} {b : β} {s s' : State μ ω} :
    Yields (get >>= f) s b s' ↔ Yields (f s) s b s' := by
  simp only [yields_bind, yields_get, and_assoc, exists_and_left, exists_eq_left]

@[simp] theorem yields_set {t s s' : State μ ω} {u : PUnit} :
    Yields (set t : Indexing μ ω PUnit) s u s' ↔ s' = t := by
  simp [Yields, eq_comm]

@[simp] theorem yields_modify {f : State μ ω → State μ ω} {s s' : State μ ω} {u : PUnit} :
    Yields (modify f : Indexing μ ω PUnit) s u s' ↔ s' = f s := by
  simp [Yields, eq_comm]

theorem yields_ite {p : Prop} [Decidable p] {m m' : Indexing μ ω α} {s s' : State μ ω} {a : α} :
    Yields (if p then m else m') s a s' ↔ (p ∧ Yields m s a s') ∨ (¬ p ∧ Yields m' s a s') := by
  by_cases h : p <;> simp [h]

/-- A loop over a list takes its elements one after the other. -/
theorem yields_forIn_cons {ι : Type} {x : ι} {xs : List ι} {f : ι → Indexing μ ω PUnit}
    {s s'' : State μ ω} {u : PUnit} :
    Yields (forIn (x :: xs) PUnit.unit fun y _ => do f y; pure (ForInStep.yield PUnit.unit))
        s u s'' ↔
      ∃ s', Yields (f x) s PUnit.unit s' ∧
        Yields (forIn xs PUnit.unit fun y _ => do f y; pure (ForInStep.yield PUnit.unit))
          s' u s'' := by
  simp only [List.forIn_cons, yields_bind, yields_pure]
  constructor
  · rintro ⟨_, s', ⟨_, _, first, rfl, rfl⟩, rest⟩
    exact ⟨_, first, rest⟩
  · rintro ⟨s', first, rest⟩
    exact ⟨_, s', ⟨_, s', first, rfl, rfl⟩, rest⟩

/-! ## Primitives -/

/-- What becomes of the sink when an element is handed on. -/
def deliver (c : Context μ ω) (e : Element) (output : ω) : Option String → ω × Option String
  | some reason => (output, some reason)
  | none =>
      match c.sink e output with
      | .ok output => (output, none)
      | .error reason => (output, some reason)

/-- The state after one more element. -/
def State.emitted (c : Context μ ω) (s : State μ ω) (body : Graph.Body) : State μ ω :=
  { s with
    lastId := s.lastId + 1
    output := (deliver c ⟨s.lastId + 1, body⟩ s.output s.failure).1
    failure := (deliver c ⟨s.lastId + 1, body⟩ s.output s.failure).2 }

@[simp] theorem yields_emit {c : Context μ ω} {body : Graph.Body} {s s' : State μ ω} {id : Id} :
    Yields (emit c body) s id s' ↔ id = s.lastId + 1 ∧ s' = s.emitted c body := by
  unfold emit State.emitted deliver
  rw [yields_get_bind]
  cases failed : s.failure with
  | some reason => simp [and_comm]
  | none => cases answer : c.sink ⟨s.lastId + 1, body⟩ s.output <;> simp [answer, and_comm]

@[simp] theorem outcome_ask (question : StateM μ α) (s : State μ ω) :
    outcome (ask question : Indexing μ ω α) s =
      (.ok (question s.memory).1, { s with memory := (question s.memory).2 }) := rfl

@[simp] theorem yields_ask {question : StateM μ α} {s s' : State μ ω} {a : α} :
    Yields (ask question : Indexing μ ω α) s a s' ↔
      a = (question s.memory).1 ∧ s' = { s with memory := (question s.memory).2 } := by
  simp [Yields, eq_comm]

@[simp] theorem outcome_nodeOf (c : Context μ ω) (id : NodeId) (s : State μ ω) :
    outcome (nodeOf c id) s = (.ok (c.oracle.node id s.memory), s) := rfl

@[simp] theorem yields_nodeOf {c : Context μ ω} {id : NodeId} {s s' : State μ ω} {n : Node} :
    Yields (nodeOf c id) s n s' ↔ n = c.oracle.node id s.memory ∧ s' = s := by
  simp [Yields, eq_comm]

theorem yields_mapM_nodeOf {c : Context μ ω} {ids : List NodeId} {s s' : State μ ω}
    {ns : List Node} :
    Yields (ids.mapM (nodeOf c)) s ns s' ↔
      ns = ids.map (c.oracle.node · s.memory) ∧ s' = s := by
  induction ids generalizing ns s' with
  | nil => simp
  | cons id ids ih =>
      simp only [List.mapM_cons, yields_bind, yields_nodeOf, yields_pure, List.map_cons]
      constructor
      · rintro ⟨_, _, ⟨rfl, rfl⟩, _, _, rest, rfl, rfl⟩
        obtain ⟨rfl, rfl⟩ := ih.1 rest
        exact ⟨rfl, rfl⟩
      · rintro ⟨rfl, rfl⟩
        exact ⟨_, _, ⟨rfl, rfl⟩, _, _, ih.2 ⟨rfl, rfl⟩, rfl, rfl⟩

@[simp] theorem yields_count {f : Stats → Stats} {s s' : State μ ω} {u : Unit} :
    Yields (count f : Indexing μ ω Unit) s u s' ↔ s' = { s with stats := f s.stats } := by
  simp [count]

@[simp] theorem outcome_lookup (key : String) (s : State μ ω) :
    outcome (lookup key) s = (.ok ((s.symbols.get? key).getD default), s) := rfl

@[simp] theorem yields_lookup {key : String} {s s' : State μ ω} {n : SymbolNode} :
    Yields (lookup key) s n s' ↔ n = (s.symbols.get? key).getD default ∧ s' = s := by
  simp [Yields, eq_comm]

@[simp] theorem yields_modifySymbol {key : String} {f : SymbolNode → SymbolNode}
    {s s' : State μ ω} {u : Unit} :
    Yields (modifySymbol key f : Indexing μ ω Unit) s u s' ↔
      s' = { s with symbols := s.symbols.modify key f } := by
  simp [modifySymbol]

@[simp] theorem outcome_documentId (path : String) (s : State μ ω) :
    outcome (documentId path) s = (.ok (((s.documents.get? path).map (·.id)).getD 0), s) := rfl

@[simp] theorem yields_documentId {path : String} {s s' : State μ ω} {id : Id} :
    Yields (documentId path) s id s' ↔
      id = ((s.documents.get? path).map (·.id)).getD 0 ∧ s' = s := by
  simp [Yields, eq_comm]

@[simp] theorem yields_requireOpen {key : String} {addition : Addition} {s s' : State μ ω}
    {u : Unit} :
    Yields (requireOpen key addition) s u s' ↔
      ((s.symbols.get? key).getD default).ended = false ∧ s' = s := by
  simp only [requireOpen, yields_bind, yields_lookup]
  constructor
  · rintro ⟨_, _, ⟨rfl, rfl⟩, rest⟩
    split at rest <;> simp_all
  · rintro ⟨open_, rfl⟩
    exact ⟨_, _, ⟨rfl, rfl⟩, by simp [open_]⟩

/-- The node whose span marks a declaration. -/
def markIn (c : Context μ ω) (memory : μ) (declaration : Node) : Node :=
  (declaration.nameNode.map (c.oracle.node · memory)).getD declaration

@[simp] theorem yields_markOf {c : Context μ ω} {declaration n : Node} {s s' : State μ ω} :
    Yields (markOf c declaration) s n s' ↔ n = markIn c s.memory declaration ∧ s' = s := by
  unfold markOf markIn
  cases declaration.nameNode <;> simp

/-! ## Primitives followed by more

A primitive has one outcome, so what follows it goes on from there.  With these equations
a straight piece of an operation is carried out by `simp only`. -/

/-- What follows a step with one outcome goes on from that outcome. -/
theorem yields_bind_of_iff {m : Indexing μ ω α} {f : α → Indexing μ ω β} {b : β}
    {s t s' : State μ ω} {a : α} (only : ∀ a' t', Yields m s a' t' ↔ a' = a ∧ t' = t) :
    Yields (m >>= f) s b s' ↔ Yields (f a) t b s' := by
  simp only [yields_bind, only, and_assoc, exists_and_left, exists_eq_left]

section Bind

variable {c : Context μ ω} {b : β} {s s' : State μ ω}

theorem yields_modify_bind {g : State μ ω → State μ ω} {f : PUnit → Indexing μ ω β} :
    Yields (modify g >>= f) s b s' ↔ Yields (f ⟨⟩) (g s) b s' :=
  yields_bind_of_iff fun _ _ => by simp

theorem yields_emit_bind {body : Graph.Body} {f : Id → Indexing μ ω β} :
    Yields (emit c body >>= f) s b s' ↔ Yields (f (s.lastId + 1)) (s.emitted c body) b s' :=
  yields_bind_of_iff fun _ _ => yields_emit

theorem yields_ask_bind {question : StateM μ α} {f : α → Indexing μ ω β} :
    Yields (ask question >>= f) s b s' ↔
      Yields (f (question s.memory).1) { s with memory := (question s.memory).2 } b s' :=
  yields_bind_of_iff fun _ _ => yields_ask

theorem yields_nodeOf_bind {id : NodeId} {f : Node → Indexing μ ω β} :
    Yields (nodeOf c id >>= f) s b s' ↔ Yields (f (c.oracle.node id s.memory)) s b s' :=
  yields_bind_of_iff fun _ _ => yields_nodeOf

theorem yields_nodesOf_bind {ids : List NodeId} {f : List Node → Indexing μ ω β} :
    Yields (ids.mapM (nodeOf c) >>= f) s b s' ↔
      Yields (f (ids.map (c.oracle.node · s.memory))) s b s' :=
  yields_bind_of_iff fun _ _ => yields_mapM_nodeOf

theorem yields_count_bind {g : Stats → Stats} {f : Unit → Indexing μ ω β} :
    Yields (count g >>= f) s b s' ↔ Yields (f ()) { s with stats := g s.stats } b s' :=
  yields_bind_of_iff fun _ _ => by simp

theorem yields_lookup_bind {key : String} {f : SymbolNode → Indexing μ ω β} :
    Yields (lookup key >>= f) s b s' ↔ Yields (f ((s.symbols.get? key).getD default)) s b s' :=
  yields_bind_of_iff fun _ _ => yields_lookup

theorem yields_modifySymbol_bind {key : String} {g : SymbolNode → SymbolNode}
    {f : Unit → Indexing μ ω β} :
    Yields (modifySymbol key g >>= f) s b s' ↔
      Yields (f ()) { s with symbols := s.symbols.modify key g } b s' :=
  yields_bind_of_iff fun _ _ => by simp

theorem yields_documentId_bind {path : String} {f : Id → Indexing μ ω β} :
    Yields (documentId path >>= f) s b s' ↔
      Yields (f (((s.documents.get? path).map (·.id)).getD 0)) s b s' :=
  yields_bind_of_iff fun _ _ => yields_documentId

theorem yields_markOf_bind {declaration : Node} {f : Node → Indexing μ ω β} :
    Yields (markOf c declaration >>= f) s b s' ↔
      Yields (f (markIn c s.memory declaration)) s b s' :=
  yields_bind_of_iff fun _ _ => yields_markOf

theorem yields_requireOpen_bind {key : String} {addition : Addition}
    {f : Unit → Indexing μ ω β} :
    Yields (requireOpen key addition >>= f) s b s' ↔
      ((s.symbols.get? key).getD default).ended = false ∧ Yields (f ()) s b s' := by
  simp only [yields_bind, yields_requireOpen]
  constructor
  · rintro ⟨_, _, ⟨open_, rfl⟩, rest⟩
    exact ⟨open_, rest⟩
  · rintro ⟨open_, rest⟩
    exact ⟨_, _, ⟨open_, rfl⟩, rest⟩

end Bind

end SymbolAtlas.Session
