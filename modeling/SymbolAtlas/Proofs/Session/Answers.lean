/-
# SymbolAtlas.Proofs.Session.Answers -- operations that come out with an answer

An operation breaks an invariant of a session only where it adds to a symbol or to a document
that is ended, or where it climbs containers that have no end.  `Answers m s` says that `m`,
begun in `s`, comes out with an answer, and `Total m` that it does so from every state; each
operation answers where what it adds to is open.  `Safe E m s` says that `m` breaks nothing but
what `E` allows: a symbol is named and confined safely if `E` allows it to give up, unless
containers come to an end.  A visit changes nothing that is ended and nothing that is open
(`Visit.endedAt`), so the symbols of a visit are as open as they were before it.
-/
import SymbolAtlas.Proofs.Session.Containers
import SymbolAtlas.Proofs.Session.Visits

set_option autoImplicit false

namespace SymbolAtlas.Session

open SymbolAtlas.Graph (Id)

variable {μ ω α β : Type} {c : Context μ ω}

/-! ## Steps that answer -/

/-- The step, begun in `s`, comes out with an answer. -/
def Answers (m : Indexing μ ω α) (s : State μ ω) : Prop := ∃ a s', Yields m s a s'

theorem Answers.bind {m : Indexing μ ω α} {f : α → Indexing μ ω β} {s : State μ ω}
    (first : Answers m s) (second : ∀ a t, Yields m s a t → Answers (f a) t) :
    Answers (m >>= f) s := by
  obtain ⟨a, t, here⟩ := first
  obtain ⟨b, t', there⟩ := second a t here
  exact ⟨b, t', yields_bind.2 ⟨a, t, here, there⟩⟩

/-- A step that answers from every state. -/
def Total (m : Indexing μ ω α) : Prop := ∀ s, Answers m s

theorem Total.pure (a : α) : Total (pure a : Indexing μ ω α) :=
  fun s => ⟨a, s, yields_pure.2 ⟨rfl, rfl⟩⟩

theorem Total.bind {m : Indexing μ ω α} {f : α → Indexing μ ω β} (first : Total m)
    (second : ∀ a, Total (f a)) : Total (m >>= f) :=
  fun s => (first s).bind fun a t _ => second a t

theorem Total.get : Total (get : Indexing μ ω (State μ ω)) :=
  fun s => ⟨s, s, yields_get.2 ⟨rfl, rfl⟩⟩

theorem Total.set (t : State μ ω) : Total (set t : Indexing μ ω PUnit) :=
  fun _ => ⟨⟨⟩, t, yields_set.2 rfl⟩

theorem Total.modify (f : State μ ω → State μ ω) : Total (modify f : Indexing μ ω PUnit) :=
  fun s => ⟨⟨⟩, f s, yields_modify.2 rfl⟩

theorem Total.ask (question : StateM μ α) : Total (ask question : Indexing μ ω α) :=
  fun _ => ⟨_, _, yields_ask.2 ⟨rfl, rfl⟩⟩

theorem Total.nodeOf (id : NodeId) : Total (nodeOf c id) :=
  fun s => ⟨_, s, yields_nodeOf.2 ⟨rfl, rfl⟩⟩

theorem Total.nodesOf (ids : List NodeId) : Total (ids.mapM (Session.nodeOf c)) :=
  fun s => ⟨_, s, yields_mapM_nodeOf.2 ⟨rfl, rfl⟩⟩

theorem Total.emit (body : Graph.Body) : Total (emit c body) :=
  fun _ => ⟨_, _, yields_emit.2 ⟨rfl, rfl⟩⟩

theorem Total.lookup (key : String) : Total (lookup key : Indexing μ ω SymbolNode) :=
  fun s => ⟨_, s, yields_lookup.2 ⟨rfl, rfl⟩⟩

theorem Total.markOf (declaration : Node) : Total (markOf c declaration) :=
  fun s => ⟨_, s, yields_markOf.2 ⟨rfl, rfl⟩⟩

theorem Total.isDefinition (key : String) (name : Node) : Total (isDefinition c key name) :=
  fun s => ⟨_, s, yields_isDefinition.2 ⟨rfl, rfl⟩⟩

theorem Total.document (path : String) : Total (document c path) := by
  intro s
  cases present : s.documents.get? path with
  | some d => exact ⟨d, s, (yields_document_of_present present).2 ⟨rfl, rfl⟩⟩
  | none => exact ⟨_, _, (yields_document_of_absent present).2 ⟨rfl, rfl⟩⟩

theorem Total.forward (key path : String) (document id : Id) :
    Total (forward key path document id : Indexing μ ω Unit) :=
  fun _ => ⟨(), _, yields_forward.2 rfl⟩

theorem Total.forIn {ι : Type} {xs : List ι} {f : ι → Indexing μ ω (ForInStep PUnit)}
    (each : ∀ x, Total (f x)) : Total (forIn xs PUnit.unit fun x _ => f x) := by
  induction xs with
  | nil => exact .pure _
  | cons x xs ih =>
      rw [List.forIn_cons]
      refine .bind (each x) fun step => ?_
      cases step with
      | done u => exact .pure _
      | yield u => exact ih

theorem Total.attachHover (key : String) : Total (attachHover c key) := by
  refine .bind (.lookup key) fun n => ?_
  split
  · exact .pure _
  · refine .bind (.nodesOf _) fun declarations => ?_
    split
    · exact .pure _
    · refine .bind (.ask _) fun answer => ?_
      split
      · exact .pure _
      · split
        · exact .pure _
        · exact .bind (.emit _) fun _ => .bind (.emit _) fun _ => .pure _

/-- A symbol that is open is ended, one that is ended is passed over. -/
theorem Total.endOpenSymbol (key : String) : Total (endOpenSymbol c key) := by
  intro s
  refine (Total.get s).bind fun _ t read => ?_
  obtain ⟨rfl, rfl⟩ := yields_get.1 read
  cases node : t.symbols.get? key with
  | none => exact Total.pure _ _
  | some n =>
      cases ended : n.ended with
      | true =>
          simp only [ended, if_true]
          exact Total.pure _ _
      | false =>
          simp only [ended, Bool.false_eq_true, if_false]
          refine (Total.get t).bind fun _ t read => ?_
          obtain ⟨rfl, rfl⟩ := yields_get.1 read
          simp only [node, ended, Bool.false_eq_true, if_false]
          exact Total.bind (.forIn fun _ => .bind (.emit _) fun _ => .pure _)
            (fun _ => .modify _) t

/-! ## Steps that break nothing but what is allowed -/

/-- The step, begun in `s`, breaks nothing but what `E` allows. -/
def Safe (E : Broken → Prop) (m : Indexing μ ω α) (s : State μ ω) : Prop :=
  ∀ e s', outcome m s = (.error e, s') → E e

variable {E : Broken → Prop}

theorem Answers.safe {m : Indexing μ ω α} {s : State μ ω} (h : Answers m s) : Safe E m s := by
  obtain ⟨a, t, answer⟩ := h
  intro e s' broken
  rw [answer] at broken
  simp at broken

theorem Total.safe {m : Indexing μ ω α} (h : Total m) (s : State μ ω) : Safe E m s := (h s).safe

theorem safe_throw {e : Broken} {s : State μ ω} (allowed : E e) :
    Safe E (throw e : Indexing μ ω α) s := by
  intro e' s' broken
  rw [outcome_throw] at broken
  exact Except.error.inj (Prod.mk.inj broken).1 ▸ allowed

theorem Safe.bind {m : Indexing μ ω α} {f : α → Indexing μ ω β} {s : State μ ω}
    (first : Safe E m s) (second : ∀ a t, Yields m s a t → Safe E (f a) t) :
    Safe E (m >>= f) s := by
  intro e s' broken
  rw [outcome_bind] at broken
  rcases here : outcome m s with ⟨e' | a, t⟩
  · rw [here] at broken
    obtain rfl := Except.error.inj (Prod.mk.inj broken).1
    exact first _ _ here
  · rw [here] at broken
    exact second a t here e s' broken

theorem Safe.forIn {ι : Type} {xs : List ι} {f : ι → Indexing μ ω (ForInStep PUnit)}
    (each : ∀ x s, Safe E (f x) s) (s : State μ ω) :
    Safe E (forIn xs PUnit.unit fun x _ => f x) s := by
  induction xs generalizing s with
  | nil => exact (Total.pure _).safe s
  | cons x xs ih =>
      rw [List.forIn_cons]
      refine (each x s).bind fun step t _ => ?_
      cases step with
      | done u => exact (Total.pure _).safe t
      | yield u => exact ih t

theorem safe_nameSymbol (endless : ¬ c.oracle.Acyclic → ∀ key, E (.endless key)) (key : String)
    (declarations : List NodeId) (s : State μ ω) : Safe E (nameSymbol c key declarations) s := by
  refine (Total.get.safe s).bind fun _ t read => ?_
  obtain ⟨rfl, rfl⟩ := yields_get.1 read
  rcases called : t.namer.nameFirst? c.oracle declarations t.memory with ⟨e | answer, memory⟩
  · refine ((Total.set _).safe t).bind fun _ t' _ => safe_throw (endless (fun acyclic => ?_) key)
    obtain ⟨answer, m', named⟩ := acyclic.names declarations t.namer t.memory
    rw [called] at named
    cases (Prod.mk.inj named).1
  · exact Total.safe (.bind (.set _) fun _ => .pure _) t

theorem safe_confine (endless : ¬ c.oracle.Acyclic → ∀ key, E (.endless key)) (key : String)
    (s : State μ ω) : Safe E (confine c key) s := by
  refine ((Total.lookup key).safe s).bind fun n t _ => ?_
  refine ((Total.nodesOf _).safe t).bind fun declarations t _ => ?_
  cases declarations with
  | nil => exact (Total.pure _).safe t
  | cons first rest =>
      refine (Total.get.safe t).bind fun _ t read => ?_
      obtain ⟨rfl, rfl⟩ := yields_get.1 read
      split
      · split
        · rename_i unknown
          refine safe_throw (endless (fun acyclic => ?_) key)
          have known : (areConfined? c t.memory first.file (first :: rest)).isSome = true :=
            isSome_areConfined? acyclic first.file (first :: rest)
          rw [unknown] at known
          cases known
        · exact (Total.pure _).safe t
        · split
          · exact (Total.set _).safe t
          · split
            · exact (Total.pure _).safe t
            · exact (Total.set _).safe t
      · exact (Total.pure _).safe t

theorem safe_enroll (endless : ¬ c.oracle.Acyclic → ∀ key, E (.endless key)) (sym : Symbol)
    (use : Option NodeId) (s : State μ ω) : Safe E (enroll c sym use) s := by
  refine ((Total.ask _).safe s).bind fun variant t _ => ?_
  refine ((Total.modify _).safe t).bind fun _ t _ => ?_
  refine ((Total.ask _).safe t).bind fun declarations t _ => ?_
  refine ((Total.modify _).safe t).bind fun _ t _ => ?_
  refine (safe_nameSymbol endless sym.key declarations t).bind fun name t _ => ?_
  exact Total.safe (.bind (.emit _) fun _ => .bind (.modify _) fun _ => .bind (.modify _) fun _ =>
    .pure _) t

/-! ## What is open stays open -/

/-- Whether the symbol of a key is ended; one without a node is not. -/
def State.endedAt (s : State μ ω) (key : String) : Bool :=
  ((s.symbols.get? key).getD default).ended

theorem endedAt_modify {s s' : State μ ω} {key : String} {f : SymbolNode → SymbolNode}
    (changed : s'.symbols = s.symbols.modify key f) (same : ∀ n, (f n).ended = n.ended) :
    s'.endedAt = s.endedAt := by
  funext other
  unfold State.endedAt
  rw [changed, Table.get?_modify]
  split
  · cases s.symbols.get? other with
    | none => rfl
    | some n => exact same n
  · rfl

theorem Detail.endedAt {s s' : State μ ω} (h : Detail c s s') : s'.endedAt = s.endedAt := by
  cases h with
  | asked | counted | began | hovered | joined | awaited | confined => rfl
  | sited => exact endedAt_modify rfl fun _ => rfl
  | defined => exact endedAt_modify rfl fun _ => rfl
  | attached => exact endedAt_modify rfl fun _ => rfl

theorem Growth.endedAt {s s' : State μ ω} (h : Growth c s s') : s'.endedAt = s.endedAt := by
  cases h with
  | enrolled fresh =>
      funext key
      unfold State.endedAt
      rw [get?_enrolled]
      split
      · rename_i own
        rw [← own, fresh]
        rfl
      · rfl
  | based => exact endedAt_modify rfl fun _ => rfl
  | composed => exact endedAt_modify rfl fun _ => rfl

theorem Moves.endedAt {s s' : State μ ω} (h : Moves c s s') : s'.endedAt = s.endedAt := by
  induction h with
  | refl => rfl
  | tail _ last ih =>
      cases last with
      | detail h => exact h.endedAt.trans ih
      | growth h => exact h.endedAt.trans ih

theorem endedAt_foldl_forwarded (path : String) (document id : Id) (keys : List String)
    (s : State μ ω) :
    (keys.foldl (State.forwarded path document id) s).endedAt = s.endedAt :=
  same_foldl_forwarded (fun _ _ => endedAt_modify rfl fun _ => rfl) keys s

theorem Usage.endedAt {s s' : State μ ω} (h : Usage c s s') : s'.endedAt = s.endedAt := by
  cases h with
  | marked => exact endedAt_modify rfl fun _ => rfl
  | referred =>
      rw [endedAt_foldl_forwarded]
      exact endedAt_modify rfl fun _ => rfl

/-- A visit ends no symbol and opens none. -/
theorem Visit.endedAt {s s' : State μ ω} {subject : Option Symbol} (h : Visit c s s' subject) :
    s'.endedAt = s.endedAt := by
  cases subject with
  | none =>
      obtain ⟨t, details, rfl | rfl⟩ := h
      · exact details.moves.endedAt
      · exact details.moves.endedAt
  | some sym =>
      obtain ⟨t, r, details | usage⟩ := h
      · exact details.moves.endedAt.trans r.moves.endedAt
      · exact usage.endedAt.trans r.moves.endedAt

/-! ## Operations on what is open -/

theorem answers_requireOpen {key : String} {addition : Addition} {s : State μ ω}
    (open_ : s.endedAt key = false) : Answers (requireOpen key addition) s :=
  ⟨(), s, yields_requireOpen.2 ⟨open_, rfl⟩⟩

theorem answers_addRange {path : String} {range : Graph.Range} {s : State μ ω} {d : DocumentNode}
    (document : s.documents.get? path = some d) (writable : d.ended = false) :
    Answers (addRange c path range) s := by
  refine (Total.document path s).bind fun d' t here => ?_
  obtain ⟨rfl, rfl⟩ := (yields_document_of_present document).1 here
  rw [writable]
  exact Total.bind (.emit _) (fun _ => .bind (.modify _) fun _ => .pure _) t

theorem answers_recordDefinition {key path : String} {declaration : Node} {s : State μ ω}
    {d : DocumentNode} (open_ : s.endedAt key = false)
    (document : s.documents.get? path = some d) (writable : d.ended = false) :
    Answers (recordDefinition c key path declaration) s := by
  refine (answers_requireOpen open_).bind fun _ t required => ?_
  obtain ⟨-, rfl⟩ := yields_requireOpen.1 required
  refine (Total.markOf declaration t).bind fun name t marked => ?_
  obtain ⟨-, rfl⟩ := yields_markOf.1 marked
  refine (Total.lookup key t).bind fun n t found => ?_
  obtain ⟨-, rfl⟩ := yields_lookup.1 found
  split
  · exact Total.pure _ t
  · refine (Total.modify _ t).bind fun _ t' recorded => ?_
    obtain rfl := yields_modify.1 recorded
    refine (answers_addRange (by exact document) writable).bind fun _ t' _ => ?_
    exact Total.bind (.bind .get fun _ => .pure _) (fun _ => .bind (.modify _) fun _ =>
      .modify _) t'

/-- A definition in a file that is never visited is recorded while its document is open. -/
theorem answers_recordEarly {key : String} {declaration : Node} {s : State μ ω}
    (open_ : s.endedAt key = false) : Answers (recordEarly c key declaration) s := by
  refine (Total.get s).bind fun _ t read => ?_
  obtain ⟨rfl, rfl⟩ := yields_get.1 read
  split
  · exact Total.pure _ t
  refine (Total.document declaration.file t).bind fun d t' here => ?_
  have ready : t'.endedAt = t.endedAt ∧ t'.documents.get? declaration.file = some d := by
    cases present : t.documents.get? declaration.file with
    | some d' =>
        obtain ⟨rfl, rfl⟩ := (yields_document_of_present present).1 here
        exact ⟨rfl, present⟩
    | none =>
        obtain ⟨rfl, rfl⟩ := (yields_document_of_absent present).1 here
        exact ⟨rfl, get?_began t _⟩
  cases ended : d.ended with
  | true => exact Total.pure _ t'
  | false =>
      refine answers_recordDefinition ?_ ready.2 ended
      rw [ready.1]
      exact open_

theorem answers_attachMoniker {key : String} {m : Moniker} {s : State μ ω}
    (open_ : s.endedAt key = false) : Answers (attachMoniker c key m) s := by
  refine (answers_requireOpen open_).bind fun _ t _ => Total.bind (.lookup key) (fun n => ?_) t
  split
  · exact .pure _
  · exact .bind (.emit _) fun _ => .bind (.emit _) fun _ => .bind (.modify _) fun _ => .modify _

theorem answers_attachExported {key : String} {n : SymbolNode} {s : State μ ω}
    (open_ : s.endedAt key = false) : Answers (attachExported c key n) s := by
  unfold attachExported
  split
  · exact Total.pure _ s
  refine (Total.ask _ s).bind fun segments t asked => ?_
  obtain ⟨-, rfl⟩ := yields_ask.1 asked
  split
  · exact Total.pure _ _
  refine (Total.nodesOf _ _).bind fun declarations t found => ?_
  obtain ⟨-, rfl⟩ := yields_mapM_nodeOf.1 found
  split
  · exact Total.pure _ _
  · exact answers_attachMoniker open_

theorem answers_attachPrimary {key : String} {s : State μ ω} (open_ : s.endedAt key = false) :
    Answers (attachPrimary c key) s := by
  refine (Total.lookup key s).bind fun n t found => ?_
  obtain ⟨-, rfl⟩ := yields_lookup.1 found
  split
  · exact answers_attachExported open_
  · exact answers_attachExported open_
  · exact Total.pure _ t

/-- The last part of `establish` answers for a node that is open. -/
theorem answers_forIn_declarations {key : String} {declarations : List NodeId} {s : State μ ω}
    {n : SymbolNode} (node : s.symbols.get? key = some n) (chosen : declarations ⊆ n.declarations)
    (open_ : s.endedAt key = false) :
    Answers (forIn declarations PUnit.unit fun id _ => do
      let declaration ← nodeOf c id
      let mark ← markOf c declaration
      modifySymbol key fun n => { n with sites := n.sites.insert (Site.ofNode mark) id }
      recordEarly c key declaration
      pure (ForInStep.yield PUnit.unit)) s := by
  induction declarations generalizing s n with
  | nil => exact Total.pure _ s
  | cons id declarations ih =>
      rw [List.forIn_cons]
      have own : id ∈ n.declarations := chosen List.mem_cons_self
      have sited : Detail c s _ := .sited node own
      obtain ⟨n₁, node₁, same₁⟩ := node_of_core sited.core node
      have open₁ := (congrFun sited.endedAt key).trans open_
      have answers : Answers (recordEarly c key (c.oracle.node id s.memory)) _ :=
        answers_recordEarly open₁
      obtain ⟨u, t, recorded⟩ := answers
      have early : Details c s t := .head sited
        (yields_recordEarly node₁ (by rwa [declarations_of_core same₁]) recorded).1
      obtain ⟨n₂, node₂, same₂⟩ := node_of_core early.core node
      refine Answers.bind ⟨ForInStep.yield PUnit.unit, t, ?_⟩ fun step t' first => ?_
      · simp only [yields_nodeOf_bind, yields_markOf_bind, yields_modifySymbol_bind]
        exact yields_bind.2 ⟨u, t, recorded, yields_pure.2 ⟨rfl, rfl⟩⟩
      · simp only [yields_nodeOf_bind, yields_markOf_bind, yields_modifySymbol_bind] at first
        obtain ⟨_, _, recorded', first⟩ := yields_bind.1 first
        obtain ⟨rfl, rfl⟩ := yields_pure.1 first
        obtain ⟨-, rfl⟩ := recorded.unique recorded'
        refine ih node₂ (fun other member => ?_) ((congrFun early.moves.endedAt key).trans open_)
        rw [declarations_of_core same₂]
        exact chosen (List.mem_cons_of_mem _ member)

/-- A symbol whose key was reserved is established. -/
theorem safe_establish (endless : ¬ c.oracle.Acyclic → ∀ key, E (.endless key)) {sym : Symbol}
    {use : Option NodeId} {s : State μ ω} :
    Safe E (establish c sym use)
      { s with symbols := s.symbols.insert sym.key { symbol := sym } } := by
  refine (safe_enroll endless sym use _).bind fun answer t enrolled => ?_
  obtain ⟨v, declarations⟩ := answer
  obtain ⟨name, namer, _, _, memory, -, -, -, shape⟩ := yields_enroll enrolled
  have node : t.symbols.get? sym.key =
      some (nodeOfSymbol sym v declarations name (s.lastId + 1)) := by
    rw [shape, get?_enrolled, if_pos rfl]
  have open_ : t.endedAt sym.key = false := by
    unfold State.endedAt
    rw [node]
    rfl
  refine (answers_attachPrimary open_).safe.bind fun _ t₁ primary => ?_
  have details₁ := details_attachPrimary node primary
  obtain ⟨n₁, node₁, same₁⟩ := node_of_core details₁.core node
  refine ((Total.attachHover sym.key).safe t₁).bind fun _ t₂ hover => ?_
  have details₂ : Details c t t₂ := details₁.trans (details_attachHover node₁ hover)
  obtain ⟨n₂, node₂, same₂⟩ := node_of_core details₂.core node
  have chosen : declarations ⊆ n₂.declarations := by
    rw [declarations_of_core same₂]
    exact List.Subset.refl _
  refine (answers_forIn_declarations node₂ chosen ?_).safe.bind fun _ t₃ _ =>
    (Total.pure _).safe t₃
  exact (congrFun details₂.moves.endedAt _).trans open_

/-- A name that is a definition has a declaration. -/
theorem answers_markDefinition {key path : String} {name : Node} {s : State μ ω}
    {n : SymbolNode} {d : DocumentNode} (node : s.symbols.get? key = some n)
    (open_ : n.ended = false) (document : s.documents.get? path = some d)
    (writable : d.ended = false)
    (definition : (n.sites.contains (Site.ofNode name) ||
      c.oracle.isDefinitionSite s.memory name) = true) :
    Answers (markDefinition c key path name) s := by
  have openAt : s.endedAt key = false := by rwa [State.endedAt, node]
  refine (Total.lookup key s).bind fun n' t found => ?_
  obtain ⟨rfl, rfl⟩ := yields_lookup.1 found
  simp only [node, Option.getD_some]
  split
  · refine (Total.nodeOf _ t).bind fun declaration t' read => ?_
    obtain ⟨-, rfl⟩ := yields_nodeOf.1 read
    exact answers_recordDefinition openAt document writable
  · rename_i none
    obtain ⟨unsited, orphan⟩ := Option.or_eq_none_iff.1 none
    simp [Table.contains, unsited, Oracle.isDefinitionSite, orphan] at definition

theorem answers_addReference {key path : String} {name : Node} {s : State μ ω}
    {d : DocumentNode} (open_ : s.endedAt key = false)
    (document : s.documents.get? path = some d) (writable : d.ended = false) :
    Answers (addReference c key path name) s := by
  refine (answers_requireOpen open_).bind fun _ t required => ?_
  obtain ⟨-, rfl⟩ := yields_requireOpen.1 required
  refine (Total.lookup key t).bind fun n t found => ?_
  obtain ⟨-, rfl⟩ := yields_lookup.1 found
  refine (answers_addRange document writable).bind fun id t' _ => ?_
  refine Total.bind (.bind .get fun _ => .pure _) (fun document => .bind (.modify _) fun _ =>
    .bind (.modify _) fun _ => .bind (.forIn fun base => ?_) fun _ =>
      .bind (.forIn fun member => ?_) fun _ => .pure _) t'
  · exact .bind (.forward _ _ _ _) fun _ => .pure _
  · split
    · exact .pure _
    · exact .bind (.forward _ _ _ _) fun _ => .pure _

end SymbolAtlas.Session
