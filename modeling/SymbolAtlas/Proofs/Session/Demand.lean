/-
# SymbolAtlas.Proofs.Session.Demand -- the nodes that a run needs

A completed run gives a node to the symbols that it comes upon and to those that they
lead to, and to no others (`run_demand`).  What a run comes upon is read off its schedule:
`Demanded` goes through the moments, each with the memory that the oracle has by then.
What a node leads to are its links, the target of an alias and the bases of a member.

An oracle that keeps a log (`Oracle.Logs`) tells which aliases it was asked to resolve.
`State.Informed` ties the log to the nodes: a question is asked where a node is made, so
it is asked once for each node of an alias.
-/
import SymbolAtlas.Proofs.Session.Occurrences
import SymbolAtlas.Proofs.Session.Questions
import SymbolAtlas.Proofs.Session.Termination

set_option autoImplicit false

namespace SymbolAtlas

/-! ## Oracles with a log -/

/-- The memory of the oracle tells, through `log`, which aliases it was asked to resolve. -/
structure Oracle.Logs {μ : Type} (o : Oracle μ) (log : μ → List String) : Prop where
  quiet : ∀ {m m' : μ}, o.Quiet m m' → log m' = log m
  resolveAlias : ∀ sym m, log (o.resolveAlias sym m).2 = log m ++ [sym.key]

section Logs

variable {μ : Type} {o : Oracle μ} {log : μ → List String}

theorem Oracle.Logs.hushed (h : o.Logs log) {m m' : μ} (hushed : o.Hushed m m') :
    log m' = log m := by
  induction hushed with
  | refl => rfl
  | tail _ last ih => exact (h.quiet last).trans ih

/-- What is asked until a symbol has its name. -/
theorem Oracle.Logs.named (h : o.Logs log) {sym : Symbol} {use : Option NodeId} {v : Variant}
    {declarations : List NodeId} {name : SymbolName} {n namer : Namer} {m m₁ m₂ m₃ : μ}
    (classified : (v, m₁) = Variant.classify o sym use m)
    (declared : (declarations, m₂) = v.declarationsOf o sym use m₁)
    (called : (.ok (name, namer), m₃) = n.nameFirst? o declarations m₂) :
    log m₃ = if sym.flags.aliasing then log m ++ [sym.key] else log m := by
  rw [h.hushed (o.hushed_named classified declared called)]
  split
  · exact h.resolveAlias sym m
  · rfl

end Logs

namespace Session

open SymbolAtlas.Graph (Element)

variable {μ ω : Type} {c : Context μ ω} {log : μ → List String}

/-! ## Nodes and the log -/

/-- The node of `key` is that of an alias. -/
def State.aliasAt (s : State μ ω) (key : String) : Bool :=
  (s.symbols.get? key).any fun n => n.symbol.flags.aliasing

/-- Every node stands under the key of its symbol and has the variant that the oracle gave,
and the oracle was asked once for each alias among them. -/
structure State.Informed (c : Context μ ω) (log : μ → List String) (s : State μ ω) : Prop where
  known : ∀ key n, s.symbols.get? key = some n → n.symbol.key = key ∧
    ∃ use m, n.variant = some (Variant.classify c.oracle n.symbol use m).1
  asked : ∀ key, (log s.memory).count key = (s.aliasAt key).toNat

theorem symbol_of_core {n n' : SymbolNode} (same : n'.core = n.core) : n'.symbol = n.symbol :=
  (congrArg SymbolNode.symbol same :)

theorem aliasAt_of_core {s s' : State μ ω} (same : s'.coreAt = s.coreAt) (key : String) :
    s'.aliasAt key = s.aliasAt key := by
  have here : (s'.symbols.get? key).map SymbolNode.core =
      (s.symbols.get? key).map SymbolNode.core := congrFun same key
  have core : ∀ t : State μ ω, t.aliasAt key =
      ((t.symbols.get? key).map SymbolNode.core).any fun n => n.symbol.flags.aliasing := by
    intro t
    rw [Option.any_map]
    rfl
  rw [core, core, here]

/-- What changes no core and asks for no alias keeps nodes and log together. -/
theorem State.Informed.of_core {s s' : State μ ω} (h : s.Informed c log)
    (same : s'.coreAt = s.coreAt) (quiet : log s'.memory = log s.memory) :
    s'.Informed c log := by
  constructor
  · intro key n node
    obtain ⟨n', node', core⟩ := kept_of_core same.symm key n node
    obtain ⟨own, use, m, variant⟩ := h.known key n' node'
    rw [symbol_of_core core, variant_of_core core] at *
    exact ⟨own, use, m, variant⟩
  · intro key
    rw [quiet, h.asked, aliasAt_of_core same]

theorem Detail.informed (logs : c.oracle.Logs log) {s s' : State μ ω} (step : Detail c s s')
    (h : s.Informed c log) : s'.Informed c log := by
  refine h.of_core step.core ?_
  cases step with
  | asked quiet => exact logs.quiet quiet
  | _ => rfl

/-- Making a node asks for its symbol, if that is an alias. -/
theorem informed_enrolled (logs : c.oracle.Logs log) {s : State μ ω} {sym : Symbol}
    {use : Option NodeId} {v : Variant} {declarations : List NodeId} {name : SymbolName}
    {namer : Namer} {m₁ m₂ m₃ : μ} (h : s.Informed c log)
    (fresh : s.symbols.get? sym.key = none)
    (classified : (v, m₁) = Variant.classify c.oracle sym use s.memory)
    (declared : (declarations, m₂) = v.declarationsOf c.oracle sym use m₁)
    (called : (.ok (name, namer), m₃) = s.namer.nameFirst? c.oracle declarations m₂) :
    (s.enrolled c sym v declarations name namer m₃).Informed c log := by
  constructor
  · intro key n node
    rw [get?_enrolled] at node
    split at node
    · rename_i own
      obtain rfl := Option.some.inj node
      have variant : v = (Variant.classify c.oracle sym use s.memory).1 :=
        congrArg Prod.fst classified
      exact ⟨own, use, s.memory, congrArg some variant⟩
    · exact h.known key n node
  · intro key
    have before := h.asked key
    show (log m₃).count key = _
    rw [logs.named classified declared called]
    unfold State.aliasAt at before ⊢
    rw [get?_enrolled]
    by_cases own : sym.key = key
    · rw [← own, fresh] at before
      rw [if_pos own, ← own]
      cases aliasing : sym.flags.aliasing <;> simp [nodeOfSymbol, aliasing, before]
    · rw [if_neg own, ← before]
      split
      · rw [List.count_append, List.count_singleton, if_neg (by simpa using own), Nat.add_zero]
      · rfl

theorem Growth.informed (logs : c.oracle.Logs log) {s s' : State μ ω} (step : Growth c s s')
    (h : s.Informed c log) : s'.Informed c log := by
  have linked : ∀ (key : String) (f : SymbolNode → SymbolNode),
      (∀ n, (f n).symbol = n.symbol ∧ (f n).variant = n.variant) →
      State.Informed c log { s with symbols := s.symbols.modify key f } := by
    intro key f same
    constructor
    · intro other n node
      rw [Table.get?_modify] at node
      split at node
      · obtain ⟨m, node', rfl⟩ := Option.map_eq_some_iff.1 node
        rw [(same m).1, (same m).2]
        exact h.known other m node'
      · exact h.known other n node
    · intro other
      refine (h.asked other).trans (congrArg Bool.toNat ?_)
      unfold State.aliasAt
      rw [Table.get?_modify]
      split
      · rw [Option.any_map]
        congr 1
        funext n
        exact congrArg (·.flags.aliasing) (same n).1.symm
      · rfl
  cases step with
  | enrolled fresh classified declared called =>
      exact informed_enrolled logs h fresh classified declared called
  | based => exact linked _ _ fun _ => ⟨rfl, rfl⟩
  | composed => exact linked _ _ fun _ => ⟨rfl, rfl⟩

theorem Usage.informed {s s' : State μ ω} (step : Usage c s s') (h : s.Informed c log) :
    s'.Informed c log := by
  refine h.of_core step.core ?_
  obtain ⟨_, _, _, _, _, rfl⟩ := step.shape
  rfl

theorem Ending.informed {s s' : State μ ω} (step : Ending c s s') (h : s.Informed c log) :
    s'.Informed c log := by
  refine h.of_core step.core ?_
  obtain ⟨_, _, _, _, _, rfl⟩ := step.shape
  rfl

/-- **A step keeps the nodes and the log together.** -/
theorem Step.informed (logs : c.oracle.Logs log) {s s' : State μ ω} (step : Step c s s')
    (h : s.Informed c log) : s'.Informed c log := by
  cases step with
  | detail step => exact step.informed logs h
  | growth step => exact step.informed logs h
  | usage step => exact step.informed h
  | ending step => exact step.informed h
  | opened | turned | passed => exact h.of_core rfl rfl

theorem Steps.informed (logs : c.oracle.Logs log) {s s' : State μ ω} (steps : Steps c s s')
    (h : s.Informed c log) : s'.Informed c log := by
  induction steps with
  | refl => exact h
  | tail _ last ih => exact last.informed logs ih

/-! ## What a run comes upon -/

/-- The symbol that a moment is about: what an identifier denotes that is entered, or the
name of a declaration that is left and publishes its alias target. -/
def Moment.subject (o : Oracle μ) (memory : μ) : Moment → Option Symbol
  | .entering _ n => symbolNamed o n memory
  | .leaving n => symbolPublished o n memory
  | .opening _ | .closing _ => none

/-- The key of a symbol that one of the moments is about, when they are performed one after
the other from `s`. -/
def Demanded (c : Context μ ω) (s : State μ ω) (moments : List Moment) (key : String) : Prop :=
  ∃ first m rest t sym, moments = first ++ m :: rest ∧ Yields (performAll c first) s () t ∧
    m.subject c.oracle t.memory = some sym ∧ sym.key = key

theorem demanded_nil {s : State μ ω} {key : String} : ¬ Demanded c s [] key := by
  rintro ⟨first, m, rest, t, sym, split, -⟩
  simp at split

/-- A moment is about its own symbol; the others begin where it ends. -/
theorem demanded_cons {s t : State μ ω} {m : Moment} {rest : List Moment} {key : String}
    (performed : Yields (m.perform c) s () t) :
    Demanded c s (m :: rest) key ↔
      (∃ sym, m.subject c.oracle s.memory = some sym ∧ sym.key = key) ∨
        Demanded c t rest key := by
  constructor
  · rintro ⟨first, m', rest', t', sym, split, before, subject, own⟩
    cases first with
    | nil =>
        obtain ⟨rfl, rfl⟩ := List.cons.inj split
        obtain ⟨-, rfl⟩ := yields_pure.1 before
        exact .inl ⟨sym, subject, own⟩
    | cons m₁ first =>
        obtain ⟨rfl, rfl⟩ := List.cons.inj split
        obtain ⟨_, t₁, performed₁, before⟩ := yields_bind.1 before
        obtain ⟨-, rfl⟩ := performed.unique performed₁
        exact .inr ⟨first, m', rest', t', sym, rfl, before, subject, own⟩
  · rintro (⟨sym, subject, own⟩ | ⟨first, m', rest', t', sym, rfl, before, subject, own⟩)
    · exact ⟨[], m, rest, s, sym, rfl, yields_pure.2 ⟨rfl, rfl⟩, subject, own⟩
    · exact ⟨m :: first, m', rest', t', sym, rfl, yields_bind.2 ⟨(), t, performed, before⟩,
        subject, own⟩

/-- A visit makes the node of its subject, and no other but those that it leads to. -/
theorem Visit.demand {s s' : State μ ω} {subject : Option Symbol} (h : Visit c s s' subject) :
    (∀ sym, subject = some sym → s'.Has sym.key) ∧ ∀ key, s'.Has key → s.Has key ∨
      ∃ sym, subject = some sym ∧ Relation.ReflTransGen s'.Linked sym.key key := by
  cases subject with
  | none =>
      have same : s'.coreAt = s.coreAt := by
        obtain ⟨t, details, rfl | rfl⟩ := h
        · exact details.core
        · exact details.core
      exact ⟨by simp, fun key has => .inl ((kept_of_core same.symm).has has)⟩
  | some sym =>
      obtain ⟨t, r, later⟩ := h
      have same : s'.coreAt = t.coreAt := later.elim (fun details => details.core) (·.core)
      have kept := kept_of_core same
      refine ⟨fun other own => Option.some.inj own ▸ kept.has r.has, fun key has => ?_⟩
      rcases r.new key ((kept_of_core same.symm).has has) with old | ⟨-, reached⟩
      · exact .inl old
      · exact .inr ⟨sym, rfl,
          Relation.ReflTransGen.mono (fun _ _ h => kept.linked h) _ _ reached⟩

theorem Moment.Effect.demand {m : Moment} {s s' : State μ ω} (h : m.Effect c s s') :
    (∀ sym, m.subject c.oracle s.memory = some sym → s'.Has sym.key) ∧
      ∀ key, s'.Has key → s.Has key ∨ ∃ sym, m.subject c.oracle s.memory = some sym ∧
        Relation.ReflTransGen s'.Linked sym.key key := by
  cases m with
  | opening path =>
      obtain ⟨-, -, rfl⟩ := h
      exact ⟨by simp [Moment.subject], fun key has => .inl has⟩
  | entering path n => exact Visit.demand h
  | leaving n => exact Visit.demand h
  | closing path =>
      obtain ⟨d, t, document, writable, endings, same, frozen, rfl⟩ := h
      have last : (t.documentEnded c path d).coreAt = t.coreAt :=
        (Ending.document (same ▸ document) writable frozen).core
      have core : s.coreAt = (t.documentEnded c path d).coreAt := (last.trans endings.core).symm
      exact ⟨by simp [Moment.subject], fun key has => .inl ((kept_of_core core).has has)⟩

/-- **A course makes the nodes of the symbols that its moments are about, and of those that
they lead to, and no others.** -/
theorem Course.demand {moments : List Moment} {s s' : State μ ω} (course : Course c moments s s')
    (settled : s.Settled) :
    (∀ key, Demanded c s moments key → s'.Has key) ∧ ∀ key, s'.Has key → s.Has key ∨
      ∃ root, Demanded c s moments root ∧ Relation.ReflTransGen s'.Linked root key := by
  induction course with
  | nil s => exact ⟨fun key demanded => absurd demanded demanded_nil, fun key has => .inl has⟩
  | @cons m rest s t s' performed effect next ih =>
      have settled' := (effect.settled settled).2
      obtain ⟨kept, -⟩ := next.settled settled'
      obtain ⟨own, only⟩ := effect.demand
      obtain ⟨others, onlyOthers⟩ := ih settled'
      constructor
      · intro key demanded
        rcases (demanded_cons performed).1 demanded with ⟨sym, subject, rfl⟩ | later
        · exact kept.has (own sym subject)
        · exact others key later
      · intro key has
        rcases onlyOthers key has with before | ⟨root, demanded, reached⟩
        · rcases only key before with old | ⟨sym, subject, reached⟩
          · exact .inl old
          · exact .inr ⟨sym.key, (demanded_cons performed).2 (.inl ⟨sym, subject, rfl⟩),
              Relation.ReflTransGen.mono (fun _ _ h => kept.linked h) _ _ reached⟩
        · exact .inr ⟨root, (demanded_cons performed).2 (.inr demanded), reached⟩

/-- The least set of keys that has the roots and is closed under links. -/
inductive Needed (roots : String → Prop) (linked : String → String → Prop) : String → Prop where
  | root {key : String} (h : roots key) : Needed roots linked key
  | link {key other : String} (h : Needed roots linked key) (edge : linked key other) :
      Needed roots linked other

theorem needed_of_reached {roots : String → Prop} {linked : String → String → Prop}
    {root key : String} (h : roots root) (reached : Relation.ReflTransGen linked root key) :
    Needed roots linked key := by
  induction reached with
  | refl => exact .root h
  | tail _ edge ih => exact ih.link edge

/-! ## Runs -/

/-- A completed run has made the nodes that it needs. -/
theorem has_iff_needed {canceled : Cancellation Nat} {memory : μ} {output : ω}
    {stats : Stats} {s' : State μ ω}
    (completed : Yields (run c canceled) (.start c memory output) (stats, none) s')
    (key : String) :
    s'.Has key ↔ Needed (Demanded c ((State.start c memory output).opened c)
      (schedule c.oracle.files)) s'.Linked key := by
  obtain ⟨t, u, course, endings, -, -, rfl, -⟩ := course_run completed
  have same : (u.concluded c).coreAt = t.coreAt := (core_concluded u).trans endings.core
  have settled := settled_opened (c := c) memory output
  obtain ⟨roots, only⟩ := course.demand settled
  have complete : (u.concluded c).Settled := settled_of_core same (course.settled settled).2
  have kept := kept_of_core same
  constructor
  · intro has
    rcases only key ((kept_of_core same.symm).has has) with ⟨n, old⟩ | ⟨root, demanded, reached⟩
    · simp [State.opened, State.emitted, State.start] at old
    · exact needed_of_reached demanded
        (Relation.ReflTransGen.mono (fun _ _ h => kept.linked h) _ _ reached)
  · intro needed
    induction needed with
    | root demanded => exact kept.has (roots _ demanded)
    | link _ edge ih =>
        obtain ⟨n, v, node, variant, sym, member, rfl⟩ := edge
        obtain ⟨n', v', node', variant', links, -⟩ := complete _ ih
        obtain rfl := Option.some.inj (node.symm.trans node')
        obtain rfl := Option.some.inj (variant.symm.trans variant')
        exact links sym member

/-- The log and the nodes of a completed run belong together. -/
theorem informed_run (logs : c.oracle.Logs log) {canceled : Cancellation Nat} {memory : μ}
    {output : ω} (silent : log memory = []) {stats : Stats} {s' : State μ ω}
    (completed : Yields (run c canceled) (.start c memory output) (stats, none) s') :
    s'.Informed c log := by
  obtain ⟨t, u, course, endings, -, -, rfl, -⟩ := course_run completed
  have begun : ((State.start c memory output).opened c).Informed c log := by
    constructor
    · intro key n node
      simp [State.opened, State.emitted, State.start] at node
    · intro key
      show (log memory).count key = 0
      rw [silent, List.count_nil]
  have steps : Steps c _ u := course.steps.trans endings.steps
  exact (steps.informed logs begun).of_core (core_concluded u) (by rw [memory_concluded])

end Session

/-- A question that leaves the log alone. -/
def aside {μ α : Type} (question : StateM μ α) : StateM (μ × List String) α := fun (m, log) =>
  let (answer, m) := question m
  (answer, (m, log))

/-- The same oracle with a log of the aliases that it is asked to resolve. -/
def Oracle.logged {μ : Type} (o : Oracle μ) : Oracle (μ × List String) where
  files := o.files
  size := o.size
  node id m := o.node id m.1
  owner id := aside (o.owner id)
  symbolAt id := aside (o.symbolAt id)
  declarationsOf sym := aside (o.declarationsOf sym)
  resolveAlias sym := fun (m, log) =>
    let (target, m) := o.resolveAlias sym m
    (target, (m, log ++ [sym.key]))
  compositeMembers sym use := aside (o.compositeMembers sym use)
  containerOf sym := aside (o.containerOf sym)
  baseMembers container name := aside (o.baseMembers container name)
  exportPath sym := aside (o.exportPath sym)
  exportAlias id := aside (o.exportAlias id)
  isExternalFile := o.isExternalFile
  isDefaultLibrary := o.isDefaultLibrary
  hoverText id := aside (o.hoverText id)

theorem Oracle.logs_logged {μ : Type} (o : Oracle μ) : o.logged.Logs Prod.snd :=
  ⟨fun quiet => by cases quiet <;> rfl, fun _ _ => rfl⟩

theorem Oracle.Acyclic.logged {μ : Type} {o : Oracle μ} (acyclic : o.Acyclic) :
    o.logged.Acyclic where
  parents := acyclic.parents.mono fun _ _ ⟨m, up⟩ => ⟨m.1, up⟩
  containers := acyclic.containers.mono fun _ _ ⟨m, up⟩ => ⟨m.1, up⟩

theorem Oracle.Finite.logged {μ : Type} {o : Oracle μ} {keys : List String}
    (finite : o.Finite keys) : o.logged.Finite keys := by
  refine ⟨finite.few, fun sym named => finite.known sym ?_⟩
  cases named with
  | symbolAt h => exact .symbolAt h
  | target h => exact .target h
  | base h => exact .base h

namespace Session

open SymbolAtlas.Graph (Element)

variable {μ ω : Type}

/-- The same session with an oracle that keeps a log. -/
def Context.logged (c : Context μ ω) : Context (μ × List String) ω where
  oracle := c.oracle.logged
  sink := c.sink
  options := c.options
  locate := c.locate

/-- **A run makes the nodes that it needs, each once.**  Where the oracle has finitely many
symbols, and the containers around its nodes come to an end as its contract says,

* every request for the node of a symbol that the oracle names comes to an end, from every
  state: it does not give up, and comes out the same with more fuel for the symbols on its way;
* so does the climb from a declaration to its containers, which names the symbol;

and in a completed run, whether they come to an end or not,

* the keys that have a node are the least set that has the symbols of the visited identifiers
  and of the published names and is closed under alias targets and bases;
* a node stands under the key of its symbol, in the variant that the oracle gave;
* the result sets of the stream are those of the nodes, one for each;
* the target of an alias is asked for once if it has a node, and nothing else is. -/
theorem run_demand (c : Context μ ω) {keys : List String} (finite : c.oracle.Finite keys) :
    (c.oracle.Acyclic →
      (∀ sym, c.logged.oracle.Names sym → ∀ use (s : State (μ × List String) (ω × Array Element)),
        Grounded (symbolNode c.logged.recorded sym use) s ∧ ∀ fuel, c.oracle.size < fuel →
          outcome (symbolNodeWith c.logged.recorded use fuel sym) s =
            outcome (symbolNode c.logged.recorded sym use) s) ∧
      ∀ declaration (n : Namer) m, ∃ answer m', ∀ fuel, c.oracle.size < fuel →
        n.resolveWith c.logged.oracle fuel declaration m = (.ok answer, m')) ∧
    ∀ {canceled : Cancellation Nat} {memory : μ} {output : ω} {stats : Stats}
      {s' : State (μ × List String) (ω × Array Element)},
      Yields (run c.logged.recorded canceled)
        (.start c.logged.recorded (memory, []) (output, #[])) (stats, none) s' →
      (∀ key, s'.Has key ↔ Needed (Demanded c.logged.recorded
        ((State.start c.logged.recorded (memory, []) (output, #[])).opened c.logged.recorded)
        (schedule c.oracle.files)) s'.Linked key) ∧
      (∀ key n, s'.symbols.get? key = some n → n.symbol.key = key ∧
        ∃ use m, n.variant = some (Variant.classify c.logged.oracle n.symbol use m).1) ∧
      Graph.idsOf .resultSet s'.stream = s'.symbols.values.map (·.resultSet) ∧
      (Graph.idsOf .resultSet s'.stream).Nodup ∧
      ∀ key, s'.memory.2.count key = (s'.aliasAt key).toNat := by
  refine ⟨fun acyclic => ⟨fun sym named use s =>
    symbolNode_terminates (c := c.logged.recorded) finite.logged acyclic.logged named use s,
    fun declaration n m => acyclic.logged.resolves declaration n m⟩, ?_⟩
  intro canceled memory output stats s' completed
  have records := records_recorded c.logged
  have informed := informed_run c.oracle.logs_logged rfl completed
  have traced := traced_run records rfl completed
  obtain ⟨accounted, -⟩ := accounted_run records rfl completed
  exact ⟨has_iff_needed completed, informed.known, accounted.listed,
    traced.wellFormed.ordered.nodup_idsOf _, informed.asked⟩

end Session

/-! ### Sketches are finite -/

/-- The keys of the symbols of a sketch, and that of a symbol which is not there. -/
def Sketch.keys (s : Sketch) : List String :=
  (default : SketchSymbol).symbol.key :: s.symbols.toList.map (·.symbol.key)

theorem Sketch.key_mem_keys (s : Sketch) (handle : Nat) :
    (s.symbol handle).symbol.key ∈ s.keys := by
  unfold Sketch.symbol Sketch.keys
  cases here : s.symbols[handle]? with
  | none => exact List.mem_cons_self
  | some e =>
      have member : e ∈ s.symbols.toList := (Array.mem_of_getElem? here).val
      exact List.mem_cons_of_mem _ (List.mem_map_of_mem member)

theorem Sketch.finite_oracle (s : Sketch) : s.oracle.Finite s.keys := by
  refine ⟨?_, fun sym named => ?_⟩
  · simp only [Sketch.keys, List.length_cons, List.length_map, Array.length_toList]
    show s.symbols.size + 1 ≤ s.nodes.size + s.symbols.size + 1
    omega
  · cases named with
    | symbolAt h =>
        obtain ⟨e, bound, rfl⟩ := Option.map_eq_some_iff.1 h
        obtain ⟨handle, -, rfl⟩ := Option.map_eq_some_iff.1 bound
        exact s.key_mem_keys handle
    | target h =>
        obtain ⟨handle, -, rfl⟩ := Option.map_eq_some_iff.1 h
        exact s.key_mem_keys handle
    | base h =>
        obtain ⟨handle, -, rfl⟩ := List.mem_map.1 h
        exact s.key_mem_keys handle

namespace Session

theorem completed_logged_cyclic :
    (outcome (run cyclicContext.logged.recorded false)
      (.start cyclicContext.logged.recorded ([], []) ((), #[]))).1.toOption =
      some ({ documents := 1, symbols := 4, definitions := 2, references := 2 }, none) := by
  decide +kernel

theorem acyclic_cyclic : cyclicContext.oracle.Acyclic :=
  Sketch.acyclic_of_isDownward (by decide +kernel)

theorem run_demand_cyclic :
    cyclicContext.oracle.Finite cyclic.keys ∧ cyclicContext.oracle.Acyclic ∧
    (∀ sym, cyclicContext.logged.oracle.Names sym → ∀ use s,
      Grounded (symbolNode cyclicContext.logged.recorded sym use) s) ∧
    ∃ stats s', Yields (run cyclicContext.logged.recorded false)
      (.start cyclicContext.logged.recorded ([], []) ((), #[])) (stats, none) s' ∧
      ∀ key, s'.memory.2.count key = (s'.aliasAt key).toNat := by
  have finite : cyclicContext.oracle.Finite cyclic.keys := cyclic.finite_oracle
  have completed := yields_of_answer completed_logged_cyclic
  obtain ⟨ends, demand⟩ := run_demand cyclicContext finite
  obtain ⟨grounded, -⟩ := ends acyclic_cyclic
  obtain ⟨-, -, -, -, asked⟩ := demand completed
  exact ⟨finite, acyclic_cyclic, fun sym named use s => (grounded sym named use s).1, _, _,
    completed, asked⟩

end Session
end SymbolAtlas
