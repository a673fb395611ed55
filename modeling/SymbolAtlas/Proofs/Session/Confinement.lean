/-
# SymbolAtlas.Proofs.Session.Confinement -- a run breaks no invariant

A symbol whose declarations are confined to one file of the run is frozen together with that
file, long before the run is over.  That is sound if the program keeps the contract
`Context.Confining`: the identifiers that denote such a symbol are in that file.  Then a
frozen symbol is never met again, and a run breaks none of its invariants (`run_safe`),
whatever the order of its files.

`State.Tethered` says that only symbols with confined declarations wait for a document to
end with it; `ended_performed` that only these are frozen before the end of the run.
-/
import SymbolAtlas.Proofs.Session.Demand
import SymbolAtlas.Proofs.Session.Lifecycle
import SymbolAtlas.Proofs.Session.Questions
import SymbolAtlas.Proofs.Session.Safety

set_option autoImplicit false

namespace SymbolAtlas

/-! ## The contract -/

section Scope

variable {μ : Type} (o : Oracle μ)

/-- A block, or a node beneath a block of its file. -/
inductive Oracle.InBlock (m : μ) : NodeId → Prop where
  | block {id : NodeId} (kind : (o.node id m).kind = .block) : InBlock m id
  | beneath {id parent : NodeId} (inside : (o.node id m).kind ≠ .file)
      (up : (o.node id m).parent = some parent) (block : InBlock m parent) : InBlock m id

/-- A parameter, a label, or a declaration that sits beneath a block. -/
def Oracle.Confined (m : μ) (declaration : Node) : Prop :=
  declaration.kind = .parameter ∨ declaration.kind = .label ∨
    ∃ parent, declaration.parent = some parent ∧ o.InBlock m parent

/-- Asked at some time after `m`, the node denotes a symbol of that key. -/
def Oracle.Denotes (m : μ) (id : NodeId) (key : String) : Prop :=
  ∃ m' sym, o.Later m m' ∧ (o.symbolAt id m').1 = some sym ∧ sym.key = key

end Scope

namespace Session

variable {μ ω : Type} {c : Context μ ω}

/-- There are declarations, all of them in one file and confined there. -/
def SymbolNode.KeptIn (c : Context μ ω) (m : μ) (n : SymbolNode) (path : String) : Prop :=
  n.declarations ≠ [] ∧ ∀ id ∈ n.declarations, (c.oracle.node id m).file = path ∧
    c.oracle.Confined m (c.oracle.node id m)

/-- The confinement contract.  Whatever part of its schedule a run has performed, if the
declarations through which a symbol was resolved are confined to one file of the run, then
every identifier that denotes a symbol of its key is in that file. -/
def Context.Confining (c : Context μ ω) (memory : μ) (output : ω) : Prop :=
  ∀ first rest s, schedule c.oracle.files = first ++ rest →
    Yields (performAll c first) ((State.start c memory output).opened c) () s →
    ∀ key n, s.symbols.get? key = some n →
    ∀ path ∈ c.oracle.files.map (·.root.file), ∀ m, c.oracle.Later memory m →
      n.KeptIn c m path →
    ∀ file ∈ c.oracle.files, ∀ name ∈ file.nodes, name.kind = .identifier →
      c.oracle.Denotes memory name.id key → file.root.file = path

/-! ## Symbols that end with their document -/

theorem inBlock_of_inBlock? {memory : μ} {fuel : Nat} {id : NodeId}
    (h : inBlock? c memory fuel (some id) = some true) : c.oracle.InBlock memory id := by
  induction fuel generalizing id with
  | zero => simp [inBlock?] at h
  | succ fuel ih =>
      rw [inBlock?] at h
      split at h
      · rename_i block
        exact .block block
      · cases h
      · rename_i inside
        cases up : (c.oracle.node id memory).parent with
        | none =>
            rw [up] at h
            cases fuel <;> simp [inBlock?] at h
        | some parent => exact .beneath inside up (ih (up ▸ h))

theorem confined_of_isConfined? {memory : μ} {declaration : Node}
    (h : isConfined? c memory declaration = some true) :
    c.oracle.Confined memory declaration := by
  unfold isConfined? at h
  split at h
  · rename_i kind
    exact .inl kind
  · rename_i kind
    exact .inr (.inl kind)
  · cases up : declaration.parent with
    | none =>
        rw [up] at h
        simp [inBlock?] at h
    | some parent => exact .inr (.inr ⟨parent, up, inBlock_of_inBlock? (up ▸ h)⟩)

/-- A symbol is local, and at some time after `memory` its declarations were confined to a file
of the run. -/
def State.Tied (c : Context μ ω) (memory : μ) (s : State μ ω) (key path : String) : Prop :=
  path ∈ s.traversal ∧ ∃ n m, s.symbols.get? key = some n ∧ n.isLocal = true ∧
    c.oracle.Later memory m ∧ n.KeptIn c m path

theorem Steps.tied {memory : μ} {s s' : State μ ω} (steps : Steps c s s') {key path : String}
    (h : s.Tied c memory key path) : s'.Tied c memory key path := by
  obtain ⟨inside, n, m, node, local_, later, some_, kept⟩ := h
  obtain ⟨n', node', same⟩ := steps.profile node
  have same_ : n'.isLocal = n.isLocal := (congrArg SymbolNode.isLocal same :)
  refine ⟨steps.settled.1 ▸ inside, n', m, node', same_.trans local_, later, ?_⟩
  rw [SymbolNode.KeptIn, declarations_of_profile same]
  exact ⟨some_, kept⟩

/-- The symbols that end with a document have confined declarations. -/
structure State.Tethered (c : Context μ ω) (memory : μ) (s : State μ ω) : Prop where
  later : c.oracle.Later memory s.memory
  locals : s.documents.All fun path d => ∀ key ∈ d.locals, s.Tied c memory key path
  waiting : s.pendingLocals.All fun path keys => ∀ key ∈ keys, s.Tied c memory key path

theorem State.Tethered.pending {memory : μ} {s : State μ ω} (h : s.Tethered c memory)
    {path key : String} (member : key ∈ (s.pendingLocals.get? path).getD []) :
    s.Tied c memory key path := by
  cases waiting : s.pendingLocals.get? path with
  | none => simp [waiting] at member
  | some keys =>
      rw [waiting] at member
      exact h.waiting path keys waiting key member

theorem tied_of_confinedTo {memory : μ} {s : State μ ω} {key path : String} {n : SymbolNode}
    (later : c.oracle.Later memory s.memory) (node : s.symbols.get? key = some n)
    (confined : n.ConfinedTo c s path) : s.Tied c memory key path := by
  obtain ⟨local_, some_, inside, all⟩ := confined
  exact ⟨inside, n, s.memory, node, local_, later, some_, fun id member =>
    ⟨(all id member).1, confined_of_isConfined? (all id member).2⟩⟩

/-- A document that begins takes over the symbols that waited for it. -/
theorem tethered_began {memory : μ} {s : State μ ω} {path : String}
    (h : s.Tethered c memory) : (s.began c path).Tethered c memory := by
  have tied : ∀ {key other}, s.Tied c memory key other →
      (s.began c path).Tied c memory key other := fun h => h
  refine ⟨h.later, ?_, Table.All.erase ?_ path⟩
  · refine Table.All.insert (h.locals.imp fun _ _ _ all key member => tied (all key member)) ?_
    exact fun key member => tied (h.pending member)
  · exact h.waiting.imp fun _ _ _ all key member => tied (all key member)

/-- **A step ties to a document only what is confined.** -/
theorem Step.tethered {memory : μ} {s s' : State μ ω} (step : Step c s s')
    (h : s.Tethered c memory) : s'.Tethered c memory := by
  have later := h.later.trans step.later
  have tied : ∀ {key path}, s.Tied c memory key path → s'.Tied c memory key path :=
    Steps.tied (.single step)
  have locals : s.documents.All fun path d => ∀ key ∈ d.locals, s'.Tied c memory key path :=
    h.locals.imp fun _ _ _ all key member => tied (all key member)
  have waiting : s.pendingLocals.All fun path keys => ∀ key ∈ keys, s'.Tied c memory key path :=
    h.waiting.imp fun _ _ _ all key member => tied (all key member)
  cases step with
  | growth step => cases step <;> exact ⟨later, locals, waiting⟩
  | usage step =>
      obtain ⟨_, _, _, _, _, rfl⟩ := step.shape
      exact ⟨later, locals.modify fun _ _ all => all, waiting⟩
  | opened => exact tethered_began h
  | turned | passed => exact ⟨later, locals, waiting⟩
  | ending step =>
      cases step with
      | @symbol key n node open_ =>
          obtain ⟨_, _, _, same⟩ := s.emittedAll_eq (c := c) (n.items.map .item)
          rw [State.symbolEnded, same] at later locals waiting ⊢
          exact ⟨later, locals, waiting⟩
      | @document path d document writable frozen =>
          obtain ⟨_, _, _, same⟩ := s.documentEnded_eq (c := c) path d
          rw [same] at later locals waiting ⊢
          exact ⟨later, locals.modify fun _ _ _ => by simp, waiting⟩
  | detail step =>
      cases step with
      | asked | counted | sited | attached | hovered | joined => exact ⟨later, locals, waiting⟩
      | began => exact tethered_began h
      | defined => exact ⟨later, locals.modify fun _ _ all => all, waiting⟩
      | awaited node confined missing =>
          refine ⟨later, locals, waiting.insert fun key member => ?_⟩
          rcases List.mem_append.1 member with old | new
          · exact tied (h.pending old)
          · obtain rfl := List.mem_singleton.1 new
            exact tied (tied_of_confinedTo h.later node confined)
      | @confined key file n d node confined document writable =>
          refine ⟨later, locals.modify fun d' document' all other member => ?_, waiting⟩
          rcases List.mem_append.1 member with old | new
          · exact all other old
          · obtain rfl := List.mem_singleton.1 new
            exact tied (tied_of_confinedTo h.later node confined)

theorem Steps.tethered {memory : μ} {s s' : State μ ω} (steps : Steps c s s')
    (h : s.Tethered c memory) : s'.Tethered c memory := by
  induction steps with
  | refl => exact h
  | tail _ last ih => exact last.tethered ih

theorem tethered_opened (memory : μ) (output : ω) :
    ((State.start c memory output).opened c).Tethered c memory :=
  ⟨.refl, Table.all_empty _, Table.all_empty _⟩

/-! ## What is frozen before the end -/

theorem endedAt_endOpenSymbol {key other : String} {s s' : State μ ω} {u : Unit}
    (h : Yields (endOpenSymbol c key) s u s') (ended : s'.endedAt other = true) :
    s.endedAt other = true ∨ other = key := by
  rcases yields_endOpenSymbol h with ⟨rfl, -⟩ | ⟨n, node, -, rfl⟩
  · exact .inl ended
  · by_cases own : key = other
    · exact .inr own.symm
    · left
      rwa [State.endedAt, get?_symbolEnded, if_neg own] at ended

theorem endedAt_forIn_endOpenSymbol {keys : List String} {other : String} {s s' : State μ ω}
    {u : PUnit} (h : Yields (forIn keys PUnit.unit fun key _ => do
      endOpenSymbol c key; pure (ForInStep.yield PUnit.unit)) s u s')
    (ended : s'.endedAt other = true) : s.endedAt other = true ∨ other ∈ keys := by
  induction keys generalizing s with
  | nil =>
      obtain ⟨-, rfl⟩ := yields_pure.1 h
      exact .inl ended
  | cons key keys ih =>
      obtain ⟨t, first, rest⟩ := yields_forIn_cons.1 h
      rcases ih rest with before | later
      · rcases endedAt_endOpenSymbol first before with old | own
        · exact .inl old
        · exact .inr (own ▸ List.mem_cons_self)
      · exact .inr (List.mem_cons_of_mem _ later)

/-- Closing a file freezes no symbols but those that end with its document. -/
theorem endedAt_closing {path key : String} {s s' : State μ ω} {d : DocumentNode}
    (document : s.documents.get? path = some d)
    (h : Yields ((Moment.closing path).perform c) s () s') (ended : s'.endedAt key = true) :
    s.endedAt key = true ∨ key ∈ d.locals := by
  rw [Moment.perform, yields_modify_bind, endDocument, yields_get_bind] at h
  simp only [document] at h
  split at h
  · simp at h
  obtain ⟨_, t, loop, h⟩ := yields_bind.1 h
  refine endedAt_forIn_endOpenSymbol (s := { s with current := none }) loop ?_
  split at h
  · obtain rfl := yields_modify.1 h
    exact ended
  · rw [yields_emit_bind] at h
    obtain rfl := yields_modify.1 h
    exact ended

/-- **A symbol that is frozen before the end of the run** is local and had confined declarations
in a file that was closed. -/
theorem ended_performed {memory : μ} {output : ω} {first rest : List Moment} {s : State μ ω}
    (split : schedule c.oracle.files = first ++ rest)
    (performed : Yields (performAll c first) ((State.start c memory output).opened c) () s)
    {key : String} (ended : s.endedAt key = true) :
    ∃ path, .closing path ∈ first ∧ s.Tied c memory key path := by
  induction first using List.reverseRecOn generalizing rest s with
  | nil =>
      obtain ⟨-, rfl⟩ := yields_pure.1 performed
      cases ended
  | append_singleton first m ih =>
      obtain ⟨t, before, last⟩ := yields_performAll_append.1 performed
      rw [performAll_singleton] at last
      have split : schedule c.oracle.files = first ++ m :: rest := by simpa using split
      obtain ⟨-, steps, -⟩ := situated_performed split before
      have did := effect_performed split before last
      have moved : Steps c t s := by
        rcases did with effect | ⟨-, rfl⟩
        · exact effect.steps
        · exact .refl
      have old : t.endedAt key = true →
          ∃ path, .closing path ∈ first ++ [m] ∧ s.Tied c memory key path := by
        intro ended
        obtain ⟨path, closed, tied⟩ := ih split before ended
        exact ⟨path, List.mem_append_left _ closed, moved.tied tied⟩
      rcases did with effect | ⟨-, rfl⟩
      case inr => exact old ended
      cases m with
      | opening path =>
          obtain ⟨-, -, rfl⟩ := effect
          exact old ended
      | entering path n =>
          have same : s.endedAt = t.endedAt := Visit.endedAt effect
          exact old (same ▸ ended)
      | leaving n =>
          have same : s.endedAt = t.endedAt := Visit.endedAt effect
          exact old (same ▸ ended)
      | closing path =>
          obtain ⟨d, -, document, -⟩ := effect
          rcases endedAt_closing document last ended with before | own
          · exact old before
          · have tethered := steps.tethered (tethered_opened memory output)
            exact ⟨path, by simp, moved.tied (tethered.locals path d document key own)⟩

/-! ## A run breaks nothing -/

section Safe

variable {E : Broken → Prop} {memory : μ} {output : ω} {first rest : List Moment}
  {s : State μ ω}

/-- An identifier that is met denotes no frozen symbol: the file of a frozen one is closed. -/
theorem open_entered {path : String} {name : Node} (confining : c.Confining memory output)
    (split : schedule c.oracle.files = first ++ .entering path name :: rest)
    (performed : Yields (performAll c first) ((State.start c memory output).opened c) () s)
    (kind : name.kind = .identifier) {sym : Symbol}
    (denotes : (c.oracle.symbolAt name.id s.memory).1 = some sym) :
    s.endedAt sym.key = false := by
  refine Bool.eq_false_iff.2 fun ended => ?_
  obtain ⟨-, steps, -⟩ := situated_performed split performed
  obtain ⟨own, closed, inside, n, m, node, -, later, kept⟩ :=
    ended_performed split performed ended
  have moment : .entering path name ∈ schedule c.oracle.files := split ▸ by simp
  obtain ⟨file, member, visited, rfl⟩ := entering_inside moment
  rw [steps.settled.1] at inside
  have same := confining first _ s split performed sym.key n node own inside m later kept file
    member name visited kind ⟨s.memory, sym, steps.later, denotes, rfl⟩
  exact (follows_schedule split).2 (same ▸ closed)

/-- **What is done at a moment in its place** breaks nothing but what is allowed. -/
theorem safe_perform (requests : SafeRequests c E) (confining : c.Confining memory output)
    {m : Moment} (split : schedule c.oracle.files = first ++ m :: rest)
    (performed : Yields (performAll c first) ((State.start c memory output).opened c) () s) :
    Safe E (m.perform c) s := by
  obtain ⟨situated, steps, -⟩ := situated_performed split performed
  have follows := follows_schedule split
  have document : ∀ path, .opening path ∈ first → .closing path ∉ first →
      ∃ d, s.documents.get? path = some d ∧ d.ended = false := by
    intro path opened unclosed
    obtain ⟨d, document, ended⟩ := situated.opened path opened
    exact ⟨d, document, Bool.eq_false_iff.2 fun yes => unclosed (ended.1 yes)⟩
  cases m with
  | opening path =>
      have total : Total ((Moment.opening path).perform c) :=
        .bind (.document path) fun _ => .modify _
      exact total.safe s
  | entering path name =>
      obtain ⟨d, document, writable⟩ := document path follows.1 follows.2
      refine Safe.bind ?_ fun _ t _ => (Total.pure _).safe t
      refine (Total.get.safe s).bind fun _ t read => ?_
      obtain ⟨rfl, rfl⟩ := yields_get.1 read
      split
      · exact (Total.pure _).safe t
      split
      · rename_i kind
        refine (safe_visitIdentifier requests document writable fun sym denotes => ?_).bind
          fun _ t' _ => (Total.pure _).safe t'
        exact open_entered confining split performed kind denotes
      · exact (Total.pure _).safe t
  | leaving n =>
      obtain ⟨path, opened, unclosed⟩ := follows
      refine (Total.get.safe s).bind fun _ t read => ?_
      obtain ⟨rfl, rfl⟩ := yields_get.1 read
      split
      · exact (Total.pure _).safe t
      refine ((Total.ask _).safe t).bind fun answer t' asked => ?_
      obtain ⟨rfl, rfl⟩ := yields_ask.1 asked
      have named := steps.linksNamed (Table.all_empty _)
      split
      · exact safe_linkExport requests (situated.current path opened unclosed) named
      · exact (Total.pure _).safe _
  | closing path =>
      obtain ⟨d, document, writable⟩ := document path follows.1 follows.2
      refine ((Total.modify _).safe s).bind fun _ t turned => ?_
      obtain rfl := yields_modify.1 turned
      refine (answers_endDocument fun d' document' => ?_).safe
      obtain rfl := Option.some.inj (document.symm.trans document')
      exact writable

theorem safe_performAll (requests : SafeRequests c E) (confining : c.Confining memory output)
    {middle : List Moment} (split : schedule c.oracle.files = first ++ (middle ++ rest))
    (performed : Yields (performAll c first) ((State.start c memory output).opened c) () s) :
    Safe E (performAll c middle) s := by
  induction middle generalizing first s with
  | nil => exact (Total.pure _).safe s
  | cons m middle ih =>
      refine (safe_perform requests confining split performed).bind fun _ t last => ?_
      have split' : schedule c.oracle.files = (first ++ [m]) ++ (middle ++ rest) := by
        simpa using split
      exact ih split' (yields_performAll_append.2 ⟨s, performed, by rwa [performAll_singleton]⟩)

/-- The files of a run are passed through safely. -/
theorem safe_indexFiles (requests : SafeRequests c E) (confining : c.Confining memory output)
    (canceled : Cancellation Nat) {files : List Tree} {seen : List String}
    (split : schedule c.oracle.files = first ++ (Tree.firsts seen files).flatMap Tree.passage)
    (between : Between seen first) (inside : files ⊆ c.oracle.files)
    (performed : Yields (performAll c first) ((State.start c memory output).opened c) () s) :
    Safe E (indexFiles c canceled files) s := by
  induction files generalizing seen first s with
  | nil => exact (Total.bind .finish fun _ => .bind .get fun _ => .pure _).safe s
  | cons file files ih =>
      rw [indexFiles]
      split
      · exact (Total.pure _).safe s
      have next := outcome_next split between (inside List.mem_cons_self) performed
      have within : files ⊆ c.oracle.files :=
        fun other member => inside (List.mem_cons_of_mem _ member)
      have passage : Safe E (indexFile c file) s ∧ ∀ t, Yields (indexFile c file) s () t →
          Safe E (indexFiles c canceled files) t := by
        by_cases known : file.root.file ∈ seen
        · rw [if_pos known] at next
          rw [Tree.firsts, if_pos known] at split
          have idle : Yields (indexFile c file) s () s := next
          refine ⟨Answers.safe ⟨(), s, idle⟩, fun t did => ?_⟩
          obtain ⟨-, rfl⟩ := idle.unique did
          exact ih split between within performed
        · rw [if_neg known] at next
          rw [Tree.firsts, if_neg known, List.flatMap_cons] at split
          refine ⟨fun e s' broken => ?_, fun t did => ?_⟩
          · exact safe_performAll requests confining split performed e s' (next ▸ broken)
          · have did : Yields (performAll c file.passage) s () t := next.symm.trans did
            rw [← List.append_assoc] at split
            exact ih split (between.passage file) within
              (yields_performAll_append.2 ⟨s, performed, did⟩)
      obtain ⟨here, rest⟩ := passage
      refine here.bind fun _ t did => (Total.get.safe t).bind fun _ t' read => ?_
      obtain ⟨rfl, rfl⟩ := yields_get.1 read
      split
      · exact (Total.pure _).safe t'
      · exact rest t' did

theorem safe_run (requests : SafeRequests c E) (confining : c.Confining memory output)
    (canceled : Cancellation Nat) : Safe E (run c canceled) (.start c memory output) := by
  refine (Total.get.safe _).bind fun _ t read => ?_
  obtain ⟨rfl, rfl⟩ := yields_get.1 read
  rw [if_neg (by simp [State.start])]
  refine ((Total.modify _).safe _).bind fun _ t begun => ?_
  obtain rfl := yields_modify.1 begun
  refine ((Total.emit _).safe _).bind fun _ t metadata => ?_
  obtain ⟨-, rfl⟩ := yields_emit.1 metadata
  refine ((Total.emit _).safe _).bind fun _ t project => ?_
  obtain ⟨rfl, rfl⟩ := yields_emit.1 project
  refine ((Total.modify _).safe _).bind fun _ t settled => ?_
  obtain rfl := yields_modify.1 settled
  refine Safe.bind ?_ fun _ t _ => (Total.bind .get fun _ => .pure _).safe t
  have nothing : Yields (performAll c []) ((State.start c memory output).opened c) () _ :=
    yields_pure.2 ⟨rfl, rfl⟩
  exact safe_indexFiles requests confining canceled rfl between_nil (List.Subset.refl _) nothing

end Safe

/-- **A run breaks none of its invariants**, if the program keeps the confinement contract:
nothing is added to a frozen symbol or to a frozen document, nothing is frozen twice, and
every definition has a declaration.  At worst a request gives up, where symbols lead to ever
more symbols, or where containers go round in a circle and the oracle breaks its own contract;
with finitely many symbols, and containers that come to an end, the run comes out with its
counters.

The contract is all that is asked of the program.  Its files come in any order and may come
again, its aliases and base members may go round in circles, and the sink may refuse what it
is handed. -/
theorem run_safe (c : Context μ ω) {memory : μ} {output : ω}
    (confining : c.Confining memory output) (canceled : Cancellation Nat) :
    (∀ e s', outcome (run c canceled) (.start c memory output) = (.error e, s') →
      ∃ key, e = .bottomless key ∨ e = .endless key ∧ ¬ c.oracle.Acyclic) ∧
    ∀ keys, c.oracle.Finite keys → c.oracle.Acyclic → ∃ stats error s',
      Yields (run c canceled) (.start c memory output) (stats, error) s' := by
  constructor
  · exact safe_run (fun sym _ use s => safe_symbolNodeWith (fun key => ⟨key, .inl rfl⟩)
      (fun cyclic key => ⟨key, .inr ⟨rfl, cyclic⟩⟩) use _ sym s) confining canceled
  · intro keys finite acyclic
    have safe := safe_run (E := fun _ => False)
      (fun sym named use s => safe_symbolNode_of_finite finite acyclic named use s) confining
      canceled
    rcases h : outcome (run c canceled) (.start c memory output) with ⟨e | ⟨stats, error⟩, s'⟩
    · exact (safe e s' h).elim
    · exact ⟨stats, error, s', h⟩

/-! ### A run that comes back to its files -/

/-- A program keeps the contract if the nodes that a run leaves do: nodes stay what they are. -/
theorem confining_of_performed {memory : μ} {output : ω} {t : State μ ω}
    (whole : Yields (performAll c (schedule c.oracle.files))
      ((State.start c memory output).opened c) () t)
    (kept : ∀ key n, t.symbols.get? key = some n →
      ∀ path ∈ c.oracle.files.map (·.root.file), ∀ m, c.oracle.Later memory m →
        n.KeptIn c m path →
      ∀ file ∈ c.oracle.files, ∀ name ∈ file.nodes, name.kind = .identifier →
        c.oracle.Denotes memory name.id key → file.root.file = path) :
    c.Confining memory output := by
  intro first rest s split performed key n node path inside m later keptIn
  rw [split] at whole
  obtain ⟨s', before, after⟩ := yields_performAll_append.1 whole
  obtain ⟨-, rfl⟩ := performed.unique before
  have split' : schedule c.oracle.files = first ++ (rest ++ []) := by simpa using split
  have steps : Steps c s t := steps_performed split' performed after
  obtain ⟨n', node', same⟩ := steps.profile node
  refine kept key n' node' path inside m later ?_
  rwa [SymbolNode.KeptIn, declarations_of_profile same]

end Session

/-- A declaration right beneath its file. -/
def Sketch.AtTop (s : Sketch) (id : NodeId) : Prop :=
  (s.node id).kind ≠ .parameter ∧ (s.node id).kind ≠ .label ∧
    ∃ parent ∈ (s.node id).parent, (s.node parent).kind = .file

theorem Sketch.AtTop.not_confined {s : Sketch} {id : NodeId} {log : Sketch.AliasLog}
    (h : s.AtTop id) : ¬ s.oracle.Confined log (s.node id) := by
  obtain ⟨noParameter, noLabel, top, up, file⟩ := h
  rintro (parameter | label | ⟨parent, up', block⟩)
  · exact noParameter parameter
  · exact noLabel label
  · obtain rfl := Option.some.inj (up.symm.trans up')
    cases block with
    | block kind => exact absurd (file.symm.trans kind) (by decide)
    | beneath inside => exact inside file

instance (s : Sketch) (id : NodeId) : Decidable (s.AtTop id) := by
  unfold Sketch.AtTop
  exact inferInstance

namespace Session

/-- A node of a sketch that a run leaves keeps the contract: it has a declaration at the top of
its file, or the identifiers that denote it are in the files of its declarations. -/
def SymbolNode.Scoped (s : Sketch) (key : String) (n : SymbolNode) : Prop :=
  (∃ id ∈ n.declarations, s.AtTop id) ∨
    ∀ file ∈ s.oracle.files, ∀ name ∈ file.nodes,
      (s.symbolAt name.id).map (·.symbol.key) = some key →
      ∀ id ∈ n.declarations, (s.node id).file = file.root.file

instance (s : Sketch) (key : String) (n : SymbolNode) : Decidable (n.Scoped s key) := by
  unfold SymbolNode.Scoped
  exact inferInstance

theorem confining_ofSketch {s : Sketch} {t : State Sketch.AliasLog Unit}
    (whole : Yields (performAll (Context.ofSketch s) (schedule s.oracle.files))
      ((State.start (Context.ofSketch s) [] ()).opened (Context.ofSketch s)) () t)
    (checked : ∀ entry ∈ t.symbols.entries, entry.2.Scoped s entry.1) :
    (Context.ofSketch s).Confining [] () := by
  refine confining_of_performed whole ?_
  intro key n node path inside m later keptIn file visited name member kind denotes
  obtain ⟨some_, confined⟩ := keptIn
  obtain ⟨_, sym, _, found, rfl⟩ := denotes
  have found : (s.symbolAt name.id).map (·.symbol) = some sym := found
  obtain ⟨e, here, rfl⟩ := Option.map_eq_some_iff.1 found
  rcases checked _ (Table.mem_entries_iff.2 node) with ⟨id, chosen, top⟩ | together
  · exact absurd (confined id chosen).2 top.not_confined
  · obtain ⟨id, chosen⟩ := List.exists_mem_of_ne_nil _ some_
    have same := together file visited name member (by rw [here]; rfl) id chosen
    exact same.symm.trans (confined id chosen).1

/-- The files of `layered`, and then all of them again. -/
def revisited : Sketch := { layered with files := layered.files ++ layered.files }

theorem performed_revisited :
    let done := outcome
      (performAll (Context.ofSketch revisited) (schedule revisited.oracle.files))
      ((State.start (Context.ofSketch revisited) [] ()).opened (Context.ofSketch revisited))
    done.1.toOption = some () ∧
      ∀ entry ∈ done.2.symbols.entries, entry.2.Scoped revisited entry.1 := by
  decide +kernel

theorem confining_revisited : (Context.ofSketch revisited).Confining [] () :=
  confining_ofSketch (yields_of_answer performed_revisited.1) performed_revisited.2

theorem acyclic_revisited : revisited.oracle.Acyclic :=
  Sketch.acyclic_of_isDownward (by decide +kernel)

theorem run_safe_revisited :
    (Context.ofSketch revisited).Confining [] () ∧
    revisited.oracle.Finite revisited.keys ∧ revisited.oracle.Acyclic ∧ ∃ stats error s',
      Yields (run (Context.ofSketch revisited) false)
        (.start (Context.ofSketch revisited) [] ()) (stats, error) s' :=
  ⟨confining_revisited, revisited.finite_oracle, acyclic_revisited,
    (run_safe (Context.ofSketch revisited) confining_revisited false).2 revisited.keys
      revisited.finite_oracle acyclic_revisited⟩

end Session
end SymbolAtlas
