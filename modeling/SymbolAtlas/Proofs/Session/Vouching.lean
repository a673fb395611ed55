/-
# SymbolAtlas.Proofs.Session.Vouching -- what the oracle vouches for

A session makes up no symbols: the symbol of a node, and those that the node is linked to, were
named by the oracle.  So whatever holds of all symbols that the oracle names (`Oracle.Vouches`)
holds of the symbols of all nodes.  And unless a symbol is addressed at its use, its node has the
declarations that the oracle told when the node was made (`SymbolNode.Answered`).

Only foundings make nodes, so this holds whatever part of its schedule a run has performed
(`answered_performed`), and in the end (`answered_run`).
-/
import SymbolAtlas.Proofs.Session.Marks

set_option autoImplicit false

namespace SymbolAtlas

/-! ## What is named -/

section Named

variable {μ : Type} {o : Oracle μ} {start m : μ} {Q : Symbol → Prop}

/-- What holds of every symbol that the oracle names, whenever it is asked. -/
structure Oracle.Vouches (o : Oracle μ) (start : μ) (Q : Symbol → Prop) : Prop where
  symbolAt : ∀ {m}, o.Later start m → ∀ id, ∀ sym ∈ (o.symbolAt id m).1, Q sym
  resolveAlias : ∀ {m}, o.Later start m → ∀ from_, ∀ sym ∈ (o.resolveAlias from_ m).1, Q sym
  baseMembers : ∀ {m}, o.Later start m → ∀ container name,
    ∀ sym ∈ (o.baseMembers container name m).1, Q sym

theorem isAtUse_ofMember (o : Oracle μ) (sym : Symbol) (m : μ) :
    (Variant.ofMember o sym m).1.isAtUse = false := by
  rw [Variant.ofMember_eq]
  split
  · rcases o.containerOf sym m with ⟨_ | container, m'⟩ <;> rfl
  · rfl

theorem vouched_ofMember (vouches : o.Vouches start Q) (later : o.Later start m) (sym : Symbol) :
    ∀ target ∈ (Variant.ofMember o sym m).1.links, Q target := by
  rw [Variant.ofMember_eq]
  split
  · have asked : o.Asked m (o.containerOf sym m).2 := .quiet (.containerOf sym m)
    generalize o.containerOf sym m = answer at asked ⊢
    obtain ⟨_ | container, m'⟩ := answer
    · simp [Variant.links]
    · intro target member
      exact vouches.baseMembers (later.tail asked) container sym.name target
        (List.mem_filter.1 member).1
  · simp [Variant.links]

/-- Only transient symbols are addressed at their use. -/
theorem isAtUse_classify {sym : Symbol} (lasting : sym.flags.transient = false)
    (use : Option NodeId) : (Variant.classify o sym use m).1.isAtUse = false := by
  rw [Variant.classify_eq]
  split
  · rfl
  · rw [if_neg (by simp [lasting])]
    exact isAtUse_ofMember o sym m

/-- A variant leads to symbols that the oracle named. -/
theorem vouched_classify (vouches : o.Vouches start Q) (later : o.Later start m) (sym : Symbol)
    (use : Option NodeId) : ∀ target ∈ (Variant.classify o sym use m).1.links, Q target := by
  rw [Variant.classify_eq]
  split
  · intro target member
    have named := vouches.resolveAlias later sym
    generalize (o.resolveAlias sym m).1 = found at member named
    cases found with
    | none => cases member
    | some other => exact List.mem_singleton.1 member ▸ named other rfl
  · split
    · have asked : o.Asked m (o.compositeMembers sym use m).2 := .quiet (.compositeMembers sym use m)
      generalize o.compositeMembers sym use m = answer at asked ⊢
      obtain ⟨_ | members, m'⟩ := answer
      · dsimp only
        split
        · simp [Variant.links]
        · exact vouched_ofMember vouches (later.tail asked) sym
      · simp [Variant.links]
    · exact vouched_ofMember vouches later sym

end Named

namespace Session

variable {μ ω : Type} {c : Context μ ω} {start m m' : μ} {Q : Symbol → Prop}

/-- What a node says is what the oracle answered. -/
structure SymbolNode.Answered (o : Oracle μ) (start : μ) (Q : Symbol → Prop) (m : μ) (key : String)
    (n : SymbolNode) : Prop where
  own : n.symbol.key = key
  named : Q n.symbol
  links : ∀ v, n.variant = some v → ∀ sym ∈ v.links, Q sym
  declarations : n.symbol.flags.transient = false → ∃ m', o.Later start m' ∧
    n.declarations = (o.declarationsOf n.symbol m').1 ∧ o.Later (o.declarationsOf n.symbol m').2 m

/-- All nodes say what the oracle answered. -/
def State.Answered (c : Context μ ω) (start : μ) (Q : Symbol → Prop) (s : State μ ω) : Prop :=
  s.symbols.All fun key n => n.Answered c.oracle start Q s.memory key

theorem SymbolNode.Answered.later {o : Oracle μ} {key : String} {n : SymbolNode}
    (h : n.Answered o start Q m key) (later : o.Later m m') : n.Answered o start Q m' key :=
  { h with
    declarations := fun lasting => by
      obtain ⟨asked, before, told, behind⟩ := h.declarations lasting
      exact ⟨asked, before, told, behind.trans later⟩ }

theorem SymbolNode.Answered.of_profile {o : Oracle μ} {key : String} {n n' : SymbolNode}
    (h : n.Answered o start Q m key) (same : n'.profile = n.profile) :
    n'.Answered o start Q m key := by
  obtain ⟨own, named, links, declarations⟩ := h
  rw [← symbol_of_profile same] at own named declarations
  rw [← variant_of_profile same] at links
  rw [← declarations_of_profile same] at declarations
  exact ⟨own, named, links, declarations⟩

/-! ## Steps -/

section Steps

variable {s s' : State μ ω}

/-- A symbol that is raised was named. -/
theorem vouched_of_raises (vouches : c.oracle.Vouches start Q) {use : Option NodeId}
    (h : s.Answered c start Q) {sym : Symbol} (raised : c.Raises start use s sym) : Q sym := by
  rcases raised with ⟨id, -, m, later, named, -⟩ | ⟨key, n, v, node, variant, member⟩
  · exact vouches.symbolAt later id sym named
  · exact (h key n node).links v variant sym member

/-- Only new nodes have to be compared with what the oracle answered. -/
theorem State.Answered.steps (h : s.Answered c start Q) (steps : Steps c s s')
    (same : ∀ key, s'.Has key → s.Has key) : s'.Answered c start Q := by
  intro key n' node'
  obtain ⟨n, node⟩ := same key ⟨n', node'⟩
  obtain ⟨n'', node'', profile⟩ := steps.profile node
  obtain rfl := Option.some.inj (node'.symm.trans node'')
  exact ((h key n node).later steps.later).of_profile profile

theorem State.Answered.of_core (h : s.Answered c start Q) (steps : Steps c s s')
    (core : s'.coreAt = s.coreAt) : s'.Answered c start Q :=
  h.steps steps fun _ has => (kept_of_core core.symm).has has

/-- **A new node says what the oracle answers.** -/
theorem Founding.answered (vouches : c.oracle.Vouches start Q) {use : Option NodeId}
    (founding : Founding c start use s s') (later : c.oracle.Later start s.memory)
    (h : s.Answered c start Q) : s'.Answered c start Q := by
  cases founding with
  | move move same => exact h.steps (Moves.steps (.single move)) same
  | @made sym v declarations name namer m₁ m₂ m₃ raised fresh classified declared called details =>
      have growth : Growth c s (s.enrolled c sym v declarations name namer m₃) :=
        .enrolled fresh classified declared called
      have first : c.oracle.Later s.memory m₁ := by
        have asked := c.oracle.later_classify sym use s.memory
        rwa [← classified] at asked
      have last : c.oracle.Later m₂ m₃ := by
        have asked := (c.oracle.hushed_nameFirst? declarations s.namer m₂).later
        rwa [← called] at asked
      have made : (nodeOfSymbol sym v declarations name (s.lastId + 1)).Answered c.oracle start Q m₃
          sym.key := by
        refine ⟨rfl, vouched_of_raises vouches h raised, ?_, fun lasting => ?_⟩
        · rintro _ ⟨⟩
          have links := vouched_classify vouches later sym use
          rwa [← classified] at links
        · have addressed : (Variant.classify c.oracle sym use s.memory).1.isAtUse = false :=
            isAtUse_classify lasting use
          rw [← classified] at addressed
          rw [Variant.declarationsOf, if_neg (by simp [addressed])] at declared
          obtain ⟨rfl, rfl⟩ := Prod.mk.inj declared
          exact ⟨m₁, later.trans first, rfl, last⟩
      have enrolled : (s.enrolled c sym v declarations name namer m₃).Answered c start Q :=
        Table.All.insert (h.imp fun _ _ _ answered => answered.later growth.later) made
      exact enrolled.of_core details.moves.steps details.core

theorem Foundings.answered (vouches : c.oracle.Vouches start Q) {use : Option NodeId}
    (foundings : Foundings c start use s s') (later : c.oracle.Later start s.memory)
    (h : s.Answered c start Q) : s'.Answered c start Q := by
  induction foundings with
  | refl => exact h
  | tail before last ih =>
      exact last.answered vouches (later.trans (Foundings.moves before).steps.later) ih

end Steps

/-! ## Runs -/

section Performed

variable {memory : μ} {output : ω}

/-- **Whatever part of its schedule a run has performed**, its nodes say what the oracle
answered. -/
theorem answered_performed (anchored : c.oracle.Anchored memory)
    (vouches : c.oracle.Vouches memory Q) {first rest : List Moment} {s : State μ ω}
    (split : schedule c.oracle.files = first ++ rest)
    (course : Course c first ((State.start c memory output).opened c) s)
    (ok : s.failure = none) : s.Answered c memory Q := by
  refine deed_induction anchored (P := fun _ s => s.Answered c memory Q) (Table.all_empty _) ?_
    split course ok
  rintro first m rest s s' - course - deed steps h
  have later := course.steps.later
  cases deed with
  | opened | skipped => exact h.of_core steps rfl
  | ignored => exact h
  | closed endings => exact State.Answered.of_core (s := s) h steps endings.core
  | left shown foundings => exact foundings.answered vouches later h
  | recorded own indexed home sighted shown foundings recorded =>
      have founded := foundings.answered vouches later h
      rcases recorded.usage with rfl | usage
      · exact founded
      · exact founded.of_core recorded.steps usage.core

/-- **The nodes of a completed run say what the oracle answered.** -/
theorem answered_run (anchored : c.oracle.Anchored memory) (vouches : c.oracle.Vouches memory Q)
    {canceled : Cancellation Nat} {stats : Stats} {s' : State μ ω}
    (completed : Yields (run c canceled) (.start c memory output) (stats, none) s') :
    s'.symbols.All fun key n => n.Answered c.oracle memory Q s'.memory key := by
  obtain ⟨t, u, course, endings, -, -, rfl, ok⟩ := course_run completed
  have okT := endings.steps.failure_none (failure_none_of_concluded ok)
  have answered := answered_performed anchored vouches (List.append_nil _).symm course okT
  rw [symbols_concluded, memory_concluded]
  exact answered.of_core endings.steps endings.core

end Performed

end Session
end SymbolAtlas
