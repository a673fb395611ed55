/-
# SymbolAtlas.Proofs.Session.Safety -- visits that break nothing

Requests for nodes are the only operations that may give up, for lack of fuel; all others answer
where what they add to is open.  So what a visit does is safe as far as the requests are, and
these are where `E` allows them to give up (`safe_symbolNodeWith`).
-/
import SymbolAtlas.Proofs.Session.Termination
import SymbolAtlas.Proofs.Session.Course

set_option autoImplicit false

namespace SymbolAtlas.Session

variable {μ ω α β : Type} {c : Context μ ω}

/-! ## What is open can be ended -/

theorem answers_endDocument {path : String} {s : State μ ω}
    (writable : ∀ d, s.documents.get? path = some d → d.ended = false) :
    Answers (endDocument c path) s := by
  refine (Total.get s).bind fun _ t read => ?_
  obtain ⟨rfl, rfl⟩ := yields_get.1 read
  cases document : t.documents.get? path with
  | none => exact Total.pure _ t
  | some d =>
      simp only [writable d document, Bool.false_eq_true, if_false]
      refine Total.bind (.forIn fun _ => .bind (.endOpenSymbol _) fun _ => .pure _) (fun _ => ?_) t
      split
      · exact .modify _
      · exact .bind (.emit _) fun _ => .modify _

/-- The loop that freezes the documents that are open. -/
theorem answers_forIn_endDocument {todo : List (String × DocumentNode)} {s : State μ ω}
    (distinct : (todo.map Prod.fst).Nodup)
    (present : ∀ path d, (path, d) ∈ todo → s.documents.get? path = some d) :
    Answers (forIn todo PUnit.unit fun entry _ =>
      if entry.2.ended then pure (ForInStep.yield PUnit.unit)
      else do endDocument c entry.1; pure (ForInStep.yield PUnit.unit)) s := by
  induction todo generalizing s with
  | nil => exact Total.pure _ s
  | cons entry todo ih =>
      obtain ⟨path, d⟩ := entry
      simp only [List.map_cons, List.nodup_cons] at distinct
      have here := present path d List.mem_cons_self
      rw [List.forIn_cons]
      cases ended : d.ended with
      | true =>
          simp only [if_true, pure_bind]
          exact ih distinct.2 fun p e member => present p e (List.mem_cons_of_mem _ member)
      | false =>
          simp only [Bool.false_eq_true, if_false, bind_assoc, pure_bind]
          have writable : ∀ e, s.documents.get? path = some e → e.ended = false := by
            intro e document
            obtain rfl := Option.some.inj (here.symm.trans document)
            exact ended
          refine (answers_endDocument writable).bind fun _ t closed => ih distinct.2 ?_
          obtain ⟨-, t', -, same, -, rfl⟩ := yields_endDocument here closed
          intro p e member
          have different : path ≠ p := by
            rintro rfl
            exact distinct.1 (List.mem_map.2 ⟨_, member, rfl⟩)
          rw [get?_documentEnded, if_neg different, same]
          exact present p e (List.mem_cons_of_mem _ member)

/-- What is open at the end of a run can be ended. -/
theorem Total.finish : Total (finish c) := by
  refine .bind .get fun s => .bind (.forIn fun _ => .bind (.endOpenSymbol _) fun _ => .pure _)
    fun _ => ?_
  intro t
  refine (Total.get t).bind fun _ t read => ?_
  obtain ⟨rfl, rfl⟩ := yields_get.1 read
  refine (answers_forIn_endDocument t.documents.distinct fun path d member =>
    Table.mem_entries_iff.1 member).bind fun _ t' _ => Total.bind .get (fun s => ?_) t'
  split
  · exact .pure _
  · exact .bind (.emit _) fun _ => .pure _

/-! ## Requests -/

variable {E : Broken → Prop}

theorem safe_link {resolve : Symbol → Indexing μ ω String} (each : ∀ sym s, Safe E (resolve sym) s)
    (key : String) (v : Variant) (s : State μ ω) : Safe E (link c resolve key v) s := by
  cases v with
  | standard => exact (Total.pure _).safe s
  | transient => exact (Total.pure _).safe s
  | composite members => exact (Total.modify _).safe s
  | method container bases =>
      refine (Safe.forIn (fun base t => ?_) s).bind fun _ t _ => (Total.pure _).safe t
      refine (each base t).bind fun baseKey t' _ => Total.safe ?_ t'
      split
      · exact .pure _
      · exact .bind (.modify _) fun _ => .pure _
  | aliasOf target =>
      cases target with
      | none => exact (Total.pure _).safe s
      | some target =>
          exact (each target s).bind fun _ t _ => Total.safe (.bind (.lookup _) fun _ =>
            .bind (.lookup _) fun _ => .bind (.emit _) fun _ => .pure _) t

/-- A request for a node can only fail for lack of fuel: what it adds to is new. -/
theorem safe_symbolNodeWith (bottomless : ∀ key, E (.bottomless key))
    (endless : ¬ c.oracle.Acyclic → ∀ key, E (.endless key)) (use : Option NodeId) (fuel : Nat)
    (sym : Symbol) (s : State μ ω) : Safe E (symbolNodeWith c use fuel sym) s := by
  induction fuel generalizing sym s with
  | zero => exact safe_throw (bottomless sym.key)
  | succ fuel ih =>
      refine (Total.get.safe s).bind fun _ t read => ?_
      obtain ⟨rfl, rfl⟩ := yields_get.1 read
      split
      · exact (Total.pure _).safe t
      refine ((Total.modify _).safe t).bind fun _ t' reserved => ?_
      obtain rfl := yields_modify.1 reserved
      refine (safe_establish endless).bind fun v t₁ _ => ?_
      refine (safe_link (fun other t => ih other t) sym.key v t₁).bind fun _ t₂ _ => ?_
      refine ((Total.lookup _).safe t₂).bind fun n t₃ _ => ?_
      split
      · exact (safe_confine endless _ t₃).bind fun _ t₄ _ => (Total.pure _).safe t₄
      · exact (Total.pure _).safe t₃

/-- With finitely many symbols, and containers that come to an end, a request for the node of a
symbol that the oracle names answers. -/
theorem safe_symbolNode_of_finite {keys : List String} (finite : c.oracle.Finite keys)
    (acyclic : c.oracle.Acyclic) {sym : Symbol} (named : c.oracle.Names sym)
    (use : Option NodeId) (s : State μ ω) : Safe (fun _ => False) (symbolNode c sym use) s := by
  intro e s' broken
  have gives : e.GivesUp := safe_symbolNodeWith (fun _ => trivial)
    (fun cyclic => absurd acyclic cyclic) use _ sym s e s' broken
  exact (symbolNode_terminates finite acyclic named use s).1 e s' broken gives

/-! ## Visits -/

/-- The requests for the nodes of the symbols that the oracle names break nothing but what is
allowed. -/
def SafeRequests (c : Context μ ω) (E : Broken → Prop) : Prop :=
  ∀ sym, c.oracle.Names sym → ∀ use s, Safe E (symbolNode c sym use) s

/-- An identifier is recorded where its document is open and its symbol is not ended. -/
theorem safe_visitIdentifier (requests : SafeRequests c E) {path : String} {name : Node}
    {s : State μ ω} {d : DocumentNode} (document : s.documents.get? path = some d)
    (writable : d.ended = false)
    (open_ : ∀ sym, (c.oracle.symbolAt name.id s.memory).1 = some sym →
      s.endedAt sym.key = false) : Safe E (visitIdentifier c path name) s := by
  refine ((Total.ask _).safe s).bind fun found t asked => ?_
  obtain ⟨rfl, rfl⟩ := yields_ask.1 asked
  have quiet : Detail c s { s with memory := (c.oracle.symbolAt name.id s.memory).2 } :=
    .asked (.symbolAt ..)
  cases found : (c.oracle.symbolAt name.id s.memory).1 with
  | none => exact (Total.modify _).safe _
  | some sym =>
      refine (requests sym (.symbolAt found) (some name.id) _).bind fun key t requested => ?_
      obtain ⟨rfl, r⟩ := resolution_symbolNode requested
      have r : Resolution c s t sym.key := Details.resolution (.single quiet) r
      obtain ⟨n, node⟩ := r.has
      obtain ⟨d', document', same⟩ := r.moves.steady.document document
      have writable' : d'.ended = false := (congrArg DocumentNode.ended same :).trans writable
      have openAt : t.endedAt sym.key = false :=
        (congrFun r.moves.endedAt _).trans (open_ sym found)
      have openNode : n.ended = false := by rwa [State.endedAt, node] at openAt
      refine ((Total.isDefinition _ _).safe t).bind fun definition t' decided => ?_
      obtain ⟨rfl, rfl⟩ := yields_isDefinition.1 decided
      rw [node, Option.getD_some]
      split
      · rename_i definition
        exact (answers_markDefinition node openNode document' writable' definition).safe
      · exact (answers_addReference openAt document' writable').safe

/-- Everything that the nodes are linked to is named by the oracle. -/
def State.LinksNamed (c : Context μ ω) (s : State μ ω) : Prop :=
  s.symbols.All fun _ n => ∀ v, n.variant = some v → ∀ sym ∈ v.links, c.oracle.Names sym

theorem linksNamed_of_core {s s' : State μ ω} (same : s'.coreAt = s.coreAt)
    (h : s.LinksNamed c) : s'.LinksNamed c := by
  intro key n node v variant
  obtain ⟨n', node', core⟩ := kept_of_core same.symm key n node
  exact h key n' node' v ((variant_of_core core).trans variant)

theorem Step.linksNamed {s s' : State μ ω} (step : Step c s s') (h : s.LinksNamed c) :
    s'.LinksNamed c := by
  cases step with
  | detail step => exact linksNamed_of_core step.core h
  | usage step => exact linksNamed_of_core step.core h
  | ending step => exact linksNamed_of_core step.core h
  | opened | turned | passed => exact linksNamed_of_core rfl h
  | growth step =>
      cases step with
      | @enrolled sym use variant declarations name namer m₁ m₂ m₃ fresh classified =>
          refine Table.All.insert h fun v own => ?_
          obtain rfl := Option.some.inj own
          rw [show variant = _ from congrArg Prod.fst classified]
          exact c.oracle.names_classify sym use s.memory
      | based => exact Table.All.modify h fun _ _ named => named
      | composed => exact Table.All.modify h fun _ _ named => named

theorem Steps.linksNamed {s s' : State μ ω} (steps : Steps c s s') (h : s.LinksNamed c) :
    s'.LinksNamed c := by
  induction steps with
  | refl => exact h
  | tail _ last ih => exact last.linksNamed ih

/-- The target of an alias gets a moniker only while it is open. -/
theorem safe_linkExport (requests : SafeRequests c E) {declaration : Node} {name path : String}
    {s : State μ ω} (current : s.current = some path) (named : s.LinksNamed c) :
    Safe E (linkExport c declaration name) s := by
  refine (Total.get.safe s).bind fun _ t read => ?_
  obtain ⟨rfl, rfl⟩ := yields_get.1 read
  simp only [current]
  split
  · exact (Total.pure _).safe t
  rename_i nameNode _
  refine ((Total.ask _).safe t).bind fun found t₁ asked => ?_
  obtain ⟨rfl, rfl⟩ := yields_ask.1 asked
  have quiet : Step c t { t with memory := (c.oracle.symbolAt nameNode t.memory).2 } :=
    .detail (.asked (.symbolAt ..))
  cases found : (c.oracle.symbolAt nameNode t.memory).1 with
  | none => exact (Total.pure _).safe _
  | some sym =>
      refine (requests sym (.symbolAt found) _ _).bind fun key t₂ requested => ?_
      obtain ⟨rfl, r⟩ := resolution_symbolNode requested
      obtain ⟨n, node⟩ := r.has
      have named₂ : t₂.LinksNamed c := r.moves.steps.linksNamed (quiet.linksNamed named)
      refine ((Total.lookup _).safe t₂).bind fun n' t' looked => ?_
      obtain ⟨rfl, rfl⟩ := yields_lookup.1 looked
      rw [node, Option.getD_some]
      split
      case h_2 => exact (Total.pure _).safe t'
      rename_i target variant
      have target_ : c.oracle.Names target :=
        named₂ _ n node _ variant target (List.mem_singleton.2 rfl)
      refine (requests target target_ _ t').bind fun targetKey t₃ requested' => ?_
      obtain ⟨rfl, -⟩ := resolution_symbolNode requested'
      refine ((Total.lookup _).safe t₃).bind fun before t' looked => ?_
      obtain ⟨rfl, rfl⟩ := yields_lookup.1 looked
      refine (Total.get.safe t').bind fun _ t'' read => ?_
      obtain ⟨rfl, rfl⟩ := yields_get.1 read
      split
      · exact (Total.pure _).safe t''
      split
      · exact (Total.pure _).safe t''
      rename_i open_
      have open_ : t''.endedAt target.key = false := by simpa [State.endedAt] using open_
      refine (answers_attachMoniker open_).safe.bind fun _ t₄ _ => ?_
      refine Total.safe (.bind (.lookup _) fun after => ?_) t₄
      split
      · exact .modify _
      · exact .pure _

end SymbolAtlas.Session
