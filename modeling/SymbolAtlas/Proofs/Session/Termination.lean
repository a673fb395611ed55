/-
# SymbolAtlas.Proofs.Session.Termination -- requests for nodes come to an end

A request for the node of a symbol follows aliases and bases wherever they lead, and its
recursion has no measure but the keys that are still free: each call takes one before it
goes on.  So with finitely many keys the bound of the recursion is never reached
(`grounded_symbolNodeWith`), from any state, and a larger bound gives the same outcome
(`outcome_symbolNodeWith`): the recursion without a bound has that outcome too.

On its way a request climbs the containers of declarations, which nothing in a session bounds:
that they come to an end is asked of the oracle (`Oracle.Acyclic`).

`Grounded m s` says that `m`, begun in `s`, does not give up for lack of fuel.  What answers
does not, and all that a request does besides other requests answers, or climbs.
-/
import SymbolAtlas.Proofs.Session.Answers

set_option autoImplicit false

namespace SymbolAtlas

/-- The oracle names this symbol: at a node, as the target of an alias or as a base. -/
inductive Oracle.Names {μ : Type} (o : Oracle μ) (sym : Symbol) : Prop where
  | symbolAt {id : NodeId} {m : μ} (h : (o.symbolAt id m).1 = some sym)
  | target {other : Symbol} {m : μ} (h : (o.resolveAlias other m).1 = some sym)
  | base {container : Symbol} {name : String} {m : μ}
      (h : sym ∈ (o.baseMembers container name m).1)

/-- The program behind an oracle has finitely many symbols: all that it names have one of
these keys, and there are no more of them than the size that the oracle states. -/
structure Oracle.Finite {μ : Type} (o : Oracle μ) (keys : List String) : Prop where
  few : keys.length ≤ o.size
  known : ∀ sym, o.Names sym → sym.key ∈ keys

theorem Oracle.names_ofMember {μ : Type} (o : Oracle μ) (sym : Symbol) (m : μ) :
    ∀ link ∈ (Variant.ofMember o sym m).1.links, o.Names link := by
  intro link member
  rw [Variant.ofMember_eq] at member
  split at member
  · split at member
    · obtain ⟨inside, -⟩ := List.mem_filter.1 member
      exact .base inside
    · simp [Variant.links] at member
  · simp [Variant.links] at member

/-- Whatever a symbol is linked to is named by the oracle. -/
theorem Oracle.names_classify {μ : Type} (o : Oracle μ) (sym : Symbol) (use : Option NodeId)
    (m : μ) : ∀ link ∈ (Variant.classify o sym use m).1.links, o.Names link := by
  intro link member
  rw [Variant.classify_eq] at member
  split at member
  · cases target : (o.resolveAlias sym m).1 with
    | none => simp [target, Variant.links] at member
    | some other =>
        simp only [target, Variant.links, List.mem_singleton] at member
        exact .target (member ▸ target)
  · split at member
    · split at member
      · simp [Variant.links] at member
      · split at member
        · simp [Variant.links] at member
        · exact o.names_ofMember sym _ link member
    · exact o.names_ofMember sym m link member

namespace Session

variable {μ ω α β : Type} {c : Context μ ω}

/-! ## Steps that do not give up -/

/-- Fuel has run out: there are too many symbols on the way, or too many containers. -/
def Broken.GivesUp : Broken → Prop
  | .bottomless _ | .endless _ => True
  | _ => False

/-- The step does not give up for lack of fuel. -/
abbrev Grounded (m : Indexing μ ω α) (s : State μ ω) : Prop := Safe (fun e => ¬ e.GivesUp) m s

theorem grounded_bind {m : Indexing μ ω α} {f : α → Indexing μ ω β} {s : State μ ω} :
    Grounded (m >>= f) s ↔ Grounded m s ∧ ∀ a t, Yields m s a t → Grounded (f a) t := by
  unfold Grounded Safe Yields
  rw [outcome_bind]
  rcases outcome m s with ⟨e | a, t⟩
  · simp
  · simp

/-! ## Free keys -/

/-- The number of keys that have no node yet. -/
def State.free (s : State μ ω) (keys : List String) : Nat :=
  keys.countP fun key => !s.symbols.contains key

theorem State.free_le_length (s : State μ ω) (keys : List String) : s.free keys ≤ keys.length :=
  List.countP_le_length

theorem State.contains_iff_has {s : State μ ω} {key : String} :
    s.symbols.contains key = true ↔ s.Has key :=
  Table.contains_iff

/-- Where no node is lost, no key gets free. -/
theorem free_le {s t : State μ ω} (grows : ∀ key, s.Has key → t.Has key) (keys : List String) :
    t.free keys ≤ s.free keys := by
  refine List.countP_mono_left fun key _ absent => ?_
  simp only [Bool.not_eq_true', ← Bool.not_eq_true, State.contains_iff_has] at absent ⊢
  exact fun has => absent (grows key has)

/-- A new node takes a key. -/
theorem free_lt {s t : State μ ω} (grows : ∀ key, s.Has key → t.Has key) {keys : List String}
    {key : String} (member : key ∈ keys) (absent : ¬ s.Has key) (has : t.Has key) :
    t.free keys < s.free keys := by
  obtain ⟨before, after, rfl⟩ := List.append_of_mem member
  have here : s.symbols.contains key = false := by
    rwa [← Bool.not_eq_true, State.contains_iff_has]
  have there : t.symbols.contains key = true := State.contains_iff_has.2 has
  have first := free_le grows before
  have last := free_le grows after
  simp only [State.free, List.countP_append, List.countP_cons, here, there, Bool.not_true,
    Bool.not_false, if_true, Bool.false_eq_true, if_false] at first last ⊢
  omega

/-! ## Requests that do not give up -/

/-- The loop over the bases of a member, each of which is resolved. -/
theorem grounded_forIn_bases {resolve : Symbol → Indexing μ ω String} (spec : Resolves c resolve)
    {keys : List String} {bound : Nat} {key : String} {bases : List Symbol}
    (each : ∀ base ∈ bases, ∀ s : State μ ω, s.free keys < bound → Grounded (resolve base) s)
    {s : State μ ω} (room : s.free keys < bound) :
    Grounded (forIn bases PUnit.unit fun base _ => do
      let baseKey ← resolve base
      if baseKey = key then pure (ForInStep.yield PUnit.unit)
      else do
        modifySymbol key fun n => { n with bases := n.bases ++ [baseKey] }
        pure (ForInStep.yield PUnit.unit)) s := by
  induction bases generalizing s with
  | nil => exact (Total.pure _).safe s
  | cons base bases ih =>
      have rest : ∀ t : State μ ω, t.free keys < bound → Grounded _ t := fun t =>
        ih (fun other member => each other (List.mem_cons_of_mem _ member))
      rw [List.forIn_cons, bind_assoc]
      refine grounded_bind.2 ⟨each base (by simp) s room, fun baseKey t asked => ?_⟩
      obtain ⟨rfl, r⟩ := spec _ _ _ _ asked
      have room' := Nat.lt_of_le_of_lt (free_le (fun _ => r.kept.has) keys) room
      split
      · exact rest t room'
      · rw [bind_assoc]
        refine grounded_bind.2 ⟨(Total.modify _).safe t, fun _ t' written => ?_⟩
        rw [yields_modifySymbol] at written
        refine rest t' (Nat.lt_of_le_of_lt (free_le (fun other has => ?_) keys) room')
        subst written
        exact Table.mem_keys_iff.1 (by simpa using Table.mem_keys_iff.2 has)

theorem grounded_link {resolve : Symbol → Indexing μ ω String} (spec : Resolves c resolve)
    {keys : List String} {bound : Nat} {key : String} {v : Variant}
    (each : ∀ sym ∈ v.links, ∀ s : State μ ω, s.free keys < bound → Grounded (resolve sym) s)
    {s : State μ ω} (room : s.free keys < bound) : Grounded (link c resolve key v) s := by
  cases v with
  | standard => exact (Total.pure _).safe s
  | transient => exact (Total.pure _).safe s
  | composite members => exact (Total.modify _).safe s
  | method container bases =>
      refine grounded_bind.2 ⟨grounded_forIn_bases spec each room, fun _ t _ => ?_⟩
      exact (Total.pure _).safe t
  | aliasOf target =>
      cases target with
      | none => exact (Total.pure _).safe s
      | some target =>
          refine grounded_bind.2 ⟨each target (by simp [Variant.links]) s room, fun _ t _ => ?_⟩
          exact Total.safe (.bind (.lookup _) fun _ => .bind (.lookup _) fun _ =>
            .bind (.emit _) fun _ => .pure _) t

/-- With fewer free keys than fuel, a request does not give up. -/
theorem grounded_symbolNodeWith {keys : List String} (finite : c.oracle.Finite keys)
    (acyclic : c.oracle.Acyclic) (use : Option NodeId) (fuel : Nat) {sym : Symbol}
    (known : sym.key ∈ keys) {s : State μ ω}
    (room : s.free keys < fuel) : Grounded (symbolNodeWith c use fuel sym) s := by
  have endless : ¬ c.oracle.Acyclic → ∀ key, ¬ (Broken.endless key).GivesUp :=
    fun cyclic => absurd acyclic cyclic
  induction fuel generalizing sym s with
  | zero => exact absurd room (Nat.not_lt_zero _)
  | succ fuel ih =>
      refine grounded_bind.2 ⟨Total.get.safe s, ?_⟩
      rintro _ _ ⟨⟩
      by_cases present : s.symbols.contains sym.key = true
      · rw [if_pos present]
        exact (Total.pure _).safe s
      rw [if_neg present]
      have absent : s.symbols.get? sym.key = none := by simpa [Table.contains] using present
      refine grounded_bind.2 ⟨(Total.modify _).safe s, ?_⟩
      rintro _ _ ⟨⟩
      refine grounded_bind.2 ⟨safe_establish endless, fun v t established => ?_⟩
      obtain ⟨declarations, name, namer, m₁, m₂, m₃, classified, declared, called, details, -⟩ :=
        yields_establish established
      have variant : v = _ := congrArg Prod.fst classified
      have underway :=
        (underway_enrolled absent (.enrolled absent classified declared called)).details details
      have has : t.Has sym.key := by
        obtain ⟨n, node, -⟩ := underway.node
        exact ⟨n, node⟩
      have fewer := free_lt (fun _ => underway.kept.has) known underway.absent has
      have linked : ∀ other ∈ v.links, other.key ∈ keys := fun other member =>
        finite.known other (c.oracle.names_classify sym use _ other (variant ▸ member))
      have resolves := resolves_symbolNodeWith (c := c) use fuel
      have each : ∀ other ∈ v.links, ∀ t : State μ ω, t.free keys < fuel →
          Grounded (symbolNodeWith c use fuel other) t := fun other member t room =>
        ih (linked other member) room
      refine grounded_bind.2 ⟨grounded_link resolves each (by omega), fun _ t' _ => ?_⟩
      refine ((Total.lookup _).safe t').bind fun n t'' _ => ?_
      split
      · exact (safe_confine endless _ t'').bind fun _ t'' _ => (Total.pure _).safe t''
      · exact (Total.pure _).safe t''

/-! ## More fuel changes nothing -/

theorem outcome_forIn_congr {ι : Type} {xs : List ι}
    {f f' : ι → Indexing μ ω (ForInStep PUnit)} {s : State μ ω}
    (grounded : Grounded (forIn xs PUnit.unit fun x _ => f x) s)
    (each : ∀ x ∈ xs, ∀ s, Grounded (f x) s → outcome (f' x) s = outcome (f x) s) :
    outcome (forIn xs PUnit.unit fun x _ => f' x) s =
      outcome (forIn xs PUnit.unit fun x _ => f x) s := by
  induction xs generalizing s with
  | nil => rfl
  | cons x xs ih =>
      rw [List.forIn_cons] at grounded ⊢
      rw [List.forIn_cons]
      obtain ⟨first, rest⟩ := grounded_bind.1 grounded
      refine outcome_bind_congr (each x (by simp) s first) fun step t taken => ?_
      cases step with
      | done u => rfl
      | yield u =>
          exact ih (rest _ t taken) fun y member => each y (List.mem_cons_of_mem _ member)

theorem outcome_link_congr {resolve resolve' : Symbol → Indexing μ ω String} {key : String}
    {v : Variant} {s : State μ ω} (grounded : Grounded (link c resolve key v) s)
    (each : ∀ sym s, Grounded (resolve sym) s →
      outcome (resolve' sym) s = outcome (resolve sym) s) :
    outcome (link c resolve' key v) s = outcome (link c resolve key v) s := by
  cases v with
  | standard => rfl
  | transient => rfl
  | composite members => rfl
  | method container bases =>
      refine outcome_bind_congr ?_ fun _ _ _ => rfl
      refine outcome_forIn_congr (grounded_bind.1 grounded).1 fun base _ t here => ?_
      exact outcome_bind_congr (each base t (grounded_bind.1 here).1) fun _ _ _ => rfl
  | aliasOf target =>
      cases target with
      | none => rfl
      | some target =>
          exact outcome_bind_congr (each target s (grounded_bind.1 grounded).1) fun _ _ _ => rfl

/-- A request that does not give up comes out the same with more fuel. -/
theorem outcome_symbolNodeWith (use : Option NodeId) {fuel more : Nat} (enough : fuel ≤ more)
    {sym : Symbol} {s : State μ ω} (grounded : Grounded (symbolNodeWith c use fuel sym) s) :
    outcome (symbolNodeWith c use more sym) s = outcome (symbolNodeWith c use fuel sym) s := by
  induction fuel generalizing more sym s with
  | zero => exact absurd trivial (grounded _ _ rfl)
  | succ fuel ih =>
      obtain ⟨more, rfl⟩ : ∃ n, more = n + 1 := ⟨more - 1, by omega⟩
      obtain ⟨-, grounded⟩ := grounded_bind.1 grounded
      refine outcome_bind_congr rfl fun s₁ t₁ read => ?_
      have grounded := grounded s₁ t₁ read
      split
      · rfl
      rename_i absent
      rw [if_neg absent] at grounded
      refine outcome_bind_congr rfl fun _ t₂ reserved => ?_
      have grounded := (grounded_bind.1 grounded).2 _ t₂ reserved
      refine outcome_bind_congr rfl fun v t₃ established => ?_
      have grounded := (grounded_bind.1 grounded).2 v t₃ established
      exact outcome_bind_congr (outcome_link_congr (grounded_bind.1 grounded).1
        fun other t here => ih (by omega) here) fun _ _ _ => rfl

/-- **Requests come to an end**: a request for the node of a symbol does not give up, and
with more fuel it comes out the same. -/
theorem symbolNode_terminates {keys : List String} (finite : c.oracle.Finite keys)
    (acyclic : c.oracle.Acyclic) {sym : Symbol} (named : c.oracle.Names sym) (use : Option NodeId)
    (s : State μ ω) : Grounded (symbolNode c sym use) s ∧ ∀ fuel, c.oracle.size < fuel →
      outcome (symbolNodeWith c use fuel sym) s = outcome (symbolNode c sym use) s := by
  have room : s.free keys < c.oracle.size + 1 :=
    Nat.lt_succ_of_le (Nat.le_trans (s.free_le_length keys) finite.few)
  have grounded := grounded_symbolNodeWith finite acyclic use _ (finite.known sym named) room
  exact ⟨grounded, fun fuel enough => outcome_symbolNodeWith use enough grounded⟩

end Session
end SymbolAtlas
