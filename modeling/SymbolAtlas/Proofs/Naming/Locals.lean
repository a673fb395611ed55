/-
# SymbolAtlas.Proofs.Naming.Locals -- numbers of local names

A namer hands out numbers in order.  It does so in five places: for a node of a sort that has
no name, for a declaration without a global container or without a name of its own, for a node
that turns out to have none when it is asked for directly, and for calls about no node.  Each
number goes to one node, or to none; groups and package clauses show the number of what is
around them.

`Namer.Separate` is the invariant, `Namer.Retired` says of a number that no node has or will
have it, and `answerAll_pairwise` says what follows for any two calls, one after the other.
-/
import SymbolAtlas.Proofs.Naming.Forest

set_option autoImplicit false

namespace SymbolAtlas

open Namer (Call)

namespace Namer

variable {F : Forest} {n : Namer}

/-- The numbers that are remembered were given, and no two nodes have one number, unless one of
them shows the name of its container. -/
structure Separate (F : Forest) (n : Namer) : Prop where
  given : ∀ id k, n.memo.get? id = some (some (.localName k)) → k < n.nextLocal
  apart : ∀ id id' k, n.memo.get? id = some (some (.localName k)) →
    n.memo.get? id' = some (some (.localName k)) →
    ¬ (F.node id).Passes → ¬ (F.node id').Passes → id = id'

/-- The number was given, but no node has it. -/
structure Retired (n : Namer) (k : Int) : Prop where
  given : k < n.nextLocal
  unused : ∀ id, n.memo.get? id ≠ some (some (.localName k))

theorem separate_start (scheme : String) (locate : Locator) :
    (start scheme locate).Separate F :=
  ⟨by simp [start], by simp [start]⟩

theorem Separate.newLocal (h : n.Separate F) : n.newLocal.2.Separate F :=
  ⟨fun id k here => Int.lt_trans (h.given id k here) (Int.lt_succ _), h.apart⟩

theorem Separate.counted (h : n.Separate F) (text name : String) :
    (n.counted text name).Separate F :=
  ⟨h.given, h.apart⟩

/-- A node that shows the name of its container, or has no local one, may be remembered. -/
theorem Separate.remember (h : n.Separate F) {id : NodeId} {r : Resolved}
    (given : ∀ k, r = some (.localName k) → k < n.nextLocal)
    (own : (F.node id).Passes ∨ ∀ k, r ≠ some (.localName k)) : (n.remember id r).Separate F := by
  refine ⟨fun other k here => ?_, fun a b k here here' stands stands' => ?_⟩
  · rw [get?_remember] at here
    split at here
    · exact given k (Option.some.inj here)
    · exact h.given other k here
  · rw [get?_remember] at here here'
    have foreign : ∀ {c}, ¬ (F.node c).Passes → id = c → r ≠ some (.localName k) := by
      rintro c stands rfl
      exact own.resolve_left stands k
    split at here
    · exact absurd (Option.some.inj here) (foreign stands ‹_›)
    · split at here'
      · exact absurd (Option.some.inj here') (foreign stands' ‹_›)
      · exact h.apart a b k here here' stands stands'

/-- A fresh number may be remembered for any node. -/
theorem Separate.remember_newLocal (h : n.Separate F) (id : NodeId) :
    (n.newLocal.2.remember id (some n.newLocal.1)).Separate F := by
  have below : ∀ other, n.memo.get? other ≠ some (some (.localName n.nextLocal)) :=
    fun other here => absurd (h.given other _ here) (Int.lt_irrefl _)
  refine ⟨fun other k here => ?_, fun a b k here here' stands stands' => ?_⟩
  · rw [get?_remember] at here
    split at here
    · obtain ⟨rfl⟩ := here
      exact Int.lt_succ _
    · exact h.newLocal.given other k here
  · rw [get?_remember] at here here'
    split at here <;> split at here'
    · exact Eq.trans (Eq.symm ‹id = a›) ‹id = b›
    · obtain ⟨rfl⟩ := here
      exact absurd here' (below b)
    · obtain ⟨rfl⟩ := here'
      exact absurd here (below a)
    · exact h.apart a b k here here' stands stands'

theorem Retired.remember {k : Int} (h : n.Retired k) {id : NodeId} {r : Resolved}
    (other : r ≠ some (.localName k)) : (n.remember id r).Retired k := by
  refine ⟨h.given, fun node here => ?_⟩
  rw [get?_remember] at here
  split at here
  · exact other (Option.some.inj here)
  · exact h.unused node here

theorem Retired.newLocal {k : Int} (h : n.Retired k) : n.newLocal.2.Retired k :=
  ⟨Int.lt_trans h.given (Int.lt_succ _), h.unused⟩

theorem Retired.counted {k : Int} (h : n.Retired k) (text name : String) :
    (n.counted text name).Retired k :=
  ⟨h.given, h.unused⟩

/-- A fresh number that no node gets. -/
theorem Separate.retired_newLocal (h : n.Separate F) : n.newLocal.2.Retired n.nextLocal :=
  ⟨Int.lt_succ _, fun id here => absurd (h.given id _ here) (Int.lt_irrefl _)⟩

/-- A number that was given is not given again. -/
theorem Retired.ne_newLocal {k : Int} (h : n.Retired k) :
    some n.newLocal.1 ≠ some (.localName k) := by
  rintro ⟨⟩
  exact absurd h.given (Int.lt_irrefl _)

theorem ofFile_ne_local (n : Namer) (path : String) (k : Int) :
    n.ofFile path ≠ some (.localName k) := by
  unfold ofFile
  cases n.locate path <;> simp

end Namer

namespace Forest

variable {F : Forest} {n n' : Namer}

/-! ## One call -/

/-- **Resolving keeps the numbers of nodes apart.** -/
theorem Resolves.separate {start : Option NodeId} {r : Resolved} (h : F.Resolves start n r n')
    (separate : n.Separate F) :
    n'.Separate F ∧ ∀ k, r = some (.localName k) → k < n'.nextLocal := by
  induction h with
  | nothing => exact ⟨separate, fun _ same => nomatch same⟩
  | known here =>
      exact ⟨separate, fun k same => separate.given _ k (here.trans (congrArg some same))⟩
  | @file id n =>
      have foreign := n.ofFile_ne_local (F.node id).file
      exact ⟨separate.remember (fun k same => absurd same (foreign k)) (.inr foreign),
        fun k same => absurd same (foreign k)⟩
  | passed _ passes _ ih =>
      obtain ⟨first, given⟩ := ih separate
      exact ⟨first.remember given (.inl passes), given⟩
  | scope => exact ⟨separate.remember (by simp) (.inr (by simp)), by simp⟩
  | alone =>
      exact ⟨separate.remember_newLocal _, fun k same => by
        obtain ⟨rfl⟩ := same
        exact Int.lt_succ _⟩
  | @declared id n n' container suffix _ _ _ ih =>
      obtain ⟨first, -⟩ := ih separate
      rcases n'.below_cases container (F.node id) suffix with ⟨-, same⟩ | ⟨_, _, _, -, -, same⟩
      · rw [same]
        exact ⟨first.remember_newLocal _, fun k same => by
          obtain ⟨rfl⟩ := same
          exact Int.lt_succ _⟩
      · rw [same]
        exact ⟨(first.counted _ _).remember (by simp) (.inr (by simp)), by simp⟩

/-- A number that no node has is not given to one. -/
theorem Resolves.retired {start : Option NodeId} {r : Resolved} (h : F.Resolves start n r n')
    {k : Int} (retired : n.Retired k) : n'.Retired k ∧ r ≠ some (.localName k) := by
  induction h with
  | nothing => exact ⟨retired, by simp⟩
  | known here => exact ⟨retired, fun same => retired.unused _ (here.trans (congrArg some same))⟩
  | file => exact ⟨retired.remember (Namer.ofFile_ne_local _ _ k), Namer.ofFile_ne_local _ _ k⟩
  | passed _ _ _ ih =>
      obtain ⟨first, other⟩ := ih retired
      exact ⟨first.remember other, other⟩
  | scope => exact ⟨retired.remember (by simp), by simp⟩
  | alone => exact ⟨retired.newLocal.remember retired.ne_newLocal, retired.ne_newLocal⟩
  | @declared id n n' container suffix _ _ _ ih =>
      obtain ⟨first, -⟩ := ih retired
      rcases n'.below_cases container (F.node id) suffix with ⟨-, same⟩ | ⟨_, _, _, -, -, same⟩
      · rw [same]
        exact ⟨first.newLocal.remember first.ne_newLocal, first.ne_newLocal⟩
      · rw [same]
        exact ⟨(first.counted _ _).remember (by simp), by simp⟩

variable {call : Call} {name : SymbolName}

theorem Answers.separate (h : F.Answers call n name n') (separate : n.Separate F) :
    n'.Separate F := by
  cases h with
  | unbound => exact separate.newLocal
  | resolved _ first => exact (first.separate separate).1
  | unresolved _ first => exact (first.separate separate).1.remember_newLocal _

theorem Answers.retired (h : F.Answers call n name n') {k : Int} (retired : n.Retired k) :
    n'.Retired k ∧ name ≠ .localName k := by
  cases h with
  | unbound => exact ⟨retired.newLocal, fun same => retired.ne_newLocal (congrArg some same)⟩
  | resolved _ first =>
      obtain ⟨later, other⟩ := first.retired retired
      exact ⟨later, fun same => other (congrArg some same)⟩
  | unresolved _ first =>
      obtain ⟨later, -⟩ := first.retired retired
      exact ⟨later.newLocal.remember later.ne_newLocal,
        fun same => later.ne_newLocal (congrArg some same)⟩

/-- What a call was answered stays in a namer: a node keeps its name, the number was given, and
a number that went to no node goes to none. -/
structure Settled (call : Call) (name : SymbolName) (n : Namer) : Prop where
  kept : ∀ id, call.node = some id → n.memo.get? id = some (some name)
  given : ∀ k, name = .localName k → k < n.nextLocal
  retired : call.node = none → ∃ k, name = .localName k ∧ n.Retired k

theorem Answers.settled (h : F.Answers call n name n') (separate : n.Separate F) :
    Settled call name n' := by
  cases h with
  | unbound node =>
      refine ⟨fun id own => absurd (node.symm.trans own) (by simp), ?_,
        fun _ => ⟨_, rfl, separate.retired_newLocal⟩⟩
      rintro _ ⟨⟩
      exact Int.lt_succ _
  | resolved node first =>
      refine ⟨fun id own => first.remembered (node.symm.trans own), fun k same => ?_,
        fun none => absurd (node.symm.trans none) (by simp)⟩
      exact (first.separate separate).2 k (congrArg some same)
  | unresolved node first =>
      refine ⟨fun id own => ?_, ?_, fun none => absurd (node.symm.trans none) (by simp)⟩
      · obtain rfl := Option.some.inj (node.symm.trans own)
        exact Table.get?_insert_self ..
      · rintro _ ⟨⟩
        exact Int.lt_succ _

/-- The name of a node stays. -/
theorem Answers.kept (h : F.Answers call n name n') {id : NodeId} {named : SymbolName}
    (here : n.memo.get? id = some (some named)) : n'.memo.get? id = some (some named) := by
  cases h with
  | unbound => exact here
  | resolved _ first => exact first.kept here
  | unresolved _ first =>
      have there := first.kept here
      rw [Namer.get?_remember, if_neg]
      · exact there
      · rintro rfl
        exact absurd (there.symm.trans (first.remembered rfl)) (by simp)

theorem Answers.nextLocal_le (h : F.Answers call n name n') : n.nextLocal ≤ n'.nextLocal := by
  cases h with
  | unbound => exact Nat.le_succ _
  | resolved _ first => exact first.nextLocal_le
  | unresolved _ first => exact Nat.le_trans first.nextLocal_le (Nat.le_succ _)

theorem Answers.settles {call₀ : Call} {name₀ : SymbolName} (h : F.Answers call n name n')
    (settled : Settled call₀ name₀ n) : Settled call₀ name₀ n' := by
  refine ⟨fun id own => h.kept (settled.kept id own), fun k same => ?_, fun node => ?_⟩
  · exact Int.lt_of_lt_of_le (settled.given k same) (Int.ofNat_le.2 h.nextLocal_le)
  · obtain ⟨k, same, retired⟩ := settled.retired node
    exact ⟨k, same, (h.retired retired).1⟩

/-! ## Calls one after the other -/

/-- What an earlier and a later call have to do with each other: a node that is asked for again
has the name that it had, different nodes have different numbers, unless one of them shows the
name of its container, and a number that goes to no node never comes before or after. -/
structure Compatible (F : Forest) (earlier later : Call × SymbolName) : Prop where
  again : ∀ id, earlier.1.node = some id → later.1.node = some id → later.2 = earlier.2
  apart : ∀ id id' k, earlier.1.node = some id → later.1.node = some id' → id ≠ id' →
    ¬ (F.node id).Passes → ¬ (F.node id').Passes → earlier.2 = .localName k →
    later.2 ≠ .localName k
  fresh : earlier.1.node = none ∨ later.1.node = none → later.2 ≠ earlier.2

/-- A call is compatible with every earlier one. -/
theorem Answers.compatible {call₀ : Call} {name₀ : SymbolName} (h : F.Answers call n name n')
    (separate : n.Separate F) (settled : Settled call₀ name₀ n) :
    F.Compatible (call₀, name₀) (call, name) := by
  have before := h.settles settled
  have after := h.settled separate
  refine ⟨fun id own own' => ?_, fun id id' k own own' ne stands stands' same same' => ?_, ?_⟩
  · exact Option.some.inj (Option.some.inj ((after.kept id own').symm.trans (before.kept id own)))
  · subst same same'
    exact ne ((h.separate separate).apart id id' k (before.kept id own) (after.kept id' own')
      stands stands')
  · rintro (node | node) same
    · obtain ⟨k, rfl, retired⟩ := settled.retired node
      exact (h.retired retired).2 same
    · cases h with
      | unbound => exact absurd (settled.given _ same.symm) (Int.lt_irrefl _)
      | resolved node' | unresolved node' => exact absurd (node'.symm.trans node) (by simp)

theorem Runs.compatible {calls : List Call} {names : List SymbolName} (h : F.Runs calls n names n')
    (separate : n.Separate F) {call₀ : Call} {name₀ : SymbolName}
    (settled : Settled call₀ name₀ n) :
    ∀ answer ∈ calls.zip names, F.Compatible (call₀, name₀) answer := by
  have step := h.invariant (fun n => n.Separate F ∧ Settled call₀ name₀ n)
    (fun call name => F.Compatible (call₀, name₀) (call, name))
  exact (step (fun _ state answers => ⟨⟨answers.separate state.1, answers.settles state.2⟩,
    answers.compatible state.1 state.2⟩) ⟨separate, settled⟩).2

theorem Runs.pairwise {calls : List Call} {names : List SymbolName} (h : F.Runs calls n names n')
    (separate : n.Separate F) : (calls.zip names).Pairwise F.Compatible := by
  induction h with
  | nil => exact .nil
  | cons first rest ih =>
      have later := first.separate separate
      exact .cons (rest.compatible later (first.settled separate)) (ih later)

theorem Runs.length_eq {calls : List Call} {names : List SymbolName} (h : F.Runs calls n names n') :
    names.length = calls.length := by
  induction h with
  | nil => rfl
  | cons _ _ ih => rw [List.length_cons, List.length_cons, ih]

end Forest

namespace Namer

variable {μ : Type} {o : Oracle μ} {F : Forest}

/-- **Names stay, and numbers are never shared.**  Take any calls to one namer, for nodes whose
containers come to an end.  Each is answered; calls about no node get numbers; and any two of
them, one after the other, are compatible. -/
theorem answerAll_pairwise (shows : o.Shows F) (scheme : String) (locate : Locator)
    {calls : List Call} (grounded : F.Grounded calls) (m : μ) :
    let names := (answerAll o calls (start scheme locate) m).1.1
    names.length = calls.length ∧
      (∀ answer ∈ calls.zip names, answer.1.node = none → answer.2.isLocal = true) ∧
      (calls.zip names).Pairwise F.Compatible := by
  have runs := shows.runs_answerAll grounded (start scheme locate) m
  have separate : (start scheme locate).Separate F := separate_start scheme locate
  refine ⟨runs.length_eq, ?_, runs.pairwise separate⟩
  have answered := runs.invariant (fun n => n.Separate F)
    (fun call name => call.node = none → name.isLocal = true)
  refine (answered (fun _ state answers => ⟨answers.separate state, fun node => ?_⟩) separate).2
  obtain ⟨k, rfl, -⟩ := (answers.settled state).retired node
  rfl

/-- A function with a variable and a wrapped type in its body. -/
def inBody : Sketch :=
  let (file, s) := Sketch.addFile {} "a.go"
  let (run, s) := s.declare file .function "run"
  let (body, s) := s.addChild run .block ""
  let (_, s) := s.declare body .variable "n"
  let (wrapper, s) := s.addChild body .group ""
  let (_, s) := s.declare wrapper .typeDecl "T"
  s

/-- The variable, a fresh name, the wrapper, nothing, the type, the body, the variable again. -/
def inBodyCalls : List Call :=
  [.name (some ⟨4⟩), .fresh, .name (some ⟨6⟩), .name none, .name (some ⟨7⟩), .name (some ⟨3⟩),
    .name (some ⟨4⟩)]

theorem grounded_inBodyCalls : inBody.forest.Grounded inBodyCalls := by
  have body : inBody.forest.Chain (some ⟨3⟩) [⟨3⟩] := .cons .nil
  have variable_ : inBody.forest.Chain (some ⟨4⟩) [⟨4⟩, ⟨3⟩] := .cons body
  have wrapper : inBody.forest.Chain (some ⟨6⟩) [⟨6⟩, ⟨3⟩] := .cons body
  have type_ : inBody.forest.Chain (some ⟨7⟩) [⟨7⟩, ⟨6⟩, ⟨3⟩] := .cons wrapper
  have nothing : inBody.forest.Chain none [] := .nil
  simp only [Forest.Grounded, inBodyCalls, List.forall_mem_cons, Call.node]
  exact ⟨⟨_, variable_⟩, ⟨_, nothing⟩, ⟨_, wrapper⟩, ⟨_, nothing⟩, ⟨_, type_⟩, ⟨_, body⟩,
    ⟨_, variable_⟩, by simp⟩

theorem answerAll_pairwise_inBody :
    let names := (answerAll inBody.oracle inBodyCalls (start "" fun _ => none) []).1.1
    inBody.oracle.Shows inBody.forest ∧ inBody.forest.Grounded inBodyCalls ∧
      names = [.localName 0, .localName 1, .localName 2, .localName 3, .localName 4,
        .localName 5, .localName 0] ∧
      (inBodyCalls.zip names).Pairwise inBody.forest.Compatible :=
  ⟨inBody.shows, grounded_inBodyCalls, by decide +kernel,
    (answerAll_pairwise inBody.shows "" (fun _ => none) grounded_inBodyCalls []).2.2⟩

end Namer

end SymbolAtlas
