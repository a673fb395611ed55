/-
# SymbolAtlas.Proofs.Checked.Embedding -- the types that a type is built on

Types that embed other types make a graph, which has cycles where types embed each other behind
pointers.  It is searched from a queue that may hold one type many times, and a type counts as
reached only when it comes to the front.  What keeps the search in order is that the queue never
holds more than two distances: the types `n` embeddings away that are left, and behind them what
is embedded in those that are done (`Facts.Frontier`).  So the search finds every type that
embeddings lead to, once, and none before a nearer one (`Facts.finds_bases`).

Of each type it takes the first member of a name (`baseMembers_reached`).  That is the only one
there is, but for blank fields, of which a type may have several (`blank_passed_over`).
-/
import Mathlib
import SymbolAtlas.Proofs.Checked.Answers

set_option autoImplicit false

namespace SymbolAtlas.Checked

namespace Facts

variable {f : Facts} {s t u : EntityId} {n m : Nat} {fresh near far : List EntityId}

/-! ## Distances -/

/-- So many embeddings lead from a type to another. -/
inductive Leads (f : Facts) (s : EntityId) : Nat → EntityId → Prop where
  | start : Leads f s 0 s
  | embed {n : Nat} {t u : EntityId} (led : Leads f s n t) (embedded : u ∈ f.embeds t) :
      Leads f s (n + 1) u

/-- No way from `s` to `u` is shorter than all ways to `t`: `t` is not farther away. -/
def NotFarther (f : Facts) (s t u : EntityId) : Prop :=
  ∀ n, f.Leads s n u → ∃ m ≤ n, f.Leads s m t

theorem leads_zero_iff : f.Leads s 0 t ↔ t = s :=
  ⟨fun led => by cases led; rfl, fun same => same ▸ .start⟩

theorem leads_succ_iff : f.Leads s (n + 1) u ↔ ∃ t, f.Leads s n t ∧ u ∈ f.embeds t := by
  constructor
  · intro led
    cases led with
    | embed led embedded => exact ⟨_, led, embedded⟩
  · rintro ⟨t, led, embedded⟩
    exact .embed led embedded

/-! ## The queue -/

/-- A search from `s` that is `n` embeddings away.  Of the types at this distance `near` are left
in the queue, and `far` are embedded in those that are done. -/
structure Frontier (f : Facts) (s : EntityId) (n : Nat) (fresh near far : List EntityId) :
    Prop where
  distinct : fresh.Nodup
  started : s ∉ fresh
  here : ∀ t ∈ near, f.Leads s n t
  beyond : ∀ t ∈ far, f.Leads s (n + 1) t
  /-- No type that is nearer is left. -/
  nearer : ∀ m t, m < n → f.Leads s m t → t ∉ fresh
  /-- A type at this distance is done or left. -/
  level : ∀ t, f.Leads s n t → t ∈ fresh → t ∈ near
  /-- What is embedded in a type that is done is done itself or in the queue. -/
  onward : ∀ m t, f.Leads s m t → t ∉ fresh → ∀ u ∈ f.embeds t, u ∈ fresh → u ∈ near ++ far

namespace Frontier

/-- A type that is done is dropped from the queue. -/
theorem skip (h : f.Frontier s n fresh (t :: near) far) (done : t ∉ fresh) :
    f.Frontier s n fresh near far where
  distinct := h.distinct
  started := h.started
  here u member := h.here u (List.mem_cons_of_mem _ member)
  beyond := h.beyond
  nearer := h.nearer
  level u led new :=
    (List.mem_cons.1 (h.level u led new)).resolve_left fun same => done (same ▸ new)
  onward m v led old u embedded new := by
    have queued := h.onward m v led old u embedded new
    rw [List.cons_append] at queued
    exact (List.mem_cons.1 queued).resolve_left fun same => done (same ▸ new)

/-- A type that is not done is done now, and what it embeds comes last. -/
theorem visit (h : f.Frontier s n fresh (t :: near) far) :
    f.Frontier s n (fresh.erase t) near (far ++ f.embeds t) where
  distinct := h.distinct.erase t
  started member := h.started (List.mem_of_mem_erase member)
  here u member := h.here u (List.mem_cons_of_mem _ member)
  beyond u member := by
    rcases List.mem_append.1 member with before | embedded
    · exact h.beyond u before
    · exact .embed (h.here t List.mem_cons_self) embedded
  nearer m u less led member := h.nearer m u less led (List.mem_of_mem_erase member)
  level u led member := by
    obtain ⟨other, new⟩ := h.distinct.mem_erase_iff.1 member
    exact (List.mem_cons.1 (h.level u led new)).resolve_left other
  onward m v led old u embedded member := by
    obtain ⟨other, new⟩ := h.distinct.mem_erase_iff.1 member
    by_cases here : v = t
    · subst here
      exact List.mem_append_right _ (List.mem_append_right _ embedded)
    · have done : v ∉ fresh := fun left => old (h.distinct.mem_erase_iff.2 ⟨here, left⟩)
      have queued := h.onward m v led done u embedded new
      rw [List.cons_append] at queued
      rw [← List.append_assoc]
      exact List.mem_append_left _ ((List.mem_cons.1 queued).resolve_left other)

/-- When no type at this distance is left, those one embedding farther away follow. -/
theorem advance (h : f.Frontier s n fresh [] far) : f.Frontier s (n + 1) fresh far [] where
  distinct := h.distinct
  started := h.started
  here := h.beyond
  beyond _ member := absurd member List.not_mem_nil
  nearer m t less led new := by
    rcases Nat.lt_succ_iff_lt_or_eq.1 less with nearer | rfl
    · exact h.nearer m t nearer led new
    · exact List.not_mem_nil (h.level t led new)
  level u led new := by
    obtain ⟨t, before, embedded⟩ := leads_succ_iff.1 led
    have done : t ∉ fresh := fun left => List.not_mem_nil (h.level t before left)
    exact h.onward n t before done u embedded new
  onward m t led old u embedded new := by
    simpa using h.onward m t led old u embedded new

/-- The front of the queue is at the distance of the search, or at the next one. -/
theorem front {rest : List EntityId} (h : f.Frontier s n fresh near far)
    (queue : near ++ far = t :: rest) :
    ∃ n near far, f.Frontier s n fresh (t :: near) far ∧ rest = near ++ far := by
  cases near with
  | cons first near =>
      obtain ⟨rfl, rfl⟩ := List.cons.inj queue
      exact ⟨n, near, far, h, rfl⟩
  | nil =>
      rw [List.nil_append] at queue
      subst queue
      exact ⟨n + 1, rest, [], h.advance, (List.append_nil _).symm⟩

/-- When the queue is empty, every type that embeddings lead to is done. -/
theorem done_of_empty (h : f.Frontier s n fresh [] []) (led : f.Leads s m t) : t ∉ fresh := by
  induction led with
  | start => exact h.started
  | embed led embedded ih =>
      exact fun new => List.not_mem_nil (h.onward _ _ led ih _ embedded new)

/-- A type that is left is not nearer than the search. -/
theorem le_of_fresh (h : f.Frontier s n fresh near far) (new : t ∈ fresh) (led : f.Leads s m t) :
    n ≤ m :=
  Nat.not_lt.1 fun less => h.nearer m t less led new

end Frontier

/-! ## The search -/

/-- Of some types, those that embeddings lead to from `s`, each once and nearer ones first. -/
structure Finds (f : Facts) (s : EntityId) (fresh found : List EntityId) : Prop where
  distinct : found.Nodup
  new : ∀ t ∈ found, t ∈ fresh
  led : ∀ t ∈ found, ∃ n, f.Leads s n t
  whole : ∀ n t, f.Leads s n t → t ∈ fresh → t ∈ found
  ordered : found.Pairwise (f.NotFarther s)

/-- The type at the front of the queue goes before all that is found later. -/
theorem Finds.cons {found : List EntityId} (h : f.Frontier s n fresh (t :: near) far)
    (new : t ∈ fresh) (later : f.Finds s (fresh.erase t) found) :
    f.Finds s fresh (t :: found) where
  distinct := List.nodup_cons.2
    ⟨fun again => (h.distinct.mem_erase_iff.1 (later.new t again)).1 rfl, later.distinct⟩
  new := List.forall_mem_cons.2
    ⟨new, fun u member => List.mem_of_mem_erase (later.new u member)⟩
  led := List.forall_mem_cons.2 ⟨⟨n, h.here t List.mem_cons_self⟩, later.led⟩
  whole m u led left := by
    by_cases here : u = t
    · exact here ▸ List.mem_cons_self
    · exact List.mem_cons_of_mem _
        (later.whole m u led (h.distinct.mem_erase_iff.2 ⟨here, left⟩))
  ordered := by
    refine List.pairwise_cons.2 ⟨fun u member m led => ⟨n, ?_, h.here t List.mem_cons_self⟩,
      later.ordered⟩
    exact h.le_of_fresh (List.mem_of_mem_erase (later.new u member)) led

/-- **A search finds every type that embeddings lead to, in the order of their distances.** -/
theorem Frontier.finds {queue : List EntityId} (h : f.Frontier s n fresh near far)
    (whole : near ++ far = queue) : f.Finds s fresh (f.reached fresh queue) := by
  induction fresh, queue using Facts.reached.induct f generalizing n near far with
  | case1 fresh =>
      obtain ⟨rfl, rfl⟩ := List.append_eq_nil_iff.1 whole
      rw [reached]
      exact ⟨List.nodup_nil, by simp, by simp,
        fun m t led new => absurd new (h.done_of_empty led), .nil⟩
  | case2 fresh t rest new ih =>
      obtain ⟨n, near, far, front, rfl⟩ := h.front whole
      rw [reached, dif_pos new]
      exact .cons front new (ih front.visit (List.append_assoc ..).symm)
  | case3 fresh t rest done ih =>
      obtain ⟨n, near, far, front, rfl⟩ := h.front whole
      rw [reached, dif_neg done]
      exact ih (front.skip done) rfl

/-- Only entities that there are embed anything. -/
theorem embeds_of_absent (absent : f.entities.size ≤ t) : f.embeds t = [] := by
  rw [embeds, type?, entity, Array.getElem?_eq_none absent]
  rfl

theorem frontier_start (f : Facts) (s : EntityId) :
    f.Frontier s 1 ((List.range f.entities.size).erase s) (f.embeds s) [] where
  distinct := List.nodup_range.erase s
  started member := (List.nodup_range.mem_erase_iff.1 member).1 rfl
  here _ embedded := .embed .start embedded
  beyond _ member := absurd member List.not_mem_nil
  nearer m t less led member := by
    obtain rfl := Nat.lt_one_iff.1 less
    exact (List.nodup_range.mem_erase_iff.1 member).1 (leads_zero_iff.1 led)
  level t led _ := by
    obtain ⟨_, none, embedded⟩ := leads_succ_iff.1 led
    exact leads_zero_iff.1 none ▸ embedded
  onward m t led old u embedded _ := by
    rw [List.append_nil]
    by_cases here : t = s
    · exact here ▸ embedded
    · have absent : f.entities.size ≤ t := Nat.not_lt.1 fun there =>
        old (List.nodup_range.mem_erase_iff.2 ⟨here, List.mem_range.2 there⟩)
      rw [embeds_of_absent absent] at embedded
      exact absurd embedded List.not_mem_nil

/-- **The types that a type is built on** are the entities that embeddings lead to, without
itself. -/
theorem finds_bases (f : Facts) (s : EntityId) :
    f.Finds s ((List.range f.entities.size).erase s) (f.bases s) :=
  (f.frontier_start s).finds (List.append_nil _)

/-! ## Members -/

variable {name : String} {id : EntityId}

/-- The first member of a name that a type declares itself. -/
def FirstMember (f : Facts) (type : EntityId) (name : String) (id : EntityId) : Prop :=
  ∃ before after, f.members type = before ++ id :: after ∧ (f.entity id).name = name ∧
    ∀ other ∈ before, (f.entity other).name ≠ name

theorem memberNamed?_eq_some_iff : f.memberNamed? name t = some id ↔ f.FirstMember t name id := by
  rw [memberNamed?, List.find?_eq_some_iff_append, FirstMember]
  simp only [decide_eq_true_eq, Bool.not_eq_true', decide_eq_false_iff_not]
  constructor
  · rintro ⟨named, before, after, shape, others⟩
    exact ⟨before, after, shape, named, others⟩
  · rintro ⟨before, after, shape, named, others⟩
    exact ⟨named, before, after, shape, others⟩

theorem exists_firstMember_iff :
    (∃ id, f.FirstMember t name id) ↔ ∃ id ∈ f.members t, (f.entity id).name = name := by
  simp only [← memberNamed?_eq_some_iff, ← Option.isSome_iff_exists, memberNamed?,
    List.find?_isSome, decide_eq_true_eq]

theorem members_of_absent (absent : f.entities.size ≤ t) : f.members t = [] := by
  rw [members, type?, entity, Array.getElem?_eq_none absent]
  rfl

end Facts

/-! ## Symbols of members -/

variable {b : Base} {m : Memory}

/-- The key of the symbol of an entity; an instantiated one has that of its origin. -/
def Memory.symbolKey (b : Base) (m : Memory) (id : EntityId) : String :=
  b.entityKey (b.facts.entity (b.facts.origin id)) (m.cases.get? (b.facts.origin id))

/-- The members of a name are taken from the types that declare one. -/
theorem forall₂_symbols (sound : m.Sound b) (name : String) (types : List EntityId) :
    List.Forall₂ (fun t s => ∃ id, b.facts.FirstMember t name id ∧ s.key = m.symbolKey b id)
      (types.filter fun t => (b.facts.memberNamed? name t).isSome)
      ((types.filterMap (b.facts.memberNamed? name)).mapM (symbolFor b) m).1 := by
  induction types generalizing m with
  | nil => exact .nil
  | cons t types ih =>
      cases found : b.facts.memberNamed? name t with
      | none =>
          rw [List.filter_cons_of_neg (by simp [found]), List.filterMap_cons_none found]
          exact ih sound
      | some id =>
          obtain ⟨told, -, key⟩ := answers_symbolFor sound id
          have rest := ih told.sound
          simp only [Memory.symbolKey, told.cases] at rest
          rw [List.filter_cons_of_pos (by simp [found]), List.filterMap_cons_some found,
            List.mapM_cons]
          exact .cons ⟨id, Facts.memberNamed?_eq_some_iff.1 found, key⟩ rest

/-- What is asked of a container that is a type is asked of the facts. -/
theorem Program.baseMembers_eq {container : Symbol} {known : KnownSymbol} {typeName : EntityId}
    (met : m.symbols.get? container.key = some known) (stands : known.meaning = .entity typeName)
    (name : String) : Program.baseMembers b container name m =
      (b.facts.baseMembers typeName name).mapM (symbolFor b) m := by
  simp only [Program.baseMembers, meaningOf, ask_bind, ask_get, ask_pure, met, Option.map_some,
    stands]

/-- **What a type inherits a member from.**  For the type of a container and a name, one symbol is
found for each other type that embeddings lead to and that declares a member of the name: that of
the first one.  A type that is not farther away comes before one that is farther. -/
theorem baseMembers_reached (sound : m.Sound b) {container : Symbol} {known : KnownSymbol}
    {typeName type : EntityId} (met : m.symbols.get? container.key = some known)
    (stands : known.meaning = .entity typeName)
    (names : (b.facts.type? typeName).bind (·.named?) = some type) (name : String) :
    ∃ types : List EntityId, types.Nodup ∧
      (∀ t, t ∈ types ↔ t ≠ type ∧ (∃ n, b.facts.Leads type (n + 1) t) ∧
        ∃ id ∈ b.facts.members t, (b.facts.entity id).name = name) ∧
      types.Pairwise (b.facts.NotFarther type) ∧
      List.Forall₂ (fun t s => ∃ id, b.facts.FirstMember t name id ∧ s.key = m.symbolKey b id)
        types (Program.baseMembers b container name m).1 := by
  have found := b.facts.finds_bases type
  refine ⟨(b.facts.bases type).filter fun t => (b.facts.memberNamed? name t).isSome,
    found.distinct.filter _, fun t => ?_, found.ordered.filter _, ?_⟩
  · have declares : (b.facts.memberNamed? name t).isSome = true ↔
        ∃ id ∈ b.facts.members t, (b.facts.entity id).name = name := by
      simp only [Option.isSome_iff_exists, Facts.memberNamed?_eq_some_iff,
        Facts.exists_firstMember_iff]
    rw [List.mem_filter, declares]
    constructor
    · rintro ⟨member, declared⟩
      have other := (List.nodup_range.mem_erase_iff.1 (found.new t member)).1
      obtain ⟨n, led⟩ := found.led t member
      cases n with
      | zero => exact absurd (Facts.leads_zero_iff.1 led) other
      | succ n => exact ⟨other, ⟨n, led⟩, declared⟩
    · rintro ⟨other, ⟨n, led⟩, id, member, named⟩
      have there : t < b.facts.entities.size := Nat.not_le.1 fun absent => by
        rw [Facts.members_of_absent absent] at member
        cases member
      exact ⟨found.whole (n + 1) t led
        (List.nodup_range.mem_erase_iff.2 ⟨other, List.mem_range.2 there⟩), id, member, named⟩
  · rw [Program.baseMembers_eq met stands, Facts.baseMembers, names]
    exact forall₂_symbols sound name _

/-! ### Types in a ring, and blank fields -/

/-- A struct type with its fields and the types that they embed. -/
def structNamed (name : String) (self : EntityId) (fields : List (EntityId × Option TypeTerm)) :
    Entity where
  kind := .typeName { type := .named self, shape := .struct fields }
  name := name
  package := some 0
  isTop := true

/-- A field of a struct type. -/
def fieldNamed (name : String) (line : Nat) : Entity where
  kind := .variable none true
  name := name
  package := some 0
  place := some ⟨"/m/a.go", line, 2, 0⟩

/-- `A` embeds `B` and a pointer to `C`, both of which embed `D`, one under another name, and `C`
embeds a pointer to `A` again.  `C` and `D` have a field `N`. -/
def ring : Base where
  root := "/m"
  facts.packages := #[{ path := "a", name := "a", scope := [0, 1, 2, 3] }]
  facts.entities := #[
    structNamed "A" 0 [(4, some (.named 1)), (5, some (.pointer (.named 2)))],
    structNamed "B" 1 [(6, some (.named 3))],
    structNamed "C" 2 [(7, some (.aliasOf (.named 3))), (8, some (.pointer (.named 0))), (9, none)],
    structNamed "D" 3 [(10, none)],
    fieldNamed "B" 4, fieldNamed "C" 5, fieldNamed "D" 9, fieldNamed "D" 13, fieldNamed "A" 14,
    fieldNamed "N" 15, fieldNamed "N" 19]

/-- `Outer` embeds `Base` and has a blank field; `Base` has two. -/
def blanks : Base where
  root := "/m"
  facts.packages := #[{ path := "a", name := "a", scope := [0, 1] }]
  facts.entities := #[
    structNamed "Outer" 0 [(2, some (.named 1)), (3, none)], structNamed "Base" 1 [(4, none),
    (5, none)], fieldNamed "Base" 9, fieldNamed "_" 10, fieldNamed "_" 4, fieldNamed "_" 5]

/-- The symbol of the first entity. -/
def Base.firstSymbol (b : Base) : Symbol := (symbolFor b 0 {}).1

/-- The memory that knows the first entity. -/
def Base.firstMemory (b : Base) : Memory := (symbolFor b 0 {}).2

theorem Base.sound_firstMemory (b : Base) : b.firstMemory.Sound b :=
  (answers_symbolFor (Memory.sound_empty b) 0).told.sound

theorem baseMembers_reached_ring :
    ring.firstMemory.Sound ring ∧
    ring.firstMemory.symbols.get? ring.firstSymbol.key = some ⟨ring.firstSymbol, .entity 0⟩ ∧
    (ring.facts.type? 0).bind (·.named?) = some 0 ∧
    ∃ types : List EntityId, types.Nodup ∧
      (∀ t, t ∈ types ↔ t ≠ 0 ∧ (∃ n, ring.facts.Leads 0 (n + 1) t) ∧
        ∃ id ∈ ring.facts.members t, (ring.facts.entity id).name = "N") ∧
      types.Pairwise (ring.facts.NotFarther 0) ∧
      List.Forall₂
        (fun t s => ∃ id, ring.facts.FirstMember t "N" id ∧
          s.key = ring.firstMemory.symbolKey ring id)
        types (Program.baseMembers ring ring.firstSymbol "N" ring.firstMemory).1 := by
  have met : ring.firstMemory.symbols.get? ring.firstSymbol.key =
      some ⟨ring.firstSymbol, .entity 0⟩ := rfl
  exact ⟨ring.sound_firstMemory, met, rfl,
    baseMembers_reached ring.sound_firstMemory met rfl rfl "N"⟩

/-- **A second blank field is passed over.**  `Base` is one embedding away from `Outer` and declares
two members of the blank name, and one of them is not found. -/
theorem blank_passed_over :
    blanks.firstMemory.Sound blanks ∧
    blanks.firstMemory.symbols.get? blanks.firstSymbol.key =
      some ⟨blanks.firstSymbol, .entity 0⟩ ∧
    (blanks.facts.type? 0).bind (·.named?) = some 0 ∧
    blanks.facts.Leads 0 1 1 ∧ 5 ∈ blanks.facts.members 1 ∧ (blanks.facts.entity 5).name = "_" ∧
    ∀ s ∈ (Program.baseMembers blanks blanks.firstSymbol "_" blanks.firstMemory).1,
      s.key ≠ blanks.firstMemory.symbolKey blanks 5 := by
  have met : blanks.firstMemory.symbols.get? blanks.firstSymbol.key =
      some ⟨blanks.firstSymbol, .entity 0⟩ := rfl
  refine ⟨blanks.sound_firstMemory, met, rfl, .embed .start (by decide), by decide, rfl, ?_⟩
  have found : blanks.facts.baseMembers 0 "_" = [4] := by cbv
  rw [Program.baseMembers_eq met rfl, found]
  decide +kernel

end SymbolAtlas.Checked
