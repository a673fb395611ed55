/-
# SymbolAtlas.Proofs.Session.Accounts -- what a run says about a program

A completed run over the files of a program makes the nodes that the program needs
(`has_iff_needs`).  What it comes upon are the places in its files (`Recall.Visited`), as a set:
nothing is said about the order in which it comes upon them.
-/
import SymbolAtlas.Proofs.Session.Demand
import SymbolAtlas.Proofs.Session.Portrayal

set_option autoImplicit false

namespace SymbolAtlas

open Session (Moment schedule symbolNamed symbolPublished)

/-! ## Every node of every file is visited -/

mutual

theorem Tree.visits_mem_moments (path : String) {t : Tree} {n : Node} (inside : n ∈ t.nodes) :
    .entering path n ∈ t.moments path ∧ .leaving n ∈ t.moments path := by
  obtain ⟨root, children⟩ := t
  rw [Tree.moments]
  rcases List.mem_cons.1 inside with rfl | below
  · simp
  · obtain ⟨entering, leaving⟩ := Tree.visits_mem_momentsOf path below
    simp [entering, leaving]

theorem Tree.visits_mem_momentsOf (path : String) {ts : List Tree} {n : Node}
    (inside : n ∈ Tree.nodesOf ts) :
    .entering path n ∈ Tree.momentsOf path ts ∧ .leaving n ∈ Tree.momentsOf path ts := by
  match ts with
  | [] => cases inside
  | t :: rest =>
      rw [Tree.momentsOf]
      rcases List.mem_append.1 inside with first | later
      · obtain ⟨entering, leaving⟩ := Tree.visits_mem_moments path first
        exact ⟨List.mem_append_left _ entering, List.mem_append_left _ leaving⟩
      · obtain ⟨entering, leaving⟩ := Tree.visits_mem_momentsOf path later
        exact ⟨List.mem_append_right _ entering, List.mem_append_right _ leaving⟩

end

/-- A run over files with distinct paths enters and leaves each of their nodes. -/
theorem visits_mem_schedule {files : List Tree} (distinct : (files.map (·.root.file)).Nodup)
    {file : Tree} (indexed : file ∈ files) {n : Node} (inside : n ∈ file.nodes) :
    .entering file.root.file n ∈ schedule files ∧ .leaving n ∈ schedule files := by
  obtain ⟨entering, leaving⟩ := Tree.visits_mem_moments file.root.file inside
  rw [schedule, Session.firsts_of_distinct distinct (by simp)]
  constructor
  · exact List.mem_flatMap.2 ⟨file, indexed, by simp [Tree.passage, entering]⟩
  · exact List.mem_flatMap.2 ⟨file, indexed, by simp [Tree.passage, leaving]⟩

/-! ## Places in files -/

section Places

variable {μ π : Type} {o : Oracle μ} {start m : μ} {P : Portrait π} {r : Recall μ π}

/-- A place in one of the files. -/
def Recall.Visited (r : Recall μ π) (o : Oracle μ) (start : μ) (x : π) : Prop :=
  ∃ file ∈ o.files, ∃ n ∈ file.nodes, r.reads start n.id = some x

/-- A node of a file is what it is from the start, and so is the place that it stands for. -/
structure Recall.Stands (r : Recall μ π) (o : Oracle μ) (start : μ) (n : Node) (x : π) :
    Prop where
  reads : ∀ m, o.Later start m → r.reads m n.id = some x
  node : ∀ m, o.Later start m → o.node n.id m = n

theorem stands_of_inside (anchored : o.Anchored start) (portrays : o.Portrays start P r)
    {file : Tree} (indexed : file ∈ o.files) {n : Node} (inside : n ∈ file.nodes) :
    ∃ x, r.Stands o start n x ∧ r.Visited o start x := by
  obtain ⟨x, read⟩ := portrays.reads_tree indexed inside
  exact ⟨x, ⟨read, fun _ later => anchored.node_tree indexed inside later⟩, file, indexed, n,
    inside, read start .refl⟩

theorem Recall.Visited.stands (anchored : o.Anchored start) (portrays : o.Portrays start P r)
    {x : π} (h : r.Visited o start x) :
    ∃ file ∈ o.files, ∃ n ∈ file.nodes, r.Stands o start n x := by
  obtain ⟨file, indexed, n, inside, read⟩ := h
  obtain ⟨y, stands, -⟩ := stands_of_inside anchored portrays indexed inside
  obtain rfl := Option.some.inj (read.symm.trans (stands.reads start .refl))
  exact ⟨file, indexed, n, inside, stands⟩

namespace Recall.Stands

variable {n : Node} {x : π} (h : r.Stands o start n x) (portrays : o.Portrays start P r)

include h portrays

theorem face : n.face = P.face x := by
  have face := portrays.face (h.reads start .refl)
  rwa [h.node start .refl] at face

/-- What an identifier denotes, whenever the oracle is asked. -/
theorem named (later : o.Later start m) : (symbolNamed o n m).map (·.key) = P.named x := by
  have kind : n.kind = (P.face x).kind := congrArg Face.kind (h.face portrays)
  unfold symbolNamed Portrait.named
  rw [kind]
  split
  · exact (portrays.symbolAt (h.reads m later)).1
  · rfl

/-- What a declaration publishes, whenever the oracle is asked. -/
theorem published (later : o.Later start m) :
    (symbolPublished o n m).map (·.key) = P.published x := by
  have kind : n.kind = (P.face x).kind := congrArg Face.kind (h.face portrays)
  have alias_ := portrays.exportAlias (h.reads m later)
  have asked : o.Asked m (o.exportAlias n.id m).2 := .quiet (.exportAlias n.id m)
  have sees := portrays.nameNode (h.reads _ (later.tail asked))
  rw [h.node _ (later.tail asked)] at sees
  unfold symbolPublished Portrait.published
  simp only [alias_, kind]
  split
  · cases name : n.nameNode with
    | none =>
        rw [name] at sees
        rw [sees.eq_none]
        rfl
    | some id =>
        rw [name] at sees
        obtain ⟨y, up, read⟩ := sees.exists_of_some
        rw [up]
        exact (portrays.symbolAt read).1
  · rfl

end Recall.Stands

end Places

/-- A symbol that the visit of a place is about. -/
def Portrait.Mentions {π : Type} (P : Portrait π) (x : π) (key : String) : Prop :=
  P.named x = some key ∨ P.published x = some key

namespace Session

variable {μ ω π : Type} {c : Context μ ω} {P : Portrait π} {r : Recall μ π} {memory : μ}
  {output : ω}

/-! ## The nodes of a run -/

/-- What comes before a moment of a completed course was performed. -/
theorem Course.before {moments : List Moment} {s s' : State μ ω} (course : Course c moments s s')
    {m : Moment} (member : m ∈ moments) :
    ∃ first rest t, moments = first ++ m :: rest ∧ Course c first s t ∧
      Course c (m :: rest) t s' := by
  obtain ⟨first, rest, rfl⟩ := List.append_of_mem member
  obtain ⟨t, before, after⟩ := course.split
  exact ⟨first, rest, t, rfl, before, after⟩

/-- **What a run comes upon are the symbols that the places in its files mention.** -/
theorem demanded_iff_mentioned (anchored : c.oracle.Anchored memory)
    (portrays : c.oracle.Portrays memory P r)
    (distinct : (c.oracle.files.map (·.root.file)).Nodup) {t : State μ ω}
    (course : Course c (schedule c.oracle.files) ((State.start c memory output).opened c) t)
    (key : String) :
    Demanded c ((State.start c memory output).opened c) (schedule c.oracle.files) key ↔
      ∃ x, r.Visited c.oracle memory x ∧ P.Mentions x key := by
  constructor
  · rintro ⟨first, m, rest, s, sym, split, performed, subject, rfl⟩
    obtain ⟨-, steps, -⟩ := situated_performed split performed
    have moment : m ∈ schedule c.oracle.files := by
      rw [split]
      simp
    cases m with
    | opening | closing => cases subject
    | entering path n =>
        obtain ⟨file, indexed, inside, -⟩ := entering_inside moment
        obtain ⟨x, stands, visited⟩ := stands_of_inside anchored portrays indexed inside
        have named := stands.named portrays steps.later
        rw [show symbolNamed c.oracle n s.memory = some sym from subject] at named
        exact ⟨x, visited, .inl named.symm⟩
    | leaving n =>
        obtain ⟨file, indexed, inside⟩ := leaving_inside moment
        obtain ⟨x, stands, visited⟩ := stands_of_inside anchored portrays indexed inside
        have published := stands.published portrays steps.later
        rw [show symbolPublished c.oracle n s.memory = some sym from subject] at published
        exact ⟨x, visited, .inr published.symm⟩
  · rintro ⟨x, visited, mentions⟩
    obtain ⟨file, indexed, n, inside, stands⟩ := visited.stands anchored portrays
    obtain ⟨entering, leaving⟩ := visits_mem_schedule distinct indexed inside
    rcases mentions with named | published
    · obtain ⟨first, rest, s, split, before, -⟩ := course.before entering
      have same := (stands.named portrays before.steps.later).trans named
      obtain ⟨sym, subject, own⟩ := Option.map_eq_some_iff.1 same
      exact ⟨first, _, rest, s, sym, split, before.performs, subject, own⟩
    · obtain ⟨first, rest, s, split, before, -⟩ := course.before leaving
      have same := (stands.published portrays before.steps.later).trans published
      obtain ⟨sym, subject, own⟩ := Option.map_eq_some_iff.1 same
      exact ⟨first, _, rest, s, sym, split, before.performs, subject, own⟩

/-- The symbols that a program needs: those that the places in its files mention, and those that
they lead to. -/
abbrev Portrait.Needs (P : Portrait π) (visited : π → Prop) : String → Prop :=
  Needed (fun key => ∃ x, visited x ∧ P.Mentions x key) fun key other =>
    other ∈ (P.outline key).links

/-- What a node leads to is what its symbol leads to in the program. -/
theorem linked_iff {s : State μ ω} {m : μ} {n₀ : Namer}
    (nodes : s.symbols.All fun key n => n.Portrayed P r n₀ m key) {key other : String}
    (has : s.Has key) : s.Linked key other ↔ other ∈ (P.outline key).links := by
  obtain ⟨n, node⟩ := has
  obtain ⟨v, variant, outline⟩ := Option.map_eq_some_iff.1 (nodes key n node).outline
  rw [← outline, Variant.links_outline, List.mem_map]
  constructor
  · rintro ⟨n', v', node', variant', sym, member, own⟩
    obtain rfl := Option.some.inj (node.symm.trans node')
    obtain rfl := Option.some.inj (variant.symm.trans variant')
    exact ⟨sym, member, own⟩
  · rintro ⟨sym, member, own⟩
    exact ⟨n, v, node, variant, sym, member, own⟩

/-- **A completed run makes the nodes that the program needs.** -/
theorem has_iff_needs (anchored : c.oracle.Anchored memory)
    (portrays : c.oracle.Portrays memory P r) (apart : P.Apart c.namer SymbolName.render)
    (distinct : (c.oracle.files.map (·.root.file)).Nodup) {canceled : Cancellation Nat}
    {stats : Stats} {s' : State μ ω}
    (completed : Yields (run c canceled) (.start c memory output) (stats, none) s')
    (key : String) : s'.Has key ↔ Portrait.Needs P (r.Visited c.oracle memory) key := by
  obtain ⟨t, -, course, -⟩ := course_run completed
  have roots := demanded_iff_mentioned anchored portrays distinct course
  have nodes := portrayed_run anchored portrays apart completed
  have needed := has_iff_needed completed
  constructor
  · intro has
    refine Needed.rec ?_ ?_ ((needed key).1 has)
    · exact fun root => .root ((roots _).1 root)
    · intro key other before edge ih
      exact .link ih ((linked_iff nodes ((needed key).2 before)).1 edge)
  · intro needs
    apply (needed key).2
    induction needs with
    | root mentioned => exact .root ((roots _).2 mentioned)
    | @link key other _ edge ih =>
        exact .link ih ((linked_iff nodes ((needed key).2 ih)).2 edge)

end Session
end SymbolAtlas
