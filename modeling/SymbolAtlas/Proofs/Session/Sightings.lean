/-
# SymbolAtlas.Proofs.Session.Sightings -- the identifiers that a run comes upon

What a run sees is a list: each identifier that it comes to, with what the identifier denotes
by then (`sightings`).  Which identifiers these are, and in which order, does not depend on the
oracle: they are those of the files in pre-order (`names_sightings`).

The visit of an identifier requests a node by foundings and records the identifier
(`entered_performed`), and what follows the children of a node is made of foundings as well
(`left_performed`).
-/
import SymbolAtlas.Proofs.Session.Course
import SymbolAtlas.Proofs.Session.Founding

set_option autoImplicit false

namespace SymbolAtlas

open Session (Moment schedule)

/-- The identifiers of files in pre-order, each with the path of its file. -/
def Tree.identifiers (files : List Tree) : List (String × Node) :=
  files.flatMap fun file =>
    (file.nodes.filter fun n => n.kind = .identifier).map (file.root.file, ·)

namespace Session

variable {μ ω : Type} {c : Context μ ω}

/-- An identifier that a run came upon, and what it denoted then. -/
structure Sighting where
  path : String
  name : Node
  symbol : Option Symbol
deriving DecidableEq, Repr

/-- The identifier that a moment comes upon. -/
def Moment.named? : Moment → Option (String × Node)
  | .entering path n => if n.kind = .identifier then some (path, n) else none
  | _ => none

/-- What a moment sees when the oracle has this memory. -/
def Moment.sighting? (o : Oracle μ) (memory : μ) (m : Moment) : Option Sighting :=
  m.named?.map fun named => ⟨named.1, named.2, (o.symbolAt named.2.id memory).1⟩

theorem sighting_of_named {m : Moment} {path : String} {name : Node}
    (named : m.named? = some (path, name)) (o : Oracle μ) (memory : μ) :
    m.sighting? o memory = some ⟨path, name, (o.symbolAt name.id memory).1⟩ := by
  rw [Moment.sighting?, named, Option.map_some]

theorem named_of_sighting {m : Moment} {o : Oracle μ} {memory : μ} {x : Sighting}
    (sighted : m.sighting? o memory = some x) : m.named? = some (x.path, x.name) := by
  obtain ⟨⟨path, name⟩, named, rfl⟩ := Option.map_eq_some_iff.1 sighted
  exact named

/-- What is seen at moments that are performed one after the other. -/
def sightings (c : Context μ ω) : List Moment → State μ ω → List Sighting
  | [], _ => []
  | m :: rest, s =>
      (m.sighting? c.oracle s.memory).toList ++ sightings c rest (outcome (m.perform c) s).2

theorem sightings_append {first second : List Moment} {s t : State μ ω}
    (performed : Yields (performAll c first) s () t) :
    sightings c (first ++ second) s = sightings c first s ++ sightings c second t := by
  induction first generalizing s with
  | nil =>
      obtain ⟨-, rfl⟩ := yields_pure.1 performed
      rfl
  | cons m first ih =>
      obtain ⟨_, u, here, later⟩ := yields_bind.1 performed
      have after : (outcome (m.perform c) s).2 = u := congrArg Prod.snd here
      rw [List.cons_append, sightings, sightings, after, ih later, List.append_assoc]

/-- One more moment sees at most one more identifier. -/
theorem sightings_snoc {first : List Moment} {m : Moment} {s t : State μ ω}
    (performed : Yields (performAll c first) s () t) :
    sightings c (first ++ [m]) s =
      sightings c first s ++ (m.sighting? c.oracle t.memory).toList := by
  rw [sightings_append performed, sightings, sightings, List.append_nil]

/-- What a moment sees is seen by the run. -/
theorem mem_sightings {first rest : List Moment} {m : Moment} {s t : State μ ω} {x : Sighting}
    (performed : Yields (performAll c first) s () t)
    (sighted : m.sighting? c.oracle t.memory = some x) :
    x ∈ sightings c (first ++ m :: rest) s := by
  rw [sightings_append performed, sightings, sighted]
  exact List.mem_append_right _ List.mem_cons_self

/-! ## Which identifiers are seen -/

theorem names_sightings_moments (moments : List Moment) (s : State μ ω) :
    (sightings c moments s).map (fun x => (x.path, x.name)) = moments.filterMap Moment.named? := by
  induction moments generalizing s with
  | nil => rfl
  | cons m rest ih =>
      rw [sightings, List.map_append, ih, List.filterMap_cons, Moment.sighting?]
      cases m.named? <;> rfl

mutual

theorem named_moments (path : String) (t : Tree) :
    (t.moments path).filterMap Moment.named? =
      (t.nodes.filter fun n => n.kind = .identifier).map (path, ·) := by
  obtain ⟨n, children⟩ := t
  have inside := named_momentsOf path children
  simp only [Tree.moments, Tree.nodes, List.filterMap_cons, List.filterMap_append, inside,
    Moment.named?, List.filter_cons]
  by_cases kind : n.kind = .identifier <;> simp [kind]

theorem named_momentsOf (path : String) (ts : List Tree) :
    (Tree.momentsOf path ts).filterMap Moment.named? =
      ((Tree.nodesOf ts).filter fun n => n.kind = .identifier).map (path, ·) := by
  match ts with
  | [] => rfl
  | t :: rest =>
      rw [Tree.momentsOf, Tree.nodesOf, List.filterMap_append, List.filter_append,
        List.map_append, named_moments path t, named_momentsOf path rest]

end

theorem named_passage (file : Tree) :
    file.passage.filterMap Moment.named? = Tree.identifiers [file] := by
  have closing : [Moment.closing file.root.file].filterMap Moment.named? = [] := rfl
  rw [Tree.passage, List.filterMap_cons_none rfl, List.filterMap_append, closing, named_moments]
  exact congrArg (· ++ []) rfl

theorem firsts_of_distinct {seen : List String} {files : List Tree}
    (distinct : (files.map (·.root.file)).Nodup)
    (new : ∀ file ∈ files, file.root.file ∉ seen) : Tree.firsts seen files = files := by
  induction files generalizing seen with
  | nil => rfl
  | cons file rest ih =>
      rw [List.map_cons, List.nodup_cons] at distinct
      rw [Tree.firsts, if_neg (new file List.mem_cons_self)]
      refine congrArg (file :: ·) (ih distinct.2 fun other member known => ?_)
      rcases List.mem_cons.1 known with same | old
      · exact distinct.1 (same ▸ List.mem_map_of_mem member)
      · exact new other (List.mem_cons_of_mem _ member) old

theorem named_schedule {files : List Tree} (distinct : (files.map (·.root.file)).Nodup) :
    (schedule files).filterMap Moment.named? = Tree.identifiers files := by
  rw [schedule, firsts_of_distinct distinct (by simp), List.filterMap_flatMap]
  refine List.flatMap_congr fun file _ => ?_
  rw [named_passage]
  exact List.append_nil _

/-- **A run sees the identifiers of its files**, file by file and in pre-order. -/
theorem names_sightings {files : List Tree} (distinct : (files.map (·.root.file)).Nodup)
    (s : State μ ω) :
    (sightings c (schedule files) s).map (fun x => (x.path, x.name)) = Tree.identifiers files := by
  rw [names_sightings_moments, named_schedule distinct]

theorem mem_identifiers {files : List Tree} {path : String} {name : Node} :
    (path, name) ∈ Tree.identifiers files ↔
      ∃ file ∈ files, path = file.root.file ∧ name ∈ file.nodes ∧ name.kind = .identifier := by
  constructor
  · intro member
    obtain ⟨file, inside, here⟩ := List.mem_flatMap.1 member
    obtain ⟨n, found, same⟩ := List.mem_map.1 here
    obtain ⟨rfl, rfl⟩ := Prod.mk.inj same
    obtain ⟨node, kind⟩ := List.mem_filter.1 found
    exact ⟨file, inside, rfl, node, of_decide_eq_true kind⟩
  · rintro ⟨file, inside, rfl, node, kind⟩
    exact List.mem_flatMap.2 ⟨file, inside,
      List.mem_map_of_mem (List.mem_filter.2 ⟨node, decide_eq_true kind⟩)⟩

/-- A run comes to every identifier of its files. -/
theorem exists_named {files : List Tree} (distinct : (files.map (·.root.file)).Nodup)
    {file : Tree} (indexed : file ∈ files) {name : Node} (inside : name ∈ file.nodes)
    (kind : name.kind = .identifier) :
    ∃ first m rest, schedule files = first ++ m :: rest ∧
      m.named? = some (file.root.file, name) := by
  have member : (file.root.file, name) ∈ (schedule files).filterMap Moment.named? := by
    rw [named_schedule distinct]
    exact mem_identifiers.2 ⟨file, indexed, rfl, inside, kind⟩
  obtain ⟨m, moment, named⟩ := List.mem_filterMap.1 member
  obtain ⟨first, rest, split⟩ := List.append_of_mem moment
  exact ⟨first, m, rest, split, named⟩

/-- What a part of a run sees are identifiers of its files. -/
theorem inside_of_mem_sightings {files : List Tree} {first rest : List Moment}
    (split : schedule files = first ++ rest) {s : State μ ω} {x : Sighting}
    (member : x ∈ sightings c first s) : ∃ file ∈ files, x.name ∈ file.nodes := by
  have named : (x.path, x.name) ∈ first.filterMap Moment.named? :=
    names_sightings_moments (c := c) first s ▸ List.mem_map_of_mem member
  obtain ⟨m, moment, entered⟩ := List.mem_filterMap.1 named
  have scheduled : m ∈ schedule files := split ▸ List.mem_append_left _ moment
  cases m with
  | entering path n =>
      simp only [Moment.named?, Option.ite_none_right_eq_some, Option.some.injEq] at entered
      obtain ⟨-, same⟩ := entered
      obtain ⟨rfl, rfl⟩ := Prod.mk.inj same
      obtain ⟨file, indexed, inside, -⟩ := entering_inside scheduled
      exact ⟨file, indexed, inside⟩
  | opening | leaving | closing => cases entered

/-- What is seen denotes what the oracle answers when it is seen. -/
theorem denotes_of_mem_sightings {moments : List Moment} {s : State μ ω} {x : Sighting}
    (member : x ∈ sightings c moments s) :
    ∃ memory, x.symbol = (c.oracle.symbolAt x.name.id memory).1 := by
  induction moments generalizing s with
  | nil => cases member
  | cons m rest ih =>
      rcases List.mem_append.1 member with here | later
      · have sighted := Option.mem_toList.1 here
        obtain ⟨named, -, rfl⟩ := Option.map_eq_some_iff.1 sighted
        exact ⟨s.memory, rfl⟩
      · exact ih later

theorem filter_identifiers (path : String) (files : List Tree) :
    (Tree.identifiers files).filter (fun x => x.1 = path) =
      Tree.identifiers (files.filter fun file => file.root.file = path) := by
  induction files with
  | nil => rfl
  | cons file rest ih =>
      unfold Tree.identifiers at ih ⊢
      rw [List.flatMap_cons, List.filter_append, ih, List.filter_cons]
      by_cases own : file.root.file = path <;> simp [own, List.filter_map, Function.comp_def]

theorem filter_of_distinct {files : List Tree} (distinct : (files.map (·.root.file)).Nodup)
    {file : Tree} (indexed : file ∈ files) :
    files.filter (fun other => other.root.file = file.root.file) = [file] := by
  induction files with
  | nil => cases indexed
  | cons first rest ih =>
      rw [List.map_cons, List.nodup_cons] at distinct
      rw [List.filter_cons]
      rcases List.mem_cons.1 indexed with rfl | later
      · rw [if_pos (by simp)]
        refine congrArg _ (List.filter_eq_nil_iff.2 fun other member same => ?_)
        exact distinct.1 (List.mem_map.2 ⟨other, member, of_decide_eq_true same⟩)
      · rw [if_neg, ih distinct.2 later]
        intro same
        exact distinct.1 (List.mem_map.2 ⟨file, later, (of_decide_eq_true same).symm⟩)

/-- In each of its files a run sees the identifiers in pre-order. -/
theorem names_sightings_of_file {files : List Tree} (distinct : (files.map (·.root.file)).Nodup)
    {file : Tree} (indexed : file ∈ files) (s : State μ ω) :
    ((sightings c (schedule files) s).filter (·.path = file.root.file)).map (·.name) =
      file.nodes.filter (·.kind = .identifier) := by
  have named := congrArg (fun names => (names.filter fun x => x.1 = file.root.file).map Prod.snd)
    (names_sightings (c := c) distinct s)
  simp only [filter_identifiers, filter_of_distinct distinct indexed, List.filter_map,
    List.map_map] at named
  refine named.trans ?_
  simp [Tree.identifiers, Function.comp_def]

/-! ## What is done with an identifier -/

section Performed

variable {memory : μ} {output : ω} {first rest : List Moment} {s s' : State μ ω}

/-- **The visit of a node before its children.**  What is no identifier is passed by; an
identifier that denotes nothing is counted; for one that denotes a symbol the node of the
symbol is founded and the identifier is recorded. -/
theorem entered_performed {path : String} {n : Node}
    (split : schedule c.oracle.files = first ++ .entering path n :: rest)
    (before : Yields (performAll c first) ((State.start c memory output).opened c) () s)
    (ok : s.failure = none)
    (performed : Yields ((Moment.entering path n).perform c) s () s') :
    (Moment.entering path n).sighting? c.oracle s.memory = none ∧ s' = s ∨
    (Moment.entering path n).sighting? c.oracle s.memory = some ⟨path, n, none⟩ ∧
      s' = State.passed { s with memory := (c.oracle.symbolAt n.id s.memory).2 } ∨
    ∃ sym t,
      (Moment.entering path n).sighting? c.oracle s.memory = some ⟨path, n, some sym⟩ ∧
        Foundings c memory (some n.id) s t ∧ Recorded c path sym.key n t s' := by
  obtain ⟨situated, steps, -⟩ := situated_performed split before
  obtain ⟨opened, -⟩ := follows_schedule split
  obtain ⟨d, document, -⟩ := situated.opened path opened
  obtain ⟨b, _, entered, same⟩ := yields_bind.1 performed
  obtain ⟨-, rfl⟩ := yields_pure.1 same
  obtain ⟨-, visited⟩ := yields_enter.1 entered
  unfold Moment.sighting? Moment.named?
  by_cases kind : n.kind = .identifier
  · rw [if_pos ⟨ok, kind⟩] at visited
    simp only [if_pos kind, Option.map_some]
    right
    rcases yields_visitIdentifier document visited with ⟨none, rfl⟩ | ⟨sym, t, found, asked, done⟩
    · exact .inl ⟨by rw [none], rfl⟩
    · have question : Detail c s { s with memory := (c.oracle.symbolAt n.id s.memory).2 } :=
        .asked (.symbolAt ..)
      have raised : c.Raises memory (some n.id)
          { s with memory := (c.oracle.symbolAt n.id s.memory).2 } sym :=
        .inl ⟨n.id, rfl, s.memory, steps.later, found, .refl⟩
      exact .inr ⟨sym, t, by rw [found],
        .head question.founding (foundings_symbolNode raised asked), done⟩
  · rw [if_neg fun both => kind both.2] at visited
    simp only [if_neg kind, Option.map_none]
    exact .inl ⟨trivial, visited⟩

/-- The visit of a node after its children is made of foundings. -/
theorem left_performed {n : Node}
    (split : schedule c.oracle.files = first ++ .leaving n :: rest)
    (before : Yields (performAll c first) ((State.start c memory output).opened c) () s)
    (performed : Yields ((Moment.leaving n).perform c) s () s') :
    Foundings c memory n.nameNode s s' := by
  obtain ⟨situated, steps, -⟩ := situated_performed split before
  obtain ⟨path, opened, unclosed⟩ := follows_schedule split
  exact foundings_leave steps.later (situated.current path opened unclosed) performed

end Performed

end Session
end SymbolAtlas
