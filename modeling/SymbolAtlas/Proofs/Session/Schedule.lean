/-
# SymbolAtlas.Proofs.Session.Schedule -- the moments of a run

A run passes through a list of moments that the files alone determine, `schedule`: a
file is opened, the nodes of its tree are entered and left, the file is closed.  A path
that occurs again is passed over.

`follows_schedule` says that every moment of a schedule stands in its place: visits stand
between the opening and the closing of their file, and no path is opened twice.
-/
import Mathlib.Data.List.Nodup
import SymbolAtlas.Syntax

set_option autoImplicit false

namespace SymbolAtlas

namespace Session

/-- What a run does at one time. -/
inductive Moment where
  | opening (path : String)
  | entering (path : String) (n : Node)
  | leaving (n : Node)
  | closing (path : String)
deriving DecidableEq, Repr

end Session

open Session (Moment)

namespace Tree

mutual

/-- The moments of the visit of a tree. -/
def moments (path : String) : Tree → List Moment
  | node n children => .entering path n :: (momentsOf path children ++ [.leaving n])

/-- The moments of the visits of trees one after the other. -/
def momentsOf (path : String) : List Tree → List Moment
  | [] => []
  | t :: rest => moments path t ++ momentsOf path rest

end

/-- The moments of a file. -/
def passage (file : Tree) : List Moment :=
  .opening file.root.file :: (file.moments file.root.file ++ [.closing file.root.file])

/-- The first file of each path that was not seen before. -/
def firsts (seen : List String) : List Tree → List Tree
  | [] => []
  | file :: rest =>
      if file.root.file ∈ seen then firsts seen rest
      else file :: firsts (file.root.file :: seen) rest

end Tree

namespace Session

/-- The moments of a run over `files`. -/
def schedule (files : List Tree) : List Moment := (Tree.firsts [] files).flatMap Tree.passage

mutual

/-- The moments of a tree are visits of its nodes. -/
theorem mem_moments {path : String} {t : Tree} {m : Moment} (member : m ∈ t.moments path) :
    ∃ n ∈ t.nodes, m = .entering path n ∨ m = .leaving n := by
  obtain ⟨n, children⟩ := t
  simp only [Tree.moments, List.mem_cons, List.mem_append, List.not_mem_nil, or_false] at member
  rcases member with rfl | inside | rfl
  · exact ⟨n, by simp [Tree.nodes], .inl rfl⟩
  · obtain ⟨n', node, visit⟩ := mem_momentsOf inside
    exact ⟨n', by simp [Tree.nodes, node], visit⟩
  · exact ⟨n, by simp [Tree.nodes], .inr rfl⟩

theorem mem_momentsOf {path : String} {ts : List Tree} {m : Moment}
    (member : m ∈ Tree.momentsOf path ts) :
    ∃ n ∈ Tree.nodesOf ts, m = .entering path n ∨ m = .leaving n := by
  match ts with
  | [] => simp [Tree.momentsOf] at member
  | t :: rest =>
      rcases List.mem_append.1 member with first | later
      · obtain ⟨n, node, visit⟩ := mem_moments first
        exact ⟨n, by simp [Tree.nodesOf, node], visit⟩
      · obtain ⟨n, node, visit⟩ := mem_momentsOf later
        exact ⟨n, by simp [Tree.nodesOf, node], visit⟩

end

theorem mem_of_mem_firsts {seen : List String} {files : List Tree} {file : Tree}
    (member : file ∈ Tree.firsts seen files) : file ∈ files := by
  induction files generalizing seen with
  | nil => exact member
  | cons first rest ih =>
      rw [Tree.firsts] at member
      split at member
      · exact List.mem_cons_of_mem _ (ih member)
      · rcases List.mem_cons.1 member with rfl | later
        · exact List.mem_cons_self
        · exact List.mem_cons_of_mem _ (ih later)

theorem mem_passage {file : Tree} {m : Moment} (member : m ∈ file.passage) :
    m = .opening file.root.file ∨ m = .closing file.root.file ∨
      ∃ n ∈ file.nodes, m = .entering file.root.file n ∨ m = .leaving n := by
  simp only [Tree.passage, List.mem_cons, List.mem_append, List.not_mem_nil, or_false] at member
  rcases member with opening | visit | closing
  · exact .inl opening
  · exact .inr (.inr (mem_moments visit))
  · exact .inr (.inl closing)

theorem path_of_opening {file : Tree} {path : String} (member : .opening path ∈ file.passage) :
    path = file.root.file := by
  rcases mem_passage member with same | same | ⟨n, -, same | same⟩
  · exact Moment.opening.inj same
  · cases same
  · cases same
  · cases same

theorem path_of_closing {file : Tree} {path : String} (member : .closing path ∈ file.passage) :
    path = file.root.file := by
  rcases mem_passage member with same | same | ⟨n, -, same | same⟩
  · cases same
  · exact Moment.closing.inj same
  · cases same
  · cases same

/-- What a run opens and closes are its files, and it visits their nodes. -/
theorem mem_schedule {files : List Tree} {m : Moment} (member : m ∈ schedule files) :
    ∃ file ∈ files, m = .opening file.root.file ∨ m = .closing file.root.file ∨
      ∃ n ∈ file.nodes, m = .entering file.root.file n ∨ m = .leaving n := by
  obtain ⟨file, chosen, inside⟩ := List.mem_flatMap.1 member
  exact ⟨file, mem_of_mem_firsts chosen, mem_passage inside⟩

theorem opening_inside {files : List Tree} {path : String}
    (member : .opening path ∈ schedule files) : path ∈ files.map (·.root.file) := by
  obtain ⟨file, inside, same | same | ⟨n, -, same | same⟩⟩ := mem_schedule member
  · exact List.mem_map.2 ⟨file, inside, (Moment.opening.inj same).symm⟩
  · cases same
  · cases same
  · cases same

theorem closing_inside {files : List Tree} {path : String}
    (member : .closing path ∈ schedule files) : path ∈ files.map (·.root.file) := by
  obtain ⟨file, inside, same | same | ⟨n, -, same | same⟩⟩ := mem_schedule member
  · cases same
  · exact List.mem_map.2 ⟨file, inside, (Moment.closing.inj same).symm⟩
  · cases same
  · cases same

theorem entering_inside {files : List Tree} {path : String} {n : Node}
    (member : .entering path n ∈ schedule files) :
    ∃ file ∈ files, n ∈ file.nodes ∧ path = file.root.file := by
  obtain ⟨file, inside, same | same | ⟨n', visited, same | same⟩⟩ := mem_schedule member
  · cases same
  · cases same
  · obtain ⟨rfl, rfl⟩ := Moment.entering.inj same
    exact ⟨file, inside, visited, rfl⟩
  · cases same

theorem leaving_inside {files : List Tree} {n : Node} (member : .leaving n ∈ schedule files) :
    ∃ file ∈ files, n ∈ file.nodes := by
  obtain ⟨file, inside, same | same | ⟨n', visited, same | same⟩⟩ := mem_schedule member
  · cases same
  · cases same
  · cases same
  · obtain rfl := Moment.leaving.inj same
    exact ⟨file, inside, visited⟩

/-! ## The order of the moments

A path is opened once, and the moments of its file stand between its opening and its
closing. -/

theorem distinct_firsts (seen : List String) (files : List Tree) :
    ((Tree.firsts seen files).map (·.root.file)).Nodup ∧
      ∀ file ∈ Tree.firsts seen files, file.root.file ∉ seen := by
  induction files generalizing seen with
  | nil => exact ⟨List.nodup_nil, by simp [Tree.firsts]⟩
  | cons file rest ih =>
      rw [Tree.firsts]
      split
      · exact ih seen
      · rename_i new
        obtain ⟨distinct, unseen⟩ := ih (file.root.file :: seen)
        refine ⟨?_, fun other member => ?_⟩
        · rw [List.map_cons, List.nodup_cons]
          refine ⟨fun again => ?_, distinct⟩
          obtain ⟨other, member, same⟩ := List.mem_map.1 again
          exact unseen other member (by simp [same])
        · rcases List.mem_cons.1 member with rfl | later
          · exact new
          · exact fun old => unseen other later (List.mem_cons_of_mem _ old)

/-- What was done before a moment: the file of a visit is open, and no file is open when the
next one is opened. -/
def Moment.Follows (first : List Moment) : Moment → Prop
  | .opening path => .opening path ∉ first ∧ .closing path ∉ first ∧
      ∀ other, .opening other ∈ first → .closing other ∈ first
  | .entering path _ | .closing path => .opening path ∈ first ∧ .closing path ∉ first
  | .leaving _ => ∃ path, .opening path ∈ first ∧ .closing path ∉ first

theorem follows_passage {file : Tree} {first rest : List Moment} {m : Moment}
    (split : file.passage = first ++ m :: rest) : m.Follows first := by
  have member : m ∈ file.passage := split ▸ by simp
  cases first with
  | nil =>
      obtain ⟨rfl, -⟩ := List.cons.inj split
      exact ⟨by simp, by simp, by simp⟩
  | cons opening first =>
      obtain ⟨rfl, tail⟩ := List.cons.inj split
      have visits : first ⊆ file.moments file.root.file := by
        rcases List.append_eq_append_iff.1 tail with ⟨more, rfl, last⟩ | ⟨more, whole, -⟩
        · cases more with
          | nil => simp
          | cons x more => simp at last
        · simp [whole]
      have noClosing : .closing file.root.file ∉ first := by
        intro inside
        obtain ⟨n, -, entering | leaving⟩ := mem_moments (visits inside)
        · cases entering
        · cases leaving
      have noOpening : .opening file.root.file ∉
          file.moments file.root.file ++ [.closing file.root.file] := by
        intro inside
        rcases List.mem_append.1 inside with visit | closing
        · obtain ⟨n, -, entering | leaving⟩ := mem_moments visit
          · cases entering
          · cases leaving
        · simp at closing
      rcases mem_passage member with rfl | rfl | ⟨n, -, rfl | rfl⟩
      · exact absurd (tail ▸ by simp) noOpening
      · exact ⟨by simp, by simpa using noClosing⟩
      · exact ⟨by simp, by simpa using noClosing⟩
      · exact ⟨file.root.file, by simp, by simpa using noClosing⟩

/-- The moments of another file before it change nothing for a moment. -/
theorem Moment.Follows.behind {file : Tree} {files : List Tree} {first : List Moment} {m : Moment}
    (new : file.root.file ∉ files.map (·.root.file))
    (inside : first ⊆ files.flatMap Tree.passage) (own : m ∈ files.flatMap Tree.passage)
    (h : m.Follows first) : m.Follows (file.passage ++ first) := by
  have apart : ∀ {path}, .opening path ∈ files.flatMap Tree.passage →
      path ≠ file.root.file := by
    rintro path member rfl
    obtain ⟨other, chosen, here⟩ := List.mem_flatMap.1 member
    exact new (List.mem_map.2 ⟨other, chosen, (path_of_opening here).symm⟩)
  have open_ : ∀ {path}, .opening path ∈ first ∧ .closing path ∉ first →
      .opening path ∈ file.passage ++ first ∧ .closing path ∉ file.passage ++ first := by
    rintro path ⟨opening, unclosed⟩
    refine ⟨List.mem_append_right _ opening, fun closing => ?_⟩
    rcases List.mem_append.1 closing with before | here
    · exact apart (inside opening) (path_of_closing before)
    · exact unclosed here
  cases m with
  | opening path =>
      refine ⟨fun again => ?_, fun again => ?_, fun other opening => ?_⟩
      · rcases List.mem_append.1 again with before | here
        · exact apart own (path_of_opening before)
        · exact h.1 here
      · rcases List.mem_append.1 again with before | here
        · exact apart own (path_of_closing before)
        · exact h.2.1 here
      · rcases List.mem_append.1 opening with before | here
        · obtain rfl := path_of_opening before
          exact List.mem_append_left _ (by simp [Tree.passage])
        · exact List.mem_append_right _ (h.2.2 other here)
  | entering path n => exact open_ h
  | closing path => exact open_ h
  | leaving n =>
      obtain ⟨path, here⟩ := h
      exact ⟨path, open_ here⟩

theorem follows_flatMap {files : List Tree} (distinct : (files.map (·.root.file)).Nodup)
    {first rest : List Moment} {m : Moment}
    (split : files.flatMap Tree.passage = first ++ m :: rest) : m.Follows first := by
  induction files generalizing first with
  | nil => simp at split
  | cons file files ih =>
      rw [List.map_cons, List.nodup_cons] at distinct
      rw [List.flatMap_cons] at split
      have later : ∀ {before}, files.flatMap Tree.passage = before ++ m :: rest →
          m.Follows (file.passage ++ before) := fun whole =>
        (ih distinct.2 whole).behind distinct.1 (by simp [whole]) (by simp [whole])
      rcases List.append_eq_append_iff.1 split with ⟨before, rfl, whole⟩ | ⟨own, whole, tail⟩
      · exact later whole
      · cases own with
        | nil =>
            rw [List.append_nil] at whole
            rw [← whole, ← List.append_nil file.passage]
            exact later (by simpa using tail.symm)
        | cons m' own =>
            obtain ⟨rfl, -⟩ := List.cons.inj tail
            exact follows_passage whole

/-- **Every moment of a schedule stands in its place.** -/
theorem follows_schedule {files : List Tree} {first rest : List Moment} {m : Moment}
    (split : schedule files = first ++ m :: rest) : m.Follows first :=
  follows_flatMap (distinct_firsts [] files).1 split

/-! ## The file of a moment -/

/-- A moment stands in the passage of a file, behind the passages of other files. -/
theorem passage_of_split {files : List Tree} {first rest : List Moment} {m : Moment}
    (split : files.flatMap Tree.passage = first ++ m :: rest) :
    ∃ before file after own more, files = before ++ file :: after ∧
      first = before.flatMap Tree.passage ++ own ∧ file.passage = own ++ m :: more := by
  induction files generalizing first with
  | nil => simp at split
  | cons file files ih =>
      rw [List.flatMap_cons] at split
      have later : ∀ {tail}, files.flatMap Tree.passage = tail ++ m :: rest →
          first = file.passage ++ tail → ∃ before other after own more,
            file :: files = before ++ other :: after ∧
            first = before.flatMap Tree.passage ++ own ∧ other.passage = own ++ m :: more := by
        rintro tail whole rfl
        obtain ⟨before, other, after, own, more, rfl, rfl, passage⟩ := ih whole
        exact ⟨file :: before, other, after, own, more, rfl, by simp, passage⟩
      rcases List.append_eq_append_iff.1 split with ⟨tail, rfl, whole⟩ | ⟨own, passage, tail⟩
      · exact later whole rfl
      · cases own with
        | nil => exact @later [] tail.symm (by simpa using passage.symm)
        | cons m' own =>
            obtain ⟨rfl, -⟩ := List.cons.inj tail
            exact ⟨[], file, files, first, own, rfl, rfl, passage⟩

/-- A node is left while its file is open, since another file with this path would have been closed
before. -/
theorem leaving_open {files : List Tree} {first rest : List Moment} {n : Node}
    (split : schedule files = first ++ .leaving n :: rest) :
    ∃ file ∈ files, n ∈ file.nodes ∧ .opening file.root.file ∈ first ∧
      .closing file.root.file ∉ first := by
  obtain ⟨before, file, after, own, more, chosen, rfl, passage⟩ := passage_of_split split
  obtain ⟨path, opened, unclosed⟩ := follows_passage passage
  have opening : .opening path ∈ file.passage := passage ▸ List.mem_append_left _ opened
  obtain rfl := path_of_opening opening
  have leaving : .leaving n ∈ file.passage := passage ▸ by simp
  have inside : n ∈ file.nodes := by
    rcases mem_passage leaving with same | same | ⟨n', inside, same | same⟩
    · cases same
    · cases same
    · cases same
    · exact Moment.leaving.inj same ▸ inside
  have indexed : file ∈ Tree.firsts [] files := chosen ▸ by simp
  refine ⟨file, mem_of_mem_firsts indexed, inside, List.mem_append_right _ opened, fun closed => ?_⟩
  rcases List.mem_append.1 closed with earlier | here
  · obtain ⟨other, member, closing⟩ := List.mem_flatMap.1 earlier
    have distinct := (distinct_firsts [] files).1
    rw [chosen, List.map_append, List.map_cons] at distinct
    exact (List.nodup_append.1 distinct).2.2 _ (List.mem_map_of_mem member) _
      List.mem_cons_self (path_of_closing closing).symm
  · exact unclosed here

end Session
end SymbolAtlas
