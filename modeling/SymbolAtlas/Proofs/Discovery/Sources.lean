/-
# SymbolAtlas.Proofs.Discovery.Sources -- a walk that leaves out whole directories

A walk through a project goes from a directory to what stands in it, but not into a directory that
is left out.  One step of it is known (`sourcesAt_step`), and by induction on the depth the walk
finds what stands at the end of a way on which no directory is left out
(`mem_sourcesAt_iff`).  No way through a tree is longer than the tree (`Way.length_le`), so the
depth that the walk is given is enough.  Seen from a file, this is a condition on each directory
above it (`way_iff`), and on the file itself: these are the sources, each of them once and in order
(`find_exact`).
-/
import SymbolAtlas.CommandLine.Libraries
import SymbolAtlas.Proofs.Discovery.Patterns
import SymbolAtlas.Proofs.Text.Nesting

set_option autoImplicit false

namespace SymbolAtlas.Discovery

open Text Text.Path

section Walk

variable [Globs]

/-! ## Ways -/

/-- A walk that has come to an entry through `names` comes to another one through `rest`. -/
inductive Way (tree : FileTree) (root real : String) (o : Options) :
    List String → Entry → List String → Entry → Prop
  | here {names : List String} {e : Entry} : Way tree root real o names e [] e
  | down {names rest : List String} {name : String} {e e' : Entry} : IsName name →
      tree.entries.get? (under real (names ++ [name])) = some e →
      (e = .directory → ¬ Prunes tree root o names name) →
      Way tree root real o (names ++ [name]) e rest e' →
      Way tree root real o names .directory (name :: rest) e'

variable {tree : FileTree} {root real : String} {o : Options} {names rest : List String}
  {e e' : Entry} {f : SourceFile} {content : ByteArray} {modified : Int}

namespace Way

theorem proper (h : Way tree root real o names e rest e') : ∀ name ∈ rest, IsName name := by
  induction h with
  | here => exact List.forall_mem_nil _
  | down isName _ _ _ ih => exact List.forall_mem_cons.2 ⟨isName, ih⟩

/-- Something stands wherever a way comes through. -/
theorem stands (h : Way tree root real o names e rest e') {first : List String}
    (some_ : first ≠ []) (begins : first <+: rest) :
    ∃ e, tree.entries.get? (under real (names ++ first)) = some e := by
  induction h generalizing first with
  | here => exact absurd (List.prefix_nil.1 begins) some_
  | @down names rest name e e' _ found _ _ ih =>
      obtain ⟨more, rfl, begins'⟩ := (List.prefix_cons_iff.1 begins).resolve_left some_
      by_cases last : more = []
      · exact ⟨e, by rwa [last]⟩
      · have further := ih last begins'
        rwa [List.append_assoc] at further

/-- **No way is longer than the tree**: it comes through as many different paths as it has names. -/
theorem length_le (h : Way tree root real o [] e rest e') (some_ : real ≠ "") :
    rest.length ≤ tree.entries.size := by
  have names := h.proper
  have taken : ∀ n, ∀ name ∈ rest.take n, IsName name := fun n name member =>
    names name (List.mem_of_mem_take member)
  have distinct : ((List.range rest.length).map fun n => under real (rest.take (n + 1))).Nodup := by
    refine List.Nodup.map_on (fun n member n' member' same => ?_) List.nodup_range
    have lengths := congrArg List.length ((under_inj some_ (taken _) (taken _)).1 same)
    rw [List.length_take, List.length_take] at lengths
    have := List.mem_range.1 member
    have := List.mem_range.1 member'
    omega
  have keys : ((List.range rest.length).map fun n => under real (rest.take (n + 1))) ⊆
      tree.entries.keys := by
    intro path member
    obtain ⟨n, inside, rfl⟩ := List.mem_map.1 member
    have more : rest.take (n + 1) ≠ [] := List.ne_nil_of_length_pos (by
      have := List.mem_range.1 inside
      rw [List.length_take]
      omega)
    exact Table.mem_keys_iff.2 (h.stands more (List.take_prefix _ _))
  have lengths := (List.subperm_of_subset distinct keys).length_le
  rwa [List.length_map, List.length_range, Table.keys, List.length_map] at lengths

end Way

theorem way_nil_iff : Way tree root real o names e [] e' ↔ e = e' := by
  constructor
  · rintro ⟨⟩
    rfl
  · rintro rfl
    exact .here

theorem way_cons_iff {name : String} : Way tree root real o names e (name :: rest) e' ↔
    e = .directory ∧ IsName name ∧ ∃ next,
      tree.entries.get? (under real (names ++ [name])) = some next ∧
      (next = .directory → ¬ Prunes tree root o names name) ∧
      Way tree root real o (names ++ [name]) next rest e' := by
  constructor
  · intro way
    cases way with
    | down isName found enters tail => exact ⟨rfl, isName, _, found, enters, tail⟩
  · rintro ⟨rfl, isName, next, found, enters, tail⟩
    exact .down isName found enters tail

/-- The walk goes into a directory. -/
def Enters (tree : FileTree) (root real : String) (o : Options) (before : List String)
    (name : String) : Prop :=
  tree.entries.get? (under real (before ++ [name])) = some .directory ∧
    ¬ Prunes tree root o before name

omit [Globs] in
/-- What holds of each name but the last, with the names before it. -/
theorem forall_above_cons {P : List String → String → Prop} {name : String} :
    (∀ before other after, name :: rest = before ++ other :: after → after ≠ [] → P before other) ↔
      (rest ≠ [] → P [] name) ∧
        ∀ before other after, rest = before ++ other :: after → after ≠ [] →
          P (name :: before) other := by
  constructor
  · intro all
    exact ⟨fun more => all [] name rest rfl more, fun before other after shape more =>
      all (name :: before) other after (by rw [shape]; rfl) more⟩
  · rintro ⟨first, later⟩ before other after shape more
    cases before with
    | nil =>
        obtain ⟨rfl, rfl⟩ := List.cons.inj shape
        exact first more
    | cons start before =>
        obtain ⟨rfl, behind⟩ := List.cons.inj shape
        exact later before other after behind more

/-- **A way to a file, seen from the file**: the walk goes into each directory above it. -/
theorem way_iff : Way tree root real o names .directory rest (.file content modified) ↔
    rest ≠ [] ∧ (∀ name ∈ rest, IsName name) ∧
      tree.entries.get? (under real (names ++ rest)) = some (.file content modified) ∧
      ∀ before name after, rest = before ++ name :: after → after ≠ [] →
        Enters tree root real o (names ++ before) name := by
  induction rest generalizing names with
  | nil => simp [way_nil_iff]
  | cons name rest ih =>
      rw [way_cons_iff, forall_above_cons, List.forall_mem_cons, List.append_nil]
      by_cases last : rest = []
      · subst last
        simp [way_nil_iff]
      · have deeper : ∀ before : List String,
            names ++ [name] ++ before = names ++ name :: before := fun _ => by simp
        constructor
        · rintro ⟨-, isName, next, found, enters, tail⟩
          obtain ⟨other, more, rfl⟩ := List.exists_cons_of_ne_nil last
          obtain ⟨rfl, -⟩ := way_cons_iff.1 tail
          obtain ⟨-, proper, stands, above⟩ := ih.1 tail
          rw [deeper] at stands
          simp only [deeper] at above
          exact ⟨List.cons_ne_nil _ _, ⟨isName, proper⟩, stands,
            fun _ => ⟨found, enters rfl⟩, above⟩
        · rintro ⟨-, ⟨isName, proper⟩, stands, first, above⟩
          obtain ⟨found, enters⟩ := first last
          refine ⟨rfl, isName, _, found, fun _ => enters, ih.2 ⟨last, proper, ?_, ?_⟩⟩
          · rwa [deeper]
          · simpa only [deeper] using above

/-! ## The walk -/

/-- The path of a directory as it is shown. -/
def shown (names : List String) : String := if names = [] then "." else ofElements names

omit [Globs] in
theorem shown_concat (name : String) : shown (names ++ [name]) = ofElements (names ++ [name]) :=
  if_neg (by simp)

omit [Globs] in
theorem below_shown (proper : ∀ name ∈ names, IsName name) (name : String) :
    below (shown names) name = shown (names ++ [name]) := by
  rw [shown_concat, shown, below]
  by_cases top : names = []
  · rw [if_pos top, if_pos rfl, top, List.nil_append, ofElements_singleton]
  · have away : ofElements names ≠ "." := fun same => by
      have text : (Place.inside names proper).text = ofElements names := Place.text_inside top
      exact top (Place.text_inside_eq_dot_iff.1 (text.trans same))
    rw [if_neg top, if_neg away, ofElements_append top (by simp), ofElements_singleton]

/-- A project that can be walked through: the paths of its tree are in normal form, the directory
`real` stands at its root, and its ignore file can be read. -/
structure Walkable (tree : FileTree) (root real : String) (o : Options) : Prop where
  clean : tree.Clean
  isReal : Absolute real
  nonempty : root ≠ ""
  legible : IsLegible tree root o

/-- Whether the walk goes on to what stands in a directory. -/
def goesOn (tree : FileTree) (root : String) (patterns before : List String) (name : String) :
    Entry → Bool
  | .directory =>
      !(skipsDirectory patterns name (ofElements (before ++ [name])) ||
        isModule tree (under root (before ++ [name])))
  | _ => true

theorem goesOn_iff (h : Walkable tree root real o) {before : List String} {name : String}
    (proper : ∀ part ∈ before, IsName part) (isName : IsName name) :
    goesOn tree root (patternsOf tree root o) before name e = true ↔
      (e = .directory → ¬ Prunes tree root o before name) := by
  cases e with
  | directory => simp only [goesOn, Bool.not_eq_true', ← Bool.not_eq_true,
      prunes_iff h.legible proper isName, true_implies]
  | file | link => simp [goesOn]

variable {patterns : List String} {tests : Bool} {depth : Nat} {path relative place : String}

@[simp]
theorem sourcesAt_link {target : String} :
    sourcesAt tree patterns tests depth (.link target) place path relative = [] := by
  cases depth <;> rfl

theorem sourcesAt_file :
    sourcesAt tree patterns tests depth (.file content modified) place path relative =
      if isSource patterns tests path relative then
        [{ path, relative, size := content.size, modified := modified * 1000000000 }]
      else [] := by
  cases depth <;> rfl

@[simp]
theorem sourcesAt_zero :
    sourcesAt tree patterns tests 0 .directory place path relative = [] :=
  rfl

/-- **One step of the walk**: from a directory to what stands in it. -/
theorem sourcesAt_step (h : Walkable tree root real o)
    (proper : ∀ name ∈ names, IsName name) :
    sourcesAt tree patterns tests (depth + 1) .directory (under real names) (under root names)
        (shown names) =
      (tree.children (under real names)).flatMap fun child =>
        if goesOn tree root patterns names child.1 child.2 then
          sourcesAt tree patterns tests depth child.2 (under real (names ++ [child.1]))
            (under root (names ++ [child.1])) (shown (names ++ [child.1]))
        else [] := by
  refine List.flatMap_congr fun child member => ?_
  obtain ⟨name, e⟩ := child
  obtain ⟨isName, -⟩ := (FileTree.mem_children_iff h.clean (h.isReal.under proper)).1 member
  simp only [join_under h.isReal.ne_empty proper isName, join_under h.nonempty proper isName,
    below_shown proper]
  cases e with
  | directory =>
      simp only [goesOn, Bool.not_eq_true', shown_concat]
      split <;> rename_i pruned <;> simp [pruned]
  | file | link => simp only [goesOn, if_true]

/-- The source file that names lead to. -/
def sourceOf (root : String) (names : List String) (content : ByteArray) (modified : Int) :
    SourceFile where
  path := under root names
  relative := shown names
  size := content.size
  modified := modified * 1000000000

/-- A file that a way leads to and that is a source of the project. -/
structure FoundAt (tree : FileTree) (root real : String) (o : Options) (names : List String)
    (e : Entry) (f : SourceFile) (rest : List String) (content : ByteArray) (modified : Int) :
    Prop where
  way : Way tree root real o names e rest (.file content modified)
  isSource : isSource (patternsOf tree root o) o.tests (under root (names ++ rest))
    (shown (names ++ rest)) = true
  same : f = sourceOf root (names ++ rest) content modified

/-- What is no directory is found where the walk comes to it, however deep it is. -/
theorem mem_sourcesAt_of_leaf (leaf : e ≠ .directory) :
    f ∈ sourcesAt tree (patternsOf tree root o) o.tests depth e (under real names)
        (under root names) (shown names) ↔
      ∃ rest content modified, rest.length ≤ depth ∧
        FoundAt tree root real o names e f rest content modified := by
  have alone : (∃ rest content modified, rest.length ≤ depth ∧
      FoundAt tree root real o names e f rest content modified) ↔
      ∃ content modified, FoundAt tree root real o names e f [] content modified := by
    constructor
    · rintro ⟨rest, content, modified, -, found⟩
      cases rest with
      | nil => exact ⟨content, modified, found⟩
      | cons name rest => exact absurd (way_cons_iff.1 found.way).1 leaf
    · rintro ⟨content, modified, found⟩
      exact ⟨[], content, modified, Nat.zero_le _, found⟩
  rw [alone]
  constructor
  · intro member
    cases e with
    | directory => exact absurd rfl leaf
    | link target =>
        rw [sourcesAt_link] at member
        cases member
    | file content modified =>
        rw [sourcesAt_file] at member
        split at member
        · rename_i isSource
          refine ⟨content, modified, .here, ?_, ?_⟩
          · rwa [List.append_nil]
          · rw [List.append_nil]
            exact List.mem_singleton.1 member
        · cases member
  · rintro ⟨content, modified, way, isSource, rfl⟩
    obtain rfl := way_nil_iff.1 way
    rw [List.append_nil] at isSource ⊢
    rw [sourcesAt_file, if_pos isSource]
    exact List.mem_singleton.2 rfl

/-- **What the walk finds**: the files at the end of the ways that are not longer than it is
deep. -/
theorem mem_sourcesAt_iff (h : Walkable tree root real o) (proper : ∀ name ∈ names, IsName name) :
    f ∈ sourcesAt tree (patternsOf tree root o) o.tests depth e (under real names)
        (under root names) (shown names) ↔
      ∃ rest content modified, rest.length ≤ depth ∧
        FoundAt tree root real o names e f rest content modified := by
  induction depth generalizing names e with
  | zero =>
      by_cases leaf : e = .directory
      · subst leaf
        refine iff_of_false (by simp) ?_
        rintro ⟨rest, content, modified, short, found⟩
        obtain rfl := List.eq_nil_of_length_eq_zero (Nat.le_zero.1 short)
        exact absurd (way_nil_iff.1 found.way) (by simp)
      · exact mem_sourcesAt_of_leaf leaf
  | succ depth ih =>
      by_cases leaf : e = .directory
      · subst leaf
        have deeper : ∀ (name : String) (rest : List String),
            names ++ [name] ++ rest = names ++ name :: rest := fun _ _ => by simp
        have stands : ∀ {name : String} {next : Entry},
            (name, next) ∈ tree.children (under real names) ↔
              IsName name ∧ tree.entries.get? (under real (names ++ [name])) = some next := by
          intro name next
          rw [FileTree.mem_children_iff h.clean (h.isReal.under proper)]
          refine and_congr_right fun isName => ?_
          rw [under_under h.isReal.ne_empty proper isName]
        rw [sourcesAt_step h proper, List.mem_flatMap]
        constructor
        · rintro ⟨⟨name, next⟩, member, found⟩
          obtain ⟨isName, here⟩ := stands.1 member
          split at found
          · rename_i goes
            obtain ⟨rest, content, modified, short, way, isSource, same⟩ :=
              (ih (List.forall_mem_append.2 ⟨proper, by simpa using isName⟩)).1 found
            rw [deeper] at isSource same
            exact ⟨name :: rest, content, modified, Nat.succ_le_succ short,
              .down isName here ((goesOn_iff h proper isName).1 goes) way, isSource, same⟩
          · cases found
        · rintro ⟨rest, content, modified, short, way, isSource, same⟩
          cases rest with
          | nil => exact absurd (way_nil_iff.1 way) (by simp)
          | cons name rest =>
              obtain ⟨-, isName, next, here, enters, tail⟩ := way_cons_iff.1 way
              rw [← deeper] at isSource same
              refine ⟨(name, next), stands.2 ⟨isName, here⟩, ?_⟩
              rw [if_pos ((goesOn_iff h proper isName).2 enters)]
              exact (ih (List.forall_mem_append.2 ⟨proper, by simpa using isName⟩)).2
                ⟨rest, content, modified, Nat.le_of_succ_le_succ short, tail, isSource, same⟩
      · exact mem_sourcesAt_of_leaf leaf

/-! ## Each source once, and in order -/

omit [Globs] in
theorem shown_inj {names' : List String} (proper : ∀ name ∈ names, IsName name)
    (proper' : ∀ name ∈ names', IsName name) : shown names = shown names' ↔ names = names' := by
  have text : ∀ {names : List String} (proper : ∀ name ∈ names, IsName name),
      shown names = (Place.inside names proper).text := by
    intro names proper
    rw [shown]
    split
    · rename_i top
      subst top
      rfl
    · rename_i some_
      exact (Place.text_inside some_).symm
  rw [text proper, text proper', Place.text_inside_inj]

theorem nodup_sourcesAt_of_leaf (leaf : e ≠ .directory) :
    ((sourcesAt tree patterns tests depth e place path relative).map (·.relative)).Nodup := by
  cases e with
  | directory => exact absurd rfl leaf
  | link target => simp
  | file content modified =>
      rw [sourcesAt_file]
      split <;> simp

/-- What is found behind some names goes on from them. -/
theorem relative_of_mem (h : Walkable tree root real o) (proper : ∀ name ∈ names, IsName name)
    (found : f ∈ sourcesAt tree (patternsOf tree root o) o.tests depth e (under real names)
      (under root names) (shown names)) :
    ∃ rest, (∀ name ∈ names ++ rest, IsName name) ∧ f.relative = shown (names ++ rest) := by
  obtain ⟨rest, content, modified, -, way, -, rfl⟩ := (mem_sourcesAt_iff h proper).1 found
  exact ⟨rest, List.forall_mem_append.2 ⟨proper, way.proper⟩, rfl⟩

/-- No path is found twice. -/
theorem nodup_sourcesAt (h : Walkable tree root real o) (proper : ∀ name ∈ names, IsName name) :
    ((sourcesAt tree (patternsOf tree root o) o.tests depth e (under real names)
        (under root names) (shown names)).map (·.relative)).Nodup := by
  induction depth generalizing names e with
  | zero =>
      by_cases leaf : e = .directory
      · subst leaf
        simp
      · exact nodup_sourcesAt_of_leaf leaf
  | succ depth ih =>
      by_cases leaf : e = .directory
      · subst leaf
        have named : ∀ {child : String × Entry}, child ∈ tree.children (under real names) →
            ∀ part ∈ names ++ [child.1], IsName part := by
          intro child member
          have isName := ((FileTree.mem_children_iff h.clean (h.isReal.under proper)).1 member).1
          exact List.forall_mem_append.2 ⟨proper, by simpa using isName⟩
        rw [sourcesAt_step h proper, List.map_flatMap, List.nodup_flatMap]
        refine ⟨fun child member => ?_, ?_⟩
        · split
          · exact ih (named member)
          · exact List.nodup_nil
        · refine (List.pairwise_map.1 FileTree.nodup_children).imp_of_mem ?_
          intro first second here here' other
          refine List.disjoint_left.2 fun relative found found' => ?_
          obtain ⟨f, member, rfl⟩ := List.mem_map.1 found
          obtain ⟨f', member', same⟩ := List.mem_map.1 found'
          obtain ⟨rest, all, shape⟩ :=
            relative_of_mem h (named here) (List.mem_ite_nil_right.1 member).2
          obtain ⟨rest', all', shape'⟩ :=
            relative_of_mem h (named here') (List.mem_ite_nil_right.1 member').2
          rw [shape, shape', shown_inj all' all, List.append_assoc, List.append_assoc,
            List.append_cancel_left_eq] at same
          exact other (List.cons.inj same).1.symm
      · exact nodup_sourcesAt_of_leaf leaf

omit [Globs] in
/-- Sorting puts files with different paths in strict order. -/
theorem pairwise_mergeSort {fs : List SourceFile} (distinct : (fs.map (·.relative)).Nodup) :
    (fs.mergeSort fun a b => a.relative ≤ b.relative).Pairwise
      fun a b => a.relative < b.relative := by
  have ordered : (fs.mergeSort fun a b => a.relative ≤ b.relative).Pairwise
      fun a b => a.relative ≤ b.relative := by
    refine (List.pairwise_mergeSort (fun a b c first second => ?_) (fun a b => ?_) fs).imp
      of_decide_eq_true
    · exact decide_eq_true (le_trans (of_decide_eq_true first) (of_decide_eq_true second))
    · simpa using le_total a.relative b.relative
  have apart := ((List.mergeSort_perm fs fun a b => a.relative ≤ b.relative).map _).nodup_iff.2
    distinct
  exact (ordered.and (List.pairwise_map.1 apart)).imp fun both => lt_of_le_of_ne both.1 both.2

/-- **A source of a project**: a regular file with the extension of the language that no pattern
excludes, in a directory that the walk goes into. -/
structure Belongs (tree : FileTree) (root real : String) (o : Options) (before : List String)
    (name : String) (content : ByteArray) (modified : Int) : Prop where
  proper : ∀ part ∈ before, IsName part
  isName : IsName name
  stands : tree.entries.get? (under real (before ++ [name])) = some (.file content modified)
  entered : ∀ above directory rest, before = above ++ directory :: rest →
    Enters tree root real o above directory
  extension : Path.extension name = ".go"
  isNoTest : o.tests = true ∨ Path.endsWith name "_test.go" = false
  kept : ∀ pattern, IsPattern tree root o pattern → ¬ Excludes pattern (before ++ [name]) false

/-- What the walk finds from the root are the sources. -/
theorem foundAt_iff (h : Walkable tree root real o) {before : List String} {name : String} :
    FoundAt tree root real o [] .directory f (before ++ [name]) content modified ↔
      Belongs tree root real o before name content modified ∧
        f = sourceOf root (before ++ [name]) content modified := by
  have above : (∀ first directory after, before ++ [name] = first ++ directory :: after →
      after ≠ [] → Enters tree root real o ([] ++ first) directory) ↔
      ∀ first directory rest, before = first ++ directory :: rest →
        Enters tree root real o first directory := by
    constructor
    · intro all first directory rest shape
      exact all first directory (rest ++ [name]) (by rw [shape]; simp) (by simp)
    · intro all first directory after shape more
      obtain ⟨rest, last, rfl⟩ := List.eq_nil_or_concat after |>.resolve_left more
      rw [List.concat_eq_append, ← List.cons_append, ← List.append_assoc] at shape
      exact all first directory rest (List.append_inj' shape rfl).1
  constructor
  · rintro ⟨way, isSource, same⟩
    obtain ⟨-, proper, stands, entered⟩ := way_iff.1 way
    obtain ⟨proper, isName⟩ := List.forall_mem_append.1 proper
    have isName := isName name List.mem_cons_self
    rw [List.nil_append, shown_concat] at isSource
    obtain ⟨extension, isNoTest, kept⟩ :=
      (isSource_iff h.legible h.nonempty proper isName).1 isSource
    exact ⟨⟨proper, isName, stands, above.1 entered, extension, isNoTest, kept⟩, same⟩
  · rintro ⟨⟨proper, isName, stands, entered, extension, isNoTest, kept⟩, same⟩
    refine ⟨way_iff.2 ⟨by simp, List.forall_mem_append.2 ⟨proper, by simpa using isName⟩, stands,
      above.2 entered⟩, ?_, same⟩
    rw [List.nil_append, shown_concat]
    exact (isSource_iff h.legible h.nonempty proper isName).2 ⟨extension, isNoTest, kept⟩

/-- The path of the root of a project. -/
def topOf (tree : FileTree) (root : String) : String := Path.absolute tree.workingDirectory root

/-- **What is found in a project**, whatever a pattern is said to match.  If a directory stands at
the root, not a link to one, and the lines of the ignore file can be read, the sources are exactly
the regular files with the extension of the language that are not excluded and above which no
directory is left out, each of them once and sorted by the path from the root. -/
theorem find_exact (tree : FileTree) (root : String) (o : Options) (clean : tree.Clean)
    (directory : tree.lstat (topOf tree root) = .ok .directory)
    (legible : IsLegible tree (topOf tree root) o) :
    ∃ real, tree.resolveParent (topOf tree root) = .ok real ∧
      (find tree root o).Pairwise (fun a b => a.relative < b.relative) ∧
      ∀ f, f ∈ find tree root o ↔ ∃ before name content modified,
        Belongs tree (topOf tree root) real o before name content modified ∧
          f = sourceOf (topOf tree root) (before ++ [name]) content modified := by
  obtain ⟨real, resolved, -⟩ := FileTree.resolveParent_of_lstat directory
  have h : Walkable tree (topOf tree root) real o :=
    ⟨clean, FileTree.absolute_of_resolveWith resolved, FileTree.ne_empty_of_resolveWith resolved,
      legible⟩
  have none : ∀ name ∈ ([] : List String), IsName name := List.forall_mem_nil _
  have walked : find tree root o =
      (sourcesAt tree (patternsOf tree (topOf tree root) o) o.tests (tree.entries.size + 1)
        .directory (under real []) (under (topOf tree root) []) (shown [])).mergeSort
          fun a b => a.relative ≤ b.relative := by
    rw [under_nil h.isReal.ne_empty h.isReal.2, under_nil h.nonempty (clean_absolute h.nonempty)]
    have isTop : Path.absolute tree.workingDirectory root = topOf tree root := rfl
    unfold find
    simp only [isTop, resolved, directory]
    rfl
  rw [walked]
  refine ⟨real, resolved, pairwise_mergeSort (nodup_sourcesAt h none), fun f => ?_⟩
  rw [List.mem_mergeSort, mem_sourcesAt_iff h none]
  constructor
  · rintro ⟨rest, content, modified, -, found⟩
    obtain ⟨before, name, shape⟩ :=
      (List.eq_nil_or_concat rest).resolve_left (way_iff.1 found.way).1
    rw [shape, List.concat_eq_append] at found
    exact ⟨before, name, content, modified, (foundAt_iff h).1 found⟩
  · rintro ⟨before, name, content, modified, belongs⟩
    have found := (foundAt_iff h).2 belongs
    exact ⟨_, content, modified,
      Nat.le_succ_of_le (found.way.length_le h.isReal.ne_empty), found⟩

end Walk

/-! ### A project with generated files -/

/-- What stands in a project with generated files and a link. -/
def workshopEntries : List (String × Entry) :=
  [("/p", .directory), ("/p/.xrefignore", .file "gen/\n# tools\n".toUTF8 0),
    ("/p/b.go", .link "sub/e.go"), ("/p/gen", .directory),
    ("/p/gen/c.go", .file "package gen\n".toUTF8 7), ("/p/sub", .directory),
    ("/p/sub/e.go", .file "package sub\n".toUTF8 8)]

/-- The tree of the project. -/
def workshop : FileTree := { entries := .ofList workshopEntries }

theorem clean_workshop : workshop.Clean := by
  intro path e found
  have all : ∀ entry ∈ workshopEntries, Absolute entry.1 := by decide +kernel
  exact all _ (Table.mem_of_get?_ofList found)

theorem isLegible_workshop : IsLegible workshop "/p" {} := by
  have read : workshop.readBytes? (ignoreFileOf "/p" {}) =
      some "gen/\n# tools\n".toUTF8.toList := by
    cbv
  intro bytes found
  rw [read] at found
  obtain rfl := Option.some.inj found
  decide +kernel

theorem patterns_workshop : patternsOf workshop "/p" {} = ["gen"] := by
  decide +kernel

theorem find_exact_workshop :
    workshop.Clean ∧ workshop.lstat "/p" = .ok .directory ∧ IsLegible workshop "/p" {} ∧
      sourceOf "/p" ["sub", "e.go"] "package sub\n".toUTF8 8 ∈ find workshop "/p" {} ∧
      ∀ f ∈ find workshop "/p" {}, f.relative ≠ "gen/c.go" := by
  have here : topOf workshop "/p" = "/p" := by decide +kernel
  have directory : workshop.lstat "/p" = .ok .directory := by cbv
  obtain ⟨real, resolved, -, sources⟩ := find_exact workshop "/p" {} clean_workshop
    (by rw [here]; exact directory) (by rw [here]; exact isLegible_workshop)
  rw [here] at resolved sources
  obtain rfl : "/p" = real := Except.ok.inj
    ((show workshop.resolveParent "/p" = .ok "/p" by cbv).symm.trans resolved)
  have sub : IsName "sub" := ⟨by decide, by decide, by decide, by decide⟩
  have gen : IsName "gen" := ⟨by decide, by decide, by decide, by decide⟩
  have source : IsName "e.go" := ⟨by decide, by decide, by decide, by decide⟩
  have source' : IsName "c.go" := ⟨by decide, by decide, by decide, by decide⟩
  have top : ∀ part ∈ ([] : List String), IsName part := List.forall_mem_nil _
  refine ⟨clean_workshop, directory, isLegible_workshop,
    (sources _).2 ⟨["sub"], "e.go", _, _, ?_, rfl⟩, fun f found same => ?_⟩
  · have entered : Enters workshop "/p" "/p" {} [] "sub" :=
      ⟨by cbv, mt (prunes_iff isLegible_workshop top sub).2
        (Bool.eq_false_iff.1 (by rw [patterns_workshop]; decide +kernel))⟩
    obtain ⟨extension, isNoTest, kept⟩ := (isSource_iff isLegible_workshop (by decide)
      (show ∀ part ∈ ["sub"], IsName part by simpa using sub) source).1
        (by rw [patterns_workshop]; decide +kernel)
    refine ⟨by simpa using sub, source, by cbv, ?_, extension, isNoTest, kept⟩
    rintro (_ | ⟨first, above⟩) name rest shape
    · obtain ⟨rfl, -⟩ := List.cons.inj shape
      exact entered
    · simp at shape
  · obtain ⟨before, name, content, modified, belongs, rfl⟩ := (sources f).1 found
    have names : before ++ [name] = ["gen"] ++ ["c.go"] :=
      (shown_inj (List.forall_mem_append.2 ⟨belongs.proper, by simpa using belongs.isName⟩)
        (by simpa using ⟨gen, source'⟩)).1 same
    obtain ⟨rfl, -⟩ := List.append_inj' names rfl
    have pruned := (prunes_iff isLegible_workshop top gen).1
      (by rw [patterns_workshop]; decide +kernel)
    exact (belongs.entered [] "gen" [] rfl).2 pruned

end SymbolAtlas.Discovery
