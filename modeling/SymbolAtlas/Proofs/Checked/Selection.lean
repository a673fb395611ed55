/-
# SymbolAtlas.Proofs.Checked.Selection -- the order of packages does not show

A file may occur in several packages that were loaded: in one with its tests, in one without, and
in test variants for other packages.  The first package that brings it gets it, and the packages
are put in order before.  Packages of one path that are alike in having tests or not stay in the
order in which they were reported, so who gets a file may depend on that order; which files there
are, and how they are listed, does not (`load_settled`).

The argument reads the selection in three ways that say nothing of the order of packages: its paths
are those that some package brings (`mem_paths_select`), none is there twice, and they are in
strict order, because packages that bring one file have one path.  A list is determined by that.
Packages with their tests come first among those of one path, so they get what they bring
(`owned_of_variant`).
-/
import SymbolAtlas.Proofs.Checked.Loaded

set_option autoImplicit false

namespace SymbolAtlas.Checked

open Text

variable {b : Base} {keeps : String → Bool} {p q : LoadedPackage} {f g : LoadedFile}
  {files more : List LoadedFile} {path : String}

/-! ## Packages -/

/-- A package brings a file: it was checked, it is not the program that runs tests, and the file
is one of its files. -/
structure Facts.Brings (facts : Facts) (p : LoadedPackage) (path : String) : Prop where
  loaded : p ∈ facts.loaded
  checked : p.package.isSome = true
  own : p.isTestProgram = false
  has : path ∈ p.files.map (·.1)

/-- All packages that bring a file have one path. -/
def Facts.Coherent (facts : Facts) : Prop :=
  ∀ path p q, facts.Brings p path → facts.Brings q path → p.path = q.path

/-- Files in the order of the packages that bring them, and within a package by their paths. -/
def Facts.Ordered (facts : Facts) (first second : String) : Prop :=
  ∀ p q, facts.Brings p first → facts.Brings q second →
    p.path < q.path ∨ p.path = q.path ∧ first < second

/-- A file is to be indexed: it stands in the module, it is let through, and a package brings it. -/
structure Base.Wants (b : Base) (keeps : String → Bool) (path : String) : Prop where
  inside : Path.isWithin b.root path = true
  kept : keeps path = true
  brought : ∃ p, b.facts.Brings p path

/-- The same findings with other packages, or with the same ones in another order. -/
def Base.reloaded (b : Base) (loaded : List LoadedPackage) : Base :=
  { b with facts := { b.facts with loaded } }

theorem brings_reloaded {loaded : List LoadedPackage} (same : loaded.Perm b.facts.loaded) :
    (b.reloaded loaded).facts.Brings p path ↔ b.facts.Brings p path := by
  constructor
  · rintro ⟨there, checked, own, has⟩
    exact ⟨same.mem_iff.1 there, checked, own, has⟩
  · rintro ⟨there, checked, own, has⟩
    exact ⟨same.mem_iff.2 there, checked, own, has⟩

theorem wants_reloaded {loaded : List LoadedPackage} (same : loaded.Perm b.facts.loaded) :
    (b.reloaded loaded).Wants keeps path ↔ b.Wants keeps path := by
  constructor
  · rintro ⟨inside, kept, p, brings⟩
    exact ⟨inside, kept, p, (brings_reloaded same).1 brings⟩
  · rintro ⟨inside, kept, p, brings⟩
    exact ⟨inside, kept, p, (brings_reloaded same).2 brings⟩

theorem brings_of_mem_filesOf (loaded : p ∈ b.facts.loaded) (member : f ∈ b.filesOf p) :
    b.facts.Brings p f.path ∧ f.packagePath = p.path := by
  unfold Base.filesOf at member
  split at member
  · cases member
  · rename_i package checked
    split at member
    · cases member
    · rename_i own
      obtain ⟨⟨path, parsed⟩, has, rfl⟩ := List.mem_map.1 member
      exact ⟨⟨loaded, by simp [checked], by simpa using own, List.mem_map_of_mem has⟩, rfl⟩

theorem exists_of_brings (brings : b.facts.Brings p path) : ∃ f ∈ b.filesOf p, f.path = path := by
  obtain ⟨-, checked, own, has⟩ := brings
  obtain ⟨package, checked⟩ := Option.isSome_iff_exists.1 checked
  obtain ⟨entry, listed, rfl⟩ := List.mem_map.1 has
  unfold Base.filesOf
  simp only [checked, own]
  exact ⟨_, List.mem_map_of_mem listed, rfl⟩

/-! ## First come -/

theorem mem_paths_foldl_addFresh : path ∈ (more.foldl addFresh files).map (·.path) ↔
    path ∈ files.map (·.path) ∨ path ∈ more.map (·.path) := by
  induction more generalizing files with
  | nil => simp
  | cons g more ih =>
      have step : path ∈ (addFresh files g).map (·.path) ↔
          path ∈ files.map (·.path) ∨ path = g.path := by
        unfold addFresh
        split
        · rename_i known
          obtain ⟨f, member, same⟩ := List.any_eq_true.1 known
          have there : g.path ∈ files.map (·.path) :=
            List.mem_map.2 ⟨f, member, of_decide_eq_true same⟩
          constructor
          · exact .inl
          · rintro (old | rfl)
            · exact old
            · exact there
        · simp
      rw [List.foldl_cons, ih, step, List.map_cons, List.mem_cons, or_assoc]

/-- What is added later has a path of its own. -/
theorem mem_foldl_addFresh_cases (member : f ∈ more.foldl addFresh files) :
    f ∈ files ∨ f ∈ more ∧ f.path ∉ files.map (·.path) := by
  induction more generalizing files with
  | nil => exact .inl member
  | cons g more ih =>
      have paths {path : String} (old : path ∈ files.map (·.path)) :
          path ∈ (addFresh files g).map (·.path) :=
        (mem_paths_foldl_addFresh : _ ∈ ([g].foldl addFresh files).map (·.path) ↔ _).2 (.inl old)
      rcases ih member with early | ⟨late, fresh⟩
      · unfold addFresh at early
        split at early
        · exact .inl early
        · rename_i absent
          rcases List.mem_append.1 early with old | new
          · exact .inl old
          · obtain rfl := List.mem_singleton.1 new
            refine .inr ⟨List.mem_cons_self, fun old => absent ?_⟩
            obtain ⟨h, there, same⟩ := List.mem_map.1 old
            exact List.any_eq_true.2 ⟨h, there, decide_eq_true same⟩
      · exact .inr ⟨List.mem_cons_of_mem _ late, fun old => fresh (paths old)⟩

/-- A path that occurs early is taken from there. -/
theorem mem_of_early (member : f ∈ (files ++ more).foldl addFresh []) (early : g ∈ files)
    (same : g.path = f.path) : f ∈ files := by
  rw [List.foldl_append] at member
  rcases mem_foldl_addFresh_cases member with kept | ⟨-, fresh⟩
  · exact (mem_foldl_addFresh kept).resolve_left List.not_mem_nil
  · exact absurd (mem_paths_foldl_addFresh.2 (.inr (List.mem_map.2 ⟨g, early, same⟩))) fresh

/-! ## Orders -/

theorem LoadedPackage.isBefore_trans (a b c : LoadedPackage) (first : a.isBefore b = true)
    (second : b.isBefore c = true) : a.isBefore c = true := by
  simp only [isBefore, Bool.or_eq_true, Bool.and_eq_true, Bool.not_eq_true', decide_eq_true_eq] at *
  grind

theorem LoadedPackage.isBefore_total (a b : LoadedPackage) :
    (a.isBefore b || b.isBefore a) = true := by
  simp only [isBefore, Bool.or_eq_true, Bool.and_eq_true, Bool.not_eq_true', decide_eq_true_eq]
  grind

theorem LoadedFile.isBefore_trans (a b c : LoadedFile) (first : a.isBefore b = true)
    (second : b.isBefore c = true) : a.isBefore c = true := by
  simp only [isBefore, Bool.or_eq_true, Bool.and_eq_true, decide_eq_true_eq] at *
  grind

theorem LoadedFile.isBefore_total (a b : LoadedFile) : (a.isBefore b || b.isBefore a) = true := by
  simp only [isBefore, Bool.or_eq_true, Bool.and_eq_true, decide_eq_true_eq]
  grind

/-- Of packages with one path, one with its tests comes before one without. -/
theorem isTestVariant_of_isBefore (same : q.path = p.path) (before : q.isBefore p = true)
    (variant : p.isTestVariant = true) : q.isTestVariant = true := by
  simp only [LoadedPackage.isBefore, same, variant, Bool.or_eq_true, Bool.and_eq_true,
    decide_eq_true_eq] at before
  rcases before with less | ⟨-, own | none⟩
  · exact absurd less (String.lt_irrefl p.path)
  · exact own
  · cases none

/-! ## The selection -/

/-- The files that packages bring and that are to be indexed, in the order of the packages. -/
def Base.wanted (b : Base) (keeps : String → Bool) (ps : List LoadedPackage) : List LoadedFile :=
  (ps.flatMap b.filesOf).filter fun f => Path.isWithin b.root f.path && keeps f.path

theorem select_eq (b : Base) (keeps : String → Bool) :
    b.select keeps = ((b.wanted keeps (b.facts.loaded.mergeSort LoadedPackage.isBefore)).foldl
      addFresh []).mergeSort LoadedFile.isBefore := rfl

theorem mem_wanted {ps : List LoadedPackage} : f ∈ b.wanted keeps ps ↔
    (∃ p ∈ ps, f ∈ b.filesOf p) ∧ Path.isWithin b.root f.path = true ∧ keeps f.path = true := by
  simp [Base.wanted, List.mem_filter, List.mem_flatMap]

theorem wanted_append (ps qs : List LoadedPackage) :
    b.wanted keeps (ps ++ qs) = b.wanted keeps ps ++ b.wanted keeps qs := by
  simp [Base.wanted, List.flatMap_append, List.filter_append]

/-- A selected file comes from a package that brings it. -/
theorem exists_of_mem_select (selected : f ∈ b.select keeps) :
    f ∈ b.wanted keeps (b.facts.loaded.mergeSort LoadedPackage.isBefore) ∧
      ∃ p, b.facts.Brings p f.path ∧ f.packagePath = p.path := by
  have added := mem_foldl_addFresh ((List.mergeSort_perm _ _).mem_iff.1 selected)
  have wanted := added.resolve_left List.not_mem_nil
  obtain ⟨⟨p, there, inside⟩, -⟩ := mem_wanted.1 wanted
  exact ⟨wanted, p, brings_of_mem_filesOf ((List.mergeSort_perm _ _).mem_iff.1 there) inside⟩

/-- **The paths of the selection** are those that are wanted. -/
theorem mem_paths_select : path ∈ (b.select keeps).map (·.path) ↔ b.Wants keeps path := by
  rw [select_eq, ((List.mergeSort_perm _ _).map _).mem_iff, mem_paths_foldl_addFresh]
  constructor
  · intro member
    obtain ⟨f, wanted, rfl⟩ := List.mem_map.1 (member.resolve_left (by simp))
    obtain ⟨⟨p, there, inside⟩, within, kept⟩ := mem_wanted.1 wanted
    have loaded := (List.mergeSort_perm _ _).mem_iff.1 there
    exact ⟨within, kept, p, (brings_of_mem_filesOf loaded inside).1⟩
  · rintro ⟨within, kept, p, brings⟩
    obtain ⟨f, inside, rfl⟩ := exists_of_brings brings
    have there :=
      (List.mergeSort_perm b.facts.loaded LoadedPackage.isBefore).mem_iff.2 brings.loaded
    exact .inr (List.mem_map.2 ⟨f, mem_wanted.2 ⟨⟨p, there, inside⟩, within, kept⟩, rfl⟩)

/-- The selection is in order: packages by their paths, files by theirs. -/
theorem ordered_select (coherent : b.facts.Coherent) :
    ((b.select keeps).map (·.path)).Pairwise b.facts.Ordered := by
  have sorted := List.pairwise_mergeSort LoadedFile.isBefore_trans LoadedFile.isBefore_total
    ((b.wanted keeps (b.facts.loaded.mergeSort LoadedPackage.isBefore)).foldl addFresh [])
  rw [← select_eq] at sorted
  have apart := List.pairwise_map.1 (nodup_select b keeps)
  rw [List.pairwise_map]
  refine (sorted.and apart).imp_of_mem fun {f g} there there' both p q first second => ?_
  obtain ⟨-, p', brings, own⟩ := exists_of_mem_select there
  obtain ⟨-, q', brings', own'⟩ := exists_of_mem_select there'
  rw [coherent _ p p' first brings, coherent _ q q' second brings', ← own, ← own']
  obtain ⟨before, other⟩ := both
  simp only [LoadedFile.isBefore, Bool.or_eq_true, Bool.and_eq_true, decide_eq_true_eq] at before
  rcases before with less | ⟨same, le⟩
  · exact .inl less
  · exact .inr ⟨same, by grind⟩

/-- **The order of packages does not show in the paths.** -/
theorem paths_reloaded (coherent : b.facts.Coherent) {loaded : List LoadedPackage}
    (same : loaded.Perm b.facts.loaded) :
    ((b.reloaded loaded).select keeps).map (·.path) = (b.select keeps).map (·.path) := by
  have coherent' : (b.reloaded loaded).facts.Coherent := fun path p q first second =>
    coherent path p q ((brings_reloaded same).1 first) ((brings_reloaded same).1 second)
  have alike {x y : String} (ordered : (b.reloaded loaded).facts.Ordered x y) :
      b.facts.Ordered x y := fun p q first second =>
    ordered p q ((brings_reloaded same).2 first) ((brings_reloaded same).2 second)
  have members : (((b.reloaded loaded).select keeps).map (·.path)).Perm
      ((b.select keeps).map (·.path)) := by
    rw [List.perm_ext_iff_of_nodup (nodup_select _ _) (nodup_select _ _)]
    intro path
    rw [mem_paths_select, mem_paths_select, wants_reloaded same]
  refine List.Perm.eq_of_pairwise ?_ ((ordered_select coherent').imp alike)
    (ordered_select coherent) members
  intro x y there there' first second
  obtain ⟨p, brings⟩ := (wants_reloaded same).1 (mem_paths_select.1 there) |>.brought
  obtain ⟨q, brings'⟩ := (mem_paths_select.1 there').brought
  have before := first p q brings brings'
  have after := second q p brings' brings
  grind

/-- **What a package with its tests brings is owned by such a package.** -/
theorem owned_of_variant (coherent : b.facts.Coherent) (selected : f ∈ b.select keeps)
    (brings : b.facts.Brings p f.path) (variant : p.isTestVariant = true) :
    ∃ q ∈ b.facts.loaded, q.isTestVariant = true ∧ f ∈ b.filesOf q := by
  have order := List.pairwise_mergeSort LoadedPackage.isBefore_trans LoadedPackage.isBefore_total
    b.facts.loaded
  have perm := List.mergeSort_perm b.facts.loaded LoadedPackage.isBefore
  obtain ⟨wanted, -⟩ := exists_of_mem_select selected
  have taken := (List.mergeSort_perm _ _).mem_iff.1 selected
  obtain ⟨g, inside, same⟩ := exists_of_brings brings
  obtain ⟨before, after, split⟩ := List.append_of_mem (perm.mem_iff.2 brings.loaded)
  rw [split] at taken order
  have early : f ∈ b.wanted keeps (before ++ [p]) := by
    obtain ⟨-, within, kept⟩ := mem_wanted.1 wanted
    have listed :
        f ∈ (b.wanted keeps (before ++ [p]) ++ b.wanted keeps after).foldl addFresh [] := by
      rw [← wanted_append, List.append_assoc, List.singleton_append]
      exact taken
    refine mem_of_early listed (mem_wanted.2 ⟨⟨p, by simp, inside⟩, ?_, ?_⟩) same
    · rwa [same]
    · rwa [same]
  obtain ⟨⟨q, there, owned⟩, -⟩ := mem_wanted.1 early
  have loaded : q ∈ b.facts.loaded := by
    apply perm.mem_iff.1
    rw [split]
    rcases List.mem_append.1 there with first | last
    · exact List.mem_append_left _ first
    · exact List.mem_append_right _ (List.mem_singleton.1 last ▸ List.mem_cons_self)
  refine ⟨q, loaded, ?_, owned⟩
  rcases List.mem_append.1 there with first | last
  · have own := coherent _ q p (brings_of_mem_filesOf loaded owned).1 brings
    have isBefore := (List.pairwise_append.1 order).2.2 q first p List.mem_cons_self
    exact isTestVariant_of_isBefore own isBefore variant
  · exact List.mem_singleton.1 last ▸ variant

/-! ## Loading -/

theorem map_paths_load (b : Base) (keeps : String → Bool) :
    (Program.load b keeps).map Program.paths =
      if (b.select keeps).map (·.path) = [] then .error (.noPackages b.root)
      else .ok ((b.select keeps).map (·.path)) := by
  cases loaded : Program.load b keeps with
  | error e =>
      unfold Program.load at loaded
      split at loaded
      · rename_i none
        cases loaded
        simp [none, Except.map]
      · cases loaded
  | ok p =>
      have some_ : (b.select keeps).map (·.path) ≠ [] := by
        intro none
        unfold Program.load at loaded
        rw [List.map_eq_nil_iff.1 none] at loaded
        cases loaded
      rw [if_neg some_, ← (built_of_load loaded).2.paths_eq]
      rfl

/-- A module with a file that is wanted can be loaded. -/
theorem exists_load (wants : b.Wants keeps path) : ∃ p, Program.load b keeps = .ok p := by
  have paths := map_paths_load b keeps
  rw [if_neg (List.ne_nil_of_mem (mem_paths_select.2 wants))] at paths
  cases loaded : Program.load b keeps with
  | error e => simp [loaded, Except.map] at paths
  | ok p => exact ⟨p, rfl⟩

/-- **Loading settles the files of a module, whatever the order of packages.**  The files that are
wanted are listed once each, by their packages and paths, and the same list comes of every order;
and a file that a package with its tests brings is owned by such a package. -/
theorem load_settled (b : Base) (keeps : String → Bool) (coherent : b.facts.Coherent) :
    ∃ paths : List String, paths.Nodup ∧ (∀ path, path ∈ paths ↔ b.Wants keeps path) ∧
      paths.Pairwise b.facts.Ordered ∧
      ∀ loaded, loaded.Perm b.facts.loaded →
        (Program.load (b.reloaded loaded) keeps).map Program.paths =
            (if paths = [] then .error (.noPackages b.root) else .ok paths) ∧
          ∀ f ∈ (b.reloaded loaded).select keeps,
            (∃ p, b.facts.Brings p f.path ∧ p.isTestVariant = true) →
              ∃ q ∈ loaded, q.isTestVariant = true ∧ f ∈ (b.reloaded loaded).filesOf q := by
  refine ⟨(b.select keeps).map (·.path), nodup_select b keeps, fun path => mem_paths_select,
    ordered_select coherent, fun loaded same => ⟨?_, fun f selected => ?_⟩⟩
  · rw [map_paths_load, paths_reloaded coherent same]
    rfl
  · rintro ⟨p, brings, variant⟩
    have coherent' : (b.reloaded loaded).facts.Coherent := fun path p q first second =>
      coherent path p q ((brings_reloaded same).1 first) ((brings_reloaded same).1 second)
    exact owned_of_variant coherent' selected ((brings_reloaded same).2 brings) variant

/-- A module with tests in the package and beside it, as its packages are reported: the package,
the package with its tests, the tests beside it, and the program that runs them. -/
def testedLoads : List LoadedPackage :=
  [{ id := "m", path := "m", package := some 0, files := [("/m/b.go", {}), ("/m/a.go", {})] },
    { id := "m [m.test]", path := "m", package := some 1,
      files := [("/m/b.go", {}), ("/m/a.go", {}), ("/m/a_test.go", {})] },
    { id := "m_test [m.test]", path := "m_test", package := some 2, files := [("/m/x_test.go", {})] },
    { id := "m.test", path := "m.test", package := some 3, files := [("/cache/main.go", {})] }]

/-- What is known of that module. -/
def testedBase : Base := { root := "/m", facts := { loaded := testedLoads } }

theorem coherent_testedBase : testedBase.facts.Coherent := by
  rintro path p q ⟨loaded, -, -, has⟩ ⟨loaded', -, -, has'⟩
  simp only [testedBase, testedLoads, List.mem_cons, List.not_mem_nil, or_false] at loaded loaded'
  rcases loaded with rfl | rfl | rfl | rfl <;> rcases loaded' with rfl | rfl | rfl | rfl <;>
    simp at has has' ⊢ <;> grind

theorem brings_testedBase : testedBase.facts.Brings testedLoads[1] "/m/a.go" ∧
    testedBase.facts.Brings testedLoads[2] "/m/x_test.go" :=
  ⟨⟨by simp [testedBase, testedLoads], rfl, by decide, by simp [testedLoads]⟩,
    ⟨by simp [testedBase, testedLoads], rfl, by decide, by simp [testedLoads]⟩⟩

theorem wants_testedBase : testedBase.Wants (fun _ => true) "/m/a.go" ∧
    testedBase.Wants (fun _ => true) "/m/x_test.go" :=
  ⟨⟨by decide, rfl, _, brings_testedBase.1⟩, ⟨by decide, rfl, _, brings_testedBase.2⟩⟩

theorem load_settled_tested :
    testedBase.facts.Coherent ∧ testedLoads.reverse.Perm testedBase.facts.loaded ∧
      ∃ paths : List String, paths.Nodup ∧ "/m/a.go" ∈ paths ∧ "/m/x_test.go" ∈ paths ∧
        "/cache/main.go" ∉ paths ∧ paths.Pairwise testedBase.facts.Ordered ∧
        (Program.load testedBase fun _ => true).map Program.paths = .ok paths ∧
        (Program.load (testedBase.reloaded testedLoads.reverse) fun _ => true).map Program.paths =
          .ok paths ∧
        ∃ f ∈ (testedBase.reloaded testedLoads.reverse).select fun _ => true,
          f.path = "/m/a.go" ∧ ∃ q ∈ testedLoads.reverse, q.isTestVariant = true ∧
            f ∈ (testedBase.reloaded testedLoads.reverse).filesOf q := by
  have reversed : testedLoads.reverse.Perm testedBase.facts.loaded := List.reverse_perm _
  obtain ⟨paths, once, wanted, ordered, settled⟩ :=
    load_settled testedBase (fun _ => true) coherent_testedBase
  have first := (wanted _).2 wants_testedBase.1
  have some_ : paths ≠ [] := List.ne_nil_of_mem first
  have forth := (settled testedLoads (.refl _)).1
  obtain ⟨back, owned⟩ := settled testedLoads.reverse reversed
  rw [if_neg some_] at forth back
  refine ⟨coherent_testedBase, reversed, paths, once, first, (wanted _).2 wants_testedBase.2, ?_,
    ordered, forth, back, ?_⟩
  · intro listed
    exact absurd ((wanted _).1 listed).inside (by decide)
  · obtain ⟨f, selected, same⟩ :=
      List.mem_map.1 (mem_paths_select.2 ((wants_reloaded reversed).2 wants_testedBase.1))
    refine ⟨f, selected, same, owned f selected ⟨testedLoads[1], ?_, by decide⟩⟩
    rw [same]
    exact brings_testedBase.1

end SymbolAtlas.Checked
