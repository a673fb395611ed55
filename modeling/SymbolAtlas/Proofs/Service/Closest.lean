/-
# SymbolAtlas.Proofs.Service.Closest -- the project that a file selects

A file with a rooted path selects a project by itself.  Roots that contain it lie above one
another, so the one with the longest text is the one with the most names
(`Path.size_lt_of_depth_lt`), and the fold over the projects of a store, in whatever order they
are listed, ends on a deepest root (`closer_fold`).  The fold starts from a project without a
name, which stands for none: a project that is stored without a name is taken for none too
(`nameless_overlooked`).

The path that is then looked up is worked out once more, apart from the session that stored it.
Both are the same for every root, also where the file lies outside of it (`shownPath_eq`).
-/
import Mathlib
import SymbolAtlas.Proofs.Session.Step
import SymbolAtlas.Proofs.Store.Writing
import SymbolAtlas.Proofs.Text.Nesting
import SymbolAtlas.Service.Target

set_option autoImplicit false

namespace SymbolAtlas

namespace Text.Path

variable {file : String}

/-- No rooted path lies within the place where one stands. -/
theorem within?_empty (rooted : isRooted file = true) : within? "" file = none := by
  have rooted' : isRooted (clean file) = true := by
    obtain ⟨p, leads⟩ := exists_place file
    rw [leads.clean, Place.isRooted_text, leads.rooted, rooted]
  have here : clean "" = "." := by decide
  have dot : isRooted "." = false := by decide
  have other : clean file ≠ "." := fun same => by
    rw [same, dot] at rooted'
    cases rooted'
  rw [within?, relative?]
  simp only [here, if_neg other, rooted', dot]
  rfl

end Text.Path

namespace Service

open Text Text.Path

variable {file : String} {p best : Store.Project} {projects : List Store.Project}

/-! ## The closest project -/

/-- What a project is preferred for. -/
theorem closer_cases (file : String) (best p : Store.Project) :
    (closer file best p = p ∧ isWithin p.rootPath file = true ∧
        best.rootPath.utf8ByteSize < p.rootPath.utf8ByteSize) ∨
      (closer file best p = best ∧ (isWithin p.rootPath file = true →
        p.rootPath.utf8ByteSize ≤ best.rootPath.utf8ByteSize)) := by
  unfold closer
  split
  · rename_i better
    rw [Bool.and_eq_true, decide_eq_true_eq] at better
    exact .inl ⟨rfl, better⟩
  · rename_i worse
    rw [Bool.and_eq_true, decide_eq_true_eq, not_and] at worse
    exact .inr ⟨rfl, fun within => Nat.not_lt.1 (worse within)⟩

/-- What is kept of projects is the first one or holds the file, and no root that holds the file is
longer. -/
theorem closer_fold (file : String) (projects : List Store.Project) (best : Store.Project) :
    let kept := projects.foldl (closer file) best
    (kept = best ∨ (kept ∈ projects ∧ isWithin kept.rootPath file = true)) ∧
      best.rootPath.utf8ByteSize ≤ kept.rootPath.utf8ByteSize ∧
      ∀ p ∈ projects, isWithin p.rootPath file = true →
        p.rootPath.utf8ByteSize ≤ kept.rootPath.utf8ByteSize := by
  induction projects generalizing best with
  | nil => exact ⟨.inl rfl, Nat.le_refl _, by simp⟩
  | cons p projects ih =>
      obtain ⟨kept, longest, most⟩ := ih (closer file best p)
      rw [List.foldl_cons]
      refine ⟨?_, ?_, List.forall_mem_cons.2 ⟨fun within => ?_, most⟩⟩
      · rcases kept with same | ⟨member, within⟩
        · rw [same]
          rcases closer_cases file best p with ⟨taken, within, -⟩ | ⟨left, -⟩
          · rw [taken]
            exact .inr ⟨List.mem_cons_self, within⟩
          · exact .inl left
        · exact .inr ⟨List.mem_cons_of_mem _ member, within⟩
      · rcases closer_cases file best p with ⟨taken, -, less⟩ | ⟨left, -⟩
        · rw [taken] at longest ⊢
          omega
        · rwa [left] at longest ⊢
      · rcases closer_cases file best p with ⟨taken, -, -⟩ | ⟨left, bound⟩
        · rwa [taken] at longest ⊢
        · rw [left] at longest ⊢
          exact Nat.le_trans (bound within) longest

/-- **The closest project** is one with a deepest root of those that contain the file. -/
theorem closestProject?_cases (absolute : ∀ p ∈ projects, Absolute p.rootPath)
    (named : ∀ p ∈ projects, p.name ≠ "") (rooted : isRooted file = true) :
    (closestProject? projects file = none ∧ ∀ p ∈ projects, ¬ Contains p.rootPath file) ∨
    ∃ p ∈ projects, closestProject? projects file = some p ∧ Contains p.rootPath file ∧
      ∀ q ∈ projects, Contains q.rootPath file → depth q.rootPath ≤ depth p.rootPath := by
  have contains : ∀ p ∈ projects, isWithin p.rootPath file = true ↔ Contains p.rootPath file :=
    fun p member => isWithin_iff_contains (absolute p member).1 rooted
  obtain ⟨kept, -, most⟩ := closer_fold file projects { name := "" }
  unfold closestProject?
  generalize projects.foldl (closer file) { name := "" } = found at kept most
  rcases kept with rfl | ⟨member, within⟩
  · refine .inl ⟨rfl, fun p member contained => ?_⟩
    have short := most p member ((contains p member).2 contained)
    exact absurd (absolute p member).size_pos (Nat.not_lt.2 short)
  · refine .inr ⟨found, member, ?_, (contains found member).1 within, fun q other contained => ?_⟩
    · rw [Option.filter_some, if_pos (by simpa using named found member)]
    · refine Nat.not_lt.1 fun deeper => ?_
      have longer := size_lt_of_depth_lt (absolute found member) (absolute q other)
        ((contains found member).1 within) contained deeper
      exact Nat.not_lt.2 (most q other ((contains q other).2 contained)) longer

/-! ## The path that is looked up -/

/-- **A file is looked up under the path that a session shows it under.** -/
theorem shownPath_eq (root : String) {file : String} (h : Absolute file) :
    shownPath root file = Session.displayPath root file := by
  rw [shownPath, if_pos h.1, h.2, Session.displayPath]
  split
  · rename_i empty
    rw [empty, within?_empty h.1, Option.getD_none]
  · rfl

namespace Target

variable {s : Store} {a : Arguments} {t : Target}

/-! ## Requests -/

/-- The project of a request is the one that it names or one that the store lists. -/
theorem projectFor_cases {name : String} {p : Store.Project}
    (found : projectFor s name file = .ok p) : (name ≠ "" ∧ s.project name = .ok p) ∨
      (name = "" ∧ ∃ listed, s.listProjects = .ok listed ∧
        closestProject? listed file = some p) := by
  unfold projectFor at found
  split at found
  · rename_i given
    cases known : s.project name with
    | error e => rw [known] at found; cases found
    | ok q => rw [known] at found; exact .inl ⟨given, Except.ok.inj found ▸ rfl⟩
  · rename_i missing
    split at found
    · cases found
    · cases asked : s.listProjects with
      | error e => rw [asked] at found; cases found
      | ok listed =>
          rw [asked] at found
          cases closest : closestProject? listed file with
          | none => simp [closest] at found
          | some q =>
              simp only [closest, Except.ok.injEq] at found
              exact .inr ⟨Classical.not_not.1 missing, listed, rfl, found ▸ closest⟩

/-- A rooted file is looked for in all projects. -/
theorem projectFor_of_rooted {listed : List Store.Project} (asked : s.listProjects = .ok listed)
    (rooted : isRooted file = true) : projectFor s "" file =
      (closestProject? listed file).elim (.error (.notIndexed file)) .ok := by
  unfold projectFor
  simp only [ne_eq, not_true, if_false, rooted, Bool.not_true, Bool.false_eq_true, asked]
  cases closestProject? listed file <;> rfl

/-- A request with a position and a file. -/
structure Posed (a : Arguments) : Prop where
  file : a.text "file" ≠ ""
  line : 0 ≤ a.number "line"
  character : 0 ≤ a.number "character"

theorem ofArguments_of_posed (posed : Posed a) : ofArguments s a =
    (projectFor s (a.text "project") (a.text "file")).map fun p =>
      { project := p.name, root := p.rootPath, path := shownPath p.rootPath (a.text "file")
        position := ⟨a.number "line", a.number "character"⟩ } := by
  have placed : ¬ (a.number "line" < 0 ∨ a.number "character" < 0) :=
    not_or.2 ⟨Int.not_lt.2 posed.line, Int.not_lt.2 posed.character⟩
  unfold ofArguments
  simp only [if_neg posed.file, if_neg placed]
  cases projectFor s (a.text "project") (a.text "file") <;> rfl

theorem posed_of_ok (found : ofArguments s a = .ok t) : Posed a := by
  unfold ofArguments at found
  by_cases file : a.text "file" = ""
  · simp only [if_pos file] at found
    cases found
  · by_cases placed : a.number "line" < 0 ∨ a.number "character" < 0
    · simp only [if_neg file, if_pos placed] at found
      cases found
    · obtain ⟨line, character⟩ := not_or.1 placed
      exact ⟨file, Int.not_lt.1 line, Int.not_lt.1 character⟩

/-- A request that names a position fails where no project is found. -/
theorem exists_error_iff : (∃ e, ofArguments s a = .error e) ↔
    ¬ Posed a ∨ ∃ e, projectFor s (a.text "project") (a.text "file") = .error e := by
  by_cases posed : Posed a
  · rw [ofArguments_of_posed posed]
    cases projectFor s (a.text "project") (a.text "file") with
    | error e => exact iff_of_true ⟨e, rfl⟩ (.inr ⟨e, rfl⟩)
    | ok p => simp [posed, Except.map]
  · refine iff_of_true ?_ (.inl posed)
    cases found : ofArguments s a with
    | error e => exact ⟨e, rfl⟩
    | ok t => exact absurd (posed_of_ok found) posed

/-- **Which project a file selects, and where it is looked up there.**  A request without a project
fails exactly if it names no position or no root contains its file, and else it selects a project
with a deepest root of those that contain the file.  Whatever project a request is about, a file in
normal form is looked up under the path that a session with the root of that project gives to the
document of the file. -/
theorem target_resolved (s : Store) :
    (∀ (listed : List Store.Project) (a : Arguments), s.listProjects = .ok listed →
      (∀ p ∈ listed, Absolute p.rootPath) → (∀ p ∈ listed, p.name ≠ "") →
      a.text "project" = "" → isRooted (a.text "file") = true →
      ((∃ e, ofArguments s a = .error e) ↔
        ¬ Posed a ∨ ∀ p ∈ listed, ¬ Contains p.rootPath (a.text "file")) ∧
      ∀ t, ofArguments s a = .ok t → ∃ p ∈ listed, t.project = p.name ∧ t.root = p.rootPath ∧
        Contains p.rootPath (a.text "file") ∧
        ∀ q ∈ listed, Contains q.rootPath (a.text "file") →
          depth q.rootPath ≤ depth p.rootPath) ∧
    ∀ (a : Arguments) (t : Target), ofArguments s a = .ok t → Absolute (a.text "file") →
      (∃ p, t.project = p.name ∧ t.root = p.rootPath ∧
        ((a.text "project" ≠ "" ∧ s.project (a.text "project") = .ok p) ∨
          (a.text "project" = "" ∧ ∃ listed, s.listProjects = .ok listed ∧
            closestProject? listed (a.text "file") = some p))) ∧
      ∀ {μ ω : Type} (c : Session.Context μ ω), c.options.root = t.root →
        (Session.documentBody c (a.text "file")).path = t.path := by
  refine ⟨fun listed a asked absolute named unnamed rooted => ?_, fun a t found normal => ?_⟩
  · have selected := projectFor_of_rooted asked rooted
    rw [← unnamed] at selected
    rw [exists_error_iff, selected]
    rcases closestProject?_cases absolute named rooted with
      ⟨none, nowhere⟩ | ⟨p, member, closest, contained, deepest⟩
    · refine ⟨iff_of_true (.inr ⟨_, by rw [none]; rfl⟩) (.inr nowhere), fun t found => ?_⟩
      rw [ofArguments_of_posed (posed_of_ok found), selected, none] at found
      cases found
    · refine ⟨or_congr_right (iff_of_false ?_ fun nowhere => nowhere p member contained),
        fun t found => ⟨p, member, ?_⟩⟩
      · rw [closest]
        rintro ⟨e, failed⟩
        cases failed
      · rw [ofArguments_of_posed (posed_of_ok found), selected, closest] at found
        obtain rfl := Except.ok.inj found
        exact ⟨rfl, rfl, contained, deepest⟩
  · rw [ofArguments_of_posed (posed_of_ok found)] at found
    cases selected : projectFor s (a.text "project") (a.text "file") with
    | error e => rw [selected] at found; cases found
    | ok p =>
        rw [selected] at found
        obtain rfl := Except.ok.inj found
        refine ⟨⟨p, rfl, rfl, projectFor_cases selected⟩, fun c root => ?_⟩
        rw [Session.documentBody, root]
        exact (shownPath_eq p.rootPath normal).symm

/-! ### Nested roots, and a project without a name -/

/-- A store with some projects. -/
def storing (projects : List Store.Project) : Store where
  database := projects.foldl Store.Database.upsert {}

/-- A request about the first position of a file. -/
def asking (file : String) : Arguments where
  members := [("file", .str file), ("line", .int 0), ("character", .int 0)]

/-- Two projects, one of which lies in the other. -/
def nestedProjects : List Store.Project :=
  [{ name := "inner", rootPath := "/repo/sub" }, { name := "outer", rootPath := "/repo" }]

/-- A file whose path begins like a step up. -/
def generated : String := "/repo/sub/..gen/a.go"

theorem target_resolved_nested :
    (storing nestedProjects).listProjects = .ok nestedProjects ∧
    (∀ p ∈ nestedProjects, Absolute p.rootPath) ∧ (∀ p ∈ nestedProjects, p.name ≠ "") ∧
    (asking generated).text "project" = "" ∧ isRooted ((asking generated).text "file") = true ∧
    Absolute ((asking generated).text "file") ∧
    ∃ t, ofArguments (storing nestedProjects) (asking generated) = .ok t ∧ t.project = "inner" ∧
      ∀ {μ ω : Type} (c : Session.Context μ ω), c.options.root = t.root →
        (Session.documentBody c generated).path = t.path := by
  have listed : (storing nestedProjects).listProjects = .ok nestedProjects := by cbv
  have absolute : ∀ p ∈ nestedProjects, Absolute p.rootPath := by decide
  have named : ∀ p ∈ nestedProjects, p.name ≠ "" := by decide
  have normal : Absolute ((asking generated).text "file") := by decide
  have posed : Posed (asking generated) := ⟨by decide, by decide, by decide⟩
  obtain ⟨selects, shows⟩ := target_resolved (storing nestedProjects)
  obtain ⟨fails, deepest⟩ := selects nestedProjects (asking generated) listed absolute named
    (by decide) normal.1
  cases found : ofArguments (storing nestedProjects) (asking generated) with
  | error e =>
      have nowhere := (fails.1 ⟨e, found⟩).resolve_left (not_not_intro posed)
      exact absurd (by decide) (nowhere _ List.mem_cons_self)
  | ok t =>
      obtain ⟨p, member, project, -, -, deep⟩ := deepest t found
      have inner := deep _ List.mem_cons_self (by decide)
      refine ⟨listed, absolute, named, by decide, normal.1, normal, t, rfl, ?_, ?_⟩
      · rcases List.mem_cons.1 member with rfl | other
        · exact project
        · obtain rfl := List.mem_singleton.1 other
          exact absurd inner (by decide)
      · exact (shows (asking generated) t found normal).2

/-- **A project without a name is overlooked.**  A store can hold one, and its root contains the
file, but the request fails. -/
theorem nameless_overlooked :
    ∃ (s : Store) (p : Store.Project) (a : Arguments), s.database.Reached ∧
      s.listProjects = .ok [p] ∧ Absolute p.rootPath ∧ Posed a ∧ a.text "project" = "" ∧
      isRooted (a.text "file") = true ∧ Contains p.rootPath (a.text "file") ∧
      ofArguments s a = .error (.notIndexed (a.text "file")) := by
  let p : Store.Project := { name := "", rootPath := "/repo" }
  have listed : (storing [p]).listProjects = .ok [p] := by cbv
  have posed : Posed (asking "/repo/a.go") := ⟨by decide, by decide, by decide⟩
  have overlooked : closestProject? [p] "/repo/a.go" = none := by decide
  refine ⟨storing [p], p, asking "/repo/a.go", .upsert .empty p, listed, by decide, posed,
    by decide, by decide, by decide, ?_⟩
  have none_ : projectFor (storing [p]) "" "/repo/a.go" = _ :=
    projectFor_of_rooted listed (by decide)
  rw [overlooked] at none_
  rw [ofArguments_of_posed posed]
  exact congrArg _ none_

end Target
end Service
end SymbolAtlas
