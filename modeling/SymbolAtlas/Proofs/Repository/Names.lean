/-
# SymbolAtlas.Proofs.Repository.Names -- which repositories share a project

The project of a repository is named after its root, and the name does not keep all of it.  What is
lost are four things (`Blurs`): whether a dash was a slash, the colons, the dashes at the start, and
whether a root without a name was called `root`.  Two roots have one name if and only if they differ
in nothing else (`projectName_eq_iff`): a name is a normal form of these steps.  So roots that have
neither dashes nor colons keep apart, up to the root of the tree (`Plain.projectName_inj`).

Attempts on roots with another name do not touch a project; those with its name replace it, whatever
root it was indexed from (`projects_named`).
-/
import SymbolAtlas.Proofs.Repository.Commits
import SymbolAtlas.Proofs.Text.Places
import Mathlib.Logic.Relation

set_option autoImplicit false

namespace SymbolAtlas

open Relation (EqvGen)
open Text Text.Path

namespace Repository

/-! ## What a name forgets -/

/-- One step after which a text still has the same name. -/
inductive Blurs : List Char → List Char → Prop where
  | slash (front back : List Char) : Blurs (front ++ '/' :: back) (front ++ '-' :: back)
  | colon (front back : List Char) : Blurs (front ++ ':' :: back) (front ++ back)
  | dash (back : List Char) : Blurs ('-' :: back) back
  | nothing : Blurs [] "root".toList

/-- Two paths that differ only in what names forget. -/
def Blurred (path path' : String) : Prop :=
  EqvGen Blurs (clean path).toList (clean path').toList

/-- A slash as it stands in a name. -/
def dashed (c : Char) : Char := if c = '/' then '-' else c

/-- A text without colons, its slashes as dashes. -/
def flattened (text : List Char) : List Char := (text.map dashed).filter (· ≠ ':')

/-- The name of a text. -/
def nameOf (text : List Char) : List Char :=
  if dropDashes (flattened text) = [] then "root".toList else dropDashes (flattened text)

theorem projectName_toList (path : String) :
    (projectName path).toList = nameOf (clean path).toList := by
  have blank (text : List Char) : String.ofList text = "" ↔ text = [] := by
    rw [← String.toList_inj, String.toList_ofList]
    rfl
  rw [projectName, nameOf]
  simp only [blank]
  rw [show dropDashes (flattened (clean path).toList) = dropDashes ((List.map (fun c =>
    if c = '/' then '-' else c) (clean path).toList).filter (· ≠ ':')) from rfl]
  split
  · rfl
  · exact String.toList_ofList

/-- A step does not change the name. -/
theorem nameOf_of_blurs {text text' : List Char} (step : Blurs text text') :
    nameOf text = nameOf text' := by
  cases step with
  | slash front back =>
      have same : flattened (front ++ '/' :: back) = flattened (front ++ '-' :: back) := by
        simp [flattened, dashed]
      rw [nameOf, same, nameOf]
  | colon front back =>
      have same : flattened (front ++ ':' :: back) = flattened (front ++ back) := by
        simp [flattened, dashed]
      rw [nameOf, same, nameOf]
  | dash =>
      have same : dropDashes (flattened ('-' :: text')) = dropDashes (flattened text') := by
        simp [flattened, dashed, dropDashes]
      rw [nameOf, same, nameOf]
  | nothing => decide

/-- A text is blurred to the same without colons and slashes. -/
theorem blurs_flattened (before text : List Char) :
    EqvGen Blurs (before ++ text) (before ++ flattened text) := by
  induction text generalizing before with
  | nil => exact .refl _
  | cons c text ih =>
      by_cases colon : c = ':'
      · subst colon
        exact .trans _ _ _ (.rel _ _ (.colon before text)) (ih before)
      by_cases slash : c = '/'
      · subst slash
        have rest := ih (before ++ ['-'])
        simp only [List.append_assoc, List.singleton_append] at rest
        exact .trans _ _ _ (.rel _ _ (.slash before text)) rest
      · have rest := ih (before ++ [c])
        simp only [List.append_assoc, List.singleton_append] at rest
        rwa [flattened, List.map_cons, dashed, if_neg slash, List.filter_cons_of_pos (by simpa)]

theorem blurs_dropDashes (text : List Char) : EqvGen Blurs text (dropDashes text) := by
  induction text with
  | nil => exact .refl _
  | cons c text ih =>
      by_cases dash : c = '-'
      · subst dash
        rw [dropDashes, List.dropWhile_cons_of_pos (by simp)]
        exact .trans _ _ _ (.rel _ _ (.dash text)) ih
      · rw [dropDashes, List.dropWhile_cons_of_neg (by simpa)]
        exact .refl _

theorem blurs_nameOf (text : List Char) : EqvGen Blurs text (nameOf text) := by
  have short := (blurs_flattened [] text).trans _ _ _ (blurs_dropDashes (flattened text))
  rw [nameOf]
  split
  · rename_i blank
    rw [blank] at short
    exact short.trans _ _ _ (.rel _ _ .nothing)
  · exact short

theorem nameOf_congr {text text' : List Char} (blurred : EqvGen Blurs text text') :
    nameOf text = nameOf text' := by
  induction blurred with
  | rel _ _ step => exact nameOf_of_blurs step
  | refl _ => rfl
  | symm _ _ _ ih => exact ih.symm
  | trans _ _ _ _ _ ih ih' => exact ih.trans ih'

/-- **Two roots have the same name if and only if they differ only in what names forget.** -/
theorem projectName_eq_iff (path path' : String) :
    projectName path = projectName path' ↔ Blurred path path' := by
  rw [← String.toList_inj, projectName_toList, projectName_toList]
  constructor
  · intro same
    have there := blurs_nameOf (clean path).toList
    rw [same] at there
    exact there.trans _ _ _ (blurs_nameOf (clean path').toList).symm
  · exact nameOf_congr

/-! ## Roots that keep apart -/

/-- A path in which nothing looks like what a slash becomes, and nothing is dropped. -/
structure Plain (path : String) : Prop where
  dashes : '-' ∉ path.toList
  colons : ':' ∉ path.toList

/-- The name of a plain root is what follows its first slash, with dashes for the others. -/
theorem Plain.nameOf_eq {path : String} (plain : Plain path) (h : Absolute path) :
    ∃ rest, path.toList = '/' :: rest ∧ '-' ∉ rest ∧
      nameOf path.toList = if rest = [] then "root".toList else rest.map dashed := by
  obtain ⟨names, proper, shape, -⟩ := h.names
  have text : path.toList = '/' :: (ofElements names).toList := by
    rw [shape, String.toList_append]
    rfl
  obtain ⟨dashes, colons⟩ := plain
  rw [text] at dashes colons ⊢
  generalize inside : (ofElements names).toList = rest at dashes colons ⊢
  have stays : rest.head? ≠ some '/' := by
    rw [← inside]
    cases names with
    | nil => simp [ofElements]
    | cons name names =>
        have unrooted := isRooted_ofElements_cons (proper name List.mem_cons_self).nonempty names
        rw [isRooted_of_whole (proper name List.mem_cons_self).whole] at unrooted
        simpa [isRooted] using unrooted
  have flat : flattened ('/' :: rest) = '-' :: rest.map dashed := by
    refine List.filter_eq_self.2 fun c member => ?_
    obtain ⟨d, here, rfl⟩ := List.mem_map.1 member
    have other : d ≠ ':' := fun same => colons (same ▸ here)
    simp only [dashed]
    split
    · decide
    · exact decide_eq_true other
  have short : dropDashes ('-' :: rest.map dashed) = rest.map dashed := by
    rw [dropDashes, List.dropWhile_cons_of_pos (by simp)]
    cases rest with
    | nil => rfl
    | cons c rest =>
        have slash : c ≠ '/' := by simpa using stays
        have dash : c ≠ '-' := fun same => dashes (by simp [same])
        rw [List.map_cons, List.dropWhile_cons_of_neg (by simp [dashed, slash, dash])]
  refine ⟨rest, rfl, fun member => dashes (List.mem_cons_of_mem _ member), ?_⟩
  simp only [nameOf, flat, short, List.map_eq_nil_iff]

/-- Without dashes of its own, a text is found again. -/
theorem map_dashed_inj {text text' : List Char} (dashes : '-' ∉ text) (dashes' : '-' ∉ text')
    (same : text.map dashed = text'.map dashed) : text = text' := by
  have back {text : List Char} (dashes : '-' ∉ text) :
      (text.map dashed).map (fun c => if c = '-' then '/' else c) = text := by
    rw [List.map_map]
    refine (List.map_congr_left fun c member => ?_).trans (List.map_id _)
    have other : c ≠ '-' := fun same => dashes (same ▸ member)
    by_cases slash : c = '/' <;> simp [dashed, slash, other]
  rw [← back dashes, same, back dashes']

/-- **Plain roots have names of their own**, but for the root of the tree, which is called `root`
like the directory of that name in it. -/
theorem Plain.projectName_inj {path path' : String} (plain : Plain path) (plain' : Plain path')
    (h : Absolute path) (h' : Absolute path') (same : projectName path = projectName path') :
    path = path' ∨ path = "/" ∧ path' = "/root" ∨ path = "/root" ∧ path' = "/" := by
  obtain ⟨rest, text, dashes, name⟩ := plain.nameOf_eq h
  obtain ⟨rest', text', dashes', name'⟩ := plain'.nameOf_eq h'
  rw [← String.toList_inj, projectName_toList, projectName_toList, h.2, h'.2, name, name'] at same
  simp only [← String.toList_inj, text, text']
  have root : "root".toList = "root".toList.map dashed := rfl
  have unspoken : '-' ∉ "root".toList := by decide
  by_cases blank : rest = [] <;> by_cases blank' : rest' = []
  · simp [blank, blank']
  · rw [if_pos blank, if_neg blank', root] at same
    exact .inr (.inl ⟨by rw [blank]; rfl, by rw [← map_dashed_inj unspoken dashes' same]; rfl⟩)
  · rw [if_neg blank, if_pos blank', root] at same
    exact .inr (.inr ⟨by rw [map_dashed_inj dashes unspoken same]; rfl, by rw [blank']; rfl⟩)
  · rw [if_neg blank, if_neg blank'] at same
    exact .inl (by rw [map_dashed_inj dashes dashes' same])

end Repository

/-! ## Attempts on named repositories -/

open Repository (Blurred Plain projectName projectName_eq_iff)

/-- A repository that is indexed under the name of its root. -/
def Repository.IsNamed (r : Repository) : Prop := r.project = projectName r.root

theorem Repository.isNamed_ofPath [SettingsFormat] (files : FileTree) (path : String)
    (settings : Option Settings) : (Repository.ofPath files path settings).IsNamed := by
  simp only [Repository.IsNamed, Repository.ofPath]

section Named

variable [Globs] [Digester] [ModuleNames] [SettingsFormat] {s : Store}

/-- Nothing is committed for a project by attempts on others. -/
theorem lastCommit_eq_none {p : String} {attempts : List Attempt}
    (others : ∀ a ∈ attempts, a.repository.project ≠ p) : lastCommit p s attempts = none := by
  induction attempts generalizing s with
  | nil => rfl
  | cons a rest ih =>
      rw [lastCommit, ih fun b member => others b (List.mem_cons_of_mem _ member),
        if_neg fun here => others a List.mem_cons_self here.1]
      rfl

/-- **Repositories share a project exactly as far as names forget.**  Two roots have the same name
if and only if they differ in nothing but what names forget; so plain roots keep apart, but for the
root of the tree.  Attempts on repositories under other names leave the answers, the digests and the
record of a project as they are, and whether an attempt on it finds nothing to do.  And what is
stored for a project after any attempts is what the last one that committed left, with the record
of the root that it had, which is one of this name. -/
theorem projects_named (isOpen : s.isOpen = true) (reached : s.database.Reached) :
    (∀ root root' : String, projectName root = projectName root' ↔ Blurred root root') ∧
    (∀ root root' : String, Absolute root → Absolute root' → Plain root → Plain root' →
      projectName root = projectName root' →
        root = root' ∨ root = "/" ∧ root' = "/root" ∨ root = "/root" ∧ root' = "/") ∧
    ∀ (root : String) (attempts : List Attempt), (∀ a ∈ attempts, a.repository.IsNamed) →
      ((∀ a ∈ attempts, ¬ Blurred root a.repository.root) →
        Store.Echoes (projectName root) id s (after s attempts) ∧
        (after s attempts).fileHashes (projectName root) = s.fileHashes (projectName root) ∧
        ∀ b : Attempt, b.repository.IsNamed → b.repository.root = root →
          (b.FindsNothing (after s attempts) ↔ b.FindsNothing s)) ∧
      ∀ a, lastCommit (projectName root) s attempts = some a →
        Blurred root a.repository.root ∧ a.HeldBy (after s attempts) ∧
        (after s attempts).project (projectName root) = .ok (a.repository.record a.stamp) := by
  refine ⟨projectName_eq_iff, fun root root' h h' plain plain' =>
    plain.projectName_inj plain' h h', fun root attempts named => ⟨fun apart => ?_, fun a last => ?_⟩⟩
  · have others : ∀ a ∈ attempts, a.repository.project ≠ projectName root := by
      intro a member same
      rw [named a member] at same
      exact apart a member ((projectName_eq_iff _ _).1 same.symm)
    obtain ⟨echoes, hashes⟩ :=
      (after_last isOpen reached attempts (projectName root)).2 (lastCommit_eq_none others)
    refine ⟨echoes, hashes, fun b isNamed here => ?_⟩
    have project : b.repository.project = projectName root := isNamed.trans (by rw [here])
    exact Attempt.findsNothing_congr isOpen (after_reached isOpen reached attempts).1
      (project ▸ echoes.project) (project ▸ hashes)
  · obtain ⟨member, project, held⟩ := (after_last isOpen reached attempts (projectName root)).1 a last
    refine ⟨(projectName_eq_iff _ _).1 ?_, held, project ▸ held.record⟩
    rw [← project, named a member]

end Named

/-! ### Two directories of one name -/

/-- A package of one file in a directory whose name reads like a path. -/
def dashedPath : Attempt where
  repository := { root := "/a-b", project := "a-b" }
  disk := { entries := .ofList [("/a-b", .directory), ("/a-b/m.go", .file "package m\n".toUTF8 0)] }
  toolchain := { answer := .ok {
    loaded := [{ id := "m", path := "m", package := some 0, files := [("/a-b/m.go",
      { extent := ⟨0, 9⟩, name := { name := "m", extent := ⟨8, 9⟩ } })] }]
    packages := #[{ path := "m", name := "m" }] } }

/-- The directory that this path reads like, as a project. -/
def slashedPath : Store.Project := { name := "a-b", rootPath := "/a/b" }

theorem commits_dashedPath : Commits (dashedPath.run {}).1 = true := by
  decide +kernel

theorem isNamed_dashedPath : dashedPath.repository.IsNamed := by
  show "a-b" = projectName "/a-b"
  decide

theorem projects_named_dashedPath :
    Blurred "/a/b" "/a-b" ∧ dashedPath.HeldBy (after {} [dashedPath]) ∧
    Store.Echoes (projectName "/a/c") id {} (after {} [dashedPath]) ∧
    ("/" = "/root" ∨ "/" = "/" ∧ "/root" = "/root" ∨ "/" = "/root" ∧ "/root" = "/") := by
  have opened : ({} : Store).isOpen = true := rfl
  obtain ⟨names, plain, stored⟩ := projects_named opened .empty
  have named : ∀ a ∈ [dashedPath], a.repository.IsNamed := by
    simpa using isNamed_dashedPath
  have apart : ∀ a ∈ [dashedPath], ¬ Blurred "/a/c" a.repository.root := by
    simp only [List.mem_singleton, forall_eq, ← names]
    decide
  have last : lastCommit (projectName "/a/b") {} [dashedPath] = some dashedPath := by
    rw [lastCommit, lastCommit, if_pos ⟨by decide, commits_dashedPath⟩]
    rfl
  obtain ⟨blurred, held, -⟩ := (stored "/a/b" _ named).2 _ last
  exact ⟨blurred, held, ((stored "/a/c" _ named).1 apart).1,
    plain "/" "/root" (by decide) (by decide) ⟨by decide, by decide⟩
      ⟨by decide, by decide⟩ (by decide)⟩

/-- **Two repositories can share a project.**  Where one is recorded under the name of its root, an
attempt on another root of this name puts itself in its place. -/
theorem projectName_collision : ∃ (s : Store) (p p' : Store.Project) (a : Attempt),
    Absolute p.rootPath ∧ Absolute a.repository.root ∧ a.repository.root ≠ p.rootPath ∧
    p.name = projectName p.rootPath ∧ a.repository.IsNamed ∧
    Store.upsertProject {} p = .ok s ∧ s.project p.name = .ok p ∧
    (a.run s).2.project p.name = .ok p' ∧ p'.rootPath = a.repository.root := by
  let s : Store := { database := ({} : Store.Database).upsert slashedPath }
  have reached : s.database.Reached := .upsert .empty slashedPath
  have commits : Commits (dashedPath.run s).1 = true :=
    Attempt.commits_elsewhere rfl .empty rfl reached (Attempt.not_idle_of_nil rfl)
      commits_dashedPath
  obtain ⟨-, -, held, -⟩ := Attempt.held_of_commits rfl reached commits
  exact ⟨s, slashedPath, _, dashedPath, by decide, by decide, by decide,
    by decide, isNamed_dashedPath, rfl, rfl, held.record, rfl⟩

end SymbolAtlas
