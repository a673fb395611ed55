/-
# SymbolAtlas.Proofs.Repository.Detection -- when nothing changed

An update compares the digests of a repository with those that were stored in one direction only:
as many, and each of its own is stored.  Because no path stands twice on either side this is
equality of finite maps (`agree_iff`), so an update finds nothing to do exactly if the
project is there and its digests are those of the repository (`isUnchanged_iff`).

A path without a stored digest is taken for one whose digest is empty, so of the library that
digests it is assumed that it never answers with an empty text.

Whether an update is canceled while it reads does not change what it reads, only whether it comes to
the end: it does if none of its looks sees that it was (`digests_eq_ok_iff`).
-/
import Mathlib.Data.List.Nodup
import Mathlib.Data.List.Perm.Subperm
import Mathlib.Data.List.TakeWhile
import SymbolAtlas.Proofs.Store.Hashes
import SymbolAtlas.Repository.Update

set_option autoImplicit false

namespace SymbolAtlas

open Store (hashesOf)

/-! ## Finite maps as lists -/

section Maps

variable {κ ν : Type} [DecidableEq κ] {xs ys : List (κ × ν)}

/-- **As many entries, and each of the one in the other, is equality of finite maps.** -/
theorem agree_iff (distinct : (xs.map Prod.fst).Nodup) (distinct' : (ys.map Prod.fst).Nodup) :
    (xs.length = ys.length ∧ ∀ key value, (key, value) ∈ ys →
      Table.find? xs key = some value) ↔ ∀ key, Table.find? xs key = Table.find? ys key := by
  constructor
  · rintro ⟨many, found⟩ key
    have inside : ys ⊆ xs := fun (key, value) member =>
      (Table.find?_eq_some_iff distinct).1 (found key value member)
    have same : ys.Perm xs :=
      (List.subperm_of_subset distinct'.of_map inside).perm_of_length_le (Nat.le_of_eq many)
    refine Option.ext fun value => ?_
    rw [Table.find?_eq_some_iff distinct, Table.find?_eq_some_iff distinct', same.mem_iff]
  · intro same
    have members (entry : κ × ν) : entry ∈ xs ↔ entry ∈ ys := by
      rw [← Table.find?_eq_some_iff distinct, ← Table.find?_eq_some_iff distinct', same]
    refine ⟨((List.perm_ext_iff_of_nodup distinct.of_map distinct'.of_map).2 members).length_eq,
      fun key value member => ?_⟩
    rw [same, Table.find?_eq_some_iff distinct']
    exact member

end Maps

/-! ## Results -/

section Results

variable {ε ε' α β : Type} {x : Except ε α}

theorem mapError_eq_ok {f : ε → ε'} {a : α} : x.mapError f = .ok a ↔ x = .ok a := by
  cases x <;> simp [Except.mapError]

theorem bind_eq_ok {f : α → Except ε β} {b : β} :
    x.bind f = .ok b ↔ ∃ a, x = .ok a ∧ f a = .ok b := by
  cases x <;> simp [Except.bind]

/-- What comes out of a list is what is made of one of its members. -/
theorem mem_of_mapM {f : α → Except ε β} {xs : List α} {ys : List β}
    (accepted : xs.mapM f = .ok ys) : ∀ y ∈ ys, ∃ x ∈ xs, f x = .ok y := by
  induction xs generalizing ys with
  | nil =>
      obtain rfl := Except.ok.inj accepted
      simp
  | cons x xs ih =>
      rw [List.mapM_cons] at accepted
      obtain ⟨y, first, accepted⟩ := bind_eq_ok.1 accepted
      obtain ⟨ys', rest, accepted⟩ := bind_eq_ok.1 accepted
      obtain rfl := Except.ok.inj accepted
      intro z member
      rcases List.mem_cons.1 member with rfl | later
      · exact ⟨x, List.mem_cons_self, first⟩
      · obtain ⟨x', member', made⟩ := ih rest z later
        exact ⟨x', List.mem_cons_of_mem _ member', made⟩

end Results

namespace Repository

open Text

variable {r : Repository} {disk : FileTree} {canceled : Cancellation Look} {digests : Digests}
  {s : Store}

/-! ## Canceled or not -/

section Looks

variable [Globs]

/-- Where an update looks whether it is canceled while it reads. -/
def readingLooks (r : Repository) (disk : FileTree) : List Look :=
  (Discovery.looks disk r.root r.discovery).map .search ++
    (r.sources disk).map fun f => .hash f.path

/-- Where an update looks whether it is canceled before it knows what changed. -/
def looks (r : Repository) (disk : FileTree) : List Look := .start :: r.readingLooks disk

/-- The sources that an update comes to before it sees that it was canceled. -/
def reached (r : Repository) (disk : FileTree) (canceled : Cancellation Look) :
    List Discovery.SourceFile :=
  (r.sources disk).takeWhile fun f => !canceled.seen (.hash f.path)

/-- No look sees that an update was canceled while it reads if and only if its search comes to an
end and leaves no source over. -/
theorem unseen_iff : (∀ look ∈ r.readingLooks disk, canceled.seen look = false) ↔
    (Discovery.looks disk r.root r.discovery).any (canceled.among .search).seen = false ∧
    r.reached disk canceled = r.sources disk := by
  simp [readingLooks, reached, or_imp, forall_and, Cancellation.among, List.takeWhile_eq_self_iff]

end Looks

variable [Globs] [Digester] [SettingsFormat]

theorem digests_eq (r : Repository) (disk : FileTree) (canceled : Cancellation Look) :
    r.digests disk canceled =
      if (Discovery.looks disk r.root r.discovery).any (canceled.among .search).seen = true then
        .error .searchCanceled
      else
        ((sourceDigests disk (r.reached disk canceled)).mapError .unreadable).bind fun found =>
          if (r.reached disk canceled).length < (r.sources disk).length then .error .hashCanceled
          else (r.addSettings disk found).mapError .unreadableSetting := by
  unfold Repository.digests Discovery.search
  by_cases canceled : (Discovery.looks disk r.root r.discovery).any
      (canceled.among .search).seen = true
  · rw [if_pos canceled, if_pos canceled]
    rfl
  · rw [if_neg canceled, if_neg canceled]
    rfl

/-- **Digests are read if no look sees a cancellation, and every file can be read.** -/
theorem digests_eq_ok : r.digests disk canceled = .ok digests ↔
    (∀ look ∈ r.readingLooks disk, canceled.seen look = false) ∧
    ∃ found, sourceDigests disk (r.sources disk) = .ok found ∧
      r.addSettings disk found = .ok digests := by
  rw [digests_eq, unseen_iff]
  by_cases searching : (Discovery.looks disk r.root r.discovery).any
      (canceled.among .search).seen = true
  · simp [searching]
  rw [if_neg searching, bind_eq_ok]
  have whole : (r.reached disk canceled).length < (r.sources disk).length ↔
      r.reached disk canceled ≠ r.sources disk := by
    refine ⟨fun short same => absurd short (by simp [same]), fun other => Nat.not_le.1 fun long => ?_⟩
    exact other ((List.takeWhile_prefix _).eq_of_length_le long)
  by_cases all : r.reached disk canceled = r.sources disk
  · simp [searching, all, mapError_eq_ok]
  · simp [whole, all]

/-- An update that reads to the end reads what it would if it could not be canceled. -/
theorem digests_eq_ok_iff : r.digests disk canceled = .ok digests ↔
    (∀ look ∈ r.readingLooks disk, canceled.seen look = false) ∧ r.digests disk = .ok digests := by
  rw [digests_eq_ok, digests_eq_ok]
  simp

/-- While digests are read, no dump is finished. -/
theorem digests_ne_unfinished (reason : String) :
    r.digests disk canceled ≠ .error (.unfinished reason) := by
  rw [digests_eq]
  split
  · simp
  cases sourceDigests disk (r.reached disk canceled) with
  | error e => simp [Except.mapError, Except.bind]
  | ok found =>
      by_cases short : (r.reached disk canceled).length < (r.sources disk).length
      · simp [Except.mapError, Except.bind, short]
      · simp only [Except.mapError, Except.bind, short, if_false]
        cases r.addSettings disk found <;> simp

/-! ## What is read -/

/-- What stands in a table of digests is digests of contents. -/
def Genuine (digests : Digests) : Prop :=
  digests.All fun _ digest => ∃ content, digest = Digester.digest content

omit [Globs] [SettingsFormat] in
theorem genuine_digestAt {path digest : String} (read : digestAt disk path = .ok digest) :
    ∃ content, digest = Digester.digest content := by
  unfold digestAt at read
  split at read
  · exact ⟨_, (Except.ok.inj read).symm⟩
  · cases read
  · cases read

omit [Globs] [SettingsFormat] in
theorem genuine_sourceDigests {sources : List Discovery.SourceFile}
    (read : sourceDigests disk sources = .ok digests) : Genuine digests := by
  obtain ⟨found, pairs, made⟩ := bind_eq_ok.1 read
  obtain rfl := Except.ok.inj made
  intro path digest here
  obtain ⟨f, -, read⟩ := mem_of_mapM pairs _ (Table.mem_of_get?_ofList here)
  obtain ⟨digest', digested, made⟩ := bind_eq_ok.1 read
  obtain ⟨-, rfl⟩ := Prod.mk.inj (Except.ok.inj made)
  exact genuine_digestAt digested

omit [Globs] in
/-- The digest of the settings is written last. -/
theorem addSettings_eq {found : Digests} (genuine : Genuine found)
    (added : r.addSettings disk found = .ok digests) : ∃ before : Digests, Genuine before ∧
      digests = before.insert Settings.fileName (Digester.digest r.settings.fingerprint.toUTF8) := by
  unfold addSettings at added
  split at added
  · rename_i digest read
    exact ⟨_, genuine.insert (genuine_digestAt read), (Except.ok.inj added).symm⟩
  · exact ⟨_, genuine, (Except.ok.inj added).symm⟩
  · cases added

/-- **What is read is digests, and one of them is that of the settings.** -/
theorem genuine_digests (read : r.digests disk canceled = .ok digests) :
    Genuine digests ∧ digests.entries ≠ [] := by
  obtain ⟨-, found, sources, added⟩ := digests_eq_ok.1 read
  obtain ⟨before, genuine, rfl⟩ := addSettings_eq (genuine_sourceDigests sources) added
  refine ⟨genuine.insert ⟨_, rfl⟩, fun blank => ?_⟩
  have there := Table.mem_entries_iff.2 (Table.get?_insert_self before Settings.fileName
    (Digester.digest r.settings.fingerprint.toUTF8))
  rw [blank] at there
  cases there

/-! ## What is stored -/

omit [Globs] [SettingsFormat] in
/-- **Nothing changed if and only if the project is there with these digests.**  The library is
assumed never to digest to an empty text. -/
theorem isUnchanged_iff (solid : ∀ content, Digester.digest content ≠ "")
    (genuine : Genuine digests) (some_ : digests.entries ≠ []) :
    r.isUnchanged s digests = true ↔
      (∃ record, s.project r.project = .ok record) ∧
      ∃ stored, s.fileHashes r.project = .ok stored ∧
        ∀ path, Table.find? stored path = digests.get? path := by
  unfold isUnchanged
  cases recorded : s.project r.project with
  | error reason => simp
  | ok record =>
      cases asked : s.fileHashes r.project with
      | error reason => simp
      | ok stored =>
          have distinct : (stored.map Prod.fst).Nodup := by
            rw [Store.fileHashes_eq] at asked
            cases opened : s.ask "get file hashes" with
            | error reason =>
                rw [opened] at asked
                cases asked
            | ok db =>
                rw [opened] at asked
                rw [← Except.ok.inj asked]
                exact Store.distinct_hashesOf _ _
          have agree := agree_iff distinct digests.distinct
          have many : stored.length = digests.entries.length → stored ≠ [] := by
            rintro same rfl
            exact some_ (List.length_eq_zero_iff.1 same.symm)
          have equals : ∀ entry ∈ digests.entries,
              ((Table.find? stored entry.1).getD "" = entry.2 ↔
                Table.find? stored entry.1 = some entry.2) := by
            intro entry member
            obtain ⟨content, digest⟩ := genuine entry.1 entry.2 (Table.mem_entries_iff.1 member)
            have := solid content
            cases Table.find? stored entry.1 with
            | none => simp [digest, Ne.symm this]
            | some found => simp
          simp only [Bool.and_eq_true, Bool.not_eq_true', List.isEmpty_eq_false_iff,
            decide_eq_true_eq, List.all_eq_true, Except.ok.injEq, exists_eq', true_and,
            exists_eq_left']
          refine Iff.trans ?_ agree
          constructor
          · rintro ⟨⟨-, same⟩, found⟩
            exact ⟨same, fun key value member => (equals _ member).1 (found (key, value) member)⟩
          · rintro ⟨same, found⟩
            exact ⟨⟨many same, same⟩,
              fun entry member => (equals _ member).2 (found entry.1 entry.2 member)⟩

end Repository
end SymbolAtlas
