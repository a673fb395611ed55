/-
# SymbolAtlas.Proofs.Store.Hashes -- the digests of a project among those of others

The digests of all projects stand in one table.  What is put there for one project is found for
it exactly, in the order in which it was put, and leaves what is found for every other
(`hashesOf_replaceHashes`).
-/
import Mathlib.Data.List.Nodup
import SymbolAtlas.Store.Basic

set_option autoImplicit false

namespace SymbolAtlas.Store

/-- The digests of a project by path. -/
def hashesOf (table : Table (String × String) String) (project : String) :
    List (String × String) :=
  table.entries.filterMap fun ((p, path), hash) => if p = project then some (path, hash) else none

theorem fileHashes_eq (s : Store) (project : String) :
    s.fileHashes project =
      (s.ask "get file hashes").map fun db => hashesOf db.hashes project := by
  unfold fileHashes
  cases s.ask "get file hashes" <;> rfl

section Entries

variable {table : Table (String × String) String} {p q path hash : String}

theorem mem_hashesOf : (path, hash) ∈ hashesOf table p ↔ table.get? (p, path) = some hash := by
  rw [← Table.mem_entries_iff, hashesOf, List.mem_filterMap]
  constructor
  · rintro ⟨⟨⟨p', path'⟩, hash'⟩, member, found⟩
    by_cases own : p' = p
    · obtain ⟨rfl, rfl⟩ := Prod.mk.inj (Option.some.inj ((if_pos own).symm.trans found))
      exact own ▸ member
    · exact nomatch (if_neg own).symm.trans found
  · exact fun member => ⟨_, member, if_pos rfl⟩

/-- A project has one digest of a path. -/
theorem distinct_hashesOf (table : Table (String × String) String) (p : String) :
    ((hashesOf table p).map Prod.fst).Nodup := by
  have paths : (hashesOf table p).map Prod.fst =
      table.keys.filterMap fun key => if key.1 = p then some key.2 else none := by
    rw [hashesOf, List.map_filterMap, Table.keys, List.filterMap_map]
    refine List.filterMap_congr fun entry _ => ?_
    by_cases own : entry.1.1 = p <;> simp [own]
  rw [paths]
  refine List.Nodup.filterMap (fun a b path here there => ?_) table.distinct
  split at here
  · split at there
    · rename_i own own'
      exact Prod.ext (own.trans own'.symm)
        ((Option.some.inj here).trans (Option.some.inj there).symm)
    · cases there
  · cases here

/-- A digest of another project is not found. -/
theorem hashesOf_insert_of_ne (other : q ≠ p) :
    hashesOf (table.insert (p, path) hash) q = hashesOf table q := by
  have skipped : ∀ entries : List ((String × String) × String),
      (Table.put entries (p, path) hash).filterMap
          (fun ((p', path'), hash') => if p' = q then some (path', hash') else none) =
        entries.filterMap fun ((p', path'), hash') => if p' = q then some (path', hash') else none := by
    intro entries
    induction entries with
    | nil => simp [Table.put, Ne.symm other]
    | cons entry rest ih =>
        by_cases here : entry.1 = (p, path)
        · simp [Table.put, here, Ne.symm other]
        · simp [Table.put, here, List.filterMap_cons, ih]
  exact skipped table.entries

/-- A digest of a new path stands behind the others of its project. -/
theorem hashesOf_insert_of_absent (absent : table.get? (p, path) = none) (hash : String) :
    hashesOf (table.insert (p, path) hash) p = hashesOf table p ++ [(path, hash)] := by
  rw [hashesOf, Table.entries_insert_of_absent absent, List.filterMap_append, hashesOf]
  simp

theorem hashesOf_filter_self : hashesOf (table.filter fun entry => entry.1.1 ≠ p) p = [] := by
  refine List.filterMap_eq_nil_iff.2 fun entry member => if_neg ?_
  exact of_decide_eq_true (List.mem_filter.1 member).2

theorem hashesOf_filter_of_ne (other : q ≠ p) :
    hashesOf (table.filter fun entry => entry.1.1 ≠ p) q = hashesOf table q := by
  rw [hashesOf, Table.filter, List.filterMap_filter]
  refine List.filterMap_congr fun entry _ => ?_
  by_cases own : entry.1.1 = p
  · simp [own, Ne.symm other]
  · simp [own]

end Entries

/-- What is put for a project, one path after the other. -/
def putHashes (table : Table (String × String) String) (p : String)
    (hashes : List (String × String)) : Table (String × String) String :=
  hashes.foldl (fun t entry => t.insert (p, entry.1) entry.2) table

theorem hashesOf_putHashes_of_ne {table : Table (String × String) String} {p q : String}
    (other : q ≠ p) (hashes : List (String × String)) :
    hashesOf (putHashes table p hashes) q = hashesOf table q := by
  induction hashes generalizing table with
  | nil => rfl
  | cons entry hashes ih => exact ih.trans (hashesOf_insert_of_ne other)

/-- Different paths are put in their order. -/
theorem hashesOf_putHashes {table : Table (String × String) String} {p : String}
    {hashes : List (String × String)}
    (distinct : ((hashesOf table p ++ hashes).map Prod.fst).Nodup) :
    hashesOf (putHashes table p hashes) p = hashesOf table p ++ hashes := by
  induction hashes generalizing table with
  | nil => exact (List.append_nil _).symm
  | cons entry hashes ih =>
      obtain ⟨path, hash⟩ := entry
      have absent : table.get? (p, path) = none := by
        rw [← Option.not_isSome_iff_eq_none, Option.isSome_iff_exists]
        rintro ⟨old, found⟩
        rw [List.map_append, List.nodup_append] at distinct
        exact distinct.2.2 path (List.mem_map_of_mem (mem_hashesOf.2 found)) path
          (by simp) rfl
      have here := hashesOf_insert_of_absent absent hash
      refine (ih ?_).trans ?_
      · rwa [here, List.append_assoc]
      · rw [here, List.append_assoc]
        rfl

namespace Database

variable {db db' : Database} {p q : String} {hashes : List (String × String)}

/-- What putting digests comes to. -/
theorem replaceHashes_eq (replaced : db.replaceHashes p hashes = .ok db') :
    db' = { db.clearHashes p with hashes := putHashes (db.clearHashes p).hashes p hashes } := by
  unfold replaceHashes at replaced
  simp only at replaced
  split at replaced
  · rename_i none_
    obtain rfl := List.isEmpty_iff.1 none_
    exact (Except.ok.inj replaced).symm
  · split at replaced
    · cases replaced
    · exact (Except.ok.inj replaced).symm

/-- Digests can be put for every project that there is. -/
theorem replaceHashes_of_project {record : Project} (recorded : db.projects.get? p = some record)
    (hashes : List (String × String)) : ∃ db', db.replaceHashes p hashes = .ok db' := by
  have there : (db.clearHashes p).projects.contains p = true :=
    Table.contains_iff.2 ⟨record, recorded⟩
  unfold replaceHashes
  simp only [there, Bool.not_true, Bool.false_eq_true, if_false]
  split <;> exact ⟨_, rfl⟩

/-- **What is put for a project is found for it, and leaves the digests of the others.** -/
theorem hashesOf_replaceHashes (replaced : db.replaceHashes p hashes = .ok db') :
    ((hashes.map Prod.fst).Nodup → hashesOf db'.hashes p = hashes) ∧
      ∀ q, q ≠ p → hashesOf db'.hashes q = hashesOf db.hashes q := by
  obtain rfl := replaceHashes_eq replaced
  refine ⟨fun distinct => ?_, fun q other => ?_⟩
  · have none_ : hashesOf (db.clearHashes p).hashes p = [] := hashesOf_filter_self
    refine (hashesOf_putHashes ?_).trans ?_
    · rwa [none_]
    · rw [none_]
      rfl
  · exact (hashesOf_putHashes_of_ne other hashes).trans (hashesOf_filter_of_ne other)

end Database
end SymbolAtlas.Store
