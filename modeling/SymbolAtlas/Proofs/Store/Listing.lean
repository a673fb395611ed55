/-
# SymbolAtlas.Proofs.Store.Listing -- the projects of a store

In every store that there can be a project stands under its own name (`Database.Reached.named`).
So the list of all projects, which has what is stored (`listProjects_perm`), names each of them
once (`nodup_listProjects`).
-/
import SymbolAtlas.Proofs.Store.Isolation

set_option autoImplicit false

namespace SymbolAtlas.Store

/-- **A project stands under its own name.** -/
theorem Database.Reached.named {db : Database} (h : db.Reached) :
    db.projects.All fun name p => p.name = name := by
  induction h with
  | empty => exact Table.all_empty _
  | upsert _ p ih => exact ih.insert rfl
  | clearGraph _ _ ih => exact ih
  | removeProject _ _ ih => exact ih.erase _
  | replaceHashes _ replaced ih =>
      obtain rfl := Database.replaceHashes_eq replaced
      exact ih
  | forgetLibraries _ ih => exact ih
  | @written db before p elements ih =>
      have rows := Database.written_eq before.sound p elements
      rw [Database.written] at rows
      rw [rows]
      exact ih.insert rfl
  | @indexed db before p elements ih =>
      have rows := Database.flush_written before.sound p elements
      rw [Database.written] at rows
      rw [rows]
      exact ih.insert rfl

variable {s : Store} {listed : List Project}

theorem listProjects_perm (asked : s.listProjects = .ok listed) :
    listed.Perm s.database.projects.values := by
  unfold listProjects ask at asked
  split at asked
  · obtain rfl := Except.ok.inj asked
    exact List.mergeSort_perm _ _
  · cases asked

/-- No project is listed twice. -/
theorem nodup_listProjects (reached : s.database.Reached)
    (asked : s.listProjects = .ok listed) : (listed.map (·.name)).Nodup := by
  have names : s.database.projects.values.map (·.name) = s.database.projects.keys := by
    rw [Table.values, Table.keys, List.map_map]
    exact List.map_congr_left fun entry member =>
      reached.named entry.1 entry.2 (Table.mem_entries_iff.1 member)
  rw [((listProjects_perm asked).map _).nodup_iff, names]
  exact s.database.projects.distinct

end SymbolAtlas.Store
