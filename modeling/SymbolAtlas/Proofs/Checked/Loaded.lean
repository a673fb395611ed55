/-
# SymbolAtlas.Proofs.Checked.Loaded -- what a loaded module consists of

A loaded module has one tree for each file that was selected, in the same order, and no path was
selected twice (`nodup_select`).  Its memory is sound, and each tree was built from what its file
mentions (`Program.Built`, `built_of_load`).

Nothing that is asked later changes the nodes that were shown (`Program.Built.anchored`), so a
session may rely on them.
-/
import Mathlib.Data.List.Forall2
import Mathlib.Data.List.Nodup
import SymbolAtlas.Proofs.Checked.Outline
import SymbolAtlas.Proofs.Session.Anchors

set_option autoImplicit false

namespace SymbolAtlas.Checked

variable {b : Base} {m : Memory} {keeps : String → Bool}

/-! ## Selection -/

theorem nodup_addFresh {files : List LoadedFile} (once : (files.map (·.path)).Nodup)
    (f : LoadedFile) : ((addFresh files f).map (·.path)).Nodup := by
  unfold addFresh
  split
  · exact once
  · rename_i absent
    rw [List.map_append, List.nodup_append]
    refine ⟨once, List.nodup_singleton _, fun path old other new same => ?_⟩
    obtain ⟨g, member, rfl⟩ := List.mem_map.1 old
    obtain rfl := List.mem_singleton.1 new
    exact absent (List.any_eq_true.2 ⟨g, member, decide_eq_true same⟩)

theorem nodup_foldl_addFresh (files : List LoadedFile) {more : List LoadedFile}
    (once : (more.map (·.path)).Nodup) : ((files.foldl addFresh more).map (·.path)).Nodup := by
  induction files generalizing more with
  | nil => exact once
  | cons f files ih => exact ih (nodup_addFresh once f)

theorem mem_foldl_addFresh {files more : List LoadedFile} {f : LoadedFile}
    (member : f ∈ more.foldl addFresh files) : f ∈ files ∨ f ∈ more := by
  induction more generalizing files with
  | nil => exact .inl member
  | cons g more ih =>
      rcases ih member with old | later
      · unfold addFresh at old
        split at old
        · exact .inl old
        · rcases List.mem_append.1 old with old | new
          · exact .inl old
          · exact .inr (List.mem_singleton.1 new ▸ List.mem_cons_self)
      · exact .inr (List.mem_cons_of_mem _ later)

/-- No file is selected twice. -/
theorem nodup_select (b : Base) (keeps : String → Bool) :
    ((b.select keeps).map (·.path)).Nodup := by
  unfold Base.select
  rw [((List.mergeSort_perm _ _).map _).nodup_iff]
  exact nodup_foldl_addFresh _ List.nodup_nil

/-- A selected file has the text that stands at its path. -/
theorem source_of_select {f : LoadedFile} (selected : f ∈ b.select keeps) :
    f.source = b.source f.path := by
  have added := mem_foldl_addFresh ((List.mergeSort_perm _ _).mem_iff.1 selected)
  have wanted := (List.mem_filter.1 (added.resolve_left List.not_mem_nil)).1
  obtain ⟨package, -, inside⟩ := List.mem_flatMap.1 wanted
  unfold Base.filesOf at inside
  split at inside
  · cases inside
  · split at inside
    · cases inside
    · obtain ⟨⟨path, parsed⟩, -, rfl⟩ := List.mem_map.1 inside
      rfl

/-! ## Files one after the other -/

/-- A tree was built from a file. -/
def Pictures (b : Base) (m m' : Memory) (f : LoadedFile) (t : Tree) : Prop :=
  t.root.file = f.path ∧ Outlined b f f.parsed.mentions [] m t.nodes m'

theorem outlined_files {files : List LoadedFile}
    (source : ∀ f ∈ files, f.source = b.source f.path) (sound : m.Sound b) :
    let r := files.mapM (outlineFile b) m
    r.2.Sound b ∧ m.Grows r.2 ∧ List.Forall₂ (Pictures b m r.2) files r.1 := by
  induction files generalizing m with
  | nil => exact ⟨sound, .refl m, .nil⟩
  | cons f rest ih =>
      obtain ⟨own, root⟩ := outlined_outlineFile (source f List.mem_cons_self) sound
      obtain ⟨last, grows, others⟩ := ih (fun g member => source g (List.mem_cons_of_mem _ member))
        own.sound
      rw [List.mapM_cons]
      refine ⟨last, own.grows.trans grows, .cons ⟨root, ?_⟩ (others.imp fun g t picture =>
        ⟨picture.1, ?_⟩)⟩
      · have kept := own.append (.nothing last grows)
        rw [List.append_nil, List.append_nil] at kept
        exact kept
      · exact (Outlined.nothing own.sound own.grows).append picture.2

/-! ## Loaded modules -/

/-- A module that was built from selected files. -/
structure Program.Built (p : Program) (files : List LoadedFile) : Prop where
  sound : p.memory.Sound p.base
  /-- There is a tree for each file. -/
  pictures : List.Forall₂ (Pictures p.base {} p.memory) files p.files
  /-- No path occurs twice. -/
  distinct : (files.map (·.path)).Nodup

theorem built_of_load {p : Program} (loaded : Program.load b keeps = .ok p) :
    p.base = b ∧ p.Built (b.select keeps) := by
  have shown : ∃ errors, p = ⟨b, ((b.select keeps).mapM (outlineFile b) {}).1,
      ((b.select keeps).mapM (outlineFile b) {}).2, errors⟩ := by
    unfold Program.load at loaded
    split at loaded
    · cases loaded
    · exact ⟨_, (Except.ok.inj loaded).symm⟩
  obtain ⟨errors, rfl⟩ := shown
  obtain ⟨sound, -, pictures⟩ := outlined_files (fun _ => source_of_select)
    (Memory.sound_empty b)
  exact ⟨rfl, sound, pictures, nodup_select b keeps⟩

namespace Program.Built

variable {p : Program} {files : List LoadedFile}

theorem picture_of_file (h : p.Built files) {f : LoadedFile} (member : f ∈ files) :
    ∃ t ∈ p.files, Pictures p.base {} p.memory f t := by
  obtain ⟨i, bound, rfl⟩ := List.getElem_of_mem member
  exact ⟨_, List.getElem_mem (h.pictures.length_eq ▸ bound),
    h.pictures.get bound (h.pictures.length_eq ▸ bound)⟩

theorem picture_of_tree (h : p.Built files) {t : Tree} (member : t ∈ p.files) :
    ∃ f ∈ files, Pictures p.base {} p.memory f t := by
  obtain ⟨i, bound, rfl⟩ := List.getElem_of_mem member
  exact ⟨_, List.getElem_mem (h.pictures.length_eq.symm ▸ bound),
    h.pictures.get (h.pictures.length_eq.symm ▸ bound) bound⟩

theorem paths_eq (h : p.Built files) : p.files.map (·.root.file) = files.map (·.path) := by
  refine List.ext_getElem (by simp [h.pictures.length_eq]) fun i bound bound' => ?_
  rw [List.getElem_map, List.getElem_map]
  rw [List.length_map] at bound bound'
  exact (h.pictures.get bound' bound).1

theorem nodup_paths (h : p.Built files) : (p.files.map (·.root.file)).Nodup :=
  h.paths_eq ▸ h.distinct

/-- What was shown is there. -/
theorem has_of_shown (h : p.Built files) {m : Memory} {id : NodeId}
    (shown : p.oracle.Shown p.memory m id) : m.Sound p.base ∧ m.Has id := by
  induction shown with
  | visited indexed inside =>
      obtain ⟨f, -, -, outlined⟩ := h.picture_of_tree indexed
      exact ⟨h.sound, (outlined.nodes _ inside).2.1⟩
  | declared later answer =>
      obtain ⟨told, declared⟩ := answers_declarationsOf (told_later h.sound later).sound _
      exact ⟨told.sound, (declared _ answer).1⟩
  | name _ named ih => exact ⟨ih.1, ((ih.1.nodes _ ih.2).name _ named).1⟩
  | parent _ up ih => exact ⟨ih.1, (ih.1.nodes _ ih.2).parent _ up⟩
  | asked _ question ih =>
      have told := told_asked ih.1 question
      exact ⟨told.sound, told.grows.has ih.2⟩

/-- **Nodes that were shown stay what they are.** -/
theorem anchored (h : p.Built files) : p.oracle.Anchored p.memory where
  tree t indexed n inside := by
    obtain ⟨f, -, root, outlined⟩ := h.picture_of_tree indexed
    obtain ⟨-, -, own, file⟩ := outlined.nodes n inside
    exact ⟨own, file.trans root.symm⟩
  stays shown question := by
    obtain ⟨sound, has⟩ := h.has_of_shown shown
    exact (told_asked sound question).grows.node has
  name_file shown named := by
    obtain ⟨sound, has⟩ := h.has_of_shown shown
    exact ((sound.nodes _ has).name _ named).2

end Program.Built

end SymbolAtlas.Checked
