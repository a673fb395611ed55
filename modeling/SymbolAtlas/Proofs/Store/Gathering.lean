/-
# SymbolAtlas.Proofs.Store.Gathering -- references of symbols that share a moniker

The references of a symbol are gathered from its own and from those of all symbols that carry one
of its monikers, in whatever project, and a place is left out if one is there that starts where
it does.  So nothing starts twice among what is added (`nodup_addPlaces`), and where a place
starts that is found depends on no order: it starts where one of the symbol or of a sharer does
(`starts_sharedReferences`).  A sharer finds the same (`starts_shared_alike`).
-/
import SymbolAtlas.Proofs.Store.Answering
import SymbolAtlas.Proofs.Store.Parting
import SymbolAtlas.Service.Navigation

set_option autoImplicit false

namespace SymbolAtlas.Service

open SymbolAtlas.Store (Database MonikerMatch Place RowId SymbolRow)

/-- Where a place starts: the project, the path and the position. -/
abbrev Start := String × String × Text.Position

/-- Where places start. -/
def starts (places : List Place) : List Start := places.map startOf

/-! ## Adding places -/

section Adding

variable {places more : List Place} {start : Start}

/-- Add a place unless one starts there. -/
def addPlace (places : List Place) (p : Place) : List Place :=
  if places.any fun q => startOf q = startOf p then places else places ++ [p]

theorem addPlaces_eq (places more : List Place) :
    addPlaces places more = more.foldl addPlace places := rfl

theorem any_startOf_iff {p : Place} :
    (places.any fun q => startOf q = startOf p) = true ↔ startOf p ∈ starts places := by
  simp [starts]

theorem mem_starts_addPlace {p : Place} :
    start ∈ starts (addPlace places p) ↔ start ∈ starts places ∨ start = startOf p := by
  unfold addPlace
  split
  · rename_i there
    have there := any_startOf_iff.1 there
    constructor
    · exact .inl
    · rintro (old | rfl)
      · exact old
      · exact there
  · simp [starts]

theorem nodup_addPlace (once : (starts places).Nodup) (p : Place) :
    (starts (addPlace places p)).Nodup := by
  unfold addPlace
  split
  · exact once
  · rename_i absent
    rw [starts, List.map_append, List.nodup_append]
    refine ⟨once, List.nodup_singleton _, fun start old other new same => ?_⟩
    obtain rfl := List.mem_singleton.1 new
    exact absent (any_startOf_iff.2 (same ▸ old))

/-- A place starts among what was there or among what was added. -/
theorem mem_starts_addPlaces :
    start ∈ starts (addPlaces places more) ↔ start ∈ starts places ∨ start ∈ starts more := by
  rw [addPlaces_eq]
  induction more generalizing places with
  | nil => simp [starts]
  | cons p more ih =>
      rw [List.foldl_cons, ih, mem_starts_addPlace, or_assoc]
      simp [starts]

/-- **Nothing that is added starts where something is.** -/
theorem nodup_addPlaces (once : (starts places).Nodup) :
    (starts (addPlaces places more)).Nodup := by
  rw [addPlaces_eq]
  induction more generalizing places with
  | nil => exact once
  | cons p more ih => exact ih (nodup_addPlace once p)

end Adding

/-! ## Sharers of a moniker -/

section Sharing

variable {db : Database} {a b s : SymbolRow} {withDeclaration : Bool} {start : Start}

/-- A symbol carries a moniker of another. -/
def Shares (db : Database) (a s : SymbolRow) : Prop :=
  ∃ identifier ∈ db.monikersOf a, identifier ∈ db.monikersOf s

theorem symbol?_iff (sound : db.Sound) {id : RowId} :
    db.symbol? id = some s ↔ s ∈ db.symbols ∧ s.id = id := by
  constructor
  · intro found
    exact ⟨Array.mem_of_find?_eq_some found, by simpa using Array.find?_some found⟩
  · rintro ⟨member, rfl⟩
    exact Store.find?_numbered sound.symbols member

theorem mem_monikersOf {identifier : String} :
    identifier ∈ db.monikersOf s ↔
      ∃ m ∈ db.monikers, m.symbol = s.id ∧ m.moniker.identifier = identifier := by
  simp [Database.monikersOf, List.mem_filterMap]

/-- **What is found for a moniker are the symbols that carry it.** -/
theorem exists_byMoniker_iff (sound : db.Sound) {identifier : String} :
    (∃ m ∈ db.byMoniker identifier, m.symbol = s) ↔
      s ∈ db.symbols ∧ identifier ∈ db.monikersOf s := by
  rw [Database.byMoniker_eq]
  simp only [List.mem_filterMap, List.mem_mergeSort, List.mem_filter, Array.mem_toList_iff,
    mem_monikersOf, Database.matchOf?, Option.map_eq_some_iff, decide_eq_true_eq]
  constructor
  · rintro ⟨found, ⟨m, ⟨member, carried⟩, t, here, rfl⟩, rfl⟩
    obtain ⟨inside, own⟩ := (symbol?_iff sound).1 here
    exact ⟨inside, m, member, own.symm, carried⟩
  · rintro ⟨inside, m, member, own, carried⟩
    exact ⟨_, ⟨m, ⟨member, carried⟩, s, (symbol?_iff sound).2 ⟨inside, own.symm⟩, rfl⟩, rfl⟩

theorem mem_references {place : Place} : place ∈ db.references s withDeclaration ↔
    place ∈ db.itemPlaces s.id ["references"] ∨
      withDeclaration = true ∧ place ∈ db.itemPlaces s.id ["definitions"] := by
  simp only [Database.references, Database.mem_itemPlaces_iff]
  cases withDeclaration with
  | false => simp
  | true =>
      simp only [if_true, List.mem_cons, List.not_mem_nil, or_false, true_and]
      constructor
      · rintro ⟨i, member, ⟨own, property | property⟩, here⟩
        · exact .inl ⟨i, member, ⟨own, property⟩, here⟩
        · exact .inr ⟨i, member, ⟨own, property⟩, here⟩
      · rintro (⟨i, member, ⟨own, property⟩, here⟩ | ⟨i, member, ⟨own, property⟩, here⟩)
        · exact ⟨i, member, ⟨own, .inl property⟩, here⟩
        · exact ⟨i, member, ⟨own, .inr property⟩, here⟩

/-- Declarations are listed besides the references. -/
theorem starts_references_mono (member : start ∈ starts (db.references s false)) :
    start ∈ starts (db.references s withDeclaration) := by
  obtain ⟨place, here, rfl⟩ := List.mem_map.1 member
  refine List.mem_map_of_mem (mem_references.2 (.inl ?_))
  simpa using mem_references.1 here

/-- What is gathered from matches, whatever their order. -/
theorem mem_starts_gathered (others : List MonikerMatch) {places : List Place} :
    start ∈ starts (others.foldl (fun places m =>
        if m.symbol.id = a.id then places
        else addPlaces places (db.references m.symbol false)) places) ↔
      start ∈ starts places ∨
        ∃ m ∈ others, m.symbol.id ≠ a.id ∧ start ∈ starts (db.references m.symbol false) := by
  induction others generalizing places with
  | nil => simp
  | cons m others ih =>
      rw [List.foldl_cons, ih, List.exists_mem_cons_iff]
      split
      · rename_i own
        simp [own]
      · rename_i other
        rw [mem_starts_addPlaces, or_assoc]
        simp [other]

theorem nodup_gathered (others : List MonikerMatch) {places : List Place}
    (once : (starts places).Nodup) :
    (starts (others.foldl (fun places m =>
      if m.symbol.id = a.id then places
      else addPlaces places (db.references m.symbol false)) places)).Nodup := by
  induction others generalizing places with
  | nil => exact once
  | cons m others ih =>
      rw [List.foldl_cons]
      split
      · exact ih once
      · exact ih (nodup_addPlaces once)

/-- **The references that are found** start where one of the symbol does, or one of a symbol that
shares a moniker with it. -/
theorem mem_starts_sharedReferences (sound : db.Sound) (member : a ∈ db.symbols) :
    start ∈ starts (sharedReferences db a withDeclaration) ↔
      start ∈ starts (db.references a withDeclaration) ∨
        ∃ s ∈ db.symbols, Shares db a s ∧ start ∈ starts (db.references s false) := by
  rw [sharedReferences, mem_starts_gathered]
  refine or_congr_right' fun absent => ?_
  constructor
  · rintro ⟨m, found, -, here⟩
    obtain ⟨identifier, own, match_⟩ := List.mem_flatMap.1 found
    obtain ⟨inside, carried⟩ := (exists_byMoniker_iff sound).1 ⟨m, match_, rfl⟩
    exact ⟨m.symbol, inside, ⟨identifier, own, carried⟩, here⟩
  · rintro ⟨s, inside, ⟨identifier, own, carried⟩, here⟩
    obtain ⟨m, match_, rfl⟩ := (exists_byMoniker_iff sound).2 ⟨inside, carried⟩
    refine ⟨m, List.mem_flatMap.2 ⟨identifier, own, match_⟩, fun same => absent ?_, here⟩
    have known := Store.find?_numbered sound.symbols inside
    have known' := Store.find?_numbered sound.symbols member
    rw [same] at known
    rw [Option.some.inj (known'.symm.trans known)]
    exact starts_references_mono here

/-- **Symbols with the same monikers have the same references.** -/
theorem starts_shared_alike (sound : db.Sound) (first : a ∈ db.symbols) (second : b ∈ db.symbols)
    (some_ : db.monikersOf a ≠ [])
    (same : ∀ identifier, identifier ∈ db.monikersOf a ↔ identifier ∈ db.monikersOf b) :
    start ∈ starts (sharedReferences db a false) ↔
      start ∈ starts (sharedReferences db b false) := by
  obtain ⟨identifier, carried⟩ := List.exists_mem_of_ne_nil _ some_
  have gathered {c : SymbolRow} (member : c ∈ db.symbols)
      (alike : ∀ identifier, identifier ∈ db.monikersOf a ↔ identifier ∈ db.monikersOf c) :
      start ∈ starts (sharedReferences db c false) ↔
        ∃ s ∈ db.symbols, Shares db a s ∧ start ∈ starts (db.references s false) := by
    rw [mem_starts_sharedReferences sound member]
    have shares {s : SymbolRow} : Shares db c s ↔ Shares db a s := by
      simp only [Shares, alike]
    simp only [shares]
    refine or_iff_right_of_imp fun own => ?_
    exact ⟨c, member, ⟨identifier, carried, (alike identifier).1 carried⟩, own⟩
  rw [gathered first fun _ => Iff.rfl, gathered second same]

end Sharing

end SymbolAtlas.Service
