/-
# SymbolAtlas.Proofs.Store.Parting -- answers about a project come from its own rows

In a closed database (`Database.Closed`) every reference leads to a row of the same project.
Most queries never ask for the project of a row that they reach; where the database is closed
they need not, because what they reach from a row of a project belongs to it too.  So an answer
about a project is the one that its rows alone give (`Database.graphOf`).
-/
import Mathlib.Data.List.Find
import Mathlib.Data.List.Nodup
import SymbolAtlas.Proofs.Store.Offsets
import SymbolAtlas.Proofs.Store.Rows

set_option autoImplicit false

namespace SymbolAtlas.Store

open Text (Position)

/-! ## Sorting a part of a list -/

section Sorting

variable {α : Type} {le : α → α → Bool}

/-- A list that is sorted about `a` is cut at `a` in one way. -/
theorem eq_of_cut {a : α} {l₁ l₂ r₁ r₂ : List α} (same : l₁ ++ l₂ = r₁ ++ r₂)
    (before : ∀ b ∈ l₁, le a b = false) (after : ∀ b ∈ l₂, le a b = true)
    (before' : ∀ b ∈ r₁, le a b = false) (after' : ∀ b ∈ r₂, le a b = true) :
    l₁ = r₁ ∧ l₂ = r₂ := by
  have front {xs ys : List α} (below : ∀ b ∈ xs, le a b = false) (above : ∀ b ∈ ys, le a b = true) :
      (xs ++ ys).filter (fun b => !le a b) = xs := by
    rw [List.filter_append, List.filter_eq_self.2 fun b here => by simp [below b here],
      List.filter_eq_nil_iff.2 fun b here => by simp [above b here], List.append_nil]
  have fronts := congrArg (List.filter fun b => !le a b) same
  rw [front before after, front before' after'] at fronts
  subst fronts
  exact ⟨rfl, List.append_cancel_left same⟩

/-- **Sorting is stable**: what is sorted of a part is the part of what is sorted. -/
theorem filter_mergeSort (trans : ∀ a b c, le a b = true → le b c = true → le a c = true)
    (total : ∀ a b, (le a b || le b a) = true) (keep : α → Bool) (xs : List α) :
    (xs.mergeSort le).filter keep = (xs.filter keep).mergeSort le := by
  induction xs with
  | nil => simp
  | cons a xs ih =>
      obtain ⟨l₁, l₂, whole, rest, before⟩ := List.mergeSort_cons trans total a xs
      rw [rest, List.filter_append] at ih
      rw [whole, List.filter_append]
      by_cases kept : keep a = true
      · obtain ⟨r₁, r₂, whole', rest', before'⟩ :=
          List.mergeSort_cons trans total a (xs.filter keep)
        rw [List.filter_cons_of_pos kept, List.filter_cons_of_pos kept, whole']
        have sorted := List.pairwise_mergeSort trans total (a :: xs)
        have sorted' := List.pairwise_mergeSort trans total (a :: xs.filter keep)
        rw [whole] at sorted
        rw [whole'] at sorted'
        have after := (List.pairwise_cons.1 (List.pairwise_append.1 sorted).2.1).1
        have after' := (List.pairwise_cons.1 (List.pairwise_append.1 sorted').2.1).1
        obtain ⟨rfl, rfl⟩ := @eq_of_cut α le a _ _ _ _ (ih.trans rest')
          (fun b here => by simpa using before b (List.mem_filter.1 here).1)
          (fun b here => after b (List.mem_filter.1 here).1)
          (fun b here => by simpa using before' b here) after'
        rfl
      · rw [List.filter_cons_of_neg kept, List.filter_cons_of_neg kept]
        exact ih

end Sorting

theorem Database.monikerOrder_trans (a b c : MonikerRow) (first : monikerOrder a b = true)
    (second : monikerOrder b c = true) : monikerOrder a c = true := by
  simp only [monikerOrder, Bool.or_eq_true, Bool.and_eq_true, decide_eq_true_eq] at *
  grind

theorem Database.monikerOrder_total (a b : MonikerRow) :
    (monikerOrder a b || monikerOrder b a) = true := by
  simp only [monikerOrder, Bool.or_eq_true, Bool.and_eq_true, decide_eq_true_eq]
  grind

/-! ## Closed databases -/

namespace Database

/-- A document with a number is one of a project's. -/
def HasDocument (db : Database) (project : String) (id : RowId) : Prop :=
  ∃ d ∈ db.documents, d.id = id ∧ d.project = project

/-- A symbol with a number is one of a project's. -/
def HasSymbol (db : Database) (project : String) (id : RowId) : Prop :=
  ∃ s ∈ db.symbols, s.id = id ∧ s.project = project

/-- A range with a number is one of a project's. -/
def HasRange (db : Database) (project : String) (id : RowId) : Prop :=
  ∃ r ∈ db.ranges, r.id = id ∧ r.project = project

/-- **Every reference leads to a row of the same project**: those of ranges, items and monikers,
and from a symbol to the one that it stands for. -/
structure Closed (db : Database) : Prop where
  ranges : ∀ r ∈ db.ranges, db.HasDocument r.project r.document ∧ db.HasSymbol r.project r.symbol
  items : ∀ i ∈ db.items, db.HasSymbol i.project i.symbol ∧ db.HasRange i.project i.range
  monikers : ∀ m ∈ db.monikers, db.HasSymbol m.project m.symbol
  aliases : ∀ s ∈ db.symbols, ∀ target, s.aliasOf = some target → db.HasSymbol s.project target

/-- The rows of a project's graph. -/
def graphOf (db : Database) (project : String) : Database :=
  { documents := db.documents.filter (·.project = project)
    symbols := db.symbols.filter (·.project = project)
    ranges := db.ranges.filter (·.project = project)
    items := db.items.filter (·.project = project)
    monikers := db.monikers.filter (·.project = project) }

variable {db : Database} {project : String} {id : RowId}

theorem mem_graphOf_symbols {s : SymbolRow} :
    s ∈ (db.graphOf project).symbols ↔ s ∈ db.symbols ∧ s.project = project := by
  simp [graphOf]

/-- A row that is found by number in a part of the rows. -/
theorem find?_filter_of_own {ρ : Type} {rows : Array ρ} {keep find : ρ → Bool}
    (own : ∀ row ∈ rows, find row = true → keep row = true) :
    (rows.filter keep).find? find = rows.find? find := by
  rw [Array.find?_filter, ← Array.find?_toList, ← Array.find?_toList]
  refine List.find?_congr fun row member => ?_
  have here := own row (Array.mem_toList_iff.1 member)
  by_cases found : find row = true
  · simp [found, here found]
  · simp [found]

namespace Sound

theorem document_project (sound : db.Sound) (has : db.HasDocument project id) :
    ∀ d ∈ db.documents, d.id = id → d.project = project := by
  obtain ⟨d', member', rfl, own⟩ := has
  intro d member same
  rwa [List.inj_on_of_nodup_map sound.documents.once (Array.mem_toList_iff.2 member)
    (Array.mem_toList_iff.2 member') same]

theorem symbol_project (sound : db.Sound) (has : db.HasSymbol project id) :
    ∀ s ∈ db.symbols, s.id = id → s.project = project := by
  obtain ⟨s', member', rfl, own⟩ := has
  intro s member same
  rwa [List.inj_on_of_nodup_map sound.symbols.once (Array.mem_toList_iff.2 member)
    (Array.mem_toList_iff.2 member') same]

theorem range_project (sound : db.Sound) (has : db.HasRange project id) :
    ∀ r ∈ db.ranges, r.id = id → r.project = project := by
  obtain ⟨r', member', rfl, own⟩ := has
  intro r member same
  rwa [List.inj_on_of_nodup_map sound.ranges.once (Array.mem_toList_iff.2 member)
    (Array.mem_toList_iff.2 member') same]

end Sound

theorem symbol?_graphOf (own : ∀ s ∈ db.symbols, s.id = id → s.project = project) :
    (db.graphOf project).symbol? id = db.symbol? id :=
  find?_filter_of_own fun s member found =>
    decide_eq_true (own s member (of_decide_eq_true found))

theorem document?_graphOf (own : ∀ d ∈ db.documents, d.id = id → d.project = project) :
    (db.graphOf project).document? id = db.document? id :=
  find?_filter_of_own fun d member found =>
    decide_eq_true (own d member (of_decide_eq_true found))

theorem range?_graphOf (own : ∀ r ∈ db.ranges, r.id = id → r.project = project) :
    (db.graphOf project).range? id = db.range? id :=
  find?_filter_of_own fun r member found =>
    decide_eq_true (own r member (of_decide_eq_true found))

/-- What a symbol of a project stands for is a symbol of the project. -/
theorem Closed.mem_of_symbol? (sound : db.Sound) (has : db.HasSymbol project id) {s : SymbolRow}
    (found : db.symbol? id = some s) : s ∈ db.symbols ∧ s.project = project := by
  have member := Array.mem_of_find?_eq_some found
  exact ⟨member, sound.symbol_project has s member (by simpa using Array.find?_some found)⟩

/-! ## Answers about a project -/

namespace Closed

theorem covering (closed : db.Closed) (sound : db.Sound) (path : String) (p : Position) :
    (db.graphOf project).covering project path p = db.covering project path p := by
  have documents : (db.documents.filter (·.project = project)).filter
      (fun d => d.project = project ∧ d.path = path) =
        db.documents.filter fun d => d.project = project ∧ d.path = path := by
    rw [Array.filter_filter]
    refine congrArg (fun keep => db.documents.filter keep) (funext fun d => ?_)
    by_cases own : d.project = project <;> simp [own]
  simp only [Database.covering, graphOf, documents, Array.toList_filter, List.filter_filter]
  refine List.filter_congr fun r member => ?_
  have member := Array.mem_toList_iff.1 member
  by_cases inside : ((db.documents.filter fun d => d.project = project ∧ d.path = path).map
      (·.id)).contains r.document = true
  · have own : r.project = project := by
      rw [Array.contains_iff_mem, Array.mem_map] at inside
      obtain ⟨d, here, home⟩ := inside
      obtain ⟨file, shown⟩ := Array.mem_filter.1 here
      have shown : d.project = project ∧ d.path = path := of_decide_eq_true shown
      rw [← sound.document_project (closed.ranges r member).1 d file home, shown.1]
    simp [own]
  · rw [Bool.not_eq_true] at inside
    simp only [inside, Bool.false_and]

theorem symbolAt? (closed : db.Closed) (sound : db.Sound) (path : String) (p : Position) :
    (db.graphOf project).symbolAt? project path p = db.symbolAt? project path p := by
  rw [Database.symbolAt?, closed.covering sound, Database.symbolAt?]
  cases first : ((db.covering project path p).mergeSort
      fun a b => isTighter a.span b.span).head? with
  | none => rfl
  | some r =>
      have covers : r ∈ db.covering project path p :=
        (List.mergeSort_perm _ _).mem_iff.1 (List.mem_of_head? first)
      rw [← closed.covering sound] at covers
      have inside := Array.mem_toList_iff.1 (List.mem_filter.1 covers).1
      obtain ⟨member, own⟩ := Array.mem_filter.1 inside
      have own : r.project = project := of_decide_eq_true own
      exact symbol?_graphOf (own ▸ sound.symbol_project (closed.ranges r member).2)

theorem place? (closed : db.Closed) (sound : db.Sound) {r : RangeRow} (member : r ∈ db.ranges)
    (own : r.project = project) : (db.graphOf project).place? r = db.place? r := by
  rw [Database.place?, Database.place?,
    document?_graphOf (own ▸ sound.document_project (closed.ranges r member).1)]

theorem itemPlaces (closed : db.Closed) (sound : db.Sound)
    (own : ∀ s ∈ db.symbols, s.id = id → s.project = project) (properties : List String) :
    (db.graphOf project).itemPlaces id properties = db.itemPlaces id properties := by
  unfold Database.itemPlaces
  refine congrArg (fun places : List Place => places.eraseDups.mergeSort isBefore) ?_
  rw [show (db.graphOf project).items = db.items.filter (·.project = project) from rfl,
    Array.toList_filter, List.filterMap_filter]
  refine List.filterMap_congr fun i member => ?_
  obtain ⟨symbol, range⟩ := closed.items i (Array.mem_toList_iff.1 member)
  by_cases listed : i.symbol = id ∧ properties.contains i.property
  · have same : i.project = project := by
      obtain ⟨s, here, named, home⟩ := symbol
      exact home.symm.trans (own s here (named.trans listed.1))
    rw [if_pos (decide_eq_true same), if_pos listed, if_pos listed,
      range?_graphOf (same ▸ sound.range_project range)]
    cases found : db.range? i.range with
    | none => rfl
    | some r =>
        have here := Array.mem_of_find?_eq_some found
        have named : r.id = i.range := by simpa using Array.find?_some found
        exact closed.place? sound here
          ((sound.range_project range r here named).trans same)
  · rw [if_neg listed, if_neg listed]
    exact ite_self _

variable {s : SymbolRow}

/-- The numbers of a project's symbols are those of no other project. -/
theorem own_id (sound : db.Sound) (member : s ∈ db.symbols) (own : s.project = project) :
    ∀ t ∈ db.symbols, t.id = s.id → t.project = project :=
  sound.symbol_project ⟨s, member, rfl, own⟩

theorem bind_aliasOf (closed : db.Closed) (sound : db.Sound) (member : s ∈ db.symbols)
    (own : s.project = project) :
    s.aliasOf.bind (db.graphOf project).symbol? = s.aliasOf.bind db.symbol? ∧
      ∀ t, s.aliasOf.bind db.symbol? = some t → t ∈ db.symbols ∧ t.project = project := by
  cases link : s.aliasOf with
  | none => exact ⟨rfl, fun _ found => nomatch found⟩
  | some target =>
      have has : db.HasSymbol project target := own ▸ closed.aliases s member target link
      exact ⟨symbol?_graphOf (sound.symbol_project has), fun t found =>
        mem_of_symbol? sound has found⟩

theorem definitionsWithin (closed : db.Closed) (sound : db.Sound) (hops : Nat)
    (member : s ∈ db.symbols) (own : s.project = project) :
    (db.graphOf project).definitionsWithin hops s = db.definitionsWithin hops s := by
  induction hops generalizing s with
  | zero => rfl
  | succ hops ih =>
      obtain ⟨same, inside⟩ := closed.bind_aliasOf sound member own
      rw [Database.definitionsWithin, Database.definitionsWithin, same,
        closed.itemPlaces sound (own_id sound member own)]
      cases found : s.aliasOf.bind db.symbol? with
      | none => rfl
      | some target =>
          obtain ⟨member', own'⟩ := inside target found
          simp only [ih member' own']

theorem definitions (closed : db.Closed) (sound : db.Sound) (member : s ∈ db.symbols)
    (own : s.project = project) : (db.graphOf project).definitions s = db.definitions s :=
  closed.definitionsWithin sound aliasHops member own

theorem references (closed : db.Closed) (sound : db.Sound) (member : s ∈ db.symbols)
    (own : s.project = project) (withDeclaration : Bool) :
    (db.graphOf project).references s withDeclaration = db.references s withDeclaration :=
  closed.itemPlaces sound (own_id sound member own) _

theorem hoverSource (closed : db.Closed) (sound : db.Sound) (hops : Nat)
    (member : s ∈ db.symbols) (own : s.project = project) :
    (db.graphOf project).hoverSource hops s = db.hoverSource hops s := by
  induction hops generalizing s with
  | zero => rfl
  | succ hops ih =>
      obtain ⟨same, inside⟩ := closed.bind_aliasOf sound member own
      rw [Database.hoverSource, Database.hoverSource, same]
      cases found : s.aliasOf.bind db.symbol? with
      | none => rfl
      | some target =>
          obtain ⟨member', own'⟩ := inside target found
          simp only [ih member' own']

theorem monikersOf (closed : db.Closed) (sound : db.Sound) (member : s ∈ db.symbols)
    (own : s.project = project) : (db.graphOf project).monikersOf s = db.monikersOf s := by
  unfold Database.monikersOf
  rw [show (db.graphOf project).monikers = db.monikers.filter (·.project = project) from rfl,
    Array.toList_filter, List.filterMap_filter]
  refine List.filterMap_congr fun m here => ?_
  by_cases attached : m.symbol = s.id
  · obtain ⟨t, there, named, home⟩ := closed.monikers m (Array.mem_toList_iff.1 here)
    have same : m.project = project :=
      home.symm.trans (own_id sound member own t there (named.trans attached))
    rw [if_pos (decide_eq_true same)]
  · rw [if_neg attached]
    exact ite_self _

/-- What is found for a moniker is a symbol of its project. -/
theorem matchOf? (closed : db.Closed) (sound : db.Sound) {m : MonikerRow}
    (member : m ∈ db.monikers) :
    (db.graphOf m.project).matchOf? m = db.matchOf? m ∧
      ∀ found, db.matchOf? m = some found → found.symbol.project = m.project := by
  have has := closed.monikers m member
  rw [Database.matchOf?, Database.matchOf?, symbol?_graphOf (sound.symbol_project has)]
  cases found : db.symbol? m.symbol with
  | none => exact ⟨rfl, by simp⟩
  | some t =>
      obtain ⟨here, home⟩ := mem_of_symbol? sound has found
      refine ⟨?_, fun _ same => Option.some.inj same ▸ home⟩
      simp only [Option.map_some, closed.definitions sound here home]

/-- The matches of a project are those of its own monikers. -/
theorem byMoniker (closed : db.Closed) (sound : db.Sound) (identifier : String) :
    (db.graphOf project).byMoniker identifier =
      (db.byMoniker identifier).filter (·.symbol.project = project) := by
  have rows : (db.graphOf project).monikers.toList.filter (·.moniker.identifier = identifier) =
      (db.monikers.toList.filter (·.moniker.identifier = identifier)).filter
        (·.project = project) := by
    rw [show (db.graphOf project).monikers = db.monikers.filter (·.project = project) from rfl,
      Array.toList_filter, List.filter_filter, List.filter_filter]
    exact List.filter_congr fun m _ => Bool.and_comm ..
  rw [byMoniker_eq, byMoniker_eq, rows, ← filter_mergeSort monikerOrder_trans monikerOrder_total,
    List.filterMap_filter, List.filter_filterMap]
  refine List.filterMap_congr fun m sorted => ?_
  have listed := (List.mergeSort_perm _ _).mem_iff.1 sorted
  have member := Array.mem_toList_iff.1 (List.mem_filter.1 listed).1
  obtain ⟨same, home⟩ := closed.matchOf? sound member
  by_cases own : m.project = project
  · subst own
    rw [if_pos (decide_eq_true rfl), same]
    cases here : db.matchOf? m with
    | none => rfl
    | some found => exact (if_pos (decide_eq_true (home found here))).symm
  · rw [if_neg (by simpa using own)]
    refine (Option.filter_eq_none_iff.2 fun found here => ?_).symm
    simpa [home found here] using own

theorem summary : (db.graphOf project).summary project = db.summary project := by
  simp only [Database.summary, graphOf, Array.toList_filter, List.filter_filter, Bool.and_self]

end Closed

end Database

end SymbolAtlas.Store
