/-
# SymbolAtlas.Proofs.Store.Answering -- what is answered from a written stream

The answers of a database that a stream was written to (`Holding`), read off the stream: the
symbol at a position is the one whose ranges cover it (`symbolAt?_of_covered`), and the places of
a symbol are those of the ranges that its item edges list, each one time (`mem_itemPlaces`,
`nodup_itemPlaces`).
-/
import SymbolAtlas.Proofs.Store.Following
import SymbolAtlas.Store.Queries

set_option autoImplicit false

namespace SymbolAtlas.Store

open SymbolAtlas.Graph (Id Element)
open Text (Span Position)

/-! ## Rows by number -/

/-- A row is found by its number. -/
theorem find?_numbered {ρ : Type} {number : ρ → RowId} {rows : Array ρ} {last : Nat}
    (h : Numbered (rows.toList.map number) last) {row : ρ} (member : row ∈ rows) :
    rows.find? (fun r => number r = number row) = some row := by
  cases found : rows.find? (fun r => number r = number row) with
  | none => simpa using Array.find?_eq_none.1 found row member
  | some other =>
      have same : number other = number row := by simpa using Array.find?_some found
      exact congrArg some (List.inj_on_of_nodup_map h.once
        (Array.mem_toList_iff.2 (Array.mem_of_find?_eq_some found))
        (Array.mem_toList_iff.2 member) same)

theorem nodup_eraseDups {α : Type} [DecidableEq α] : ∀ xs : List α, xs.eraseDups.Nodup
  | [] => List.nodup_nil
  | x :: xs => by
      rw [List.eraseDups_cons, List.nodup_cons]
      refine ⟨fun member => ?_, nodup_eraseDups _⟩
      simpa using List.mem_eraseDups.1 member
termination_by xs => xs.length
decreasing_by exact Nat.lt_succ_of_le (List.length_filter_le ..)

/-! ## Where the ranges of a stream stand -/

/-- Where a range of a document stands, as a project shows it. -/
def placeIn (project : String) (d : Graph.Document) (r : Graph.Range) : Place :=
  { project, path := d.path, uri := d.uri, external := d.external, span := r.span
    text := r.text, kind := r.kind, defaultLibrary := d.defaultLibrary }

/-- An item edge of a symbol with one of some properties lists a range at a place. -/
def Listed (project : String) (stream : List Element) (resultSet : Id) (properties : List String)
    (place : Place) : Prop :=
  ∃ i ∈ Graph.itemsFrom resultSet stream, i.property.name ∈ properties ∧ ∃ id ∈ i.inVs, ∃ r d,
    ⟨id, .range r⟩ ∈ stream ∧ ⟨r.document, .document d⟩ ∈ stream ∧ place = placeIn project d r

theorem body_unique {stream : List Element} (distinct : (stream.map (·.id)).Nodup) {id : Id}
    {body body' : Graph.Body} (member : ⟨id, body⟩ ∈ stream) (member' : ⟨id, body'⟩ ∈ stream) :
    body = body' :=
  congrArg Element.body (List.inj_on_of_nodup_map distinct member member' rfl)

/-- What is sorted first is one of what was sorted. -/
theorem head?_mergeSort {α : Type} {xs : List α} {x : α} (member : x ∈ xs) (le : α → α → Bool) :
    ∃ first ∈ xs, (xs.mergeSort le).head? = some first := by
  have same := List.mergeSort_perm xs le
  cases sorted : xs.mergeSort le with
  | nil =>
      rw [sorted] at same
      exact absurd (same.mem_iff.2 member) List.not_mem_nil
  | cons first rest =>
      rw [sorted] at same
      exact ⟨first, same.mem_iff.1 List.mem_cons_self, rfl⟩

/-- Where what covers a position is sorted already, the first of it gives the symbol. -/
theorem Database.symbolAt?_of_pairwise {db : Database} {project path : String}
    {position : Text.Position}
    (sorted : (db.covering project path position).Pairwise fun a b =>
      Database.isTighter a.span b.span = true) :
    db.symbolAt? project path position =
      (db.covering project path position).head?.bind fun r => db.symbol? r.symbol := by
  rw [Database.symbolAt?, List.mergeSort_of_pairwise sorted]

section Answers

variable {base w : GraphWriter} {stream : List Element} {resultSet : Id} {row : RowId}

/-- The row of a symbol of the stream. -/
theorem Follows.symbol? (h : Follows base stream w)
    (owner : w.symbols.get? resultSet = some row) :
    ∃ s, w.database.symbol? row = some s ∧ s.id = row ∧ SymbolOf base.project stream resultSet s := by
  obtain ⟨s, member, rfl, fits⟩ := h.symbols.stands _ _ owner
  exact ⟨s, find?_numbered h.sound.database.symbols member, rfl, fits⟩

/-- The place of a range of the stream. -/
theorem Follows.place? (h : Follows base stream w) (distinct : (stream.map (·.id)).Nodup)
    {id : Id} {range : RowId} {r : Graph.Range} {d : Graph.Document}
    (known : w.ranges.get? id = some range) (member : ⟨id, .range r⟩ ∈ stream)
    (home : ⟨r.document, .document d⟩ ∈ stream) :
    (w.database.range? range).bind w.database.place? = some (placeIn base.project d r) := by
  obtain ⟨found, here, rfl, r', document, symbol, member', home', -, shape⟩ :=
    h.ranges.stands _ _ known
  obtain rfl := Graph.Body.range.inj (body_unique distinct member member')
  obtain ⟨there, stands, rfl, d', listed, shape'⟩ := h.documents.stands _ _ home'
  obtain rfl := Graph.Body.document.inj (body_unique distinct home listed)
  have range : w.database.range? found.id = some found :=
    find?_numbered h.sound.database.ranges here
  have document : w.database.document? there.id = some there :=
    find?_numbered h.sound.database.documents stands
  rw [range, Option.bind_some, Database.place?, shape]
  show Option.map _ (w.database.document? there.id) = _
  rw [document, shape']
  rfl

/-- The places that are listed under a symbol are those of the ranges that its items list. -/
theorem Database.mem_itemPlaces_iff {db : Database} {symbol : RowId} {properties : List String}
    {place : Place} : place ∈ db.itemPlaces symbol properties ↔
      ∃ i ∈ db.items, (i.symbol = symbol ∧ i.property ∈ properties) ∧
        (db.range? i.range).bind db.place? = some place := by
  simp [Database.itemPlaces, List.mem_mergeSort, List.mem_eraseDups, List.mem_filterMap]

/-- **The places of a symbol are those that its item edges list.** -/
theorem mem_itemPlaces (h : Follows base stream w) (distinct : (stream.map (·.id)).Nodup)
    (nothing : w.pending = #[]) (owner : w.symbols.get? resultSet = some row)
    {properties : List String} {place : Place} :
    place ∈ w.database.itemPlaces row properties ↔
      Listed base.project stream resultSet properties place := by
  rw [Database.mem_itemPlaces_iff]
  constructor
  · rintro ⟨i, member, ⟨rfl, property⟩, here⟩
    rcases h.items _ _ _ ⟨i, .inl member, rfl, rfl, rfl⟩ with old | listed
    · exact absurd old (Nat.not_le_of_lt (h.symbols.above _ _ owner))
    obtain ⟨id, i', inV, listed, owner', inside, known, name⟩ := listed
    obtain rfl := h.symbols.apart _ _ _ owner owner'
    obtain ⟨-, -, -, r, document, -, range, home, -⟩ := h.ranges.stands _ _ known
    obtain ⟨-, -, -, d, file, -⟩ := h.documents.stands _ _ home
    rw [h.place? distinct known range file] at here
    exact ⟨i', Graph.mem_itemsFrom.2 ⟨rfl, id, listed⟩, name ▸ property, inV, inside, r, d, range,
      file, (Option.some.inj here).symm⟩
  · rintro ⟨i, member, property, inV, inside, r, d, range, file, rfl⟩
    obtain ⟨rfl, id, listed⟩ := Graph.mem_itemsFrom.1 member
    obtain ⟨symbol, owner', has⟩ := h.listed id i listed
    obtain rfl := Option.some.inj (owner.symm.trans owner')
    obtain ⟨range', known, i', stands | waits, symbol, rfl, name⟩ := has inV inside
    · exact ⟨i', stands, ⟨symbol, name ▸ property⟩, h.place? distinct known range file⟩
    · simp [nothing] at waits

theorem nodup_itemPlaces (db : Database) (symbol : RowId) (properties : List String) :
    (db.itemPlaces symbol properties).Nodup :=
  (List.mergeSort_perm _ _).nodup_iff.2 (nodup_eraseDups _)

/-! ## The symbol at a position -/

/-- A range is one of those that cover a position. -/
theorem mem_covering {db : Database} {project path : String} {position : Position} {r : RangeRow} :
    r ∈ db.covering project path position ↔ r ∈ db.ranges ∧ Database.covers r.span position = true ∧
      ∃ d ∈ db.documents, d.project = project ∧ d.path = path ∧ d.id = r.document := by
  simp only [Database.covering, List.mem_filter, Array.mem_toList_iff, Bool.and_eq_true,
    Array.contains_iff_mem, Array.mem_map, Array.mem_filter, decide_eq_true_eq]
  constructor
  · rintro ⟨member, ⟨d, ⟨file, project, path⟩, home⟩, covers⟩
    exact ⟨member, covers, d, file, project, path, home⟩
  · rintro ⟨member, covers, d, file, project, path, home⟩
    exact ⟨member, ⟨d, ⟨file, project, path⟩, home⟩, covers⟩

variable {path : String} {document : Id} {position : Position}

/-- What covers a position in the one document with a path was written for a range of the
stream that does. -/
theorem Follows.range_of_covering (h : Follows base stream w)
    (only : ∀ id d, ⟨id, .document d⟩ ∈ stream → d.path = path → id = document) {found : RangeRow}
    (member : found ∈ w.database.covering base.project path position) :
    ∃ id r, ⟨id, .range r⟩ ∈ stream ∧ r.document = document ∧
      Database.covers r.span position = true ∧ w.symbols.get? r.resultSet = some found.symbol := by
  obtain ⟨stands, covers, file, here, project, named, home⟩ := mem_covering.1 member
  rcases h.documents.origin file here with old | ⟨id, mapped, d, listed, shape⟩
  · exact absurd project old
  obtain rfl : id = document := only id d listed (by rw [← named, shape]; rfl)
  rcases h.ranges.origin found stands with
    old | ⟨id', known, r, there, owner, range, home', own, shape'⟩
  · exact absurd (home ▸ old) (Nat.not_le_of_lt (h.documents.above _ _ mapped))
  rw [shape'] at covers home
  refine ⟨id', r, range, h.documents.apart _ _ _ home' ?_, covers, ?_⟩
  · rw [show there = file.id from home.symm]
    exact mapped
  · rw [own, shape']
    rfl

/-- A range of the stream that covers a position was written. -/
theorem Follows.covering_of_range (h : Follows base stream w)
    (distinct : (stream.map (·.id)).Nodup) {id : Id} {r : Graph.Range} {d : Graph.Document}
    (member : ⟨id, .range r⟩ ∈ stream) (home : ⟨r.document, .document d⟩ ∈ stream)
    (named : d.path = path) (covers : Database.covers r.span position = true) :
    ∃ found, found ∈ w.database.covering base.project path position := by
  obtain ⟨n, known⟩ := h.ranges.mapped id ⟨r, member⟩
  obtain ⟨found, stands, rfl, r', there, owner, member', home', -, shape⟩ := h.ranges.stands _ _ known
  obtain rfl := Graph.Body.range.inj (body_unique distinct member member')
  obtain ⟨file, here, rfl, d', listed, shape'⟩ := h.documents.stands _ _ home'
  obtain rfl := Graph.Body.document.inj (body_unique distinct home listed)
  refine ⟨found, mem_covering.2 ⟨stands, ?_, file, here, ?_, ?_, ?_⟩⟩
  · rw [shape]
    exact covers
  · rw [shape']
    rfl
  · rw [shape']
    exact named
  · rw [shape]
    rfl

/-- **The symbol at a position** is the one of the ranges that cover it, if they are of one
symbol. -/
theorem Follows.symbolAt? (h : Follows base stream w) (distinct : (stream.map (·.id)).Nodup)
    {d : Graph.Document} (file : ⟨document, .document d⟩ ∈ stream) (named : d.path = path)
    (only : ∀ id d', ⟨id, .document d'⟩ ∈ stream → d'.path = path → id = document)
    (covered : ∃ id r, ⟨id, .range r⟩ ∈ stream ∧ r.document = document ∧
      Database.covers r.span position = true)
    (alone : ∀ id r, ⟨id, .range r⟩ ∈ stream → r.document = document →
      Database.covers r.span position = true → r.resultSet = resultSet) {s : SymbolRow}
    (owner : w.symbols.get? resultSet = some s.id) (stands : w.database.symbol? s.id = some s) :
    w.database.symbolAt? base.project path position = some s := by
  obtain ⟨id, r, range, rfl, covers⟩ := covered
  obtain ⟨some_, here⟩ := h.covering_of_range distinct range file named covers
  obtain ⟨found, member, first⟩ := head?_mergeSort here fun a b => Database.isTighter a.span b.span
  obtain ⟨id, r, range, home, covers, owner'⟩ := h.range_of_covering only member
  rw [alone id r range home covers] at owner'
  obtain same : s.id = found.symbol := Option.some.inj (owner.symm.trans owner')
  rw [Database.symbolAt?, first, Option.bind_some, ← same, stands]

/-! ## Definitions and references -/

/-- The definitions of a symbol that has some are its own. -/
theorem definitions_of_own {db : Database} {s : SymbolRow}
    (own : db.itemPlaces s.id ["definitions"] ≠ []) :
    db.definitions s = db.itemPlaces s.id ["definitions"] := by
  show Database.definitionsWithin db (7 + 1) s = _
  rw [Database.definitionsWithin]
  split
  · rw [if_neg (by simpa using own)]
  · rfl

end Answers

end SymbolAtlas.Store
