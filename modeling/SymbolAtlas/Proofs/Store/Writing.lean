/-
# SymbolAtlas.Proofs.Store.Writing -- what an element does to a writer

What an element comes to is an equation for each sort of element (`effect_write_document` and
those after it).  A writer that takes an element does one of a few things (`Taking`): it writes a
row for a document, a symbol or a range and maps the ID of the element to it, it collects items,
or it does something that neither of them shows.  A writer that refuses an element has at most
collected some items of it (`Written`).

`Database.Reached` are the databases that a store can come to, whatever was indexed into it,
refused or removed from it; all of them are sound (`Database.Reached.sound`).
-/
import Mathlib.Data.List.Forall2
import SymbolAtlas.Proofs.Store.Rows

set_option autoImplicit false

namespace SymbolAtlas.Store

open SymbolAtlas.Graph (Id Element)

/-! ## Lists side by side -/

/-- What stands in the second of two lists has its partner in the first. -/
theorem exists_of_forall₂ {α β : Type} {R : α → β → Prop} {xs : List α} {ys : List β}
    (h : List.Forall₂ R xs ys) {y : β} (member : y ∈ ys) : ∃ x ∈ xs, R x y := by
  induction h with
  | nil => cases member
  | cons here _ ih =>
      rcases List.mem_cons.1 member with rfl | later
      · exact ⟨_, List.mem_cons_self, here⟩
      · obtain ⟨x, inside, related⟩ := ih later
        exact ⟨x, List.mem_cons_of_mem _ inside, related⟩

/-! ## Rows -/

/-- The row of a document. -/
def documentRow (project : String) (id : RowId) (d : Graph.Document) : DocumentRow :=
  { id, project, path := d.path, uri := d.uri, external := d.external
    monikerPath := d.monikerPath, defaultLibrary := d.defaultLibrary }

/-- The row of a symbol, without hover and link. -/
def symbolRow (project : String) (id : RowId) (s : Graph.ResultSet) : SymbolRow :=
  { id, project, descriptor := s.symbol, name := s.name, variant := s.variant
    isLocal := s.isLocal }

/-- The row of an occurrence. -/
def rangeRow (project : String) (id document symbol : RowId) (r : Graph.Range) : RangeRow :=
  { id, project, document, symbol, role := r.role.name, kind := r.kind, text := r.text
    span := r.span }

namespace GraphWriter

/-- The writer after a document. -/
def withDocument (w : GraphWriter) (id : Id) (d : Graph.Document) : GraphWriter :=
  { w with
    database := { w.database with
      documents := w.database.documents.push
        (documentRow w.project (w.database.lastDocument + 1) d)
      lastDocument := w.database.lastDocument + 1 }
    documents := w.documents.insert id (w.database.lastDocument + 1) }

/-- The writer after a symbol. -/
def withSymbol (w : GraphWriter) (id : Id) (s : Graph.ResultSet) : GraphWriter :=
  { w with
    database := { w.database with
      symbols := w.database.symbols.push (symbolRow w.project (w.database.lastSymbol + 1) s)
      lastSymbol := w.database.lastSymbol + 1 }
    symbols := w.symbols.insert id (w.database.lastSymbol + 1) }

/-- The writer after an occurrence. -/
def withRange (w : GraphWriter) (id : Id) (document symbol : RowId) (r : Graph.Range) :
    GraphWriter :=
  { w with
    database := { w.database with
      ranges := w.database.ranges.push
        (rangeRow w.project (w.database.lastRange + 1) document symbol r)
      lastRange := w.database.lastRange + 1 }
    ranges := w.ranges.insert id (w.database.lastRange + 1) }

/-- The writer after a symbol got a moniker. -/
def withMoniker (w : GraphWriter) (symbol : RowId) (moniker : Moniker) : GraphWriter :=
  { w with database := { w.database with
      monikers := w.database.monikers.push
        { id := w.database.lastMoniker + 1, project := w.project, symbol, moniker }
      lastMoniker := w.database.lastMoniker + 1 } }

/-- The writer after one item was collected. -/
def withItem (symbol : RowId) (property : String) (w : GraphWriter) (range : RowId) :
    GraphWriter :=
  let w := { w with pending := w.pending.push { project := w.project, symbol, range, property } }
  if batchSize ≤ w.pending.size then w.flush else w

theorem withItem_eq (symbol : RowId) (property : String) (w : GraphWriter) (range : RowId) :
    ∃ items pending, withItem symbol property w range =
      { w with database := { w.database with items }, pending } := by
  simp only [withItem]
  split
  · exact ⟨_, _, flush_eq _⟩
  · exact ⟨w.database.items, _, rfl⟩

theorem ranges_withItem (symbol : RowId) (property : String) (w : GraphWriter) (range : RowId) :
    (withItem symbol property w range).ranges = w.ranges := by
  obtain ⟨_, _, same⟩ := withItem_eq symbol property w range
  rw [same]

theorem withItems_eq (symbol : RowId) (property : String) (w : GraphWriter) (rows : List RowId) :
    ∃ items pending, rows.foldl (withItem symbol property) w =
      { w with database := { w.database with items }, pending } := by
  induction rows generalizing w with
  | nil => exact ⟨w.database.items, w.pending, rfl⟩
  | cons row rows ih =>
      obtain ⟨_, _, here⟩ := withItem_eq symbol property w row
      obtain ⟨items, pending, later⟩ := ih (withItem symbol property w row)
      exact ⟨items, pending, by rw [List.foldl_cons, later, here]⟩

/-- Elements that give no row a number and list no range. -/
def Plain : Graph.Body → Prop
  | .document _ | .resultSet _ | .range _ | .item _ => False
  | _ => True

/-- What an element does to a writer that takes it. -/
inductive Taking (w : GraphWriter) : Element → GraphWriter → Prop where
  | document {id : Id} {d : Graph.Document} : Taking w ⟨id, .document d⟩ (w.withDocument id d)
  | symbol {id : Id} {s : Graph.ResultSet} : Taking w ⟨id, .resultSet s⟩ (w.withSymbol id s)
  | range {id : Id} {r : Graph.Range} {document symbol : RowId}
      (home : w.documents.get? r.document = some document)
      (owner : w.symbols.get? r.resultSet = some symbol) :
      Taking w ⟨id, .range r⟩ (w.withRange id document symbol r)
  | item {id : Id} {i : Graph.Item} {symbol : RowId} {rows : List RowId}
      (owner : w.symbols.get? i.outV = some symbol)
      (listed : List.Forall₂ (fun id row => w.ranges.get? id = some row) i.inVs rows) :
      Taking w ⟨id, .item i⟩ (rows.foldl (withItem symbol i.property.name) w)
  /-- A symbol gets its hover or what it stands for. -/
  | touched {e : Element} {set_ : Id} {symbol : RowId} {f : SymbolRow → SymbolRow}
      (plain : Plain e.body) (owner : w.symbols.get? set_ = some symbol)
      (same : ∀ s, ∃ hover aliasOf, f s = { s with hover, aliasOf })
      (linked : ∀ s, (f s).aliasOf = s.aliasOf ∨
        ∃ id target, w.symbols.get? id = some target ∧ (f s).aliasOf = some target) :
      Taking w e { w with database := w.database.modifySymbol symbol f }
  /-- A symbol gets a moniker. -/
  | labelled {e : Element} {set_ : Id} {symbol : RowId} {m : Moniker} (plain : Plain e.body)
      (owner : w.symbols.get? set_ = some symbol) : Taking w e (w.withMoniker symbol m)
  /-- Monikers and hovers are kept beside the rows. -/
  | aside {e : Element} {monikers : Table Id Moniker} {hovers : Table Id String}
      (plain : Plain e.body) : Taking w e { w with monikers, hovers }
  | flushed {e : Element} (plain : Plain e.body) : Taking w e w.flush

theorem Taking.idle {w : GraphWriter} {e : Element} (plain : Plain e.body) : Taking w e w :=
  .aside plain

/-- What is written leaves the records of the projects. -/
theorem Taking.keeps {w w' : GraphWriter} {e : Element} (taking : Taking w e w') :
    w'.project = w.project ∧ w'.database.projects = w.database.projects := by
  cases taking with
  | document | symbol | range | touched | labelled | aside => exact ⟨rfl, rfl⟩
  | @item _ i symbol rows =>
      obtain ⟨_, _, shape⟩ := withItems_eq symbol i.property.name w rows
      rw [shape]
      exact ⟨rfl, rfl⟩
  | flushed =>
      rw [flush_eq]
      exact ⟨rfl, rfl⟩

/-! ## Running a writer -/

section Effect

variable {α β : Type}

/-- What a step of a writer answers or refuses, and the writer that it leaves. -/
def effect (m : Writing α) (w : GraphWriter) : Except Refusal α × GraphWriter := m.run w

@[simp] theorem effect_pure (a : α) (w : GraphWriter) :
    effect (pure a : Writing α) w = (.ok a, w) := rfl

@[simp] theorem effect_throw (refusal : Refusal) (w : GraphWriter) :
    effect (throw refusal : Writing α) w = (.error refusal, w) := rfl

@[simp] theorem effect_set (w' w : GraphWriter) :
    effect (set w' : Writing PUnit) w = (.ok PUnit.unit, w') := rfl

@[simp] theorem effect_modify (f : GraphWriter → GraphWriter) (w : GraphWriter) :
    effect (modify f : Writing PUnit) w = (.ok PUnit.unit, f w) := rfl

/-- The second step begins where the first ends; a refusal ends both. -/
theorem effect_bind (m : Writing α) (f : α → Writing β) (w : GraphWriter) :
    effect (m >>= f) w = match effect m w with
      | (.ok a, w') => effect (f a) w'
      | (.error refusal, w') => (.error refusal, w') := by
  show (ExceptT.bindCont f (m.run w).1) (m.run w).2 = _
  unfold effect
  rcases m.run w with ⟨_ | _, _⟩ <;> rfl

@[simp] theorem effect_get_bind (f : GraphWriter → Writing β) (w : GraphWriter) :
    effect (get >>= f) w = effect (f w) w := rfl

variable {w : GraphWriter} {id : Id}

theorem effect_symbolOf : effect (symbolOf id) w = match w.symbols.get? id with
    | some row => (.ok row, w)
    | none => (.error (.unknownResultSet id), w) := by
  rw [symbolOf, effect_get_bind]
  cases w.symbols.get? id <;> rfl

/-- Items of known ranges are collected, up to the first range that is unknown. -/
theorem effect_addItems (symbol : RowId) (property : String) (ids : List Id) (w : GraphWriter) :
    ∃ known rest rows, ids = known ++ rest ∧
      List.Forall₂ (fun id row => w.ranges.get? id = some row) known rows ∧
      (effect (addItems symbol property ids) w).2 = rows.foldl (withItem symbol property) w ∧
      ((effect (addItems symbol property ids) w).1 = .ok () → rest = []) := by
  induction ids generalizing w with
  | nil => exact ⟨[], [], [], rfl, .nil, rfl, fun _ => rfl⟩
  | cons id ids ih =>
      rw [addItems, effect_get_bind]
      cases known : w.ranges.get? id with
      | none => exact ⟨[], id :: ids, [], rfl, .nil, rfl, fun taken => nomatch taken⟩
      | some row =>
          obtain ⟨front, rest, rows, split, listed, after, all⟩ := ih (withItem symbol property w row)
          rw [ranges_withItem] at listed
          exact ⟨id :: front, rest, row :: rows, congrArg _ split, .cons known listed, after, all⟩

/-! ### What each sort of element comes to -/

/-- A document is refused if the project has one of its address. -/
theorem effect_write_document (d : Graph.Document) (w : GraphWriter) :
    effect (write ⟨id, .document d⟩) w =
      if w.database.documents.any fun row => row.project = w.project ∧ row.uri = d.uri
      then (.error .duplicateDocument, w) else (.ok (), w.withDocument id d) := by
  show effect (addDocument id d) w = _
  rw [addDocument, effect_get_bind]
  simp only
  split <;> rfl

/-- An occurrence stands in a document and is of a symbol. -/
theorem effect_write_range (r : Graph.Range) (w : GraphWriter) :
    effect (write ⟨id, .range r⟩) w =
      match w.documents.get? r.document, w.symbols.get? r.resultSet with
      | none, _ => (.error (.unknownDocument r.document), w)
      | some _, none => (.error (.unknownResultSet r.resultSet), w)
      | some document, some symbol => (.ok (), w.withRange id document symbol r) := by
  show effect (addRange id r) w = _
  rw [addRange, effect_get_bind]
  cases w.documents.get? r.document with
  | none => rfl
  | some document =>
      simp only [effect_bind, effect_symbolOf]
      cases w.symbols.get? r.resultSet <;> rfl

theorem effect_write_monikerEdge (outV inV : Id) (w : GraphWriter) :
    effect (write ⟨id, .monikerEdge outV inV⟩) w =
      match w.monikers.get? inV, w.symbols.get? outV with
      | none, _ => (.error (.unknownMoniker inV), w)
      | some _, none => (.error (.unknownResultSet outV), w)
      | some moniker, some symbol => (.ok (), w.withMoniker symbol moniker) := by
  show effect (attachMoniker outV inV) w = _
  rw [attachMoniker, effect_get_bind]
  cases w.monikers.get? inV with
  | none => rfl
  | some moniker =>
      simp only [effect_bind, effect_symbolOf]
      cases w.symbols.get? outV <;> rfl

/-- A symbol gets the hover that was kept for it, or none. -/
theorem effect_write_hoverEdge (outV inV : Id) (w : GraphWriter) :
    effect (write ⟨id, .hoverEdge outV inV⟩) w =
      match w.symbols.get? outV with
      | none => (.error (.unknownResultSet outV), w)
      | some symbol => (.ok (), { w with database := w.database.modifySymbol symbol fun s =>
          { s with hover := (w.hovers.get? inV).getD "" } }) := by
  show effect (attachHover outV inV) w = _
  rw [attachHover, effect_bind, effect_symbolOf]
  cases w.symbols.get? outV <;> rfl

theorem effect_write_next (outV inV : Id) (w : GraphWriter) :
    effect (write ⟨id, .next outV inV⟩) w =
      match w.symbols.get? outV, w.symbols.get? inV with
      | some origin, some target => (.ok (), { w with
          database := w.database.modifySymbol origin fun s => { s with aliasOf := some target } })
      | _, _ => (.error (.unknownLink outV inV), w) := by
  show effect (linkAlias outV inV) w = _
  rw [linkAlias, effect_get_bind]
  cases w.symbols.get? outV <;> cases w.symbols.get? inV <;> rfl

theorem effect_write_item (i : Graph.Item) (w : GraphWriter) :
    effect (write ⟨id, .item i⟩) w =
      match w.symbols.get? i.outV with
      | none => (.error (.unknownResultSet i.outV), w)
      | some symbol => effect (addItems symbol i.property.name i.inVs) w := by
  show effect (symbolOf i.outV >>= fun symbol => addItems symbol i.property.name i.inVs) w = _
  rw [effect_bind, effect_symbolOf]
  cases w.symbols.get? i.outV <;> rfl

/-- What waits is written when what joins the project to its documents comes. -/
theorem effect_write_contains (outV : Id) (inVs : List Id) (w : GraphWriter) :
    effect (write ⟨id, .contains outV inVs⟩) w =
      (.ok (), if w.documents.contains outV then w else w.flush) := by
  show effect (get >>= fun w => unless w.documents.contains outV do set w.flush) w = _
  rw [effect_get_bind]
  split <;> rfl

/-- What writing an element comes to. -/
inductive Written (w : GraphWriter) (e : Element) : Except Refusal Unit × GraphWriter → Prop where
  | taken {w' : GraphWriter} (taking : Taking w e w') : Written w e (.ok (), w')
  | refused (refusal : Refusal) : Written w e (.error refusal, w)
  /-- An item edge is refused at the first range that is unknown. -/
  | broken {refusal : Refusal} {set_ : Id} {symbol : RowId} {property : String} {known : List Id}
      {rows : List RowId} (owner : w.symbols.get? set_ = some symbol)
      (listed : List.Forall₂ (fun id row => w.ranges.get? id = some row) known rows) :
      Written w e (.error refusal, rows.foldl (withItem symbol property) w)

/-- An item edge is taken with all its ranges, or refused at the first that is unknown. -/
theorem written_addItems {i : Graph.Item} {symbol : RowId}
    (owner : w.symbols.get? i.outV = some symbol) :
    Written w ⟨id, .item i⟩ (effect (addItems symbol i.property.name i.inVs) w) := by
  obtain ⟨known, rest, rows, split, listed, after, all⟩ :=
    effect_addItems symbol i.property.name i.inVs w
  rcases result : effect (addItems symbol i.property.name i.inVs) w with ⟨_ | ⟨⟨⟩⟩, w'⟩
  · rw [result] at after
    obtain rfl : w' = _ := after
    exact .broken owner listed
  · rw [result] at after all
    obtain rfl : w' = _ := after
    obtain rfl := all rfl
    rw [List.append_nil] at split
    exact .taken (.item owner (split ▸ listed))

/-- **A writer takes an element in one of a few ways, or has collected items of it at most.** -/
theorem written_write (e : Element) (w : GraphWriter) : Written w e (effect (write e) w) := by
  obtain ⟨id, body⟩ := e
  cases body with
  | document d =>
      rw [effect_write_document]
      split
      · exact .refused _
      · exact .taken .document
  | resultSet s => exact .taken .symbol
  | range r =>
      rw [effect_write_range]
      cases home : w.documents.get? r.document with
      | none => exact .refused _
      | some document =>
          cases owner : w.symbols.get? r.resultSet with
          | none => exact .refused _
          | some symbol => exact .taken (.range home owner)
  | moniker m => exact .taken (.aside trivial)
  | monikerEdge outV inV =>
      rw [effect_write_monikerEdge]
      cases w.monikers.get? inV with
      | none => exact .refused _
      | some moniker =>
          cases owner : w.symbols.get? outV with
          | none => exact .refused _
          | some symbol => exact .taken (.labelled trivial owner)
  | hover contents => exact .taken (.aside trivial)
  | hoverEdge outV inV =>
      rw [effect_write_hoverEdge]
      cases owner : w.symbols.get? outV with
      | none => exact .refused _
      | some symbol =>
          exact .taken (.touched trivial owner (fun s => ⟨_, s.aliasOf, rfl⟩) fun _ => .inl rfl)
  | next outV inV =>
      rw [effect_write_next]
      cases owner : w.symbols.get? outV with
      | none => exact .refused _
      | some origin =>
          cases found : w.symbols.get? inV with
          | none => exact .refused _
          | some target =>
              exact .taken (.touched trivial owner (fun s => ⟨s.hover, _, rfl⟩) fun _ =>
                .inr ⟨inV, target, found, rfl⟩)
  | item i =>
      rw [effect_write_item]
      cases owner : w.symbols.get? i.outV with
      | none => exact .refused _
      | some symbol => exact written_addItems owner
  | contains outV inVs =>
      rw [effect_write_contains]
      split
      · exact .taken (.idle trivial)
      · exact .taken (.flushed trivial)
  | metadata | project | foreign =>
      exact .taken (.idle trivial)

end Effect

/-! ## Rows stay sound -/

section Sound

variable {w w' : GraphWriter}

theorem Sound.withDocument (h : w.Sound) (id : Id) (d : Graph.Document) :
    (w.withDocument id d).Sound where
  database := by
    refine ⟨?_, h.database.symbols, h.database.ranges, fun r member => ?_, h.database.items⟩
    · simp only [GraphWriter.withDocument, Array.toList_push, List.map_append]
      exact h.database.documents.snoc
    · obtain ⟨document, symbol⟩ := h.database.homes r member
      exact ⟨Nat.le_succ_of_le document, symbol⟩
  documents := (h.documents.imp fun _ _ _ given => Nat.le_succ_of_le given).insert (Nat.le_refl _)
  symbols := h.symbols
  ranges := h.ranges
  pending := h.pending

theorem Sound.withSymbol (h : w.Sound) (id : Id) (s : Graph.ResultSet) :
    (w.withSymbol id s).Sound where
  database := by
    refine ⟨h.database.documents, ?_, h.database.ranges, fun r member => ?_, fun i member => ?_⟩
    · simp only [GraphWriter.withSymbol, Array.toList_push, List.map_append]
      exact h.database.symbols.snoc
    · obtain ⟨document, symbol⟩ := h.database.homes r member
      exact ⟨document, Nat.le_succ_of_le symbol⟩
    · obtain ⟨symbol, range⟩ := h.database.items i member
      exact ⟨Nat.le_succ_of_le symbol, range⟩
  documents := h.documents
  symbols := (h.symbols.imp fun _ _ _ given => Nat.le_succ_of_le given).insert (Nat.le_refl _)
  ranges := h.ranges
  pending i member := by
    obtain ⟨symbol, range⟩ := h.pending i member
    exact ⟨Nat.le_succ_of_le symbol, range⟩

theorem Sound.withRange (h : w.Sound) (id : Id) {document symbol : RowId} (r : Graph.Range)
    (home : document ≤ w.database.lastDocument) (owner : symbol ≤ w.database.lastSymbol) :
    (w.withRange id document symbol r).Sound where
  database := by
    refine ⟨h.database.documents, h.database.symbols, ?_, fun row member => ?_, fun i member => ?_⟩
    · simp only [GraphWriter.withRange, Array.toList_push, List.map_append]
      exact h.database.ranges.snoc
    · rcases Array.mem_push.1 member with old | rfl
      · exact h.database.homes row old
      · exact ⟨home, owner⟩
    · obtain ⟨symbol, range⟩ := h.database.items i member
      exact ⟨symbol, Nat.le_succ_of_le range⟩
  documents := h.documents
  symbols := h.symbols
  ranges := (h.ranges.imp fun _ _ _ given => Nat.le_succ_of_le given).insert (Nat.le_refl _)
  pending i member := by
    obtain ⟨symbol, range⟩ := h.pending i member
    exact ⟨symbol, Nat.le_succ_of_le range⟩

theorem Sound.withItem (h : w.Sound) {symbol range : RowId} (property : String)
    (owner : symbol ≤ w.database.lastSymbol) (given : range ≤ w.database.lastRange) :
    (withItem symbol property w range).Sound := by
  have collected : GraphWriter.Sound
      { w with pending := w.pending.push ⟨w.project, symbol, range, property⟩ } := by
    refine ⟨h.database, h.documents, h.symbols, h.ranges, fun i member => ?_⟩
    rcases Array.mem_push.1 member with old | rfl
    · exact h.pending i old
    · exact ⟨owner, given⟩
  simp only [GraphWriter.withItem]
  split
  · exact collected.flush
  · exact collected

theorem Sound.withItems {symbol : RowId} {property : String} {rows : List RowId} (h : w.Sound)
    (owner : symbol ≤ w.database.lastSymbol) (given : ∀ row ∈ rows, row ≤ w.database.lastRange) :
    (rows.foldl (GraphWriter.withItem symbol property) w).Sound := by
  induction rows generalizing w with
  | nil => exact h
  | cons row rows ih =>
      have here := given row List.mem_cons_self
      obtain ⟨_, _, same⟩ := withItem_eq symbol property w row
      refine ih (h.withItem property owner here) (by rw [same]; exact owner) fun other member => ?_
      rw [same]
      exact given other (List.mem_cons_of_mem _ member)

theorem Sound.listed (h : w.Sound) {ids : List Id} {rows : List RowId}
    (listed : List.Forall₂ (fun id row => w.ranges.get? id = some row) ids rows) :
    ∀ row ∈ rows, row ≤ w.database.lastRange := by
  induction listed with
  | nil => simp
  | cons known _ ih => exact List.forall_mem_cons.2 ⟨h.ranges _ _ known, ih⟩

/-- What is not shown by any row changes no number. -/
theorem Sound.taking {e : Element} (h : w.Sound) (taking : Taking w e w') : w'.Sound := by
  cases taking with
  | document => exact h.withDocument _ _
  | symbol => exact h.withSymbol _ _
  | range home owner => exact h.withRange _ _ (h.documents _ _ home) (h.symbols _ _ owner)
  | item owner listed => exact h.withItems (h.symbols _ _ owner) (h.listed listed)
  | touched plain owner same linked =>
      refine ⟨h.database.modifySymbol _ fun s => ?_, h.documents, h.symbols, h.ranges, h.pending⟩
      obtain ⟨_, _, kept⟩ := same s
      rw [kept]
  | labelled | aside =>
      exact ⟨⟨h.database.documents, h.database.symbols, h.database.ranges, h.database.homes,
        h.database.items⟩, h.documents, h.symbols, h.ranges, h.pending⟩
  | flushed plain => exact h.flush

/-- **Rows stay sound**, whether an element is taken or refused. -/
theorem Sound.emit (h : w.Sound) (e : Element) : (w.emit e).2.Sound := by
  have outcome : Written w e ((write e).run w) := written_write e w
  unfold GraphWriter.emit
  generalize (write e).run w = result at outcome
  rcases outcome with taking | refusal | ⟨owner, listed⟩
  · have sound := h.taking taking
    exact ⟨sound.database, sound.documents, sound.symbols, sound.ranges, sound.pending⟩
  · exact h
  · exact h.withItems (h.symbols _ _ owner) (h.listed listed)

end Sound

end GraphWriter

/-! ## The databases that there are -/

/-- A database that a store can come to.  A writer may have been handed anything, may have
refused some of it, and may have been left without its last items being written. -/
inductive Database.Reached : Database → Prop where
  | empty : Reached {}
  | upsert {db : Database} (h : Reached db) (p : Project) : Reached (db.upsert p)
  | clearGraph {db : Database} (h : Reached db) (project : String) :
      Reached (db.clearGraph project)
  | removeProject {db : Database} (h : Reached db) (project : String) :
      Reached (db.removeProject project)
  | replaceHashes {db db' : Database} (h : Reached db) {project : String}
      {hashes : List (String × String)} (replaced : db.replaceHashes project hashes = .ok db') :
      Reached db'
  | forgetLibraries {db : Database} (h : Reached db) : Reached db.forgetLibraries
  | written {db : Database} (h : Reached db) (p : Project) (elements : List Element) :
      Reached (elements.foldl (fun w e => (w.emit e).2) (GraphWriter.start db p)).database
  | indexed {db : Database} (h : Reached db) (p : Project) (elements : List Element) :
      Reached (elements.foldl (fun w e => (w.emit e).2) (GraphWriter.start db p)).flush.database

theorem GraphWriter.project_emit (w : GraphWriter) (e : Element) :
    (w.emit e).2.project = w.project := by
  have outcome : Written w e ((write e).run w) := written_write e w
  unfold emit
  generalize (write e).run w = result at outcome
  cases outcome with
  | taken taking => exact taking.keeps.1
  | refused => rfl
  | @broken _ _ symbol property _ rows owner listed =>
      obtain ⟨_, _, shape⟩ := withItems_eq symbol property w rows
      show (rows.foldl (withItem symbol property) w).project = w.project
      rw [shape]

theorem GraphWriter.Sound.emits {w : GraphWriter} (h : w.Sound) (elements : List Element) :
    (elements.foldl (fun w e => (w.emit e).2) w).Sound := by
  induction elements generalizing w with
  | nil => exact h
  | cons e elements ih => exact ih (h.emit e)

/-- **Every database that a store can come to is sound.** -/
theorem Database.Reached.sound {db : Database} (h : db.Reached) : db.Sound := by
  induction h with
  | empty => exact .empty
  | upsert _ p ih => exact ih.upsert p
  | clearGraph _ project ih => exact ih.clearGraph project
  | removeProject _ project ih => exact ih.removeProject project
  | replaceHashes _ replaced ih => exact ih.replaceHashes replaced
  | forgetLibraries _ ih => exact ih.forgetLibraries
  | written _ p elements ih => exact ((GraphWriter.sound_start ih p).emits elements).database
  | indexed _ p elements ih =>
      exact ((GraphWriter.sound_start ih p).emits elements).flush.database

end SymbolAtlas.Store
