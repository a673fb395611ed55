/-
# SymbolAtlas.Proofs.Store.Innermost -- which symbol stands at a position

A position is looked up among the ranges of a document, and the ranges that cover it are ranked
by how many lines they take, then by how many characters (`Database.isTighter`).  The count of
characters says nothing where a range takes several lines, and may be negative there.

It ranks right all the same: of two ranges that cover one position, one that lies strictly inside
the other takes fewer lines, or both begin and stop on the same lines
(`not_isTighter_of_strictlyInside`).  So the symbol that is found is that of an innermost range,
and none is found exactly where no range is (`symbolAt_innermost`).
-/
import SymbolAtlas.Proofs.Store.Isolation

set_option autoImplicit false

namespace SymbolAtlas

open Text (Span Position)

/-- A span lies strictly inside another: what stands in it stands in the other too, and something
else does. -/
structure Text.Span.StrictlyInside (a b : Span) : Prop where
  within : ∀ p, a.contains p = true → b.contains p = true
  beyond : ∃ p, b.contains p = true ∧ a.contains p = false

namespace Store

namespace Database

variable {a b c : Span} {p : Position}

/-! ## Covering a position -/

theorem isEarlier_iff {p q : Position} : isEarlier p q = true ↔
    p.line < q.line ∨ (p.line = q.line ∧ p.character < q.character) := by
  simp [isEarlier]

/-- **A range covers the positions that lie in it.** -/
theorem covers_eq_contains (s : Span) (p : Position) : covers s p = s.contains p := by
  rw [Bool.eq_iff_iff]
  simp only [covers, Span.contains, isEarlier, Bool.and_eq_true, Bool.or_eq_true, Bool.not_eq_true',
    Bool.and_eq_false_iff, Bool.or_eq_false_iff, decide_eq_true_eq, decide_eq_false_iff_not]
  omega

theorem contains_iff : a.contains p = true ↔
    isEarlier p a.start = false ∧ isEarlier p a.stop = true := by
  rw [← covers_eq_contains, covers, Bool.and_eq_true, Bool.not_eq_true']

/-! ## Ranking ranges -/

theorem isTighter_trans (a b c : Span) (first : isTighter a b = true)
    (second : isTighter b c = true) : isTighter a c = true := by
  simp only [isTighter, Bool.or_eq_true, Bool.and_eq_true, decide_eq_true_eq] at *
  omega

theorem isTighter_total (a b : Span) : (isTighter a b || isTighter b a) = true := by
  simp only [isTighter, Bool.or_eq_true, Bool.and_eq_true, decide_eq_true_eq]
  omega

/-- A span inside another begins no earlier than the other, and stops no later. -/
theorem ends_of_within (here : a.contains p = true) (there : b.contains p = true)
    (within : ∀ q, a.contains q = true → b.contains q = true) :
    isEarlier a.start b.start = false ∧ isEarlier b.stop a.stop = false := by
  simp only [contains_iff, Bool.eq_false_iff, ne_eq, isEarlier_iff] at *
  constructor
  · exact (within a.start (by omega)).1
  · intro earlier
    have := within b.stop (by omega)
    omega

/-- **A range that lies strictly inside another is ranked before it**, whatever lines they take. -/
theorem not_isTighter_of_strictlyInside (here : a.contains p = true) (there : b.contains p = true)
    (inside : a.StrictlyInside b) : isTighter b a = false := by
  obtain ⟨begins, stops⟩ := ends_of_within here there inside.within
  have other : ¬ (a.start = b.start ∧ a.stop = b.stop) := by
    rintro ⟨start, stop⟩
    obtain ⟨q, inB, notInA⟩ := inside.beyond
    rw [contains_iff, ← start, ← stop, ← contains_iff, notInA] at inB
    cases inB
  obtain ⟨⟨_, _⟩, ⟨_, _⟩⟩ := a
  obtain ⟨⟨_, _⟩, ⟨_, _⟩⟩ := b
  simp only [Position.mk.injEq] at other
  simp only [isTighter, Bool.eq_false_iff, ne_eq, isEarlier_iff, Bool.or_eq_true, Bool.and_eq_true,
    decide_eq_true_eq] at *
  omega

/-! ## The first range -/

/-- A range of a document that a project shows under a path. -/
def RangeIn (db : Database) (project path : String) (r : RangeRow) : Prop :=
  r ∈ db.ranges ∧ ∃ d ∈ db.documents, d.project = project ∧ d.path = path ∧ d.id = r.document

variable {db : Database} {project path : String} {r : RangeRow}

theorem mem_covering_iff : r ∈ db.covering project path p ↔
    db.RangeIn project path r ∧ r.span.contains p = true := by
  rw [mem_covering, covers_eq_contains, RangeIn, and_assoc, and_comm (a := r.span.contains p = true)]

/-- What is looked up at a position is the symbol of a range that is ranked before all others. -/
theorem symbolAt?_of_covering (sound : db.Sound) (closed : db.Closed)
    (covered : r ∈ db.covering project path p) :
    ∃ first ∈ db.covering project path p, ∃ row ∈ db.symbols, row.id = first.symbol ∧
      db.symbolAt? project path p = some row ∧
      ∀ other ∈ db.covering project path p, isTighter first.span other.span = true := by
  obtain ⟨first, member, sorted⟩ := head?_mergeSort covered fun a b => isTighter a.span b.span
  obtain ⟨row, stands, number, -⟩ := (closed.ranges first (mem_covering.1 member).1).2
  refine ⟨first, member, row, stands, number, ?_, fun other covers => ?_⟩
  · rw [symbolAt?, sorted, Option.bind_some, ← number]
    exact find?_numbered sound.symbols stands
  · have ranked : ((db.covering project path p).mergeSort fun a b =>
        isTighter a.span b.span).Pairwise fun a b => isTighter a.span b.span = true :=
      List.pairwise_mergeSort (fun a b c => isTighter_trans a.span b.span c.span)
        (fun a b => isTighter_total a.span b.span) _
    have kept := (List.mergeSort_perm (db.covering project path p)
      fun a b => isTighter a.span b.span).mem_iff.2 covers
    obtain ⟨rest, whole⟩ := List.head?_eq_some_iff.1 sorted
    rw [whole] at ranked kept
    rcases List.mem_cons.1 kept with rfl | later
    · simpa using isTighter_total other.span other.span
    · exact (List.pairwise_cons.1 ranked).1 other later

end Database

/-- **A position selects the symbol of an innermost range.**  In every store that there can be, none
is found exactly if no range of the document covers the position; and if some do, the symbol of one
of them is found that no other covering range lies strictly inside of. -/
theorem symbolAt_innermost {s : Store} (reached : s.database.Reached) (isOpen : s.isOpen = true)
    (project path : String) (p : Position) :
    (s.symbolAt project path p = .error (.notFound (positionName project path p)) ↔
      ¬ ∃ r, s.database.RangeIn project path r ∧ r.span.contains p = true) ∧
    ((∃ r, s.database.RangeIn project path r ∧ r.span.contains p = true) →
      ∃ r row, s.database.RangeIn project path r ∧ r.span.contains p = true ∧
        row ∈ s.database.symbols ∧ row.id = r.symbol ∧ s.symbolAt project path p = .ok row ∧
        ∀ other, s.database.RangeIn project path other → other.span.contains p = true →
          ¬ other.span.StrictlyInside r.span) := by
  have answer : s.symbolAt project path p = (s.database.symbolAt? project path p).elim
      (.error (.notFound (positionName project path p))) .ok := by
    simp only [symbolAt_eq, ask, if_pos isOpen, Except.bind]
    cases s.database.symbolAt? project path p <;> rfl
  have found (r : RangeRow) (inside : s.database.RangeIn project path r)
      (covers : r.span.contains p = true) :=
    Database.symbolAt?_of_covering reached.sound reached.closed
      (Database.mem_covering_iff.2 ⟨inside, covers⟩)
  refine ⟨⟨?_, fun nowhere => ?_⟩, ?_⟩
  · rintro missing ⟨r, inside, covers⟩
    obtain ⟨-, -, row, -, -, known, -⟩ := found r inside covers
    rw [answer, known, Option.elim_some] at missing
    cases missing
  · have nothing : s.database.covering project path p = [] :=
      List.eq_nil_iff_forall_not_mem.2 fun r member =>
        nowhere ⟨r, Database.mem_covering_iff.1 member⟩
    rw [answer, Database.symbolAt?, nothing, List.mergeSort_nil]
    rfl
  · rintro ⟨r, inside, covers⟩
    obtain ⟨first, member, row, stands, number, known, ranked⟩ := found r inside covers
    obtain ⟨here, covered⟩ := Database.mem_covering_iff.1 member
    refine ⟨first, row, here, covered, stands, number, by rw [answer, known, Option.elim_some],
      fun other there covers' narrower => ?_⟩
    have tighter := ranked other (Database.mem_covering_iff.2 ⟨there, covers'⟩)
    rw [Database.not_isTighter_of_strictlyInside covers' covered narrower] at tighter
    cases tighter

/-! ### One range inside another -/

/-- Two ranges on the same lines.  That of `inner` has the smaller count of characters, a negative
one. -/
def nested : Store where
  database := (Database.written {} { name := "p" } [
    ⟨1, .document { uri := "file:///repo/a.go", path := "a.go" }⟩,
    ⟨2, .resultSet { name := "outer" }⟩, ⟨3, .resultSet { name := "inner" }⟩,
    ⟨4, .range { document := 1, resultSet := 2, span := ⟨⟨1, 2⟩, ⟨3, 9⟩⟩ }⟩,
    ⟨5, .range { document := 1, resultSet := 3, span := ⟨⟨1, 7⟩, ⟨3, 2⟩⟩ }⟩]).flush.database

theorem strictlyInside_nested :
    Span.StrictlyInside ⟨⟨1, 7⟩, ⟨3, 2⟩⟩ ⟨⟨1, 2⟩, ⟨3, 9⟩⟩ where
  within p := by
    simp only [Span.contains, Bool.and_eq_true, Bool.not_eq_true', Bool.and_eq_false_iff,
      decide_eq_true_eq, decide_eq_false_iff_not]
    omega
  beyond := ⟨⟨1, 2⟩, by decide, by decide⟩

theorem covering_nested :
    (nested.database.covering "p" "a.go" ⟨2, 0⟩).map (·.span) =
        [⟨⟨1, 2⟩, ⟨3, 9⟩⟩, ⟨⟨1, 7⟩, ⟨3, 2⟩⟩] ∧
      ∀ r ∈ nested.database.ranges, ∀ row ∈ nested.database.symbols, row.id = r.symbol →
        r.span ≠ ⟨⟨1, 2⟩, ⟨3, 9⟩⟩ → row.name = "inner" := by
  decide +kernel

theorem symbolAt_innermost_nested :
    nested.database.Reached ∧ nested.isOpen = true ∧
    (∃ r, nested.database.RangeIn "p" "a.go" r ∧ r.span.contains ⟨2, 0⟩ = true) ∧
    ∃ row, nested.symbolAt "p" "a.go" ⟨2, 0⟩ = .ok row ∧ row.name = "inner" := by
  have reached : nested.database.Reached := .indexed .empty _ _
  obtain ⟨spans, named⟩ := covering_nested
  have covered {span : Span} (listed : span ∈ [⟨⟨1, 2⟩, ⟨3, 9⟩⟩, ⟨⟨1, 7⟩, ⟨3, 2⟩⟩]) :
      ∃ r, (nested.database.RangeIn "p" "a.go" r ∧ r.span.contains ⟨2, 0⟩ = true) ∧
        r.span = span := by
    obtain ⟨r, member, same⟩ := List.mem_map.1 (spans ▸ listed)
    exact ⟨r, Database.mem_covering_iff.1 member, same⟩
  obtain ⟨outer, here, -⟩ := covered List.mem_cons_self
  obtain ⟨inner, there, narrow⟩ := covered (List.mem_cons_of_mem _ List.mem_cons_self)
  obtain ⟨-, selects⟩ := symbolAt_innermost reached rfl "p" "a.go" ⟨2, 0⟩
  obtain ⟨r, row, inside, -, stands, number, known, innermost⟩ := selects ⟨outer, here⟩
  refine ⟨reached, rfl, ⟨outer, here⟩, row, known, named r inside.1 row stands number ?_⟩
  rintro wide
  exact innermost inner there.1 there.2 (by rw [narrow, wide]; exact strictlyInside_nested)

end Store
end SymbolAtlas
