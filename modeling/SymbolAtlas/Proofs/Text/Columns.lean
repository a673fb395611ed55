/-
# SymbolAtlas.Proofs.Text.Columns -- lines, columns and the order of positions

A text is read byte by byte, and after each byte one stands on a line and in a column of it
(`cursor`).  The line and the column of an offset that `lineColumn` finds among the starts of lines
are those (`lineColumn_eq_cursor`), so they lead to the position of the offset.

Offsets at which code points meet are said without the search too: reading code points from the
start of some line, not only the last one, comes to stand before the offset (`Boundary`).  That is
enough, because no code point reaches across a newline (`Utf8.Reads.past_newline`), so the start of
each later line is passed on the way (`Boundary.begins`).  The positions of such offsets are
ordered as the offsets are, and spans of them lie beside and inside one another as the stretches of
bytes do (`positions_faithful`).
-/
import SymbolAtlas.Proofs.Text.Positions

set_option autoImplicit false

namespace SymbolAtlas.Text

/-! ## Code points and newlines -/

namespace Utf8

theorem le_of_continuation? {low high b : UInt8} {x : Nat}
    (read : continuation? low high b = some x) : low ≤ b := by
  unfold continuation? at read
  split at read
  · rename_i inside
    exact inside.1
  · cases read

theorem le_secondByte (lead : UInt8) : 0x80 ≤ (secondByte lead).1 := by
  unfold secondByte
  repeat' split
  all_goals decide

/-- What a code point takes besides its first byte are bytes that never begin one. -/
theorem exists_taken (lead : UInt8) (rest : List UInt8) :
    ∃ taken, rest = taken ++ (next lead rest).2 ∧ ∀ b ∈ taken, 0x80 ≤ b := by
  have second {b : UInt8} {x : Nat}
      (read : continuation? (secondByte lead).1 (secondByte lead).2 b = some x) : 0x80 ≤ b :=
    UInt8.le_trans (le_secondByte lead) (le_of_continuation? read)
  have nothing : ∃ taken, rest = taken ++ rest ∧ ∀ b ∈ taken, (0x80 : UInt8) ≤ b :=
    ⟨[], rfl, by simp⟩
  unfold next
  dsimp only
  split
  · exact nothing
  split
  · exact nothing
  split
  · split
    · rename_i b rest'
      split
      · rename_i x first
        exact ⟨[b], rfl, by simp [le_of_continuation? first]⟩
      · exact nothing
    · exact nothing
  split
  · split
    · rename_i b c rest'
      split
      · rename_i x y first last
        exact ⟨[b, c], rfl, by simp [second first, le_of_continuation? last]⟩
      · exact nothing
    · exact nothing
  split
  · split
    · rename_i b c d rest'
      split
      · rename_i x y z first middle last
        exact ⟨[b, c, d], rfl,
          by simp [second first, le_of_continuation? middle, le_of_continuation? last]⟩
      · exact nothing
    · exact nothing
  · exact nothing

/-- **No code point reaches across a newline.**  What is read to the end passes behind every
newline on the way. -/
theorem Reads.past_newline {bytes tail : List UInt8} (reads : Reads bytes tail) {i : Nat}
    (newline : bytes[i]? = some 10) (before : i + 1 + tail.length ≤ bytes.length) :
    Reads (bytes.drop (i + 1)) tail := by
  induction reads generalizing i with
  | here bytes => omega
  | @next lead rest tail later ih =>
      obtain ⟨taken, split, high⟩ := exists_taken lead rest
      cases i with
      | zero =>
          have single : lead = 10 := by simpa using newline
          subst single
          simpa [Utf8.next] using later
      | succ i =>
          have inside : rest[i]? = some 10 := by simpa using newline
          generalize (Utf8.next lead rest).2 = behind at later ih split
          subst split
          have passed : taken.length ≤ i := by
            apply Nat.le_of_not_lt
            intro short
            rw [List.getElem?_append_left short] at inside
            exact absurd (high 10 (List.mem_of_getElem? inside)) (by decide)
          rw [List.getElem?_append_right passed] at inside
          have tail_reads := ih inside (by simp at before; omega)
          rw [List.drop_succ_cons, List.drop_append, List.drop_eq_nil_of_le (by omega),
            List.nil_append]
          rwa [show i + 1 - taken.length = i - taken.length + 1 by omega]

end Utf8

/-! ## Lines -/

namespace Source

/-- The line and the column after one more byte. -/
def advance (cursor : Nat × Nat) (b : UInt8) : Nat × Nat :=
  if b = 10 then (cursor.1 + 1, 1) else (cursor.1, cursor.2 + 1)

/-- The line and the column, both from one, to which reading some bytes leads. -/
def cursor (before : List UInt8) : Nat × Nat := before.foldl advance (1, 1)

/-- Starts of lines that come behind an offset are not found. -/
theorem lineAt_startsAfter_of_le {offset start : Nat} (le : offset ≤ start) (best : Nat × Nat)
    (index : Nat) (bytes : List UInt8) :
    lineAt offset best index (startsAfter start bytes) = best := by
  induction bytes generalizing start with
  | nil => rfl
  | cons b rest ih =>
      by_cases newline : b = 10
      · simp only [startsAfter, newline, if_true, lineAt]
        rw [if_neg (by omega)]
      · simp only [startsAfter, newline, if_false]
        exact ih (by omega)

/-- The search among the starts of lines finds the line to which reading leads. -/
theorem lineAt_startsAfter {offset here line start : Nat} {bytes : List UInt8} (le : start ≤ here)
    (reached : here ≤ offset) (inside : offset ≤ here + bytes.length) :
    let found := lineAt offset (line, start) (line + 1) (startsAfter here bytes)
    (found.1 + 1, offset - found.2 + 1) =
      (bytes.take (offset - here)).foldl advance (line + 1, here - start + 1) := by
  intro found
  induction bytes generalizing here line start with
  | nil =>
      have same : offset = here := by simp at inside; omega
      subst same
      simp [found, startsAfter, lineAt]
  | cons b rest ih =>
      rcases Nat.eq_or_lt_of_le reached with rfl | before
      · have best : found = (line, start) := lineAt_startsAfter_of_le (Nat.le_refl _) _ _ _
        simp [best]
      · have first : offset - here = offset - (here + 1) + 1 := by omega
        have rest_inside : offset ≤ here + 1 + rest.length := by simp at inside; omega
        rw [first, List.take_succ_cons, List.foldl_cons]
        by_cases newline : b = 10
        · have step := @ih (here + 1) (line + 1) (here + 1) (Nat.le_refl _) before rest_inside
          simp only [found, startsAfter, newline, if_true, lineAt]
          rw [if_pos (by omega), step]
          simp [advance]
        · have step := @ih (here + 1) line start (Nat.le_succ_of_le le) before rest_inside
          simp only [found, startsAfter, newline, if_false]
          rw [step]
          simp only [advance, newline, if_false]
          rw [show here + 1 - start = here - start + 1 by omega]

/-- **The line and the column of an offset are those to which reading leads.** -/
theorem lineColumn_eq_cursor {content : List UInt8} {offset : Nat}
    (inside : offset ≤ content.length) :
    (ofBytes content).lineColumn offset = cursor (content.take offset) := by
  have found := @lineAt_startsAfter offset 0 0 0 content (Nat.le_refl 0) (Nat.zero_le offset)
    (by simpa using inside)
  have first : (ofBytes content).lineOf offset =
      lineAt offset (0, 0) 1 (startsAfter 0 content) := by
    simp [lineOf, ofBytes, lineAt]
  rw [lineColumn_eq, first]
  simpa [cursor] using found

/-! ## Starts of lines -/

/-- A line starts at the front, and behind every newline. -/
def StartsLine (content : List UInt8) (start : Nat) : Prop :=
  start = 0 ∨ ∃ i, content[i]? = some 10 ∧ start = i + 1

theorem mem_startsAfter {bytes : List UInt8} {here start : Nat} :
    start ∈ startsAfter here bytes ↔ ∃ i, bytes[i]? = some 10 ∧ start = here + i + 1 := by
  induction bytes generalizing here with
  | nil => simp [startsAfter]
  | cons b rest ih =>
      have later : (∃ i, (b :: rest)[i + 1]? = some 10 ∧ start = here + (i + 1) + 1) ↔
          start ∈ startsAfter (here + 1) rest := by
        rw [ih]
        simp only [List.getElem?_cons_succ, Nat.add_right_comm here, Nat.add_assoc]
      have cases_ : (∃ i, (b :: rest)[i]? = some 10 ∧ start = here + i + 1) ↔
          (b = 10 ∧ start = here + 1) ∨ start ∈ startsAfter (here + 1) rest := by
        rw [← later]
        constructor
        · rintro ⟨_ | i, found, same⟩
          · exact .inl ⟨by simpa using found, same⟩
          · exact .inr ⟨i, found, same⟩
        · rintro (⟨same, start⟩ | ⟨i, found, same⟩)
          · exact ⟨0, by simp [same], start⟩
          · exact ⟨i + 1, found, same⟩
      rw [cases_]
      by_cases newline : b = 10
      · simp [startsAfter, newline]
      · simp [startsAfter, newline]

theorem mem_lines_iff {content : List UInt8} {start : Nat} :
    start ∈ (ofBytes content).lines ↔ StartsLine content start := by
  simp [ofBytes, StartsLine, mem_startsAfter]

theorem le_lineAt_start {offset here : Nat} {best : Nat × Nat} (le : best.2 ≤ here) (index : Nat)
    (bytes : List UInt8) :
    best.2 ≤ (lineAt offset best index (startsAfter here bytes)).2 := by
  rcases lineAt_spec offset (startsAfter here bytes) best index with same | ⟨⟨k, found, -⟩, -⟩
  · simp [same]
  · obtain ⟨i, -, same⟩ := mem_startsAfter.1 (List.mem_of_getElem? found)
    omega

/-- No line that starts at or before an offset starts behind the one that is found. -/
theorem le_lineAt_of_mem {offset here start : Nat} {best : Nat × Nat} {index : Nat}
    {bytes : List UInt8} (member : start ∈ startsAfter here bytes) (le : start ≤ offset) :
    start ≤ (lineAt offset best index (startsAfter here bytes)).2 := by
  induction bytes generalizing here best index with
  | nil => simp [startsAfter] at member
  | cons b rest ih =>
      by_cases newline : b = 10
      · simp only [startsAfter, newline, if_true, List.mem_cons] at member ⊢
        have behind : here + 1 ≤ start := by
          rcases member with rfl | later
          · exact Nat.le_refl _
          · obtain ⟨i, -, same⟩ := mem_startsAfter.1 later
            omega
        rw [lineAt, if_pos (by omega)]
        rcases member with rfl | later
        · exact @le_lineAt_start offset (here + 1) (index, here + 1) (Nat.le_refl _) _ _
        · exact ih later
      · simp only [startsAfter, newline, if_false] at member ⊢
        exact ih member

theorem le_lineOf {content : List UInt8} {offset start : Nat} (starts : StartsLine content start)
    (le : start ≤ offset) : start ≤ ((ofBytes content).lineOf offset).2 := by
  have first : (ofBytes content).lineOf offset =
      lineAt offset (0, 0) 1 (startsAfter 0 content) := by
    simp [lineOf, ofBytes, lineAt]
  rw [first]
  rcases starts with rfl | ⟨i, newline, same⟩
  · exact Nat.zero_le _
  · exact le_lineAt_of_mem (mem_startsAfter.2 ⟨i, newline, by omega⟩) le

theorem ofBytes_ne_unreadable (content : List UInt8) : ofBytes content ≠ unreadable :=
  fun same => absurd (congrArg lines same) (by simp [ofBytes, unreadable])

theorem lined_ofBytes (content : List UInt8) : (ofBytes content).Lined := .inr rfl

/-! ## Boundaries -/

/-- Code points meet at an offset: reading them from the start of a line, whichever, comes to
stand before it. -/
structure Boundary (content : List UInt8) (offset : Nat) : Prop where
  inside : offset ≤ content.length
  reads : ∃ start ≤ offset, StartsLine content start ∧
    Utf8.Reads (content.drop start) (content.drop offset)

/-- It does not matter from which line one reads. -/
theorem Boundary.begins {content : List UInt8} {offset : Nat} (boundary : Boundary content offset) :
    (ofBytes content).Begins offset := by
  obtain ⟨inside, start, le, starts, reads⟩ := boundary
  refine ⟨inside, ?_⟩
  have last_le := (lined_ofBytes content).start_le offset
  have last := ((lined_ofBytes content).lineOf (ofBytes_ne_unreadable content) offset).1
  have le_last := le_lineOf starts le
  have starts_last := mem_lines_iff.1 (List.mem_of_getElem? last)
  generalize ((ofBytes content).lineOf offset).2 = line at *
  show Utf8.Reads (content.drop line) (content.drop offset)
  rcases Nat.eq_or_lt_of_le le_last with same | before
  · exact same ▸ reads
  · rcases starts_last with zero | ⟨i, newline, same⟩
    · omega
    · have here : (content.drop start)[i - start]? = some 10 := by
        rw [List.getElem?_drop, show start + (i - start) = i by omega]
        exact newline
      have passed := reads.past_newline here (by simp only [List.length_drop]; omega)
      rw [List.drop_drop, show start + (i - start + 1) = line by omega] at passed
      exact passed

end Source

/-! ## Spans -/

/-- Positions of a span come after its start and before its stop. -/
theorem Span.contains_iff_before {s : Span} {p : Position} :
    s.contains p = true ↔ ¬ p.Before s.start ∧ p.Before s.stop := by
  simp only [Span.contains, Position.Before, Bool.and_eq_true, Bool.not_eq_true',
    Bool.and_eq_false_iff, decide_eq_true_eq, decide_eq_false_iff_not]
  omega

theorem Position.Before.trans {p q r : Position} (first : p.Before q) (second : ¬ r.Before q) :
    p.Before r := by
  unfold Position.Before at *
  omega

namespace Source

/-- The span of the bytes from one offset up to another. -/
def spanOf (s : Source) (start stop : Nat) : Span := ⟨s.offsetPosition start, s.offsetPosition stop⟩

section Order

variable {content : List UInt8} {first second : Nat}

/-- **Positions are ordered as offsets are.** -/
theorem Boundary.before_iff (h : Boundary content first) (h' : Boundary content second) :
    ((ofBytes content).offsetPosition first).Before ((ofBytes content).offsetPosition second) ↔
      first < second := by
  have lined := lined_ofBytes content
  constructor
  · intro before
    rcases Nat.lt_trichotomy first second with lt | rfl | gt
    · exact lt
    · exact absurd rfl before.ne
    · have back := h'.begins.before lined gt h.inside
      unfold Position.Before at before back
      omega
  · intro lt
    exact h.begins.before lined lt h'.inside

variable {start stop start' stop' : Nat}

/-- Stretches of bytes beside one another have no position in common. -/
theorem disjoint_spanOf (h : Boundary content stop) (h' : Boundary content start')
    (apart : stop ≤ start') {p : Position}
    (inside : ((ofBytes content).spanOf start stop).contains p = true) :
    ((ofBytes content).spanOf start' stop').contains p = false := by
  rw [Bool.eq_false_iff]
  intro inside'
  have before := (Span.contains_iff_before.1 inside).2
  have after := (Span.contains_iff_before.1 inside').1
  exact after (before.trans fun back => by
    have := (h'.before_iff h).1 back
    omega)

/-- A stretch of bytes inside another has no position that the other has not. -/
theorem contains_of_inside (h : Boundary content start) (h' : Boundary content start')
    (begins : start ≤ start') (g : Boundary content stop) (g' : Boundary content stop')
    (stops : stop' ≤ stop) {p : Position}
    (inside : ((ofBytes content).spanOf start' stop').contains p = true) :
    ((ofBytes content).spanOf start stop).contains p = true := by
  obtain ⟨after, before⟩ := Span.contains_iff_before.1 inside
  refine Span.contains_iff_before.2 ⟨fun earlier => after (earlier.trans fun back => ?_),
    before.trans fun back => ?_⟩
  · have := (h'.before_iff h).1 back
    omega
  · have := (g.before_iff g').1 back
    omega

end Order

/-! ## Contents -/

/-- **Positions are faithful to the bytes of a file.**  They are ordered as the boundaries between
code points are, so spans of stretches that lie apart have no position in common, and those of
stretches that lie inside one another are nested; and the line and the byte column of any offset
lead to its position. -/
theorem positions_faithful (content : List UInt8) :
    (∀ first second, Boundary content first → Boundary content second →
      (((ofBytes content).offsetPosition first).Before ((ofBytes content).offsetPosition second) ↔
        first < second)) ∧
      (∀ start stop start' stop', Boundary content start → Boundary content stop →
        Boundary content start' → Boundary content stop' →
          (stop ≤ start' → ∀ p, ((ofBytes content).spanOf start stop).contains p = true →
            ((ofBytes content).spanOf start' stop').contains p = false) ∧
          (start ≤ start' → stop' ≤ stop →
            ∀ p, ((ofBytes content).spanOf start' stop').contains p = true →
              ((ofBytes content).spanOf start stop).contains p = true)) ∧
      ∀ offset ≤ content.length,
        (ofBytes content).columnPosition (cursor (content.take offset)).1
            (cursor (content.take offset)).2 =
          (ofBytes content).offsetPosition offset := by
  refine ⟨fun first second h h' => h.before_iff h', ?_, ?_⟩
  · intro start stop start' stop' starts stops starts' stops'
    refine ⟨fun apart p inside => ?_, fun begins ends p inside => ?_⟩
    · exact disjoint_spanOf stops starts' apart inside
    · exact contains_of_inside starts starts' begins stops stops' ends inside
  · intro offset inside
    have agree := (lined_ofBytes content).columnPosition_lineColumn (ofBytes_ne_unreadable content)
      offset
    rwa [lineColumn_eq_cursor inside] at agree

/-- A letter of two bytes, a character of two code units, a byte that begins nothing, a line break
of two bytes, and a last line without one. -/
def mixedContent : List UInt8 := [0xC3, 0xA9, 0xF0, 0x9F, 0x98, 0x80, 0xFF, 13, 10, 97]

theorem positions_faithful_mixed :
    Boundary mixedContent 2 ∧ Boundary mixedContent 6 ∧ Boundary mixedContent 7 ∧
      Boundary mixedContent 10 ∧
      ((ofBytes mixedContent).offsetPosition 2 = ⟨0, 1⟩ ∧
        (ofBytes mixedContent).offsetPosition 6 = ⟨0, 3⟩ ∧
        (ofBytes mixedContent).offsetPosition 10 = ⟨1, 1⟩) ∧
      ((ofBytes mixedContent).offsetPosition 6).Before ((ofBytes mixedContent).offsetPosition 10) ∧
      (∀ p, ((ofBytes mixedContent).spanOf 2 6).contains p = true →
        ((ofBytes mixedContent).spanOf 7 10).contains p = false) ∧
      (∀ p, ((ofBytes mixedContent).spanOf 6 7).contains p = true →
        ((ofBytes mixedContent).spanOf 2 10).contains p = true) ∧
      cursor (mixedContent.take 10) = (2, 2) ∧
      (ofBytes mixedContent).columnPosition 2 2 = (ofBytes mixedContent).offsetPosition 10 := by
  have two : Boundary mixedContent 2 := ⟨by decide, 0, by decide, .inl rfl, .next (.here _)⟩
  have six : Boundary mixedContent 6 :=
    ⟨by decide, 0, by decide, .inl rfl, .next (.next (.here _))⟩
  have seven : Boundary mixedContent 7 :=
    ⟨by decide, 0, by decide, .inl rfl, .next (.next (.next (.here _)))⟩
  have ten : Boundary mixedContent 10 :=
    ⟨by decide, 9, by decide, .inr ⟨8, rfl, rfl⟩, .next (.here _)⟩
  have known : (ofBytes mixedContent).offsetPosition 2 = ⟨0, 1⟩ ∧
      (ofBytes mixedContent).offsetPosition 6 = ⟨0, 3⟩ ∧
      (ofBytes mixedContent).offsetPosition 10 = ⟨1, 1⟩ := by
    decide +kernel
  obtain ⟨order, spans, columns⟩ := positions_faithful mixedContent
  exact ⟨two, six, seven, ten, known, (order 6 10 six ten).2 (by decide),
    (spans 2 6 7 10 two six seven ten).1 (by decide),
    (spans 2 10 6 7 two ten six seven).2 (by decide) (by decide), rfl, columns 10 (by decide)⟩

end Source

end SymbolAtlas.Text
