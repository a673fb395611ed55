/-
# SymbolAtlas.Proofs.Text.Positions -- positions tell offsets apart

The position of an offset counts the code units between the start of its line and the offset, so
two offsets may have one position if one of them lies inside a code point.  Where a line, read one
code point after the other, comes to stand before an offset, the offset begins a code point
(`Source.Begins`).  The positions of such offsets are ordered as the offsets are
(`Begins.before`), so they tell them apart (`eq_of_offsetPosition`).

A line and a byte column lead to the same position as the offset that they are those of
(`Lined.columnPosition_lineColumn`), and no two offsets share them (`Lined.lineColumn_inj`).
-/
import SymbolAtlas.Text.Source

set_option autoImplicit false

namespace SymbolAtlas.Text

/-! ## Code points -/

namespace Utf8

/-- Reading one code point of a text takes `j` bytes besides the first, whatever follows them. -/
def Cuts (lead : UInt8) (rest : List UInt8) (j : Nat) : Prop :=
  j ≤ rest.length ∧ (next lead rest).2 = rest.drop j ∧
    ∀ n, j ≤ n → next lead (rest.take n) = ((next lead rest).1, (rest.take n).drop j)

theorem exists_cuts (lead : UInt8) (rest : List UInt8) : ∃ j, Cuts lead rest j := by
  unfold Cuts next
  dsimp only
  split
  · exact ⟨0, Nat.zero_le _, rfl, fun n _ => rfl⟩
  split
  · exact ⟨0, Nat.zero_le _, rfl, fun n _ => rfl⟩
  split
  · rcases rest with _ | ⟨b, rest⟩
    · exact ⟨0, Nat.zero_le _, rfl, by simp⟩
    cases first : continuation? 0x80 0xBF b with
    | none =>
        refine ⟨0, by simp, by simp [first], fun n _ => ?_⟩
        cases n <;> simp [first]
    | some x =>
        refine ⟨1, by simp, by simp [first], fun n le => ?_⟩
        obtain ⟨n, rfl⟩ := Nat.exists_eq_add_of_le' le
        simp [first]
  split
  · rcases rest with _ | ⟨b, _ | ⟨c, rest⟩⟩
    · exact ⟨0, Nat.zero_le _, rfl, by simp⟩
    · refine ⟨0, Nat.zero_le _, rfl, fun n _ => ?_⟩
      cases n <;> simp
    dsimp only
    split
    · rename_i first second
      refine ⟨2, by simp, by simp, fun n le => ?_⟩
      obtain ⟨n, rfl⟩ := Nat.exists_eq_add_of_le' le
      simp [first, second]
    · refine ⟨0, by simp, by simp, fun n _ => ?_⟩
      rcases n with _ | _ | n <;> simp
  split
  · rcases rest with _ | ⟨b, _ | ⟨c, _ | ⟨d, rest⟩⟩⟩
    · exact ⟨0, Nat.zero_le _, rfl, by simp⟩
    · refine ⟨0, Nat.zero_le _, rfl, fun n _ => ?_⟩
      cases n <;> simp
    · refine ⟨0, Nat.zero_le _, rfl, fun n _ => ?_⟩
      rcases n with _ | _ | n <;> simp
    dsimp only
    split
    · rename_i first second third
      refine ⟨3, by simp, by simp, fun n le => ?_⟩
      obtain ⟨n, rfl⟩ := Nat.exists_eq_add_of_le' le
      simp [first, second, third]
    · refine ⟨0, by simp, by simp, fun n _ => ?_⟩
      rcases n with _ | _ | _ | n <;> simp
  · exact ⟨0, Nat.zero_le _, rfl, fun n _ => rfl⟩

/-- Reading a text one code point after the other comes to stand before a tail of it. -/
inductive Reads : List UInt8 → List UInt8 → Prop where
  | here (bytes : List UInt8) : Reads bytes bytes
  | next {lead : UInt8} {rest tail : List UInt8} (later : Reads (Utf8.next lead rest).2 tail) :
      Reads (lead :: rest) tail

/-- In ASCII, reading comes to stand before every tail. -/
theorem reads_drop_of_ascii {bytes : List UInt8} (ascii : ∀ b ∈ bytes, b < 0x80) (n : Nat) :
    Reads bytes (bytes.drop n) := by
  induction n generalizing bytes with
  | zero => exact .here bytes
  | succ n ih =>
      cases bytes with
      | nil => exact .here []
      | cons lead rest =>
          have single : (next lead rest).2 = rest := by
            simp [next, ascii lead List.mem_cons_self]
          refine .next ?_
          rw [single]
          exact ih fun b member => ascii b (List.mem_cons_of_mem _ member)

theorem fold_units (acc : Nat) (bytes : List UInt8) :
    fold (fun n code => n + unitsOf code) acc bytes = acc + units bytes := by
  match bytes with
  | [] => simp [fold, units]
  | lead :: rest =>
      have shorter := next_length_le lead rest
      rw [units, fold, fold, fold_units (acc + _), fold_units (0 + _), Nat.zero_add, Nat.add_assoc]
termination_by bytes.length

@[simp] theorem units_nil : units [] = 0 := by simp [units, fold]

theorem units_cons (lead : UInt8) (rest : List UInt8) :
    units (lead :: rest) = unitsOf (next lead rest).1 + units (next lead rest).2 := by
  rw [units, fold, fold_units, Nat.zero_add]

theorem units_pos {bytes : List UInt8} (some_ : bytes ≠ []) : 0 < units bytes := by
  match bytes with
  | lead :: rest =>
      rw [units_cons, unitsOf]
      split <;> omega

/-- **Where code points meet, code units add up.** -/
theorem units_take_of_reads {bytes tail : List UInt8} (h : Reads bytes tail) :
    ∃ n ≤ bytes.length, tail = bytes.drop n ∧
      ∀ m, n ≤ m → units (bytes.take m) = units (bytes.take n) + units (tail.take (m - n)) := by
  induction h with
  | here bytes => exact ⟨0, Nat.zero_le _, rfl, by simp⟩
  | @next lead rest tail later ih =>
      obtain ⟨j, short, cut, stable⟩ := exists_cuts lead rest
      rw [cut] at ih
      obtain ⟨n, bound, rfl, adds⟩ := ih
      rw [List.length_drop] at bound
      have whole (m : Nat) (le : n ≤ m) : units ((lead :: rest).take (1 + j + m)) =
          unitsOf (next lead rest).1 + units ((rest.drop j).take m) := by
        rw [Nat.add_assoc, Nat.add_comm 1, List.take_succ_cons, units_cons,
          stable _ (Nat.le_add_right j m), List.drop_take, Nat.add_sub_cancel_left]
      refine ⟨1 + j + n, by simp; omega, ?_, fun m le => ?_⟩
      · rw [List.drop_drop, Nat.add_assoc, Nat.add_comm 1, List.drop_succ_cons]
      · obtain ⟨m, rfl⟩ := Nat.exists_eq_add_of_le le
        rw [show 1 + j + n + m = 1 + j + (n + m) by omega, whole _ (Nat.le_add_right n m),
          whole _ (Nat.le_refl n), adds _ (Nat.le_add_right n m), Nat.add_assoc,
          Nat.add_sub_cancel_left, show 1 + j + (n + m) - (1 + j + n) = m by omega]

end Utf8

/-! ## Lines -/

namespace Source

/-- The lines of a text start where they should: the first one at the front. -/
theorem lineAt_spec (offset : Nat) (lines : List Nat) (best : Nat × Nat) (index : Nat) :
    lineAt offset best index lines = best ∨
      (∃ k, lines[k]? = some (lineAt offset best index lines).2 ∧
        (lineAt offset best index lines).1 = index + k) ∧
        (lineAt offset best index lines).2 ≤ offset := by
  induction lines generalizing best index with
  | nil => exact .inl rfl
  | cons start rest ih =>
      rw [lineAt]
      split
      · rename_i le
        rcases ih (index, start) (index + 1) with same | ⟨⟨k, found, number⟩, le'⟩
        · rw [same]
          exact .inr ⟨⟨0, rfl, rfl⟩, le⟩
        · exact .inr ⟨⟨k + 1, found, by omega⟩, le'⟩
      · exact .inl rfl

theorem le_lineAt (offset : Nat) (lines : List Nat) {best : Nat × Nat} {index : Nat}
    (le : best.1 ≤ index) : best.1 ≤ (lineAt offset best index lines).1 := by
  rcases lineAt_spec offset lines best index with same | ⟨⟨k, -, number⟩, -⟩
  · exact Nat.le_of_eq (congrArg Prod.fst same.symm)
  · omega

/-- A later offset is on the same line or on a later one. -/
theorem lineAt_mono {offset later : Nat} (le : offset ≤ later) (lines : List Nat)
    {best : Nat × Nat} {index : Nat} (first : best.1 ≤ index) :
    (lineAt offset best index lines).1 ≤ (lineAt later best index lines).1 := by
  induction lines generalizing best index with
  | nil => exact Nat.le_refl _
  | cons start rest ih =>
      rw [lineAt]
      split
      · rename_i reached
        rw [lineAt, if_pos (Nat.le_trans reached le)]
        exact ih (Nat.le_succ index)
      · exact le_lineAt later _ first

/-- The line of an offset, with its start. -/
abbrev lineOf (s : Source) (offset : Nat) : Nat × Nat := lineAt offset (0, 0) 0 s.lines

/-- A source that cannot be read, or that has the lines of its bytes. -/
def Lined (s : Source) : Prop := s = unreadable ∨ s = ofBytes s.bytes

theorem lineOf_unreadable (offset : Nat) : unreadable.lineOf offset = (0, 0) := rfl

/-- The line of an offset starts where the source says, and not behind the offset. -/
theorem Lined.lineOf {s : Source} (lined : s.Lined) (readable : s ≠ unreadable) (offset : Nat) :
    s.lines[(s.lineOf offset).1]? = some (s.lineOf offset).2 ∧ (s.lineOf offset).2 ≤ offset := by
  have first : s.lines = 0 :: startsAfter 0 s.bytes :=
    congrArg lines (lined.resolve_left readable)
  rcases lineAt_spec offset s.lines (0, 0) 0 with same | ⟨⟨k, found, number⟩, le⟩
  · rw [Source.lineOf, same, first]
    exact ⟨rfl, Nat.zero_le _⟩
  · rw [Source.lineOf, number, Nat.zero_add]
    exact ⟨found, le⟩

/-- Offsets on one line have one start of the line. -/
theorem Lined.start_eq {s : Source} (lined : s.Lined) {first second : Nat}
    (same : (s.lineOf first).1 = (s.lineOf second).1) :
    (s.lineOf first).2 = (s.lineOf second).2 := by
  by_cases readable : s = unreadable
  · rw [readable, lineOf_unreadable, lineOf_unreadable]
  · have start := (lined.lineOf readable first).1
    rw [same, (lined.lineOf readable second).1] at start
    exact (Option.some.inj start).symm

theorem Lined.start_le {s : Source} (lined : s.Lined) (offset : Nat) :
    (s.lineOf offset).2 ≤ offset := by
  by_cases readable : s = unreadable
  · rw [readable, lineOf_unreadable]
    exact Nat.zero_le _
  · exact (lined.lineOf readable offset).2

theorem lineColumn_eq (s : Source) (offset : Nat) :
    s.lineColumn offset = ((s.lineOf offset).1 + 1, offset - (s.lineOf offset).2 + 1) := rfl

/-- **No two offsets share a line and a byte column.** -/
theorem Lined.lineColumn_inj {s : Source} (lined : s.Lined) {first second : Nat}
    (same : s.lineColumn first = s.lineColumn second) : first = second := by
  rw [lineColumn_eq, lineColumn_eq] at same
  obtain ⟨line, column⟩ := Prod.mk.inj same
  have start := lined.start_eq (Nat.add_right_cancel line)
  have le := lined.start_le first
  have le' := lined.start_le second
  omega

/-- **A line and a byte column lead where their offset does.** -/
theorem Lined.columnPosition_lineColumn {s : Source} (lined : s.Lined) (readable : s ≠ unreadable)
    (offset : Nat) :
    s.columnPosition (s.lineColumn offset).1 (s.lineColumn offset).2 = s.offsetPosition offset := by
  obtain ⟨start, le⟩ := lined.lineOf readable offset
  rw [lineColumn_eq, columnPosition, if_neg (by omega)]
  dsimp only
  rw [show ((((s.lineOf offset).1 + 1 : Nat) : Int) - 1).toNat = (s.lineOf offset).1 by omega, start]
  exact congrArg s.offsetPosition (by omega)

/-! ## Offsets -/

/-- An offset begins a code point, or is the end: its line, read one code point after the other,
comes to stand before it. -/
structure Begins (s : Source) (offset : Nat) : Prop where
  inside : offset ≤ s.bytes.length
  reads : Utf8.Reads (s.bytes.drop (s.lineOf offset).2) (s.bytes.drop offset)

/-- In ASCII, every offset begins a code point. -/
theorem Lined.begins_of_ascii {s : Source} (lined : s.Lined) (ascii : ∀ b ∈ s.bytes, b < 0x80)
    {offset : Nat} (inside : offset ≤ s.bytes.length) : s.Begins offset := by
  refine ⟨inside, ?_⟩
  have le := lined.start_le offset
  have rest : s.bytes.drop offset =
      (s.bytes.drop (s.lineOf offset).2).drop (offset - (s.lineOf offset).2) := by
    rw [List.drop_drop, Nat.add_sub_cancel' le]
  rw [rest]
  exact Utf8.reads_drop_of_ascii (fun b member => ascii b (List.mem_of_mem_drop member)) _

end Source

/-- The order of positions: by lines, and on one line by characters. -/
def Position.Before (p q : Position) : Prop :=
  p.line < q.line ∨ p.line = q.line ∧ p.character < q.character

theorem Position.Before.ne {p q : Position} (h : p.Before q) : p ≠ q := by
  rintro rfl
  rcases h with line | ⟨-, character⟩
  · exact Int.lt_irrefl _ line
  · exact Int.lt_irrefl _ character

namespace Source

variable {s : Source} {first second : Nat}

theorem offsetPosition_of_le (some_ : s.bytes ≠ []) (inside : first ≤ s.bytes.length) :
    s.offsetPosition first = ⟨(s.lineOf first).1, Utf8.units
      ((s.bytes.drop (s.lineOf first).2).take (first - (s.lineOf first).2))⟩ := by
  unfold offsetPosition
  split
  · contradiction
  · rw [Nat.min_eq_left inside]

/-- **Positions are ordered as offsets are**, if the first one begins a code point. -/
theorem Begins.before (h : s.Begins first) (lined : s.Lined) (lt : first < second)
    (inside : second ≤ s.bytes.length) :
    (s.offsetPosition first).Before (s.offsetPosition second) := by
  have some_ : s.bytes ≠ [] := by
    rintro empty
    rw [empty] at inside
    exact absurd inside (Nat.not_le_of_lt (Nat.lt_of_le_of_lt (Nat.zero_le _) lt))
  rw [offsetPosition_of_le some_ h.inside, offsetPosition_of_le some_ inside]
  have line := lineAt_mono (Nat.le_of_lt lt) s.lines (Nat.le_refl ((0, 0) : Nat × Nat).1)
  rcases Nat.lt_or_eq_of_le line with less | same
  · exact .inl (Int.ofNat_lt.2 less)
  · have start := lined.start_eq same
    have le := lined.start_le first
    refine .inr ⟨congrArg Int.ofNat same, Int.ofNat_lt.2 ?_⟩
    obtain ⟨n, short, tail, adds⟩ := Utf8.units_take_of_reads h.reads
    have here : n = first - (s.lineOf first).2 := by
      have lengths := congrArg List.length tail
      simp only [List.length_drop] at lengths short
      omega
    rw [here] at adds
    rw [← start, adds (second - (s.lineOf first).2) (by omega)]
    refine Nat.lt_add_of_pos_right (Utf8.units_pos fun none => ?_)
    have lengths := congrArg List.length none
    simp only [List.length_take, List.length_drop, List.length_nil] at lengths
    omega

/-- **Positions tell offsets apart** that begin code points. -/
theorem eq_of_offsetPosition (lined : s.Lined) (h : s.Begins first) (h' : s.Begins second)
    (same : s.offsetPosition first = s.offsetPosition second) : first = second := by
  rcases Nat.lt_trichotomy first second with lt | eq | gt
  · exact absurd same (h.before lined lt h'.inside).ne
  · exact eq
  · exact absurd same.symm (h'.before lined gt h.inside).ne

end Source

end SymbolAtlas.Text
