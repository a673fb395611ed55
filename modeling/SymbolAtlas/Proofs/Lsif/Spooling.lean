/-
# SymbolAtlas.Proofs.Lsif.Spooling -- lines that reach the file

A buffer puts off what is written, and a line may be written in pieces.  On a file that takes
everything nothing of it can be seen in the end: the file holds the lines, each of them whole and
in their order, and the writer has counted them (`spooled`).
-/
import SymbolAtlas.Lsif.Writer
import SymbolAtlas.Proofs.Lsif.Lining

set_option autoImplicit false

namespace SymbolAtlas.Lsif

open SymbolAtlas.Graph (Element)

/-! ## The buffer -/

namespace Spool

variable {s : Spool}

/-- What was written and what waits to be. -/
def contents (s : Spool) : ByteArray := s.written ++ s.buffer

/-- Nothing was refused, and nothing will be. -/
structure Open (s : Spool) : Prop where
  unlimited : s.limit = none
  intact : s.failed = false

theorem store_of_open (h : s.Open) (bytes : ByteArray) :
    s.store bytes = { s with written := s.written ++ bytes } := by
  rw [store, h.unlimited]
  rfl

theorem eq_empty_of_isEmpty {bytes : ByteArray} (blank : bytes.isEmpty = true) :
    bytes = .empty := by
  simpa [ByteArray.isEmpty] using blank

theorem flush_of_open (h : s.Open) :
    s.flush = { s with written := s.contents, buffer := .empty } := by
  obtain ⟨written, buffer, limit, failed, refusal⟩ := s
  obtain ⟨rfl, rfl⟩ := h
  unfold flush
  by_cases blank : buffer.isEmpty = true
  · obtain rfl := eq_empty_of_isEmpty blank
    simp [blank, contents]
  · simp [blank, contents, store]

/-- **What is appended waits or is written, and all of it is.** -/
theorem append_of_open (h : s.Open) (bytes : ByteArray) :
    (s.append bytes).Open ∧ (s.append bytes).contents = s.contents ++ bytes := by
  obtain ⟨written, buffer, limit, failed, refusal⟩ := s
  obtain ⟨rfl, rfl⟩ := h
  unfold append
  simp only [Bool.false_eq_true, if_false]
  split
  · exact ⟨⟨rfl, rfl⟩, ByteArray.append_assoc.symm⟩
  rename_i full
  split
  · rename_i blank
    obtain rfl := eq_empty_of_isEmpty blank
    rw [store_of_open ⟨rfl, rfl⟩]
    refine ⟨⟨rfl, rfl⟩, ?_⟩
    simp only [contents, ByteArray.append_empty]
  · have pieces : bytes.extract 0 (capacity - buffer.size) ++
        bytes.extract (capacity - buffer.size) bytes.size = bytes := by
      rw [ByteArray.extract_append_extract, Nat.zero_min, Nat.max_eq_right (by omega),
        ByteArray.extract_zero_size]
    have filled : Open
        { written, buffer := buffer ++ bytes.extract 0 (capacity - buffer.size)
          refusal } := ⟨rfl, rfl⟩
    simp only [flush_of_open filled, Bool.false_eq_true, if_false]
    split
    · refine ⟨⟨rfl, rfl⟩, ?_⟩
      simp only [contents, ByteArray.append_assoc, pieces]
    · rw [store_of_open ⟨rfl, rfl⟩]
      refine ⟨⟨rfl, rfl⟩, ?_⟩
      simp only [contents, ByteArray.append_assoc, pieces, ByteArray.append_empty]

end Spool

/-! ## The writer -/

/-- The text of lines. -/
def rendering (lines : List Line) : String := String.join (lines.map Line.render)

theorem rendering_snoc (lines : List Line) (l : Line) :
    (rendering (lines ++ [l])).toUTF8 = (rendering lines).toUTF8 ++ l.render.toUTF8 := by
  rw [rendering, List.map_append, String.join_append]
  exact String.toByteArray_append.trans (congrArg _ (by simp))

namespace Writer

/-- A writer over an open file has written lines, all of them. -/
structure Holds (w : Writer) (lines : List Line) : Prop where
  error : w.error = none
  count : w.count = lines.length
  spool : w.spool.Open
  contents : w.spool.contents = (rendering lines).toUTF8

theorem Holds.writeLines {w : Writer} {lines : List Line} (h : w.Holds lines) (new : List Line) :
    (w.writeLines new).Holds (lines ++ new) ∧ (w.writeLines new).numbering = w.numbering := by
  induction new generalizing w lines with
  | nil => exact ⟨(List.append_nil lines).symm ▸ h, rfl⟩
  | cons l new ih =>
      obtain ⟨opened, added⟩ := Spool.append_of_open h.spool l.render.toUTF8
      have next : Holds { w with spool := w.spool.append l.render.toUTF8, count := w.count + 1 }
          (lines ++ [l]) := by
        refine ⟨h.error, ?_, opened, ?_⟩
        · rw [List.length_append, h.count]
          rfl
        · rw [rendering_snoc, ← h.contents]
          exact added
      rw [Writer.writeLines]
      simp only [opened.intact, Bool.false_eq_true, if_false]
      rw [List.append_cons]
      exact ih next

theorem Holds.emit {w : Writer} {lines new : List Line} {n' : Numbering} (h : w.Holds lines)
    {e : Element} {lining : Lining Unit} (same : Lining.element? e = some lining)
    (draws : Lining.Draws w.numbering lining () n' new) :
    (w.emit e).Holds (lines ++ new) ∧ (w.emit e).numbering = n' := by
  have ready : Holds { w with numbering := n' } lines := ⟨h.error, h.count, h.spool, h.contents⟩
  have begun : w.emit e = Writer.writeLines { w with numbering := n' } new := by
    rw [Writer.emit, if_neg (by simp [h.error])]
    simp only [same]
    rw [show lining (w.numbering, []) = _ from draws []]
    rfl
  rw [begun]
  exact ready.writeLines new

/-- A writer that was handed a stream. -/
def emitted (stream : List Element) : Writer := stream.foldl (fun w e => w.emit e) {}

theorem holds_emitted {stream : List Element} (h : Graph.Backward stream) :
    (emitted stream).Holds (dump stream).2 ∧ (emitted stream).numbering = (dump stream).1 := by
  induction stream using List.reverseRecOn with
  | nil => exact ⟨⟨rfl, rfl, ⟨rfl, rfl⟩, rfl⟩, rfl⟩
  | append_singleton stream e ih =>
      obtain ⟨held, same⟩ := ih h.of_append
      obtain ⟨lining, new, n', lines, draws, -⟩ := (dumped h.of_append).lined h
      rw [dump_snoc lines draws, emitted, List.foldl_append]
      exact held.emit lines (same ▸ draws)

end Writer

/-- The file of a writer holds these lines when the writer is closed, and the writer has counted
them and refused nothing. -/
structure Spooled (w : Writer) (lines : List Line) : Prop where
  error : w.close.error = none
  file : w.close.spool.written = (rendering lines).toUTF8
  buffer : w.close.spool.buffer = .empty
  count : w.count = lines.length

/-- **The lines of a stream reach a file that takes everything.** -/
theorem spooled {stream : List Element} (h : Graph.Backward stream) :
    Spooled (Writer.emitted stream) (dump stream).2 := by
  obtain ⟨held, -⟩ := Writer.holds_emitted h
  have closed : (Writer.emitted stream).close = { Writer.emitted stream with
      spool := { (Writer.emitted stream).spool with
        written := (Writer.emitted stream).spool.contents, buffer := .empty } } := by
    rw [Writer.close, if_neg (by simp [held.error]), Spool.flush_of_open held.spool]
    exact if_neg (by simp [held.spool.intact])
  rw [held.contents] at closed
  exact ⟨by rw [closed]; exact held.error, by rw [closed], by rw [closed], held.count⟩

end SymbolAtlas.Lsif
