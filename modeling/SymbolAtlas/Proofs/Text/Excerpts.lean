/-
# SymbolAtlas.Proofs.Text.Excerpts -- what an excerpt of a file depends on

A reader takes the lines of a file one after another (`Reading.run_cons`) and has, after some of
them, the text of those that are wanted (`Reading.foldl_take`).  It stops at the line behind the
last one, and has to read this line to stop there (`Reading.run_raw`).  So an excerpt is decided by
the lines up to its last one and by one more fact: whether the line behind them can be read
(`excerpt_decided`).  Nothing else that follows counts, but that line does, though no part of it is
in the excerpt (`excerpt_refused`).  A definition loses its first line in that way
(`Service.sourceLine_eq`).
-/
import SymbolAtlas.Service.Navigation

set_option autoImplicit false

namespace SymbolAtlas.Text.Lines

/-! ## Lines as they stand in a file -/

/-- Lines in a file, each with the newline that ends it. -/
def terminated (lines : List (List UInt8)) : List UInt8 := lines.flatMap (· ++ [10])

/-- The line with which some bytes begin, if there are any. -/
def upToNewline (bytes : List UInt8) : List UInt8 := bytes.takeWhile (· ≠ 10)

theorem raw_cons {line : List UInt8} (whole : 10 ∉ line) (behind : List UInt8) :
    raw (line ++ 10 :: behind) = line :: raw behind := by
  obtain ⟨part, parts, split⟩ := List.exists_cons_of_ne_nil (List.splitOn_ne_nil 10 behind)
  simp only [raw, List.splitOn_append_cons_self_of_not_mem whole, split, List.getLast?_cons_cons,
    List.dropLast_cons_cons]
  split <;> rfl

theorem raw_terminated_append {lines : List (List UInt8)} (whole : ∀ line ∈ lines, 10 ∉ line)
    (behind : List UInt8) : raw (terminated lines ++ behind) = lines ++ raw behind := by
  induction lines with
  | nil => rfl
  | cons line rest ih =>
      obtain ⟨first, later⟩ := List.forall_mem_cons.1 whole
      have shape : terminated (line :: rest) ++ behind =
          line ++ 10 :: (terminated rest ++ behind) := by
        simp [terminated]
      rw [shape, raw_cons first, ih later, List.cons_append]

theorem upToNewline_append {line : List UInt8} (whole : 10 ∉ line) (behind : List UInt8) :
    upToNewline (line ++ behind) = line ++ upToNewline behind :=
  List.takeWhile_append_of_pos fun b member => by
    simpa using fun same : b = 10 => whole (same ▸ member)

theorem upToNewline_eq_self {line : List UInt8} (whole : 10 ∉ line) : upToNewline line = line := by
  have alone := upToNewline_append whole []
  rwa [List.append_nil, show upToNewline [] = [] from rfl, List.append_nil] at alone

/-- The first line of a file is what stands before the first newline. -/
theorem raw_eq_cons {bytes : List UInt8} (some_ : bytes ≠ []) :
    ∃ more, raw bytes = upToNewline bytes :: more := by
  by_cases newline : 10 ∈ bytes
  · obtain ⟨line, behind, rfl, whole⟩ := List.eq_append_cons_of_mem newline
    refine ⟨raw behind, ?_⟩
    rw [raw_cons whole, upToNewline_append whole]
    simp [upToNewline]
  · refine ⟨[], ?_⟩
    rw [upToNewline_eq_self newline, raw, List.splitOn_eq_singleton newline]
    simp [some_]

/-- A file with so many newlines begins with as many lines that newlines end. -/
theorem exists_terminated {n : Nat} {content : List UInt8} (closed : n ≤ content.count 10) :
    ∃ lines behind, content = terminated lines ++ behind ∧ lines.length = n ∧
      ∀ line ∈ lines, 10 ∉ line := by
  induction n generalizing content with
  | zero => exact ⟨[], content, rfl, rfl, by simp⟩
  | succ n ih =>
      have newline : 10 ∈ content := List.count_pos_iff.1 (by omega)
      obtain ⟨line, rest, rfl, first⟩ := List.eq_append_cons_of_mem newline
      have fewer : n ≤ rest.count 10 := by
        rw [List.count_append, List.count_cons_self, List.count_eq_zero.2 first] at closed
        omega
      obtain ⟨lines, behind, rfl, length, whole⟩ := ih fewer
      exact ⟨line :: lines, behind, by simp [terminated], by simp [length],
        List.forall_mem_cons.2 ⟨first, whole⟩⟩

theorem tooLong_iff {limit : Nat} {line : List UInt8} :
    tooLong limit line = true ↔ limit ≤ line.length := decide_eq_true_iff

/-! ## The text of an excerpt -/

/-- Lines behind their numbers, which count on from the first. -/
def listing (number : Nat) : List (List UInt8) → List UInt8
  | [] => []
  | line :: rest => numbered number line ++ listing (number + 1) rest

theorem listing_ne_nil {lines : List (List UInt8)} (some_ : lines ≠ []) (number : Nat) :
    listing number lines ≠ [] := by
  obtain ⟨line, rest, rfl⟩ := List.exists_cons_of_ne_nil some_
  simp [listing, numbered]

namespace Reading

variable {last : Int} {lines : List (List UInt8)} {r : Reading}

/-! ## A step and a run of the reader -/

@[simp] theorem seen_take (first : Int) (r : Reading) (line : List UInt8) :
    (r.take first line).seen = r.seen + 1 := rfl

theorem run_cons {first : Int} {line : List UInt8} (short : line.length < excerptLimit)
    (before : r.seen < last) (rest : List (List UInt8)) :
    r.run first last (line :: rest) = (r.take first line).run first last rest := by
  rw [run, if_neg (mt tooLong_iff.1 (Nat.not_le.2 short)), if_neg (by omega)]

/-- Up to the last wanted line the reader takes what it reads. -/
theorem run_append {first : Int} (short : ∀ line ∈ lines, line.length < excerptLimit)
    (inside : r.seen + lines.length ≤ last) (more : List (List UInt8)) :
    r.run first last (lines ++ more) =
      (lines.foldl (Reading.take first) r).run first last more := by
  induction lines generalizing r with
  | nil => rfl
  | cons line rest ih =>
      obtain ⟨readable, later⟩ := List.forall_mem_cons.1 short
      rw [List.length_cons] at inside
      rw [List.cons_append, run_cons readable (by omega), List.foldl_cons]
      exact ih later (by rw [seen_take]; omega)

/-- What the reader has after some lines: those from `first` on, behind their numbers. -/
theorem foldl_take (first : Nat) (lines : List (List UInt8)) (r : Reading) :
    lines.foldl (Reading.take first) r =
      { seen := r.seen + lines.length
        text := r.text ++
          listing (max first (r.seen + 1)) (lines.drop (first - (r.seen + 1))) } := by
  induction lines generalizing r with
  | nil => simp [listing]
  | cons line rest ih =>
      rw [List.foldl_cons, ih, seen_take, List.length_cons]
      have count : r.seen + 1 + rest.length = r.seen + (rest.length + 1) := by omega
      by_cases wanted : first ≤ r.seen + 1
      · have text : (r.take first line).text = r.text ++ numbered (r.seen + 1) line :=
          if_pos (by omega)
        rw [text, count, Nat.max_eq_right wanted, Nat.max_eq_right (by omega),
          Nat.sub_eq_zero_of_le wanted, Nat.sub_eq_zero_of_le (by omega), List.drop_zero,
          List.drop_zero, listing, List.append_assoc]
      · have text : (r.take first line).text = r.text := if_neg (by omega)
        rw [text, count, Nat.max_eq_left (by omega), Nat.max_eq_left (by omega),
          show first - (r.seen + 1) = first - (r.seen + 1 + 1) + 1 by omega, List.drop_succ_cons]

/-- Behind the last wanted line the reader reads one line more, if there is one, and keeps its
text unless it cannot. -/
theorem run_raw {first : Int} (done : last ≤ r.seen) (behind : List UInt8) :
    (r.run first last (raw behind)).map text =
      if (upToNewline behind).length < excerptLimit then .ok r.text else .error .lineTooLong := by
  by_cases some_ : behind = []
  · subst some_
    rfl
  · obtain ⟨more, lines⟩ := raw_eq_cons some_
    rw [lines, run]
    by_cases short : (upToNewline behind).length < excerptLimit
    · rw [if_neg (mt tooLong_iff.1 (Nat.not_le.2 short)), if_pos (by omega), if_pos short]
      rfl
    · rw [if_pos (tooLong_iff.2 (Nat.le_of_not_lt short)), if_neg short]
      rfl

end Reading

/-! ## Excerpts -/

variable {lines : List (List UInt8)} {content : List UInt8} {first last : Nat}

/-- What the reader has or fails with is the excerpt, unless it has nothing. -/
theorem excerpt_of_read {bytes : List UInt8} {first last : Int}
    {result : Except ExcerptError (List UInt8)}
    (read : (({} : Reading).run first last (raw bytes)).map Reading.text = result)
    (some_ : result ≠ .ok []) : excerpt bytes first last = result := by
  unfold excerpt
  subst read
  cases run : ({} : Reading).run first last (raw bytes) with
  | error e => rfl
  | ok r =>
      rw [run] at some_
      exact if_neg fun empty => some_ (congrArg Except.ok empty)

/-- The lines from `first` to the last of some lines in a file, whatever follows them. -/
theorem excerpt_terminated_append (whole : ∀ line ∈ lines, 10 ∉ line)
    (short : ∀ line ∈ lines, line.length < excerptLimit) (from_one : 1 ≤ first)
    (inside : first ≤ lines.length) (behind : List UInt8) :
    excerpt (terminated lines ++ behind) first lines.length =
      if (upToNewline behind).length < excerptLimit then
        .ok (listing first (lines.drop (first - 1)))
      else .error .lineTooLong := by
  apply excerpt_of_read
  · rw [raw_terminated_append whole, Reading.run_append short (by simp), Reading.foldl_take,
      Reading.run_raw (by simp)]
    simp [Nat.max_eq_left from_one]
  · have some_ : lines.drop (first - 1) ≠ [] := by
      rw [ne_eq, List.drop_eq_nil_iff]
      omega
    split
    · exact fun same => listing_ne_nil some_ first (Except.ok.inj same)
    · exact nofun

/-- **An excerpt is decided by its lines and by whether the line behind them can be read.**  Where
a newline ends line `last` of a file, and the lines up to it are short enough to be read, the
excerpt holds exactly the lines `first` to `last` behind their numbers, whatever bytes follow line
`last`, if the first line of these is short enough too.  If it is not, there is no excerpt. -/
theorem excerpt_decided (from_one : 1 ≤ first) (ordered : first ≤ last)
    (closed : last ≤ content.count 10)
    (short : ∀ line ∈ (raw content).take last, line.length < excerptLimit) :
    terminated ((raw content).take last) <+: content ∧
      ∀ behind, excerpt (terminated ((raw content).take last) ++ behind) first last =
        if (upToNewline behind).length < excerptLimit then
          .ok (listing first (((raw content).take last).drop (first - 1)))
        else .error .lineTooLong := by
  obtain ⟨lines, behind, rfl, rfl, whole⟩ := exists_terminated closed
  rw [raw_terminated_append whole, List.take_left] at short ⊢
  exact ⟨List.prefix_append _ _, excerpt_terminated_append whole short from_one ordered⟩

/-- Three lines, with a byte that begins no character, a line break of two bytes and a letter of two
bytes. -/
def threeLines : List UInt8 := [97, 10, 0xFF, 13, 10, 0xC3, 0xA9, 10]

/-- The second and the third of them, their bytes as they stand there. -/
def lastLines : List UInt8 :=
  "   2 | ".toUTF8.data.toList ++ [0xFF, 10] ++ "   3 | é\n".toUTF8.data.toList

theorem length_upToNewline_replicate (n : Nat) :
    (upToNewline (List.replicate n 120)).length = n := by
  have whole : (10 : UInt8) ∉ List.replicate n 120 := by simp [List.mem_replicate]
  rw [upToNewline_eq_self whole, List.length_replicate]

/-- The line behind may have any length below the limit, and not the limit itself. -/
theorem excerpt_decided_threeLines :
    1 ≤ 2 ∧ 2 ≤ 3 ∧ 3 ≤ (threeLines ++ [120]).count 10 ∧
      (∀ line ∈ (raw (threeLines ++ [120])).take 3, line.length < excerptLimit) ∧
      excerpt (threeLines ++ [120]) 2 3 = .ok lastLines ∧
      excerpt (threeLines ++ List.replicate (excerptLimit - 1) 120) 2 3 =
        .ok lastLines ∧
      excerpt (threeLines ++ List.replicate excerptLimit 120) 2 3 = .error .lineTooLong := by
  have closed : 3 ≤ (threeLines ++ [120]).count 10 := by decide
  have short : ∀ line ∈ (raw (threeLines ++ [120])).take 3, line.length < excerptLimit := by decide
  obtain ⟨-, decided⟩ :=
    @excerpt_decided (threeLines ++ [120]) 2 3 (by decide) (by decide) closed short
  have head : terminated ((raw (threeLines ++ [120])).take 3) = threeLines := by decide
  have text : listing 2 (((raw (threeLines ++ [120])).take 3).drop 1) = lastLines := by
    decide +kernel
  rw [head, text] at decided
  refine ⟨by decide, by decide, closed, short, (decided _).trans (if_pos (by decide)),
    (decided _).trans (if_pos ?_), (decided _).trans (if_neg ?_)⟩
  · rw [length_upToNewline_replicate]
    decide
  · rw [length_upToNewline_replicate]
    decide

/-- A short line, and one behind it that cannot be read. -/
def unreadableBehind : List UInt8 := terminated [[97]] ++ List.replicate excerptLimit 120

/-- **What stands behind an excerpt can refuse it.** -/
theorem excerpt_refused :
    1 ≤ unreadableBehind.count 10 ∧
      (∀ line ∈ (raw unreadableBehind).take 1, line.length < excerptLimit) ∧
      excerpt (terminated [[97]]) 1 1 = .ok "   1 | a\n".toUTF8.data.toList ∧
      excerpt unreadableBehind 1 1 = .error .lineTooLong := by
  have whole : ∀ line ∈ [([97] : List UInt8)], 10 ∉ line := by decide
  have short : ∀ line ∈ [([97] : List UInt8)], line.length < excerptLimit := by decide
  have decided := @excerpt_terminated_append [[97]] 1 whole short (by decide) (by decide)
  have text : listing 1 ([([97] : List UInt8)].drop 0) =
      "   1 | a\n".toUTF8.data.toList := by
    decide +kernel
  rw [text] at decided
  refine ⟨?_, ?_, (decided []).trans (if_pos (by decide)), (decided _).trans (if_neg ?_)⟩
  · rw [unreadableBehind, List.count_append]
    exact Nat.le_add_right_of_le (by decide)
  · rw [unreadableBehind, raw_terminated_append whole]
    simpa using short
  · rw [length_upToNewline_replicate]
    decide

end SymbolAtlas.Text.Lines

namespace SymbolAtlas.Service

open Text Text.Lines
open Store (Place)

/-! ## The first line of a definition -/

/-- The file of a place, from the root of its project. -/
def sourcePath (s : Store) (p : Place) : String :=
  if Path.isRooted p.path then p.path
  else Path.join [((s.project p.project).toOption.map (·.rootPath)).getD "", p.path]

/-- **A definition is shown with its first line if the line behind it can be read too**, and
without any line if it cannot. -/
theorem sourceLine_eq {files : FileTree} {s : Store} {p : Place} {before : List (List UInt8)}
    {line behind : List UInt8}
    (read : files.readBytes? (sourcePath s p) = some (terminated (before ++ [line]) ++ behind))
    (place : p.span.start.line = before.length) (whole : ∀ l ∈ before ++ [line], 10 ∉ l)
    (short : ∀ l ∈ before ++ [line], l.length < excerptLimit) :
    sourceLine files s p =
      if (upToNewline behind).length < excerptLimit then numbered (before.length + 1) line
      else [] := by
  have count : (before ++ [line]).length = before.length + 1 := List.length_append
  have last : before.length + 1 ≤ (before ++ [line]).length := Nat.le_of_eq count.symm
  have text := excerpt_terminated_append whole short (Nat.succ_pos before.length) last behind
  rw [Nat.succ_sub_one, List.drop_left, count] at text
  unfold sourcePath at read
  unfold sourceLine
  dsimp only
  rw [read, Option.map_some, place, ← Int.natCast_succ, text]
  by_cases readable : (upToNewline behind).length < excerptLimit
  · rw [if_pos readable, if_pos readable]
    exact List.append_nil _
  · rw [if_neg readable, if_neg readable]

end SymbolAtlas.Service
