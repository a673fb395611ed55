/-
# SymbolAtlas.Proofs.Store.Chains -- how far links between symbols are followed

A symbol that says nothing of itself may stand for another.  Definitions are looked up at the first
eight symbols of the chain that begins with it (`definitionsWithin_eq`), a hover at the first nine
(`hover_hoverSource`): the one search asks a symbol before it counts a link, the other counts the
link first.  Both come to an end wherever the links lead.

So a symbol at the end of a chain of `k` links (`Leads`) gives its definitions if `k` is below
eight, and its hover if `k` is at most eight (`alias_answers`).  At the end of eight links its
hover is shown and its definitions are not found (`definitionsAt_of_eight_links`).
-/
import SymbolAtlas.Proofs.Store.Innermost

set_option autoImplicit false

namespace SymbolAtlas.Store

open Text (Position)

namespace Database

variable {db : Database} {k n : Nat} {s t : SymbolRow}

/-! ## What is asked -/

/-- The definitions of a symbol itself. -/
def ownDefinitions (db : Database) (s : SymbolRow) : List Place :=
  db.itemPlaces s.id ["definitions"]

theorem definitionsWithin_succ (db : Database) (n : Nat) (s : SymbolRow) :
    db.definitionsWithin (n + 1) s = match s.aliasOf.bind db.symbol? with
      | some target =>
          if (db.ownDefinitions s).isEmpty then db.definitionsWithin n target
          else db.ownDefinitions s
      | none => db.ownDefinitions s := rfl

/-- A symbol and those that links lead to from it, up to so many symbols. -/
def chain (db : Database) : Nat → SymbolRow → List SymbolRow
  | 0, _ => []
  | n + 1, s =>
      s :: match s.aliasOf.bind db.symbol? with
        | some target => db.chain n target
        | none => []

theorem length_chain_le (db : Database) (n : Nat) (s : SymbolRow) :
    (db.chain n s).length ≤ n := by
  induction n generalizing s with
  | zero => exact Nat.le_refl 0
  | succ n ih =>
      rw [chain, List.length_cons]
      split
      · exact Nat.succ_le_succ (ih _)
      · exact Nat.succ_le_succ (Nat.zero_le n)

/-- **Definitions are those of the first symbol of the chain that has some.** -/
theorem definitionsWithin_eq (db : Database) (n : Nat) (s : SymbolRow) :
    db.definitionsWithin n s =
      (((db.chain n s).map db.ownDefinitions).find? fun places => !places.isEmpty).getD [] := by
  induction n generalizing s with
  | zero => rfl
  | succ n ih =>
      rw [definitionsWithin_succ, chain, List.map_cons, List.find?_cons]
      cases s.aliasOf.bind db.symbol? with
      | none => cases db.ownDefinitions s <;> rfl
      | some target =>
          cases db.ownDefinitions s with
          | nil => exact ih target
          | cons place places => rfl

/-- **A hover is that of the first symbol of the chain that has one**, and a symbol more is asked
than links are followed. -/
theorem hover_hoverSource (db : Database) (n : Nat) (s : SymbolRow) :
    (db.hoverSource n s).hover =
      (((db.chain (n + 1) s).map (·.hover)).find? (· ≠ "")).getD "" := by
  induction n generalizing s with
  | zero =>
      rw [hoverSource, chain, List.map_cons, List.find?_cons]
      by_cases own : s.hover = ""
      · cases s.aliasOf.bind db.symbol? <;> simp [own, chain]
      · simp [own]
  | succ n ih =>
      rw [hoverSource, chain, List.map_cons, List.find?_cons]
      by_cases own : s.hover = ""
      · cases s.aliasOf.bind db.symbol? with
        | none => simp [own]
        | some target => simpa [own] using ih target
      · simp [own]

/-! ## Chains of links -/

/-- A symbol that has neither definitions nor a hover of its own. -/
structure Mute (db : Database) (s : SymbolRow) : Prop where
  definitions : db.ownDefinitions s = []
  hover : s.hover = ""

/-- So many links lead from a symbol to another, from mute ones all of them. -/
inductive Leads (db : Database) : Nat → SymbolRow → SymbolRow → Prop where
  | here (s : SymbolRow) : Leads db 0 s s
  | link {k : Nat} {s next last : SymbolRow} (mute : db.Mute s)
      (linked : s.aliasOf.bind db.symbol? = some next) (onward : Leads db k next last) :
      Leads db (k + 1) s last

namespace Leads

variable {u : SymbolRow} {j : Nat}

theorem trans (first : db.Leads j s t) (second : db.Leads k t u) : db.Leads (j + k) s u := by
  induction first with
  | here => rwa [Nat.zero_add]
  | link mute linked _ ih =>
      rw [Nat.add_right_comm]
      exact .link mute linked (ih second)

theorem take (h : db.Leads k s t) (within : n ≤ k) : ∃ m, db.Leads n s m := by
  induction h generalizing n with
  | here s =>
      obtain rfl := Nat.le_zero.1 within
      exact ⟨s, .here s⟩
  | @link k s next last mute linked onward ih =>
      cases n with
      | zero => exact ⟨s, .here s⟩
      | succ n =>
          obtain ⟨m, rest⟩ := ih (Nat.le_of_succ_le_succ within)
          exact ⟨m, .link mute linked rest⟩

/-- Links that lead back lead on for ever. -/
theorem around (h : db.Leads (k + 1) s s) (n : Nat) : ∃ m, db.Leads n s m := by
  have rounds : db.Leads (n * (k + 1)) s s := by
    induction n with
    | zero =>
        rw [Nat.zero_mul]
        exact .here s
    | succ n ih =>
        rw [Nat.succ_mul]
        exact ih.trans h
  exact rounds.take (Nat.le_mul_of_pos_right n (Nat.succ_pos k))

/-! ### Definitions and hover at the end of a chain -/

theorem definitions_of_lt (h : db.Leads k s t) (own : db.ownDefinitions t ≠ []) (near : k < n) :
    db.definitionsWithin n s = db.ownDefinitions t := by
  induction h generalizing n with
  | here s =>
      obtain ⟨n, rfl⟩ := Nat.exists_eq_succ_of_ne_zero (Nat.ne_of_gt near)
      rw [definitionsWithin_succ]
      split
      · rw [if_neg (by simpa using own)]
      · rfl
  | link mute linked _ ih =>
      obtain ⟨n, rfl⟩ := Nat.exists_eq_succ_of_ne_zero (Nat.ne_zero_of_lt near)
      rw [definitionsWithin_succ, linked]
      simp only [mute.definitions, List.isEmpty_nil, if_true]
      exact ih own (Nat.lt_of_succ_lt_succ near)

theorem definitions_of_le (h : db.Leads k s t) (far : n ≤ k) : db.definitionsWithin n s = [] := by
  induction h generalizing n with
  | here s =>
      obtain rfl := Nat.le_zero.1 far
      rfl
  | link mute linked _ ih =>
      cases n with
      | zero => rfl
      | succ n =>
          rw [definitionsWithin_succ, linked]
          simp only [mute.definitions, List.isEmpty_nil, if_true]
          exact ih (Nat.le_of_succ_le_succ far)

theorem hoverSource_of_le (h : db.Leads k s t) (own : t.hover ≠ "") (near : k ≤ n) :
    db.hoverSource n s = t := by
  induction h generalizing n with
  | here s =>
      cases n with
      | zero => rfl
      | succ n => rw [hoverSource, if_pos own]
  | link mute linked _ ih =>
      obtain ⟨n, rfl⟩ := Nat.exists_eq_succ_of_ne_zero (Nat.ne_zero_of_lt near)
      rw [hoverSource, if_neg (not_not.2 mute.hover), linked]
      exact ih own (Nat.le_of_succ_le_succ near)

theorem hover_of_lt (h : db.Leads k s t) (far : n < k) : (db.hoverSource n s).hover = "" := by
  induction h generalizing n with
  | here => exact absurd far (Nat.not_lt_zero n)
  | link mute linked _ ih =>
      cases n with
      | zero => exact mute.hover
      | succ n =>
          rw [hoverSource, if_neg (not_not.2 mute.hover), linked]
          exact ih (Nat.lt_of_succ_lt_succ far)

end Leads
end Database

/-! ## Answers at a position -/

section Answers

variable {s : Store} {project path : String} {p : Position} {first last : SymbolRow} {k : Nat}

theorem definitionsAt_of_symbolAt (found : s.symbolAt project path p = .ok first) :
    s.definitionsAt project path p =
      .ok (s.database.definitionsWithin Database.aliasHops first) := by
  rw [definitionsAt, found]
  rfl

theorem hoverAt_of_symbolAt (found : s.symbolAt project path p = .ok first) :
    s.hoverAt project path p =
      let source := s.database.hoverSource Database.aliasHops first
      if source.hover = "" then .error (.notFound ("hover for " ++ source.name))
      else .ok source.hover := by
  rw [hoverAt, found]
  simp only [bind, Except.bind]
  split <;> rfl

/-- What the end of a chain says is given as definitions where the chain has fewer links than are
followed. -/
theorem definitionsAt_iff (found : s.symbolAt project path p = .ok first)
    (leads : s.database.Leads k first last) (own : s.database.ownDefinitions last ≠ []) :
    s.definitionsAt project path p = .ok (s.database.ownDefinitions last) ↔
      k < Database.aliasHops := by
  rw [definitionsAt_of_symbolAt found, Except.ok.injEq]
  constructor
  · intro given
    by_contra far
    rw [leads.definitions_of_le (Nat.not_lt.1 far)] at given
    exact own given.symm
  · exact leads.definitions_of_lt own

/-- It is shown as a hover where the chain has no more of them. -/
theorem hoverAt_iff (found : s.symbolAt project path p = .ok first)
    (leads : s.database.Leads k first last) (own : last.hover ≠ "") :
    s.hoverAt project path p = .ok last.hover ↔ k ≤ Database.aliasHops := by
  rw [hoverAt_of_symbolAt found]
  constructor
  · intro shown
    by_contra far
    simp only [leads.hover_of_lt (Nat.not_le.1 far)] at shown
    cases shown
  · intro near
    simp only [leads.hoverSource_of_le own near, if_neg own]

end Answers

/-- **How far links are followed.**  For the symbol at a position of any store:

* its definitions are those of the first symbol of its chain that has some, among eight at most;
* its hover is that of the first that has one, among nine at most, and none is found if none has;
* where `k` links lead over mute symbols to one with definitions and a hover, its definitions are
  given exactly for `k < 8` and its hover is shown exactly for `k ≤ 8`, so that the two searches
  come to the same end exactly for `k ≠ 8`;
* and where the links run into a cycle of mute symbols, both end with nothing. -/
theorem alias_answers {s : Store} {project path : String} {p : Position} {first : SymbolRow}
    (found : s.symbolAt project path p = .ok first) :
    ((s.database.chain 8 first).length ≤ 8 ∧ s.definitionsAt project path p =
      .ok ((((s.database.chain 8 first).map s.database.ownDefinitions).find?
        fun places => !places.isEmpty).getD [])) ∧
    ((s.database.chain 9 first).length ≤ 9 ∧ ∃ name, s.hoverAt project path p =
      match ((s.database.chain 9 first).map (·.hover)).find? (· ≠ "") with
      | some hover => .ok hover
      | none => .error (.notFound ("hover for " ++ name))) ∧
    (∀ k last, s.database.Leads k first last → s.database.ownDefinitions last ≠ [] →
      last.hover ≠ "" →
      (s.definitionsAt project path p = .ok (s.database.ownDefinitions last) ↔ k < 8) ∧
      (s.hoverAt project path p = .ok last.hover ↔ k ≤ 8) ∧
      ((s.definitionsAt project path p = .ok (s.database.ownDefinitions last) ↔
        s.hoverAt project path p = .ok last.hover) ↔ k ≠ 8)) ∧
    ∀ j k last, s.database.Leads j first last → s.database.Leads (k + 1) last last →
      s.definitionsAt project path p = .ok [] ∧
      ∃ name, s.hoverAt project path p = .error (.notFound ("hover for " ++ name)) := by
  refine ⟨⟨Database.length_chain_le _ _ _, ?_⟩, ⟨Database.length_chain_le _ _ _, ?_⟩,
    fun k last leads own shown => ?_, fun j k last leads cycle => ?_⟩
  · rw [definitionsAt_of_symbolAt found, Database.definitionsWithin_eq]
    rfl
  · refine ⟨(s.database.hoverSource Database.aliasHops first).name, ?_⟩
    have hover := s.database.hover_hoverSource Database.aliasHops first
    rw [hoverAt_of_symbolAt found]
    simp only [hover]
    cases asked : ((s.database.chain 9 first).map (·.hover)).find? (· ≠ "") with
    | none =>
        rw [show Database.aliasHops + 1 = 9 from rfl, asked]
        rfl
    | some text =>
        rw [show Database.aliasHops + 1 = 9 from rfl, asked]
        exact if_neg (by simpa using List.find?_some asked)
  · have given := definitionsAt_iff found leads own
    have seen := hoverAt_iff found leads shown
    refine ⟨given, seen, ?_⟩
    rw [given, seen]
    show (k < 8 ↔ k ≤ 8) ↔ k ≠ 8
    omega
  · obtain ⟨end_, round⟩ := cycle.around (Database.aliasHops + 1)
    have far := leads.trans round
    rw [definitionsAt_of_symbolAt found, hoverAt_of_symbolAt found,
      far.definitions_of_le (by omega)]
    simp only [far.hover_of_lt (n := Database.aliasHops) (by omega), if_true]
    exact ⟨trivial, _, rfl⟩

/-! ### Eight links and a cycle -/

/-- Nine symbols, each of which stands for the next; the last has a definition and a hover.  Two
more stand for each other.  The first two and one of the pair are mentioned on lines of their
own. -/
def chainedElements : List Graph.Element :=
  [⟨1, .document { uri := "file:///repo/a.go", path := "a.go" }⟩] ++
  (List.range 11).map (fun i => ⟨10 + i, .resultSet {}⟩) ++
  (List.range 8).map (fun i => ⟨30 + i, .next (10 + i) (11 + i)⟩) ++
  [⟨40, .next 19 20⟩, ⟨41, .next 20 19⟩, ⟨50, .hover "the last"⟩, ⟨51, .hoverEdge 18 50⟩] ++
  [((0 : Int), (10 : Int)), (1, 11), (2, 19), (3, 18)].map (fun (line, symbol) => ⟨60 + line,
    .range { document := 1, resultSet := symbol, span := ⟨⟨line, 0⟩, ⟨line, 2⟩⟩ }⟩) ++
  [⟨70, .item { outV := 18, inVs := [63], document := 1, property := .definitions }⟩]

def chained : Store where
  database := (Database.written {} { name := "p" } chainedElements).flush.database

theorem chained_reached : chained.database.Reached := by
  have indexed (elements : List Graph.Element) :
      (Database.written {} { name := "p" } elements).flush.database.Reached := .indexed .empty _ _
  exact indexed chainedElements

/-- The rows of these symbols: all but the ninth are mute, and each of those is linked. -/
theorem symbols_chained :
    (∀ s ∈ chained.database.symbols, s.id ≠ 9 → s.hover = "" ∧
      (∀ i ∈ chained.database.items, i.symbol ≠ s.id) ∧
      (s.aliasOf.bind chained.database.symbol?).any fun t =>
        t.id = if s.id = 11 then 10 else s.id + 1) ∧
    (∀ s ∈ chained.database.symbols, s.id = 9 → s.hover ≠ "") ∧
    ∃ i ∈ chained.database.items, (i.symbol = 9 ∧ i.property ∈ ["definitions"]) ∧
      ((chained.database.range? i.range).bind chained.database.place?).isSome := by
  decide +kernel

theorem covering_chained :
    [((0 : Int), 1), (1, 2), (2, 10)].all (fun (line, symbol) =>
      let ranges := chained.database.covering "p" "a.go" ⟨line, 0⟩
      !ranges.isEmpty && ranges.all (·.symbol = symbol)) = true := by
  decide +kernel

theorem symbolAt_chained (line : Int) (id : RowId)
    (listed : (line, id) ∈ [((0 : Int), 1), (1, 2), (2, 10)]) :
    ∃ row ∈ chained.database.symbols, row.id = id ∧
      chained.symbolAt "p" "a.go" ⟨line, 0⟩ = .ok row := by
  have here := List.all_eq_true.1 covering_chained _ listed
  simp only [Bool.and_eq_true, Bool.not_eq_true', List.all_eq_true, decide_eq_true_eq] at here
  obtain ⟨some_, alone⟩ := here
  obtain ⟨r, covers⟩ := List.exists_mem_of_ne_nil _ (List.isEmpty_eq_false_iff.1 some_)
  obtain ⟨first, member, row, stands, number, known, -⟩ :=
    Database.symbolAt?_of_covering chained_reached.sound chained_reached.closed covers
  refine ⟨row, stands, number.trans (alone first member), ?_⟩
  rw [symbolAt_eq, ask, if_pos (show chained.isOpen = true from rfl)]
  simp only [Except.bind, known]

theorem link_chained {s : SymbolRow} (member : s ∈ chained.database.symbols) (other : s.id ≠ 9) :
    chained.database.Mute s ∧ ∃ next ∈ chained.database.symbols,
      s.aliasOf.bind chained.database.symbol? = some next ∧
      next.id = if s.id = 11 then 10 else s.id + 1 := by
  obtain ⟨bare, unlisted, linked⟩ := symbols_chained.1 s member other
  obtain ⟨next, found, number⟩ := (Option.any_eq_true _ _).1 linked
  refine ⟨⟨List.eq_nil_iff_forall_not_mem.2 fun place listed => ?_, bare⟩, next, ?_, found,
    of_decide_eq_true number⟩
  · obtain ⟨i, stands, ⟨owner, -⟩, -⟩ := Database.mem_itemPlaces_iff.1 listed
    exact unlisted i stands owner
  · obtain ⟨id, -, here⟩ := Option.bind_eq_some_iff.1 found
    exact Array.mem_of_find?_eq_some here

/-- Links lead on to the ninth symbol. -/
theorem leads_chained {k : Nat} {s : SymbolRow} (member : s ∈ chained.database.symbols)
    (near : k + s.id = 9) : ∃ last ∈ chained.database.symbols, last.id = 9 ∧
      chained.database.Leads k s last := by
  induction k generalizing s with
  | zero => exact ⟨s, member, (Nat.zero_add s.id).symm.trans near, .here s⟩
  | succ k ih =>
      have before {n : Nat} (far : 9 ≤ n) : s.id ≠ n := by
        rintro rfl
        omega
      obtain ⟨mute, next, stands, linked, number⟩ := link_chained member (before (Nat.le_refl 9))
      rw [if_neg (before (by decide))] at number
      obtain ⟨last, there, ninth, onward⟩ := ih stands (by rw [number]; omega)
      exact ⟨last, there, ninth, .link mute linked onward⟩

theorem own_chained {last : SymbolRow} (member : last ∈ chained.database.symbols)
    (ninth : last.id = 9) : chained.database.ownDefinitions last ≠ [] ∧ last.hover ≠ "" := by
  obtain ⟨-, shown, i, stands, owner, placed⟩ := symbols_chained
  obtain ⟨place, here⟩ := Option.isSome_iff_exists.1 placed
  refine ⟨List.ne_nil_of_mem (Database.mem_itemPlaces_iff.2 ⟨i, stands, ?_, here⟩),
    shown last member ninth⟩
  exact ⟨owner.1.trans ninth.symm, owner.2⟩

/-- The pair leads around. -/
theorem around_chained {s : SymbolRow} (member : s ∈ chained.database.symbols) (tenth : s.id = 10) :
    chained.database.Leads 2 s s := by
  obtain ⟨mute, next, stands, linked, number⟩ := link_chained member (by rw [tenth]; decide)
  rw [tenth, if_neg (by decide)] at number
  obtain ⟨mute', back, there, linked', number'⟩ := link_chained stands (by rw [number]; decide)
  rw [number, if_pos rfl] at number'
  obtain rfl : back = s := List.inj_on_of_nodup_map chained_reached.sound.symbols.once
    (Array.mem_toList_iff.2 there) (Array.mem_toList_iff.2 member) (number'.trans tenth.symm)
  exact .link mute linked (.link mute' linked' (.here _))

theorem alias_answers_chained :
    (∃ first last, chained.symbolAt "p" "a.go" ⟨1, 0⟩ = .ok first ∧
      chained.database.Leads 7 first last ∧ chained.database.ownDefinitions last ≠ [] ∧
      last.hover ≠ "" ∧
      chained.definitionsAt "p" "a.go" ⟨1, 0⟩ = .ok (chained.database.ownDefinitions last) ∧
      chained.hoverAt "p" "a.go" ⟨1, 0⟩ = .ok last.hover) ∧
    ∃ first, chained.symbolAt "p" "a.go" ⟨2, 0⟩ = .ok first ∧
      chained.database.Leads 2 first first ∧
      chained.definitionsAt "p" "a.go" ⟨2, 0⟩ = .ok [] ∧
      ∃ name, chained.hoverAt "p" "a.go" ⟨2, 0⟩ = .error (.notFound ("hover for " ++ name)) := by
  obtain ⟨second, member, number, found⟩ := symbolAt_chained 1 2 (by decide)
  obtain ⟨last, there, ninth, leads⟩ := leads_chained (k := 7) member (by rw [number])
  obtain ⟨own, shown⟩ := own_chained there ninth
  obtain ⟨-, -, ends, -⟩ := alias_answers found
  obtain ⟨given, seen, -⟩ := ends 7 last leads own shown
  obtain ⟨round, member', number', found'⟩ := symbolAt_chained 2 10 (by decide)
  have cycle := around_chained member' number'
  obtain ⟨-, -, -, cycles⟩ := alias_answers found'
  exact ⟨⟨second, last, found, leads, own, shown, given.2 (by decide), seen.2 (by decide)⟩,
    round, found', cycle, cycles 0 1 round (.here round) cycle⟩

/-- **At the end of eight links a hover is shown and no definition is found.** -/
theorem definitionsAt_of_eight_links :
    ∃ first last, chained.database.Reached ∧
      chained.symbolAt "p" "a.go" ⟨0, 0⟩ = .ok first ∧ chained.database.Leads 8 first last ∧
      chained.database.ownDefinitions last ≠ [] ∧ last.hover ≠ "" ∧
      chained.hoverAt "p" "a.go" ⟨0, 0⟩ = .ok last.hover ∧
      chained.definitionsAt "p" "a.go" ⟨0, 0⟩ ≠ .ok (chained.database.ownDefinitions last) := by
  obtain ⟨first, member, number, found⟩ := symbolAt_chained 0 1 (by decide)
  obtain ⟨last, there, ninth, leads⟩ := leads_chained (k := 8) member (by rw [number])
  obtain ⟨own, shown⟩ := own_chained there ninth
  exact ⟨first, last, chained_reached, found, leads, own, shown,
    (hoverAt_iff found leads shown).2 (by decide),
    fun given => absurd ((definitionsAt_iff found leads own).1 given) (by decide)⟩

end SymbolAtlas.Store
