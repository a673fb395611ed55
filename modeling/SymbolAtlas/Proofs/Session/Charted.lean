/-
# SymbolAtlas.Proofs.Session.Charted -- ranges where identifiers were seen

Where several identifiers stand at one place, a definition is recorded there once, so the
document of a file need not hold a range for each of them.  It holds no others, though, and
each identifier that denotes a symbol finds one that shows it: its own, or the definition that is
on record where it stands (`State.Charted`, `charted_run`).
-/
import SymbolAtlas.Proofs.Session.Collected
import SymbolAtlas.Proofs.Session.Ranges

set_option autoImplicit false

namespace SymbolAtlas.Session

open SymbolAtlas.Graph (Id Element)

variable {μ ω : Type} {c : Context μ ω} {view : ω → List Element} {start : μ} {seen : List Site}

/-- The ranges of the files of a run are those of identifiers that were seen, and each of these
that denotes a symbol has one. -/
structure State.Charted (c : Context μ ω) (view : ω → List Element) (shown : List Sighting)
    (s : State μ ω) : Prop where
  sighted : ∀ path ∈ s.traversal, ∀ entry ∈ s.rangesAt view path,
    ∃ x ∈ shown, x.path = path ∧ x.Shows c s entry.2
  ranged : ∀ x ∈ shown, x.symbol.isSome = true →
    ∃ entry ∈ s.rangesAt view x.path, x.Shows c s entry.2

namespace State.Charted

variable {shown : List Sighting} {s s' : State μ ω}

/-- Between two identifiers no file gets a range. -/
theorem silent (records : c.sink.Records view) (h : s.Charted c view shown) (steps : Steps c s s')
    (silent : s.Silent s') (stays : ∀ x ∈ shown, ∀ r, x.Shows c s r → x.Shows c s' r)
    (filed : s.Filed view) (ok : s'.failure = none) : s'.Charted c view shown := by
  refine ⟨fun path visited entry member => ?_, fun x member denotes => ?_⟩
  · rw [steps.settled.1] at visited
    rw [rangesAt_still records steps filed ok (silent.filed path visited)] at member
    obtain ⟨x, seen, own, shows⟩ := h.sighted path visited entry member
    exact ⟨x, seen, own, stays x seen _ shows⟩
  · obtain ⟨entry, old, shows⟩ := h.ranged x member denotes
    obtain ⟨more, grown⟩ := rangesAt_grow records steps filed ok x.path
    exact ⟨entry, grown ▸ List.mem_append_left _ old, stays x member _ shows⟩

/-- An identifier that finds a range that shows it adds nothing. -/
theorem known (h : s.Charted c view shown) {x : Sighting}
    (found : x.symbol.isSome = true → ∃ entry ∈ s.rangesAt view x.path, x.Shows c s entry.2) :
    s.Charted c view (shown ++ [x]) := by
  refine ⟨fun path visited entry member => ?_, fun y member denotes => ?_⟩
  · obtain ⟨y, seen, rest⟩ := h.sighted path visited entry member
    exact ⟨y, List.mem_append_left _ seen, rest⟩
  · rcases List.mem_append.1 member with old | new
    · exact h.ranged y old denotes
    · obtain rfl := List.mem_singleton.1 new
      exact found denotes

/-- An identifier that is recorded adds its own range. -/
theorem filing (records : c.sink.Records view) (h : s.Charted c view shown) {x : Sighting}
    {r : Graph.Range} (steps : Steps c s s') (filing : s.Filing c s' x.path r)
    (here : x.Shows c s r) (stays : ∀ y ∈ shown ++ [x], ∀ r, y.Shows c s r → y.Shows c s' r)
    (filed : s.Filed view) (ok : s'.failure = none) : s'.Charted c view (shown ++ [x]) := by
  have new : x ∈ shown ++ [x] := List.mem_append_right _ List.mem_cons_self
  refine ⟨fun path visited entry member => ?_, fun y member denotes => ?_⟩
  · rw [steps.settled.1] at visited
    have before : entry ∈ s.rangesAt view path →
        ∃ y ∈ shown ++ [x], y.path = path ∧ y.Shows c s' entry.2 := by
      intro old
      obtain ⟨y, seen, own, shows⟩ := h.sighted path visited entry old
      have member : y ∈ shown ++ [x] := List.mem_append_left _ seen
      exact ⟨y, member, own, stays y member _ shows⟩
    by_cases own : x.path = path
    · subst own
      rw [filing.rangesAt records ok] at member
      rcases List.mem_append.1 member with old | last
      · exact before old
      · obtain rfl := List.mem_singleton.1 last
        exact ⟨x, new, rfl, stays x new _ here⟩
    · have still : filedIn s'.documents path = filedIn s.documents path := by
        obtain ⟨d, symbols, f, -, -, -, rfl⟩ := filing
        exact filedIn_modify_of_ne _ _ own
      rw [rangesAt_still records steps filed ok still] at member
      exact before member
  · rcases List.mem_append.1 member with old | last
    · obtain ⟨entry, inside, shows⟩ := h.ranged y old denotes
      obtain ⟨more, grown⟩ := rangesAt_grow records steps filed ok y.path
      exact ⟨entry, grown ▸ List.mem_append_left _ inside, stays y member _ shows⟩
    · obtain rfl := List.mem_singleton.1 last
      rw [filing.rangesAt records ok]
      exact ⟨_, List.mem_append_right _ List.mem_cons_self, stays y member _ here⟩

end State.Charted

/-- The definition that is on record at a place is a range there. -/
theorem SymbolNode.Attested.entry {s : State μ ω} {n : SymbolNode}
    (h : n.Attested (view s.output) s.documents) {site : Site} (member : site ∈ n.recorded) :
    ∃ entry ∈ s.rangesAt view site.file, entry.2.span = site.span ∧
      entry.2.resultSet = n.resultSet ∧ entry.2.role = .definition := by
  obtain ⟨i, bound, rfl⟩ := List.getElem_of_mem (List.mem_reverse.2 member)
  have bound' := h.ranges.length_eq ▸ bound
  obtain ⟨span, d, document, home⟩ := h.ranges.get bound bound'
  obtain ⟨role, owner, id, range⟩ := Graph.mem_definitionsOf.1 (List.getElem_mem bound')
  have document : s.documents.get? n.recorded.reverse[i].file = some d := document
  refine ⟨(id, _), ?_, span, owner, role⟩
  rw [State.rangesAt, document]
  exact Graph.mem_rangesIn.2 ⟨home, range⟩

/-- **An identifier of a file is charted when it is recorded**: by a range of its own, or by the
definition that is on record at its place. -/
theorem Recorded.charted (records : c.sink.Records view) (anchored : c.oracle.Anchored start)
    {shown : List Sighting} {path : String} {n : Node} {sym : Symbol} {file : Tree}
    {s s' : State μ ω} (recorded : Recorded c path sym.key n s s')
    (indexed : file ∈ c.oracle.files) (own : n ∈ file.nodes) (home : path = file.root.file)
    (inside : ∀ x ∈ shown, ∃ file ∈ c.oracle.files, x.name ∈ file.nodes)
    (rooted : s.Rooted c start seen) (noted : s.Noted c) (filed : s.Filed view)
    (attested : s.Attested view) (ok : s'.failure = none) (h : s.Charted c view shown) :
    s'.Charted c view (shown ++ [⟨path, n, some sym⟩]) := by
  obtain ⟨node, here, ⟨definition, old, rfl⟩ | ⟨r, span, owner, role, filing⟩⟩ :=
    recorded.known_or_filing anchored indexed own rooted
  · obtain ⟨entry, member, span, owner, role⟩ := (attested _ node here).entry old
    have path_ : path = (Site.ofNode n).file := home.trans (anchored.tree file indexed n own).2.symm
    refine h.known fun _ => ⟨entry, path_ ▸ member, sym, node, rfl, here, span, owner, ?_⟩
    rw [noted.takes_eq rooted here, decide_eq_true_iff] at definition
    rw [role, if_pos definition]
  · have shows : Sighting.Shows c s ⟨path, n, some sym⟩ r := by
      refine ⟨sym, node, rfl, here, span, owner, ?_⟩
      rw [role, noted.takes_eq rooted here]
      simp
    refine h.filing records recorded.steps filing shows (fun x member r shows => ?_) filed ok
    obtain ⟨file, indexed, inside⟩ : ∃ file ∈ c.oracle.files, x.name ∈ file.nodes := by
      rcases List.mem_append.1 member with seen | last
      · exact inside x seen
      · obtain rfl := List.mem_singleton.1 last
        exact ⟨file, indexed, own⟩
    exact shows.later anchored rooted indexed inside recorded.steps

/-- **Whatever part of its schedule a run has performed**, the ranges of its files are those of
the identifiers that it saw. -/
theorem charted_performed (records : c.sink.Records view) {memory : μ} {output : ω}
    (empty : view output = []) (anchored : c.oracle.Anchored memory) {first rest : List Moment}
    {s : State μ ω} (split : schedule c.oracle.files = first ++ rest)
    (course : Course c first ((State.start c memory output).opened c) s)
    (ok : s.failure = none) :
    s.Charted c view (sightings c first ((State.start c memory output).opened c)) := by
  refine deed_induction anchored (P := fun first s =>
    s.Charted c view (sightings c first ((State.start c memory output).opened c)))
    ⟨fun _ _ _ member => absurd member List.not_mem_nil, fun _ member => absurd member
      List.not_mem_nil⟩ ?_ split course ok
  intro first m rest s s' split course ok deed steps charted
  have ok' := steps.failure_none ok
  obtain ⟨rooted, noted⟩ := marked_performed anchored split course ok'
  have filed := course.filed records empty ok'
  have stays : ∀ {t : State μ ω}, Steps c s t →
      ∀ x ∈ sightings c first ((State.start c memory output).opened c), ∀ r,
        x.Shows c s r → x.Shows c t r := by
    intro t steps x seen r shows
    obtain ⟨file, indexed, inside⟩ := inside_of_mem_sightings split seen
    exact shows.later anchored rooted indexed inside steps
  rw [sightings_snoc course.performs]
  have quiet : m.sighting? c.oracle s.memory = none → s.Silent s' →
      s'.Charted c view (sightings c first ((State.start c memory output).opened c) ++
        (m.sighting? c.oracle s.memory).toList) := by
    intro unsighted silent
    rw [unsighted, Option.toList_none, List.append_nil]
    exact charted.silent records steps silent (stays steps) filed ok
  cases deed with
  | opened fresh => exact quiet rfl ⟨fun other _ => filedIn_insert fresh rfl other, rfl⟩
  | ignored unsighted => exact quiet unsighted (.refl s)
  | left shown foundings => exact quiet rfl foundings.moves.silent
  | closed endings =>
      have turned : s.Silent { s with current := none } := ⟨fun _ _ => rfl, rfl⟩
      exact quiet rfl (turned.trans endings.silent rfl)
  | skipped sighted =>
      rw [sighted]
      refine State.Charted.known ?_ fun denotes => absurd denotes (by simp)
      refine ⟨fun path visited entry member => ?_, fun x member denotes => ?_⟩
      · obtain ⟨x, seen, own, shows⟩ := charted.sighted path visited entry member
        exact ⟨x, seen, own, stays steps x seen _ shows⟩
      · obtain ⟨entry, inside, shows⟩ := charted.ranged x member denotes
        exact ⟨entry, inside, stays steps x member _ shows⟩
  | @recorded path file n sym t _ indexed own home sighted shown foundings recorded =>
      have okT := recorded.steps.failure_none ok
      have stepsT := foundings.moves.steps
      obtain ⟨filedT, -, -⟩ := stepsT.filed records filed okT
      have chartedT :=
        charted.silent records stepsT foundings.moves.silent (stays stepsT) filed okT
      have rootedT := foundings.rooted anchored shown rooted
      have attestedT := foundings.attested records anchored shown filed rooted
        (attested_performed records empty anchored split course ok') okT
      rw [sighted]
      exact recorded.charted records anchored indexed own home
        (fun x seen => inside_of_mem_sightings split seen) rootedT
        (foundings.noted anchored shown rooted noted) filedT attestedT ok chartedT

theorem charted_concluded (records : c.sink.Records view) {shown : List Sighting} {s : State μ ω}
    (filed : s.Filed view) (ok : (s.concluded c).failure = none) (h : s.Charted c view shown) :
    (s.concluded c).Charted c view shown := by
  have still := rangesAt_concluded records filed ok
  refine ⟨fun path visited entry member => ?_, fun x member denotes => ?_⟩
  · obtain ⟨x, seen, own, shows⟩ :=
      h.sighted path (traversal_concluded s ▸ visited) entry (still path ▸ member)
    exact ⟨x, seen, own, shows_concluded.2 shows⟩
  · obtain ⟨entry, inside, shows⟩ := h.ranged x member denotes
    exact ⟨entry, (still x.path).symm ▸ inside, shows_concluded.2 shows⟩

/-- A completed run has visited its files. -/
theorem traversal_run {canceled : Cancellation Nat} {memory : μ} {output : ω} {stats : Stats}
    {s' : State μ ω}
    (completed : Yields (run c canceled) (.start c memory output) (stats, none) s') :
    s'.traversal = c.oracle.files.map (·.root.file) := by
  obtain ⟨t, u, course, endings, -, -, rfl, -⟩ := course_run completed
  rw [traversal_concluded, endings.steps.settled.1, course.steps.settled.1]
  rfl

/-- **What the documents of a completed run show.**  Each range of a file of the run shows an
identifier of the file, and each identifier that denotes a symbol has such a range in the document
of its file. -/
theorem charted_run (records : c.sink.Records view) {canceled : Cancellation Nat} {memory : μ}
    {output : ω} {stats : Stats} {s' : State μ ω} (empty : view output = [])
    (completed : Yields (run c canceled) (.start c memory output) (stats, none) s')
    (anchored : c.oracle.Anchored memory) :
    s'.Charted c view
      (sightings c (schedule c.oracle.files) ((State.start c memory output).opened c)) := by
  obtain ⟨t, u, course, endings, -, ⟨okT, filed⟩, ⟨okU, filedU⟩, rfl, ok⟩ :=
    filed_run records empty completed
  have whole : schedule c.oracle.files = schedule c.oracle.files ++ [] :=
    (List.append_nil _).symm
  obtain ⟨rooted, -⟩ := marked_performed anchored whole course okT
  refine charted_concluded records filedU ok ?_
  refine (charted_performed records empty anchored whole course okT).silent records
    endings.steps endings.silent (fun x seen r shows => ?_) filed okU
  obtain ⟨file, indexed, inside⟩ := inside_of_mem_sightings whole seen
  exact shows.later anchored rooted indexed inside endings.steps

end SymbolAtlas.Session
