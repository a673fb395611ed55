/-
# SymbolAtlas.Proofs.Watch.Looks -- what a watcher does in one round

A look at a project ends in one of seven ways (`Look`), and which one it is depends on what the
watcher knows of this project and on what there is to see (`Watched.look`).  In two of them the
project is indexed: when it is due, its root exists, a snapshot could be taken, and an earlier one
is remembered that does not agree with it (`Watched.asks_iff`).

So a round indexes the projects that ask for it, in the order of the store and each once, and what
the watcher knows of a project afterwards is what one look at it comes to (`Round.run_spec`).
-/
import SymbolAtlas.Proofs.Store.Listing
import SymbolAtlas.Watch

set_option autoImplicit false

namespace SymbolAtlas.Watch

/-! ## Snapshots -/

namespace Snapshot

/-- Two snapshots have the same sources and the same settings. -/
def Agrees (old new : Snapshot) : Prop :=
  (∀ path, old.sources.get? path = new.sources.get? path) ∧
    ∀ name, old.settings.get? name = new.settings.get? name

/-- Only files of settings count as settings. -/
def Proper (s : Snapshot) : Prop :=
  ∀ name stamp, s.settings.get? name = some stamp → name ∈ Settings.files

/-- **Nothing differs exactly if both snapshots agree as finite maps.** -/
theorem isEmpty_changesSince_iff {old new : Snapshot} (proper : old.Proper) (proper' : new.Proper) :
    (old.changesSince new).isEmpty = true ↔ old.Agrees new := by
  simp only [Changes.isEmpty, changesSince, Bool.and_eq_true, List.isEmpty_iff,
    List.filter_eq_nil_iff, List.map_eq_nil_iff, Bool.not_eq_true', Bool.not_eq_false,
    Table.mem_keys_iff, Prod.forall, Table.mem_entries_iff, Table.contains_iff,
    decide_eq_true_eq, not_not, ne_eq]
  constructor
  · rintro ⟨⟨⟨added, removed⟩, modified⟩, settings⟩
    refine ⟨fun path => ?_, fun name => ?_⟩
    · cases now : new.sources.get? path with
      | none =>
          cases before : old.sources.get? path with
          | none => rfl
          | some stamp =>
              obtain ⟨stamp', found⟩ := removed path ⟨stamp, before⟩
              rw [now] at found
              cases found
      | some stamp =>
          obtain ⟨stamp', before⟩ := added path ⟨stamp, now⟩
          have same := modified path stamp now
          rw [before] at same ⊢
          simpa using same
    · by_cases known : name ∈ Settings.files
      · exact settings name known
      · have unknown {s : Snapshot} (h : s.Proper) : s.settings.get? name = none :=
          Option.eq_none_iff_forall_ne_some.2 fun stamp found => known (h name stamp found)
        rw [unknown proper, unknown proper']
  · rintro ⟨sources, settings⟩
    refine ⟨⟨⟨fun path found => ?_, fun path found => ?_⟩, fun path stamp found => ?_⟩,
      fun name _ => settings name⟩
    · rwa [sources]
    · rwa [← sources]
    · rw [sources, found]
      simp

theorem mem_of_mapM {α β : Type} {f : α → Option β} {xs : List α} {ys : List β}
    (all : xs.mapM f = some ys) {y : β} (member : y ∈ ys) : ∃ x ∈ xs, f x = some y := by
  induction xs generalizing ys with
  | nil =>
      obtain rfl : ys = [] := by simpa using all.symm
      cases member
  | cons x xs ih =>
      simp only [List.mapM_cons, Option.bind_eq_bind, Option.bind_eq_some_iff, Option.pure_def,
        Option.some.injEq] at all
      obtain ⟨first, here, rest, later, rfl⟩ := all
      rcases List.mem_cons.1 member with rfl | member
      · exact ⟨x, List.mem_cons_self, here⟩
      · obtain ⟨x', inside, found⟩ := ih later member
        exact ⟨x', List.mem_cons_of_mem _ inside, found⟩

theorem proper_of_capture? [Globs] [SettingsFormat] {tree : FileTree} {root : String} {s : Snapshot}
    (captured : capture? tree root = some s) : s.Proper := by
  simp only [capture?, Option.bind_eq_bind, Option.bind_eq_some_iff, Option.pure_def,
    Option.some.injEq] at captured
  obtain ⟨stamps, all, rfl⟩ := captured
  intro name stamp found
  obtain ⟨entry, inside, here⟩ := List.mem_filterMap.1 (Table.mem_of_get?_ofList found)
  obtain ⟨file, known, read⟩ := mem_of_mapM all inside
  obtain ⟨seen, -, shape⟩ := Option.map_eq_some_iff.1 read
  obtain rfl : entry = some (name, stamp) := here
  obtain ⟨_, -, same⟩ := Option.map_eq_some_iff.1 shape
  exact (Prod.mk.inj same).1 ▸ known

end Snapshot

/-! ## One look -/

/-- What there is to see of a project. -/
structure Glance where
  now : Int
  rootExists : Bool
  /-- Nothing if none could be taken. -/
  snapshot : Option Snapshot

/-- How a look at a project ends. -/
inductive Look where
  /-- It is not time for one. -/
  | waits
  | rootGone
  /-- No snapshot could be taken. -/
  | blocked
  /-- The first snapshot. -/
  | baseline (new : Snapshot)
  | unchanged (new : Snapshot)
  | indexed (new : Snapshot)
  /-- It was to be indexed, and that failed. -/
  | failed (new : Snapshot)

/-- Whether the project was to be indexed. -/
def Look.calls : Look → Bool
  | .indexed _ | .failed _ => true
  | _ => false

/-- The snapshot that is remembered from now on. -/
def Look.takes : Look → Option Snapshot
  | .baseline new | .indexed new => some new
  | _ => none

namespace Watched

variable {w : Watched} {g : Glance} {answer : Bool}

/-- How a look ends, if the project is indexed with success or not. -/
def look (w : Watched) (g : Glance) (answer : Bool) : Look :=
  if !w.isDue g.now then .waits
  else if !g.rootExists then .rootGone
  else
    match g.snapshot with
    | none => .blocked
    | some new =>
        match w.last with
        | none => .baseline new
        | some old =>
            if (old.changesSince new).isEmpty then .unchanged new
            else if answer then .indexed new else .failed new

/-- What is known of a project after a look at it. -/
def after (w : Watched) (now : Int) : Look → Watched
  | .waits => w
  | .rootGone => { w with nextPoll := some (now + maxInterval) }
  | .blocked => w.fail now ((w.last.map (·.sources.size)).getD 0)
  | .baseline new =>
      { w with last := some new, nextPoll := some (now + pollInterval new.sources.size) }
  | .unchanged new => { w with nextPoll := some (now + pollInterval new.sources.size) }
  | .indexed new =>
      { last := some new, nextPoll := some (now + pollInterval new.sources.size), failures := 0 }
  | .failed new => w.fail now new.sources.size

/-- Whether a look at a project has it indexed. -/
def asks (w : Watched) (g : Glance) : Bool := (w.look g true).calls

/-- **When a project is to be indexed.** -/
theorem asks_iff : w.asks g = true ↔ w.isDue g.now = true ∧ g.rootExists = true ∧
    ∃ new old, g.snapshot = some new ∧ w.last = some old ∧
      (old.changesSince new).isEmpty = false := by
  unfold asks look
  by_cases due : w.isDue g.now = true
  · by_cases there : g.rootExists = true
    · cases captured : g.snapshot with
      | none => simp [due, there, Look.calls]
      | some new =>
          cases remembered : w.last with
          | none => simp [due, there, Look.calls]
          | some old =>
              cases differs : (old.changesSince new).isEmpty <;>
                simp [due, there, differs, Look.calls]
    · simp [due, there, Look.calls]
  · simp [due, Look.calls]

/-- A look ends in one way whatever comes of an index, or in what comes of it. -/
theorem look_cases (w : Watched) (g : Glance) :
    (∃ quiet : Look, quiet.calls = false ∧ ∀ answer, w.look g answer = quiet) ∨
      ∃ new, ∀ answer, w.look g answer = if answer then .indexed new else .failed new := by
  unfold look
  cases w.isDue g.now with
  | false => exact .inl ⟨.waits, rfl, fun _ => rfl⟩
  | true =>
      cases g.rootExists with
      | false => exact .inl ⟨.rootGone, rfl, fun _ => rfl⟩
      | true =>
          cases g.snapshot with
          | none => exact .inl ⟨.blocked, rfl, fun _ => rfl⟩
          | some new =>
              cases w.last with
              | none => exact .inl ⟨.baseline new, rfl, fun _ => rfl⟩
              | some old =>
                  cases differs : (old.changesSince new).isEmpty with
                  | true => exact .inl ⟨.unchanged new, rfl, fun _ => by simp [differs]⟩
                  | false => exact .inr ⟨new, fun _ => by simp [differs]⟩

theorem look_of_not_asks (not : w.asks g = false) : w.look g answer = w.look g true := by
  rcases w.look_cases g with ⟨quiet, -, ends⟩ | ⟨new, ends⟩
  · rw [ends, ends]
  · rw [asks, ends] at not
    cases not

/-- A look that is due indexes the project if it asks for it, and comes to what it is then. -/
theorem poll_run {σ : Type} (index : StateM σ Bool) (due : w.isDue g.now = true) (s : σ) :
    (poll g.rootExists g.snapshot g.now index w).run s =
      if w.asks g then
        (w.after g.now (w.look g (index.run s).1), (index.run s).2)
      else (w.after g.now (w.look g true), s) := by
  unfold poll asks look
  simp only [due]
  cases g.rootExists with
  | false => rfl
  | true =>
      cases g.snapshot with
      | none => rfl
      | some new =>
          cases remembered : w.last with
          | none => rfl
          | some old =>
              cases differs : (old.changesSince new).isEmpty with
              | true =>
                  simp [differs, Look.calls, after, remembered]
                  rfl
              | false =>
                  rcases ran : index.run s with ⟨answer, s'⟩
                  cases answer <;> simp [differs, Look.calls, after, ran] <;> rfl

end Watched

/-! ## One round -/

theorem run_bind {σ α β : Type} {m : StateM σ α} {s s' : σ} {a : α} (ran : m.run s = (a, s'))
    (f : α → StateM σ β) : (m >>= f).run s = (f a).run s' := by
  rw [StateT.run_bind, ran]
  rfl

/-- What a watcher knows of a project: nothing at first. -/
def Watcher.of (w : Watcher) (name : String) : Watched := (w.projects.get? name).getD {}

theorem get?_of_not_due {w : Watcher} {name : String} {now : Int}
    (not : (w.of name).isDue now = false) :
    w.projects.get? name = some (w.of name) := by
  unfold Watcher.of at *
  cases known : w.projects.get? name with
  | none =>
      rw [known] at not
      cases not
  | some state => rfl

theorem of_eq {w w' : Watcher} {name : String}
    (same : w'.projects.get? name = w.projects.get? name) : w'.of name = w.of name := by
  rw [Watcher.of, same, Watcher.of]

/-- A round of looks at the projects of a store, on a disk and at a time. -/
structure Round (σ : Type) where
  tree : FileTree
  store : Store
  reached : store.database.Reached
  now : Int
  canceled : Cancellation Store.Project := false
  index : IndexAction σ

namespace Round

variable [Globs] [SettingsFormat] {σ : Type} {r : Round σ} {w : Watcher}

/-- What there is to see of a project. -/
def glance (r : Round σ) (p : Store.Project) : Glance where
  now := r.now
  rootExists := r.tree.exists p.rootPath
  snapshot := if r.canceled.seen p then none else Snapshot.capture? r.tree p.rootPath

/-- A watcher does nothing if the projects cannot be listed. -/
def run (r : Round σ) (w : Watcher) : StateM σ Watcher :=
  match r.store.listProjects with
  | .error _ => pure w
  | .ok listed => w.pollAll r.tree r.canceled r.now r.index listed

/-- Whether a project is to be indexed. -/
def asks (r : Round σ) (w : Watcher) (p : Store.Project) : Bool := (w.of p.name).asks (r.glance p)

/-- The projects that are to be indexed, in the order of the store. -/
def calls (r : Round σ) (w : Watcher) : List Store.Project :=
  (r.store.listProjects.toOption.getD []).filter (r.asks w)

/-- What a watcher knows of a project after a look at it. -/
def afterLook (r : Round σ) (w : Watcher) (answer : Store.Project → Bool) (p : Store.Project) :
    Watched :=
  (w.of p.name).after r.now ((w.of p.name).look (r.glance p) (answer p))

/-- The look at one project in a round. -/
def visit (r : Round σ) (w : Watcher) (p : Store.Project) : StateM σ Watcher :=
  if !(w.of p.name).isDue r.now then return w
  else do
    let state ← poll (r.glance p).rootExists (r.glance p).snapshot r.now (r.index p) (w.of p.name)
    return { projects := w.projects.insert p.name state }

theorem pollAll_eq (listed : List Store.Project) :
    w.pollAll r.tree r.canceled r.now r.index listed = do
      let w ← listed.foldlM r.visit w
      return { projects := w.projects.filter fun entry => (listed.map (·.name)).contains entry.1 } :=
  rfl

/-- **A look at one project indexes it if it asks for it, and nothing is learned of another.** -/
theorem visit_run (r : Round σ) (w : Watcher) (p : Store.Project) (s : σ) :
    ∃ (answer : Bool) (w' : Watcher) (s' : σ), (r.visit w p).run s = (w', s') ∧
      (if r.asks w p then (r.index p).run s = (answer, s') else s' = s) ∧
      ∀ name, w'.projects.get? name = if p.name = name then
        some ((w.of p.name).after r.now ((w.of p.name).look (r.glance p) answer))
      else w.projects.get? name := by
  cases due : (w.of p.name).isDue r.now with
  | false =>
      have not : r.asks w p = false :=
        Bool.eq_false_iff.2 fun asked => by
          rw [show (w.of p.name).isDue r.now = true from (Watched.asks_iff.1 asked).1] at due
          cases due
      have waits : (w.of p.name).look (r.glance p) true = .waits := by
        simp [Watched.look, glance, due]
      have skipped : (r.visit w p).run s = (w, s) := by
        rw [visit, due]
        rfl
      refine ⟨true, w, s, skipped, by simp [not], fun name => ?_⟩
      split
      · rename_i same
        rw [waits, ← same, get?_of_not_due due]
        rfl
      · rfl
  | true =>
      have looked := Watched.poll_run (g := r.glance p) (r.index p) due s
      have visited : (r.visit w p).run s =
          ({ projects := w.projects.insert p.name
              ((poll (r.glance p).rootExists (r.glance p).snapshot r.now (r.index p)
                (w.of p.name)).run s).1 },
            ((poll (r.glance p).rootExists (r.glance p).snapshot r.now (r.index p)
                (w.of p.name)).run s).2) := by
        rw [visit, due]
        rfl
      rw [show r.now = (r.glance p).now from rfl, looked, ← asks] at visited
      cases asked : r.asks w p with
      | true =>
          rw [asked, if_pos rfl] at visited
          exact ⟨_, _, _, visited, by simp, fun name => Table.get?_insert _ _ _ _⟩
      | false =>
          rw [asked] at visited
          exact ⟨true, _, _, visited, by simp, fun name => Table.get?_insert _ _ _ _⟩

/-- **Looks at several projects index those that ask for it, in order**, each with what was known
of it before all of them. -/
theorem visits_run (r : Round σ) (listed : List Store.Project)
    (distinct : (listed.map (·.name)).Nodup) (w : Watcher) (s : σ) :
    ∃ (answer : Store.Project → Bool) (w' : Watcher) (s' : σ),
      (listed.foldlM r.visit w).run s = (w', s') ∧
      ((listed.filter (r.asks w)).mapM r.index).run s =
        ((listed.filter (r.asks w)).map answer, s') ∧
      ∀ name, w'.projects.get? name =
        ((listed.find? (·.name = name)).map (r.afterLook w answer)).or (w.projects.get? name) := by
  induction listed generalizing w s with
  | nil => exact ⟨fun _ => true, w, s, rfl, rfl, fun name => rfl⟩
  | cons p rest ih =>
      obtain ⟨apart, distinct⟩ := List.nodup_cons.1 distinct
      obtain ⟨first, w₁, s₁, visited, asked, known⟩ := visit_run r w p s
      obtain ⟨later, w', s', visits, called, known'⟩ := ih distinct w₁ s₁
      have other {q : Store.Project} (member : q ∈ rest) : p.name ≠ q.name :=
        fun same => apart (List.mem_map.2 ⟨q, member, same.symm⟩)
      have kept {q : Store.Project} (member : q ∈ rest) : w₁.of q.name = w.of q.name :=
        of_eq (by rw [known, if_neg (other member)])
      have same : rest.filter (r.asks w₁) = rest.filter (r.asks w) :=
        List.filter_congr fun q member => by rw [asks, kept member, asks]
      rw [same] at called
      let answer (q : Store.Project) : Bool := if q.name = p.name then first else later q
      have answers {q : Store.Project} (member : q ∈ rest) : answer q = later q :=
        if_neg (other member).symm
      have mapped : (rest.filter (r.asks w)).map answer = (rest.filter (r.asks w)).map later :=
        List.map_congr_left fun q member => answers (List.mem_filter.1 member).1
      refine ⟨answer, w', s', ?_, ?_, fun name => ?_⟩
      · rw [List.foldlM_cons, run_bind visited, visits]
      · cases asks : r.asks w p with
        | true =>
            rw [asks, if_pos rfl] at asked
            rw [List.filter_cons_of_pos asks, List.mapM_cons, run_bind asked, run_bind called,
              List.map_cons, mapped, show answer p = first from if_pos rfl]
            rfl
        | false =>
            rw [asks] at asked
            obtain rfl : s₁ = s := asked
            rw [List.filter_cons_of_neg (by simp [asks]), mapped, called]
      · rw [known', known]
        by_cases here : p.name = name
        · have none_ : rest.find? (·.name = name) = none :=
            List.find?_eq_none.2 fun q member same =>
              other member (here.trans (of_decide_eq_true same).symm)
          rw [none_, List.find?_cons_of_pos (by simpa using here), if_pos here]
          show some _ = some _
          rw [afterLook, show answer p = first from if_pos rfl]
        · rw [List.find?_cons_of_neg (by simpa using here), if_neg here]
          congr 1
          refine Option.map_congr fun q found => ?_
          have member := List.mem_of_find?_eq_some found
          rw [afterLook, afterLook, kept member, answers member]

end Round

/-- What a round is for one project. -/
inductive Event where
  /-- The projects could not be listed. -/
  | unlisted
  /-- The project is not in the store. -/
  | gone
  | looked (now : Int) (look : Look)

/-- What is known of a project after a round. -/
def Event.apply : Event → Option Watched → Option Watched
  | .unlisted, known => known
  | .gone, _ => none
  | .looked now look, known => some ((known.getD {}).after now look)

namespace Round

variable {σ : Type} {r : Round σ} {w : Watcher}

/-- What the store says of a project in a round: nothing if the projects cannot be listed. -/
def entry (r : Round σ) (name : String) : Option (Option Store.Project) :=
  r.store.listProjects.toOption.map fun listed => listed.find? (·.name = name)

variable [Globs] [SettingsFormat]

/-- What a round is for one project, if it is indexed with success or not. -/
def event (r : Round σ) (w : Watcher) (answer : Store.Project → Bool) (name : String) : Event :=
  match r.entry name with
  | none => .unlisted
  | some none => .gone
  | some (some p) => .looked r.now ((w.of name).look (r.glance p) (answer p))

/-- **A round indexes the projects that are to be indexed, in the order of the store, and is for
each project what its own event says.** -/
theorem run_spec (r : Round σ) (w : Watcher) (s : σ) : ∃ answer : Store.Project → Bool,
    ((r.calls w).mapM r.index).run s = ((r.calls w).map answer, ((r.run w).run s).2) ∧
    ∀ name, ((r.run w).run s).1.projects.get? name =
      (r.event w answer name).apply (w.projects.get? name) := by
  cases asked : r.store.listProjects with
  | error e =>
      refine ⟨fun _ => true, ?_, fun name => ?_⟩
      · rw [calls, run, asked]
        rfl
      · rw [run, event, entry, asked]
        rfl
  | ok listed =>
      obtain ⟨answer, w', s', visits, called, known⟩ :=
        r.visits_run listed (Store.nodup_listProjects r.reached asked) w s
      have ran : (r.run w).run s = ({ projects := w'.projects.filter fun entry =>
          (listed.map (·.name)).contains entry.1 }, s') := by
        rw [run, asked]
        show (w.pollAll r.tree r.canceled r.now r.index listed).run s = _
        rw [pollAll_eq, run_bind visits]
        rfl
      refine ⟨answer, ?_, fun name => ?_⟩
      · rw [calls, asked, ran]
        exact called
      · rw [ran, event, entry, asked]
        show (w'.projects.filter _).get? name = _
        rw [Table.get?_filter, known]
        cases found : listed.find? (·.name = name) with
        | none =>
            have absent : name ∉ listed.map (·.name) := fun member => by
              obtain ⟨p, inside, same⟩ := List.mem_map.1 member
              exact List.find?_eq_none.1 found p inside (by simpa using same)
            cases w.projects.get? name <;> simp [found, absent, Event.apply, Except.toOption]
        | some p =>
            have here : p.name = name := by simpa using List.find?_some found
            have present : name ∈ listed.map (·.name) :=
              List.mem_map.2 ⟨p, List.mem_of_find?_eq_some found, here⟩
            subst here
            simp [found, present, Event.apply, Except.toOption, afterLook, Watcher.of]

end Round

end SymbolAtlas.Watch
