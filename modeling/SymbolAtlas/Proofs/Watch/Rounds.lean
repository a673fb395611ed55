/-
# SymbolAtlas.Proofs.Watch.Rounds -- what a watcher remembers over many rounds

Between two rounds anything may happen: to the files, to the store, and to the world in which
projects are indexed.  What a watcher knows of a project is determined by the events of that
project alone (`Watcher.Reached.known`), and the snapshot that it remembers is the last that one of
them took: the first one, or that of an index that succeeded (`Watcher.Reached.last`).  A failed
index takes none, so the change is seen again (`nothing_lost`).

A project starts over once a round finds it missing from the store.  One that is deleted and
registered again between two rounds is not missing from either (`registered_again`).
-/
import SymbolAtlas.CommandLine.Libraries
import SymbolAtlas.Proofs.Watch.Looks

set_option autoImplicit false

namespace SymbolAtlas.Watch

/-! ## Events -/

namespace Event

def isGone : Event → Bool
  | .gone => true
  | _ => false

/-- The snapshot that is remembered from an event on. -/
def takes : Event → Option Snapshot
  | .looked _ look => look.takes
  | _ => none

/-- What an event says of the snapshot that was remembered before it. -/
def Fits (last : Option Snapshot) : Event → Prop
  | .looked _ (.baseline _) => last = none
  | .looked _ (.unchanged new) => ∃ old, last = some old ∧ old.Agrees new
  | .looked _ (.indexed new) | .looked _ (.failed new) =>
      ∃ old, last = some old ∧ ¬ old.Agrees new
  | _ => True

end Event

/-- The snapshot that is remembered after events: the last that was taken since the project was
missing. -/
def remembered (history : List Event) : Option Snapshot :=
  (history.reverse.takeWhile fun e => !e.isGone).findSome? Event.takes

theorem remembered_snoc (history : List Event) (e : Event) :
    remembered (history ++ [e]) = if e.isGone then none else e.takes.or (remembered history) := by
  rw [remembered, List.reverse_concat, List.takeWhile_cons]
  cases gone : e.isGone with
  | true => rfl
  | false =>
      simp only [Bool.not_false, if_true, List.findSome?_cons]
      cases e.takes <;> rfl

/-- Events that take no snapshot leave what is remembered. -/
theorem remembered_append (history : List Event) {quiet : List Event}
    (none_ : ∀ e ∈ quiet, e.isGone = false ∧ e.takes = none) :
    remembered (history ++ quiet) = remembered history := by
  induction quiet using List.reverseRecOn with
  | nil => rw [List.append_nil]
  | append_singleton quiet e ih =>
      obtain ⟨stays, idle⟩ := none_ e (List.mem_append_right _ (List.mem_singleton_self e))
      rw [← List.append_assoc, remembered_snoc, stays, idle]
      exact ih fun e member => none_ e (List.mem_append_left _ member)

theorem Watched.last_after (w : Watched) (now : Int) (look : Look) :
    (w.after now look).last = look.takes.or w.last := by
  cases look <;> rfl

theorem Event.last_apply (e : Event) (known : Option Watched) :
    ((e.apply known).getD {}).last =
      if e.isGone then none else e.takes.or ((known.getD {}).last) := by
  cases e with
  | unlisted => rfl
  | gone => rfl
  | looked now look => exact Watched.last_after _ now look

/-- A look takes only the snapshot that there is to see. -/
theorem Watched.snapshot_of_takes {w : Watched} {g : Glance} {answer : Bool} {new : Snapshot}
    (taken : (w.look g answer).takes = some new) : g.snapshot = some new := by
  unfold look at taken
  split at taken
  · cases taken
  split at taken
  · cases taken
  split at taken
  · cases taken
  · rename_i seen
    rw [seen]
    split at taken
    · exact taken
    split at taken
    · cases taken
    · cases answer with
      | true => exact taken
      | false => cases taken

/-! ## Pace -/

theorem pollInterval_le (files : Int) : pollInterval files ≤ maxInterval := by
  have most : (1000000 * maxInterval).tdiv 1000000 = maxInterval := by decide
  rw [← most]
  exact Int.tdiv_le_tdiv (by decide) (min_le_right _ _)

/-- The next look is never more than a minute away. -/
theorem Watched.nextPoll_after {w : Watched} {now : Int} {look : Look} {next : Int}
    (planned : (w.after now look).nextPoll = some next) :
    next ≤ now + maxInterval ∨ w.nextPoll = some next := by
  have soon (files : Int) := pollInterval_le files
  have waits (failures files : Nat) : backoff failures files ≤ maxInterval := min_le_right _ _
  cases look with
  | waits => exact .inr planned
  | rootGone =>
      obtain rfl := Option.some.inj planned
      exact .inl (le_refl _)
  | blocked | failed _ =>
      obtain rfl := Option.some.inj planned
      exact .inl (Int.add_le_add_left (waits _ _) _)
  | baseline _ | unchanged _ | indexed _ =>
      obtain rfl := Option.some.inj planned
      exact .inl (Int.add_le_add_left (soon _) _)

/-! ## Runs -/

section Runs

variable {σ : Type} {r : Round σ} {w : Watcher} {answer : Store.Project → Bool} {name : String}

theorem Round.entry_eq_some {p : Store.Project} (found : r.entry name = some (some p)) :
    p.name = name ∧ ∃ listed, r.store.listProjects = .ok listed ∧ p ∈ listed := by
  unfold entry at found
  cases asked : r.store.listProjects with
  | error e =>
      rw [asked] at found
      cases found
  | ok listed =>
      rw [asked] at found
      have first : listed.find? (·.name = name) = some p := Option.some.inj found
      exact ⟨by simpa using List.find?_some first, listed, rfl, List.mem_of_find?_eq_some first⟩

variable [Globs] [SettingsFormat]

/-- **Which projects a round indexes.** -/
theorem Round.mem_calls_iff {p : Store.Project} : p ∈ r.calls w ↔
    (∃ listed, r.store.listProjects = .ok listed ∧ p ∈ listed) ∧ r.asks w p = true := by
  rw [calls, List.mem_filter]
  cases r.store.listProjects with
  | error e => simp [Except.toOption]
  | ok listed => simp [Except.toOption]

theorem Round.snapshot_glance {p : Store.Project} {new : Snapshot} :
    (r.glance p).snapshot = some new ↔
      r.canceled.seen p = false ∧ Snapshot.capture? r.tree p.rootPath = some new := by
  cases canceled : r.canceled.seen p <;> simp [glance, canceled]

/-- An event depends on the answers of the projects that are indexed alone. -/
theorem Round.event_congr {answer' : Store.Project → Bool}
    (same : (r.calls w).map answer' = (r.calls w).map answer) :
    r.event w answer' name = r.event w answer name := by
  unfold event
  cases found : r.entry name with
  | none => rfl
  | some entry =>
      cases entry with
      | none => rfl
      | some p =>
          obtain ⟨rfl, listed⟩ := r.entry_eq_some found
          cases asked : r.asks w p with
          | true =>
              have called : p ∈ r.calls w := mem_calls_iff.2 ⟨listed, asked⟩
              simp only [List.map_inj_left.1 same p called]
          | false =>
              simp only [Watched.look_of_not_asks (w := w.of p.name) (g := r.glance p) asked]

/-- An event depends on nothing but what there is to know of its project. -/
theorem Round.event_local {τ : Type} {r' : Round τ} {w' : Watcher}
    {answer' : Store.Project → Bool} (entry : r'.entry name = r.entry name)
    (known : w'.projects.get? name = w.projects.get? name)
    (seen : ∀ p, r.entry name = some (some p) → r'.glance p = r.glance p ∧ answer' p = answer p) :
    r'.event w' answer' name = r.event w answer name := by
  unfold event
  rw [entry]
  cases found : r.entry name with
  | none => rfl
  | some listed =>
      cases listed with
      | none => rfl
      | some p =>
          obtain ⟨glance, same⟩ := seen p found
          have now : r'.now = r.now := congrArg Glance.now glance
          simp only [now, glance, same, of_eq known]

/-- A project of which nothing is known is looked at, and its snapshot is the first. -/
theorem Round.event_of_unknown {p : Store.Project} {new : Snapshot}
    (unknown : w.projects.get? name = none) (found : r.entry name = some (some p))
    (exists_ : r.tree.exists p.rootPath = true) (seen : (r.glance p).snapshot = some new) :
    r.event w answer name = .looked r.now (.baseline new) := by
  have blank : w.of name = {} := by rw [Watcher.of, unknown, Option.getD_none]
  have there : (r.glance p).rootExists = true := exists_
  simp only [event, found, blank, Watched.look, there, seen]
  rfl

/-- What a watcher comes to in rounds at times that do not go back: the events of each project, the
time of the last round, and the watcher. -/
inductive Watcher.Reached : (String → List Event) → Int → Watcher → Prop where
  | start (time : Int) : Reached (fun _ => []) time {}
  | round {σ : Type} {history : String → List Event} {time : Int} {w w' : Watcher}
      (earlier : Reached history time w) (r : Round σ) (later : time ≤ r.now) {s s' : σ}
      (ran : (r.run w).run s = (w', s')) {answer : Store.Project → Bool}
      (answered : ((r.calls w).mapM r.index).run s = ((r.calls w).map answer, s')) :
      Reached (fun name => history name ++ [r.event w answer name]) r.now w'

/-- **A round is for each project what its own event says**, whatever the answers of projects that
are not indexed would have been. -/
theorem Round.known {w' : Watcher} {s s' : σ} (ran : (r.run w).run s = (w', s'))
    (answered : ((r.calls w).mapM r.index).run s = ((r.calls w).map answer, s')) (name : String) :
    w'.projects.get? name = (r.event w answer name).apply (w.projects.get? name) := by
  obtain ⟨answer', called, known⟩ := r.run_spec w s
  rw [ran] at called known
  have same : (r.calls w).map answer' = (r.calls w).map answer := by
    rw [called] at answered
    exact (Prod.mk.inj answered).1
  rw [known, event_congr same]

namespace Watcher.Reached

variable {history : String → List Event} {time : Int}

/-- **What is known of a project is what its own events come to.** -/
theorem known (h : Reached history time w) (name : String) :
    w.projects.get? name = (history name).foldl (fun known e => e.apply known) none := by
  induction h with
  | start => rfl
  | round earlier r later ran answered ih =>
      rw [r.known ran answered, ih, List.foldl_concat]

/-- **The snapshot that is remembered is the last that was taken.** -/
theorem last (h : Reached history time w) (name : String) :
    (w.of name).last = remembered (history name) := by
  induction h with
  | start => rfl
  | round earlier r later ran answered ih =>
      rw [Watcher.of, r.known ran answered, Event.last_apply, remembered_snoc, ← ih]
      rfl

/-- Only snapshots that were captured are remembered. -/
theorem proper (h : Reached history time w) {s : Snapshot}
    (here : (w.of name).last = some s) : s.Proper := by
  induction h with
  | start => cases here
  | @round σ _ _ w w' _ r _ _ _ ran answer answered ih =>
      rw [Watcher.of, r.known ran answered, Event.last_apply] at here
      split at here
      · cases here
      · cases taken : (r.event w answer name).takes with
        | none =>
            rw [taken] at here
            exact ih here
        | some new =>
            rw [taken] at here
            obtain rfl : new = s := Option.some.inj here
            unfold Round.event at taken
            split at taken
            · cases taken
            · cases taken
            · exact Snapshot.proper_of_capture?
                (Round.snapshot_glance.1 (Watched.snapshot_of_takes taken)).2

/-- **A look fits the snapshot that was remembered.** -/
theorem fits (h : Reached history time w) (r : Round σ) (answer : Store.Project → Bool)
    (name : String) : (r.event w answer name).Fits (remembered (history name)) := by
  rw [← h.last]
  unfold Round.event
  split
  · trivial
  · trivial
  · rename_i p found
    unfold Watched.look
    split
    · trivial
    split
    · trivial
    split
    · trivial
    · rename_i new seen
      have captured := Snapshot.proper_of_capture? (Round.snapshot_glance.1 seen).2
      split
      · assumption
      · rename_i old remembered
        have agree := Snapshot.isEmpty_changesSince_iff (h.proper remembered) captured
        rw [remembered]
        split
        · rename_i same
          exact ⟨old, rfl, agree.1 same⟩
        · rename_i differs
          have apart : ¬ old.Agrees new := mt agree.2 differs
          cases answer p <;> exact ⟨old, rfl, apart⟩

/-- Every event fits what was remembered before it. -/
theorem fits_earlier (h : Reached history time w) {before after : List Event} {e : Event}
    (split_ : history name = before ++ e :: after) : e.Fits (remembered before) := by
  induction h generalizing after with
  | start => simp at split_
  | round earlier r later ran answered ih =>
      rcases List.eq_nil_or_concat after with rfl | ⟨rest, last, rfl⟩
      · obtain ⟨rfl, same⟩ := List.append_inj' split_ rfl
        obtain rfl := List.cons.inj same |>.1
        exact earlier.fits r _ name
      · rw [List.concat_eq_append, ← List.cons_append, ← List.append_assoc] at split_
        exact ih (List.append_inj' split_ rfl).1

/-- **A project is due a minute after the last round.** -/
theorem due (h : Reached history time w) (name : String) {now : Int}
    (minute : time + maxInterval ≤ now) : (w.of name).isDue now = true := by
  have soon : ∀ next, (w.of name).nextPoll = some next → next ≤ time + maxInterval := by
    clear minute
    induction h with
    | start => exact fun next planned => nomatch planned
    | @round σ _ _ w w' _ r later _ _ ran answer answered ih =>
        intro next planned
        rw [Watcher.of, r.known ran answered] at planned
        have early {next : Int} (planned : (w.of name).nextPoll = some next) :
            next ≤ r.now + maxInterval :=
          (ih next planned).trans (Int.add_le_add_right later _)
        unfold Round.event at planned
        split at planned
        · exact early planned
        · cases planned
        · exact (Watched.nextPoll_after planned).elim id early
  unfold Watched.isDue
  cases planned : (w.of name).nextPoll with
  | none => rfl
  | some next => exact decide_eq_true ((soon next planned).trans minute)

/-- **Which projects a round indexes**, by what is remembered of them. -/
theorem mem_calls_iff (h : Reached history time w) {p : Store.Project} : p ∈ r.calls w ↔
    (∃ listed, r.store.listProjects = .ok listed ∧ p ∈ listed) ∧
    (w.of p.name).isDue r.now = true ∧ r.tree.exists p.rootPath = true ∧
    r.canceled.seen p = false ∧ ∃ new old, Snapshot.capture? r.tree p.rootPath = some new ∧
      remembered (history p.name) = some old ∧ ¬ old.Agrees new := by
  rw [Round.mem_calls_iff, Round.asks, Watched.asks_iff, ← h.last]
  refine and_congr_right fun _ => and_congr_right fun _ => and_congr_right fun _ => ?_
  constructor
  · rintro ⟨new, old, seen, remembered, differs⟩
    obtain ⟨going, captured⟩ := Round.snapshot_glance.1 seen
    have agree := Snapshot.isEmpty_changesSince_iff (h.proper remembered)
      (Snapshot.proper_of_capture? captured)
    exact ⟨going, new, old, captured, remembered, fun same => by
      rw [agree.2 same] at differs
      cases differs⟩
  · rintro ⟨going, new, old, captured, remembered, apart⟩
    have agree := Snapshot.isEmpty_changesSince_iff (h.proper remembered)
      (Snapshot.proper_of_capture? captured)
    exact ⟨new, old, Round.snapshot_glance.2 ⟨going, captured⟩, remembered,
      Bool.eq_false_iff.2 (mt agree.1 apart)⟩

end Watcher.Reached

/-- **A watcher loses no change.**  After any rounds, with anything in between:

* a round indexes the projects that ask for it, in the order of the store and each once, and what
  is known of each project afterwards is what its own event comes to;
* it indexes exactly the projects of the store that are due, whose root exists, and whose snapshot
  could be taken and does not agree with the one that is remembered;
* the snapshot that is remembered is the last that a first look or a successful index took, and
  each look fits it;
* after a failure it stays until another is taken, and differs from the one that failed;
* an event depends only on what there is to know of its own project;
* a project that a round found missing starts over with a first look;
* and each is due a minute after the last round. -/
theorem nothing_lost {history : String → List Event} {time : Int}
    (h : Watcher.Reached history time w) :
    (∀ {σ : Type} (r : Round σ) (s : σ), ∃ answer : Store.Project → Bool,
      ((r.calls w).mapM r.index).run s = ((r.calls w).map answer, ((r.run w).run s).2) ∧
      ∀ name, ((r.run w).run s).1.projects.get? name =
        (r.event w answer name).apply (w.projects.get? name)) ∧
    (∀ {σ : Type} (r : Round σ) (p : Store.Project), p ∈ r.calls w ↔
      (∃ listed, r.store.listProjects = .ok listed ∧ p ∈ listed) ∧
      (w.of p.name).isDue r.now = true ∧ r.tree.exists p.rootPath = true ∧
      r.canceled.seen p = false ∧ ∃ new old, Snapshot.capture? r.tree p.rootPath = some new ∧
        remembered (history p.name) = some old ∧ ¬ old.Agrees new) ∧
    (∀ name, (w.of name).last = remembered (history name) ∧
      ∀ before e after, history name = before ++ e :: after → e.Fits (remembered before)) ∧
    (∀ name before failedAt new quiet,
      history name = before ++ .looked failedAt (.failed new) :: quiet →
      (∀ e ∈ quiet, e.isGone = false ∧ e.takes = none) →
        ∃ old, remembered (history name) = some old ∧ ¬ old.Agrees new) ∧
    (∀ {σ τ : Type} (r : Round σ) (r' : Round τ) (w' : Watcher)
      (answer answer' : Store.Project → Bool) (name : String), r'.entry name = r.entry name →
      w'.projects.get? name = w.projects.get? name →
      (∀ p, r.entry name = some (some p) → r'.glance p = r.glance p ∧ answer' p = answer p) →
        r'.event w' answer' name = r.event w answer name) ∧
    (∀ name before, history name = before ++ [.gone] →
      w.projects.get? name = none ∧
      ∀ {σ : Type} (r : Round σ) (answer : Store.Project → Bool) (p : Store.Project)
        (new : Snapshot), r.entry name = some (some p) → r.tree.exists p.rootPath = true →
        r.canceled.seen p = false → Snapshot.capture? r.tree p.rootPath = some new →
          r.event w answer name = .looked r.now (.baseline new)) ∧
    ∀ name now, time + maxInterval ≤ now → (w.of name).isDue now = true := by
  refine ⟨fun r s => r.run_spec w s, fun r p => h.mem_calls_iff,
    fun name => ⟨h.last name, fun _ _ _ => h.fits_earlier⟩,
    fun name before failedAt new quiet split_ none_ => ?_,
    fun r r' w' answer answer' name => Round.event_local,
    fun name before split_ => ?_, fun name now => h.due name⟩
  · obtain ⟨old, kept, apart⟩ := h.fits_earlier split_
    have takesNothing : ∀ e ∈ Event.looked failedAt (.failed new) :: quiet,
        e.isGone = false ∧ e.takes = none := List.forall_mem_cons.2 ⟨⟨rfl, rfl⟩, none_⟩
    exact ⟨old, by rw [split_, remembered_append before takesNothing, kept], apart⟩
  · have unknown : w.projects.get? name = none := by
      rw [h.known, split_, List.foldl_concat]
      rfl
    exact ⟨unknown, fun r answer p new found there going captured =>
      Round.event_of_unknown unknown found there (Round.snapshot_glance.2 ⟨going, captured⟩)⟩

end Runs

/-! ### A project in one folder -/

def folderProject : Store.Project := { name := "p", rootPath := "/p" }

/-- A store that holds this project alone. -/
def folderStore : Store := { database := ({} : Store.Database).upsert folderProject }

theorem folderStore_reached : folderStore.database.Reached := .upsert .empty folderProject

/-- A round that finds a source in the folder that was written at some time.  No index succeeds. -/
def folderRound (now modified : Int) (store : Store) (reached : store.database.Reached) :
    Round Unit where
  tree := { entries := .ofList [("/p", .directory),
    ("/p/a.go", .file "package a\n".toUTF8 modified)] }
  store := store
  reached := reached
  now := now
  index _ := pure false

/-- What a watcher comes to in a round. -/
def afterRound (w : Watcher) (r : Round Unit) : Watcher := ((r.run w).run ()).1

theorem Watcher.Reached.folder {w : Watcher} {history : String → List Event} {time : Int}
    (h : Watcher.Reached history time w) {now : Int} (later : time ≤ now) (modified : Int)
    (store : Store) (reached : store.database.Reached) :
    Watcher.Reached (fun name => history name ++
        [(folderRound now modified store reached).event w (fun _ => false) name]) now
      (afterRound w (folderRound now modified store reached)) := by
  have answered : (((folderRound now modified store reached).calls w).mapM
        (folderRound now modified store reached).index).run () =
      (((folderRound now modified store reached).calls w).map fun _ => false, ()) := by
    generalize (folderRound now modified store reached).calls w = calls
    show (calls.mapM fun _ => pure false : StateM Unit (List Bool)).run () = _
    rw [List.mapM_pure]
    rfl
  exact .round h (folderRound now modified store reached) later rfl answered

/-- The first round, on a source written at the beginning. -/
def firstRound : Round Unit := folderRound 0 0 folderStore folderStore_reached

/-- A later round, on a source that was written since. -/
def secondRound : Round Unit := folderRound 5000 1 folderStore folderStore_reached

/-- A round on a store without projects. -/
def emptyRound : Round Unit := folderRound 9000 1 {} .empty

theorem events_folder :
    (match firstRound.event {} (fun _ => false) "p",
      secondRound.event (afterRound {} firstRound) (fun _ => false) "p",
      emptyRound.event (afterRound (afterRound {} firstRound) secondRound) (fun _ => false) "p" with
    | .looked 0 (.baseline _), .looked 5000 (.failed _), .gone => true
    | _, _, _ => false) = true := by
  decide +kernel

theorem nothing_lost_folder :
    ∃ history time w, Watcher.Reached history time w ∧
      (∃ first second, history "p" = [.looked 0 (.baseline first), .looked 5000 (.failed second)] ∧
        ∃ old, remembered (history "p") = some old ∧ ¬ old.Agrees second) ∧
    ∃ history' time' w', Watcher.Reached history' time' w' ∧
      history' "p" = history "p" ++ [.gone] ∧ w'.projects.get? "p" = none := by
  have first := (Watcher.Reached.start 0).folder (le_refl 0) 0 folderStore folderStore_reached
  have second := first.folder (by decide : (0 : Int) ≤ 5000) 1 folderStore folderStore_reached
  have third := second.folder (by decide : (5000 : Int) ≤ 9000) 1 {} .empty
  obtain ⟨-, -, -, retries, -⟩ := nothing_lost second
  obtain ⟨-, -, -, -, -, restarts, -⟩ := nothing_lost third
  have seen := events_folder
  split at seen
  · rename_i old new baseline failed gone
    have begun : ([] ++ [firstRound.event {} (fun _ => false) "p"] ++
        [secondRound.event (afterRound {} firstRound) (fun _ => false) "p"]) =
          [.looked 0 (.baseline old)] ++ [.looked 5000 (.failed new)] := by
      rw [baseline, failed]
      rfl
    have ended := congrArg (fun e => [] ++ [firstRound.event {} (fun _ => false) "p"] ++
        [secondRound.event (afterRound {} firstRound) (fun _ => false) "p"] ++ [e]) gone
    exact ⟨_, _, _, second, ⟨old, new, begun, retries "p" _ _ new [] begun (by simp)⟩,
      _, _, _, third, ended, (restarts "p" _ ended).1⟩
  · cases seen

/-- The store after its project was deleted and registered again. -/
def againStore : Store :=
  { database := (folderStore.database.removeProject "p").upsert folderProject }

theorem againStore_reached : againStore.database.Reached :=
  .upsert (.removeProject folderStore_reached "p") folderProject

theorem calls_again : folderProject ∈
    (folderRound 5000 1 againStore againStore_reached).calls (afterRound {} firstRound) := by
  decide +kernel

/-- **A project that is deleted does not always start over.**  Registered again before the next
round, it is compared with the snapshot from before, and indexed at once. -/
theorem registered_again :
    ∃ history time w, Watcher.Reached history time w ∧
      (∃ old, remembered (history "p") = some old) ∧
      ∃ (deleted : Store) (r : Round Unit), folderStore.deleteProject "p" = .ok deleted ∧
        deleted.upsertProject folderProject = .ok r.store ∧ folderProject ∈ r.calls w := by
  have first := (Watcher.Reached.start 0).folder (le_refl 0) 0 folderStore folderStore_reached
  have called := calls_again
  obtain ⟨-, -, -, -, -, old, -, kept, -⟩ := first.mem_calls_iff.1 called
  exact ⟨_, _, _, first, ⟨old, kept⟩, { folderStore with
    database := folderStore.database.removeProject "p" },
    folderRound 5000 1 againStore againStore_reached, rfl, rfl, called⟩

end SymbolAtlas.Watch
