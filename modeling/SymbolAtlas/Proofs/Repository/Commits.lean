/-
# SymbolAtlas.Proofs.Repository.Commits -- what an update leaves in a store

An update leaves the store as it was (`Attempt.run_of_not_commits`), or it commits: then the digests
of the project are those that it read, and the graph is the one that the same update leaves in a
store that holds nothing, with other numbers (`Attempt.held_of_commits`).  One that is
canceled, at whichever of its looks, leaves the store as it was.  A dump is finished after the graph
was committed, so an update that fails there has committed all the same.

Over a whole sequence of updates, of any repositories, a project has the digests and the graph of
the last update of it that committed (`after_last`).
-/
import SymbolAtlas.CommandLine.Libraries
import SymbolAtlas.Proofs.Repository.Detection
import SymbolAtlas.Proofs.Store.Isolation

set_option autoImplicit false

namespace SymbolAtlas

open SymbolAtlas.Graph (Element Sink)

/-! ## Two sinks -/

/-- Both sinks take a stream if each of them does. -/
theorem Graph.takes_both {ω ψ : Type} {first : Sink ω} {second : Sink ψ} {a a' : ω} {b b' : ψ}
    {stream : List Element} : (first.both second).Takes (a, b) stream (a', b') ↔
      first.Takes a stream a' ∧ second.Takes b stream b' := by
  induction stream using List.reverseRecOn generalizing a' b' with
  | nil => simp [Sink.Takes, pure, Except.pure]
  | append_singleton stream e ih =>
      rw [Graph.takes_snoc, Graph.takes_snoc, Graph.takes_snoc]
      have both (u : ω) (v : ψ) : first.both second e (u, v) = .ok (a', b') ↔
          first e u = .ok a' ∧ second e v = .ok b' := by
        rw [Sink.both]
        cases first e u <;> cases second e v <;> simp [bind, Except.bind, pure, Except.pure]
      constructor
      · rintro ⟨⟨u, v⟩, before, last⟩
        obtain ⟨before, before'⟩ := ih.1 before
        obtain ⟨last, last'⟩ := (both u v).1 last
        exact ⟨⟨u, before, last⟩, v, before', last'⟩
      · rintro ⟨⟨u, before, last⟩, v, before', last'⟩
        exact ⟨(u, v), ih.2 ⟨before, before'⟩, (both u v).2 ⟨last, last'⟩⟩

namespace Repository

open Session (Stats Yields)
open Store (Database)

variable {r : Repository} {disk : FileTree} {toolchain : Checked.Toolchain} {stamp : RunStamp}
  {canceled : Cancellation Look} {program : Checked.Program} {digests : Digests}

/-! ## Writing -/

section Writing

variable [ModuleNames]

/-- The session that writes a graph and its dump. -/
def context (r : Repository) (files : FileTree) (toolchain : Checked.Toolchain) (stamp : RunStamp)
    (program : Checked.Program) : Session.Context Checked.Memory (Store.GraphWriter × Lsif.Writer) :=
  { oracle := program.oracle
    sink := .both Store.GraphWriter.sink Lsif.Writer.sink
    options := r.sessionOptions stamp
    locate := (r.mapper files toolchain).locate files }

/-- Where this session begins. -/
def begin_ (r : Repository) (files : FileTree) (toolchain : Checked.Toolchain) (stamp : RunStamp)
    (program : Checked.Program) (db : Database) :
    Session.State Checked.Memory (Store.GraphWriter × Lsif.Writer) :=
  .start (r.context files toolchain stamp program) program.memory
    (.start db (r.record stamp), { spool := r.dumpSpool files })

theorem writeGraph_eq (db : Database) :
    r.writeGraph disk toolchain stamp canceled program digests db =
      match Session.outcome
          (Session.run (r.context disk toolchain stamp program) (canceled.among .index))
          (r.begin_ disk toolchain stamp program db) with
      | (.error invariant, _) => .error (.broken invariant)
      | (.ok (_, some error), _) => .error (.index error)
      | (.ok (stats, none), t) =>
          ((t.output.1.flush.database.replaceHashes r.project digests.entries).mapError .store).bind
            fun db => .ok ((stats, t.output.2.close), db) := by
  unfold writeGraph
  rfl

/-- A graph is written by a completed session, with the digests behind it. -/
theorem writeGraph_eq_ok {db db' : Database} {stats : Stats} {dump : Lsif.Writer} :
    r.writeGraph disk toolchain stamp canceled program digests db = .ok ((stats, dump), db') ↔
      ∃ t, Yields (Session.run (r.context disk toolchain stamp program) (canceled.among .index))
          (r.begin_ disk toolchain stamp program db) (stats, none) t ∧
        dump = t.output.2.close ∧
        t.output.1.flush.database.replaceHashes r.project digests.entries = .ok db' := by
  rw [writeGraph_eq]
  unfold Yields
  rcases Session.outcome
      (Session.run (r.context disk toolchain stamp program) (canceled.among .index))
      (r.begin_ disk toolchain stamp program db) with ⟨invariant | ⟨stats', _ | error⟩, t⟩
  · simp
  · simp only [Prod.mk.injEq, Except.ok.injEq, and_assoc]
    constructor
    · intro written
      cases replaced : t.output.1.flush.database.replaceHashes r.project digests.entries with
      | error reason =>
          rw [replaced] at written
          cases written
      | ok db'' =>
          rw [replaced] at written
          obtain ⟨same, rfl⟩ := Prod.mk.inj (Except.ok.inj written)
          obtain ⟨rfl, rfl⟩ := Prod.mk.inj same
          exact ⟨t, rfl, trivial, rfl, rfl, replaced⟩
    · rintro ⟨_, rfl, -, rfl, rfl, replaced⟩
      rw [replaced]
      rfl
  · simp

/-- While a graph is written, the dump is not finished. -/
theorem writeGraph_ne_unfinished (db : Database) (reason : String) :
    r.writeGraph disk toolchain stamp canceled program digests db ≠ .error (.unfinished reason) := by
  rw [writeGraph_eq]
  rcases Session.outcome
      (Session.run (r.context disk toolchain stamp program) (canceled.among .index))
      (r.begin_ disk toolchain stamp program db) with ⟨invariant | ⟨stats', _ | error⟩, t⟩
  · simp
  · simp only
    cases t.output.1.flush.database.replaceHashes r.project digests.entries <;>
      simp [Except.mapError, Except.bind]
  · simp

/-- **What is written does not depend on the store**: the same elements come to a graph in every
store, with the same dump. -/
theorem writeGraph_elsewhere {db db' : Database} {stats : Stats} {dump : Lsif.Writer}
    (sound : db.Sound)
    (written :
      r.writeGraph disk toolchain stamp canceled program digests db = .ok ((stats, dump), db')) :
    ∃ elements : List Element,
      (db.written (r.record stamp) elements).flush.database.replaceHashes r.project
        digests.entries = .ok db' ∧
      ∀ db₀ : Database, db₀.Sound → ∃ db₀',
        r.writeGraph disk toolchain stamp canceled program digests db₀ = .ok ((stats, dump), db₀') ∧
        (db₀.written (r.record stamp) elements).flush.database.replaceHashes r.project
          digests.entries = .ok db₀' := by
  obtain ⟨t, completed, rfl, replaced⟩ := writeGraph_eq_ok.1 written
  obtain ⟨elements, taken, elsewhere⟩ := Session.run_elsewhere completed
  obtain ⟨stored, dumped⟩ := Graph.takes_both.1 taken
  obtain ⟨u, blank, -⟩ := (Store.GraphWriter.takes_start_iff sound (r.record stamp)).1 stored
  refine ⟨elements, ?_, fun db₀ sound₀ => ?_⟩
  · rwa [Database.written, Store.GraphWriter.emits_of_takes stored]
  · have stored₀ := (Store.GraphWriter.takes_start_iff sound₀ (r.record stamp)).2 ⟨u, blank, rfl⟩
    obtain ⟨t₀, completed₀, output⟩ := elsewhere _ _ (Graph.takes_both.2 ⟨stored₀, dumped⟩)
    have rows : t₀.output.1 = db₀.written (r.record stamp) elements :=
      (congrArg Prod.fst output).trans (Store.GraphWriter.emits_of_takes stored₀).symm
    have recorded : (db₀.written (r.record stamp) elements).flush.database.projects.get?
        r.project = some (r.record stamp) := by
      rw [Store.projects_written (s := { database := db₀ }) sound₀]
      exact Table.get?_insert_self _ _ _
    obtain ⟨db₀', replaced₀⟩ := Database.replaceHashes_of_project recorded digests.entries
    refine ⟨db₀', writeGraph_eq_ok.2 ⟨t₀, completed₀, ?_, rows ▸ replaced₀⟩, replaced₀⟩
    rw [output]

end Writing

/-- The digests are those of the sources and the settings, and not of the dump. -/
theorem digests_without [Globs] [Digester] [SettingsFormat] (r : Repository) (path : String)
    (disk : FileTree) :
    ({ r with dumpPath := path } : Repository).digests disk = r.digests disk :=
  rfl

/-! ## Updating -/

/-- How an update ends once its graph was committed. -/
def finish (stats : Stats) (dump : Lsif.Writer) : Except UpdateError Stats :=
  match dump.error with
  | some reason => .error (.unfinished reason)
  | none => .ok stats

/-- The file of the dump is opened first. -/
def opens (r : Repository) (disk : FileTree) : Except FileError FileTree :=
  if r.dumpPath = "" then .ok disk else disk.writeFile r.dumpPath .empty 0

variable {s : Store}

theorem transaction_of_open {ε α : Type} (isOpen : s.isOpen = true) (lift : StoreError → ε)
    (change : Database → Except ε (α × Database)) : s.transaction lift change =
      match change s.database with
      | .error e => .error e
      | .ok (a, db) => .ok (a, { s with database := db }) := by
  unfold Store.transaction Store.ask
  rw [if_pos isOpen]
  simp only [Except.mapError, bind, Except.bind]
  rcases change s.database with e | ⟨a, db⟩ <;> rfl

theorem index_eq [ModuleNames] (r : Repository) (disk : FileTree) (toolchain : Checked.Toolchain)
    (stamp : RunStamp) (canceled : Cancellation Look) (program : Checked.Program)
    (digests : Digests) (isOpen : s.isOpen = true) :
    ((r.index disk toolchain stamp canceled program digests s).1,
      (r.index disk toolchain stamp canceled program digests s).2.1) =
      match r.opens disk with
      | .error reason => (.error (.dump r.dumpPath reason), s)
      | .ok _ =>
          match r.writeGraph disk toolchain stamp canceled program digests s.database with
          | .error e => (.error e, s)
          | .ok ((stats, dump), db) => (finish stats dump, { s with database := db }) := by
  unfold index Repository.opens
  rw [transaction_of_open isOpen]
  simp only
  rcases if r.dumpPath = "" then Except.ok disk else disk.writeFile r.dumpPath .empty 0 with
    reason | opened
  · rfl
  rcases r.writeGraph disk toolchain stamp canceled program digests s.database with
    e | ⟨⟨stats, dump⟩, db⟩
  · rfl
  simp only [finish]
  cases dump.error <;> rfl

end Repository

/-! ## Attempts -/

/-- An update, with the disk that it finds and the looks at which it sees that it is canceled. -/
structure Attempt where
  repository : Repository
  disk : FileTree
  toolchain : Checked.Toolchain
  stamp : RunStamp := {}
  canceled : Cancellation Look := false

/-- Whether an update that ended in this way has committed a graph. -/
def Commits : Except UpdateError UpdateOutcome → Bool
  | .ok outcome => !outcome.unchanged
  | .error (.unfinished _) => true
  | .error _ => false

namespace Attempt

open Session (Stats)
open Store (Database)

variable {a : Attempt} {s : Store}

/-- The project is there with the digests of the repository, and nothing asks for more. -/
def Idle (a : Attempt) (s : Store) (digests : Digests) : Prop :=
  a.repository.force = false ∧ a.repository.dumpPath = "" ∧
    a.repository.isUnchanged s digests = true

theorem idle_iff {digests : Digests} : (!a.repository.force && a.repository.dumpPath = "" &&
    a.repository.isUnchanged s digests) = true ↔ a.Idle s digests := by
  simp [Idle, and_assoc]

/-- Where no digests are stored there is something to do. -/
theorem not_idle_of_nil (none_ : s.fileHashes a.repository.project = .ok []) (digests : Digests) :
    ¬ a.Idle s digests := by
  rintro ⟨-, -, same⟩
  rw [Repository.isUnchanged, none_] at same
  cases recorded : s.project a.repository.project <;> simp [recorded] at same

/-- How an attempt ends once its graph was committed. -/
def outcome (a : Attempt) (stats : Stats) (dump : Lsif.Writer) :
    Except UpdateError UpdateOutcome :=
  (Repository.finish stats dump).map fun stats => { runId := a.stamp.runId, stats }

theorem commits_outcome (a : Attempt) (stats : Stats) (dump : Lsif.Writer) :
    Commits (a.outcome stats dump) = true := by
  unfold outcome Repository.finish
  cases dump.error <;> rfl

/-- The graph of a project is not touched by its digests. -/
theorem graph_replaceHashes {db db' : Database} {p : String} {hashes : List (String × String)}
    (replaced : db.replaceHashes p hashes = .ok db') (q : String) :
    db'.graphOf q = db.graphOf q ∧ db'.projects = db.projects := by
  obtain rfl := Database.replaceHashes_eq replaced
  exact ⟨rfl, rfl⟩

variable [Globs] [Digester] [ModuleNames] [SettingsFormat]

/-- How an attempt ends, and the store that it leaves. -/
def run (a : Attempt) (s : Store) : Except UpdateError UpdateOutcome × Store :=
  let (result, store, _) := a.repository.update a.disk a.toolchain a.stamp a.canceled s
  (result, store)

theorem run_eq (a : Attempt) (s : Store) : a.run s =
    if a.canceled.seen .start then (.error .canceled, s)
    else
      match a.repository.digests a.disk a.canceled with
      | .error e => (.error e, s)
      | .ok digests =>
          if !a.repository.force && a.repository.dumpPath = "" &&
              a.repository.isUnchanged s digests then (.ok { unchanged := true }, s)
          else
            match a.repository.loadModule a.disk a.toolchain a.canceled with
            | .error e => (.error (.load e), s)
            | .ok program =>
                ((a.repository.index a.disk a.toolchain a.stamp a.canceled program digests s).1.map
                    fun stats => { runId := a.stamp.runId, stats },
                  (a.repository.index a.disk a.toolchain a.stamp a.canceled program digests
                    s).2.1) := by
  unfold run Repository.update
  by_cases canceled : a.canceled.seen .start = true
  · simp only [canceled, if_true]
    rfl
  · simp only [canceled]
    rcases a.repository.digests a.disk a.canceled with e | digests
    · rfl
    by_cases idle : (!a.repository.force && a.repository.dumpPath = "" &&
        a.repository.isUnchanged s digests) = true
    · simp only [bind, Except.bind, idle]
      rfl
    · simp only [bind, Except.bind, idle]
      rcases a.repository.loadModule a.disk a.toolchain a.canceled with e | program <;> rfl

/-- What an attempt did that has something to do. -/
structure Writes (a : Attempt) (s : Store) (digests : Digests) (program : Checked.Program)
    (stats : Stats) (dump : Lsif.Writer) (db : Database) : Prop where
  going : a.canceled.seen .start = false
  read : a.repository.digests a.disk a.canceled = .ok digests
  busy : ¬ a.Idle s digests
  loaded : a.repository.loadModule a.disk a.toolchain a.canceled = .ok program
  opens : ∃ opened, a.repository.opens a.disk = .ok opened
  written : a.repository.writeGraph a.disk a.toolchain a.stamp a.canceled program digests s.database =
    .ok ((stats, dump), db)

theorem run_of_writes (isOpen : s.isOpen = true) {digests : Digests} {program : Checked.Program}
    {stats : Stats} {dump : Lsif.Writer} {db : Database}
    (h : a.Writes s digests program stats dump db) :
    a.run s = (a.outcome stats dump, { s with database := db }) := by
  obtain ⟨opened, opens⟩ := h.opens
  have indexed :=
    a.repository.index_eq a.disk a.toolchain a.stamp a.canceled program digests isOpen
  rw [opens, h.written] at indexed
  obtain ⟨result, store⟩ := Prod.mk.inj indexed
  rw [run_eq, if_neg (by simp [h.going]), h.read]
  simp only
  rw [if_neg (mt idle_iff.1 h.busy), h.loaded]
  simp only [result, store]
  rfl

/-- What an attempt does: it fails before it has written anything, finds nothing to do, or commits
a graph. -/
inductive Ends (a : Attempt) (s : Store) : Except UpdateError UpdateOutcome × Store → Prop where
  | failed {e : UpdateError} (early : ∀ reason, e ≠ .unfinished reason) : Ends a s (.error e, s)
  | idle {digests : Digests} (going : a.canceled.seen .start = false)
      (read : a.repository.digests a.disk a.canceled = .ok digests) (idle : a.Idle s digests) :
      Ends a s (.ok { unchanged := true }, s)
  | committed {digests : Digests} {program : Checked.Program} {stats : Stats}
      {dump : Lsif.Writer} {db : Database} (writes : a.Writes s digests program stats dump db) :
      Ends a s (a.outcome stats dump, { s with database := db })

/-- **An attempt fails before it has written anything, finds nothing to do, or commits.** -/
theorem run_ends (isOpen : s.isOpen = true) : Ends a s (a.run s) := by
  by_cases canceled : a.canceled.seen .start = true
  · rw [run_eq, if_pos canceled]
    exact .failed (by simp)
  have going : a.canceled.seen .start = false := by simpa using canceled
  rcases read : a.repository.digests a.disk a.canceled with e | digests
  · rw [run_eq, if_neg canceled, read]
    exact .failed fun reason same => Repository.digests_ne_unfinished reason (same ▸ read)
  by_cases idle : a.Idle s digests
  · rw [run_eq, if_neg canceled, read]
    simp only
    rw [if_pos (idle_iff.2 idle)]
    exact .idle going read idle
  rcases loaded : a.repository.loadModule a.disk a.toolchain a.canceled with e | program
  · rw [run_eq, if_neg canceled, read]
    simp only
    rw [if_neg (mt idle_iff.1 idle), loaded]
    exact .failed (by simp)
  have indexed :=
    a.repository.index_eq a.disk a.toolchain a.stamp a.canceled program digests isOpen
  have failing {e : UpdateError} (early : ∀ reason, e ≠ .unfinished reason)
      (same : ((a.repository.index a.disk a.toolchain a.stamp a.canceled program digests s).1,
        (a.repository.index a.disk a.toolchain a.stamp a.canceled program digests s).2.1) =
          (.error e, s)) :
      Ends a s (a.run s) := by
    obtain ⟨result, store⟩ := Prod.mk.inj same
    rw [run_eq, if_neg canceled, read]
    simp only
    rw [if_neg (mt idle_iff.1 idle), loaded]
    simp only [result, store]
    exact .failed early
  rcases opens : a.repository.opens a.disk with reason | opened
  · rw [opens] at indexed
    exact failing (by simp) indexed
  rw [opens] at indexed
  rcases written : a.repository.writeGraph a.disk a.toolchain a.stamp a.canceled program digests
    s.database with e | ⟨⟨stats, dump⟩, db⟩
  · rw [written] at indexed
    exact failing (fun reason same =>
      Repository.writeGraph_ne_unfinished s.database reason (same ▸ written)) indexed
  · have writes : a.Writes s digests program stats dump db :=
      ⟨going, read, idle, loaded, ⟨opened, opens⟩, written⟩
    rw [run_of_writes isOpen writes]
    exact .committed writes

/-- **An attempt that does not commit leaves the store as it was.** -/
theorem run_of_not_commits (isOpen : s.isOpen = true) (not : Commits (a.run s).1 = false) :
    (a.run s).2 = s := by
  have ends := run_ends (a := a) isOpen
  rcases result : a.run s with ⟨end_, s'⟩
  rw [result] at ends not
  cases ends with
  | failed | idle => rfl
  | committed writes => exact absurd (commits_outcome a _ _) (by rw [not]; decide)

/-- A graph that was committed was written. -/
theorem writes_of_commits (isOpen : s.isOpen = true) (commits : Commits (a.run s).1 = true) :
    ∃ digests program stats dump db, a.Writes s digests program stats dump db ∧
      a.run s = (a.outcome stats dump, { s with database := db }) := by
  have ends := run_ends (a := a) isOpen
  rcases result : a.run s with ⟨end_, s'⟩
  rw [result] at ends commits
  cases ends with
  | @failed e early =>
      cases e with
      | unfinished reason => exact absurd rfl (early reason)
      | _ => cases commits
  | idle => cases commits
  | @committed digests program stats dump db writes => exact ⟨_, _, _, _, _, writes, rfl⟩

/-- A store holds for a project what an attempt has committed: its record, the digests that it
read, and the graph that it commits to a store that holds nothing. -/
structure HeldBy (a : Attempt) (s : Store) : Prop where
  record : s.project a.repository.project = .ok (a.repository.record a.stamp)
  digests : ∃ digests, a.repository.digests a.disk = .ok digests ∧
    s.fileHashes a.repository.project = .ok digests.entries
  alone : Commits (a.run {}).1 = true
  graph : ∃ k : Store.Offset, Store.Echoes a.repository.project (·.moved k) (a.run {}).2 s

theorem HeldBy.echoed {s' : Store} (held : a.HeldBy s)
    (echoes : Store.Echoes a.repository.project id s s')
    (hashes : s'.fileHashes a.repository.project = s.fileHashes a.repository.project) :
    a.HeldBy s' := by
  obtain ⟨record, ⟨digests, read, stored⟩, alone, k, graph⟩ := held
  exact ⟨echoes.project.trans record, ⟨digests, read, hashes.trans stored⟩, alone, k,
    graph.trans echoes⟩

/-- **What an attempt commits**: the store holds it for its project, and spares the others. -/
theorem held_of_commits (isOpen : s.isOpen = true) (reached : s.database.Reached)
    (commits : Commits (a.run s).1 = true) :
    (a.run s).2.isOpen = true ∧ (a.run s).2.database.Reached ∧ a.HeldBy (a.run s).2 ∧
      Database.Spares a.repository.project s.database (a.run s).2.database := by
  obtain ⟨digests, program, stats, dump, db, writes, ran⟩ := writes_of_commits isOpen commits
  rw [ran]
  have sound := reached.sound
  have closed := reached.closed
  let record := a.repository.record a.stamp
  obtain ⟨elements, replaced, elsewhere⟩ := Repository.writeGraph_elsewhere sound writes.written
  obtain ⟨db₀, written₀, replaced₀⟩ := elsewhere {} .empty
  have blank : Database.Closed {} := Database.Reached.empty.closed
  have graph := Database.spares_indexed sound record elements closed
  have graph₀ := Database.spares_indexed .empty record elements blank
  have spares := Database.spares_replaceHashes graph.closed graph.sound replaced
  have spares₀ := Database.spares_replaceHashes graph₀.closed graph₀.sound replaced₀
  have alone : a.run {} = (a.outcome stats dump, { database := db₀ }) :=
    run_of_writes rfl ⟨writes.going, writes.read, not_idle_of_nil rfl digests, writes.loaded,
      writes.opens, written₀⟩
  have once : (s.database.written record elements).flush.database.Reached :=
    .indexed reached record elements
  have read := (Repository.digests_eq_ok_iff.1 writes.read).2
  refine ⟨isOpen, .replaceHashes once replaced,
    ⟨?_, ⟨digests, read, ?_⟩, ?_, s.database.offset, ?_⟩, graph.trans spares⟩
  · refine Eq.trans ?_ (Store.project_written sound isOpen record elements)
    exact Store.project_congr rfl (by rw [(graph_replaceHashes replaced "").2])
  · rw [Store.fileHashes_eq, Store.ask, if_pos (by exact isOpen)]
    exact congrArg Except.ok
      ((Database.hashesOf_replaceHashes replaced).1 digests.distinct)
  · rw [alone]
    exact commits_outcome a stats dump
  · rw [alone]
    refine .of_graphOf spares₀.sound spares₀.closed spares.sound spares.closed isOpen ?_ ?_
    · refine Store.project_congr isOpen ?_
      rw [(graph_replaceHashes replaced "").2, (graph_replaceHashes replaced₀ "").2,
        Store.projects_written sound, Store.projects_written (s := {}) .empty]
      exact (Table.get?_insert_self _ _ _).trans (Table.get?_insert_self _ _ _).symm
    · show db.graphOf record.name = (db₀.graphOf record.name).moved _
      rw [(graph_replaceHashes replaced _).1, (graph_replaceHashes replaced₀ _).1]
      exact Store.graphOf_written sound record elements

/-- **An attempt that commits somewhere commits in every store in which it has something to do.** -/
theorem commits_elsewhere {s' : Store} (isOpen : s.isOpen = true) (reached : s.database.Reached)
    (isOpen' : s'.isOpen = true) (reached' : s'.database.Reached)
    (busy : ∀ digests, ¬ a.Idle s' digests) (commits : Commits (a.run s).1 = true) :
    Commits (a.run s').1 = true := by
  obtain ⟨digests, program, stats, dump, db, writes, -⟩ := writes_of_commits isOpen commits
  obtain ⟨elements, -, elsewhere⟩ :=
    Repository.writeGraph_elsewhere reached.sound writes.written
  obtain ⟨db', written, -⟩ := elsewhere s'.database reached'.sound
  rw [run_of_writes isOpen' ⟨writes.going, writes.read, busy digests, writes.loaded,
    writes.opens, written⟩]
  exact commits_outcome a stats dump

/-- What an attempt does to the other projects. -/
theorem run_spares (isOpen : s.isOpen = true) (reached : s.database.Reached) :
    (a.run s).2.isOpen = true ∧ (a.run s).2.database.Reached ∧
      ∀ q, q ≠ a.repository.project → Store.Echoes q id s (a.run s).2 ∧
        (a.run s).2.fileHashes q = s.fileHashes q := by
  cases commits : Commits (a.run s).1 with
  | false =>
      rw [run_of_not_commits isOpen commits]
      exact ⟨isOpen, reached, fun q _ => ⟨.refl q s, rfl⟩⟩
  | true =>
      obtain ⟨isOpen', reached', -, spares⟩ := held_of_commits isOpen reached commits
      exact ⟨isOpen', reached', fun q other =>
        Store.Echoes.of_spares reached.sound reached.closed (isOpen'.trans isOpen.symm) spares
        other⟩

/-- An attempt reports that nothing changed. -/
def FindsNothing (a : Attempt) (s : Store) : Prop :=
  ∃ outcome, (a.run s).1 = .ok outcome ∧ outcome.unchanged = true

omit [ModuleNames] in
theorem reads_iff {digests : Digests} :
    (a.canceled.seen .start = false ∧ a.repository.digests a.disk a.canceled = .ok digests) ↔
      (∀ look ∈ a.repository.looks a.disk, a.canceled.seen look = false) ∧
        a.repository.digests a.disk = .ok digests := by
  rw [Repository.digests_eq_ok_iff, Repository.looks, List.forall_mem_cons, and_assoc]

theorem findsNothing_iff (isOpen : s.isOpen = true) : a.FindsNothing s ↔
    (∀ look ∈ a.repository.looks a.disk, a.canceled.seen look = false) ∧
      ∃ digests, a.repository.digests a.disk = .ok digests ∧ a.Idle s digests := by
  constructor
  · rintro ⟨outcome, ended, unchanged⟩
    have ends := run_ends (a := a) isOpen
    rcases result : a.run s with ⟨end_, s'⟩
    rw [result] at ends ended
    cases ends with
    | failed => cases ended
    | idle going read idle =>
        obtain ⟨unseen, read⟩ := reads_iff.1 ⟨going, read⟩
        exact ⟨unseen, _, read, idle⟩
    | @committed _ _ stats dump _ writes =>
        have commits := commits_outcome a stats dump
        rw [show a.outcome stats dump = .ok outcome from ended, Commits, unchanged] at commits
        cases commits
  · rintro ⟨unseen, digests, read, idle⟩
    obtain ⟨going, read⟩ := reads_iff.2 ⟨unseen, read⟩
    refine ⟨{ unchanged := true }, ?_, rfl⟩
    rw [run_eq, if_neg (by simp [going]), read]
    simp only
    rw [if_pos (idle_iff.2 idle)]

/-- Whether something changed depends only on what is stored for the project. -/
theorem findsNothing_congr {s' : Store} (isOpen : s.isOpen = true) (isOpen' : s'.isOpen = true)
    (project : s'.project a.repository.project = s.project a.repository.project)
    (hashes : s'.fileHashes a.repository.project = s.fileHashes a.repository.project) :
    a.FindsNothing s' ↔ a.FindsNothing s := by
  have same (digests : Digests) :
      a.repository.isUnchanged s' digests = a.repository.isUnchanged s digests := by
    rw [Repository.isUnchanged, project, hashes, Repository.isUnchanged]
  simp only [findsNothing_iff isOpen, findsNothing_iff isOpen', Idle, same]

/-- **When an attempt reports that nothing changed.** -/
theorem run_unchanged_iff (solid : ∀ content, Digester.digest content ≠ "")
    (isOpen : s.isOpen = true) (force : a.repository.force = false)
    (dumpPath : a.repository.dumpPath = "") :
    (∃ outcome, (a.run s).1 = .ok outcome ∧ outcome.unchanged = true) ↔
      (∀ look ∈ a.repository.looks a.disk, a.canceled.seen look = false) ∧
      ∃ digests, a.repository.digests a.disk = .ok digests ∧
        (∃ record, s.project a.repository.project = .ok record) ∧
        ∃ stored, s.fileHashes a.repository.project = .ok stored ∧
          ∀ path, Table.find? stored path = digests.get? path := by
  refine (findsNothing_iff isOpen).trans (and_congr_right fun _ => exists_congr fun digests =>
    and_congr_right fun read => ?_)
  obtain ⟨genuine, some_⟩ := Repository.genuine_digests read
  rw [Idle, Repository.isUnchanged_iff solid genuine some_]
  exact ⟨fun idle => idle.2.2, fun same => ⟨force, dumpPath, same⟩⟩

end Attempt

/-! ## Sequences of attempts -/

section Attempts

variable [Globs] [Digester] [ModuleNames] [SettingsFormat]

/-- The store after attempts, one after the other. -/
def after (s : Store) (attempts : List Attempt) : Store :=
  attempts.foldl (fun s a => (a.run s).2) s

/-- The last of these attempts that commits a graph of a project. -/
def lastCommit (p : String) : Store → List Attempt → Option Attempt
  | _, [] => none
  | s, a :: rest => (lastCommit p (a.run s).2 rest).or
      (if a.repository.project = p ∧ Commits (a.run s).1 = true then some a else none)

variable {s : Store}

theorem after_reached (isOpen : s.isOpen = true) (reached : s.database.Reached)
    (attempts : List Attempt) :
    (after s attempts).isOpen = true ∧ (after s attempts).database.Reached := by
  induction attempts generalizing s with
  | nil => exact ⟨isOpen, reached⟩
  | cons a rest ih =>
      obtain ⟨isOpen', reached', -⟩ := a.run_spares isOpen reached
      exact ih isOpen' reached'

/-- **A project has the digests and the graph of the last attempt that committed one**, and what
it had before if there was none. -/
theorem after_last (isOpen : s.isOpen = true) (reached : s.database.Reached)
    (attempts : List Attempt) (p : String) :
    (∀ a, lastCommit p s attempts = some a →
      a ∈ attempts ∧ a.repository.project = p ∧ a.HeldBy (after s attempts)) ∧
    (lastCommit p s attempts = none → Store.Echoes p id s (after s attempts) ∧
      (after s attempts).fileHashes p = s.fileHashes p) := by
  induction attempts generalizing s with
  | nil => exact ⟨fun _ found => (nomatch found), fun _ => ⟨.refl p s, rfl⟩⟩
  | cons a rest ih =>
      obtain ⟨isOpen', reached', others⟩ := a.run_spares isOpen reached
      obtain ⟨later, quiet⟩ := ih isOpen' reached'
      rw [lastCommit]
      cases last : lastCommit p (a.run s).2 rest with
      | some b =>
          refine ⟨fun c same => ?_, fun found => nomatch found⟩
          obtain rfl : b = c := Option.some.inj same
          obtain ⟨member, own, held⟩ := later b last
          exact ⟨List.mem_cons_of_mem _ member, own, held⟩
      | none =>
          obtain ⟨echoes, hashes⟩ := quiet last
          by_cases here : a.repository.project = p ∧ Commits (a.run s).1 = true
          · rw [if_pos here]
            obtain ⟨rfl, commits⟩ := here
            refine ⟨fun c same => ?_, fun found => nomatch found⟩
            obtain rfl : a = c := Option.some.inj same
            obtain ⟨-, -, held, -⟩ := Attempt.held_of_commits isOpen reached commits
            exact ⟨List.mem_cons_self, rfl, held.echoed echoes hashes⟩
          · rw [if_neg here]
            refine ⟨fun c found => (nomatch found), fun _ => ?_⟩
            have before : Store.Echoes p id s (a.run s).2 ∧
                (a.run s).2.fileHashes p = s.fileHashes p := by
              by_cases own : a.repository.project = p
              · have not : Commits (a.run s).1 = false := by simpa [own] using here
                rw [Attempt.run_of_not_commits isOpen not]
                exact ⟨.refl p s, rfl⟩
              · exact others p (Ne.symm own)
            exact ⟨before.1.trans echoes, hashes.trans before.2⟩

/-- **Digests and graph of a project are coupled, and changes are detected exactly.**  Begin with
any open store that there can be, and let any look of an attempt see that it is canceled.  An
attempt that does not commit leaves the store as it is.  An attempt that is not forced and writes no
dump reports that nothing changed exactly if no look until then sees that it is canceled, the
project is there, and its digests are stored as a finite map; the library is assumed never to digest
to an empty text.  And after any attempts, of any repositories on any disks, a project has the
digests and the graph of the last of them that committed a graph of it, or what it had before. -/
theorem attempts_coupled (solid : ∀ content, Digester.digest content ≠ "")
    (isOpen : s.isOpen = true) (reached : s.database.Reached) :
    (∀ attempts, (after s attempts).isOpen = true ∧ (after s attempts).database.Reached) ∧
    (∀ a : Attempt, Commits (a.run s).1 = false → (a.run s).2 = s) ∧
    (∀ a : Attempt, a.repository.force = false → a.repository.dumpPath = "" →
      ((∃ outcome, (a.run s).1 = .ok outcome ∧ outcome.unchanged = true) ↔
        (∀ look ∈ a.repository.looks a.disk, a.canceled.seen look = false) ∧
        ∃ digests, a.repository.digests a.disk = .ok digests ∧
          (∃ record, s.project a.repository.project = .ok record) ∧
          ∃ stored, s.fileHashes a.repository.project = .ok stored ∧
            ∀ path, Table.find? stored path = digests.get? path)) ∧
    ∀ attempts p,
      (∀ a, lastCommit p s attempts = some a →
        a ∈ attempts ∧ a.repository.project = p ∧ a.HeldBy (after s attempts)) ∧
      (lastCommit p s attempts = none → Store.Echoes p id s (after s attempts) ∧
        (after s attempts).fileHashes p = s.fileHashes p) :=
  ⟨after_reached isOpen reached, fun _ => Attempt.run_of_not_commits isOpen,
    fun _ => Attempt.run_unchanged_iff solid isOpen, after_last isOpen reached⟩

end Attempts

/-! ### A dump that cannot be finished -/

/-- A package of one file that says nothing else, to be dumped to a device without room. -/
def fullDump : Attempt where
  repository := { root := "/w", project := "p", dumpPath := "/full" }
  disk := { entries := .ofList [("/w", .directory), ("/w/a.go", .file "package a\n".toUTF8 0),
    ("/full", .link FileTree.fullDevice)] }
  toolchain := { answer := .ok {
    loaded := [{ id := "a", path := "a", package := some 0, files := [("/w/a.go",
      { extent := ⟨0, 9⟩, name := { name := "a", extent := ⟨8, 9⟩ } })] }]
    packages := #[{ path := "a", name := "a" }] } }

theorem hexOf_ne_empty (content : ByteArray) : Digest.hexOf content ≠ "" := by
  intro blank
  have digits : 16 ≤ (Digest.hexOf content).toList.length := by
    rw [Digest.hexOf, Text.hex, String.toList_ofList, List.length_append, List.length_replicate]
    omega
  rw [blank] at digits
  exact absurd digits (by decide)

/-- The attempt fails at the end of its dump, and the project is there. -/
theorem run_fullDump :
    (match fullDump.run {} with
      | (.error (.unfinished _), s) => (s.project "p").isOk
      | _ => false) = true := by
  decide +kernel

theorem commits_fullDump : ∃ reason record, (fullDump.run {}).1 = .error (.unfinished reason) ∧
    (fullDump.run {}).2.project "p" = .ok record := by
  have ends := run_fullDump
  split at ends
  · rename_i reason s run
    rw [run]
    cases recorded : s.project "p" with
    | error _ =>
        rw [recorded] at ends
        cases ends
    | ok record => exact ⟨reason, record, rfl, rfl⟩
  · cases ends

theorem attempts_coupled_fullDump :
    ∃ a b : Attempt, lastCommit "p" {} [a] = some a ∧ a.HeldBy (after {} [a]) ∧
      ∃ outcome, (b.run (after {} [a])).1 = .ok outcome ∧ outcome.unchanged = true := by
  obtain ⟨reason, record, ended, recorded⟩ := commits_fullDump
  have commits : Commits (fullDump.run {}).1 = true := by rw [ended, Commits]
  have last : lastCommit "p" {} [fullDump] = some fullDump := by
    rw [lastCommit, lastCommit, if_pos ⟨rfl, commits⟩]
    rfl
  have opened : ({} : Store).isOpen = true := rfl
  obtain ⟨stays, -, -, coupled⟩ := attempts_coupled hexOf_ne_empty opened .empty
  obtain ⟨-, -, held⟩ := (coupled [fullDump] "p").1 fullDump last
  obtain ⟨isOpen, reached⟩ := stays [fullDump]
  obtain ⟨digests, read, stored⟩ := held.digests
  let plain : Attempt := { fullDump with
    repository := { fullDump.repository with dumpPath := "" } }
  have readAgain : plain.repository.digests plain.disk = .ok digests :=
    (Repository.digests_without fullDump.repository "" fullDump.disk).trans read
  have nothing := ((attempts_coupled hexOf_ne_empty isOpen reached).2.2.1 plain rfl rfl).2
    ⟨fun _ _ => rfl, digests, readAgain, ⟨_, held.record⟩, digests.entries, stored, fun _ => rfl⟩
  exact ⟨fullDump, plain, last, held, nothing⟩

/-- **A failed attempt does not always leave the store as it was.**  The end of a dump is written
after the graph and the digests were committed. -/
theorem unfinished_commits : ∃ (a : Attempt) (e : UpdateError), (a.run {}).1 = .error e ∧
    (a.run {}).2.fileHashes a.repository.project ≠ Store.fileHashes {} a.repository.project ∧
    (a.run {}).2.project a.repository.project ≠ Store.project {} a.repository.project := by
  obtain ⟨reason, record, ended, recorded⟩ := commits_fullDump
  have commits : Commits (fullDump.run {}).1 = true := by rw [ended, Commits]
  obtain ⟨-, -, held, -⟩ := Attempt.held_of_commits rfl .empty commits
  obtain ⟨digests, read, stored⟩ := held.digests
  refine ⟨fullDump, _, ended, ?_, ?_⟩
  · rw [stored]
    intro same
    exact (Repository.genuine_digests read).2 (Except.ok.inj same)
  · rw [show fullDump.repository.project = "p" from rfl, recorded]
    exact fun same => nomatch same

end SymbolAtlas
