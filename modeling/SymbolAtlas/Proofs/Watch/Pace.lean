/-
# SymbolAtlas.Proofs.Watch.Pace -- how long a project that fails is left alone

After a failure the next look waits as long as looks are apart, twice as long for each earlier
failure, and never more than a minute (`backoff_succ`).  Earlier failures are those since the last
index that succeeded (`setbacks`), not those of the present streak (`streak`): a look that finds
nothing to do ends the streak, but only an index or a missing project makes the watcher forget
(`Watcher.Reached.failures`).

So the pace is that of the streak exactly if no look between the failures found nothing to do, or
if a minute is reached anyway (`backs_off`).
-/
import SymbolAtlas.Proofs.Watch.Rounds

set_option autoImplicit false

namespace SymbolAtlas.Watch

/-! ## Doubling -/

/-- To stop at a minute and to cut off at a minute come to the same. -/
theorem min_doubled (n : Nat) (d : Int) :
    min (doubled n d) maxInterval = min (d * 2 ^ n) maxInterval := by
  induction n generalizing d with
  | zero => rw [doubled, Int.pow_zero, Int.mul_one]
  | succ n ih =>
      rw [doubled]
      split
      · rw [ih, Int.pow_succ', ← Int.mul_assoc, Int.mul_comm 2 d]
      · rename_i long
        have enough : maxInterval ≤ d := Int.not_lt.1 long
        have more : d ≤ d * 2 ^ (n + 1) :=
          le_mul_of_one_le_right (Int.le_trans (by decide) enough) (one_le_pow₀ (by decide))
        rw [min_eq_right enough, min_eq_right (enough.trans more)]

/-- **The wait after a failure is twice as long for each earlier one.** -/
theorem backoff_succ (failures files : Nat) :
    backoff (failures + 1) files = min maxInterval (pollInterval files * 2 ^ failures) := by
  rw [backoff, Nat.add_sub_cancel, min_doubled, min_comm]

/-- Two numbers of failures lead to the same wait only if a minute is reached. -/
theorem wait_eq_iff {interval : Int} (positive : 0 < interval) {fewer more : Nat}
    (le : fewer ≤ more) :
    min maxInterval (interval * 2 ^ more) = min maxInterval (interval * 2 ^ fewer) ↔
      more = fewer ∨ maxInterval ≤ interval * 2 ^ fewer := by
  constructor
  · intro same
    by_contra! differs
    obtain ⟨apart, short⟩ := differs
    have longer : interval * 2 ^ fewer < interval * 2 ^ more :=
      mul_lt_mul_of_pos_left (pow_lt_pow_right₀ (by decide) (Nat.lt_of_le_of_ne le (Ne.symm apart)))
        positive
    rw [min_eq_right short.le] at same
    exact (lt_min short longer).ne' same
  · rintro (rfl | long)
    · rfl
    · have longer : interval * 2 ^ fewer ≤ interval * 2 ^ more :=
        mul_le_mul_of_nonneg_left (pow_le_pow_right₀ (by decide) le) positive.le
      rw [min_eq_left long, min_eq_left (long.trans longer)]

/-! ## Failures -/

/-- No snapshot could be taken, or no index succeeded. -/
def Look.fails : Look → Bool
  | .blocked | .failed _ => true
  | _ => false

/-- The number of files that the pace after a failure goes by: those of its own snapshot, or else
of the one that is remembered. -/
def Look.files (last : Option Snapshot) : Look → Nat
  | .failed new => new.sources.size
  | _ => (last.map (·.sources.size)).getD 0

namespace Event

def fails : Event → Bool
  | .looked _ look => look.fails
  | _ => false

/-- There is no look at the project. -/
def skips : Event → Bool
  | .unlisted | .looked _ .waits => true
  | _ => false

/-- Earlier failures are forgotten. -/
def recovers : Event → Bool
  | .gone | .looked _ (.indexed _) => true
  | _ => false

/-- A look that neither fails nor indexes the project. -/
def isQuiet (e : Event) : Bool := !e.fails && !e.skips && !e.recovers

/-- An event is of one kind. -/
theorem kinds (e : Event) :
    (e.fails = true ∧ e.skips = false ∧ e.recovers = false) ∨
    (e.fails = false ∧ e.skips = true ∧ e.recovers = false) ∨
    (e.fails = false ∧ e.skips = false ∧ e.recovers = true) ∨
      (e.fails = false ∧ e.skips = false ∧ e.recovers = false) := by
  cases e with
  | unlisted => exact .inr (.inl ⟨rfl, rfl, rfl⟩)
  | gone => exact .inr (.inr (.inl ⟨rfl, rfl, rfl⟩))
  | looked now look => cases look <;> simp [fails, skips, recovers, Look.fails]

end Event

/-- How many looks failed since the last index that succeeded, or since the project was missing. -/
def setbacks (history : List Event) : Nat :=
  (history.reverse.takeWhile fun e => !e.recovers).countP Event.fails

/-- How many looks failed since the last look that did not. -/
def streak (history : List Event) : Nat :=
  (history.reverse.takeWhile fun e => e.fails || e.skips).countP Event.fails

theorem setbacks_snoc (history : List Event) (e : Event) :
    setbacks (history ++ [e]) = if e.recovers then 0 else setbacks history + e.fails.toNat := by
  rw [setbacks, List.reverse_concat, List.takeWhile_cons]
  cases e.recovers with
  | true => rfl
  | false =>
      simp only [Bool.not_false, if_true, List.countP_cons]
      cases e.fails <;> rfl

theorem streak_snoc (history : List Event) (e : Event) :
    streak (history ++ [e]) =
      if e.fails || e.skips then streak history + e.fails.toNat else 0 := by
  rw [streak, List.reverse_concat, List.takeWhile_cons]
  cases e.fails || e.skips with
  | false => rfl
  | true =>
      simp only [if_true, List.countP_cons]
      cases e.fails <;> rfl

/-- **A streak is never longer than there were failures** since the last index. -/
theorem streak_le_setbacks (history : List Event) : streak history ≤ setbacks history := by
  induction history using List.reverseRecOn with
  | nil => exact Nat.le_refl _
  | append_singleton history e ih =>
      rw [setbacks_snoc, streak_snoc]
      rcases e.kinds with ⟨fails, skips, recovers⟩ | ⟨fails, skips, recovers⟩ |
        ⟨fails, skips, recovers⟩ | ⟨fails, skips, recovers⟩ <;>
        simp [fails, skips, recovers, ih]

/-- Since the last index, no failure came before a quiet look. -/
def Unbroken (history : List Event) : Prop :=
  ∀ early e later, history = early ++ e :: later → e.isQuiet = true →
    (∀ e' ∈ later, e'.recovers = false) → setbacks early = 0

theorem unbroken_nil : Unbroken [] := fun early e later split_ => by simp at split_

theorem unbroken_snoc {history : List Event} {last : Event} : Unbroken (history ++ [last]) ↔
    (last.isQuiet = true → setbacks history = 0) ∧ (last.recovers = false → Unbroken history) := by
  constructor
  · intro unbroken
    refine ⟨fun quiet => unbroken history last [] rfl quiet (by simp),
      fun lasts early e later split_ quiet none_ => ?_⟩
    have split' : history ++ [last] = early ++ e :: (later ++ [last]) := by
      rw [split_, List.append_assoc, List.cons_append]
    refine unbroken early e (later ++ [last]) split' quiet fun e' member => ?_
    obtain inside | here := List.mem_append.1 member
    · exact none_ e' inside
    · rwa [List.mem_singleton.1 here]
  · rintro ⟨ending, earlier⟩ early e later split_ quiet none_
    rcases List.eq_nil_or_concat later with rfl | ⟨rest, e', rfl⟩
    · obtain ⟨rfl, same⟩ := List.append_inj' split_ rfl
      exact ending ((List.cons.inj same).1 ▸ quiet)
    · rw [List.concat_eq_append] at split_ none_
      rw [← List.cons_append, ← List.append_assoc] at split_
      obtain ⟨before, same⟩ := List.append_inj' split_ rfl
      have here : e' = last := (List.cons.inj same).1.symm
      have lasts : last.recovers = false :=
        here ▸ none_ e' (List.mem_append_right _ (List.mem_singleton_self e'))
      exact earlier lasts early e rest before quiet fun e' member =>
        none_ e' (List.mem_append_left _ member)

/-- **Every failure since the last index is part of the streak exactly if none came before a quiet
look.** -/
theorem setbacks_eq_streak_iff (history : List Event) :
    setbacks history = streak history ↔ Unbroken history := by
  induction history using List.reverseRecOn with
  | nil => exact iff_of_true rfl unbroken_nil
  | append_singleton history last ih =>
      rw [unbroken_snoc, ← ih, setbacks_snoc, streak_snoc, Event.isQuiet]
      rcases last.kinds with ⟨fails, skips, recovers⟩ | ⟨fails, skips, recovers⟩ |
        ⟨fails, skips, recovers⟩ | ⟨fails, skips, recovers⟩
      · simp [fails, skips, recovers]
      · simp [fails, skips, recovers]
      · simp [fails, skips, recovers]
      · have none_ (zero : setbacks history = 0) : setbacks history = streak history := by
          have short := streak_le_setbacks history
          rw [zero] at short ⊢
          exact (Nat.le_zero.1 short).symm
        simpa [fails, skips, recovers] using none_

/-! ## The pace of a run -/

theorem Event.failures_apply (e : Event) (known : Option Watched) :
    ((e.apply known).getD {}).failures =
      if e.recovers then 0 else (known.getD {}).failures + e.fails.toNat := by
  cases e with
  | unlisted => rfl
  | gone => rfl
  | looked now look => cases look <;> rfl

/-- What a failed look plans. -/
theorem Watched.nextPoll_of_fails (w : Watched) (now : Int) {look : Look}
    (failed : look.fails = true) : (w.after now look).nextPoll = some (now + min maxInterval
      (pollInterval (look.files w.last) * 2 ^ w.failures)) := by
  rw [← backoff_succ]
  cases look with
  | blocked | failed _ => rfl
  | waits | rootGone | baseline _ | unchanged _ | indexed _ => cases failed

section Runs

variable [Globs] [SettingsFormat]

namespace Watcher.Reached

variable {w : Watcher} {history : String → List Event} {time : Int}

/-- **A watcher counts the failures since the last index**, or since the project was missing. -/
theorem failures (h : Reached history time w) (name : String) :
    (w.of name).failures = setbacks (history name) := by
  induction h with
  | start => rfl
  | round earlier r later ran answered ih =>
      rw [Watcher.of, r.known ran answered, Event.failures_apply, setbacks_snoc, ← ih]
      rfl

/-- **When a project that failed is looked at again.** -/
theorem nextPoll (h : Reached history time w) {name : String} {before : List Event} {now : Int}
    {look : Look} (last : history name = before ++ [.looked now look])
    (failed : look.fails = true) : (w.of name).nextPoll = some (now + min maxInterval
      (pollInterval (look.files (remembered before)) * 2 ^ setbacks before)) := by
  cases h with
  | start => simp at last
  | @round σ history _ u _ earlier r later _ _ ran answer answered =>
      obtain ⟨rfl, same⟩ := List.append_inj' last rfl
      have event : r.event u answer name = .looked now look := (List.cons.inj same).1
      rw [Watcher.of, r.known ran answered, event, ← earlier.last, ← earlier.failures]
      exact Watched.nextPoll_of_fails (u.of name) now failed

end Watcher.Reached

/-- **After a failure a project is left alone twice as long for each failure since the last
index.**  After any rounds, with anything in between,

* the watcher counts the looks that failed since the last index that succeeded, or since the
  project was missing from the store;
* after a look that failed, the next one is as far away as looks at so many files are, twice as far
  for each failure counted before, and never more than a minute;
* the streak of failures determines it exactly if it counts the same, or reaches the minute alone;
* and it counts the same exactly if no failure came before a look that found nothing to do. -/
theorem backs_off {w : Watcher} {history : String → List Event} {time : Int}
    (h : Watcher.Reached history time w) (name : String) :
    (w.of name).failures = setbacks (history name) ∧
    (∀ before now look, history name = before ++ [.looked now look] → look.fails = true →
      (w.of name).nextPoll = some (now + min maxInterval
        (pollInterval (look.files (remembered before)) * 2 ^ setbacks before)) ∧
      streak (history name) = streak before + 1 ∧
      (0 < pollInterval (look.files (remembered before)) →
        ((w.of name).nextPoll = some (now + min maxInterval
            (pollInterval (look.files (remembered before)) * 2 ^ (streak (history name) - 1))) ↔
          setbacks before = streak before ∨
            maxInterval ≤ pollInterval (look.files (remembered before)) * 2 ^ streak before)) ∧
      (setbacks before = streak before ↔ Unbroken before)) := by
  refine ⟨h.failures name, fun before now look last failed => ?_⟩
  have planned := h.nextPoll last failed
  have longer : streak (history name) = streak before + 1 := by
    have fails : (Event.looked now look).fails = true := failed
    rw [last, streak_snoc, fails]
    rfl
  refine ⟨planned, longer, fun positive => ?_, setbacks_eq_streak_iff before⟩
  rw [planned, longer, Nat.add_sub_cancel, Option.some.injEq, Int.add_right_inj,
    wait_eq_iff positive (streak_le_setbacks before)]

end Runs

/-! ### Rounds on one folder -/

/-- What a watcher comes to in rounds at times, on a source that was written at another time. -/
def folderRun (history : String → List Event) (w : Watcher) :
    List (Int × Int) → (String → List Event) × Watcher
  | [] => (history, w)
  | (now, modified) :: rest =>
      let r := folderRound now modified folderStore folderStore_reached
      folderRun (fun name => history name ++ [r.event w (fun _ => false) name])
        (afterRound w r) rest

theorem Watcher.Reached.folderRun {w : Watcher} {history : String → List Event} {time : Int}
    (h : Watcher.Reached history time w) (rounds : List (Int × Int))
    (ordered : (time :: rounds.map (·.1)).IsChain (· ≤ ·)) :
    ∃ time', Watcher.Reached (folderRun history w rounds).1 time'
      (folderRun history w rounds).2 := by
  induction rounds generalizing w history time with
  | nil => exact ⟨time, h⟩
  | cons first rest ih =>
      obtain ⟨later, ordered⟩ := List.isChain_cons_cons.1 ordered
      exact ih (h.folder later first.2 folderStore folderStore_reached) ordered

/-- The second, third and fourth rounds fail. -/
def failing : (String → List Event) × Watcher :=
  folderRun (fun _ => []) {} [(0, 0), (5000, 1), (10000, 1), (15000, 1)]

/-- The source is as it was in the third round, and the second and fourth fail. -/
def interrupted : (String → List Event) × Watcher :=
  folderRun (fun _ => []) {} [(0, 0), (5000, 1), (10000, 0), (15000, 1)]

theorem events_failing :
    (match failing.1 "p" with
    | [.looked 0 (.baseline _), .looked 5000 (.failed _), .looked 10000 (.failed _),
        .looked 15000 (.failed new)] => new.sources.size == 1
    | _ => false) = true := by
  decide +kernel

theorem backs_off_failing :
    ∃ history time w, Watcher.Reached history time w ∧ ∃ before new,
      history "p" = before ++ [.looked 15000 (.failed new)] ∧ (Look.failed new).fails = true ∧
      streak (history "p") = 3 ∧ 0 < pollInterval ((Look.failed new).files (remembered before)) ∧
      (w.of "p").nextPoll = some (15000 + 4000) := by
  obtain ⟨time, reached⟩ := (Watcher.Reached.start 0).folderRun
    [(0, 0), (5000, 1), (10000, 1), (15000, 1)] (by decide)
  refine ⟨failing.1, time, failing.2, reached, ?_⟩
  have seen := events_failing
  split at seen
  · rename_i first second third last events
    let before : List Event :=
      [.looked 0 (.baseline first), .looked 5000 (.failed second), .looked 10000 (.failed third)]
    have split_ : failing.1 "p" = before ++ [.looked 15000 (.failed last)] := events
    have files : (Look.failed last).files (remembered before) = 1 := eq_of_beq seen
    have positive : 0 < pollInterval ((Look.failed last).files (remembered before)) := by
      rw [files]
      decide
    obtain ⟨-, paced⟩ := backs_off reached "p"
    obtain ⟨planned, -, -, -⟩ := paced before 15000 (.failed last) split_ rfl
    have streak_ : streak (failing.1 "p") = 3 := by rw [events]; rfl
    have earlier : setbacks before = 2 := rfl
    refine ⟨before, last, split_, rfl, streak_, positive, planned.trans ?_⟩
    rw [files, earlier]
    decide
  · cases seen

theorem events_interrupted :
    (match interrupted.1 "p" with
    | [.looked 0 (.baseline _), .looked 5000 (.failed _), .looked 10000 (.unchanged _),
        .looked 15000 (.failed new)] => new.sources.size == 1
    | _ => false) = true ∧ (interrupted.2.of "p").nextPoll = some 17000 := by
  decide +kernel

/-- **A quiet look does not make the watcher forget.**  The only failure of the streak is followed
by two seconds where looks are one second apart. -/
theorem backs_off_after_quiet :
    ∃ history time w, Watcher.Reached history time w ∧ ∃ before new,
      history "p" = before ++ [.looked 15000 (.failed new)] ∧ (Look.failed new).fails = true ∧
      streak (history "p") = 1 ∧ pollInterval new.sources.size = 1000 ∧
      (w.of "p").nextPoll = some (15000 + 2000) ∧
      (w.of "p").nextPoll ≠ some (15000 + min maxInterval
        (pollInterval new.sources.size * 2 ^ (streak (history "p") - 1))) := by
  obtain ⟨time, reached⟩ := (Watcher.Reached.start 0).folderRun
    [(0, 0), (5000, 1), (10000, 0), (15000, 1)] (by decide)
  refine ⟨interrupted.1, time, interrupted.2, reached, ?_⟩
  obtain ⟨seen, planned⟩ := events_interrupted
  split at seen
  · rename_i first second third last events
    have files : last.sources.size = 1 := eq_of_beq seen
    have alone : streak (interrupted.1 "p") = 1 := by rw [events]; rfl
    refine ⟨[.looked 0 (.baseline first), .looked 5000 (.failed second),
      .looked 10000 (.unchanged third)], last, events, rfl, alone, ?_, planned, ?_⟩
    · rw [files]
      decide
    · rw [planned, alone, files]
      decide
  · cases seen

end SymbolAtlas.Watch
