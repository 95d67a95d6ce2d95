import Engine3.Core.TimedTaskQueue
import Engine3.System.QueueRuns

/-!
# Runs of the timed task queue

Every interleaving of calls by other threads with the consumer's way through `get`. What the
queue should hold after a run is read off its history alone: the tasks that were added and
neither removed nor handed out since.
-/
namespace Engine3

open TimedTaskQueue

structure Scheduling (ι : Type) where
  tasks : TimedTaskQueue ι
  consumer : Consumer ι
  clock : Time

namespace Scheduling

variable {ι : Type} [LinearOrder ι]

inductive Action (ι : Type)
  | add (task : ι)
  | addDelayed (task : ι) (delay : Nat) (now : Time)
  | addAt (task : ι) (time : Time)
  | remove (task : ι)
  | wake
  | flush
  | get (woke checked : Time)

/-- The clock never goes back. -/
def Enabled (clock : Time) : Action ι → Prop
  | .addDelayed _ _ now => clock.key ≤ now.key
  | .get woke checked => clock.key ≤ woke.key ∧ woke.key ≤ checked.key
  | _ => True

def call (s : Scheduling ι) (clock : Time) (m : TaskM ι Bool) :
    Except Exception (Option ι × Scheduling ι) :=
  match m s.tasks with
  | .error e _ => .error e
  | .ok _ tasks => .ok (none, { s with tasks, clock })

def perform (s : Scheduling ι) : Action ι → Except Exception (Option ι × Scheduling ι)
  | .add task => s.call s.clock (add task)
  | .addDelayed task delay now => s.call now (addDelayed task delay now)
  | .addAt task time => s.call s.clock (addAt task time)
  | .remove task => s.call s.clock (remove task)
  -- only signals, and the consumer may wake up at any time
  | .wake => .ok (none, s)
  | .flush => .ok (none, { s with tasks := s.tasks.flush })
  | .get woke checked =>
    match resume woke checked s.consumer s.tasks with
    | .error e _ => .error e
    | .ok progress tasks => .ok (progress.task, ⟨tasks, progress.next, checked⟩)

/-! ### Histories -/

abbrev History (ι : Type) := List (Action ι × Option ι)

def Action.isFlush : Action ι → Bool
  | .flush => true
  | _ => false

def flushed (history : History ι) : Bool := history.any fun event => event.1.isFlush

def after (flushed : Bool) (pending : Finset ι) : Action ι → Option ι → Finset ι
  | .add task, _ => added flushed task pending
  | .addDelayed task _ _, _ => added flushed task (pending.erase task)
  | .addAt task _, _ => added flushed task (pending.erase task)
  | .remove task, _ => pending.erase task
  | .wake, _ => pending
  | .flush, _ => pending
  | .get _ _, handedOut => handedOut.elim pending pending.erase

def pending : History ι → Finset ι
  | [] => ∅
  | (action, handedOut) :: history => after (flushed history) (pending history) action handedOut

def Action.adds (task : ι) : Action ι → Bool
  | .add task' => task' = task
  | .addDelayed task' _ _ => task' = task
  | .addAt task' _ => task' = task
  | _ => false

def additions (task : ι) : History ι → Nat
  | [] => 0
  | (action, _) :: history =>
    additions task history + if action.adds task && !flushed history then 1 else 0

def deliveries (task : ι) (history : History ι) : Nat :=
  history.countP fun event => event.2 = some task

/-- The states that the actions lead to, from an empty queue and tasks with any times. -/
inductive Runs : Scheduling ι → History ι → Prop
  | start (nextExecutionTime : ι → Time) (clock : Time) :
    Runs ⟨start nextExecutionTime, .idle, clock⟩ []
  | step (s s' : Scheduling ι) (history : History ι) (action : Action ι) (handedOut : Option ι)
    (before : Runs s history) (enabled : Enabled s.clock action)
    (performed : s.perform action = .ok (handedOut, s')) :
    Runs s' ((action, handedOut) :: history)

/-! ### The invariant of a run -/

structure Invariant (s : Scheduling ι) (history : History ι) : Prop where
  sound : Sound s.tasks (pending history)
  agrees : Agrees s.tasks s.consumer
  blocked : s.tasks.blocked = flushed history

theorem Invariant.call {s : Scheduling ι} {history : History ι} (inv : Invariant s history)
    (action : Action ι) (quiet : action.isFlush = false) (clock : Time) (m : TaskM ι Bool)
    (spec : ∃ answer tasks, m s.tasks = .ok answer tasks ∧
      Sound tasks (after s.tasks.blocked (pending history) action none) ∧
      PlanKept s.tasks tasks ∧ tasks.blocked = s.tasks.blocked) :
    ∃ s', s.call clock m = .ok (none, s') ∧ Invariant s' ((action, none) :: history) := by
  obtain ⟨answer, tasks, ran, sound, kept, blocked⟩ := spec
  rw [inv.blocked] at sound
  refine ⟨⟨tasks, s.consumer, clock⟩, by simp only [Scheduling.call, ran], sound,
    inv.agrees.of_planKept kept, ?_⟩
  simp [blocked, inv.blocked, flushed, quiet]

variable {s : Scheduling ι} {history : History ι}

theorem Invariant.perform (inv : Invariant s history) (action : Action ι)
    (enabled : Enabled s.clock action) : ∃ handedOut s', s.perform action = .ok (handedOut, s') ∧
      Invariant s' ((action, handedOut) :: history) ∧
      ∀ task, handedOut = some task → ∃ woke checked, action = .get woke checked ∧
        Due s.tasks (pending history) woke checked task := by
  obtain ⟨sound, agrees, blocked⟩ := inv
  have inv : Invariant s history := ⟨sound, agrees, blocked⟩
  cases action with
  | add task =>
    obtain ⟨answer, tasks, ran, sound', kept, -, op⟩ := add_spec sound task
    obtain ⟨s', called, inv'⟩ := inv.call (.add task) rfl s.clock _
      ⟨answer, tasks, ran, sound', kept, op⟩
    exact ⟨none, s', called, inv', by simp⟩
  | addDelayed task delay now =>
    obtain ⟨s', called, inv'⟩ := inv.call (.addDelayed task delay now) rfl now _
      (addDelayed_spec sound task delay now)
    exact ⟨none, s', called, inv', by simp⟩
  | addAt task time =>
    obtain ⟨s', called, inv'⟩ := inv.call (.addAt task time) rfl s.clock _
      (addAt_spec sound task time)
    exact ⟨none, s', called, inv', by simp⟩
  | remove task =>
    obtain ⟨answer, tasks, ran, sound', kept, -, op⟩ := remove_spec sound task
    obtain ⟨s', called, inv'⟩ := inv.call (.remove task) rfl s.clock _
      ⟨answer, tasks, ran, sound', kept, op⟩
    exact ⟨none, s', called, inv', by simp⟩
  | wake => exact ⟨none, s, rfl,
    ⟨sound, agrees, by simp [blocked, flushed, Action.isFlush]⟩, by simp⟩
  | flush =>
    refine ⟨none, _, rfl, ⟨sound.congr rfl rfl rfl rfl, agrees.of_planKept ?_, ?_⟩, by simp⟩
    · exact ⟨rfl, fun _ => .inr ⟨rfl, rfl, fun _ _ => rfl⟩⟩
    · simp [flush, flushed, Action.isFlush]
  -- the only action that hands a task out, and only one that is due
  | get woke checked =>
    obtain ⟨progress, tasks, ran, resumed⟩ :=
      resume_spec sound agrees enabled.2
    refine ⟨progress.task, _, by simp only [Scheduling.perform, ran]; rfl,
      ⟨resumed.sound, resumed.agrees, ?_⟩, ?_⟩
    · simp [resumed.blocked, blocked, flushed, Action.isFlush]
    · intro task handed
      exact ⟨woke, checked, rfl, resumed.due task handed⟩

omit [LinearOrder ι] in
theorem invariant_start [LinearOrder ι] (nextExecutionTime : ι → Time) (clock : Time) :
    Invariant ⟨start nextExecutionTime, .idle, clock⟩ [] := by
  refine ⟨⟨⟨.leaf, ?_, by simp [pending], trivial⟩, ?_, ?_⟩, trivial, rfl⟩
  · exact ⟨trivial, rfl, rfl, by simp, by simp, by simp⟩
  · exact fun _ _ => ⟨rfl, rfl, rfl, rfl⟩
  · simp [start, pending]

theorem Runs.invariant (runs : Runs s history) : Invariant s history := by
  induction runs with
  | start nextExecutionTime clock => exact invariant_start nextExecutionTime clock
  | step s s' history action handedOut _ enabled performed ih =>
    obtain ⟨handedOut', s'', performed', inv, -⟩ := ih.perform action enabled
    rw [performed] at performed'
    cases performed'
    exact inv

/-! ### Deliveries -/

theorem mem_added {flushed : Bool} {task x : ι} {pending : Finset ι}
    (hin : x ∈ added flushed task pending) : x ∈ pending ∨ task = x ∧ flushed = false := by
  unfold added at hin
  split at hin
  · exact .inl hin
  next open_ =>
    rcases Finset.mem_insert.mp hin with rfl | old
    · exact .inr ⟨rfl, by simpa using open_⟩
    · exact .inl old

theorem mem_after {flushed : Bool} {pending : Finset ι} {action : Action ι} {handedOut : Option ι}
    {x : ι} (hin : x ∈ after flushed pending action handedOut) :
    x ∈ pending ∨ action.adds x = true ∧ flushed = false := by
  cases action with
  | add task => exact (mem_added hin).imp id (And.imp (by simp [Action.adds]) id)
  | addDelayed task delay now =>
    exact (mem_added hin).imp Finset.mem_of_mem_erase (And.imp (by simp [Action.adds]) id)
  | addAt task time =>
    exact (mem_added hin).imp Finset.mem_of_mem_erase (And.imp (by simp [Action.adds]) id)
  | remove task => exact .inl (Finset.mem_of_mem_erase hin)
  | wake => exact .inl hin
  | flush => exact .inl hin
  | get woke checked =>
    cases handedOut with
    | none => exact .inl hin
    | some task => exact .inl (Finset.mem_of_mem_erase hin)

theorem Runs.deliveries_le (runs : Runs s history) (task : ι) :
    deliveries task history + (if task ∈ pending history then 1 else 0) ≤
      additions task history := by
  induction runs with
  | start => simp [deliveries, pending, additions]
  | step s s' history action handedOut before enabled performed ih =>
    obtain ⟨handedOut', s'', performed', -, due⟩ := before.invariant.perform action enabled
    rw [performed] at performed'
    cases performed'
    simp only [deliveries, List.countP_cons, additions] at ih ⊢
    by_cases handed : handedOut = some task
    · -- it was pending, and is not any more
      obtain ⟨woke, checked, rfl, isDue⟩ := due task handed
      have gone : task ∉ pending ((.get woke checked, handedOut) :: history) := by
        simp [pending, after, handed]
      rw [if_pos isDue.member] at ih
      rw [if_pos (by simpa using handed), if_neg gone]
      omega
    · have kept : (if task ∈ pending ((action, handedOut) :: history) then 1 else 0) ≤
          (if task ∈ pending history then 1 else 0) +
            if action.adds task && !flushed history then 1 else 0 := by
        split
        next inside =>
          rcases mem_after inside with old | ⟨new, op⟩
          · simp [old]
          · simp [new, op]
        · omega
      rw [if_neg (by simpa using handed)]
      omega

/-- `get` returns a task that none is due before, at most as often as it was added. -/
theorem runs_deliver {s : Scheduling ι} {history : History ι} (runs : Runs s history) :
    (∀ x, Queues.Reaches s.tasks.mem s.tasks.queue.root x ↔ x ∈ pending history) ∧
      (∀ task, deliveries task history ≤ additions task history) ∧
      ∀ action, Enabled s.clock action → ∃ handedOut s', s.perform action = .ok (handedOut, s') ∧
        ∀ task, handedOut = some task → ∃ woke checked, action = .get woke checked ∧
          Due s.tasks (pending history) woke checked task ∧
          s'.tasks.taskScheduler task = false ∧
          ¬ Queues.Reaches s'.tasks.mem s'.tasks.queue.root task := by
  have holds {s : Scheduling ι} {history : History ι} (inv : Invariant s history) (x : ι) :
      Queues.Reaches s.tasks.mem s.tasks.queue.root x ↔ x ∈ pending history := by
    obtain ⟨t, queued, members, -⟩ := inv.sound.tree
    rw [Queues.reaches_iff queued, members]
  refine ⟨holds runs.invariant, fun task => ?_, fun action enabled => ?_⟩
  · exact le_trans (Nat.le_add_right ..) (runs.deliveries_le task)
  · obtain ⟨handedOut, s', performed, inv, due⟩ := runs.invariant.perform action enabled
    refine ⟨handedOut, s', performed, ?_⟩
    intro task handed
    obtain ⟨woke, checked, rfl, isDue⟩ := due task handed
    have gone : task ∉ pending ((.get woke checked, handedOut) :: history) := by
      simp [pending, after, handed]
    refine ⟨woke, checked, rfl, isDue, ?_, mt (holds inv task).mp gone⟩
    simpa using mt (inv.sound.scheduled task).mp gone

theorem runs_deliver_due_task :
    let history : History (Fin 2) :=
      [(.get ⟨0, 0⟩ ⟨0, 0⟩, none), (.addAt 1 ⟨1, 0⟩, none), (.addAt 0 ⟨2, 0⟩, none)]
    ∃ s s' : Scheduling (Fin 2), Runs s history ∧
      s.perform (.get ⟨1, 0⟩ ⟨1, 0⟩) = .ok (some 1, s') ∧
      Due s.tasks (pending history) ⟨1, 0⟩ ⟨1, 0⟩ 1 ∧ s'.tasks.taskScheduler 1 = false := by
  have first := Runs.step (ι := Fin 2) _ _ _ (.addAt 0 ⟨2, 0⟩) none
    (.start (fun _ => ⟨0, 0⟩) ⟨0, 0⟩) trivial rfl
  have second := Runs.step _ _ _ (.addAt 1 ⟨1, 0⟩) none first trivial rfl
  have runs := Runs.step _ _ _ (.get ⟨0, 0⟩ ⟨0, 0⟩) none second ⟨by decide, by decide⟩ rfl
  obtain ⟨handedOut, s', performed, delivered⟩ :=
    (runs_deliver runs).2.2 (.get ⟨1, 0⟩ ⟨1, 0⟩) ⟨by decide, by decide⟩
  obtain rfl : handedOut = some 1 := congrArg Prod.fst (Except.ok.inj performed.symm)
  obtain ⟨woke, checked, same, due, unscheduled, -⟩ := delivered 1 rfl
  cases same
  exact ⟨_, s', runs, performed, due, unscheduled⟩

theorem get_hands_out_early : ∃ (s s' : Scheduling (Fin 1)) (history : History (Fin 1)),
    Runs s history ∧ flushed history = false ∧
    Enabled s.clock (.get ⟨0, 500000⟩ ⟨0, 500000⟩ : Action (Fin 1)) ∧
    s.perform (.get ⟨0, 500000⟩ ⟨0, 500000⟩) = .ok (some 0, s') ∧
    s.tasks.nextExecutionTime 0 = ⟨0, 10999000⟩ := by
  have added := Runs.step (ι := Fin 1) _ _ _ (.addAt 0 ⟨0, 10999000⟩) none
    (.start (fun _ => ⟨0, 0⟩) ⟨0, 0⟩) trivial rfl
  have waiting := Runs.step _ _ _ (.get ⟨0, 0⟩ ⟨0, 0⟩) none added ⟨by decide, by decide⟩ rfl
  exact ⟨_, _, _, waiting, rfl, ⟨by decide, by decide⟩, rfl, rfl⟩

end Scheduling

end Engine3
