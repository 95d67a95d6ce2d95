import Engine3.System.LinkedList

/-!
# Task queues

`engine/core/TaskQueue`: a linked list of tasks behind a mutex, with threads that wait for a task.
Every call holds the mutex from its start to its end, but for `pop`, which gives it up while it
waits. Runs of calls of several threads are therefore runs of whole calls, with `pop` in two parts
where it waits, and the second part at any time.

The queue holds a reference to every task in it. `push`, `pushFront` and `pushRandom` acquire one;
`pushAll` is given the references its caller has acquired, as `LocalTaskManager::mergeTasks` does;
`pop` gives the queue's reference to its caller, and `flush` releases it.
-/
namespace Engine3

open Exec Lockstep List LinkedList Function

structure TaskQueue (T : Type) where
  list : LinkedList (Option T)
  locked : Bool
  blocked : Bool
  waiting : Nat
  references : T → Int
  outside : T → Int
  taskScheduler : T → Option Nat

namespace TaskQueue

variable {T : Type}

inductive Failure
  | list (f : LinkedList.Failure)
  | deadlock
  | null
  | outOfFuel
  deriving DecidableEq

abbrev QueueM (T : Type) := EStateM Failure (TaskQueue T)

def onList {α : Type} (m : ListM (Option T) α) : QueueM T α := fun s =>
  match m s.list with
  | .ok a l => .ok a { s with list := l }
  | .error f l => .error (.list f) { s with list := l }

def lock : QueueM T Unit := do
  if (← get).locked then throw .deadlock
  else modify fun s => { s with locked := true }

def unlock : QueueM T Unit := modify fun s => { s with locked := false }

def wait : QueueM T Unit := modify fun s => { s with locked := false, waiting := s.waiting + 1 }

def new (references : T → Int) : TaskQueue T where
  list := LinkedList.new
  locked := false
  blocked := false
  waiting := 0
  references := references
  outside := references
  taskScheduler := fun _ => none

def isEmpty : QueueM T Bool := do return (← get).list.count = 0

section Operations

variable [DecidableEq T]

def acquire (task : T) : QueueM T Unit := modify fun s =>
  { s with references := update s.references task (s.references task + 1) }

def release (task : T) : QueueM T Unit := modify fun s =>
  { s with references := update s.references task (s.references task - 1) }

def setTaskScheduler (task : T) (scheduler : Option Nat) : QueueM T Unit := modify fun s =>
  if s.taskScheduler task = none then
    { s with taskScheduler := update s.taskScheduler task scheduler }
  else s

def clearTaskScheduler (task : T) : QueueM T Unit := modify fun s =>
  { s with taskScheduler := update s.taskScheduler task none }

def pushing (m : QueueM T Unit) : QueueM T Unit := do
  lock
  if (← get).blocked then unlock
  else
    m
    unlock

def push (task : T) : QueueM T Unit := pushing do
  acquire task
  onList (add (some task))

def pushFront (task : T) : QueueM T Unit := pushing do
  onList (addAt 0 (some task))
  acquire task

def randomPosition (draw : Nat) (size : Int) : Int32 :=
  if 0 < size then Int32.ofInt (draw % size) else 0

def pushRandom (task : T) (draw : Nat) : QueueM T Unit := pushing do
  onList (addAt (randomPosition draw (← get).list.count) (some task))
  acquire task

def addAll : List T → QueueM T Unit
  | [] => return ()
  | task :: tasks => do
    onList (add (some task))
    addAll tasks

def pushAll (tasks : List T) : QueueM T Unit := pushing (addAll tasks)

def popFront : QueueM T (Option T) := do
  match ← onList (remove 0) with
  | none => throw .null
  | some task =>
    setTaskScheduler task none
    unlock
    return some task

inductive Popped (T : Type)
  | task (t : Option T)
  | waiting

def pop : QueueM T (Popped T) := do
  lock
  if ← isEmpty then
    if (← get).blocked then
      unlock
      return .task none
    else
      wait
      return .waiting
  else
    let task ← popFront
    return .task task

def resume : QueueM T (Option T) := do
  lock
  modify fun s => { s with waiting := s.waiting - 1 }
  if ← isEmpty then
    unlock
    return none
  else popFront

def flushAll : Nat → QueueM T Unit
  | 0 => do
    if ← isEmpty then return () else throw .outOfFuel
  | fuel + 1 => do
    if ← isEmpty then return ()
    else
      match ← onList (remove 0) with
      | none => throw .null
      | some task =>
        clearTaskScheduler task
        release task
        flushAll fuel

def flush : QueueM T Unit := do
  lock
  modify fun s => { s with blocked := true }
  flushAll (← get).list.count.toNat
  unlock

end Operations

/-! ### Runs -/

inductive Op (T : Type)
  | push (task : T)
  | pushFront (task : T)
  | pushRandom (task : T) (draw : Nat)
  | pushAll (tasks : List T)
  | pop
  | resume
  | flush

inductive Answer (T : Type)
  | nothing
  | task (t : Option T)
  | waiting
  | thrown (e : Exception)
  deriving DecidableEq

def Failure.answer : Failure → Option (Answer T)
  | .list (.thrown e) => some (.thrown e)
  | _ => none

section Runs

variable [DecidableEq T]

def handOver (tasks : List T) : QueueM T Unit := modify fun s =>
  { s with outside := fun t => s.outside t - tasks.count t }

def received (t : Option T) (s : TaskQueue T) : TaskQueue T :=
  match t with
  | none => s
  | some task => { s with outside := update s.outside task (s.outside task + 1) }

def receive (t : Option T) : QueueM T Unit := modify (received t)

def call : Op T → QueueM T (Answer T)
  | .push task => (fun _ => .nothing) <$> push task
  | .pushFront task => (fun _ => .nothing) <$> pushFront task
  | .pushRandom task draw => (fun _ => .nothing) <$> pushRandom task draw
  | .pushAll tasks => do
    handOver tasks
    pushAll tasks
    return .nothing
  | .pop => do
    match ← pop with
    | .waiting => return .waiting
    | .task t =>
      receive t
      return .task t
  | .resume => do
    -- there is no such call unless a thread waits
    if (← get).waiting = 0 then return .nothing
    else
      let t ← resume
      receive t
      return .task t
  | .flush => (fun _ => .nothing) <$> flush

def perform (op : Op T) : QueueM T (Answer T) := catching Failure.answer (call op)

end Runs

structure Deque (T : Type) where
  tasks : List T
  blocked : Bool
  waiting : Nat

namespace Deque

def perform (q : Deque T) : Op T → Answer T × Deque T
  | .push task => (.nothing, if q.blocked then q else { q with tasks := q.tasks ++ [task] })
  | .pushFront task => (.nothing, if q.blocked then q else { q with tasks := task :: q.tasks })
  | .pushRandom task draw =>
    let position := draw % q.tasks.length
    (.nothing, if q.blocked then q
      else { q with tasks := q.tasks.take position ++ task :: q.tasks.drop position })
  | .pushAll tasks => (.nothing, if q.blocked then q else { q with tasks := q.tasks ++ tasks })
  | .pop =>
    match q.tasks with
    | [] => if q.blocked then (.task none, q) else (.waiting, { q with waiting := q.waiting + 1 })
    | task :: tasks => (.task (some task), { q with tasks })
  | .resume =>
    if q.waiting = 0 then (.nothing, q)
    else
      match q.tasks with
      | [] => (.task none, { q with waiting := q.waiting - 1 })
      | task :: tasks => (.task (some task), { q with tasks, waiting := q.waiting - 1 })
  | .flush => (.nothing, { q with tasks := [], blocked := true })

/-- When a call goes right. -/
def Sound (q : Deque T) : Op T → Prop
  | .push _ => q.blocked = false → q.tasks.length + 1 < 2 ^ 31
  | .pushFront _ => q.blocked = false → q.tasks ≠ [] ∧ q.tasks.length + 1 < 2 ^ 31
  | .pushRandom _ _ => q.blocked = false → q.tasks ≠ [] ∧ q.tasks.length + 1 < 2 ^ 31
  | .pushAll tasks =>
    if q.blocked then tasks = [] else q.tasks.length + tasks.length < 2 ^ 31
  | .pop => True
  | .resume => True
  | .flush => True

end Deque

/-- Between calls the mutex is free, and each task's references are held outside, but for one for
each time it is in the queue. -/
structure Related [DecidableEq T]
    (lists : LinkedList (Option T) → Sequence (Option T) → Prop) (s : TaskQueue T)
    (q : Deque T) : Prop where
  list : lists s.list ⟨q.tasks.map some, false⟩
  unlocked : s.locked = false
  blocked : s.blocked = q.blocked
  waiting : s.waiting = q.waiting
  references : ∀ t, s.references t = s.outside t + q.tasks.count t

section Steps

variable [DecidableEq T] {s s' : TaskQueue T} {q : Deque T}

theorem related_new (references : T → Int) :
    Related Invariant (new references) ⟨[], false, 0⟩ where
  list := invariant_new
  unlocked := rfl
  blocked := rfl
  waiting := rfl
  references := by simp [new]

theorem Related.observed (related : Related Invariant s q) :
    Related LinkedList.Contents s q :=
  { related with list := related.list.contents }

omit [DecidableEq T] in
theorem onList_ok {α : Type} {m : ListM (Option T) α} {l : LinkedList (Option T)} {a : α}
    {s : TaskQueue T} (ran : m s.list = .ok a l) : onList m s = .ok a { s with list := l } := by
  simp only [onList, ran]

omit [DecidableEq T] in
theorem lock_ok (unlocked : s.locked = false) : lock s = .ok () { s with locked := true } := by
  apply (ite_run_neg _)
  simp [unlocked]

section Pushing

variable {m : QueueM T Unit} (unlocked : s.locked = false)

include unlocked

omit [DecidableEq T] in
theorem pushing_blocked (blocked : s.blocked = true) : pushing m s = .ok () s := by
  rw [pushing, bind_of_ok (lock_ok unlocked)]
  apply (ite_run_pos blocked).trans
  cases s
  cases unlocked
  rfl

omit [DecidableEq T] in
theorem pushing_ok (free : s.blocked = false) (ran : m { s with locked := true } = .ok () s') :
    pushing m s = .ok () { s' with locked := false } := by
  rw [pushing, bind_of_ok (lock_ok unlocked)]
  apply (ite_run_neg (by simp [free])).trans
  exact bind_of_ok ran

omit [DecidableEq T] in
theorem pushing_error (free : s.blocked = false) {f : Failure}
    (failed : m { s with locked := true } = .error f s') : pushing m s = .error f s' := by
  rw [pushing, bind_of_ok (lock_ok unlocked)]
  apply (ite_run_neg (by simp [free])).trans
  exact bind_of_error failed

end Pushing

variable {references outside : T → Int} {xs tasks : List T} {task : T} {op : Op T}
  {m : QueueM T Unit}

theorem count_acquired {ys : List T} (held : ∀ t, references t = outside t + xs.count t)
    (one : ys.Perm (task :: xs)) (t : T) :
    update references task (references task + 1) t = outside t + ys.count t := by
  have before := held t
  rw [one.count_eq, count_cons]
  by_cases eq : t = task
  · subst eq
    simp
    omega
  · simp [update_of_ne eq, Ne.symm eq, before]

variable (related : Related LinkedList.Invariant s q)
include related

theorem Related.refused (blocked : q.blocked = true) (spec : q.perform op = (.nothing, q))
    (pushes : call op = (fun _ => .nothing) <$> pushing m) :
    Follows perform Deque.perform (Related Invariant) s q op := by
  have done := pushing_blocked (m := m) related.unlocked (related.blocked.trans blocked)
  apply follows_of spec _ related
  rw [perform, pushes]
  exact catching_ok (map_ok _ done)

theorem Related.accepted (free : q.blocked = false) {q' : Deque T}
    (spec : q.perform op = (.nothing, q'))
    (pushes : call op = (fun _ => .nothing) <$> pushing m)
    (ran : m { s with locked := true } = .ok () s')
    (related' : Related Invariant { s' with locked := false } q') :
    Follows perform Deque.perform (Related Invariant) s q op := by
  have done := pushing_ok related.unlocked (related.blocked.trans free) ran
  apply follows_of spec _ related'
  rw [perform, pushes]
  exact catching_ok (map_ok _ done)

theorem Related.push (task : T) (sound : q.Sound (.push task)) :
    Follows perform Deque.perform (Related Invariant) s q (.push task) := by
  cases blocked : q.blocked with
  | true => exact related.refused blocked (by simp [Deque.perform, blocked]) rfl
  | false =>
    obtain ⟨l, added, list⟩ := related.list.add_returns (some task) (by simpa using sound blocked)
    have spec : q.perform (.push task) = (.nothing, { q with tasks := q.tasks ++ [task] }) := by
      simp [Deque.perform, blocked]
    apply related.accepted blocked spec rfl
      ((bind_of_ok (m := acquire task) rfl).trans (onList_ok added))
    exact {
      list := by simpa using list
      unlocked := rfl
      blocked := related.blocked
      waiting := related.waiting
      references := count_acquired related.references (perm_append_singleton task q.tasks) }

theorem Related.inserted (free : q.blocked = false) (task : T) (index : Int32)
    (low : 0 ≤ index.toInt) (high : index.toInt < q.tasks.length)
    (fits : q.tasks.length + 1 < 2 ^ 31) (spec : q.perform op = (.nothing, { q with
      tasks := q.tasks.take index.toInt.toNat ++ task :: q.tasks.drop index.toInt.toNat }))
    (pushes : call op = (fun _ => .nothing) <$> pushing m) (inserts : m { s with locked := true } =
      (onList (addAt index (some task)) >>= fun _ => acquire task)
        { s with locked := true }) :
    Follows perform Deque.perform (Related Invariant) s q op := by
  obtain ⟨l, added, list⟩ := related.list.addAt_returns (some task) low (by simpa using high)
    (by simpa using fits)
  -- wherever it is put, the queue holds the task once more
  have one : (q.tasks.take index.toInt.toNat ++ task :: q.tasks.drop index.toInt.toNat).Perm
      (task :: q.tasks) := by
    apply perm_middle.trans
    rw [take_append_drop]
  apply related.accepted free spec pushes
    (inserts.trans (bind_of_ok (onList_ok added)))
  exact {
    list := by simpa using list
    unlocked := rfl
    blocked := related.blocked
    waiting := related.waiting
    references := count_acquired related.references one }

theorem Related.pushFront (task : T) (sound : q.Sound (.pushFront task)) :
    Follows perform Deque.perform (Related Invariant) s q (.pushFront task) := by
  cases blocked : q.blocked with
  | true => exact related.refused blocked (by simp [Deque.perform, blocked]) rfl
  | false =>
    obtain ⟨ne, fits⟩ := sound blocked
    have pos := length_pos_iff.mpr ne
    apply related.inserted blocked task 0 (by decide) _ fits _ rfl rfl
    · change (0 : Int) < _
      omega
    · simp [Deque.perform, blocked]

omit related

theorem toInt_randomPosition {n : Nat} (draw : Nat) (pos : 0 < n) (lt : n < 2 ^ 31) :
    (randomPosition draw n).toInt = (draw % n : Nat) := by
  have below := Nat.mod_lt draw pos
  rw [randomPosition, if_pos (by omega), Int32.toInt_ofInt_of_le (by omega) (by omega)]
  rfl

theorem Related.pushRandom (related : Related Invariant s q) (task : T) (draw : Nat)
    (sound : q.Sound (.pushRandom task draw)) :
    Follows perform Deque.perform (Related Invariant) s q
      (.pushRandom task draw) := by
  cases blocked : q.blocked with
  | true => exact related.refused blocked (by simp [Deque.perform, blocked]) rfl
  | false =>
    obtain ⟨ne, fits⟩ := sound blocked
    have pos := length_pos_iff.mpr ne
    have counted : s.list.count = q.tasks.length := by simpa using related.list.count_eq
    have hpos := toInt_randomPosition draw pos (by omega)
    have below := Nat.mod_lt draw pos
    apply related.inserted blocked task (randomPosition draw q.tasks.length) _ _ fits _ rfl
    · rw [← counted]
      rfl
    · omega
    · omega
    · simp only [Deque.perform, blocked, hpos, Int.toNat_natCast]
      rfl

omit [DecidableEq T] in
theorem addAll_spec (tasks : List T) (list : Invariant s.list ⟨xs.map some, false⟩)
    (fits : xs.length + tasks.length < 2 ^ 31) :
    ∃ l, addAll tasks s = .ok () { s with list := l } ∧
      Invariant l ⟨(xs ++ tasks).map some, false⟩ := by
  induction tasks generalizing s xs with
  | nil =>
    rw [append_nil]
    exact ⟨s.list, rfl, list⟩
  | cons task tasks ih =>
    rw [length_cons] at fits
    obtain ⟨l, added, list'⟩ := list.add_returns (some task) (by rw [length_map]; omega)
    rw [← map_singleton, ← map_append] at list'
    obtain ⟨l', rest, list''⟩ := ih (s := { s with list := l }) list' (by simp; omega)
    refine ⟨l', ?_, by simpa using list''⟩
    rw [addAll, bind_of_ok (onList_ok added)]
    exact rest

theorem Related.pushAll (related : Related Invariant s q) (tasks : List T)
    (sound : q.Sound (.pushAll tasks)) :
    Follows perform Deque.perform (Related Invariant) s q (.pushAll tasks) := by
  have handed : handOver tasks s =
    .ok () { s with outside := fun t => s.outside t - tasks.count t } := rfl
  cases blocked : q.blocked with
  | true =>
    -- tasks given to a blocked queue would be lost with the references to them
    have none : tasks = [] := by simpa [Deque.Sound, blocked] using sound
    subst none
    have spec : q.perform (.pushAll []) = (.nothing, q) := by simp [Deque.perform, blocked]
    have done := pushing_blocked (m := addAll []) (s := { s with
      outside := fun t => s.outside t - ([] : List T).count t }) related.unlocked
      (related.blocked.trans blocked)
    apply follows_of spec (catching_ok ((bind_of_ok handed).trans
      (bind_of_ok done)))
    exact { related with references := by simpa using related.references }
  | false =>
    have fits : q.tasks.length + tasks.length < 2 ^ 31 := by
      simpa [Deque.Sound, blocked] using sound
    have spec : q.perform (.pushAll tasks) =
        (.nothing, { q with tasks := q.tasks ++ tasks }) := by
      simp [Deque.perform, blocked]
    obtain ⟨l, added, list⟩ := addAll_spec (s := { s with
      outside := fun t => s.outside t - tasks.count t, locked := true }) tasks related.list fits
    have done := pushing_ok (s := { s with outside := fun t => s.outside t - tasks.count t })
      related.unlocked (related.blocked.trans blocked) added
    apply follows_of spec (catching_ok ((bind_of_ok handed).trans
      (bind_of_ok done)))
    exact {
      list := list
      unlocked := rfl
      blocked := related.blocked
      waiting := related.waiting
      references := fun t => by
        have before := related.references t
        simp only [count_append]
        omega }

omit [DecidableEq T] in
theorem isEmpty_ok (list : Invariant s.list ⟨tasks.map some, false⟩) :
    isEmpty s = .ok tasks.isEmpty s := by
  have counted := list.count_eq
  have empty : decide (s.list.count = 0) = tasks.isEmpty := by
    cases tasks with
    | nil => simpa using counted
    | cons task tasks =>
      rw [counted]
      simp
      omega
  rw [← empty]
  rfl

theorem setTaskScheduler_none (task : T) : setTaskScheduler task none s = .ok () s := by
  change EStateM.Result.ok () _ = _
  congr 1
  beta_reduce
  split
  next none => rw [← none, update_eq_self]
  next => rfl

theorem popFront_spec (list : Invariant s.list ⟨(task :: tasks).map some, false⟩) :
    ∃ l, popFront s = .ok (some task) { s with list := l, locked := false } ∧
      Invariant l ⟨tasks.map some, false⟩ := by
  obtain ⟨l, removed, list'⟩ := list.remove_front
  refine ⟨l, ?_, list'⟩
  rw [popFront, bind_of_ok (onList_ok removed)]
  exact bind_of_ok (setTaskScheduler_none task)

theorem count_received (held : ∀ t, references t = outside t + (task :: tasks).count t) (t : T) :
    references t = update outside task (outside task + 1) t + tasks.count t := by
  have before := held t
  by_cases eq : t = task
  · subst eq
    simp at before ⊢
    omega
  · rw [update_of_ne eq]
    simpa [Ne.symm eq] using before

section Popping

variable (unlocked : s.locked = false)

include unlocked

theorem pop_flushed (list : Invariant s.list ⟨([] : List T).map some, false⟩)
    (blocked : s.blocked = true) :
    pop s = .ok (.task none) { s with locked := false } := by
  have empty := isEmpty_ok (s := { s with locked := true }) list
  rw [pop, bind_of_ok (lock_ok unlocked), bind_of_ok empty]
  apply (ite_run_pos rfl).trans
  exact ite_run_pos blocked

theorem pop_waits (list : Invariant s.list ⟨([] : List T).map some, false⟩)
    (free : ¬ s.blocked = true) :
    pop s = .ok .waiting { s with locked := false, waiting := s.waiting + 1 } := by
  have empty := isEmpty_ok (s := { s with locked := true }) list
  rw [pop, bind_of_ok (lock_ok unlocked), bind_of_ok empty]
  apply (ite_run_pos rfl).trans
  exact ite_run_neg free

variable {task : T} {rest : List T}

theorem pop_first (list : Invariant s.list ⟨(task :: rest).map some, false⟩) :
    ∃ l, pop s = .ok (.task (some task)) { s with list := l, locked := false } ∧
      Invariant l ⟨rest.map some, false⟩ := by
  have empty := isEmpty_ok (s := { s with locked := true }) list
  obtain ⟨l, popped, list'⟩ := popFront_spec (s := { s with locked := true }) list
  refine ⟨l, ?_, list'⟩
  rw [pop, bind_of_ok (lock_ok unlocked), bind_of_ok empty]
  apply (ite_run_neg Bool.false_ne_true).trans
  exact bind_of_ok popped

theorem resume_empty (list : Invariant s.list ⟨([] : List T).map some, false⟩) :
    resume s = .ok none { s with locked := false, waiting := s.waiting - 1 } := by
  have empty := isEmpty_ok (s := { s with locked := true, waiting := s.waiting - 1 }) list
  rw [resume, bind_of_ok (lock_ok unlocked), bind_of_ok (m := modify _) rfl,
    bind_of_ok empty]
  exact ite_run_pos rfl

theorem resume_first (list : Invariant s.list ⟨(task :: rest).map some, false⟩) :
    ∃ l, resume s =
        .ok (some task) { s with list := l, locked := false, waiting := s.waiting - 1 } ∧
      Invariant l ⟨rest.map some, false⟩ := by
  have empty := isEmpty_ok (s := { s with locked := true, waiting := s.waiting - 1 }) list
  obtain ⟨l, popped, list'⟩ :=
    popFront_spec (s := { s with locked := true, waiting := s.waiting - 1 }) list
  refine ⟨l, ?_, list'⟩
  rw [resume, bind_of_ok (lock_ok unlocked), bind_of_ok (m := modify _) rfl,
    bind_of_ok empty]
  exact (ite_run_neg Bool.false_ne_true).trans popped

end Popping

variable {t : Option T} {m : QueueM T Unit} {op : Op T}

theorem perform_pop_task (done : pop s = .ok (.task t) s') :
    perform .pop s = .ok (.task t) (received t s') :=
  catching_ok ((bind_of_ok done).trans rfl)

theorem perform_resume (somebody : ¬ s.waiting = 0) (done : resume s = .ok t s') :
    perform .resume s = .ok (.task t) (received t s') :=
  catching_ok ((ite_run_neg somebody).trans ((bind_of_ok done).trans rfl))

theorem Related.pop (related : Related Invariant s q) :
    Follows perform Deque.perform (Related Invariant) s q .pop := by
  have list := related.list
  have references := related.references
  cases tasks : q.tasks with
  | nil =>
    rw [tasks] at list
    cases blocked : q.blocked with
    | true =>
      have spec : q.perform .pop = (.task none, q) := by simp [Deque.perform, tasks, blocked]
      have done := pop_flushed related.unlocked list (related.blocked.trans blocked)
      apply follows_of spec (perform_pop_task done)
      exact { related with unlocked := rfl }
    | false =>
      have spec : q.perform .pop = (.waiting, { q with waiting := q.waiting + 1 }) := by
        simp [Deque.perform, tasks, blocked]
      have done := pop_waits related.unlocked list (by simp [related.blocked, blocked])
      have answered : perform .pop s = .ok .waiting _ :=
        catching_ok ((bind_of_ok done).trans rfl)
      apply follows_of spec answered
      exact { related with unlocked := rfl, waiting := congrArg (· + 1) related.waiting }
  | cons task rest =>
    rw [tasks] at list references
    have spec : q.perform .pop = (.task (some task), { q with tasks := rest }) := by
      simp [Deque.perform, tasks]
    obtain ⟨l, done, list'⟩ := pop_first related.unlocked list
    apply follows_of spec (perform_pop_task done)
    -- the reference of the queue goes to the caller
    exact {
      list := list'
      unlocked := rfl
      blocked := related.blocked
      waiting := related.waiting
      references := count_received references }

theorem Related.resume (related : Related Invariant s q) :
    Follows perform Deque.perform (Related Invariant) s q .resume := by
  by_cases nobody : q.waiting = 0
  · have spec : q.perform .resume = (.nothing, q) := by simp [Deque.perform, nobody]
    apply follows_of spec _ related
    exact catching_ok (ite_run_pos (related.waiting.trans nobody))
  · have somebody : ¬ s.waiting = 0 := by rwa [related.waiting]
    have list := related.list
    have references := related.references
    cases tasks : q.tasks with
    | nil =>
      rw [tasks] at list
      have spec : q.perform .resume = (.task none, { q with waiting := q.waiting - 1 }) := by
        simp [Deque.perform, tasks, nobody]
      apply follows_of spec
        (perform_resume somebody (resume_empty related.unlocked list))
      exact { related with unlocked := rfl, waiting := congrArg (· - 1) related.waiting }
    | cons task rest =>
      rw [tasks] at list references
      have spec : q.perform .resume =
          (.task (some task), { q with tasks := rest, waiting := q.waiting - 1 }) := by
        simp [Deque.perform, tasks, nobody]
      obtain ⟨l, done, list'⟩ := resume_first related.unlocked list
      apply follows_of spec (perform_resume somebody done)
      exact {
        list := list'
        unlocked := rfl
        blocked := related.blocked
        waiting := congrArg (· - 1) related.waiting
        references := count_received references }

theorem flushAll_spec (tasks : List T)
    (list : Invariant s.list ⟨tasks.map some, false⟩) :
    ∃ s', flushAll tasks.length s = .ok () s' ∧ Invariant s'.list ⟨[], false⟩ ∧
      s'.blocked = s.blocked ∧ s'.waiting = s.waiting ∧ s'.outside = s.outside ∧
      ∀ t, s'.references t = s.references t - tasks.count t := by
  induction tasks generalizing s with
  | nil =>
    refine ⟨s, ?_, list, rfl, rfl, rfl, by simp⟩
    rw [length_nil, flushAll, bind_of_ok (isEmpty_ok list)]
    exact ite_run_pos rfl
  | cons task tasks ih =>
    obtain ⟨l, removed, list'⟩ := list.remove_front
    obtain ⟨s', rest, list'', blocked, waiting, outside, references⟩ := ih (s := { s with
      list := l
      taskScheduler := update s.taskScheduler task none
      references := update s.references task (s.references task - 1) }) list'
    refine ⟨s', ?_, list'', blocked, waiting, outside, ?_⟩
    · rw [length_cons, flushAll, bind_of_ok (isEmpty_ok list)]
      apply (ite_run_neg (by simp)).trans
      rw [bind_of_ok (onList_ok removed)]
      exact rest
    · intro t
      rw [references t, count_cons]
      by_cases eq : t = task
      · subst eq
        simp
        omega
      · simp [update_of_ne eq, Ne.symm eq]

theorem Related.flush (related : Related Invariant s q) :
    Follows perform Deque.perform (Related Invariant) s q .flush := by
  have fuel : s.list.count.toNat = q.tasks.length := by
    rw [related.list.count_eq, length_map, Int.toNat_natCast]
  obtain ⟨s', flushed, list, blocked, waits, outside, references⟩ :=
    flushAll_spec (s := { s with locked := true, blocked := true }) q.tasks related.list
  have done : TaskQueue.flush s = .ok () { s' with locked := false } := by
    rw [TaskQueue.flush, bind_of_ok (lock_ok related.unlocked),
      bind_of_ok (m := modify _) rfl, get_bind]
    simp only [fuel]
    exact bind_of_ok flushed
  have spec : q.perform .flush = (.nothing, { q with tasks := [], blocked := true }) := rfl
  apply follows_of spec (catching_ok (map_ok _ done))
  exact {
    list := list
    unlocked := rfl
    blocked := blocked
    waiting := waits.trans related.waiting
    references := fun t => by
      have before := related.references t
      have after := references t
      simp only [outside, count_nil]
      simp only at after
      omega }

theorem Related.follows (related : Related Invariant s q) (op : Op T)
    (sound : q.Sound op) :
    Follows perform Deque.perform (Related Invariant) s q op := by
  cases op with
  | push task => exact related.push task sound
  | pushFront task => exact related.pushFront task sound
  | pushRandom task draw => exact related.pushRandom task draw sound
  | pushAll tasks => exact related.pushAll tasks sound
  | pop => exact related.pop
  | resume => exact related.resume
  | flush => exact related.flush

/-! Where a call is not sound, it does not go right. -/

omit [DecidableEq T] in
theorem pushing_returned (unlocked : s.locked = false) (free : s.blocked = false)
    (ran : pushing m s = .ok () s') :
    ∃ s'', m { s with locked := true } = .ok () s'' ∧ s'.list = s''.list := by
  cases res : m { s with locked := true } with
  | ok _ s'' =>
    rw [pushing_ok unlocked free res] at ran
    cases ran
    exact ⟨s'', rfl, rfl⟩
  | error f s'' =>
    rw [pushing_error unlocked free res] at ran
    cases ran

theorem call_of_perform (ran : perform op s = .ok .nothing s') :
    call op s = .ok .nothing s' := by
  apply returned_of_catching ran
  intro f caught
  cases f with
  | list f => cases f <;> cases caught
  | deadlock => cases caught
  | null => cases caught
  | outOfFuel => cases caught

omit [DecidableEq T] in
theorem onList_returned {α : Type} {m : ListM (Option T) α} {a : α}
    (ran : onList m s = .ok a s') : m s.list = .ok a s'.list := by
  unfold onList at ran
  split at ran
  next res =>
    cases ran
    exact res
  next => cases ran

variable {tasks : List T} {task : T}

omit [DecidableEq T] in
theorem addAll_count (some : tasks ≠ []) (ran : addAll tasks s = .ok () s') :
    ∃ z, s'.list.count = MachineInt.i32 z := by
  induction tasks generalizing s with
  | nil => exact absurd rfl some
  | cons task tasks ih =>
    obtain ⟨_, s₁, added, later⟩ := bind_ok_iff.mp ran
    cases tasks with
    | nil =>
      cases later
      exact ⟨_, add_count (onList_returned added)⟩
    | cons next tasks => exact ih (by simp) later

variable (related : Related LinkedList.Invariant s q)
include related

theorem Related.sound_push
    (follows : Follows perform Deque.perform (Related LinkedList.Contents) s q
      (.push task)) : q.Sound (.push task) := by
  intro free
  obtain ⟨s', ran, observed⟩ := follows
  obtain ⟨_, pushed, -⟩ := map_ok_iff.mp (call_of_perform ran)
  obtain ⟨s₁, done, eq⟩ := pushing_returned related.unlocked (related.blocked.trans free) pushed
  obtain ⟨_, s₂, acquired, added⟩ := bind_ok_iff.mp done
  have fits := observed.list.fits (eq ▸ add_count (onList_returned added))
  simpa [Deque.perform, free] using fits

theorem Related.sound_insert (free : q.blocked = false) (task : T) (index : Int32)
    (pushes : call op = (fun _ => .nothing) <$> pushing m) (inserts : m { s with locked := true } =
      (onList (addAt index (some task)) >>= fun _ => acquire task)
        { s with locked := true }) (pos : if q.tasks = [] then index = 0
      else 0 ≤ index.toInt ∧ index.toInt < q.tasks.length)
    (len : (q.perform op).2.tasks.length = q.tasks.length + 1)
    (answer : (q.perform op).1 = .nothing)
    (follows : Follows perform Deque.perform (Related LinkedList.Contents) s q op) :
    q.tasks ≠ [] ∧ q.tasks.length + 1 < 2 ^ 31 := by
  obtain ⟨s', ran, observed⟩ := follows
  rw [answer] at ran
  have ret := call_of_perform ran
  rw [pushes] at ret
  obtain ⟨_, pushed, -⟩ := map_ok_iff.mp ret
  obtain ⟨s₁, done, eq⟩ := pushing_returned related.unlocked (related.blocked.trans free) pushed
  rw [inserts] at done
  obtain ⟨_, s₂, added, acquired⟩ := bind_ok_iff.mp done
  have added := onList_returned added
  by_cases empty : q.tasks = []
  · -- position 0 of an empty list is out of bounds, so the call has not returned
    rw [if_pos empty] at pos
    have list := related.list
    rw [empty] at list
    rw [pos, Invariant.addAt_empty list] at added
    cases added
  · -- the list has counted one more, which it can only do up to the largest int
    rw [if_neg empty] at pos
    have counted := related.list.addAt_count pos.1 (by simpa using pos.2) added
    have kept : s₁.list = s₂.list := by
      cases acquired
      rfl
    have fits := observed.list.fits (z := s.list.count + 1) (by rw [eq, kept, counted])
    simp only [length_map, len] at fits
    exact ⟨empty, fits⟩

theorem Related.sound_pushFront
    (follows : Follows perform Deque.perform (Related LinkedList.Contents) s q
      (.pushFront task)) : q.Sound (.pushFront task) := by
  intro free
  apply related.sound_insert free task 0 rfl rfl _ (by simp [Deque.perform, free]) rfl follows
  split
  next => rfl
  next some =>
    have pos := length_pos_iff.mpr some
    exact ⟨by decide, by change (0 : Int) < _; omega⟩

theorem Related.sound_pushRandom {draw : Nat}
    (follows : Follows perform Deque.perform (Related LinkedList.Contents) s q
      (.pushRandom task draw)) : q.Sound (.pushRandom task draw) := by
  intro free
  have counted : s.list.count = q.tasks.length := by simpa using related.list.count_eq
  have len : (q.perform (.pushRandom task draw)).2.tasks.length = q.tasks.length + 1 := by
    simp [Deque.perform, free]
    omega
  have pushes : call (.pushRandom task draw) = (fun _ => .nothing) <$> pushing (do
      onList (addAt (randomPosition draw (← get).list.count) (some task))
      acquire task) := rfl
  apply related.sound_insert free task (randomPosition draw s.list.count) pushes rfl _ len rfl
    follows
  rw [counted]
  split
  next empty => simp [empty, randomPosition]
  next some =>
    have pos := length_pos_iff.mpr some
    have lt := related.list.small
    rw [length_map] at lt
    have hpos := toInt_randomPosition draw pos lt
    have below := Nat.mod_lt draw pos
    omega

theorem Related.sound_pushAll
    (follows : Follows perform Deque.perform (Related LinkedList.Contents) s q
      (.pushAll tasks)) : q.Sound (.pushAll tasks) := by
  obtain ⟨s', ran, observed⟩ := follows
  have ret := call_of_perform ran
  obtain ⟨_, s₀, handed, later⟩ := bind_ok_iff.mp ret
  have given : s₀ = { s with outside := fun t => s.outside t - tasks.count t } := by
    cases handed
    rfl
  have unlocked : s₀.locked = false := by rw [given]; exact related.unlocked
  have eq₀ : s₀.blocked = q.blocked := by rw [given]; exact related.blocked
  obtain ⟨_, s₁, pushed, last⟩ := bind_ok_iff.mp later
  cases last
  simp only [Deque.Sound]
  cases blocked : q.blocked with
  | true =>
    -- the references that were handed over are held by nobody
    rw [TaskQueue.pushAll, pushing_blocked unlocked (eq₀.trans blocked)] at pushed
    cases pushed
    rw [eq_nil_iff_forall_not_mem]
    intro t
    have before := related.references t
    have after := observed.references t
    simp only [Deque.perform, blocked, if_true, given] at after
    rw [← count_eq_zero]
    omega
  | false =>
    by_cases none : tasks = []
    · have lt := related.list.small
      simpa [none] using lt
    · obtain ⟨s₂, added, eq⟩ :=
        pushing_returned unlocked (eq₀.trans blocked) pushed
      obtain ⟨z, counted⟩ := addAll_count none added
      have fits := observed.list.fits (eq ▸ counted)
      simpa [Deque.perform, blocked] using fits

theorem Related.sound (op : Op T)
    (follows : Follows perform Deque.perform (Related LinkedList.Contents) s q op) :
    q.Sound op := by
  cases op with
  | push task => exact related.sound_push follows
  | pushFront task => exact related.sound_pushFront follows
  | pushRandom task draw => exact related.sound_pushRandom follows
  | pushAll tasks => exact related.sound_pushAll follows
  | pop => trivial
  | resume => trivial
  | flush => trivial

omit related

/-- Exactly while an empty queue is pushed at its end and `pushAll` finds no blocked one. -/
theorem queue_is_deque_iff (related : Related LinkedList.Invariant s q) (ops : List (Op T)) :
    InStep TaskQueue.perform Deque.perform (Related LinkedList.Contents) s q ops ↔
      Along Deque.perform Deque.Sound q ops := by
  apply inStep_observed_iff (P := fun _ _ => True) _ _ _ _ _ related
  · exact along_of_forall (fun _ _ => trivial) _ ops
  · intro s q related
    exact related.observed
  · intro s q op related _ sound
    exact related.follows op sound
  · intro s q op related _ follows
    exact related.sound op follows

theorem queue_is_deque_waits :
    InStep TaskQueue.perform Deque.perform (Related LinkedList.Contents) (new fun _ : Nat => 1)
      ⟨[], false, 0⟩ [.pop, .push 1, .pushFront 2, .pushRandom 3 7, .resume,
        .pushAll [4, 5], .flush,
        .pop] := by
  apply (queue_is_deque_iff (related_new _) _).mpr
  simp [Along, Deque.perform, Deque.Sound]

theorem queue_stays_locked :
    (∃ s, TaskQueue.perform (.pushFront 1) (new fun _ : Nat => 1) =
        .ok (.thrown (.arrayIndexOutOfBounds 0)) s ∧ s.locked = true ∧
      TaskQueue.perform .pop s = .error .deadlock s) ∧
    ∃ s s', TaskQueue.perform .flush (new fun _ : Nat => 1) = .ok .nothing s ∧
      TaskQueue.perform (.pushAll [1]) s = .ok .nothing s' ∧ s'.list.count = 0 ∧
      s'.references 1 = 1 ∧ s'.outside 1 = 0 :=
  ⟨⟨_, rfl, rfl, rfl⟩, _, _, rfl, rfl, rfl, rfl, rfl⟩

end Steps

end TaskQueue

end Engine3
