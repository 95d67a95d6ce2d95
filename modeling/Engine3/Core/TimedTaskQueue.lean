import Mathlib.Data.Prod.Lex
import Mathlib.Data.Finset.Basic
import Engine3.System.PriorityQueue

/-!
# The queue of timed tasks

`engine/core/TimedTaskQueue`: a priority queue of tasks by execution time, with one consumer in
`get` and any number of other threads. `get` releases the lock while it waits, once for the queue
to fill and once for the head's execution time. Whatever the other threads do meanwhile, the
`changePlan` flag must tell it when the head it waits for is no longer the head.

A step of the model is what one thread does between two points where the lock is free. The
consumer may be woken at any time, since wakeups may be spurious; waits return 0 or a timeout.
References to tasks and messages to the log are left out.
-/
namespace Engine3

open LeftistHeap PriorityQueue Exec Heap

/-! ### Times -/

def roundHalfEven (num den : Nat) : Nat :=
  let q := num / den
  let r := num % den
  if 2 * r < den then q
  else if 2 * r > den then q + 1
  else if q % 2 = 0 then q
  else q + 1

def toFloat (num den : Nat) : Nat × Nat :=
  if num = 0 then (0, 1)
  else
    -- the binary exponent of the quotient, plus 64
    let l := Nat.log2 (num * 2 ^ 64 / den)
    if l ≤ 87 then (roundHalfEven (num * 2 ^ (87 - l)) den, 2 ^ (87 - l))
    else (roundHalfEven num (den * 2 ^ (l - 87)) * 2 ^ (l - 87), 1)

structure Time where
  sec : Nat
  nsec : Nat
  deriving DecidableEq, Repr

namespace Time

def compareTo (a b : Time) : Int :=
  if a.sec < b.sec then 1
  else if a.sec > b.sec then -1
  else if a.nsec < b.nsec then 1
  else if a.nsec > b.nsec then -1
  else 0

def addMiliTime (mtime : Nat) (t : Time) : Time :=
  let sec := t.sec + mtime / 1000
  let nsec := t.nsec + mtime % 1000 * 1000000
  if nsec ≥ 1000000000 then ⟨sec + 1, nsec - 1000000000⟩ else ⟨sec, nsec⟩

def miliOfNano (nsec : Nat) : Nat :=
  let f := toFloat nsec 1
  let q := toFloat f.1 (f.2 * 1000000)
  q.1 / q.2

def getMiliTime (t : Time) : Nat := t.sec * 1000 + miliOfNano t.nsec

def isFuture (t now : Time) : Bool := t.compareTo now < 0

def key (t : Time) : Nat ×ₗ Nat := toLex (t.sec, t.nsec)

theorem compareTo_pos_iff (a b : Time) : 0 < a.compareTo b ↔ a.key < b.key := by
  simp only [compareTo, key, Prod.Lex.lt_iff, ofLex_toLex]
  split_ifs <;> omega

theorem compareTo_eq_zero_iff (a b : Time) : a.compareTo b = 0 ↔ a.key = b.key := by
  simp only [compareTo, key, toLex_inj, Prod.mk.injEq]
  split_ifs <;> (simp only [one_ne_zero, false_iff, true_iff]; omega)

theorem isFuture_eq_false_iff (t now : Time) : t.isFuture now = false ↔ t.key ≤ now.key := by
  have earlier := t.compareTo_pos_iff now
  have eq := t.compareTo_eq_zero_iff now
  rw [le_iff_lt_or_eq, ← earlier, ← eq]
  simp only [isFuture, decide_eq_false_iff_not]
  omega

end Time

/-! ### Tasks and the queue -/

structure TimedTaskQueue (ι : Type) where
  mem : EntryMemory ι
  queue : PriorityQueue ι
  nextExecutionTime : ι → Time
  taskScheduler : ι → Bool
  blocked : Bool
  waitingForTask : Bool
  changePlan : Bool

namespace TimedTaskQueue

variable {ι : Type} [LinearOrder ι]

abbrev TaskM (ι : Type) := EStateM Exception (TimedTaskQueue ι)

def compareTo (nextExecutionTime : ι → Time) (a b : ι) : Int :=
  if b = a then 0
  else
    let cmp := (nextExecutionTime a).compareTo (nextExecutionTime b)
    if cmp = 0 then if a < b then 1 else -1 else cmp

def start (nextExecutionTime : ι → Time) : TimedTaskQueue ι :=
  { mem := fun _ => .unlinked
    queue := ⟨none, 0⟩
    nextExecutionTime
    taskScheduler := fun _ => false
    blocked := false
    waitingForTask := false
    changePlan := false }

def replan (condition : Bool) (s : TimedTaskQueue ι) : TimedTaskQueue ι :=
  if s.waitingForTask && condition then { s with changePlan := true } else s

def remove (task : ι) : TaskM ι Bool := fun s =>
  if (s.mem task).enqueued = false then .ok false s
  -- `cancel` of a task without a scheduler does nothing
  else if s.taskScheduler task = false then .ok true s
  else
    match s.queue.remove (compareTo s.nextExecutionTime) task s.mem with
    | .error e mem => .error e { s with mem }
    | .ok (_, queue) mem =>
      .ok true (replan (s.queue.root == some task)
        { s with mem, queue, taskScheduler := Function.update s.taskScheduler task false })

def enqueue (task : ι) : TaskM ι Bool := fun s =>
  -- setTaskScheduler only succeeds for a task without a scheduler
  if s.taskScheduler task then .ok true s
  else
    match s.queue.add (compareTo s.nextExecutionTime) task s.mem with
    | .error e mem => .error e { s with mem }
    | .ok queue mem =>
      .ok true (replan (queue.root == some task)
        { s with mem, queue, taskScheduler := Function.update s.taskScheduler task true })

def removeIfQueued (task : ι) : TaskM ι Unit := do
  if ((← get).mem task).enqueued then
    let _ ← remove task

def add (task : ι) : TaskM ι Bool := do
  if (← get).blocked then return false
  removeIfQueued task
  enqueue task

def setExecutionTime (task : ι) (time : Time) (s : TimedTaskQueue ι) : TimedTaskQueue ι :=
  { s with nextExecutionTime := Function.update s.nextExecutionTime task time }

def addDelayed (task : ι) (delay : Nat) (now : Time) : TaskM ι Bool := do
  removeIfQueued task
  if delay ≠ 0 then modify (setExecutionTime task (now.addMiliTime delay))
  add task

def addAt (task : ι) (time : Time) : TaskM ι Bool := do
  removeIfQueued task
  modify (setExecutionTime task time)
  add task

def flush (s : TimedTaskQueue ι) : TimedTaskQueue ι := { s with blocked := true }

/-! ### The consumer -/

inductive Consumer (ι : Type)
  | idle
  | waiting
  | timedWaiting (task : ι) (time : Time)
  deriving DecidableEq, Repr

inductive Progress (ι : Type)
  | wait
  | timedWait (task : ι) (time : Time)
  | returned (task : Option ι)
  deriving DecidableEq, Repr

def take : TaskM ι (Progress ι) := fun s =>
  match s.queue.poll (compareTo s.nextExecutionTime) s.mem with
  | .error e mem => .error e { s with mem }
  | .ok (none, _) mem => .error (.abort "null task") { s with mem }
  | .ok (some task, queue) mem =>
    .ok (.returned (some task))
      { s with
        mem
        queue
        taskScheduler := Function.update s.taskScheduler task false
        waitingForTask := false }

def plan (now : Time) : TaskM ι (Progress ι) := fun s =>
  match s.queue.root with
  | none => .ok (.returned none) s
  | some task =>
    if s.blocked || !(s.nextExecutionTime task).isFuture now then take s
    else .ok (.timedWait task (s.nextExecutionTime task)) s

def loop (now : Time) : TaskM ι (Progress ι) := fun s =>
  if s.queue.root = none then
    if s.blocked then .ok (.returned none) s else .ok .wait s
  else plan now s

def resume (woke checked : Time) : Consumer ι → TaskM ι (Progress ι)
  | .idle => fun s => loop checked { s with waitingForTask := true }
  | .waiting => plan checked
  | .timedWaiting task time => fun s =>
    if s.changePlan then loop checked { s with changePlan := false }
    else if time.compareTo woke < 0 ∧
        ((s.nextExecutionTime task).getMiliTime : Int) - woke.getMiliTime > 10 then
      .ok (.returned none) s
    else take s

def Progress.next : Progress ι → Consumer ι
  | .wait => .waiting
  | .timedWait task time => .timedWaiting task time
  | .returned _ => .idle

def Progress.task : Progress ι → Option ι
  | .returned task => task
  | _ => none

def rank (nextExecutionTime : ι → Time) (x : ι) : (Nat ×ₗ Nat) ×ₗ ι :=
  toLex ((nextExecutionTime x).key, x)

theorem compareTo_orderedBy (nextExecutionTime : ι → Time) :
    SortedVector.OrderedBy (compareTo nextExecutionTime) (rank nextExecutionTime) := by
  constructor
  · intro a b
    have later := (nextExecutionTime a).compareTo_pos_iff (nextExecutionTime b)
    have equal := (nextExecutionTime a).compareTo_eq_zero_iff (nextExecutionTime b)
    simp only [compareTo, rank, Prod.Lex.toLex_lt_toLex]
    by_cases eq : b = a
    · simp [eq]
    · split_ifs with tie before
      · simp [equal.mp tie, before]
      · simp [equal.mp tie, before]
      · rw [later]
        simp [mt equal.mpr tie]
  · intro a b
    have equal := (nextExecutionTime a).compareTo_eq_zero_iff (nextExecutionTime b)
    simp only [compareTo, rank, toLex_inj, Prod.mk.injEq]
    by_cases eq : b = a
    · simp [eq]
    · split_ifs with tie before
      · simp [Ne.symm eq]
      · simp [Ne.symm eq]
      · simp [tie, Ne.symm eq]

/-! ### What every operation keeps -/

structure Sound (s : TimedTaskQueue ι) (pending : Finset ι) : Prop where
  tree : ∃ t, s.queue.Queued s.mem t ∧ (∀ x, x ∈ t.toList ↔ x ∈ pending) ∧
    t.HeapOrdered fun x y => rank s.nextExecutionTime x ≤ rank s.nextExecutionTime y
  free : ∀ x ∉ pending, Unqueued (s.mem x)
  scheduled : ∀ x, s.taskScheduler x = true ↔ x ∈ pending

structure PlanKept (s s' : TimedTaskQueue ι) : Prop where
  waiting : s'.waitingForTask = s.waitingForTask
  plan : s.waitingForTask = true → s'.changePlan = true ∨
    (s'.changePlan = s.changePlan ∧ s'.queue.root = s.queue.root ∧
      ∀ task, s.queue.root = some task → s'.nextExecutionTime task = s.nextExecutionTime task)

omit [LinearOrder ι] in
theorem PlanKept.refl (s : TimedTaskQueue ι) : PlanKept s s :=
  ⟨rfl, fun _ => .inr ⟨rfl, rfl, fun _ _ => rfl⟩⟩

omit [LinearOrder ι] in
theorem PlanKept.trans {s₁ s₂ s₃ : TimedTaskQueue ι} (fst : PlanKept s₁ s₂)
    (snd : PlanKept s₂ s₃) : PlanKept s₁ s₃ := by
  constructor
  · rw [snd.waiting, fst.waiting]
  · intro waits
    rcases snd.plan (fst.waiting.trans waits) with changed | ⟨flag, root, time⟩
    · exact .inl changed
    · rcases fst.plan waits with changed | ⟨flag', root', time'⟩
      · exact .inl (flag.trans changed)
      · refine .inr ⟨flag.trans flag', root.trans root', ?_⟩
        intro task head
        rw [time task (root'.trans head), time' task head]

omit [LinearOrder ι] in
theorem planKept_replan (s s' : TimedTaskQueue ι) (condition : Bool)
    (waiting : s'.waitingForTask = s.waitingForTask) (flag : s'.changePlan = s.changePlan)
    (time : s'.nextExecutionTime = s.nextExecutionTime)
    (head : condition = false → s'.queue.root = s.queue.root) :
    PlanKept s (replan condition s') := by
  unfold replan
  split
  · exact ⟨waiting, fun _ => .inl rfl⟩
  next unchanged =>
    refine ⟨waiting, fun waits => .inr ⟨flag, head ?_, fun task _ => by rw [time]⟩⟩
    rw [waiting, waits] at unchanged
    simpa using unchanged

variable {s s' : TimedTaskQueue ι} {pending : Finset ι} {task : ι}

omit [LinearOrder ι] in
theorem Sound.congr [LinearOrder ι] (sound : Sound s pending) (mem : s'.mem = s.mem)
    (queue : s'.queue = s.queue) (time : s'.nextExecutionTime = s.nextExecutionTime)
    (scheduler : s'.taskScheduler = s.taskScheduler) : Sound s' pending := by
  obtain ⟨tree, free, scheduled⟩ := sound
  constructor
  · rw [mem, queue, time]
    exact tree
  · rw [mem]
    exact free
  · rw [scheduler]
    exact scheduled

theorem Sound.replan (sound : Sound s pending) (condition : Bool) :
    Sound (replan condition s) pending := by
  unfold TimedTaskQueue.replan
  split
  · exact sound.congr rfl rfl rfl rfl
  · exact sound

theorem Sound.enqueued_iff (sound : Sound s pending) (x : ι) :
    (s.mem x).enqueued = true ↔ x ∈ pending := by
  obtain ⟨t, queued, members, -⟩ := sound.tree
  constructor
  · intro enqueued
    by_contra out
    rw [(sound.free x out).enqueued] at enqueued
    cases enqueued
  · intro hin
    exact queued.enqueued x ((members x).mpr hin)

theorem Sound.change {pending' : Finset ι} {t t' : Heap ι} (sound : Sound s pending)
    (members : ∀ x, x ∈ t.toList ↔ x ∈ pending) (mem : EntryMemory ι) (queue : PriorityQueue ι)
    (scheduler : ι → Bool) (waiting : Bool) (queued : queue.Queued mem t')
    (changed : Changed s.mem mem t t') (ord : t'.HeapOrdered fun x y =>
      rank s.nextExecutionTime x ≤ rank s.nextExecutionTime y)
    (members' : ∀ x, x ∈ t'.toList ↔ x ∈ pending')
    (scheduled : ∀ x, scheduler x = true ↔ x ∈ pending') :
    Sound { s with mem, queue, taskScheduler := scheduler, waitingForTask := waiting }
      pending' := by
  refine ⟨⟨t', queued, members', ord⟩, ?_, scheduled⟩
  intro x out
  have notNew : x ∉ t'.toList := mt (members' x).mp out
  by_cases inOld : x ∈ t.toList
  · exact changed.freed x inOld notNew
  · change Unqueued (mem x)
    rw [changed.frame x inOld notNew]
    exact sound.free x (mt (members x).mpr inOld)

theorem scheduled_update (sound : Sound s pending) (task x : ι) :
    Function.update s.taskScheduler task false x = true ↔ x ∈ pending.erase task := by
  by_cases eq : x = task
  · simp [eq]
  · simp [eq, sound.scheduled x]

/-! ### The operations of the other threads -/

theorem remove_spec (sound : Sound s pending) (task : ι) :
    ∃ answer s', remove task s = .ok answer s' ∧ Sound s' (pending.erase task) ∧ PlanKept s s' ∧
      s'.nextExecutionTime = s.nextExecutionTime ∧ s'.blocked = s.blocked := by
  by_cases hin : task ∈ pending
  · obtain ⟨t, queued, members, ord⟩ := sound.tree
    obtain ⟨queue, mem, ran, queued', changed⟩ := PriorityQueue.remove_spec
      (compareTo s.nextExecutionTime) s.mem s.queue t queued task ((members task).mpr hin)
    have perm := erase_perm (precedes (compareTo s.nextExecutionTime))
      ((members task).mpr hin)
    have left := mem_rest_iff perm queued.nodup
    have enqueued := (sound.enqueued_iff task).mpr hin
    have scheduled := (sound.scheduled task).mpr hin
    refine ⟨true, _, by simp only [remove, enqueued, scheduled, ran]; rfl, Sound.replan ?_ _, ?_,
      ?_, ?_⟩
    · apply sound.change members mem queue _ s.waitingForTask queued' changed
        (heapOrdered_erase (compareTo_orderedBy _) task t ord ((members task).mpr hin))
        _ (scheduled_update sound task)
      intro x
      rw [left, Finset.mem_erase, members x]
    -- removing a task that is not the head leaves the plan alone
    · apply planKept_replan
      · rfl
      · rfl
      · rfl
      · intro notHead
        rw [queued'.root, queued.root]
        apply root?_graft
        rw [← queued.root]
        simpa using notHead
    · unfold replan; split <;> rfl
    · unfold replan; split <;> rfl
  · have notQueued : (s.mem task).enqueued = false := (sound.free task hin).enqueued
    refine ⟨false, s, by simp [remove, notQueued], ?_, .refl s, rfl, rfl⟩
    rwa [Finset.erase_eq_of_notMem hin]

theorem removeIfQueued_spec (sound : Sound s pending) (task : ι) :
    ∃ s', removeIfQueued task s = .ok () s' ∧ Sound s' (pending.erase task) ∧ PlanKept s s' ∧
      s'.nextExecutionTime = s.nextExecutionTime ∧ s'.blocked = s.blocked := by
  by_cases hin : task ∈ pending
  · obtain ⟨answer, s', ran, sound', rest⟩ := remove_spec sound task
    have enqueued := (sound.enqueued_iff task).mpr hin
    refine ⟨s', ?_, sound', rest⟩
    refine get_bind.trans ?_
    rw [ite_run_pos enqueued]
    exact bind_of_ok ran
  · have notQueued : ¬ (s.mem task).enqueued = true := mt (sound.enqueued_iff task).mp hin
    refine ⟨s, ?_, by rwa [Finset.erase_eq_of_notMem hin], .refl s, rfl, rfl⟩
    refine get_bind.trans ?_
    rw [ite_run_neg notQueued]
    rfl

theorem enqueue_spec (sound : Sound s pending) (task : ι) (absent : task ∉ pending) :
    ∃ s', enqueue task s = .ok true s' ∧ Sound s' (insert task pending) ∧ PlanKept s s' ∧
      s'.nextExecutionTime = s.nextExecutionTime ∧ s'.blocked = s.blocked := by
  obtain ⟨t, queued, members, ord⟩ := sound.tree
  have fresh : task ∉ t.toList := mt (members task).mp absent
  obtain ⟨queue, mem, ran, queued', changed⟩ := add_spec
    (compareTo s.nextExecutionTime) s.mem s.queue t queued task fresh (sound.free task absent)
  have perm := insert_perm (precedes (compareTo s.nextExecutionTime)) (s.mem task).npl task t
  have unscheduled : ¬ s.taskScheduler task = true := mt (sound.scheduled task).mp absent
  refine ⟨_, by simp only [enqueue, if_neg unscheduled, ran]; rfl, Sound.replan ?_ _, ?_, ?_, ?_⟩
  · apply sound.change members mem queue _ s.waitingForTask queued' changed
      (heapOrdered_insert (compareTo_orderedBy _) _ task ord)
    · intro x
      rw [perm.mem_iff, List.mem_cons, members x, Finset.mem_insert]
    · intro x
      by_cases eq : x = task
      · simp [eq]
      · simp [eq, sound.scheduled x]
  · apply planKept_replan
    · rfl
    · rfl
    · rfl
    · -- the root of the new heap is the task or the old root
      intro notHead
      rw [queued'.root, queued.root]
      rcases root?_merge (precedes (compareTo s.nextExecutionTime))
        (.node (s.mem task).npl .leaf task .leaf) t with new | old
      · have isHead : queue.root = some task := queued'.root.trans new
        simp [isHead] at notHead
      · exact old
  · unfold replan; split <;> rfl
  · unfold replan; split <;> rfl

def added (blocked : Bool) (task : ι) (pending : Finset ι) : Finset ι :=
  if blocked then pending else insert task pending

theorem add_spec (sound : Sound s pending) (task : ι) :
    ∃ answer s', add task s = .ok answer s' ∧ Sound s' (added s.blocked task pending) ∧
      PlanKept s s' ∧ s'.nextExecutionTime = s.nextExecutionTime ∧ s'.blocked = s.blocked := by
  unfold added
  split
  next blocked =>
    refine ⟨false, s, ?_, sound, .refl s, rfl, rfl⟩
    refine get_bind.trans ?_
    rw [ite_run_pos blocked]
    rfl
  next open_ =>
    obtain ⟨s₁, ran₁, sound₁, kept₁, time₁, blocked₁⟩ := removeIfQueued_spec sound task
    obtain ⟨s₂, ran₂, sound₂, kept₂, time₂, blocked₂⟩ := enqueue_spec sound₁ task (by simp)
    refine ⟨true, s₂, ?_, ?_, kept₁.trans kept₂, time₂.trans time₁, blocked₂.trans blocked₁⟩
    · refine get_bind.trans ?_
      rw [ite_run_neg open_]
      exact (bind_of_ok ran₁).trans ran₂
    · convert sound₂ using 1
      ext x
      by_cases eq : x = task <;> simp [eq]

theorem setExecutionTime_spec (sound : Sound s pending) (task : ι) (time : Time)
    (absent : task ∉ pending) :
    Sound (setExecutionTime task time s) pending ∧ PlanKept s (setExecutionTime task time s) := by
  have eq (x : ι) (hin : x ∈ pending) :
      (setExecutionTime task time s).nextExecutionTime x = s.nextExecutionTime x :=
    Function.update_of_ne (ne_of_mem_of_not_mem hin absent) ..
  obtain ⟨t, queued, members, ord⟩ := sound.tree
  constructor
  · refine ⟨⟨t, queued, members, ord.imp ?_⟩, sound.free, sound.scheduled⟩
    intro x inX y inY
    unfold rank
    rw [eq x ((members x).mp inX), eq y ((members y).mp inY)]
    exact id
  · refine ⟨rfl, fun _ => .inr ⟨rfl, rfl, ?_⟩⟩
    intro head isHead
    exact eq head ((members head).mp (mem_of_root? (queued.root.symm.trans isHead)))

theorem retimed_spec (sound : Sound s pending) (task : ι) (change : TaskM ι Unit)
    (retimes : ∀ s₁ : TimedTaskQueue ι, ∃ s₂, change s₁ = .ok () s₂ ∧
      (s₂ = s₁ ∨ ∃ time, s₂ = setExecutionTime task time s₁)) :
    ∃ answer s', (do removeIfQueued task; change; add task : TaskM ι Bool) s = .ok answer s' ∧
      Sound s' (added s.blocked task (pending.erase task)) ∧ PlanKept s s' ∧
      s'.blocked = s.blocked := by
  obtain ⟨s₁, ran₁, sound₁, kept₁, -, blocked₁⟩ := removeIfQueued_spec sound task
  obtain ⟨s₂, ran₂, effect⟩ := retimes s₁
  have changed : Sound s₂ (pending.erase task) ∧ PlanKept s₁ s₂ ∧ s₂.blocked = s₁.blocked := by
    rcases effect with rfl | ⟨time, rfl⟩
    · exact ⟨sound₁, .refl s₂, rfl⟩
    · obtain ⟨sound₂, kept₂⟩ := setExecutionTime_spec sound₁ task time (by simp)
      exact ⟨sound₂, kept₂, rfl⟩
  obtain ⟨sound₂, kept₂, blocked₂⟩ := changed
  obtain ⟨answer, s₃, ran₃, sound₃, kept₃, -, blocked₃⟩ := add_spec sound₂ task
  refine ⟨answer, s₃, ?_, ?_, (kept₁.trans kept₂).trans kept₃,
    blocked₃.trans (blocked₂.trans blocked₁)⟩
  · refine (bind_of_ok ran₁).trans ?_
    exact (bind_of_ok ran₂).trans ran₃
  · rwa [blocked₂, blocked₁] at sound₃

theorem addDelayed_spec (sound : Sound s pending) (task : ι) (delay : Nat) (now : Time) :
    ∃ answer s', addDelayed task delay now s = .ok answer s' ∧
      Sound s' (added s.blocked task (pending.erase task)) ∧ PlanKept s s' ∧
      s'.blocked = s.blocked := by
  by_cases delayed : delay ≠ 0
  · have retimed := retimed_spec sound task
      (modify (setExecutionTime task (now.addMiliTime delay)))
      fun _ => ⟨_, rfl, .inr ⟨now.addMiliTime delay, rfl⟩⟩
    simpa only [addDelayed, if_pos delayed] using retimed
  · have retimed := retimed_spec sound task (pure ()) fun s₁ => ⟨s₁, rfl, .inl rfl⟩
    simpa only [addDelayed, if_neg delayed, pure_bind] using retimed

theorem addAt_spec (sound : Sound s pending) (task : ι) (time : Time) :
    ∃ answer s', addAt task time s = .ok answer s' ∧
      Sound s' (added s.blocked task (pending.erase task)) ∧ PlanKept s s' ∧
      s'.blocked = s.blocked :=
  retimed_spec sound task (modify (setExecutionTime task time))
    fun _ => ⟨_, rfl, .inr ⟨time, rfl⟩⟩

/-! ### What the consumer is given -/

def Agrees (s : TimedTaskQueue ι) : Consumer ι → Prop
  | .idle => True
  | .waiting => s.waitingForTask = true
  | .timedWaiting task time => s.waitingForTask = true ∧
      (s.changePlan = true ∨ s.queue.root = some task ∧ s.nextExecutionTime task = time)

variable {consumer : Consumer ι} {woke checked : Time}

omit [LinearOrder ι] in
theorem Agrees.of_planKept (agrees : Agrees s consumer) (kept : PlanKept s s') :
    Agrees s' consumer := by
  cases consumer with
  | idle => trivial
  | waiting => exact kept.waiting.trans agrees
  | timedWaiting task time =>
    obtain ⟨waits, plan⟩ := agrees
    refine ⟨kept.waiting.trans waits, ?_⟩
    rcases kept.plan waits with changed | ⟨flag, root, sameTime⟩
    · exact .inl changed
    · rcases plan with changed | ⟨head, due⟩
      · exact .inl (flag.trans changed)
      · exact .inr ⟨root.trans head, (sameTime task head).trans due⟩

/-- A pending task that none is due before and, unless the queue is flushed, one that is due within
ten of the milliseconds that `getMiliTime` counts from the reading behind the wait. -/
structure Due (s : TimedTaskQueue ι) (pending : Finset ι) (woke checked : Time) (task : ι) :
    Prop where
  member : task ∈ pending
  first : ∀ x ∈ pending, (s.nextExecutionTime task).key ≤ (s.nextExecutionTime x).key
  time : s.blocked = false → (s.nextExecutionTime task).key ≤ checked.key ∨
    (s.nextExecutionTime task).getMiliTime ≤ woke.getMiliTime + 10

structure Resumed (s s' : TimedTaskQueue ι) (pending : Finset ι) (woke checked : Time)
    (progress : Progress ι) : Prop where
  sound : Sound s' (progress.task.elim pending pending.erase)
  agrees : Agrees s' progress.next
  due : ∀ task, progress.task = some task → Due s pending woke checked task
  blocked : s'.blocked = s.blocked

theorem Sound.root_le (sound : Sound s pending) (head : s.queue.root = some task) :
    task ∈ pending ∧
      ∀ x ∈ pending, (s.nextExecutionTime task).key ≤ (s.nextExecutionTime x).key := by
  obtain ⟨t, queued, members, ord⟩ := sound.tree
  have root := queued.root.symm.trans head
  refine ⟨(members task).mp (mem_of_root? root), fun x hin => ?_⟩
  have le := ord.root_le (fun x => le_refl _) root x ((members x).mpr hin)
  rcases Prod.Lex.le_iff.mp le with lt | ⟨eq, -⟩
  · exact le_of_lt lt
  · exact le_of_eq eq

theorem take_spec (sound : Sound s pending) (head : s.queue.root = some task) :
    ∃ s', take s = .ok (.returned (some task)) s' ∧ Sound s' (pending.erase task) ∧
      s'.blocked = s.blocked := by
  obtain ⟨t, queued, members, ord⟩ := sound.tree
  have root := queued.root.symm.trans head
  cases t with
  | leaf => cases root
  | node n l x r =>
    cases root
    obtain ⟨queue, mem, ran, queued', changed⟩ :=
      poll_spec (compareTo s.nextExecutionTime) queued
    have perm := poll_perm (precedes (compareTo s.nextExecutionTime))
      (.node n l task r) _ task rfl
    have left := mem_rest_iff perm queued.nodup
    let s' : TimedTaskQueue ι :=
      { s with
        mem
        queue
        taskScheduler := Function.update s.taskScheduler task false
        waitingForTask := false }
    refine ⟨s', by simp only [take, ran, s'], ?_, rfl⟩
    apply sound.change members mem queue _ false queued' changed
      (heapOrdered_merge (compareTo_orderedBy _) l r ord.2.1 ord.2.2)
      _ (scheduled_update sound task)
    intro x
    rw [left, Finset.mem_erase, members x]

theorem take_resumed (sound : Sound s pending) (woke checked : Time)
    (head : s.queue.root = some task)
    (time : s.blocked = false → (s.nextExecutionTime task).key ≤ checked.key ∨
      (s.nextExecutionTime task).getMiliTime ≤ woke.getMiliTime + 10) :
    ∃ progress s', take s = .ok progress s' ∧ Resumed s s' pending woke checked progress := by
  obtain ⟨s', ran, sound', blocked⟩ := take_spec sound head
  obtain ⟨mem, fst⟩ := sound.root_le head
  refine ⟨_, s', ran, sound', trivial, ?_, blocked⟩
  intro task' eq
  cases eq
  exact ⟨mem, fst, time⟩

theorem plan_spec (sound : Sound s pending) (waits : s.waitingForTask = true)
    (woke checked : Time) :
    ∃ progress s', plan checked s = .ok progress s' ∧
      Resumed s s' pending woke checked progress := by
  unfold plan
  cases head : s.queue.root with
  | none => exact ⟨_, s, rfl, sound, trivial, by simp [Progress.task], rfl⟩
  | some task =>
    dsimp only
    split
    next now =>
      apply take_resumed sound woke checked head
      intro op
      left
      simpa [op, Time.isFuture_eq_false_iff] using now
    · exact ⟨_, s, rfl, sound, ⟨waits, .inr ⟨head, rfl⟩⟩, by simp [Progress.task], rfl⟩

theorem loop_spec (sound : Sound s pending) (waits : s.waitingForTask = true)
    (woke checked : Time) :
    ∃ progress s', loop checked s = .ok progress s' ∧
      Resumed s s' pending woke checked progress := by
  unfold loop
  split
  · split
    · exact ⟨_, s, rfl, sound, trivial, by simp [Progress.task], rfl⟩
    · exact ⟨_, s, rfl, sound, waits, by simp [Progress.task], rfl⟩
  · exact plan_spec sound waits woke checked

theorem Resumed.of_flags {s₀ : TimedTaskQueue ι} {progress : Progress ι}
    (resumed : Resumed s₀ s' pending woke checked progress)
    (time : s₀.nextExecutionTime = s.nextExecutionTime) (blocked : s₀.blocked = s.blocked) :
    Resumed s s' pending woke checked progress where
  sound := resumed.sound
  agrees := resumed.agrees
  due task handed := by
    obtain ⟨mem, fst, due⟩ := resumed.due task handed
    rw [time] at fst due
    rw [blocked] at due
    exact ⟨mem, fst, due⟩
  blocked := resumed.blocked.trans blocked

theorem resume_spec (sound : Sound s pending) (agrees : Agrees s consumer)
    (order : woke.key ≤ checked.key) :
    ∃ progress s', resume woke checked consumer s = .ok progress s' ∧
      Resumed s s' pending woke checked progress := by
  cases consumer with
  | idle =>
    have sound' : Sound { s with waitingForTask := true } pending := sound.congr rfl rfl rfl rfl
    obtain ⟨progress, s', ran, resumed⟩ := loop_spec sound' rfl woke checked
    exact ⟨progress, s', ran, resumed.of_flags rfl rfl⟩
  | waiting => exact plan_spec sound agrees woke checked
  | timedWaiting task time =>
    obtain ⟨waits, kept⟩ := agrees
    simp only [resume]
    split
    · have sound' : Sound { s with changePlan := false } pending := sound.congr rfl rfl rfl rfl
      obtain ⟨progress, s', ran, resumed⟩ := loop_spec sound' waits woke checked
      exact ⟨progress, s', ran, resumed.of_flags rfl rfl⟩
    next unchanged =>
      -- nothing has set the flag, so the head is the task that `get` waits for
      obtain ⟨head, due⟩ := kept.resolve_left unchanged
      split
      · exact ⟨_, s, rfl, sound, trivial, by simp [Progress.task], rfl⟩
      next close =>
        apply take_resumed sound woke checked head
        intro _
        by_cases future : time.compareTo woke < 0
        · right
          have difference := not_and.mp close future
          omega
        · left
          rw [due]
          have notFuture : time.isFuture woke = false := by simpa [Time.isFuture] using future
          exact (Time.isFuture_eq_false_iff time woke).mp notFuture |>.trans order

end TimedTaskQueue

end Engine3
