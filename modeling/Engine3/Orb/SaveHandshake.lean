import Engine3.Orb.SaveCycle

/-!
# The handshake of a save

The worker threads of a save (`UpdateModifiedObjectsThread`) and the coordinator that hands out
ranges, tells the workers that all are handed out and commits the master transaction when they have
committed theirs (`DOBObjectManager`, `CommitMasterTransactionThread::commitData`).

A step is what a thread does between taking the mutex of a worker and giving it up; the setters
before `signalActivity`, which take no mutex, are one step. A broadcast wakes a thread that waits at
that time. The threads are not being shut down.
-/
namespace Engine3

open DOBObjectManager Function

inductive WorkerPosition
  | looking
  | waiting
  | woken
  | waitingMaster
  | wokenMaster
  deriving DecidableEq

structure UpdateModifiedObjectsThread (ρ : Type) where
  position : WorkerPosition
  objectsToUpdate : Option ρ
  waitingToStart : Bool
  working : Bool
  finishedCommiting : Bool
  copyRAMFinished : Bool
  transaction : Bool
  given : List ρ
  processed : List ρ

variable {ρ : Type}

namespace UpdateModifiedObjectsThread

def new : UpdateModifiedObjectsThread ρ :=
  ⟨.looking, none, true, false, false, false, false, [], []⟩

variable (w : UpdateModifiedObjectsThread ρ)

def wake : UpdateModifiedObjectsThread ρ :=
  if w.position = .waiting then { w with position := .woken } else w

def wakeMaster : UpdateModifiedObjectsThread ρ :=
  if w.position = .waitingMaster then { w with position := .wokenMaster } else w

def commitTransaction : UpdateModifiedObjectsThread ρ :=
  if w.transaction then { w with position := .waitingMaster }
  else { w with finishedCommiting := true, copyRAMFinished := false, position := .looking }

def look : UpdateModifiedObjectsThread ρ :=
  if w.copyRAMFinished then w.commitTransaction
  else { w with waitingToStart := true, position := .waiting }

def work : UpdateModifiedObjectsThread ρ :=
  look { w with
    waitingToStart := false
    finishedCommiting := false
    processed := w.processed ++ w.objectsToUpdate.toList
    working := false
    objectsToUpdate := none }

def commitLocal : UpdateModifiedObjectsThread ρ :=
  { w with transaction := false, copyRAMFinished := false, finishedCommiting := true,
           position := .looking }

def resume : UpdateModifiedObjectsThread ρ :=
  match w.position with
  | .looking => w.look
  | .woken => w.work
  | .wokenMaster => w.commitLocal
  | .waiting | .waitingMaster => w

end UpdateModifiedObjectsThread

inductive Waits (ρ : Type)
  | dispatch (range : ρ) (currentThread : Nat)
  | copyFinished

inductive Coordinator (ρ : Type)
  | collect (currentThread : Nat)
  | waitFinishedWork (i : Nat) (cause : Waits ρ)
  | blocked (i : Nat) (cause : Waits ρ)
  | assign (i : Nat) (range : ρ) (currentThread : Nat)
  | signalActivity (i currentThread : Nat)
  | signalCopyFinished (i : Nat)
  | commitData (i : Nat)

namespace Coordinator

def afterWait (i : Nat) : Waits ρ → Coordinator ρ
  | .dispatch range currentThread => .assign i range currentThread
  | .copyFinished => .signalCopyFinished (i + 1)

def release (i : Nat) : Coordinator ρ → Coordinator ρ
  | .blocked j cause => if j = i then afterWait i cause else .blocked j cause
  | c => c

@[grind cases]
inductive View
  | free
  | chosen
  | handed
  | awaited
  | told
  | toldAwaited
  | settled
  | committed

def view (i : Nat) : Coordinator ρ → View
  | .collect _ | .waitFinishedWork _ (.dispatch ..) => .free
  | .blocked j (.dispatch ..) => if i = j then .awaited else .free
  | .assign j .. => if i = j then .chosen else .free
  | .signalActivity j _ => if i = j then .handed else .free
  | .signalCopyFinished j => if i < j then .settled else .free
  | .waitFinishedWork j .copyFinished =>
    if i < j then .settled else if i = j then .told else .free
  | .blocked j .copyFinished => if i < j then .settled else if i = j then .toldAwaited else .free
  | .commitData j => if i < j then .committed else .settled

def View.signalled : View → Bool
  | told | toldAwaited | settled | committed => true
  | _ => false

def View.block : View → View
  | .free => .awaited
  | .told => .toldAwaited
  | v => v

def View.release : View → View
  | .awaited => .chosen
  | .toldAwaited => .settled
  | v => v

def Valid (maxUpdateThreads threads : Nat) : Coordinator ρ → Prop
  | .collect k => min k maxUpdateThreads ≤ threads
  | .waitFinishedWork i (.dispatch _ k) | .blocked i (.dispatch _ k) | .assign i _ k
  | .signalActivity i k => i < threads ∧ min (k + 1) maxUpdateThreads ≤ threads
  | .waitFinishedWork i .copyFinished | .blocked i .copyFinished => i < threads
  | .signalCopyFinished i | .commitData i => i ≤ threads

end Coordinator

structure SaveState (ρ : Type) where
  coordinator : Coordinator ρ
  threads : Nat
  worker : Nat → UpdateModifiedObjectsThread ρ

inductive SaveEvent (ρ : Type)
  | worker (i : Nat)
  | coordinator (next : Option ρ)

namespace SaveState

variable (maxUpdateThreads : Nat) (hasObjects : ρ → Bool)

def coordinate (next : Option ρ) (s : SaveState ρ) : SaveState ρ :=
  match s.coordinator with
  | .collect currentThread =>
    match next with
    | some range =>
      let chosen := chooseThread maxUpdateThreads currentThread s.threads
      ⟨.waitFinishedWork chosen.1 (.dispatch range currentThread), chosen.2, s.worker⟩
    | none => { s with coordinator := .signalCopyFinished 0 }
  | .waitFinishedWork i cause =>
    let w := s.worker i
    if w.waitingToStart ∧ w.objectsToUpdate.any hasObjects then
      { s with worker := update s.worker i w.wake }
    else if w.working then { s with coordinator := .blocked i cause }
    else { s with coordinator := .afterWait i cause }
  | .blocked .. => s
  | .assign i range currentThread =>
    let w := s.worker i
    { s with
      coordinator := .signalActivity i currentThread
      worker := update s.worker i { w with
        objectsToUpdate := some range, transaction := true, given := w.given ++ [range] } }
  | .signalActivity i currentThread =>
    { s with
      coordinator := .collect (currentThread + 1)
      worker := update s.worker i { s.worker i with working := true }.wake }
  | .signalCopyFinished i =>
    if i < s.threads then
      { s with
        coordinator := .waitFinishedWork i .copyFinished
        worker := update s.worker i { s.worker i with copyRAMFinished := true }.wake }
    else { s with coordinator := .commitData 0 }
  | .commitData i =>
    if i < s.threads then
      if (s.worker i).finishedCommiting then { s with coordinator := .commitData (i + 1) }
      else { s with worker := update s.worker i (s.worker i).wakeMaster }
    else ⟨.collect 0, s.threads, fun i => { s.worker i with given := [], processed := [] }⟩

def step (s : SaveState ρ) : SaveEvent ρ → SaveState ρ
  | .worker i =>
    if i < s.threads then
      { s with
        coordinator :=
          if (s.worker i).position = .woken then s.coordinator.release i else s.coordinator
        worker := update s.worker i (s.worker i).resume }
    else s
  | .coordinator next => s.coordinate maxUpdateThreads hasObjects next

def start (threads : Nat) : SaveState ρ := ⟨.collect 0, threads, fun _ => .new⟩

def TimelyStep (s : SaveState ρ) : SaveEvent ρ → Prop
  | .worker _ => True
  | .coordinator _ =>
    match s.coordinator with
    | .signalActivity i _ => (s.worker i).position = .waiting
    | _ => True

/-- An interleaving in which `signalActivity` always finds the worker waiting. -/
def Timely (s : SaveState ρ) : List (SaveEvent ρ) → Prop
  | [] => True
  | e :: events => s.TimelyStep e ∧ Timely (s.step maxUpdateThreads hasObjects e) events

/-- The coordinator can get on from here. -/
inductive Advances : SaveState ρ → Prop
  | now (s : SaveState ρ) (e : SaveEvent ρ)
    (moved : (s.step maxUpdateThreads hasObjects e).coordinator ≠ s.coordinator) : Advances s
  | later (s : SaveState ρ) (e : SaveEvent ρ)
    (same : (s.step maxUpdateThreads hasObjects e).coordinator = s.coordinator)
    (advances : Advances (s.step maxUpdateThreads hasObjects e)) : Advances s

/-! ### What every worker keeps -/

open UpdateModifiedObjectsThread Coordinator

structure Sound (v : View) (w : UpdateModifiedObjectsThread ρ) : Prop where
  given : w.given = w.processed ++ w.objectsToUpdate.toList
  /-- A worker that was told to commit in an earlier save and does so only now misses its range. -/
  handed : v = .handed → w.transaction ∧
    (w.copyRAMFinished = false ∧ w.objectsToUpdate ≠ none ∧
        (w.position = .looking ∨ w.position = .waiting) ∨
      w.copyRAMFinished ∧
        (w.position = .looking ∨ w.position = .woken ∨ w.position = .waitingMaster))
  busy : v ≠ .handed → (w.objectsToUpdate ≠ none ↔ w.working)
  working : w.working → w.position = .woken
  chosen : v = .chosen ∨ v = .handed → w.working = false
  awaited : v = .awaited ∨ v = .toldAwaited → w.working
  waiting : w.position = .waiting → w.copyRAMFinished = false
  woken : w.position = .woken → w.working ∨ w.copyRAMFinished
  looking : v ≠ .handed → w.position = .looking → w.transaction = false
  master : w.position = .waitingMaster ∨ w.position = .wokenMaster →
    w.transaction ∧ w.copyRAMFinished
  unfinished : w.transaction → w.objectsToUpdate = none → w.finishedCommiting = false
  unsignalled : v ≠ .handed → w.transaction → v.signalled = false → w.copyRAMFinished = false
  signalled : v.signalled → w.copyRAMFinished ∨
    w.finishedCommiting ∧ (w.position = .looking ∨ w.position = .waiting)
  settled : v = .settled ∨ v = .committed → w.objectsToUpdate = none
  committed : v = .committed → w.transaction = false

variable {v : View} {c : Coordinator ρ} {i j : Nat} {w : UpdateModifiedObjectsThread ρ}

theorem sound_new : Sound .free (new : UpdateModifiedObjectsThread ρ) := by
  constructor <;> simp [new, View.signalled]

theorem Sound.look (sound : Sound v w) (here : w.position = .looking) : Sound v w.look := by
  cases sound
  simp only [UpdateModifiedObjectsThread.look, commitTransaction]
  split_ifs <;> constructor <;> grind -ring -linarith -order

theorem Sound.work (sound : Sound v w) (here : w.position = .woken) : Sound v.release w.work := by
  cases sound
  simp only [UpdateModifiedObjectsThread.work, UpdateModifiedObjectsThread.look, commitTransaction]
  cases v <;> split <;> constructor <;> grind -ring -linarith -order [View.release, View.signalled]

theorem Sound.commitLocal (sound : Sound v w) (here : w.position = .wokenMaster) :
    Sound v w.commitLocal := by
  cases sound
  constructor <;> grind -ring -linarith -order [UpdateModifiedObjectsThread.commitLocal]

theorem Sound.resume (sound : Sound v w) :
    Sound (if w.position = .woken then v.release else v) w.resume := by
  unfold UpdateModifiedObjectsThread.resume
  cases here : w.position with
  | looking => exact sound.look here
  | waiting | waitingMaster => exact sound
  | woken => exact sound.work here
  | wokenMaster => exact sound.commitLocal here

theorem Sound.assign (sound : Sound .chosen w) (range : ρ) :
    Sound .handed { w with
      objectsToUpdate := some range, transaction := true, given := w.given ++ [range] } := by
  cases sound
  cases at' : w.position <;> constructor <;> grind -ring -linarith -order [View.signalled]

theorem Sound.signalActivity (sound : Sound .handed w) (waits : w.position = .waiting) :
    Sound .free ({ w with working := true } : UpdateModifiedObjectsThread ρ).wake := by
  cases sound
  constructor <;> grind -ring -linarith -order [wake, View.signalled]

theorem Sound.signalCopyFinished (sound : Sound .free w) :
    Sound .told ({ w with copyRAMFinished := true } : UpdateModifiedObjectsThread ρ).wake := by
  cases sound
  constructor <;> grind -ring -linarith -order [wake, View.signalled]

theorem Sound.wakeMaster (sound : Sound v w) (ne : v ≠ .handed) : Sound v w.wakeMaster := by
  cases sound
  constructor <;> grind -ring -linarith -order [wakeMaster]

theorem Sound.block (sound : Sound v w) (waits : v = .free ∨ v = .told) (working : w.working) :
    Sound v.block w := by
  cases sound
  constructor <;> grind -ring -linarith -order [View.block, View.signalled]

theorem Sound.pass (sound : Sound v w) (waits : v = .free ∨ v = .told)
    (idle : w.working = false) : Sound v.block.release w := by
  cases sound
  constructor <;> grind -ring -linarith -order [View.block, View.release, View.signalled]

theorem Sound.commits (sound : Sound .settled w) (finished : w.finishedCommiting) :
    Sound .committed w := by
  cases sound
  constructor <;> grind -ring -linarith -order [View.signalled]

theorem Sound.reset (sound : Sound .committed w) :
    Sound .free { w with given := [], processed := [] } := by
  cases sound
  constructor <;> grind -ring -linarith -order [View.signalled]

/-! ### What every state keeps -/

structure Steady (s : SaveState ρ) : Prop where
  sound : ∀ i < s.threads, Sound (s.coordinator.view i) (s.worker i)
  unborn : ∀ i, s.threads ≤ i → s.worker i = .new
  valid : s.coordinator.Valid maxUpdateThreads s.threads

variable {maxUpdateThreads hasObjects} {s : SaveState ρ}

theorem Steady.put (steady : Steady maxUpdateThreads s) (i : Nat) (exists' : i < s.threads)
    (valid : c.Valid maxUpdateThreads s.threads)
    (others : ∀ j < s.threads, j ≠ i → c.view j = s.coordinator.view j)
    (sound : Sound (c.view i) w) : Steady maxUpdateThreads ⟨c, s.threads, update s.worker i w⟩ := by
  refine ⟨fun j hin => ?_, fun j out => ?_, valid⟩
  · by_cases eq : j = i
    · subst eq
      simpa using sound
    · simpa [eq, others j hin eq] using steady.sound j hin
  · have ne : j ≠ i := by dsimp only at out; omega
    simpa [ne] using steady.unborn j out

theorem Steady.move (steady : Steady maxUpdateThreads s) (i : Nat) (exists' : i < s.threads)
    (valid : c.Valid maxUpdateThreads s.threads)
    (others : ∀ j < s.threads, j ≠ i → c.view j = s.coordinator.view j)
    (sound : Sound (c.view i) (s.worker i)) :
    Steady maxUpdateThreads { s with coordinator := c } := by
  have put := steady.put i exists' valid others sound
  rwa [update_eq_self] at put

theorem view_release (ne : j ≠ i) : (c.release i).view j = c.view j := by
  cases c with
  | blocked k cause => cases cause <;> grind [release, afterWait, view]
  | _ => rfl

theorem view_release_self : (c.release i).view i = (c.view i).release := by
  cases c with
  | blocked k cause => cases cause <;> grind [release, afterWait, view, View.release]
  | waitFinishedWork k cause => cases cause <;> grind [release, view, View.release]
  | _ => grind [release, view, View.release]

theorem view_blocked (i : Nat) (cause : Waits ρ) :
    (blocked i cause).view i = ((waitFinishedWork i cause).view i).block ∧
      ∀ j, j ≠ i → (blocked i cause).view j = (waitFinishedWork i cause).view j := by
  cases cause <;> simp +contextual [view, View.block]

theorem valid_release {threads : Nat} (valid : c.Valid maxUpdateThreads threads) :
    (c.release i).Valid maxUpdateThreads threads := by
  cases c with
  | blocked k cause => cases cause <;> grind [release, afterWait, Valid]
  | _ => exact valid

theorem Steady.worker (steady : Steady maxUpdateThreads s) (i : Nat) :
    Steady maxUpdateThreads (s.step maxUpdateThreads hasObjects (.worker i)) := by
  simp only [step]
  split
  next inside =>
    have sound := (steady.sound i inside).resume
    split
    next woken =>
      rw [if_pos woken, ← view_release_self] at sound
      exact steady.put i inside (valid_release steady.valid) (fun j _ ne => view_release ne) sound
    next asleep =>
      rw [if_neg asleep] at sound
      exact steady.put i inside steady.valid (fun _ _ _ => rfl) sound
  next => exact steady

theorem Steady.coordinator (limit : 1 ≤ maxUpdateThreads) (steady : Steady maxUpdateThreads s)
    (next : Option ρ) (timely : s.TimelyStep (.coordinator next)) :
    Steady maxUpdateThreads (s.step maxUpdateThreads hasObjects (.coordinator next)) := by
  have valid := steady.valid
  have sound := steady.sound
  simp only [step, coordinate]
  split
  next k here =>
    simp only [here, view] at valid sound
    cases next with
    | some range =>
      obtain ⟨chosen, reached, more⟩ := chooseThread_valid limit valid
      refine ⟨fun i hin => ?_, fun i out => steady.unborn i (le_trans more out), chosen,
        reached⟩
      by_cases old : i < s.threads
      · exact sound i old
      · rw [steady.unborn i (by omega)]
        exact sound_new
    | none => exact ⟨sound, steady.unborn, Nat.zero_le _⟩
  next i cause here =>
    simp only [here] at valid sound
    have hin : i < s.threads := by cases cause <;> grind [Valid]
    have waits : (waitFinishedWork i cause).view i = .free ∨
        (waitFinishedWork i cause).view i = .told := by
      cases cause <;> simp [view]
    have own := sound i hin
    split
    next spins =>
      -- the worker has been woken already
      have woken : (s.worker i).wake = s.worker i := by grind [Sound, wake]
      rw [woken, update_eq_self]
      exact steady
    · obtain ⟨changed, others⟩ := view_blocked i cause
      rw [← here] at others
      have valid : (blocked i cause).Valid maxUpdateThreads s.threads := by
        cases cause <;> exact valid
      split
      next working =>
        exact steady.move i hin valid (fun j _ => others j) (changed ▸ own.block waits working)
      next idle =>
        have passed := own.pass waits (by simpa using idle)
        rw [← changed, ← view_release_self] at passed
        have released : (blocked i cause).release i = afterWait i cause := by simp [release]
        rw [← released]
        exact steady.move i hin (valid_release valid)
          (fun j _ ne => (view_release ne).trans (others j ne)) passed
  next => exact steady
  next i range k here =>
    simp only [here] at valid sound
    refine steady.put i valid.1 valid (by simp +contextual [here, view]) ?_
    have sound := sound i valid.1
    simp only [view, if_true] at sound ⊢
    exact sound.assign range
  next i k here =>
    simp only [here] at valid sound
    refine steady.put i valid.1 valid.2 (by simp +contextual [here, view]) ?_
    have sound := sound i valid.1
    simp only [view, if_true] at sound
    simp only [TimelyStep, here] at timely
    exact sound.signalActivity timely
  next i here =>
    simp only [here] at valid sound
    split
    next hin =>
      refine steady.put i hin hin ?_ ?_
      · grind [view]
      · have sound := sound i hin
        simp only [view, lt_irrefl, if_true, if_false] at sound ⊢
        exact sound.signalCopyFinished
    next out =>
      refine ⟨fun j hin => ?_, steady.unborn, Nat.zero_le _⟩
      have sound := sound j hin
      grind [view]
  next i here =>
    simp only [here] at valid sound
    split
    next hin =>
      have here' := sound i hin
      simp only [view, lt_irrefl, if_false] at here'
      split
      next finished =>
        exact steady.move i hin hin (by grind [view])
          (by simpa [view] using here'.commits finished)
      next =>
        exact steady.put i hin steady.valid (fun _ _ _ => rfl)
          ((steady.sound i hin).wakeMaster (by simp [here, view]))
    next out =>
      refine ⟨fun j hin => ?_, fun j out => ?_, by simp [Valid]⟩
      · have sound := sound j hin
        rw [view, if_pos (by simp only at hin; omega)] at sound
        exact sound.reset
      · simp only [steady.unborn j out, new]

theorem steady_start (threads : Nat) : Steady maxUpdateThreads (start threads : SaveState ρ) :=
  ⟨fun _ _ => sound_new, fun _ _ => rfl, by simp [start, Valid]⟩

theorem Steady.run (limit : 1 ≤ maxUpdateThreads) (events : List (SaveEvent ρ))
    (steady : Steady maxUpdateThreads s) (timely : s.Timely maxUpdateThreads hasObjects events) :
    Steady maxUpdateThreads (events.foldl (step maxUpdateThreads hasObjects) s) := by
  induction events generalizing s with
  | nil => exact steady
  | cons e events ih =>
    obtain ⟨now, later⟩ := timely
    cases e with
    | worker i => exact ih (steady.worker i) later
    | coordinator next => exact ih (steady.coordinator limit next now) later

/-! ### The coordinator gets on -/

theorem advances_worker (hin : i < s.threads)
    (unblocked : ∀ cause, s.coordinator ≠ .blocked i cause)
    (advances : Advances maxUpdateThreads hasObjects
      { s with worker := update s.worker i (s.worker i).resume }) :
    Advances maxUpdateThreads hasObjects s := by
  have eq : s.coordinator.release i = s.coordinator := by
    cases here : s.coordinator with
    | blocked j cause => grind [release]
    | _ => rfl
  have stepped : s.step maxUpdateThreads hasObjects (.worker i) =
      { s with worker := update s.worker i (s.worker i).resume } := by
    simp only [step, hin, eq, ite_self, if_true]
  exact .later s (.worker i) (by rw [stepped]) (stepped ▸ advances)

theorem advances_commitData (steady : Steady maxUpdateThreads s)
    (here : s.coordinator = .commitData i) (hin : i < s.threads) :
    Advances maxUpdateThreads hasObjects s := by
  have finishes (s : SaveState ρ) (hin : i < s.threads) (here : s.coordinator = .commitData i)
      (finished : (s.worker i).finishedCommiting) : Advances maxUpdateThreads hasObjects s :=
    .now s (.coordinator none) (by simp [step, coordinate, here, hin, finished])
  have wakes (s : SaveState ρ) (hin : i < s.threads) (here : s.coordinator = .commitData i)
      (woken : (s.worker i).position = .wokenMaster) : Advances maxUpdateThreads hasObjects s :=
    advances_worker hin (by simp [here])
      (finishes _ hin here (by simp [resume, woken, commitLocal]))
  have waits (s : SaveState ρ) (hin : i < s.threads) (here : s.coordinator = .commitData i)
      (waiting : (s.worker i).position = .waitingMaster) :
      Advances maxUpdateThreads hasObjects s := by
    by_cases finished : (s.worker i).finishedCommiting = true
    · exact finishes s hin here finished
    · have stepped : s.step maxUpdateThreads hasObjects (.coordinator none) =
          { s with worker := update s.worker i (s.worker i).wakeMaster } := by
        simp [step, coordinate, here, hin, finished]
      refine .later s (.coordinator none) (by rw [stepped]) ?_
      rw [stepped]
      exact wakes _ hin here (by simp [wakeMaster, waiting])
  have own := steady.sound i hin
  simp only [here, view, lt_irrefl, if_false] at own
  by_cases finished : (s.worker i).finishedCommiting = true
  · exact finishes s hin here finished
  have copied := (own.signalled rfl).resolve_right fun h => finished h.1
  cases at' : (s.worker i).position with
  | waiting => simp [own.waiting at'] at copied
  | looking =>
    apply advances_worker hin (by simp [here])
    exact finishes _ hin here
      (by simp [resume, at', look, copied, commitTransaction, own.looking nofun at'])
  | woken =>
    apply advances_worker hin (by simp [here])
    cases open' : (s.worker i).transaction with
    | true =>
      exact waits _ hin here (by simp [resume, at', work, look, copied, commitTransaction, open'])
    | false =>
      exact finishes _ hin here
        (by simp [resume, at', work, look, copied, commitTransaction, open'])
  | waitingMaster => exact waits s hin here at'
  | wokenMaster => exact wakes s hin here at'

theorem Steady.advances (steady : Steady maxUpdateThreads s) :
    Advances maxUpdateThreads hasObjects s := by
  have valid := steady.valid
  cases here : s.coordinator with
  | collect k =>
    exact .now s (.coordinator none) (by simp [step, coordinate, here])
  | waitFinishedWork i cause =>
    have passes (s : SaveState ρ) (here : s.coordinator = .waitFinishedWork i cause)
        (done : (s.worker i).objectsToUpdate = none) (idle : (s.worker i).working = false) :
        Advances maxUpdateThreads hasObjects s := by
      refine .now s (.coordinator none) ?_
      cases cause <;> simp [step, coordinate, here, done, idle, afterWait]
    have hin : i < s.threads := by cases cause <;> grind [Valid]
    have own := steady.sound i hin
    by_cases working : (s.worker i).working = true
    · apply advances_worker hin (by simp [here])
      refine passes _ (by exact here) ?_ ?_ <;>
        simp only [resume, own.working working, work, look, commitTransaction, update_self] <;>
        grind
    · have idle := mt (own.busy (by rw [here]; cases cause <;> simp [view])).mp working
      exact passes s here (not_not.mp idle) (by simpa using working)
  | blocked i cause =>
    have hin : i < s.threads := by cases cause <;> grind [Valid]
    have own := steady.sound i hin
    have working := own.awaited (by rw [here]; cases cause <;> simp [view])
    refine .now s (.worker i) ?_
    cases cause <;> simp [step, hin, own.working working, here, release, afterWait]
  | assign i range k | signalActivity i k =>
    exact .now s (.coordinator none) (by simp [step, coordinate, here])
  | signalCopyFinished i =>
    refine .now s (.coordinator none) ?_
    simp only [step, coordinate, here]
    split <;> simp
  | commitData i =>
    by_cases hin : i < s.threads
    · exact advances_commitData steady here hin
    · exact .now s (.coordinator none) (by simp [step, coordinate, here, hin])

/-- If `signalActivity` finds the worker waiting, each range is processed and committed. -/
theorem handshake_of_timely (limit : 1 ≤ maxUpdateThreads) (threads : Nat)
    (events : List (SaveEvent ρ))
    (timely : (start threads).Timely maxUpdateThreads hasObjects events) :
    let s := events.foldl (step maxUpdateThreads hasObjects) (start threads)
    (s.coordinator = .commitData s.threads →
      ∀ i, (s.worker i).processed = (s.worker i).given ∧ (s.worker i).transaction = false) ∧
    Advances maxUpdateThreads hasObjects s := by
  intro s
  have steady : Steady maxUpdateThreads s := (steady_start threads).run limit events timely
  refine ⟨fun here i => ?_, steady.advances⟩
  by_cases hin : i < s.threads
  · have own := steady.sound i hin
    simp only [here, view, hin, if_true] at own
    rw [own.given, own.settled (.inr rfl)]
    exact ⟨(List.append_nil _).symm, own.committed rfl⟩
  · rw [steady.unborn i (by omega)]
    exact ⟨rfl, rfl⟩

theorem handshake_of_timely_commit :
    let events : List (SaveEvent Unit) :=
      [.coordinator (some ()), .coordinator none, .coordinator none, .worker 0, .coordinator none,
        .worker 0, .coordinator none, .coordinator none, .worker 0, .coordinator none,
        .coordinator none, .coordinator none, .worker 0, .coordinator none]
    let s := events.foldl (step 8 fun _ => true) (start 0)
    s.coordinator = .commitData s.threads ∧ (s.worker 0).given = [()] ∧
      (s.worker 0).processed = (s.worker 0).given ∧ (s.worker 0).transaction = false := by
  intro events s
  have timely : (start 0).Timely 8 (fun _ => true) events := by
    simp only [events, Timely]
    exact ⟨trivial, trivial, trivial, trivial, rfl, trivial, trivial, trivial, trivial, trivial,
      trivial, trivial, trivial, trivial, trivial⟩
  have handshake := handshake_of_timely (by decide) 0 events timely
  exact ⟨rfl, rfl, handshake.1 rfl 0⟩

theorem coordinator_waits_forever :
    ∃ events : List (SaveEvent Unit), ∀ more : List (SaveEvent Unit),
      let s := (events ++ more).foldl (step 8 fun _ => true) (start 0)
      s.coordinator = .waitFinishedWork 0 .copyFinished ∧
        (s.worker 0).given = [()] ∧ (s.worker 0).processed = [] := by
  refine ⟨[.coordinator (some ()), .coordinator none, .coordinator none, .coordinator none,
    .coordinator none, .coordinator none, .worker 0], fun more => ?_⟩
  rw [List.foldl_append]
  generalize reached : [SaveEvent.coordinator (some ()), .coordinator none, .coordinator none,
    .coordinator none, .coordinator none, .coordinator none, .worker 0].foldl
    (step 8 fun _ => true) (start 0) = s
  have one : s.threads = 1 := by rw [← reached]; rfl
  have fixed (e : SaveEvent Unit) : s.step 8 (fun _ => true) e = s := by
    rcases e with (_ | i) | next
    · rw [← reached]
      exact congrArg (mk _ _) (update_eq_self 0 _)
    · simp [step, one]
    · rw [← reached]
      exact congrArg (mk _ _) (update_eq_self 0 _)
  rw [List.foldl_fixed' fixed, ← reached]
  exact ⟨rfl, rfl, rfl⟩

end SaveState

end Engine3
