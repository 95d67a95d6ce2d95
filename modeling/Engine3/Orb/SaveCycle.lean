import Mathlib.Data.List.Nodup
import Engine3.Db.CommitTransaction
import Engine3.Proto.BaseProtocol

/-!
# Saving modified objects

`engine/orb/db/DOBObjectManager` and `UpdateModifiedObjectsThread`, on the root broker. A full
save walks the object directory, hands the objects that are flagged as updated to worker
threads in ranges, and each worker collects the updates of its range into its own database
transaction. An object whose checksum is the one remembered from its last save is skipped.

While a save runs the task manager is blocked, so nothing else touches the objects.
-/
namespace Engine3

open Bytes List Function DatabaseManager BaseProtocol

structure ManagedObject where
  members : List UInt8
  persistenceLevel : Int
  updated : Bool
  markedForDeletion : Bool
  deletedFromDatabase : Bool
  lastCRCSave : UInt32
  deriving DecidableEq, Repr

def ManagedObject.isPersistent (object : ManagedObject) : Bool := object.persistenceLevel ≠ 0

structure Dispatch where
  startOffset : Nat
  endOffset : Nat
  objectsToDelete : Bool
  deriving DecidableEq, Repr

structure DOBObjectManager where
  localObjectDirectory : List UInt64
  objects : UInt64 → ManagedObject
  contents : Contents

structure SaveEnv where
  berkeley : Berkeley
  getDatabase : Nat → Option LocalDatabase
  maxObjectsToUpdatePerThread : Nat

namespace DOBObjectManager

/-! ### One object -/

def getTable (env : SaveEnv) (objectID : UInt64) : Option LocalDatabase :=
  if objectID ≠ 0 then env.getDatabase (objectID.toNat / 2 ^ 48 % 65536) else none

def keyOf (objectID : UInt64) : List UInt8 := leBytes 8 objectID.toNat

def addressOf (db : LocalDatabase) (objectID : UInt64) : Address := (db.handle, keyOf objectID)

abbrev Worker := (UInt64 → ManagedObject) × List UpdateObject

def commitUpdatePersistentObjectToDB (env : SaveEnv) (oid : UInt64) (w : Worker) : Nat × Worker :=
  let object := w.1 oid
  let currentCRC := generateCRC object.members 1
  if object.lastCRCSave = currentCRC then
    (1, update w.1 oid { object with updated := false }, w.2)
  else match getTable env oid with
  | some database =>
    (0, update w.1 oid { object with lastCRCSave := currentCRC, updated := false },
      w.2 ++ [⟨database, keyOf oid, some object.members⟩])
  -- only logged: "unknown database id of objectID 0x"
  | none => (0, w)

def commitDestroyObjectToDB (env : SaveEnv) (oid : UInt64) (w : Worker) : Worker :=
  match getTable env oid with
  | some table => (w.1, w.2 ++ [⟨table, keyOf oid, none⟩])
  | none => w

def updateOne (env : SaveEnv) (w : Worker) (oid : UInt64) : Worker :=
  if (w.1 oid).isPersistent then (commitUpdatePersistentObjectToDB env oid w).2 else w

def deleteOne (env : SaveEnv) (w : Worker) (oid : UInt64) : Worker :=
  if (w.1 oid).deletedFromDatabase then w
  else
    let w := commitDestroyObjectToDB env oid w
    (update w.1 oid { w.1 oid with deletedFromDatabase := true }, w.2)

def commitObjectsToDatabase (env : SaveEnv) (objectsToUpdate objectsToDelete : List UInt64)
    (w : Worker) (d : Dispatch) : Worker :=
  let w := ((objectsToUpdate.take d.endOffset).drop d.startOffset).foldl (updateOne env) w
  if d.objectsToDelete then objectsToDelete.foldl (deleteOne env) w else w

/-! ### Collecting the work -/

structure Collection where
  objectsToUpdate : List UInt64
  objectsToDelete : List UInt64
  objectsToUpdateCount : Nat
  lastThreadCount : Nat
  workers : List Dispatch
  deriving DecidableEq, Repr

def dispatchUpdateModifiedObjectsThread (objectsToDelete : Bool) (c : Collection) : Collection :=
  { c with
    workers := c.workers ++
      [⟨c.lastThreadCount, c.lastThreadCount + c.objectsToUpdateCount, objectsToDelete⟩]
    lastThreadCount := c.lastThreadCount + c.objectsToUpdateCount
    objectsToUpdateCount := 0 }

def collectOne (env : SaveEnv) (objects : UInt64 → ManagedObject) (c : Collection) (oid : UInt64) :
    Collection :=
  let dobObject := objects oid
  let c :=
    if dobObject.markedForDeletion then { c with objectsToDelete := c.objectsToDelete ++ [oid] }
    else if dobObject.updated ∧ dobObject.isPersistent then
      { c with
        objectsToUpdate := c.objectsToUpdate ++ [oid]
        objectsToUpdateCount := c.objectsToUpdateCount + 1 }
    else c
  if c.objectsToUpdateCount ≥ env.maxObjectsToUpdatePerThread then
    dispatchUpdateModifiedObjectsThread false c
  else c

def runObjectsMarkedForUpdate (env : SaveEnv) (directory : List UInt64)
    (objects : UInt64 → ManagedObject) : Collection :=
  let c := directory.foldl (collectOne env objects) ⟨[], [], 0, 0, []⟩
  if c.objectsToUpdateCount ≠ 0 ∨ c.objectsToDelete ≠ [] then
    dispatchUpdateModifiedObjectsThread true c
  else c

def chooseThread (maxUpdateThreads currentThread threads : Nat) : Nat × Nat :=
  if currentThread ≥ maxUpdateThreads then (currentThread % threads, threads)
  else if threads ≤ currentThread then (currentThread, threads + 1)
  else (currentThread, threads)

def chosenThreads (maxUpdateThreads : Nat) : Nat → Nat → List Dispatch → List (Nat × Nat)
  | _, _, [] => []
  | currentThread, threads, _ :: rest =>
    let chosen := chooseThread maxUpdateThreads currentThread threads
    chosen :: chosenThreads maxUpdateThreads (currentThread + 1) chosen.2 rest

/-! ### The whole cycle -/

structure Arrangement where
  arrange : List UpdateObject → List (List UpdateObject)
  perm : ∀ updates, (arrange updates).flatten.Perm updates

def commitTransactions (env : Berkeley) : List (List UpdateObject) → Contents →
    Except Exception Contents
  | [], contents => .ok contents
  | updateObjects :: rest, contents =>
    match commitLocalTransaction env ⟨true, contents, some updateObjects⟩ with
    | .error e => .error e
    | .ok manager => commitTransactions env rest manager.contents

def save (env : SaveEnv) (arrangement : Arrangement) (m : DOBObjectManager) :
    Except Exception DOBObjectManager :=
  let c := runObjectsMarkedForUpdate env m.localObjectDirectory m.objects
  let w := c.workers.foldl (commitObjectsToDatabase env c.objectsToUpdate c.objectsToDelete)
    (m.objects, [])
  match commitTransactions env.berkeley (arrangement.arrange w.2) m.contents with
  | .error e => .error e
  | .ok contents => .ok { m with objects := w.1, contents := contents }

inductive Event
  /-- An object is created or loaded; `initializeTransientMembers` forgets the checksum. -/
  | deploy (oid : UInt64) (members : List UInt8) (persistenceLevel : Int) (updated : Bool)
  /-- A setter runs. -/
  | change (oid : UInt64) (members : List UInt8) (persistenceLevel : Int)
  | setMarkedForDeletion (oid : UInt64) (var : Bool)
  /-- An object is removed from memory. -/
  | unload (oid : UInt64)
  | save (arrangement : Arrangement)

def step (env : SaveEnv) (m : DOBObjectManager) : Event → Except Exception DOBObjectManager
  | .deploy oid members persistenceLevel updated =>
    if oid ∈ m.localObjectDirectory then .ok m
    else .ok { m with
      localObjectDirectory := m.localObjectDirectory ++ [oid]
      objects := update m.objects oid ⟨members, persistenceLevel, updated, false, false, 0⟩ }
  | .change oid members persistenceLevel =>
    .ok { m with objects := update m.objects oid { m.objects oid with
      members := members, persistenceLevel := persistenceLevel, updated := true } }
  | .setMarkedForDeletion oid var =>
    .ok { m with
      objects := update m.objects oid { m.objects oid with markedForDeletion := var } }
  | .unload oid =>
    .ok { m with localObjectDirectory := m.localObjectDirectory.filter (· ≠ oid) }
  | .save arrangement => m.save env arrangement

def run (env : SaveEnv) : List Event → DOBObjectManager → Except Exception DOBObjectManager
  | [], m => .ok m
  | event :: rest, m =>
    match m.step env event with
    | .error e => .error e
    | .ok m => run env rest m

/-! ### What a worker does to one object -/

def updatedObject (env : SaveEnv) (oid : UInt64) (object : ManagedObject) : ManagedObject :=
  if ¬ object.isPersistent then object
  else if object.lastCRCSave = generateCRC object.members 1 then
    { object with updated := false }
  else if (getTable env oid).isSome then
    { object with lastCRCSave := generateCRC object.members 1, updated := false }
  else object

def updatesOf (env : SaveEnv) (oid : UInt64) (object : ManagedObject) : List UpdateObject :=
  if ¬ object.isPersistent ∨ object.lastCRCSave = generateCRC object.members 1 then []
  else ((getTable env oid).map fun db => ⟨db, keyOf oid, some object.members⟩).toList

def deletedObject (_ : UInt64) (object : ManagedObject) : ManagedObject :=
  { object with deletedFromDatabase := true }

def deletionsOf (env : SaveEnv) (oid : UInt64) (object : ManagedObject) : List UpdateObject :=
  if object.deletedFromDatabase then []
  else ((getTable env oid).map fun db => ⟨db, keyOf oid, none⟩).toList

theorem updateOne_eq (env : SaveEnv) (w : Worker) (oid : UInt64) :
    updateOne env w oid = (update w.1 oid (updatedObject env oid (w.1 oid)),
      w.2 ++ updatesOf env oid (w.1 oid)) := by
  simp only [updateOne, updatedObject, updatesOf, commitUpdatePersistentObjectToDB]
  by_cases persistent : (w.1 oid).isPersistent = true
  · by_cases eq : (w.1 oid).lastCRCSave = generateCRC (w.1 oid).members 1
    · simp [persistent, eq]
    · cases table : getTable env oid with
      | some db => simp [persistent, eq]
      | none => simp [persistent, eq]
  · simp [persistent]

theorem deleteOne_eq (env : SaveEnv) (w : Worker) (oid : UInt64) :
    deleteOne env w oid = (update w.1 oid (deletedObject oid (w.1 oid)),
      w.2 ++ deletionsOf env oid (w.1 oid)) := by
  simp only [deleteOne, deletedObject, deletionsOf, commitDestroyObjectToDB]
  by_cases deleted : (w.1 oid).deletedFromDatabase = true
  · have eq : ({ w.1 oid with deletedFromDatabase := true } : ManagedObject) = w.1 oid := by
      rw [← deleted]
    simp only [deleted, eq, if_true, update_eq_self, append_nil]
  · cases table : getTable env oid with
    | some db => simp [deleted]
    | none => simp [deleted]

variable {places : List UInt64} {env : SaveEnv} {c : Collection} {updates : List UpdateObject}
  {oid : UInt64}

theorem foldl_separate {σ υ : Type} (change : UInt64 → σ → σ) (emit : UInt64 → σ → List υ)
    (step : (UInt64 → σ) × List υ → UInt64 → (UInt64 → σ) × List υ)
    (acts : ∀ w i, step w i = (update w.1 i (change i (w.1 i)), w.2 ++ emit i (w.1 i)))
    (once : places.Nodup) (w : (UInt64 → σ) × List υ) :
    places.foldl step w =
      (fun i => if i ∈ places then change i (w.1 i) else w.1 i,
        w.2 ++ places.flatMap fun i => emit i (w.1 i)) := by
  induction places generalizing w with
  | nil => simp
  | cons p rest ih =>
    obtain ⟨fresh, rest'⟩ := nodup_cons.mp once
    rw [foldl_cons, acts, ih rest']
    -- the memory at the other places is still the one at the start
    have unchanged : ∀ i ∈ rest, update w.1 p (change p (w.1 p)) i = w.1 i :=
      fun i mem => update_of_ne (ne_of_mem_of_not_mem mem fresh) _ _
    refine Prod.ext (funext fun i => ?_) ?_
    · by_cases here : i = p
      · subst here
        simp [fresh]
      · simp [here]
    · have later : (rest.flatMap fun i => emit i (update w.1 p (change p (w.1 p)) i)) =
          rest.flatMap fun i => emit i (w.1 i) :=
        flatMap_congr fun i mem => by rw [unchanged i mem]
      simp only [later, flatMap_cons, append_assoc]

/-! ### The ranges cover the work -/

/-- Ranges that follow each other from `first` to `last`. -/
def Consecutive (first : Nat) : List Dispatch → Nat → Prop
  | [], last => first = last
  | d :: rest, last =>
    d.startOffset = first ∧ first ≤ d.endOffset ∧ Consecutive d.endOffset rest last

variable {first last : Nat} {workers : List Dispatch}

theorem Consecutive.le (consecutive : Consecutive first workers last) : first ≤ last := by
  induction workers generalizing first with
  | nil => exact Nat.le_of_eq consecutive
  | cons d rest ih => exact consecutive.2.1.trans (ih consecutive.2.2)

theorem Consecutive.snoc (consecutive : Consecutive first workers last) (count : Nat)
    (objectsToDelete : Bool) :
    Consecutive first (workers ++ [⟨last, last + count, objectsToDelete⟩]) (last + count) := by
  induction workers generalizing first with
  | nil => exact ⟨consecutive.symm, consecutive ▸ Nat.le_add_right _ _, rfl⟩
  | cons d rest ih => exact ⟨consecutive.1, consecutive.2.1, ih consecutive.2.2⟩

theorem Consecutive.foldl (env : SaveEnv) (consecutive : Consecutive first workers last)
    (updates : ∀ d ∈ workers, d.objectsToDelete = false) (objectsToUpdate objectsToDelete)
    (w : Worker) :
    workers.foldl (commitObjectsToDatabase env objectsToUpdate objectsToDelete) w =
      ((objectsToUpdate.take last).drop first).foldl (updateOne env) w := by
  induction workers generalizing first w with
  | nil =>
    have none : (objectsToUpdate.take last).drop first = [] := by
      rw [consecutive, drop_eq_nil_iff, length_take]
      exact Nat.min_le_left ..
    rw [none]
    rfl
  | cons d rest ih =>
    obtain ⟨starts, less, behind⟩ := consecutive
    have later := behind.le
    have own : (objectsToUpdate.take d.endOffset).drop first =
        ((objectsToUpdate.take last).drop first).take (d.endOffset - first) := by
      rw [take_drop, take_take, Nat.add_sub_cancel' less, Nat.min_eq_left later]
    have others : (objectsToUpdate.take last).drop d.endOffset =
        ((objectsToUpdate.take last).drop first).drop (d.endOffset - first) := by
      rw [drop_drop, Nat.add_sub_cancel' less]
    rw [foldl_cons, ih behind fun d' mem => updates d' (mem_cons_of_mem d mem),
      commitObjectsToDatabase, starts, updates d mem_cons_self, own, others]
    simp only [Bool.false_eq_true, if_false]
    rw [← foldl_append, take_append_drop]

structure Covers (c : Collection) : Prop where
  counted : c.lastThreadCount + c.objectsToUpdateCount = c.objectsToUpdate.length
  consecutive : Consecutive 0 c.workers c.lastThreadCount
  updates : ∀ d ∈ c.workers, d.objectsToDelete = false

theorem Covers.dispatch (covers : Covers c) :
    Covers (dispatchUpdateModifiedObjectsThread false c) where
  counted := covers.counted
  consecutive := covers.consecutive.snoc _ _
  updates d member := by
    rcases mem_append.mp member with old | new
    · exact covers.updates d old
    · rw [mem_singleton.mp new]

theorem collectOne_covers (env : SaveEnv) (objects : UInt64 → ManagedObject) (c : Collection)
    (oid : UInt64) (covers : Covers c) : Covers (collectOne env objects c oid) := by
  simp only [collectOne]
  generalize chosen : (if (objects oid).markedForDeletion = true then
      { c with objectsToDelete := c.objectsToDelete ++ [oid] }
    else if (objects oid).updated = true ∧ (objects oid).isPersistent = true then
      { c with
        objectsToUpdate := c.objectsToUpdate ++ [oid]
        objectsToUpdateCount := c.objectsToUpdateCount + 1 }
    else c) = c'
  have covers' : Covers c' := by
    have counted := covers.counted
    rw [← chosen]
    split
    · exact ⟨counted, covers.consecutive, covers.updates⟩
    · split
      · refine ⟨?_, covers.consecutive, covers.updates⟩
        rw [length_append, length_singleton, ← counted, Nat.add_assoc]
      · exact covers
  split
  · exact covers'.dispatch
  · exact covers'

/-- An object the save writes, if its checksum has changed. -/
def Flagged (object : ManagedObject) : Prop :=
  object.updated = true ∧ object.isPersistent = true ∧ object.markedForDeletion = false

instance (object : ManagedObject) : Decidable (Flagged object) :=
  inferInstanceAs (Decidable (_ ∧ _ ∧ _))

theorem collectOne_lists (env : SaveEnv) (objects : UInt64 → ManagedObject) (c : Collection)
    (oid : UInt64) :
    (collectOne env objects c oid).objectsToUpdate =
      c.objectsToUpdate ++ (if Flagged (objects oid) then [oid] else []) ∧
    (collectOne env objects c oid).objectsToDelete =
      c.objectsToDelete ++ (if (objects oid).markedForDeletion then [oid] else []) := by
  have kept : ∀ d : Collection, (if d.objectsToUpdateCount ≥ env.maxObjectsToUpdatePerThread then
      dispatchUpdateModifiedObjectsThread false d else d).objectsToUpdate = d.objectsToUpdate ∧
      (if d.objectsToUpdateCount ≥ env.maxObjectsToUpdatePerThread then
      dispatchUpdateModifiedObjectsThread false d else d).objectsToDelete = d.objectsToDelete := by
    intro d
    split
    · exact ⟨rfl, rfl⟩
    · exact ⟨rfl, rfl⟩
  simp only [collectOne, kept, Flagged]
  by_cases marked : (objects oid).markedForDeletion = true
  · simp [marked]
  · by_cases update : (objects oid).updated = true ∧ (objects oid).isPersistent = true
    · simp [marked, update]
    · simp [marked, update]

theorem foldl_collectOne (env : SaveEnv) (objects : UInt64 → ManagedObject)
    (directory : List UInt64) (c : Collection) (covers : Covers c) :
    let c' := directory.foldl (collectOne env objects) c
    Covers c' ∧
    c'.objectsToUpdate = c.objectsToUpdate ++ directory.filter (fun i => Flagged (objects i)) ∧
    c'.objectsToDelete =
      c.objectsToDelete ++ directory.filter (fun i => (objects i).markedForDeletion) := by
  induction directory generalizing c with
  | nil => simp [covers]
  | cons oid rest ih =>
    obtain ⟨covers', updates, deletes⟩ := ih _ (collectOne_covers env objects c oid covers)
    obtain ⟨update, delete⟩ := collectOne_lists env objects c oid
    rw [foldl_cons]
    refine ⟨covers', ?_, ?_⟩
    · rw [updates, update, append_assoc, filter_cons]
      congr 1
      by_cases flagged : Flagged (objects oid)
      · simp [flagged]
      · simp [flagged]
    · rw [deletes, delete, append_assoc, filter_cons]
      congr 1
      split
      · rfl
      · rfl

theorem start_covers : Covers ⟨[], [], 0, 0, []⟩ :=
  ⟨rfl, rfl, fun _ mem => absurd mem not_mem_nil⟩

theorem foldl_workers (env : SaveEnv) (directory : List UInt64) (objects : UInt64 → ManagedObject)
    (w : Worker) :
    let c := runObjectsMarkedForUpdate env directory objects
    c.workers.foldl (commitObjectsToDatabase env c.objectsToUpdate c.objectsToDelete) w =
      (directory.filter fun i => (objects i).markedForDeletion).foldl (deleteOne env)
        ((directory.filter fun i => Flagged (objects i)).foldl (updateOne env) w) := by
  obtain ⟨covers, updates, deletes⟩ := foldl_collectOne env objects directory _ start_covers
  have counted := covers.counted
  have done := covers.consecutive.foldl env covers.updates
  rw [nil_append] at updates deletes
  intro c
  simp only [c, runObjectsMarkedForUpdate]
  split
  · simp only [dispatchUpdateModifiedObjectsThread, foldl_append, foldl_cons, foldl_nil, done,
      commitObjectsToDatabase, counted, take_length, if_true, drop_zero]
    rw [← foldl_append, take_append_drop, updates, deletes]
  next nothing =>
    -- no worker is left to be sent: everything has been handed out, and nothing is deleted
    obtain ⟨none, empty⟩ := not_or.mp nothing
    rw [Decidable.not_not.mp none, Nat.add_zero] at counted
    rw [done, counted, take_length, drop_zero, updates, ← deletes, Decidable.not_not.mp empty,
      foldl_nil]

theorem chooseThread_valid {maxUpdateThreads currentThread threads : Nat}
    (limit : 1 ≤ maxUpdateThreads) (reached : min currentThread maxUpdateThreads ≤ threads) :
    let chosen := chooseThread maxUpdateThreads currentThread threads
    chosen.1 < chosen.2 ∧ min (currentThread + 1) maxUpdateThreads ≤ chosen.2 ∧
      threads ≤ chosen.2 := by
  dsimp only [chooseThread]
  split
  · exact ⟨Nat.mod_lt _ (by omega), by omega, le_refl _⟩
  · split <;> dsimp only <;> omega

theorem chosenThreads_valid {maxUpdateThreads currentThread threads : Nat}
    (limit : 1 ≤ maxUpdateThreads) (reached : min currentThread maxUpdateThreads ≤ threads) :
    ∀ chosen ∈ chosenThreads maxUpdateThreads currentThread threads workers,
      chosen.1 < chosen.2 := by
  induction workers generalizing currentThread threads with
  | nil => simp [chosenThreads]
  | cons d rest ih =>
    obtain ⟨valid, later, -⟩ := chooseThread_valid limit reached
    exact forall_mem_cons.mpr ⟨valid, ih later⟩

@[simp] theorem length_chosenThreads (maxUpdateThreads currentThread threads : Nat) :
    (chosenThreads maxUpdateThreads currentThread threads workers).length = workers.length := by
  induction workers generalizing currentThread threads with
  | nil => rfl
  | cons _ rest ih => simp [chosenThreads, ih]

/-- The ranges follow each other over all objects, and the threads chosen exist. -/
theorem ranges_partition (env : SaveEnv) (directory : List UInt64)
    (objects : UInt64 → ManagedObject) (maxUpdateThreads threads : Nat)
    (limit : 1 ≤ maxUpdateThreads) :
    let c := runObjectsMarkedForUpdate env directory objects
    c.objectsToUpdate = directory.filter (fun i => Flagged (objects i)) ∧
    Consecutive 0 c.workers c.objectsToUpdate.length ∧
    (c.objectsToDelete ≠ [] → c.workers.countP (fun d => d.objectsToDelete) = 1) ∧
    (chosenThreads maxUpdateThreads 0 threads c.workers).length = c.workers.length ∧
    ∀ chosen ∈ chosenThreads maxUpdateThreads 0 threads c.workers, chosen.1 < chosen.2 := by
  obtain ⟨covers, updates, -⟩ := foldl_collectOne env objects directory _ start_covers
  have counted := covers.counted
  have none := countP_eq_zero.mpr fun d mem => Bool.eq_false_iff.mp (covers.updates d mem)
  intro c
  simp only [c, runObjectsMarkedForUpdate]
  split
  · refine ⟨updates, counted ▸ covers.consecutive.snoc _ _, fun _ => ?_, length_chosenThreads _ _ _,
      chosenThreads_valid limit (by omega)⟩
    rw [dispatchUpdateModifiedObjectsThread, countP_append, none]
    rfl
  next nothing =>
    obtain ⟨finished, empty⟩ := not_or.mp nothing
    rw [Decidable.not_not.mp finished, Nat.add_zero] at counted
    exact ⟨updates, counted ▸ covers.consecutive, fun some => absurd some empty,
      length_chosenThreads _ _ _, chosenThreads_valid limit (by omega)⟩

def SaveEnv.plain : SaveEnv where
  berkeley := ⟨id, fun _ _ => .success, .success, fun _ => "", 1000⟩
  getDatabase := fun _ => some ⟨7, false⟩
  maxObjectsToUpdatePerThread := 15000

theorem ranges_partition_three :
    let c := runObjectsMarkedForUpdate { SaveEnv.plain with maxObjectsToUpdatePerThread := 1 }
      [1, 3, 2] fun i => ⟨[], 1, true, i = 3, false, 0⟩
    c.workers = [⟨0, 1, false⟩, ⟨1, 2, false⟩, ⟨2, 2, true⟩] ∧
    Consecutive 0 c.workers c.objectsToUpdate.length ∧
    chosenThreads 2 0 0 c.workers = [(0, 1), (1, 2), (0, 2)] ∧
    ∀ chosen ∈ chosenThreads 2 0 0 c.workers, chosen.1 < chosen.2 := by
  intro c
  have all := ranges_partition { SaveEnv.plain with maxObjectsToUpdatePerThread := 1 }
    [1, 3, 2] (fun i => ⟨[], 1, true, i = 3, false, 0⟩) 2 0 (by decide)
  exact ⟨by decide, all.2.1, by decide, all.2.2.2.2⟩

/-! ### Records after a save -/

/-- Every database operation succeeds. -/
structure Succeeds (env : Berkeley) : Prop where
  updates : ∀ iteration i, env.returns iteration i = .success
  commit : env.commitReturns = .success
  retries : 1 < env.deadlockMaxRetries

theorem commitTransactions_eq {env : Berkeley} (succeeds : Succeeds env)
    (transactions : List (List UpdateObject)) (contents : Contents) :
    commitTransactions env transactions contents =
      .ok (applyAll env transactions.flatten contents) := by
  induction transactions generalizing contents with
  | nil => rfl
  | cons updateObjects rest ih =>
    have applied : commitLocalTransaction env
        ⟨true, contents, some updateObjects⟩ =
        .ok ⟨true, applyAll env updateObjects contents, some []⟩ := by
      by_cases none : updateObjects = []
      · rw [none]
        rfl
      · have quiet : Final env updateObjects.length 0 := by
          refine ⟨?_, fun j less => absurd less (Nat.not_lt_zero j)⟩
          rintro ⟨i, -, stuck⟩
          rw [succeeds.updates] at stuck
          cases stuck
        rw [commitLocalTransaction_final contents none quiet
          succeeds.retries]
        simp only [succeeds.updates, succeeds.commit, ne_eq, not_true, false_and, if_false]
        rw [applyWhere_all env _ updateObjects 0 contents]
        intro j _ _
        exact decide_eq_true (succeeds.updates 0 j)
    rw [commitTransactions, applied]
    simp only [ih, flatten_cons, applyAll, foldl_append]

theorem applyAll_absent (env : Berkeley) (contents : Contents) (address : Address)
    (absent : ∀ o ∈ updates, o.address ≠ address) :
    applyAll env updates contents address = contents address := by
  induction updates generalizing contents with
  | nil => rfl
  | cons o rest ih =>
    have ne := absent o mem_cons_self
    refine (ih (o.apply env contents) fun p later => absent p (mem_cons_of_mem o later)).trans
      ?_
    exact update_of_ne ne.symm _ _

theorem applyAll_present (env : Berkeley) (contents : Contents)
    (once : (updates.map UpdateObject.address).Nodup) (o : UpdateObject) (mem : o ∈ updates) :
    applyAll env updates contents o.address = o.record env := by
  induction updates generalizing contents with
  | nil => cases mem
  | cons p rest ih =>
    rw [map_cons, nodup_cons] at once
    rcases mem_cons.mp mem with rfl | later
    · -- no later update is for the same record
      have absent : ∀ q ∈ rest, q.address ≠ o.address := fun q inRest eq =>
        once.1 (eq ▸ mem_map_of_mem inRest)
      refine (applyAll_absent env (o.apply env contents) o.address absent).trans ?_
      exact update_self _ _ _
    · exact ih (p.apply env contents) once.2 later

theorem keyOf_injective {oid' : UInt64} (eq : keyOf oid = keyOf oid') : oid = oid' := by
  have numbers := congrArg leNat eq
  simp only [keyOf, leNat_leBytes] at numbers
  have lt := oid.toNat_lt
  have lt' := oid'.toNat_lt
  exact UInt64.toNat_inj.mp (by omega)

theorem key_of_mem {data : Option (List UInt8)} {o : UpdateObject}
    (mem : o ∈ ((getTable env oid).map fun db => (⟨db, keyOf oid, data⟩ : UpdateObject)).toList) :
    o.key = keyOf oid := by
  obtain ⟨db, -, rfl⟩ := Option.map_eq_some_iff.mp (Option.mem_toList.mp mem)
  rfl

theorem nodup_addresses (emit : UInt64 → List UpdateObject) (once : places.Nodup)
    (keyed : ∀ i, ∀ o ∈ emit i, o.key = keyOf i) (few : ∀ i, (emit i).length ≤ 1) :
    ((places.flatMap emit).map UpdateObject.address).Nodup := by
  rw [map_flatMap, nodup_flatMap]
  constructor
  · intro i _
    cases all : emit i with
    | nil => exact nodup_nil
    | cons o rest =>
      have := few i
      rw [all, length_cons] at this
      rw [eq_nil_of_length_eq_zero (by omega : rest.length = 0)]
      exact nodup_singleton _
  · refine once.imp fun {i j} ne address inI inJ => ne ?_
    obtain ⟨o, fromI, rfl⟩ := mem_map.mp inI
    obtain ⟨p, fromJ, eq⟩ := mem_map.mp inJ
    apply keyOf_injective
    rw [← keyed i o fromI, ← keyed j p fromJ]
    exact congrArg Prod.snd eq.symm

def emitted (env : SaveEnv) (objects : UInt64 → ManagedObject) (oid : UInt64) :
    List UpdateObject :=
  if Flagged (objects oid) then updatesOf env oid (objects oid)
  else deletionsOf env oid (objects oid)

theorem emitted_key (env : SaveEnv) (objects : UInt64 → ManagedObject) (oid : UInt64) :
    ∀ o ∈ emitted env objects oid, o.key = keyOf oid := by
  intro o mem
  unfold emitted updatesOf deletionsOf at mem
  split at mem
  · split at mem
    · cases mem
    · exact key_of_mem mem
  · split at mem
    · cases mem
    · exact key_of_mem mem

theorem emitted_length (env : SaveEnv) (objects : UInt64 → ManagedObject) (oid : UInt64) :
    (emitted env objects oid).length ≤ 1 := by
  have one : ∀ o : Option UpdateObject, o.toList.length ≤ 1 := by
    intro o
    cases o with
    | none => exact Nat.zero_le 1
    | some _ => exact Nat.le_refl 1
  unfold emitted updatesOf deletionsOf
  split
  · split
    · exact Nat.zero_le 1
    · exact one _
  · split
    · exact Nat.zero_le 1
    · exact one _

def touched (directory : List UInt64) (objects : UInt64 → ManagedObject) : List UInt64 :=
  directory.filter (fun i => Flagged (objects i)) ++
    directory.filter fun i => (objects i).markedForDeletion

theorem nodup_touched (directory : List UInt64) (once : directory.Nodup)
    (objects : UInt64 → ManagedObject) : (touched directory objects).Nodup := by
  refine Nodup.append (once.filter _) (once.filter _) fun i flagged marked => ?_
  have kept : Flagged (objects i) := by simpa using (mem_filter.mp flagged).2
  have gone : (objects i).markedForDeletion = true := (mem_filter.mp marked).2
  rw [kept.2.2] at gone
  cases gone

theorem collected_updates (env : SaveEnv) {directory : List UInt64} (once : directory.Nodup)
    (objects : UInt64 → ManagedObject) :
    let c := runObjectsMarkedForUpdate env directory objects
    (c.workers.foldl (commitObjectsToDatabase env c.objectsToUpdate c.objectsToDelete)
        (objects, [])).2 =
      (touched directory objects).flatMap (emitted env objects) := by
  intro c
  have apart := nodup_append.mp (nodup_touched directory once objects)
  rw [foldl_workers, foldl_separate deletedObject (deletionsOf env) _ (deleteOne_eq env)
      (once.filter _), foldl_separate (updatedObject env) (updatesOf env) _ (updateOne_eq env)
      (once.filter _)]
  simp only [nil_append, touched, flatMap_append]
  congr 1
  · refine flatMap_congr fun i mem => ?_
    have flagged : Flagged (objects i) := by simpa using (mem_filter.mp mem).2
    rw [emitted, if_pos flagged]
  · refine flatMap_congr fun i mem => ?_
    have ne : i ∉ directory.filter fun i => Flagged (objects i) := fun inBoth =>
      apart.2.2 i inBoth i mem rfl
    have marked : (objects i).markedForDeletion = true := (mem_filter.mp mem).2
    have notFlagged : ¬ Flagged (objects i) := by
      rintro ⟨-, -, unmarked⟩
      rw [marked] at unmarked
      cases unmarked
    rw [if_neg ne, emitted, if_neg notFlagged]

theorem save_eq (env : SaveEnv) (succeeds : Succeeds env.berkeley) (arrangement : Arrangement)
    (m : DOBObjectManager) (once : m.localObjectDirectory.Nodup) :
    ∃ m', m.save env arrangement = .ok m' ∧ m'.localObjectDirectory = m.localObjectDirectory ∧
      (∀ oid ∈ touched m.localObjectDirectory m.objects, ∀ o ∈ emitted env m.objects oid,
        m'.contents o.address = o.record env.berkeley) ∧
      ∀ address, (∀ oid ∈ touched m.localObjectDirectory m.objects,
        ∀ o ∈ emitted env m.objects oid, o.address ≠ address) →
        m'.contents address = m.contents address := by
  have updates := collected_updates env once m.objects
  have order := arrangement.perm
    ((touched m.localObjectDirectory m.objects).flatMap (emitted env m.objects))
  -- no address is written twice, so the order of the transactions does not matter
  have nodup := nodup_addresses (emitted env m.objects)
    (nodup_touched _ once m.objects) (emitted_key env m.objects) (emitted_length env m.objects)
  have saved : ∃ objects, m.save env arrangement = .ok { m with
      objects := objects
      contents := applyAll env.berkeley (arrangement.arrange
        ((touched m.localObjectDirectory m.objects).flatMap (emitted env m.objects))).flatten
        m.contents } := by
    rw [← updates]
    rw [save, commitTransactions_eq succeeds]
    exact ⟨_, rfl⟩
  obtain ⟨objects, saved⟩ := saved
  refine ⟨_, saved, rfl, ?_, ?_⟩
  · intro oid mem o inUpdates
    refine applyAll_present env.berkeley m.contents ?_ o ?_
    · exact (order.map UpdateObject.address).nodup_iff.mpr nodup
    · exact order.mem_iff.mpr (mem_flatMap.mpr ⟨oid, mem, inUpdates⟩)
  · intro address absent
    refine applyAll_absent env.berkeley m.contents address fun o mem => ?_
    obtain ⟨oid, inDirectory, inUpdates⟩ := mem_flatMap.mp (order.mem_iff.mp mem)
    exact absent oid inDirectory o inUpdates

/-! ### Whether a change is dropped -/

theorem nodup_of_step (env : SaveEnv) (succeeds : Succeeds env.berkeley) (m : DOBObjectManager)
    (once : m.localObjectDirectory.Nodup) (event : Event) :
    ∃ m', m.step env event = .ok m' ∧ m'.localObjectDirectory.Nodup := by
  cases event with
  | deploy oid members persistenceLevel updated =>
    by_cases known : oid ∈ m.localObjectDirectory
    · exact ⟨m, if_pos known, once⟩
    · refine ⟨_, if_neg known, Nodup.append once (nodup_singleton oid) ?_⟩
      intro i old new
      exact known (mem_singleton.mp new ▸ old)
  | change oid members persistenceLevel => exact ⟨_, rfl, once⟩
  | setMarkedForDeletion oid var => exact ⟨_, rfl, once⟩
  | unload oid => exact ⟨_, rfl, once.filter _⟩
  | save arrangement =>
    obtain ⟨m', saved, directory, -⟩ := save_eq env succeeds arrangement m once
    exact ⟨m', saved, directory ▸ once⟩

theorem nodup_of_run (env : SaveEnv) (succeeds : Succeeds env.berkeley) (history : List Event)
    (m : DOBObjectManager) (once : m.localObjectDirectory.Nodup) :
    ∃ m', run env history m = .ok m' ∧ m'.localObjectDirectory.Nodup := by
  induction history generalizing m with
  | nil => exact ⟨m, rfl, once⟩
  | cons event rest ih =>
    obtain ⟨m', stepped, once'⟩ := nodup_of_step env succeeds m once event
    obtain ⟨m'', finished, once''⟩ := ih m' once'
    refine ⟨m'', ?_, once''⟩
    rw [run, stepped]
    exact finished

theorem record_of_flagged (succeeds : Succeeds env.berkeley) {arrangement : Arrangement}
    {m m' : DOBObjectManager} (once : m.localObjectDirectory.Nodup)
    (saved : m.save env arrangement = .ok m') (known : oid ∈ m.localObjectDirectory)
    (flagged : Flagged (m.objects oid)) {db : LocalDatabase} (table : getTable env oid = some db) :
    m'.contents (addressOf db oid) =
      if (m.objects oid).lastCRCSave = generateCRC (m.objects oid).members 1 then
        m.contents (addressOf db oid)
      else some (db.dataOf env.berkeley (m.objects oid).members) := by
  obtain ⟨_, eq, -, present, absent⟩ := save_eq env succeeds arrangement m once
  rw [saved] at eq
  cases eq
  have inWork : oid ∈ touched m.localObjectDirectory m.objects :=
    mem_append_left _ (mem_filter.mpr ⟨known, by simpa using flagged⟩)
  split
  next equal =>
    apply absent
    intro oid' _ o inUpdates sameAddress
    -- only the object itself could have an update with its key, and it has none
    have key : keyOf oid' = keyOf oid :=
      (emitted_key env m.objects oid' o inUpdates).symm.trans (congrArg Prod.snd sameAddress)
    rw [keyOf_injective key, emitted, if_pos flagged, updatesOf, if_pos (Or.inr equal)] at inUpdates
    cases inUpdates
  next changed =>
    have update : (⟨db, keyOf oid, some (m.objects oid).members⟩ : UpdateObject) ∈
        emitted env m.objects oid := by
      have written : ¬ (¬ (m.objects oid).isPersistent = true ∨ (m.objects oid).lastCRCSave =
          generateCRC (m.objects oid).members 1) := by
        rintro (transient | equal)
        · exact transient flagged.2.1
        · exact changed equal
      rw [emitted, if_pos flagged, updatesOf, if_neg written, table]
      exact mem_singleton_self _
    exact present oid inWork _ update

/-- Exactly when the checksum is not the remembered one, or the state was stored already. -/
theorem save_stores_iff (env : SaveEnv) (succeeds : Succeeds env.berkeley) (contents : Contents)
    (objects : UInt64 → ManagedObject) (history : List Event) (arrangement : Arrangement) :
    ∃ m m', run env history ⟨[], objects, contents⟩ = .ok m ∧ m.save env arrangement = .ok m' ∧
      ∀ oid ∈ m.localObjectDirectory, Flagged (m.objects oid) →
        ∀ db, getTable env oid = some db →
          (m'.contents (addressOf db oid) =
              some (db.dataOf env.berkeley (m.objects oid).members) ↔
            (m.objects oid).lastCRCSave ≠ BaseProtocol.generateCRC (m.objects oid).members 1 ∨
            m.contents (addressOf db oid) =
              some (db.dataOf env.berkeley (m.objects oid).members)) := by
  obtain ⟨m, finished, once⟩ := nodup_of_run env succeeds history ⟨[], objects, contents⟩
    nodup_nil
  obtain ⟨m', saved, -⟩ := save_eq env succeeds arrangement m once
  refine ⟨m, m', finished, saved, fun oid known flagged db table => ?_⟩
  rw [record_of_flagged succeeds once saved known flagged table]
  split
  next equal => exact ⟨Or.inr, fun either => either.resolve_left fun differs => differs equal⟩
  next differs => exact ⟨fun _ => Or.inl differs, fun _ => rfl⟩

def Arrangement.single : Arrangement := ⟨fun updates => [updates], fun _ => by simp⟩

theorem succeeds_plain : Succeeds SaveEnv.plain.berkeley :=
  ⟨fun _ _ => rfl, rfl, by decide⟩

theorem save_stores_iff_new :
    ∃ m m', run SaveEnv.plain [.deploy 5 [1, 0] 1 true]
        ⟨[], fun _ => ⟨[], 0, false, false, false, 0⟩, fun _ => none⟩ = .ok m ∧
      m.save SaveEnv.plain Arrangement.single = .ok m' ∧
      ∀ oid ∈ m.localObjectDirectory, Flagged (m.objects oid) →
        ∀ db, getTable SaveEnv.plain oid = some db →
          (m'.contents (addressOf db oid) =
              some (db.dataOf SaveEnv.plain.berkeley (m.objects oid).members) ↔
            (m.objects oid).lastCRCSave ≠ BaseProtocol.generateCRC (m.objects oid).members 1 ∨
            m.contents (addressOf db oid) =
              some (db.dataOf SaveEnv.plain.berkeley (m.objects oid).members)) :=
  save_stores_iff SaveEnv.plain succeeds_plain (fun _ => none)
    (fun _ => ⟨[], 0, false, false, false, 0⟩) [.deploy 5 [1, 0] 1 true] Arrangement.single

def zeroChecksum : List UInt8 :=
  [0x02, 0x00, 0xcf, 0xf0, 0xb0, 0x62, 0x04, 0x00, 0x00, 0x00, 0x46, 0x8e, 0xfc, 0x9a,
    0xca, 0x7c, 0x45, 0x76, 0x03, 0x00, 0x00, 0x00, 0x01, 0x00, 0x41]

def deployedZero : DOBObjectManager where
  localObjectDirectory := [5]
  objects := update (fun _ => ⟨[], 0, false, false, false, 0⟩) 5
    ⟨zeroChecksum, 0x9afc8e46, true, false, false, 0⟩
  contents := fun _ => none

theorem save_drops_new_object :
    run SaveEnv.plain [.deploy 5 zeroChecksum 0x9afc8e46 true]
      ⟨[], fun _ => ⟨[], 0, false, false, false, 0⟩, fun _ => none⟩ = .ok deployedZero ∧
    Flagged (deployedZero.objects 5) ∧ getTable SaveEnv.plain 5 = some ⟨7, false⟩ ∧
    (deployedZero.save SaveEnv.plain Arrangement.single).map (fun m' =>
      (m'.contents (addressOf ⟨7, false⟩ 5), (m'.objects 5).updated)) = .ok (none, false) := by
  refine ⟨rfl, by decide, by decide, ?_⟩
  decide +kernel

end DOBObjectManager

end Engine3
