import Engine3.System.Stream

/-!
# Committing a batch of updates

`engine/db/DatabaseManager`: the updates a thread has collected are written to Berkeley DB
in one transaction, which is started again when an update runs into a deadlock. Berkeley
DB is a parameter: what its calls return, in every attempt.
-/
namespace Engine3

open List

inductive ReturnCode
  | success
  | notFound
  | deadlock
  | error (code : Int)
  deriving DecidableEq, Repr

abbrev Address := Nat × List UInt8

abbrev Contents := Address → Option (List UInt8)

structure LocalDatabase where
  handle : Nat
  compression : Bool
  deriving DecidableEq, Repr

structure UpdateObject where
  database : LocalDatabase
  key : List UInt8
  stream : Option (List UInt8)
  deriving DecidableEq, Repr

structure Berkeley where
  compress : List UInt8 → List UInt8
  returns : Nat → Nat → ReturnCode
  commitReturns : ReturnCode
  strerror : ReturnCode → String
  deadlockMaxRetries : Nat

namespace LocalDatabase

def dataOf (env : Berkeley) (db : LocalDatabase) (stream : List UInt8) : List UInt8 :=
  if db.compression then env.compress stream else stream

def tryPutData (env : Berkeley) (db : LocalDatabase) (inputKey stream : List UInt8)
    (ret : ReturnCode) (transaction : Contents) : ReturnCode × Contents :=
  (ret, if ret = .success then
    Function.update transaction (db.handle, inputKey) (some (db.dataOf env stream))
  else transaction)

def tryDeleteData (db : LocalDatabase) (inputKey : List UInt8) (ret : ReturnCode)
    (transaction : Contents) : ReturnCode × Contents :=
  (ret, if ret = .success then Function.update transaction (db.handle, inputKey) none
  else transaction)

end LocalDatabase

structure DatabaseManager where
  loaded : Bool
  contents : Contents
  updateObjects : Option (List UpdateObject)

namespace DatabaseManager

def attempt (env : Berkeley) (iteration : Nat) :
    List UpdateObject → Nat → ReturnCode → Contents → ReturnCode × Option Contents
  | [], _, ret, transaction => (ret, some transaction)
  | updateObject :: rest, i, _, transaction =>
    let (ret, transaction) :=
      match updateObject.stream with
      | some stream => updateObject.database.tryPutData env updateObject.key stream
          (env.returns iteration i) transaction
      | none => updateObject.database.tryDeleteData updateObject.key (env.returns iteration i)
          transaction
    if ret = .deadlock then (ret, none)
    else attempt env iteration rest (i + 1) ret transaction

def attempts (env : Berkeley) (updateObjects : List UpdateObject) (contents : Contents) :
    Nat → Nat → ReturnCode × Option Contents × Nat
  | allowed, iteration =>
    let (ret, transaction) := attempt env iteration updateObjects 0 (.error (-1)) contents
    if ret = .deadlock then
      match allowed with
      | 0 => (ret, transaction, iteration + 1)
      | allowed + 1 => attempts env updateObjects contents allowed (iteration + 1)
    else (ret, transaction, iteration + 1)

def commitLocalTransaction (env : Berkeley) (manager : DatabaseManager) :
    Except Exception DatabaseManager :=
  if ¬ manager.loaded then .ok manager
  else match manager.updateObjects with
  | none => .ok manager
  | some [] => .ok manager
  | some updateObjects =>
    let (ret, transaction, iteration) := attempts env updateObjects manager.contents
      (env.deadlockMaxRetries - 1) 0
    match transaction with
    | none => .error (.abort "exceeded bdb deadlock retries aborting")
    | some berkeleyTransaction =>
      if ¬ iteration < env.deadlockMaxRetries then
        .error (.abort "exceeded bdb deadlock retries aborting")
      else if ret ≠ .success ∧ ret ≠ .notFound then
        .ok { manager with updateObjects := some [] }
      else if env.commitReturns ≠ .success then
        .error (.abort ("error commiting berkeley transaction " ++ env.strerror env.commitReturns))
      else .ok { manager with contents := berkeleyTransaction, updateObjects := some [] }

end DatabaseManager

/-! ### Updates of the contents -/

namespace UpdateObject

def address (o : UpdateObject) : Address := (o.database.handle, o.key)

def record (env : Berkeley) (o : UpdateObject) : Option (List UInt8) :=
  o.stream.map (o.database.dataOf env)

def apply (env : Berkeley) (o : UpdateObject) (contents : Contents) : Contents :=
  Function.update contents o.address (o.record env)

end UpdateObject

namespace DatabaseManager

def applyAll (env : Berkeley) (updateObjects : List UpdateObject) (contents : Contents) :
    Contents :=
  updateObjects.foldl (fun contents o => o.apply env contents) contents

def applyWhere (env : Berkeley) (chosen : Nat → Bool) :
    List UpdateObject → Nat → Contents → Contents
  | [], _, contents => contents
  | o :: rest, i, contents =>
    applyWhere env chosen rest (i + 1) (if chosen i then o.apply env contents else contents)

theorem applyWhere_all (env : Berkeley) (chosen : Nat → Bool) (updateObjects : List UpdateObject)
    (i : Nat) (contents : Contents)
    (all : ∀ j, i ≤ j → j < i + updateObjects.length → chosen j = true) :
    applyWhere env chosen updateObjects i contents = applyAll env updateObjects contents := by
  induction updateObjects generalizing i contents with
  | nil => rfl
  | cons o rest ih =>
    rw [applyWhere, if_pos (all i (Nat.le_refl i) (by simp))]
    refine ih (i + 1) _ fun j from' upTo => all j (by omega) ?_
    rw [length_cons]
    omega

theorem applyWhere_none (env : Berkeley) (chosen : Nat → Bool) (updateObjects : List UpdateObject)
    (i : Nat) (contents : Contents)
    (none : ∀ j, i ≤ j → j < i + updateObjects.length → chosen j = false) :
    applyWhere env chosen updateObjects i contents = contents := by
  induction updateObjects generalizing i contents with
  | nil => rfl
  | cons o rest ih =>
    have not : ¬ chosen i = true := by
      rw [none i (Nat.le_refl i) (by simp)]
      exact Bool.false_ne_true
    rw [applyWhere, if_neg not]
    refine ih (i + 1) contents fun j from' upTo => none j (by omega) ?_
    rw [length_cons]
    omega

/-! ### One attempt -/

def succeeded (env : Berkeley) (iteration i : Nat) : Bool := env.returns iteration i = .success

theorem attempt_cons (env : Berkeley) (iteration : Nat) (o : UpdateObject)
    (rest : List UpdateObject) (i : Nat) (ret : ReturnCode) (transaction : Contents) :
    attempt env iteration (o :: rest) i ret transaction =
      if env.returns iteration i = .deadlock then (env.returns iteration i, none)
      else attempt env iteration rest (i + 1) (env.returns iteration i)
        (if succeeded env iteration i then o.apply env transaction else transaction) := by
  have changed : (if succeeded env iteration i then o.apply env transaction else transaction) =
      if env.returns iteration i = .success then o.apply env transaction else transaction := by
    simp only [succeeded, decide_eq_true_eq]
  rw [attempt, changed]
  cases stream : o.stream with
  | none =>
    simp only [LocalDatabase.tryDeleteData, UpdateObject.apply, UpdateObject.record,
      UpdateObject.address, stream, Option.map_none]
    rfl
  | some bytes =>
    simp only [LocalDatabase.tryPutData, UpdateObject.apply, UpdateObject.record,
      UpdateObject.address, stream, Option.map_some]
    rfl

theorem attempt_quiet (env : Berkeley) (iteration : Nat) (updateObjects : List UpdateObject)
    (i : Nat) (ret : ReturnCode) (transaction : Contents)
    (quiet : ∀ j, i ≤ j → j < i + updateObjects.length → env.returns iteration j ≠ .deadlock) :
    attempt env iteration updateObjects i ret transaction =
      (if updateObjects = [] then ret else env.returns iteration (i + updateObjects.length - 1),
        some (applyWhere env (succeeded env iteration) updateObjects i transaction)) := by
  induction updateObjects generalizing i ret transaction with
  | nil => rfl
  | cons o rest ih =>
    have later : ∀ j, i + 1 ≤ j → j < i + 1 + rest.length →
        env.returns iteration j ≠ .deadlock := by
      intro j from' upTo
      refine quiet j (by omega) ?_
      rw [length_cons]
      omega
    rw [attempt_cons, if_neg (quiet i (Nat.le_refl i) (by simp)), ih (i + 1) _ _ later]
    cases rest with
    | nil => rfl
    | cons p rest =>
      simp only [reduceCtorEq, if_false, length_cons, applyWhere, Prod.mk.injEq, and_true]
      congr 1
      omega

theorem attempt_deadlock (env : Berkeley) (iteration : Nat) (updateObjects : List UpdateObject)
    (i : Nat) (ret : ReturnCode) (transaction : Contents) (j : Nat) (from' : i ≤ j)
    (upTo : j < i + updateObjects.length) (stuck : env.returns iteration j = .deadlock) :
    attempt env iteration updateObjects i ret transaction = (.deadlock, none) := by
  induction updateObjects generalizing i ret transaction with
  | nil =>
    rw [length_nil] at upTo
    omega
  | cons o rest ih =>
    rw [attempt_cons]
    by_cases here : env.returns iteration i = .deadlock
    · rw [if_pos here, here]
    · rw [if_neg here]
      have later : i ≠ j := fun eq => here (eq ▸ stuck)
      rw [length_cons] at upTo
      exact ih (i + 1) _ _ (by omega) (by omega)

/-! ### All attempts -/

def Deadlocks (env : Berkeley) (n iteration : Nat) : Prop :=
  ∃ i < n, env.returns iteration i = .deadlock

/-- The first attempt without a deadlock. -/
structure Final (env : Berkeley) (n iteration : Nat) : Prop where
  quiet : ¬ Deadlocks env n iteration
  first : ∀ j < iteration, Deadlocks env n j

variable {env : Berkeley} {k : Nat} {updateObjects : List UpdateObject} {contents : Contents}
  {manager' : DatabaseManager}

theorem Final.unique {n k' : Nat} (final : Final env n k) (final' : Final env n k') : k = k' := by
  rcases Nat.lt_trichotomy k k' with less | eq | more
  · exact absurd (final'.first k less) final.quiet
  · exact eq
  · exact absurd (final.first k' more) final'.quiet

theorem attempts_final (env : Berkeley) (updateObjects : List UpdateObject) (contents : Contents)
    (some' : updateObjects ≠ []) (k : Nat) (final : Final env updateObjects.length k)
    (allowed iteration : Nat) (before : iteration ≤ k) (within : k ≤ iteration + allowed) :
    attempts env updateObjects contents allowed iteration =
      (env.returns k (updateObjects.length - 1),
        some (applyWhere env (succeeded env k) updateObjects 0 contents), k + 1) := by
  have ends : attempt env k updateObjects 0 (.error (-1)) contents =
      (env.returns k (updateObjects.length - 1),
        some (applyWhere env (succeeded env k) updateObjects 0 contents)) := by
    rw [attempt_quiet env k updateObjects 0 _ contents, if_neg some', Nat.zero_add]
    intro j _ upTo stuck
    exact final.quiet ⟨j, by omega, stuck⟩
  have last : env.returns k (updateObjects.length - 1) ≠ .deadlock := by
    have pos := length_pos_iff.mpr some'
    exact fun stuck => final.quiet ⟨_, by omega, stuck⟩
  -- every attempt before `k` deadlocks and leaves the store as it was
  induction allowed generalizing iteration with
  | zero =>
    obtain rfl : iteration = k := by omega
    rw [attempts]
    simp only [ends, if_neg last]
  | succ allowed ih =>
    rcases Nat.lt_or_eq_of_le before with earlier | rfl
    · obtain ⟨j, hin, stuck⟩ := final.first iteration earlier
      rw [attempts]
      simp only [attempt_deadlock env iteration updateObjects 0 _ contents j (Nat.zero_le j)
        (by omega) stuck, if_true]
      exact ih (iteration + 1) earlier (by omega)
    · rw [attempts]
      simp only [ends, if_neg last]

theorem attempts_exhausted (env : Berkeley) (updateObjects : List UpdateObject)
    (contents : Contents) (allowed iteration : Nat)
    (stuck : ∀ j, iteration ≤ j → j ≤ iteration + allowed →
      Deadlocks env updateObjects.length j) :
    (attempts env updateObjects contents allowed iteration).2.1 = none := by
  have given : ∀ j, iteration ≤ j → j ≤ iteration + allowed →
      attempt env j updateObjects 0 (.error (-1)) contents = (.deadlock, none) := by
    intro j from' upTo
    obtain ⟨i, hin, code⟩ := stuck j from' upTo
    exact attempt_deadlock env j updateObjects 0 _ contents i (Nat.zero_le i) (by omega) code
  induction allowed generalizing iteration with
  | zero =>
    rw [attempts]
    simp only [given iteration (Nat.le_refl _) (Nat.le_refl _), if_true]
  | succ allowed ih =>
    rw [attempts]
    simp only [given iteration (Nat.le_refl _) (by omega), if_true]
    exact ih (iteration + 1) (fun j from' upTo => stuck j (by omega) (by omega))
      fun j from' upTo => given j (by omega) (by omega)

/-! ### The commit -/

theorem commitLocalTransaction_final (contents : Contents) (some' : updateObjects ≠ [])
    (final : Final env updateObjects.length k) (within : k + 1 < env.deadlockMaxRetries) :
    commitLocalTransaction env ⟨true, contents, some updateObjects⟩ =
      let ret := env.returns k (updateObjects.length - 1)
      if ret ≠ .success ∧ ret ≠ .notFound then .ok ⟨true, contents, some []⟩
      else if env.commitReturns ≠ .success then
        .error (.abort ("error commiting berkeley transaction " ++ env.strerror env.commitReturns))
      else .ok ⟨true, applyWhere env (succeeded env k) updateObjects 0 contents, some []⟩ := by
  obtain ⟨o, rest, rfl⟩ := exists_cons_of_ne_nil some'
  rw [commitLocalTransaction]
  simp only [not_true, if_false,
    attempts_final env (o :: rest) contents some' k final (env.deadlockMaxRetries - 1) 0
      (Nat.zero_le k) (by omega), within]

theorem final_of_commitLocalTransaction (some' : updateObjects ≠ [])
    (ret : commitLocalTransaction env ⟨true, contents, some updateObjects⟩ = .ok manager') :
    ∃ k, Final env updateObjects.length k ∧ k + 1 < env.deadlockMaxRetries := by
  obtain ⟨o, rest, rfl⟩ := exists_cons_of_ne_nil some'
  rw [commitLocalTransaction] at ret
  by_cases ends : ∃ k, k ≤ env.deadlockMaxRetries - 1 ∧ ¬ Deadlocks env (o :: rest).length k
  · obtain ⟨k, final, within⟩ : ∃ k, Final env (o :: rest).length k ∧
        k ≤ env.deadlockMaxRetries - 1 := by
      classical
      refine ⟨Nat.find ends, ⟨(Nat.find_spec ends).2, fun j less => ?_⟩, (Nat.find_spec ends).1⟩
      have sooner := Nat.find_min ends less
      have bound := (Nat.find_spec ends).1
      exact Classical.byContradiction fun quiet => sooner ⟨by omega, quiet⟩
    refine ⟨k, final, Classical.byContradiction fun late => ?_⟩
    simp only [attempts_final env (o :: rest) contents some' k final (env.deadlockMaxRetries - 1) 0
      (Nat.zero_le k) (by omega), late, not_false_iff, if_true] at ret
    cases ret
  · have none := attempts_exhausted env (o :: rest) contents (env.deadlockMaxRetries - 1) 0
      fun j _ upTo => Classical.byContradiction fun quiet => ends ⟨j, by omega, quiet⟩
    simp only [none] at ret
    cases ret

/-! ### Which outcomes are safe -/

inductive UpdateKind
  | put
  | delete
  deriving DecidableEq, Repr

def kind (o : UpdateObject) : UpdateKind := if o.stream.isSome then .put else .delete

def Done (kind : UpdateKind) (ret : ReturnCode) : Prop :=
  ret = .success ∨ kind = .delete ∧ ret = .notFound

/-- Berkeley DB reports a key as not found only when it is not there. -/
def Honest (env : Berkeley) (iteration : Nat) : List UpdateObject → Nat → Contents → Prop
  | [], _, _ => True
  | o :: rest, i, contents =>
    (o.stream = none → env.returns iteration i = .notFound → contents o.address = none) ∧
    Honest env iteration rest (i + 1)
      (if succeeded env iteration i then o.apply env contents else contents)

theorem applyWhere_done (env : Berkeley) (iteration : Nat) (updateObjects : List UpdateObject)
    (i : Nat) (contents : Contents) (honest : Honest env iteration updateObjects i contents)
    (all : ∀ n o, updateObjects[n]? = some o → Done (kind o) (env.returns iteration (i + n))) :
    applyWhere env (succeeded env iteration) updateObjects i contents =
      applyAll env updateObjects contents := by
  induction updateObjects generalizing i contents with
  | nil => rfl
  | cons o rest ih =>
    obtain ⟨here, later⟩ := honest
    have applied : (if succeeded env iteration i then o.apply env contents else contents) =
        o.apply env contents := by
      -- a delete that found nothing counts as done, and there was nothing to delete
      by_cases success : succeeded env iteration i = true
      · rw [if_pos success]
      · rw [if_neg success]
        have missing : o.stream = none ∧ env.returns iteration i = .notFound := by
          rcases all 0 o rfl with good | ⟨delete, notFound⟩
          · exact absurd (decide_eq_true good) success
          · refine ⟨?_, notFound⟩
            rw [kind] at delete
            split at delete
            · cases delete
            · simpa using ‹¬ o.stream.isSome = true›
        refine (Function.update_eq_self_iff.mpr ?_).symm
        rw [here missing.1 missing.2, UpdateObject.record, missing.1, Option.map_none]
    rw [applied] at later
    rw [applyWhere, applied]
    refine ih (i + 1) _ later fun n p found => ?_
    have done := all (n + 1) p found
    rwa [show i + (n + 1) = i + 1 + n by omega] at done

/-! ### A list on which every outcome shows -/

def spread : List UpdateKind → Nat → List UpdateObject
  | [], _ => []
  | kind :: rest, i =>
    ⟨⟨i, false⟩, [], if kind = .put then some [] else none⟩ :: spread rest (i + 1)

theorem map_kind_spread (kinds : List UpdateKind) (i : Nat) :
    (spread kinds i).map kind = kinds := by
  induction kinds generalizing i with
  | nil => rfl
  | cons k rest ih =>
    rw [spread, map_cons, ih]
    cases k <;> rfl

theorem applyWhere_spread_before (env : Berkeley) (chosen : Nat → Bool) (kinds : List UpdateKind)
    (i : Nat) (contents : Contents) (j : Nat) (before : j < i) :
    applyWhere env chosen (spread kinds i) i contents (j, []) = contents (j, []) := by
  induction kinds generalizing i contents with
  | nil => rfl
  | cons k rest ih =>
    rw [spread, applyWhere, ih (i + 1) _ (by omega)]
    split
    · refine Function.update_of_ne (fun eq => ?_) _ _
      have : j = i := congrArg Prod.fst eq
      omega
    · rfl

theorem applyWhere_spread_at (env : Berkeley) (chosen : Nat → Bool) (kinds : List UpdateKind)
    (i : Nat) (contents : Contents) (n : Nat) (k : UpdateKind) (found : kinds[n]? = some k) :
    applyWhere env chosen (spread kinds i) i contents (i + n, []) =
      if chosen (i + n) then (if k = .put then some [] else none) else contents (i + n, []) := by
  induction kinds generalizing i contents n with
  | nil => simp at found
  | cons head rest ih =>
    rw [spread, applyWhere]
    cases n with
    | zero =>
      obtain rfl : head = k := by simpa using found
      simp only [Nat.add_zero]
      rw [applyWhere_spread_before env chosen rest (i + 1) _ i (by omega)]
      split
      · refine (Function.update_self _ _ _).trans ?_
        cases head <;> rfl
      · rfl
    | succ n =>
      have later := ih (i + 1) (if chosen i then
          UpdateObject.apply env ⟨⟨i, false⟩, [], if head = .put then some [] else none⟩ contents
        else contents) n (by simpa using found)
      rw [show i + (n + 1) = i + 1 + n by omega, later]
      have ne : (if chosen i then
          UpdateObject.apply env ⟨⟨i, false⟩, [], if head = .put then some [] else none⟩ contents
        else contents) (i + 1 + n, []) = contents (i + 1 + n, []) := by
        split
        · refine Function.update_of_ne (fun eq => ?_) _ _
          have : i + 1 + n = i := congrArg Prod.fst eq
          omega
        · rfl
      rw [ne]

theorem honest_spread (env : Berkeley) (iteration : Nat) (kinds : List UpdateKind) (i : Nat)
    (contents : Contents)
    (absent : ∀ n, kinds[n]? = some .delete → env.returns iteration (i + n) = .notFound →
      contents (i + n, []) = none) :
    Honest env iteration (spread kinds i) i contents := by
  induction kinds generalizing i contents with
  | nil => trivial
  | cons k rest ih =>
    refine ⟨fun noStream missing => ?_, ih (i + 1) _ fun n found missing => ?_⟩
    · refine absent 0 ?_ missing
      cases k with
      | put => simp at noStream
      | delete => rfl
    · have before := absent (n + 1) found (by rwa [show i + (n + 1) = i + 1 + n by omega])
      rw [show i + (n + 1) = i + 1 + n by omega] at before
      split
      · refine (Function.update_of_ne (fun eq => ?_) _ _).trans before
        have : i + 1 + n = i := congrArg Prod.fst eq
        omega
      · exact before

def sensitive (env : Berkeley) (iteration : Nat) (kinds : List UpdateKind) : Contents := fun a =>
  if kinds[a.1]? = some .delete ∧ env.returns iteration a.1 ≠ .notFound then some [] else none

/-- The outcomes of the attempt that is not given up are safe: the last update fails, so
that the transaction is aborted, or every update is done, or none takes effect. -/
def Safe (env : Berkeley) (kinds : List UpdateKind) (iteration : Nat) : Prop :=
  env.returns iteration (kinds.length - 1) ∉ [.success, .notFound] ∨
  (∀ i kind, kinds[i]? = some kind → Done kind (env.returns iteration i)) ∨
  ∀ i < kinds.length, env.returns iteration i ≠ .success

/-- What the contents may be after the call. -/
def AllOrNothing (env : Berkeley) (updateObjects : List UpdateObject)
    (contents contents' : Contents) : Prop :=
  contents' = contents ∨ contents' = applyAll env updateObjects contents

theorem allOrNothing_of_safe (some' : updateObjects ≠ []) (final : Final env updateObjects.length k)
    (within : k + 1 < env.deadlockMaxRetries) (honest : Honest env k updateObjects 0 contents)
    (safe : env.commitReturns = .success → Safe env (updateObjects.map kind) k)
    (ret : commitLocalTransaction env ⟨true, contents, some updateObjects⟩ = .ok manager') :
    AllOrNothing env updateObjects contents manager'.contents := by
  rw [commitLocalTransaction_final contents some' final within] at ret
  dsimp only at ret
  split at ret
  next => -- the transaction was aborted
    cases ret
    exact Or.inl rfl
  next ends =>
    split at ret
    next => cases ret
    next committed =>
      cases ret
      rcases safe (Classical.not_not.mp committed) with failed | all | none
      · refine absurd ?_ ends
        simpa only [length_map, mem_cons, not_mem_nil, or_false, not_or]
          using failed
      · refine Or.inr (applyWhere_done env k updateObjects 0 contents honest fun n o found => ?_)
        rw [Nat.zero_add]
        exact all n (kind o) (by rw [getElem?_map, found]; rfl)
      · refine Or.inl (applyWhere_none env _ updateObjects 0 contents fun j _ upTo => ?_)
        rw [length_map] at none
        exact decide_eq_false (none j (by omega))

theorem safe_of_allOrNothing {kinds : List UpdateKind} (final : Final env kinds.length k)
    (within : k + 1 < env.deadlockMaxRetries) (commits : env.commitReturns = .success)
    (atomic : ∀ manager', commitLocalTransaction env
        ⟨true, sensitive env k kinds, some (spread kinds 0)⟩ = .ok manager' →
      AllOrNothing env (spread kinds 0) (sensitive env k kinds) manager'.contents) :
    Safe env kinds k := by
  refine Classical.byContradiction fun risky => ?_
  rw [Safe, not_or, not_or] at risky
  obtain ⟨ends, notAll, notNone⟩ := risky
  simp only [not_forall, Classical.not_not] at ends notAll notNone
  obtain ⟨n, kind, found, missed⟩ := notAll
  obtain ⟨i, hin, success⟩ := notNone
  have len : (spread kinds 0).length = kinds.length := by
    rw [← length_map (f := DatabaseManager.kind), map_kind_spread]
  have some' : spread kinds 0 ≠ [] := by
    intro empty
    rw [empty, length_nil] at len
    omega
  have ret := commitLocalTransaction_final (sensitive env k kinds) some'
    (by rwa [len]) within
  have ended : ¬ (env.returns k (kinds.length - 1) ≠ .success ∧
      env.returns k (kinds.length - 1) ≠ .notFound) := by
    simp only [mem_cons, not_mem_nil, or_false] at ends
    exact fun failed => ends.elim failed.1 failed.2
  rw [len, if_neg ended, if_neg (not_not.mpr commits)] at ret
  -- at update `i` the contents are new, at update `n` they are old
  rcases atomic _ ret with nothing | whole
  · obtain ⟨kind', here⟩ : ∃ kind', kinds[i]? = some kind' :=
      ⟨_, getElem?_eq_getElem hin⟩
    have applied : succeeded env k i = true := decide_eq_true success
    have val := congrFun nothing (0 + i, [])
    dsimp only at val
    rw [applyWhere_spread_at env _ kinds 0 _ i kind' here, Nat.zero_add,
      if_pos applied, sensitive] at val
    cases kind' <;> simp [here, success] at val
  · have val := congrFun whole (0 + n, [])
    dsimp only at val
    rw [← applyWhere_all env (fun _ => true) (spread kinds 0) 0 _ fun _ _ _ => rfl,
      applyWhere_spread_at env _ kinds 0 _ n kind found,
      applyWhere_spread_at env _ kinds 0 _ n kind found, Nat.zero_add, if_pos rfl] at val
    have failed : env.returns k n ≠ .success := fun good => missed (Or.inl good)
    rw [if_neg (by simpa [succeeded] using failed), sensitive] at val
    cases kind with
    | put => simp [found] at val
    | delete =>
      have kept : env.returns k n ≠ .notFound := fun missing => missed (Or.inr ⟨rfl, missing⟩)
      simp [found, kept] at val

/-- Exactly when the outcomes of the attempt that is not given up are safe. -/
theorem commitLocalTransaction_allOrNothing_iff (env : Berkeley) (kinds : List UpdateKind) :
    (∀ updateObjects contents manager', updateObjects.map kind = kinds →
      (∀ k, Final env kinds.length k → Honest env k updateObjects 0 contents) →
      commitLocalTransaction env ⟨true, contents, some updateObjects⟩ = .ok manager' →
      AllOrNothing env updateObjects contents manager'.contents) ↔
    ∀ k, Final env kinds.length k → k + 1 < env.deadlockMaxRetries →
      env.commitReturns = .success → Safe env kinds k := by
  constructor
  · intro atomic k final within commits
    refine safe_of_allOrNothing final within commits fun manager' ret => ?_
    refine atomic _ _ manager' (map_kind_spread kinds 0) (fun k' final' => ?_) ret
    obtain rfl := final.unique final'
    refine honest_spread env k kinds 0 _ fun n found missing => ?_
    exact if_neg fun present => present.2 missing
  · rintro safe updateObjects contents manager' rfl honest ret
    rw [length_map] at safe honest
    by_cases empty : updateObjects = []
    · subst empty
      cases ret
      exact Or.inl rfl
    · obtain ⟨k, final, within⟩ :=
        final_of_commitLocalTransaction empty ret
      exact allOrNothing_of_safe empty final within (honest k final)
        (safe k final within) ret

def failsFirst : Berkeley where
  compress := id
  returns _ i := if i = 0 then .error 22 else .success
  commitReturns := .success
  strerror _ := ""
  deadlockMaxRetries := 1000

theorem commitLocalTransaction_commits_part :
    let updateObjects : List UpdateObject :=
      [⟨⟨0, false⟩, [1], some [7]⟩, ⟨⟨0, false⟩, [2], some [8]⟩]
    let contents : Contents := fun _ => none
    ∃ manager', commitLocalTransaction failsFirst ⟨true, contents, some updateObjects⟩ =
        .ok manager' ∧
      manager'.contents (0, [1]) = none ∧ manager'.contents (0, [2]) = some [8] ∧
      applyAll failsFirst updateObjects contents (0, [1]) = some [7] ∧
      ¬ AllOrNothing failsFirst updateObjects contents manager'.contents := by
  intro updateObjects contents
  have final : Final failsFirst updateObjects.length 0 := by
    refine ⟨?_, fun j less => absurd less (Nat.not_lt_zero j)⟩
    rintro ⟨i, -, stuck⟩
    simp only [failsFirst] at stuck
    split at stuck <;> cases stuck
  have ret := commitLocalTransaction_final contents
    (cons_ne_nil _ _) final (by decide)
  refine ⟨_, ret.trans rfl, rfl, rfl, rfl, ?_⟩
  rintro (nothing | whole)
  · exact absurd (congrFun nothing (0, [2])) (by decide)
  · exact absurd (congrFun whole (0, [1])) (by decide)

end DatabaseManager

end Engine3
