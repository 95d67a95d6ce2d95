import Engine3.Library.Lockstep
import Engine3.Library.OwnedBlocks
import Engine3.System.HashTable

/-!
# Moving hash tables

A `HashTable` object has the pointer to its buckets and their number as two members. The moves
take both, and reset only the pointer of the table they take them from. Here the operations are
those of the object, which stop at a null pointer, and a table is an object whose pointer is null
exactly if it has no buckets.
-/
namespace Engine3

open Exec Lockstep HashCode
open OwnedBlocks (Fault)

structure RawTable (K V : Type) where
  table : Option (List (List (Entry K V)))
  tableLength : Nat
  count : Nat
  threshold : Int
  loadFactor : LoadFactor
  nullValue : V

namespace HashTable

inductive Call (K V : Type)
  | op (op : Op K V)
  | size
  | iterate

inductive Reply (K V : Type)
  | answer (a : Answer V)
  | size (n : Nat)
  | visited (es : List (Entry K V))
  deriving DecidableEq

def Call.isPut {K V : Type} : Call K V → Bool
  | .op (.put _ _) => true
  | _ => false

def call {K V : Type} [BEq K] [HashCode K] (t : HashTable K V) :
    Call K V → Reply K V × HashTable K V
  | .op op => (.answer (t.perform op).1, (t.perform op).2)
  | .size => (.size t.size, t)
  | .iterate => (.visited t.entries, t)

end HashTable

namespace RawTable

open HashTable (index alter isEntryOf relink Iterator iterator seek Op Answer Call Reply)

variable {K V : Type}

abbrev RawM (K V : Type) := EStateM Fault (RawTable K V)

section Operations

def members : RawM K V (RawTable K V) := MonadState.get

def buckets : RawM K V (List (List (Entry K V))) := do
  match (← members).table with
  | none => throw .null
  | some table => return table

def chainAt (i : Nat) : RawM K V (List (Entry K V)) := do
  match (← buckets)[i]? with
  | none => throw .outside
  | some c => return c

def setChainAt (i : Nat) (c : List (Entry K V)) : RawM K V Unit :=
  modify fun s => { s with table := s.table.map (·.set i c) }

def allBuckets : RawM K V (List (List (Entry K V))) := do
  if (← members).tableLength = 0 then return [] else buckets

def rehash : RawM K V Unit := do
  let oldMap ← allBuckets
  modify fun s =>
    let newCapacity := max 5 (s.tableLength * 2 + 1)
    { s with
      threshold := s.loadFactor.threshold newCapacity
      table := some (oldMap.reverse.foldl (fun newMap c => c.foldl (relink newCapacity) newMap)
        (List.replicate newCapacity []))
      tableLength := newCapacity }

def removeAll : RawM K V Unit := do
  if (← members).count = 0 then return ()
  else
    let deleted ← allBuckets
    modify fun s => { s with table := s.table.map fun _ => deleted.map fun _ => [], count := 0 }

def getNextKeyAndValue (it : Iterator K V) : RawM K V (Entry K V × Iterator K V) :=
  match it.e with
  | e :: next => return (e, { it with e := next, position := it.position + 1 })
  | [] => do
    match seek ((← buckets).drop it.nextIndex) it.nextIndex with
    | .ok (e, next, nextIndex) => return (e, { e := next, position := it.position + 1, nextIndex })
    | .error _ => throw .outside

def iterate : Nat → Iterator K V → RawM K V (List (Entry K V))
  | 0, it => do
    if it.position < (← members).count then throw .outOfFuel else return []
  | fuel + 1, it => do
    if it.position < (← members).count then
      let (e, it) ← getNextKeyAndValue it
      let later ← iterate fuel it
      return e :: later
    else return []

variable [BEq K] [HashCode K]

def find (hashCode : Int32) (key : K) (value : V) :
    RawM K V (Option (Entry K V × List (Entry K V))) := do
  let s ← members
  if s.tableLength = 0 then return none
  else
    let c ← chainAt (index hashCode s.tableLength)
    return alter hashCode key (fun e => [{ e with value }]) c

def indexOfNew (hashCode : Int32) : RawM K V Nat := do
  let s ← members
  if (s.count : Int) ≥ s.threshold then
    rehash
    return index hashCode (← members).tableLength
  else return if s.tableLength = 0 then 0 else index hashCode s.tableLength

def put (key : K) (value : V) : RawM K V V := do
  let hashCode := hashCode key
  let found ← find hashCode key value
  match found with
  | some (e, c) =>
    setChainAt (index hashCode (← members).tableLength) c
    return e.value
  | none =>
    let i ← indexOfNew hashCode
    let e ← chainAt i
    setChainAt i (⟨hashCode, key, value⟩ :: e)
    modify fun s => { s with count := s.count + 1 }
    return (← members).nullValue

def getEntry (key : K) : RawM K V (Option (Entry K V)) := do
  let s ← members
  if s.count = 0 then return none
  else
    let c ← chainAt (index (hashCode key) s.tableLength)
    return c.find? (isEntryOf (hashCode key) key)

def get (key : K) : RawM K V V := do
  let e ← getEntry key
  return (e.map Entry.value).getD (← members).nullValue

def containsKey (key : K) : RawM K V Bool := do
  let e ← getEntry key
  return e.isSome

def remove (key : K) : RawM K V V := do
  let s ← members
  if s.count = 0 then return s.nullValue
  else
    let hashCode := hashCode key
    let c ← chainAt (index hashCode s.tableLength)
    match alter hashCode key (fun _ => []) c with
    | some (e, c) =>
      setChainAt (index hashCode s.tableLength) c
      modify fun s => { s with count := s.count - 1 }
      return e.value
    | none => return s.nullValue

def perform : Op K V → RawM K V (Answer V)
  | .put key value => .value <$> put key value
  | .remove key => .value <$> remove key
  | .removeAll => do
    removeAll
    return .nothing
  | .get key => .value <$> get key
  | .containsKey key => .flag <$> containsKey key

def call : Call K V → RawM K V (Reply K V)
  | .op op => .answer <$> perform op
  | .size => return .size (← members).count
  | .iterate => do
    let es ← iterate (← members).count iterator
    return .visited es

end Operations

def moveConstruct (htable : RawTable K V) : RawTable K V × RawTable K V :=
  (htable, { htable with table := none })

def moveAssign (this htable : RawTable K V) : Except Fault (RawTable K V × RawTable K V) :=
  match removeAll this with
  | .ok _ _ => .ok (htable, { htable with table := none, count := 0 })
  | .error fault _ => .error fault

/-! ### Tables as objects -/

def ofTable (t : HashTable K V) : RawTable K V where
  table := if t.tableLength = 0 then none else some t.table
  tableLength := t.tableLength
  count := t.count
  threshold := t.threshold
  loadFactor := t.loadFactor
  nullValue := t.nullValue

section Refinement

variable (t : HashTable K V)

theorem buckets_ofTable (pos : 0 < t.tableLength) :
    buckets (ofTable t) = .ok t.table (ofTable t) := by
  have ptr : (ofTable t).table = some t.table := if_neg (by omega)
  refine get_bind.trans ?_
  simp only [ptr]
  rfl

theorem chainAt_ofTable (hashCode : Int32) (pos : 0 < t.tableLength) :
    chainAt (index hashCode t.tableLength) (ofTable t) = .ok (t.chain hashCode) (ofTable t) := by
  have hin : index hashCode t.tableLength < t.table.length :=
    HashTable.index_lt hashCode t.tableLength pos
  rw [chainAt, bind_of_ok (buckets_ofTable t pos), HashTable.chain,
    List.getElem?_eq_getElem hin]
  rfl

theorem setChainAt_ofTable (hashCode : Int32) (c : List (Entry K V)) :
    setChainAt (index hashCode t.tableLength) c (ofTable t) =
      .ok () (ofTable (t.setChain hashCode c)) := by
  have len : (t.setChain hashCode c).tableLength = t.tableLength := List.length_set
  simp only [ofTable, len]
  split <;> rfl

theorem allBuckets_ofTable : allBuckets (ofTable t) = .ok t.table (ofTable t) := by
  by_cases none : t.tableLength = 0
  · have empty : t.table = [] := List.length_eq_zero_iff.mp none
    rw [empty]
    exact ite_run_pos none
  · exact (ite_run_neg none).trans (buckets_ofTable t (by omega))

theorem removeAll_ofTable : removeAll (ofTable t) = .ok () (ofTable t.removeAll) := by
  unfold removeAll HashTable.removeAll
  by_cases none : t.count = 0
  · rw [if_pos none]
    exact ite_run_pos none
  · rw [if_neg none]
    apply (ite_run_neg none).trans
    rw [bind_of_ok (allBuckets_ofTable t)]
    change EStateM.Result.ok () _ = _
    by_cases buckets : t.table.length = 0
    · simp [ofTable, HashTable.tableLength, buckets]
    · simp [ofTable, HashTable.tableLength, buckets]

variable [BEq K] [HashCode K]

variable {t} (valid : t.Valid)

include valid

theorem positive_of_count (some : t.count ≠ 0) : 0 < t.tableLength := by
  have bound := valid.bound
  omega

theorem rehash_ofTable : rehash (ofTable t) = .ok () (ofTable t.rehash) := by
  have len := (HashTable.rehash_spec valid.placed).1
  rw [rehash, bind_of_ok (allBuckets_ofTable t)]
  have ptr : (ofTable t.rehash).table = some t.rehash.table := if_neg (by omega)
  have eq : (ofTable t.rehash).tableLength = max 5 (t.tableLength * 2 + 1) := len
  simp only [ofTable] at ptr eq ⊢
  rw [ptr, eq]
  rfl

theorem indexOfNew_ofTable (hashCode : Int32) :
    let grown := if (t.count : Int) ≥ t.threshold then t.rehash else t
    0 < grown.tableLength ∧
      indexOfNew hashCode (ofTable t) = .ok (index hashCode grown.tableLength) (ofTable grown) := by
  intro grown
  by_cases full : (t.count : Int) ≥ t.threshold
  · have rehashed : grown = t.rehash := if_pos full
    have len := (HashTable.rehash_spec valid.placed).1
    rw [rehashed]
    constructor
    · omega
    · apply (ite_run_pos full).trans
      rw [bind_of_ok (rehash_ofTable valid)]
      rfl
  · have eq : grown = t := if_neg full
    -- the count is below a threshold that is at most the number of buckets
    have bound := t.loadFactor.threshold_le t.tableLength
    have threshold := valid.threshold
    have pos : t.tableLength ≠ 0 := by omega
    rw [eq]
    constructor
    · omega
    · apply (ite_run_neg full).trans
      have buckets : (ofTable t).tableLength ≠ 0 := pos
      rw [if_neg buckets]
      rfl

omit [HashCode K] valid in
theorem find_ofTable (hashCode : Int32) (key : K) (value : V) :
    find hashCode key value (ofTable t) =
      .ok (if t.tableLength ≠ 0 then
          alter hashCode key (fun e => [{ e with value }]) (t.chain hashCode)
        else none) (ofTable t) := by
  by_cases buckets : t.tableLength = 0
  · rw [if_neg (not_not.mpr buckets)]
    exact ite_run_pos buckets
  · rw [if_pos buckets]
    apply (ite_run_neg buckets).trans
    exact bind_of_ok (chainAt_ofTable t hashCode (by omega))

theorem put_ofTable (key : K) (value : V) :
    put key value (ofTable t) = .ok (t.put key value).1 (ofTable (t.put key value).2) := by
  apply (bind_of_ok (find_ofTable (hashCode key) key value)).trans
  cases search : (if t.tableLength ≠ 0 then
      alter (hashCode key) key (fun e => [{ e with value }])
        (t.chain (hashCode key))
    else none) with
  | some found =>
    -- the entry is there and gets the value
    have assigned : t.put key value =
        (found.1.value, t.setChain (hashCode key) found.2) := by
      simp only [HashTable.put, search]
    rw [assigned]
    change (setChainAt (index (hashCode key) t.tableLength) found.2 >>=
      fun _ => pure found.1.value) (ofTable t) = _
    exact bind_of_ok (setChainAt_ofTable t _ _)
  | none =>
    -- a new entry, in the table as it is or in the rehashed one
    obtain ⟨pos, chosen⟩ := indexOfNew_ofTable valid (hashCode key)
    generalize new : (if (t.count : Int) ≥ t.threshold then t.rehash else t) = grown at *
    have counted : grown.count = t.count := by rw [← new]; split <;> rfl
    have nullValue : grown.nullValue = t.nullValue := by rw [← new]; split <;> rfl
    have added : t.put key value = (grown.nullValue,
        { grown.setChain (hashCode key) (⟨hashCode key, key, value⟩ ::
            grown.chain (hashCode key)) with count := grown.count + 1 }) := by
      simp only [HashTable.put, search, new, counted, nullValue]
    rw [added]
    apply (bind_of_ok chosen).trans
    rw [bind_of_ok (chainAt_ofTable grown _ pos),
      bind_of_ok (setChainAt_ofTable grown _ _)]
    rfl

theorem getEntry_ofTable (key : K) :
    getEntry key (ofTable t) = .ok (t.getEntry key) (ofTable t) := by
  unfold getEntry HashTable.getEntry
  by_cases none : t.count = 0
  · rw [if_pos none]
    exact ite_run_pos none
  · rw [if_neg none]
    apply (ite_run_neg none).trans
    exact bind_of_ok (chainAt_ofTable t _ (positive_of_count valid none))

theorem remove_ofTable (key : K) :
    remove key (ofTable t) = .ok (t.remove key).1 (ofTable (t.remove key).2) := by
  by_cases none : t.count = 0
  · have nothing : t.remove key = (t.nullValue, t) := if_pos none
    rw [nothing]
    exact ite_run_pos none
  · apply (ite_run_neg none).trans
    apply (bind_of_ok (chainAt_ofTable t _ (positive_of_count valid none))).trans
    cases search : alter (hashCode key) key (fun _ => [])
        (t.chain (hashCode key)) with
    | none =>
      have missing : t.remove key = (t.nullValue, t) := by
        simp only [HashTable.remove, none, if_false, search]
      rw [missing]
      rfl
    | some found =>
      have removed : t.remove key = (found.1.value,
          { t.setChain (hashCode key) found.2 with count := t.count - 1 }) := by
        simp only [HashTable.remove, none, if_false, search]
      rw [removed]
      exact bind_of_ok (setChainAt_ofTable t (hashCode key) found.2)

theorem getNextKeyAndValue_ofTable (it it' : Iterator K V) (e : Entry K V) (some : t.count ≠ 0)
    (got : t.getNextKeyAndValue it = .ok (e, it')) :
    getNextKeyAndValue it (ofTable t) = .ok (e, it') (ofTable t) := by
  unfold HashTable.getNextKeyAndValue at got
  unfold getNextKeyAndValue
  cases here : it.e with
  | cons first next =>
    simp only [here, Except.ok.injEq] at got ⊢
    rw [← got]
    rfl
  | nil =>
    simp only [here] at got ⊢
    -- the chain is at its end, so the next bucket with entries is sought
    apply (bind_of_ok (buckets_ofTable t (positive_of_count valid some))).trans
    cases sought : seek (t.table.drop it.nextIndex) it.nextIndex with
    | error thrown =>
      rw [sought] at got
      cases got
    | ok found =>
      rw [sought] at got
      cases got
      rfl

theorem iterate_ofTable (fuel : Nat) (it : Iterator K V) (es : List (Entry K V))
    (visited : t.iterate fuel it = .ok es) :
    iterate fuel it (ofTable t) = .ok es (ofTable t) := by
  induction fuel generalizing it es with
  | zero =>
    unfold HashTable.iterate HashTable.hasNext at visited
    by_cases more : it.position < t.size
    · rw [if_pos (decide_eq_true more)] at visited
      cases visited
    · rw [if_neg (by simpa using more)] at visited
      cases visited
      exact ite_run_neg more
  | succ fuel ih =>
    unfold HashTable.iterate HashTable.hasNext at visited
    by_cases more : it.position < t.size
    · rw [if_pos (decide_eq_true more)] at visited
      apply (ite_run_pos more).trans
      cases got : t.getNextKeyAndValue it with
      | error thrown =>
        rw [got] at visited
        cases visited
      | ok next =>
        rw [got] at visited
        change (t.iterate fuel next.2 >>= fun later => pure (next.1 :: later)) = _ at visited
        cases rest : t.iterate fuel next.2 with
        | error thrown =>
          rw [rest] at visited
          cases visited
        | ok later =>
          rw [rest] at visited
          cases visited
          have some : t.count ≠ 0 := Nat.ne_zero_of_lt more
          rw [bind_of_ok (getNextKeyAndValue_ofTable valid it next.2 next.1 some got)]
          exact bind_of_ok (ih next.2 later rest)
    · rw [if_neg (by simpa using more)] at visited
      cases visited
      exact ite_run_neg more

theorem perform_ofTable (op : Op K V) :
    perform op (ofTable t) = .ok (t.perform op).1 (ofTable (t.perform op).2) := by
  cases op with
  | put key value => exact map_ok _ (put_ofTable valid key value)
  | remove key => exact map_ok _ (remove_ofTable valid key)
  | removeAll => exact bind_of_ok (removeAll_ofTable t)
  | get key =>
    exact map_ok _ (bind_of_ok (getEntry_ofTable valid key))
  | containsKey key =>
    exact map_ok _ (bind_of_ok (getEntry_ofTable valid key))

theorem call_ofTable (c : Call K V) :
    call c (ofTable t) = .ok (t.call c).1 (ofTable (t.call c).2) := by
  cases c with
  | op op => exact map_ok _ (perform_ofTable valid op)
  | size => rfl
  | iterate =>
    exact bind_of_ok (iterate_ofTable valid t.size iterator t.entries
      (valid.iterate le_rfl))

end Refinement

section Runs

variable [BEq K] [HashCode K] [EquivBEq K] [LawfulHashCode K]

theorem call_valid {t : HashTable K V} (valid : t.Valid) (c : Call K V) : (t.call c).2.Valid := by
  cases c with
  | op op => exact (valid.perform op).2.valid
  | size => exact valid
  | iterate => exact valid

theorem answers_ofTable {t : HashTable K V} (valid : t.Valid) (calls : List (Call K V)) :
    Answers call HashTable.call (ofTable t) t calls := by
  induction calls generalizing t with
  | nil => trivial
  | cons c calls ih => exact ⟨trivial, _, call_ofTable valid c, ih (call_valid valid c)⟩

end Runs

/-! ### Null pointers -/

section Null

variable {s : RawTable K V} (null : s.table = none)

include null

theorem buckets_null : buckets s = .error .null s := by
  refine get_bind.trans ?_
  simp only [null]
  rfl

theorem chainAt_null (i : Nat) : chainAt i s = .error .null s :=
  bind_of_error (buckets_null null)

variable (positive : 0 < s.tableLength)

include positive

theorem allBuckets_null : allBuckets s = .error .null s :=
  (ite_run_neg (Nat.ne_of_gt positive)).trans (buckets_null null)

variable [BEq K] [HashCode K]

theorem put_null (key : K) (value : V) : put key value s = .error .null s := by
  apply bind_of_error
  apply (ite_run_neg (Nat.ne_of_gt positive)).trans
  exact bind_of_error (chainAt_null null _)

theorem call_put_null {c : Call K V} (putting : c.isPut = true) : call c s = .error .null s := by
  match c with
  | .op (.put key value) => exact map_error _ (map_error _ (put_null null positive key value))

theorem call_counted_null (some : s.count ≠ 0) (c : Call K V) :
    c = .size ∨ call c s = .error .null s := by
  have getEntry_null (key : K) : getEntry key s = .error .null s := by
    apply (ite_run_neg some).trans
    exact bind_of_error (chainAt_null null _)
  cases c with
  | size => exact .inl rfl
  | iterate =>
    right
    have iterate_null (fuel : Nat) (more : fuel ≠ 0) :
        iterate fuel iterator s = .error .null s := by
      obtain ⟨fuel, rfl⟩ := Nat.exists_eq_succ_of_ne_zero more
      apply (ite_run_pos (Nat.pos_of_ne_zero some)).trans
      apply bind_of_error
      exact bind_of_error (buckets_null null)
    exact bind_of_error (m := iterate s.count iterator) (iterate_null s.count some)
  | op op =>
    right
    apply map_error
    cases op with
    | put key value => exact map_error _ (put_null null positive key value)
    | remove key =>
      apply map_error
      apply (ite_run_neg some).trans
      exact bind_of_error (chainAt_null null _)
    | removeAll =>
      apply bind_of_error
      apply (ite_run_neg some).trans
      exact bind_of_error (allBuckets_null null positive)
    | get key => exact map_error _ (bind_of_error (getEntry_null key))
    | containsKey key => exact map_error _ (bind_of_error (getEntry_null key))

end Null

section Empty

variable [BEq K] [HashCode K] {t : HashTable K V} {s : RawTable K V} (valid : t.Valid)
  (empty : t.count = 0) (none : s.count = 0) (nullValue : s.nullValue = t.nullValue)

include valid empty none nullValue

theorem call_empty {c : Call K V} (ne : c.isPut = false) :
    call c s = .ok (t.call c).1 s ∧ (t.call c).2 = t := by
  have entries : t.entries = [] := List.length_eq_zero_iff.mp (valid.count.symm.trans empty)
  have raw (key : K) : getEntry key s = .ok Option.none s := ite_run_pos none
  have table (key : K) : t.getEntry key = Option.none := if_pos empty
  cases c with
  | size =>
    constructor
    · exact congrArg (fun n => EStateM.Result.ok (Reply.size n) s) (none.trans empty.symm)
    · rfl
  | iterate =>
    have visited : iterate s.count iterator s = .ok t.entries s := by
      rw [none, entries]
      exact ite_run_neg (by simp [iterator, none])
    exact ⟨bind_of_ok visited, rfl⟩
  | op op =>
    cases op with
    | put key value => cases ne
    | remove key =>
      have unchanged : t.remove key = (t.nullValue, t) := if_pos empty
      have answered : remove key s = .ok (t.remove key).1 s := by
        rw [unchanged, ← nullValue]
        exact ite_run_pos none
      exact ⟨map_ok _ (map_ok _ answered), congrArg Prod.snd unchanged⟩
    | removeAll =>
      have answered : removeAll s = .ok () s := ite_run_pos none
      exact ⟨map_ok _ (bind_of_ok answered), if_pos empty⟩
    | get key =>
      have answered : get key s = .ok (t.get key) s := by
        apply (bind_of_ok (raw key)).trans
        simp only [HashTable.get, table key, Option.map_none, Option.getD_none, ← nullValue]
        rfl
      exact ⟨map_ok _ (map_ok _ answered), rfl⟩
    | containsKey key =>
      have answered : containsKey key s = .ok (t.containsKey key) s := by
        apply (bind_of_ok (raw key)).trans
        simp only [HashTable.containsKey, table key]
        rfl
      exact ⟨map_ok _ (map_ok _ answered), rfl⟩

theorem answers_null (null : s.table = Option.none) (pos : 0 < s.tableLength)
    (calls : List (Call K V)) :
    Answers call HashTable.call s t calls ↔ ∀ c ∈ calls, c.isPut = false := by
  induction calls with
  | nil => exact iff_of_true trivial (by simp)
  | cons c calls ih =>
    rw [answers_cons, List.forall_mem_cons, ← ih]
    cases putting : c.isPut with
    | true => simp [call_put_null null pos putting]
    | false =>
      -- the object and the table stay what they are
      obtain ⟨answered, unchanged⟩ := call_empty valid empty none nullValue putting
      simp [answered, unchanged]

end Empty

/-! ### Moved tables -/

section Moves

variable [BEq K] [HashCode K] [EquivBEq K] [LawfulHashCode K]

variable {t : HashTable K V}

omit [EquivBEq K] [LawfulHashCode K] in
theorem eq_init (valid : t.Valid) (none : t.tableLength = 0) :
    t = HashTable.init 0 t.loadFactor t.nullValue := by
  have bound := valid.bound
  have table : t.table = [] := List.length_eq_zero_iff.mp none
  have counted : t.count = 0 := by omega
  have threshold : t.threshold = t.loadFactor.threshold 0 := none ▸ valid.threshold
  cases t
  simp_all [HashTable.init]

theorem answers_without_buckets (valid : t.Valid) (none : t.tableLength = 0) {s : RawTable K V}
    (eq : s = ofTable t) (calls : List (Call K V)) :
    Answers call HashTable.call s (HashTable.init 0 t.loadFactor t.nullValue) calls := by
  rw [eq, ← eq_init valid none]
  exact answers_ofTable valid calls

theorem answers_constructed (valid : t.Valid) (calls : List (Call K V)) :
    Answers call HashTable.call (moveConstruct (ofTable t)).2
        (HashTable.init 0 t.loadFactor t.nullValue) calls ↔
      t.tableLength = 0 ∨ calls = [] ∨ t.count = 0 ∧ ∀ c ∈ calls, c.isPut = false := by
  by_cases none : t.tableLength = 0
  · have eq : (moveConstruct (ofTable t)).2 = ofTable t := by
      simp [moveConstruct, ofTable, none]
    exact iff_of_true (answers_without_buckets valid none eq calls) (.inl none)
  · rw [or_iff_right none]
    have pos : 0 < t.tableLength := by omega
    by_cases empty : t.count = 0
    · have answers := answers_null (HashTable.valid_init 0 t.loadFactor t.nullValue) rfl
        (s := (moveConstruct (ofTable t)).2) empty rfl rfl pos calls
      rw [answers, and_iff_right empty]
      constructor
      · exact .inr
      · rintro (rfl | others)
        · simp
        · exact others
    · rw [or_iff_left (fun both => empty both.1)]
      cases calls with
      | nil => exact iff_of_true trivial rfl
      | cons c calls =>
        apply iff_of_false _ (List.cons_ne_nil c calls)
        rw [answers_cons]
        rintro ⟨s', answered, _⟩
        rcases call_counted_null (s := (moveConstruct (ofTable t)).2) rfl pos empty c with
          rfl | failed
        · -- the size of a new table is zero
          injection answered with reply
          injection reply with counted
          exact empty counted
        · rw [failed] at answered
          cases answered

theorem answers_assigned (valid : t.Valid) (calls : List (Call K V)) :
    Answers call HashTable.call { ofTable t with table := none, count := 0 }
        (HashTable.init 0 t.loadFactor t.nullValue) calls ↔
      t.tableLength = 0 ∨ ∀ c ∈ calls, c.isPut = false := by
  by_cases buckets : t.tableLength = 0
  · have bound := valid.bound
    have counted : t.count = 0 := by omega
    have eq : { ofTable t with table := none, count := 0 } = ofTable t := by
      simp [ofTable, buckets, counted]
    exact iff_of_true (answers_without_buckets valid buckets eq calls) (.inl buckets)
  · rw [or_iff_right buckets]
    exact answers_null (HashTable.valid_init 0 t.loadFactor t.nullValue) rfl rfl rfl rfl
      (Nat.pos_of_ne_zero buckets) calls

/-- Exactly if it had no buckets: otherwise every `put` reads through a null pointer. -/
theorem moves_safe_iff {t : HashTable K V} (valid : t.Valid) (u : HashTable K V)
    (calls : List (Call K V)) :
    let new := HashTable.init 0 t.loadFactor t.nullValue
    Answers call HashTable.call (moveConstruct (ofTable t)).1 t calls ∧
      (Answers call HashTable.call (moveConstruct (ofTable t)).2 new calls ↔
        t.tableLength = 0 ∨ calls = [] ∨ t.count = 0 ∧ ∀ c ∈ calls, c.isPut = false) ∧
      ∃ this htable, moveAssign (ofTable u) (ofTable t) = .ok (this, htable) ∧
        Answers call HashTable.call this t calls ∧
        (Answers call HashTable.call htable new calls ↔
          t.tableLength = 0 ∨ ∀ c ∈ calls, c.isPut = false) := by
  intro new
  have assigned : moveAssign (ofTable u) (ofTable t) =
      .ok (ofTable t, { ofTable t with table := none, count := 0 }) := by
    rw [moveAssign, removeAll_ofTable u]
  exact ⟨answers_ofTable valid calls, answers_constructed valid calls, _, _, assigned,
    answers_ofTable valid calls, answers_assigned valid calls⟩

end Moves

section Bytes

local instance : HashCode UInt8 where
  hashCode b := b.toInt8.toInt32

local instance : LawfulHashCode UInt8 where
  hashCode_eq a b same := by rw [eq_of_beq same]

def single : HashTable UInt8 UInt8 := (HashTable.init 0 .threeQuarters 0).perform (.put 1 10) |>.2

theorem single_valid : single.Valid :=
  ((HashTable.valid_init 0 .threeQuarters 0).perform (.put 1 10)).2.valid

theorem moves_safe_lookups :
    (∃ htable, moveAssign (ofTable single) (ofTable single) = .ok (ofTable single, htable) ∧
        Answers call HashTable.call htable (HashTable.init 0 .threeQuarters 0)
          [.op (.get 1), .size, .iterate]) ∧
      Answers call HashTable.call (moveConstruct (ofTable single)).1 single
        [.op (.put 2 20), .op (.get 1), .iterate] := by
  obtain ⟨_, _, this, htable, assigned, -, left⟩ :=
    moves_safe_iff single_valid single [.op (.get 1), .size, .iterate]
  have moved := (moves_safe_iff single_valid single
    [.op (.put 2 20), .op (.get 1), .iterate]).1
  cases assigned
  exact ⟨⟨_, rfl, left.mpr (.inr (by decide))⟩, moved⟩

theorem moved_table_null :
    call (.op (.get 1)) (moveConstruct (ofTable single)).2 =
        .error .null (moveConstruct (ofTable single)).2 ∧
      call .size (moveConstruct (ofTable single)).2 =
        .ok (.size 1) (moveConstruct (ofTable single)).2 ∧
      ∃ this htable, moveAssign (ofTable single) (ofTable single) = .ok (this, htable) ∧
        htable.tableLength = 5 ∧ call (.op (.put 2 20)) htable = .error .null htable :=
  ⟨rfl, rfl, _, _, rfl, rfl, rfl⟩

end Bytes

end RawTable

end Engine3
