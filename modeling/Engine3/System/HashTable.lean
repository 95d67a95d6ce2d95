import Engine3.Library.Keyed
import Engine3.Library.Machine
import Engine3.Library.MachineInt
import Engine3.System.Stream

/-!
# Hash tables

`system/util/HashTable`: an array of chains, each entry in the chain its hash code selects.
A table that is full for its load factor is rebuilt with a little more than twice the buckets,
by relinking the entries it has.

Capacities are those of a table that never reaches `2 ^ 30` buckets, so that the doubled one is
still an `int`.
-/
namespace Engine3

open Bytes MachineInt Keyed Machine

class HashCode (K : Type) where
  hashCode : K → Int32

/-- Equal keys have equal hash codes. -/
class LawfulHashCode (K : Type) [BEq K] [HashCode K] : Prop where
  hashCode_eq : ∀ a b : K, (a == b) = true → HashCode.hashCode a = HashCode.hashCode b

structure LoadFactor where
  threshold : Nat → Int
  threshold_zero : threshold 0 = 0
  threshold_le : ∀ capacity, threshold capacity ≤ capacity

def LoadFactor.threeQuarters : LoadFactor where
  threshold capacity := (capacity * 3 / 4 : Nat)
  threshold_zero := rfl
  threshold_le capacity := by omega

structure Entry (K V : Type) where
  hash : Int32
  key : K
  value : V
  deriving DecidableEq, Repr

structure HashTable (K V : Type) where
  table : List (List (Entry K V))
  count : Nat
  threshold : Int
  loadFactor : LoadFactor
  nullValue : V

namespace HashTable

variable {K V : Type}

section Operations

variable [BEq K] [HashCode K]

def init (initialCapacity : Nat) (loadFactor : LoadFactor) (nullValue : V) : HashTable K V :=
  { table := List.replicate initialCapacity []
    count := 0
    threshold := loadFactor.threshold initialCapacity
    loadFactor
    nullValue }

def tableLength (t : HashTable K V) : Nat := t.table.length

def size (t : HashTable K V) : Nat := t.count

def index (hashCode : Int32) (tableLength : Nat) : Nat :=
  (hashCode.toUInt32 &&& 0x7FFFFFFF).toNat % tableLength

def chain (t : HashTable K V) (hashCode : Int32) : List (Entry K V) :=
  (t.table[index hashCode t.tableLength]?).getD []

def setChain (t : HashTable K V) (hashCode : Int32) (c : List (Entry K V)) : HashTable K V :=
  { t with table := t.table.set (index hashCode t.tableLength) c }

def isEntryOf (hashCode : Int32) (key : K) (e : Entry K V) : Bool :=
  e.hash == hashCode && e.key == key

def alter (hashCode : Int32) (key : K) (f : Entry K V → List (Entry K V)) :
    List (Entry K V) → Option (Entry K V × List (Entry K V))
  | [] => none
  | e :: next =>
    if isEntryOf hashCode key e then some (e, f e ++ next)
    else (alter hashCode key f next).map fun found => (found.1, e :: found.2)

def relink (newCapacity : Nat) (newMap : List (List (Entry K V))) (e : Entry K V) :
    List (List (Entry K V)) :=
  newMap.modify (index e.hash newCapacity) (e :: ·)

def rehash (t : HashTable K V) : HashTable K V :=
  let newCapacity := max 5 (t.tableLength * 2 + 1)
  { t with
    threshold := t.loadFactor.threshold newCapacity
    table := t.table.reverse.foldl (fun newMap chain => chain.foldl (relink newCapacity) newMap)
      (List.replicate newCapacity []) }

def put (key : K) (value : V) (t : HashTable K V) : V × HashTable K V :=
  let hashCode := HashCode.hashCode key
  match if t.tableLength ≠ 0 then
      alter hashCode key (fun e => [{ e with value }]) (t.chain hashCode)
    else none with
  | some (e, c) => (e.value, t.setChain hashCode c)
  | none =>
    let grown := if (t.count : Int) ≥ t.threshold then t.rehash else t
    (t.nullValue,
      { grown.setChain hashCode (⟨hashCode, key, value⟩ :: grown.chain hashCode) with
        count := t.count + 1 })

def getEntry (key : K) (t : HashTable K V) : Option (Entry K V) :=
  if t.count = 0 then none
  else (t.chain (HashCode.hashCode key)).find? (isEntryOf (HashCode.hashCode key) key)

def get (key : K) (t : HashTable K V) : V := ((t.getEntry key).map Entry.value).getD t.nullValue

def containsKey (key : K) (t : HashTable K V) : Bool := (t.getEntry key).isSome

def remove (key : K) (t : HashTable K V) : V × HashTable K V :=
  if t.count = 0 then (t.nullValue, t)
  else
    let hashCode := HashCode.hashCode key
    match alter hashCode key (fun _ => []) (t.chain hashCode) with
    | some (e, c) => (e.value, { t.setChain hashCode c with count := t.count - 1 })
    | none => (t.nullValue, t)

def removeAll (t : HashTable K V) : HashTable K V :=
  if t.count = 0 then t else { t with table := t.table.map fun _ => [], count := 0 }

structure Iterator (K V : Type) where
  e : List (Entry K V)
  position : Nat
  nextIndex : Nat

def iterator : Iterator K V := { e := [], position := 0, nextIndex := 0 }

def seek : List (List (Entry K V)) → Nat → Except Exception (Entry K V × List (Entry K V) × Nat)
  | [], i => .error (.arrayIndexOutOfBounds i)
  | [] :: buckets, i => seek buckets (i + 1)
  | (e :: next) :: _, i => .ok (e, next, i + 1)

def getNextKeyAndValue (t : HashTable K V) (it : Iterator K V) :
    Except Exception (Entry K V × Iterator K V) :=
  match it.e with
  | e :: next => .ok (e, { it with e := next, position := it.position + 1 })
  | [] => do
    let (e, next, nextIndex) ← seek (t.table.drop it.nextIndex) it.nextIndex
    return (e, { e := next, position := it.position + 1, nextIndex })

def hasNext (t : HashTable K V) (it : Iterator K V) : Bool := it.position < t.size

def iterate (t : HashTable K V) : Nat → Iterator K V → Except Exception (List (Entry K V))
  | 0, it => if hasNext t it then .error (.abort "out of fuel") else .ok []
  | fuel + 1, it =>
    if hasNext t it then do
      let (e, it) ← t.getNextKeyAndValue it
      let later ← iterate t fuel it
      return e :: later
    else .ok []

/-! ### Serialization -/

structure BinaryCodec (α : Type) where
  toBinaryStream : α → List UInt8
  parseFromBinaryStream : List UInt8 → Option α × List UInt8
  parse_toBinaryStream : ∀ a rest, parseFromBinaryStream (toBinaryStream a ++ rest) = (some a, rest)

def toBinaryStream (keys : BinaryCodec K) (values : BinaryCodec V) (t : HashTable K V) :
    Except Exception (List UInt8) := do
  let visited ← t.iterate t.size iterator
  return leBytes 4 t.size ++
    visited.flatMap fun e => keys.toBinaryStream e.key ++ values.toBinaryStream e.value

def parseEntries (keys : BinaryCodec K) (values : BinaryCodec V) :
    Nat → List UInt8 → HashTable K V → HashTable K V × List UInt8
  | 0, stream, t => (t, stream)
  | size + 1, stream, t =>
    match keys.parseFromBinaryStream stream with
    | (none, stream) => parseEntries keys values size stream t
    | (some key, stream) =>
      match values.parseFromBinaryStream stream with
      | (none, stream) => parseEntries keys values size stream t
      | (some value, stream) => parseEntries keys values size stream (t.put key value).2

def parseFromBinaryStream (keys : BinaryCodec K) (values : BinaryCodec V) (stream : List UInt8)
    (t : HashTable K V) : Except Exception (HashTable K V × List UInt8) :=
  let t := t.removeAll
  if stream.length < 4 then .error (.streamIndexOutOfBounds 4)
  else
    let size := i32 (leNat (stream.take 4))
    .ok (parseEntries keys values size.toNat (stream.drop 4) t)

end Operations

theorem alter_cases [BEq K] (hashCode : Int32) (key : K) (f : Entry K V → List (Entry K V))
    (c : List (Entry K V)) :
    (alter hashCode key f c = none ∧ ∀ e ∈ c, isEntryOf hashCode key e = false) ∨
      ∃ front e back, c = front ++ e :: back ∧ isEntryOf hashCode key e = true ∧
        alter hashCode key f c = some (e, front ++ f e ++ back) := by
  induction c with
  | nil => exact .inl ⟨rfl, by simp⟩
  | cons e next ih =>
    cases found : isEntryOf hashCode key e with
    | true => exact .inr ⟨[], e, next, rfl, found, by simp [alter, found]⟩
    | false =>
      rcases ih with ⟨none, others⟩ | ⟨front, e', back, rfl, found', some⟩
      · left
        exact ⟨by simp [alter, found, none], List.forall_mem_cons.mpr ⟨found, others⟩⟩
      · right
        exact ⟨e :: front, e', back, rfl, found', by simp [alter, found, some]⟩

/-! ### The entries and where they are -/

def entries (t : HashTable K V) : List (Entry K V) := t.table.flatten

section Placement

variable [HashCode K]

def Placed (table : List (List (Entry K V))) : Prop :=
  ∀ i c, table[i]? = some c → ∀ e ∈ c,
    e.hash = HashCode.hashCode e.key ∧ index e.hash table.length = i

theorem index_lt (hashCode : Int32) (tableLength : Nat) (pos : 0 < tableLength) :
    index hashCode tableLength < tableLength :=
  Nat.mod_lt _ pos

theorem placed_replicate (n : Nat) : Placed (List.replicate n ([] : List (Entry K V))) := by
  intro i c bucket e mem
  have empty : c = [] := List.eq_of_mem_replicate (List.mem_of_getElem? bucket)
  simp [empty] at mem

theorem Placed.hashed {table : List (List (Entry K V))} (placed : Placed table) (e : Entry K V)
    (mem : e ∈ table.flatten) : e.hash = HashCode.hashCode e.key := by
  obtain ⟨c, chosen, inChain⟩ := List.mem_flatten.mp mem
  obtain ⟨i, bucket⟩ := List.getElem?_of_mem chosen
  exact (placed i c bucket e inChain).1

variable {t : HashTable K V}

theorem Placed.chain (placed : Placed t.table) (hashCode : Int32) (e : Entry K V)
    (mem : e ∈ t.chain hashCode) :
    e.hash = HashCode.hashCode e.key ∧
      index e.hash t.tableLength = index hashCode t.tableLength := by
  unfold HashTable.chain at mem
  cases bucket : t.table[index hashCode t.tableLength]? with
  | none => simp [bucket] at mem
  | some c =>
    rw [bucket] at mem
    exact placed _ c bucket e mem

theorem Placed.setChain (placed : Placed t.table) (hashCode : Int32) (c : List (Entry K V))
    (fits : ∀ e ∈ c, e.hash = HashCode.hashCode e.key ∧
      index e.hash t.tableLength = index hashCode t.tableLength) :
    Placed (t.setChain hashCode c).table := by
  intro i c' bucket e mem
  simp only [HashTable.setChain, List.getElem?_set, List.length_set] at bucket ⊢
  split at bucket
  next same =>
    split at bucket
    · cases bucket
      exact ⟨(fits e mem).1, (fits e mem).2.trans same⟩
    · contradiction
  next => exact placed i c' bucket e mem

theorem entries_split (hashCode : Int32) (pos : 0 < t.tableLength) (placed : Placed t.table) :
    ∃ front back, t.entries = front ++ t.chain hashCode ++ back ∧
      (∀ c, (t.setChain hashCode c).entries = front ++ c ++ back) ∧
      ∀ e ∈ front ++ back, e.hash = HashCode.hashCode e.key ∧ e.hash ≠ hashCode := by
  have hin := index_lt hashCode t.tableLength pos
  generalize hpos : index hashCode t.tableLength = i at hin
  have inTable : i < t.table.length := hin
  refine ⟨(t.table.take i).flatten, (t.table.drop (i + 1)).flatten, ?_, ?_, ?_⟩
  · have here : t.chain hashCode = t.table[i] := by simp [chain, hpos, inTable]
    rw [here, entries, List.append_assoc, ← List.flatten_cons, ← List.flatten_append,
      List.getElem_cons_drop, List.take_append_drop]
  · intro c
    simp [entries, setChain, hpos, List.set_eq_take_append_cons_drop, inTable]
  · intro e mem
    -- the entry is in another bucket, so its hash code selects another one
    obtain ⟨j, ne, c, bucket, inChain⟩ :
        ∃ j, j ≠ i ∧ ∃ c, t.table[j]? = some c ∧ e ∈ c := by
      rcases List.mem_append.mp mem with before | behind
      · obtain ⟨c, chosen, inChain⟩ := List.mem_flatten.mp before
        obtain ⟨j, lt, rfl⟩ := List.mem_take_iff_getElem.mp chosen
        exact ⟨j, by omega, _, List.getElem?_eq_getElem (by omega), inChain⟩
      · obtain ⟨c, chosen, inChain⟩ := List.mem_flatten.mp behind
        obtain ⟨j, lt, rfl⟩ := List.mem_drop_iff_getElem.mp chosen
        exact ⟨i + 1 + j, by omega, _, List.getElem?_eq_getElem (by omega), inChain⟩
    obtain ⟨hashed, selected⟩ := placed j c bucket e inChain
    refine ⟨hashed, ?_⟩
    rintro rfl
    exact ne (selected.symm.trans hpos)

/-! ### Rehashing keeps the entries -/

omit [HashCode K] in
theorem flatten_relink (n : Nat) (pos : 0 < n) (newMap : List (List (Entry K V)))
    (len : newMap.length = n) (e : Entry K V) :
    (relink n newMap e).flatten.Perm (e :: newMap.flatten) := by
  have hin : index e.hash n < newMap.length := len ▸ index_lt e.hash n pos
  unfold relink
  generalize index e.hash n = i at hin
  have whole : newMap.flatten =
      (newMap.take i).flatten ++ (newMap[i] ++ (newMap.drop (i + 1)).flatten) := by
    rw [← List.flatten_cons, ← List.flatten_append, List.getElem_cons_drop, List.take_append_drop]
  rw [List.modify_eq_take_cons_drop hin, List.flatten_append, List.flatten_cons, whole,
    List.cons_append]
  exact List.perm_middle

theorem Placed.relink {newMap : List (List (Entry K V))} (placed : Placed newMap) (e : Entry K V)
    (hashed : e.hash = HashCode.hashCode e.key) : Placed (relink newMap.length newMap e) := by
  intro i c bucket e' mem
  simp only [HashTable.relink, List.getElem?_modify, List.length_modify] at bucket ⊢
  split at bucket
  next eq =>
    obtain ⟨c', old, rfl⟩ := Option.map_eq_some_iff.mp bucket
    rcases List.mem_cons.mp mem with rfl | mem
    · exact ⟨hashed, eq⟩
    · exact placed i c' old e' mem
  next => exact placed i c (by simpa using bucket) e' mem

theorem foldl_relink (n : Nat) (pos : 0 < n) (es : List (Entry K V))
    (hashed : ∀ e ∈ es, e.hash = HashCode.hashCode e.key) (newMap : List (List (Entry K V)))
    (len : newMap.length = n) (placed : Placed newMap) :
    (es.foldl (relink n) newMap).length = n ∧ Placed (es.foldl (relink n) newMap) ∧
      (es.foldl (relink n) newMap).flatten.Perm (es ++ newMap.flatten) := by
  induction es generalizing newMap with
  | nil => exact ⟨len, placed, .refl _⟩
  | cons e es ih =>
    obtain ⟨fst, hashed⟩ := List.forall_mem_cons.mp hashed
    have placed' : Placed (relink n newMap e) := len ▸ placed.relink e fst
    obtain ⟨len'', placed'', perm⟩ :=
      ih hashed (relink n newMap e) (by simpa [relink] using len) placed'
    refine ⟨len'', placed'', perm.trans ?_⟩
    have moved := (flatten_relink n pos newMap len e).append_left es
    exact moved.trans List.perm_middle

theorem rehash_spec (placed : Placed t.table) :
    t.rehash.tableLength = max 5 (t.tableLength * 2 + 1) ∧ Placed t.rehash.table ∧
      t.rehash.entries.Perm t.entries := by
  have pos : 0 < max 5 (t.tableLength * 2 + 1) := by omega
  have reversed : t.table.reverse.flatten.Perm t.table.flatten := t.table.reverse_perm.flatten
  obtain ⟨len, placed', perm⟩ := foldl_relink _ pos t.table.reverse.flatten
    (fun e mem => placed.hashed e (reversed.mem_iff.mp mem))
    (List.replicate (max 5 (t.tableLength * 2 + 1)) []) (List.length_replicate ..)
    (placed_replicate _)
  rw [List.foldl_flatten] at len placed' perm
  refine ⟨len, placed', perm.trans ?_⟩
  simpa [entries] using reversed

end Placement

/-! ### The map a table stands for -/

section Maps

variable [BEq K] [HashCode K]

def toMap (t : HashTable K V) : K → Option V := fun k =>
  (lookup Entry.key t.entries k).map Entry.value

/-- Every entry is in the bucket of its hash, under a key of its own, and is counted. -/
structure Valid (t : HashTable K V) : Prop where
  count : t.count = t.entries.length
  placed : Placed t.table
  distinct : Distinct Entry.key t.entries
  bound : t.count ≤ t.tableLength
  threshold : t.threshold = t.loadFactor.threshold t.tableLength

theorem valid_init (initialCapacity : Nat) (loadFactor : LoadFactor) (nullValue : V) :
    (init initialCapacity loadFactor nullValue : HashTable K V).Valid where
  count := by simp [entries, init]
  placed := placed_replicate initialCapacity
  distinct := by simp [entries, init, Distinct]
  bound := Nat.zero_le _
  threshold := by simp [init, tableLength]

theorem Valid.setChain {t : HashTable K V} (placed : Placed t.table)
    (threshold : t.threshold = t.loadFactor.threshold t.tableLength) (hashCode : Int32)
    (c : List (Entry K V))
    (fits : ∀ e ∈ c, e.hash = HashCode.hashCode e.key ∧
      index e.hash t.tableLength = index hashCode t.tableLength)
    (nodup : Distinct Entry.key (t.setChain hashCode c).entries) (n : Nat)
    (counted : n = (t.setChain hashCode c).entries.length) (bounds : n ≤ t.tableLength) :
    Valid { t.setChain hashCode c with count := n } where
  count := counted
  placed := placed.setChain hashCode c fits
  distinct := nodup
  bound := by simpa [HashTable.setChain, tableLength] using bounds
  threshold := by simpa [HashTable.setChain, tableLength] using threshold

section Hashed

variable [LawfulHashCode K]

theorem isEntryOf_eq (key : K) {e : Entry K V} (hashed : e.hash = HashCode.hashCode e.key) :
    isEntryOf (HashCode.hashCode key) key e = (e.key == key) := by
  unfold isEntryOf
  cases eq : e.key == key with
  | false => simp
  | true => simp [hashed, LawfulHashCode.hashCode_eq e.key key eq]

theorem lookup_elsewhere (key : K) (l : List (Entry K V))
    (ne : ∀ e ∈ l, e.hash = HashCode.hashCode e.key ∧ e.hash ≠ HashCode.hashCode key) :
    lookup Entry.key l key = none := by
  rw [lookup_eq_none_iff]
  intro e mem
  obtain ⟨hashed, different⟩ := ne e mem
  cases eq : e.key == key with
  | false => rfl
  | true => exact absurd (hashed.trans (LawfulHashCode.hashCode_eq e.key key eq)) different

variable {t : HashTable K V}

theorem find_chain (key : K) (pos : 0 < t.tableLength) (placed : Placed t.table) :
    (t.chain (HashCode.hashCode key)).find? (isEntryOf (HashCode.hashCode key) key) =
      lookup Entry.key t.entries key := by
  obtain ⟨front, back, whole, -, elsewhere⟩ :=
    entries_split (HashCode.hashCode key) pos placed
  have before : lookup Entry.key front key = none :=
    lookup_elsewhere key front fun e mem => elsewhere e (List.mem_append_left back mem)
  have behind : lookup Entry.key back key = none :=
    lookup_elsewhere key back fun e mem => elsewhere e (List.mem_append_right front mem)
  rw [whole, lookup_append, lookup_append, before, behind, Option.or_none, Option.none_or]
  apply find?_eq_lookup
  intro e mem
  exact isEntryOf_eq key (placed.chain _ e mem).1

theorem Valid.getEntry (valid : t.Valid) (key : K) :
    t.getEntry key = lookup Entry.key t.entries key := by
  unfold HashTable.getEntry
  split
  next none =>
    have empty : t.entries = [] := List.length_eq_zero_iff.mp (valid.count.symm.trans none)
    rw [empty, lookup_nil]
  next some =>
    have bound := valid.bound
    exact find_chain key (by omega) valid.placed

theorem Valid.get (valid : t.Valid) (key : K) :
    t.get key = (t.toMap key).getD t.nullValue := by
  rw [HashTable.get, valid.getEntry]
  rfl

theorem Valid.containsKey (valid : t.Valid) (key : K) :
    t.containsKey key = (t.toMap key).isSome := by
  simp [HashTable.containsKey, valid.getEntry, toMap]

end Hashed

/-! ### Changing a table -/

structure Changes (t t' : HashTable K V) (m : K → Option V) : Prop where
  valid : t'.Valid
  map : t'.toMap = m
  nullValue : t'.nullValue = t.nullValue

variable {t : HashTable K V}

omit [BEq K] in
theorem entries_found {hashCode : Int32} (pos : 0 < t.tableLength) (placed : Placed t.table)
    {front back : List (Entry K V)} {e : Entry K V}
    (found : t.chain hashCode = front ++ e :: back) :
    ∃ before behind, t.entries = before ++ e :: behind ∧
      ∀ c, (t.setChain hashCode (front ++ c ++ back)).entries = before ++ c ++ behind := by
  obtain ⟨before, behind, whole, changed, -⟩ := entries_split hashCode pos placed
  refine ⟨before ++ front, back ++ behind, ?_, fun c => ?_⟩
  · rw [whole, found]
    simp
  · rw [changed]
    simp

variable [EquivBEq K]

theorem Valid.assign (valid : t.Valid) (key : K) (value : V) (front back : List (Entry K V))
    (e : Entry K V) (eq : (e.key == key) = true) (pos : 0 < t.tableLength)
    (found : t.chain (HashCode.hashCode key) = front ++ e :: back) :
    Changes t (t.setChain (HashCode.hashCode key) (front ++ [{ e with value }] ++ back))
      (store t.toMap key value) ∧ t.toMap key = some e.value := by
  -- the chain is a stretch of the list of all entries, so the rest of them stays
  obtain ⟨before, behind, old, changed⟩ :=
    entries_found pos valid.placed found
  have new := changed [{ e with value }]
  rw [List.append_assoc before, List.singleton_append] at new
  have nodup := old ▸ valid.distinct
  have fits := valid.placed.chain (HashCode.hashCode key)
  rw [found] at fits
  constructor
  · constructor
    · apply Valid.setChain valid.placed valid.threshold
      · intro e' mem
        simp only [List.append_assoc, List.singleton_append, List.mem_append, List.mem_cons]
          at mem
        rcases mem with mem | rfl | mem
        · exact fits e' (by simp [mem])
        · exact fits e (by simp)
        · exact fits e' (by simp [mem])
      · rw [new]
        exact nodup.replace rfl
      · rw [valid.count, new, old]
        simp
      · exact valid.bound
    · funext k
      have replaced := lookup_replace Entry.key nodup { e with value } rfl k
      simp only [toMap, store, new, replaced, ← BEq.congr_left eq, old]
      split <;> rfl
    · rfl
  · simp only [toMap, old, lookup_middle Entry.key nodup eq, Option.map_some]

theorem Valid.unlink (valid : t.Valid) (key : K) (front back : List (Entry K V)) (e : Entry K V)
    (eq : (e.key == key) = true) (pos : 0 < t.tableLength)
    (found : t.chain (HashCode.hashCode key) = front ++ e :: back) :
    Changes t { t.setChain (HashCode.hashCode key) (front ++ [] ++ back) with count := t.count - 1 }
      (forget t.toMap key) ∧ t.toMap key = some e.value := by
  obtain ⟨before, behind, old, changed⟩ :=
    entries_found pos valid.placed found
  have new := changed []
  rw [List.append_nil before] at new
  have nodup := old ▸ valid.distinct
  have fits := valid.placed.chain (HashCode.hashCode key)
  rw [found] at fits
  have bound := valid.bound
  constructor
  · constructor
    · apply Valid.setChain valid.placed valid.threshold
      · intro e' mem
        apply fits e'
        simp only [List.append_nil, List.mem_append] at mem
        rcases mem with mem | mem <;> simp [mem]
      · rw [new]
        apply List.Pairwise.sublist _ nodup
        exact (List.sublist_cons_self e _).append_left _
      · rw [valid.count, new, old]
        simp only [List.length_append, List.length_cons]
        omega
      · omega
    · funext k
      have removed := lookup_remove Entry.key nodup k
      have entries : ({ t.setChain (HashCode.hashCode key) (front ++ [] ++ back) with
        count := t.count - 1 } : HashTable K V).entries = _ := new
      simp only [toMap, forget, entries, removed, ← BEq.congr_left eq, old]
      split <;> rfl
    · rfl
  · simp only [toMap, old, lookup_middle Entry.key nodup eq, Option.map_some]

theorem Valid.add (placed : Placed t.table)
    (threshold : t.threshold = t.loadFactor.threshold t.tableLength)
    (nodup : Distinct Entry.key t.entries) (key : K) (value : V)
    (absent : lookup Entry.key t.entries key = none) (room : t.entries.length < t.tableLength) :
    Changes t { t.setChain (HashCode.hashCode key)
        (⟨HashCode.hashCode key, key, value⟩ :: t.chain (HashCode.hashCode key)) with
        count := t.entries.length + 1 } (store t.toMap key value) := by
  obtain ⟨before, behind, whole, changed, -⟩ :=
    entries_split (HashCode.hashCode key) (by omega) placed
  -- the new entry goes to the head of its chain, not of the table
  have perm : (t.setChain (HashCode.hashCode key)
      (⟨HashCode.hashCode key, key, value⟩ :: t.chain (HashCode.hashCode key))).entries.Perm
      (⟨HashCode.hashCode key, key, value⟩ :: t.entries) := by
    rw [changed, whole]
    simp only [List.append_assoc, List.cons_append]
    exact List.perm_middle
  have nodup' := (Distinct.cons nodup (a := ⟨HashCode.hashCode key, key, value⟩) absent)
  constructor
  · apply Valid.setChain placed threshold
    · intro e mem
      rcases List.mem_cons.mp mem with rfl | mem
      · exact ⟨rfl, rfl⟩
      · exact placed.chain _ e mem
    · exact nodup'.perm perm.symm
    · rw [perm.length_eq]
      rfl
    · omega
  · funext k
    have looked := lookup_perm Entry.key nodup' perm.symm k
    rw [lookup_cons] at looked
    simp only [toMap, store]
    change (lookup Entry.key (t.setChain _ _).entries k).map Entry.value = _
    rw [← looked]
    split <;> rfl
  · rfl

theorem Valid.put_absent (valid : t.Valid) (key : K) (value : V)
    (absent : lookup Entry.key t.entries key = none) (grown : HashTable K V)
    (choice : grown = if (t.count : Int) ≥ t.threshold then t.rehash else t) :
    Changes t { grown.setChain (HashCode.hashCode key)
        (⟨HashCode.hashCode key, key, value⟩ :: grown.chain (HashCode.hashCode key)) with
        count := t.count + 1 } (store t.toMap key value) := by
  have bound := valid.bound
  split at choice
  next full =>
    rw [choice]
    obtain ⟨len, placed, perm⟩ := rehash_spec valid.placed
    have nodup := valid.distinct.perm perm.symm
    have eq (k : K) : lookup Entry.key t.rehash.entries k = lookup Entry.key t.entries k :=
      lookup_perm Entry.key nodup perm k
    have counted : t.count = t.rehash.entries.length := by rw [perm.length_eq, valid.count]
    have added := Valid.add (t := t.rehash) placed (by rw [len]; rfl) nodup key value
      (by rw [eq, absent]) (by rw [← counted, len]; omega)
    have map : t.rehash.toMap = t.toMap := by
      funext k
      simp only [toMap, eq]
    rw [counted]
    exact ⟨added.valid, added.map.trans (by rw [map]), rfl⟩
  next room =>
    rw [choice]
    have limit := t.loadFactor.threshold_le t.tableLength
    rw [valid.threshold] at room
    rw [valid.count]
    apply Valid.add valid.placed valid.threshold valid.distinct key value absent
    rw [← valid.count]
    omega

variable [LawfulHashCode K]

theorem Valid.put (valid : t.Valid) (key : K) (value : V) :
    Changes t (t.put key value).2 (store t.toMap key value) ∧
      (t.put key value).1 = (t.toMap key).getD t.nullValue := by
  unfold HashTable.put
  have missing (absent : lookup Entry.key t.entries key = none) :
      t.nullValue = (t.toMap key).getD t.nullValue := by
    simp [toMap, absent]
  by_cases none : t.tableLength = 0
  · -- without a table there is nothing to search, and the threshold is zero
    have bound := valid.bound
    have empty : t.entries = [] := by
      rw [← List.length_eq_zero_iff, ← valid.count]
      omega
    have absent : lookup Entry.key t.entries key = Option.none := by rw [empty, lookup_nil]
    simp only [none, ne_eq, not_true_eq_false, if_false]
    exact ⟨valid.put_absent key value absent _ rfl, missing absent⟩
  · simp only [ne_eq, none, not_false_eq_true, if_true]
    have pos : 0 < t.tableLength := by omega
    rcases alter_cases (HashCode.hashCode key) key (fun e => [{ e with value }])
      (t.chain (HashCode.hashCode key)) with ⟨search, others⟩ | ⟨front, e, back, found, is, search⟩
    · have absent : lookup Entry.key t.entries key = Option.none := by
        rw [← find_chain key pos valid.placed]
        simpa using others
      rw [search]
      exact ⟨valid.put_absent key value absent _ rfl, missing absent⟩
    · have hashed := (valid.placed.chain (HashCode.hashCode key) e (by simp [found])).1
      rw [isEntryOf_eq key hashed] at is
      obtain ⟨changes, old⟩ := valid.assign key value front back e is pos found
      rw [search]
      exact ⟨changes, by simp [old]⟩

theorem Valid.remove (valid : t.Valid) (key : K) :
    Changes t (t.remove key).2 (forget t.toMap key) ∧
      (t.remove key).1 = (t.toMap key).getD t.nullValue := by
  -- nothing to remove, in an empty table or after a search
  have missing (absent : lookup Entry.key t.entries key = none) :
      Changes t t (forget t.toMap key) ∧ t.nullValue = (t.toMap key).getD t.nullValue := by
    refine ⟨⟨valid, ?_, rfl⟩, by simp [toMap, absent]⟩
    funext k
    simp only [forget, toMap]
    split
    next same => rw [← lookup_congr Entry.key _ same, absent, Option.map_none]
    next => rfl
  unfold HashTable.remove
  split
  next none =>
    have empty : t.entries = [] := List.length_eq_zero_iff.mp (valid.count.symm.trans none)
    exact missing (by rw [empty, lookup_nil])
  next some =>
    have bound := valid.bound
    have pos : 0 < t.tableLength := by omega
    rcases alter_cases (HashCode.hashCode key) key (fun _ => [])
      (t.chain (HashCode.hashCode key)) with ⟨search, others⟩ | ⟨front, e, back, found, is, search⟩
    · simp only [search]
      apply missing
      rw [← find_chain key pos valid.placed]
      simpa using others
    · have hashed := (valid.placed.chain (HashCode.hashCode key) e (by simp [found])).1
      rw [isEntryOf_eq key hashed] at is
      obtain ⟨changes, old⟩ := valid.unlink key front back e is pos found
      simp only [search]
      exact ⟨changes, by simp [old]⟩

omit [EquivBEq K] [LawfulHashCode K] in
theorem Valid.removeAll (valid : t.Valid) :
    Changes t t.removeAll (fun _ => none) := by
  unfold HashTable.removeAll
  split
  next none =>
    have empty : t.entries = [] := List.length_eq_zero_iff.mp (valid.count.symm.trans none)
    exact ⟨valid, by funext k; simp [toMap, empty], rfl⟩
  next =>
    have blank : (t.table.map fun _ => ([] : List (Entry K V))) =
        List.replicate t.tableLength [] := List.map_const'
    rw [blank]
    refine ⟨⟨by simp [entries], placed_replicate _, by simp [entries, Distinct], Nat.zero_le _, ?_⟩,
      by funext k; simp [toMap, entries], rfl⟩
    simpa [tableLength] using valid.threshold

end Maps

/-! ### Iterating -/

def Iterator.remaining (it : Iterator K V) (t : HashTable K V) : List (Entry K V) :=
  it.e ++ (t.table.drop it.nextIndex).flatten

variable {e : Entry K V} {later : List (Entry K V)} {t : HashTable K V}

theorem seek_spec {buckets : List (List (Entry K V))} (i : Nat)
    (some : buckets.flatten = e :: later) :
    ∃ next k, seek buckets i = .ok (e, next, i + k) ∧ next ++ (buckets.drop k).flatten = later := by
  induction buckets generalizing i with
  | nil => simp at some
  | cons bucket buckets ih =>
    cases bucket with
    | nil =>
      obtain ⟨next, k, sought, eq⟩ := ih (i + 1) (by simpa using some)
      exact ⟨next, k + 1, by rw [seek, sought]; congr 3; omega, eq⟩
    | cons e' next =>
      simp only [List.flatten_cons, List.cons_append, List.cons.injEq] at some
      obtain ⟨rfl, eq⟩ := some
      exact ⟨next, 1, rfl, eq⟩

theorem getNextKeyAndValue_spec {it : Iterator K V} (some : it.remaining t = e :: later) :
    ∃ it', t.getNextKeyAndValue it = .ok (e, it') ∧ it'.remaining t = later ∧
      it'.position = it.position + 1 := by
  unfold Iterator.remaining at some
  unfold getNextKeyAndValue
  cases here : it.e with
  | cons e' next =>
    rw [here, List.cons_append] at some
    obtain ⟨rfl, eq⟩ := List.cons.inj some
    exact ⟨_, rfl, eq, rfl⟩
  | nil =>
    rw [here, List.nil_append] at some
    obtain ⟨next, k, sought, eq⟩ := seek_spec it.nextIndex some
    refine ⟨{ e := next, position := it.position + 1, nextIndex := it.nextIndex + k }, ?_, ?_, rfl⟩
    · simp only [sought]
      rfl
    · simpa [Iterator.remaining] using eq

theorem hasNext_eq_false {it : Iterator K V}
    (count : it.position + (it.remaining t).length = t.size) (none : it.remaining t = []) :
    hasNext t it = false := by
  rw [none, List.length_nil] at count
  simp only [hasNext, decide_eq_false_iff_not]
  omega

theorem iterate_spec (t : HashTable K V) (fuel : Nat) (it : Iterator K V)
    (count : it.position + (it.remaining t).length = t.size)
    (le : (it.remaining t).length ≤ fuel) : t.iterate fuel it = .ok (it.remaining t) := by
  induction fuel generalizing it with
  | zero =>
    have none := List.length_eq_zero_iff.mp (Nat.le_zero.mp le)
    simp [iterate, hasNext_eq_false count none, none]
  | succ fuel ih =>
    cases left : it.remaining t with
    | nil => simp [iterate, hasNext_eq_false count left]
    | cons e later =>
      rw [left, List.length_cons] at count le
      obtain ⟨it', got, rest, position⟩ := getNextKeyAndValue_spec left
      have more : hasNext t it = true := by
        simp only [hasNext, decide_eq_true_eq]
        omega
      have visited := ih it' (by rw [rest, position]; omega) (by rw [rest]; omega)
      rw [rest] at visited
      simp only [iterate, more, if_true, got]
      change (t.iterate fuel it' >>= fun later => pure (e :: later)) = _
      rw [visited]
      rfl

theorem Valid.iterate [BEq K] [HashCode K] (valid : t.Valid) {fuel : Nat} (le : t.size ≤ fuel) :
    t.iterate fuel iterator = .ok t.entries := by
  have all : (iterator : Iterator K V).remaining t = t.entries := by
    simp [Iterator.remaining, iterator, entries]
  have count : t.size = t.entries.length := valid.count
  have visited := iterate_spec t fuel iterator (by rw [all, count]; simp [iterator])
    (by rwa [all, ← count])
  rwa [all] at visited

/-! ### Serializing -/

section Serialization

variable [BEq K] [HashCode K] [EquivBEq K] [LawfulHashCode K]

def entryBytes (keys : BinaryCodec K) (values : BinaryCodec V) (e : Entry K V) : List UInt8 :=
  keys.toBinaryStream e.key ++ values.toBinaryStream e.value

theorem parseEntries_spec (keys : BinaryCodec K) (values : BinaryCodec V) (es : List (Entry K V))
    (nodup : Distinct Entry.key es) (rest : List UInt8) (t : HashTable K V) (valid : t.Valid) :
    ∃ t', parseEntries keys values es.length (es.flatMap (entryBytes keys values) ++ rest) t =
        (t', rest) ∧ t'.Valid ∧
      ∀ k, t'.toMap k = ((lookup Entry.key es k).map Entry.value).or (t.toMap k) := by
  induction es generalizing t with
  | nil => exact ⟨t, rfl, valid, fun k => by simp⟩
  | cons e es ih =>
    obtain ⟨ne, nodup⟩ := List.pairwise_cons.mp nodup
    obtain ⟨changes, -⟩ := valid.put e.key e.value
    obtain ⟨t', parsed, valid', looked⟩ := ih nodup (t.put e.key e.value).2 changes.valid
    refine ⟨t', ?_, valid', fun k => ?_⟩
    · simp only [List.flatMap_cons, List.length_cons, entryBytes, List.append_assoc, parseEntries,
        keys.parse_toBinaryStream, values.parse_toBinaryStream]
      exact parsed
    · rw [looked k, changes.map, lookup_cons, store]
      -- a later entry never has the key again
      cases eq : e.key == k with
      | false => simp
      | true =>
        have last : lookup Entry.key es k = none := by
          rw [← lookup_congr Entry.key es eq, lookup_eq_none_iff]
          intro e' mem
          rw [BEq.comm]
          exact ne e' mem
        simp [last]

theorem Valid.parse_toBinaryStream {t target : HashTable K V} (valid : t.Valid)
    (validTarget : target.Valid) (lt : t.tableLength < 2 ^ 30) (keys : BinaryCodec K)
    (values : BinaryCodec V) (rest : List UInt8) :
    ∃ bytes t', t.toBinaryStream keys values = .ok bytes ∧
      parseFromBinaryStream keys values (bytes ++ rest) target = .ok (t', rest) ∧
      t'.Valid ∧ t'.toMap = t.toMap := by
  have bound := valid.bound
  have counted : t.size = t.entries.length := valid.count
  have fits : t.size < 2 ^ 30 := lt_of_le_of_lt bound lt
  obtain ⟨t', parsed, valid', looked⟩ := parseEntries_spec keys values t.entries valid.distinct rest
    target.removeAll validTarget.removeAll.valid
  refine ⟨leBytes 4 t.size ++ t.entries.flatMap (entryBytes keys values), t', ?_, ?_, valid', ?_⟩
  · unfold toBinaryStream
    rw [valid.iterate le_rfl]
    rfl
  · have width : (leBytes 4 t.size).length = 4 := length_leBytes 4 _
    have size : i32 (leNat (leBytes 4 t.size)) = t.size := by
      rw [leNat_leBytes, Nat.mod_eq_of_lt (by omega), i32_of_small _ (by omega) (by omega)]
    unfold parseFromBinaryStream
    rw [if_neg (by simp), List.append_assoc]
    simp only [List.take_left' width, List.drop_left' width, size, Int.toNat_natCast]
    rw [counted, parsed]
  · funext k
    rw [looked k, validTarget.removeAll.map, Option.or_none]
    rfl

end Serialization

/-! ### Whole runs -/

inductive Op (K V : Type)
  | put (key : K) (value : V)
  | remove (key : K)
  | removeAll
  | get (key : K)
  | containsKey (key : K)

inductive Answer (V : Type)
  | value (v : V)
  | flag (b : Bool)
  | nothing
  deriving DecidableEq

section Runs

variable [BEq K] [HashCode K]

def perform (t : HashTable K V) : Op K V → Answer V × HashTable K V
  | .put key value => (.value (t.put key value).1, (t.put key value).2)
  | .remove key => (.value (t.remove key).1, (t.remove key).2)
  | .removeAll => (.nothing, t.removeAll)
  | .get key => (.value (t.get key), t)
  | .containsKey key => (.flag (t.containsKey key), t)

def performMap (nullValue : V) (m : K → Option V) : Op K V → Answer V × (K → Option V)
  | .put key value => (.value ((m key).getD nullValue), store m key value)
  | .remove key => (.value ((m key).getD nullValue), forget m key)
  | .removeAll => (.nothing, fun _ => none)
  | .get key => (.value ((m key).getD nullValue), m)
  | .containsKey key => (.flag (m key).isSome, m)

variable [EquivBEq K] [LawfulHashCode K]

theorem Valid.perform {t : HashTable K V} (valid : t.Valid) (op : Op K V) :
    (t.perform op).1 = (performMap t.nullValue t.toMap op).1 ∧
      Changes t (t.perform op).2 (performMap t.nullValue t.toMap op).2 := by
  cases op with
  | put key value =>
    obtain ⟨changes, answer⟩ := valid.put key value
    exact ⟨congrArg Answer.value answer, changes⟩
  | remove key =>
    obtain ⟨changes, answer⟩ := valid.remove key
    exact ⟨congrArg Answer.value answer, changes⟩
  | removeAll => exact ⟨rfl, valid.removeAll⟩
  | get key => exact ⟨congrArg Answer.value (valid.get key), valid, rfl, rfl⟩
  | containsKey key => exact ⟨congrArg Answer.flag (valid.containsKey key), valid, rfl, rfl⟩

theorem Valid.run {t : HashTable K V} (valid : t.Valid) (ops : List (Op K V)) :
    (run HashTable.perform t ops).1 =
        (run (performMap t.nullValue) t.toMap ops).1 ∧
      Changes t (run HashTable.perform t ops).2
        (run (performMap t.nullValue) t.toMap ops).2 := by
  apply run_simulates (R := fun t' m => Changes t t' m) _ t t.toMap ⟨valid, rfl, rfl⟩
  intro t' m op related
  obtain ⟨answer, changes⟩ := related.valid.perform op
  rw [related.map, related.nullValue] at answer changes
  exact ⟨answer, changes.valid, changes.map, changes.nullValue.trans related.nullValue⟩

/-- A finite map over every run, and parsing the serialized table gives the same map. -/
theorem run_isMap (initialCapacity : Nat) (loadFactor : LoadFactor) (nullValue : V)
    (ops : List (Op K V)) :
    let t := (run perform (init initialCapacity loadFactor nullValue) ops).2
    let m := (run (performMap nullValue) (fun _ => none) ops).2
    (run perform (init initialCapacity loadFactor nullValue) ops).1 =
        (run (performMap nullValue) (fun _ => none) ops).1 ∧
      (∃ visited, (∀ fuel, t.size ≤ fuel → t.iterate fuel iterator = .ok visited) ∧
        visited.length = t.size ∧ Distinct Entry.key visited ∧
        ∀ k v, m k = some v ↔ ∃ e ∈ visited, (e.key == k) = true ∧ e.value = v) ∧
      (t.tableLength < 2 ^ 30 → ∀ (keys : BinaryCodec K) (values : BinaryCodec V)
        (targetCapacity : Nat) (targetFactor : LoadFactor) (targetNull : V)
        (targetOps : List (Op K V)) (rest : List UInt8),
        ∃ bytes t', t.toBinaryStream keys values = .ok bytes ∧
          parseFromBinaryStream keys values (bytes ++ rest)
            (run perform (init targetCapacity targetFactor targetNull) targetOps).2 =
              .ok (t', rest) ∧
          ∀ k, t'.containsKey k = (m k).isSome ∧ t'.get k = (m k).getD t'.nullValue) := by
  -- used twice: for the table itself and for the one that is parsed into
  have ran (capacity : Nat) (factor : LoadFactor) (null : V) (ops : List (Op K V)) :=
    (valid_init capacity factor null : (init capacity factor null : HashTable K V).Valid).run ops
  obtain ⟨answers, changes⟩ := ran initialCapacity loadFactor nullValue ops
  have start : (init initialCapacity loadFactor nullValue : HashTable K V).toMap =
      fun _ => none := by
    funext k
    simp [toMap, entries, init]
  rw [start] at answers changes
  intro t m
  refine ⟨answers, ⟨t.entries, fun _ le => changes.valid.iterate le, changes.valid.count.symm,
    changes.valid.distinct, fun k v => ?_⟩, ?_⟩
  · have map : t.toMap k = m k := congrFun changes.map k
    rw [← map, toMap, Option.map_eq_some_iff]
    have found (e : Entry K V) := lookup_eq_some_iff Entry.key changes.valid.distinct k e
    constructor
    · rintro ⟨e, looked, value⟩
      obtain ⟨mem, eq⟩ := (found e).mp looked
      exact ⟨e, mem, eq, value⟩
    · rintro ⟨e, mem, eq, value⟩
      exact ⟨e, (found e).mpr ⟨mem, eq⟩, value⟩
  · intro lt keys values targetCapacity targetFactor targetNull targetOps rest
    have target := (ran targetCapacity targetFactor targetNull targetOps).2.valid
    obtain ⟨bytes, t', written, parsed, valid', eq⟩ :=
      changes.valid.parse_toBinaryStream target lt keys values rest
    have map : t'.toMap = m := eq.trans changes.map
    refine ⟨bytes, t', written, parsed, fun k => ⟨?_, ?_⟩⟩
    · rw [valid'.containsKey, map]
    · rw [valid'.get, map]

end Runs

section Collisions

/-- All keys have one hash code, a negative one. -/
local instance : HashCode UInt8 where
  hashCode _ := -7

local instance : LawfulHashCode UInt8 where
  hashCode_eq _ _ _ := rfl

def BinaryCodec.byte : BinaryCodec UInt8 where
  toBinaryStream b := [b]
  parseFromBinaryStream stream := (stream.head?, stream.tail)
  parse_toBinaryStream _ _ := rfl

theorem run_isMap_collisions :
    let ops : List (Op UInt8 UInt8) :=
      [.put 1 10, .put 2 20, .put 3 30, .put 4 40, .put 2 21, .remove 1, .get 2, .containsKey 1]
    let t := (run perform (init 0 .threeQuarters 0) ops).2
    (run perform (init 0 .threeQuarters 0) ops).1 =
        [.value 0, .value 0, .value 0, .value 0, .value 20, .value 10, .value 21, .flag false] ∧
      t.tableLength = 11 ∧
      ∃ bytes t', t.toBinaryStream .byte .byte = .ok bytes ∧
        parseFromBinaryStream .byte .byte (bytes ++ []) (init 3 .threeQuarters 0) = .ok (t', []) ∧
        t'.get 2 = 21 := by
  intro ops t
  obtain ⟨answers, -, roundTrip⟩ := run_isMap 0 .threeQuarters 0 ops
  refine ⟨answers.trans (by decide +kernel), by decide +kernel, ?_⟩
  obtain ⟨bytes, t', written, parsed, eq⟩ :=
    roundTrip (by decide +kernel) .byte .byte 3 .threeQuarters 0 [] []
  exact ⟨bytes, t', written, parsed, (eq 2).2⟩

end Collisions

end HashTable

end Engine3
