import Mathlib.Data.List.Nodup
import Engine3.System.HashTable

/-!
# The LRU cache of a function

`engine/util/lru/lru_cache_using_engine3.h`: a hash table from keys to values, and a list of the
keys with the most recent at the back. An entry of the table holds the position of its key in the
list, an iterator, so that the key can be moved or erased without a search.

The functions here are the critical sections of the cache. List elements have addresses, and an
iterator is an address; using one that is not in the list is an error. The counts of hits and
misses are left out.
-/
namespace Engine3

open Keyed List

structure LRUCacheEntry (ι V : Type) where
  first : V
  second : ι
  accessCount : UInt32
  deriving DecidableEq, Repr

def LRUCacheEntry.incrementAccessCount {ι V : Type} (max : UInt32) (e : LRUCacheEntry ι V) :
    Bool × LRUCacheEntry ι V :=
  let newCount := e.accessCount + 1
  if newCount = max then (true, { e with accessCount := 0 })
  else (false, { e with accessCount := newCount })

structure Allocator (ι : Type) where
  address : List ι → ι
  fresh : ∀ used, address used ∉ used

structure LruConfig (ι K V : Type) where
  fn : K → V
  capacity : Nat
  minAccessCountForPromoting : UInt32
  allocator : Allocator ι
  capacity_ne_zero : capacity ≠ 0
  promoting_ne_zero : minAccessCountForPromoting ≠ 0

structure LruCache (ι K V : Type) where
  keyTracker : List (ι × K)
  keyToValue : HashTable K (LRUCacheEntry ι V)

namespace LruCache

variable {ι K V : Type} [DecidableEq K] [HashCode K]

def init (initialCapacity : Nat) (loadFactor : LoadFactor) (nullValue : LRUCacheEntry ι V) :
    LruCache ι K V :=
  ⟨[], .init initialCapacity loadFactor nullValue⟩

def keys (c : LruCache ι K V) : List K := c.keyTracker.map Prod.snd

def getSize (c : LruCache ι K V) : Nat := c.keyToValue.size

def eraseNode [DecidableEq ι] (it : ι) (nodes : List (ι × K)) : Except Exception (List (ι × K)) :=
  if it ∈ nodes.map Prod.fst then .ok (nodes.eraseP fun node => node.1 = it)
  else .error (.abort "invalid iterator")

def splice [DecidableEq ι] (it : ι) (nodes : List (ι × K)) : Except Exception (List (ι × K)) :=
  match nodes.find? fun node => node.1 = it with
  | none => .error (.abort "invalid iterator")
  | some node => .ok (nodes.eraseP (fun node => node.1 = it) ++ [node])

/-! ### Critical sections -/

inductive Found (V : Type)
  | missing
  | value (v : V)
  | promote (v : V)
  deriving DecidableEq, Repr

def read (cfg : LruConfig ι K V) (k : K) (c : LruCache ι K V) : Found V × LruCache ι K V :=
  match c.keyToValue.getEntry k with
  | none => (.missing, c)
  | some entry =>
    let (promote, counted) := entry.value.incrementAccessCount cfg.minAccessCountForPromoting
    (if promote then .promote entry.value.first else .value entry.value.first,
      { c with keyToValue := (c.keyToValue.put k counted).2 })

def promote [DecidableEq ι] (k : K) (c : LruCache ι K V) : Except Exception (LruCache ι K V) :=
  match c.keyToValue.getEntry k with
  | none => .ok c
  | some entry => do
    let keyTracker ← splice entry.value.second c.keyTracker
    return { c with keyTracker }

def evict (c : LruCache ι K V) : Except Exception (V × LruCache ι K V) :=
  match c.keyTracker with
  | [] => .error (.abort "!_key_tracker.empty()")
  | (_, k) :: keyTracker =>
    let (ret, keyToValue) := c.keyToValue.remove k
    .ok (ret.first, ⟨keyTracker, keyToValue⟩)

def makeSpace (cfg : LruConfig ι K V) (c : LruCache ι K V) : Except Exception (LruCache ι K V) :=
  if c.keyToValue.size ≥ cfg.capacity then c.evict.map Prod.snd else .ok c

def insert (cfg : LruConfig ι K V) (k : K) (v : V) (c : LruCache ι K V) :
    Except Exception (Bool × LruCache ι K V) :=
  if c.keyToValue.containsKey k then .ok (false, c)
  else do
    let c ← c.makeSpace cfg
    let it := cfg.allocator.address (c.keyTracker.map Prod.fst)
    return (true, ⟨c.keyTracker ++ [(it, k)], (c.keyToValue.put k ⟨v, it, 0⟩).2⟩)

def remove [DecidableEq ι] (k : K) (c : LruCache ι K V) : Except Exception (LruCache ι K V) :=
  if !c.keyToValue.containsKey k then .ok c
  else do
    let (entry, keyToValue) := c.keyToValue.remove k
    let keyTracker ← eraseNode entry.second c.keyTracker
    return ⟨keyTracker, keyToValue⟩

def clear (c : LruCache ι K V) : LruCache ι K V := ⟨[], c.keyToValue.removeAll⟩

/-! ### Lists with iterators, by their keys -/

variable {i : ι} {k : K} {e : LRUCacheEntry ι V}

omit [HashCode K] in
theorem map_eraseP [DecidableEq ι] {nodes : List (ι × K)} (mem : (i, k) ∈ nodes)
    (addresses : (nodes.map Prod.fst).Nodup) (nodup : (nodes.map Prod.snd).Nodup) :
    (nodes.eraseP fun node => node.1 = i).map Prod.snd = (nodes.map Prod.snd).erase k ∧
      (nodes.find? fun node => node.1 = i) = some (i, k) ∧
      nodes.Perm ((i, k) :: nodes.eraseP fun node => node.1 = i) := by
  induction nodes with
  | nil => cases mem
  | cons node nodes ih =>
    simp only [map_cons, nodup_cons] at addresses nodup
    by_cases here : node.1 = i
    · -- the address is the head's, so the node is
      have eq : node = (i, k) := by
        rcases mem_cons.mp mem with eq | later
        · exact eq.symm
        · exact absurd (mem_map_of_mem (f := Prod.fst) later) (here ▸ addresses.1)
      simp [eq]
    · have later : (i, k) ∈ nodes := by
        rcases mem_cons.mp mem with eq | later
        · exact absurd (congrArg Prod.fst eq).symm here
        · exact later
      have otherKey : node.2 ≠ k := by
        intro eq
        exact nodup.1 (eq ▸ mem_map_of_mem (f := Prod.snd) later)
      obtain ⟨erased, found, perm⟩ := ih later addresses.2 nodup.2
      refine ⟨?_, ?_, ?_⟩
      · rw [eraseP_cons_of_neg (by simpa using here), map_cons, erased, map_cons,
          erase_cons_tail (by simpa using otherKey)]
      · rw [find?_cons_of_neg (by simpa using here), found]
      · rw [eraseP_cons_of_neg (by simpa using here)]
        exact (perm.cons node).trans (.swap ..)

/-! ### What every section keeps -/

structure Sound (cfg : LruConfig ι K V) (c : LruCache ι K V) : Prop where
  valid : c.keyToValue.Valid
  keys : c.keys.Nodup
  addresses : (c.keyTracker.map Prod.fst).Nodup
  linked : ∀ i k, (i, k) ∈ c.keyTracker ↔ ∃ e, c.keyToValue.toMap k = some e ∧ e.second = i
  values : ∀ k e, c.keyToValue.toMap k = some e → e.first = cfg.fn k
  room : c.keyTracker.length ≤ cfg.capacity

variable {cfg : LruConfig ι K V} {c : LruCache ι K V}

theorem Sound.mem_keys_iff (sound : Sound cfg c) (k : K) :
    k ∈ c.keys ↔ (c.keyToValue.toMap k).isSome := by
  simp only [LruCache.keys, mem_map, Prod.exists, exists_eq_right, sound.linked,
    Option.isSome_iff_exists]
  constructor
  · rintro ⟨_, e, found, -⟩
    exact ⟨e, found⟩
  · rintro ⟨e, found⟩
    exact ⟨e.second, e, found, rfl⟩

theorem Sound.node (sound : Sound cfg c) (found : c.keyToValue.toMap k = some e) :
    (e.second, k) ∈ c.keyTracker :=
  (sound.linked e.second k).mpr ⟨e, found, rfl⟩

theorem Sound.size (sound : Sound cfg c) : c.keyToValue.size = c.keyTracker.length := by
  have nodup : (c.keyToValue.entries.map Entry.key).Nodup := by
    rw [Nodup, pairwise_map]
    exact sound.valid.distinct.imp fun ne => by simpa using ne
  have eq (k : K) : k ∈ c.keyToValue.entries.map Entry.key ↔ k ∈ c.keys := by
    rw [sound.mem_keys_iff, HashTable.toMap, Option.isSome_map, Option.isSome_iff_exists]
    simp only [lookup_eq_some_iff Entry.key sound.valid.distinct, mem_map, beq_iff_eq]
  have perm := (perm_ext_iff_of_nodup nodup sound.keys).mpr eq
  have len := perm.length_eq
  rw [length_map, LruCache.keys, length_map] at len
  exact sound.valid.count.trans len

theorem sound_init (cfg : LruConfig ι K V) (initialCapacity : Nat) (loadFactor : LoadFactor)
    (nullValue : LRUCacheEntry ι V) : Sound cfg (init initialCapacity loadFactor nullValue) where
  valid := HashTable.valid_init ..
  keys := nodup_nil
  addresses := nodup_nil
  linked i k := by simp [init, HashTable.toMap, HashTable.entries, HashTable.init]
  values k e := by simp [init, HashTable.toMap, HashTable.entries, HashTable.init]
  room := Nat.zero_le _

variable [LawfulHashCode K]

variable (sound : Sound cfg c)
include sound

theorem Sound.getEntry (k : K) :
    (c.keyToValue.getEntry k).map Entry.value = c.keyToValue.toMap k := by
  rw [sound.valid.getEntry]
  rfl

theorem Sound.containsKey_iff (k : K) :
    c.keyToValue.containsKey k = true ↔ k ∈ c.keys := by
  rw [sound.valid.containsKey, sound.mem_keys_iff]

def Uncounted (c : LruCache ι K V) : Prop :=
  ∀ k e, c.keyToValue.toMap k = some e → e.accessCount = 0

/-! ### The sections -/

theorem Sound.recount {e' : LRUCacheEntry ι V} (found : c.keyToValue.toMap k = some e)
    (fst : e'.first = e.first) (snd : e'.second = e.second) :
    Sound cfg { c with keyToValue := (c.keyToValue.put k e').2 } := by
  obtain ⟨changes, -⟩ := sound.valid.put k e'
  refine ⟨changes.valid, sound.keys, sound.addresses, ?_, ?_, sound.room⟩
  · intro i k'
    rw [changes.map, sound.linked i k', store]
    by_cases eq : k = k'
    · subst eq
      simp [found, snd]
    · simp [eq]
  · intro k' e'' found'
    rw [changes.map, store] at found'
    by_cases eq : k = k'
    · subst eq
      obtain rfl : e' = e'' := by simpa using found'
      rw [fst, sound.values k e found]
    · exact sound.values k' e'' (by simpa [eq] using found')

theorem read_spec (k : K) :
    (k ∉ c.keys ∧ read cfg k c = (.missing, c)) ∨
      (k ∈ c.keys ∧ ∃ found c', read cfg k c = (found, c') ∧
        (found = .value (cfg.fn k) ∨ found = .promote (cfg.fn k)) ∧ Sound cfg c' ∧
        c'.keyTracker = c.keyTracker ∧
        (cfg.minAccessCountForPromoting = 1 → Uncounted c →
          found = .promote (cfg.fn k) ∧ Uncounted c')) := by
  have search := sound.getEntry k
  cases entry : c.keyToValue.getEntry k with
  | none =>
    left
    rw [entry, Option.map_none] at search
    exact ⟨by rw [sound.mem_keys_iff, ← search]; simp, by simp [read, entry]⟩
  | some entry' =>
    right
    rw [entry, Option.map_some] at search
    have found := search.symm
    have val := sound.values k _ found
    refine ⟨by rw [sound.mem_keys_iff, found]; rfl, ?_⟩
    unfold read LRUCacheEntry.incrementAccessCount
    simp only [entry]
    -- the count is reset when it is reached
    by_cases reached : entry'.value.accessCount + 1 = cfg.minAccessCountForPromoting
    · rw [if_pos reached]
      refine ⟨_, _, rfl, .inr (by simp [val]), sound.recount found rfl rfl, rfl, ?_⟩
      intro _ uncounted
      refine ⟨by simp [val], ?_⟩
      intro k' e' found'
      obtain ⟨changes, -⟩ := sound.valid.put k { entry'.value with accessCount := 0 }
      rw [changes.map, store] at found'
      split at found'
      · cases found'
        rfl
      · exact uncounted k' e' found'
    · rw [if_neg reached]
      refine ⟨_, _, rfl, .inl (by simp [val]), sound.recount found rfl rfl, rfl, ?_⟩
      intro once uncounted
      rw [uncounted k _ found, once] at reached
      exact absurd rfl reached

theorem promote_spec [DecidableEq ι] (k : K) :
    ∃ c', promote k c = .ok c' ∧ Sound cfg c' ∧ c'.keyToValue = c.keyToValue ∧
      c'.keys = if k ∈ c.keys then c.keys.erase k ++ [k] else c.keys := by
  have search := sound.getEntry k
  unfold promote
  cases entry : c.keyToValue.getEntry k with
  | none =>
    rw [entry, Option.map_none] at search
    have absent : k ∉ c.keys := by rw [sound.mem_keys_iff, ← search]; simp
    exact ⟨c, rfl, sound, rfl, by rw [if_neg absent]⟩
  | some entry' =>
    rw [entry, Option.map_some] at search
    have hin := sound.node search.symm
    obtain ⟨erased, found, split⟩ := map_eraseP hin sound.addresses sound.keys
    -- the node is moved, so both lists have the same nodes
    have perm : (c.keyTracker.eraseP (fun node => node.1 = entry'.value.second) ++
        [(entry'.value.second, k)]).Perm c.keyTracker :=
      (perm_append_singleton _ _).trans split.symm
    refine ⟨⟨c.keyTracker.eraseP (fun node => node.1 = entry'.value.second) ++
      [(entry'.value.second, k)], c.keyToValue⟩, by simp only [splice, found]; rfl, ?_, rfl, ?_⟩
    · refine ⟨sound.valid, ?_, ?_, ?_, sound.values, ?_⟩
      · exact (perm.map Prod.snd).nodup_iff.mpr sound.keys
      · exact (perm.map Prod.fst).nodup_iff.mpr sound.addresses
      · intro i k'
        rw [← sound.linked]
        exact perm.mem_iff
      · rw [perm.length_eq]
        exact sound.room
    · have present : k ∈ c.keys := mem_map_of_mem (f := Prod.snd) hin
      rw [if_pos present]
      simp [keys, erased]

theorem Sound.forget (nodes : List (ι × K)) (perm : c.keyTracker.Perm ((i, k) :: nodes)) :
    Sound cfg ⟨nodes, (c.keyToValue.remove k).2⟩ := by
  obtain ⟨changes, -⟩ := sound.valid.remove k
  have keys := nodup_cons.mp ((perm.map Prod.snd).nodup_iff.mp sound.keys)
  have addresses := nodup_cons.mp ((perm.map Prod.fst).nodup_iff.mp sound.addresses)
  refine ⟨changes.valid, keys.2, addresses.2, ?_, ?_, ?_⟩
  · intro j k'
    rw [changes.map, Keyed.forget]
    by_cases eq : k = k'
    · subst eq
      have absent : (j, k) ∉ nodes := fun mem => keys.1 (mem_map.mpr ⟨_, mem, rfl⟩)
      simp [absent]
    · have ne : (j, k') ≠ (i, k) := fun equal => eq (congrArg Prod.snd equal).symm
      have kept := perm.mem_iff (a := (j, k'))
      rw [mem_cons, or_iff_right ne] at kept
      simp [eq, ← kept, sound.linked]
  · intro k' e found
    rw [changes.map, Keyed.forget] at found
    split at found
    · cases found
    · exact sound.values k' e found
  · have len := perm.length_eq
    have room := sound.room
    simp only [length_cons] at len
    change nodes.length ≤ cfg.capacity
    omega

theorem Uncounted.forget (uncounted : Uncounted c) (k : K) (nodes : List (ι × K)) :
    Uncounted ⟨nodes, (c.keyToValue.remove k).2⟩ := by
  obtain ⟨changes, -⟩ := sound.valid.remove k
  intro k' e found
  rw [changes.map, Keyed.forget] at found
  split at found
  · cases found
  · exact uncounted k' e found

theorem makeSpace_spec :
    ∃ c', makeSpace cfg c = .ok c' ∧ Sound cfg c' ∧ c'.keyTracker.length < cfg.capacity ∧
      c'.keyTracker = (if c.keyTracker.length ≥ cfg.capacity then c.keyTracker.tail
        else c.keyTracker) ∧ (Uncounted c → Uncounted c') := by
  unfold makeSpace
  rw [sound.size]
  split
  next full =>
    have room := sound.room
    have some := cfg.capacity_ne_zero
    cases tracker : c.keyTracker with
    | nil => simp only [tracker, length_nil] at full; omega
    | cons node nodes =>
      obtain ⟨i, k⟩ := node
      refine ⟨⟨nodes, (c.keyToValue.remove k).2⟩, by simp only [evict, tracker]; rfl, ?_,
        ?_, rfl, ?_⟩
      · exact sound.forget (i := i) nodes (by rw [tracker])
      · simp only [tracker, length_cons] at room
        change nodes.length < cfg.capacity
        omega
      · exact fun uncounted => uncounted.forget sound k nodes
  next space => exact ⟨c, rfl, sound, by omega, rfl, id⟩

theorem insert_present (v : V) (present : k ∈ c.keys) :
    insert cfg k v c = .ok (false, c) := by
  unfold insert
  rw [if_pos ((sound.containsKey_iff k).mpr present)]

theorem insert_spec (absent : k ∉ c.keys) :
    ∃ c', insert cfg k (cfg.fn k) c = .ok (true, c') ∧ Sound cfg c' ∧
      c'.keys = (if c.keyTracker.length ≥ cfg.capacity then c.keys.tail else c.keys) ++ [k] ∧
      (Uncounted c → Uncounted c') := by
  obtain ⟨c₁, spaced, sound₁, space, tracker, uncounted₁⟩ := makeSpace_spec sound
  have keys₁ : c₁.keys = if c.keyTracker.length ≥ cfg.capacity then c.keys.tail else c.keys := by
    rw [keys, tracker]
    split
    · rw [map_tail]
      rfl
    · rfl
  have absent₁ : k ∉ c₁.keys := by
    rw [keys₁]
    split
    · exact mt mem_of_mem_tail absent
    · exact absent
  -- making room may have removed an entry, but not added one
  have missing : c₁.keyToValue.toMap k = none := by
    simpa using mt (sound₁.mem_keys_iff k).mpr absent₁
  generalize it : cfg.allocator.address (c₁.keyTracker.map Prod.fst) = i
  have fresh : i ∉ c₁.keyTracker.map Prod.fst := it ▸ cfg.allocator.fresh _
  obtain ⟨changes, -⟩ := sound₁.valid.put k ⟨cfg.fn k, i, 0⟩
  refine ⟨⟨c₁.keyTracker ++ [(i, k)], (c₁.keyToValue.put k ⟨cfg.fn k, i, 0⟩).2⟩, ?_,
    ⟨changes.valid, ?_, ?_, ?_, ?_, ?_⟩, ?_, ?_⟩
  · unfold insert
    rw [if_neg (mt (sound.containsKey_iff k).mp absent), spaced]
    simp only [bind, Except.bind, it]
    rfl
  · rw [keys, map_append]
    exact (perm_append_singleton k _).nodup_iff.mpr (nodup_cons.mpr ⟨absent₁, sound₁.keys⟩)
  · rw [map_append]
    exact (perm_append_singleton i _).nodup_iff.mpr (nodup_cons.mpr ⟨fresh, sound₁.addresses⟩)
  · intro j k'
    rw [changes.map, store, mem_append, mem_singleton, sound₁.linked j k']
    by_cases eq : k = k'
    · subst eq
      simp [missing, eq_comm]
    · simp [eq, Ne.symm eq]
  · intro k' e found
    rw [changes.map, store] at found
    by_cases eq : k = k'
    · subst eq
      obtain rfl : _ = e := by simpa using found
      rfl
    · exact sound₁.values k' e (by simpa [eq] using found)
  · rw [length_append]
    exact space
  · rw [← keys₁]
    simp [keys]
  · intro uncounted k' e found
    rw [changes.map, store] at found
    split at found
    · cases found
      rfl
    · exact uncounted₁ uncounted k' e found

theorem remove_spec [DecidableEq ι] (k : K) :
    ∃ c', remove k c = .ok c' ∧ Sound cfg c' ∧ c'.keys = c.keys.erase k ∧
      (Uncounted c → Uncounted c') := by
  unfold remove
  by_cases present : k ∈ c.keys
  · obtain ⟨e, found⟩ := Option.isSome_iff_exists.mp ((sound.mem_keys_iff k).mp present)
    have hin := sound.node found
    obtain ⟨erased, -, split⟩ := map_eraseP hin sound.addresses sound.keys
    obtain ⟨-, removed⟩ := sound.valid.remove k
    rw [found, Option.getD_some] at removed
    have known : e.second ∈ c.keyTracker.map Prod.fst := mem_map_of_mem (f := Prod.fst) hin
    refine ⟨⟨c.keyTracker.eraseP fun node => node.1 = e.second, (c.keyToValue.remove k).2⟩, ?_,
      sound.forget _ split, erased,
      fun uncounted => uncounted.forget sound k _⟩
    rw [if_neg (by simpa using (sound.containsKey_iff k).mpr present)]
    simp only [removed, eraseNode, if_pos known]
    rfl
  · have missing : c.keyToValue.containsKey k = false := by
      simpa using mt (sound.containsKey_iff k).mp present
    exact ⟨c, by simp [missing], sound, (erase_of_not_mem present).symm, id⟩

omit [LawfulHashCode K] in
theorem clear_spec :
    Sound cfg c.clear ∧ c.clear.keys = [] ∧ Uncounted c.clear := by
  have changes := sound.valid.removeAll
  refine ⟨⟨changes.valid, nodup_nil, nodup_nil, ?_, ?_, Nat.zero_le _⟩, rfl, ?_⟩
  · intro i k
    simp [clear, changes.map]
  · intro k e found
    simp [clear, changes.map] at found
  · intro k e found
    simp [clear, changes.map] at found

end LruCache

end Engine3
