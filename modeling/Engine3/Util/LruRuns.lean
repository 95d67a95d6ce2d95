import Engine3.Util.LruCache

/-!
# Runs of the LRU cache

Any number of callers. A lookup reads under the read lock; on a miss it computes the value
without a lock and inserts it in a section of its own, and to promote its key it takes the write
lock in another. Between its sections everything may happen to the key it is about.

If every use promotes and lookups run one at a time, the list of keys is in the order of their
last lookups, except for the key of the lookup that is under way.
-/
namespace Engine3

open Machine LruCache List Function

inductive Caller (K V : Type)
  | idle
  | computing (k : K)
  | promoting (k : K) (value : V)
  deriving DecidableEq, Repr

structure SharedCache (θ ι K V : Type) where
  cache : LruCache ι K V
  callers : θ → Caller K V

namespace SharedCache

variable {θ ι K V : Type} [DecidableEq θ] [DecidableEq ι] [DecidableEq K] [HashCode K]

inductive Action (θ K : Type)
  | lookup (caller : θ) (k : K)
  | insert (caller : θ)
  | promote (caller : θ)
  | remove (k : K)
  | clear
  deriving DecidableEq, Repr

def Action.caller? : Action θ K → Option θ
  | .lookup caller _ | .insert caller | .promote caller => some caller
  | .remove _ | .clear => none

abbrev Answer (K V : Type) := Except Exception (Option (K × V))

def move (s : SharedCache θ ι K V) (cache : LruCache ι K V) (caller : θ) (stage : Caller K V) :
    SharedCache θ ι K V :=
  ⟨cache, update s.callers caller stage⟩

def perform (cfg : LruConfig ι K V) (s : SharedCache θ ι K V) :
    Action θ K → Answer K V × SharedCache θ ι K V
  | .lookup caller k =>
    match s.callers caller with
    | .idle =>
      match s.cache.read cfg k with
      | (.missing, cache) => (.ok none, s.move cache caller (.computing k))
      | (.value v, cache) => (.ok (some (k, v)), s.move cache caller .idle)
      | (.promote v, cache) => (.ok none, s.move cache caller (.promoting k v))
    | _ => (.ok none, s)
  | .insert caller =>
    match s.callers caller with
    | .computing k =>
      match s.cache.insert cfg k (cfg.fn k) with
      | .error e => (.error e, s)
      | .ok (_, cache) => (.ok (some (k, cfg.fn k)), s.move cache caller .idle)
    | _ => (.ok none, s)
  | .promote caller =>
    match s.callers caller with
    | .promoting k v =>
      match s.cache.promote k with
      | .error e => (.error e, s)
      | .ok cache => (.ok (some (k, v)), s.move cache caller .idle)
    | _ => (.ok none, s)
  | .remove k =>
    match s.cache.remove k with
    | .error e => (.error e, s)
    | .ok cache => (.ok none, { s with cache })
  | .clear => (.ok none, { s with cache := s.cache.clear })

def start (initialCapacity : Nat) (loadFactor : LoadFactor) (nullValue : LRUCacheEntry ι V) :
    SharedCache θ ι K V :=
  ⟨.init initialCapacity loadFactor nullValue, fun _ => .idle⟩

/-! ### Every interleaving -/

variable {cfg : LruConfig ι K V} {s : SharedCache θ ι K V}

structure Invariant (cfg : LruConfig ι K V) (s : SharedCache θ ι K V) : Prop where
  sound : Sound cfg s.cache
  values : ∀ caller k v, s.callers caller = .promoting k v → v = cfg.fn k

/-- What is asked of an answer. -/
def Correct (cfg : LruConfig ι K V) (answer : Answer K V) : Prop :=
  ∃ returned, answer = .ok returned ∧ ∀ k v, returned = some (k, v) → v = cfg.fn k

omit [DecidableEq ι] in
theorem Invariant.move (inv : Invariant cfg s) {cache : LruCache ι K V} (sound : Sound cfg cache)
    (caller : θ) (stage : Caller K V) (val : ∀ k v, stage = .promoting k v → v = cfg.fn k) :
    Invariant cfg (s.move cache caller stage) := by
  refine ⟨sound, ?_⟩
  intro caller' k v at'
  simp only [SharedCache.move] at at'
  by_cases eq : caller' = caller
  · subst eq
    rw [update_self] at at'
    exact val k v at'
  · rw [update_of_ne eq] at at'
    exact inv.values caller' k v at'

theorem perform_callers {action : Action θ K} {caller : θ} (other : action.caller? ≠ some caller) :
    (s.perform cfg action).2.callers caller = s.callers caller := by
  have moved (cache : LruCache ι K V) {mover : θ} (stage : Caller K V)
      (ne : some mover ≠ some caller) :
      (s.move cache mover stage).callers caller = s.callers caller :=
    update_of_ne (fun same => ne (congrArg some same.symm)) ..
  cases action with
  | lookup mover k =>
    simp only [SharedCache.perform]
    split
    · split <;> exact moved _ _ other
    · rfl
  | insert mover | promote mover =>
    simp only [SharedCache.perform]
    split
    · split
      · rfl
      · exact moved _ _ other
    · rfl
  | remove k =>
    simp only [SharedCache.perform]
    split <;> rfl
  | clear => rfl

variable [LawfulHashCode K]

theorem Invariant.insert (inv : Invariant cfg s) {caller : θ} {k : K}
    (here : s.callers caller = .computing k) :
    ∃ cache, Sound cfg cache ∧
      s.perform cfg (.insert caller) = (.ok (some (k, cfg.fn k)), s.move cache caller .idle) := by
  have inserted : ∃ b cache, s.cache.insert cfg k (cfg.fn k) = .ok (b, cache) ∧
      Sound cfg cache := by
    -- another caller may have inserted the key while this one computed the value
    by_cases present : k ∈ s.cache.keys
    · exact ⟨_, _, insert_present inv.sound _ present, inv.sound⟩
    · obtain ⟨cache, ran, sound, -, -⟩ := insert_spec inv.sound present
      exact ⟨_, _, ran, sound⟩
  obtain ⟨b, cache, ran, sound⟩ := inserted
  refine ⟨cache, sound, ?_⟩
  simp only [SharedCache.perform, here, ran]

theorem Invariant.promote (inv : Invariant cfg s) {caller : θ} {k : K} {v : V}
    (here : s.callers caller = .promoting k v) :
    ∃ cache, Sound cfg cache ∧
      s.perform cfg (.promote caller) = (.ok (some (k, cfg.fn k)), s.move cache caller .idle) := by
  obtain ⟨cache, ran, sound, -, -⟩ := promote_spec inv.sound k
  refine ⟨cache, sound, ?_⟩
  simp only [SharedCache.perform, here, ran, inv.values caller k v here]

theorem Invariant.perform (inv : Invariant cfg s) (action : Action θ K) :
    Correct cfg (s.perform cfg action).1 ∧ Invariant cfg (s.perform cfg action).2 := by
  have quiet : Correct cfg (.ok none : Answer K V) := ⟨none, rfl, by simp⟩
  cases action with
  | lookup caller k =>
    cases at' : s.callers caller with
    | idle =>
      rcases read_spec inv.sound k with ⟨-, read⟩ | ⟨-, found, cache, read, val, isSound, -, -⟩
      · simp only [SharedCache.perform, at', read]
        exact ⟨quiet, inv.move inv.sound caller _ (by simp)⟩
      · rcases val with rfl | rfl
        · simp only [SharedCache.perform, at', read]
          exact ⟨⟨_, rfl, by simp⟩, inv.move isSound caller _ (by simp)⟩
        · simp only [SharedCache.perform, at', read]
          exact ⟨quiet, inv.move isSound caller _ (by simp)⟩
    | computing k' => simp only [SharedCache.perform, at']; exact ⟨quiet, inv⟩
    | promoting k' v => simp only [SharedCache.perform, at']; exact ⟨quiet, inv⟩
  | insert caller =>
    cases at' : s.callers caller with
    | computing k =>
      obtain ⟨cache, sound, ran⟩ := inv.insert at'
      rw [ran]
      exact ⟨⟨_, rfl, by simp⟩, inv.move sound caller _ (by simp)⟩
    | idle => simp only [SharedCache.perform, at']; exact ⟨quiet, inv⟩
    | promoting k' v => simp only [SharedCache.perform, at']; exact ⟨quiet, inv⟩
  | promote caller =>
    cases at' : s.callers caller with
    | promoting k v =>
      obtain ⟨cache, sound, ran⟩ := inv.promote at'
      rw [ran]
      exact ⟨⟨_, rfl, by simp⟩, inv.move sound caller _ (by simp)⟩
    | idle => simp only [SharedCache.perform, at']; exact ⟨quiet, inv⟩
    | computing k' => simp only [SharedCache.perform, at']; exact ⟨quiet, inv⟩
  | remove k =>
    obtain ⟨cache, ran, isSound, -, -⟩ := remove_spec inv.sound k
    simp only [SharedCache.perform, ran]
    exact ⟨quiet, isSound, inv.values⟩
  | clear => exact ⟨quiet, (clear_spec inv.sound).1, inv.values⟩

theorem Invariant.run (inv : Invariant cfg s) {caller : θ} {actions : List (Action θ K)}
    (others : ∀ action ∈ actions, action.caller? ≠ some caller) :
    Invariant cfg (run (SharedCache.perform cfg) s actions).2 ∧
      (run (SharedCache.perform cfg) s actions).2.callers caller = s.callers caller := by
  induction actions generalizing s with
  | nil => exact ⟨inv, rfl⟩
  | cons action actions ih =>
    obtain ⟨other, others⟩ := forall_mem_cons.mp others
    obtain ⟨after, same⟩ := ih (inv.perform action).2 others
    exact ⟨after, same.trans (perform_callers other)⟩

/-- A lookup that begins here returns the function's value for its key, at once or with one more
section, whatever the other callers do before it. -/
def LookupReturns (cfg : LruConfig ι K V) (s : SharedCache θ ι K V) (caller : θ) (k : K) : Prop :=
  let begun := s.perform cfg (.lookup caller k)
  begun.1 = .ok (some (k, cfg.fn k)) ∨
    begun.1 = .ok none ∧ ∃ last ∈ [Action.insert caller, .promote caller],
      ∀ between : List (Action θ K), (∀ action ∈ between, action.caller? ≠ some caller) →
        ((run (SharedCache.perform cfg) begun.2 between).2.perform cfg last).1 =
          .ok (some (k, cfg.fn k))

theorem Invariant.lookupReturns (inv : Invariant cfg s) {caller : θ}
    (idle : s.callers caller = .idle) (k : K) : LookupReturns cfg s caller k := by
  have here (stage : Caller K V) (cache : LruCache ι K V) :
      (s.move cache caller stage).callers caller = stage :=
    update_self ..
  have kept := (inv.perform (.lookup caller k)).2
  unfold LookupReturns
  rcases read_spec inv.sound k with ⟨-, read⟩ | ⟨-, found, cache, read, rfl | rfl, -⟩
  · right
    simp only [SharedCache.perform, idle, read] at kept ⊢
    refine ⟨trivial, .insert caller, by simp, fun between others => ?_⟩
    obtain ⟨after, same⟩ := kept.run others
    obtain ⟨cache, -, ran⟩ := after.insert (same.trans (here _ _))
    exact congrArg Prod.fst ran
  · left
    simp only [SharedCache.perform, idle, read]
  · right
    simp only [SharedCache.perform, idle, read] at kept ⊢
    refine ⟨trivial, .promote caller, by simp, fun between others => ?_⟩
    obtain ⟨after, same⟩ := kept.run others
    obtain ⟨cache, -, ran⟩ := after.promote (same.trans (here _ _))
    exact congrArg Prod.fst ran

/-! ### Lookups one at a time -/

def recent (actions : List (Action θ K)) : List K :=
  (actions.filterMap fun
    | .lookup _ k => some k
    | _ => none).reverse

def age (actions : List (Action θ K)) (k : K) : Nat := (recent actions).idxOf k

/-- A lookup only begins when no other is under way. -/
def Sequential (cfg : LruConfig ι K V) (s : SharedCache θ ι K V) : List (Action θ K) → Prop
  | [] => True
  | action :: actions =>
    (∀ caller k, action = .lookup caller k → ∀ other, s.callers other = .idle) ∧
      Sequential cfg (s.perform cfg action).2 actions

section Stages

variable {θ ι K V : Type} [DecidableEq K] {s : SharedCache θ ι K V}

def Ordered (recent keys : List K) : Prop :=
  keys.Pairwise fun a b => recent.idxOf b < recent.idxOf a

variable {recent keys : List K} {k : K} {caller : θ}

theorem Ordered.lookup (ord : Ordered recent keys) (absent : k ∉ keys) :
    Ordered (k :: recent) keys := by
  apply Pairwise.imp_of_mem _ ord
  intro a b inA inB before
  have notA : k ≠ a := (ne_of_mem_of_not_mem inA absent).symm
  have notB : k ≠ b := (ne_of_mem_of_not_mem inB absent).symm
  rw [idxOf_cons_ne _ notA, idxOf_cons_ne _ notB]
  omega

theorem Ordered.snoc (ord : Ordered recent keys) (newest : recent.head? = some k)
    (absent : k ∉ keys) : Ordered recent (keys ++ [k]) := by
  obtain ⟨older, rfl⟩ : ∃ older, recent = k :: older := head?_eq_some_iff.mp newest
  apply pairwise_append.mpr
  refine ⟨ord, pairwise_singleton .., ?_⟩
  intro a inA b inB
  obtain rfl := mem_singleton.mp inB
  have ne : b ≠ a := (ne_of_mem_of_not_mem inA absent).symm
  rw [idxOf_cons_self, idxOf_cons_ne _ ne]
  omega

inductive Phase (s : SharedCache θ ι K V) (recent : List K) : Prop
  | idle (quiet : ∀ caller, s.callers caller = .idle) (ordered : Ordered recent s.cache.keys)
  | computing (caller : θ) (k : K) (here : s.callers caller = .computing k)
    (others : ∀ other, other ≠ caller → s.callers other = .idle) (newest : recent.head? = some k)
    (absent : k ∉ s.cache.keys) (ordered : Ordered recent s.cache.keys)
  | promoting (caller : θ) (k : K) (v : V) (here : s.callers caller = .promoting k v)
    (others : ∀ other, other ≠ caller → s.callers other = .idle) (newest : recent.head? = some k)
    (ordered : Ordered recent (s.cache.keys.erase k))

theorem Phase.shrink (phase : Phase s recent) {cache : LruCache ι K V}
    (sub : cache.keys.Sublist s.cache.keys) : Phase { s with cache } recent := by
  cases phase with
  | idle quiet ord => exact .idle quiet (ord.sublist sub)
  | computing caller k here others newest absent ord =>
    exact .computing caller k here others newest (mt (sub.subset ·) absent) (ord.sublist sub)
  | promoting caller k v here others newest ord =>
    exact .promoting caller k v here others newest (ord.sublist (sub.erase k))

theorem Phase.finish [DecidableEq θ] (others : ∀ other, other ≠ caller → s.callers other = .idle)
    (cache : LruCache ι K V) (ord : Ordered recent cache.keys) :
    Phase (s.move cache caller .idle) recent := by
  refine .idle (fun other => ?_) ord
  by_cases eq : other = caller
  · rw [eq]
    exact update_self ..
  · exact (update_of_ne eq ..).trans (others other eq)

theorem Phase.of_computing (phase : Phase s recent) (here : s.callers caller = .computing k) :
    (∀ other, other ≠ caller → s.callers other = .idle) ∧ recent.head? = some k ∧
      k ∉ s.cache.keys ∧ Ordered recent s.cache.keys := by
  cases phase with
  | idle quiet => cases (quiet caller).symm.trans here
  | computing only k' at' others newest absent ord =>
    by_cases eq : caller = only
    · subst eq
      cases here.symm.trans at'
      exact ⟨others, newest, absent, ord⟩
    · cases (others caller eq).symm.trans here
  | promoting only k' v at' others =>
    by_cases eq : caller = only
    · subst eq
      cases here.symm.trans at'
    · cases (others caller eq).symm.trans here

theorem Phase.of_promoting (phase : Phase s recent) {v : V}
    (here : s.callers caller = .promoting k v) :
    (∀ other, other ≠ caller → s.callers other = .idle) ∧ recent.head? = some k ∧
      Ordered recent (s.cache.keys.erase k) := by
  cases phase with
  | idle quiet => cases (quiet caller).symm.trans here
  | computing only k' at' others =>
    by_cases eq : caller = only
    · subst eq
      cases here.symm.trans at'
    · cases (others caller eq).symm.trans here
  | promoting only k' v' at' others newest ord =>
    by_cases eq : caller = only
    · subst eq
      cases here.symm.trans at'
      exact ⟨others, newest, ord⟩
    · cases (others caller eq).symm.trans here

end Stages

structure Tracked (cfg : LruConfig ι K V) (s : SharedCache θ ι K V) (recent : List K) : Prop where
  inv : Invariant cfg s
  uncounted : Uncounted s.cache
  phase : Phase s recent

variable {recent₀ : List K}

variable (tracked : Tracked cfg s recent₀)
include tracked

theorem Tracked.lookup (once : cfg.minAccessCountForPromoting = 1) (caller : θ) (k : K)
    (quiet : ∀ other, s.callers other = .idle) :
    Uncounted (s.perform cfg (.lookup caller k)).2.cache ∧
      Phase (s.perform cfg (.lookup caller k)).2 (k :: recent₀) := by
  have sound := tracked.inv.sound
  have ord : Ordered recent₀ s.cache.keys := by
    cases tracked.phase with
    | idle _ ord => exact ord
    | computing busy _ here => cases (quiet busy).symm.trans here
    | promoting busy _ _ here => cases (quiet busy).symm.trans here
  have others (stage : Caller K V) (cache : LruCache ι K V) (other : θ) (ne : other ≠ caller) :
      (s.move cache caller stage).callers other = .idle :=
    (update_of_ne ne ..).trans (quiet other)
  have here (stage : Caller K V) (cache : LruCache ι K V) :
      (s.move cache caller stage).callers caller = stage :=
    update_self ..
  -- after a miss the key is missing until the insertion, after a hit it is out of order
  rcases read_spec sound k with ⟨absent, read⟩ | ⟨-, found, cache, read, -, -, tracker, counted⟩
  · simp only [perform, quiet caller, read]
    refine ⟨tracked.uncounted, .computing caller k (here _ _) (others _ _) rfl absent ?_⟩
    exact ord.lookup absent
  · obtain ⟨rfl, uncounted⟩ := counted once tracked.uncounted
    have keys : cache.keys = s.cache.keys := by
      rw [LruCache.keys, tracker, LruCache.keys]
    simp only [perform, quiet caller, read]
    refine ⟨uncounted, .promoting caller k _ (here _ _) (others _ _) rfl ?_⟩
    change Ordered _ (cache.keys.erase k)
    rw [keys]
    exact Ordered.lookup (ord.sublist erase_sublist) sound.keys.not_mem_erase

theorem Tracked.insert (caller : θ) :
    Uncounted (s.perform cfg (.insert caller)).2.cache ∧
      Phase (s.perform cfg (.insert caller)).2 recent₀ := by
  cases here : s.callers caller with
  | idle => simp only [perform, here]; exact ⟨tracked.uncounted, tracked.phase⟩
  | promoting k v => simp only [perform, here]; exact ⟨tracked.uncounted, tracked.phase⟩
  | computing k =>
    obtain ⟨others, newest, absent, ord⟩ := tracked.phase.of_computing here
    obtain ⟨cache, ran, -, keys, uncounted⟩ := insert_spec tracked.inv.sound absent
    simp only [perform, here, ran]
    refine ⟨uncounted tracked.uncounted, .finish others cache ?_⟩
    -- the newest key goes to the back, behind an eviction if the cache was full
    rw [keys]
    split
    · exact Ordered.snoc (ord.sublist (tail_sublist _)) newest
        (mt mem_of_mem_tail absent)
    · exact Ordered.snoc ord newest absent

theorem Tracked.promote (caller : θ) :
    Uncounted (s.perform cfg (.promote caller)).2.cache ∧
      Phase (s.perform cfg (.promote caller)).2 recent₀ := by
  cases here : s.callers caller with
  | idle => simp only [perform, here]; exact ⟨tracked.uncounted, tracked.phase⟩
  | computing k => simp only [perform, here]; exact ⟨tracked.uncounted, tracked.phase⟩
  | promoting k v =>
    have sound := tracked.inv.sound
    obtain ⟨others, newest, ord⟩ := tracked.phase.of_promoting here
    obtain ⟨cache, ran, -, table, keys⟩ := promote_spec sound k
    simp only [perform, here, ran]
    refine ⟨?_, .finish others cache ?_⟩
    · change Uncounted cache
      unfold Uncounted
      rw [table]
      exact tracked.uncounted
    · rw [keys]
      split
      · exact ord.snoc newest sound.keys.not_mem_erase
      next gone =>
        -- the key was removed since the lookup: there is nothing to promote
        rwa [erase_of_not_mem gone] at ord

theorem Tracked.perform (once : cfg.minAccessCountForPromoting = 1) (action : Action θ K)
    (sequential : ∀ caller k, action = .lookup caller k → ∀ other, s.callers other = .idle) :
    Tracked cfg (s.perform cfg action).2 (recent [action] ++ recent₀) := by
  have inv := (tracked.inv.perform action).2
  have sound := tracked.inv.sound
  cases action with
  | lookup caller k =>
    obtain ⟨uncounted, phase⟩ := tracked.lookup once caller k (sequential caller k rfl)
    exact ⟨inv, uncounted, phase⟩
  | insert caller =>
    obtain ⟨uncounted, phase⟩ := tracked.insert caller
    exact ⟨inv, uncounted, phase⟩
  | promote caller =>
    obtain ⟨uncounted, phase⟩ := tracked.promote caller
    exact ⟨inv, uncounted, phase⟩
  | remove k =>
    obtain ⟨cache, ran, -, keys, uncounted⟩ := remove_spec sound k
    simp only [SharedCache.perform, ran] at inv ⊢
    exact ⟨inv, uncounted tracked.uncounted,
      tracked.phase.shrink (keys ▸ erase_sublist)⟩
  | clear =>
    obtain ⟨-, keys, uncounted⟩ := clear_spec sound
    exact ⟨inv, uncounted, tracked.phase.shrink (keys ▸ nil_sublist _)⟩

omit tracked

theorem Tracked.run (once : cfg.minAccessCountForPromoting = 1) (actions : List (Action θ K))
    (tracked : Tracked cfg s recent₀) (sequential : Sequential cfg s actions) :
    Tracked cfg (run (SharedCache.perform cfg) s actions).2 (recent actions ++ recent₀) := by
  induction actions generalizing s recent₀ with
  | nil => exact tracked
  | cons action actions ih =>
    have next := ih (tracked.perform once action sequential.1) sequential.2
    have later : recent (action :: actions) = recent actions ++ recent [action] := by
      simp only [recent, ← reverse_append, ← filterMap_append]
      rfl
    rw [later, append_assoc]
    exact next

omit [DecidableEq θ] [DecidableEq ι] [LawfulHashCode K] in
theorem tracked_start (cfg : LruConfig ι K V) (initialCapacity : Nat) (loadFactor : LoadFactor)
    (nullValue : LRUCacheEntry ι V) :
    Tracked cfg (start initialCapacity loadFactor nullValue : SharedCache θ ι K V) [] := by
  refine ⟨⟨sound_init .., by simp [start]⟩, ?_, .idle (fun _ => rfl) Pairwise.nil⟩
  intro k e found
  simp [start, init, HashTable.toMap, HashTable.entries, HashTable.init] at found

theorem Tracked.evicts (tracked : Tracked cfg s recent₀) {caller : θ} {e : K}
    (hin : e ∈ s.cache.keys) (evicted : e ∉ (s.perform cfg (.insert caller)).2.cache.keys) :
    ∀ x ∈ s.cache.keys, x ≠ e → recent₀.idxOf x < recent₀.idxOf e := by
  cases here : s.callers caller with
  | idle => simp only [SharedCache.perform, here] at evicted; exact absurd hin evicted
  | promoting k v => simp only [SharedCache.perform, here] at evicted; exact absurd hin evicted
  | computing k =>
    obtain ⟨-, -, absent, ord⟩ := tracked.phase.of_computing here
    obtain ⟨cache, ran, -, keys, -⟩ := insert_spec tracked.inv.sound absent
    simp only [SharedCache.perform, here, ran] at evicted
    change e ∉ cache.keys at evicted
    rw [keys] at evicted
    split at evicted
    · -- the list loses its head, so that is the evicted key
      cases tracker : s.cache.keys with
      | nil => rw [tracker] at hin; cases hin
      | cons first rest =>
        rw [tracker] at hin evicted ord
        obtain rfl : e = first := by
          rcases mem_cons.mp hin with eq | later
          · exact eq
          · exact absurd (mem_append_left _ later) evicted
        intro x mem ne
        obtain later := (mem_cons.mp mem).resolve_left ne
        exact (pairwise_cons.mp ord).1 x later
    · exact absurd (mem_append_left _ hin) evicted

/-- Lookups return the function's value, and the key looked up least recently is evicted. -/
theorem runs_cache (cfg : LruConfig ι K V) (initialCapacity : Nat) (loadFactor : LoadFactor)
    (nullValue : LRUCacheEntry ι V) (actions : List (Action θ K)) :
    let s₀ : SharedCache θ ι K V := start initialCapacity loadFactor nullValue
    let s := (run (perform cfg) s₀ actions).2
    s.cache.keys.Nodup ∧ (∀ k, k ∈ s.cache.keys ↔ s.cache.keyToValue.containsKey k = true) ∧
      s.cache.getSize = s.cache.keys.length ∧ s.cache.getSize ≤ cfg.capacity ∧
      (∀ answer ∈ (run (perform cfg) s₀ actions).1, Correct cfg answer) ∧
      (∀ caller k, s.callers caller = .idle → LookupReturns cfg s caller k) ∧
      (cfg.minAccessCountForPromoting = 1 → Sequential cfg s₀ actions →
        ∀ caller, ∀ e ∈ s.cache.keys, e ∉ (s.perform cfg (.insert caller)).2.cache.keys →
          ∀ x ∈ s.cache.keys, x ≠ e → age actions x < age actions e) := by
  intro s₀ s
  have tracked := tracked_start (θ := θ) cfg initialCapacity loadFactor nullValue
  have inv : Invariant cfg s :=
    run_invariant (P := Invariant cfg) (fun s action inv => (inv.perform action).2) s₀ tracked.inv
      actions
  have length : s.cache.keys.length = s.cache.keyTracker.length := length_map ..
  have size : s.cache.getSize = s.cache.keyTracker.length := inv.sound.size
  refine ⟨inv.sound.keys, fun k => (inv.sound.containsKey_iff k).symm, by rw [size, length],
    by rw [size]; exact inv.sound.room, ?_, fun caller k idle => inv.lookupReturns idle k, ?_⟩
  · exact run_answers (P := Invariant cfg) (fun s action inv => inv.perform action) s₀ tracked.inv
      actions
  · intro once sequential caller e hin evicted
    have after := tracked.run once actions sequential
    rw [append_nil] at after
    exact after.evicts hin evicted

section TwoKeys

local instance : HashCode Nat where
  hashCode k := Int32.ofNat k

local instance : LawfulHashCode Nat where
  hashCode_eq _ _ same := by rw [eq_of_beq same]

def growing : Allocator Nat where
  address used := used.sum + 1
  fresh used := by
    have bound : ∀ x ∈ used, x ≤ used.sum := by
      induction used with
      | nil => simp
      | cons a used ih =>
        intro x member
        rw [sum_cons]
        rcases mem_cons.mp member with rfl | later
        · omega
        · exact Nat.le_add_left_of_le (ih x later)
    intro member
    have le := bound _ member
    omega

def pairConfig : LruConfig Nat Nat Nat where
  fn k := 10 * k
  capacity := 2
  minAccessCountForPromoting := 1
  allocator := growing
  capacity_ne_zero := by decide
  promoting_ne_zero := by decide

theorem runs_cache_pair :
    let actions : List (Action Unit Nat) :=
      [.lookup () 1, .insert (), .lookup () 2, .insert (), .lookup () 1, .promote (),
        .lookup () 3]
    let s := (run (perform pairConfig) (start 0 .threeQuarters ⟨0, 0, 0⟩) actions).2
    s.cache.keys = [2, 1] ∧ (s.perform pairConfig (.insert ())).2.cache.keys = [1, 3] ∧
      s.cache.getSize ≤ 2 ∧ age actions 1 < age actions 2 := by
  intro actions s
  have keys : s.cache.keys = [2, 1] := by decide +kernel
  have evicted : (s.perform pairConfig (.insert ())).2.cache.keys = [1, 3] := by decide +kernel
  obtain ⟨-, -, -, room, -, -, order⟩ := runs_cache pairConfig 0 .threeQuarters ⟨0, 0, 0⟩ actions
  have sequential : Sequential pairConfig (start 0 .threeQuarters ⟨0, 0, 0⟩) actions :=
    ⟨fun _ _ _ _ => rfl, by simp, fun _ _ _ caller => by cases caller; decide +kernel, by simp,
      fun _ _ _ caller => by cases caller; decide +kernel, by simp,
      fun _ _ _ caller => by cases caller; decide +kernel, trivial⟩
  exact ⟨keys, evicted, room,
    order rfl sequential () 2 (keys ▸ by decide) (evicted ▸ by decide) 1 (keys ▸ by decide)
      (by decide)⟩

end TwoKeys

end SharedCache

end Engine3
