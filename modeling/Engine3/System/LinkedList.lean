import Engine3.Library.Lockstep
import Engine3.Library.MachineInt
import Engine3.Library.NodeChain
import Engine3.System.Stream

/-!
# Linked lists

`system/util/LinkedList`: a chain of nodes behind one without an element, the number of elements,
and a pointer `current` to the node that the next element is added behind. Removing an element
leaves `current` as it is. When that was the last element, and others are left, `current` points
to a freed node until an element is added, which is done through it.
-/
namespace Engine3

open Exec Lockstep MachineInt NodeChain OwnedBlocks List Heap

structure LinkedList (O : Type) where
  heap : Heap (Node O)
  head : Nat
  current : Option Nat
  count : Int

namespace LinkedList

variable {O : Type}

inductive Failure
  | thrown (e : Exception)
  | fault (f : Fault)
  | overflow
  deriving DecidableEq

abbrev ListM (O : Type) := EStateM Failure (LinkedList O)

def onHeap {α : Type} (m : NodeM O α) : ListM O α := fun s =>
  match m s.heap with
  | .ok a h => .ok a { s with heap := h }
  | .error f h => .error (.fault f) { s with heap := h }

section Operations

def new [Inhabited O] : LinkedList O where
  heap := empty.push [some ⟨default, none⟩]
  head := 0
  current := none
  count := 0

def add (obj : O) : ListM O Unit := do
  let e ← onHeap (create obj none)
  let s ← get
  onHeap (link (if s.count = 0 then some s.head else s.current) (some e))
  modify fun s => { s with current := some e, count := i32 (s.count + 1) }

def checkIndex (index : Int32) : ListM O Unit := do
  let s ← get
  if index.toInt + 1 = 2 ^ 31 then throw .overflow
  else if s.count < index.toInt + 1 ∨ index.toInt < 0 then
    throw (.thrown (.arrayIndexOutOfBounds index.toInt))
  else return ()

def addAt (index : Int32) (obj : O) : ListM O Unit := do
  checkIndex index
  let newEntry ← onHeap (create obj none)
  let e ← onHeap (advance index.toInt.toNat (some (← get).head))
  let o ← onHeap (read e)
  match o.next with
  | some o => onHeap (link (some newEntry) (some o))
  | none => modify fun s => { s with current := some newEntry }
  onHeap (link e (some newEntry))
  modify fun s => { s with count := i32 (s.count + 1) }

def getAt (index : Int32) : ListM O O := do
  checkIndex index
  let e ← onHeap (advance (index.toInt + 1).toNat (some (← get).head))
  let o ← onHeap (read e)
  return o.value

def remove [Inhabited O] (index : Int32) : ListM O O := do
  checkIndex index
  let e ← onHeap (advance index.toInt.toNat (some (← get).head))
  let entry ← onHeap (read e)
  match entry.next with
  | some o =>
    let removed ← onHeap (read (some o))
    onHeap (link e removed.next)
    onHeap (free (some o))
    modify fun s => { s with count := i32 (s.count - 1) }
    return removed.value
  | none => return default

end Operations

/-! ### What a list holds -/

section Invariant

variable [Inhabited O]

/-- The nodes behind the first one. -/
structure Holds (s : LinkedList O) (cells : List (Nat × O)) : Prop where
  chain : Chain s.heap (some s.head) ((s.head, default) :: cells)
  distinct : (((s.head, default) :: cells).map Prod.fst).Nodup
  count : s.count = cells.length

omit [Inhabited O] in
def Cached (s : LinkedList O) (cells : List (Nat × O)) : Bool → Prop
  | false => ∀ e, cells.getLast? = some e → s.current = some e.1
  | true => cells ≠ [] ∧ ∃ c, s.current = some c ∧ c < s.heap.next ∧ s.heap.blocks c = none

theorem holds_new : Holds (new : LinkedList O) [] where
  chain := ⟨rfl, none, rfl, rfl⟩
  distinct := by simp
  count := rfl

variable {s : LinkedList O} {cells : List (Nat × O)}
  {α : Type} {h h' : Heap (Node O)} {front : List (Nat × O)} {a b : Nat} {v w : O}
  {next : Option Nat} {index : Int32} {m : NodeM O α}

omit [Inhabited O] in
theorem onHeap_ok {a : α} (ran : m s.heap = .ok a h) :
    onHeap m s = .ok a { s with heap := h } := by
  simp only [onHeap, ran]

omit [Inhabited O] in
theorem onHeap_error {f : Fault} (failed : m s.heap = .error f h) :
    onHeap m s = .error (.fault f) { s with heap := h } := by
  simp only [onHeap, failed]

theorem Holds.insert (holds : Holds s cells) {i : Nat}
    (split : ∀ rest, (s.head, default) :: (cells.take i ++ rest) = front ++ (a, v) :: rest)
    (before : s.heap.blocks a = some [some ⟨v, next⟩])
    (here : h.blocks a = some [some ⟨v, some s.heap.next⟩]) {obj : O}
    (new : h.blocks s.heap.next = some [some ⟨obj, next⟩])
    (others : ∀ c, s.heap.blocks c ≠ none → c ≠ a → h.blocks c = s.heap.blocks c)
    (fits : cells.length + 1 < 2 ^ 31) (current : Option Nat) :
    Holds ⟨h, s.head, current, i32 (s.count + 1)⟩
      (cells.take i ++ (s.heap.next, obj) :: cells.drop i) := by
  have whole : (s.head, default) :: cells = front ++ (a, v) :: cells.drop i := by
    rw [← split, take_append_drop]
  have chain := holds.chain
  have nodup := holds.distinct
  have fresh : s.heap.next ∉ ((s.head, default) :: cells).map Prod.fst := fun mem =>
    chain.live mem (s.heap.fresh _ (Nat.le_refl _))
  constructor
  · rw [whole] at chain nodup
    rw [split]
    exact chain.insert nodup before here new others
  · -- the new node is none of the old ones
    have moved : ((s.head, default) :: (cells.take i ++ (s.heap.next, obj) :: cells.drop i)).Perm
        ((s.heap.next, obj) :: (s.head, default) :: cells) := by
      rw [← cons_append]
      apply perm_middle.trans
      rw [cons_append, take_append_drop]
    rw [(moved.map Prod.fst).nodup_iff]
    exact nodup_cons.mpr ⟨fresh, nodup⟩
  · have len : (cells.take i ++ (s.heap.next, obj) :: cells.drop i).length =
        cells.length + 1 := by
      rw [length_append, length_cons, ← Nat.add_assoc, ← length_append,
        take_append_drop]
    rw [len]
    rw [holds.count, i32_of_small _ (by omega) (by omega)]
    rfl

theorem Holds.erase (holds : Holds s cells)
    (split : ∀ rest, (s.head, default) :: (cells.take front.length ++ rest) =
      front ++ (a, v) :: rest) (here : cells[front.length]? = some (b, w))
    (removed : s.heap.blocks b = some [some ⟨w, next⟩])
    (linked : h.blocks a = some [some ⟨v, next⟩])
    (others : ∀ c, c ≠ a → c ≠ b → h.blocks c = s.heap.blocks c) (lt : cells.length < 2 ^ 31)
    (current : Option Nat) :
    Holds ⟨h, s.head, current, i32 (s.count - 1)⟩
      (cells.take front.length ++ cells.drop (front.length + 1)) := by
  obtain ⟨hin, eq⟩ := List.getElem?_eq_some_iff.mp here
  have chain := holds.chain
  have nodup := holds.distinct
  have whole : (s.head, default) :: cells =
      front ++ (a, v) :: (b, w) :: cells.drop (front.length + 1) := by
    rw [← split, ← eq, getElem_cons_drop, take_append_drop]
  constructor
  · rw [whole] at chain nodup
    rw [split]
    exact chain.erase nodup removed linked others
  · -- without one node the others are still distinct
    have sub : (cells.take front.length ++ cells.drop (front.length + 1)).Sublist cells := by
      rw [← eraseIdx_eq_take_drop_succ]
      exact eraseIdx_sublist _ _
    exact ((sub.cons_cons _).map _).nodup nodup
  · have len : (cells.take front.length ++ cells.drop (front.length + 1)).length + 1 =
        cells.length := by
      rw [length_append, length_take, length_drop]
      omega
    have counted := holds.count
    change i32 (s.count - 1) = _
    rw [i32_of_small _ (by omega) (by omega)]
    omega

theorem Holds.last (holds : Holds s cells) (cached : Cached s cells false) :
    ∃ front a v, (s.head, default) :: cells = front ++ [(a, v)] ∧
      (if s.count = 0 then some s.head else s.current) = some a := by
  rcases eq_nil_or_concat cells with rfl | ⟨front, e, rfl⟩
  · exact ⟨[], s.head, default, rfl, if_pos holds.count⟩
  · have ne : s.count ≠ 0 := by
      rw [holds.count, length_concat]
      omega
    refine ⟨(s.head, default) :: front, e.1, e.2, by simp, ?_⟩
    rw [if_neg ne]
    exact cached e (by simp)

theorem add_spec (holds : Holds s cells) (cached : Cached s cells false) (obj : O) :
    ∃ s', add obj s = .ok () s' ∧ s'.count = i32 (s.count + 1) ∧
      Cached s' (cells ++ [(s.heap.next, obj)]) false ∧
      (cells.length + 1 < 2 ^ 31 → Holds s' (cells ++ [(s.heap.next, obj)])) := by
  obtain ⟨front, a, v, split, target⟩ := holds.last cached
  have chain := holds.chain
  rw [split] at chain
  obtain ⟨next, before, rfl⟩ := chain.at_middle
  have apart : a ≠ s.heap.next := Nat.ne_of_lt (lt_next (by simp [before]))
  have pushed : (s.heap.push [some ⟨obj, none⟩]).blocks a = some [some ⟨v, none⟩] := by
    rw [push_ne _ apart, before]
  refine ⟨⟨(s.heap.push [some ⟨obj, none⟩]).set a (some [some ⟨v, some s.heap.next⟩]), s.head,
    some s.heap.next, i32 (s.count + 1)⟩, ?_, rfl, ?_, ?_⟩
  · rw [add, bind_of_ok (onHeap_ok (create_ok obj none s.heap)),
      get_bind]
    simp only [target]
    rw [bind_of_ok (onHeap_ok (link_live pushed _))]
    rfl
  · intro e last
    rw [getLast?_concat] at last
    cases last
    rfl
  · -- at the end is the position after all nodes
    intro fits
    have whole : ∀ rest, (s.head, default) :: (cells.take cells.length ++ rest) =
        front ++ (a, v) :: rest := by
      intro rest
      rw [take_length, ← cons_append, split, append_assoc]
      rfl
    generalize linked : (s.heap.push [some ⟨obj, none⟩]).set a
      (some [some ⟨v, some s.heap.next⟩]) = h
    have here : h.blocks a = some [some ⟨v, some s.heap.next⟩] := by
      rw [← linked]
      exact set_self _ _ (by simp [pushed])
    have new : h.blocks s.heap.next = some [some ⟨obj, none⟩] := by
      rw [← linked, set_ne _ _ apart.symm, push_self]
    have others : ∀ c, s.heap.blocks c ≠ none → c ≠ a → h.blocks c = s.heap.blocks c := by
      intro c live ne
      rw [← linked, set_ne _ _ ne, push_live _ _ live]
    have inserted := holds.insert whole before here new others fits (some s.heap.next)
    rwa [take_length, drop_length] at inserted

/-! ### Positions -/

omit [Inhabited O] in
theorem checkIndex_inside (low : 0 ≤ index.toInt) (high : index.toInt < s.count)
    (lt : s.count < 2 ^ 31) : checkIndex index s = .ok () s := by
  have fits : ¬ index.toInt + 1 = 2 ^ 31 := by omega
  have hin : ¬ (s.count < index.toInt + 1 ∨ index.toInt < 0) := by omega
  exact (ite_run_neg fits).trans (ite_run_neg hin)

omit [Inhabited O] in
theorem checkIndex_outside (fits : index.toInt + 1 ≠ 2 ^ 31)
    (out : index.toInt < 0 ∨ s.count ≤ index.toInt) :
    checkIndex index s = .error (.thrown (.arrayIndexOutOfBounds index.toInt)) s := by
  have beyond : s.count < index.toInt + 1 ∨ index.toInt < 0 := by omega
  exact (ite_run_neg fits).trans (ite_run_pos beyond)

omit [Inhabited O] in
theorem checkIndex_overflow (last : index.toInt + 1 = 2 ^ 31) :
    checkIndex index s = .error .overflow s :=
  ite_run_pos last

def StayFreed (h h' : Heap (Node O)) : Prop :=
  ∀ c, c < h.next → h.blocks c = none → c < h'.next ∧ h'.blocks c = none

omit [Inhabited O] in
theorem StayFreed.refl (h : Heap (Node O)) : StayFreed h h := fun _ below freed => ⟨below, freed⟩

omit [Inhabited O] in
theorem StayFreed.push (kept : StayFreed h h') (cells : List (Option (Node O))) :
    StayFreed h (h'.push cells) := by
  intro c below freed
  obtain ⟨below', freed'⟩ := kept c below freed
  exact ⟨Nat.lt_succ_of_lt below', by rw [push_ne _ (Nat.ne_of_lt below'), freed']⟩

omit [Inhabited O] in
theorem StayFreed.set (kept : StayFreed h h') (used : h.blocks a ≠ none ∨ h.next ≤ a)
    (cells : Option (List (Option (Node O)))) :
    StayFreed h (h'.set a cells) := by
  intro c below freed
  obtain ⟨below', freed'⟩ := kept c below freed
  have ne : c ≠ a := by
    rintro rfl
    rcases used with live | new
    · exact live freed
    · omega
  exact ⟨below', by rw [set_ne _ _ ne, freed']⟩

theorem addAt_spec (holds : Holds s cells) (obj : O) (low : 0 ≤ index.toInt)
    (high : index.toInt < cells.length) (lt : cells.length < 2 ^ 31) :
    ∃ s', addAt index obj s = .ok () s' ∧ s'.count = i32 (s.count + 1) ∧
      StayFreed s.heap s'.heap ∧ s'.current = s.current ∧
      (cells.length + 1 < 2 ^ 31 → Holds s' (cells.take index.toInt.toNat ++ (s.heap.next, obj) ::
        cells.drop index.toInt.toNat)) := by
  have counted := holds.count
  have checked := checkIndex_inside low (counted ▸ high) (by omega)
  generalize pos : index.toInt.toNat = i
  have hin : i < cells.length := by omega
  obtain ⟨front, a, v, rfl, split⟩ := exists_node (s.head, default) (Nat.le_of_lt hin)
  have chain := holds.chain
  rw [← take_append_drop front.length cells, split] at chain
  obtain ⟨next, before, behind⟩ := chain.at_middle
  -- there is a node behind, so `current` is not touched
  obtain ⟨o, rfl⟩ : ∃ o, next = some o := by
    cases rest : cells.drop front.length with
    | nil => simp [drop_eq_nil_iff] at rest; omega
    | cons cell later =>
      rw [rest] at behind
      exact ⟨cell.1, behind.1⟩
  have apart : a ≠ s.heap.next := Nat.ne_of_lt (lt_next (by simp [before]))
  have pushed : (s.heap.push [some ⟨obj, none⟩]).blocks a = some [some ⟨v, some o⟩] := by
    rw [push_ne _ apart, before]
  have reached := (chain.frame fun c mem =>
    push_live s.heap [some ⟨obj, none⟩] (chain.live mem)).advance
  have linked : ((s.heap.push [some ⟨obj, none⟩]).set s.heap.next
      (some [some ⟨obj, some o⟩])).blocks a = some [some ⟨v, some o⟩] := by
    rw [set_ne _ _ apart, pushed]
  have new : (s.heap.push [some ⟨obj, none⟩]).blocks s.heap.next = some [some ⟨obj, none⟩] :=
    push_self _ _
  refine ⟨⟨((s.heap.push [some ⟨obj, none⟩]).set s.heap.next (some [some ⟨obj, some o⟩])).set a
    (some [some ⟨v, some s.heap.next⟩]), s.head, s.current, i32 (s.count + 1)⟩, ?_, rfl,
    (((StayFreed.refl _).push _).set (.inr (Nat.le_refl _)) _).set (.inl (by simp [before])) _, rfl,
    ?_⟩
  · rw [addAt, bind_of_ok checked,
      bind_of_ok (onHeap_ok (create_ok obj none s.heap)), get_bind,
      pos, bind_of_ok (onHeap_ok reached),
      bind_of_ok (onHeap_ok (read_live pushed))]
    apply (bind_of_ok (onHeap_ok
      (link_live new (some o)))).trans
    exact bind_of_ok (onHeap_ok (link_live linked _))
  · intro fits
    apply holds.insert split before _ _ _ fits
    · exact set_self _ _ (by simp [linked])
    · rw [set_ne _ _ apart.symm, set_self _ _ (by simp [new])]
    · intro c live ne
      rw [set_ne _ _ ne, set_ne _ _ (Nat.ne_of_lt (lt_next live)),
        push_live _ _ live]

theorem getAt_spec (holds : Holds s cells) (low : 0 ≤ index.toInt) (lt : cells.length < 2 ^ 31)
    (here : cells[index.toInt.toNat]? = some (a, v)) :
    getAt index s = .ok v s := by
  obtain ⟨hin, eq⟩ := List.getElem?_eq_some_iff.mp here
  have counted := holds.count
  have checked := checkIndex_inside low (s := s) (by omega) (by omega)
  have pos : (index.toInt + 1).toNat = index.toInt.toNat + 1 := by omega
  generalize index.toInt.toNat = i at pos hin eq
  have chain := holds.chain
  have whole : (s.head, default) :: cells =
      ((s.head, default) :: cells.take i) ++ (a, v) :: cells.drop (i + 1) := by
    rw [← eq, cons_append, getElem_cons_drop, take_append_drop]
  rw [whole] at chain
  obtain ⟨next, block, -⟩ := chain.at_middle
  have reached := chain.advance
  rw [length_cons, length_take, Nat.min_eq_left (Nat.le_of_lt hin)] at reached
  rw [getAt, bind_of_ok checked, get_bind, pos,
    bind_of_ok (onHeap_ok reached),
    bind_of_ok (onHeap_ok (read_live block))]
  rfl

theorem remove_spec (holds : Holds s cells) (low : 0 ≤ index.toInt) (lt : cells.length < 2 ^ 31)
    (here : cells[index.toInt.toNat]? = some (b, w)) :
    ∃ s', remove index s = .ok w s' ∧ StayFreed s.heap s'.heap ∧ s'.current = s.current ∧
      b < s'.heap.next ∧ s'.heap.blocks b = none ∧
      Holds s' (cells.take index.toInt.toNat ++ cells.drop (index.toInt.toNat + 1)) := by
  obtain ⟨hin, eq⟩ := List.getElem?_eq_some_iff.mp here
  have counted := holds.count
  have checked := checkIndex_inside low (s := s) (by omega) (by omega)
  generalize pos : index.toInt.toNat = i at hin eq here
  obtain ⟨front, a, v, rfl, split⟩ := exists_node (s.head, default) (Nat.le_of_lt hin)
  have whole : (s.head, default) :: cells =
      front ++ (a, v) :: (b, w) :: cells.drop (front.length + 1) := by
    rw [← split, ← eq, getElem_cons_drop, take_append_drop]
  have chain := holds.chain
  have nodup := holds.distinct
  rw [whole] at chain nodup
  obtain ⟨_, before, rfl, next, removed, -⟩ := chain.at_middle
  have apart : b ≠ a := by
    rw [map_append] at nodup
    have later := nodup.of_append_right
    rintro rfl
    simp at later
  have below : b < s.heap.next := lt_next (by simp [removed])
  -- the node in front is linked past it first, then it is freed
  have linked : (s.heap.set a (some [some ⟨v, next⟩])).blocks b = some [some ⟨w, next⟩] := by
    rw [set_ne _ _ apart, removed]
  refine ⟨⟨(s.heap.set a (some [some ⟨v, next⟩])).set b none, s.head, s.current,
    i32 (s.count - 1)⟩, ?_, ((StayFreed.refl _).set (.inl (by simp [before])) _).set
      (.inl (by simp [removed])) _, rfl, below, set_self _ _ (by simp [linked]), ?_⟩
  · rw [remove, bind_of_ok checked, get_bind, pos,
      bind_of_ok (onHeap_ok chain.advance),
      bind_of_ok (onHeap_ok (read_live before))]
    apply (bind_of_ok (onHeap_ok (read_live removed))).trans
    rw [bind_of_ok (onHeap_ok (link_live before next))]
    apply (bind_of_ok (onHeap_ok
      (free_live linked))).trans
    rfl
  · apply holds.erase split here removed _ _ lt
    · rw [set_ne _ _ apart.symm, set_self _ _ (by simp [before])]
    · intro c ne ne'
      rw [set_ne _ _ ne', set_ne _ _ ne]

end Invariant

/-! ### Runs -/

inductive Op (O : Type)
  | add (obj : O)
  | addAt (index : Int32) (obj : O)
  | get (index : Int32)
  | remove (index : Int32)

inductive Answer (O : Type)
  | nothing
  | value (o : O)
  | thrown (e : Exception)
  deriving DecidableEq

def Failure.answer : Failure → Option (Answer O)
  | .thrown e => some (.thrown e)
  | _ => none

def perform [Inhabited O] : Op O → ListM O (Answer O)
  | .add obj => catching Failure.answer ((fun _ => .nothing) <$> add obj)
  | .addAt index obj => catching Failure.answer ((fun _ => .nothing) <$> addAt index obj)
  | .get index => catching Failure.answer (.value <$> getAt index)
  | .remove index => catching Failure.answer (.value <$> remove index)

structure Sequence (O : Type) where
  contents : List O
  stale : Bool

namespace Sequence

def element (q : Sequence O) (index : Int32) : Option O :=
  if index.toInt < 0 then none else q.contents[index.toInt.toNat]?

def perform (q : Sequence O) : Op O → Answer O × Sequence O
  | .add obj => (.nothing, ⟨q.contents ++ [obj], false⟩)
  | .addAt index obj =>
    match q.element index with
    | some _ =>
      (.nothing, ⟨q.contents.take index.toInt.toNat ++ obj :: q.contents.drop index.toInt.toNat,
        q.stale⟩)
    | none => (.thrown (.arrayIndexOutOfBounds index.toInt), q)
  | .get index =>
    match q.element index with
    | some o => (.value o, q)
    | none => (.thrown (.arrayIndexOutOfBounds index.toInt), q)
  | .remove index =>
    match q.element index with
    | some o =>
      let rest := q.contents.take index.toInt.toNat ++ q.contents.drop (index.toInt.toNat + 1)
      (.value o, ⟨rest, !rest.isEmpty && (q.stale || index.toInt.toNat + 1 == q.contents.length)⟩)
    | none => (.thrown (.arrayIndexOutOfBounds index.toInt), q)

/-- When a call goes right. -/
def Sound (q : Sequence O) : Op O → Prop
  | .add _ => q.stale = false ∧ q.contents.length + 1 < 2 ^ 31
  | .addAt index _ =>
    index.toInt + 1 ≠ 2 ^ 31 ∧ (q.element index ≠ none → q.contents.length + 1 < 2 ^ 31)
  | .get index => index.toInt + 1 ≠ 2 ^ 31
  | .remove index => index.toInt + 1 ≠ 2 ^ 31

theorem element_eq_none_iff (q : Sequence O) (index : Int32) :
    q.element index = none ↔ index.toInt < 0 ∨ (q.contents.length : Int) ≤ index.toInt := by
  unfold element
  split
  next negative => simp [negative]
  next low =>
    rw [getElem?_eq_none_iff]
    omega

theorem element_eq_some_iff (q : Sequence O) (index : Int32) (o : O) :
    q.element index = some o ↔ 0 ≤ index.toInt ∧ q.contents[index.toInt.toNat]? = some o := by
  unfold element
  split
  next negative => simp [negative]
  next low => simp [Int.not_lt.mp low]

end Sequence

section Runs

variable [Inhabited O] {s s' : LinkedList O} {q : Sequence O}

/-- What is seen of a list: its elements, all in nodes that are not freed, and their number. -/
def Contents (s : LinkedList O) (q : Sequence O) : Prop :=
  ∃ cells, Holds s cells ∧ cells.map Prod.snd = q.contents

/-- With where `current` points. -/
def Invariant (s : LinkedList O) (q : Sequence O) : Prop :=
  ∃ cells, Holds s cells ∧ cells.map Prod.snd = q.contents ∧ Cached s cells q.stale ∧
    cells.length < 2 ^ 31

theorem invariant_new : Invariant (new : LinkedList O) ⟨[], false⟩ :=
  ⟨[], holds_new, rfl, fun _ last => by simp at last, Nat.two_pow_pos 31⟩

theorem Invariant.contents (inv : Invariant s q) : Contents s q := by
  obtain ⟨cells, holds, eq, -⟩ := inv
  exact ⟨cells, holds, eq⟩

variable {α : Type} {index : Int32} {cells : List (Nat × O)} {stale : Bool} {i : Nat} {xs : List O}
  {obj : O}

omit [Inhabited O] in
theorem returned_of_answer {answer : α → Answer O} {m : ListM O α} {a : Answer O}
    (ran : catching Failure.answer (answer <$> m) s = .ok a s') (ne : ∀ e, a ≠ .thrown e) :
    ∃ r, m s = .ok r s' ∧ answer r = a := by
  apply map_ok_iff.mp
  apply returned_of_catching ran
  intro f caught
  cases f with
  | thrown e => exact ne e (Option.some.inj caught).symm
  | fault f => cases caught
  | overflow => cases caught

/-! One call at a time: what it does where it is sound. -/

theorem Invariant.add (inv : Invariant s q) (obj : O) (sound : q.Sound (.add obj)) :
    Follows perform Sequence.perform Invariant s q (.add obj) := by
  obtain ⟨cells, holds, eq, cached, lt⟩ := inv
  obtain ⟨current, fits⟩ := sound
  have len : cells.length = q.contents.length := by rw [← eq, length_map]
  rw [current] at cached
  obtain ⟨s', added, -, cached', holds'⟩ := add_spec holds cached obj
  refine ⟨s', catching_ok (map_ok _ added), _, holds' (by omega), ?_, cached', ?_⟩
  · simp [Sequence.perform, eq]
  · simp
    omega

theorem Invariant.thrown (inv : Invariant s q) (fits : index.toInt + 1 ≠ 2 ^ 31)
    (absent : q.element index = none) (answer : α → Answer O) (rest : Unit → ListM O α) :
    catching Failure.answer (answer <$> (checkIndex index >>= rest)) s =
      .ok (.thrown (.arrayIndexOutOfBounds index.toInt)) s := by
  obtain ⟨cells, holds, eq, -⟩ := inv
  rw [Sequence.element_eq_none_iff, ← eq, length_map, ← holds.count] at absent
  have checked := checkIndex_outside fits absent
  exact catching_caught (map_error _ (bind_of_error checked)) rfl

omit [Inhabited O] in
theorem Cached.frame {cells' : List (Nat × O)} (cached : Cached s cells stale)
    (kept : StayFreed s.heap s'.heap) (current : s'.current = s.current) (some : cells' ≠ [])
    (last : cells'.getLast? = cells.getLast?) : Cached s' cells' stale := by
  cases stale with
  | false =>
    intro e here
    exact current.trans (cached e (last ▸ here))
  | true =>
    obtain ⟨-, c, ptr, below, freed⟩ := cached
    exact ⟨some, c, current.trans ptr, kept c below freed⟩

omit [Inhabited O] in
theorem getLast?_append_drop (front cells : List (Nat × O)) (hin : i < cells.length) :
    (front ++ cells.drop i).getLast? = cells.getLast? := by
  have behind : cells.drop i ≠ [] := by
    rw [ne_eq, drop_eq_nil_iff]
    omega
  rw [getLast?_append_of_ne_nil _ behind,
    ← getLast?_append_of_ne_nil (cells.take i) behind, take_append_drop]

omit [Inhabited O] in
theorem Cached.remove (cached : Cached s cells stale) (kept : StayFreed s.heap s'.heap)
    (current : s'.current = s.current) {b : Nat} {w : O} (here : cells[i]? = some (b, w))
    (below : b < s'.heap.next) (freed : s'.heap.blocks b = none) :
    Cached s' (cells.take i ++ cells.drop (i + 1))
      (!(cells.take i ++ cells.drop (i + 1)).isEmpty && (stale || i + 1 == cells.length)) := by
  obtain ⟨hin, -⟩ := List.getElem?_eq_some_iff.mp here
  by_cases empty : cells.take i ++ cells.drop (i + 1) = []
  · rw [empty]
    intro e last
    simp at last
  · have some : (cells.take i ++ cells.drop (i + 1)).isEmpty = false := by simpa using empty
    rw [some, Bool.not_false, Bool.true_and]
    by_cases last : i + 1 = cells.length
    · -- the last node is freed: `current` points to it, unless it points to one freed before
      rw [beq_iff_eq.mpr last, Bool.or_true]
      cases stale with
      | true =>
        obtain ⟨-, c, ptr, old⟩ := cached
        exact ⟨empty, c, current.trans ptr, kept c old.1 old.2⟩
      | false =>
        have ptr : s.current = Option.some b := by
          apply cached (b, w)
          rw [getLast?_eq_getElem?, ← here]
          congr 1
          omega
        exact ⟨empty, b, current.trans ptr, below, freed⟩
    · rw [beq_false_of_ne last, Bool.or_false]
      apply cached.frame kept current empty
      exact getLast?_append_drop _ cells (by omega)

variable (invariant : Invariant s q)
include invariant

theorem Invariant.addAt (index : Int32) (obj : O) (sound : q.Sound (.addAt index obj)) :
    Follows perform Sequence.perform Invariant s q (.addAt index obj) := by
  obtain ⟨fits, room⟩ := sound
  cases element : q.element index with
  | none =>
    have spec : q.perform (.addAt index obj) =
        (.thrown (.arrayIndexOutOfBounds index.toInt), q) := by
      simp only [Sequence.perform, element]
    exact follows_of spec (invariant.thrown fits element _ _) invariant
  | some o =>
    obtain ⟨cells, holds, eq, cached, lt⟩ := invariant
    have len : cells.length = q.contents.length := by rw [← eq, length_map]
    obtain ⟨low, here⟩ := (q.element_eq_some_iff index o).mp element
    obtain ⟨hin, -⟩ := List.getElem?_eq_some_iff.mp here
    have more := room (by simp [element])
    obtain ⟨s', added, -, kept, current, holds'⟩ :=
      addAt_spec holds obj low (by omega) lt
    have spec : q.perform (.addAt index obj) =
        (.nothing, ⟨q.contents.take index.toInt.toNat ++ obj :: q.contents.drop index.toInt.toNat,
          q.stale⟩) := by
      simp only [Sequence.perform, element]
    refine follows_of spec (catching_ok (map_ok _ added))
      ⟨_, holds' (by omega), ?_, ?_, ?_⟩
    · simp only [map_append, map_cons, map_take, map_drop, eq]
    · -- there is a node behind the new one, so the last node is the same
      apply cached.frame kept current (by simp)
      rw [append_cons]
      exact getLast?_append_drop _ cells (by omega)
    · simp
      omega

theorem Invariant.get (index : Int32) (sound : q.Sound (.get index)) :
    Follows perform Sequence.perform Invariant s q (.get index) := by
  cases element : q.element index with
  | none =>
    have spec : q.perform (.get index) =
        (.thrown (.arrayIndexOutOfBounds index.toInt), q) := by
      simp only [Sequence.perform, element]
    exact follows_of spec (invariant.thrown sound element _ _) invariant
  | some o =>
    have spec : q.perform (.get index) = (.value o, q) := by
      simp only [Sequence.perform, element]
    obtain ⟨cells, holds, eq, cached, lt⟩ := id invariant
    obtain ⟨low, here⟩ := (q.element_eq_some_iff index o).mp element
    rw [← eq, getElem?_map, Option.map_eq_some_iff] at here
    obtain ⟨⟨a, v⟩, here, rfl⟩ := here
    have got := getAt_spec holds low lt here
    exact follows_of spec (catching_ok (map_ok _ got)) invariant

theorem Invariant.remove (index : Int32) (sound : q.Sound (.remove index)) :
    Follows perform Sequence.perform Invariant s q (.remove index) := by
  cases element : q.element index with
  | none =>
    have spec : q.perform (.remove index) =
        (.thrown (.arrayIndexOutOfBounds index.toInt), q) := by
      simp only [Sequence.perform, element]
    exact follows_of spec (invariant.thrown sound element _ _) invariant
  | some o =>
    obtain ⟨cells, holds, eq, cached, lt⟩ := invariant
    obtain ⟨low, here⟩ := (q.element_eq_some_iff index o).mp element
    rw [← eq, getElem?_map, Option.map_eq_some_iff] at here
    obtain ⟨⟨b, w⟩, here, rfl⟩ := here
    obtain ⟨s', removed, kept, current, below, freed, holds'⟩ :=
      remove_spec holds low lt here
    generalize pos : index.toInt.toNat = i at here holds'
    have rest : q.contents.take i ++ q.contents.drop (i + 1) =
        (cells.take i ++ cells.drop (i + 1)).map Prod.snd := by
      rw [← eq, map_append, map_take, map_drop]
    have len : q.contents.length = cells.length := by rw [← eq, length_map]
    have spec : q.perform (.remove index) = (.value w,
        ⟨(cells.take i ++ cells.drop (i + 1)).map Prod.snd,
          !(cells.take i ++ cells.drop (i + 1)).isEmpty &&
            (q.stale || i + 1 == cells.length)⟩) := by
      simp only [Sequence.perform, element, pos, rest, isEmpty_map, len]
    refine follows_of spec (catching_ok (map_ok _ removed)) ⟨_, holds', rfl, ?_, ?_⟩
    · exact cached.remove kept current here below freed
    · rw [length_append, length_take, length_drop]
      omega

theorem Invariant.follows (op : Op O) (sound : q.Sound op) :
    Follows perform Sequence.perform Invariant s q op := by
  cases op with
  | add obj => exact invariant.add obj sound
  | addAt index obj => exact invariant.addAt index obj sound
  | get index => exact invariant.get index sound
  | remove index => exact invariant.remove index sound

omit invariant

/-! The calls of a client that never makes the list stale. -/

theorem Invariant.add_returns (invariant : Invariant s ⟨xs, false⟩) (obj : O)
    (fits : xs.length + 1 < 2 ^ 31) :
    ∃ s', LinkedList.add obj s = .ok () s' ∧ Invariant s' ⟨xs ++ [obj], false⟩ := by
  obtain ⟨s', ran, inv'⟩ := invariant.add obj ⟨rfl, fits⟩
  obtain ⟨_, added, -⟩ := returned_of_answer ran (by simp [Sequence.perform])
  exact ⟨s', added, inv'⟩

theorem Invariant.addAt_returns (invariant : Invariant s ⟨xs, false⟩) {index : Int32} (obj : O)
    (low : 0 ≤ index.toInt) (high : index.toInt < xs.length) (fits : xs.length + 1 < 2 ^ 31) :
    ∃ s', LinkedList.addAt index obj s = .ok () s' ∧
      Invariant s' ⟨xs.take index.toInt.toNat ++ obj :: xs.drop index.toInt.toNat, false⟩ := by
  have hin : index.toInt.toNat < xs.length := by omega
  have element : Sequence.element ⟨xs, false⟩ index = some (xs[index.toInt.toNat]) :=
    (Sequence.element_eq_some_iff _ _ _).mpr ⟨low, getElem?_eq_getElem hin⟩
  obtain ⟨s', ran, inv'⟩ := invariant.addAt index obj ⟨by omega, fun _ => fits⟩
  simp only [Sequence.perform, element] at ran inv'
  obtain ⟨_, added, -⟩ := returned_of_answer ran (by simp)
  exact ⟨s', added, inv'⟩

theorem Invariant.remove_front {x : O} (invariant : Invariant s ⟨x :: xs, false⟩) :
    ∃ s', LinkedList.remove 0 s = .ok x s' ∧ Invariant s' ⟨xs, false⟩ := by
  have spec : Sequence.perform ⟨x :: xs, false⟩ (.remove 0) = (.value x, ⟨xs, false⟩) := by
    cases xs <;> rfl
  have fits : (0 : Int32).toInt + 1 ≠ 2 ^ 31 := by decide
  obtain ⟨s', ran, inv'⟩ := invariant.remove 0 fits
  rw [spec] at ran inv'
  obtain ⟨o, removed, val⟩ := returned_of_answer ran (by simp)
  cases val
  exact ⟨s', removed, inv'⟩

theorem Invariant.addAt_empty (invariant : Invariant s ⟨[], stale⟩) (obj : O) :
    LinkedList.addAt 0 obj s = .error (.thrown (.arrayIndexOutOfBounds 0)) s := by
  obtain ⟨cells, holds, eq, -⟩ := invariant
  have counted : s.count = 0 := by
    rw [holds.count, map_eq_nil_iff.mp eq]
    rfl
  apply bind_of_error
  exact checkIndex_outside (by decide) (.inr (by rw [counted]; decide))

theorem Invariant.small (invariant : Invariant s q) : q.contents.length < 2 ^ 31 := by
  obtain ⟨cells, -, eq, -, lt⟩ := invariant
  rwa [← eq, length_map]

theorem Invariant.count_eq (invariant : Invariant s q) : s.count = q.contents.length := by
  obtain ⟨cells, holds, eq, -⟩ := invariant
  rw [holds.count, ← eq, length_map]

/-! Where a call is not sound, it does not go right. -/

theorem add_stale (holds : Holds s cells) (cached : Cached s cells true) (obj : O) :
    ∃ c s', add obj s = .error (.fault (.freed c)) s' := by
  obtain ⟨ne, c, ptr, below, freed⟩ := cached
  have counted : s.count ≠ 0 := by
    rw [holds.count]
    simpa using ne
  have dead : (s.heap.push [some ⟨obj, none⟩]).blocks c = none := by
    rw [push_ne _ (Nat.ne_of_lt below), freed]
  refine ⟨c, { s with heap := s.heap.push [some ⟨obj, none⟩] }, ?_⟩
  rw [add, bind_of_ok (onHeap_ok (create_ok obj none s.heap)),
    get_bind]
  apply bind_of_error
  simp only [counted, if_false, ptr]
  exact onHeap_error (link_dead dead _)

theorem Contents.fits (contents : Contents s' q) {z : Int} (size : s'.count = i32 z) :
    q.contents.length < 2 ^ 31 := by
  obtain ⟨cells, holds, eq⟩ := contents
  have count_eq : (cells.length : Int) = i32 z := holds.count.symm.trans size
  rw [← eq, length_map]
  unfold i32 at count_eq
  omega

omit [Inhabited O] in
theorem onHeap_count {m : NodeM O α} {a : α} (ran : onHeap m s = .ok a s') :
    s'.count = s.count := by
  unfold onHeap at ran
  split at ran
  · cases ran
    rfl
  · cases ran

omit [Inhabited O] in
theorem add_count (added : add obj s = .ok () s') :
    s'.count = i32 (s.count + 1) := by
  obtain ⟨e, s₁, created, later⟩ := bind_ok_iff.mp added
  obtain ⟨_, _, got, later⟩ := bind_ok_iff.mp later
  cases got
  obtain ⟨_, s₂, linked, later⟩ := bind_ok_iff.mp later
  cases later
  change i32 (s₂.count + 1) = _
  rw [onHeap_count linked, onHeap_count created]

theorem Invariant.addAt_count (invariant : Invariant s q) (low : 0 ≤ index.toInt)
    (high : index.toInt < q.contents.length) (added : LinkedList.addAt index obj s = .ok () s') :
    s'.count = i32 (s.count + 1) := by
  obtain ⟨cells, holds, eq, -, lt⟩ := invariant
  rw [← eq, length_map] at high
  obtain ⟨s'', added', counted, -⟩ := addAt_spec holds obj low high lt
  rw [added] at added'
  cases added'
  exact counted

omit [Inhabited O] in
theorem catching_overflow (last : index.toInt + 1 = 2 ^ 31) (answer : α → Answer O)
    (rest : Unit → ListM O α) :
    catching Failure.answer (answer <$> (checkIndex index >>= rest)) s = .error .overflow s := by
  have stopped := bind_of_error (f := rest) (checkIndex_overflow (s := s) last)
  exact catching_error (map_error _ stopped) rfl

theorem Invariant.sound_add (invariant : Invariant s q) {obj : O}
    (follows : Follows perform Sequence.perform Contents s q (.add obj)) :
    q.Sound (.add obj) := by
  obtain ⟨cells, holds, eq, cached, lt⟩ := invariant
  obtain ⟨s', ran, contents⟩ := follows
  cases stale : q.stale with
  | true =>
    rw [stale] at cached
    obtain ⟨c, s'', failed⟩ := add_stale holds cached obj
    rw [perform, catching_error (map_error _ failed) rfl] at ran
    cases ran
  | false =>
    obtain ⟨_, added, -⟩ := returned_of_answer ran (by simp [Sequence.perform])
    exact ⟨stale, by simpa [Sequence.perform] using contents.fits (add_count added)⟩

theorem Invariant.sound_addAt (invariant : Invariant s q) {index : Int32} {obj : O}
    (follows : Follows perform Sequence.perform Contents s q (.addAt index obj)) :
    q.Sound (.addAt index obj) := by
  obtain ⟨s', ran, contents⟩ := follows
  constructor
  · intro last
    rw [perform, LinkedList.addAt, catching_overflow last] at ran
    cases ran
  · intro present
    obtain ⟨o, element⟩ := Option.ne_none_iff_exists'.mp present
    obtain ⟨low, here⟩ := (q.element_eq_some_iff index o).mp element
    obtain ⟨hin, -⟩ := List.getElem?_eq_some_iff.mp here
    simp only [Sequence.perform, element] at ran contents
    obtain ⟨_, added, -⟩ := returned_of_answer ran (by simp)
    have fits := contents.fits (invariant.addAt_count low (by omega) added)
    simp at fits
    omega

theorem Invariant.sound (invariant : Invariant s q) (op : Op O)
    (follows : Follows perform Sequence.perform Contents s q op) : q.Sound op := by
  cases op with
  | add obj => exact invariant.sound_add follows
  | addAt index obj => exact invariant.sound_addAt follows
  | get index =>
    obtain ⟨s', ran, -⟩ := follows
    intro last
    rw [perform, getAt, catching_overflow last] at ran
    cases ran
  | remove index =>
    obtain ⟨s', ran, -⟩ := follows
    intro last
    rw [perform, LinkedList.remove, catching_overflow last] at ran
    cases ran

/-- Exactly while nothing is added behind a removed last element and an `int` is enough. -/
theorem list_is_sequence_iff (ops : List (Op O)) :
    InStep LinkedList.perform Sequence.perform Contents (new : LinkedList O) ⟨[], false⟩ ops ↔
      Along Sequence.perform Sequence.Sound ⟨[], false⟩ ops := by
  apply inStep_observed_iff (P := fun _ _ => True) (R := Invariant) _ _ _ _ _ invariant_new
  · exact along_of_forall (fun _ _ => trivial) _ ops
  · intro s q invariant
    exact invariant.contents
  · intro s q op invariant _ sound
    exact invariant.follows op sound
  · intro s q op invariant _ follows
    exact invariant.sound op follows

theorem list_reaches_freed :
    ∃ s s' : LinkedList Nat, ∃ c,
      (do
        let _ ← LinkedList.perform (.add 1)
        let _ ← LinkedList.perform (.add 2)
        LinkedList.perform (.remove 1)) new = .ok (.value 2) s ∧
      LinkedList.perform (.add 3) s = .error (.fault (.freed c)) s' := by
  exact ⟨_, _, _, rfl, rfl⟩

end Runs

end LinkedList

end Engine3
