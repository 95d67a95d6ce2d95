import Mathlib.Data.List.Nodup
import Engine3.Library.Exec
import Engine3.Library.LeftistHeap
import Engine3.Library.Machine
import Engine3.System.SortedVector
import Engine3.System.Stream

/-!
# Mergeable priority queues

`system/util/PriorityQueue`: a leftist heap of entries that carry their own links, merged
destructively. Entries are named by what identifies them in memory, and the memory maps every
one to its links. A queue knows its root and how many entries it has.

The pointer operations are related to those on trees of `LeftistHeap`: they leave in memory the
tree that the operation on trees gives.
-/
namespace Engine3

open Exec LeftistHeap Machine List

structure PriorityQueueEntry (ι : Type) where
  parentNode : Option ι
  leftNode : Option ι
  rightNode : Option ι
  npl : Int
  enqueued : Bool
  deriving DecidableEq, Repr

abbrev EntryMemory (ι : Type) := ι → PriorityQueueEntry ι

def PriorityQueueEntry.unlinked {ι : Type} : PriorityQueueEntry ι :=
  { parentNode := none, leftNode := none, rightNode := none, npl := 0, enqueued := false }

structure PriorityQueue (ι : Type) where
  root : Option ι
  count : Int
  deriving DecidableEq, Repr

namespace PriorityQueue

variable {ι : Type} [DecidableEq ι]

abbrev EntryM (ι : Type) := EStateM Exception (EntryMemory ι)

def assign (e : ι) (f : PriorityQueueEntry ι → PriorityQueueEntry ι) (mem : EntryMemory ι) :
    EntryMemory ι :=
  Function.update mem e (f (mem e))

def setParent (parent : Option ι) (e : ι) : EntryMemory ι → EntryMemory ι :=
  assign e fun entry => { entry with parentNode := parent }

def setParent? (parent : Option ι) : Option ι → EntryMemory ι → EntryMemory ι
  | none, mem => mem
  | some e, mem => setParent parent e mem

def unlink (e : ι) : EntryMemory ι → EntryMemory ι :=
  assign e fun entry =>
    { entry with parentNode := none, leftNode := none, rightNode := none, enqueued := false }

/-! ### Merging -/

def mergedRight (h1 left right : ι) (mem : EntryMemory ι) : EntryMemory ι :=
  let mem := assign h1 (fun entry => { entry with rightNode := some right }) mem
  let mem := setParent (some h1) right mem
  if (mem left).npl < (mem right).npl then
    assign h1 (fun entry => { entry with
      leftNode := some right, rightNode := some left, npl := (mem left).npl + 1 }) mem
  else assign h1 (fun entry => { entry with npl := (mem right).npl + 1 }) mem

def merge1 (mergeRight : Option ι → Option ι → EntryM ι (Option ι)) (h1 h2 : ι) :
    EntryM ι (Option ι) := fun mem =>
  match (mem h1).leftNode with
  | none =>
    .ok (some h1)
      (setParent (some h1) h2 (assign h1 (fun entry => { entry with leftNode := some h2 }) mem))
  | some left =>
    if (mem h1).rightNode = some h2 then .error (.abort "h1->rightNode != h2") mem
    else
      match mergeRight (mem h1).rightNode (some h2) mem with
      | .error e mem => .error e mem
      | .ok none mem => .error (.abort "null pointer") mem
      | .ok (some right) mem => .ok (some h1) (mergedRight h1 left right mem)

def mergeNodes (compareTo : ι → ι → Int) : Nat → Option ι → Option ι → EntryM ι (Option ι)
  | _, none, h2 => pure h2
  | _, h1, none => pure h1
  | 0, some _, some _ => throw (.abort "out of stack")
  | fuel + 1, some h1, some h2 =>
    if h1 = h2 then throw (.abort "h1 != h2")
    else if compareTo h1 h2 > 0 then merge1 (mergeNodes compareTo fuel) h1 h2
    else merge1 (mergeNodes compareTo fuel) h2 h1

/-! ### Operations -/

def add (compareTo : ι → ι → Int) (node : ι) (q : PriorityQueue ι) :
    EntryM ι (PriorityQueue ι) := do
  let root ← mergeNodes compareTo (q.count.toNat + 1) (some node) q.root
  modify (assign node fun entry => { entry with enqueued := true })
  return { root, count := q.count + 1 }

def poll (compareTo : ι → ι → Int) (q : PriorityQueue ι) :
    EntryM ι (Option ι × PriorityQueue ι) := fun mem =>
  match q.root with
  | none => .ok (none, q) mem
  | some oldRoot =>
    match mergeNodes compareTo (q.count.toNat - 1) (mem oldRoot).leftNode (mem oldRoot).rightNode
      mem with
    | .error e mem => .error e mem
    | .ok root mem =>
      let mem := unlink oldRoot (setParent? none root mem)
      if q.count - 1 ≥ 0 then .ok (some oldRoot, { root, count := q.count - 1 }) mem
      else .error (.abort "count >= 0") mem

def relinkParent (parent oldNode : ι) (node : Option ι) (mem : EntryMemory ι) : EntryMemory ι :=
  if (mem parent).leftNode = some oldNode then
    assign parent (fun entry => { entry with leftNode := node }) mem
  else assign parent (fun entry => { entry with rightNode := node }) mem

def remove (compareTo : ι → ι → Int) (oldNode : ι) (q : PriorityQueue ι) :
    EntryM ι (Bool × PriorityQueue ι) := fun mem =>
  if q.root = none then .ok (false, q) mem
  else
    let parent := (mem oldNode).parentNode
    match mergeNodes compareTo (q.count.toNat - 1) (mem oldNode).leftNode (mem oldNode).rightNode
      mem with
    | .error e mem => .error e mem
    | .ok node mem =>
      let mem := match parent with
        | some p => setParent? parent node (relinkParent p oldNode node mem)
        | none => setParent? none node mem
      let root := if parent = none then node else q.root
      let mem := unlink oldNode mem
      if q.count - 1 ≥ 0 then .ok (true, { root, count := q.count - 1 }) mem
      else .error (.abort "count >= 0") mem

def merge (compareTo : ι → ι → Int) (q heap : PriorityQueue ι) :
    EntryM ι (PriorityQueue ι × PriorityQueue ι) := do
  let root ← mergeNodes compareTo (q.count.toNat + heap.count.toNat) q.root heap.root
  return ({ root, count := q.count + heap.count }, { root := none, count := 0 })

/-! ### The tree in memory -/

def Rep (mem : EntryMemory ι) : Heap ι → Prop
  | .leaf => True
  | .node n l x r =>
    (mem x).npl = n ∧ (mem x).leftNode = l.root? ∧ (mem x).rightNode = r.root? ∧
      (∀ c, l.root? = some c → (mem c).parentNode = some x) ∧
      (∀ c, r.root? = some c → (mem c).parentNode = some x) ∧ Rep mem l ∧ Rep mem r

structure SameLinks (entry entry' : PriorityQueueEntry ι) : Prop where
  left : entry'.leftNode = entry.leftNode
  right : entry'.rightNode = entry.rightNode
  npl : entry'.npl = entry.npl

omit [DecidableEq ι] in
theorem SameLinks.of_eq {entry entry' : PriorityQueueEntry ι} (eq : entry' = entry) :
    SameLinks entry entry' := by
  rw [eq]
  exact ⟨rfl, rfl, rfl⟩

variable {mem mem' mem₁ : EntryMemory ι} {t l m u s c r : Heap ι} {e x z k p : ι}
  {q : PriorityQueue ι}

omit [DecidableEq ι] in
theorem Rep.congr (rep : Rep mem t) (eq : ∀ x ∈ t.toList, SameLinks (mem x) (mem' x))
    (parent : ∀ x ∈ t.toList, (mem' x).parentNode = (mem x).parentNode) : Rep mem' t := by
  induction t with
  | leaf => trivial
  | node n l x r ihLeft ihRight =>
    obtain ⟨npl, left, right, upLeft, upRight, repLeft, repRight⟩ := rep
    simp only [Heap.toList_node, mem_cons, mem_append, forall_eq_or_imp] at eq parent
    obtain ⟨here, below⟩ := eq
    refine ⟨by rw [here.npl, npl], by rw [here.left, left], by rw [here.right, right], ?_, ?_,
      ihLeft repLeft (fun y hin => below y (.inl hin))
        (fun y hin => parent.2 y (.inl hin)),
      ihRight repRight (fun y hin => below y (.inr hin))
        (fun y hin => parent.2 y (.inr hin))⟩
    · intro c root
      rw [parent.2 c (.inl (Heap.mem_of_root? root)), upLeft c root]
    · intro c root
      rw [parent.2 c (.inr (Heap.mem_of_root? root)), upRight c root]

omit [DecidableEq ι] in
theorem Rep.of_eq (rep : Rep mem t) (eq : ∀ x ∈ t.toList, mem' x = mem x) : Rep mem' t :=
  rep.congr (fun x hin => .of_eq (eq x hin)) (fun x hin => by rw [eq x hin])

omit [DecidableEq ι] in
theorem Rep.root (rep : Rep mem t) (nodup : t.toList.Nodup)
    (root : ∀ x, t.root? = some x → SameLinks (mem x) (mem' x))
    (eq : ∀ x ∈ t.toList, t.root? ≠ some x → mem' x = mem x) : Rep mem' t := by
  cases t with
  | leaf => trivial
  | node n l x r =>
    obtain ⟨npl, left, right, upLeft, upRight, repLeft, repRight⟩ := rep
    obtain ⟨fresh, -⟩ := nodup_cons.mp nodup
    have below : ∀ y ∈ l.toList ++ r.toList, mem' y = mem y := by
      intro y hin
      apply eq y (mem_cons_of_mem _ hin)
      intro equal
      cases equal
      exact fresh hin
    have sameLeft : ∀ y ∈ l.toList, mem' y = mem y :=
      fun y hin => below y (mem_append_left _ hin)
    have sameRight : ∀ y ∈ r.toList, mem' y = mem y :=
      fun y hin => below y (mem_append_right _ hin)
    have links := root x rfl
    refine ⟨by rw [links.npl, npl], by rw [links.left, left], by rw [links.right, right], ?_, ?_,
      repLeft.of_eq sameLeft, repRight.of_eq sameRight⟩
    · intro c root
      rw [sameLeft c (Heap.mem_of_root? root), upLeft c root]
    · intro c root
      rw [sameRight c (Heap.mem_of_root? root), upRight c root]

/-! ### What an assignment changes -/

@[simp] theorem assign_self (e : ι) (f : PriorityQueueEntry ι → PriorityQueueEntry ι)
    (mem : EntryMemory ι) : assign e f mem e = f (mem e) := by
  simp [assign]

theorem assign_of_ne (ne : x ≠ e) (f : PriorityQueueEntry ι → PriorityQueueEntry ι)
    (mem : EntryMemory ι) : assign e f mem x = mem x := by
  simp [assign, ne]

@[simp] theorem setParent_self (parent : Option ι) (e : ι) (mem : EntryMemory ι) :
    setParent parent e mem e = { mem e with parentNode := parent } :=
  assign_self e _ mem

theorem setParent_of_ne (ne : x ≠ e) (parent : Option ι) (mem : EntryMemory ι) :
    setParent parent e mem x = mem x :=
  assign_of_ne ne _ mem

variable {h1 right x y : ι} {n : Int} {r t l t₁ t₂ : Heap ι} {mem : EntryMemory ι}
  {way : List (Heap.Turn ι)} {q : PriorityQueue ι}

theorem mergedRight_right (left : ι) (mem : EntryMemory ι) (ne : right ≠ h1) :
    mergedRight h1 left right mem right = { mem right with parentNode := some h1 } := by
  unfold mergedRight
  split <;> rw [assign_of_ne ne, setParent_self, assign_of_ne ne]

theorem mergedRight_of_ne (left : ι) (mem : EntryMemory ι) (notTop : x ≠ h1)
    (notRight : x ≠ right) :
    mergedRight h1 left right mem x = mem x := by
  unfold mergedRight
  split <;> rw [assign_of_ne notTop, setParent_of_ne notRight, assign_of_ne notTop]

theorem mergedRight_top {left : ι} (mem : EntryMemory ι) (notRight : right ≠ h1)
    (notLeft : left ≠ h1) (apart : left ≠ right) :
    mergedRight h1 left right mem h1 =
      if (mem left).npl < (mem right).npl then
        { mem h1 with leftNode := some right, rightNode := some left, npl := (mem left).npl + 1 }
      else { mem h1 with rightNode := some right, npl := (mem right).npl + 1 } := by
  unfold mergedRight
  simp only [setParent_self, setParent_of_ne apart, assign_of_ne notLeft, assign_of_ne notRight]
  split <;> simp [setParent_of_ne notRight.symm]

/-! ### Merging trees in memory -/

def precedes (compareTo : ι → ι → Int) (x y : ι) : Bool := compareTo x y > 0

structure Merged (mem mem' : EntryMemory ι) (t₁ t₂ t : Heap ι) : Prop where
  rep : Rep mem' t
  frame : ∀ x, x ∉ t₁.toList → x ∉ t₂.toList → mem' x = mem x
  enqueued : ∀ x, (mem' x).enqueued = (mem x).enqueued
  parent : ∀ x, t.root? = some x → (mem' x).parentNode = (mem x).parentNode

omit [DecidableEq ι] in
theorem npl_of_rep (rep : Rep mem t) (root : t.root? = some x) : (mem x).npl = t.npl := by
  cases t with
  | leaf => cases root
  | node n l y r =>
    cases root
    exact rep.1

omit [DecidableEq ι] in
theorem Rep.hang (rep : Rep mem t) (nodup : t.toList.Nodup) (root : t.root? = some z)
    (out : x ∉ t.toList) (atZ : mem' z = { mem z with parentNode := some x })
    (elsewhere : ∀ w, w ≠ x → w ≠ z → mem' w = mem w) :
    Rep mem' t ∧ ∀ c, t.root? = some c → (mem' c).parentNode = some x := by
  have isZ (c : ι) (isRoot : t.root? = some c) : c = z :=
    Option.some.inj (isRoot.symm.trans root)
  constructor
  · apply rep.root nodup
    · intro c isRoot
      rw [isZ c isRoot, atZ]
      exact ⟨rfl, rfl, rfl⟩
    · intro c hin notRoot
      apply elsewhere c
      · rintro rfl
        exact out hin
      · rintro rfl
        exact notRoot root
  · intro c isRoot
    rw [isZ c isRoot, atZ]

omit [DecidableEq ι] in
theorem enqueued_of_cases (atX : (mem' x).enqueued = (mem x).enqueued)
    (atZ : (mem' z).enqueued = (mem z).enqueued) (elsewhere : ∀ w, w ≠ x → w ≠ z → mem' w = mem w)
    (w : ι) :
    (mem' w).enqueued = (mem w).enqueued := by
  by_cases isX : w = x
  · rw [isX, atX]
  · by_cases isZ : w = z
    · rw [isZ, atZ]
    · rw [elsewhere w isX isZ]

variable (mergeRight : Option ι → Option ι → EntryM ι (Option ι))
  (meldRight : Heap ι → Heap ι → Heap ι)

theorem merge1_spec_leaf (rep : Rep mem (.node n .leaf x r)) (repTree : Rep mem t)
    (root : t.root? = some y) (nodup : (x :: (r.toList ++ t.toList)).Nodup) :
    ∃ mem', merge1 mergeRight x y mem = .ok (some x) mem' ∧
      Merged mem mem' (.node n .leaf x r) t (Heap.attach meldRight n .leaf x r t) := by
  obtain ⟨npl, left, right, -, upRight, -, repRight⟩ := rep
  obtain ⟨fresh, nodup⟩ := nodup_cons.mp nodup
  obtain ⟨-, nodupTree, apart⟩ := nodup_append.mp nodup
  have inTree := Heap.mem_of_root? root
  have ne : x ≠ y := by
    rintro rfl
    exact fresh (mem_append_right _ inTree)
  -- a node without left child takes the other tree there, two writes in all
  generalize res : setParent (some x) y
    (assign x (fun entry => { entry with leftNode := some y }) mem) = mem'
  have atX : mem' x = { mem x with leftNode := some y } := by
    rw [← res, setParent_of_ne ne, assign_self]
  have atY : mem' y = { mem y with parentNode := some x } := by
    rw [← res, setParent_self, assign_of_ne ne.symm]
  have elsewhere (z : ι) (notX : z ≠ x) (notY : z ≠ y) : mem' z = mem z := by
    rw [← res, setParent_of_ne notY, assign_of_ne notX]
  have inRight (z : ι) (hin : z ∈ r.toList) : mem' z = mem z := by
    apply elsewhere z
    · rintro rfl
      exact fresh (mem_append_left _ hin)
    · exact fun eq => apart z hin y inTree eq
  obtain ⟨repTree', upTree⟩ := repTree.hang nodupTree root
    (fun hin => fresh (mem_append_right _ hin)) atY elsewhere
  refine ⟨mem', by simp only [merge1, left, Heap.root?_leaf, res], ?_, ?_, ?_, ?_⟩
  · refine ⟨by rw [atX]; exact npl, by rw [atX, root], by rw [atX]; exact right, upTree, ?_,
      repTree', repRight.of_eq inRight⟩
    intro c isRoot
    rw [inRight c (Heap.mem_of_root? isRoot), upRight c isRoot]
  · intro z notTop notTree
    apply elsewhere z
    · rintro rfl
      exact notTop mem_cons_self
    · rintro rfl
      exact notTree inTree
  · exact enqueued_of_cases (by rw [atX]) (by rw [atY]) elsewhere
  · intro z isRoot
    obtain rfl := Option.some.inj isRoot
    rw [atX]

theorem Rep.mergedRight {lr : ι} (repLeft : Rep mem l) (repMelded : Rep mem m)
    (leftRoot : l.root? = some lr) (meldedRoot : m.root? = some z)
    (nodup : (x :: (l.toList ++ m.toList)).Nodup) (left : (mem x).leftNode = some lr)
    (up : (mem lr).parentNode = some x) :
    Rep (mergedRight x lr z mem)
      (if l.npl < m.npl then .node (l.npl + 1) m x l else .node (m.npl + 1) l x m) := by
  obtain ⟨fresh, nodup⟩ := nodup_cons.mp nodup
  obtain ⟨nodupLeft, nodupMelded, apart⟩ := nodup_append.mp nodup
  rw [mem_append, not_or] at fresh
  have inLeft := Heap.mem_of_root? leftRoot
  have inMelded := Heap.mem_of_root? meldedRoot
  have notTop (w : ι) (hin : w ∈ l.toList ∨ w ∈ m.toList) : w ≠ x := by
    rintro rfl
    rcases hin with inLeft | inMelded
    · exact fresh.1 inLeft
    · exact fresh.2 inMelded
  have atX := mergedRight_top mem (notTop z (.inr inMelded)) (notTop lr (.inl inLeft))
    (apart lr inLeft z inMelded)
  have elsewhere (w : ι) (notX : w ≠ x) (notZ : w ≠ z) := mergedRight_of_ne lr mem notX notZ
  obtain ⟨repMelded', upMelded⟩ := repMelded.hang nodupMelded meldedRoot fresh.2
    (mergedRight_right lr mem (notTop z (.inr inMelded))) elsewhere
  have leftKept (w : ι) (hin : w ∈ l.toList) : PriorityQueue.mergedRight x lr z mem w = mem w :=
    elsewhere w (notTop w (.inl hin)) (apart w hin z inMelded)
  have repLeft' := repLeft.of_eq leftKept
  have upLeft : ∀ c, l.root? = some c →
      (PriorityQueue.mergedRight x lr z mem c).parentNode = some x := by
    intro c isRoot
    rw [leftKept c (Heap.mem_of_root? isRoot), Option.some.inj (isRoot.symm.trans leftRoot), up]
  rw [npl_of_rep repLeft leftRoot, npl_of_rep repMelded meldedRoot] at atX
  -- the shorter of the two goes to the right, and its length counts
  split at atX
  next shorter =>
    rw [if_pos shorter]
    exact ⟨by rw [atX], by rw [atX, meldedRoot], by rw [atX, leftRoot], upMelded, upLeft,
      repMelded', repLeft'⟩
  next longer =>
    rw [if_neg longer]
    exact ⟨by rw [atX], by rw [atX, left, leftRoot], by rw [atX, meldedRoot], upLeft, upMelded,
      repLeft', repMelded'⟩

theorem merge1_spec_node {mem₁ : EntryMemory ι} (rep : Rep mem (.node n l x r)) (filled : l ≠ .leaf)
    (root : t.root? = some y) (nodup : (x :: (l.toList ++ r.toList) ++ t.toList).Nodup)
    (keeps : (meldRight r t).toList.Perm (r.toList ++ t.toList))
    (ran : mergeRight r.root? (some y) mem = .ok (meldRight r t).root? mem₁)
    (merged : Merged mem mem₁ r t (meldRight r t)) :
    ∃ mem', merge1 mergeRight x y mem = .ok (some x) mem' ∧
      Merged mem mem' (.node n l x r) t (Heap.attach meldRight n l x r t) := by
  obtain ⟨npl, left, right, upLeft, -, repLeft, -⟩ := rep
  rw [cons_append, append_assoc] at nodup
  obtain ⟨fresh, nodupAll⟩ := nodup_cons.mp nodup
  obtain ⟨-, nodupRest, apart⟩ := nodup_append.mp nodupAll
  generalize melded : meldRight r t = m at *
  -- the left child and the root of what the right subtree has become
  obtain ⟨lr, leftRoot⟩ := Option.ne_none_iff_exists'.mp (mt (Heap.root?_eq_none_iff l).mp filled)
  have inTree := Heap.mem_of_root? root
  obtain ⟨z, meldedRoot⟩ : ∃ z, m.root? = some z := by
    rw [← Option.ne_none_iff_exists']
    intro none
    have inMelded : y ∈ m.toList := keeps.mem_iff.mpr (mem_append_right _ inTree)
    rw [(Heap.root?_eq_none_iff m).mp none] at inMelded
    cases inMelded
  have inRest : z ∈ r.toList ++ t.toList := keeps.mem_iff.mp (Heap.mem_of_root? meldedRoot)
  have zNotX : z ≠ x := by
    rintro rfl
    exact fresh (mem_append_right _ inRest)
  -- the merge of the right subtree touched neither the root nor the left subtree
  have untouched (w : ι) (out : w ∉ r.toList ++ t.toList) : mem₁ w = mem w :=
    merged.frame w (fun hin => out (mem_append_left _ hin))
      (fun hin => out (mem_append_right _ hin))
  have leftSame (w : ι) (hin : w ∈ l.toList) : mem₁ w = mem w :=
    untouched w fun also => apart w hin w also rfl
  have topSame : mem₁ x = mem x := untouched x fun also => fresh (mem_append_right _ also)
  have inLeft := Heap.mem_of_root? leftRoot
  have atX := mergedRight_top mem₁ zNotX
    (fun eq => fresh (mem_append_left _ (eq ▸ inLeft))) (apart lr inLeft z inRest)
  have atZ := mergedRight_right lr mem₁ zNotX
  have elsewhere (w : ι) (notX : w ≠ x) (notZ : w ≠ z) := mergedRight_of_ne lr mem₁ notX notZ
  have computed : merge1 mergeRight x y mem = .ok (some x) (mergedRight x lr z mem₁) := by
    have asserted : r.root? ≠ some y := by
      intro eq
      have alone := (nodup_append.mp nodupRest).2.2
      exact alone y (Heap.mem_of_root? eq) y inTree rfl
    simp only [merge1, left, leftRoot, right, if_neg asserted, ran, meldedRoot]
  refine ⟨mergedRight x lr z mem₁, computed, ?_, ?_, ?_, ?_⟩
  · rw [Heap.attach_node _ _ _ _ _ filled, melded]
    apply (repLeft.of_eq leftSame).mergedRight merged.rep leftRoot meldedRoot
    · exact (((keeps.append_left l.toList).cons x).nodup_iff).mpr nodup
    · rw [topSame, left, leftRoot]
    · rw [leftSame lr inLeft, upLeft lr leftRoot]
  · intro w notOwn notTree
    simp only [Heap.toList_node, mem_cons, mem_append, not_or] at notOwn
    have out : w ∉ r.toList ++ t.toList := by
      rw [mem_append, not_or]
      exact ⟨notOwn.2.2, notTree⟩
    rw [elsewhere w notOwn.1 (fun eq => out (eq ▸ inRest)), untouched w out]
  · intro w
    rw [← merged.enqueued w]
    exact enqueued_of_cases (by rw [atX]; split <;> rfl) (by rw [atZ]) elsewhere w
  · intro w isRoot
    rw [Heap.root?_attach] at isRoot
    obtain rfl := Option.some.inj isRoot
    rw [atX, topSame]
    split <;> rfl

theorem merge1_spec (mergeRight : Option ι → Option ι → EntryM ι (Option ι))
    (meldRight : Heap ι → Heap ι → Heap ι) (n : Int) (x y : ι) (l r t : Heap ι)
    (mem : EntryMemory ι) (rep : Rep mem (.node n l x r)) (repTree : Rep mem t)
    (root : t.root? = some y) (nodup : (x :: (l.toList ++ r.toList) ++ t.toList).Nodup)
    (keeps : (meldRight r t).toList.Perm (r.toList ++ t.toList))
    (right : ∃ mem₁, mergeRight r.root? (some y) mem = .ok (meldRight r t).root? mem₁ ∧
      Merged mem mem₁ r t (meldRight r t)) :
    ∃ mem', merge1 mergeRight x y mem = .ok (some x) mem' ∧
      Merged mem mem' (.node n l x r) t (Heap.attach meldRight n l x r t) := by
  by_cases empty : l = .leaf
  · subst empty
    exact merge1_spec_leaf mergeRight meldRight rep repTree root (by simpa using nodup)
  · obtain ⟨mem₁, ran, merged⟩ := right
    exact merge1_spec_node mergeRight meldRight rep empty root nodup keeps ran
      merged

omit [DecidableEq ι] in
theorem Merged.refl (t₁ t₂ : Heap ι) (rep : Rep mem t) :
    Merged mem mem t₁ t₂ t :=
  ⟨rep, fun _ _ _ => rfl, fun _ => rfl, fun _ _ => rfl⟩

omit [DecidableEq ι] in
theorem Merged.symm (merged : Merged mem mem' t₁ t₂ t) :
    Merged mem mem' t₂ t₁ t where
  rep := merged.rep
  frame x out₂ outside₁ := merged.frame x outside₁ out₂
  enqueued := merged.enqueued
  parent := merged.parent

variable (compareTo : ι → ι → Int) (fuel : Nat)

theorem mergeNodes_spec (t₁ t₂ : Heap ι) (mem : EntryMemory ι) (le : t₁.size + t₂.size ≤ fuel)
    (rep₁ : Rep mem t₁) (rep₂ : Rep mem t₂) (nodup : (t₁.toList ++ t₂.toList).Nodup) :
    ∃ mem', mergeNodes compareTo fuel t₁.root? t₂.root? mem =
        .ok (Heap.meld (precedes compareTo) fuel t₁ t₂).root? mem' ∧
      Merged mem mem' t₁ t₂ (Heap.meld (precedes compareTo) fuel t₁ t₂) := by
  induction fuel generalizing t₁ t₂ with
  | zero =>
    cases t₁ with
    | leaf => exact ⟨mem, by rw [Heap.meld_leaf_left]; rfl, by simpa using Merged.refl _ _ rep₂⟩
    | node => simp at le
  | succ fuel ih =>
    cases t₁ with
    | leaf => exact ⟨mem, by rw [Heap.meld_leaf_left]; rfl, by simpa using Merged.refl _ _ rep₂⟩
    | node n₁ l₁ x₁ r₁ =>
      cases t₂ with
      | leaf => exact ⟨mem, by rw [Heap.meld_leaf_right]; rfl, by simpa using Merged.refl _ _ rep₁⟩
      | node n₂ l₂ x₂ r₂ =>
        -- whichever root is on top, the other tree is merged into its right subtree
        have below (n : Int) (l : Heap ι) (x : ι) (r t : Heap ι) (y : ι) (root : t.root? = some y)
            (rep : Rep mem (.node n l x r)) (repTree : Rep mem t)
            (nodup : ((Heap.node n l x r).toList ++ t.toList).Nodup)
            (le : r.size + t.size ≤ fuel) :=
          merge1_spec (mergeNodes compareTo fuel) (Heap.meld (precedes compareTo) fuel) n x y l r t
            mem rep repTree root nodup (Heap.meld_perm _ fuel r t le) (by
              have part : (r.toList ++ t.toList).Sublist ((Heap.node n l x r).toList ++ t.toList) :=
                ((sublist_append_right l.toList r.toList).cons x).append_right t.toList
              have right := ih r t le rep.2.2.2.2.2.2 repTree (Nodup.sublist part nodup)
              rwa [root] at right)
        have ne : x₁ ≠ x₂ := by
          rintro rfl
          exact (nodup_append.mp nodup).2.2 x₁ (by simp) x₁ (by simp) rfl
        simp only [Heap.size_node] at le
        simp only [Heap.root?_node, mergeNodes, if_neg ne, Heap.meld_node, precedes,
          decide_eq_true_eq]
        split
        · obtain ⟨mem', ran, merged⟩ := below n₁ l₁ x₁ r₁ (.node n₂ l₂ x₂ r₂) x₂ rfl rep₁ rep₂ nodup
            (by simp only [Heap.size_node]; omega)
          exact ⟨mem', by rw [ran, Heap.root?_attach], merged⟩
        · obtain ⟨mem', ran, merged⟩ := below n₂ l₂ x₂ r₂ (.node n₁ l₁ x₁ r₁) x₁ rfl rep₂ rep₁
            (perm_append_comm.nodup_iff.mp nodup) (by simp only [Heap.size_node]; omega)
          exact ⟨mem', by rw [ran, Heap.root?_attach], merged.symm⟩

theorem mergeNodes_merge (le : t₁.size + t₂.size ≤ fuel) (rep₁ : Rep mem t₁) (rep₂ : Rep mem t₂)
    (nodup : (t₁.toList ++ t₂.toList).Nodup) :
    ∃ mem', mergeNodes compareTo fuel t₁.root? t₂.root? mem =
        .ok (Heap.merge (precedes compareTo) t₁ t₂).root? mem' ∧
      Merged mem mem' t₁ t₂ (Heap.merge (precedes compareTo) t₁ t₂) := by
  rw [← Heap.meld_eq_merge _ fuel t₁ t₂ le]
  exact mergeNodes_spec compareTo fuel t₁ t₂ mem le rep₁ rep₂ nodup

/-! ### An entry in the middle of a tree -/

omit [DecidableEq ι] in
theorem Rep.of_plug (rep : Rep mem (Heap.plug way t)) : Rep mem t := by
  induction way generalizing t with
  | nil => exact rep
  | cons turn way ih =>
    have filled := ih rep
    unfold Heap.Turn.fill at filled
    split at filled
    · exact filled.2.2.2.2.2.1
    · exact filled.2.2.2.2.2.2

omit [DecidableEq ι] in
theorem Rep.replug (rep : Rep mem (Heap.plug way t)) (repTree : Rep mem' s)
    (root : s.root? = t.root?)
    (up : ∀ k, t.root? = some k → (mem' k).parentNode = (mem k).parentNode)
    (eq : ∀ x ∈ way.flatMap Heap.Turn.toList, mem' x = mem x) : Rep mem' (Heap.plug way s) := by
  induction way generalizing s t with
  | nil => exact repTree
  | cons turn way ih =>
    have whole : Rep mem (Heap.plug way (turn.fill t)) := rep
    have filled := whole.of_plug
    simp only [flatMap_cons, Heap.Turn.toList, cons_append, mem_cons,
      mem_append, forall_eq_or_imp] at eq
    obtain ⟨here, others⟩ := eq
    have aside (x : ι) (hin : x ∈ turn.other.toList) : mem' x = mem x := others x (.inl hin)
    have upOther (x : ι) (isRoot : turn.other.root? = some x) :
        (mem' x).parentNode = (mem x).parentNode := by
      rw [aside x (Heap.mem_of_root? isRoot)]
    refine ih whole ?_ ?_ ?_ fun x hin => others x (.inr hin)
    · unfold Heap.Turn.fill at filled ⊢
      split
      next left =>
        rw [if_pos left] at filled
        obtain ⟨npl, left, right, upLeft, upRight, -, repRight⟩ := filled
        refine ⟨by rw [here, npl], by rw [here, left, root], by rw [here, right],
          fun c isRoot => ?_,
          fun c isRoot => (upOther c isRoot).trans (upRight c isRoot), repTree,
          repRight.of_eq aside⟩
        rw [root] at isRoot
        exact (up c isRoot).trans (upLeft c isRoot)
      next right =>
        rw [if_neg right] at filled
        obtain ⟨npl, left, right, upLeft, upRight, repLeft, -⟩ := filled
        refine ⟨by rw [here, npl], by rw [here, left], by rw [here, right, root],
          fun c isRoot => (upOther c isRoot).trans (upLeft c isRoot), fun c isRoot => ?_,
          repLeft.of_eq aside, repTree⟩
        rw [root] at isRoot
        exact (up c isRoot).trans (upRight c isRoot)
    · rw [turn.root?_fill, turn.root?_fill]
    · intro k isRoot
      rw [turn.root?_fill] at isRoot
      rw [← Option.some.inj isRoot, here]

/-! ### Queues -/

structure Queued (mem : EntryMemory ι) (q : PriorityQueue ι) (t : Heap ι) : Prop where
  rep : Rep mem t
  root : q.root = t.root?
  count : q.count = t.size
  top : ∀ x, t.root? = some x → (mem x).parentNode = none
  nodup : t.toList.Nodup
  enqueued : ∀ x ∈ t.toList, (mem x).enqueued = true

omit [DecidableEq ι] in
theorem Queued.of_eq (queued : Queued mem q t) (eq : ∀ x ∈ t.toList, mem' x = mem x) :
    Queued mem' q t where
  rep := queued.rep.of_eq eq
  root := queued.root
  count := queued.count
  top x root := by rw [eq x (Heap.mem_of_root? root), queued.top x root]
  nodup := queued.nodup
  enqueued x inside := by rw [eq x inside, queued.enqueued x inside]

structure Unqueued (entry : PriorityQueueEntry ι) : Prop where
  parent : entry.parentNode = none
  left : entry.leftNode = none
  right : entry.rightNode = none
  enqueued : entry.enqueued = false

structure Changed (mem mem' : EntryMemory ι) (t t' : Heap ι) : Prop where
  frame : ∀ x, x ∉ t.toList → x ∉ t'.toList → mem' x = mem x
  freed : ∀ x ∈ t.toList, x ∉ t'.toList → Unqueued (mem' x)

theorem setParent?_of_ne (parent root : Option ι) (mem : EntryMemory ι) (ne : root ≠ some x) :
    setParent? parent root mem x = mem x := by
  cases root with
  | none => rfl
  | some e => exact setParent_of_ne (fun eq => ne (by rw [eq])) parent mem

theorem setParent?_root (parent : Option ι) (mem : EntryMemory ι) (x : ι) :
    setParent? parent (some x) mem x = { mem x with parentNode := parent } :=
  setParent_self parent x mem

theorem unlink_of_ne (ne : x ≠ e) (mem : EntryMemory ι) : unlink e mem x = mem x :=
  assign_of_ne ne _ mem

theorem unqueued_unlink (e : ι) (mem : EntryMemory ι) : Unqueued (unlink e mem e) := by
  unfold unlink
  rw [assign_self]
  exact ⟨rfl, rfl, rfl, rfl⟩

theorem enqueue_links (e x : ι) (mem : EntryMemory ι) :
    SameLinks (mem x) (assign e (fun entry => { entry with enqueued := true }) mem x) ∧
      (assign e (fun entry => { entry with enqueued := true }) mem x).parentNode =
        (mem x).parentNode := by
  by_cases isE : x = e
  · rw [isE, assign_self]
    exact ⟨⟨rfl, rfl, rfl⟩, rfl⟩
  · rw [assign_of_ne isE]
    exact ⟨.of_eq rfl, rfl⟩

theorem add_spec (mem : EntryMemory ι) (q : PriorityQueue ι) (t : Heap ι) (queued : Queued mem q t)
    (e : ι) (absent : e ∉ t.toList) (free : Unqueued (mem e)) :
    ∃ q' mem', add compareTo e q mem = .ok q' mem' ∧
      Queued mem' q' (Heap.insert (precedes compareTo) (mem e).npl e t) ∧
      Changed mem mem' t (Heap.insert (precedes compareTo) (mem e).npl e t) := by
  have single : Rep mem (.node (mem e).npl .leaf e .leaf) :=
    ⟨rfl, free.left, free.right, by simp, by simp, trivial, trivial⟩
  have nodup : ((Heap.node (mem e).npl .leaf e .leaf).toList ++ t.toList).Nodup := by
    simpa using ⟨absent, queued.nodup⟩
  have le : (Heap.node (mem e).npl .leaf e .leaf).size + t.size ≤ q.count.toNat + 1 := by
    simp [queued.count]
    omega
  obtain ⟨mem₁, ran, merged⟩ :=
    mergeNodes_merge compareTo _ le single queued.rep nodup
  have perm := Heap.merge_perm (precedes compareTo) (.node (mem e).npl .leaf e .leaf) t
  have members (x : ι) : x ∈ (Heap.insert (precedes compareTo) (mem e).npl e t).toList ↔
      x = e ∨ x ∈ t.toList := by
    rw [Heap.insert, perm.mem_iff]
    simp
  -- the flag is set last, so the merge has seen the entry without it
  have links (x : ι) := enqueue_links e x mem₁
  generalize finished : assign e (fun entry => { entry with enqueued := true }) mem₁ = mem'
    at links
  have atE : mem' e = { mem₁ e with enqueued := true } := by
    rw [← finished, assign_self]
  have elsewhere (x : ι) (ne : x ≠ e) : mem' x = mem₁ x := by
    rw [← finished, assign_of_ne ne]
  refine ⟨⟨(Heap.insert (precedes compareTo) (mem e).npl e t).root?, q.count + 1⟩, mem', ?_, ?_, ?_⟩
  · rw [add, queued.root]
    exact (bind_of_ok ran).trans (by rw [← finished]; rfl)
  · constructor
    · exact merged.rep.congr (fun x _ => (links x).1) fun x _ => (links x).2
    · rfl
    · simp [Heap.insert, Heap.size_merge, queued.count]
      omega
    · intro x root
      rw [(links x).2, merged.parent x root]
      rcases Heap.root?_merge (precedes compareTo) (.node (mem e).npl .leaf e .leaf) t
        with own | old
      · obtain rfl := Option.some.inj (own.symm.trans root)
        exact free.parent
      · exact queued.top x (old.symm.trans root)
    · exact perm.nodup_iff.mpr nodup
    · intro x member
      by_cases isE : x = e
      · rw [isE, atE]
      · rw [elsewhere x isE, merged.enqueued]
        exact queued.enqueued x (((members x).mp member).resolve_left isE)
  · constructor
    · intro x notOld notNew
      have ne : x ≠ e := fun eq => notNew ((members x).mpr (.inl eq))
      rw [elsewhere x ne]
      exact merged.frame x (by simpa using ne) notOld
    · intro x inOld notNew
      exact absurd ((members x).mpr (.inr inOld)) notNew

theorem Merged.detach {mem₂ : EntryMemory ι} (merged : Merged mem mem₁ l r m)
    (nodup : m.toList.Nodup) (eq : ∀ x ∈ m.toList, mem₂ x = mem₁ x) (e : ι) (out : e ∉ m.toList)
    (parent : Option ι) :
    Rep (unlink e (setParent? parent m.root? mem₂)) m ∧
      (∀ k, m.root? = some k →
        (unlink e (setParent? parent m.root? mem₂) k).parentNode = parent) ∧
      ∀ x ∈ m.toList, (unlink e (setParent? parent m.root? mem₂) x).enqueued =
        (mem x).enqueued := by
  have notE (x : ι) (hin : x ∈ m.toList) : x ≠ e := by
    rintro rfl
    exact out hin
  have atRoot (k : ι) (root : m.root? = some k) :
      unlink e (setParent? parent m.root? mem₂) k = { mem₁ k with parentNode := parent } := by
    have hin := Heap.mem_of_root? root
    rw [unlink_of_ne (notE k hin), root, setParent?_root, eq k hin]
  have others (x : ι) (hin : x ∈ m.toList) (notRoot : m.root? ≠ some x) :
      unlink e (setParent? parent m.root? mem₂) x = mem₁ x := by
    rw [unlink_of_ne (notE x hin), setParent?_of_ne parent _ mem₂ notRoot, eq x hin]
  refine ⟨merged.rep.root nodup (fun k root => ?_) others, fun k root => by rw [atRoot k root], ?_⟩
  · rw [atRoot k root]
    exact ⟨rfl, rfl, rfl⟩
  · intro x hin
    rw [← merged.enqueued x]
    by_cases root : m.root? = some x
    · rw [atRoot x root]
    · rw [others x hin root]

theorem Queued.unlinked {t' : Heap ι} (queued : Queued mem q t)
    (shrunk : t.toList.Perm (e :: t'.toList)) (rep : Rep (unlink e mem') t')
    (top : ∀ k, t'.root? = some k → (unlink e mem' k).parentNode = none)
    (flags : ∀ x ∈ t'.toList, (unlink e mem' x).enqueued = (mem x).enqueued)
    (frame : ∀ x, x ∉ t.toList → mem' x = mem x) :
    0 ≤ q.count - 1 ∧ Queued (unlink e mem') ⟨t'.root?, q.count - 1⟩ t' ∧
      Changed mem (unlink e mem') t t' := by
  have left := Heap.mem_rest_iff shrunk queued.nodup
  have counted : q.count - 1 = t'.size := by
    have len := shrunk.length_eq
    rw [queued.count]
    simp only [Heap.size, length_cons] at len ⊢
    omega
  refine ⟨by omega, ⟨rep, rfl, counted, top, ?_, fun x hin => ?_⟩, fun x notOld _ => ?_,
    fun x inOld notNew => ?_⟩
  · exact (nodup_cons.mp (shrunk.nodup_iff.mp queued.nodup)).2
  · rw [flags x hin, queued.enqueued x ((left x).mp hin).2]
  · have notEntry : x ≠ e := by
      rintro rfl
      exact notOld (shrunk.mem_iff.mpr mem_cons_self)
    rw [unlink_of_ne notEntry, frame x notOld]
  · obtain rfl : x = e := by
      by_contra ne
      exact notNew ((left x).mpr ⟨ne, inOld⟩)
    exact unqueued_unlink x _

theorem Merged.setParent?_eq (merged : Merged mem mem₁ l r m)
    (perm : m.toList.Perm (l.toList ++ r.toList)) (parent : Option ι) (notLeft : x ∉ l.toList)
    (notRight : x ∉ r.toList) :
    m.root? ≠ some x ∧ setParent? parent m.root? mem₁ x = mem x := by
  have notRoot : m.root? ≠ some x := by
    intro root
    rcases mem_append.mp (perm.mem_iff.mp (Heap.mem_of_root? root)) with inLeft | inRight
    · exact notLeft inLeft
    · exact notRight inRight
  exact ⟨notRoot, by rw [setParent?_of_ne parent _ mem₁ notRoot, merged.frame x notLeft notRight]⟩

theorem poll_leaf (queued : Queued mem q .leaf) : poll compareTo q mem = .ok (none, q) mem := by
  simp [poll, queued.root]

theorem poll_spec (queued : Queued mem q (.node n l x r)) :
    ∃ q' mem', poll compareTo q mem = .ok (some x, q') mem' ∧
      Queued mem' q' (Heap.merge (precedes compareTo) l r) ∧
      Changed mem mem' (.node n l x r) (Heap.merge (precedes compareTo) l r) := by
  obtain ⟨-, left, right, -, -, repLeft, repRight⟩ := queued.rep
  obtain ⟨fresh, nodup⟩ := nodup_cons.mp queued.nodup
  have counted := queued.count
  rw [Heap.size_node] at counted
  obtain ⟨mem₁, ran, merged⟩ := mergeNodes_merge compareTo (q.count.toNat - 1) (by omega)
    repLeft repRight nodup
  have perm := Heap.merge_perm (precedes compareTo) l r
  generalize Heap.merge (precedes compareTo) l r = m at *
  have out : x ∉ m.toList := fun hin => fresh (perm.mem_iff.mp hin)
  obtain ⟨rep, top, flags⟩ :=
    merged.detach (perm.nodup_iff.mpr nodup) (fun _ _ => rfl) x out none
  obtain ⟨pos, queued', changed⟩ := queued.unlinked (perm.symm.cons x) rep top flags
    (by
      intro y notOld
      simp only [Heap.toList_node, mem_cons, mem_append, not_or] at notOld
      exact (merged.setParent?_eq perm none notOld.2.1 notOld.2.2).2)
  refine ⟨_, _, ?_, queued', changed⟩
  simp only [poll, queued.root, Heap.root?_node, left, right, ran]
  rw [if_pos pos]

theorem merge_spec {heap : PriorityQueue ι} {u : Heap ι} (queued : Queued mem q t)
    (ne : Queued mem heap u) (apart : ∀ x ∈ t.toList, x ∉ u.toList) :
    ∃ q' mem', merge compareTo q heap mem = .ok (q', ⟨none, 0⟩) mem' ∧
      Queued mem' q' (Heap.merge (precedes compareTo) t u) ∧
      ∀ x, x ∉ t.toList → x ∉ u.toList → mem' x = mem x := by
  have nodup : (t.toList ++ u.toList).Nodup := by
    rw [nodup_append]
    refine ⟨queued.nodup, ne.nodup, ?_⟩
    rintro x inT y inU rfl
    exact apart x inT inU
  obtain ⟨mem', ran, merged⟩ := mergeNodes_merge compareTo (q.count.toNat + heap.count.toNat)
    (by rw [queued.count, ne.count]; simp) queued.rep ne.rep nodup
  have perm := Heap.merge_perm (precedes compareTo) t u
  refine ⟨⟨(Heap.merge (precedes compareTo) t u).root?, q.count + heap.count⟩, mem', ?_, ?_,
    merged.frame⟩
  · rw [merge, queued.root, ne.root]
    exact (bind_of_ok ran).trans rfl
  · refine ⟨merged.rep, rfl, ?_, fun x root => ?_, perm.nodup_iff.mpr nodup, fun x hin => ?_⟩
    · simp [Heap.size_merge, queued.count, ne.count]
    · rw [merged.parent x root]
      rcases Heap.root?_merge (precedes compareTo) t u with own | old
      · exact queued.top x (own.symm.trans root)
      · exact ne.top x (old.symm.trans root)
    · rw [merged.enqueued]
      rcases mem_append.mp (perm.mem_iff.mp hin) with inT | inU
      · exact queued.enqueued x inT
      · exact ne.enqueued x inU

theorem relinkParent_self (p e : ι) (node : Option ι) (mem : EntryMemory ι) :
    relinkParent p e node mem p =
      if (mem p).leftNode = some e then { mem p with leftNode := node }
      else { mem p with rightNode := node } := by
  unfold relinkParent
  split <;> rw [assign_self]

theorem relinkParent_of_ne (ne : x ≠ p) (e : ι) (node : Option ι) (mem : EntryMemory ι) :
    relinkParent p e node mem x = mem x := by
  unfold relinkParent
  split <;> rw [assign_of_ne ne]

theorem enqueued_relinked (p e : ι) (parent root node : Option ι) (mem : EntryMemory ι)
    (ne : x ≠ e) :
    (unlink e (setParent? parent root (relinkParent p e node mem)) x).enqueued =
      (mem x).enqueued := by
  have relinked : (relinkParent p e node mem x).enqueued = (mem x).enqueued := by
    by_cases isParent : x = p
    · rw [isParent, relinkParent_self]
      split <;> rfl
    · rw [relinkParent_of_ne isParent]
  rw [unlink_of_ne ne, ← relinked]
  by_cases isRoot : root = some x
  · rw [isRoot, setParent?_root]
  · rw [setParent?_of_ne parent root _ isRoot]

theorem Merged.refill {turn : Heap.Turn ι} (merged : Merged mem mem₁ l r m)
    (perm : m.toList.Perm (l.toList ++ r.toList)) (rep : Rep mem (turn.fill (.node n l e r)))
    (nodup : (e :: (l.toList ++ r.toList) ++ turn.toList).Nodup) :
    let mem' := unlink e (setParent? (some turn.entry) m.root?
      (relinkParent turn.entry e m.root? mem₁))
    Rep mem' (turn.fill m) ∧ (mem' turn.entry).parentNode = (mem turn.entry).parentNode ∧
      ∀ x, x ≠ turn.entry → x ∉ e :: (l.toList ++ r.toList) → mem' x = mem x := by
  intro mem'
  obtain ⟨nodupBelow, -, apart⟩ := nodup_append.mp nodup
  obtain ⟨fresh, nodupBelow⟩ := nodup_cons.mp nodupBelow
  have notBelow (x : ι) (hin : x ∈ turn.toList) : x ∉ e :: (l.toList ++ r.toList) :=
    fun below => apart x below x hin rfl
  have inMerged (x : ι) (hin : x ∈ m.toList) : x ∈ e :: (l.toList ++ r.toList) :=
    mem_cons_of_mem _ (perm.mem_iff.mp hin)
  have here := notBelow turn.entry mem_cons_self
  -- outside of the merged subtrees only the parent is written
  have outside (x : ι) (out : x ∉ e :: (l.toList ++ r.toList)) :
      mem' x = relinkParent turn.entry e m.root? mem₁ x ∧ mem₁ x = mem x := by
    have notRoot : m.root? ≠ some x := fun root => out (inMerged x (Heap.mem_of_root? root))
    rw [mem_cons, mem_append, not_or, not_or] at out
    exact ⟨(unlink_of_ne out.1 _).trans (setParent?_of_ne _ _ _ notRoot),
      merged.frame x out.2.1 out.2.2⟩
  have others (x : ι) (ne : x ≠ turn.entry) (out : x ∉ e :: (l.toList ++ r.toList)) :
      mem' x = mem x := by
    rw [(outside x out).1, relinkParent_of_ne ne, (outside x out).2]
  have atParent : mem' turn.entry = if (mem turn.entry).leftNode = some e then
      { mem turn.entry with leftNode := m.root? }
      else { mem turn.entry with rightNode := m.root? } := by
    rw [(outside _ here).1, relinkParent_self, (outside _ here).2]
  have eq (x : ι) (hin : x ∈ m.toList) :
      relinkParent turn.entry e m.root? mem₁ x = mem₁ x := by
    apply relinkParent_of_ne
    rintro rfl
    exact here (inMerged _ hin)
  obtain ⟨repMerged, up, -⟩ := merged.detach (perm.nodup_iff.mpr nodupBelow) eq e
    (fun hin => fresh (perm.mem_iff.mp hin)) (some turn.entry)
  have aside (x : ι) (hin : x ∈ turn.other.toList) : mem' x = mem x := by
    apply others x _ (notBelow x (mem_cons_of_mem _ hin))
    rintro rfl
    exact (nodup_cons.mp (nodup_append.mp nodup).2.1).1 hin
  refine ⟨?_, by rw [atParent]; split <;> rfl, others⟩
  unfold Heap.Turn.fill at rep ⊢
  split
  next left =>
    rw [if_pos left] at rep
    obtain ⟨npl, left, right, -, upRight, -, repRight⟩ := rep
    rw [if_pos (left.trans (Heap.root?_node ..))] at atParent
    refine ⟨by rw [atParent, npl], by rw [atParent], by rw [atParent, right], up, ?_, repMerged,
      repRight.of_eq aside⟩
    intro c isRoot
    rw [aside c (Heap.mem_of_root? isRoot), upRight c isRoot]
  next right =>
    rw [if_neg right] at rep
    obtain ⟨npl, left, right, upLeft, -, repLeft, -⟩ := rep
    have elsewhere : (mem turn.entry).leftNode ≠ some e := by
      rw [left]
      intro isRoot
      exact notBelow e (mem_cons_of_mem _ (Heap.mem_of_root? isRoot)) mem_cons_self
    rw [if_neg elsewhere] at atParent
    refine ⟨by rw [atParent, npl], by rw [atParent, left], by rw [atParent], ?_, up,
      repLeft.of_eq aside, repMerged⟩
    intro c isRoot
    rw [aside c (Heap.mem_of_root? isRoot), upLeft c isRoot]

theorem remove_spec (mem : EntryMemory ι) (q : PriorityQueue ι) (t : Heap ι)
    (queued : Queued mem q t)
    (e : ι) (member : e ∈ t.toList) : ∃ q' mem', remove compareTo e q mem = .ok (true, q') mem' ∧
      Queued mem' q' (Heap.erase (precedes compareTo) e t) ∧
      Changed mem mem' t (Heap.erase (precedes compareTo) e t) := by
  obtain ⟨way, n, whole, grafted⟩ := Heap.exists_plug member
  have shrunk := Heap.erase_perm (precedes compareTo) member
  rw [Heap.erase, grafted] at shrunk ⊢
  generalize (t.children e).1 = l at *
  generalize (t.children e).2 = r at *
  have rep := queued.rep
  have all := Heap.plug_perm way (.node n l e r)
  rw [whole] at rep
  rw [← whole] at all
  have nodup := all.nodup_iff.mp queued.nodup
  obtain ⟨-, left, right, -, -, repLeft, repRight⟩ := rep.of_plug
  obtain ⟨fresh, nodupBelow⟩ := nodup_cons.mp (nodup_append.mp nodup).1
  have sizes : l.size + r.size ≤ q.count.toNat - 1 := by
    have len := all.length_eq
    simp only [Heap.toList_node, cons_append, length_cons, length_append] at len
    rw [queued.count]
    simp only [Heap.size]
    omega
  obtain ⟨mem₁, ran, merged⟩ :=
    mergeNodes_merge compareTo _ sizes repLeft repRight nodupBelow
  have perm := Heap.merge_perm (precedes compareTo) l r
  generalize Heap.merge (precedes compareTo) l r = m at *
  have filled : q.root ≠ none := by
    rw [queued.root, ne_eq, Heap.root?_eq_none_iff]
    rintro rfl
    cases member
  have out (x : ι) (notOld : x ∉ t.toList) : x ∉ e :: (l.toList ++ r.toList) := by
    intro below
    exact notOld (all.mem_iff.mpr (mem_append_left _ below))
  cases way with
  | nil =>
    have noParent := queued.top e (by rw [whole]; rfl)
    obtain ⟨repMerged, up, flags⟩ := merged.detach (perm.nodup_iff.mpr nodupBelow)
      (fun _ _ => rfl) e
      (fun hin => fresh (perm.mem_iff.mp hin)) none
    obtain ⟨pos, queued', changed⟩ := queued.unlinked shrunk repMerged up flags
      fun x notOld => by
        have outside := out x notOld
        rw [mem_cons, mem_append, not_or, not_or] at outside
        exact (merged.setParent?_eq perm none outside.2.1 outside.2.2).2
    refine ⟨_, _, ?_, queued', changed⟩
    simp only [remove, if_neg filled, left, right, ran, noParent, if_true]
    rw [if_pos pos]
    rfl
  | cons turn way =>
    -- below the root the parent has to be relinked, and the root of the queue stays
    have around : Rep mem (Heap.plug way (turn.fill (.node n l e r))) := rep
    rw [flatMap_cons, ← append_assoc] at nodup
    obtain ⟨nodupTurn, -, apart⟩ := nodup_append.mp nodup
    obtain ⟨repTurn, kept, elsewhere⟩ := merged.refill perm around.of_plug nodupTurn
    have parent : (mem e).parentNode = some turn.entry := by
      have filled := around.of_plug
      unfold Heap.Turn.fill at filled
      split at filled
      · exact filled.2.2.2.1 e rfl
      · exact filled.2.2.2.2.1 e rfl
    obtain ⟨k, onWay, root⟩ := Heap.root?_plug turn way
    have isRoot : t.root? = some k := by rw [whole, root]
    have wayKept (x : ι) (hin : x ∈ way.flatMap Heap.Turn.toList) := elsewhere x
      (fun eq => apart turn.entry (mem_append_right _ mem_cons_self) x hin eq.symm)
      fun below => apart x (mem_append_left _ below) x hin rfl
    have entryInside : turn.entry ∈ t.toList :=
      all.mem_iff.mpr (mem_append_right _ mem_cons_self)
    obtain ⟨pos, queued', changed⟩ := queued.unlinked shrunk
      (around.replug repTurn (by rw [turn.root?_fill, turn.root?_fill])
        (by
          intro k isRoot
          rw [turn.root?_fill] at isRoot
          rw [← Option.some.inj isRoot, kept])
        wayKept)
      (by
        intro k' isRoot'
        obtain rfl := Option.some.inj ((root m).symm.trans isRoot')
        rw [← queued.top k isRoot]
        rcases onWay with rfl | later
        · exact kept
        · rw [wayKept k later])
      (by
        intro x hin
        have left := (Heap.mem_rest_iff shrunk queued.nodup x).mp hin
        rw [enqueued_relinked turn.entry e _ _ _ mem₁ left.1, merged.enqueued])
      (by
        intro x notOld
        have ne : x ≠ e := fun eq => notOld (eq ▸ member)
        rw [← elsewhere x (fun eq => notOld (eq ▸ entryInside)) (out x notOld),
          unlink_of_ne ne])
    refine ⟨_, _, ?_, queued', changed⟩
    simp only [remove, if_neg filled, left, right, ran, parent, reduceCtorEq, if_false]
    rw [if_pos pos, queued.root, isRoot, root]

section Ordered

variable {ρ : Type} [LinearOrder ρ] {compareTo : ι → ι → Int} {rank : ι → ρ}

variable (order : SortedVector.OrderedBy compareTo rank)
include order

omit [DecidableEq ι] in
theorem heapOrdered_merge (t u : Heap ι) (orderedT : t.HeapOrdered fun x y => rank x ≤ rank y)
    (orderedU : u.HeapOrdered fun x y => rank x ≤ rank y) :
    (Heap.merge (precedes compareTo) t u).HeapOrdered fun x y => rank x ≤ rank y := by
  apply Heap.heapOrdered_meld (R := fun x y => rank x ≤ rank y) _ (fun x => le_refl (rank x))
    (fun x y z => le_trans) _ _ _ t u (Nat.le_refl _) orderedT orderedU
  · intro x y fst
    exact le_of_lt ((order.pos x y).mp (by simpa [precedes] using fst))
  · intro x y snd
    have notFirst : ¬ 0 < compareTo x y := by simpa [precedes] using snd
    exact not_lt.mp (mt (order.pos x y).mpr notFirst)

omit [DecidableEq ι] in
theorem heapOrdered_insert (n : Int) (e : ι) {t : Heap ι}
    (ord : t.HeapOrdered fun x y => rank x ≤ rank y) :
    (Heap.insert (precedes compareTo) n e t).HeapOrdered fun x y => rank x ≤ rank y :=
  heapOrdered_merge order _ t ⟨by simp, trivial, trivial⟩ ord

theorem heapOrdered_erase (e : ι) (t : Heap ι) (ord : t.HeapOrdered fun x y => rank x ≤ rank y)
    (member : e ∈ t.toList) :
    (Heap.erase (precedes compareTo) e t).HeapOrdered fun x y => rank x ≤ rank y :=
  Heap.heapOrdered_erase _ e ord member (heapOrdered_merge order)

end Ordered

end PriorityQueue

end Engine3
