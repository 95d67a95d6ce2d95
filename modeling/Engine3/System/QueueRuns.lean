import Mathlib.Order.Lattice.Nat
import Engine3.System.PriorityQueue

/-!
# Runs of priority queues

Several queues over one memory of entries, and every sequence of adding, polling, removing and
merging. The contents of a queue are the entries that were added to it, or to a queue merged
into it, and have not been polled or removed since.
-/
namespace Engine3

open LeftistHeap List Function Heap PriorityQueue

structure Queues (κ ι : Type) where
  mem : EntryMemory ι
  queues : κ → PriorityQueue ι

namespace Queues

variable {κ ι : Type} [DecidableEq κ] [DecidableEq ι]

inductive Op (κ ι : Type)
  | add (q : κ) (e : ι)
  | poll (q : κ)
  | remove (q : κ) (e : ι)
  | merge (q heap : κ)

def start : Queues κ ι := ⟨fun _ => .unlinked, fun _ => ⟨none, 0⟩⟩

def perform (compareTo : ι → ι → Int) (s : Queues κ ι) :
    Op κ ι → Except Exception (Option ι × Queues κ ι)
  | .add q e =>
    match (s.queues q).add compareTo e s.mem with
    | .error ex _ => .error ex
    | .ok queue mem => .ok (none, ⟨mem, update s.queues q queue⟩)
  | .poll q =>
    match (s.queues q).poll compareTo s.mem with
    | .error ex _ => .error ex
    | .ok (polled, queue) mem => .ok (polled, ⟨mem, update s.queues q queue⟩)
  | .remove q e =>
    match (s.queues q).remove compareTo e s.mem with
    | .error ex _ => .error ex
    | .ok (_, queue) mem => .ok (none, ⟨mem, update s.queues q queue⟩)
  | .merge q heap =>
    if q = heap then .ok (none, s)
    else
      match (s.queues q).merge compareTo (s.queues heap) s.mem with
      | .error ex _ => .error ex
      | .ok (queue, emptied) mem =>
        .ok (none, ⟨mem, update (update s.queues q queue) heap emptied⟩)

/-- An entry is added when it is in no queue, and removed from the queue it is in. -/
def Allowed (contents : κ → Finset ι) : Op κ ι → Prop
  | .add _ e => ∀ q, e ∉ contents q
  | .remove q e => e ∈ contents q
  | .poll _ => True
  | .merge _ _ => True

def after (contents : κ → Finset ι) : Op κ ι → Option ι → κ → Finset ι
  | .add q e, _ => update contents q (insert e (contents q))
  | .poll q, some e => update contents q ((contents q).erase e)
  | .poll _, none => contents
  | .remove q e, _ => update contents q ((contents q).erase e)
  | .merge q heap, _ =>
    if q = heap then contents
    else update (update contents q (contents q ∪ contents heap)) heap ∅

/-- The states that the allowed calls lead to, with the contents of their queues. -/
inductive Runs (compareTo : ι → ι → Int) : Queues κ ι → (κ → Finset ι) → Prop
  | start : Runs compareTo start fun _ => ∅
  | step (s s' : Queues κ ι) (contents : κ → Finset ι) (op : Op κ ι) (answer : Option ι)
    (before : Runs compareTo s contents) (allowed : Allowed contents op)
    (performed : perform compareTo s op = .ok (answer, s')) :
    Runs compareTo s' (after contents op answer)

/-- The entries that a walk from the root comes to. -/
inductive Reaches (mem : EntryMemory ι) (root : Option ι) : ι → Prop
  | root (x : ι) (isRoot : root = some x) : Reaches mem root x
  | left (x c : ι) (reached : Reaches mem root x) (link : (mem x).leftNode = some c) :
    Reaches mem root c
  | right (x c : ι) (reached : Reaches mem root x) (link : (mem x).rightNode = some c) :
    Reaches mem root c

/-! ### Walks stay in the tree -/

variable {mem : EntryMemory ι} {t : Heap ι}

theorem child_of_link (rep : Rep mem t) {x c : ι} (hin : x ∈ t.toList)
    (link : (mem x).leftNode = some c ∨ (mem x).rightNode = some c) :
    c ∈ t.toList ∧ (mem c).parentNode = some x ∧ ∀ R, t.HeapOrdered R → R x c := by
  obtain ⟨way, n, whole, -⟩ := exists_plug hin
  generalize (t.children x).1 = l at whole
  generalize (t.children x).2 = r at whole
  subst whole
  obtain ⟨-, left, right, upLeft, upRight, -, -⟩ := rep.of_plug
  rw [left, right] at link
  have below : c ∈ l.toList ++ r.toList :=
    mem_append.mpr (link.imp mem_of_root? mem_of_root?)
  refine ⟨?_, link.elim (upLeft c) (upRight c), fun R ord => ord.of_plug.1 c below⟩
  exact (plug_perm way _).mem_iff.mpr (mem_append_left _ (mem_cons_of_mem x below))

theorem reaches_iff {q : PriorityQueue ι} (queued : q.Queued mem t) (x : ι) :
    Reaches mem q.root x ↔ x ∈ t.toList := by
  constructor
  · intro reached
    induction reached with
    | root x isRoot => exact mem_of_root? (queued.root.symm.trans isRoot)
    | left x c _ link ih => exact (child_of_link queued.rep ih (.inl link)).1
    | right x c _ link ih => exact (child_of_link queued.rep ih (.inr link)).1
  · -- every subtree whose root is reached is reached
    have whole (u : Heap ι) (rep : Rep mem u)
        (top : ∀ r, u.root? = some r → Reaches mem q.root r) :
        ∀ x ∈ u.toList, Reaches mem q.root x := by
      induction u with
      | leaf => simp
      | node n l y r ihLeft ihRight =>
        obtain ⟨-, left, right, -, -, repLeft, repRight⟩ := rep
        have here := top y rfl
        intro x hin
        simp only [toList_node, mem_cons, mem_append] at hin
        rcases hin with rfl | inLeft | inRight
        · exact here
        · exact ihLeft repLeft (fun c root => .left y c here (left.trans root)) x inLeft
        · exact ihRight repRight (fun c root => .right y c here (right.trans root)) x inRight
    exact whole t queued.rep (fun r root => .root r (queued.root.trans root)) x

/-! ### The trees of a run -/

section Ordered

variable {ρ : Type} [LinearOrder ρ] {compareTo : ι → ι → Int} {rank : ι → ρ}

structure Represents (rank : ι → ρ) (s : Queues κ ι) (trees : κ → Heap ι) : Prop where
  queued : ∀ q, (s.queues q).Queued s.mem (trees q)
  ordered : ∀ q, (trees q).HeapOrdered fun x y => rank x ≤ rank y
  apart : ∀ q q' x, x ∈ (trees q).toList → x ∈ (trees q').toList → q = q'
  free : ∀ x, (∀ q, x ∉ (trees q).toList) → Unqueued (s.mem x)

variable {s : Queues κ ι} {trees : κ → Heap ι}

omit [DecidableEq κ] [DecidableEq ι] in
theorem Represents.changeSome {s' : Queues κ ι} {trees' : κ → Heap ι}
    (reps : Represents rank s trees) (touched : κ → Prop)
    (kept : ∀ q, ¬ touched q → s'.queues q = s.queues q ∧ trees' q = trees q)
    (queued : ∀ q, touched q → (s'.queues q).Queued s'.mem (trees' q))
    (ord : ∀ q, touched q → (trees' q).HeapOrdered fun x y => rank x ≤ rank y)
    (frame : ∀ x, (∀ q, touched q → x ∉ (trees q).toList ∧ x ∉ (trees' q).toList) →
      s'.mem x = s.mem x) (fresh : ∀ q x, touched q → x ∈ (trees' q).toList →
      (∃ q₀, touched q₀ ∧ x ∈ (trees q₀).toList) ∨ ∀ q', x ∉ (trees q').toList)
    (apart : ∀ q q' x, touched q → touched q' → x ∈ (trees' q).toList → x ∈ (trees' q').toList →
      q = q') (freed : ∀ q x, touched q → x ∈ (trees q).toList → (∀ q', x ∉ (trees' q').toList) →
      Unqueued (s'.mem x)) :
    Represents rank s' trees' := by
  -- an entry of an untouched queue is in none of the touched ones
  have notTouched (q : κ) (untouched : ¬ touched q) (x : ι) (hin : x ∈ (trees q).toList) :
      ∀ q', touched q' → x ∉ (trees q').toList ∧ x ∉ (trees' q').toList := by
    have notOld (q' : κ) (isTouched : touched q') : x ∉ (trees q').toList := by
      intro also
      exact untouched (reps.apart q q' x hin also ▸ isTouched)
    intro q' isTouched
    refine ⟨notOld q' isTouched, fun inNew => ?_⟩
    rcases fresh q' x isTouched inNew with ⟨q₀, isTouched₀, inOld⟩ | nobody
    · exact notOld q₀ isTouched₀ inOld
    · exact nobody q hin
  constructor
  · intro q
    by_cases isTouched : touched q
    · exact queued q isTouched
    · obtain ⟨sameQueue, sameTree⟩ := kept q isTouched
      rw [sameQueue, sameTree]
      apply (reps.queued q).of_eq
      exact fun x hin => frame x (notTouched q isTouched x hin)
  · intro q
    by_cases isTouched : touched q
    · exact ord q isTouched
    · rw [(kept q isTouched).2]
      exact reps.ordered q
  · intro q₁ q₂ x in₁ in₂
    by_cases touched₁ : touched q₁ <;> by_cases touched₂ : touched q₂
    · exact apart q₁ q₂ x touched₁ touched₂ in₁ in₂
    · rw [(kept q₂ touched₂).2] at in₂
      exact absurd in₁ (notTouched q₂ touched₂ x in₂ q₁ touched₁).2
    · rw [(kept q₁ touched₁).2] at in₁
      exact absurd in₂ (notTouched q₁ touched₁ x in₁ q₂ touched₂).2
    · rw [(kept q₁ touched₁).2] at in₁
      rw [(kept q₂ touched₂).2] at in₂
      exact reps.apart q₁ q₂ x in₁ in₂
  · intro x nowhere
    by_cases wasIn : ∃ q, touched q ∧ x ∈ (trees q).toList
    · obtain ⟨q, isTouched, inOld⟩ := wasIn
      exact freed q x isTouched inOld nowhere
    · have out (q : κ) (isTouched : touched q) : x ∉ (trees q).toList :=
        fun inOld => wasIn ⟨q, isTouched, inOld⟩
      rw [frame x fun q isTouched => ⟨out q isTouched, nowhere q⟩]
      apply reps.free x
      intro q
      by_cases isTouched : touched q
      · exact out q isTouched
      · rw [← (kept q isTouched).2]
        exact nowhere q

omit [DecidableEq ι] in
theorem Represents.change (reps : Represents rank s trees) (q : κ) (mem' : EntryMemory ι)
    (queue : PriorityQueue ι) (t : Heap ι) (queued : queue.Queued mem' t)
    (changed : Changed s.mem mem' (trees q) t)
    (ord : t.HeapOrdered fun x y => rank x ≤ rank y)
    (fresh : ∀ x ∈ t.toList, x ∈ (trees q).toList ∨ ∀ q', x ∉ (trees q').toList) :
    Represents rank ⟨mem', update s.queues q queue⟩ (update trees q t) := by
  apply reps.changeSome (· = q)
  · intro q' ne
    exact ⟨update_of_ne ne .., update_of_ne ne ..⟩
  · rintro q' rfl
    simpa using queued
  · rintro q' rfl
    simpa using ord
  · intro x out
    obtain ⟨notOld, notNew⟩ := out q rfl
    rw [update_self] at notNew
    exact changed.frame x notOld notNew
  · rintro q' x rfl hin
    rw [update_self] at hin
    exact (fresh x hin).imp (fun inOld => ⟨q', rfl, inOld⟩) id
  · rintro q₁ q₂ x rfl rfl - -
    rfl
  · rintro q' x rfl inOld nowhere
    have notNew := nowhere q'
    rw [update_self] at notNew
    exact changed.freed x inOld notNew

omit [DecidableEq ι] in
theorem Represents.join (reps : Represents rank s trees) {q heap : κ} (ne : q ≠ heap)
    {mem' : EntryMemory ι} {queue : PriorityQueue ι} {t : Heap ι} (queued : queue.Queued mem' t)
    (ord : t.HeapOrdered fun x y => rank x ≤ rank y)
    (members : ∀ x, x ∈ t.toList ↔ x ∈ (trees q).toList ∨ x ∈ (trees heap).toList)
    (frame : ∀ x, x ∉ (trees q).toList → x ∉ (trees heap).toList → mem' x = s.mem x) :
    Represents rank ⟨mem', update (update s.queues q queue) heap ⟨none, 0⟩⟩
      (update (update trees q t) heap .leaf) := by
  have treeQ : update (update trees q t) heap .leaf q = t := by
    rw [update_of_ne ne, update_self]
  have treeHeap : update (update trees q t) heap .leaf heap = .leaf :=
    update_self ..
  apply reps.changeSome fun q' => q' = q ∨ q' = heap
  · intro q' others
    rw [not_or] at others
    simp [update_of_ne others.2, update_of_ne others.1]
  · rintro q' (rfl | rfl)
    · simpa [update_of_ne ne] using queued
    · simp only [update_self]
      exact ⟨trivial, rfl, rfl, by simp, by simp, by simp⟩
  · rintro q' (rfl | rfl)
    · rw [treeQ]
      exact ord
    · rw [treeHeap]
      trivial
  · intro x out
    exact frame x (out q (.inl rfl)).1 (out heap (.inr rfl)).1
  · rintro q' x (rfl | rfl) hin
    · rw [treeQ, members] at hin
      left
      rcases hin with inQ | inHeap
      · exact ⟨q', .inl rfl, inQ⟩
      · exact ⟨heap, .inr rfl, inHeap⟩
    · rw [treeHeap] at hin
      cases hin
  · rintro q₁ q₂ x (rfl | rfl) (rfl | rfl) in₁ in₂
    · rfl
    · rw [treeHeap] at in₂
      cases in₂
    · rw [treeHeap] at in₁
      cases in₁
    · rfl
  · -- the merged tree has kept every entry
    rintro q' x (rfl | rfl) hin nowhere
    · exact absurd ((members x).mpr (.inl hin)) (treeQ ▸ nowhere q')
    · exact absurd ((members x).mpr (.inr hin)) (treeQ ▸ nowhere q)

def Holds (contents : κ → Finset ι) (trees : κ → Heap ι) : Prop :=
  ∀ q x, x ∈ contents q ↔ x ∈ (trees q).toList

omit [DecidableEq ι] in
theorem Holds.update {contents : κ → Finset ι} (holds : Holds contents trees) (q : κ)
    (new : Finset ι) (t : Heap ι) (eq : ∀ x, x ∈ new ↔ x ∈ t.toList) :
    Holds (update contents q new) (update trees q t) := by
  intro q' x
  by_cases here : q' = q
  · subst here
    simpa using eq x
  · simpa [update_of_ne here] using holds q' x

/-- What is asked of a poll: nothing comes from an empty queue, and from another one an entry
that none of the queue precedes. -/
def PollsMinimum (compareTo : ι → ι → Int) (contents : κ → Finset ι) (answer : Option ι) :
    Op κ ι → Prop
  | .poll q => (contents q = ∅ ∧ answer = none) ∨
      ∃ e ∈ contents q, answer = some e ∧ ∀ x ∈ contents q, ¬ compareTo x e > 0
  | _ => True

def Served (compareTo : ι → ι → Int) (rank : ι → ρ) (s : Queues κ ι) (contents : κ → Finset ι)
    (op : Op κ ι) : Prop :=
  ∃ answer s' trees', perform compareTo s op = .ok (answer, s') ∧ Represents rank s' trees' ∧
    Holds (after contents op answer) trees' ∧ PollsMinimum compareTo contents answer op

section Calls

variable {s : Queues κ ι} {trees : κ → Heap ι} {contents : κ → Finset ι}

theorem Represents.add (order : SortedVector.OrderedBy compareTo rank)
    (reps : Represents rank s trees) (holds : Holds contents trees) (q : κ) (e : ι)
    (nowhere : ∀ q', e ∉ (trees q').toList) : Served compareTo rank s contents (.add q e) := by
  obtain ⟨queue, mem', ran, queued, changed⟩ := add_spec compareTo s.mem _ _
    (reps.queued q) e (nowhere q) (reps.free e nowhere)
  have perm := insert_perm (precedes compareTo) (s.mem e).npl e (trees q)
  refine ⟨none, _, _, by simp only [perform, ran],
    reps.change q mem' queue _ queued changed ?_ ?_, ?_, trivial⟩
  · exact heapOrdered_insert order _ _ (reps.ordered q)
  · intro x hin
    rcases mem_cons.mp (perm.mem_iff.mp hin) with rfl | inOld
    · exact .inr nowhere
    · exact .inl inOld
  · apply holds.update
    intro x
    rw [perm.mem_iff, Finset.mem_insert, mem_cons, holds q x]

theorem Represents.poll_empty (reps : Represents rank s trees) (holds : Holds contents trees)
    {q : κ} (empty : trees q = .leaf) : Served compareTo rank s contents (.poll q) := by
  have queued := reps.queued q
  rw [empty] at queued
  refine ⟨none, s, trees, ?_, reps, holds, .inl ⟨?_, rfl⟩⟩
  · simp only [perform, poll_leaf compareTo queued,
      update_eq_self]
  · apply Finset.eq_empty_of_forall_notMem
    intro x hin
    rw [holds q x, empty] at hin
    cases hin

variable (order : SortedVector.OrderedBy compareTo rank)
include order

theorem Represents.poll_node (reps : Represents rank s trees) (holds : Holds contents trees) {q : κ}
    {n : Int} {e : ι} {l r : Heap ι} (tree : trees q = .node n l e r) :
    Served compareTo rank s contents (.poll q) := by
  have queued := reps.queued q
  have ord := reps.ordered q
  have contained := holds q
  rw [tree] at queued ord contained
  obtain ⟨queue, mem', ran, queued', changed⟩ :=
    poll_spec compareTo queued
  have perm := poll_perm (precedes compareTo) (.node n l e r) _ e rfl
  have left := mem_rest_iff perm queued.nodup
  rw [← tree] at changed
  refine ⟨some e, _, _, by simp only [perform, ran],
    reps.change q mem' queue _ queued' changed ?_ ?_, ?_, .inr ⟨e, ?_, rfl, ?_⟩⟩
  · exact heapOrdered_merge order l r ord.2.1 ord.2.2
  · intro x inNew
    rw [tree]
    exact .inl (perm.mem_iff.mpr (mem_cons_of_mem _ inNew))
  · apply holds.update
    intro x
    rw [Finset.mem_erase, contained x, left]
  · exact (contained e).mpr mem_cons_self
  · -- heap order: the root has the least rank, so nothing precedes it
    intro x hin before
    have le := ord.root_le (fun x => le_refl (rank x)) rfl x ((contained x).mp hin)
    exact not_lt.mpr le ((order.pos x e).mp before)

theorem Represents.remove (reps : Represents rank s trees) (holds : Holds contents trees) (q : κ)
    (e : ι) (hin : e ∈ (trees q).toList) : Served compareTo rank s contents (.remove q e) := by
  obtain ⟨queue, mem', ran, queued, changed⟩ :=
    remove_spec compareTo s.mem _ _ (reps.queued q) e hin
  have perm := erase_perm (precedes compareTo) hin
  have left := mem_rest_iff perm (reps.queued q).nodup
  refine ⟨none, _, _, by simp only [perform, ran],
    reps.change q mem' queue _ queued changed ?_ ?_, ?_, trivial⟩
  · exact heapOrdered_erase order e _ (reps.ordered q) hin
  · intro x inNew
    exact .inl (perm.mem_iff.mpr (mem_cons_of_mem _ inNew))
  · apply holds.update
    intro x
    rw [Finset.mem_erase, holds q x, left]

theorem Represents.merge (reps : Represents rank s trees) (holds : Holds contents trees)
    (q heap : κ) :
    Served compareTo rank s contents (.merge q heap) := by
  by_cases eq : q = heap
  · -- `this == &heap`: nothing to do
    refine ⟨none, s, trees, by simp only [perform, if_pos eq], reps, ?_, trivial⟩
    simpa only [after, if_pos eq] using holds
  · have apart : ∀ x ∈ (trees q).toList, x ∉ (trees heap).toList :=
      fun x inQ inHeap => eq (reps.apart q heap x inQ inHeap)
    obtain ⟨queue, mem', ran, queued, frame⟩ := merge_spec compareTo
      (reps.queued q) (reps.queued heap) apart
    have members := mem_merge (precedes compareTo) (trees q) (trees heap)
    have ord := heapOrdered_merge order _ _ (reps.ordered q) (reps.ordered heap)
    refine ⟨none, _, _, by simp only [perform, if_neg eq, ran],
      reps.join eq queued ord members frame, ?_, trivial⟩
    simp only [after, if_neg eq]
    apply Holds.update
    · apply holds.update
      intro x
      rw [members, Finset.mem_union, holds q x, holds heap x]
    · simp

theorem Represents.perform (reps : Represents rank s trees) (holds : Holds contents trees)
    (op : Op κ ι) (allowed : Allowed contents op) : Served compareTo rank s contents op := by
  cases op with
  | add q e => exact reps.add order holds q e fun q' => mt (holds q' e).mpr (allowed q')
  | poll q =>
    cases tree : trees q with
    | leaf => exact reps.poll_empty holds tree
    | node n l e r => exact reps.poll_node order holds tree
  | remove q e => exact reps.remove order holds q e ((holds q e).mp allowed)
  | merge q heap => exact reps.merge order holds q heap

end Calls

omit [DecidableEq κ] [DecidableEq ι] in
theorem represents_start : Represents rank (start : Queues κ ι) fun _ => .leaf where
  queued _ := ⟨trivial, rfl, rfl, by simp, by simp, by simp⟩
  ordered _ := trivial
  apart _ _ _ inside := by cases inside
  free _ _ := ⟨rfl, rfl, rfl, rfl⟩

theorem Runs.represents (order : SortedVector.OrderedBy compareTo rank) {s : Queues κ ι}
    {contents : κ → Finset ι} (runs : Runs compareTo s contents) :
    ∃ trees, Represents rank s trees ∧ Holds contents trees := by
  induction runs with
  | start => exact ⟨fun _ => .leaf, represents_start, by simp [Holds]⟩
  | step s s' contents op answer _ allowed performed ih =>
    obtain ⟨trees, reps, holds⟩ := ih
    obtain ⟨answer', s'', trees', performed', reps', holds', -⟩ :=
      reps.perform order holds op allowed
    obtain ⟨rfl, rfl⟩ : answer' = answer ∧ s'' = s' := by
      simpa [performed] using performed'.symm
    exact ⟨trees', reps', holds'⟩

/-- After every run each queue holds exactly its contents, and a poll returns a minimum. -/
theorem runs_queues (order : SortedVector.OrderedBy compareTo rank) (s : Queues κ ι)
    (contents : κ → Finset ι) (runs : Runs compareTo s contents) :
    (∀ q, (∀ x, Reaches s.mem (s.queues q).root x ↔ x ∈ contents q) ∧
      (s.queues q).count = (contents q).card ∧
      (∀ x, (s.queues q).root = some x → (s.mem x).parentNode = none) ∧
      ∀ x ∈ contents q, ∀ child,
        (s.mem x).leftNode = some child ∨ (s.mem x).rightNode = some child →
          (s.mem child).parentNode = some x ∧ ¬ compareTo child x > 0) ∧
      ∀ op, Allowed contents op → ∃ answer s', perform compareTo s op = .ok (answer, s') ∧
        PollsMinimum compareTo contents answer op := by
  obtain ⟨trees, reps, holds⟩ := runs.represents order
  constructor
  · intro q
    have queued := reps.queued q
    refine ⟨fun x => ?_, ?_, fun x root => ?_, fun x hin child link => ?_⟩
    · rw [reaches_iff queued, holds q x]
    · have eq : contents q = (trees q).toList.toFinset := by
        ext x
        rw [holds q x, mem_toFinset]
      rw [queued.count, eq, toFinset_card_of_nodup queued.nodup]
      rfl
    · exact queued.top x (queued.root.symm.trans root)
    · have inTree := (holds q x).mp hin
      obtain ⟨-, parent, below⟩ := child_of_link queued.rep inTree link
      have le : rank x ≤ rank child := below _ (reps.ordered q)
      refine ⟨parent, fun before => ?_⟩
      exact not_lt.mpr le ((order.pos child x).mp before)
  · intro op allowed
    obtain ⟨answer, s', -, performed, -, -, minimum⟩ := reps.perform order holds op allowed
    exact ⟨answer, s', performed, minimum⟩

end Ordered

theorem runs_queues_two :
    let compareTo : Nat → Nat → Int := fun a b => b - a
    ∃ s, Runs compareTo s (update (update (fun _ : Bool => ∅) true {5}) true {3, 5}) ∧
      ∃ s', perform compareTo s (.poll true) = .ok (some 3, s') := by
  intro compareTo
  have order : SortedVector.OrderedBy compareTo fun n => n :=
    ⟨fun a b => by simp only [compareTo]; omega, fun a b => by simp only [compareTo]; omega⟩
  obtain ⟨-, fst⟩ := runs_queues order (start : Queues Bool Nat) _ .start
  obtain ⟨answer, s₁, performed, -⟩ := fst (.add true 5) (by simp [Allowed])
  have runs₁ := Runs.step _ s₁ _ _ answer .start (by simp [Allowed]) performed
  obtain ⟨-, snd⟩ := runs_queues order s₁ _ runs₁
  have allowed : Allowed (after (fun _ : Bool => (∅ : Finset Nat)) (.add true 5) answer)
      (.add true 3) := by
    intro q
    cases q <;> simp [after]
  obtain ⟨answer, s₂, performed, -⟩ := snd (.add true 3) allowed
  have runs₂ := Runs.step _ s₂ _ _ answer runs₁ allowed performed
  simp only [after, insert_empty_eq, update_self] at runs₂
  obtain ⟨-, third⟩ := runs_queues order s₂ _ runs₂
  refine ⟨s₂, runs₂, ?_⟩
  obtain ⟨answer, s₃, performed, empty | ⟨e, hin, rfl, least⟩⟩ := third (.poll true) trivial
  · simp at empty
  · have three : e = 3 := by
      simp only [update_self, Finset.mem_insert, Finset.mem_singleton] at hin least
      have notBefore := least 3 (.inl rfl)
      simp only [compareTo] at notBefore
      omega
    exact ⟨s₃, three ▸ performed⟩

end Queues

end Engine3
