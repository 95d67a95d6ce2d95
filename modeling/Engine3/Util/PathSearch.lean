import Engine3.Util.AStar

/-!
# What the path searches return

Every state of the two searches is a search under way in the sense of `GraphSearch`: the queued
nodes are the records that wait, and the nodes that were polled those that were expanded. The
sets of a search say by the IDs which nodes there are.
-/
namespace Engine3

open Exec GraphSearch LeftistHeap SortedVector List Function AStarNode PriorityQueue

variable {ν D : Type}

namespace AStarMemory

def node (s : AStarMemory ν D) (a : Nat) : ν := (s.nodes a).node

def records (led : Option (AStarNode ν D) → AStarNode ν D → Prop) (s : AStarMemory ν D) :
    Records Nat ν where
  node := s.node
  cameFrom a := (s.nodes a).cameFrom
  led p a := led (p.map s.nodes) (s.nodes a)

structure Underway (led : Option (AStarNode ν D) → AStarNode ν D → Prop) (source : ν)
    (s : AStarMemory ν D) (waiting expanded : List Nat) : Prop where
  search : Searching source (s.records led) waiting expanded
  queued : ∃ t, Queued s.links s.priorityQueue t ∧ t.toList.Perm waiting
  allocated : ∀ a ∈ expanded ++ waiting, a < s.next

def Improved (dist : Distances D) : AStarNode ν D → AStarNode ν D → Prop :=
  Relation.ReflTransGen fun a b => b.node = a.node ∧ dist.less b.g a.g = true

theorem Improved.node_eq {dist : Distances D} {a b : AStarNode ν D} (improved : Improved dist a b) :
    b.node = a.node := by
  induction improved with
  | refl => rfl
  | tail _ step ih => exact step.1.trans ih

structure Grew (dist : Distances D) (s s' : AStarMemory ν D)
    (expanded waiting waiting' : List Nat) :
    Prop where
  subset : waiting ⊆ waiting'
  kept : ∀ a ∈ expanded, s'.nodes a = s.nodes a
  improved : ∀ a ∈ waiting, Improved dist (s.nodes a) (s'.nodes a)

variable {led : Option (AStarNode ν D) → AStarNode ν D → Prop} {edge : ν → ν → Prop} {source : ν}
  {dist : Distances D} {s s' : AStarMemory ν D} {expanded waiting waiting' : List Nat}
  {t : Heap Nat}
  {x n : Nat}

theorem Grew.refl (s : AStarMemory ν D) (expanded waiting : List Nat) :
    Grew dist s s expanded waiting waiting :=
  ⟨Subset.refl _, fun _ _ => rfl, fun _ _ => .refl⟩

theorem Grew.trans {s₂ : AStarMemory ν D} {waiting₂ : List Nat}
    (fst : Grew dist s s' expanded waiting waiting')
    (snd : Grew dist s' s₂ expanded waiting' waiting₂) :
    Grew dist s s₂ expanded waiting waiting₂ where
  subset := Subset.trans fst.subset snd.subset
  kept a member := (snd.kept a member).trans (fst.kept a member)
  improved a member :=
    (fst.improved a member).trans (snd.improved a (fst.subset member))

theorem Grew.node_eq (grew : Grew dist s s' expanded waiting waiting') {a : Nat}
    (known : a ∈ expanded ++ waiting) : s'.node a = s.node a := by
  rcases mem_append.mp known with isExpanded | isWaiting
  · exact congrArg AStarNode.node (grew.kept a isExpanded)
  · exact (grew.improved a isWaiting).node_eq

theorem Grew.known (grew : Grew dist s s' expanded waiting waiting') :
    expanded ++ waiting ⊆ expanded ++ waiting' :=
  append_subset.mpr ⟨subset_append_left _ _, subset_append_of_subset_right _ grew.subset⟩

theorem Grew.mem (grew : Grew dist s s' expanded waiting waiting') {y : ν}
    (recorded : y ∈ (expanded ++ waiting).map s.node) : y ∈ (expanded ++ waiting').map s'.node := by
  obtain ⟨a, member, rfl⟩ := mem_map.mp recorded
  exact mem_map.mpr ⟨a, grew.known member, grew.node_eq member⟩

/-! ### Operations -/

theorem Underway.root_eq_none_iff (underway : Underway led source s waiting expanded) :
    s.priorityQueue.root = none ↔ waiting = [] := by
  obtain ⟨t, queued, eq⟩ := underway.queued
  rw [queued.root, Heap.root?_eq_none_iff]
  constructor
  · rintro rfl
    exact nil_perm.mp eq
  · rintro rfl
    cases t with
    | leaf => rfl
    | node n l x r => cases perm_nil.mp eq

theorem Underway.poll (underway : Underway led source s waiting expanded) (some_ : waiting ≠ [])
    (dist : Distances D) :
    ∃ x rest s', AStarMemory.poll dist s = .ok (some x) s' ∧ waiting.Perm (x :: rest) ∧
      s'.nodes = s.nodes ∧ Underway led source s' rest (x :: expanded) := by
  obtain ⟨t, queued, eq⟩ := underway.queued
  cases t with
  | leaf => exact absurd (nil_perm.mp eq) some_
  | node n l x r =>
    obtain ⟨q', links', ran, queued', -⟩ :=
      poll_spec (s.compareNodes dist) queued
    have split : waiting.Perm (x :: (l.toList ++ r.toList)) := eq.symm
    have moved : (expanded ++ waiting).Perm (x :: expanded ++ (l.toList ++ r.toList)) :=
      (split.append_left expanded).trans perm_middle
    refine ⟨x, l.toList ++ r.toList, { s with priorityQueue := q', links := links' }, ?_, split,
      rfl, underway.search.take split, ⟨_, queued', Heap.merge_perm _ l r⟩, ?_⟩
    · simp only [AStarMemory.poll, ran]
    · intro a mem
      exact underway.allocated a (moved.mem_iff.mpr mem)

theorem enqueue_spec (dist : Distances D) (n : Nat)
    (queued : Queued s.links s.priorityQueue t) (absent : n ∉ t.toList)
    (free : Unqueued (s.links n)) :
    ∃ s', enqueue dist n s = .ok () s' ∧ s'.nodes = s.nodes ∧ s'.next = s.next ∧
      ∃ t', Queued s'.links s'.priorityQueue t' ∧
        t'.toList.Perm (n :: t.toList) := by
  obtain ⟨q', links', ran, queued', -⟩ :=
    add_spec (s.compareNodes dist) s.links s.priorityQueue t queued n absent free
  refine ⟨{ s with priorityQueue := q', links := links' }, ?_, rfl, rfl, _, queued',
    Heap.insert_perm _ _ n t⟩
  simp only [enqueue, ran]

theorem discover_spec (dist : Distances D) (x : Nat) (y : ν) (g h : D)
    (queued : Queued s.links s.priorityQueue t) (absent : s.next ∉ t.toList) :
    ∃ s', discover dist x y g h s = .ok s.next s' ∧ s'.next = s.next + 1 ∧
      s'.nodes = update s.nodes s.next { g, heuristic := h, node := y, cameFrom := some x } ∧
      ∃ t', Queued s'.links s'.priorityQueue t' ∧
        t'.toList.Perm (s.next :: t.toList) := by
  -- created without a predecessor, which is set right after
  let s₁ : AStarMemory ν D := { s with
    nodes := update s.nodes s.next { g, heuristic := h, node := y, cameFrom := none }
    next := s.next + 1
    links := update s.links s.next .unlinked }
  let s₂ : AStarMemory ν D := { s₁ with
    nodes := update s.nodes s.next { g, heuristic := h, node := y, cameFrom := some x } }
  have queued₂ : Queued s₂.links s₂.priorityQueue t := by
    apply queued.of_eq
    intro b hin
    apply update_of_ne
    rintro rfl
    exact absent hin
  have free : Unqueued (s₂.links s.next) := by
    have unlinked : s₂.links s.next = .unlinked := update_self ..
    rw [unlinked]
    exact ⟨rfl, rfl, rfl, rfl⟩
  obtain ⟨s', ran, nodes, next, queue⟩ := enqueue_spec dist s.next queued₂ absent free
  refine ⟨s', ?_, next, nodes, queue⟩
  refine (bind_of_ok (m := create y g h) rfl).trans
    ((@bind_of_ok _ _ _ _ _ _ s₁ s₂ () ?_).trans (bind_of_ok ran))
  simp only [assign, s₁, s₂, update_self, update_idem]

section Write

variable {star : AStarNode ν D} (nodes : s'.nodes = update s.nodes n star) (apart : n ∉ expanded)
include nodes apart

theorem grew_write (subset : waiting ⊆ waiting')
    (cheaper : n ∈ waiting → Improved dist (s.nodes n) star) :
    Grew dist s s' expanded waiting waiting' where
  subset := subset
  kept a member := by rw [nodes, update_of_ne (ne_of_mem_of_not_mem member apart)]
  improved a member := by
    rw [nodes]
    by_cases isN : a = n
    · subst isN
      rw [update_self]
      exact cheaper member
    · rw [update_of_ne isN]
      exact .refl

theorem agree_write (led : Option (AStarNode ν D) → AStarNode ν D → Prop) (b : Nat)
    (ne : b ≠ n) : Agree (s.records led) (s'.records led) expanded b := by
  have eq {c : Nat} (ne : c ≠ n) : s'.nodes c = s.nodes c := by
    rw [nodes, update_of_ne ne]
  refine ⟨congrArg AStarNode.node (eq ne), congrArg cameFrom (eq ne), ?_⟩
  intro p known holds
  change led (p.map s'.nodes) (s'.nodes b)
  rwa [Option.map_congr fun c isC => eq (ne_of_mem_of_not_mem (known c isC) apart), eq ne]

theorem origin_write (mem : x ∈ expanded) (parent : star.cameFrom = some x)
    (step : led (some (s.nodes x)) star) : Origin (s'.records led) expanded n := by
  have isStar : s'.nodes n = star := by rw [nodes, update_self]
  have sameX : s'.nodes x = s.nodes x := by
    rw [nodes, update_of_ne (ne_of_mem_of_not_mem mem apart)]
  constructor
  · intro b isParent
    change (s'.nodes n).cameFrom = some b at isParent
    rw [isStar, parent] at isParent
    exact Option.some.inj isParent ▸ mem
  · change led ((s'.nodes n).cameFrom.map s'.nodes) (s'.nodes n)
    rwa [isStar, parent, Option.map_some, sameX]

end Write

theorem Underway.discover (underway : Underway led source s waiting expanded)
    (mem : x ∈ expanded) (y : ν) (new : y ∉ (expanded ++ waiting).map s.node)
    (dist : Distances D) (g h : D)
    (step : led (some (s.nodes x)) { g, heuristic := h, node := y, cameFrom := some x }) :
    ∃ n s', discover dist x y g h s = .ok n s' ∧
      s'.nodes n = { g, heuristic := h, node := y, cameFrom := some x } ∧
      Grew dist s s' expanded waiting (n :: waiting) ∧
      Underway led source s' (n :: waiting) expanded := by
  obtain ⟨t, queued, eq⟩ := underway.queued
  -- it is none of those the search knows
  have fresh : s.next ∉ expanded ++ waiting := fun known =>
    Nat.lt_irrefl _ (underway.allocated _ known)
  obtain ⟨apart, absent⟩ := not_or.mp (mt mem_append.mpr fresh)
  obtain ⟨s', ran, next, nodes, t', queued', eq'⟩ :=
    discover_spec dist x y g h queued (mt eq.mem_iff.mp absent)
  have isFound : s'.nodes s.next = { g, heuristic := h, node := y, cameFrom := some x } := by
    rw [nodes, update_self]
  refine ⟨s.next, s', ran, isFound, grew_write nodes apart (subset_cons_self _ _)
    (fun hin => absurd hin absent), ?_, ⟨t', queued', eq'.trans (eq.cons _)⟩, ?_⟩
  · apply underway.search.find (origin_write nodes apart mem rfl step)
      (agree_write nodes apart led) fresh
    change (s'.nodes s.next).node ∉ _
    rwa [isFound]
  · intro b known
    rw [perm_middle.mem_iff, mem_cons] at known
    rw [next]
    rcases known with rfl | known
    · exact Nat.lt_succ_self _
    · exact Nat.lt_succ_of_lt (underway.allocated b known)

theorem Underway.improve (underway : Underway led source s waiting expanded)
    (isWaiting : n ∈ waiting) (mem : x ∈ expanded) (g h : D)
    (cheaper : dist.less g (s.nodes n).g = true)
    (step : led (some (s.nodes x)) { g, heuristic := h, node := s.node n, cameFrom := some x }) :
    ∃ s', assign n (fun star => { star with cameFrom := some x, g, heuristic := h }) s = .ok () s' ∧
      s'.nodes n = { g, heuristic := h, node := s.node n, cameFrom := some x } ∧
      Grew dist s s' expanded waiting waiting ∧ Underway led source s' waiting expanded := by
  have apart : n ∉ expanded := by
    have nodup := Nodup.of_map _ underway.search.distinct
    exact fun known => (nodup_append.mp nodup).2.2 n known n isWaiting rfl
  let star : AStarNode ν D := { g, heuristic := h, node := s.node n, cameFrom := some x }
  let s' : AStarMemory ν D := { s with nodes := update s.nodes n star }
  have isImproved : s'.nodes n = star := update_self ..
  refine ⟨s', rfl, isImproved, grew_write rfl apart (Subset.refl _)
    (fun _ => .single ⟨rfl, cheaper⟩), ?_,
    underway.queued, underway.allocated⟩
  apply underway.search.redirect (origin_write rfl apart mem rfl step)
    (agree_write rfl apart led) isWaiting
  change (s'.nodes n).node = s.node n
  rw [isImproved]

theorem underway_start (led : Option (AStarNode ν D) → AStarNode ν D → Prop) (dist : Distances D)
    (source : ν) (h : D)
    (fst : led none { g := dist.zero, heuristic := h, node := source, cameFrom := none }) :
    ∃ s₁ s', create source dist.zero h (empty dist source) = .ok 0 s₁ ∧
      enqueue dist 0 s₁ = .ok () s' ∧
      s'.nodes 0 = { g := dist.zero, heuristic := h, node := source, cameFrom := none } ∧
      Underway led source s' [0] [] := by
  let start : AStarNode ν D := { g := dist.zero, heuristic := h, node := source, cameFrom := none }
  let s₁ : AStarMemory ν D := { (empty dist source : AStarMemory ν D) with
    nodes := update (empty dist source).nodes 0 start
    next := 1
    links := update (empty dist source : AStarMemory ν D).links 0 .unlinked }
  have nothing : Queued s₁.links s₁.priorityQueue .leaf :=
    ⟨trivial, rfl, rfl, by simp, nodup_nil, by simp⟩
  obtain ⟨s', ran, nodes, next, t, queued, eq⟩ :=
    enqueue_spec dist 0 nothing (by simp) ⟨rfl, rfl, rfl, rfl⟩
  have isStart : s'.nodes 0 = start := by
    rw [nodes]
    rfl
  have search : Searching (s'.node 0) (s'.records led) [0] [] := by
    apply searching_source (r := s'.records led) 0 (congrArg cameFrom isStart)
    change led none (s'.nodes 0)
    rwa [isStart]
  rw [show s'.node 0 = source from congrArg AStarNode.node isStart] at search
  refine ⟨s₁, s', rfl, ran, isStart, search, ⟨t, queued, eq⟩, ?_⟩
  simp [next, s₁]

/-! ### Nodes by the IDs of their graph nodes -/

section Index

variable {ID κ : Type} [LinearOrder κ] {compare : ID → ID → Int} {rank : ID → κ} {getID : ν → ID}
  {set : VectorMap ID (Option Nat)} {members : List Nat}

structure Index (rank : ID → κ) (getID : ν → ID) (s : AStarMemory ν D)
    (set : VectorMap ID (Option Nat)) (members : List Nat) : Prop where
  sorted : StrictlySorted (fun e => rank e.1) set.entries
  nullValue : set.nullValue = none
  entries : set.entries.Perm (members.map fun a => (getID (s.node a), some a))

theorem Index.congr (index : Index rank getID s set members)
    (eq : ∀ a ∈ members, s'.node a = s.node a) : Index rank getID s' set members := by
  refine ⟨index.sorted, index.nullValue, ?_⟩
  rw [map_congr_left fun a mem => by rw [eq a mem]]
  exact index.entries

theorem Index.perm {members' : List Nat} (index : Index rank getID s set members)
    (eq : members.Perm members') : Index rank getID s set members' :=
  ⟨index.sorted, index.nullValue, index.entries.trans (eq.map _)⟩

theorem index_nil : Index rank getID s { entries := [], nullValue := none } [] :=
  ⟨Pairwise.nil, rfl, Perm.nil⟩

variable (order : OrderedBy compare rank)
  (distinct : ∀ y z, rank (getID y) = rank (getID z) → y = z)
  (index : Index rank getID s set members)
include index

theorem Index.mem_iff (e : ID × Option Nat) :
    e ∈ set.entries ↔ ∃ a ∈ members, (getID (s.node a), some a) = e := by
  rw [index.entries.mem_iff, mem_map]

theorem Index.drop (order : OrderedBy compare rank) {rest : List Nat}
    (split : members.Perm (x :: rest)) :
    Index rank getID s (set.drop compare (getID (s.node x))).2 rest := by
  have hin : (getID (s.node x), some x) ∈ set.entries :=
    (index.mem_iff _).mpr ⟨x, split.mem_iff.mpr mem_cons_self, rfl⟩
  obtain ⟨sorted, removed, nullValue⟩ :=
    VectorMap.drop_of_mem order index.sorted hin rfl
  refine ⟨sorted, nullValue.trans index.nullValue, ?_⟩
  exact (removed.symm.trans (index.entries.trans (split.map _))).cons_inv

include distinct

theorem Index.absent {y : ν} (new : y ∉ members.map s.node) :
    ∀ e ∈ set.entries, rank e.1 ≠ rank (getID y) := by
  rintro e hin eq
  obtain ⟨a, mem, rfl⟩ := (index.mem_iff e).mp hin
  exact new (mem_map.mpr ⟨a, mem, distinct _ _ eq⟩)

include order

theorem Index.get_cases (y : ν) :
    (set.get compare (getID y) = none ∧ y ∉ members.map s.node) ∨
      ∃ a ∈ members, s.node a = y ∧ set.get compare (getID y) = some a := by
  by_cases known : y ∈ members.map s.node
  · obtain ⟨a, mem, rfl⟩ := mem_map.mp known
    right
    refine ⟨a, mem, rfl, ?_⟩
    exact VectorMap.get_of_mem order index.sorted
      ((index.mem_iff _).mpr ⟨a, mem, rfl⟩) rfl
  · left
    rw [VectorMap.get_of_absent order index.sorted (index.absent distinct known)]
    exact ⟨index.nullValue, known⟩

theorem Index.contains_iff (y : ν) :
    set.contains compare (getID y) = true ↔ y ∈ members.map s.node := by
  rw [VectorMap.contains_iff order _ set index.sorted]
  constructor
  · rintro ⟨e, hin, eq⟩
    by_contra new
    exact index.absent distinct new e hin eq
  · intro known
    obtain ⟨a, mem, rfl⟩ := mem_map.mp known
    exact ⟨_, (index.mem_iff _).mpr ⟨a, mem, rfl⟩, rfl⟩

theorem Index.put (plan : InsertPlan) {y : ν} (isY : s.node n = y)
    (new : y ∉ members.map s.node) :
    Index rank getID s (set.putWith compare plan (getID y) (some n)).2 (n :: members) := by
  obtain ⟨sorted, added⟩ := VectorMap.putWith_new order plan (some n)
    index.sorted (index.absent distinct new)
  subst isY
  exact ⟨sorted, index.nullValue, added.trans (index.entries.cons _)⟩

end Index

/-! ### The path -/

theorem buildPath_spec {a : Nat} {trail : List Nat} (lineage : Lineage (s.records led) a trail)
    (fuel : Nat) (le : trail.length ≤ fuel) (path : List ν) :
    buildPath fuel (s.nodes a).cameFrom path s = .ok ((trail.map s.node).reverse ++ path) s := by
  induction lineage generalizing fuel path with
  | first nowhere =>
    rw [show (s.nodes _).cameFrom = none from nowhere]
    cases fuel <;> rfl
  | next parent _ _ ih =>
    rw [show (s.nodes _).cameFrom = some _ from parent]
    cases fuel with
    | zero => cases le
    | succ fuel =>
      rw [map_cons, reverse_cons, append_assoc]
      exact ih fuel (Nat.le_of_succ_le_succ le) _

theorem pathTo_some [Fintype ν] (search : Searching source (s.records led) waiting (x :: expanded))
    {fuel : Nat} (le : Fintype.card ν < fuel) :
    ∃ trail, Lineage (s.records led) x trail ∧
      pathTo fuel (some x) s = .ok (some ((trail.map s.node).reverse ++ [s.node x])) s := by
  obtain ⟨trail, lineage, short⟩ := search.grown.2.lineage x search.grown.1
  have few := search.length_expanded_le
  rw [length_cons] at few
  have built := buildPath_spec lineage fuel (by omega) [s.node x]
  exact ⟨trail, lineage, get_bind.trans (bind_of_ok built)⟩

/-- What a search returns: no path if there is none, otherwise one. -/
structure Answers (edge : ν → ν → Prop) (source target : ν) (answer : Option (List ν)) : Prop where
  null : answer = none ↔ ¬ Relation.ReflTransGen edge source target
  path : ∀ path, answer = some path → IsPath edge source target path

def Finished (led : Option (AStarNode ν D) → AStarNode ν D → Prop) (edge : ν → ν → Prop)
    (source target : ν) (s : AStarMemory ν D) : Option Nat → Prop
  | none => ¬ Relation.ReflTransGen edge source target
  | some x => s.node x = target ∧
      ∃ waiting expanded, Searching source (s.records led) waiting (x :: expanded)

theorem pathTo_spec [Fintype ν] {target : ν} {goal : Option Nat}
    (fst : ∀ a, led none a → a.node = source) (step : ∀ b a, led (some b) a → edge b.node a.node)
    (finished : Finished led edge source target s goal) {fuel : Nat}
    (le : Fintype.card ν < fuel) :
    ∃ answer, pathTo fuel goal s = .ok answer s ∧ Answers edge source target answer := by
  cases goal with
  | none => exact ⟨none, rfl, by simpa [Finished] using finished, by simp⟩
  | some x =>
    obtain ⟨rfl, waiting, expanded, search⟩ := finished
    obtain ⟨trail, lineage, built⟩ := pathTo_some search le
    have walk : IsPath edge source (s.node x) _ :=
      lineage.isPath (fun a => fst _) fun b a => step _ _
    refine ⟨_, built, by simpa using walk.reachable, ?_⟩
    rintro path eq
    rw [← Option.some.inj eq]
    exact walk

/-! ### Rounds of a search -/

theorem foldlM_visit {β ι : Type} (visit : β → ι → AStarM ν D β)
    (Inv : β → AStarMemory ν D → List Nat → Prop) (Done : ι → AStarMemory ν D → List Nat → Prop)
    (mono : ∀ i s s' waiting waiting', Grew dist s s' expanded waiting waiting' →
      Done i s waiting → Done i s' waiting')
    (neighbors : List ι) (mem : x ∈ expanded) {star : AStarNode ν D}
    (step : ∀ i ∈ neighbors, ∀ b s waiting, Inv b s waiting → s.nodes x = star →
      ∃ b' s' waiting', visit b i s = .ok b' s' ∧ Inv b' s' waiting' ∧
        Grew dist s s' expanded waiting waiting' ∧ Done i s' waiting')
    (b : β) (s : AStarMemory ν D) (waiting : List Nat) (inv : Inv b s waiting)
    (isX : s.nodes x = star) :
    ∃ b' s' waiting', neighbors.foldlM visit b s = .ok b' s' ∧ Inv b' s' waiting' ∧
      Grew dist s s' expanded waiting waiting' ∧ ∀ i ∈ neighbors, Done i s' waiting' := by
  induction neighbors generalizing b s waiting with
  | nil => exact ⟨b, s, waiting, rfl, inv, .refl s _ _, by simp⟩
  | cons i neighbors ih =>
    rw [forall_mem_cons] at step
    obtain ⟨b₁, s₁, waiting₁, ran₁, inv₁, grew₁, done₁⟩ := step.1 b s waiting inv isX
    obtain ⟨b₂, s₂, waiting₂, ran₂, inv₂, grew₂, done₂⟩ :=
      ih step.2 b₁ s₁ waiting₁ inv₁ ((grew₁.kept x mem).trans isX)
    refine ⟨b₂, s₂, waiting₂, ?_, inv₂, grew₁.trans grew₂, ?_⟩
    · exact (bind_of_ok ran₁).trans ran₂
    · rw [forall_mem_cons]
      exact ⟨mono i _ _ _ _ grew₂ done₁, done₂⟩

theorem rounds_spec [Fintype ν] {β : Type} (loop : Nat → β → AStarM ν D (Option Nat))
    (Inv : Nat → β → AStarMemory ν D → List Nat → List Nat → Prop)
    (Goal : Option Nat → AStarMemory ν D → Prop)
    (few : ∀ fuel b s waiting expanded, Inv fuel b s waiting expanded →
      expanded.length ≤ Fintype.card ν)
    (round : ∀ fuel b s waiting expanded, Inv (fuel + 1) b s waiting expanded →
      (∃ goal s', loop (fuel + 1) b s = .ok goal s' ∧ Goal goal s') ∨
        ∃ x b' s' waiting', loop (fuel + 1) b s = loop fuel b' s' ∧
          Inv fuel b' s' waiting' (x :: expanded))
    (fuel : Nat) (b : β) (s : AStarMemory ν D) (waiting expanded : List Nat)
    (inv : Inv fuel b s waiting expanded) (le : Fintype.card ν < fuel + expanded.length) :
    ∃ goal s', loop fuel b s = .ok goal s' ∧ Goal goal s' := by
  induction fuel generalizing b s waiting expanded with
  | zero =>
    have := few 0 b s waiting expanded inv
    omega
  | succ fuel ih =>
    rcases round fuel b s waiting expanded inv with ended | ⟨x, b', s', waiting', ran, inv'⟩
    · exact ended
    · rw [ran]
      exact ih b' s' waiting' (x :: expanded) inv' (by rw [length_cons]; omega)

structure Unfinished (edge : ν → ν → Prop) (target : ν) (s : AStarMemory ν D)
    (waiting expanded : List Nat) : Prop where
  covered : ∀ a ∈ expanded, ∀ y, edge (s.node a) y → y ∈ (expanded ++ waiting).map s.node
  missed : target ∉ expanded.map s.node

theorem Unfinished.round {target : ν} {rest : List Nat}
    (unfinished : Unfinished edge target s waiting expanded) (split : waiting.Perm (x :: rest))
    (ne : s.node x ≠ target) (grew : Grew dist s s' (x :: expanded) rest waiting')
    (known : ∀ y, edge (s.node x) y → y ∈ (x :: expanded ++ waiting').map s'.node) :
    Unfinished edge target s' waiting' (x :: expanded) := by
  have moved : (expanded ++ waiting).Perm (x :: expanded ++ rest) :=
    (split.append_left expanded).trans perm_middle
  have eq (a : Nat) (member : a ∈ x :: expanded) : s'.node a = s.node a :=
    grew.node_eq (mem_append_left rest member)
  constructor
  · intro a member y step
    rw [eq a member] at step
    rcases mem_cons.mp member with rfl | member
    · exact known y step
    · exact grew.mem ((moved.map _).mem_iff.mp (unfinished.covered a member y step))
  · rw [map_congr_left eq, map_cons, mem_cons]
    rintro (isX | earlier)
    · exact ne isX.symm
    · exact unfinished.missed earlier

theorem Unfinished.finished {target : ν} (unfinished : Unfinished edge target s [] expanded)
    (search : Searching source (s.records led) [] expanded) :
    Finished led edge source target s none := by
  intro reached
  apply unfinished.missed
  apply search.complete _ target reached
  intro a mem y step
  have covered := unfinished.covered a mem y step
  rwa [append_nil] at covered

theorem unfinished_nil (edge : ν → ν → Prop) (target : ν) (s : AStarMemory ν D)
    (waiting : List Nat) : Unfinished edge target s waiting [] :=
  ⟨by simp, by simp⟩

end AStarMemory

/-! ### The first search -/

/-- `b` is a neighbour of `a`. -/
def SearchGraph.Adjacent {ID : Type} (graph : SearchGraph ν ID D) (a b : ν) : Prop :=
  b ∈ graph.getNeighbors a

namespace AStarAlgorithm

open AStarMemory

variable {ID κ : Type} [LinearOrder κ] {graph : SearchGraph ν ID D} {dist : Distances D}
  {compare : ID → ID → Int} {rank : ID → κ} {source target : ν} {s : AStarMemory ν D}
  {sets : Sets ID} {waiting expanded : List Nat} {x : Nat}

def Led (graph : SearchGraph ν ID D) (dist : Distances D) (source target : ν) :
    Option (AStarNode ν D) → AStarNode ν D → Prop
  | none, a => a.node = source ∧ a.g = dist.zero ∧
      a.heuristic = graph.calculateManhattanDistance a.node target
  | some b, a => graph.Adjacent b.node a.node ∧
      a.g = dist.add b.g (graph.calculateManhattanDistance b.node a.node) ∧
      a.heuristic = graph.calculateManhattanDistance a.node target

structure Visiting (rank : ID → κ) (graph : SearchGraph ν ID D) (dist : Distances D)
    (source target : ν) (sets : Sets ID) (s : AStarMemory ν D) (waiting expanded : List Nat) :
    Prop where
  underway : Underway (Led graph dist source target) source s waiting expanded
  openSet : Index rank graph.getID s sets.openSet waiting
  closeSet : Index rank graph.getID s sets.closeSet expanded

def Offered (dist : Distances D) (expanded : List Nat) (g : D) (y : ν) (s : AStarMemory ν D)
    (waiting : List Nat) : Prop :=
  ∃ b ∈ expanded ++ waiting, s.node b = y ∧ (b ∈ expanded ∨
    ∃ old : AStarNode ν D, (old.g = g ∨ dist.less g old.g = false) ∧
      Improved dist old (s.nodes b))

theorem Offered.mono {g : D} {y : ν} {s' : AStarMemory ν D} {waiting' : List Nat}
    (grew : Grew dist s s' expanded waiting waiting')
    (offered : Offered dist expanded g y s waiting) : Offered dist expanded g y s' waiting' := by
  obtain ⟨b, mem, isY, settled⟩ := offered
  refine ⟨b, grew.known mem, (grew.node_eq mem).trans isY, ?_⟩
  rcases mem_append.mp mem with isExpanded | isWaiting
  · exact .inl isExpanded
  · refine settled.imp_right ?_
    rintro ⟨old, notBetter, improved⟩
    exact ⟨old, notBetter, improved.trans (grew.improved b isWaiting)⟩

def through (graph : SearchGraph ν ID D) (dist : Distances D) (star : AStarNode ν D) (y : ν) : D :=
  dist.add star.g (graph.calculateManhattanDistance star.node y)

def Reaches (rank : ID → κ) (graph : SearchGraph ν ID D) (dist : Distances D) (source target : ν)
    (x : Nat) (s : AStarMemory ν D) (waiting expanded : List Nat) (y : ν)
    (result : EStateM.Result Exception (AStarMemory ν D) (Sets ID)) : Prop :=
  ∃ sets' s' waiting', result = .ok sets' s' ∧
    Visiting rank graph dist source target sets' s' waiting' expanded ∧
    Grew dist s s' expanded waiting waiting' ∧
    Offered dist expanded (through graph dist (s.nodes x) y) y s' waiting'

section Rounds

variable (order : OrderedBy compare rank)
  (distinct : ∀ y z, rank (graph.getID y) = rank (graph.getID z) → y = z)
  (visiting : Visiting rank graph dist source target sets s waiting expanded)
include order distinct visiting

theorem visitNeighbor_new (mem : x ∈ expanded) {y : ν} (step : graph.Adjacent (s.node x) y)
    (notClosed : sets.closeSet.get compare (graph.getID y) = none)
    (newClosed : y ∉ expanded.map s.node)
    (notOpen : sets.openSet.get compare (graph.getID y) = none) (newOpen : y ∉ waiting.map s.node) :
    Reaches rank graph dist source target x s waiting expanded y
      (visitNeighbor graph dist compare target x sets y s) := by
  obtain ⟨underway, openSet, closeSet⟩ := visiting
  have new : y ∉ (expanded ++ waiting).map s.node := by
    rw [map_append, mem_append, not_or]
    exact ⟨newClosed, newOpen⟩
  obtain ⟨n, s', ran, isFound, grew, underway'⟩ := underway.discover mem y new dist
    (through graph dist (s.nodes x) y) (graph.calculateManhattanDistance y target) ⟨step, rfl, rfl⟩
  have isY : s'.node n = y := congrArg AStarNode.node isFound
  have eq (a : Nat) (hin : a ∈ waiting) := grew.node_eq (mem_append_right expanded hin)
  have put := (openSet.congr eq).put order distinct .allowDuplicate isY (by
    rwa [map_congr_left eq])
  refine ⟨⟨_, sets.closeSet⟩, s', n :: waiting, ?_, ⟨underway', put, closeSet.congr fun a hin =>
    grew.node_eq (mem_append_left _ hin)⟩, grew, n, by simp, isY, .inr ⟨s'.nodes n, ?_, .refl⟩⟩
  · simp only [visitNeighbor, notClosed, notOpen]
    exact get_bind.trans (bind_of_ok ran)
  · rw [isFound]
    exact .inl rfl

omit order distinct in
theorem visitNeighbor_open {n : Nat} (mem : x ∈ expanded) (isOpen : n ∈ waiting)
    (step : graph.Adjacent (s.node x) (s.node n))
    (notClosed : sets.closeSet.get compare (graph.getID (s.node n)) = none)
    (got : sets.openSet.get compare (graph.getID (s.node n)) = some n) :
    Reaches rank graph dist source target x s waiting expanded (s.node n)
      (visitNeighbor graph dist compare target x sets (s.node n) s) := by
  have known : n ∈ expanded ++ waiting := mem_append_right _ isOpen
  -- whether the way through `x` costs less decides if the node is changed
  cases cheaper : dist.less (through graph dist (s.nodes x) (s.node n)) (s.nodes n).g with
  | false =>
    refine ⟨sets, s, waiting, ?_, visiting, .refl s _ _, n, known, rfl,
      .inr ⟨s.nodes n, .inr cheaper, .refl⟩⟩
    simp only [visitNeighbor, notClosed, got]
    exact get_bind.trans (ite_run_neg (ne_true_of_eq_false cheaper))
  | true =>
    obtain ⟨underway, openSet, closeSet⟩ := visiting
    obtain ⟨s', ran, isImproved, grew, underway'⟩ := underway.improve isOpen mem _
      (graph.calculateManhattanDistance (s.node n) target) cheaper ⟨step, rfl, rfl⟩
    have eq (a : Nat) (hin : a ∈ expanded ++ waiting) := grew.node_eq hin
    refine ⟨sets, s', waiting, ?_, ⟨underway', openSet.congr fun a hin =>
      eq a (mem_append_right _ hin), closeSet.congr fun a hin =>
      eq a (mem_append_left _ hin)⟩, grew, n, known, eq n known,
      .inr ⟨s'.nodes n, .inl ?_, .refl⟩⟩
    · simp only [visitNeighbor, notClosed, got]
      exact get_bind.trans ((ite_run_pos cheaper).trans (bind_of_ok ran))
    · rw [isImproved]

theorem visitNeighbor_spec (mem : x ∈ expanded) {y : ν} (step : graph.Adjacent (s.node x) y) :
    Reaches rank graph dist source target x s waiting expanded y
      (visitNeighbor graph dist compare target x sets y s) := by
  rcases visiting.closeSet.get_cases order distinct y with
    ⟨notClosed, newClosed⟩ | ⟨a, closed, isY, got⟩
  · rcases visiting.openSet.get_cases order distinct y with
      ⟨notOpen, newOpen⟩ | ⟨n, isOpen, rfl, got⟩
    · exact visitNeighbor_new order distinct visiting mem step notClosed newClosed notOpen
        newOpen
    · exact visitNeighbor_open visiting mem isOpen step notClosed got
  · refine ⟨sets, s, waiting, ?_, visiting, .refl s _ _, a, mem_append_left _ closed, isY,
      .inl closed⟩
    simp only [visitNeighbor, got]
    rfl

def expand (graph : SearchGraph ν ID D) (dist : Distances D) (compare : ID → ID → Int) (target : ν)
    (x : Nat) (sets : Sets ID) : AStarM ν D (Sets ID) := do
  let s ← get
  let id := graph.getID (s.nodes x).node
  (graph.getNeighbors (s.nodes x).node).foldlM (visitNeighbor graph dist compare target x)
    ⟨(sets.openSet.drop compare id).2,
      (sets.closeSet.putWith compare .allowDuplicate id (some x)).2⟩

theorem searchLoop_round (some_ : waiting ≠ []) (fuel : Nat) :
    ∃ x rest s₁, poll dist s = .ok (some x) s₁ ∧ s₁.nodes = s.nodes ∧ waiting.Perm (x :: rest) ∧
      Underway (Led graph dist source target) source s₁ rest (x :: expanded) ∧
      ((s.node x = target ∧ searchLoop graph dist compare target (fuel + 1) sets s =
        .ok (some x) s₁) ∨
        s.node x ≠ target ∧ ∃ sets₂ s₂ waiting₂,
          expand graph dist compare target x sets s₁ = .ok sets₂ s₂ ∧
          searchLoop graph dist compare target (fuel + 1) sets s =
            searchLoop graph dist compare target fuel sets₂ s₂ ∧
          Visiting rank graph dist source target sets₂ s₂ waiting₂ (x :: expanded) ∧
          Grew dist s s₂ (x :: expanded) rest waiting₂ ∧
          ∀ y, graph.Adjacent (s.node x) y →
            Offered dist (x :: expanded) (through graph dist (s.nodes x) y) y s₂ waiting₂) := by
  obtain ⟨underway, openSet, closeSet⟩ := visiting
  obtain ⟨x, rest, s₁, polled, split, sameNodes, underway₁⟩ := underway.poll some_ dist
  have eq : s₁.node = s.node := funext fun a => congrArg AStarNode.node (congrFun sameNodes a)
  have isX : s₁.nodes x = s.nodes x := congrFun sameNodes x
  have something : 0 < sets.openSet.entries.length := by
    rw [openSet.entries.length_eq, length_map]
    exact length_pos_iff.mpr some_
  have started : searchLoop graph dist compare target (fuel + 1) sets s = _ :=
    (ite_run_pos something).trans ((bind_of_ok polled).trans get_bind)
  refine ⟨x, rest, s₁, polled, sameNodes, split, underway₁, ?_⟩
  by_cases isTarget : s₁.node x = target
  · refine .inl ⟨eq ▸ isTarget, started.trans (ite_run_pos ?_)⟩
    rw [← isTarget, order.zero]
    rfl
  · have others : ¬ compare (graph.getID (s₁.nodes x).node) (graph.getID target) = 0 := by
      rw [order.zero]
      exact fun equal => isTarget (distinct _ _ equal)
    have newClosed : s₁.node x ∉ expanded.map s₁.node := by
      have nodup := underway₁.search.distinct
      rw [cons_append, map_cons, nodup_cons, map_append] at nodup
      exact fun hin => nodup.1 (mem_append_left _ hin)
    have visiting₁ : Visiting rank graph dist source target ⟨_, _⟩ s₁ rest (x :: expanded) :=
      ⟨underway₁, (openSet.congr fun a _ => congrFun eq a).drop order split,
        (closeSet.congr fun a _ => congrFun eq a).put order distinct .allowDuplicate rfl newClosed⟩
    obtain ⟨sets₂, s₂, waiting₂, ran, visiting₂, grew, offered⟩ :=
      foldlM_visit (visitNeighbor graph dist compare target x)
        (fun sets s waiting =>
          Visiting rank graph dist source target sets s waiting (x :: expanded))
        (fun y => Offered dist (x :: expanded) (through graph dist (s.nodes x) y) y)
        (fun y _ _ _ _ => Offered.mono) (graph.getNeighbors (s₁.node x)) mem_cons_self
        (fun y neighbor sets t waiting visiting sameX => by
          have step : graph.Adjacent (t.node x) y := by
            rw [AStarMemory.node, sameX, ← isX]
            exact neighbor
          exact sameX ▸ visitNeighbor_spec order distinct visiting mem_cons_self step)
        _ s₁ rest visiting₁ isX
    rw [eq] at offered
    have grew : Grew dist s s₂ (x :: expanded) rest waiting₂ :=
      ⟨grew.subset, sameNodes ▸ grew.kept, sameNodes ▸ grew.improved⟩
    exact .inr ⟨eq ▸ isTarget, sets₂, s₂, waiting₂, get_bind.trans ran,
      started.trans ((ite_run_neg others).trans (bind_of_ok ran)), visiting₂, grew, offered⟩

omit order distinct in
theorem searchLoop_empty (nothing : waiting = []) (fuel : Nat) :
    searchLoop graph dist compare target (fuel + 1) sets s = .ok none s := by
  apply ite_run_neg
  rw [visiting.openSet.entries.length_eq, nothing]
  exact Nat.lt_irrefl 0

end Rounds

def prepare (graph : SearchGraph ν ID D) (dist : Distances D) (compare : ID → ID → Int)
    (source target : ν) : AStarM ν D (Sets ID) := do
  let start ← create source dist.zero (graph.calculateManhattanDistance source target)
  enqueue dist start
  let empty : VectorMap ID (Option Nat) := { entries := [], nullValue := none }
  return ⟨(empty.putWith compare .allowDuplicate (graph.getID source) (some start)).2, empty⟩

theorem prepare_spec (dist : Distances D) (order : OrderedBy compare rank)
    (nodup : ∀ y z, rank (graph.getID y) = rank (graph.getID z) → y = z) (source target : ν) :
    ∃ sets s, prepare graph dist compare source target (.empty dist source) = .ok sets s ∧
      Visiting rank graph dist source target sets s [0] [] ∧
      s.node 0 = source ∧ (s.nodes 0).g = dist.zero ∧
      ∀ fuel, searchPath graph dist compare fuel source target (.empty dist source) =
        (searchLoop graph dist compare target fuel sets >>= pathTo fuel) s := by
  obtain ⟨s₁, s, created, queued, isStart, underway⟩ := underway_start
    (Led graph dist source target) dist source (graph.calculateManhattanDistance source target)
    ⟨rfl, rfl, rfl⟩
  have isSource : s.node 0 = source := congrArg AStarNode.node isStart
  have openSet : Index rank graph.getID s _ [0] :=
    index_nil.put order nodup .allowDuplicate isSource (by simp)
  exact ⟨⟨_, _⟩, s, (bind_of_ok created).trans (bind_of_ok queued),
    ⟨underway, openSet, index_nil⟩, isSource, congrArg g isStart,
    fun fuel => (bind_of_ok created).trans (bind_of_ok queued)⟩

theorem search_spec [Fintype ν] (dist : Distances D) (order : OrderedBy compare rank)
    (nodup : ∀ y z, rank (graph.getID y) = rank (graph.getID z) → y = z) (source target : ν)
    (fuel : Nat) (le : Fintype.card ν < fuel) :
    ∃ answer, search graph dist compare fuel source target = .ok answer ∧
      Answers graph.Adjacent source target answer := by
  obtain ⟨sets, s, -, visiting, -, -, started⟩ := prepare_spec dist order nodup source target
  obtain ⟨goal, s', looped, finished⟩ := rounds_spec (searchLoop graph dist compare target)
    (fun _ sets s waiting expanded =>
      Visiting rank graph dist source target sets s waiting expanded ∧
        Unfinished graph.Adjacent target s waiting expanded)
    (fun goal s => Finished (Led graph dist source target) graph.Adjacent source target s goal)
    (fun _ _ _ _ _ inv => inv.1.underway.search.length_expanded_le) (by
      rintro fuel sets s waiting expanded ⟨visiting, unfinished⟩
      by_cases nothing : waiting = []
      · refine .inl ⟨none, s, searchLoop_empty visiting nothing fuel, ?_⟩
        subst nothing
        exact unfinished.finished visiting.underway.search
      · obtain ⟨x, rest, s₁, -, sameNodes, split, underway,
          ended | ⟨ne, sets₂, s₂, waiting₂, -, ran,
          visiting₂, grew, offered⟩⟩ := searchLoop_round order nodup visiting nothing fuel
        · refine .inl ⟨some x, s₁, ended.2, ?_, rest, expanded, underway.search⟩
          rw [AStarMemory.node, sameNodes]
          exact ended.1
        · refine .inr ⟨x, sets₂, s₂, waiting₂, ran, visiting₂, unfinished.round split ne grew ?_⟩
          intro y step
          obtain ⟨b, mem, isY, -⟩ := offered y step
          exact mem_map.mpr ⟨b, mem, isY⟩)
    fuel sets s [0] [] ⟨visiting, unfinished_nil _ target s [0]⟩ le
  obtain ⟨answer, built, answers⟩ := pathTo_spec (fun _ led => led.1) (fun _ _ led => led.1)
    finished le
  refine ⟨answer, ?_, answers⟩
  rw [search, started fuel, bind_of_ok looped, built]

end AStarAlgorithm

/-! ### The search of a triangulation -/

/-- `b` is a neighbour of `a`. -/
def Triangulation.Adjacent {P : Type} (mesh : Triangulation ν P D) (a b : ν) : Prop :=
  some b ∈ mesh.getNeighbors a

namespace TriangulationAStarAlgorithm

open AStarMemory

theorem compare_orderedBy : OrderedBy compare UInt32.toNat where
  pos a b := by
    simp only [compare, UInt32.lt_iff_toNat_lt, gt_iff_lt]
    split
    next less => simp [less]
    next notLess => split <;> simp [notLess]
  zero a b := by
    simp only [compare, UInt32.lt_iff_toNat_lt, gt_iff_lt]
    split
    next less => simp [Nat.ne_of_lt less]
    next =>
      split
      next more => simp [Nat.ne_of_gt more]
      next =>
        simp only [true_iff]
        omega

variable {P : Type} {mesh : Triangulation ν P D} {dist : Distances D} {startPoint goalPoint : P}
  {source : ν} {s : AStarMemory ν D} {visited : VectorMap UInt32 (Option Nat)}
  {waiting expanded : List Nat}

def Led (mesh : Triangulation ν P D) (source : ν) :
    Option (AStarNode ν D) → AStarNode ν D → Prop
  | none, a => a.node = source
  | some b, a => mesh.Adjacent b.node a.node

structure Visiting (mesh : Triangulation ν P D) (source : ν)
    (visited : VectorMap UInt32 (Option Nat)) (s : AStarMemory ν D) (waiting expanded : List Nat) :
    Prop where
  underway : Underway (Led mesh source) source s waiting expanded
  visited : Index UInt32.toNat mesh.getID s visited (expanded ++ waiting)

theorem visitNeighbor_spec (nodup : ∀ y z, (mesh.getID y).toNat = (mesh.getID z).toNat → y = z)
    (visiting : Visiting mesh source visited s waiting expanded) {x : Nat} (mem : x ∈ expanded)
    {neighbor : Option ν} (step : ∀ y, neighbor = some y → mesh.Adjacent (s.node x) y) :
    ∃ visited' s' waiting',
      visitNeighbor mesh dist startPoint goalPoint x visited neighbor s = .ok visited' s' ∧
      Visiting mesh source visited' s' waiting' expanded ∧
      Grew dist s s' expanded waiting waiting' ∧
      ∀ y, neighbor = some y → y ∈ (expanded ++ waiting').map s'.node := by
  cases neighbor with
  | none => exact ⟨visited, s, waiting, rfl, visiting, .refl s _ _, by simp⟩
  | some y =>
    have contains := visiting.visited.contains_iff compare_orderedBy nodup y
    by_cases known : y ∈ (expanded ++ waiting).map s.node
    · refine ⟨visited, s, waiting, ite_run_pos (contains.mpr known), visiting, .refl s _ _, ?_⟩
      rintro _ ⟨⟩
      exact known
    · obtain ⟨n, s', ran, isFound, grew, underway'⟩ := visiting.underway.discover mem y known
        dist _ _ (step y rfl)
      have isY : s'.node n = y := congrArg AStarNode.node isFound
      have eq (a : Nat) (hin : a ∈ expanded ++ waiting) := grew.node_eq hin
      have put := (visiting.visited.congr eq).put compare_orderedBy nodup .noDuplicate isY (by
        rwa [map_congr_left eq])
      refine ⟨_, s', n :: waiting, (ite_run_neg (mt contains.mp known)).trans
        (get_bind.trans (bind_of_ok ran)),
        ⟨underway', put.perm perm_middle.symm⟩, grew, ?_⟩
      rintro _ ⟨⟩
      exact mem_map.mpr ⟨n, by simp, isY⟩

theorem search_spec [Fintype ν] [DecidableEq ν] (dist : Distances D) (startPoint goalPoint : P)
    (nodup : ∀ y z, (mesh.getID y).toNat = (mesh.getID z).toNat → y = z) (source target : ν)
    (fuel : Nat) (le : Fintype.card ν < fuel) :
    ∃ answer, search mesh dist startPoint goalPoint fuel source target = .ok answer ∧
      Answers mesh.Adjacent source target answer := by
  obtain ⟨s₁, s₂, created, queued, isStart, underway⟩ := underway_start (Led mesh source)
    dist source (mesh.distanceTo startPoint goalPoint) rfl
  have index : Index UInt32.toNat mesh.getID s₂ _ [0] :=
    index_nil.put compare_orderedBy nodup .noDuplicate (congrArg AStarNode.node isStart) (by simp)
  obtain ⟨goal, s', looped, finished⟩ := rounds_spec
    (searchLoop mesh dist startPoint goalPoint target)
    (fun _ visited s waiting expanded => Visiting mesh source visited s waiting expanded ∧
      Unfinished mesh.Adjacent target s waiting expanded)
    (fun goal s => Finished (Led mesh source) mesh.Adjacent source target s goal)
    (fun _ _ _ _ _ inv => inv.1.underway.search.length_expanded_le) (by
      rintro fuel visited s waiting expanded ⟨⟨underway, index⟩, unfinished⟩
      have isEmpty := underway.root_eq_none_iff
      have started : searchLoop mesh dist startPoint goalPoint target (fuel + 1) visited s = _ :=
        get_bind
      by_cases nothing : waiting = []
      · refine .inl ⟨none, s, started.trans (ite_run_pos (isEmpty.mpr nothing)), ?_⟩
        subst nothing
        exact unfinished.finished underway.search
      · obtain ⟨x, rest, s₁, polled, split, sameNodes, underway₁⟩ := underway.poll nothing dist
        have eq : s₁.node = s.node :=
          funext fun a => congrArg AStarNode.node (congrFun sameNodes a)
        have started := started.trans ((ite_run_neg (mt isEmpty.mp nothing)).trans
          ((bind_of_ok polled).trans get_bind))
        by_cases isTarget : target = s₁.node x
        · exact .inl ⟨some x, s₁, started.trans (ite_run_pos isTarget), isTarget.symm, rest,
            expanded, underway₁.search⟩
        · have moved : (expanded ++ waiting).Perm (x :: expanded ++ rest) :=
            (split.append_left expanded).trans perm_middle
          obtain ⟨visited₂, s₂, waiting₂, ran, visiting₂, grew, known⟩ :=
            foldlM_visit (visitNeighbor mesh dist startPoint goalPoint x)
              (fun visited s waiting => Visiting mesh source visited s waiting (x :: expanded))
              (fun i s waiting => ∀ y, i = some y → y ∈ (x :: expanded ++ waiting).map s.node)
              (fun i _ _ _ _ grew known y isY => grew.mem (known y isY))
              (mesh.getNeighbors (s₁.node x)) mem_cons_self
              (fun i neighbor visited t waiting visiting sameX => by
                refine visitNeighbor_spec nodup visiting mem_cons_self ?_
                rintro y rfl
                rw [AStarMemory.node, sameX]
                exact neighbor)
              visited s₁ rest ⟨underway₁, (index.congr fun a _ => congrFun eq a).perm moved⟩ rfl
          have grew : Grew dist s s₂ (x :: expanded) rest waiting₂ :=
            ⟨grew.subset, sameNodes ▸ grew.kept, sameNodes ▸ grew.improved⟩
          refine .inr ⟨x, visited₂, s₂, waiting₂, started.trans ((ite_run_neg isTarget).trans
            (bind_of_ok ran)), visiting₂, unfinished.round split (eq ▸ Ne.symm isTarget) grew ?_⟩
          rw [← eq]
          exact fun y step => known (some y) step y rfl)
    fuel _ s₂ [0] [] ⟨⟨underway, index⟩, unfinished_nil _ target s₂ [0]⟩ le
  obtain ⟨answer, built, answers⟩ := pathTo_spec (fun _ led => led) (fun _ _ led => led)
    finished le
  have ran : searchPath mesh dist startPoint goalPoint fuel source target (.empty dist source) =
      .ok answer s' :=
    (bind_of_ok created).trans ((bind_of_ok queued).trans ((bind_of_ok looped).trans built))
  refine ⟨answer, ?_, answers⟩
  simp only [search, ran]

end TriangulationAStarAlgorithm

/-! ### Both searches -/

namespace PathSearch

open AStarMemory

/-- Both searches return, with no path exactly if the target cannot be reached. -/
theorem searches_answer {ID κ τ P E : Type} [Fintype ν] [LinearOrder κ] [Fintype τ] [DecidableEq τ]
    (graph : SearchGraph ν ID D) (dist : Distances D) (compare : ID → ID → Int) (rank : ID → κ)
    (order : OrderedBy compare rank)
    (distinct : ∀ y z, rank (graph.getID y) = rank (graph.getID z) → y = z) (source target : ν)
    (mesh : Triangulation τ P E) (lengths : Distances E) (startPoint goalPoint : P)
    (distinctTriangles : Function.Injective mesh.getID) (first last : τ) :
    (∀ fuel, Fintype.card ν < fuel →
      ∃ answer, AStarAlgorithm.search graph dist compare fuel source target = .ok answer ∧
        Answers graph.Adjacent source target answer) ∧
    (∀ fuel, Fintype.card τ < fuel →
      ∃ answer, TriangulationAStarAlgorithm.search mesh lengths startPoint goalPoint fuel
        first last =
          .ok answer ∧
        Answers mesh.Adjacent first last answer) := by
  constructor
  · exact AStarAlgorithm.search_spec dist order distinct source target
  · apply TriangulationAStarAlgorithm.search_spec lengths startPoint goalPoint
    exact fun y z eq => distinctTriangles (UInt32.toNat_inj.mp eq)

def naturals : Distances Nat where
  zero := 0
  add := Nat.add
  sub := Nat.sub
  less a b := decide (a < b)

def detour : SearchGraph (Fin 4) Int Nat where
  getID a := a.val
  getNeighbors
    | 0 => [1, 2]
    | 1 => [3]
    | 2 => [1]
    | 3 => []
  calculateManhattanDistance a b := if a = 0 ∧ b = 1 then 10 else 1

def strip : Triangulation (Fin 3) Nat Nat where
  getID a := UInt32.ofNat a.val
  getNeighbors
    | 0 => [none, some 1]
    | 1 => [some 0, none]
    | 2 => [none]
  getSharedVertices a b := (a.val, b.val)
  getClosestPoint a _ _ := a
  distanceTo a b := a + b

theorem searches_answer_detour :
    AStarAlgorithm.search detour naturals (fun a b => b - a) 5 0 3 = .ok (some [0, 2, 1, 3]) ∧
      IsPath detour.Adjacent 0 3 [0, 2, 1, 3] ∧
      TriangulationAStarAlgorithm.search strip naturals 0 0 4 0 2 = .ok none ∧
      ¬ Relation.ReflTransGen strip.Adjacent 0 2 := by
  have order : OrderedBy (fun a b : Int => b - a) fun a => a :=
    ⟨fun a b => by omega, fun a b => by omega⟩
  have found : AStarAlgorithm.search detour naturals (fun a b => b - a) 5 0 3 =
      .ok (some [0, 2, 1, 3]) := by decide +kernel
  have missed : TriangulationAStarAlgorithm.search strip naturals 0 0 4 0 2 = .ok none := by
    decide +kernel
  obtain ⟨toEnd, toThird⟩ := searches_answer detour naturals (fun a b => b - a) (fun a => a) order
    (by decide) 0 3 strip naturals 0 0 (by decide) 0 2
  obtain ⟨answer, ran, answers⟩ := toEnd 5 (by decide)
  obtain ⟨answer', ran', answers'⟩ := toThird 4 (by decide)
  obtain rfl := Except.ok.inj (found.symm.trans ran)
  obtain rfl := Except.ok.inj (missed.symm.trans ran')
  exact ⟨found, answers.path _ rfl, missed, answers'.null.mp rfl⟩

end PathSearch

end Engine3
