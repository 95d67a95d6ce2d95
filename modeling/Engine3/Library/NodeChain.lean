import Engine3.Library.OwnedBlocks
import Mathlib.Data.List.Nodup

/-!
# Chains of nodes

Nodes with a pointer to the next one, each a block of its own on the heap. A chain is described
by the addresses and the values of its nodes, from a pointer on to the null pointer.
-/
namespace NodeChain

open Exec OwnedBlocks List

structure Node (α : Type) where
  value : α
  next : Option Nat

variable {α : Type}

abbrev NodeM (α : Type) := HeapM (Node α)

def create (value : α) (next : Option Nat) : NodeM α Nat := fun h =>
  .ok h.next (h.push [some ⟨value, next⟩])

def read (p : Option Nat) : NodeM α (Node α) := do
  match ← load p with
  | some node :: _ => return node
  | _ => throw .uninitialised

def link (p q : Option Nat) : NodeM α Unit := do
  let node ← read p
  match p with
  | none => throw .null
  | some a => store a 0 [some { node with next := q }]

def advance : Nat → Option Nat → NodeM α (Option Nat)
  | 0, p => return p
  | n + 1, p => do
    let node ← read p
    advance n node.next

section Rules

variable {h : Heap (Node α)} {a : Nat}

theorem create_ok (value : α) (next : Option Nat) (h : Heap (Node α)) :
    create value next h = .ok h.next (h.push [some ⟨value, next⟩]) := rfl

theorem read_live {node : Node α} (live : h.blocks a = some [some node]) :
    read (some a) h = .ok node h := by
  rw [read, bind_of_ok (load_live live)]
  rfl

theorem link_live {node : Node α} (live : h.blocks a = some [some node]) (q : Option Nat) :
    link (some a) q h = .ok () (h.set a (some [some { node with next := q }])) := by
  rw [link, bind_of_ok (read_live live)]
  exact store_live live 0 (by simp)

theorem link_dead (dead : h.blocks a = none) (q : Option Nat) :
    link (some a) q h = .error (.freed a) h := by
  apply bind_of_error
  exact bind_of_error (load_dead dead)

end Rules

/-! ### Chains -/

def Chain (h : Heap (Node α)) : Option Nat → List (Nat × α) → Prop
  | p, [] => p = none
  | p, (a, v) :: cells =>
    p = some a ∧ ∃ next, h.blocks a = some [some ⟨v, next⟩] ∧ Chain h next cells

theorem exists_node (x : Nat × α) {cells : List (Nat × α)} {i : Nat} (hin : i ≤ cells.length) :
    ∃ front a v, front.length = i ∧
      ∀ rest, x :: (cells.take i ++ rest) = front ++ (a, v) :: rest := by
  have some : x :: cells.take i ≠ [] := cons_ne_nil _ _
  refine ⟨(x :: cells.take i).dropLast, ((x :: cells.take i).getLast some).1,
    ((x :: cells.take i).getLast some).2, ?_, ?_⟩
  · simp [hin]
  · intro rest
    rw [append_cons, dropLast_append_getLast some]
    rfl

namespace Chain

variable {h h' : Heap (Node α)} {p next : Option Nat} {a b : Nat} {v w : α}
  {front back back' cells : List (Nat × α)}

theorem live (chain : Chain h p cells) {c : Nat} (mem : c ∈ cells.map Prod.fst) :
    h.blocks c ≠ none := by
  induction cells generalizing p with
  | nil => cases mem
  | cons cell cells ih =>
    obtain ⟨_, next, here, later⟩ := chain
    rcases mem_cons.mp mem with rfl | mem
    · simp [here]
    · exact ih later mem

theorem frame (chain : Chain h p cells)
    (eq : ∀ c ∈ cells.map Prod.fst, h'.blocks c = h.blocks c) : Chain h' p cells := by
  induction cells generalizing p with
  | nil => exact chain
  | cons cell cells ih =>
    obtain ⟨start, next, here, later⟩ := chain
    obtain ⟨first, rest⟩ := forall_mem_cons.mp eq
    exact ⟨start, next, first.trans here, ih later rest⟩

variable (chain : Chain h p (front ++ (a, v) :: back))
include chain

theorem at_middle :
    ∃ next, h.blocks a = some [some ⟨v, next⟩] ∧ Chain h next back := by
  induction front generalizing p with
  | nil => exact chain.2
  | cons cell front ih =>
    obtain ⟨_, next, _, later⟩ := chain
    exact ih later

theorem advance :
    advance front.length p h = .ok (some a) h := by
  induction front generalizing p with
  | nil =>
    obtain ⟨rfl, -⟩ := chain
    rfl
  | cons cell front ih =>
    obtain ⟨rfl, next, here, later⟩ := chain
    rw [length_cons, advance, bind_of_ok (read_live here)]
    exact ih later

theorem relink (eq : ∀ c ∈ front.map Prod.fst, h'.blocks c = h.blocks c)
    (here : h'.blocks a = some [some ⟨v, next⟩]) (behind : Chain h' next back') :
    Chain h' p (front ++ (a, v) :: back') := by
  induction front generalizing p with
  | nil => exact ⟨chain.1, next, here, behind⟩
  | cons cell front ih =>
    obtain ⟨start, q, first, later⟩ := chain
    obtain ⟨unchanged, rest⟩ := forall_mem_cons.mp eq
    exact ⟨start, q, unchanged.trans first, ih later rest⟩

theorem insert (nodup : ((front ++ (a, v) :: back).map Prod.fst).Nodup)
    (before : h.blocks a = some [some ⟨v, next⟩]) (here : h'.blocks a = some [some ⟨v, some b⟩])
    (new : h'.blocks b = some [some ⟨w, next⟩])
    (others : ∀ c, h.blocks c ≠ none → c ≠ a → h'.blocks c = h.blocks c) :
    Chain h' p (front ++ (a, v) :: (b, w) :: back) := by
  obtain ⟨next', there, behind⟩ := chain.at_middle
  rw [before] at there
  cases there
  rw [map_append, map_cons, nodup_middle, nodup_cons] at nodup
  -- neither part of the chain contains the node whose pointer changed
  have kept (c : Nat) (mem : c ∈ front.map Prod.fst ++ back.map Prod.fst) :
      h'.blocks c = h.blocks c := by
    have apart : c ≠ a := fun eq => nodup.1 (eq ▸ mem)
    apply others c _ apart
    apply chain.live
    simp only [map_append, map_cons, mem_append, mem_cons] at mem ⊢
    exact mem.imp_right .inr
  refine chain.relink (fun c mem => kept c (mem_append_left _ mem)) here ?_
  exact ⟨rfl, next, new, behind.frame fun c mem => kept c (mem_append_right _ mem)⟩

omit chain

theorem erase (chain : Chain h p (front ++ (a, v) :: (b, w) :: back))
    (nodup : ((front ++ (a, v) :: (b, w) :: back).map Prod.fst).Nodup)
    (removed : h.blocks b = some [some ⟨w, next⟩]) (here : h'.blocks a = some [some ⟨v, next⟩])
    (others : ∀ c, c ≠ a → c ≠ b → h'.blocks c = h.blocks c) :
    Chain h' p (front ++ (a, v) :: back) := by
  obtain ⟨_, _, _, next', there, behind⟩ := chain.at_middle
  rw [removed] at there
  cases there
  simp only [map_append, map_cons, nodup_middle, nodup_cons, mem_append,
    mem_cons, not_or] at nodup
  -- neither of the two nodes is among the others, which stay as they were
  obtain ⟨⟨notFront, _, notBack⟩, ⟨notFront', notBack'⟩, _⟩ := nodup
  have kept (c : Nat) (mem : c ∈ front.map Prod.fst ∨ c ∈ back.map Prod.fst) :
      h'.blocks c = h.blocks c := by
    apply others
    · rintro rfl
      exact mem.elim notFront notBack
    · rintro rfl
      exact mem.elim notFront' notBack'
  refine chain.relink (fun c mem => kept c (.inl mem)) here ?_
  exact behind.frame fun c mem => kept c (.inr mem)

end Chain

end NodeChain
