import Engine3.Library.Bytes
import Engine3.Library.Exec

/-!
# Code that indexes a buffer

A buffer with the indices C code uses on it: an index is a signed number, and an access
outside the buffer stops the run instead of reading or writing something else. The memory
keeps a record of the accesses, so that one can say which bytes a run touched. The counting
loop has a counter of fixed width, given by the function that stores a number in it.
-/
namespace CheckedMemory

open Bytes Exec

inductive Fault (ε : Type)
  | thrown (e : ε)
  | outOfBounds (index : Int)
  | outOfFuel
  deriving DecidableEq, Repr

structure Memory where
  bytes : List UInt8
  loads : List Nat
  stores : List Nat
  deriving DecidableEq, Repr

abbrev MemoryM (ε : Type) := EStateM (Fault ε) Memory

variable {ε σ α : Type}

namespace Memory

def ofBytes (bytes : List UInt8) : Memory := ⟨bytes, [], []⟩

def Inside (index : Int) (m : Memory) : Prop := 0 ≤ index ∧ index < m.bytes.length

instance (index : Int) (m : Memory) : Decidable (Inside index m) :=
  inferInstanceAs (Decidable (_ ∧ _))

end Memory

open Memory

def size : MemoryM ε Int := fun m => .ok m.bytes.length m

def load (index : Int) : MemoryM ε UInt8 := fun m =>
  if m.Inside index then
    .ok (m.bytes.getD index.toNat 0) { m with loads := index.toNat :: m.loads }
  else .error (.outOfBounds index) m

def store (index : Int) (value : UInt8) : MemoryM ε Unit := fun m =>
  if m.Inside index then
    .ok () { m with bytes := m.bytes.set index.toNat value, stores := index.toNat :: m.stores }
  else .error (.outOfBounds index) m

def loadWord (index : Int) : MemoryM ε UInt32 := do
  let b0 ← load index
  let b1 ← load (index + 1)
  let b2 ← load (index + 2)
  let b3 ← load (index + 3)
  pure (UInt32.ofNat (leNat [b0, b1, b2, b3]))

def storeWord (index : Int) (value : UInt32) : MemoryM ε Unit := do
  store index value.toUInt8
  store (index + 1) (value >>> 8).toUInt8
  store (index + 2) (value >>> 16).toUInt8
  store (index + 3) (value >>> 24).toUInt8

def region (start : Int) (length : Nat) : MemoryM ε (List UInt8) := fun m =>
  if 0 ≤ start ∧ start + length ≤ m.bytes.length then
    .ok ((m.bytes.drop start.toNat).take length)
      { m with loads := List.range' start.toNat length ++ m.loads }
  else .error (.outOfBounds (start + length - 1)) m

def forLoop (wrap : Int → Int) (bound : Int) (body : Int → α → EStateM (Fault ε) σ α) :
    Nat → Int → α → EStateM (Fault ε) σ α
  | 0, _, _ => throw .outOfFuel
  | fuel + 1, i, a =>
    if i < bound then do
      let a ← body i a
      forLoop wrap bound body fuel (wrap (i + 1)) a
    else pure a

theorem leBytes_octets (value : UInt32) :
    leBytes 4 value.toNat =
      [value.toUInt8, (value >>> 8).toUInt8, (value >>> 16).toUInt8, (value >>> 24).toUInt8] := by
  have octet : ∀ (v : UInt32) (n : Nat), v.toNat = n → UInt8.ofNat (n % 256) = v.toUInt8 := by
    intro v n eq
    apply UInt8.toNat_inj.mp
    simp [← eq]
  have shifted : ∀ (k : Nat) (amount : UInt32), amount.toNat = k → k < 32 →
      (value >>> amount).toNat = value.toNat / 2 ^ k := by
    intro k amount eq lt
    rw [UInt32.toNat_shiftRight, eq, Nat.mod_eq_of_lt lt, Nat.shiftRight_eq_div_pow]
  simp only [leBytes]
  rw [octet value _ rfl,
    octet (value >>> 8) (value.toNat / 256) (shifted 8 8 rfl (by decide)),
    octet (value >>> 16) _ ((shifted 16 16 rfl (by decide)).trans (by omega)),
    octet (value >>> 24) _ ((shifted 24 24 rfl (by decide)).trans (by omega))]

/-! ### Accesses inside the buffer -/

theorem load_inside (m : Memory) (k : Nat) (hin : k < m.bytes.length) :
    (load k : MemoryM ε UInt8) m = .ok m.bytes[k] { m with loads := k :: m.loads } := by
  have range : m.Inside k := ⟨by omega, by omega⟩
  have found : m.bytes.getD k 0 = m.bytes[k] := by
    simp [hin]
  simp only [load, if_pos range, Int.toNat_natCast, found]

section Accesses

variable (m : Memory) (front back : List UInt8) (index : Int) (here : index = front.length)
include here

theorem load_at (b : UInt8) (bytes : m.bytes = front ++ b :: back) :
    (load index : MemoryM ε UInt8) m = .ok b { m with loads := front.length :: m.loads } := by
  subst here
  have hin : front.length < m.bytes.length := by
    simp [bytes]
  have found : m.bytes[front.length] = b := by
    simp [bytes]
  rw [load_inside m _ hin, found]

theorem store_at (b value : UInt8) (content : m.bytes = front ++ b :: back) :
    (store index value : MemoryM ε Unit) m =
      .ok () { m with bytes := front ++ value :: back, stores := front.length :: m.stores } := by
  subst here
  have hin : m.Inside front.length := by
    simp only [Inside, content, List.length_append, List.length_cons]
    omega
  have replaced : m.bytes.set front.length value = front ++ value :: back := by
    rw [content, List.set_append_right _ _ (Nat.le_refl _), Nat.sub_self]
    rfl
  simp only [store, if_pos hin, Int.toNat_natCast, replaced]

theorem loadWord_at {word : List UInt8} (four : word.length = 4)
    (bytes : m.bytes = front ++ word ++ back) :
    (loadWord index : MemoryM ε UInt32) m = .ok (UInt32.ofNat (leNat word)) { m with
      loads := [front.length + 3, front.length + 2, front.length + 1, front.length] ++
        m.loads } := by
  obtain ⟨b0, b1, b2, b3, rfl⟩ := List.length_eq_four.mp four
  have pieces : m.bytes = front ++ b0 :: b1 :: b2 :: b3 :: back := by
    simp [bytes]
  simp only [loadWord]
  -- each octet is found behind the ones before it
  rw [bind_of_ok (load_at m front _ index here b0 pieces)]
  rw [bind_of_ok (load_at _ (front ++ [b0]) (b2 :: b3 :: back) (index + 1)
    (by simp [here]) b1 (by simp [pieces]))]
  rw [bind_of_ok (load_at _ (front ++ [b0, b1]) (b3 :: back) (index + 2)
    (by simp [here]) b2 (by simp [pieces]))]
  rw [bind_of_ok (load_at _ (front ++ [b0, b1, b2]) back (index + 3)
    (by simp [here]) b3 (by simp [pieces]))]
  simp only [List.length_append]
  rfl

theorem storeWord_at {word : List UInt8} (four : word.length = 4) (value : UInt32)
    (content : m.bytes = front ++ word ++ back) :
    (storeWord index value : MemoryM ε Unit) m = .ok () { m with
      bytes := front ++ leBytes 4 value.toNat ++ back
      stores :=
        [front.length + 3, front.length + 2, front.length + 1, front.length] ++ m.stores } := by
  obtain ⟨b0, b1, b2, b3, rfl⟩ := List.length_eq_four.mp four
  have pieces : m.bytes = front ++ b0 :: b1 :: b2 :: b3 :: back := by
    simp [content]
  simp only [storeWord]
  rw [bind_of_ok (store_at m front _ index here b0 _ pieces)]
  rw [bind_of_ok (store_at _ (front ++ [value.toUInt8]) (b2 :: b3 :: back) (index + 1)
    (by simp [here]) b1 _ (by simp))]
  rw [bind_of_ok (store_at _ (front ++ [value.toUInt8, (value >>> 8).toUInt8])
    (b3 :: back) (index + 2) (by simp [here]) b2 _ (by simp))]
  rw [store_at _ (front ++ [value.toUInt8, (value >>> 8).toUInt8, (value >>> 16).toUInt8])
    back (index + 3) (by simp [here]) b3 _ (by simp)]
  simp [leBytes_octets]

end Accesses

theorem region_inside (m : Memory) (start length : Nat) (hin : start + length ≤ m.bytes.length) :
    (region start length : MemoryM ε (List UInt8)) m = .ok ((m.bytes.drop start).take length)
      { m with loads := List.range' start length ++ m.loads } := by
  have range : (0 : Int) ≤ start ∧ (start : Int) + length ≤ m.bytes.length := by omega
  simp only [region, if_pos range, Int.toNat_natCast]

theorem region_outside {m : Memory} {start length : Nat}
    (out : m.bytes.length < start + length) :
    (region start length : MemoryM ε (List UInt8)) m =
      .error (.outOfBounds (start + length - 1)) m := by
  have range : ¬ ((0 : Int) ≤ start ∧ (start : Int) + length ≤ m.bytes.length) := by omega
  simp only [region, if_neg range]

/-! ### Loops -/

section Loops

variable (wrap : Int → Int) {bound : Int} {body : Int → α → EStateM (Fault ε) σ α}

theorem forLoop_ok (P : Nat → α → σ → Prop) (n : Nat) (limit : bound.toNat = n)
    (fits : ∀ k ≤ n, wrap k = k)
    (step : ∀ k < n, ∀ a s, P k a s → ∃ a' s', body k a s = .ok a' s' ∧ P (k + 1) a' s')
    (fuel k : Nat) (a : α) (s : σ) (below : k ≤ n) (le : n < fuel + k) (start : P k a s) :
    ∃ a' s', forLoop wrap bound body fuel k a s = .ok a' s' ∧ P n a' s' := by
  induction fuel generalizing k a s with
  | zero => omega
  | succ fuel ih =>
    by_cases more : k < n
    · obtain ⟨a', s', ret, kept⟩ := step k more a s start
      obtain ⟨a'', s'', rest, last⟩ := ih (k + 1) a' s' more (by omega) kept
      refine ⟨a'', s'', ?_, last⟩
      have counted : wrap ((k : Int) + 1) = ((k + 1 : Nat) : Int) := fits (k + 1) more
      rw [forLoop, ite_run_pos (by omega), bind_of_ok ret, counted]
      exact rest
    · obtain rfl : k = n := by omega
      refine ⟨a, s, ?_, start⟩
      rw [forLoop, ite_run_neg (by omega)]
      rfl

theorem forLoop_never_returns (always : ∀ i, wrap i < bound) (fuel : Nat) (i : Int)
    (below : i < bound) (a : α) (s : σ) (a' : α) (s' : σ) :
    forLoop wrap bound body fuel i a s ≠ .ok a' s' := by
  induction fuel generalizing i a s with
  | zero => exact fun ret => by cases ret
  | succ fuel ih =>
    intro ret
    rw [forLoop, ite_run_pos below, bind_ok_iff] at ret
    obtain ⟨a₁, s₁, _, rest⟩ := ret
    exact ih _ (always _) a₁ s₁ rest

end Loops

end CheckedMemory
