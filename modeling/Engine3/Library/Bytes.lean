import Mathlib.Data.List.Basic
import Mathlib.Tactic.Ring

/-!
# Byte strings and fixed-width numbers

A byte string is a list of octets. A number of `width` octets is stored least
significant octet first (the byte order of every host the engine runs on) or, for
the fields in network order, most significant octet first.
-/
namespace Bytes

open List

def leNat : List UInt8 → Nat
  | [] => 0
  | b :: bs => b.toNat + 256 * leNat bs

def leBytes : Nat → Nat → List UInt8
  | 0, _ => []
  | width + 1, n => UInt8.ofNat (n % 256) :: leBytes width (n / 256)

def beNat (bs : List UInt8) : Nat := leNat bs.reverse

def beBytes (width n : Nat) : List UInt8 := (leBytes width n).reverse

variable (width n : Nat)

@[simp] theorem length_leBytes : (leBytes width n).length = width := by
  induction width generalizing n with
  | zero => rfl
  | succ width ih => simp [leBytes, ih]

@[simp] theorem length_beBytes : (beBytes width n).length = width := by
  simp [beBytes]

variable (bs : List UInt8)

theorem leNat_lt : leNat bs < 256 ^ bs.length := by
  induction bs with
  | nil => simp [leNat]
  | cons b bs ih =>
    have octet := b.toNat_lt
    simp only [leNat, length_cons, Nat.pow_succ]
    omega

theorem leNat_leBytes : leNat (leBytes width n) = n % 256 ^ width := by
  induction width generalizing n with
  | zero => simp [leBytes, leNat, Nat.mod_one]
  | succ width ih =>
    have octet : (UInt8.ofNat (n % 256)).toNat = n % 256 := by
      simp
    simp only [leBytes, leNat, octet, ih]
    rw [Nat.pow_succ', Nat.mod_mul]

theorem beNat_beBytes : beNat (beBytes width n) = n % 256 ^ width := by
  simp [beNat, beBytes, leNat_leBytes]

theorem beBytes_succ :
    beBytes (width + 1) n = UInt8.ofNat (n / 256 ^ width) :: beBytes width n := by
  induction width generalizing n with
  | zero =>
    have octet : UInt8.ofNat (n % 256) = UInt8.ofNat n := UInt8.toNat_inj.mp (by simp)
    simp [beBytes, leBytes, octet]
  | succ width ih =>
    have quotient : n / 256 / 256 ^ width = n / 256 ^ (width + 1) := by
      rw [Nat.div_div_eq_div_mul, Nat.pow_succ']
    have inner := ih (n / 256)
    rw [quotient] at inner
    simp only [beBytes, leBytes, reverse_cons] at inner ⊢
    rw [inner]
    rfl

theorem leBytes_leNat : leBytes bs.length (leNat bs) = bs := by
  induction bs with
  | nil => rfl
  | cons b bs ih =>
    have octet := b.toNat_lt
    have low : (b.toNat + 256 * leNat bs) % 256 = b.toNat := by omega
    have high : (b.toNat + 256 * leNat bs) / 256 = leNat bs := by omega
    simp only [length_cons, leNat, leBytes, low, high, ih, UInt8.ofNat_toNat]

theorem leNat_take_lt : leNat (bs.take width) < 256 ^ width :=
  Nat.lt_of_lt_of_le (leNat_lt _)
    (Nat.pow_le_pow_right (by decide) (length_take_le width bs))

theorem eq_leBytes_append (long : width ≤ bs.length) :
    bs = leBytes width (leNat (bs.take width)) ++ bs.drop width := by
  have num := leBytes_leNat (bs.take width)
  rw [length_take, Nat.min_eq_left long] at num
  rw [num, take_append_drop]

theorem beNat_take_lt : beNat (bs.take width) < 256 ^ width := by
  have bd := leNat_lt (bs.take width).reverse
  rw [length_reverse] at bd
  exact Nat.lt_of_lt_of_le bd
    (Nat.pow_le_pow_right (by decide) (length_take_le width bs))

theorem eq_beBytes_append (long : width ≤ bs.length) :
    bs = beBytes width (beNat (bs.take width)) ++ bs.drop width := by
  have num := leBytes_leNat (bs.take width).reverse
  rw [length_reverse, length_take, Nat.min_eq_left long] at num
  rw [beBytes, beNat, num, reverse_reverse, take_append_drop]

theorem leNat_take_leBytes (bs : List UInt8) (lt : n < 256 ^ width) :
    leNat ((leBytes width n ++ bs).take width) = n := by
  rw [take_left' (length_leBytes width n), leNat_leBytes, Nat.mod_eq_of_lt lt]

theorem drop_leBytes (bs : List UInt8) : (leBytes width n ++ bs).drop width = bs :=
  drop_left' (length_leBytes width n)

theorem width_le_leBytes (bs : List UInt8) : ¬ (leBytes width n ++ bs).length < width := by
  rw [length_append, length_leBytes]
  omega

end Bytes
