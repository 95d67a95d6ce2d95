import Mathlib.Data.Nat.Bitwise

/-!
# Fixed-width machine integers

Conversions of C's unsigned and signed integer types, on unbounded numbers: an
unsigned value is a natural number below `2 ^ w`, a signed one an integer in
`[-2 ^ (w - 1), 2 ^ (w - 1))`, and a conversion keeps the low `w` bits.
-/
namespace MachineInt

def u16 (z : Int) : Nat := (z % 65536).toNat

def u32 (z : Int) : Nat := (z % 4294967296).toNat

def i16 (z : Int) : Int := (z + 32768) % 65536 - 32768

def i32 (z : Int) : Int := (z + 2147483648) % 4294967296 - 2147483648

@[simp] theorem u16_natCast (n : Nat) : u16 n = n % 65536 := by
  unfold u16; omega

@[simp] theorem u32_natCast (n : Nat) : u32 n = n % 4294967296 := by
  unfold u32; omega

theorem u32_of_nonneg {z : Int} (low : 0 ≤ z) (high : z < 4294967296) : (u32 z : Int) = z := by
  unfold u32; omega

theorem i32_of_small (z : Int) (low : -2147483648 ≤ z) (high : z < 2147483648) : i32 z = z := by
  unfold i32; omega

theorem i16_of_small {z : Int} (low : -32768 ≤ z) (high : z < 32768) : i16 z = z := by
  unfold i16; omega

theorem land_low16 (n : Nat) : n &&& 0xFFFF = n % 65536 :=
  Nat.and_two_pow_sub_one_eq_mod n 16

theorem land_high16 {n : Nat} (lt : n < 4294967296) :
    n &&& 0xFFFF0000 = n / 65536 * 65536 := by
  have mask : (0xFFFF0000 : Nat) = (2 ^ 16 - 1) <<< 16 := by decide
  have round : n / 65536 * 65536 = (n >>> 16) <<< 16 := by
    rw [Nat.shiftLeft_eq, Nat.shiftRight_eq_div_pow]
  rw [mask, round]
  apply Nat.eq_of_testBit_eq
  intro i
  simp only [Nat.testBit_and, Nat.testBit_shiftLeft, Nat.testBit_shiftRight,
    Nat.testBit_two_pow_sub_one]
  by_cases low : 16 ≤ i
  · have shift : 16 + (i - 16) = i := by omega
    by_cases high : i < 32
    · simp [low, shift, show i - 16 < 16 by omega]
    · have wide : 2 ^ 32 ≤ 2 ^ i := Nat.pow_le_pow_right (by decide) (by omega)
      have clear : n.testBit i = false := Nat.testBit_eq_false_of_lt (lt_of_lt_of_le lt wide)
      simp [clear, shift]
  · simp [low]

theorem lor_high16 (low high : Nat) (lt : low < 65536) :
    low ||| high / 65536 * 65536 = high / 65536 * 65536 + low := by
  have joined := Nat.shiftLeft_add_eq_or_of_lt (i := 16) lt (high / 65536)
  rw [Nat.shiftLeft_eq] at joined
  rw [Nat.lor_comm, ← joined]

end MachineInt
