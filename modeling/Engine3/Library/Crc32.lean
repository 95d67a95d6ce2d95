import Mathlib.Data.UInt

/-!
# The reflected CRC-32, bit by bit

The checksum as its definition has it: the register is divided by the polynomial one bit
at a time, least significant bit first. The division is linear in the register, which is
why a table of 256 remainders can take a whole octet in one step.
-/
namespace Crc32

def polynomial : UInt32 := 0xEDB88320

def bitStep (register : UInt32) : UInt32 :=
  if register &&& 1 = 1 then (register >>> 1) ^^^ polynomial else register >>> 1

def bitSteps : Nat → UInt32 → UInt32
  | 0, register => register
  | n + 1, register => bitSteps n (bitStep register)

def byteStep (register : UInt32) (octet : UInt8) : UInt32 :=
  bitSteps 8 (register ^^^ octet.toUInt32)

def crc32 (data : List UInt8) : UInt32 := ~~~(data.foldl byteStep 0xFFFFFFFF)

def remainder (index : UInt32) : UInt32 := bitSteps 8 index

variable (register : UInt32)

private theorem low_bit : register &&& 1 = if register.toBitVec.getLsbD 0 then 1 else 0 := by
  apply UInt32.toBitVec_inj.mp
  apply (BitVec.and_one_eq_setWidth_ofBool_getLsbD).trans
  cases register.toBitVec.getLsbD 0 <;> rfl

theorem bitStep_xor (a b : UInt32) : bitStep (a ^^^ b) = bitStep a ^^^ bitStep b := by
  simp only [bitStep, low_bit, UInt32.toBitVec_xor, BitVec.getLsbD_xor, UInt32.shiftRight_xor]
  -- the polynomial is subtracted on the left exactly when it is on one side on the right
  cases a.toBitVec.getLsbD 0 <;> cases b.toBitVec.getLsbD 0 <;> simp
  · exact UInt32.xor_assoc _ _ _
  · rw [UInt32.xor_assoc, UInt32.xor_assoc, UInt32.xor_comm polynomial]
  · rw [UInt32.xor_assoc, ← UInt32.xor_assoc polynomial, UInt32.xor_comm polynomial,
      UInt32.xor_assoc, UInt32.xor_self, UInt32.xor_zero]

theorem bitSteps_xor (n : Nat) (a b : UInt32) :
    bitSteps n (a ^^^ b) = bitSteps n a ^^^ bitSteps n b := by
  induction n generalizing a b with
  | zero => rfl
  | succ n ih => rw [bitSteps, bitStep_xor, ih, bitSteps, bitSteps]

/-! ### Octets at a time -/

theorem bitSteps_of_clear (n : Nat) (register : UInt32)
    (clear : ∀ i < n, register.toBitVec.getLsbD i = false) :
    (bitSteps n register).toBitVec = register.toBitVec >>> n := by
  induction n generalizing register with
  | zero => rfl
  | succ n ih =>
    have step : bitStep register = register >>> 1 := by
      rw [bitStep, low_bit, clear 0 (Nat.succ_pos n)]
      rfl
    have shifted : (register >>> 1).toBitVec = register.toBitVec >>> 1 := rfl
    rw [bitSteps, step, ih _ _, shifted, ← BitVec.shiftRight_add, Nat.add_comm]
    intro i below
    rw [shifted, BitVec.getLsbD_ushiftRight]
    exact clear (1 + i) (by omega)

private theorem getLsbD_low (i : Nat) : (register &&& 0xFF).toBitVec.getLsbD i =
      (register.toBitVec.getLsbD i && decide (i < 8)) := by
  have ones : (0xFF : UInt32).toBitVec = (BitVec.allOnes 8).setWidth 32 := rfl
  rw [UInt32.toBitVec_and, BitVec.getLsbD_and, ones, BitVec.getLsbD_setWidth,
    BitVec.getLsbD_allOnes]
  by_cases low : i < 8
  · simp only [low, show i < 32 by omega, decide_true, Bool.and_true]
  · simp only [low, decide_false, Bool.and_false]

private theorem getLsbD_high (i : Nat) : (register &&& ~~~0xFF).toBitVec.getLsbD i =
      (register.toBitVec.getLsbD i && decide (8 ≤ i)) := by
  by_cases hin : i < 32
  · have low := getLsbD_low register i
    rw [UInt32.toBitVec_and, BitVec.getLsbD_and] at low ⊢
    rw [UInt32.toBitVec_not, BitVec.getLsbD_not]
    cases set : register.toBitVec.getLsbD i with
    | false => rfl
    | true =>
      rw [set, Bool.true_and, Bool.true_and] at low
      simp only [low, hin, decide_true, Bool.true_and]
      by_cases lt : i < 8
      · simp [lt]
      · simp [lt, Nat.not_lt.mp lt]
  · rw [BitVec.getLsbD_of_ge _ _ (Nat.not_lt.mp hin),
      BitVec.getLsbD_of_ge _ _ (Nat.not_lt.mp hin), Bool.false_and]

variable (octet : UInt8)

private theorem getLsbD_octet (i : Nat) (high : 8 ≤ i) :
    octet.toUInt32.toBitVec.getLsbD i = false := by
  rw [UInt8.toBitVec_toUInt32, BitVec.getLsbD_setWidth, BitVec.getLsbD_of_ge _ _ high,
    Bool.and_false]

private theorem split_octet : register ^^^ octet.toUInt32 =
      (register &&& ~~~0xFF) ^^^ ((register ^^^ octet.toUInt32) &&& 0xFF) := by
  apply UInt32.toBitVec_inj.mp
  apply BitVec.eq_of_getLsbD_eq
  intro i _
  rw [UInt32.toBitVec_xor, UInt32.toBitVec_xor, BitVec.getLsbD_xor, BitVec.getLsbD_xor,
    getLsbD_high, getLsbD_low, UInt32.toBitVec_xor, BitVec.getLsbD_xor]
  by_cases low : i < 8
  · simp only [low, show ¬ 8 ≤ i by omega, decide_true, decide_false, Bool.and_true,
      Bool.and_false, Bool.false_xor]
  · have high : 8 ≤ i := Nat.not_lt.mp low
    simp only [low, high, getLsbD_octet octet i high, decide_true, decide_false, Bool.and_true,
      Bool.and_false, Bool.xor_false]

private theorem bitSteps_high : bitSteps 8 (register &&& ~~~0xFF) = register >>> 8 := by
  apply UInt32.toBitVec_inj.mp
  rw [bitSteps_of_clear 8]
  · have shifted : (register >>> 8).toBitVec = register.toBitVec >>> 8 := rfl
    rw [shifted]
    apply BitVec.eq_of_getLsbD_eq
    intro i _
    rw [BitVec.getLsbD_ushiftRight, BitVec.getLsbD_ushiftRight, getLsbD_high]
    simp only [Nat.le_add_right, decide_true, Bool.and_true]
  · intro i low
    rw [getLsbD_high]
    simp only [show ¬ 8 ≤ i by omega, decide_false, Bool.and_false]

theorem byteStep_eq_remainder : byteStep register octet =
      (register >>> 8) ^^^ remainder ((register ^^^ octet.toUInt32) &&& 0xFF) := by
  rw [byteStep, remainder, ← bitSteps_high register, ← bitSteps_xor, ← split_octet]

theorem index_octet (value : UInt32) :
    (register ^^^ value.toUInt8.toUInt32) &&& 0xFF = (value ^^^ register) &&& 0xFF := by
  apply UInt32.toBitVec_inj.mp
  apply BitVec.eq_of_getLsbD_eq
  intro i hin
  rw [getLsbD_low, getLsbD_low, UInt32.toBitVec_xor, UInt32.toBitVec_xor, BitVec.getLsbD_xor,
    BitVec.getLsbD_xor, UInt8.toBitVec_toUInt32, UInt32.toBitVec_toUInt8, BitVec.getLsbD_setWidth,
    BitVec.getLsbD_setWidth]
  by_cases low : i < 8
  · simp only [low, hin, decide_true, Bool.true_and, Bool.and_true]
    exact Bool.xor_comm _ _
  · simp only [low, decide_false, Bool.and_false]

end Crc32
