import Mathlib.Data.Nat.Digits.Defs

/-!
# Bits in groups of another width

A list of groups of bits, most significant first, is a number in base `2 ^ width`. Groups of one
width are read and groups of another are written; in between some bits are held that are not yet a
group. What was read is what was written and what is held, and no bit is lost on the way back.
-/
namespace Regrouping

open List

def number (width : Nat) (groups : List Nat) : Nat := Nat.ofDigits (2 ^ width) groups.reverse

theorem number_concat (width : Nat) (groups : List Nat) (group : Nat) :
    number width (groups ++ [group]) = number width groups * 2 ^ width + group := by
  rw [number, number, reverse_append, reverse_singleton, singleton_append,
    Nat.ofDigits_cons]
  simp [Nat.mul_comm, Nat.add_comm]

theorem number_inj {width : Nat} (pos : 0 < width) {a b : List Nat}
    (len : a.length = b.length) (left : ∀ group ∈ a, group < 2 ^ width)
    (right : ∀ group ∈ b, group < 2 ^ width) (eq : number width a = number width b) : a = b := by
  have base : 1 < 2 ^ width := Nat.one_lt_two_pow (Nat.ne_of_gt pos)
  apply reverse_inj.mp
  apply Nat.ofDigits_inj_of_len_eq base
  · rw [length_reverse, length_reverse, len]
  · simpa using left
  · simpa using right
  · exact eq

/-! ### Reading and writing -/

structure Regroups (source target : Nat) (read written : List Nat) (count held : Nat) : Prop where
  total : source * read.length = target * written.length + count
  small : held < 2 ^ count
  bits : number source read = number target written * 2 ^ count + held

variable {source target : Nat} {read written : List Nat} {count held : Nat}

theorem Regroups.nil : Regroups source target [] [] 0 0 where
  total := by simp
  small := by simp
  bits := by simp [number]

variable (state : Regroups source target read written count held)
include state

theorem Regroups.read_group (group : Nat) (lt : group < 2 ^ source) :
    Regroups source target (read ++ [group]) written (count + source)
      (held * 2 ^ source + group) where
  total := by
    rw [length_append, length_singleton, Nat.mul_add, Nat.mul_one, state.total,
      Nat.add_assoc]
  small := by
    calc held * 2 ^ source + group < held * 2 ^ source + 2 ^ source := by omega
      _ = (held + 1) * 2 ^ source := by rw [Nat.add_mul, Nat.one_mul]
      _ ≤ 2 ^ count * 2 ^ source := Nat.mul_le_mul_right _ state.small
      _ = 2 ^ (count + source) := (Nat.pow_add _ _ _).symm
  bits := by
    rw [number_concat, state.bits, Nat.pow_add]
    ring

theorem Regroups.write_group (le : target ≤ count) :
    Regroups source target read (written ++ [held / 2 ^ (count - target)]) (count - target)
      (held % 2 ^ (count - target)) where
  total := by
    rw [length_append, length_singleton, Nat.mul_add, Nat.mul_one, state.total]
    omega
  small := Nat.mod_lt _ (Nat.two_pow_pos _)
  bits := by
    have width : 2 ^ count = 2 ^ target * 2 ^ (count - target) := by
      rw [← Nat.pow_add, Nat.add_sub_cancel' le]
    have parts := Nat.div_add_mod held (2 ^ (count - target))
    rw [state.bits, number_concat, width]
    generalize held / 2 ^ (count - target) = high at parts ⊢
    generalize held % 2 ^ (count - target) = low at parts ⊢
    rw [← parts]
    ring

theorem Regroups.group_lt (le : target ≤ count) : held / 2 ^ (count - target) < 2 ^ target := by
  rw [Nat.div_lt_iff_lt_mul (Nat.two_pow_pos _), ← Nat.pow_add, Nat.add_sub_cancel' le]
  exact state.small

omit state

/-! ### The way back -/

structure Padded (source target : Nat) (read written : List Nat) (pad : Nat) : Prop where
  total : target * written.length = source * read.length + pad
  short : pad < target
  bits : number target written = number source read * 2 ^ pad

theorem Regroups.padded_none (state : Regroups source target read written 0 held)
    (pos : 0 < target) : Padded source target read written 0 where
  total := state.total.symm
  short := pos
  bits := by
    have zero : held = 0 := Nat.lt_one_iff.mp state.small
    rw [state.bits, zero]
    simp

theorem Regroups.padded (state : Regroups source target read written count held)
    (some : 0 < count) (fits : count ≤ target) :
    Padded source target read (written ++ [held * 2 ^ (target - count)]) (target - count) where
  total := by
    rw [length_append, length_singleton, Nat.mul_add, Nat.mul_one, state.total]
    omega
  short := by omega
  bits := by
    have width : 2 ^ target = 2 ^ count * 2 ^ (target - count) := by
      rw [← Nat.pow_add, Nat.add_sub_cancel' fits]
    rw [number_concat, state.bits, width]
    ring

theorem Padded.inverse {pad : Nat} {back : List Nat}
    (padded : Padded source target read written pad)
    (state : Regroups target source written back count held) (pos : 0 < source)
    (len : back.length = read.length) (left : ∀ group ∈ back, group < 2 ^ source)
    (right : ∀ group ∈ read, group < 2 ^ source) : back = read := by
  have eq : count = pad := by
    have total := state.total
    rw [padded.total, len] at total
    omega
  subst eq
  apply number_inj pos len left right
  have bits := state.bits
  rw [padded.bits] at bits
  have bound := state.small
  -- what is held is less than a unit of the groups
  have quotient := congrArg (· / 2 ^ count) bits
  simp only [Nat.mul_div_cancel _ (Nat.two_pow_pos count)] at quotient
  rw [Nat.mul_comm, Nat.mul_add_div (Nat.two_pow_pos count), Nat.div_eq_of_lt bound,
    Nat.add_zero] at quotient
  exact quotient.symm

end Regrouping
