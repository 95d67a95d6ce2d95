import Engine3.Library.Lockstep
import Engine3.Library.OwnedObjects
import Engine3.System.SmallString

/-!
# Programs with strings

Any number of `String`s that are constructed, copied, moved, assigned, joined and cut, beside the
byte sequences they should hold. Every step does what the operation on sequences does, whatever
the lengths, but for one: a string of eight to fifteen characters cannot be appended to itself.
-/
namespace Engine3

open OwnedBlocks Function

namespace SmallString

variable {ι : Type}

abbrev Strings (ι : Type) := World Datum SmallString ι

abbrev StringsM (ι : Type) := WorldM Fault Datum SmallString ι

/-- The strings hold these bytes, in blocks of their own. -/
abbrev Faithful (w : Strings ι) (a : ι → Option (List UInt8)) : Prop :=
  Represents owner w.heap w.objects a

abbrev Short (a : ι → Option (List UInt8)) : Prop := Every (fun v => v.length < 2147483647) a

/-! ### The operations -/

inductive Op (ι : Type)
  | create (x : ι) (str : List UInt8)
  | copy (x y : ι)
  | move (x y : ι)
  | assign (x y : ι)
  | moveAssign (x y : ι)
  | assignChars (x : ι) (str : List UInt8)
  | append (x y : ι)
  | appendChars (x : ι) (str : List UInt8)
  | concat (z x y : ι)
  | concatChars (z x : ι) (str : List UInt8)
  | subString (z x : ι) (beginIndex endIndex : Int)
  | subStringFrom (z x : ι) (beginIndex : Int)
  | destroy (x : ι)

variable [DecidableEq ι]

def construct (z : ι) : Except Exception (CharM SmallString) → StringsM ι Unit
  | .ok m => become z m
  | .error _ => pure ()

def perform : Op ι → StringsM ι Unit
  | .create x str => unused x (become x (create .fresh (text str)))
  | .copy x y => unused x (used y fun str => become x str.copyConstruct)
  | .move x y => unused x (used y fun str => exchange x y (moveFrom .fresh str))
  | .assign x y =>
    used x fun this => used y fun str => if x = y then pure () else become x (this.assign str)
  | .moveAssign x y =>
    used x fun this => used y fun str =>
      if x = y then pure () else exchange x y (this.moveAssign str)
  | .assignChars x str => used x fun this => become x (this.assignChars (text str))
  | .append x y =>
    used x fun this => used y fun str =>
      become x (if x = y then this.appendSelf else this.appendString str)
  | .appendChars x str => used x fun this => become x (this.appendChars (text str))
  | .concat z x y => unused z (used x fun this => used y fun str => become z (this.concat str))
  | .concatChars z x str => unused z (used x fun this => become z (this.concatChars (text str)))
  | .subString z x beginIndex endIndex =>
    unused z (used x fun this => construct z (this.subString beginIndex endIndex))
  | .subStringFrom z x beginIndex =>
    unused z (used x fun this => construct z (this.subStringFrom beginIndex))
  | .destroy x => used x fun this => dispose x this.destroy

def expect (a : ι → Option (List UInt8)) : Op ι → ι → Option (List UInt8)
  | .create x str => (a x).elim (update a x (some str)) fun _ => a
  | .copy x y => (a x).elim ((a y).elim a fun v => update a x (some v)) fun _ => a
  | .move x y =>
    (a x).elim ((a y).elim a fun v => update
      (update a y (some (if v.length < 16 then v else []))) x (some v)) fun _ => a
  | .assign x y =>
    (a x).elim a fun _ => (a y).elim a fun v => if x = y then a else update a x (some v)
  | .moveAssign x y =>
    (a x).elim a fun _ => (a y).elim a fun v =>
      if x = y then a else update
        (update a y (some (if v.length < 16 then v else []))) x (some v)
  | .assignChars x str => (a x).elim a fun _ => update a x (some str)
  | .append x y =>
    (a x).elim a fun u => (a y).elim a fun v => update a x (some (u ++ v))
  | .appendChars x str => (a x).elim a fun u => update a x (some (u ++ str))
  | .concat z x y =>
    (a z).elim ((a x).elim a fun u => (a y).elim a fun v =>
      update a z (some (u ++ v))) fun _ => a
  | .concatChars z x str =>
    (a z).elim ((a x).elim a fun u => update a z (some (u ++ str))) fun _ => a
  | .subString z x beginIndex endIndex =>
    (a z).elim ((a x).elim a fun u =>
      if 0 ≤ beginIndex ∧ beginIndex ≤ endIndex ∧ endIndex ≤ u.length then
        update a z
          (some ((u.drop beginIndex.toNat).take (endIndex - beginIndex).toNat))
      else a) fun _ => a
  | .subStringFrom z x beginIndex =>
    (a z).elim ((a x).elim a fun u =>
      if 0 ≤ beginIndex ∧ beginIndex < u.length then
        update a z (some (u.drop beginIndex.toNat))
      else a) fun _ => a
  | .destroy x => (a x).elim a fun _ => update a x none

/-- Only appending a string to itself asks for anything. -/
def Op.Sound (a : ι → Option (List UInt8)) : Op ι → Prop
  | .append x y =>
    (a x).elim True fun u => (a y).elim True fun _ => x = y → u.length < 8 ∨ 16 ≤ u.length
  | _ => True

/-! ### One step -/

section Steps

variable {w : Strings ι} {a : ι → Option (List UInt8)} (rep : Faithful w a)
include rep

variable {x : ι} {m : CharM SmallString} {h' : Heap Datum} {v str : List UInt8}

theorem become_keeps {s' : SmallString} (ret : m w.heap = .ok s' h')
    (ext : Extends w.heap (owner.block w.objects x) h') (new : ∀ p, s'.pointer = some p →
      w.heap.blocks p = none ∨ owner.block w.objects x = some p) (holds : Holds h' s' v) :
    Keeps owner (become x m) w (update a x (some v)) :=
  (become_iff rep ret ext new Iff.rfl).mpr holds

theorem construct_keeps (absent : w.objects x = none)
    (constructs : ∃ s' h', m w.heap = .ok s' h' ∧ Extends w.heap none h' ∧ Holds h' s' v ∧
      ∀ p, s'.pointer = some p → w.heap.blocks p = none) :
    Keeps owner (become x m) w (update a x (some v)) := by
  obtain ⟨s', h', ret, ext, holds, new⟩ := constructs
  exact become_keeps rep ret (by rwa [owner.block_none absent])
    (fun p points => .inl (new p points)) holds

omit [DecidableEq ι] in
theorem content_elsewhere {y : ι} {s str : SmallString} (apart : x ≠ y)
    (obj : w.objects x = some s) (obj' : w.objects y = some str) (val' : a y = some v)
    (ext : Extends w.heap s.pointer h') :
    Holds h' str v ∧ str.content h' = .ok (text v) h' := by
  have ext' : Extends w.heap (owner.block w.objects x) h' := by rwa [owner.block_some obj]
  have held : Holds h' str v := rep.other apart.symm ext' obj' val'
  exact ⟨held, content_spec held⟩

variable (x y z : ι)

theorem create_keeps (short : Short (expect a (.create x str))) :
    Keeps owner (perform (.create x str)) w (expect a (.create x str)) := by
  refine unused_keeps rep fun absent => construct_keeps rep absent ?_
  have len : str.length < 2147483647 := short x str (by simp [expect, (rep.absent x).mp absent])
  exact create_spec .fresh str w.heap len

theorem copy_keeps (short : Short (expect a (.copy x y))) :
    Keeps owner (perform (.copy x y)) w (expect a (.copy x y)) := by
  refine unused_keeps rep fun absent => used_keeps rep fun str v _ val held =>
    construct_keeps rep absent ?_
  have len : v.length < 2147483647 :=
    short x v (by simp [expect, (rep.absent x).mp absent, val])
  exact copyConstruct_spec held len

theorem move_keeps : Keeps owner (perform (.move x y)) w (expect a (.move x y)) := by
  refine unused_keeps rep fun absent => used_keeps rep fun str v obj _ held => ?_
  have apart : x ≠ y := by
    rintro rfl
    rw [absent] at obj
    cases obj
  obtain ⟨s', left, moved, holds, rest, nothing, points⟩ := moveFrom_spec .fresh held
  exact exchange_keeps rep apart moved (Extends.refl _ _) obj points holds rest nothing

theorem assign_keeps (short : Short (expect a (.assign x y))) :
    Keeps owner (perform (.assign x y)) w (expect a (.assign x y)) := by
  refine used_keeps rep fun s u obj val mine =>
    used_keeps rep fun str v obj' val' held => ?_
  by_cases self : x = y
  · rw [if_pos self, if_pos self]
    exact ⟨w, rfl, rep⟩
  rw [if_neg self, if_neg self]
  have len : v.length < 2147483647 := short x v (by simp [expect, val, val', self])
  obtain ⟨s', h', assigned, ext, holds, new⟩ := assigned_spec mine len str.content
    fun h' ext => (content_elsewhere rep self obj obj' val' ext).2
  exact become_keeps rep assigned (by rwa [owner.block_some obj])
    (by rwa [owner.block_some obj]) holds

theorem moveAssign_keeps :
    Keeps owner (perform (.moveAssign x y)) w (expect a (.moveAssign x y)) := by
  refine used_keeps rep fun s u obj _ mine => used_keeps rep fun str v obj' val' _ => ?_
  by_cases self : x = y
  · rw [if_pos self, if_pos self]
    exact ⟨w, rfl, rep⟩
  rw [if_neg self, if_neg self]
  obtain ⟨s₁, h₁, cleared, ext⟩ := clear_spec mine
  have kept := (content_elsewhere rep self obj obj' val' ext).1
  obtain ⟨s', left, moved, holds, rest, nothing, points⟩ := moveFrom_spec s₁.union kept
  exact exchange_keeps rep self ((Exec.bind_of_ok cleared).trans moved)
    (by rwa [owner.block_some obj]) obj' points holds rest nothing

theorem assignChars_keeps (short : Short (expect a (.assignChars x str))) :
    Keeps owner (perform (.assignChars x str)) w (expect a (.assignChars x str)) := by
  refine used_keeps rep fun s u obj val mine => ?_
  have len : str.length < 2147483647 := short x str (by simp [expect, val])
  obtain ⟨s', h', assigned, ext, holds, new⟩ :=
    assigned_spec mine len (pure (text str)) fun _ _ => rfl
  exact become_keeps rep assigned (by rwa [owner.block_some obj])
    (by rwa [owner.block_some obj]) holds

theorem append_iff (short : Short (expect a (.append x y))) :
    Keeps owner (perform (.append x y)) w (expect a (.append x y)) ↔ (Op.append x y).Sound a := by
  refine used_iff rep fun s u obj val mine => used_iff rep fun str v obj' val' held => ?_
  have len : (u ++ v).length < 2147483647 := short x _ (by simp [expect, val, val'])
  rw [List.length_append] at len
  by_cases self : x = y
  · subst self
    obtain rfl : u = v := Option.some.inj (val.symm.trans val')
    rw [if_pos rfl]
    obtain ⟨s', h', appended, ext, holds, new⟩ := appendSelf_spec mine len
    have kept := become_iff rep appended (by rwa [owner.block_some obj])
      (fun p points => .inl (new p points)) holds
    exact kept.trans ⟨fun lengths _ => lengths, fun lengths => lengths rfl⟩
  · rw [if_neg self]
    obtain ⟨s', h', appended, ext, holds, new⟩ := append_spec mine len (fun _ => str.content)
      fun _ h' ext => (content_elsewhere rep self obj obj' val' ext).2
    rw [← held.count_eq] at appended
    exact iff_of_true (become_keeps rep appended (by rwa [owner.block_some obj])
      (fun p points => .inl (new p points)) holds) fun eq => absurd eq self

theorem appendChars_keeps (short : Short (expect a (.appendChars x str))) :
    Keeps owner (perform (.appendChars x str)) w (expect a (.appendChars x str)) := by
  refine used_keeps rep fun s u obj val mine => ?_
  have len : (u ++ str).length < 2147483647 := short x _ (by simp [expect, val])
  rw [List.length_append] at len
  obtain ⟨s', h', appended, ext, holds, new⟩ :=
    append_spec mine len (fun _ => pure (text str)) fun _ _ _ => rfl
  rw [← length_text str] at appended
  exact become_keeps rep appended (by rwa [owner.block_some obj])
    (fun p points => .inl (new p points)) holds

theorem concat_keeps (short : Short (expect a (.concat z x y))) :
    Keeps owner (perform (.concat z x y)) w (expect a (.concat z x y)) := by
  refine unused_keeps rep fun absent => used_keeps rep fun s u obj val mine =>
    used_keeps rep fun str v obj' val' held => construct_keeps rep absent ?_
  have len : (u ++ v).length < 2147483647 :=
    short z _ (by simp [expect, (rep.absent z).mp absent, val, val'])
  rw [List.length_append] at len
  have joined := concat_spec mine len str.content fun h' ext =>
    content_spec (held.frame fun p points => ext.kept p (by simp) (held.live points))
  rwa [← held.count_eq] at joined

theorem concatChars_keeps (short : Short (expect a (.concatChars z x str))) :
    Keeps owner (perform (.concatChars z x str)) w (expect a (.concatChars z x str)) := by
  refine unused_keeps rep fun absent => used_keeps rep fun s u obj val mine =>
    construct_keeps rep absent ?_
  have len : (u ++ str).length < 2147483647 :=
    short z _ (by simp [expect, (rep.absent z).mp absent, val])
  rw [List.length_append] at len
  have joined := concat_spec mine len (pure (text str)) fun _ _ => rfl
  rwa [← length_text str] at joined

theorem subString_keeps (beginIndex endIndex : Int)
    (short : Short a) :
    Keeps owner (perform (.subString z x beginIndex endIndex)) w
      (expect a (.subString z x beginIndex endIndex)) := by
  refine unused_keeps rep fun absent => used_keeps rep fun s u obj val mine => ?_
  have len := short x u val
  by_cases range : 0 ≤ beginIndex ∧ beginIndex ≤ endIndex ∧ endIndex ≤ u.length
  · -- the three tests for an exception fail
    rw [if_pos range, subString, mine.count_eq, if_neg (by omega), if_neg (by omega),
      if_neg (by omega)]
    by_cases empty : beginIndex = endIndex
    · subst empty
      rw [if_neg (by simp), Int.sub_self, Int.toNat_zero, List.take_zero]
      exact construct_keeps rep absent (create_spec .fresh [] w.heap (by decide))
    · rw [if_pos empty]
      exact construct_keeps rep absent
        (part_spec mine beginIndex.toNat (endIndex - beginIndex).toNat (by omega) len)
  · rw [if_neg range]
    obtain ⟨e, thrown⟩ := subString_outside s beginIndex endIndex (by rwa [mine.count_eq])
    rw [thrown]
    exact ⟨w, rfl, rep⟩

theorem subStringFrom_keeps (beginIndex : Int) (short : Short a) :
    Keeps owner (perform (.subStringFrom z x beginIndex)) w
      (expect a (.subStringFrom z x beginIndex)) := by
  refine unused_keeps rep fun absent => used_keeps rep fun s u obj val mine => ?_
  have len := short x u val
  simp only [subStringFrom, mine.count_eq]
  by_cases range : 0 ≤ beginIndex ∧ beginIndex < u.length
  · rw [if_pos range, if_neg (by omega)]
    have all : (u.drop beginIndex.toNat).take (u.length - beginIndex).toNat =
        u.drop beginIndex.toNat := List.take_of_length_le (by rw [List.length_drop]; omega)
    rw [← all]
    exact construct_keeps rep absent
      (part_spec mine beginIndex.toNat (u.length - beginIndex).toNat (by omega) len)
  · rw [if_neg range, if_pos (by omega)]
    exact ⟨w, rfl, rep⟩

theorem destroy_keeps : Keeps owner (perform (.destroy x)) w (expect a (.destroy x)) := by
  refine used_keeps rep fun s u obj _ mine => ?_
  obtain ⟨h', destroyed, ext⟩ := destroy_spec mine
  exact dispose_keeps rep destroyed (by rwa [owner.block_some obj])

end Steps

/-! ### Whole programs -/

def specified (a : ι → Option (List UInt8)) (op : Op ι) : Unit × (ι → Option (List UInt8)) :=
  ((), expect a op)

/-- The lengths before and after a step. -/
def Bounded (a : ι → Option (List UInt8)) (op : Op ι) : Prop := Short a ∧ Short (expect a op)

theorem perform_iff (w : Strings ι) (a : ι → Option (List UInt8)) (op : Op ι)
    (rep : Faithful w a) (bounded : Bounded a op) :
    Lockstep.Follows perform specified Faithful w a op ↔ op.Sound a := by
  obtain ⟨before, after⟩ := bounded
  cases op with
  | create x str => exact iff_of_true (create_keeps rep x after) trivial
  | copy x y => exact iff_of_true (copy_keeps rep x y after) trivial
  | move x y => exact iff_of_true (move_keeps rep x y) trivial
  | assign x y => exact iff_of_true (assign_keeps rep x y after) trivial
  | moveAssign x y => exact iff_of_true (moveAssign_keeps rep x y) trivial
  | assignChars x str => exact iff_of_true (assignChars_keeps rep x after) trivial
  | append x y => exact append_iff rep x y after
  | appendChars x str => exact iff_of_true (appendChars_keeps rep x after) trivial
  | concat z x y => exact iff_of_true (concat_keeps rep x y z after) trivial
  | concatChars z x str => exact iff_of_true (concatChars_keeps rep x z after) trivial
  | subString z x beginIndex endIndex =>
    exact iff_of_true (subString_keeps rep x z beginIndex endIndex before) trivial
  | subStringFrom z x beginIndex =>
    exact iff_of_true (subStringFrom_keeps rep x z beginIndex before) trivial
  | destroy x => exact iff_of_true (destroy_keeps rep x) trivial

end SmallString

end Engine3
