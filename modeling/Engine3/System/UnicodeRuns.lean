import Engine3.Library.Lockstep
import Engine3.Library.OwnedObjects
import Engine3.System.UnicodeString

/-!
# Programs with strings of 16-bit units

Several `UnicodeString`s that are constructed, copied, moved, assigned, appended to each other,
written to streams and parsed again. Beside them there are the sequences of units they should
hold. A step keeps them together exactly if what it copies has no zero but as its last unit, and
if it neither follows a null pointer nor appends a string to itself.
-/
namespace Engine3

open OwnedBlocks UnicodeString Function

namespace UnicodeString

variable {ι : Type}

abbrev Strings (ι : Type) := World UInt16 UnicodeString ι

abbrev StringsM (ι : Type) := WorldM Stop UInt16 UnicodeString ι

/-- The strings hold what they should. -/
abbrev Faithful (w : Strings ι) (a : ι → Option Content) : Prop :=
  Represents owner w.heap w.objects a

/-- All strings are shorter than `2 ^ 30` units, so that their sizes in bytes are `int`s. -/
abbrev Short (a : ι → Option Content) : Prop := Every (fun v => v.units.length < 1073741824) a

/-! ### The operations -/

inductive Op (ι : Type)
  | create (x : ι) (ascii : List UInt8)
  | copy (x y : ι)
  | move (x y : ι)
  | assign (x y : ι)
  | moveAssign (x y : ι)
  | assignAscii (x : ι) (ascii : List UInt8)
  | append (x y : ι)
  | appendAscii (x : ι) (ascii : List UInt8)
  | concat (z x y : ι)
  | clear (x : ι)
  /-- `y` is written to a stream and `x` parsed from it. -/
  | transfer (x y : ι)
  | destroy (x : ι)

def lift {α : Type} (m : UnitM α) : EStateM Stop (Heap UInt16) α := fun h =>
  match m h with
  | .ok a h' => .ok a h'
  | .error fault h' => .error (.heap fault) h'

def parsing {α : Type} (m : ParseM α) (bytes : List UInt8) : EStateM Stop (Heap UInt16) α :=
  fun h =>
    match m ⟨StreamBuffer.ofBytes bytes, h⟩ with
    | .ok a p => .ok a p.heap
    | .error stop p => .error stop p.heap

variable {α : Type} {h : Heap UInt16} {r : α}

theorem lift_ok {m : UnitM α} {h' : Heap UInt16} (ret : m h = .ok r h') :
    lift m h = .ok r h' := by
  simp only [lift, ret]

theorem parsing_ok {m : ParseM α} {bytes : List UInt8} {p : Parsing}
    (ret : m ⟨StreamBuffer.ofBytes bytes, h⟩ = .ok r p) :
    parsing m bytes h = .ok r p.heap := by
  simp only [parsing, ret]

variable [DecidableEq ι]

def settle (x : ι) (m : UnitM UnicodeString) : StringsM ι Unit := become x (lift m)

def transfer (x : ι) (this str : UnicodeString) : StringsM ι Unit :=
  become x (lift str.toBinaryStream >>= parsing this.parseFromBinaryStream)

def null : UnicodeString := ⟨none, 0⟩

theorem null_holds : owner.Holds h null none := ⟨rfl, rfl⟩

def perform : Op ι → StringsM ι Unit
  | .create x ascii => unused x (settle x (create ascii))
  | .copy x y => unused x (used y fun str => settle x str.copyConstruct)
  | .move x y => unused x (used y fun str => exchange x y (pure (str, null)))
  | .assign x y =>
    used x fun this => used y fun str => if x = y then pure () else settle x (this.assign str)
  | .moveAssign x y =>
    used x fun this => used y fun str =>
      if x = y then pure ()
      else exchange x y (lift (free this.uString) >>= fun _ => pure (str, null))
  | .assignAscii x ascii => used x fun this => settle x (this.assignAscii ascii)
  | .append x y => used x fun this => used y fun uni => settle x (this.appendString uni)
  | .appendAscii x ascii => used x fun this => settle x (this.appendAscii ascii)
  | .concat z x y =>
    unused z (used x fun this => used y fun str => settle z (this.concat str))
  | .clear x => used x fun this => settle x this.clear
  | .transfer x y => used x fun this => used y fun str => transfer x this str
  | .destroy x => used x fun this => dispose x (lift (free this.uString))

/-! ### The sequences of units -/

def expect (a : ι → Option Content) : Op ι → ι → Option Content
  | .create x ascii =>
    (a x).elim (update a x (some (some (ascii.map widen)))) fun _ => a
  | .copy x y => (a x).elim ((a y).elim a fun v => update a x (some v)) fun _ => a
  | .move x y =>
    (a x).elim ((a y).elim a fun v =>
      update (update a y (some none)) x (some v)) fun _ => a
  | .assign x y =>
    (a x).elim a fun _ => (a y).elim a fun v => if x = y then a else update a x (some v)
  | .moveAssign x y =>
    (a x).elim a fun _ => (a y).elim a fun v =>
      if x = y then a else update (update a y (some none)) x (some v)
  | .assignAscii x ascii =>
    (a x).elim a fun _ => update a x (some (some (ascii.map widen)))
  | .append x y =>
    (a x).elim a fun u => (a y).elim a fun v =>
      update a x (some (some (u.units ++ v.units)))
  | .appendAscii x ascii =>
    (a x).elim a fun u => update a x (some (some (u.units ++ ascii.map widen)))
  | .concat z x y =>
    (a z).elim ((a x).elim a fun u => (a y).elim a fun v =>
      update a z (some (some (u.units ++ v.units)))) fun _ => a
  | .clear x => (a x).elim a fun _ => update a x (some (some []))
  | .transfer x y =>
    (a x).elim a fun _ => (a y).elim a fun v => update a x (some (some v.units))
  | .destroy x => (a x).elim a fun _ => update a x none

/-- What the copies of a step need: no zero but at the end of what is copied, a buffer to copy
from where the loop has no length, and another string to append. -/
def Op.Sound (a : ι → Option Content) : Op ι → Prop
  | .copy x y => (a x).elim ((a y).elim True fun v => ∃ us, v = some us ∧ Clean us) fun _ => True
  | .assign x y =>
    (a x).elim True fun _ => (a y).elim True fun v => x = y ∨ ∃ us, v = some us ∧ Clean us
  | .append x y =>
    (a x).elim True fun u => (a y).elim True fun v =>
      Clean u.units ∧ Clean v.units ∧ (x = y → u.units = [])
  | .appendAscii x _ => (a x).elim True fun u => Clean u.units
  | .concat z x y =>
    (a z).elim ((a x).elim True fun u => (a y).elim True fun v =>
      ∃ us, u = some us ∧ Clean us ∧ Clean v.units) fun _ => True
  | .transfer x y => (a x).elim True fun _ => (a y).elim True fun v => Clean v.units
  | _ => True

/-! ### One step -/

section Steps

variable {w : Strings ι} {a : ι → Option Content} (rep : Faithful w a)
include rep

variable {x : ι} {m : UnitM UnicodeString} {h' : Heap UInt16} {ascii : List UInt8}

theorem settle_iff {s' : UnicodeString} {v : Content} {good : Prop}
    (ret : m w.heap = .ok s' h') (ext : Extends w.heap (owner.block w.objects x) h')
    (new : ∀ p, s'.uString = some p → w.heap.blocks p = none) (holds : Holds h' s' v ↔ good) :
    Keeps owner (settle x m) w (update a x (some v)) ↔ good :=
  become_iff rep (lift_ok ret) ext (fun p points => .inl (new p points)) holds

omit rep in
theorem settle_fault {fault : Fault} {b : ι → Option Content}
    (faulted : m w.heap = .error fault h') :
    ¬ Keeps owner (settle x m) w b := by
  have stopped : lift m w.heap = .error (.heap fault) h' := by simp only [lift, faulted]
  exact become_error stopped

variable (x y z : ι)

theorem create_keeps (ascii : List UInt8) :
    Keeps owner (perform (.create x ascii)) w (expect a (.create x ascii)) := by
  refine unused_keeps rep fun absent => ?_
  obtain ⟨h', created, ext, holds⟩ := create_spec w.heap ascii
  refine (settle_iff rep created (by rwa [owner.block_none absent]) ?_ Iff.rfl).mpr holds
  rintro p ⟨⟩
  exact w.heap.fresh _ (Nat.le_refl _)

theorem copy_iff (short : Short (expect a (.copy x y))) :
    Keeps owner (perform (.copy x y)) w (expect a (.copy x y)) ↔ (Op.copy x y).Sound a := by
  refine unused_iff rep fun absent => used_iff rep fun str v _ val held => ?_
  cases v with
  | none =>
    obtain ⟨h', faulted⟩ := copyConstruct_null held.1 w.heap
    exact iff_of_false (settle_fault faulted) (by simp)
  | some us =>
    have len : us.length < 1073741824 := by
      refine short x (some us) ?_
      simp [expect, (rep.absent x).mp absent, val]
    obtain ⟨s', h', copied, ext, filled⟩ := copyConstruct_spec held (by omega)
    refine settle_iff rep copied (by rwa [owner.block_none absent]) filled.new ?_
    rw [filled.holds_iff]
    simp

theorem move_keeps : Keeps owner (perform (.move x y)) w (expect a (.move x y)) := by
  refine unused_keeps rep fun absent => used_keeps rep fun str v obj val held => ?_
  have apart : x ≠ y := by
    rintro rfl
    rw [absent] at obj
    cases obj
  exact exchange_keeps rep apart rfl (Extends.refl _ _) obj (fun _ eq => eq) held null_holds
    rfl

theorem assign_iff (short : Short (expect a (.assign x y))) :
    Keeps owner (perform (.assign x y)) w (expect a (.assign x y)) ↔ (Op.assign x y).Sound a := by
  refine used_iff rep fun s u obj val mine => used_iff rep fun str v obj' val' held => ?_
  by_cases self : x = y
  · rw [if_pos self, if_pos self]
    exact iff_of_true ⟨w, rfl, rep⟩ (.inl self)
  rw [if_neg self, if_neg self, or_iff_right self]
  cases v with
  | none =>
    -- a string that was moved from is copied from a null pointer
    obtain ⟨h', faulted⟩ := assign_null mine.buffers held.1
    exact iff_of_false (settle_fault faulted) (by simp)
  | some us =>
    have len : us.length < 1073741824 := by
      refine short x (some us) ?_
      simp [expect, val, val', self]
    have apart : s.uString ≠ str.uString := by
      obtain ⟨p, _, points, _⟩ := held
      intro eq
      exact self (rep.separate x y s str p obj obj' (eq.trans points) points)
    obtain ⟨s', h', copied, ext, filled⟩ := assign_spec mine.buffers held apart (by omega)
    refine settle_iff rep copied (by rwa [owner.block_some obj]) filled.new ?_
    rw [filled.holds_iff]
    simp

theorem moveAssign_keeps :
    Keeps owner (perform (.moveAssign x y)) w (expect a (.moveAssign x y)) := by
  refine used_keeps rep fun s u obj _ mine => used_keeps rep fun str v obj' val' held => ?_
  by_cases self : x = y
  · rw [if_pos self, if_pos self]
    exact ⟨w, rfl, rep⟩
  rw [if_neg self, if_neg self]
  obtain ⟨heap, freed, ext, _⟩ := free_spec mine.buffers (Extends.refl w.heap none)
  have ext' : Extends w.heap (owner.block w.objects x) heap := by rwa [owner.block_some obj]
  have kept : Holds heap str v := rep.other (Ne.symm self) ext' obj' val'
  exact exchange_keeps rep self (Exec.bind_of_ok (lift_ok freed)) ext' obj'
    (fun _ eq => eq) kept null_holds rfl

theorem assignAscii_keeps (short : Short (expect a (.assignAscii x ascii))) :
    Keeps owner (perform (.assignAscii x ascii)) w (expect a (.assignAscii x ascii)) := by
  refine used_keeps rep fun s u obj val mine => ?_
  have len : (ascii.map widen).length < 1073741824 := by
    refine short x (some (ascii.map widen)) ?_
    simp [expect, val]
  rw [List.length_map] at len
  obtain ⟨s', h', assigned, ext, new, holds⟩ := assignAscii_spec ascii mine.buffers (by omega)
  exact (settle_iff rep assigned (by rwa [owner.block_some obj]) new Iff.rfl).mpr holds

theorem append_iff (short : Short (expect a (.append x y))) :
    Keeps owner (perform (.append x y)) w (expect a (.append x y)) ↔ (Op.append x y).Sound a := by
  refine used_iff rep fun s u obj val mine => used_iff rep fun str v obj' val' held => ?_
  have len : (u.units ++ v.units).length < 1073741824 := by
    refine short x (some (u.units ++ v.units)) ?_
    simp [expect, val, val']
  rw [List.length_append] at len
  by_cases self : x = y ∧ u.units ≠ []
  · -- the buffer is freed before the units are copied out of it
    obtain ⟨rfl, some⟩ := self
    obtain rfl : u = v := Option.some.inj (val.symm.trans val')
    obtain rfl : s = str := Option.some.inj (obj.symm.trans obj')
    obtain ⟨p, h', faulted⟩ :=
      appendString_self mine.buffers held.buffers rfl some (by omega)
    exact iff_of_false (settle_fault faulted) fun sound => some (sound.2.2 rfl)
  · -- two strings share no buffer, and a null pointer has no units to copy
    have apart : v.units ≠ [] → s.uString ≠ str.uString := by
      intro some eq
      rcases held.buffers.2 with ⟨_, empty⟩ | ⟨p, _, points, _⟩
      · exact some empty
      · obtain rfl := rep.separate x y s str p obj obj' (eq.trans points) points
        obtain rfl : u = v := Option.some.inj (val.symm.trans val')
        exact self ⟨rfl, some⟩
    obtain ⟨s', h', appended, ext, res⟩ :=
      appendString_spec mine.buffers held.buffers apart (by omega)
    refine settle_iff rep appended (by rwa [owner.block_some obj]) res.new ?_
    rw [res.holds_iff]
    have ne : x = y → u.units = [] := fun eq => by_contra fun some => self ⟨eq, some⟩
    rw [← and_assoc, and_iff_left ne]

theorem appendAscii_iff (short : Short (expect a (.appendAscii x ascii))) :
    Keeps owner (perform (.appendAscii x ascii)) w (expect a (.appendAscii x ascii)) ↔
      (Op.appendAscii x ascii).Sound a := by
  refine used_iff rep fun s u obj val mine => ?_
  have len : (u.units ++ ascii.map widen).length < 1073741824 := by
    refine short x (some (u.units ++ ascii.map widen)) ?_
    simp [expect, val]
  rw [List.length_append, List.length_map] at len
  obtain ⟨s', h', appended, ext, res⟩ := appendAscii_spec ascii mine.buffers (by omega)
  refine settle_iff rep appended (by rwa [owner.block_some obj]) res.new ?_
  rw [res.holds_iff, and_true]

theorem concat_iff (short : Short (expect a (.concat z x y))) :
    Keeps owner (perform (.concat z x y)) w (expect a (.concat z x y)) ↔
      (Op.concat z x y).Sound a := by
  refine unused_iff rep fun absent => used_iff rep fun s u obj val mine =>
    used_iff rep fun str v obj' val' held => ?_
  have len : (u.units ++ v.units).length < 1073741824 := by
    refine short z (some (u.units ++ v.units)) ?_
    simp [expect, (rep.absent z).mp absent, val, val']
  rw [List.length_append] at len
  cases u with
  | none =>
    obtain ⟨h', faulted⟩ := copyConstruct_null mine.1 w.heap
    exact iff_of_false (settle_fault (Exec.bind_of_error faulted)) (by simp)
  | some us =>
    obtain ⟨s', h', joined, ext, new, holds⟩ :=
      concat_spec mine held.buffers (Nat.lt_trans len (by decide))
    refine settle_iff rep joined (by rwa [owner.block_none absent]) new ?_
    simpa using holds

theorem clear_keeps : Keeps owner (perform (.clear x)) w (expect a (.clear x)) := by
  refine used_keeps rep fun s u obj val mine => ?_
  obtain ⟨s', h', cleared, ext, new, holds⟩ := clear_spec mine.buffers
  exact (settle_iff rep cleared (by rwa [owner.block_some obj]) new Iff.rfl).mpr holds

theorem transfer_iff (short : Short (expect a (.transfer x y))) :
    Keeps owner (perform (.transfer x y)) w (expect a (.transfer x y)) ↔
      (Op.transfer x y).Sound a := by
  refine used_iff rep fun s u obj val mine => used_iff rep fun str v _ val' held => ?_
  have len : v.units.length < 1073741824 := by
    refine short x (some v.units) ?_
    simp [expect, val, val']
  obtain ⟨s', p, parsed, ext, res⟩ :=
    parseFromBinaryStream_written mine.buffers len rfl
  have sent : (lift str.toBinaryStream >>= parsing s.parseFromBinaryStream) w.heap =
      .ok s' p.heap :=
    (Exec.bind_of_ok (lift_ok (toBinaryStream_spec held len))).trans
      (parsing_ok parsed)
  refine become_iff rep sent (by rwa [owner.block_some obj])
    (fun q points => .inl (res.new q points)) ?_
  have holds := res.holds_iff
  exact holds.trans (and_iff_right (by decide))

theorem destroy_keeps : Keeps owner (perform (.destroy x)) w (expect a (.destroy x)) := by
  refine used_keeps rep fun s u obj _ mine => ?_
  obtain ⟨heap, freed, ext, _⟩ := free_spec mine.buffers (Extends.refl w.heap none)
  have ext' : Extends w.heap (owner.block w.objects x) heap := by rwa [owner.block_some obj]
  exact dispose_keeps rep (lift_ok freed) ext'

end Steps

/-! ### Whole programs -/

def specified (a : ι → Option Content) (op : Op ι) : Unit × (ι → Option Content) :=
  ((), expect a op)

theorem perform_iff (w : Strings ι) (a : ι → Option Content) (op : Op ι) (rep : Faithful w a)
    (short : Short (expect a op)) :
    Lockstep.Follows perform specified Faithful w a op ↔ op.Sound a := by
  cases op with
  | create x ascii => exact iff_of_true (create_keeps rep x ascii) trivial
  | copy x y => exact copy_iff rep x y short
  | move x y => exact iff_of_true (move_keeps rep x y) trivial
  | assign x y => exact assign_iff rep x y short
  | moveAssign x y => exact iff_of_true (moveAssign_keeps rep x y) trivial
  | assignAscii x ascii => exact iff_of_true (assignAscii_keeps rep x short) trivial
  | append x y => exact append_iff rep x y short
  | appendAscii x ascii => exact appendAscii_iff rep x short
  | concat z x y => exact concat_iff rep x y z short
  | clear x => exact iff_of_true (clear_keeps rep x) trivial
  | transfer x y => exact transfer_iff rep x y short
  | destroy x => exact iff_of_true (destroy_keeps rep x) trivial

/-- Exactly if zeros come last, no null pointer is read and nothing is appended to itself. -/
theorem units_kept_iff (w : Strings ι) (a : ι → Option Content) (start : Faithful w a)
    (ops : List (Op ι))
    (short : Lockstep.Along specified (fun a op => Short (expect a op)) a ops) :
    Lockstep.InStep perform specified Faithful w a ops ↔
      Lockstep.Along specified (fun a op => op.Sound a) a ops :=
  Lockstep.inStep_iff perform_iff w a start ops short

theorem units_kept_copies :
    Lockstep.InStep perform specified Faithful ⟨Heap.empty, fun _ : Nat => none⟩ (fun _ => none)
      [.create 0 [65], .copy 1 0, .append 0 1] := by
  have fst : Short (update (fun _ : Nat => none) 0 (some (some [65]))) :=
    (every_nothing _).update 0 (by decide)
  have snd : Short (update (update (fun _ : Nat => none) 0 (some (some [65])))
      1 (some (some [65]))) := fst.update 1 (by decide)
  have short : Lockstep.Along specified (fun a op => Short (expect a op))
      (fun _ : Nat => none) [.create 0 [65], .copy 1 0, .append 0 1] :=
    ⟨fst, snd, snd.update 0 (by decide), trivial⟩
  refine (units_kept_iff _ _ (Represents.nothing _) _ short).mpr ?_
  exact ⟨trivial, ⟨[65], rfl, by decide⟩, ⟨by decide, by decide, by decide⟩, trivial⟩

theorem units_lost :
    (∃ w, ((perform (.create 0 [65, 0, 66])) >>= fun _ => perform (.copy 1 0))
        (⟨Heap.empty, fun _ : Nat => none⟩ : Strings Nat) = .ok () w ∧
      w.objects 1 = some ⟨some 1, 3⟩ ∧ w.heap.blocks 1 = some [some 65, some 0, none, none]) ∧
    (∃ w, ((perform (.create 0 [65])) >>= fun _ => perform (.append 0 0))
      (⟨Heap.empty, fun _ : Nat => none⟩ : Strings Nat) = .error (.heap (.freed 0)) w) :=
  ⟨⟨_, rfl, rfl, rfl⟩, _, rfl⟩

end UnicodeString

end Engine3
