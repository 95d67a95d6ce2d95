import Engine3.Library.OwnedBlocks
import Engine3.System.StreamBuffer

/-!
# Strings of 16-bit units

`system/lang/UnicodeString`: a buffer of `count` units and a terminating zero. The two copy
loops end behind the first zero they meet, so what is copied is not always what `count` says.
-/
namespace Engine3

open Bytes Exec MachineInt OwnedBlocks List Heap StreamBuffer

structure UnicodeString where
  uString : Option Nat
  count : Nat
  deriving DecidableEq, Repr

namespace UnicodeString

abbrev UnitM := HeapM UInt16

/-! ### The copy loops -/

def copyUnits : Nat → List (Option UInt16) → Except Fault (List UInt16)
  | 0, _ => .ok []
  | _ + 1, [] => .error .outside
  | _ + 1, none :: _ => .error .uninitialised
  | rounds + 1, some chr :: src =>
    if chr = 0 then .ok [chr]
    else
      match copyUnits rounds src with
      | .ok units => .ok (chr :: units)
      | .error fault => .error fault

inductive Source
  | block (p : Option Nat)
  | array (units : List (Option UInt16))

def Source.read : Source → UnitM (List (Option UInt16))
  | block p => load p
  | array units => pure units

def copyRounds (dest start : Nat) (src : List (Option UInt16)) (rounds : Nat) : UnitM Unit :=
  match copyUnits rounds src with
  | .ok units => store dest start (units.map some)
  | .error fault => throw fault

def copyAll (dest : Nat) (src : Source) : UnitM Unit := do
  let units ← src.read
  copyRounds dest 0 units (units.length + 1)

def copyLen (dest start : Nat) (src : Source) (len : Int) : UnitM Unit :=
  if 0 < len then do
    let units ← src.read
    copyRounds dest start units len.toNat
  else pure ()

def widen (ch : UInt8) : UInt16 := if ch < 128 then ch.toUInt16 else 0xFF00 + ch.toUInt16

def create (ascii : List UInt8) : UnitM UnicodeString := do
  let p ← alloc (ascii.length + 1)
  store p 0 (ascii.map (some ∘ widen))
  store p ascii.length [some 0]
  return ⟨some p, ascii.length⟩

def copyConstruct (str : UnicodeString) : UnitM UnicodeString := do
  let p ← alloc (u32 (str.count + 1))
  copyAll p (.block str.uString)
  return ⟨some p, str.count⟩

def assign (this str : UnicodeString) : UnitM UnicodeString := do
  free this.uString
  let p ← alloc (u32 (str.count + 1))
  copyAll p (.block str.uString)
  return ⟨some p, str.count⟩

def clear (this : UnicodeString) : UnitM UnicodeString := do
  free this.uString
  create []

def append (this : UnicodeString) (str : Source) (len : Int) : UnitM UnicodeString := do
  let ncount := u32 (this.count + len)
  let nuString ← alloc (u32 (ncount + 1))
  copyLen nuString 0 (.block this.uString) (i32 this.count)
  free this.uString
  copyLen nuString this.count str len
  store nuString ncount [some 0]
  return ⟨some nuString, ncount⟩

def appendAscii (this : UnicodeString) (ascii : List UInt8) : UnitM UnicodeString := do
  let ncount := u32 (this.count + ascii.length)
  let nuString ← alloc (u32 (ncount + 1))
  copyLen nuString 0 (.block this.uString) (i32 this.count)
  free this.uString
  store nuString this.count (ascii.map (some ∘ widen))
  store nuString ncount [some 0]
  return ⟨some nuString, ncount⟩

def appendString (this uni : UnicodeString) : UnitM UnicodeString :=
  append this (.block uni.uString) (i32 uni.count)

def assignAscii (this : UnicodeString) (ascii : List UInt8) : UnitM UnicodeString := do
  let cleared ← clear this
  appendAscii cleared ascii

def concat (this str : UnicodeString) : UnitM UnicodeString := do
  let newStr ← copyConstruct this
  appendString newStr str

/-! ### Streams -/

def initialised : Nat → List (Option UInt16) → Except Fault (List UInt16)
  | 0, _ => .ok []
  | _ + 1, [] => .error .outside
  | _ + 1, none :: _ => .error .uninitialised
  | n + 1, some chr :: src =>
    match initialised n src with
    | .ok units => .ok (chr :: units)
    | .error fault => .error fault

def unitBytes (units : List UInt16) : List UInt8 := units.flatMap fun chr => leBytes 2 chr.toNat

def toBinaryStream (this : UnicodeString) : UnitM (List UInt8) :=
  let len := i32 (2 * this.count)
  if len = 0 then pure (leBytes 4 this.count)
  else if len < 0 then throw .outside
  else do
    let buffer ← load this.uString
    match initialised (len / 2).toNat buffer with
    | .ok units => pure (leBytes 4 this.count ++ unitBytes units)
    | .error fault => throw fault

inductive Stop
  | stream (fault : CheckedMemory.Fault Exception)
  | heap (fault : Fault)
  deriving DecidableEq, Repr

structure Parsing where
  stream : StreamBuffer
  heap : Heap UInt16

abbrev ParseM := EStateM Stop Parsing

variable {α : Type}

def onStream (m : BufferM α) : ParseM α := fun s =>
  match m s.stream with
  | .ok a stream => .ok a { s with stream := stream }
  | .error fault stream => .error (.stream fault) { s with stream := stream }

def onHeap (m : UnitM α) : ParseM α := fun s =>
  match m s.heap with
  | .ok a heap => .ok a { s with heap := heap }
  | .error fault heap => .error (.heap fault) { s with heap := heap }

def unitsAt (memory : Int → UInt8) (start : Int) (n : Nat) : List UInt16 :=
  (range n).map fun i =>
    UInt16.ofNat (leNat (bytesAt memory (start + 2 * (i : Nat)) 2))

def unitsFrom (b : StreamBuffer) (start : Int) : List (Option UInt16) :=
  if 0 ≤ start then (unitsAt b.memory start ((b.size - start) / 2).toNat).map some else []

def receive (this : UnicodeString) (len : Nat) (units : List (Option UInt16)) :
    UnitM UnicodeString := do
  free this.uString
  let p ← alloc (u32 (len + 1))
  copyLen p 0 (.array units) (i32 len)
  store p len [some 0]
  return ⟨some p, len⟩

def parseFromBinaryStream (this : UnicodeString) : ParseM UnicodeString := do
  let len ← onStream readInt
  let buffer := (← get).stream.offset
  -- twice the length is computed in 64 bits and passed as an `int`
  onStream (shiftOffset (i32 (2 * len)))
  onHeap (receive this len (unitsFrom (← get).stream buffer))

/-! ### What a string holds -/

def Clean (us : List UInt16) : Prop := (0 : UInt16) ∉ us.dropLast

instance (us : List UInt16) : Decidable (Clean us) := inferInstanceAs (Decidable (¬ _))

def Terminated (us : List UInt16) (cells : List (Option UInt16)) : Prop :=
  ∃ t, cells = us.map some ++ [t] ∧ (t = some 0 ∨ us.getLast? = some 0)

abbrev Content := Option (List UInt16)

abbrev Content.units (a : Content) : List UInt16 := a.getD []

/-- A null pointer, or a block with these units and the terminator. -/
def Holds (h : Heap UInt16) (s : UnicodeString) : Content → Prop
  | none => s.uString = none ∧ s.count = 0
  | some us => ∃ p cells, s.uString = some p ∧ s.count = us.length ∧ h.blocks p = some cells ∧
      Terminated us cells

variable {h : Heap UInt16} {s : UnicodeString} {a : Content} {p : Nat}

theorem Holds.live (held : Holds h s a) (points : s.uString = some p) : h.blocks p ≠ none := by
  cases a with
  | none =>
    rw [held.1] at points
    cases points
  | some us =>
    obtain ⟨q, cells, eq, _, live, _⟩ := held
    obtain rfl : q = p := Option.some.inj (eq.symm.trans points)
    rw [live]
    simp

theorem Holds.frame {h' : Heap UInt16} (held : Holds h s a)
    (eq : ∀ p, s.uString = some p → h'.blocks p = h.blocks p) :
    Holds h' s a := by
  cases a with
  | none => exact held
  | some us =>
    obtain ⟨p, cells, points, counted, live, terminated⟩ := held
    exact ⟨p, cells, points, counted, (eq p points).trans live, terminated⟩

theorem Holds.count_eq (held : Holds h s a) : s.count = a.units.length := by
  cases a with
  | none => exact held.2
  | some us =>
    obtain ⟨_, _, _, counted, _⟩ := held
    exact counted

def owner : Owner UInt16 UnicodeString Content where
  pointer := uString
  Holds := Holds
  live := Holds.live
  frame := Holds.frame

variable {k : Nat} {cells : List (Option UInt16)} {us : List UInt16}

theorem not_holds_of_gap (points : s.uString = some p) (live : h.blocks p = some cells)
    (hin : k < s.count) (gap : cells[k]? = some none) (us : List UInt16) :
    ¬ Holds h s (some us) := by
  rintro ⟨q, cells', eq, counted, live', t, rfl, _⟩
  obtain rfl : q = p := Option.some.inj (eq.symm.trans points)
  rw [live] at live'
  cases live'
  rw [getElem?_append_left (by simpa [← counted] using hin), getElem?_map] at gap
  cases found : us[k]? with
  | none => simp [found] at gap
  | some u => simp [found] at gap

/-! ### The copy loops on a buffer -/

theorem copyUnits_nonzero (nonzero : (0 : UInt16) ∉ us) (rest : List (Option UInt16)) :
    copyUnits us.length (us.map some ++ rest) = .ok us := by
  induction us with
  | nil => rfl
  | cons u us ih =>
    rw [mem_cons, not_or] at nonzero
    have apart : u ≠ 0 := fun zero => nonzero.1 zero.symm
    simp [copyUnits, apart, ih nonzero.2]

theorem copyUnits_zero (nonzero : (0 : UInt16) ∉ us) (rounds : Nat) (le : us.length < rounds)
    (rest : List (Option UInt16)) :
    copyUnits rounds (us.map some ++ some 0 :: rest) = .ok (us ++ [0]) := by
  induction us generalizing rounds with
  | nil =>
    obtain ⟨rounds, rfl⟩ := Nat.exists_eq_add_of_lt le
    simp [copyUnits]
  | cons u us ih =>
    rw [mem_cons, not_or] at nonzero
    have apart : u ≠ 0 := fun zero => nonzero.1 zero.symm
    obtain ⟨rounds, rfl⟩ : ∃ more, rounds = more + 1 := ⟨rounds - 1, by simp at le; omega⟩
    simp only [length_cons, Nat.add_lt_add_iff_right] at le
    simp [copyUnits, apart, ih nonzero.2 rounds le]

theorem clean_of_nonzero (nonzero : (0 : UInt16) ∉ us) : Clean us :=
  fun mem => nonzero (dropLast_subset us mem)

theorem clean_zero_iff {front : List UInt16} (back : List UInt16) (nonzero : (0 : UInt16) ∉ front) :
    Clean (front ++ 0 :: back) ↔ back = [] := by
  cases back with
  | nil => simpa [Clean] using nonzero
  | cons u back => simp [Clean, dropLast_cons_cons]

private theorem take_through_zero (front back : List UInt16) :
    (front ++ 0 :: back).take (front.length + 1) = front ++ [0] := by
  rw [append_cons, take_left' (by simp)]

def Begins (us : List UInt16) (cells : List (Option UInt16)) : Prop :=
  ∃ k, copyUnits us.length cells = .ok (us.take k) ∧ k ≤ us.length ∧ (k = us.length ↔ Clean us)

theorem begins_zero (front back : List UInt16) (nonzero : (0 : UInt16) ∉ front)
    (rest : List (Option UInt16)) :
    Begins (front ++ 0 :: back) ((front ++ [0]).map some ++ rest) := by
  refine ⟨front.length + 1, ?_, by simp, ?_⟩
  · have stops := copyUnits_zero nonzero (front ++ 0 :: back).length (by simp) rest
    rw [take_through_zero]
    simpa using stops
  · rw [clean_zero_iff back nonzero]
    simp

theorem begins_units (us : List UInt16) (rest : List (Option UInt16)) :
    Begins us (us.map some ++ rest) := by
  by_cases zero : (0 : UInt16) ∈ us
  · obtain ⟨front, back, rfl, nonzero⟩ := eq_append_cons_of_mem zero
    have stops := begins_zero front back nonzero (back.map some ++ rest)
    simpa using stops
  · exact ⟨us.length, by rw [copyUnits_nonzero zero, take_length], Nat.le_refl _,
      iff_of_true rfl (clean_of_nonzero zero)⟩

theorem copyUnits_terminated (terminated : Terminated us cells) :
    ∃ units, copyUnits (cells.length + 1) cells = .ok units ∧
      (Clean us → units = us ++ [0] ∨ units = us ∧ us.getLast? = some 0) ∧
      (¬ Clean us → ∃ k < us.length, units = us.take k) ∧
      ∀ rest, Begins us (units.map some ++ rest) := by
  obtain ⟨t, rfl, ends⟩ := terminated
  by_cases zero : (0 : UInt16) ∈ us
  · obtain ⟨front, back, rfl, nonzero⟩ := eq_append_cons_of_mem zero
    have stops := copyUnits_zero nonzero
      (((front ++ 0 :: back).map some ++ [t]).length + 1)
      (by simp only [length_append, length_map, length_cons]; omega)
      (back.map some ++ [t])
    refine ⟨front ++ [0], by simpa using stops, ?_, ?_, begins_zero front back nonzero⟩
    · intro clean
      obtain rfl := (clean_zero_iff back nonzero).mp clean
      exact .inr ⟨rfl, by simp⟩
    · intro dirty
      have more : back ≠ [] := fun nothing =>
        dirty ((clean_zero_iff back nonzero).mpr nothing)
      refine ⟨front.length + 1, ?_, (take_through_zero front back).symm⟩
      simpa using length_pos_iff.mpr more
  · have terminator : t = some 0 := by
      refine ends.resolve_right fun last => zero ?_
      exact mem_of_getLast? last
    subst terminator
    have fuel : us.length < (us.map some ++ [some 0]).length + 1 := by
      simp only [length_append, length_map]
      omega
    refine ⟨us ++ [0], copyUnits_zero zero _ fuel [], fun _ => .inl rfl,
      fun dirty => absurd (clean_of_nonzero zero) dirty, fun rest => ?_⟩
    simpa using begins_units us (some 0 :: rest)

/-! ### Filling a new buffer -/

def filled (us : List UInt16) (k : Nat) : List (Option UInt16) :=
  (us.take k).map some ++ replicate (us.length - k) none

theorem length_filled (hin : k ≤ us.length) :
    (filled us k).length = us.length := by
  simp [filled]
  omega

theorem filled_all (us : List UInt16) : filled us us.length = us.map some := by
  simp [filled]

theorem filled_gap (hin : k < us.length) :
    (filled us k)[k]? = some none := by
  have written : ((us.take k).map some).length = k := by
    simp
    omega
  rw [filled, getElem?_append_right (by omega), written, Nat.sub_self,
    getElem?_replicate, if_pos (by omega)]

section Copies

variable {h : Heap UInt16} {dest : Nat}

theorem copyLen_spec {front back : List (Option UInt16)} {src : Source} {us : List UInt16}
    (start : Nat) (begins : start = front.length)
    (live : h.blocks dest = some (front ++ replicate us.length none ++ back))
    (supplies : us ≠ [] → ∃ cells, src.read h = .ok cells h ∧ Begins us cells) :
    ∃ h' k, copyLen dest start src us.length h = .ok () h' ∧ k ≤ us.length ∧
      (k = us.length ↔ Clean us) ∧ h'.blocks dest = some (front ++ filled us k ++ back) ∧
      Only dest h h' := by
  subst begins
  cases us with
  | nil =>
    exact ⟨h, 0, rfl, Nat.le_refl _, iff_of_true rfl (by decide), by simpa [filled] using live,
      Only.refl dest h⟩
  | cons u us =>
    have some : u :: us ≠ [] := cons_ne_nil u us
    generalize u :: us = vs at live supplies some ⊢
    obtain ⟨cells, read, k, copied, hin, all⟩ := supplies some
    have pos : (0 : Int) < vs.length := by
      have := length_pos_iff.mpr some
      omega
    have part : ((vs.take k).map Option.some).length = k := by
      simp
      omega
    have stored : store dest front.length ((vs.take k).map Option.some) h = .ok ()
        (h.set dest (Option.some (front ++ filled vs k ++ back))) := by
      rw [store_live live _ (by simp), blit_fresh _ _ _ _ (by omega), part]
      rfl
    refine ⟨_, k, ?_, hin, all, set_self h _ (by simp [live]), Only.set h dest _⟩
    rw [copyLen, ite_run_pos pos, bind_of_ok read, copyRounds,
      Int.toNat_natCast, copied]
    exact stored

theorem copyAll_spec {src : Source} {cells : List (Option UInt16)} {us : List UInt16}
    (live : h.blocks dest = some (replicate (us.length + 1) none))
    (read : src.read h = .ok cells h) (terminated : Terminated us cells) :
    ∃ h' cells', copyAll dest src h = .ok () h' ∧ h'.blocks dest = some cells' ∧
      (Clean us → Terminated us cells') ∧ (¬ Clean us → ∃ k < us.length, cells'[k]? = some none) ∧
      Begins us cells' ∧ Only dest h h' := by
  obtain ⟨units, copied, clean, dirty, begins⟩ := copyUnits_terminated terminated
  have short : units.length ≤ us.length + 1 := by
    by_cases good : Clean us
    · rcases clean good with rfl | ⟨rfl, _⟩ <;> simp
    · obtain ⟨k, _, rfl⟩ := dirty good
      simp
  have written := blit_fresh [] [] (units.map some) (us.length + 1) (by simpa using short)
  simp only [nil_append, append_nil, length_nil, length_map] at written
  refine ⟨_, units.map some ++ replicate (us.length + 1 - units.length) none, ?_,
    set_self h _ (by simp [live]), ?_, ?_, begins _, Only.set h dest _⟩
  · rw [copyAll, bind_of_ok read, copyRounds, copied]
    simp only
    rw [store_live live _ (by simpa using short), written]
  · intro good
    rcases clean good with rfl | ⟨rfl, last⟩
    · exact ⟨some 0, by simp, .inl rfl⟩
    · exact ⟨none, by simp, .inr last⟩
  · intro bad
    obtain ⟨k, hin, rfl⟩ := dirty bad
    refine ⟨k, hin, ?_⟩
    have part : ((us.take k).map some).length = k := by
      simp
      omega
    rw [getElem?_append_right (by omega), part, Nat.sub_self, getElem?_replicate,
      if_pos (by simp)]

end Copies

/-! ### One method each -/

def Buffers (h : Heap UInt16) (s : UnicodeString) (us : List UInt16) : Prop :=
  s.count = us.length ∧
    (s.uString = none ∧ us = [] ∨
      ∃ p cells, s.uString = some p ∧ h.blocks p = some cells ∧ Begins us cells)

theorem Holds.buffers {h : Heap UInt16} {s : UnicodeString} {a : Content}
    (held : Holds h s a) : Buffers h s a.units := by
  refine ⟨held.count_eq, ?_⟩
  cases a with
  | none => exact .inl ⟨held.1, rfl⟩
  | some us =>
    obtain ⟨p, cells, points, _, live, t, rfl, _⟩ := held
    exact .inr ⟨p, _, points, live, begins_units us [t]⟩

section Methods

variable {h : Heap UInt16} {s : UnicodeString} {us : List UInt16}

theorem Buffers.live {p : Nat} (held : Buffers h s us) (points : s.uString = some p) :
    h.blocks p ≠ none := by
  rcases held.2 with ⟨null, _⟩ | ⟨q, cells, eq, live, _⟩
  · rw [null] at points
    cases points
  · obtain rfl : q = p := Option.some.inj (eq.symm.trans points)
    simp [live]

variable {h' h₁ : Heap UInt16} {s' t : UnicodeString} {vs : List UInt16} {whole : Prop} {α : Type}
  {b : StreamBuffer} {r : α}

theorem Buffers.frame (held : Buffers h s us)
    (eq : ∀ p, s.uString = some p → h.blocks p ≠ none → h'.blocks p = h.blocks p) :
    Buffers h' s us := by
  refine ⟨held.1, ?_⟩
  rcases held.2 with null | ⟨p, cells, points, live, begins⟩
  · exact .inl null
  · exact .inr ⟨p, cells, points, (eq p points (by simp [live])).trans live, begins⟩

theorem free_spec (held : Buffers h s us) (ext : Extends h none h₁) :
    ∃ h', free s.uString h₁ = .ok () h' ∧ Extends h s.uString h' ∧ h'.next = h₁.next ∧
      ∀ q, h.blocks q = none → h'.blocks q = h₁.blocks q := by
  cases points : s.uString with
  | none => exact ⟨h₁, rfl, ext, rfl, fun _ _ => rfl⟩
  | some p =>
    have live : h.blocks p ≠ none := held.live points
    obtain ⟨cells, block⟩ := Option.ne_none_iff_exists'.mp live
    have eq : h₁.blocks p = some cells := (ext.kept p (by simp) live).trans block
    refine ⟨_, free_live eq, (ext.mono (some p)).set (.inl rfl) none, rfl, ?_⟩
    intro q dead
    have apart : q ≠ p := by
      rintro rfl
      exact live dead
    exact set_ne _ _ apart

theorem create_spec (h : Heap UInt16) (ascii : List UInt8) :
    ∃ h', create ascii h = .ok ⟨some h.next, ascii.length⟩ h' ∧ Extends h none h' ∧
      Holds h' ⟨some h.next, ascii.length⟩ (some (ascii.map widen)) := by
  have dead : h.blocks h.next = none := h.fresh h.next (Nat.le_refl _)
  have new : (h.push (replicate (ascii.length + 1) none)).blocks h.next =
      some ([] ++ replicate ascii.length none ++ [none]) := by
    simp [replicate_succ']
  obtain ⟨h₁, units, block₁, only₁⟩ := store_exact new 0 (ascii.map (some ∘ widen)) rfl (by simp)
  have room : h₁.blocks h.next = some (ascii.map (some ∘ widen) ++ [none] ++ []) := by
    simpa using block₁
  obtain ⟨h₂, ended, block₂, only₂⟩ := store_exact room ascii.length [some 0] (by simp) rfl
  refine ⟨h₂, ?_, (((Extends.refl h none).push _).only only₁ dead).only only₂ dead, ?_⟩
  · refine (bind_of_ok (m := alloc (ascii.length + 1)) rfl).trans ?_
    refine (bind_of_ok units).trans ?_
    exact (bind_of_ok ended).trans rfl
  · exact ⟨h.next, _, rfl, by simp, block₂, some 0, by simp, .inl rfl⟩

def Copied (h : Heap UInt16) (us : List UInt16) (s' : UnicodeString) (h' : Heap UInt16) : Prop :=
  s' = ⟨some h.next, us.length⟩ ∧ ∃ cells, h'.blocks h.next = some cells ∧
    (Clean us → Terminated us cells) ∧ (¬ Clean us → ∃ k < us.length, cells[k]? = some none) ∧
    Begins us cells

theorem Copied.buffers (copied : Copied h us s' h') :
    Buffers h' s' us := by
  obtain ⟨rfl, cells, live, _, _, begins⟩ := copied
  exact ⟨rfl, .inr ⟨h.next, cells, rfl, live, begins⟩⟩

theorem Copied.new (copied : Copied h us s' h') :
    ∀ p, s'.uString = some p → h.blocks p = none := by
  rw [copied.1]
  rintro p ⟨⟩
  exact h.fresh _ (Nat.le_refl _)

theorem Copied.holds_iff (copied : Copied h us s' h') :
    Holds h' s' (some us) ↔ Clean us := by
  obtain ⟨rfl, cells, live, clean, dirty, _⟩ := copied
  constructor
  · intro held
    by_contra bad
    obtain ⟨k, hin, gap⟩ := dirty bad
    exact not_holds_of_gap rfl live hin gap us held
  · intro good
    exact ⟨h.next, cells, rfl, rfl, live, clean good⟩

theorem copyConstruct_spec (held : Holds h s (some us))
    (short : us.length < 4294967295) :
    ∃ s' h', copyConstruct s h = .ok s' h' ∧ Extends h none h' ∧ Copied h us s' h' := by
  obtain ⟨p, cells, points, counted, live, terminated⟩ := held
  have dead : h.blocks h.next = none := h.fresh h.next (Nat.le_refl _)
  have size : u32 (s.count + 1) = us.length + 1 := by
    unfold u32
    omega
  have read : (Source.block s.uString).read (h.push (replicate (us.length + 1) none)) =
      .ok cells (h.push (replicate (us.length + 1) none)) := by
    rw [points]
    exact load_live ((push_live h _ (by simp [live])).trans live)
  obtain ⟨h', cells', filled, block, clean, dirty, begins, only⟩ :=
    copyAll_spec (push_self h _) read terminated
  refine ⟨⟨some h.next, us.length⟩, h', ?_, ((Extends.refl h none).push _).only only dead,
    rfl, cells', block, clean, dirty, begins⟩
  rw [copyConstruct, size, counted]
  refine (bind_of_ok (m := alloc (us.length + 1)) rfl).trans ?_
  exact (bind_of_ok filled).trans rfl

theorem assign_spec {mine : List UInt16} (old : Buffers h s mine) (held : Holds h t (some us))
    (apart : s.uString ≠ t.uString) (short : us.length < 4294967295) :
    ∃ s' h', assign s t h = .ok s' h' ∧ Extends h s.uString h' ∧ Copied h us s' h' := by
  obtain ⟨h₁, freed, ext, eq, _⟩ := free_spec old (Extends.refl h none)
  have kept : Holds h₁ t (some us) := by
    refine held.frame fun p points => ext.kept p ?_ (held.live points)
    intro equal
    exact apart (equal.trans points.symm)
  obtain ⟨s', h', copied, ext', filled⟩ := copyConstruct_spec kept short
  refine ⟨s', h', ?_, ext.trans (ext'.mono _), ?_⟩
  · exact (bind_of_ok freed).trans copied
  · rwa [Copied, eq] at filled

theorem copyConstruct_null (null : s.uString = none) (h : Heap UInt16) :
    ∃ h', copyConstruct s h = .error .null h' := by
  refine ⟨h.push (replicate (u32 (s.count + 1)) none), ?_⟩
  rw [copyConstruct, null]
  exact (bind_of_ok (m := alloc _) rfl).trans rfl

theorem assign_null (old : Buffers h s us) (null : t.uString = none) :
    ∃ h', assign s t h = .error .null h' := by
  obtain ⟨h₁, freed, _⟩ := free_spec old (Extends.refl h none)
  obtain ⟨h', faulted⟩ := copyConstruct_null null h₁
  exact ⟨h', (bind_of_ok freed).trans faulted⟩

theorem grow_spec (held : Buffers h s us) (room : Nat) (short : us.length < 2147483648) :
    ∃ h₁ h₂ k, copyLen h.next 0 (.block s.uString) (i32 s.count)
        (h.push (replicate (us.length + room + 1) none)) = .ok () h₁ ∧
      free s.uString h₁ = .ok () h₂ ∧ Extends h s.uString h₂ ∧
      k ≤ us.length ∧ (k = us.length ↔ Clean us) ∧
      h₂.blocks h.next = some (filled us k ++ replicate room none ++ [none]) := by
  have dead : h.blocks h.next = none := h.fresh h.next (Nat.le_refl _)
  have len : i32 s.count = us.length := by
    rw [held.1]
    exact i32_of_small _ (by omega) (by omega)
  have new : (h.push (replicate (us.length + room + 1) none)).blocks h.next =
      some ([] ++ replicate us.length none ++ (replicate room none ++ [none])) := by
    rw [push_self, nil_append, ← replicate_succ', replicate_append_replicate,
      Nat.add_assoc]
  have supplies : us ≠ [] → ∃ cells, (Source.block s.uString).read
      (h.push (replicate (us.length + room + 1) none)) =
      .ok cells (h.push (replicate (us.length + room + 1) none)) ∧ Begins us cells := by
    intro some
    rcases held.2 with ⟨_, empty⟩ | ⟨p, cells, points, live, begins⟩
    · exact absurd empty some
    · refine ⟨cells, ?_, begins⟩
      rw [points]
      exact load_live ((push_live h _ (by simp [live])).trans live)
  obtain ⟨h₁, k, copied, hin, all, block, only⟩ := copyLen_spec 0 rfl new supplies
  obtain ⟨h₂, freed, ext, _, others⟩ :=
    free_spec held (((Extends.refl h none).push _).only only dead)
  refine ⟨h₁, h₂, k, len ▸ copied, freed, ext, hin, all, ?_⟩
  rw [others h.next dead, block]
  simp

def Appended (h : Heap UInt16) (us vs : List UInt16) (whole : Prop) (s' : UnicodeString)
    (h' : Heap UInt16) : Prop :=
  s' = ⟨some h.next, us.length + vs.length⟩ ∧ ∃ i j,
    h'.blocks h.next = some (filled us i ++ filled vs j ++ [some 0]) ∧
    i ≤ us.length ∧ (i = us.length ↔ Clean us) ∧ j ≤ vs.length ∧ (j = vs.length ↔ whole)

theorem Appended.new (appended : Appended h us vs whole s' h') :
    ∀ p, s'.uString = some p → h.blocks p = none := by
  rw [appended.1]
  rintro p ⟨⟩
  exact h.fresh _ (Nat.le_refl _)

theorem Appended.holds_iff (appended : Appended h us vs whole s' h') :
    Holds h' s' (some (us ++ vs)) ↔ Clean us ∧ whole := by
  obtain ⟨rfl, i, j, live, own, ownAll, ne, otherAll⟩ := appended
  have width := length_filled own
  rw [← ownAll, ← otherAll]
  constructor
  · -- a stretch that was not filled to its end has a gap
    intro held
    by_contra partly
    rcases Nat.lt_or_ge i us.length with less | all
    · refine not_holds_of_gap rfl live (k := i) (by simp only; omega) ?_ _ held
      rw [append_assoc, getElem?_append_left (by omega)]
      exact filled_gap less
    · have less : j < vs.length := by omega
      refine not_holds_of_gap rfl live (k := us.length + j) (by simp only; omega) ?_ _ held
      have hin := length_filled ne
      rw [append_assoc, getElem?_append_right (by omega), width,
        Nat.add_sub_cancel_left, getElem?_append_left (by omega)]
      exact filled_gap less
  · rintro ⟨rfl, rfl⟩
    rw [filled_all, filled_all, ← map_append] at live
    exact ⟨h.next, _, rfl, by simp, live, some 0, rfl, .inl rfl⟩

private theorem u32_add (a b : Nat) (short : a + b < 2147483648) :
    u32 ((a : Int) + b) = a + b ∧ u32 (((a + b : Nat) : Int) + 1) = a + b + 1 := by
  unfold u32
  omega

theorem terminate_spec {i j dest : Nat} (own : i ≤ us.length) (ne : j ≤ vs.length)
    (block : h₁.blocks dest = some (filled us i ++ filled vs j ++ [none])) :
    ∃ h', store dest (us.length + vs.length) [some 0] h₁ = .ok () h' ∧
      h'.blocks dest = some (filled us i ++ filled vs j ++ [some 0]) ∧ Only dest h₁ h' := by
  have widths : us.length + vs.length = (filled us i ++ filled vs j).length := by
    rw [length_append, length_filled own, length_filled ne]
  have ready : h₁.blocks dest = some (filled us i ++ filled vs j ++ [none] ++ []) := by
    rw [block, append_nil]
  obtain ⟨h', ended, block', only⟩ := store_exact ready _ [some 0] widths rfl
  exact ⟨h', ended, by rw [block', append_nil], only⟩

theorem append_spec {src : Source} (held : Buffers h s us)
    (short : us.length + vs.length < 2147483648)
    (supplies : vs ≠ [] → ∃ cells, Begins vs cells ∧ ∀ h', Extends h s.uString h' →
      src.read h' = .ok cells h') :
    ∃ s' h', append s src vs.length h = .ok s' h' ∧ Extends h s.uString h' ∧
      Appended h us vs (Clean vs) s' h' := by
  have dead : h.blocks h.next = none := h.fresh h.next (Nat.le_refl _)
  obtain ⟨h₁, h₂, i, copied, freed, ext, hin, all, block⟩ :=
    grow_spec held vs.length (by omega)
  obtain ⟨h₃, j, copied', hin', all', block', only⟩ :=
    copyLen_spec us.length (length_filled hin).symm block fun some => by
      obtain ⟨cells, begins, read⟩ := supplies some
      exact ⟨cells, read h₂ ext, begins⟩
  obtain ⟨h₄, ended, block'', only'⟩ := terminate_spec hin hin' block'
  refine ⟨_, h₄, ?_, (ext.only only dead).only only' dead, rfl, i, j, block'', hin, all,
    hin', all'⟩
  obtain ⟨ncount, size⟩ := u32_add us.length vs.length short
  rw [held.1] at copied
  simp only [append, held.1, ncount, size]
  refine (bind_of_ok (m := alloc _) rfl).trans ?_
  refine (bind_of_ok copied).trans ?_
  refine (bind_of_ok freed).trans ?_
  refine (bind_of_ok copied').trans ?_
  exact (bind_of_ok ended).trans rfl

theorem appendString_spec (held : Buffers h s us) (ne : Buffers h t vs)
    (apart : vs ≠ [] → s.uString ≠ t.uString) (short : us.length + vs.length < 2147483648) :
    ∃ s' h', appendString s t h = .ok s' h' ∧ Extends h s.uString h' ∧
      Appended h us vs (Clean vs) s' h' := by
  rw [appendString, ne.1, i32_of_small _ (by omega) (by omega)]
  refine append_spec held short fun some => ?_
  rcases ne.2 with ⟨_, empty⟩ | ⟨p, cells, target, live, begins⟩
  · exact absurd empty some
  · refine ⟨cells, begins, fun h' ext => ?_⟩
    have kept := ext.kept p (target ▸ apart some) (by simp [live])
    rw [target]
    exact load_live (kept.trans live)

theorem appendString_self (held : Buffers h s us) (ne : Buffers h t us)
    (eq : s.uString = t.uString) (some : us ≠ []) (short : us.length + us.length < 2147483648) :
    ∃ p h', appendString s t h = .error (.freed p) h' := by
  obtain ⟨h₁, h₂, i, copied, freed, _⟩ := grow_spec held us.length (by omega)
  obtain ⟨ncount, size⟩ := u32_add us.length us.length short
  have len : i32 t.count = us.length := by
    rw [ne.1]
    exact i32_of_small _ (by omega) (by omega)
  have pos := length_pos_iff.mpr some
  rcases held.2 with ⟨_, empty⟩ | ⟨p, _, points, _⟩
  · exact absurd empty some
  · have dead := free_dead (points ▸ freed)
    refine ⟨p, h₂, ?_⟩
    rw [held.1] at copied
    simp only [appendString, append, len, held.1, ncount, size]
    refine (bind_of_ok (m := alloc _) rfl).trans ?_
    refine (bind_of_ok copied).trans ?_
    refine (bind_of_ok freed).trans ?_
    apply bind_of_error
    rw [copyLen, if_pos (by omega), ← eq, points]
    exact bind_of_error (load_dead dead)

theorem appendAscii_spec (ascii : List UInt8) (held : Buffers h s us)
    (short : us.length + ascii.length < 2147483648) :
    ∃ s' h', appendAscii s ascii h = .ok s' h' ∧ Extends h s.uString h' ∧
      Appended h us (ascii.map widen) True s' h' := by
  have dead : h.blocks h.next = none := h.fresh h.next (Nat.le_refl _)
  have len : (ascii.map widen).length = ascii.length := length_map _
  obtain ⟨h₁, h₂, i, copied, freed, ext, hin, all, block⟩ :=
    grow_spec held ascii.length (by omega)
  obtain ⟨h₃, stored, block', only⟩ := store_exact block us.length (ascii.map (some ∘ widen))
    (length_filled hin).symm (by simp)
  have whole : filled (ascii.map widen) (ascii.map widen).length = ascii.map (some ∘ widen) := by
    rw [filled_all, map_map]
  rw [← whole] at block'
  obtain ⟨h₄, ended, block'', only'⟩ := terminate_spec hin (Nat.le_refl _) block'
  refine ⟨_, h₄, ?_, (ext.only only dead).only only' dead, rfl, i, _, block'', hin, all,
    Nat.le_refl _, by simp⟩
  obtain ⟨ncount, size⟩ := u32_add us.length ascii.length short
  rw [held.1] at copied
  rw [len] at ended ⊢
  simp only [appendAscii, held.1, ncount, size]
  refine (bind_of_ok (m := alloc _) rfl).trans ?_
  refine (bind_of_ok copied).trans ?_
  refine (bind_of_ok freed).trans ?_
  refine (bind_of_ok stored).trans ?_
  exact (bind_of_ok ended).trans rfl

theorem clear_spec (held : Buffers h s us) :
    ∃ s' h', clear s h = .ok s' h' ∧ Extends h s.uString h' ∧
      (∀ p, s'.uString = some p → h.blocks p = none) ∧ Holds h' s' (some []) := by
  obtain ⟨h₁, freed, ext, eq, _⟩ := free_spec held (Extends.refl h none)
  obtain ⟨h', created, ext', holds⟩ := create_spec h₁ []
  rw [eq] at created holds
  refine ⟨_, h', (bind_of_ok freed).trans created, ext.trans (ext'.mono _), ?_, holds⟩
  rintro p ⟨⟩
  exact h.fresh _ (Nat.le_refl _)

theorem assignAscii_spec (ascii : List UInt8) (held : Buffers h s us)
    (short : ascii.length < 2147483648) :
    ∃ s' h', assignAscii s ascii h = .ok s' h' ∧ Extends h s.uString h' ∧
      (∀ p, s'.uString = some p → h.blocks p = none) ∧ Holds h' s' (some (ascii.map widen)) := by
  obtain ⟨s₁, h₁, cleared, ext, new, empty⟩ := clear_spec held
  obtain ⟨s', h', appended, ext', res⟩ :=
    appendAscii_spec ascii empty.buffers (by simpa using short)
  refine ⟨s', h', (bind_of_ok cleared).trans appended, ext.trans_fresh ext' new, ?_,
    res.holds_iff.mpr ⟨by decide, trivial⟩⟩
  rw [res.1]
  rintro p ⟨⟩
  exact h.fresh _ ext.next

theorem concat_spec (held : Holds h s (some us)) (ne : Buffers h t vs)
    (short : us.length + vs.length < 2147483648) :
    ∃ s' h', concat s t h = .ok s' h' ∧ Extends h none h' ∧
      (∀ p, s'.uString = some p → h.blocks p = none) ∧
      (Holds h' s' (some (us ++ vs)) ↔ Clean us ∧ Clean vs) := by
  obtain ⟨s₁, h₁, copied, ext, fresh⟩ := copyConstruct_spec held (by omega)
  have points : s₁.uString = some h.next := by rw [fresh.1]
  have kept : Buffers h₁ t vs := ne.frame fun p _ live => ext.kept p (by simp) live
  have apart : s₁.uString ≠ t.uString := by
    rw [points]
    intro eq
    exact ne.live eq.symm (fresh.new _ points)
  obtain ⟨s', h', appended, ext', res⟩ :=
    appendString_spec fresh.buffers kept (fun _ => apart) short
  refine ⟨s', h', (bind_of_ok copied).trans appended, ext.trans_fresh ext' fresh.new, ?_,
    res.holds_iff⟩
  rw [res.1]
  rintro p ⟨⟩
  exact h.fresh _ ext.next

/-! ### Streams -/

@[simp] theorem length_unitBytes (us : List UInt16) : (unitBytes us).length = 2 * us.length := by
  induction us with
  | nil => rfl
  | cons u us ih =>
    rw [unitBytes, flatMap_cons, ← unitBytes, length_append, ih, length_leBytes,
      length_cons]
    omega

theorem initialised_units (us : List UInt16) (rest : List (Option UInt16)) :
    initialised us.length (us.map some ++ rest) = .ok us := by
  induction us with
  | nil => rfl
  | cons u us ih => simp [initialised, ih]

theorem toBinaryStream_spec {a : Content} (held : Holds h s a)
    (short : a.units.length < 1073741824) :
    toBinaryStream s h =
      .ok (leBytes 4 a.units.length ++ unitBytes a.units) h := by
  have counted := held.count_eq
  have len : i32 (2 * a.units.length) = 2 * a.units.length :=
    i32_of_small _ (by omega) (by omega)
  simp only [toBinaryStream, counted, len]
  cases a with
  | none => simp [unitBytes, pure, EStateM.pure]
  | some us =>
    obtain ⟨p, cells, points, _, live, t, rfl, _⟩ := held
    simp only [Option.getD_some]
    by_cases empty : us = []
    · subst empty
      rfl
    · have pos := length_pos_iff.mpr empty
      have half : (2 * (us.length : Int) / 2).toNat = us.length := by omega
      rw [if_neg (by omega), if_neg (by omega), points, half]
      refine (bind_of_ok (load_live live)).trans ?_
      rw [initialised_units]
      rfl

variable (memory : Int → UInt8) (start : Int)

@[simp] theorem length_unitsAt (n : Nat) : (unitsAt memory start n).length = n := by
  simp [unitsAt]

theorem unitsAt_add (a c : Nat) : unitsAt memory start (a + c) =
      unitsAt memory start a ++ unitsAt memory (start + 2 * a) c := by
  simp only [unitsAt, range_add, map_append, map_map]
  congr 1
  refine map_congr_left fun i _ => ?_
  simp only [Function.comp]
  congr 3
  omega

theorem unitsFrom_eq {b : StreamBuffer} {start : Int} {n : Nat} (low : 0 ≤ start)
    (fits : start + 2 * n ≤ b.size) :
    ∃ rest, unitsFrom b start = (unitsAt b.memory start n).map some ++ rest := by
  obtain ⟨more, counted⟩ : ∃ more, ((b.size - start) / 2).toNat = n + more :=
    ⟨((b.size - start) / 2).toNat - n, by omega⟩
  rw [unitsFrom, if_pos low, counted, unitsAt_add, map_append]
  exact ⟨_, rfl⟩

theorem unitsAt_unitBytes (us : List UInt16)
    (bytes : bytesAt memory start (2 * us.length) = unitBytes us) :
    unitsAt memory start us.length = us := by
  induction us generalizing start with
  | nil => rfl
  | cons u us ih =>
    have cut : 2 * (u :: us).length = 2 + 2 * us.length := by
      simp only [length_cons]
      omega
    rw [cut, bytesAt_add] at bytes
    obtain ⟨fst, rest⟩ := append_inj bytes (by simp)
    have unit : unitsAt memory start 1 = [u] := by
      have eq : UInt16.ofNat (leNat (leBytes 2 u.toNat)) = u := by
        rw [leNat_leBytes]
        apply UInt16.toNat_inj.mp
        simp
      simp only [unitsAt, range_one, map_cons, map_nil]
      rw [Nat.cast_zero, Int.mul_zero, Int.add_zero, fst, eq]
    rw [length_cons, Nat.add_comm, unitsAt_add, unit]
    have later := ih (start + 2) rest
    simpa using later

theorem receive_spec {units : List (Option UInt16)} (held : Buffers h s us)
    (short : vs.length < 2147483648) (begins : Begins vs units) :
    ∃ s' h', receive s vs.length units h = .ok s' h' ∧ Extends h s.uString h' ∧
      Appended h [] vs (Clean vs) s' h' := by
  obtain ⟨h₁, freed, ext, eq, _⟩ := free_spec held (Extends.refl h none)
  have dead : h.blocks h.next = none := h.fresh h.next (Nat.le_refl _)
  have new : (h₁.push (replicate (vs.length + 1) none)).blocks h.next =
      some ([] ++ replicate vs.length none ++ [none]) := by
    rw [← eq]
    simp [replicate_succ']
  have supplies : vs ≠ [] → ∃ cells, (Source.array units).read
      (h₁.push (replicate (vs.length + 1) none)) =
      .ok cells (h₁.push (replicate (vs.length + 1) none)) ∧ Begins vs cells :=
    fun _ => ⟨units, rfl, begins⟩
  obtain ⟨h₂, j, copied, hin, all, block, only⟩ := copyLen_spec 0 rfl new supplies
  have ready : h₂.blocks h.next = some (filled [] 0 ++ filled vs j ++ [none]) := block
  obtain ⟨h₃, ended, block', only'⟩ := terminate_spec (Nat.le_refl _) hin ready
  have size : u32 (vs.length + 1) = vs.length + 1 := by
    unfold u32
    omega
  refine ⟨_, h₃, ?_, ((ext.push _).only only dead).only only' dead, rfl, 0, j, block',
    Nat.le_refl _, iff_of_true rfl (by decide), hin, all⟩
  rw [receive, size, i32_of_small _ (by omega) (by omega)]
  refine (bind_of_ok freed).trans ?_
  refine (bind_of_ok (m := alloc _) rfl).trans ?_
  rw [eq]
  refine (bind_of_ok copied).trans ?_
  simp only [length_nil, Nat.zero_add] at ended ⊢
  exact (bind_of_ok ended).trans rfl

theorem onStream_ok {m : BufferM α} {b' : StreamBuffer} (read : m b = .ok r b') :
    onStream m ⟨b, h⟩ = .ok r ⟨b', h⟩ := by
  simp only [onStream, read]

theorem onHeap_ok {m : UnitM α} (ran : m h = .ok r h') : onHeap m ⟨b, h⟩ = .ok r ⟨b, h'⟩ := by
  simp only [onHeap, ran]

theorem parseFromBinaryStream_spec (held : Buffers h s us) (low : 0 ≤ b.offset) {len : Nat}
    (announced : leNat (bytesAt b.memory b.offset 4) = len) (short : len < 1073741824)
    (fits : b.offset + 4 + 2 * len ≤ b.size) :
    ∃ s' h', parseFromBinaryStream s ⟨b, h⟩ =
        .ok s' ⟨{ b with offset := b.offset + 4 + 2 * len }, h'⟩ ∧ Extends h s.uString h' ∧
      Appended h [] (unitsAt b.memory (b.offset + 4) len)
        (Clean (unitsAt b.memory (b.offset + 4) len)) s' h' := by
  generalize content : unitsAt b.memory (b.offset + 4) len = vs
  have length : vs.length = len := by rw [← content, length_unitsAt]
  have read := readInt_inside b low (by omega)
  rw [announced] at read
  have shift : i32 (2 * len) = 2 * len := i32_of_small _ (by omega) (by omega)
  have moved := shiftOffset_inside { b with offset := b.offset + 4 } fits
  obtain ⟨rest, units⟩ := unitsFrom_eq (by omega) fits
  rw [content] at units
  obtain ⟨s', h', received, ext, res⟩ :=
    receive_spec held (by omega) (units ▸ begins_units vs rest)
  refine ⟨s', h', ?_, ext, res⟩
  rw [length] at received
  refine (bind_of_ok (onStream_ok read)).trans ?_
  refine get_bind.trans ?_
  rw [shift]
  refine (bind_of_ok (onStream_ok moved)).trans ?_
  refine get_bind.trans ?_
  exact onHeap_ok received

theorem parseFromBinaryStream_written (held : Buffers h s us) {vs : List UInt16}
    (short : vs.length < 1073741824) {bytes : List UInt8}
    (written : bytes = leBytes 4 vs.length ++ unitBytes vs) :
    ∃ s' p, parseFromBinaryStream s ⟨ofBytes bytes, h⟩ = .ok s' p ∧
      Extends h s.uString p.heap ∧ Appended h [] vs (Clean vs) s' p.heap := by
  have size : bytes.length = 4 + 2 * vs.length := by
    rw [written, length_append, length_leBytes, length_unitBytes]
  have front := bytesAt_ofBytes bytes 0 4 (by omega)
  rw [drop_zero, written, take_left' (length_leBytes 4 _), ← written] at front
  have announced : leNat (bytesAt (ofBytes bytes).memory 0 4) =
      vs.length := by
    rw [← Nat.cast_zero, front, leNat_leBytes, Nat.mod_eq_of_lt (by omega)]
  have back := bytesAt_ofBytes bytes 4 (2 * vs.length) (by omega)
  rw [written, drop_left' (length_leBytes 4 _), ← length_unitBytes vs, take_length,
    length_unitBytes, ← written] at back
  have content : unitsAt (ofBytes bytes).memory (0 + 4) vs.length = vs :=
    unitsAt_unitBytes _ _ _ back
  obtain ⟨s', h', parsed, ext, res⟩ := parseFromBinaryStream_spec
    (b := ofBytes bytes) held (Int.le_refl 0) announced short
    (by simp only [ofBytes, size]; omega)
  simp only [ofBytes] at res content
  rw [content] at res
  exact ⟨s', _, parsed, ext, res⟩

end Methods

end UnicodeString

end Engine3
