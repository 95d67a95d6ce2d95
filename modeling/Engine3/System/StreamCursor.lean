import Engine3.Library.Lockstep
import Engine3.System.PacketStrings

/-!
# Where the cursor of a stream can be

Programs that use the methods of `Stream` and `Packet` in any order and go on after exceptions.
The methods that move the cursor do so before they compare it with the end, and those that take
bytes away do not look at it.
-/
namespace Engine3

open Bytes Exec MachineInt UnicodeString Packet
open StreamBuffer hiding onStream

namespace StreamCursor

inductive Op
  | setSize (len : Int) (lost : Option (Int → UInt8))
  | extendSize (len : Int)
  | setOffset (offs : Int)
  | shiftOffset (offs : Int)
  | reset
  | clear
  | removeLastBytes (len : Int)
  | removeRange (fromIndex toIndex : Int)
  | removeAll
  | writeStream (buf : List UInt8)
  | writePrimitiveTo (offs : Int) (val : List UInt8)
  | writeStreamPart (stream : Option (List UInt8)) (len : Nat)
  | writeStreamTo (stream : Option (List UInt8)) (len : Nat) (offs : Int)
  | insertStream (stream : Option (List UInt8)) (len : Nat) (offs : Int)
  | insertAscii (ascii : List UInt8)
  | insertUnicode (units : List UInt16)
  | readStream (len : Nat)
  | readPrimitiveFrom (typeSize : Nat) (offs : Int)
  | parseAscii
  | parseAsciiFrom (offs : Int)
  | parseUnicode
  | parseUnicodeFrom (offs : Int)

def called {ε σ α : Type} (m : EStateM ε σ α) : EStateM ε σ Unit := m >>= fun _ => pure ()

def perform : Op → ParseM Unit
  | .setSize len lost => onStream (setSize len lost)
  | .extendSize len => onStream (extendSize len)
  | .setOffset offs => onStream (setOffset offs)
  | .shiftOffset offs => onStream (shiftOffset offs)
  | .reset => onStream reset
  | .clear => onStream clear
  | .removeLastBytes len => onStream (removeLastBytes len)
  | .removeRange fromIndex toIndex => onStream (removeRange fromIndex toIndex)
  | .removeAll => onStream removeAll
  | .writeStream buf => onStream (writeStream buf)
  | .writePrimitiveTo offs val => onStream (writePrimitiveTo offs val)
  | .writeStreamPart stream len => onStream (writeStreamPart stream len)
  | .writeStreamTo stream len offs => onStream (writeStreamTo stream len offs)
  | .insertStream stream len offs => onStream (insertStream stream len offs)
  | .insertAscii ascii => onStream (insertAscii ascii)
  | .insertUnicode units => onStream (insertUnicode units)
  | .readStream len => onStream (called (readStream len))
  | .readPrimitiveFrom typeSize offs =>
    onStream (called (readPrimitiveFrom typeSize offs))
  | .parseAscii => onStream (called parseAscii)
  | .parseAsciiFrom offs => onStream (called (parseAsciiFrom offs))
  | .parseUnicode => called (onHeap (create []) >>= parseUnicode)
  | .parseUnicodeFrom offs =>
    called (onHeap (create []) >>= parseUnicodeFrom offs)

def next (p : Parsing) (op : Op) : Parsing := finalState (perform op p)

/-- What a method needs so that the cursor is inside the data after it. -/
def Op.Sound (b : StreamBuffer) : Op → Prop
  | setSize len _ => b.offset ≤ len
  | extendSize len => 0 ≤ b.offset + len
  | setOffset offs => 0 ≤ offs ∧ offs ≤ b.size
  | shiftOffset offs => 0 ≤ b.offset + offs ∧ b.offset + offs ≤ b.size
  | removeLastBytes len => b.size < len ∨ b.offset ≤ b.size - len
  | removeRange fromIndex toIndex =>
    fromIndex < 0 ∨ b.size < toIndex ∨ toIndex < fromIndex ∨
      b.offset ≤ b.size - (toIndex - fromIndex)
  | removeAll => b.offset = 0
  | readStream len => b.offset + len ≤ b.size
  | parseAscii => b.offset + 2 ≤ b.size ∧ b.offset + 2 + asciiLength b b.offset ≤ b.size
  | parseUnicode =>
    b.offset + 4 ≤ b.size ∧ (maxUnicodeLength < u32 (2 * announced b b.offset) ∨
      b.offset + 4 + u32 (2 * announced b b.offset) ≤ b.size)
  | _ => True

section Results

variable {α : Type}

theorem finalState_onStream (m : BufferM α) (p : Parsing) :
    (finalState (onStream m p)).stream = finalState (m p.stream) := by
  unfold onStream
  split
  next ran => rw [ran]; rfl
  next ran => rw [ran]; rfl

theorem finalState_onHeap (m : UnitM α) (p : Parsing) :
    (finalState (onHeap m p)).stream = p.stream := by
  unfold onHeap
  split <;> rfl

theorem finalState_called {ε σ : Type} (m : EStateM ε σ α) (s : σ) :
    finalState (called m s) = finalState (m s) := by
  cases ran : m s with
  | ok a s' =>
    rw [called, bind_of_ok ran]
    rfl
  | error e s' =>
    rw [called, bind_of_error ran]
    rfl

end Results

/-! ### Methods that move neither the cursor nor the end -/

structure Still (b b' : StreamBuffer) : Prop where
  size : b'.size = b.size
  offset : b'.offset = b.offset

theorem Still.refl (b : StreamBuffer) : Still b b := ⟨rfl, rfl⟩

theorem Still.trans (a b c : StreamBuffer) (fst : Still a b) (snd : Still b c) : Still a c :=
  ⟨snd.size.trans fst.size, snd.offset.trans fst.offset⟩

theorem Still.inside {b b' : StreamBuffer} (still : Still b b') (hin : b.Inside) :
    b'.Inside := by
  rw [Inside, still.size, still.offset]
  exact hin

theorem copyFrom_still (start : Int) (n : Nat) : Preserves Still (copyFrom start n) := by
  intro b
  unfold copyFrom
  split <;> exact ⟨rfl, rfl⟩

theorem copyTo_still (start : Int) (bytes : List UInt8) : Preserves Still (copyTo start bytes) := by
  intro b
  unfold copyTo
  split <;> exact ⟨rfl, rfl⟩

theorem readPrimitiveFrom_still (n : Nat) (offs : Int) :
    Preserves Still (readPrimitiveFrom n offs) := by
  intro b
  unfold readPrimitiveFrom
  split
  · exact ⟨rfl, rfl⟩
  · exact copyFrom_still offs n b

variable (offs : Int)

theorem writePrimitiveTo_still (val : List UInt8) :
    Preserves Still (writePrimitiveTo offs val) := by
  intro b
  unfold writePrimitiveTo
  split
  · exact ⟨rfl, rfl⟩
  · exact copyTo_still offs val b

variable {α : Type}

theorem map_still {β : Type} (f : α → β) {m : BufferM α} (still : Preserves Still m) :
    Preserves Still (f <$> m) := by
  intro b
  have kept := still b
  cases ran : m b with
  | ok r b' =>
    rw [ran] at kept
    rw [map_ok f ran]
    exact kept
  | error e b' =>
    rw [ran] at kept
    rw [map_error f ran]
    exact kept

theorem parseAsciiFrom_still : Preserves Still (parseAsciiFrom offs) := by
  refine Preserves.bind Still.trans (map_still leNat (readPrimitiveFrom_still 2 offs)) fun len => ?_
  refine Preserves.bind Still.trans (fun b => Still.refl b) fun b => ?_
  exact Preserves.ite (fun b => Still.refl b) (copyFrom_still _ _)

abbrev StreamStill (p p' : Parsing) : Prop := Still p.stream p'.stream

theorem StreamStill.trans (p q r : Parsing) (fst : StreamStill p q) (snd : StreamStill q r) :
    StreamStill p r := Still.trans _ _ _ fst snd

theorem onStream_still {m : BufferM α} (still : Preserves Still m) :
    Preserves StreamStill (onStream m) := by
  intro p
  rw [StreamStill, finalState_onStream]
  exact still p.stream

theorem onHeap_still (m : UnitM α) : Preserves StreamStill (onHeap m) := by
  intro p
  rw [StreamStill, finalState_onHeap]
  exact Still.refl _

theorem parseUnicodeFrom_still (str : UnicodeString) :
    Preserves StreamStill (parseUnicodeFrom offs str) := by
  refine Preserves.bind StreamStill.trans
    (onStream_still (map_still leNat (readPrimitiveFrom_still 4 offs))) fun len => ?_
  refine Preserves.ite (fun p => Still.refl _) ?_
  refine Preserves.bind StreamStill.trans (fun p => Still.refl _) fun p => ?_
  exact Preserves.ite (fun p => Still.refl _) (onHeap_still _)

/-! ### Methods that move the cursor or the end -/

section Moves

variable (b : StreamBuffer) (inside : b.Inside)
include inside

theorem removeRange_inside_iff (fromIndex toIndex : Int) :
    (finalState (removeRange fromIndex toIndex b)).Inside ↔
      (Op.removeRange fromIndex toIndex).Sound b := by
  obtain ⟨low, high⟩ := inside
  unfold removeRange
  simp only [Op.Sound]
  split
  next negative => exact iff_of_true ⟨low, high⟩ (.inl negative)
  split
  next behind => exact iff_of_true ⟨low, high⟩ (.inr (.inl behind))
  split
  next reversed => exact iff_of_true ⟨low, high⟩ (.inr (.inr (.inl reversed)))
  next =>
    simp only [finalState, Inside]
    omega

theorem writeStream_keeps (buf : List UInt8) :
    ∃ b', writeStream buf b = .ok () b' ∧ b'.Inside := by
  refine ⟨_, writeStream_inside b inside buf, ?_⟩
  obtain ⟨low, high⟩ := inside
  constructor
  · simp only
    omega
  · simp only
    omega

theorem writeTwice_keeps (first second : List UInt8) :
    (finalState ((do
      writeStream first
      writeStream second : BufferM Unit) b)).Inside := by
  obtain ⟨b₁, written, hin₁⟩ := writeStream_keeps b inside first
  obtain ⟨b₂, written', hin₂⟩ := writeStream_keeps b₁ hin₁ second
  rw [bind_of_ok written, written']
  exact hin₂

variable (stream : Option (List UInt8)) (len : Nat)

theorem writeStreamPart_keeps : (finalState (writeStreamPart stream len b)).Inside := by
  unfold writeStreamPart
  split
  · exact inside
  · obtain ⟨b', written, hin'⟩ := writeStream_keeps b inside ((stream.getD []).take len)
    rw [written]
    exact hin'

theorem writeStreamTo_keeps (offs : Int) :
    (finalState (writeStreamTo stream len offs b)).Inside := by
  unfold writeStreamTo
  split
  · exact inside
  cases stream with
  | none => exact inside
  | some buffer =>
    apply (copyTo_still offs (buffer.take len) _).inside
    split
    next grows => exact ⟨inside.1, Int.le_trans inside.2 (Int.le_of_lt grows)⟩
    next => exact inside

theorem insertStream_keeps (offs : Int) : (finalState (insertStream stream len offs b)).Inside := by
  unfold insertStream
  split
  · exact inside
  cases stream with
  | none => exact inside
  | some buffer =>
    dsimp only
    split
    · exact writeStreamPart_keeps b inside (some buffer) len
    split
    · exact inside
    · refine ⟨inside.1, ?_⟩
      have := inside.2
      simp only [finalState]
      omega

theorem readStream_inside_iff :
    (finalState (readStream len b)).Inside ↔ b.offset + len ≤ b.size := by
  obtain ⟨low, high⟩ := inside
  rcases lt_or_ge b.size (b.offset + len) with beyond | fits
  · rw [readStream_outside b beyond]
    simp only [finalState, Inside]
    omega
  · rw [readStream_inside b low fits]
    simp only [finalState, Inside]
    omega

theorem parseAscii_inside_iff :
    (finalState (parseAscii b)).Inside ↔ Op.parseAscii.Sound b := by
  obtain ⟨low, high⟩ := inside
  simp only [Op.Sound]
  rcases lt_or_ge b.size (b.offset + 2) with beyond | fits
  · have thrown : parseAscii b =
        .error (.thrown (.streamIndexOutOfBounds (b.offset + 2)))
          { b with offset := b.offset + 2 } :=
      bind_of_error (map_error leNat (readStream_outside b beyond))
    rw [thrown]
    simp only [finalState, Inside]
    omega
  · have parsed := parseAscii_at b b.offset low fits
    rw [parsed]
    split
    all_goals
      simp only [finalState, Inside]
      omega

theorem parseUnicode_inside_iff (str : UnicodeString) (h : OwnedBlocks.Heap UInt16) :
    (finalState (parseUnicode str ⟨b, h⟩)).stream.Inside ↔ Op.parseUnicode.Sound b := by
  obtain ⟨low, high⟩ := inside
  simp only [Op.Sound]
  rcases lt_or_ge b.size (b.offset + 4) with beyond | fits
  · rw [parseUnicode, readInt_beyond _ beyond]
    simp only [finalState, Inside]
    omega
  rw [parseUnicode, readInt_read _ low fits]
  generalize u32 (2 * announced b b.offset) = totalLen
  by_cases long : totalLen > maxUnicodeLength
  · rw [if_pos long]
    have kept : Inside { b with offset := b.offset + 4 } := ⟨by simp only; omega, fits⟩
    exact iff_of_true kept ⟨fits, .inl long⟩
  rw [if_neg long, and_iff_right fits, or_iff_right long]
  rcases lt_or_ge b.size (b.offset + 4 + totalLen) with beyond | shifts
  · have failed := shiftOffset_outside { b with offset := b.offset + 4 } beyond
    rw [bind_of_error (onStream_error failed)]
    simp only [finalState, Inside]
    omega
  · have moved := shiftOffset_inside { b with offset := b.offset + 4 } shifts
    rw [bind_of_ok (onStream_ok moved),
      get_bind, finalState_onHeap]
    simp only [Inside]
    omega

end Moves

/-! ### Whole programs -/

theorem next_inside_iff (p : Parsing) (op : Op) (hin : p.stream.Inside) :
    (next p op).stream.Inside ↔ op.Sound p.stream := by
  obtain ⟨low, high⟩ := id hin
  cases op
  all_goals simp only [next, perform, finalState_onStream, finalState_called]
  case setSize len lost =>
    exact and_iff_right low
  case extendSize len =>
    exact and_iff_left (Int.le_max_right _ _)
  case setOffset offs =>
    unfold setOffset
    split <;> rfl
  case shiftOffset offs =>
    unfold shiftOffset setOffset
    split <;> rfl
  case reset =>
    exact iff_of_true ⟨Int.le_refl 0, Int.le_trans low high⟩ trivial
  case clear =>
    exact iff_of_true ⟨Int.le_refl 0, Int.le_refl 0⟩ trivial
  case removeLastBytes len =>
    unfold removeLastBytes
    simp only [Op.Sound]
    split
    next short => exact iff_of_true hin (.inl (by omega))
    next enough =>
      have kept : (finalState (setSize (p.stream.size - len) none p.stream)).Inside ↔
          p.stream.offset ≤ p.stream.size - len := and_iff_right low
      rw [kept]
      omega
  case removeRange fromIndex toIndex =>
    exact removeRange_inside_iff p.stream hin fromIndex toIndex
  case removeAll =>
    have removed := removeRange_inside_iff p.stream hin 0 p.stream.size
    simp only [Op.Sound] at removed ⊢
    exact removed.trans (by omega)
  case writeStream buf =>
    obtain ⟨b', written, hin'⟩ := writeStream_keeps p.stream hin buf
    rw [written]
    exact iff_of_true hin' trivial
  case writePrimitiveTo offs val =>
    exact iff_of_true ((writePrimitiveTo_still offs val p.stream).inside hin) trivial
  case writeStreamPart stream len =>
    exact iff_of_true (writeStreamPart_keeps p.stream hin stream len) trivial
  case writeStreamTo stream len offs =>
    exact iff_of_true (writeStreamTo_keeps p.stream hin stream len offs) trivial
  case insertStream stream len offs =>
    exact iff_of_true (insertStream_keeps p.stream hin stream len offs) trivial
  case insertAscii ascii =>
    exact iff_of_true (writeTwice_keeps p.stream hin _ ascii) trivial
  case insertUnicode units =>
    exact iff_of_true (writeTwice_keeps p.stream hin _ (unitBytes units)) trivial
  case readStream len =>
    exact readStream_inside_iff p.stream hin len
  case readPrimitiveFrom typeSize offs =>
    exact iff_of_true ((readPrimitiveFrom_still typeSize offs p.stream).inside hin) trivial
  case parseAscii =>
    exact parseAscii_inside_iff p.stream hin
  case parseAsciiFrom offs =>
    exact iff_of_true ((parseAsciiFrom_still offs p.stream).inside hin) trivial
  case parseUnicode =>
    obtain ⟨h', created, _⟩ := create_spec p.heap []
    rw [bind_of_ok (onHeap_ok created)]
    exact parseUnicode_inside_iff p.stream hin _ h'
  case parseUnicodeFrom offs =>
    obtain ⟨h', created, _⟩ := create_spec p.heap []
    rw [bind_of_ok (onHeap_ok created)]
    have still := parseUnicodeFrom_still offs ⟨some p.heap.next, 0⟩ { p with heap := h' }
    exact iff_of_true (Still.inside still hin) trivial

/-- Exactly if every method is sound where it is called. -/
theorem cursor_inside_iff (p : Parsing) (inside : p.stream.Inside) (ops : List Op) :
    Lockstep.Throughout next (fun p => p.stream.Inside) p ops ↔
      Lockstep.Along (fun p op => ((), next p op)) (fun p op => op.Sound p.stream) p ops :=
  Lockstep.throughout_iff next_inside_iff p inside ops

theorem cursor_inside_string :
    Lockstep.Throughout next (fun p => p.stream.Inside)
      ⟨ofBytes [], OwnedBlocks.Heap.empty⟩ [.insertAscii [65], .reset, .parseAscii] :=
  (cursor_inside_iff _ (by decide) _).mpr
    ⟨trivial, trivial, by simp only [Op.Sound]; decide +kernel, trivial⟩

theorem cursor_outside :
    ¬ (next ⟨ofBytes [65], OwnedBlocks.Heap.empty⟩ (.setOffset 2)).stream.Inside ∧
    ¬ (next ⟨ofBytes [65], OwnedBlocks.Heap.empty⟩ (.setOffset (-1))).stream.Inside ∧
    ¬ (next ⟨{ ofBytes [65] with offset := 1 }, OwnedBlocks.Heap.empty⟩
      (.removeLastBytes 1)).stream.Inside := by
  decide +kernel

end StreamCursor

end Engine3
