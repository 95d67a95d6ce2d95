import Engine3.Library.Bytes

/-!
# Streams

`system/io/Stream`, `ObjectInputStream` and `ObjectOutputStream`: a growable byte
buffer with one cursor, shared by the reading and the writing methods. A read moves
the cursor and then throws if it passed the end; a write at the cursor overwrites what
is there and extends the buffer when it runs past the end.

Values are in host order, which is little endian (`platform.h` rejects the other);
the `Net` methods are the byte-swapped ones.
-/
namespace Engine3

open Bytes List

inductive Exception
  | streamIndexOutOfBounds (index : Int)
  | packetIndexOutOfBounds (index : Int)
  | arrayIndexOutOfBounds (index : Int)
  | fragmentedPacketParse (message : String)
  | socket (message : String)
  | plain (message : String)
  | abort (message : String)
  deriving DecidableEq, Repr

structure Stream where
  elementData : List UInt8
  offset : Nat
  deriving DecidableEq, Repr

abbrev StreamM := EStateM Exception Stream

namespace Stream

def empty : Stream := ⟨[], 0⟩

def size (s : Stream) : Nat := s.elementData.length

def hasData (s : Stream) : Bool := s.offset < s.size

def setOffset (offs : Nat) : StreamM Unit := fun s =>
  -- the cursor is assigned before it is compared with the end
  if offs > s.size then .error (.streamIndexOutOfBounds offs) { s with offset := offs }
  else .ok () { s with offset := offs }

def shiftOffset (offs : Nat) : StreamM Unit := fun s => setOffset (s.offset + offs) s

def reset (s : Stream) : Stream := { s with offset := 0 }

def setSize (len : Nat) (s : Stream) : Stream :=
  { s with elementData := s.elementData.take len ++ replicate (len - s.size) 0 }

def removeLastBytes (len : Nat) : StreamM Unit := fun s =>
  if s.size < len then .error (.streamIndexOutOfBounds ((s.size : Int) - len)) s
  else .ok () (s.setSize (s.size - len))

def readPrimitive (typeSize : Nat) : StreamM (List UInt8) := fun s =>
  match shiftOffset typeSize s with
  | .error e moved => .error e moved
  | .ok () moved => .ok ((s.elementData.drop s.offset).take typeSize) moved

def readPrimitiveFrom (typeSize offs : Nat) : StreamM (List UInt8) := fun s =>
  if offs + typeSize > s.size then .error (.streamIndexOutOfBounds (offs + typeSize : Nat)) s
  else .ok ((s.elementData.drop offs).take typeSize) s

def readByte : StreamM Nat := leNat <$> readPrimitive 1

def readShort : StreamM Nat := leNat <$> readPrimitive 2

def readInt : StreamM Nat := leNat <$> readPrimitive 4

def parseNetShort : StreamM Nat := beNat <$> readPrimitive 2

def parseNetInt : StreamM Nat := beNat <$> readPrimitive 4

def readByteFrom (offs : Nat) : StreamM Nat := leNat <$> readPrimitiveFrom 1 offs

def readShortFrom (offs : Nat) : StreamM Nat := leNat <$> readPrimitiveFrom 2 offs

def readIntFrom (offs : Nat) : StreamM Nat := leNat <$> readPrimitiveFrom 4 offs

def parseNetIntFrom (offs : Nat) : StreamM Nat := beNat <$> readPrimitiveFrom 4 offs

def writeStream (buf : List UInt8) (s : Stream) : Stream :=
  { elementData := s.elementData.take s.offset ++ buf ++ s.elementData.drop (s.offset + buf.length)
    offset := s.offset + buf.length }

def writeByte (val : Nat) (s : Stream) : Stream := s.writeStream (leBytes 1 val)

def writeShort (val : Nat) (s : Stream) : Stream := s.writeStream (leBytes 2 val)

def writeInt (val : Nat) (s : Stream) : Stream := s.writeStream (leBytes 4 val)

def writePrimitiveTo (offs : Nat) (val : List UInt8) : StreamM Unit := fun s =>
  if offs + val.length > s.size then .error (.streamIndexOutOfBounds offs) s
  else .ok () { s with
    elementData := s.elementData.take offs ++ val ++ s.elementData.drop (offs + val.length) }

/-! ### Parsing what follows the cursor -/

def unread (s : Stream) : List UInt8 := s.elementData.drop s.offset

def advance (n : Nat) (s : Stream) : Stream := { s with offset := s.offset + n }

variable (offs : Nat)

theorem setOffset_inside (s : Stream) (hin : offs ≤ s.size) :
    setOffset offs s = .ok () { s with offset := offs } :=
  if_neg (Nat.not_lt.mpr hin)

theorem shiftOffset_inside (s : Stream) (hin : s.offset + offs ≤ s.size) :
    shiftOffset offs s = .ok () (s.advance offs) :=
  setOffset_inside _ s hin

variable (s : Stream)

theorem unread_advance (bytes back : List UInt8) (next : s.unread = bytes ++ back) (n : Nat)
    (len : bytes.length = n) : (s.advance n).unread = back := by
  simp only [unread, advance] at next ⊢
  rw [← drop_drop, next, ← len, drop_left]

theorem inside_of_unread {bytes : List UInt8} (back : List UInt8) (some : bytes ≠ [])
    (next : s.unread = bytes ++ back) : s.offset + bytes.length ≤ s.size := by
  have total : s.size - s.offset = bytes.length + back.length := by
    simpa [unread, size] using congrArg length next
  have pos := length_pos_iff.mpr some
  omega

theorem readPrimitive_unread {bytes : List UInt8} (back : List UInt8) (some : bytes ≠ [])
    (next : s.unread = bytes ++ back) :
    readPrimitive bytes.length s = .ok bytes (s.advance bytes.length) := by
  have hin := inside_of_unread s back some next
  have taken : (s.elementData.drop s.offset).take bytes.length = bytes := by
    have front : (s.elementData.drop s.offset) = bytes ++ back := next
    rw [front, take_left]
  simp only [readPrimitive, shiftOffset_inside _ s hin, taken]

private theorem map_readPrimitive_unread (decode : List UInt8 → Nat) (s : Stream)
    (bytes back : List UInt8) (n : Nat) (len : bytes.length = n) (pos : 0 < n)
    (next : s.unread = bytes ++ back) :
    (decode <$> readPrimitive n) s = .ok (decode bytes) (s.advance n) := by
  change EStateM.map decode (readPrimitive n) s = _
  subst len
  simp only [EStateM.map, readPrimitive_unread s back (length_pos_iff.mp pos) next]

variable (v : Nat) (back : List UInt8)

theorem readByte_unread (next : s.unread = leBytes 1 v ++ back) :
    readByte s = .ok (v % 256) (s.advance 1) := by
  rw [readByte, map_readPrimitive_unread leNat s _ back 1 (length_leBytes 1 v) (by decide) next,
    leNat_leBytes]
  rfl

theorem readShort_unread (next : s.unread = leBytes 2 v ++ back) :
    readShort s = .ok (v % 65536) (s.advance 2) := by
  rw [readShort, map_readPrimitive_unread leNat s _ back 2 (length_leBytes 2 v) (by decide) next,
    leNat_leBytes]
  rfl

theorem readInt_unread (next : s.unread = leBytes 4 v ++ back) :
    readInt s = .ok (v % 4294967296) (s.advance 4) := by
  rw [readInt, map_readPrimitive_unread leNat s _ back 4 (length_leBytes 4 v) (by decide) next,
    leNat_leBytes]
  rfl

theorem parseNetShort_unread (next : s.unread = beBytes 2 v ++ back) :
    parseNetShort s = .ok (v % 65536) (s.advance 2) := by
  rw [parseNetShort,
    map_readPrimitive_unread beNat s _ back 2 (length_beBytes 2 v) (by decide) next, beNat_beBytes]
  rfl

theorem parseNetInt_unread (next : s.unread = beBytes 4 v ++ back) :
    parseNetInt s = .ok (v % 4294967296) (s.advance 4) := by
  rw [parseNetInt,
    map_readPrimitive_unread beNat s _ back 4 (length_beBytes 4 v) (by decide) next, beNat_beBytes]
  rfl

theorem readShortFrom_at (s : Stream) (v : Nat) (back : List UInt8)
    (bytes : s.elementData.drop offs = leBytes 2 v ++ back) :
    readShortFrom offs s = .ok (v % 65536) s := by
  have hin : ¬ offs + 2 > s.size := by
    have total : s.elementData.length - offs = 2 + back.length := by
      simpa using congrArg length bytes
    simp only [size]
    omega
  have front : (s.elementData.drop offs).take 2 = leBytes 2 v := by
    rw [bytes, take_left' (length_leBytes 2 v)]
  change EStateM.map leNat (readPrimitiveFrom 2 offs) s = _
  simp only [EStateM.map, readPrimitiveFrom, if_neg hin, front, leNat_leBytes]
  rfl

theorem readShortFrom_start {back : List UInt8} (bytes : s.elementData = leBytes 2 v ++ back) :
    readShortFrom 0 s = .ok (v % 65536) s :=
  readShortFrom_at 0 s v back bytes

theorem writeStream_at_end (buf : List UInt8) (s : Stream) (atEnd : s.offset = s.size) :
    s.writeStream buf = ⟨s.elementData ++ buf, s.size + buf.length⟩ := by
  simp only [writeStream, atEnd, size, take_length, mk.injEq, and_true]
  rw [drop_eq_nil_of_le (Nat.le_add_right _ _), append_nil]

theorem size_setSize (len : Nat) (s : Stream) : (s.setSize len).size = len := by
  simp only [setSize, size, length_append, length_take, length_replicate]
  omega

theorem writeStream_writeStream (a b : List UInt8) {s : Stream} (hin : s.offset ≤ s.size) :
    (s.writeStream a).writeStream b = s.writeStream (a ++ b) := by
  have front : (s.elementData.take s.offset ++ a).length = s.offset + a.length := by
    simp only [length_append, length_take]
    simp only [size] at hin
    omega
  have kept : (s.elementData.take s.offset ++ a ++ s.elementData.drop (s.offset + a.length)).drop
      (s.offset + a.length + b.length) = s.elementData.drop (s.offset + a.length + b.length) := by
    rw [← drop_drop, drop_left' front, drop_drop]
  simp only [writeStream, take_left' front, kept]
  simp only [length_append, append_assoc, Nat.add_assoc]

theorem writeStream_over {buf : List UInt8} {s : Stream} (start : s.offset = 0)
    (covers : s.size ≤ buf.length) : s.writeStream buf = ⟨buf, buf.length⟩ := by
  simp [writeStream, start, drop_eq_nil_of_le covers]

end Stream

end Engine3
