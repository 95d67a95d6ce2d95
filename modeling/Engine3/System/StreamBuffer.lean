import Engine3.Library.CheckedMemory
import Engine3.Library.MachineInt
import Engine3.System.Stream

/-!
# Streams as three pointers

`system/io/Stream` keeps `elementData`, `offset` and `end`. The methods do arithmetic with
these pointers and take `int`s, so that the cursor and the end may be anywhere. Here the
cursor and the end are signed distances from `elementData`, and the memory is whatever stands at
a distance, whether it was written, left over from before or never initialised. An access
outside the data stops the run.

Where the cursor is inside the data, the methods are those of `Stream`.
-/
namespace Engine3

open Bytes Exec CheckedMemory MachineInt

structure StreamBuffer where
  memory : Int → UInt8
  size : Int
  offset : Int

abbrev BufferM := EStateM (Fault Exception) StreamBuffer

namespace StreamBuffer

variable {α : Type}

def bytesAt (memory : Int → UInt8) (start : Int) (n : Nat) : List UInt8 :=
  (List.range n).map fun i => memory (start + (i : Nat))

def overwrite (memory : Int → UInt8) (start : Int) (bytes : List UInt8) : Int → UInt8 := fun i =>
  if start ≤ i ∧ i < start + bytes.length then bytes.getD (i - start).toNat 0 else memory i

def Covers (b : StreamBuffer) (start : Int) (n : Nat) : Prop :=
  n = 0 ∨ 0 ≤ start ∧ start + n ≤ b.size

instance (b : StreamBuffer) (start : Int) (n : Nat) : Decidable (b.Covers start n) :=
  inferInstanceAs (Decidable (_ ∨ _))

def copyFrom (start : Int) (n : Nat) : BufferM (List UInt8) := fun b =>
  if b.Covers start n then .ok (bytesAt b.memory start n) b else .error (.outOfBounds start) b

def copyTo (start : Int) (bytes : List UInt8) : BufferM Unit := fun b =>
  if b.Covers start bytes.length then
    .ok () { b with memory := overwrite b.memory start bytes }
  else .error (.outOfBounds start) b

def setOffset (offs : Int) : BufferM Unit := fun b =>
  -- the cursor is assigned before it is compared, and only with the end
  if offs > b.size then .error (.thrown (.streamIndexOutOfBounds offs)) { b with offset := offs }
  else .ok () { b with offset := offs }

def shiftOffset (offs : Int) : BufferM Unit := fun b => setOffset (b.offset + offs) b

def reset : BufferM Unit := modify fun b => { b with offset := 0 }

def setSize (len : Int) (lost : Option (Int → UInt8)) : BufferM Unit :=
  modify fun b => { b with memory := lost.getD b.memory, size := len }

def extendSize (len : Int) : BufferM Unit :=
  modify fun b => { b with offset := b.offset + len, size := max b.size (b.offset + len) }

def clear : BufferM Unit := modify fun b => { b with size := 0, offset := 0 }

def removeLastBytes (len : Int) : BufferM Unit := fun b =>
  if b.size - len < 0 then .error (.thrown (.streamIndexOutOfBounds (b.size - len))) b
  else setSize (b.size - len) none b

def removeRange (fromIndex toIndex : Int) : BufferM Unit := fun b =>
  if fromIndex < 0 then .error (.thrown (.arrayIndexOutOfBounds fromIndex)) b
  else if toIndex > b.size then .error (.thrown (.arrayIndexOutOfBounds toIndex)) b
  else if fromIndex > toIndex then .error (.thrown (.plain "IllegalArgumentException")) b
  else
    let removed := toIndex - fromIndex
    .ok () { b with
      memory := fun i =>
        if fromIndex ≤ i ∧ i < b.size - removed then b.memory (i + removed) else b.memory i
      size := b.size - removed }

def removeAll : BufferM Unit := fun b => removeRange 0 b.size b

/-! ### Writing -/

def writeStream (buf : List UInt8) : BufferM Unit := do
  if buf.length ≠ 0 then
    extendSize buf.length
    copyTo ((← get).offset - buf.length) buf

def writePrimitiveTo (offs : Int) (val : List UInt8) : BufferM Unit := fun b =>
  if offs + val.length > b.size then .error (.thrown (.streamIndexOutOfBounds offs)) b
  else copyTo offs val b

def writeStreamPart (stream : Option (List UInt8)) (len : Nat) : BufferM Unit := fun b =>
  if len > (stream.getD []).length then .error (.thrown (.streamIndexOutOfBounds len)) b
  else writeStream ((stream.getD []).take len) b

def writeStreamTo (stream : Option (List UInt8)) (len : Nat) (offs : Int) : BufferM Unit := fun b =>
  if len > (stream.getD []).length then .error (.thrown (.streamIndexOutOfBounds len)) b
  else
    match stream with
    | none => .ok () b
    | some buffer =>
      copyTo offs (buffer.take len)
        (if offs + len > b.size then { b with size := offs + len } else b)

def insertStream (stream : Option (List UInt8)) (len : Nat) (offs : Int) : BufferM Unit := fun b =>
  if len > (stream.getD []).length then .error (.thrown (.streamIndexOutOfBounds len)) b
  else
    match stream with
    | none => .ok () b
    | some buffer =>
      if offs > b.size then writeStreamPart stream len b
      -- the index is taken for a `uint32`, so a negative one is behind every element
      else if offs < 0 ∧ buffer ≠ [] then .error (.thrown (.arrayIndexOutOfBounds offs)) b
      else
        .ok () { b with
          memory := fun i =>
            if i < offs then b.memory i
            else if i < offs + buffer.length then buffer.getD (i - offs).toNat 0
            else if i < b.size + buffer.length then b.memory (i - buffer.length)
            else b.memory i
          size := b.size + buffer.length }

def readStream (len : Nat) : BufferM (List UInt8) := do
  shiftOffset len
  copyFrom ((← get).offset - len) len

def readPrimitiveFrom (typeSize : Nat) (offs : Int) : BufferM (List UInt8) := fun b =>
  if offs + typeSize > b.size then
    .error (.thrown (.streamIndexOutOfBounds (offs + typeSize))) b
  else copyFrom offs typeSize b

def readShort : BufferM Nat := leNat <$> readStream 2

def readInt : BufferM Nat := leNat <$> readStream 4

def readShortFrom (offs : Int) : BufferM Nat := leNat <$> readPrimitiveFrom 2 offs

def readIntFrom (offs : Int) : BufferM Nat := leNat <$> readPrimitiveFrom 4 offs

def ofBytes (bytes : List UInt8) : StreamBuffer :=
  { memory := fun i => bytes.getD i.toNat 0, size := bytes.length, offset := 0 }

/-! ### The stream that a buffer stands for -/

def toStream (b : StreamBuffer) : Stream := ⟨bytesAt b.memory 0 b.size.toNat, b.offset.toNat⟩

def onStream : EStateM.Result (Fault Exception) StreamBuffer α →
    Option (EStateM.Result Exception Stream α)
  | .ok a b => some (.ok a b.toStream)
  | .error (.thrown e) b => some (.error e b.toStream)
  | .error _ _ => none

/-- The cursor is in the data or right behind them. -/
def Inside (b : StreamBuffer) : Prop := 0 ≤ b.offset ∧ b.offset ≤ b.size

instance (b : StreamBuffer) : Decidable b.Inside := inferInstanceAs (Decidable (_ ∧ _))

section Memory

variable (memory : Int → UInt8) (start : Int)

@[simp] theorem length_bytesAt (n : Nat) : (bytesAt memory start n).length = n := by
  simp [bytesAt]

theorem getElem_bytesAt (n i : Nat) (hin : i < (bytesAt memory start n).length) :
    (bytesAt memory start n)[i] = memory (start + i) := by
  simp only [bytesAt, List.getElem_map, List.getElem_range]

theorem bytesAt_congr (memory' : Int → UInt8) {start' : Int} {n : Nat}
    (eq : ∀ i : Nat, i < n → memory (start + i) = memory' (start' + i)) :
    bytesAt memory start n = bytesAt memory' start' n := by
  refine List.ext_getElem (by simp) fun i left right => ?_
  rw [getElem_bytesAt, getElem_bytesAt, eq i (by simpa using left)]

theorem take_drop_bytesAt (n k len : Nat) (hin : k + len ≤ n) :
    ((bytesAt memory start n).drop k).take len = bytesAt memory (start + k) len := by
  apply List.ext_getElem
  · simp
    omega
  · intro i left right
    simp only [List.getElem_take, List.getElem_drop, getElem_bytesAt]
    congr 1
    omega

theorem bytesAt_overwrite (bytes : List UInt8) :
    bytesAt (overwrite memory start bytes) start bytes.length = bytes := by
  refine List.ext_getElem (by simp) fun i left right => ?_
  have here : start ≤ start + i ∧ start + i < start + bytes.length := by omega
  simp [getElem_bytesAt, overwrite, here, right]

theorem overwrite_nil : overwrite memory start [] = memory := by
  funext i
  exact if_neg (by simp)

theorem take_bytesAt (n k : Nat) (hin : k ≤ n) :
    (bytesAt memory start n).take k = bytesAt memory start k := by
  simpa using take_drop_bytesAt memory start n 0 k (by omega)

theorem drop_bytesAt (n k : Nat) :
    (bytesAt memory start n).drop k = bytesAt memory (start + k) (n - k) := by
  refine List.ext_getElem (by simp) fun i left right => ?_
  rw [List.getElem_drop, getElem_bytesAt, getElem_bytesAt]
  congr 1
  omega

theorem bytesAt_add (a c : Nat) :
    bytesAt memory start (a + c) = bytesAt memory start a ++ bytesAt memory (start + a) c := by
  rw [← List.take_append_drop a (bytesAt memory start (a + c)),
    take_bytesAt memory start (a + c) a (by omega), drop_bytesAt, Nat.add_sub_cancel_left]

theorem bytesAt_zero_overwrite (bytes : List UInt8) (k n : Nat) (fits : k + bytes.length ≤ n) :
    bytesAt (overwrite memory k bytes) 0 n =
      bytesAt memory 0 k ++ bytes ++
        bytesAt memory (k + bytes.length) (n - (k + bytes.length)) := by
  have before : bytesAt (overwrite memory k bytes) 0 k = bytesAt memory 0 k :=
    bytesAt_congr _ _ _ fun i low => if_neg (by omega)
  have behind : bytesAt (overwrite memory k bytes) (k + bytes.length) (n - (k + bytes.length)) =
      bytesAt memory (k + bytes.length) (n - (k + bytes.length)) :=
    bytesAt_congr _ _ _ fun i low => if_neg (by omega)
  obtain ⟨rest, rfl⟩ := Nat.exists_eq_add_of_le fits
  rw [Nat.add_sub_cancel_left] at behind ⊢
  rw [bytesAt_add, bytesAt_add, before, Int.zero_add, bytesAt_overwrite, Int.zero_add,
    Int.natCast_add, behind]

end Memory

theorem bytesAt_ofBytes (bytes : List UInt8) (start n : Nat) (hin : start + n ≤ bytes.length) :
    bytesAt (ofBytes bytes).memory start n = (bytes.drop start).take n := by
  apply List.ext_getElem
  · simp
    omega
  · intro i left right
    rw [length_bytesAt] at left
    have index : ((start : Int) + i).toNat = start + i := by omega
    have found : start + i < bytes.length := by omega
    simp [getElem_bytesAt, ofBytes, index, found]

/-! ### Methods inside the data -/

section Reads

variable (b : StreamBuffer)

variable {offs : Int} {n : Nat}

theorem shiftOffset_inside (fits : b.offset + offs ≤ b.size) :
    shiftOffset offs b = .ok () { b with offset := b.offset + offs } :=
  if_neg (not_lt.mpr fits)

theorem shiftOffset_outside (beyond : b.size < b.offset + offs) :
    shiftOffset offs b = .error (.thrown (.streamIndexOutOfBounds (b.offset + offs)))
      { b with offset := b.offset + offs } :=
  if_pos beyond

theorem readStream_inside (low : 0 ≤ b.offset) (fits : b.offset + n ≤ b.size) :
    readStream n b = .ok (bytesAt b.memory b.offset n) { b with offset := b.offset + n } := by
  have start : b.offset + (n : Int) - n = b.offset := by omega
  have covers : Covers { b with offset := b.offset + n } b.offset n :=
    .inr ⟨low, fits⟩
  rw [readStream, bind_of_ok (shiftOffset_inside b fits), get_bind]
  simp only [copyFrom, start, if_pos covers]

theorem readStream_outside (beyond : b.size < b.offset + n) :
    readStream n b = .error (.thrown (.streamIndexOutOfBounds (b.offset + n)))
      { b with offset := b.offset + n } := by
  rw [readStream, bind_of_error (shiftOffset_outside b beyond)]

theorem readStream_negative (neg : b.offset < 0) (some : 0 < n)
    (fits : b.offset + n ≤ b.size) :
    readStream n b = .error (.outOfBounds b.offset) { b with offset := b.offset + n } := by
  have start : b.offset + (n : Int) - n = b.offset := by omega
  have out : ¬ Covers { b with offset := b.offset + n } b.offset n := by
    rintro (none | ⟨low, _⟩)
    · omega
    · omega
  rw [readStream, bind_of_ok (shiftOffset_inside b fits), get_bind]
  simp only [copyFrom, start, if_neg out]

theorem readInt_inside (low : 0 ≤ b.offset) (fits : b.offset + 4 ≤ b.size) :
    readInt b = .ok (leNat (bytesAt b.memory b.offset 4)) { b with offset := b.offset + 4 } :=
  map_ok leNat (readStream_inside b low fits)

theorem readShort_inside (low : 0 ≤ b.offset) (fits : b.offset + 2 ≤ b.size) :
    readShort b = .ok (leNat (bytesAt b.memory b.offset 2)) { b with offset := b.offset + 2 } :=
  map_ok leNat (readStream_inside b low fits)

theorem readPrimitiveFrom_inside (low : 0 ≤ offs) (fits : offs + n ≤ b.size) :
    readPrimitiveFrom n offs b = .ok (bytesAt b.memory offs n) b := by
  have covers : b.Covers offs n := .inr ⟨low, fits⟩
  simp only [readPrimitiveFrom, copyFrom, if_neg (not_lt.mpr fits), if_pos covers]

end Reads

@[simp] theorem size_toStream (b : StreamBuffer) : b.toStream.size = b.size.toNat := by
  simp [toStream, Stream.size]

section Inside

variable (b : StreamBuffer) (inside : b.Inside)
include inside

theorem setOffset_onStream (offs : Nat) :
    onStream (setOffset offs b) = some (Stream.setOffset offs b.toStream) := by
  obtain ⟨low, high⟩ := inside
  have compared : (offs : Int) > b.size ↔ offs > b.toStream.size := by
    rw [size_toStream]
    omega
  simp only [setOffset, Stream.setOffset, compared]
  split <;> simp [onStream, toStream]

theorem shiftOffset_onStream (offs : Nat) :
    onStream (shiftOffset offs b) = some (Stream.shiftOffset offs b.toStream) := by
  have sum : b.offset + offs = ((b.toStream.offset + offs : Nat) : Int) := by
    have := inside.1
    simp only [toStream]
    omega
  rw [shiftOffset, sum, setOffset_onStream b inside]
  rfl

theorem readStream_onStream (n : Nat) :
    onStream (readStream n b) = some (Stream.readPrimitive n b.toStream) := by
  obtain ⟨low, high⟩ := inside
  have moved := shiftOffset_onStream b ⟨low, high⟩ n
  by_cases short : b.offset + n > b.size
  · -- the cursor stays where it was moved to, behind the end
    have thrown : shiftOffset n b = .error (.thrown (.streamIndexOutOfBounds (b.offset + n)))
        { b with offset := b.offset + n } := if_pos short
    rw [readStream, bind_of_error thrown]
    rw [thrown] at moved
    simp only [onStream, Option.some.injEq] at moved ⊢
    rw [Stream.readPrimitive, ← moved]
  · have shifted : shiftOffset n b = .ok () { b with offset := b.offset + n } := if_neg short
    rw [shifted] at moved
    simp only [onStream, Option.some.injEq] at moved
    have covers : Covers { b with offset := b.offset + n } b.offset n :=
      .inr ⟨low, by simpa using short⟩
    have start : b.offset + (n : Int) - n = b.offset := by omega
    rw [readStream, bind_of_ok shifted, get_bind]
    rw [Stream.readPrimitive, ← moved]
    simp only [copyFrom, start, if_pos covers, onStream, Option.some.injEq, EStateM.Result.ok.injEq,
      and_true]
    have taken := take_drop_bytesAt b.memory 0 b.size.toNat b.offset.toNat n (by omega)
    rw [toStream, taken]
    congr 1
    omega

theorem readPrimitiveFrom_onStream (n offs : Nat) :
    onStream (readPrimitiveFrom n offs b) = some (Stream.readPrimitiveFrom n offs b.toStream) := by
  obtain ⟨low, high⟩ := inside
  have compared : (offs : Int) + n > b.size ↔ offs + n > b.toStream.size := by
    rw [size_toStream]
    omega
  simp only [readPrimitiveFrom, Stream.readPrimitiveFrom, compared]
  split
  · simp [onStream]
  next fits =>
    have covers : b.Covers offs n := .inr ⟨by omega, by omega⟩
    have taken := take_drop_bytesAt b.memory 0 b.size.toNat offs n (by omega)
    rw [Int.zero_add] at taken
    simp only [copyFrom, if_pos covers, onStream, toStream, taken]

theorem removeLastBytes_onStream (len : Nat) :
    onStream (removeLastBytes len b) = some (Stream.removeLastBytes len b.toStream) := by
  obtain ⟨low, high⟩ := inside
  have compared : b.size - len < 0 ↔ b.toStream.size < len := by
    rw [size_toStream]
    omega
  have kept : ((b.size.toNat : Int)) = b.size := by omega
  simp only [removeLastBytes, Stream.removeLastBytes, compared]
  split
  · simp only [onStream, size_toStream, kept]
  next fits =>
    have size : (b.size - len).toNat = b.size.toNat - len := by omega
    have front := take_drop_bytesAt b.memory 0 b.size.toNat 0 (b.size.toNat - len) (by omega)
    simp only [List.drop_zero] at front
    change some (EStateM.Result.ok () (toStream { b with size := b.size - len })) = _
    rw [Stream.setSize, size_toStream]
    simp [toStream, size, front]

theorem writeStream_inside (buf : List UInt8) :
    writeStream buf b = .ok () ⟨overwrite b.memory b.offset buf,
      max b.size (b.offset + buf.length), b.offset + buf.length⟩ := by
  obtain ⟨low, high⟩ := inside
  by_cases empty : buf.length = 0
  · obtain rfl := List.eq_nil_of_length_eq_zero empty
    have eq : max b.size b.offset = b.size := by omega
    simp [writeStream, overwrite_nil, eq, pure, EStateM.pure]
  · have covers : Covers
        { b with offset := b.offset + buf.length, size := max b.size (b.offset + buf.length) }
        b.offset buf.length := .inr ⟨low, by simp only; omega⟩
    have back : b.offset + (buf.length : Int) - buf.length = b.offset := by omega
    rw [writeStream, ite_run_pos empty]
    refine (bind_of_ok (m := extendSize buf.length) rfl).trans ?_
    refine get_bind.trans ?_
    simp only [back, copyTo, if_pos covers]

theorem writeStream_onStream (buf : List UInt8) :
    onStream (writeStream buf b) = some (.ok () (b.toStream.writeStream buf)) := by
  rw [writeStream_inside b inside]
  obtain ⟨low, high⟩ := inside
  have start : ((b.offset.toNat : Nat) : Int) = b.offset := by omega
  generalize grown : max b.size (b.offset + buf.length) = size
  have enough : b.offset.toNat + buf.length ≤ size.toNat := by omega
  simp only [onStream, toStream, Stream.writeStream, Option.some.injEq, EStateM.Result.ok.injEq,
    Stream.mk.injEq, true_and]
  constructor
  · -- what stands behind the written bytes is only there if the buffer did not grow
    have parts := bytesAt_zero_overwrite b.memory buf b.offset.toNat size.toNat enough
    have rest : size.toNat - (b.offset.toNat + buf.length) =
        b.size.toNat - (b.offset.toNat + buf.length) := by omega
    rw [start] at parts
    rw [parts, take_bytesAt _ _ _ _ (by omega), drop_bytesAt, rest]
    simp [start]
  · omega

theorem writePrimitiveTo_onStream (offs : Nat) (val : List UInt8) :
    onStream (writePrimitiveTo offs val b) =
      some (Stream.writePrimitiveTo offs val b.toStream) := by
  obtain ⟨low, high⟩ := inside
  have compared : (offs : Int) + val.length > b.size ↔ offs + val.length > b.toStream.size := by
    rw [size_toStream]
    omega
  simp only [writePrimitiveTo, Stream.writePrimitiveTo, compared]
  split
  · simp [onStream]
  next fits =>
    have covers : b.Covers offs val.length := .inr ⟨by omega, by omega⟩
    have parts := bytesAt_zero_overwrite b.memory val offs b.size.toNat (by omega)
    simp only [copyTo, if_pos covers, onStream, toStream, parts, drop_bytesAt,
      take_bytesAt b.memory 0 b.size.toNat offs (by omega)]
    simp

end Inside

end StreamBuffer

/-! ### Clients of a stream -/

inductive StreamCall
  | setOffset (offs : Nat)
  | shiftOffset (offs : Nat)
  | removeLastBytes (len : Nat)
  | readStream (len : Nat)
  | readPrimitiveFrom (typeSize offs : Nat)
  | writeStream (buf : List UInt8)
  | writePrimitiveTo (offs : Nat) (val : List UInt8)

inductive StreamClient
  | finished
  | call (c : StreamCall) (next : List UInt8 → StreamClient)

def StreamClient.run {m : Type → Type} [Monad m] (perform : StreamCall → m (List UInt8)) :
    StreamClient → m (List (List UInt8))
  | finished => pure []
  | call c next => do
    let answer ← perform c
    let answers ← (next answer).run perform
    return answer :: answers

def Stream.performCall : StreamCall → StreamM (List UInt8)
  | .setOffset offs => do setOffset offs; return []
  | .shiftOffset offs => do shiftOffset offs; return []
  | .removeLastBytes len => do removeLastBytes len; return []
  | .readStream len => readPrimitive len
  | .readPrimitiveFrom typeSize offs => readPrimitiveFrom typeSize offs
  | .writeStream buf => do modify (writeStream buf); return []
  | .writePrimitiveTo offs val => do writePrimitiveTo offs val; return []

namespace StreamBuffer

variable {α : Type}

def performCall : StreamCall → BufferM (List UInt8)
  | .setOffset offs => do setOffset offs; return []
  | .shiftOffset offs => do shiftOffset offs; return []
  | .removeLastBytes len => do removeLastBytes len; return []
  | .readStream len => readStream len
  | .readPrimitiveFrom typeSize offs => readPrimitiveFrom typeSize offs
  | .writeStream buf => do writeStream buf; return []
  | .writePrimitiveTo offs val => do writePrimitiveTo offs val; return []

/-- The cursor is inside the data whenever the client makes a call. -/
def StaysInside : StreamClient → StreamBuffer → Prop
  | .finished, _ => True
  | .call c next, b => b.Inside ∧
      ∀ answer b', performCall c b = .ok answer b' → StaysInside (next answer) b'

theorem onStream_bind {β : Type} {m : BufferM α} {m' : StreamM α} {f : α → BufferM β}
    {f' : α → StreamM β} {b : StreamBuffer} (first : onStream (m b) = some (m' b.toStream))
    (rest : ∀ a b', m b = .ok a b' → onStream (f a b') = some (f' a b'.toStream)) :
    onStream ((m >>= f) b) = some ((m' >>= f') b.toStream) := by
  cases ran : m b with
  | ok a b' =>
    rw [ran] at first
    have same : m' b.toStream = .ok a b'.toStream := (Option.some.inj first).symm
    rw [bind_of_ok ran, bind_of_ok same]
    exact rest a b' ran
  | error fault b' =>
    rw [ran] at first
    cases fault with
    | thrown e =>
      have same : m' b.toStream = .error e b'.toStream := (Option.some.inj first).symm
      rw [bind_of_error ran, bind_of_error same]
      rfl
    | _ => cases first

theorem performCall_onStream (c : StreamCall) (b : StreamBuffer) (inside : b.Inside) :
    onStream (performCall c b) = some (Stream.performCall c b.toStream) := by
  cases c with
  | setOffset offs => exact onStream_bind (setOffset_onStream b inside offs) fun _ _ _ => rfl
  | shiftOffset offs => exact onStream_bind (shiftOffset_onStream b inside offs) fun _ _ _ => rfl
  | removeLastBytes len =>
    exact onStream_bind (removeLastBytes_onStream b inside len) fun _ _ _ => rfl
  | readStream len => exact readStream_onStream b inside len
  | readPrimitiveFrom typeSize offs => exact readPrimitiveFrom_onStream b inside typeSize offs
  | writeStream buf => exact onStream_bind (writeStream_onStream b inside buf) fun _ _ _ => rfl
  | writePrimitiveTo offs val =>
    exact onStream_bind (writePrimitiveTo_onStream b inside offs val) fun _ _ _ => rfl

/-- Inside the data a client gets the same from three pointers as from the list. -/
theorem run_onStream (client : StreamClient) (b : StreamBuffer) (inside : StaysInside client b) :
    onStream (client.run performCall b) = some (client.run Stream.performCall b.toStream) := by
  induction client generalizing b with
  | finished => rfl
  | call c next ih =>
    refine onStream_bind (performCall_onStream c b inside.1) fun answer b' ran => ?_
    exact onStream_bind (ih answer b' (inside.2 answer b' ran)) fun _ _ _ => rfl

theorem run_onStream_copy :
    let client := StreamClient.call (.readStream 1) fun length =>
      .call (.readStream (leNat length)) fun bytes => .call (.writeStream bytes) fun _ => .finished
    onStream (client.run performCall (ofBytes [2, 65, 66])) =
      some (.ok [[2], [65, 66], []] ⟨[2, 65, 66, 65, 66], 5⟩) := by
  intro client
  refine run_onStream client _ ⟨by decide, ?_⟩
  rintro length read ⟨⟩
  refine ⟨by decide, ?_⟩
  rintro bytes behind ⟨⟩
  exact ⟨by decide, fun _ _ _ => trivial⟩

end StreamBuffer

end Engine3
