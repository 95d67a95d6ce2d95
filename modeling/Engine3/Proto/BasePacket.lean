import Engine3.System.Stream
import Engine3.System.SortedVector

/-!
# Packets

`engine/service/proto/BasePacket`: a stream with a sequence number and the flags that
say which stages of the codec apply to it, and the sequence-less control packets of
`engine/service/proto/packets`. Time stamps are left out, nothing modelled reads them.
-/
namespace Engine3

open Bytes

structure BasePacket extends Stream where
  sequence : Nat
  doSeq : Bool
  doEncr : Bool
  doComp : Bool
  doCRCTest : Bool
  deriving DecidableEq, Repr

namespace BasePacket

def new : BasePacket :=
  { toStream := Stream.empty, sequence := 0, doSeq := true, doEncr := true, doComp := false,
    doCRCTest := true }

def copyOf (pack : Stream) (seq : Nat) : BasePacket :=
  { new with toStream := pack, sequence := seq }

def ofBytes (bytes : List UInt8) : BasePacket :=
  { new with toStream := ⟨bytes, bytes.length⟩ }

def onStream {α : Type} (m : StreamM α) : EStateM Exception BasePacket α := fun pack =>
  match m pack.toStream with
  | .ok a s => .ok a { pack with toStream := s }
  | .error e s => .error e { pack with toStream := s }

def compareTo (this pack : BasePacket) : Int :=
  if this.sequence < pack.sequence then 1
  else if this.sequence > pack.sequence then -1
  else 0

def close (pack : BasePacket) : BasePacket :=
  let pack := if pack.size < 100 then { pack with doComp := false } else pack
  { pack with
    toStream := ((pack.toStream.writeByte pack.doComp.toNat).writeByte 0).writeByte 0 }

def setSequence (seq : Nat) : EStateM Exception BasePacket Unit := fun pack =>
  onStream (Stream.writePrimitiveTo 2 (beBytes 2 seq)) { pack with sequence := seq }

def getSequence (pack : BasePacket) : Nat := if pack.doSeq then pack.sequence else 0xFFFFFFFF

def isDataChannelPacket : StreamM Bool := (· == 0x0900) <$> Stream.readShortFrom 0

def isMultiPacket : StreamM Bool := do
  if (← Stream.readShortFrom 0) == 0x0300 then pure true
  else (· == 0x1900) <$> Stream.readShortFrom 4

def control (opcode value : Nat) : BasePacket :=
  { ofBytes (leBytes 2 opcode ++ beBytes 2 value) with doSeq := false }

def acknowledgeMessage (seq : Nat) : BasePacket := control 0x1500 seq

def outOfOrderMessage (seq : Nat) : BasePacket := control 0x1100 seq

def netStatusResponseMessage (tick : Nat) : BasePacket :=
  { ofBytes (leBytes 2 0x0800 ++ beBytes 2 tick ++ List.replicate 36 0) with
    doSeq := false, doComp := true, doCRCTest := false }

def disconnectMessage (connectionID : Nat) : BasePacket :=
  { ofBytes (leBytes 2 0x0500 ++ leBytes 4 connectionID ++ leBytes 2 0x0600) with doSeq := false }

theorem compareTo_orderedBy : SortedVector.OrderedBy compareTo sequence where
  pos := by
    intro a b
    simp only [compareTo]
    split
    · omega
    · split <;> omega
  zero := by
    intro a b
    simp only [compareTo]
    split
    · omega
    · split <;> omega

def compresses (pack : BasePacket) : Bool := pack.doComp && decide (100 ≤ pack.size)

theorem close_at_end (pack : BasePacket) (atEnd : pack.offset = pack.size) :
    pack.close = { pack with
      elementData := pack.elementData ++ [UInt8.ofNat pack.compresses.toNat, 0, 0]
      offset := pack.size + 3
      doComp := pack.compresses } := by
  have append : ∀ flag : UInt8,
      ((pack.toStream.writeStream [flag]).writeStream [0]).writeStream [0] =
      ⟨pack.elementData ++ [flag, 0, 0], pack.size + 3⟩ := by
    intro flag
    rw [Stream.writeStream_writeStream _ _ (Nat.le_of_eq atEnd),
      Stream.writeStream_writeStream _ _ (Nat.le_of_eq atEnd),
      Stream.writeStream_at_end _ _ atEnd]
    rfl
  by_cases lt : pack.size < 100
  · have off : pack.compresses = false := by simp [compresses, lt]
    rw [close, if_pos lt, off]
    exact congrArg (fun s => { pack with toStream := s, doComp := false }) (append 0)
  · have eq : pack.compresses = pack.doComp := by
      simp [compresses, Nat.not_lt.mp lt]
    rw [close, if_neg lt, eq]
    simp only [Stream.writeByte, leBytes]
    have flag : UInt8.ofNat (pack.doComp.toNat % 256) = UInt8.ofNat pack.doComp.toNat := by
      cases pack.doComp <;> rfl
    rw [flag]
    exact congrArg (fun s => { pack with toStream := s }) (append _)

end BasePacket

end Engine3
