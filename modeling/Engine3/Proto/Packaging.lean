import Engine3.Library.MachineInt
import Engine3.Proto.BasePacket

/-!
# Multi packets and fragments

`engine/service/proto/BaseMultiPacket` joins small Data Channel packets into one, and
`engine/service/proto/BaseFragmentedPacket` cuts a large one into pieces and, on the
other side, collects the pieces again.
-/
namespace Engine3

open Bytes MachineInt

structure BaseMultiPacket extends BasePacket where
  singlePacket : Option BasePacket
  deriving DecidableEq, Repr

namespace BaseMultiPacket

def new (pack : BasePacket) : BaseMultiPacket :=
  { toBasePacket := BasePacket.new, singlePacket := some pack }

def insertPacket (pack : BasePacket) (multi : Stream) : Stream :=
  let size := pack.size - 4
  let lengthField := if size ≥ 0xFF then leBytes 1 0xFF ++ beBytes 2 size else leBytes 1 size
  (multi.writeStream lengthField).writeStream ((pack.elementData.drop 4).take size)

def openMulti (multi : BaseMultiPacket) : BaseMultiPacket :=
  match multi.singlePacket with
  | none => multi
  | some single =>
    let header := ((multi.toStream.writeShort 0x0900).writeShort 0).writeShort 0x1900
    { multi with
      toStream := insertPacket single header
      doComp := single.doComp
      singlePacket := none }

def add (pack : BasePacket) (multi : BaseMultiPacket) : Bool × BaseMultiPacket :=
  let multi := multi.openMulti
  if multi.size + pack.size > 460 then (false, multi)
  else (true, { multi with
    toStream := insertPacket pack multi.toStream
    doComp := multi.doComp || pack.doComp })

def getPacket (multi : BaseMultiPacket) : BasePacket :=
  multi.singlePacket.getD multi.toBasePacket

end BaseMultiPacket

structure BaseFragmentedPacket extends BasePacket where
  singlePacket : Option BasePacket
  totalSize : Int
  deriving DecidableEq, Repr

namespace BaseFragmentedPacket

def maxCompleteFragSize : Int := 1500000

def new (pack : Option BasePacket) : BaseFragmentedPacket :=
  { toBasePacket := BasePacket.new, singlePacket := pack, totalSize := 0 }

def appendFragment (pack : Stream) (frag : BaseFragmentedPacket) : Bool × BaseFragmentedPacket :=
  let readBytes : Int := (pack.size : Int) - pack.offset
  let readBytes := if readBytes + frag.size > frag.totalSize then frag.totalSize - frag.size
    else readBytes
  if readBytes < 0 then (false, frag)
  else (true, { frag with
    toStream := frag.toStream.writeStream
      ((pack.elementData.drop pack.offset).take readBytes.toNat) })

def addFragment (pack : Stream) (frag : BaseFragmentedPacket) :
    Except Exception (Bool × BaseFragmentedPacket) :=
  if frag.totalSize = 0 then
    match Stream.parseNetInt pack with
    | .error e _ => .error e
    | .ok announced pack =>
      let frag := { frag with totalSize := i32 announced }
      if frag.totalSize < 0 ∨ frag.totalSize > maxCompleteFragSize then .ok (false, frag)
      else if frag.totalSize = 0 then .ok (false, frag)
      else .ok (appendFragment pack frag)
  else .ok (appendFragment pack frag)

def isComplete (frag : BaseFragmentedPacket) : Except Exception Bool :=
  if frag.size < frag.totalSize then .ok false
  else if frag.size = frag.totalSize then .ok true
  else .error (.plain "fragmented packet exceeded size")

def hasFragments (frag : BaseFragmentedPacket) : Bool :=
  match frag.singlePacket with
  | none => false
  | some single => frag.totalSize < single.size

def getFragment (frag : BaseFragmentedPacket) : BasePacket × BaseFragmentedPacket :=
  match frag.singlePacket with
  | none => (BasePacket.new, frag)
  | some single =>
    let header := leBytes 2 0x0D00 ++ leBytes 2 0
    let first := frag.totalSize == 0
    let header := if first then header ++ beBytes 4 (single.size - 4) else header
    let start : Int := if first then 4 else frag.totalSize
    let fragsize : Int := if first then 496 - 8 - 3 else min (496 - 4 - 3) (single.size - start)
    ({ BasePacket.ofBytes
        (header ++ (single.elementData.drop start.toNat).take fragsize.toNat) with doComp := true },
      { frag with totalSize := start + fragsize })

end BaseFragmentedPacket

end Engine3
