import Engine3.Library.Exec
import Engine3.System.Stream

/-!
# IFF streams

`engine/util/iffstream/IffStream` with its chunks. `parseChunks` copies every chunk of a buffer
into a stream of its own, and a form parses its copy again. A parsed stream is visited by opening
and closing chunks: each open chunk, and the stream itself, knows which of its children was
opened last.
-/
namespace Engine3

open Bytes

structure Chunk where
  stream : Stream
  parent : Option Nat
  chunkID : UInt32
  chunkSize : Nat
  formType : UInt32
  subChunks : List Nat
  lastOpenedSubChunk : Int

def Chunk.FORM : UInt32 := 0x464F524D

def Chunk.isFORM (chunk : Chunk) : Bool := chunk.chunkID == FORM

def Chunk.new (parent : Option Nat) (id : UInt32) (data : List UInt8) : Chunk where
  stream := (Stream.empty.writeStream data).reset
  parent := parent
  chunkID := id
  chunkSize := data.length
  formType := 0
  subChunks := []
  lastOpenedSubChunk := -1

structure IffStream where
  chunks : Nat → Chunk
  next : Nat
  mainChunks : List Nat
  lastOpenedChunk : Int
  openedChunk : Option Nat

abbrev IffM := EStateM Exception IffStream

namespace IffStream

def empty : IffStream where
  chunks := fun _ => .new none 0 []
  next := 0
  mainChunks := []
  lastOpenedChunk := -1
  openedChunk := none

def setChunk (a : Nat) (f : Chunk → Chunk) (s : IffStream) : IffStream :=
  { s with chunks := Function.update s.chunks a (f (s.chunks a)) }

def onStream {β : Type} (a : Nat) (m : StreamM β) : IffM β := fun s =>
  match m (s.chunks a).stream with
  | .ok b stream => .ok b (s.setChunk a fun chunk => { chunk with stream })
  | .error e stream => .error e (s.setChunk a fun chunk => { chunk with stream })

/-! ### Parsing -/

def readNetIntFrom (data : List UInt8) (offs : Nat) : IffM Nat := fun s =>
  if offs + 4 ≤ data.length then .ok (beNat ((data.drop offs).take 4)) s
  else .error (.abort "read behind the buffer") s

def createChunk (par : Option Nat) (id size : Nat) (data : List UInt8) (offs : Nat) : IffM Nat :=
  fun s =>
    if offs + size ≤ data.length then
      .ok s.next { s with
        chunks := Function.update s.chunks s.next
          (.new par (UInt32.ofNat id) ((data.drop offs).take size))
        next := s.next + 1 }
    else .error (.abort "read behind the buffer") s

def addChunk (a chunk : Nat) (s : IffStream) : IffStream :=
  s.setChunk a fun c => { c with subChunks := c.subChunks ++ [chunk] }

def parseSubObjects (parseData : Nat → IffM Unit) (a : Nat) : IffM Unit := do
  let type ← onStream a Stream.parseNetInt
  let size ← onStream a Stream.parseNetInt
  let s ← get
  let chunk ← createChunk (some a) type size (s.chunks a).stream.elementData
    (s.chunks a).stream.offset
  parseData chunk
  modify (addChunk a chunk)
  onStream a (Stream.shiftOffset size)

def parseWhileData (parseData : Nat → IffM Unit) : Nat → Nat → IffM Unit
  | 0, _ => throw (.abort "out of fuel")
  | fuel + 1, a => do
    let s ← get
    if (s.chunks a).stream.hasData then
      parseSubObjects parseData a
      parseWhileData parseData fuel a
    else return ()

def parseData : Nat → Nat → IffM Unit
  | 0, _ => throw (.abort "out of fuel")
  | fuel + 1, a => do
    let s ← get
    if (s.chunks a).isFORM then
      let formType ← onStream a Stream.parseNetInt
      modify (setChunk a fun chunk => { chunk with formType := UInt32.ofNat formType })
      parseWhileData (parseData fuel) (fuel + 1) a
    else return ()

def loadMainChunks (data : List UInt8) : Nat → Nat → IffM Unit
  | 0, _ => throw (.abort "out of fuel")
  | fuel + 1, offset =>
    if offset < data.length - 4 then do
      let type ← readNetIntFrom data offset
      let size ← readNetIntFrom data (offset + 4)
      let chunk ← createChunk none type size data (offset + 8)
      parseData fuel chunk
      modify fun s => { s with mainChunks := s.mainChunks ++ [chunk] }
      loadMainChunks data fuel (offset + 8 + size)
    else return ()

def parseChunks (fuel : Nat) (data : List UInt8) : IffM Bool :=
  if data.length < 8 then throw (.plain "InvalidFileTypeException")
  else do
    loadMainChunks data fuel 0
    return true

/-! ### Visiting -/

def children (s : IffStream) : List Nat :=
  match s.openedChunk with
  | none => s.mainChunks
  | some c => (s.chunks c).subChunks

def lastOpened (s : IffStream) : Int :=
  match s.openedChunk with
  | none => s.lastOpenedChunk
  | some c => (s.chunks c).lastOpenedSubChunk

def skipChunks (num : Int) (s : IffStream) : IffStream :=
  match s.openedChunk with
  | none => { s with lastOpenedChunk := s.lastOpenedChunk + num }
  | some c => s.setChunk c fun chunk =>
      { chunk with lastOpenedSubChunk := chunk.lastOpenedSubChunk + num }

def elementAt (xs : List Nat) (index : Int) : IffM Nat := fun s =>
  match if index < 0 then none else xs[index.toNat]? with
  | none => .error (.arrayIndexOutOfBounds index) s
  | some a => .ok a s

def getNextChunk : IffM Nat := do
  modify (skipChunks 1)
  let s ← get
  elementAt s.children s.lastOpened

def openForm (formType : UInt32) : IffM (Option Nat) := do
  let chunk ← getNextChunk
  let s ← get
  if !(s.chunks chunk).isFORM then return none
  else if (s.chunks chunk).formType ≠ formType then return none
  else
    set { s with openedChunk := some chunk }
    return some chunk

def openChunk (id : UInt32) : IffM (Option Nat) := do
  let chunk ← getNextChunk
  let s ← get
  if id ≠ 0 ∧ (s.chunks chunk).chunkID ≠ id then return none
  else
    set { s with openedChunk := some chunk }
    return some chunk

def getOpenedChunk : IffM Nat := fun s =>
  match s.openedChunk with
  | none => .error (.plain "NoOpenedChunkException") s
  | some c => .ok c s

def closeChunk (_chunk : UInt32) : IffM Unit := do
  let c ← getOpenedChunk
  modify fun s => { s with openedChunk := (s.chunks c).parent }

def closeForm (formType : UInt32) : IffM Bool := do
  closeChunk formType
  return true

def getSubChunksNumber (s : IffStream) : Nat := s.children.length

def getRemainingSubChunksNumber (s : IffStream) : Int := s.children.length - (s.lastOpened + 1)

def getDataSize : IffM Nat := do
  let c ← getOpenedChunk
  let s ← get
  return (s.chunks c).chunkSize

def getFormType : IffM UInt32 := do
  let c ← getOpenedChunk
  let s ← get
  if (s.chunks c).isFORM then return (s.chunks c).formType
  else throw (.plain "InvalidChunkTypeException")

def getNextFormType : IffM UInt32 := do
  let s ← get
  let child ← elementAt s.children (s.lastOpened + 1)
  if (s.chunks child).isFORM then return (s.chunks child).formType
  else throw (.plain "InvalidChunkTypeException")

def getBytes (bytes : Nat) : IffM (List UInt8) := do
  let c ← getOpenedChunk
  if bytes = 0 then return [] else onStream c (Stream.readPrimitive bytes)

inductive Op
  | openForm (formType : UInt32)
  | closeForm (formType : UInt32)
  | openChunk (chunk : UInt32)
  | closeChunk (chunk : UInt32)
  | getSubChunksNumber
  | getRemainingSubChunksNumber
  | getDataSize
  | getFormType
  | getNextFormType
  | getBytes (bytes : Nat)

inductive Answer
  | chunk (id : Option UInt32)
  | type (formType : UInt32)
  | number (n : Int)
  | bytes (data : List UInt8)
  | closed
  deriving DecidableEq

def perform : Op → IffM Answer
  | .openForm formType => do
    let chunk ← openForm formType
    let s ← get
    return .chunk (chunk.map fun c => (s.chunks c).chunkID)
  | .closeForm formType => do
    let _ ← closeForm formType
    return .closed
  | .openChunk chunk => do
    let chunk ← openChunk chunk
    let s ← get
    return .chunk (chunk.map fun c => (s.chunks c).chunkID)
  | .closeChunk chunk => do
    closeChunk chunk
    return .closed
  | .getSubChunksNumber => do return .number (← get).getSubChunksNumber
  | .getRemainingSubChunksNumber => do return .number (← get).getRemainingSubChunksNumber
  | .getDataSize => do return .number (← getDataSize)
  | .getFormType => do return .type (← getFormType)
  | .getNextFormType => do return .type (← getNextFormType)
  | .getBytes bytes => do return .bytes (← getBytes bytes)

def performAll : List Op → IffM (List Answer)
  | [] => return []
  | op :: ops => do
    let answer ← perform op
    let answers ← performAll ops
    return answer :: answers

end IffStream

inductive IffForest
  | nil
  | form (formType : UInt32) (children rest : IffForest)
  | leaf (id : { id : UInt32 // id ≠ Chunk.FORM }) (payload : List UInt8) (rest : IffForest)

namespace IffForest

def encode : IffForest → List UInt8
  | nil => []
  | form formType children rest =>
    beBytes 4 Chunk.FORM.toNat ++ beBytes 4 (4 + children.encode.length) ++
      (beBytes 4 formType.toNat ++ children.encode) ++ rest.encode
  | leaf id payload rest =>
    beBytes 4 id.val.toNat ++ beBytes 4 payload.length ++ payload ++ rest.encode

def count : IffForest → Nat
  | nil => 0
  | form _ _ rest => rest.count + 1
  | leaf _ _ rest => rest.count + 1

end IffForest

end Engine3
