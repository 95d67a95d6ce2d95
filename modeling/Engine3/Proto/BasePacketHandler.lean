import Engine3.Proto.BaseClient

/-!
# The packet handler

`engine/service/proto/BasePacketHandler`: what becomes of a datagram, from its opcode to
the messages given to the service handler. A packet that is parsed is a value passed
along with its cursor; an exception gives the packet up and ends in `handlePacket`.
-/
namespace Engine3

open Bytes

inductive Channel
  | data
  | fragment
  deriving DecidableEq, Repr

def Channel.opcode : Channel → Nat
  | .data => 0x0900
  | .fragment => 0x0D00

structure Session where
  client : BaseClient
  messages : List (List UInt8)
  handed : List (Channel × List UInt8)
  errors : List Exception
  deriving DecidableEq, Repr

def Session.start (client : BaseClient) : Session :=
  { client := client, messages := [], handed := [], errors := [] }

abbrev HandlerM := EStateM Exception Session

namespace BasePacketHandler

def parse {α : Type} (m : StreamM α) (pack : Stream) : HandlerM (α × Stream) := fun s =>
  match m pack with
  | .ok a pack => .ok (a, pack) s
  | .error e _ => .error e s

def onClient {α : Type} (m : ClientM α) : HandlerM α := fun s =>
  match m s.client with
  | .ok a c => .ok a { s with client := c }
  | .error e c => .error e { s with client := c }

def modifyClient (f : BaseClient → BaseClient) : HandlerM Unit :=
  modify fun s => { s with client := f s.client }

def baseMessage (pack : Stream) (startoffs endoffs : Int) : HandlerM (List UInt8) := fun s =>
  if endoffs - startoffs < 0 then .error (.packetIndexOutOfBounds (endoffs - startoffs)) s
  else if startoffs < 0 then .error (.packetIndexOutOfBounds startoffs) s
  else if endoffs > pack.size then .error (.packetIndexOutOfBounds endoffs) s
  else .ok ((pack.elementData.drop startoffs.toNat).take (endoffs - startoffs).toNat) s

def processMessage (env : Env) (message : List UInt8) : HandlerM Unit := fun s =>
  let done := { s with messages := s.messages ++ [message] }
  match env.processMessage s.messages message with
  | none => .ok () done
  | some e => .error e done

/-! ### Data Channel packets -/

def parseBlockSize (pack : Stream) : HandlerM (Nat × Stream) := do
  let (blockSize, pack) ← parse Stream.readByte pack
  if blockSize = 0xFF then parse Stream.parseNetShort pack else pure (blockSize, pack)

def dataChannelBlocks (env : Env) : Nat → Stream → HandlerM Unit
  | 0, _ => pure ()
  | fuel + 1, pack =>
    if pack.hasData then do
      let (blockSize, pack) ← parseBlockSize pack
      let message ← baseMessage pack pack.offset (pack.offset + blockSize)
      processMessage env message
      let ((), pack) ← parse (Stream.shiftOffset blockSize) pack
      dataChannelBlocks env fuel pack
    else pure ()

def handleDataChannelPacket (env : Env) (pack : Stream) : HandlerM Unit := do
  let (opCount, pack) ← parse Stream.readShort pack
  if opCount = 0x1900 then dataChannelBlocks env pack.size pack
  else do
    -- a single message starts with the two bytes just read
    let message ← baseMessage pack ((pack.offset : Int) - 2) pack.size
    processMessage env message

def receiveFragment (env : Env) (pack : Stream) : HandlerM Unit := do
  match ← onClient (BaseClient.receiveFragmentedPacket pack) with
  | some fraggedPacket => handleDataChannelPacket env fraggedPacket.toStream
  | none => pure ()

def handleFragmentedPacket (env : Env) (pack : Stream) : HandlerM Nat := fun s =>
  match receiveFragment env pack s with
  | .ok () s => .ok 0 s
  | .error (.fragmentedPacketParse _) s => .ok 1 s
  | .error e s => .error e s

def handleChannel (env : Env) (channel : Channel) (pack : Stream) : HandlerM Unit :=
  match channel with
  | .data => handleDataChannelPacket env pack
  | .fragment => do
    let _ ← handleFragmentedPacket env pack
    pure ()

def handOver (env : Env) (channel : Channel) (pack : Stream) : HandlerM Unit := fun s =>
  handleChannel env channel pack { s with handed := s.handed ++ [(channel, pack.unread)] }

/-! ### Multi-SOE packets -/

def dataChannelMultiBlocks (env : Env) (size : Nat) : Nat → Nat → Stream → HandlerM Unit
  | 0, _, _ => pure ()
  | fuel + 1, parsedsize, pack =>
    if parsedsize < size then do
      let (blockSize, block) ← parseBlockSize pack
      let parsedsize := (parsedsize + blockSize + (block.offset - pack.offset)) % 65536
      let message ← baseMessage block block.offset (block.offset + blockSize)
      processMessage env message
      let ((), pack) ← parse (Stream.shiftOffset blockSize) block
      dataChannelMultiBlocks env size fuel parsedsize pack
    else pure ()

def handleDataChannelMultiPacket (env : Env) (size : Nat) (pack : Stream) : HandlerM Unit := do
  let (opCount, pack) ← parse Stream.readShort pack
  -- opcode, number and `opCount` are the six bytes already counted
  if opCount = 0x1900 then dataChannelMultiBlocks env size (pack.size + 1) 6 pack
  else if opCount = 0x0D00 then do
    let ((), pack) ← parse (Stream.shiftOffset 2) pack
    let message ← baseMessage pack pack.offset (pack.offset + ((size : Int) - 4))
    let _ ← handleFragmentedPacket env ⟨message, 0⟩
    pure ()
  else if opCount = 0x0900 then do
    let ((), pack) ← parse (Stream.shiftOffset 2) pack
    -- the nested header was skipped, but its four bytes are not taken off the length
    let message ← baseMessage pack pack.offset (pack.offset + ((size : Int) - 4))
    processMessage env message
  else do
    let offset : Int := (pack.offset : Int) - 2
    let message ← baseMessage pack offset (offset + ((size : Int) - 4))
    processMessage env message

def doAcknowledge (pack : Stream) : HandlerM Unit := do
  let (seq, _) ← parse Stream.parseNetShort pack
  modifyClient (BaseClient.acknowledgeServerPackets seq)

def doOutOfOrder (pack : Stream) : HandlerM Unit := do
  let _ ← parse Stream.parseNetShort pack
  pure ()

def validateSubPacket (env : Env) (validatePackets : Bool) (pack : Stream) :
    HandlerM (Bool × Stream) :=
  if validatePackets then onClient (BaseClient.validatePacket env pack)
  else do
    let ((), pack) ← parse (Stream.shiftOffset 2) pack
    pure (true, pack)

def handleSubPacket (env : Env) (drain : HandlerM Unit) (validatePackets : Bool)
    (blockSize offset opcode : Nat) (pack : Stream) : HandlerM Unit :=
  if opcode = 0x0900 then do
    let (expected, pack) ← validateSubPacket env validatePackets pack
    -- a sub-packet that is not the expected one is left to the receive buffer
    if expected then do
      handleDataChannelMultiPacket env blockSize pack
      if validatePackets then drain else pure ()
    else pure ()
  else if opcode = 0x1100 then doOutOfOrder pack
  else if opcode = 0x1500 then doAcknowledge pack
  else if opcode = 0x0001 then do
    let _ ← parse Stream.readInt pack
    pure ()
  else if opcode = 0x0D00 then do
    let (expected, pack) ← validateSubPacket env validatePackets pack
    if expected then do
      -- a sub-packet that claims more than there is ends with the packet
      let endOffset : Int := min ((pack.offset : Int) + blockSize - 4) pack.size
      let fragPiece ← baseMessage pack pack.offset endOffset
      let _ ← handleFragmentedPacket env ⟨fragPiece, 0⟩
      if validatePackets then drain else pure ()
    else pure ()
  else if opcode / 256 = 0 then do
    let message ← baseMessage pack offset (offset + blockSize)
    processMessage env message
  else pure ()

def multiPacketLoop (env : Env) (drain : HandlerM Unit) (validatePackets : Bool) :
    Nat → Stream → HandlerM Unit
  | 0, _ => pure ()
  | fuel + 1, pack =>
    if pack.hasData then do
      let (blockSize, pack) ← parse Stream.readByte pack
      let offset := pack.offset
      let (opcode, pack) ← parse Stream.readShort pack
      handleSubPacket env drain validatePackets blockSize offset opcode pack
      -- whatever the handler has read, the next sub-packet starts `blockSize` bytes further on
      let ((), pack) ← parse (Stream.setOffset (offset + blockSize)) pack
      multiPacketLoop env drain validatePackets fuel pack
    else pure ()

def processBufferedPacket (env : Env) (pack : BasePacket) : HandlerM Unit := do
  let (opcode, stream) ← parse (Stream.readShortFrom 0) pack.toStream
  if opcode = 0x0300 then do
    let ((), stream) ← parse (Stream.setOffset 2) stream
    multiPacketLoop env (pure ()) false stream.size stream
  else if opcode = 0x0D00 then do
    let ((), stream) ← parse (Stream.setOffset 4) stream
    handOver env .fragment stream
  -- the copy has kept its cursor, which stands behind the number
  else handOver env .data stream

def drainLoop (env : Env) : Nat → HandlerM Unit
  | 0 => pure ()
  | fuel + 1 => fun s =>
    match BaseClient.getBufferedPacket env s.client with
    | (none, _) => .ok () s
    | (some pack, c) =>
      (do processBufferedPacket env pack
          drainLoop env fuel) { s with client := c }

def processBufferedPackets (env : Env) : HandlerM Unit := fun s =>
  drainLoop env s.client.receiveBuffer.length s

def handleMultiPacket (env : Env) (pack : Stream) : HandlerM Unit :=
  multiPacketLoop env (processBufferedPackets env) true pack.size pack

/-! ### Datagrams -/

def processRecieve (env : Env) (pack : Stream) : HandlerM (Bool × Stream) := fun s =>
  parse (BaseProtocol.processRecieve env.zlib s.client.crcSeed) pack s

def handleReliablePacket (env : Env) (channel : Channel) (pack : Stream) : HandlerM Unit := do
  let (expected, pack) ← onClient (BaseClient.validatePacket env pack)
  if expected then do
    handOver env channel pack
    processBufferedPackets env
  else pure ()

def doSessionStart (env : Env) (pack : Stream) : HandlerM Unit := do
  let (connID, _) ← parse (Stream.readIntFrom 6) pack
  modifyClient fun c =>
    let c := { c with connectionID := connID }
    let response := leBytes 2 0x0200 ++ leBytes 4 c.connectionID ++ beBytes 4 c.crcSeed.toNat ++
      [0x02, 0x01, 0x04, 0x00, 0x00, 0x01, 0xF0]
    c.send env ⟨response, response.length⟩

def doSessionResponse (pack : Stream) : HandlerM Unit := do
  let (seed, _) ← parse (Stream.parseNetIntFrom 6) pack
  modifyClient fun c => { c with crcSeed := UInt32.ofNat seed }

def doDisconnect (env : Env) : HandlerM Unit :=
  modifyClient fun c => { c with clientDisconnected := true }.disconnect env

def handleDecoded (env : Env) (opcode : Nat) (pack : Stream) : HandlerM Unit :=
  if opcode = 0x0300 then handleMultiPacket env pack
  else if opcode = 0x0500 then doDisconnect env
  else if opcode = 0x0600 then pure ()
  else if opcode = 0x0700 then modifyClient (BaseClient.handleNetStatusRequest env pack)
  else if opcode = 0x0900 then handleReliablePacket env .data pack
  else if opcode = 0x0D00 then handleReliablePacket env .fragment pack
  else if opcode = 0x1100 then doOutOfOrder pack
  else if opcode = 0x1500 then doAcknowledge pack
  else do
    let ((), pack) ← parse (Stream.setOffset 0) pack
    handleDataChannelPacket env pack

def dispatch (env : Env) (pack : Stream) : HandlerM Unit := do
  let (opcode, pack) ← parse Stream.readShort pack
  if opcode = 0x0100 then doSessionStart env pack
  else if opcode = 0x0200 then doSessionResponse pack
  else if opcode = 0x0800 ∨ opcode = 0x1D00 ∨ opcode = 0x1F00 ∨ opcode = 0x2000 then pure ()
  else do
    -- a datagram with a wrong checksum is dropped without a word
    let (decoded, pack) ← processRecieve env pack
    if decoded then handleDecoded env opcode pack else pure ()

def handlePacket (env : Env) (datagram : List UInt8) (s : Session) : Session :=
  match dispatch env ⟨datagram, 0⟩ s with
  | .ok () s => s
  | .error e s => { s with errors := s.errors ++ [e] }

end BasePacketHandler

end Engine3
