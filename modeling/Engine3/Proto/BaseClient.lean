import Engine3.Proto.BaseProtocol
import Engine3.Proto.Packaging

/-!
# The client

`engine/service/proto/BaseClient` in the default build, which keeps unsequenced packets
in `sendUnreliableBuffer` instead of a lock-free queue. A call that holds the lock is one
function; `sendReliablePackets` gives the lock up once per packet and is composed of the
two locked stretches `beginSend` and `finishSend`.

Statistics, time stamps and the tasks that only call `run` again are left out.
-/
namespace Engine3

open Bytes MachineInt BasePacket

structure Env where
  zlib : Zlib
  sendReturns : Nat → Bool
  resendQuota : Nat → Nat
  processMessage : List (List UInt8) → List UInt8 → Option Exception

def Env.plain : Env where
  zlib := ⟨id, id⟩
  sendReturns _ := true
  resendQuota _ := 0
  processMessage _ _ := none

structure CheckupEvent where
  packet : Option BasePacket
  scheduled : Bool
  checkupTime : Nat
  minCheckupTime : Nat
  maxCheckupTime : Nat
  deriving DecidableEq, Repr

namespace CheckupEvent

def update (pack : BasePacket) (event : CheckupEvent) : CheckupEvent :=
  { event with packet := some pack }

def schedule (event : CheckupEvent) : CheckupEvent := { event with scheduled := true }

def cancel (event : CheckupEvent) : CheckupEvent := { event with scheduled := false }

def increaseCheckupTime (time : Nat) (event : CheckupEvent) : CheckupEvent :=
  if event.checkupTime < event.maxCheckupTime then
    { event with checkupTime := (event.checkupTime + time) % 4294967296 }
  else event

def decreaseCheckupTime (time : Nat) (event : CheckupEvent) : CheckupEvent :=
  if event.checkupTime > event.minCheckupTime then
    { event with checkupTime := u32 ((event.checkupTime : Int) - time) }
  else event

end CheckupEvent

structure BaseClient where
  socket : Bool
  errored : Bool
  disconnected : Bool
  clientDisconnected : Bool
  connectionID : Nat
  crcSeed : UInt32
  serverSequence : Nat
  clientSequence : Nat
  acknowledgedServerSequence : Int
  sequenceBuffer : List BasePacket
  sendBuffer : List BasePacket
  sendUnreliableBuffer : List BasePacket
  receiveBuffer : List BasePacket
  bufferedPacket : Option BaseMultiPacket
  fragmentedPacket : Option BaseFragmentedPacket
  checkupEvent : CheckupEvent
  configMaxOutstandingPackets : Nat
  transmitted : List BasePacket
  sends : Nat
  deriving DecidableEq, Repr

abbrev ClientM := EStateM Exception BaseClient

namespace BaseClient

def initialized (crcSeed : UInt32) : BaseClient :=
  { socket := true, errored := false, disconnected := false, clientDisconnected := false
    connectionID := 0, crcSeed := crcSeed, serverSequence := 0, clientSequence := 0
    acknowledgedServerSequence := -1, sequenceBuffer := [], sendBuffer := []
    sendUnreliableBuffer := [], receiveBuffer := [], bufferedPacket := none
    fragmentedPacket := none
    checkupEvent := { packet := none, scheduled := false, checkupTime := 2000
                      minCheckupTime := 2000, maxCheckupTime := 500 }
    configMaxOutstandingPackets := 5000, transmitted := [], sends := 0 }

def isAvailable (c : BaseClient) : Bool := c.socket && !(c.errored || c.disconnected)

/-! ### Connection -/

def datagramSend (env : Env) (pack : BasePacket) : ClientM Unit := fun c =>
  if c.socket && env.sendReturns c.sends then
    .ok () { c with sends := c.sends + 1, transmitted := c.transmitted ++ [pack] }
  else .error (.socket "send") { c with sends := c.sends + 1 }

def close (c : BaseClient) : BaseClient :=
  { c with
    disconnected := true
    checkupEvent := c.checkupEvent.cancel
    sendBuffer := []
    sequenceBuffer := []
    sendUnreliableBuffer := []
    fragmentedPacket := none
    clientSequence := 0
    acknowledgedServerSequence := -1 }

def disconnect (env : Env) (c : BaseClient) : BaseClient :=
  if c.disconnected then c
  else if c.errored || c.clientDisconnected then c.close
  else
    let disc := BaseProtocol.prepareEncryptionAndCompression env.zlib c.crcSeed
      (disconnectMessage c.connectionID).close
    match datagramSend env disc c with
    | .ok () c => c.close
    | .error _ c => { c with errored := true }.close

def disconnectError (env : Env) (c : BaseClient) : BaseClient :=
  disconnect env { c with errored := true }

def send (env : Env) (pack : Stream) (c : BaseClient) : BaseClient :=
  if c.isAvailable then
    match datagramSend env (copyOf pack 0) c with
    | .ok () c => c
    | .error _ c => disconnectError env c
  else c

/-! ### Packaging -/

def sendSequenced (pack : BasePacket) (c : BaseClient) : BaseClient :=
  if c.isAvailable then { c with sendBuffer := c.sendBuffer ++ [pack] } else c

def sendFragments : Nat → BaseFragmentedPacket → BaseClient → BaseClient
  | 0, _, c => c
  | fuel + 1, frag, c =>
    if frag.hasFragments then
      let (pack, frag) := frag.getFragment
      sendFragments fuel frag (sendSequenced pack c)
    else c

def sendFragmented (pack : BasePacket) (c : BaseClient) : BaseClient :=
  if c.isAvailable then sendFragments pack.size (BaseFragmentedPacket.new (some pack)) c else c

def joinable (pack : BasePacket) : StreamM Bool := do
  if ← isDataChannelPacket then
    if ← isMultiPacket then pure false else pure (decide (pack.size - 4 < 0xFF))
  else pure false

def bufferMultiPacket (pack : BasePacket) : ClientM Unit := fun c =>
  match c.bufferedPacket, joinable pack pack.toStream with
  | _, .error e _ => .error e c
  | some multi, .ok true _ =>
    match multi.add pack with
    | (true, multi) => .ok () { c with bufferedPacket := some multi }
    -- no room left: the full one is queued and the packet starts the next
    | (false, multi) =>
      .ok () { sendSequenced multi.getPacket c with
        bufferedPacket := some (BaseMultiPacket.new pack) }
  -- a packet that cannot be joined must not overtake the ones before it
  | some multi, .ok false _ =>
    .ok () (sendSequenced pack { sendSequenced multi.getPacket c with bufferedPacket := none })
  | none, .ok true _ => .ok () { c with bufferedPacket := some (BaseMultiPacket.new pack) }
  | none, .ok false _ => .ok () (sendSequenced pack c)

def flushBufferedPacket (c : BaseClient) : BaseClient :=
  match c.bufferedPacket with
  | none => c
  | some multi => { sendSequenced multi.getPacket c with bufferedPacket := none }

def sendPacket (env : Env) (pack : BasePacket) (c : BaseClient) : BaseClient :=
  if c.isAvailable then
    if pack.doSeq then
      if pack.size ≥ 490 then sendFragmented pack (flushBufferedPacket c)
      else
        match bufferMultiPacket pack c with
        | .ok () c => c
        | .error _ c => disconnectError env c
    else { c with sendUnreliableBuffer := c.sendUnreliableBuffer ++ [pack] }
  else c

/-! ### Sending reliably -/

def getNextSequencedPacket (env : Env) (c : BaseClient) : Option BasePacket × BaseClient :=
  -- the difference is taken in `uint32`, with the counter that starts at minus one
  if u32 ((c.serverSequence : Int) - c.acknowledgedServerSequence) > 50 then
    let c := { c with checkupEvent := c.checkupEvent.schedule }
    if c.sendBuffer.length > c.configMaxOutstandingPackets then (none, disconnect env c)
    else (none, c)
  else
    match c.sendBuffer with
    | pack :: rest => (some pack, { c with sendBuffer := rest })
    | [] =>
      match c.bufferedPacket with
      | some multi => (some multi.getPacket, { c with bufferedPacket := none })
      | none => (none, c)

def startCheckup (pack : BasePacket) (c : BaseClient) : BaseClient :=
  if c.sequenceBuffer.isEmpty then
    { c with checkupEvent := (c.checkupEvent.update pack).schedule }
  else c

def beginSend (env : Env) (c : BaseClient) : Option BasePacket × BaseClient :=
  if c.isAvailable then
    match getNextSequencedPacket env c with
    | (none, c) => (none, c)
    | (some pack, c) =>
      let next := { c with serverSequence :=
        if pack.doSeq then (c.serverSequence + 1) % 4294967296 else c.serverSequence }
      match BaseProtocol.prepareSequence c.serverSequence pack with
      | .ok () pack => (some pack, startCheckup pack next)
      -- a packet too short for a number has used one up all the same
      | .error _ pack => (none, disconnectError env (startCheckup pack next))
  else (none, c)

def finishSend (env : Env) (pack : BasePacket) (c : BaseClient) : Bool × BaseClient :=
  match datagramSend env pack c with
  | .ok () c => (true, { c with sequenceBuffer := c.sequenceBuffer ++ [pack] })
  | .error _ c => (false, disconnectError env c)

def sendReliablePackets (env : Env) : Nat → BaseClient → BaseClient
  | 0, c => c
  | count + 1, c =>
    match beginSend env c with
    | (none, c) => c
    | (some pack, c) =>
      let pack := BaseProtocol.prepareEncryptionAndCompression env.zlib c.crcSeed pack
      match finishSend env pack c with
      | (true, c) => sendReliablePackets env count c
      | (false, c) => c

def flushSendBuffer (seq : Int) (c : BaseClient) : BaseClient :=
  { c with
    sequenceBuffer := c.sequenceBuffer.dropWhile fun pack => !decide (pack.getSequence > u32 seq)
    acknowledgedServerSequence := seq }

def realSequence (seq : Nat) (c : BaseClient) : Int :=
  let realseq : Int :=
    if (seq : Int) < c.acknowledgedServerSequence then
      i32 ((seq &&& 0xFFFF) ||| (c.serverSequence &&& 0xFFFF0000) : Nat)
    else seq
  -- a number not yet sent belongs to the 65536 before
  if u32 realseq > c.serverSequence then i32 (realseq - 0x10000) else realseq

def acknowledgeServerPackets (seq : Nat) (c : BaseClient) : BaseClient :=
  if c.isAvailable then
    let realseq := realSequence seq c
    -- an acknowledgement that is repeated, not older, goes on and restarts the timer
    if realseq < c.acknowledgedServerSequence then c
    else
      let c := flushSendBuffer realseq { c with checkupEvent := c.checkupEvent.cancel }
      let event := c.checkupEvent.decreaseCheckupTime 1
      match c.sequenceBuffer with
      | [] => { c with checkupEvent := event }
      | pack :: _ => { c with checkupEvent := (event.update pack).schedule }
  else c

def resend (env : Env) : List BasePacket → ClientM Unit
  | [] => pure ()
  | pack :: rest => do
    datagramSend env pack
    resend env rest

def maxPacketResent (env : Env) (c : BaseClient) : Nat :=
  max 5 (env.resendQuota c.checkupEvent.checkupTime)

def resendPackets (env : Env) : ClientM Unit := fun c =>
  resend env (c.sequenceBuffer.take (maxPacketResent env c)) c

def checkupServerPackets (env : Env) (pack : BasePacket) (c : BaseClient) : BaseClient :=
  if !c.isAvailable || c.checkupEvent.scheduled || c.sequenceBuffer.isEmpty then c
  else if pack.getSequence > u32 c.acknowledgedServerSequence then
    match resendPackets env c with
    | .ok () c =>
      { c with checkupEvent := ((c.checkupEvent.increaseCheckupTime 250).update pack).schedule }
    | .error _ c => disconnectError env c
  else c

/-! ### Receiving -/

def acknowledgeClientPackets (env : Env) (seq : Nat) (c : BaseClient) : BaseClient :=
  if c.isAvailable then sendPacket env (acknowledgeMessage (seq % 65536)) c else c

def acceptSequence (env : Env) (c : BaseClient) : BaseClient :=
  acknowledgeClientPackets env c.clientSequence
    { c with clientSequence := (c.clientSequence + 1) % 4294967296 }

inductive Verdict
  | received
  | early
  | expected
  deriving DecidableEq, Repr

def classify (seq clientSequence : Nat) : Verdict :=
  if seq < clientSequence &&& 0xFFFF then .received
  else if seq > clientSequence &&& 0xFFFF then .early
  else .expected

def validatePacket (env : Env) (pack : Stream) : ClientM (Bool × Stream) := fun c =>
  match Stream.parseNetShort pack with
  | .error e _ => .error e c
  | .ok seq pack =>
    match classify seq c.clientSequence with
    | .received => .ok (false, pack) (acknowledgeClientPackets env seq c)
    -- a second copy is told to the peer again, but not kept
    | .early =>
      let buffer := (SortedVector.put compareTo .noDuplicate
        (copyOf pack seq) c.receiveBuffer).1
      .ok (false, pack)
        (sendPacket env (outOfOrderMessage seq) { c with receiveBuffer := buffer })
    | .expected => .ok (true, pack) (acceptSequence env c)

def getBufferedPacket (env : Env) (c : BaseClient) : Option BasePacket × BaseClient :=
  match c.receiveBuffer with
  | [] => (none, c)
  | pack :: rest =>
    if pack.getSequence &&& 0xFFFF ≠ c.clientSequence &&& 0xFFFF then (none, c)
    else (some pack, acceptSequence env { c with receiveBuffer := rest })

def receiveFragmentedPacket (pack : Stream) : ClientM (Option BasePacket) := fun c =>
  let frag := c.fragmentedPacket.getD (BaseFragmentedPacket.new none)
  match frag.addFragment pack with
  -- thrown while parsing, before anything was cleaned up
  | .error e => .error e { c with fragmentedPacket := some frag }
  | .ok (false, _) =>
    .error (.fragmentedPacketParse "could not insert frag") { c with fragmentedPacket := none }
  | .ok (true, frag) =>
    match frag.isComplete with
    | .ok false => .ok none { c with fragmentedPacket := some frag }
    | .ok true =>
      .ok (some { frag.toBasePacket with offset := 0 }) { c with fragmentedPacket := none }
    | .error _ => .ok none { c with fragmentedPacket := none }

def handleNetStatusRequest (env : Env) (pack : Stream) (c : BaseClient) : BaseClient :=
  if c.isAvailable then
    match Stream.parseNetShort pack with
    | .ok tick _ => sendPacket env (netStatusResponseMessage tick) c
    | .error _ _ => disconnectError env c
  else c

/-! ### Control packets only go to the unreliable buffer -/

def queueUnreliable (pack : BasePacket) (c : BaseClient) : BaseClient :=
  if c.isAvailable then { c with sendUnreliableBuffer := c.sendUnreliableBuffer ++ [pack] } else c

variable (env : Env)

theorem sendPacket_unsequenced {pack : BasePacket} (c : BaseClient)
    (unsequenced : pack.doSeq = false) : sendPacket env pack c = queueUnreliable pack c := by
  simp only [sendPacket, queueUnreliable, unsequenced, Bool.false_eq_true, if_false]

theorem acknowledgeClientPackets_eq (seq : Nat) (c : BaseClient) :
    acknowledgeClientPackets env seq c =
      queueUnreliable (acknowledgeMessage (seq % 65536)) c := by
  rw [acknowledgeClientPackets, sendPacket_unsequenced env c rfl]
  by_cases available : c.isAvailable
  · rw [if_pos available]
  · rw [if_neg available, queueUnreliable, if_neg available]

variable (pack : BasePacket) (c : BaseClient)

@[simp] theorem queueUnreliable_clientSequence :
    (queueUnreliable pack c).clientSequence = c.clientSequence := by
  rw [queueUnreliable]
  split <;> rfl

@[simp] theorem queueUnreliable_receiveBuffer :
    (queueUnreliable pack c).receiveBuffer = c.receiveBuffer := by
  rw [queueUnreliable]
  split <;> rfl

@[simp] theorem queueUnreliable_fragmentedPacket :
    (queueUnreliable pack c).fragmentedPacket = c.fragmentedPacket := by
  rw [queueUnreliable]
  split <;> rfl

@[simp] theorem queueUnreliable_crcSeed : (queueUnreliable pack c).crcSeed = c.crcSeed := by
  rw [queueUnreliable]
  split <;> rfl

theorem acceptSequence_eq (c : BaseClient) : acceptSequence env c =
      queueUnreliable (acknowledgeMessage (c.clientSequence % 65536))
        { c with clientSequence := (c.clientSequence + 1) % 4294967296 } :=
  acknowledgeClientPackets_eq env _ _

theorem acceptSequence_fragmentedPacket (c : BaseClient) :
    (acceptSequence env c).fragmentedPacket = c.fragmentedPacket := by
  rw [acceptSequence_eq, queueUnreliable_fragmentedPacket]

theorem classify_spec (seq clientSequence : Nat) :
    match classify seq clientSequence with
    | .received => seq < clientSequence % 65536
    | .early => clientSequence % 65536 < seq
    | .expected => seq = clientSequence % 65536 := by
  rw [classify, land_low16]
  by_cases less : seq < clientSequence % 65536
  · rw [if_pos less]
    exact less
  · rw [if_neg less]
    by_cases more : seq > clientSequence % 65536
    · rw [if_pos more]
      exact more
    · rw [if_neg more]
      exact Nat.le_antisymm (Nat.not_lt.mp more) (Nat.not_lt.mp less)

end BaseClient

end Engine3
