import Engine3.Proto.Outgoing
import Engine3.Proto.Retransmission

/-!
# Two clients and a channel

A sending client and a receiving one, joined by a channel that may lose, repeat and
reorder data packets and acknowledgements. What the sender forgets is what the receiver
has handed over.
-/
namespace Engine3.BasePacketHandler

open Bytes MachineInt Exec BaseClient List BasePacket SenderStep

/-! ### Replies of the receiver -/

def Replies (c : BaseClient) : Prop :=
  ∀ pack ∈ c.sendUnreliableBuffer,
    (∃ number < c.clientSequence, number < 65536 ∧ pack = acknowledgeMessage number) ∨
    ∃ number, pack = outOfOrderMessage number

theorem Replies.queueUnreliable {c : BaseClient} (replies : Replies c) (pack : BasePacket)
    (fits : (∃ number < c.clientSequence, number < 65536 ∧
      pack = acknowledgeMessage number) ∨
      ∃ number, pack = outOfOrderMessage number) :
    Replies (BaseClient.queueUnreliable pack c) := by
  rw [BaseClient.queueUnreliable]
  split
  · intro other mem
    rcases mem_append.mp mem with old | new
    · exact replies other old
    · rw [mem_singleton.mp new]
      exact fits
  · exact replies

theorem stable_replies (env : Env) : Stable env Replies where
  accept := by
    intro c buffer lt replies
    have next : (c.clientSequence + 1) % 4294967296 = c.clientSequence + 1 :=
      Nat.mod_eq_of_lt (by omega)
    have before : Replies { c with
        receiveBuffer := buffer, clientSequence := (c.clientSequence + 1) % 4294967296 } := by
      intro pack mem
      rcases replies pack mem with ⟨number, less, word, eq⟩ | early
      · refine Or.inl ⟨number, ?_, word, eq⟩
        change number < (c.clientSequence + 1) % 4294967296
        omega
      · exact Or.inr early
    rw [acceptSequence_eq]
    refine before.queueUnreliable _ (Or.inl ⟨c.clientSequence % 65536, ?_, by omega, rfl⟩)
    change c.clientSequence % 65536 < (c.clientSequence + 1) % 4294967296
    omega
  again := by
    intro c number old replies
    rw [acknowledgeClientPackets_eq]
    exact replies.queueUnreliable _ (Or.inl ⟨number % 65536,
      lt_of_le_of_lt (Nat.mod_le _ _) old, Nat.mod_lt _ (by decide), rfl⟩)
  early := by
    intro c number buffer replies
    exact Replies.queueUnreliable (c := { c with receiveBuffer := buffer }) replies _
      (Or.inr ⟨number, rfl⟩)
  collect := fun _ _ replies => replies

def controlDatagram (env : Env) (crcSeed : UInt32) (pack : BasePacket) : List UInt8 :=
  BaseProtocol.wire env.zlib crcSeed pack.close

variable {env : Env} {crcSeed : UInt32} {sent : List ReliablePacket}

variable (inverse : ∀ data, env.zlib.inflate (env.zlib.deflate data) = data)
include inverse

theorem carries_control (seed : UInt32) (opcode value : Nat) (word : opcode < 65536)
    (zeroFirst : BaseProtocol.clearLength (leBytes 2 opcode) = 2) :
    Carries env seed (controlDatagram env seed (control opcode value)) opcode
      (leBytes 2 opcode ++ beBytes 2 value) := by
  have closed := BaseProtocol.isClosed_close (control opcode value) rfl
  have shape := close_at_end (control opcode value) rfl
  have len : (leBytes 2 opcode ++ beBytes 2 value).length ≤ 493 := by simp
  exact carries_wire inverse seed word zeroFirst closed (by rw [shape]; rfl)
    (by rw [shape]; rfl) len

theorem handlePacket_acknowledge (s : Session) {number : Nat} (lt : number < 65536) :
    handlePacket env
        (controlDatagram env s.client.crcSeed (acknowledgeMessage number)) s =
      { s with client := acknowledgeServerPackets number s.client } := by
  have carries := carries_control inverse s.client.crcSeed 0x1500 number (by decide) rfl
  have read := Stream.parseNetShort_unread ⟨leBytes 2 0x1500 ++ beBytes 2 number, 2⟩ number [] rfl
  rw [Nat.mod_eq_of_lt lt] at read
  have ended : dispatch env ⟨controlDatagram env s.client.crcSeed
      (acknowledgeMessage number), 0⟩ s =
        .ok () { s with client := acknowledgeServerPackets number s.client } := by
    refine (dispatch_decoded (by decide) carries).trans ?_
    exact (bind_of_ok (parse_of_ok read)).trans rfl
  simp only [handlePacket, ended]

theorem handlePacket_outOfOrder (s : Session) (number : Nat) :
    handlePacket env
      (controlDatagram env s.client.crcSeed (outOfOrderMessage number)) s = s := by
  have carries := carries_control inverse s.client.crcSeed 0x1100 number (by decide) rfl
  have read := Stream.parseNetShort_unread ⟨leBytes 2 0x1100 ++ beBytes 2 number, 2⟩ number [] rfl
  have ended : dispatch env ⟨controlDatagram env s.client.crcSeed
      (outOfOrderMessage number), 0⟩ s = .ok () s := by
    refine (dispatch_decoded (by decide) carries).trans ?_
    exact (bind_of_ok (parse_of_ok read)).trans rfl
  simp only [handlePacket, ended]

omit inverse

/-! ### The two parties -/

def receiveMessage (env : Env) (datagram : List UInt8) (s : Session) : Session :=
  if s.client.isAvailable then handlePacket env datagram s else s

structure Link where
  sender : Session
  inFlight : List BasePacket
  receiver : Session
  deriving DecidableEq, Repr

inductive LinkStep
  | sendPacket (m : Message)
  | beginSend
  | finishSend (k : Nat)
  | expire
  | checkup (pack : BasePacket)
  | deliver (k : Nat)
  | acknowledge (k : Nat)

def Link.runLocal (env : Env) (step : SenderStep) (link : Link) : Link :=
  let s := step.apply env ⟨link.sender.client, link.inFlight⟩
  { link with sender := { link.sender with client := s.client }, inFlight := s.inFlight }

def LinkStep.apply (env : Env) (step : LinkStep) (link : Link) : Link :=
  match step with
  | .sendPacket m => link.runLocal env (.call (.sendPacket m.packet))
  | .beginSend => link.runLocal env .beginSend
  | .finishSend k => link.runLocal env (.finishSend k)
  | .expire => link.runLocal env (.call .expire)
  | .checkup pack => link.runLocal env (.call (.checkup pack))
  | .deliver k =>
    match link.sender.client.transmitted[k]? with
    | none => link
    | some pack => { link with receiver := receiveMessage env pack.elementData link.receiver }
  | .acknowledge k =>
    match link.receiver.client.sendUnreliableBuffer[k]? with
    | none => link
    | some pack =>
      { link with
        sender := receiveMessage env
          (controlDatagram env link.receiver.client.crcSeed pack) link.sender }

def runLink (env : Env) (steps : List LinkStep) (link : Link) : Link :=
  steps.foldl (fun link step => step.apply env link) link

def Link.start (crcSeed : UInt32) (maxOutstandingPackets : Nat) : Link :=
  { sender := Session.start (connected crcSeed maxOutstandingPackets)
    inFlight := []
    receiver := Session.start (connected crcSeed maxOutstandingPackets) }

def Stamped (env : Env) (crcSeed : UInt32) (sent : List ReliablePacket)
    (pack : BasePacket) : Prop :=
  Arrives env crcSeed sent (pack.getSequence, pack.elementData)

theorem Stamped.append {pack : BasePacket} (stamped : Stamped env crcSeed sent pack)
    (p : ReliablePacket) :
    Stamped env crcSeed (sent ++ [p]) pack := by
  obtain ⟨q, found, carries⟩ := stamped
  refine ⟨q, ?_, carries⟩
  rw [getElem?_append_left (List.getElem?_eq_some_iff.mp found).1]
  exact found

theorem Ready.append {arrived : List Nat} {s : Session} (ready : Ready sent arrived crcSeed s)
    (p : ReliablePacket) :
    Ready (sent ++ [p]) arrived crcSeed s := by
  obtain ⟨⟨bound, handed, sorted, genuine, below, kept, covered⟩, ahead, seed⟩ := ready
  refine ⟨⟨?_, ?_, sorted, ?_, below, kept, covered⟩, ahead, seed⟩
  · rw [length_append]
    omega
  · rw [take_append_of_le_length bound]
    exact handed
  · intro b mem
    obtain ⟨q, found, eq⟩ := genuine b mem
    refine ⟨q, ?_, eq⟩
    rw [getElem?_append_left (List.getElem?_eq_some_iff.mp found).1]
    exact found

structure Joined (env : Env) (crcSeed : UInt32) (sent : List ReliablePacket)
    (arrived : List Nat) (link : Link) : Prop where
  available : link.sender.client.isAvailable = true
  outbound : Outbound link.sender.client
  counter : link.sender.client.serverSequence = sent.length
  seed : link.sender.client.crcSeed = crcSeed
  known : -1 ≤ link.sender.client.acknowledgedServerSequence
  below : link.sender.client.acknowledgedServerSequence < link.receiver.client.clientSequence
  stamped : ∀ pack ∈ link.sender.client.transmitted, Stamped env crcSeed sent pack
  flying : ∀ pack ∈ link.inFlight, Stamped env crcSeed sent pack
  buffered : ∀ pack ∈ link.sender.client.sequenceBuffer, pack ∈ link.sender.client.transmitted
  kept : ∀ pack ∈ link.sender.client.transmitted,
    link.sender.client.acknowledgedServerSequence < pack.getSequence →
    pack ∈ link.sender.client.sequenceBuffer
  ready : Ready sent arrived crcSeed link.receiver
  replies : Replies link.receiver.client

structure Parted (link : Link) : Prop where
  unavailable : link.sender.client.isAvailable = false
  acknowledged : link.sender.client.acknowledgedServerSequence = -1

def LinkInvariant (env : Env) (crcSeed : UInt32) (link : Link) : Prop :=
  (∃ sent arrived, Joined env crcSeed sent arrived link) ∨ Parted link

/-! ### Steps of the sender -/

section Joined

variable {env : Env} {crcSeed : UInt32} {sent : List ReliablePacket} {arrived : List Nat}
  {link : Link} (joined : Joined env crcSeed sent arrived link)

include joined

theorem Joined.frame {link' : Link} (outbound : Outbound link'.sender.client)
    (isAvailable : link'.sender.client.isAvailable = link.sender.client.isAvailable)
    (counts : link'.sender.client.serverSequence = link.sender.client.serverSequence)
    (seed : link'.sender.client.crcSeed = link.sender.client.crcSeed)
    (acknowledged : link'.sender.client.acknowledgedServerSequence =
      link.sender.client.acknowledgedServerSequence)
    (transmitted : link'.sender.client.transmitted = link.sender.client.transmitted)
    (buf : link'.sender.client.sequenceBuffer = link.sender.client.sequenceBuffer)
    (inFlight : link'.inFlight = link.inFlight) (receiver : link'.receiver = link.receiver) :
    Joined env crcSeed sent arrived link' where
  available := isAvailable.trans joined.available
  outbound := outbound
  counter := counts.trans joined.counter
  seed := seed.trans joined.seed
  known := by rw [acknowledged]; exact joined.known
  below := by rw [acknowledged, receiver]; exact joined.below
  stamped := by rw [transmitted]; exact joined.stamped
  flying := by rw [inFlight]; exact joined.flying
  buffered := by rw [buf, transmitted]; exact joined.buffered
  kept := by rw [acknowledged, transmitted, buf]; exact joined.kept
  ready := by rw [receiver]; exact joined.ready
  replies := by rw [receiver]; exact joined.replies

theorem Joined.sendPacket (m : Message) :
    LinkInvariant env crcSeed ((LinkStep.sendPacket m).apply env link) := by
  rcases joined.outbound.sendPacket env m with outbound | shut
  · rcases sendPacket_cases env m.packet joined.outbound.sequenced with
      ⟨⟨_, _, _, eq⟩, -⟩ | shut
    · refine Or.inl ⟨sent, arrived, joined.frame outbound ?_ ?_ ?_ ?_ ?_ ?_ rfl rfl⟩ <;>
        simp only [LinkStep.apply, Link.runLocal, apply, SenderEvent.apply, eq]
      rfl
    · exact Or.inr ⟨shut.unavailable, shut.acknowledged⟩
  · exact Or.inr ⟨shut.unavailable, shut.acknowledged⟩

theorem Joined.expire : LinkInvariant env crcSeed (LinkStep.expire.apply env link) :=
  Or.inl ⟨sent, arrived, joined.frame ⟨joined.outbound.queued, joined.outbound.pending⟩
    rfl rfl rfl rfl rfl rfl rfl rfl⟩

theorem Joined.checkup (pack : BasePacket) :
    LinkInvariant env crcSeed ((LinkStep.checkup pack).apply env link) := by
  have outbound : ∀ c, c.sendBuffer = link.sender.client.sendBuffer →
      c.bufferedPacket = link.sender.client.bufferedPacket → Outbound c := by
    intro c queue multi
    refine ⟨?_, ?_⟩
    · rw [queue]
      exact joined.outbound.queued
    · rw [multi]
      exact joined.outbound.pending
  rcases checkupServerPackets_cases env pack link.sender.client with
    eq | ⟨-, count, sends, event, eq⟩ | shut
  · refine Or.inl ⟨sent, arrived, ?_⟩
    simp only [LinkStep.apply, Link.runLocal, apply, SenderEvent.apply, eq]
    exact joined
  · -- what is sent again was transmitted before
    have again : ∀ other ∈ link.sender.client.transmitted ++
        link.sender.client.sequenceBuffer.take count, other ∈ link.sender.client.transmitted := by
      intro other mem
      rcases mem_append.mp mem with old | new
      · exact old
      · exact joined.buffered other (mem_of_mem_take new)
    refine Or.inl ⟨sent, arrived, ?_⟩
    simp only [LinkStep.apply, Link.runLocal, apply, SenderEvent.apply, eq]
    exact
      { joined with
        outbound := outbound _ rfl rfl
        stamped := fun other mem => joined.stamped other (again other mem)
        buffered := fun other mem => mem_append_left _ (joined.buffered other mem)
        kept := fun other mem => joined.kept other (again other mem) }
  · exact Or.inr ⟨shut.unavailable, shut.acknowledged⟩

theorem Joined.beginSend
    (inverse : ∀ data, env.zlib.inflate (env.zlib.deflate data) = data)
    (few : sent.length < 65536) :
    LinkInvariant env crcSeed (LinkStep.beginSend.apply env link) := by
  simp only [LinkStep.apply, Link.runLocal, apply]
  cases fst : link.sender.client.beginSend env with
  | mk taken c =>
    cases taken with
    | none =>
      rcases beginSend_none joined.available fst with
        rfl | ⟨rfl, -⟩ | shut
      · exact Or.inl ⟨sent, arrived, joined⟩
      · exact Or.inl ⟨sent, arrived, joined.frame
          ⟨joined.outbound.queued, joined.outbound.pending⟩ rfl rfl rfl rfl rfl rfl rfl rfl⟩
      · exact Or.inr ⟨shut.unavailable, shut.acknowledged⟩
    | some pack =>
      obtain ⟨begun, numbered, -⟩ := beginSend_some joined.outbound.sequenced fst
      obtain ⟨outbound, p, sealed⟩ := joined.outbound.beginSend fst
      obtain ⟨_, event, ⟨⟨_, _, _, rfl⟩, -⟩, rfl⟩ := begun
      have num := (numbered.encoded env.zlib crcSeed).getSequence
      have clear := opcode_clear p.channel
      -- what the receiver will decode is fixed here, before the packet is on its way
      have carries := carries_wire inverse crcSeed clear.1 clear.2
        sealed.closed sealed.doEncr sealed.doCRCTest sealed.small
      have stamped : Stamped env crcSeed (sent ++ [p])
          (BaseProtocol.prepareEncryptionAndCompression env.zlib crcSeed pack) := by
        refine ⟨p, ?_, ?_⟩
        · rw [num, joined.counter, getElem?_concat_length]
        · rw [num]
          exact carries
      have next : (link.sender.client.serverSequence + 1) % 4294967296 = (sent ++ [p]).length := by
        rw [joined.counter, length_append, length_singleton]
        exact Nat.mod_eq_of_lt (by omega)
      refine Or.inl ⟨sent ++ [p], arrived, ?_⟩
      exact
        { joined with
          outbound := outbound
          counter := next
          stamped := fun other mem => (joined.stamped other mem).append p
          flying := by
            intro other mem
            rcases mem_append.mp mem with old | new
            · exact (joined.flying other old).append p
            · rw [mem_singleton.mp new]
              simp only [joined.seed]
              exact stamped
          ready := joined.ready.append p }

theorem Joined.finishSend (k : Nat) :
    LinkInvariant env crcSeed ((LinkStep.finishSend k).apply env link) := by
  simp only [LinkStep.apply, Link.runLocal, apply]
  cases here : link.inFlight[k]? with
  | none => exact Or.inl ⟨sent, arrived, joined⟩
  | some pack =>
    have held := joined.flying pack (mem_of_getElem? here)
    cases snd : link.sender.client.finishSend env pack with
    | mk goesOn c =>
      simp only [snd]
      cases goesOn with
      | false =>
        have shut := finishSend_false (disconnected_of_available joined.available) snd
        exact Or.inr ⟨shut.unavailable, shut.acknowledged⟩
      -- the packet joins both lists at once
      | true =>
        have eq := finishSend_true snd
        subst eq
        refine Or.inl ⟨sent, arrived, ?_⟩
        exact
          { joined with
            outbound := ⟨joined.outbound.queued, joined.outbound.pending⟩
            stamped := by
              intro other mem
              rcases mem_append.mp mem with old | new
              · exact joined.stamped other old
              · rw [mem_singleton.mp new]
                exact held
            flying := fun other mem =>
              joined.flying other ((eraseIdx_sublist ..).subset mem)
            buffered := by
              intro other mem
              rcases mem_append.mp mem with old | new
              · exact mem_append_left _ (joined.buffered other old)
              · exact mem_append_right _ new
            kept := by
              intro other mem above
              rcases mem_append.mp mem with old | new
              · exact mem_append_left _ (joined.kept other old above)
              · exact mem_append_right _ new }

/-! ### Steps of the channel -/

theorem Joined.deliver (few : sent.length < 65536) (k : Nat)
    (quiet : ((LinkStep.deliver k).apply env link).receiver.errors = []) :
    LinkInvariant env crcSeed ((LinkStep.deliver k).apply env link) := by
  simp only [LinkStep.apply] at quiet ⊢
  cases here : link.sender.client.transmitted[k]? with
  | none => exact Or.inl ⟨sent, arrived, joined⟩
  | some pack =>
    simp only [here, receiveMessage] at quiet ⊢
    by_cases available : link.receiver.client.isAvailable = true
    · simp only [if_pos available] at quiet ⊢
      have limit := joined.ready.receiving.bound
      have fresh : Fresh link.receiver pack.getSequence := fun full => by omega
      obtain ⟨ready, replies⟩ := handlePacket_ready (Nat.le_of_lt few)
        (stable_replies env) joined.ready joined.replies
          (joined.stamped pack (mem_of_getElem? here)) fresh
        quiet
      -- the record of packets handed over only grows, and so does the counter
      have grows := (handlePacket_extends env pack.elementData link.receiver).1.length_le
      have before := congrArg length joined.ready.receiving.handed
      have after := congrArg length ready.receiving.handed
      have bound := ready.receiving.bound
      simp only [length_map, length_take] at before after
      have advanced : link.receiver.client.clientSequence ≤
          (handlePacket env pack.elementData link.receiver).client.clientSequence := by
        omega
      exact Or.inl ⟨sent, _,
        { joined with
          below := lt_of_lt_of_le joined.below (Int.ofNat_le.mpr advanced)
          ready := ready
          replies := replies }⟩
    · simp only [if_neg available]
      exact Or.inl ⟨sent, arrived, joined⟩

omit joined in
theorem realSequence_sent (number : Nat) (c : BaseClient) (wasSent : number < c.serverSequence)
    (few : c.serverSequence < 65536) :
    realSequence number c = number := by
  rw [realSequence_eq number (by omega) c (by omega)]
  have zero : c.serverSequence / 65536 * 65536 = 0 := by
    rw [Nat.div_eq_of_lt few, Nat.zero_mul]
  rw [zero, Nat.zero_add, if_neg (Nat.not_lt.mpr (Nat.le_of_lt wasSent))]
  simp only [if_neg (Nat.not_lt.mpr (Nat.le_of_lt wasSent)), i32_of_small (number : Int) (by omega)
    (by omega), ite_self]

theorem Joined.acknowledge
    (inverse : ∀ data, env.zlib.inflate (env.zlib.deflate data) = data)
    (few : sent.length < 65536) (k : Nat) :
    LinkInvariant env crcSeed ((LinkStep.acknowledge k).apply env link) := by
  simp only [LinkStep.apply]
  cases here : link.receiver.client.sendUnreliableBuffer[k]? with
  | none => exact Or.inl ⟨sent, arrived, joined⟩
  | some pack =>
    have seeds : link.receiver.client.crcSeed = link.sender.client.crcSeed :=
      joined.ready.seed.trans joined.seed.symm
    simp only [receiveMessage, if_pos joined.available, seeds]
    rcases joined.replies pack (mem_of_getElem? here) with
      ⟨number, acc, lt, rfl⟩ | ⟨number, rfl⟩
    · rw [handlePacket_acknowledge inverse link.sender lt]
      have limit := joined.ready.receiving.bound
      have counter := joined.counter
      have meant := realSequence_sent number link.sender.client (by omega) (by omega)
      by_cases stale : (number : Int) < link.sender.client.acknowledgedServerSequence
      · rw [acknowledgeServerPackets_stale number (by rw [meant]; exact stale)]
        exact Or.inl ⟨sent, arrived, joined⟩
      · obtain ⟨event, flushed⟩ := acknowledgeServerPackets_flush number
          joined.available (by rw [meant]; omega)
        rw [flushed, meant]
        have cut : u32 (number : Int) = number := by
          exact Nat.mod_eq_of_lt (by omega)
        refine Or.inl ⟨sent, arrived, ?_⟩
        exact
          { joined with
            outbound := ⟨joined.outbound.queued, joined.outbound.pending⟩
            known := show (-1 : Int) ≤ number by omega
            below := show (number : Int) < link.receiver.client.clientSequence by omega
            buffered := fun other mem =>
              joined.buffered other ((dropWhile_sublist _).subset mem)
            kept := by
              -- only packets up to the acknowledged number are dropped
              intro other mem above
              change (number : Int) < other.getSequence at above
              refine ReleaseQueue.mem_dropWhile_of_not _ (joined.kept other mem (by omega)) ?_
              simp only [Bool.not_eq_false', decide_eq_true_eq]
              omega }
    · rw [handlePacket_outOfOrder inverse link.sender number]
      exact Or.inl ⟨sent, arrived, joined⟩

end Joined

/-! ### Runs -/

theorem finishSend_parted (env : Env) (pack : BasePacket) {c : BaseClient}
    (acknowledged : c.acknowledgedServerSequence = -1) :
    (c.finishSend env pack).2.acknowledgedServerSequence = -1 := by
  rw [BaseClient.finishSend, datagramSend]
  split
  next ret =>
    split at ret
    · cases ret
      exact acknowledged
    · cases ret
  next thrown =>
    split at thrown
    · cases thrown
    · cases thrown
      rw [disconnectError, disconnect]
      split
      · exact acknowledged
      · rfl

variable {link : Link} {env : Env} {crcSeed : UInt32}

theorem Parted.step (parted : Parted link) (env : Env) (step : LinkStep) :
    Parted (step.apply env link) := by
  have closed := parted.unavailable
  cases step with
  | sendPacket m =>
    simp only [LinkStep.apply, Link.runLocal, apply, SenderEvent.apply,
      sendPacket_unavailable env _ closed]
    exact parted
  | beginSend =>
    simp only [LinkStep.apply, Link.runLocal, apply, beginSend_unavailable env _ closed]
    exact parted
  | finishSend k =>
    simp only [LinkStep.apply, Link.runLocal, apply]
    cases link.inFlight[k]? with
    | none => exact parted
    | some pack =>
      exact ⟨finishSend_unavailable env pack closed,
        finishSend_parted env pack parted.acknowledged⟩
  | expire => exact ⟨closed, parted.acknowledged⟩
  | checkup pack =>
    simp only [LinkStep.apply, Link.runLocal, apply, SenderEvent.apply,
      checkupServerPackets_unavailable env _ closed]
    exact parted
  | deliver k =>
    simp only [LinkStep.apply]
    cases link.sender.client.transmitted[k]? with
    | none => exact parted
    | some pack => exact ⟨closed, parted.acknowledged⟩
  | acknowledge k =>
    simp only [LinkStep.apply]
    cases link.receiver.client.sendUnreliableBuffer[k]? with
    | none => exact parted
    | some pack =>
      simp only [receiveMessage, closed, Bool.false_eq_true, if_false]
      exact parted

theorem LinkInvariant.step (inverse : ∀ data, env.zlib.inflate (env.zlib.deflate data) = data)
    (inv : LinkInvariant env crcSeed link) (few : link.sender.client.serverSequence < 65536)
    (step : LinkStep) (quiet : (step.apply env link).receiver.errors = []) :
    LinkInvariant env crcSeed (step.apply env link) := by
  rcases inv with ⟨sent, arrived, joined⟩ | parted
  · rw [joined.counter] at few
    cases step with
    | sendPacket m => exact joined.sendPacket m
    | beginSend => exact joined.beginSend inverse few
    | finishSend k => exact joined.finishSend k
    | expire => exact joined.expire
    | checkup pack => exact joined.checkup pack
    | deliver k => exact joined.deliver few k quiet
    | acknowledge k => exact joined.acknowledge inverse few k
  · exact Or.inr (parted.step env step)

theorem LinkStep.apply_errors (env : Env) (step : LinkStep) (link : Link) :
    link.receiver.errors <+: (step.apply env link).receiver.errors := by
  cases step with
  | deliver k =>
    simp only [LinkStep.apply]
    cases link.sender.client.transmitted[k]? with
    | none => exact prefix_rfl
    | some pack =>
      simp only [receiveMessage]
      split
      · exact (handlePacket_extends env pack.elementData link.receiver).2
      · exact prefix_rfl
  | acknowledge k =>
    simp only [LinkStep.apply]
    cases link.receiver.client.sendUnreliableBuffer[k]? <;> exact prefix_rfl
  | _ => exact prefix_rfl

theorem joined_start (env : Env) (crcSeed : UInt32) (maxOutstandingPackets : Nat) :
    Joined env crcSeed [] [] (Link.start crcSeed maxOutstandingPackets) := by
  have nothing : ∀ (P : BasePacket → Prop), ∀ pack ∈ ([] : List BasePacket), P pack :=
    fun P pack mem => absurd mem not_mem_nil
  exact
    { available := rfl
      outbound := ⟨nothing _, [], Or.inl ⟨rfl, rfl⟩⟩
      counter := rfl
      seed := rfl
      known := le_refl _
      below := show (-1 : Int) < 0 by decide
      stamped := nothing _
      flying := nothing _
      buffered := nothing _
      kept := nothing _
      ready := ⟨⟨Nat.zero_le _, rfl, Pairwise.nil, nothing _, fun i less => absurd less
        (Nat.not_lt_zero i), nothing _, fun i mem => absurd mem not_mem_nil⟩, nothing _,
        rfl⟩
      replies := nothing _ }

theorem runLink_invariant (inverse : ∀ data, env.zlib.inflate (env.zlib.deflate data) = data)
    {maxOutstandingPackets : Nat} {steps : List LinkStep}
    (few : ∀ k ≤ steps.length, (runLink env (steps.take k)
      (Link.start crcSeed maxOutstandingPackets)).sender.client.serverSequence < 65536)
    (quiet : (runLink env steps (Link.start crcSeed maxOutstandingPackets)).receiver.errors = []) :
    LinkInvariant env crcSeed (runLink env steps (Link.start crcSeed maxOutstandingPackets)) := by
  -- from the back: an error that was logged stays, so a quiet run has quiet prefixes only
  induction steps using reverseRecOn with
  | nil => exact Or.inl ⟨[], [], joined_start env crcSeed maxOutstandingPackets⟩
  | append_singleton front step ih =>
    have split : runLink env (front ++ [step]) (Link.start crcSeed maxOutstandingPackets) =
        step.apply env (runLink env front (Link.start crcSeed maxOutstandingPackets)) :=
      foldl_append
    rw [split] at quiet ⊢
    have earlier := step.apply_errors env
      (runLink env front (Link.start crcSeed maxOutstandingPackets))
    rw [quiet] at earlier
    have counts : ∀ k ≤ front.length, (runLink env (front.take k)
        (Link.start crcSeed maxOutstandingPackets)).sender.client.serverSequence < 65536 := by
      intro k hin
      have here := few k (by rw [length_append]; omega)
      rwa [take_append_of_le_length hin] at here
    have last := counts front.length (Nat.le_refl _)
    rw [take_length] at last
    exact (ih counts (prefix_nil.mp earlier)).step inverse last step quiet

/-- The receiver has handed the packet over: its payload stands at its place in the
record. -/
def HandedOver (env : Env) (crcSeed : UInt32) (pack : BasePacket) (receiver : Session) : Prop :=
  ∃ p : ReliablePacket, receiver.handed[pack.getSequence]? = some p.entry ∧
    Carries env crcSeed pack.elementData p.channel.opcode (p.bytes pack.getSequence)

/-- While connected, a packet sent is in the sender's buffer or was handed over. -/
theorem sent_buffered_or_handedOver (env : Env)
    (inverse : ∀ data, env.zlib.inflate (env.zlib.deflate data) = data) (crcSeed : UInt32)
    (maxOutstandingPackets : Nat) (steps : List LinkStep)
    (few : ∀ k ≤ steps.length, (runLink env (steps.take k)
      (Link.start crcSeed maxOutstandingPackets)).sender.client.serverSequence < 65536)
    (link : Link) (ran : link = runLink env steps (Link.start crcSeed maxOutstandingPackets))
    (quiet : link.receiver.errors = []) :
    link.sender.client.acknowledgedServerSequence < link.receiver.client.clientSequence ∧
    (link.sender.client.isAvailable = true → ∀ pack ∈ link.sender.client.transmitted,
      pack ∈ link.sender.client.sequenceBuffer ∨ HandedOver env crcSeed pack link.receiver) := by
  subst ran
  rcases runLink_invariant inverse few quiet with
    ⟨sent, arrived, joined⟩ | parted
  · refine ⟨joined.below, fun _ pack mem => ?_⟩
    obtain ⟨p, found, carries⟩ := joined.stamped pack mem
    have below := joined.below
    rcases Nat.lt_or_ge pack.getSequence (runLink env steps
        (Link.start crcSeed maxOutstandingPackets)).receiver.client.clientSequence
      with acc | later
    · refine Or.inr ⟨p, ?_, carries⟩
      rw [joined.ready.receiving.handed, getElem?_map, getElem?_take_of_lt acc,
        found]
      rfl
    · exact Or.inl (joined.kept pack mem (by omega))
  · refine ⟨?_, fun available => ?_⟩
    · rw [parted.acknowledged]
      omega
    · exact absurd available (by simp [parted.unavailable])

def shortMessage : Message := ⟨0, [0, 0], false⟩

def lossySteps : List LinkStep :=
  [.sendPacket shortMessage, .beginSend, .finishSend 0, .deliver 0, .acknowledge 0,
    .sendPacket shortMessage, .beginSend, .finishSend 0]

theorem sent_buffered_or_handedOver_lossy :
    (runLink Env.plain lossySteps (Link.start 0 5000)).sender.client.transmitted.map
        BasePacket.getSequence = [0, 1] ∧
    ∀ pack ∈ (runLink Env.plain lossySteps (Link.start 0 5000)).sender.client.transmitted,
      pack ∈ (runLink Env.plain lossySteps (Link.start 0 5000)).sender.client.sequenceBuffer ∨
      HandedOver Env.plain 0 pack (runLink Env.plain lossySteps (Link.start 0 5000)).receiver :=
  ⟨by decide +kernel, (sent_buffered_or_handedOver Env.plain (fun _ => rfl) 0 5000 lossySteps
    (by decide +kernel) _ rfl (by decide +kernel)).2 (by decide +kernel)⟩

theorem closed_sender_forgets :
    let env := { Env.plain with sendReturns := fun n => n == 0 }
    let link := runLink env [.sendPacket shortMessage, .beginSend, .finishSend 0,
      .sendPacket shortMessage, .beginSend, .finishSend 0] (Link.start 0 5000)
    link.sender.client.transmitted.map getSequence = [0] ∧
    link.sender.client.sequenceBuffer = [] ∧ link.receiver.handed = [] ∧
    link.receiver.errors = [] ∧ link.sender.client.serverSequence = 2 := by
  decide +kernel

end Engine3.BasePacketHandler
