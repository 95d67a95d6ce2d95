import Engine3.Proto.SenderWindow

/-!
# Retransmission

`sendReliablePackets` gives the lock up while it encodes a packet, so several threads may
hold a numbered packet that is not in `sequenceBuffer` yet. The states of a sender are
those that any interleaving of such threads with the other calls reaches, whatever the
peer acknowledges.
-/
namespace Engine3.BaseClient

open MachineInt List

structure Sender where
  client : BaseClient
  inFlight : List BasePacket
  deriving DecidableEq, Repr

inductive SenderStep
  | call (event : SenderEvent)
  | beginSend
  | finishSend (k : Nat)

def SenderStep.apply (env : Env) (step : SenderStep) (s : Sender) : Sender :=
  match step with
  | .call event => { s with client := event.apply env s.client }
  | .beginSend =>
    match s.client.beginSend env with
    | (none, c) => { s with client := c }
    | (some pack, c) =>
      { client := c
        inFlight := s.inFlight ++
          [BaseProtocol.prepareEncryptionAndCompression env.zlib c.crcSeed pack] }
  | .finishSend k =>
    match s.inFlight[k]? with
    | none => s
    | some pack =>
      { client := (s.client.finishSend env pack).2, inFlight := s.inFlight.eraseIdx k }

def runSender (env : Env) (steps : List SenderStep) (s : Sender) : Sender :=
  steps.foldl (fun s step => step.apply env s) s

/-! ### Counters of a connected sender -/

structure Counted (c : BaseClient) : Prop where
  known : -1 ≤ c.acknowledgedServerSequence
  signed : c.acknowledgedServerSequence < 2147483648
  word : c.serverSequence < 4294967296
  numbers : ∀ pack ∈ c.sequenceBuffer, pack.getSequence < 4294967296
  sequenced : Sequenced c

variable {c c' : BaseClient}

theorem Counted.queues (counted : Counted c) (queues : Queues c c') :
    Counted c' := by
  obtain ⟨⟨_, _, _, rfl⟩, seq⟩ := queues
  exact ⟨counted.known, counted.signed, counted.word, counted.numbers, seq⟩

theorem Counted.noPacket (counted : Counted c) (nothing : NoPacket c c') :
    Counted c' ∨ Shut c' := by
  rcases nothing with rfl | ⟨rfl, -⟩ | shut
  · exact Or.inl counted
  · exact Or.inl ⟨counted.known, counted.signed, counted.word, counted.numbers,
      counted.sequenced.queued, counted.sequenced.multi⟩
  · exact Or.inr shut

theorem Counted.begun (counted : Counted c) (begun : Begun c c') :
    Counted c' := by
  obtain ⟨_, event, ⟨⟨_, _, _, rfl⟩, seq⟩, rfl⟩ := begun
  exact ⟨counted.known, counted.signed, Nat.mod_lt _ (by decide), counted.numbers, seq.queued,
    seq.multi⟩

theorem Counted.finished {env : Env} {pack : BasePacket} (counted : Counted c)
    (word : pack.getSequence < 4294967296) (sent : finishSend env pack c = (true, c')) :
    Counted c' := by
  rw [finishSend_true sent]
  refine ⟨counted.known, counted.signed, counted.word, fun other mem => ?_,
    counted.sequenced.queued, counted.sequenced.multi⟩
  rcases mem_append.mp mem with old | new
  · exact counted.numbers other old
  · rw [mem_singleton.mp new]
    exact word

variable (env : Env)

theorem Counted.sendReliablePackets (count : Nat) (counted : Counted c)
    (available : c.isAvailable = true) :
    Counted (sendReliablePackets env count c) ∨
      Shut (sendReliablePackets env count c) := by
  induction count generalizing c with
  | zero => exact Or.inl counted
  | succ count ih =>
    rw [sendReliablePackets]
    cases fst : beginSend env c with
    | mk taken begun =>
      cases taken with
      | none => exact counted.noPacket (beginSend_none available fst)
      | some pack =>
        obtain ⟨began, numbered, -⟩ := beginSend_some counted.sequenced fst
        have encoded := (numbered.encoded env.zlib begun.crcSeed).getSequence
        have still : begun.isAvailable = true := by
          obtain ⟨_, _, ⟨⟨_, _, _, rfl⟩, -⟩, rfl⟩ := began
          exact available
        simp only
        cases snd : finishSend env _ begun with
        | mk goesOn finished =>
          cases goesOn with
          | true =>
            have next := (counted.begun began).finished (encoded ▸ counted.word) snd
            refine ih next ?_
            rw [finishSend_true snd]
            exact still
          | false => exact Or.inr (finishSend_false (disconnected_of_available still) snd)

theorem realSequence_signed {seq : Nat} (lt : seq < 65536) (word : c.serverSequence < 4294967296) :
    realSequence seq c < 2147483648 := by
  rw [realSequence_eq seq lt c word]
  unfold i32
  split
  · dsimp only
    split <;> omega
  · split <;> omega

theorem Counted.acknowledge (counted : Counted c) (available : c.isAvailable = true) (seq : Nat)
    (lt : seq < 65536) :
    Counted (acknowledgeServerPackets seq c) := by
  rcases lt_or_ge (realSequence seq c) c.acknowledgedServerSequence with stale | current
  · rw [acknowledgeServerPackets_stale seq stale]
    exact counted
  · obtain ⟨event, flushed⟩ := acknowledgeServerPackets_flush seq available current
    rw [flushed]
    refine ⟨le_trans counted.known current, realSequence_signed lt counted.word,
      counted.word, fun pack mem => ?_,
      counted.sequenced.queued, counted.sequenced.multi⟩
    exact counted.numbers pack ((dropWhile_sublist _).subset mem)

theorem Counted.step (counted : Counted c) (available : c.isAvailable = true)
    (event : SenderEvent) :
    Counted (event.apply env c) ∨ Shut (event.apply env c) := by
  cases event with
  | sendPacket pack =>
    rcases sendPacket_cases env pack counted.sequenced with queues | shut
    · exact Or.inl (counted.queues queues)
    · exact Or.inr shut
  | sendReliablePackets count => exact counted.sendReliablePackets env count available
  | acknowledge seq => exact Or.inl (counted.acknowledge available seq.toNat seq.toNat_lt)
  | expire => exact Or.inl ⟨counted.known, counted.signed, counted.word, counted.numbers,
      counted.sequenced.queued, counted.sequenced.multi⟩
  | checkup pack =>
    rcases checkupServerPackets_cases env pack c with eq | ⟨-, _, _, _, eq⟩ | shut
    · rw [SenderEvent.apply, eq]
      exact Or.inl counted
    · refine Or.inl ?_
      rw [SenderEvent.apply, eq]
      exact ⟨counted.known, counted.signed, counted.word, counted.numbers, counted.sequenced.queued,
        counted.sequenced.multi⟩
    · exact Or.inr shut

/-! ### Reachable senders -/

structure Reachable (s : Sender) : Prop where
  counted : s.client.isAvailable = true → Counted s.client
  numbers : ∀ pack ∈ s.inFlight, pack.getSequence < 4294967296

theorem finishSend_unavailable (pack : BasePacket) (closed : c.isAvailable = false) :
    (finishSend env pack c).2.isAvailable = false := by
  rw [finishSend, datagramSend]
  split
  next ret =>
    split at ret
    · cases ret
      exact closed
    · cases ret
  next thrown =>
    split at thrown
    · cases thrown
    · cases thrown
      rw [disconnectError, disconnect]
      split
      · simp [isAvailable]
      · exact (close_shut _).unavailable

theorem SenderEvent.apply_unavailable (event : SenderEvent) (closed : c.isAvailable = false) :
    (event.apply env c).isAvailable = false := by
  cases event with
  | sendPacket pack => rwa [apply, sendPacket_unavailable env c closed]
  | sendReliablePackets count => rwa [apply, sendReliablePackets_unavailable env c closed]
  | acknowledge seq => rwa [apply, acknowledgeServerPackets_unavailable c closed]
  | expire => exact closed
  | checkup pack => rwa [apply, checkupServerPackets_unavailable env c closed]

section Reach

variable (env : Env) {s : Sender} (reachable : Reachable s)

theorem Reachable.of_unavailable {s : Sender} (closed : s.client.isAvailable = false)
    (numbers : ∀ pack ∈ s.inFlight, pack.getSequence < 4294967296) : Reachable s :=
  ⟨fun available => absurd available (by simp [closed]), numbers⟩

include reachable

theorem Reachable.call (event : SenderEvent) :
    Reachable { s with client := event.apply env s.client } := by
  cases op : s.client.isAvailable with
  | false => exact .of_unavailable (event.apply_unavailable env op) reachable.numbers
  | true =>
    rcases (reachable.counted op).step env op event with next | shut
    · exact ⟨fun _ => next, reachable.numbers⟩
    · exact .of_unavailable shut.unavailable reachable.numbers

theorem Reachable.beginSend : Reachable (SenderStep.apply env .beginSend s) := by
  rw [SenderStep.apply]
  cases op : s.client.isAvailable with
  | false =>
    rw [beginSend_unavailable env _ op]
    exact .of_unavailable op reachable.numbers
  | true =>
    have counted := reachable.counted op
    cases fst : s.client.beginSend env with
    | mk taken begun =>
      cases taken with
      | none =>
        rcases counted.noPacket (beginSend_none op fst) with next | shut
        · exact ⟨fun _ => next, reachable.numbers⟩
        · exact .of_unavailable shut.unavailable reachable.numbers
      | some pack =>
        obtain ⟨began, numbered, -⟩ := beginSend_some counted.sequenced fst
        refine ⟨fun _ => counted.begun began, fun other mem => ?_⟩
        rcases mem_append.mp mem with old | new
        · exact reachable.numbers other old
        · rw [mem_singleton.mp new, (numbered.encoded env.zlib begun.crcSeed).getSequence]
          exact counted.word

theorem Reachable.finishSend (k : Nat) : Reachable (SenderStep.apply env (.finishSend k) s) := by
  rw [SenderStep.apply]
  cases here : s.inFlight[k]? with
  | none => exact reachable
  | some pack =>
    have fewer : ∀ other ∈ s.inFlight.eraseIdx k, other.getSequence < 4294967296 :=
      fun other mem => reachable.numbers other ((eraseIdx_sublist ..).subset mem)
    cases op : s.client.isAvailable with
    | false => exact .of_unavailable (finishSend_unavailable env _ op) fewer
    | true =>
      cases snd : s.client.finishSend env pack with
      | mk goesOn finished =>
        simp only [snd]
        cases goesOn with
        | true =>
          have num := reachable.numbers pack (mem_of_getElem? here)
          exact ⟨fun _ => (reachable.counted op).finished num snd, fewer⟩
        | false =>
          have shut := finishSend_false (disconnected_of_available op) snd
          exact .of_unavailable shut.unavailable fewer

theorem Reachable.step (step : SenderStep) : Reachable (step.apply env s) := by
  cases step with
  | call event => exact reachable.call env event
  | beginSend => exact reachable.beginSend env
  | finishSend k => exact reachable.finishSend env k

end Reach

theorem runSender_reachable (steps : List SenderStep) (s : Sender) (reachable : Reachable s) :
    Reachable (runSender env steps s) := by
  induction steps generalizing s with
  | nil => exact reachable
  | cons step rest ih => exact ih _ (reachable.step env step)

theorem reachable_connected (crcSeed : UInt32) (maxOutstandingPackets : Nat) :
    Reachable ⟨connected crcSeed maxOutstandingPackets, []⟩ := by
  have sending := sending_connected crcSeed maxOutstandingPackets
  refine ⟨fun _ => ⟨sending.known, sending.signed, show 0 < 4294967296 by decide, ?_,
    sending.sequenced⟩, ?_⟩
  · exact fun pack mem => absurd mem not_mem_nil
  · exact fun pack mem => absurd mem not_mem_nil

/-! ### The checkup event -/

/-- The event sent packets from the front of the buffer again and is on the schedule once
more, for the packet it fired for. -/
def Resends (pack : BasePacket) (c c' : BaseClient) : Prop :=
  (∃ count, 0 < count ∧ c'.transmitted = c.transmitted ++ c.sequenceBuffer.take count) ∧
  c'.checkupEvent.scheduled = true ∧ c'.checkupEvent.packet = some pack

theorem disconnectError_unscheduled {c : BaseClient} (connected : c.disconnected = false) :
    (disconnectError env c).checkupEvent.scheduled = false := by
  rw [disconnectError, disconnect, if_neg (by simp [connected]), if_pos (by simp)]
  rfl

def resendCount (env : Env) (c : BaseClient) : Nat :=
  min c.sequenceBuffer.length (maxPacketResent env c)

/-- Exactly when an acknowledgement came that did not cover it, and the socket takes it. -/
theorem checkup_resends_iff (env : Env) (crcSeed : UInt32) (maxOutstandingPackets : Nat)
    (steps : List SenderStep) (c : BaseClient)
    (reached : (runSender env steps ⟨connected crcSeed maxOutstandingPackets, []⟩).client = c)
    (available : c.isAvailable = true) (fired : c.checkupEvent.scheduled = false)
    (pack : BasePacket) (waiting : pack ∈ c.sequenceBuffer) :
    Resends pack c (checkupServerPackets env pack c) ↔
      0 ≤ c.acknowledgedServerSequence ∧ c.acknowledgedServerSequence < pack.getSequence ∧
      ∀ i < resendCount env c, env.sendReturns (c.sends + i) = true := by
  have reachable := runSender_reachable env steps _
    (reachable_connected crcSeed maxOutstandingPackets)
  have counted := reachable.counted (by rw [reached]; exact available)
  rw [reached] at counted
  have word := counted.numbers pack waiting
  have known := counted.known
  have signed := counted.signed
  have nonempty : c.sequenceBuffer.isEmpty = false := by
    rw [isEmpty_eq_false_iff]
    exact ne_nil_of_mem waiting
  -- minus one is the largest number as a `uint32`, so nothing is resent before the first
  -- acknowledgement
  have compared : pack.getSequence > u32 c.acknowledgedServerSequence ↔
      0 ≤ c.acknowledgedServerSequence ∧ c.acknowledgedServerSequence < pack.getSequence := by
    unfold u32
    omega
  rw [checkupServerPackets, if_neg (by simp [available, fired, nonempty]), ← and_assoc, ← compared]
  by_cases later : pack.getSequence > u32 c.acknowledgedServerSequence
  · rw [if_pos later]
    have length : (c.sequenceBuffer.take (maxPacketResent env c)).length = resendCount env c := by
      rw [length_take, resendCount, Nat.min_comm]
    cases again : resendPackets env c with
    | ok a c' =>
      obtain ⟨rfl, works⟩ := resend_returned again
      rw [length] at works
      refine ⟨fun _ => ⟨later, works⟩, fun _ => ⟨⟨_, ?_, rfl⟩, rfl, rfl⟩⟩
      exact lt_of_lt_of_le (by decide) (Nat.le_max_left 5 _)
    | error e c' =>
      obtain ⟨same, i, less, fails⟩ := resend_thrown (socket_of_available available) again
      rw [length] at less
      have stopped := disconnectError_unscheduled env
        (same.trans (disconnected_of_available available))
      refine ⟨fun resends => ?_, fun works => ?_⟩
      · exact absurd resends.2.1 (by simp [stopped])
      · exact absurd (works.2 i less) (by simp [fails])
  · rw [if_neg later]
    refine ⟨fun resends => ?_, fun works => absurd works.1 later⟩
    exact absurd resends.2.1 (by simp [fired])

def secondPacket : BasePacket :=
  BaseProtocol.prepareEncryptionAndCompression ⟨id, id⟩ 0
    { shortPacket with
      sequence := 1, toStream := ⟨[0x00, 0x09, 0, 1, 0, 0, 0, 0, 0], 9⟩ }

def afterAcknowledgement : List SenderStep :=
  [.call (.sendPacket shortPacket), .call (.sendReliablePackets 1),
    .call (.sendPacket shortPacket), .call (.sendReliablePackets 1),
    .call (.acknowledge 0), .call .expire]

theorem checkup_resends_after_acknowledgement :
    Resends secondPacket
      (runSender Env.plain afterAcknowledgement ⟨connected 0 5000, []⟩).client
      (checkupServerPackets Env.plain secondPacket
        (runSender Env.plain afterAcknowledgement ⟨connected 0 5000, []⟩).client) :=
  (checkup_resends_iff Env.plain 0 5000 afterAcknowledgement _ rfl (by decide +kernel)
    (by decide +kernel) secondPacket (by decide +kernel)).mpr
    ⟨by decide +kernel, by decide +kernel, fun _ _ => rfl⟩

def beforeAcknowledgement : List SenderStep :=
  [.call (.sendPacket shortPacket), .call (.sendReliablePackets 1), .call .expire]

theorem checkup_stalls_before_acknowledgement :
    let c := (runSender Env.plain beforeAcknowledgement ⟨connected 0 5000, []⟩).client
    c.isAvailable = true ∧ c.checkupEvent.scheduled = false ∧
    ∃ pack ∈ c.sequenceBuffer, c.checkupEvent.packet.map BasePacket.getSequence =
      some pack.getSequence ∧ checkupServerPackets Env.plain pack c = c := by
  decide +kernel

end Engine3.BaseClient
