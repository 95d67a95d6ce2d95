import Engine3.Library.Exec
import Engine3.Proto.BaseClient

/-!
# What the sending calls change

Each call of the sending side is described once by what it leaves of the client: it only
changes the queues, takes and numbers one packet, transmits, or closes the connection.
-/
namespace Engine3.BaseClient

open MachineInt BaseProtocol BaseMultiPacket

/-! ### What waits in front of the window -/

def MultiSequenced (multi : BaseMultiPacket) : Prop :=
  multi.doSeq = true ∧ ∀ pack, multi.singlePacket = some pack → pack.doSeq = true

structure Sequenced (c : BaseClient) : Prop where
  queued : ∀ pack ∈ c.sendBuffer, pack.doSeq = true
  multi : ∀ multi, c.bufferedPacket = some multi → MultiSequenced multi

structure Queues (c c' : BaseClient) : Prop where
  frame : ∃ buffer multi unreliable, c' = { c with
    sendBuffer := buffer, bufferedPacket := multi, sendUnreliableBuffer := unreliable }
  sequenced : Sequenced c'

structure Shut (c : BaseClient) : Prop where
  unavailable : c.isAvailable = false
  emptied : c.sequenceBuffer = []
  acknowledged : c.acknowledgedServerSequence = -1

theorem close_shut (c : BaseClient) : Shut c.close :=
  ⟨by simp [isAvailable, close], rfl, rfl⟩

theorem disconnected_of_available {c : BaseClient} (available : c.isAvailable = true) :
    c.disconnected = false := by
  simp only [isAvailable, Bool.and_eq_true, Bool.not_eq_true', Bool.or_eq_false_iff] at available
  exact available.2.2

theorem disconnect_shut (env : Env) {c : BaseClient} (connected : c.disconnected = false) :
    Shut (disconnect env c) := by
  rw [disconnect, if_neg (by simp [connected])]
  split
  · exact close_shut c
  · simp only [datagramSend]
    split
    · exact close_shut _
    · exact close_shut _

theorem disconnectError_shut (env : Env) {c : BaseClient} (connected : c.disconnected = false) :
    Shut (disconnectError env c) :=
  disconnect_shut env connected

/-! ### Queueing -/

structure Waiting (P : BasePacket → Prop) (Q : BaseMultiPacket → Prop) (c : BaseClient) :
    Prop where
  queued : ∀ pack ∈ c.sendBuffer, P pack
  multi : ∀ multi, c.bufferedPacket = some multi → Q multi

structure Packaged (P : BasePacket → Prop) (Q : BaseMultiPacket → Prop) (pack : BasePacket) :
    Prop where
  direct : pack.size < 490 → P pack
  opens : ∀ s, joinable pack pack.toStream = .ok true s → Q (new pack)
  adds : ∀ s, joinable pack pack.toStream = .ok true s → ∀ multi, Q multi → Q (multi.add pack).2
  cuts : ∀ frag : BaseFragmentedPacket, frag.singlePacket = some pack → P frag.getFragment.1

theorem getFragment_singlePacket (frag : BaseFragmentedPacket) :
    frag.getFragment.2.singlePacket = frag.singlePacket := by
  rw [BaseFragmentedPacket.getFragment]
  split <;> rfl

section Waiting

variable {P : BasePacket → Prop} {Q : BaseMultiPacket → Prop} {c : BaseClient}
  (waiting : Waiting P Q c)

include waiting

theorem Waiting.sendSequenced (pack : BasePacket) (good : P pack) :
    Waiting P Q (sendSequenced pack c) := by
  rw [BaseClient.sendSequenced]
  split
  · constructor
    · intro other mem
      rcases List.mem_append.mp mem with old | new
      · exact waiting.queued other old
      · rw [List.mem_singleton.mp new]
        exact good
    · exact waiting.multi
  · exact waiting

theorem Waiting.sendFragments (pack : BasePacket) (packaged : Packaged P Q pack) (fuel : Nat)
    (frag : BaseFragmentedPacket) (whole : frag.singlePacket = some pack) :
    Waiting P Q (sendFragments fuel frag c) := by
  induction fuel generalizing frag c with
  | zero => exact waiting
  | succ fuel ih =>
    rw [sendFragments]
    split
    · exact ih (waiting.sendSequenced _ (packaged.cuts frag whole)) _
        ((getFragment_singlePacket frag).trans whole)
    · exact waiting

theorem Waiting.hold (multi : Option BaseMultiPacket) (good : ∀ m, multi = some m → Q m) :
    Waiting P Q { c with bufferedPacket := multi } :=
  ⟨waiting.queued, good⟩

variable (packs : ∀ multi, Q multi → P multi.getPacket)
include packs

theorem Waiting.flushBufferedPacket : Waiting P Q c.flushBufferedPacket := by
  rw [BaseClient.flushBufferedPacket]
  cases held : c.bufferedPacket with
  | none => exact waiting
  | some multi =>
    have good := packs multi (waiting.multi multi held)
    exact (waiting.sendSequenced _ good).hold none (fun m none => nomatch none)

theorem Waiting.bufferMultiPacket (pack : BasePacket) (packaged : Packaged P Q pack)
    (lt : pack.size < 490) (c' : BaseClient)
    (ret : BaseClient.bufferMultiPacket pack c = .ok () c') : Waiting P Q c' := by
  have opens : ∀ s, joinable pack pack.toStream = .ok true s →
      ∀ m, some (new pack) = some m → Q m := by
    rintro s joins _ ⟨⟩
    exact packaged.opens s joins
  rw [BaseClient.bufferMultiPacket] at ret
  split at ret
  · cases ret
  next multi s held joins =>
    -- joined with the packet under construction, or the first of the next one
    have added := packaged.adds s joins multi (waiting.multi multi held)
    split at ret
    next multi' res =>
      cases ret
      rw [res] at added
      exact waiting.hold _ (by rintro _ ⟨⟩; exact added)
    next multi' res =>
      cases ret
      rw [res] at added
      exact (waiting.sendSequenced _ (packs _ added)).hold _ (opens s joins)
  next multi s held joins =>
    cases ret
    have good := packs multi (waiting.multi multi held)
    have flushed := (waiting.sendSequenced _ good).hold none (fun m none => nomatch none)
    exact flushed.sendSequenced pack (packaged.direct lt)
  next s held joins =>
    cases ret
    exact waiting.hold _ (opens s joins)
  next s held joins =>
    cases ret
    exact waiting.sendSequenced pack (packaged.direct lt)

end Waiting

variable {pack : BasePacket} {c c' : BaseClient} {e : Exception} {multi : BaseMultiPacket}

theorem bufferMultiPacket_error (thrown : bufferMultiPacket pack c = .error e c') : c' = c := by
  rw [bufferMultiPacket] at thrown
  split at thrown
  · cases thrown
    rfl
  · split at thrown <;> cases thrown
  · cases thrown
  · cases thrown
  · cases thrown

variable {P : BasePacket → Prop} {Q : BaseMultiPacket → Prop} {c c' : BaseClient} {env : Env}
  {pack : BasePacket} {number : Nat} {packs : List BasePacket}

theorem Waiting.sendPacket (waiting : Waiting P Q c) (packs : ∀ multi, Q multi → P multi.getPacket)
    (env : Env) (pack : BasePacket) (packaged : pack.doSeq = true → Packaged P Q pack) :
    Waiting P Q (sendPacket env pack c) ∨ Shut (BaseClient.sendPacket env pack c) := by
  rw [BaseClient.sendPacket]
  split
  next available =>
    split
    next numbered =>
      split
      · have flushed := waiting.flushBufferedPacket packs
        rw [sendFragmented]
        split
        · exact Or.inl (flushed.sendFragments pack (packaged numbered) _ _ rfl)
        · exact Or.inl flushed
      next small =>
        cases ends : BaseClient.bufferMultiPacket pack c with
        | ok a c' =>
          exact Or.inl (waiting.bufferMultiPacket packs pack (packaged numbered) (by omega) c' ends)
        | error e c' =>
          rw [bufferMultiPacket_error ends]
          exact Or.inr (disconnectError_shut env (disconnected_of_available available))
    · exact Or.inl ⟨waiting.queued, waiting.multi⟩
  · exact Or.inl waiting

theorem Waiting.getNextSequencedPacket (waiting : Waiting P Q c)
    (packs : ∀ multi, Q multi → P multi.getPacket)
    (taken : getNextSequencedPacket env c = (some pack, c')) : P pack ∧ Waiting P Q c' := by
  rw [BaseClient.getNextSequencedPacket] at taken
  split at taken
  next =>
    simp only at taken
    split at taken <;> cases taken
  next =>
    split at taken
    next first rest queue =>
      cases taken
      constructor
      · exact waiting.queued pack (queue ▸ List.mem_cons_self)
      · exact ⟨fun other mem => waiting.queued other (queue ▸ List.mem_cons_of_mem _ mem),
          waiting.multi⟩
    next queue =>
      split at taken
      next multi held =>
        cases taken
        constructor
        · exact packs multi (waiting.multi multi held)
        · exact waiting.hold none (fun m none => nomatch none)
      · cases taken

/-! ### Every packet takes a number -/

theorem getFragment_doSeq (frag : BaseFragmentedPacket) : frag.getFragment.1.doSeq = true := by
  rw [BaseFragmentedPacket.getFragment]
  split <;> rfl

theorem multiSequenced_new (pack : BasePacket) (numbered : pack.doSeq = true) :
    MultiSequenced (new pack) := by
  refine ⟨rfl, fun single eq => ?_⟩
  cases eq
  exact numbered

theorem multiSequenced_openMulti (numbered : MultiSequenced multi) :
    MultiSequenced multi.openMulti := by
  rw [openMulti]
  split
  · exact numbered
  · exact ⟨numbered.1, fun _ none => nomatch none⟩

theorem multiSequenced_add (pack : BasePacket) (multi : BaseMultiPacket)
    (numbered : MultiSequenced multi) : MultiSequenced (multi.add pack).2 := by
  have opened := multiSequenced_openMulti numbered
  rw [add]
  split
  · exact opened
  · exact opened

theorem MultiSequenced.getPacket (numbered : MultiSequenced multi) :
    multi.getPacket.doSeq = true := by
  rw [BaseMultiPacket.getPacket]
  cases held : multi.singlePacket with
  | none => exact numbered.1
  | some pack => exact numbered.2 pack held

theorem Sequenced.waiting (seq : Sequenced c) :
    Waiting (fun pack => pack.doSeq = true) MultiSequenced c :=
  ⟨seq.queued, seq.multi⟩

theorem Waiting.sequenced (waiting : Waiting (fun pack => pack.doSeq = true) MultiSequenced c) :
    Sequenced c :=
  ⟨waiting.queued, waiting.multi⟩

theorem packaged_sequenced (pack : BasePacket) (numbered : pack.doSeq = true) :
    Packaged (fun pack => pack.doSeq = true) MultiSequenced pack where
  direct _ := numbered
  opens _ _ := multiSequenced_new pack numbered
  adds _ _ := multiSequenced_add pack
  cuts frag _ := getFragment_doSeq frag

/-! ### The rest of the client stays as it is -/

def Requeued (c c' : BaseClient) : Prop :=
  ∃ buffer multi unreliable, c' = { c with
    sendBuffer := buffer, bufferedPacket := multi, sendUnreliableBuffer := unreliable }

theorem Requeued.refl (c : BaseClient) : Requeued c c := ⟨_, _, _, rfl⟩

theorem Requeued.trans {a b : BaseClient} (fst : Requeued a b) (snd : Requeued b c) :
    Requeued a c := by
  obtain ⟨_, _, _, rfl⟩ := fst
  obtain ⟨buffer, multi, unreliable, rfl⟩ := snd
  exact ⟨buffer, multi, unreliable, rfl⟩

theorem Requeued.hold (multi : Option BaseMultiPacket) (c : BaseClient) :
    Requeued c { c with bufferedPacket := multi } := ⟨_, _, _, rfl⟩

theorem sendSequenced_requeued (pack : BasePacket) (c : BaseClient) :
    Requeued c (sendSequenced pack c) := by
  rw [sendSequenced]
  split <;> exact ⟨_, _, _, rfl⟩

theorem sendFragments_requeued (fuel : Nat) (frag : BaseFragmentedPacket) (c : BaseClient) :
    Requeued c (sendFragments fuel frag c) := by
  induction fuel generalizing frag c with
  | zero => exact Requeued.refl c
  | succ fuel ih =>
    rw [sendFragments]
    split
    · exact (sendSequenced_requeued _ c).trans (ih _ _)
    · exact Requeued.refl c

theorem flushBufferedPacket_requeued (c : BaseClient) : Requeued c c.flushBufferedPacket := by
  rw [flushBufferedPacket]
  split
  · exact Requeued.refl c
  · exact (sendSequenced_requeued _ c).trans (Requeued.hold none _)

theorem bufferMultiPacket_requeued (ret : bufferMultiPacket pack c = .ok () c') :
    Requeued c c' := by
  rw [bufferMultiPacket] at ret
  split at ret
  · cases ret
  · split at ret
    · cases ret
      exact Requeued.hold _ c
    · cases ret
      exact (sendSequenced_requeued _ c).trans (Requeued.hold _ _)
  · cases ret
    exact ((sendSequenced_requeued _ c).trans (Requeued.hold none _)).trans
      (sendSequenced_requeued pack _)
  · cases ret
    exact Requeued.hold _ c
  · cases ret
    exact sendSequenced_requeued pack c

theorem sendPacket_requeued (env : Env) (pack : BasePacket) (c : BaseClient) :
    Requeued c (sendPacket env pack c) ∨ Shut (sendPacket env pack c) := by
  rw [sendPacket]
  split
  next available =>
    split
    · split
      · rw [sendFragmented]
        split
        · exact Or.inl ((flushBufferedPacket_requeued c).trans (sendFragments_requeued _ _ _))
        · exact Or.inl (flushBufferedPacket_requeued c)
      · cases ends : bufferMultiPacket pack c with
        | ok a c' => exact Or.inl (bufferMultiPacket_requeued ends)
        | error e c' =>
          rw [bufferMultiPacket_error ends]
          exact Or.inr (disconnectError_shut env (disconnected_of_available available))
    · exact Or.inl ⟨_, _, _, rfl⟩
  · exact Or.inl (Requeued.refl c)

theorem sendPacket_cases (env : Env) (pack : BasePacket) (seq : Sequenced c) :
    Queues c (sendPacket env pack c) ∨ Shut (sendPacket env pack c) := by
  rcases sendPacket_requeued env pack c with frame | shut
  · rcases seq.waiting.sendPacket (fun _ numbered => numbered.getPacket) env pack
      (packaged_sequenced pack) with waiting | shut
    · exact Or.inl ⟨frame, waiting.sequenced⟩
    · exact Or.inr shut
  · exact Or.inr shut

/-! ### Sending -/

def Numbered (number : Nat) (pack : BasePacket) : Prop :=
  pack.doSeq = true ∧ pack.sequence = number

theorem Numbered.getSequence (numbered : Numbered number pack) :
    pack.getSequence = number := by
  rw [BasePacket.getSequence, if_pos numbered.1]
  exact numbered.2

theorem close_doSeq (pack : BasePacket) : pack.close.doSeq = pack.doSeq := by
  rw [BasePacket.close]
  split <;> rfl

theorem prepareSequence_numbered {pack' : BasePacket} (numbered : pack.doSeq = true)
    (ret : prepareSequence number pack = .ok () pack') :
    Numbered number pack' := by
  rw [prepareSequence, if_pos numbered, BasePacket.setSequence,
    BasePacket.onStream] at ret
  split at ret
  · cases ret
    exact ⟨(close_doSeq pack).trans numbered, rfl⟩
  · cases ret

theorem prepareEncryptionAndCompression_frame (zlib : Zlib) (crcSeed : UInt32)
    (pack : BasePacket) : ∃ stream,
      prepareEncryptionAndCompression zlib crcSeed pack =
        { pack with toStream := stream } := by
  simp only [prepareEncryptionAndCompression, BasePacket.onStream]
  by_cases compresses : pack.doComp = true
  · rw [if_pos compresses]
    cases compress zlib pack.toStream with
    | ok a stream => exact ⟨_, rfl⟩
    | error e stream => exact ⟨_, rfl⟩
  · rw [if_neg compresses]
    exact ⟨_, rfl⟩

theorem Numbered.encoded (numbered : Numbered number pack) (zlib : Zlib) (crcSeed : UInt32) :
    Numbered number (prepareEncryptionAndCompression zlib crcSeed pack) := by
  obtain ⟨stream, eq⟩ := prepareEncryptionAndCompression_frame zlib crcSeed pack
  rw [eq]
  exact numbered

def NoPacket (c c' : BaseClient) : Prop :=
  c' = c ∨
  (c' = { c with checkupEvent := c.checkupEvent.schedule } ∧
    50 < u32 ((c.serverSequence : Int) - c.acknowledgedServerSequence)) ∨
  Shut c'

theorem getNextSequencedPacket_none (connected : c.disconnected = false)
    (nothing : getNextSequencedPacket env c = (none, c')) : NoPacket c c' := by
  rw [getNextSequencedPacket] at nothing
  split at nothing
  next full =>
    simp only at nothing
    split at nothing
    · cases nothing
      exact Or.inr (Or.inr (disconnect_shut env connected))
    · cases nothing
      exact Or.inr (Or.inl ⟨rfl, full⟩)
  next =>
    split at nothing
    · cases nothing
    · split at nothing
      · cases nothing
      · cases nothing
        exact Or.inl rfl

theorem getNextSequencedPacket_requeued (taken : getNextSequencedPacket env c = (some pack, c')) :
    Requeued c c' ∧ u32 ((c.serverSequence : Int) - c.acknowledgedServerSequence) ≤ 50 := by
  rw [getNextSequencedPacket] at taken
  split at taken
  next =>
    simp only at taken
    split at taken <;> cases taken
  next room =>
    split at taken
    · cases taken
      exact ⟨⟨_, _, _, rfl⟩, Nat.not_lt.mp room⟩
    · split at taken
      · cases taken
        exact ⟨Requeued.hold none c, Nat.not_lt.mp room⟩
      · cases taken

theorem getNextSequencedPacket_some (seq : Sequenced c)
    (taken : getNextSequencedPacket env c = (some pack, c')) :
    Queues c c' ∧ pack.doSeq = true ∧
      u32 ((c.serverSequence : Int) - c.acknowledgedServerSequence) ≤ 50 := by
  obtain ⟨frame, room⟩ := getNextSequencedPacket_requeued taken
  obtain ⟨numbered, waiting⟩ :=
    seq.waiting.getNextSequencedPacket (fun _ numbered => numbered.getPacket) taken
  exact ⟨⟨frame, waiting.sequenced⟩, numbered, room⟩

theorem startCheckup_frame (pack : BasePacket) (c : BaseClient) :
    ∃ event, startCheckup pack c = { c with checkupEvent := event } := by
  rw [startCheckup]
  split <;> exact ⟨_, rfl⟩

def Begun (c c' : BaseClient) : Prop :=
  ∃ taken event, Queues c taken ∧ c' = { taken with
    serverSequence := (c.serverSequence + 1) % 4294967296, checkupEvent := event }

theorem beginSend_none (available : c.isAvailable = true) (nothing : beginSend env c = (none, c')) :
    NoPacket c c' := by
  have connected := disconnected_of_available available
  rw [beginSend, if_pos available] at nothing
  cases taken : getNextSequencedPacket env c with
  | mk first left =>
    cases first with
    | none =>
      simp only [taken] at nothing
      cases nothing
      exact getNextSequencedPacket_none connected taken
    | some pack =>
      obtain ⟨⟨_, _, _, rfl⟩, -⟩ := getNextSequencedPacket_requeued taken
      simp only [taken] at nothing
      split at nothing
      · cases nothing
      next thrown =>
        cases nothing
        refine Or.inr (Or.inr (disconnectError_shut env ?_))
        obtain ⟨event, eq⟩ := startCheckup_frame _ _
        rw [eq]
        exact connected

theorem Waiting.beginSend (waiting : Waiting P Q c) (packs : ∀ multi, Q multi → P multi.getPacket)
    (sent : beginSend env c = (some pack, c')) :
    Waiting P Q c' ∧
      ∃ raw, P raw ∧ prepareSequence c.serverSequence raw = .ok () pack := by
  rw [BaseClient.beginSend] at sent
  split at sent
  next available =>
    cases taken : BaseClient.getNextSequencedPacket env c with
    | mk first left =>
      cases first with
      | none =>
        simp only [taken] at sent
        cases sent
      | some raw =>
        obtain ⟨good, rest⟩ := waiting.getNextSequencedPacket packs taken
        obtain ⟨⟨_, _, _, frame⟩, -⟩ := getNextSequencedPacket_requeued taken
        have counter : left.serverSequence = c.serverSequence := by
          rw [frame]
        simp only [taken] at sent
        split at sent
        next ret =>
          cases sent
          rw [counter] at ret
          refine ⟨?_, raw, good, ret⟩
          obtain ⟨event, eq⟩ := startCheckup_frame pack { left with serverSequence :=
            if raw.doSeq then (left.serverSequence + 1) % 4294967296 else left.serverSequence }
          rw [eq]
          exact ⟨rest.queued, rest.multi⟩
        · cases sent
  next => cases sent

theorem beginSend_some (seq : Sequenced c) (sent : beginSend env c = (some pack, c')) :
    Begun c c' ∧ Numbered c.serverSequence pack ∧
      u32 ((c.serverSequence : Int) - c.acknowledgedServerSequence) ≤ 50 := by
  rw [beginSend] at sent
  split at sent
  next available =>
    cases taken : getNextSequencedPacket env c with
    | mk first left =>
      cases first with
      | none =>
        simp only [taken] at sent
        cases sent
      | some raw =>
        obtain ⟨queues, numbered, room⟩ := getNextSequencedPacket_some seq taken
        have counter : left.serverSequence = c.serverSequence := by
          obtain ⟨⟨_, _, _, rfl⟩, -⟩ := queues
          rfl
        simp only [taken, numbered, if_true] at sent
        split at sent
        next stamped ret =>
          cases sent
          obtain ⟨event, eq⟩ := startCheckup_frame pack
            { left with serverSequence := (left.serverSequence + 1) % 4294967296 }
          rw [counter] at ret
          refine ⟨⟨left, event, queues, ?_⟩, prepareSequence_numbered numbered ret, room⟩
          rw [eq, counter]
        · cases sent
  next => cases sent

theorem finishSend_true (sent : finishSend env pack c = (true, c')) :
    c' = { c with
      sends := c.sends + 1
      transmitted := c.transmitted ++ [pack]
      sequenceBuffer := c.sequenceBuffer ++ [pack] } := by
  rw [finishSend, datagramSend] at sent
  split at sent
  next ret =>
    split at ret
    · cases ret
      cases sent
      rfl
    · cases ret
  next => cases sent

theorem finishSend_false (connected : c.disconnected = false)
    (failed : finishSend env pack c = (false, c')) :
    Shut c' := by
  rw [finishSend, datagramSend] at failed
  split at failed
  next => cases failed
  next thrown =>
    split at thrown
    · cases thrown
    · cases thrown
      cases failed
      exact disconnectError_shut env connected

/-! ### Sending again -/

theorem resend_returned (ret : resend env packs c = .ok () c') :
    c' = { c with sends := c.sends + packs.length, transmitted := c.transmitted ++ packs } ∧
    ∀ i < packs.length, env.sendReturns (c.sends + i) = true := by
  induction packs generalizing c with
  | nil =>
    cases ret
    simp
  | cons pack rest ih =>
    obtain ⟨_, sent, fst, remaining⟩ := (Exec.bind_ok_iff).mp ret
    rw [datagramSend] at fst
    split at fst
    next works =>
      cases fst
      obtain ⟨rfl, others⟩ := ih remaining
      simp only [Bool.and_eq_true] at works
      refine ⟨by simp [Nat.add_assoc, Nat.add_comm 1], ?_⟩
      intro i less
      cases i with
      | zero => exact works.2
      | succ i =>
        have := others i (by simpa using less)
        rwa [Nat.add_right_comm, Nat.add_assoc] at this
    · cases fst

theorem resend_thrown (socket : c.socket = true) (thrown : resend env packs c = .error e c') :
    c'.disconnected = c.disconnected ∧
    ∃ i < packs.length, env.sendReturns (c.sends + i) = false := by
  induction packs generalizing c with
  | nil => cases thrown
  | cons pack rest ih =>
    have unfolded : (datagramSend env pack >>= fun _ => resend env rest) c = .error e c' := thrown
    by_cases works : env.sendReturns c.sends = true
    · have fst : datagramSend env pack c = .ok ()
          { c with sends := c.sends + 1, transmitted := c.transmitted ++ [pack] } :=
        if_pos (by simp [socket, works])
      rw [Exec.bind_of_ok fst] at unfolded
      obtain ⟨eq, i, less, fails⟩ := @ih { c with
        sends := c.sends + 1, transmitted := c.transmitted ++ [pack] } socket unfolded
      refine ⟨eq, i + 1, by simpa using less, ?_⟩
      rwa [Nat.add_comm i 1, ← Nat.add_assoc]
    · have fst : datagramSend env pack c =
          .error (.socket "send") { c with sends := c.sends + 1 } :=
        if_neg (by simp [works])
      have ends : (datagramSend env pack >>= fun _ => resend env rest) c =
          .error (.socket "send") { c with sends := c.sends + 1 } := by
        simp only [bind, EStateM.bind, fst]
      rw [ends] at unfolded
      cases unfolded
      exact ⟨rfl, 0, by simp, by simpa using works⟩

theorem socket_of_available (available : c.isAvailable = true) :
    c.socket = true := by
  rw [isAvailable, Bool.and_eq_true] at available
  exact available.1

theorem checkupServerPackets_cases (env : Env) (pack : BasePacket) (c : BaseClient) :
    checkupServerPackets env pack c = c ∨
    (c.sequenceBuffer ≠ [] ∧ ∃ count sends event, checkupServerPackets env pack c = { c with
      sends := sends
      transmitted := c.transmitted ++ c.sequenceBuffer.take count
      checkupEvent := event }) ∨
    Shut (checkupServerPackets env pack c) := by
  rw [checkupServerPackets]
  split
  · exact Or.inl rfl
  next busy =>
    simp only [Bool.not_eq_true, Bool.or_eq_false_iff, Bool.not_eq_eq_eq_not,
      List.isEmpty_eq_false_iff] at busy
    obtain ⟨⟨available, -⟩, some⟩ := busy
    split
    · cases again : resendPackets env c with
      | ok a c' =>
        obtain ⟨rfl, -⟩ := resend_returned again
        exact Or.inr (Or.inl ⟨some, _, _, _, rfl⟩)
      | error e c' =>
        obtain ⟨eq, -⟩ := resend_thrown (socket_of_available available) again
        exact Or.inr (Or.inr (disconnectError_shut env
          (eq.trans (disconnected_of_available available))))
    · exact Or.inl rfl

section Unavailable

variable (env : Env) (c : BaseClient) (closed : c.isAvailable = false)

include closed

theorem sendPacket_unavailable (pack : BasePacket) : sendPacket env pack c = c := by
  rw [sendPacket, closed]
  rfl

theorem beginSend_unavailable : beginSend env c = (none, c) := by
  rw [beginSend, closed]
  rfl

theorem sendReliablePackets_unavailable (count : Nat) : sendReliablePackets env count c = c := by
  cases count with
  | zero => rfl
  | succ count => rw [sendReliablePackets, beginSend_unavailable env c closed]

theorem acknowledgeServerPackets_unavailable (seq : Nat) : acknowledgeServerPackets seq c = c := by
  rw [acknowledgeServerPackets, closed]
  rfl

theorem checkupServerPackets_unavailable (pack : BasePacket) :
    checkupServerPackets env pack c = c := by
  rw [checkupServerPackets, closed]
  rfl

end Unavailable

/-! ### Runs of the sending side -/

inductive SenderEvent
  | sendPacket (pack : BasePacket)
  | sendReliablePackets (count : Nat)
  | acknowledge (seq : UInt16)
  | expire
  | checkup (pack : BasePacket)

def SenderEvent.apply (env : Env) (event : SenderEvent) (c : BaseClient) : BaseClient :=
  match event with
  | .sendPacket pack => c.sendPacket env pack
  | .sendReliablePackets count => c.sendReliablePackets env count
  | .acknowledge seq => c.acknowledgeServerPackets seq.toNat
  | .expire => { c with checkupEvent := c.checkupEvent.cancel }
  | .checkup pack => c.checkupServerPackets env pack

theorem SenderEvent.apply_shut (env : Env) (event : SenderEvent) {c : BaseClient} (shut : Shut c) :
    Shut (event.apply env c) ∧ (event.apply env c).serverSequence = c.serverSequence := by
  have closed := shut.unavailable
  cases event with
  | sendPacket pack =>
    rw [apply, sendPacket_unavailable env c closed]
    exact ⟨shut, rfl⟩
  | sendReliablePackets count =>
    rw [apply, sendReliablePackets_unavailable env c closed]
    exact ⟨shut, rfl⟩
  | acknowledge seq =>
    rw [apply, acknowledgeServerPackets_unavailable c closed]
    exact ⟨shut, rfl⟩
  | expire => exact ⟨⟨shut.unavailable, shut.emptied, shut.acknowledged⟩, rfl⟩
  | checkup pack =>
    rw [apply, checkupServerPackets_unavailable env c closed]
    exact ⟨shut, rfl⟩

end Engine3.BaseClient
