import Engine3.Library.ReleaseQueue
import Engine3.Proto.SenderFrame

/-!
# The window of the sender

Packets that were sent and not yet acknowledged wait in `sequenceBuffer`. Its contents
are tied to two counters of different width and sign, and the peer chooses the sixteen
bits of every acknowledgement.
-/
namespace Engine3.BaseClient

open MachineInt ReleaseQueue List

/-! ### The window -/

/-- The buffer holds exactly the packets sent under the numbers strictly between the two
counters, in increasing order. -/
structure Window (c : BaseClient) : Prop where
  below : c.acknowledgedServerSequence < c.serverSequence
  increasing : c.sequenceBuffer.Pairwise fun a b => a.getSequence < b.getSequence
  numbers : ∀ number : Nat, (∃ pack ∈ c.sequenceBuffer, pack.getSequence = number) ↔
    c.acknowledgedServerSequence < number ∧ number < c.serverSequence
  packets : ∀ pack, pack ∈ c.sequenceBuffer ↔ pack ∈ c.transmitted ∧
    c.acknowledgedServerSequence < pack.getSequence ∧ pack.getSequence < c.serverSequence

structure Sending (c : BaseClient) : Prop extends Window c where
  available : c.isAvailable = true
  known : -1 ≤ c.acknowledgedServerSequence
  signed : c.acknowledgedServerSequence < 2147483648
  limit : c.serverSequence ≤ c.acknowledgedServerSequence + 51
  sent : ∀ pack ∈ c.transmitted, pack.getSequence < c.serverSequence
  sequenced : Sequenced c
  idle : c.serverSequence = 0 →
    c.checkupEvent.scheduled = false ∧ c.checkupEvent.checkupTime ≤ c.checkupEvent.minCheckupTime

variable {c c' : BaseClient}

theorem Sending.frame (sending : Sending c) (isAvailable : c'.isAvailable = c.isAvailable)
    (counter : c'.serverSequence = c.serverSequence)
    (acknowledged : c'.acknowledgedServerSequence = c.acknowledgedServerSequence)
    (buf : c'.sequenceBuffer = c.sequenceBuffer) (sent : c'.transmitted = c.transmitted)
    (seq : Sequenced c') (event : c.serverSequence = 0 → c'.checkupEvent = c.checkupEvent) :
    Sending c' where
  below := by rw [acknowledged, counter]; exact sending.below
  increasing := by rw [buf]; exact sending.increasing
  numbers := by rw [acknowledged, counter, buf]; exact sending.numbers
  packets := by rw [acknowledged, counter, buf, sent]; exact sending.packets
  available := isAvailable.trans sending.available
  known := by rw [acknowledged]; exact sending.known
  signed := by rw [acknowledged]; exact sending.signed
  limit := by rw [acknowledged, counter]; exact sending.limit
  sent := by rw [counter, sent]; exact sending.sent
  sequenced := seq
  idle := by
    intro zero
    rw [counter] at zero
    rw [event zero]
    exact sending.idle zero

theorem Sending.queues (sending : Sending c) (queues : Queues c c') :
    Sending c' := by
  obtain ⟨⟨_, _, _, rfl⟩, seq⟩ := queues
  exact sending.frame rfl rfl rfl rfl rfl seq fun _ => rfl

theorem Sending.outstanding (sending : Sending c) :
    (u32 ((c.serverSequence : Int) - c.acknowledgedServerSequence) : Int) =
      c.serverSequence - c.acknowledgedServerSequence := by
  have below := sending.below
  have limit := sending.limit
  exact u32_of_nonneg (by omega) (by omega)

theorem Sending.noPacket (sending : Sending c) (nothing : NoPacket c c') :
    Sending c' ∨ Shut c' := by
  rcases nothing with rfl | ⟨rfl, full⟩ | shut
  · exact Or.inl sending
  · have outstanding := sending.outstanding
    have known := sending.known
    exact Or.inl (sending.frame rfl rfl rfl rfl rfl
      ⟨sending.sequenced.queued, sending.sequenced.multi⟩ fun zero => by omega)
  · exact Or.inr shut

theorem Sending.send {begun : BaseClient} {pack : BasePacket} (sending : Sending c)
    (began : Begun c begun) (numbered : Numbered c.serverSequence pack)
    (room : u32 ((c.serverSequence : Int) - c.acknowledgedServerSequence) ≤ 50)
    (finished : c' = { begun with
      sends := begun.sends + 1
      transmitted := begun.transmitted ++ [pack]
      sequenceBuffer := begun.sequenceBuffer ++ [pack] }) : Sending c' := by
  obtain ⟨_, event, ⟨⟨buffer, multi, unreliable, rfl⟩, seq⟩, rfl⟩ := began
  have num := numbered.getSequence
  have outstanding := sending.outstanding
  have below := sending.below
  have signed := sending.signed
  have known := sending.known
  have next : (c.serverSequence + 1) % 4294967296 = c.serverSequence + 1 :=
    Nat.mod_eq_of_lt (by omega)
  subst finished
  -- one number more at the upper end of the window, and one packet at the end of the buffer
  rw [next]
  refine ⟨⟨?_, ?_, ?_, ?_⟩, sending.available, known, signed, ?_, ?_,
    ⟨seq.queued, seq.multi⟩, ?_⟩
  · change c.acknowledgedServerSequence < ((c.serverSequence + 1 : Nat) : Int)
    omega
  · refine pairwise_append.mpr ⟨sending.increasing, pairwise_singleton _ _, ?_⟩
    intro old mem new last
    rw [mem_singleton.mp last, num]
    exact ((sending.packets old).mp mem).2.2
  · intro n
    have before := sending.numbers n
    simp only [mem_append, mem_singleton, or_and_right, exists_or, exists_eq_left, before,
      num]
    omega
  · intro other
    have before := sending.packets other
    have old := sending.sent other
    simp only [mem_append, mem_singleton, before]
    constructor
    · rintro (⟨mem, above, less⟩ | rfl)
      · exact ⟨Or.inl mem, above, by omega⟩
      · rw [num]
        exact ⟨Or.inr rfl, below, by omega⟩
    · rintro ⟨mem | eq, above, -⟩
      · exact Or.inl ⟨mem, above, old mem⟩
      · exact Or.inr eq
  · change ((c.serverSequence + 1 : Nat) : Int) ≤ c.acknowledgedServerSequence + 51
    omega
  · intro other mem
    change other.getSequence < c.serverSequence + 1
    rcases mem_append.mp mem with old | new
    · have := sending.sent other old
      omega
    · rw [mem_singleton.mp new, num]
      omega
  · intro zero
    exact absurd zero (Nat.succ_ne_zero _)

theorem Sending.sendReliablePackets (env : Env) (count : Nat) (sending : Sending c) :
    Sending (sendReliablePackets env count c) ∨
      Shut (sendReliablePackets env count c) := by
  induction count generalizing c with
  | zero => exact Or.inl sending
  | succ count ih =>
    rw [sendReliablePackets]
    cases fst : beginSend env c with
    | mk taken begun =>
      cases taken with
      | none => exact sending.noPacket (beginSend_none sending.available fst)
      | some pack =>
        obtain ⟨began, numbered, room⟩ := beginSend_some sending.sequenced fst
        have encoded := numbered.encoded env.zlib begun.crcSeed
        have connected : begun.disconnected = false := by
          obtain ⟨_, _, ⟨⟨_, _, _, rfl⟩, -⟩, rfl⟩ := began
          exact disconnected_of_available sending.available
        simp only
        cases snd : finishSend env _ begun with
        | mk goesOn finished =>
          cases goesOn with
          | true => exact ih (sending.send began encoded room (finishSend_true snd))
          | false => exact Or.inr (finishSend_false connected snd)

/-! ### Acknowledgements -/

/-- An acknowledgement does not name the number that is sent next, as long as that fits a signed
word, nor decode to minus one while packets wait for their first acknowledgement. -/
def Acceptable (seq : Nat) (c : BaseClient) : Prop :=
  (c.serverSequence < 2147483648 → seq ≠ c.serverSequence % 65536) ∧
  (seq = 65535 → 0 ≤ c.acknowledgedServerSequence ∨ c.serverSequence = 0)

theorem realSequence_eq (seq : Nat) (lt : seq < 65536) (c : BaseClient)
    (word : c.serverSequence < 4294967296) :
    realSequence seq c =
      if (seq : Int) < c.acknowledgedServerSequence then
        let joined := c.serverSequence / 65536 * 65536 + seq
        i32 (if joined > c.serverSequence then (joined : Int) - 65536 else joined)
      else if seq > c.serverSequence then (seq : Int) - 65536 else seq := by
  have joined : (seq &&& 0xFFFF) ||| (c.serverSequence &&& 0xFFFF0000) =
      c.serverSequence / 65536 * 65536 + seq := by
    rw [land_low16, Nat.mod_eq_of_lt lt, land_high16 word, lor_high16 _ _ lt]
  rw [realSequence, joined]
  by_cases stale : (seq : Int) < c.acknowledgedServerSequence
  · simp only [if_pos stale]
    unfold u32 i32
    split <;> split <;> omega
  · simp only [if_neg stale, u32_natCast]
    rw [Nat.mod_eq_of_lt (show seq < 4294967296 by omega)]
    split
    · exact i32_of_small _ (by omega) (by omega)
    · rfl

section Acknowledge

variable {c : BaseClient} (sending : Sending c) (seq : Nat) (small : seq < 65536)

include sending small

theorem Sending.decode (acceptable : Acceptable seq c) :
    realSequence seq c < c.acknowledgedServerSequence ∨
    (seq < c.serverSequence ∧ 0 ≤ realSequence seq c ∧
      c.acknowledgedServerSequence ≤ realSequence seq c ∧
      realSequence seq c < c.serverSequence ∧ realSequence seq c < 2147483648) ∨
    (realSequence seq c = -1 ∧ c.acknowledgedServerSequence = -1 ∧ c.serverSequence = 0) := by
  have below := sending.below
  have signed := sending.signed
  have limit := sending.limit
  have known := sending.known
  obtain ⟨notNext, notMinusOne⟩ := acceptable
  rw [realSequence_eq seq small c (by omega)]
  unfold i32
  split
  · dsimp only
    split <;> omega
  · split <;> omega

theorem Sending.decode_unacceptable (unacceptable : ¬ Acceptable seq c) :
    c.acknowledgedServerSequence ≤ realSequence seq c ∧
    (realSequence seq c = c.serverSequence ∨
      realSequence seq c = -1 ∧ 0 < c.serverSequence) := by
  have below := sending.below
  have signed := sending.signed
  have limit := sending.limit
  have known := sending.known
  rw [Acceptable] at unacceptable
  rw [realSequence_eq seq small c (by omega)]
  unfold i32
  split
  · dsimp only
    split <;> omega
  · split <;> omega

end Acknowledge

variable {c : BaseClient}

theorem acknowledgeServerPackets_stale (seq : Nat)
    (stale : realSequence seq c < c.acknowledgedServerSequence) :
    acknowledgeServerPackets seq c = c := by
  rw [acknowledgeServerPackets]
  split
  · exact if_pos stale
  · rfl

theorem acknowledgeServerPackets_flush (seq : Nat) (available : c.isAvailable = true)
    (current : c.acknowledgedServerSequence ≤ realSequence seq c) :
    ∃ event, acknowledgeServerPackets seq c =
      { flushSendBuffer (realSequence seq c) c with checkupEvent := event } := by
  rw [acknowledgeServerPackets, if_pos available]
  simp only [if_neg (not_lt.mpr current)]
  split
  · exact ⟨_, rfl⟩
  · exact ⟨_, rfl⟩

variable {c : BaseClient}

theorem Sending.empty (sending : Sending c) (nothing : c.serverSequence = 0) :
    c.sequenceBuffer = [] := by
  apply eq_nil_iff_forall_not_mem.mpr
  intro pack mem
  have less := ((sending.packets pack).mp mem).2.2
  omega

theorem Sending.acknowledge_idle (sending : Sending c) {seq : Nat}
    (minusOne : realSequence seq c = -1) (none : c.acknowledgedServerSequence = -1)
    (nothing : c.serverSequence = 0) : acknowledgeServerPackets seq c = c := by
  obtain ⟨unscheduled, low⟩ := sending.idle nothing
  have cancelled : c.checkupEvent.cancel = c.checkupEvent := by
    rw [CheckupEvent.cancel, ← unscheduled]
  have kept : c.checkupEvent.decreaseCheckupTime 1 = c.checkupEvent :=
    if_neg (Nat.not_lt.mpr low)
  rw [acknowledgeServerPackets, if_pos sending.available]
  simp only [minusOne, none, Int.lt_irrefl, if_false, cancelled, flushSendBuffer,
    sending.empty nothing, dropWhile_nil, kept]
  rw [← sending.empty nothing, ← none]

theorem Sending.flush (sending : Sending c) (number : Int) (nonneg : 0 ≤ number)
    (current : c.acknowledgedServerSequence ≤ number) (less : number < c.serverSequence)
    (signed : number < 2147483648) (event : CheckupEvent) :
    Sending { flushSendBuffer number c with checkupEvent := event } := by
  have limit := sending.limit
  have cut : (u32 number : Int) = number := u32_of_nonneg nonneg (by omega)
  -- in increasing order the packets at the front are all that are numbered so low
  have remaining : (flushSendBuffer number c).sequenceBuffer =
      c.sequenceBuffer.filter fun pack => decide (pack.getSequence > u32 number) :=
    dropWhile_of_increasing _ _ sending.increasing
  refine ⟨⟨less, ?_, ?_, ?_⟩, sending.available, le_trans sending.known current, signed, ?_,
    sending.sent,
    ⟨sending.sequenced.queued, sending.sequenced.multi⟩, ?_⟩
  · change List.Pairwise _ (flushSendBuffer number c).sequenceBuffer
    rw [remaining]
    exact sending.increasing.filter _
  · intro n
    change (∃ pack ∈ (flushSendBuffer number c).sequenceBuffer, pack.getSequence = n) ↔
      number < n ∧ n < c.serverSequence
    have before := sending.numbers n
    rw [remaining]
    simp only [mem_filter, decide_eq_true_eq]
    constructor
    · rintro ⟨pack, ⟨member, above⟩, rfl⟩
      have := before.mp ⟨pack, member, rfl⟩
      omega
    · rintro ⟨above, inside⟩
      obtain ⟨pack, member, rfl⟩ := before.mpr ⟨by omega, inside⟩
      exact ⟨pack, ⟨member, by omega⟩, rfl⟩
  · intro pack
    change pack ∈ (flushSendBuffer number c).sequenceBuffer ↔ pack ∈ c.transmitted ∧
      number < pack.getSequence ∧ pack.getSequence < c.serverSequence
    rw [remaining, mem_filter, sending.packets, decide_eq_true_eq, and_assoc]
    exact and_congr_right fun _ => by omega
  · change (c.serverSequence : Int) ≤ number + 51
    omega
  · intro zero
    change c.serverSequence = 0 at zero
    omega

/-! ### Runs -/

theorem Sending.checkup (env : Env) (pack : BasePacket) (sending : Sending c) :
    Sending (checkupServerPackets env pack c) ∨ Shut (checkupServerPackets env pack c) := by
  rcases checkupServerPackets_cases env pack c with eq | ⟨some, count, sends, event, eq⟩ | shut
  · rw [eq]
    exact Or.inl sending
  · rw [eq]
    refine Or.inl ⟨⟨sending.below, sending.increasing, sending.numbers, ?_⟩, sending.available,
      sending.known, sending.signed, sending.limit, ?_,
      ⟨sending.sequenced.queued, sending.sequenced.multi⟩,
      fun nothing => absurd (sending.empty nothing) some⟩
    · -- what is sent again is in the buffer already
      intro other
      simp only [mem_append, sending.packets other]
      constructor
      · rintro ⟨mem, hin⟩
        exact ⟨Or.inl mem, hin⟩
      · rintro ⟨mem | again, hin⟩
        · exact ⟨mem, hin⟩
        · exact (sending.packets other).mp (mem_of_mem_take again)
    · intro other mem
      rcases mem_append.mp mem with old | again
      · exact sending.sent other old
      · exact ((sending.packets other).mp (mem_of_mem_take again)).2.2
  · exact Or.inr shut

def Admits (event : SenderEvent) (c : BaseClient) : Prop :=
  ∀ seq, event = .acknowledge seq → Acceptable seq.toNat c

theorem Sending.acknowledge (sending : Sending c) (seq : UInt16)
    (acceptable : Acceptable seq.toNat c) :
    Sending (acknowledgeServerPackets seq.toNat c) ∧
    (c.serverSequence ≤ seq.toNat → acknowledgeServerPackets seq.toNat c = c) := by
  rcases sending.decode seq.toNat seq.toNat_lt acceptable with
    stale | ⟨wasSent, nonneg, current, less, signed⟩ | ⟨minusOne, none, nothing⟩
  · rw [acknowledgeServerPackets_stale _ stale]
    exact ⟨sending, fun _ => rfl⟩
  · obtain ⟨event, flushed⟩ :=
      acknowledgeServerPackets_flush seq.toNat sending.available current
    rw [flushed]
    exact ⟨sending.flush _ nonneg current less signed event,
      fun neverSent => absurd wasSent (Nat.not_lt.mpr neverSent)⟩
  · rw [sending.acknowledge_idle minusOne none nothing]
    exact ⟨sending, fun _ => rfl⟩

theorem Sending.acknowledge_unacceptable (sending : Sending c) {seq : UInt16}
    (unacceptable : ¬ Acceptable seq.toNat c) :
    ¬ Window (acknowledgeServerPackets seq.toNat c) := by
  obtain ⟨current, reached⟩ := sending.decode_unacceptable seq.toNat seq.toNat_lt unacceptable
  obtain ⟨event, flushed⟩ :=
    acknowledgeServerPackets_flush seq.toNat sending.available current
  rw [flushed]
  intro window
  rcases reached with next | ⟨minusOne, waiting⟩
  · have below := window.below
    change realSequence seq.toNat c < c.serverSequence at below
    omega
  · -- number zero should be in the buffer, but no number is above the unsigned minus one
    obtain ⟨pack, mem, num⟩ := (window.numbers 0).mpr
      ⟨by change realSequence seq.toNat c < _; omega, waiting⟩
    change pack ∈ c.sequenceBuffer.dropWhile _ at mem
    rw [dropWhile_of_increasing _ _ sending.increasing, mem_filter, decide_eq_true_eq,
      num] at mem
    exact absurd mem.2 (Nat.not_lt_zero _)

theorem Sending.step (env : Env) (sending : Sending c) (event : SenderEvent)
    (admitted : Admits event c) : Sending (event.apply env c) ∨ Shut (event.apply env c) := by
  cases event with
  | sendPacket pack =>
    rcases sendPacket_cases env pack sending.sequenced with queues | shut
    · exact Or.inl (sending.queues queues)
    · exact Or.inr shut
  | sendReliablePackets count => exact sending.sendReliablePackets env count
  | acknowledge seq => exact Or.inl (sending.acknowledge seq (admitted seq rfl)).1
  | expire =>
    refine Or.inl (sending.frame rfl rfl rfl rfl rfl
      ⟨sending.sequenced.queued, sending.sequenced.multi⟩ fun zero => ?_)
    simp only [SenderEvent.apply, CheckupEvent.cancel, ← (sending.idle zero).1]
  | checkup pack => exact sending.checkup env pack

def stateAt (env : Env) (events : List SenderEvent) (c : BaseClient) (n : Nat) : BaseClient :=
  (events.take n).foldl (fun c event => event.apply env c) c

theorem stateAt_succ (env : Env) (events : List SenderEvent) (c : BaseClient) (n : Nat) :
    stateAt env events c (n + 1) =
      (events[n]?).elim (stateAt env events c n) fun event =>
        event.apply env (stateAt env events c n) := by
  rw [stateAt, take_add_one, foldl_append]
  cases events[n]? with
  | none => rfl
  | some event => rfl

def connected (crcSeed : UInt32) (maxOutstandingPackets : Nat) : BaseClient :=
  { initialized crcSeed with configMaxOutstandingPackets := maxOutstandingPackets }

theorem sending_connected (crcSeed : UInt32) (maxOutstandingPackets : Nat) :
    Sending (connected crcSeed maxOutstandingPackets) := by
  refine ⟨⟨show (-1 : Int) < 0 by decide, Pairwise.nil, ?_, ?_⟩, rfl, le_refl _,
    show (-1 : Int) < 2147483648 by decide, show (0 : Int) ≤ -1 + 51 by decide, ?_, ⟨?_, ?_⟩,
    fun _ => ⟨rfl, le_refl _⟩⟩
  · intro number
    simp [connected, initialized]
  · intro pack
    simp [connected, initialized]
  · exact fun pack mem => absurd mem not_mem_nil
  · exact fun pack mem => absurd mem not_mem_nil
  · exact fun multi none => nomatch none

theorem sending_or_shut (env : Env) (events : List SenderEvent) (start : Sending c) (n : Nat)
    (admitted : ∀ m < n, ∀ event, events[m]? = some event → Sending (stateAt env events c m) →
      Admits event (stateAt env events c m)) :
    Sending (stateAt env events c n) ∨ Shut (stateAt env events c n) := by
  induction n with
  | zero => exact Or.inl start
  | succ n ih =>
    have before := ih fun m less => admitted m (by omega)
    rw [stateAt_succ]
    cases here : events[n]? with
    | none => exact before
    | some event =>
      rcases before with sending | shut
      · exact sending.step env event (admitted n (by omega) event here sending)
      · exact Or.inr (event.apply_shut env shut).1

theorem Shut.window_iff (shut : Shut c) : Window c ↔ c.serverSequence = 0 := by
  constructor
  · intro window
    by_contra some
    obtain ⟨pack, mem, -⟩ := (window.numbers 0).mpr
      ⟨by rw [shut.acknowledged]; decide, Nat.pos_of_ne_zero some⟩
    rw [shut.emptied] at mem
    exact absurd mem not_mem_nil
  · intro nothing
    refine ⟨by rw [shut.acknowledged, nothing]; decide, ?_, ?_, ?_⟩
    · rw [shut.emptied]
      exact Pairwise.nil
    · simp [shut.emptied, nothing]
    · simp [shut.emptied, nothing]

/-- Exactly when no close follows a send and every acknowledgement is acceptable. -/
theorem window_iff_acceptable (env : Env) (crcSeed : UInt32) (maxOutstanding : Nat)
    (events : List SenderEvent) :
    (∀ n, Window (stateAt env events (connected crcSeed maxOutstanding) n) ∧
      ∀ seq, events[n]? = some (.acknowledge seq) →
        (stateAt env events (connected crcSeed maxOutstanding) n).serverSequence ≤ seq.toNat →
        stateAt env events (connected crcSeed maxOutstanding) (n + 1) =
          stateAt env events (connected crcSeed maxOutstanding) n) ↔
    ∀ n, ((stateAt env events (connected crcSeed maxOutstanding) n).isAvailable = true ∨
        (stateAt env events (connected crcSeed maxOutstanding) n).serverSequence = 0) ∧
      ∀ seq, events[n]? = some (.acknowledge seq) →
        (stateAt env events (connected crcSeed maxOutstanding) n).isAvailable = true →
        Acceptable seq.toNat (stateAt env events (connected crcSeed maxOutstanding) n) := by
  generalize first : connected crcSeed maxOutstanding = c
  have start : Sending c := first ▸ sending_connected crcSeed maxOutstanding
  constructor
  · intro holds
    -- an acknowledgement that is not acceptable would break the window in the next state
    have admitted : ∀ m event, events[m]? = some event → Sending (stateAt env events c m) →
        Admits event (stateAt env events c m) := by
      rintro m event here sending seq rfl
      by_contra unacceptable
      have window := (holds (m + 1)).1
      rw [stateAt_succ, here] at window
      exact sending.acknowledge_unacceptable unacceptable window
    intro n
    have state := sending_or_shut env events start n fun m _ => admitted m
    refine ⟨?_, fun seq here available => ?_⟩
    · rcases state with sending | shut
      · exact Or.inl sending.available
      · exact Or.inr (shut.window_iff.mp (holds n).1)
    · rcases state with sending | shut
      · exact admitted n _ here sending seq rfl
      · exact absurd available (by simp [shut.unavailable])
  · intro condition n
    have admitted : ∀ m event, events[m]? = some event → Sending (stateAt env events c m) →
        Admits event (stateAt env events c m) := by
      rintro m event here sending seq rfl
      exact (condition m).2 seq here sending.available
    rcases sending_or_shut env events start n fun m _ => admitted m with sending | shut
    · refine ⟨sending.toWindow, fun seq here neverSent => ?_⟩
      rw [stateAt_succ, here]
      exact (sending.acknowledge seq (admitted n _ here sending seq rfl)).2 neverSent
    · have closed := shut.unavailable
      refine ⟨shut.window_iff.mpr ?_, fun seq here _ => ?_⟩
      · rcases (condition n).1 with available | nothing
        · exact absurd available (by simp [closed])
        · exact nothing
      · rw [stateAt_succ, here]
        exact acknowledgeServerPackets_unavailable _ closed _

def shortPacket : BasePacket := BasePacket.ofBytes [0x00, 0x09, 0, 0, 0, 0]

theorem window_breaks :
    let sent := [.sendPacket shortPacket, .sendReliablePackets 1]
    let next := stateAt Env.plain (sent ++ [.acknowledge 1]) (connected 0 5000) 3
    let last := stateAt Env.plain (sent ++ [.acknowledge 65535]) (connected 0 5000) 3
    (next.isAvailable = true ∧ next.serverSequence = 1 ∧ next.acknowledgedServerSequence = 1) ∧
    last.isAvailable = true ∧ last.serverSequence = 1 ∧ last.acknowledgedServerSequence = -1 ∧
      last.sequenceBuffer = [] := by
  decide +kernel

end Engine3.BaseClient
