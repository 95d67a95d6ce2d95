import Engine3.Proto.CodecRoundTrip
import Engine3.Proto.HandlerFrame

/-!
# Receiving reliably

Reliable packets carry the low half of their number. The receiver hands over the one it
expects, keeps early ones in a sorted buffer and drains that buffer after each packet it
hands over. Seen from outside, the counter is the first number that has not arrived.
-/
namespace Engine3.BasePacketHandler

open Bytes MachineInt Exec BaseClient List BasePacket BaseProtocol SortedVector

/-! ### Streams of packets -/

structure ReliablePacket where
  channel : Channel
  payload : List UInt8
  deriving DecidableEq, Repr

def ReliablePacket.bytes (number : Nat) (p : ReliablePacket) : List UInt8 :=
  leBytes 2 p.channel.opcode ++ (beBytes 2 number ++ p.payload)

def ReliablePacket.entry (p : ReliablePacket) : Channel × List UInt8 := (p.channel, p.payload)

structure Carries (env : Env) (crcSeed : UInt32) (datagram : List UInt8) (opcode : Nat)
    (bytes : List UInt8) : Prop where
  clear : Stream.readShort ⟨datagram, 0⟩ = .ok opcode ⟨datagram, 2⟩
  decoded : BaseProtocol.processRecieve env.zlib crcSeed ⟨datagram, 2⟩ = .ok true ⟨bytes, 2⟩

/-- An arrival is the number of a packet of the stream and a datagram that carries it. -/
def Arrives (env : Env) (crcSeed : UInt32) (packets : List ReliablePacket)
    (arrival : Nat × List UInt8) : Prop :=
  ∃ p, packets[arrival.1]? = some p ∧
    Carries env crcSeed arrival.2 p.channel.opcode (p.bytes arrival.1)

def receiveAll (env : Env) (arrivals : List (Nat × List UInt8)) (s : Session) : Session :=
  arrivals.foldl (fun s arrival => handlePacket env arrival.2 s) s

variable (number : Nat) (p : ReliablePacket)

private theorem drop_header : (p.bytes number).drop 2 = beBytes 2 number ++ p.payload :=
  drop_left' (length_leBytes 2 _)

private theorem drop_number : (p.bytes number).drop 4 = p.payload := by
  rw [show 4 = 2 + 2 from rfl, ← drop_drop, drop_header,
    drop_left' (length_beBytes 2 number)]

private theorem four_le_length : 4 ≤ (p.bytes number).length := by
  simp only [ReliablePacket.bytes, length_append, length_leBytes, length_beBytes]
  omega

variable {env : Env} {s : Session} {datagram bytes : List UInt8} {c : BaseClient} {b : BasePacket}
  {rest : List BasePacket}

theorem dispatch_decoded {opcode : Nat}
    (encoded : opcode ∉ [0x0100, 0x0200, 0x0800, 0x1D00, 0x1F00, 0x2000])
    (carries : Carries env s.client.crcSeed datagram opcode bytes) :
    dispatch env ⟨datagram, 0⟩ s = handleDecoded env opcode ⟨bytes, 2⟩ s := by
  simp only [mem_cons, not_mem_nil, or_false, not_or] at encoded
  obtain ⟨notStart, notResponse, notIgnored⟩ := encoded
  rw [dispatch, bind_of_ok (parse_of_ok carries.clear)]
  have received : processRecieve env ⟨datagram, 2⟩ s = .ok (true, ⟨bytes, 2⟩) s :=
    parse_of_ok carries.decoded
  refine (ite_run_neg notStart).trans ((ite_run_neg notResponse).trans ?_)
  refine (ite_run_neg ?_).trans ((bind_of_ok received).trans rfl)
  simp only [not_or]
  exact notIgnored

theorem dispatch_carries {channel : Channel}
    (carries : Carries env s.client.crcSeed datagram channel.opcode bytes) :
    dispatch env ⟨datagram, 0⟩ s = handleReliablePacket env channel ⟨bytes, 2⟩ s := by
  refine (dispatch_decoded ?_ carries).trans ?_
  · cases channel <;> decide
  · cases channel <;> rfl

def buffered (number : Nat) (p : ReliablePacket) : BasePacket :=
  copyOf ⟨p.bytes number, 4⟩ number

def putEarly (env : Env) (copy : BasePacket) (c : BaseClient) : BaseClient :=
  sendPacket env (outOfOrderMessage copy.sequence) { c with
    receiveBuffer := (put compareTo .noDuplicate copy c.receiveBuffer).1 }

theorem putEarly_eq (env : Env) (copy : BasePacket) (c : BaseClient) :
    putEarly env copy c = queueUnreliable (outOfOrderMessage copy.sequence) { c with
      receiveBuffer :=
        (put compareTo .noDuplicate copy c.receiveBuffer).1 } :=
  sendPacket_unsequenced env _ rfl

theorem validatePacket_unread (env : Env) (pack : Stream) {number : Nat} {rest : List UInt8}
    (next : pack.unread = beBytes 2 number ++ rest) (c : BaseClient) :
    validatePacket env pack c =
      match classify (number % 65536) c.clientSequence with
      | .received => .ok (false, pack.advance 2) (acknowledgeClientPackets env (number % 65536) c)
      | .early => .ok (false, pack.advance 2)
          (putEarly env (copyOf (pack.advance 2) (number % 65536)) c)
      | .expected => .ok (true, pack.advance 2) (acceptSequence env c) := by
  simp only [validatePacket, Stream.parseNetShort_unread pack number rest next]
  rfl

/-! ### One packet -/

def verdict (pack : Stream) (c : BaseClient) : Option Verdict :=
  match Stream.parseNetShort pack with
  | .ok seq _ => some (classify seq c.clientSequence)
  | .error _ _ => none

/-- The branch, with the answer of `validatePacket` and the counter and receive buffer behind
it. -/
def TakenFor (env : Env) (pack : Stream) (number : Nat) (c : BaseClient) (v : Verdict) : Prop :=
  verdict pack c = some v ∧ ∃ c',
    validatePacket env pack c = .ok (v == .expected, pack.advance 2) c' ∧
      match v with
      | .received => c'.clientSequence = c.clientSequence ∧ c'.receiveBuffer = c.receiveBuffer
      | .early => c'.clientSequence = c.clientSequence ∧ c'.receiveBuffer =
          (put compareTo .noDuplicate (copyOf (pack.advance 2) (number % 65536))
            c.receiveBuffer).1
      | .expected => c'.clientSequence = (c.clientSequence + 1) % 4294967296 ∧
          c'.receiveBuffer = c.receiveBuffer

theorem takenFor_iff (env : Env) {pack : Stream} {payload : List UInt8}
    (next : pack.unread = beBytes 2 number ++ payload) (c : BaseClient) (v : Verdict) :
    TakenFor env pack number c v ↔ classify (number % 65536) c.clientSequence = v := by
  have read : verdict pack c = some (classify (number % 65536) c.clientSequence) := by
    rw [verdict, Stream.parseNetShort_unread pack number payload next]
  rw [TakenFor, read, Option.some_inj, and_iff_left_iff_imp]
  rintro rfl
  have validated := validatePacket_unread env pack next c
  cases taken : classify (number % 65536) c.clientSequence with
  | received =>
    rw [taken] at validated
    exact ⟨_, validated, by simp [acknowledgeClientPackets_eq]⟩
  | early =>
    rw [taken] at validated
    exact ⟨_, validated, by simp [putEarly_eq]⟩
  | expected =>
    rw [taken] at validated
    exact ⟨_, validated, by simp [acceptSequence_eq]⟩

/-- Exactly when the number and the counter agree above the sixteen bits on the wire. -/
theorem verdict_correct_iff (env : Env) (c : BaseClient) (pack : Stream) (number : Nat)
    (payload : List UInt8) (next : pack.unread = beBytes 2 number ++ payload)
    (behind : number < c.clientSequence + 32768) (ahead : c.clientSequence < number + 32768) :
    ((TakenFor env pack number c .received ↔ number < c.clientSequence) ∧
      (TakenFor env pack number c .expected ↔ number = c.clientSequence) ∧
      (TakenFor env pack number c .early ↔ c.clientSequence < number)) ↔
    number / 65536 = c.clientSequence / 65536 := by
  simp only [takenFor_iff number env next]
  have compared := classify_spec (number % 65536) c.clientSequence
  cases taken : classify (number % 65536) c.clientSequence with
  | received =>
    rw [taken] at compared
    simp only [reduceCtorEq, true_iff, false_iff]
    omega
  | early =>
    rw [taken] at compared
    simp only [reduceCtorEq, true_iff, false_iff]
    omega
  | expected =>
    rw [taken] at compared
    simp only [reduceCtorEq, true_iff, false_iff]
    omega

theorem verdict_correct_iff_five :
    ((TakenFor Env.plain ⟨beBytes 2 3, 0⟩ 3 { BaseClient.initialized 0 with clientSequence := 5 }
        .received ↔ 3 < 5) ∧
      (TakenFor Env.plain ⟨beBytes 2 3, 0⟩ 3 { initialized 0 with clientSequence := 5 }
        .expected ↔ 3 = 5) ∧
      (TakenFor Env.plain ⟨beBytes 2 3, 0⟩ 3 { initialized 0 with clientSequence := 5 }
        .early ↔ 5 < 3)) ↔ 3 / 65536 = 5 / 65536 :=
  verdict_correct_iff Env.plain { initialized 0 with clientSequence := 5 } ⟨beBytes 2 3, 0⟩ 3 []
    rfl (by decide) (by decide)

theorem verdict_wraps :
    let c := { initialized 0 with clientSequence := 0x10000 }
    0xFFFF < c.clientSequence ∧ verdict ⟨beBytes 2 0xFFFF, 0⟩ c = some .early ∧
      (finalState (validatePacket Env.plain ⟨beBytes 2 0xFFFF, 0⟩ c)).receiveBuffer.map
        sequence = [0xFFFF] := by
  decide

/-! ### The receive buffer is drained -/

theorem processBufferedPacket_buffered (env : Env) (number : Nat) (p : ReliablePacket) :
    processBufferedPacket env (buffered number p) =
      handOver env p.channel ⟨p.bytes number, 4⟩ := by
  have opcode : Stream.readShortFrom 0 (buffered number p).toStream =
      .ok p.channel.opcode (buffered number p).toStream := by
    rw [Stream.readShortFrom_start _ p.channel.opcode rfl]
    cases p.channel <;> rfl
  have kept : Stream.setOffset 4 (buffered number p).toStream =
      .ok () (buffered number p).toStream :=
    Stream.setOffset_inside 4 _ (four_le_length number p)
  funext s
  refine (bind_of_ok (parse_of_ok opcode)).trans ?_
  cases channel : p.channel with
  | data => rfl
  | fragment =>
    refine (ite_run_neg (by decide)).trans ?_
    refine (ite_run_pos rfl).trans ?_
    exact (bind_of_ok (parse_of_ok kept)).trans rfl

theorem getBufferedPacket_due (env : Env) (held : c.receiveBuffer = b :: rest)
    (due : b.getSequence % 65536 = c.clientSequence % 65536) :
    getBufferedPacket env c = (some b, acceptSequence env { c with receiveBuffer := rest }) := by
  simp only [getBufferedPacket, held, land_low16, due, ne_eq, not_true, if_false]

theorem getBufferedPacket_early (env : Env) (held : c.receiveBuffer = b :: rest)
    (early : b.getSequence % 65536 ≠ c.clientSequence % 65536) :
    getBufferedPacket env c = (none, c) := by
  simp only [getBufferedPacket, held, land_low16, ne_eq, early, not_false_iff, if_true]

theorem getBufferedPacket_empty (env : Env) (held : c.receiveBuffer = []) :
    getBufferedPacket env c = (none, c) := by
  simp only [getBufferedPacket, held]

theorem drainLoop_stops (none : getBufferedPacket env s.client = (none, s.client)) (fuel : Nat) :
    drainLoop env (fuel + 1) s = .ok () s := by
  simp only [drainLoop, none]

theorem drainLoop_takes (taken : getBufferedPacket env s.client = (some b, c)) (fuel : Nat) :
    drainLoop env (fuel + 1) s =
      (do processBufferedPacket env b
          drainLoop env fuel) { s with client := c } := by
  simp only [drainLoop, taken]

/-! ### The receive buffer -/

structure Consistent (packets : List ReliablePacket) (arrived : List Nat) (next : Nat)
    (buffer : List BasePacket) (handed : List (Channel × List UInt8)) : Prop where
  bound : next ≤ packets.length
  handed : handed = (packets.take next).map ReliablePacket.entry
  sorted : StrictlySorted sequence buffer
  genuine : ∀ b ∈ buffer, ∃ p, packets[b.sequence]? = some p ∧ b = buffered b.sequence p
  below : ∀ i, i < next → i ∈ arrived
  kept : ∀ b ∈ buffer, b.sequence ∈ arrived
  covered : ∀ i ∈ arrived, i < next ∨ ∃ b ∈ buffer, b.sequence = i

section Steps

variable {packets : List ReliablePacket} {arrived : List Nat} {next : Nat}
  {buffer : List BasePacket} {handed : List (Channel × List UInt8)}

theorem Consistent.sequence_lt (inv : Consistent packets arrived next buffer handed)
    {b : BasePacket} (mem : b ∈ buffer) : b.sequence < packets.length := by
  obtain ⟨p, found, -⟩ := inv.genuine b mem
  exact (List.getElem?_eq_some_iff.mp found).1

private theorem handed_succ (found : packets[next]? = some p) :
    (packets.take next).map ReliablePacket.entry ++ [p.entry] =
      (packets.take (next + 1)).map ReliablePacket.entry := by
  rw [take_add_one, found, map_append]
  rfl

theorem Consistent.accept (inv : Consistent packets arrived next buffer handed)
    (p : ReliablePacket) (found : packets[next]? = some p) :
    Consistent packets (arrived ++ [next]) (next + 1) buffer (handed ++ [p.entry]) where
  bound := (List.getElem?_eq_some_iff.mp found).1
  handed := by rw [inv.handed, handed_succ p found]
  sorted := inv.sorted
  genuine := inv.genuine
  below := by
    intro i less
    rcases Nat.lt_or_eq_of_le (Nat.le_of_lt_succ less) with earlier | rfl
    · exact mem_append_left _ (inv.below i earlier)
    · exact mem_append_right _ (mem_singleton_self _)
  kept := fun b mem => mem_append_left _ (inv.kept b mem)
  covered := by
    intro i mem
    rcases mem_append.mp mem with old | new
    · rcases inv.covered i old with less | held
      · exact Or.inl (Nat.lt_succ_of_lt less)
      · exact Or.inr held
    · rw [mem_singleton.mp new]
      exact Or.inl (Nat.lt_succ_self next)

theorem Consistent.take (b : BasePacket)
    (inv : Consistent packets arrived b.sequence (b :: buffer) handed) (p : ReliablePacket)
    (found : packets[b.sequence]? = some p) :
    Consistent packets arrived (b.sequence + 1) buffer (handed ++ [p.entry]) where
  bound := (List.getElem?_eq_some_iff.mp found).1
  handed := by rw [inv.handed, handed_succ p found]
  sorted := (pairwise_cons.mp inv.sorted).2
  genuine := fun c mem => inv.genuine c (mem_cons_of_mem b mem)
  below := by
    intro i less
    rcases Nat.lt_or_eq_of_le (Nat.le_of_lt_succ less) with earlier | rfl
    · exact inv.below i earlier
    · exact inv.kept b mem_cons_self
  kept := fun c mem => inv.kept c (mem_cons_of_mem b mem)
  covered := by
    intro i mem
    rcases inv.covered i mem with less | ⟨c, held, rfl⟩
    · exact Or.inl (Nat.lt_succ_of_lt less)
    · rcases mem_cons.mp held with rfl | held
      · exact Or.inl (Nat.lt_succ_self _)
      · exact Or.inr ⟨c, held, rfl⟩

theorem Consistent.again (inv : Consistent packets arrived next buffer handed) (i : Nat)
    (old : i < next) : Consistent packets (arrived ++ [i]) next buffer handed where
  bound := inv.bound
  handed := inv.handed
  sorted := inv.sorted
  genuine := inv.genuine
  below := fun j less => mem_append_left _ (inv.below j less)
  kept := fun b mem => mem_append_left _ (inv.kept b mem)
  covered := by
    intro j mem
    rcases mem_append.mp mem with known | new
    · exact inv.covered j known
    · rw [mem_singleton.mp new]
      exact Or.inl old

theorem Consistent.early (inv : Consistent packets arrived next buffer handed) (i : Nat)
    (p : ReliablePacket) (found : packets[i]? = some p) :
    Consistent packets (arrived ++ [i]) next
      (put compareTo .noDuplicate (buffered i p) buffer).1 handed ∧
    ∀ b ∈ (put compareTo .noDuplicate (buffered i p) buffer).1,
      b.sequence = i ∨ b ∈ buffer := by
  -- a copy of a packet that is kept already changes nothing but the arrivals
  by_cases present : ∃ b ∈ buffer, b.sequence = i
  · obtain ⟨b, mem, eq⟩ := present
    rw [put_noDuplicate_present compareTo_orderedBy
      inv.sorted mem eq]
    refine ⟨⟨inv.bound, inv.handed, inv.sorted, inv.genuine, ?_, ?_, ?_⟩, fun c held => Or.inr held⟩
    · exact fun j less => mem_append_left _ (inv.below j less)
    · exact fun c held => mem_append_left _ (inv.kept c held)
    · intro j arrives
      rcases mem_append.mp arrives with known | new
      · exact inv.covered j known
      · exact Or.inr ⟨b, mem, eq.trans (mem_singleton.mp new).symm⟩
  · have absent : ∀ b ∈ buffer, b.sequence ≠ (buffered i p).sequence :=
      fun b mem eq => present ⟨b, mem, eq⟩
    obtain ⟨sorted, members⟩ := put_noDuplicate_absent
      compareTo_orderedBy (buffered i p) inv.sorted absent
    refine ⟨⟨inv.bound, inv.handed, sorted, ?_, ?_, ?_, ?_⟩, ?_⟩
    · intro b mem
      rcases (members b).mp mem with rfl | old
      · exact ⟨p, found, rfl⟩
      · exact inv.genuine b old
    · exact fun j less => mem_append_left _ (inv.below j less)
    · intro b mem
      rcases (members b).mp mem with rfl | old
      · exact mem_append_right _ (mem_singleton_self i)
      · exact mem_append_left _ (inv.kept b old)
    · intro j arrives
      rcases mem_append.mp arrives with known | new
      · rcases inv.covered j known with less | ⟨b, held, eq⟩
        · exact Or.inl less
        · exact Or.inr ⟨b, (members b).mpr (Or.inr held), eq⟩
      · exact Or.inr ⟨buffered i p, (members _).mpr (Or.inl rfl), (mem_singleton.mp new).symm⟩
    · intro b mem
      rcases (members b).mp mem with rfl | old
      · exact Or.inl rfl
      · exact Or.inr old

end Steps

/-! ### Whole calls -/

def Receiving (packets : List ReliablePacket) (arrived : List Nat) (s : Session) : Prop :=
  Consistent packets arrived s.client.clientSequence s.client.receiveBuffer s.handed

structure Stable (env : Env) (Q : BaseClient → Prop) : Prop where
  accept : ∀ c buffer, c.clientSequence < 65536 → Q c →
    Q (acceptSequence env { c with receiveBuffer := buffer })
  again : ∀ c number, number < c.clientSequence → Q c → Q (acknowledgeClientPackets env number c)
  early : ∀ c number buffer, Q c →
    Q (sendPacket env (outOfOrderMessage number) { c with receiveBuffer := buffer })
  collect : ∀ c frag, Q c → Q { c with fragmentedPacket := frag }

theorem stable_true (env : Env) : Stable env fun _ => True :=
  ⟨fun _ _ _ => id, fun _ _ _ => id, fun _ _ _ => id, fun _ _ => id⟩

theorem handOver_record (env : Env) (channel : Channel) (pack : Stream) (s : Session) :
    (finalState (handOver env channel pack s)).handed = s.handed ++ [(channel, pack.unread)] ∧
    ∃ frag, (finalState (handOver env channel pack s)).client =
      { s.client with fragmentedPacket := frag } := by
  rw [handOver_final]
  exact ⟨rfl, _, rfl⟩

theorem unread_bytes : (Stream.mk (p.bytes number) 4).unread = p.payload :=
  drop_number number p

private theorem acceptSequence_fields (env : Env) (c : BaseClient)
    (lt : c.clientSequence < 65536) :
    (acceptSequence env c).clientSequence = c.clientSequence + 1 ∧
    (acceptSequence env c).receiveBuffer = c.receiveBuffer ∧
    (acceptSequence env c).crcSeed = c.crcSeed := by
  rw [acceptSequence_eq]
  refine ⟨?_, ?_, ?_⟩
  · rw [queueUnreliable_clientSequence]
    exact Nat.mod_eq_of_lt (by omega)
  · exact queueUnreliable_receiveBuffer _ _
  · exact queueUnreliable_crcSeed _ _

theorem handOver_accepted {env : Env} {Q : BaseClient → Prop} (stable : Stable env Q)
    (number : Nat) (p : ReliablePacket) (rest : List BasePacket) {s s' : Session}
    (lt : s.client.clientSequence < 65536) (holds : Q s.client)
    (final : finalState (handOver env p.channel ⟨p.bytes number, 4⟩
      { s with client := acceptSequence env { s.client with receiveBuffer := rest } }) = s') :
    s'.client.clientSequence = s.client.clientSequence + 1 ∧ s'.client.receiveBuffer = rest ∧
    s'.handed = s.handed ++ [p.entry] ∧ s'.client.crcSeed = s.client.crcSeed ∧ Q s'.client := by
  obtain ⟨record, frag, client⟩ := handOver_record env p.channel ⟨p.bytes number, 4⟩
    { s with client := acceptSequence env { s.client with receiveBuffer := rest } }
  obtain ⟨counted, untouched, sameSeed⟩ := acceptSequence_fields env
    { s.client with receiveBuffer := rest } lt
  rw [final, unread_bytes] at record
  rw [final] at client
  rw [client]
  exact ⟨counted, untouched, record, sameSeed, stable.collect _ _ (stable.accept _ _ lt holds)⟩

structure Draining (packets : List ReliablePacket) (arrived : List Nat) (crcSeed : UInt32)
    (Q : BaseClient → Prop) (s : Session) : Prop where
  receiving : Receiving packets arrived s
  notBelow : ∀ b ∈ s.client.receiveBuffer, s.client.clientSequence ≤ b.sequence
  seed : s.client.crcSeed = crcSeed
  holds : Q s.client

section Drain

variable {env : Env} {packets : List ReliablePacket} {arrived : List Nat} {crcSeed : UInt32}
  {Q : BaseClient → Prop} {s : Session} {b : BasePacket} {rest : List BasePacket}

theorem Draining.later (draining : Draining packets arrived crcSeed Q s)
    (held : s.client.receiveBuffer = b :: rest) : ∀ c ∈ rest, b.sequence < c.sequence := by
  have sorted := draining.receiving.sorted
  rw [held] at sorted
  exact (pairwise_cons.mp sorted).1

theorem Draining.head (draining : Draining packets arrived crcSeed Q s)
    (held : s.client.receiveBuffer = b :: rest) :
    s.client.clientSequence ≤ b.sequence ∧ b.sequence < packets.length ∧
      ∃ p, packets[b.sequence]? = some p ∧ b = buffered b.sequence p := by
  have mem : b ∈ s.client.receiveBuffer := by
    rw [held]
    exact mem_cons_self
  exact ⟨draining.notBelow b mem, draining.receiving.sequence_lt mem,
    draining.receiving.genuine b mem⟩

theorem Draining.take (stable : Stable env Q) (few : packets.length ≤ 65536)
    (draining : Draining packets arrived crcSeed Q s)
    (held : s.client.receiveBuffer = b :: rest) (due : b.sequence = s.client.clientSequence) :
    ∃ c, getBufferedPacket env s.client = (some b, c) ∧
      Draining packets arrived crcSeed Q
        (finalState (processBufferedPacket env b { s with client := c })) ∧
      (finalState (processBufferedPacket env b { s with client := c })).client.receiveBuffer =
        rest := by
  obtain ⟨-, bound, p, found, shape⟩ := draining.head held
  have num : b.getSequence = b.sequence := by rw [shape]; rfl
  have taken := getBufferedPacket_due env held (by rw [num, due])
  -- its channel is read again from the first two bytes
  have replayed : processBufferedPacket env b = handOver env p.channel ⟨p.bytes b.sequence, 4⟩ := by
    rw [shape, processBufferedPacket_buffered]
    rfl
  obtain ⟨counted, buf, record, seed, kept⟩ := handOver_accepted stable b.sequence p rest
    (by omega) draining.holds rfl
  refine ⟨_, taken, ?_⟩
  rw [replayed]
  refine ⟨⟨?_, ?_, seed.trans draining.seed, kept⟩, buf⟩
  · have before : Consistent packets arrived b.sequence (b :: rest) s.handed := by
      rw [due, ← held]
      exact draining.receiving
    rw [Receiving, counted, buf, record, ← due]
    exact before.take b p found
  · intro c mem
    rw [buf] at mem
    have := draining.later held c mem
    rw [counted]
    omega

theorem Draining.stop (env : Env) (few : packets.length ≤ 65536)
    (draining : Draining packets arrived crcSeed Q s)
    (held : s.client.receiveBuffer = b :: rest) (notDue : b.sequence ≠ s.client.clientSequence) :
    getBufferedPacket env s.client = (none, s.client) ∧
      ∀ c ∈ s.client.receiveBuffer, s.client.clientSequence < c.sequence := by
  obtain ⟨least, bound, p, -, shape⟩ := draining.head held
  have num : b.getSequence = b.sequence := by rw [shape]; rfl
  have apart : b.sequence % 65536 ≠ s.client.clientSequence % 65536 := by
    rw [Nat.mod_eq_of_lt (by omega), Nat.mod_eq_of_lt (by omega)]
    exact notDue
  constructor
  · exact getBufferedPacket_early env held (by rw [num]; exact apart)
  · rw [held]
    intro c mem
    rcases mem_cons.mp mem with rfl | behind
    · omega
    · have := draining.later held c behind
      omega

end Drain

theorem drainLoop_final (env : Env) (packets : List ReliablePacket)
    (few : packets.length ≤ 65536) (arrived : List Nat) (crcSeed : UInt32) {Q : BaseClient → Prop}
    (stable : Stable env Q) (fuel : Nat) (s : Session)
    (draining : Draining packets arrived crcSeed Q s)
    (le : s.client.receiveBuffer.length ≤ fuel) :
    Draining packets arrived crcSeed Q (finalState (drainLoop env fuel s)) ∧
    ∀ s', drainLoop env fuel s = .ok () s' →
      ∀ b ∈ s'.client.receiveBuffer, s'.client.clientSequence < b.sequence := by
  -- every round takes one packet out, so the fuel lasts as long as the buffer
  induction fuel generalizing s with
  | zero =>
    have empty : s.client.receiveBuffer = [] := length_eq_zero_iff.mp (by omega)
    refine ⟨draining, fun s' ret => ?_⟩
    obtain ⟨-, rfl⟩ := pure_ok_iff.mp ret
    rw [empty]
    exact fun b mem => absurd mem not_mem_nil
  | succ fuel ih =>
    cases held : s.client.receiveBuffer with
    | nil =>
      rw [drainLoop_stops (getBufferedPacket_empty env held)]
      refine ⟨draining, fun s' ret => ?_⟩
      cases ret
      rw [held]
      exact fun b mem => absurd mem not_mem_nil
    | cons b rest =>
      by_cases due : b.sequence = s.client.clientSequence
      · obtain ⟨c, taken, after, buf⟩ := draining.take stable few held due
        rw [drainLoop_takes taken]
        cases replayed : processBufferedPacket env b { s with client := c } with
        | ok u handedOver =>
          rw [replayed] at after buf
          rw [bind_of_ok replayed]
          refine ih handedOver after ?_
          rw [held, length_cons] at le
          change handedOver.client.receiveBuffer = rest at buf
          rw [buf]
          omega
        | error e thrown =>
          rw [replayed] at after
          rw [bind_of_error replayed]
          exact ⟨after, fun s' ret => nomatch ret⟩
      · obtain ⟨kept, ahead⟩ := draining.stop env few held due
        rw [drainLoop_stops kept]
        refine ⟨draining, fun s' ret => ?_⟩
        cases ret
        exact ahead

theorem handleReliablePacket_eq (env : Env) (number : Nat) (lt : number < 65536)
    (p : ReliablePacket) (s : Session) :
    handleReliablePacket env p.channel ⟨p.bytes number, 2⟩ s =
      match classify number s.client.clientSequence with
      | .received => .ok () { s with client := acknowledgeClientPackets env number s.client }
      | .early => .ok () { s with client := putEarly env (buffered number p) s.client }
      | .expected =>
        (do handOver env p.channel ⟨p.bytes number, 4⟩
            processBufferedPackets env) { s with client := acceptSequence env s.client } := by
  have validated := validatePacket_unread env ⟨p.bytes number, 2⟩ (drop_header number p) s.client
  rw [Nat.mod_eq_of_lt lt] at validated
  cases taken : classify number s.client.clientSequence with
  | received =>
    have read : onClient (validatePacket env ⟨p.bytes number, 2⟩) s =
        .ok (false, ⟨p.bytes number, 4⟩)
          { s with client := acknowledgeClientPackets env number s.client } := by
      simp only [onClient, validated, taken]
      rfl
    exact (bind_of_ok read).trans rfl
  | early =>
    have read : onClient (validatePacket env ⟨p.bytes number, 2⟩) s =
        .ok (false, ⟨p.bytes number, 4⟩)
          { s with client := putEarly env (buffered number p) s.client } := by
      simp only [onClient, validated, taken]
      rfl
    exact (bind_of_ok read).trans rfl
  | expected =>
    have read : onClient (validatePacket env ⟨p.bytes number, 2⟩) s =
        .ok (true, ⟨p.bytes number, 4⟩) { s with client := acceptSequence env s.client } := by
      simp only [onClient, validated, taken]
      rfl
    exact (bind_of_ok read).trans rfl

structure Ready (packets : List ReliablePacket) (arrived : List Nat) (crcSeed : UInt32)
    (s : Session) : Prop where
  receiving : Receiving packets arrived s
  ahead : ∀ b ∈ s.client.receiveBuffer, s.client.clientSequence % 65536 < b.sequence
  seed : s.client.crcSeed = crcSeed

theorem ready_start (packets : List ReliablePacket) (s : Session)
    (counter : s.client.clientSequence = 0) (empty : s.client.receiveBuffer = [])
    (nothing : s.handed = []) : Ready packets [] s.client.crcSeed s := by
  refine ⟨?_, ?_, rfl⟩
  · rw [Receiving, counter, empty, nothing]
    exact ⟨Nat.zero_le _, rfl, Pairwise.nil, by simp, by omega, by simp, by simp⟩
  · rw [empty]
    exact fun b mem => absurd mem not_mem_nil

/-- When the counter stands at the end of the first 65536 numbers, its low half is zero
again, and packet zero would pass for the next one. -/
def Fresh (s : Session) (number : Nat) : Prop :=
  s.client.clientSequence = 65536 → number ≠ 0

section Step

variable {env : Env} {packets : List ReliablePacket} {arrived : List Nat} {crcSeed : UInt32}
  {Q : BaseClient → Prop} {s : Session} {number : Nat} {p : ReliablePacket}

theorem Ready.again (stable : Stable env Q) (ready : Ready packets arrived crcSeed s)
    (holds : Q s.client) (old : number < s.client.clientSequence) :
    Ready packets (arrived ++ [number]) crcSeed
        { s with client := acknowledgeClientPackets env number s.client } ∧
      Q (acknowledgeClientPackets env number s.client) := by
  refine ⟨?_, stable.again _ _ old holds⟩
  rw [acknowledgeClientPackets_eq]
  refine ⟨?_, ?_, ?_⟩
  · simpa [Receiving] using ready.receiving.again number old
  · simpa using ready.ahead
  · simpa using ready.seed

theorem Ready.early (stable : Stable env Q) (ready : Ready packets arrived crcSeed s)
    (holds : Q s.client) (found : packets[number]? = some p)
    (ahead : s.client.clientSequence % 65536 < number) :
    Ready packets (arrived ++ [number]) crcSeed
        { s with client := putEarly env (buffered number p) s.client } ∧
      Q (putEarly env (buffered number p) s.client) := by
  refine ⟨?_, stable.early _ _ _ holds⟩
  rw [putEarly_eq]
  obtain ⟨consistent, members⟩ := ready.receiving.early number p found
  refine ⟨?_, ?_, ?_⟩
  · simpa [Receiving] using consistent
  · intro b mem
    simp only [queueUnreliable_receiveBuffer] at mem
    simp only [queueUnreliable_clientSequence]
    rcases members b mem with rfl | old
    · exact ahead
    · exact ready.ahead b old
  · simpa using ready.seed

theorem Ready.accept (stable : Stable env Q) (ready : Ready packets arrived crcSeed s)
    (holds : Q s.client) (found : packets[s.client.clientSequence]? = some p)
    (inRange : s.client.clientSequence < 65536) :
    Draining packets (arrived ++ [s.client.clientSequence]) crcSeed Q
      (finalState (handOver env p.channel ⟨p.bytes s.client.clientSequence, 4⟩
        { s with client := acceptSequence env s.client })) := by
  obtain ⟨counted, buf, record, seed, kept⟩ := handOver_accepted stable
    s.client.clientSequence p s.client.receiveBuffer inRange holds rfl
  refine ⟨?_, ?_, seed.trans ready.seed, kept⟩
  · rw [Receiving, counted, buf, record]
    exact ready.receiving.accept p found
  · intro b mem
    rw [buf] at mem
    have := ready.ahead b mem
    rw [counted]
    omega

end Step

variable {env : Env} {packets : List ReliablePacket} {arrived : List Nat} {crcSeed : UInt32}
  {Q : BaseClient → Prop} {s : Session}

theorem handleReliablePacket_final (few : packets.length ≤ 65536) (stable : Stable env Q)
    (ready : Ready packets arrived crcSeed s) (holds : Q s.client) {number : Nat}
    {p : ReliablePacket} (found : packets[number]? = some p) (fresh : Fresh s number) :
    match handleReliablePacket env p.channel ⟨p.bytes number, 2⟩ s with
    | .ok () s' => Ready packets (arrived ++ [number]) crcSeed s' ∧ Q s'.client
    | .error _ s' => Draining packets (arrived ++ [number]) crcSeed Q s' := by
  have bound : number < packets.length := (List.getElem?_eq_some_iff.mp found).1
  have limit := ready.receiving.bound
  have compared := classify_spec number s.client.clientSequence
  rw [handleReliablePacket_eq env number (by omega) p s]
  cases taken : classify number s.client.clientSequence with
  | received =>
    rw [taken] at compared
    exact ready.again stable holds (by omega)
  | early =>
    rw [taken] at compared
    exact ready.early stable holds found (by omega)
  | expected =>
    rw [taken] at compared
    -- past the first 65536 numbers only packet zero is taken for the expected one
    have inRange : s.client.clientSequence < 65536 := by
      rw [Fresh] at fresh
      omega
    obtain rfl : number = s.client.clientSequence := by omega
    have fst := ready.accept stable holds found inRange
    cases handled : handOver env p.channel ⟨p.bytes s.client.clientSequence, 4⟩
        { s with client := acceptSequence env s.client } with
    | error e thrown =>
      rw [handled] at fst
      rw [bind_of_error handled]
      exact fst
    | ok u handedOver =>
      rw [handled] at fst
      rw [bind_of_ok handled, processBufferedPackets]
      obtain ⟨last, ahead⟩ := drainLoop_final env packets few _ crcSeed stable _ handedOver fst
        (Nat.le_refl _)
      cases drained : drainLoop env handedOver.client.receiveBuffer.length handedOver with
      | ok u s' =>
        rw [drained] at last
        exact ⟨⟨last.receiving, fun b mem =>
          lt_of_le_of_lt (Nat.mod_le _ _) (ahead s' drained b mem), last.seed⟩, last.holds⟩
      | error e s' =>
        rw [drained] at last
        exact last

/-! ### Runs -/

theorem receiveAll_append (env : Env) (front back : List (Nat × List UInt8)) (s : Session) :
    receiveAll env (front ++ back) s = receiveAll env back (receiveAll env front s) :=
  foldl_append

theorem receiveAll_singleton (env : Env) (a : Nat × List UInt8) (s : Session) :
    receiveAll env [a] s = handlePacket env a.2 s := rfl

theorem receiveAll_errors (env : Env) (arrivals : List (Nat × List UInt8)) (s : Session) :
    s.errors <+: (receiveAll env arrivals s).errors := by
  induction arrivals generalizing s with
  | nil => exact prefix_rfl
  | cons a rest ih => exact (handlePacket_extends env a.2 s).2.trans (ih _)

theorem handlePacket_ready (few : packets.length ≤ 65536) (stable : Stable env Q)
    (ready : Ready packets arrived crcSeed s) (holds : Q s.client) {arrival : Nat × List UInt8}
    (arrives : Arrives env crcSeed packets arrival) (fresh : Fresh s arrival.1)
    (quiet : (handlePacket env arrival.2 s).errors = []) :
    Ready packets (arrived ++ [arrival.1]) crcSeed (handlePacket env arrival.2 s) ∧
      Q (handlePacket env arrival.2 s).client := by
  obtain ⟨p, found, carries⟩ := arrives
  have ret := dispatch_of_quiet quiet
  rw [← ready.seed] at carries
  rw [dispatch_carries carries] at ret
  have final := handleReliablePacket_final few stable ready holds
    found fresh
  rwa [ret] at final

section Run

variable (env : Env) (packets : List ReliablePacket) (few : packets.length ≤ 65536)
  (crcSeed : UInt32) (s₀ : Session) (start : Ready packets [] crcSeed s₀)
  (arrivals : List (Nat × List UInt8)) (arrive : ∀ a ∈ arrivals, Arrives env crcSeed packets a)
  (quiet : (receiveAll env arrivals s₀).errors = [])

include few start arrive quiet

omit few start arrive in
private theorem quiet_take (k : Nat) : (receiveAll env (arrivals.take k) s₀).errors = [] := by
  have later := receiveAll_errors env (arrivals.drop k) (receiveAll env (arrivals.take k) s₀)
  rw [← receiveAll_append, take_append_drop, quiet] at later
  exact prefix_nil.mp later

theorem receiveAll_ready {k : Nat} (hin : k ≤ arrivals.length)
    (fresh : ∀ j a, j < k → arrivals[j]? = some a →
      Fresh (receiveAll env (arrivals.take j) s₀) a.1) :
    Ready packets ((arrivals.take k).map Prod.fst) crcSeed
      (receiveAll env (arrivals.take k) s₀) := by
  induction k with
  | zero => exact start
  | succ k ih =>
    obtain ⟨a, here⟩ : ∃ a, arrivals[k]? = some a :=
      ⟨_, getElem?_eq_getElem (by omega)⟩
    have before := ih (by omega) fun j a less => fresh j a (by omega)
    have calm := quiet_take env s₀ arrivals quiet (k + 1)
    have split : arrivals.take (k + 1) = arrivals.take k ++ [a] := by
      rw [take_add_one, here]
      rfl
    rw [split, receiveAll_append] at calm ⊢
    rw [map_append]
    exact (handlePacket_ready few (stable_true env) before trivial
      (arrive a (mem_of_getElem? here)) (fresh k a (by omega) here) calm).1

end Run

/-- The receiver handed over the packets below its counter in order, and the whole stream once all
of it is there. -/
structure InOrder (packets : List ReliablePacket) (arrived : List Nat) (s : Session) : Prop where
  bound : s.client.clientSequence ≤ packets.length
  handed : s.handed = (packets.take s.client.clientSequence).map ReliablePacket.entry
  complete : (∀ i < packets.length, i ∈ arrived) → s.handed = packets.map ReliablePacket.entry

theorem Ready.inOrder {packets : List ReliablePacket} {arrived : List Nat} {crcSeed : UInt32}
    {s : Session} (few : packets.length ≤ 65536) (ready : Ready packets arrived crcSeed s) :
    InOrder packets arrived s where
  bound := ready.receiving.bound
  handed := ready.receiving.handed
  complete := by
    intro all
    have bounds := ready.receiving.bound
    have whole : s.client.clientSequence = packets.length := by
      rcases Nat.lt_or_eq_of_le bounds with less | eq
      · -- the counter itself would be covered, but everything buffered is ahead of it
        rcases ready.receiving.covered _ (all _ less) with below | ⟨b, held, eq⟩
        · omega
        · have := ready.ahead b held
          omega
      · exact eq
    rw [ready.receiving.handed, whole, take_length]

/-! ### Datagrams that carry a packet -/

theorem carries_wire {env : Env}
    (inverse : ∀ data, env.zlib.inflate (env.zlib.deflate data) = data) (seed : UInt32)
    {pack : BasePacket} {opcode : Nat} {rest : List UInt8} (word : opcode < 65536)
    (zeroFirst : clearLength (leBytes 2 opcode) = 2)
    (closed : IsClosed pack (leBytes 2 opcode ++ rest))
    (encr : pack.doEncr = true) (crc : pack.doCRCTest = true)
    (lt : (leBytes 2 opcode ++ rest).length ≤ 493) :
    Carries env seed (wire env.zlib seed pack) opcode (leBytes 2 opcode ++ rest) := by
  have some : leBytes 2 opcode ≠ [] := cons_ne_nil _ _
  refine ⟨?_, ?_⟩
  · obtain ⟨back, bytes⟩ := wire_clear env.zlib seed closed encr crc some
      zeroFirst lt
    have read := Stream.readShort_unread ⟨wire env.zlib seed pack, 0⟩ opcode back bytes
    rwa [Nat.mod_eq_of_lt word] at read
  · obtain ⟨cursor, eq, received⟩ := processRecieve_wire inverse seed
      closed encr crc lt 2
    rw [received]
    rcases eq with rfl | rfl <;> rfl

theorem opcode_clear (channel : Channel) :
    channel.opcode < 65536 ∧ clearLength (leBytes 2 channel.opcode) = 2 := by
  cases channel <;> exact ⟨by decide, rfl⟩

theorem carries_reliable (env : Env)
    (inverse : ∀ data, env.zlib.inflate (env.zlib.deflate data) = data) (seed : UInt32)
    (p : ReliablePacket) (number : Nat) (short : p.payload.length ≤ 489) :
    Carries env seed
      (wire env.zlib seed (ofBytes (p.bytes number)).close)
      p.channel.opcode (p.bytes number) := by
  have closed := isClosed_close (ofBytes (p.bytes number)) rfl
  have len : (p.bytes number).length ≤ 493 := by
    simp only [ReliablePacket.bytes, length_append, length_leBytes, length_beBytes]
    omega
  have flags : (ofBytes (p.bytes number)).close.doEncr = true ∧
      (ofBytes (p.bytes number)).close.doCRCTest = true := by
    rw [close_at_end _ rfl]
    exact ⟨rfl, rfl⟩
  have clear := opcode_clear p.channel
  exact carries_wire inverse seed clear.1 clear.2 closed flags.1 flags.2
    len

def zeroPacket : ReliablePacket := ⟨.data, [0, 0]⟩

def zeroDatagram (number : Nat) : List UInt8 :=
  wire ⟨id, id⟩ 0 (ofBytes (zeroPacket.bytes number)).close

theorem carries_zeroDatagram : Carries Env.plain 0 (zeroDatagram number) zeroPacket.channel.opcode
      (zeroPacket.bytes number) :=
  carries_reliable Env.plain (fun _ => rfl) 0 zeroPacket number (by decide)

/-! ### The receiver keeps the order -/

private theorem handOver_of_expected (env : Env) (number : Nat) (lt : number < 65536)
    (p : ReliablePacket) (s s' : Session)
    (taken : classify number s.client.clientSequence = .expected)
    (ret : handleReliablePacket env p.channel ⟨p.bytes number, 2⟩ s = .ok () s') :
    s.handed ++ [p.entry] <+: s'.handed := by
  rw [handleReliablePacket_eq env number lt p s] at ret
  simp only [taken] at ret
  obtain ⟨_, handedOver, fst, remaining⟩ := bind_ok_iff.mp ret
  have record := (handOver_record env p.channel ⟨p.bytes number, 4⟩
    { s with client := acceptSequence env s.client }).1
  have grows := (processBufferedPackets_extends env).of_ok remaining
  rw [fst, unread_bytes] at record
  exact record ▸ grows.1

/-- Exactly when no copy of packet zero comes in while the counter stands at 65536. -/
theorem receiveAll_inOrder_iff (env : Env) (packets : List ReliablePacket)
    (few : packets.length ≤ 65536) (s₀ : Session) (counter : s₀.client.clientSequence = 0)
    (empty : s₀.client.receiveBuffer = []) (nothing : s₀.handed = [])
    (arrivals : List (Nat × List UInt8))
    (arrive : ∀ a ∈ arrivals, Arrives env s₀.client.crcSeed packets a)
    (quiet : (receiveAll env arrivals s₀).errors = []) :
    (∀ k ≤ arrivals.length, InOrder packets ((arrivals.take k).map Prod.fst)
        (receiveAll env (arrivals.take k) s₀)) ↔
      ∀ k a, arrivals[k]? = some a → Fresh (receiveAll env (arrivals.take k) s₀) a.1 := by
  have start := ready_start packets s₀ counter empty nothing
  constructor
  · intro ord k
    induction k using Nat.strong_induction_on with
    | _ k ih =>
      intro a here full zero
      have hin : k < arrivals.length := (List.getElem?_eq_some_iff.mp here).1
      have ready := receiveAll_ready env packets few _ s₀ start arrivals arrive quiet
        (Nat.le_of_lt hin) fun j b less => ih j less b
      have after := ord (k + 1) hin
      have calm := quiet_take env s₀ arrivals quiet (k + 1)
      have split : arrivals.take (k + 1) = arrivals.take k ++ [a] := by
        rw [take_add_one, here]
        rfl
      rw [split, receiveAll_append] at after calm
      -- packet zero is taken for number 65536 and handed over once more
      obtain ⟨p, found, carries⟩ := arrive a (mem_of_getElem? here)
      have ret := dispatch_of_quiet calm
      rw [← ready.seed] at carries
      rw [dispatch_carries carries, zero] at ret
      have longer := (handOver_of_expected env 0 (by decide) p _ _
        (by rw [full]; rfl) ret).length_le
      have before := congrArg length ready.receiving.handed
      have total := congrArg length after.handed
      simp only [length_append, length_map, length_take, length_singleton]
        at longer before total
      change _ ≤ (receiveAll env [a] (receiveAll env (arrivals.take k) s₀)).handed.length at longer
      have := ready.receiving.bound
      omega
  · intro fresh k hin
    exact (receiveAll_ready env packets few _ s₀ start arrivals arrive quiet hin
      fun j a _ here => fresh j a here).inOrder few

theorem receiveAll_inOrder_iff_swapped :
    (∀ k ≤ 3, InOrder [zeroPacket, zeroPacket]
        (([(1, zeroDatagram 1), (0, zeroDatagram 0), (1, zeroDatagram 1)].take k).map Prod.fst)
        (receiveAll Env.plain
          ([(1, zeroDatagram 1), (0, zeroDatagram 0), (1, zeroDatagram 1)].take k)
          (Session.start (BaseClient.initialized 0)))) ↔
      ∀ k a, [(1, zeroDatagram 1), (0, zeroDatagram 0), (1, zeroDatagram 1)][k]? = some a →
        Fresh (receiveAll Env.plain
          ([(1, zeroDatagram 1), (0, zeroDatagram 0), (1, zeroDatagram 1)].take k)
          (Session.start (BaseClient.initialized 0))) a.1 :=
  receiveAll_inOrder_iff Env.plain [zeroPacket, zeroPacket] (by decide)
    (Session.start (initialized 0)) rfl rfl rfl
    [(1, zeroDatagram 1), (0, zeroDatagram 0), (1, zeroDatagram 1)]
    (by
      intro a member
      simp only [mem_cons, not_mem_nil, or_false] at member
      rcases member with rfl | rfl | rfl
      · exact ⟨zeroPacket, rfl, carries_zeroDatagram 1⟩
      · exact ⟨zeroPacket, rfl, carries_zeroDatagram 0⟩
      · exact ⟨zeroPacket, rfl, carries_zeroDatagram 1⟩)
    (by decide +kernel)

/-! ### A run past the first 65536 numbers -/

private structure Counted (k : Nat) (s : Session) : Prop where
  sequence : s.client.clientSequence = k
  buffer : s.client.receiveBuffer = []
  seed : s.client.crcSeed = 0
  record : s.handed.length = k
  quiet : s.errors = []

private theorem counted_step (k : Nat) (lt : k < 4294967295) (s : Session)
    (counted : Counted k s) :
    Counted (k + 1) (handlePacket Env.plain (zeroDatagram (k % 65536)) s) := by
  have carries := carries_zeroDatagram (k % 65536)
  rw [← counted.seed] at carries
  have expected : classify (k % 65536) s.client.clientSequence = .expected := by
    rw [counted.sequence, classify, land_low16, if_neg (Nat.lt_irrefl _), if_neg (Nat.lt_irrefl _)]
  have delivered : ∀ s : Session, ∃ messages, handOver Env.plain zeroPacket.channel
      ⟨zeroPacket.bytes (k % 65536), 4⟩ s = .ok () { s with
        messages := messages, handed := s.handed ++ [zeroPacket.entry] } := by
    intro s
    have single := handleDataChannelPacket_single Env.plain
      ⟨zeroPacket.bytes (k % 65536), 4⟩ 0 [] (unread_bytes _ zeroPacket) (by decide)
      { s with handed := s.handed ++ [zeroPacket.entry] }
    refine ⟨s.messages ++ [zeroPacket.payload], ?_⟩
    refine single.trans ?_
    rfl
  -- the packets come in order, so there is nothing to drain
  have drained : ∀ s : Session, s.client.receiveBuffer = [] →
      processBufferedPackets Env.plain s = .ok () s := by
    intro s none
    rw [processBufferedPackets, none]
    rfl
  have untouched : (acceptSequence Env.plain s.client).receiveBuffer = [] := by
    rw [acceptSequence_eq, queueUnreliable_receiveBuffer]
    exact counted.buffer
  obtain ⟨messages, fst⟩ := delivered { s with client := acceptSequence Env.plain s.client }
  have handled := handleReliablePacket_eq Env.plain (k % 65536) (Nat.mod_lt _ (by decide))
    zeroPacket s
  simp only [expected] at handled
  have whole := handled.trans ((bind_of_ok fst).trans (drained _ untouched))
  rw [handlePacket, dispatch_carries carries, whole]
  refine ⟨?_, untouched, ?_, ?_, counted.quiet⟩
  · simp only [acceptSequence_eq, queueUnreliable_clientSequence, counted.sequence]
    omega
  · simp only [acceptSequence_eq, queueUnreliable_crcSeed]
    exact counted.seed
  · simp [counted.record]

def zeroArrivals (k : Nat) : List (Nat × List UInt8) :=
  (range k).map fun i => (i % 65536, zeroDatagram (i % 65536))

private theorem counted_run (k : Nat) (lt : k < 4294967295) :
    Counted k
      (receiveAll Env.plain (zeroArrivals k) (Session.start (initialized 0))) := by
  induction k with
  | zero => exact ⟨rfl, rfl, rfl, rfl, rfl⟩
  | succ k ih =>
    rw [zeroArrivals, range_succ, map_append, map_singleton, receiveAll_append,
      receiveAll_singleton]
    exact counted_step k (by omega) _ (ih (by omega))

theorem receiveAll_repeats_packet_zero :
    (∀ a ∈ zeroArrivals 65537, Arrives Env.plain 0 (List.replicate 65536 zeroPacket) a) ∧
    (receiveAll Env.plain (zeroArrivals 65537)
      (Session.start (BaseClient.initialized 0))).errors = [] ∧
    ¬ InOrder (List.replicate 65536 zeroPacket) ((zeroArrivals 65537).map Prod.fst)
      (receiveAll Env.plain (zeroArrivals 65537) (Session.start (BaseClient.initialized 0))) := by
  have counted := counted_run 65537 (by omega)
  refine ⟨?_, counted.quiet, ?_⟩
  · intro a mem
    obtain ⟨i, -, rfl⟩ := mem_map.mp mem
    refine ⟨zeroPacket, ?_, carries_zeroDatagram _⟩
    exact getElem?_replicate_of_lt (Nat.mod_lt _ (by decide))
  · intro ord
    have bound := ord.bound
    rw [counted.sequence, length_replicate] at bound
    omega

end Engine3.BasePacketHandler
