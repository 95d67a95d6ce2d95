import Engine3.Proto.ReliableReceive

/-!
# Receiving payloads that throw

A reliable packet is counted before its handler runs. When the handler throws, `handlePacket` ends
without draining the receive buffer, and the packet that is now expected may be in there.
-/
namespace Engine3.BasePacketHandler

open Bytes Exec BaseClient

/-- Everything that is kept is still ahead of the expected packet. -/
def NothingDue (s : Session) : Prop :=
  ∀ b ∈ s.client.receiveBuffer, s.client.clientSequence < b.sequence

/-! ### Payloads in their order -/

def handFirst (env : Env) (packets : List ReliablePacket) (s₀ : Session) : Nat → Session
  | 0 => s₀
  | n + 1 =>
    match packets[n]? with
    | some p => finalState (handOver env p.channel ⟨p.bytes n, 4⟩ (handFirst env packets s₀ n))
    | none => handFirst env packets s₀ n

/-- The payload of a packet makes its handler throw when its turn comes. -/
def Throws (env : Env) (packets : List ReliablePacket) (s₀ : Session) (n : Nat) : Prop :=
  ∃ p e s, packets[n]? = some p ∧
    handOver env p.channel ⟨p.bytes n, 4⟩ (handFirst env packets s₀ n) = .error e s

structure InStep (env : Env) (packets : List ReliablePacket) (s₀ s : Session) : Prop where
  messages : s.messages = (handFirst env packets s₀ s.client.clientSequence).messages
  fragment : s.client.fragmentedPacket =
    (handFirst env packets s₀ s.client.clientSequence).client.fragmentedPacket

structure Handed (env : Env) (packets : List ReliablePacket) (s₀ : Session) (from' : Nat)
    (threw : Prop) (s : Session) : Prop where
  inStep : InStep env packets s₀ s
  reached : from' ≤ s.client.clientSequence
  moved : threw → from' < s.client.clientSequence
  throws : ∀ n, from' ≤ n → n < s.client.clientSequence →
    (Throws env packets s₀ n ↔ threw ∧ n + 1 = s.client.clientSequence)

section Handing

variable {env : Env} {packets : List ReliablePacket} {s₀ s t : Session} {p : ReliablePacket}
  {from' : Nat} {threw : Prop} {Q : BaseClient → Prop}

theorem Handed.nothing (inStep : InStep env packets s₀ s)
    (same : s.client.clientSequence = from') : Handed env packets s₀ from' False s :=
  ⟨inStep, same.ge, False.elim, fun n lower upper => by omega⟩

theorem Handed.trans (first : Handed env packets s₀ from' False s)
    (later : Handed env packets s₀ s.client.clientSequence threw t) :
    Handed env packets s₀ from' threw t := by
  refine ⟨later.inStep, first.reached.trans later.reached,
    fun failed => first.reached.trans_lt (later.moved failed), fun n lower upper => ?_⟩
  by_cases before : n < s.client.clientSequence
  · -- nothing handed over so far threw, and what throws later is behind it
    rw [first.throws n lower before]
    constructor
    · exact fun both => both.1.elim
    · rintro ⟨failed, last⟩
      have := later.moved failed
      omega
  · exact later.throws n (by omega) upper

theorem handOver_agrees (messages : s.messages = t.messages)
    (fragment : s.client.fragmentedPacket = t.client.fragmentedPacket) (channel : Channel)
    (pack : Stream) :
    handOver env channel pack s =
      mapState (withPayload { s with handed := s.handed ++ [(channel, pack.unread)] })
        (handOver env channel pack t) := by
  have same : { s with handed := s.handed ++ [(channel, pack.unread)] } =
      withPayload { s with handed := s.handed ++ [(channel, pack.unread)] }
        { t with handed := t.handed ++ [(channel, pack.unread)] } := by
    simp only [withPayload, ← messages, ← fragment]
  have commutes := handleChannel_payloadOnly env channel pack
    { s with handed := s.handed ++ [(channel, pack.unread)] }
    { t with handed := t.handed ++ [(channel, pack.unread)] }
  rw [← same] at commutes
  exact commutes

theorem handOver_handed (inStep : InStep env packets s₀ s) (rest : List BasePacket)
    (found : packets[s.client.clientSequence]? = some p) (word : s.client.clientSequence < 65536) :
    let handed := handOver env p.channel ⟨p.bytes s.client.clientSequence, 4⟩
      { s with client := acceptSequence env { s.client with receiveBuffer := rest } }
    Handed env packets s₀ s.client.clientSequence (IsError handed) (finalState handed) := by
  intro handed
  obtain ⟨counter, -⟩ := handOver_accepted (stable_true env) s.client.clientSequence p rest word
    trivial (rfl : finalState handed = _)
  have agrees : handed = mapState _ _ := handOver_agrees
    (s := { s with client := acceptSequence env { s.client with receiveBuffer := rest } })
    (t := handFirst env packets s₀ s.client.clientSequence) inStep.messages
    ((acceptSequence_fragmentedPacket env _).trans inStep.fragment) p.channel
    ⟨p.bytes s.client.clientSequence, 4⟩
  have next : handFirst env packets s₀ (s.client.clientSequence + 1) =
      finalState (handOver env p.channel ⟨p.bytes s.client.clientSequence, 4⟩
        (handFirst env packets s₀ s.client.clientSequence)) := by
    simp only [handFirst, found]
  have throws : Throws env packets s₀ s.client.clientSequence ↔ IsError handed := by
    rw [agrees]
    unfold Throws
    simp only [found, Option.some.injEq, exists_and_left, exists_eq_left']
    cases handOver env p.channel ⟨p.bytes s.client.clientSequence, 4⟩
        (handFirst env packets s₀ s.client.clientSequence) with
    | ok a t => simp [IsError, mapState]
    | error e t => simp [IsError, mapState]
  refine ⟨⟨?_, ?_⟩, by omega, fun _ => by omega, fun n lower upper => ?_⟩
  · rw [counter, next, agrees, finalState_mapState]
    rfl
  · rw [counter, next, agrees, finalState_mapState]
    rfl
  · obtain rfl : n = s.client.clientSequence := by omega
    rw [throws, counter]
    simp

theorem drainLoop_handed (few : packets.length ≤ 65536) {arrived : List Nat} {crcSeed : UInt32}
    (fuel : Nat) (draining : Draining packets arrived crcSeed (fun _ => True) s)
    (inStep : InStep env packets s₀ s) :
    Handed env packets s₀ s.client.clientSequence (IsError (drainLoop env fuel s))
      (finalState (drainLoop env fuel s)) := by
  induction fuel generalizing s with
  | zero => exact Handed.nothing inStep rfl
  | succ fuel ih =>
    cases held : s.client.receiveBuffer with
    | nil =>
      rw [drainLoop_stops (getBufferedPacket_empty env held)]
      exact Handed.nothing inStep rfl
    | cons b rest =>
      by_cases due : b.sequence = s.client.clientSequence
      · obtain ⟨-, bound, p, found, shape⟩ := draining.head held
        obtain ⟨c, taken, after, -⟩ := draining.take (stable_true env) few held due
        have accepted : c = acceptSequence env { s.client with receiveBuffer := rest } := by
          have := getBufferedPacket_due env held (by rw [shape, ← due]; rfl)
          cases taken.symm.trans this
          rfl
        have replay : processBufferedPacket env b =
            handOver env p.channel ⟨p.bytes b.sequence, 4⟩ := by
          rw [shape, processBufferedPacket_buffered]
          rfl
        have handed := handOver_handed inStep rest (due ▸ found) (by omega)
        rw [← due, ← accepted, ← replay] at handed
        rw [drainLoop_takes taken, ← due]
        cases replayed : processBufferedPacket env b { s with client := c } with
        | error e thrown =>
          rw [replayed] at handed
          rw [bind_of_error replayed]
          exact handed
        | ok u handedOver =>
          rw [replayed] at handed after
          rw [bind_of_ok replayed]
          exact handed.trans (ih after handed.inStep)
      · rw [drainLoop_stops (draining.stop env few held due).1]
        exact Handed.nothing inStep rfl

theorem handleReliablePacket_handed (few : packets.length < 65536) {arrived : List Nat}
    {crcSeed : UInt32} (ready : Ready packets arrived crcSeed s) (inStep : InStep env packets s₀ s)
    {number : Nat} (found : packets[number]? = some p) :
    let outcome := handleReliablePacket env p.channel ⟨p.bytes number, 2⟩ s
    Handed env packets s₀ s.client.clientSequence (IsError outcome) (finalState outcome) := by
  intro outcome
  have bound : number < packets.length := (List.getElem?_eq_some_iff.mp found).1
  have limit := ready.receiving.bound
  have compared := classify_spec number s.client.clientSequence
  have outcome_eq : outcome = _ := handleReliablePacket_eq env number (by omega) p s
  rw [outcome_eq]
  cases verdict : classify number s.client.clientSequence with
  | received =>
    refine Handed.nothing ?_ ?_
    · constructor <;> simp [finalState, acknowledgeClientPackets_eq, inStep.messages,
        inStep.fragment]
    · simp [finalState, acknowledgeClientPackets_eq]
  | early =>
    refine Handed.nothing ?_ ?_
    · constructor <;> simp [finalState, putEarly_eq, inStep.messages, inStep.fragment]
    · simp [finalState, putEarly_eq]
  | expected =>
    rw [verdict] at compared
    obtain rfl : number = s.client.clientSequence := by omega
    have handed := handOver_handed inStep s.client.receiveBuffer found (by omega)
    have accepted := ready.accept (stable_true env) trivial found (by omega)
    cases first : handOver env p.channel ⟨p.bytes s.client.clientSequence, 4⟩
        { s with client := acceptSequence env s.client } with
    | error e thrown =>
      rw [first] at handed
      rw [bind_of_error first]
      exact handed
    | ok u handedOver =>
      rw [first] at handed accepted
      rw [bind_of_ok first]
      exact handed.trans (drainLoop_handed few.le _ accepted handed.inStep)

end Handing

/-! ### One call -/

section Calls

variable {env : Env} {packets : List ReliablePacket} {arrived : List Nat} {crcSeed : UInt32}
  {s₀ s : Session} {Q : BaseClient → Prop}

theorem handlePacket_outcome (few : packets.length < 65536)
    (ready : Ready packets arrived crcSeed s) (inStep : InStep env packets s₀ s)
    {arrival : Nat × List UInt8} (arrives : Arrives env crcSeed packets arrival) :
    let s' := handlePacket env arrival.2 s
    ∃ threw, Handed env packets s₀ s.client.clientSequence threw s' ∧
      Draining packets (arrived ++ [arrival.1]) crcSeed (fun _ => True) s' ∧
      (¬ threw → NothingDue s') := by
  obtain ⟨p, found, carries⟩ := arrives
  have limit := ready.receiving.bound
  -- with fewer than 65536 packets the counter never gets to the end of their numbers
  have fresh : Fresh s arrival.1 := by
    intro full
    omega
  have final := handleReliablePacket_final few.le (stable_true env) ready trivial found fresh
  have handed := handleReliablePacket_handed few ready inStep found
  rw [← ready.seed] at carries
  rw [← dispatch_carries carries] at final handed
  unfold handlePacket
  cases ends : dispatch env ⟨arrival.2, 0⟩ s with
  | ok u s' =>
    rw [ends] at final handed
    obtain ⟨⟨receiving, ahead, seed⟩, -⟩ := final
    have bound := receiving.bound
    rw [Nat.mod_eq_of_lt (by omega)] at ahead
    exact ⟨False, handed, ⟨receiving, fun b member => (ahead b member).le, seed, trivial⟩,
      fun _ => ahead⟩
  | error e s' =>
    rw [ends] at final handed
    exact ⟨True, ⟨⟨handed.inStep.messages, handed.inStep.fragment⟩, handed.reached, handed.moved,
      handed.throws⟩, ⟨final.receiving, final.notBelow, final.seed, trivial⟩,
      fun returned => absurd trivial returned⟩

theorem Draining.ahead (draining : Draining packets arrived crcSeed Q s) :
    NothingDue s ↔ s.client.clientSequence ∉ arrived := by
  constructor
  · intro ahead member
    rcases draining.receiving.covered _ member with below | ⟨b, kept, due⟩
    · omega
    · have := ahead b kept
      omega
  · intro missing b kept
    have least := draining.notBelow b kept
    have apart : b.sequence ≠ s.client.clientSequence :=
      fun due => missing (due ▸ draining.receiving.kept b kept)
    omega

theorem Draining.ready (draining : Draining packets arrived crcSeed Q s) (ahead : NothingDue s) :
    Ready packets arrived crcSeed s :=
  ⟨draining.receiving, fun b kept => lt_of_le_of_lt (Nat.mod_le _ _) (ahead b kept), draining.seed⟩

end Calls

/-! ### Whole runs -/

def arrivedBy (arrivals : List (Nat × List UInt8)) (k : Nat) : List Nat :=
  (arrivals.take k).map Prod.fst

/-- With this datagram the last of the packets up to a number has arrived. -/
def Completes (arrivals : List (Nat × List UInt8)) (k n : Nat) : Prop :=
  (∃ i ≤ n, i ∉ arrivedBy arrivals k) ∧ ∀ i ≤ n, i ∈ arrivedBy arrivals (k + 1)

section Runs

variable (env : Env) (packets : List ReliablePacket) (few : packets.length < 65536) (s₀ : Session)
  (arrivals : List (Nat × List UInt8))
  (arrive : ∀ a ∈ arrivals, Arrives env s₀.client.crcSeed packets a)

structure Steady (k : Nat) : Prop where
  ready : Ready packets (arrivedBy arrivals k) s₀.client.crcSeed
    (receiveAll env (arrivals.take k) s₀)
  inStep : InStep env packets s₀ (receiveAll env (arrivals.take k) s₀)
  ahead : NothingDue (receiveAll env (arrivals.take k) s₀)
  missing : (receiveAll env (arrivals.take k) s₀).client.clientSequence ∉ arrivedBy arrivals k

variable {env packets s₀ arrivals} {k : Nat}

include few arrive in
theorem Steady.next (steady : Steady env packets s₀ arrivals k) (inside : k < arrivals.length) :
    (NothingDue (receiveAll env (arrivals.take (k + 1)) s₀) →
      Steady env packets s₀ arrivals (k + 1)) ∧
    (NothingDue (receiveAll env (arrivals.take (k + 1)) s₀) ↔
      ∀ n, Throws env packets s₀ n → Completes arrivals k n →
        n + 1 ∉ arrivedBy arrivals (k + 1)) := by
  have here : arrivals[k]? = some arrivals[k] := List.getElem?_eq_getElem inside
  have split : arrivals.take (k + 1) = arrivals.take k ++ [arrivals[k]] := by
    rw [List.take_add_one, here]
    rfl
  have outcome := handlePacket_outcome few steady.ready steady.inStep
    (arrive _ (List.mem_of_getElem? here))
  have numbers : arrivedBy arrivals (k + 1) = arrivedBy arrivals k ++ [(arrivals[k]).1] := by
    rw [arrivedBy, split, List.map_append]
    rfl
  rw [← numbers, ← receiveAll_singleton, ← receiveAll_append, ← split] at outcome
  obtain ⟨threw, handed, draining, quiet⟩ := outcome
  refine ⟨fun ahead => ⟨draining.ready ahead, handed.inStep, ahead, draining.ahead.mp ahead⟩,
    fun ahead n throws completes arrived => ?_, fun late => ?_⟩
  · -- the packets up to `n` are handed over in this call, and `n` is the last of them
    have missing := draining.ahead.mp ahead
    obtain ⟨i, le, absent⟩ := completes.1
    have begun : (receiveAll env (arrivals.take k) s₀).client.clientSequence ≤ n := by
      by_contra above
      exact absent (steady.ready.receiving.below i (by omega))
    have covered : n < (receiveAll env (arrivals.take (k + 1)) s₀).client.clientSequence := by
      by_contra above
      exact missing (completes.2 _ (by omega))
    have last := ((handed.throws n begun covered).mp throws).2
    exact missing (last ▸ arrived)
  · by_cases failed : threw
    · have moved := handed.moved failed
      obtain ⟨n, counter⟩ := Nat.exists_eq_add_one_of_ne_zero (Nat.ne_zero_of_lt moved)
      have throws := (handed.throws n (by omega) (by omega)).mpr ⟨failed, counter.symm⟩
      refine draining.ahead.mpr (counter ▸ late n throws ⟨⟨_, ?_, steady.missing⟩, fun i le => ?_⟩)
      · omega
      · exact draining.receiving.below i (by omega)
    · exact quiet failed

end Runs

/-- Exactly when behind no payload that throws the next packet has already arrived. -/
theorem receiveBuffer_ahead_iff (env : Env) (packets : List ReliablePacket)
    (few : packets.length < 65536) (s₀ : Session) (counter : s₀.client.clientSequence = 0)
    (empty : s₀.client.receiveBuffer = []) (nothing : s₀.handed = [])
    (arrivals : List (Nat × List UInt8))
    (arrive : ∀ a ∈ arrivals, Arrives env s₀.client.crcSeed packets a) :
    (∀ k ≤ arrivals.length, NothingDue (receiveAll env (arrivals.take k) s₀)) ↔
      ∀ n, Throws env packets s₀ n → ∀ k < arrivals.length, Completes arrivals k n →
        n + 1 ∉ arrivedBy arrivals (k + 1) := by
  have start : Steady env packets s₀ arrivals 0 := by
    refine ⟨ready_start packets s₀ counter empty nothing, ⟨?_, ?_⟩, ?_, List.not_mem_nil⟩
    · change s₀.messages = (handFirst env packets s₀ s₀.client.clientSequence).messages
      rw [counter]
      rfl
    · change s₀.client.fragmentedPacket =
        (handFirst env packets s₀ s₀.client.clientSequence).client.fragmentedPacket
      rw [counter]
      rfl
    · change NothingDue s₀
      rw [NothingDue, empty]
      exact fun b member => absurd member List.not_mem_nil
  constructor
  · intro ahead
    have steady : ∀ k ≤ arrivals.length, Steady env packets s₀ arrivals k := by
      intro k
      induction k with
      | zero => exact fun _ => start
      | succ k ih =>
        intro inside
        exact ((ih (by omega)).next few arrive inside).1 (ahead (k + 1) inside)
    intro n throws k inside
    exact ((steady k inside.le).next few arrive inside).2.mp (ahead (k + 1) inside) n throws
  · intro late
    have steady : ∀ k ≤ arrivals.length, Steady env packets s₀ arrivals k := by
      intro k
      induction k with
      | zero => exact fun _ => start
      | succ k ih =>
        intro inside
        obtain ⟨keeps, exact⟩ := (ih (by omega)).next few arrive inside
        exact keeps (exact.mpr fun n throws => late n throws k inside)
    exact fun k inside => (steady k inside).ahead

/-! ### A payload that throws -/

def badPacket : ReliablePacket := ⟨.data, [1, 0]⟩

def refusing : Env :=
  { Env.plain with
    processMessage := fun _ message =>
      if message = badPacket.payload then some (.plain "bad message") else none }

def refusedDatagram (p : ReliablePacket) (number : Nat) : List UInt8 :=
  BaseProtocol.wire ⟨id, id⟩ 0 (BasePacket.ofBytes (p.bytes number)).close

theorem arrives_refused (p : ReliablePacket) (number : Nat) (found : packets[number]? = some p)
    (short : p.payload.length ≤ 489) :
    Arrives refusing 0 packets (number, refusedDatagram p number) :=
  ⟨p, found, carries_reliable refusing (fun _ => rfl) 0 p number short⟩

def badFirst : List (Nat × List UInt8) :=
  [(0, refusedDatagram badPacket 0), (1, refusedDatagram zeroPacket 1)]

theorem receiveBuffer_ahead_iff_badFirst :
    let s₀ := Session.start (BaseClient.initialized 0)
    Throws refusing [badPacket, zeroPacket] s₀ 0 ∧
      ∀ k ≤ badFirst.length, NothingDue (receiveAll refusing (badFirst.take k) s₀) := by
  refine ⟨⟨badPacket, _, _, rfl, rfl⟩, ?_⟩
  have arrive : ∀ a ∈ badFirst, Arrives refusing 0 [badPacket, zeroPacket] a := by
    intro a member
    simp only [badFirst, List.mem_cons, List.not_mem_nil, or_false] at member
    rcases member with rfl | rfl
    · exact arrives_refused badPacket 0 rfl (by decide)
    · exact arrives_refused zeroPacket 1 rfl (by decide)
  apply (receiveBuffer_ahead_iff refusing [badPacket, zeroPacket] (by decide)
    (Session.start (BaseClient.initialized 0)) rfl rfl rfl badFirst arrive).mpr
  -- the bad packet arrives alone
  intro n _ k inside completes arrived
  obtain ⟨i, le, absent⟩ := completes.1
  have first : k = 0 ∨ k = 1 := by
    have : badFirst.length = 2 := rfl
    omega
  rcases first with rfl | rfl
  · simp [arrivedBy, badFirst] at arrived
  · simp [arrivedBy, badFirst] at arrived absent
    omega

def badSecond : List (Nat × List UInt8) :=
  [(1, refusedDatagram zeroPacket 1), (0, refusedDatagram badPacket 0),
    (1, refusedDatagram zeroPacket 1), (3, refusedDatagram zeroPacket 3),
    (2, refusedDatagram zeroPacket 2)]

theorem receiveBuffer_goes_stale :
    let packets := [badPacket, zeroPacket, zeroPacket, zeroPacket]
    let s₀ := Session.start (BaseClient.initialized 0)
    let final := receiveAll refusing badSecond s₀
    (∀ a ∈ badSecond, Arrives refusing 0 packets a) ∧
      ¬ NothingDue (receiveAll refusing (badSecond.take 2) s₀) ∧
      final.client.clientSequence = 3 ∧
      final.client.receiveBuffer.map BasePacket.sequence = [1, 3] ∧
      final.handed = (packets.take 3).map ReliablePacket.entry := by
  intro packets s₀ final
  refine ⟨?_, ?_, by decide +kernel⟩
  · intro a member
    simp only [badSecond, List.mem_cons, List.not_mem_nil, or_false] at member
    rcases member with rfl | rfl | rfl | rfl | rfl
    · exact arrives_refused zeroPacket 1 rfl (by decide)
    · exact arrives_refused badPacket 0 rfl (by decide)
    · exact arrives_refused zeroPacket 1 rfl (by decide)
    · exact arrives_refused zeroPacket 3 rfl (by decide)
    · exact arrives_refused zeroPacket 2 rfl (by decide)
  · rw [NothingDue]
    decide +kernel

end Engine3.BasePacketHandler
