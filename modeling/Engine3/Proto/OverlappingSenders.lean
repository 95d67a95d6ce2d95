import Engine3.Proto.Retransmission

/-!
# Overlapping senders

`sendReliablePackets` numbers a packet, gives the lock up to encode it, and appends it to
`sequenceBuffer` when it has the lock again. Acknowledgements release the buffer from its front,
which takes out the acknowledged packets as long as the buffer is in the order of the numbers.
-/
namespace Engine3.BaseClient

open MachineInt ReleaseQueue List BasePacket

/-! ### Acknowledgements -/

variable {c : BaseClient} {seq : Nat} {s s' : Sender}

theorem realSequence_of_sent (number : Nat) (signed : c.serverSequence < 2147483648)
    (below : c.acknowledgedServerSequence ≤ c.serverSequence)
    (limit : c.serverSequence ≤ c.acknowledgedServerSequence + 51)
    (sent : number ≤ c.serverSequence) (near : c.serverSequence < number + 65536) :
    realSequence (number % 65536) c = number := by
  rw [realSequence_eq _ (Nat.mod_lt _ (by decide)) c (by omega)]
  unfold i32
  split
  · dsimp only
    split <;> omega
  · split <;> omega

theorem realSequence_le (lt : seq < 65536) (word : c.serverSequence < 4294967296) :
    realSequence seq c ≤ c.serverSequence := by
  rw [realSequence_eq seq lt c word]
  unfold i32
  split
  · dsimp only
    split <;> omega
  · split <;> omega

theorem acknowledgeServerPackets_window (available : c.isAvailable = true) {number : Nat}
    (meant : realSequence seq c = number) (current : c.acknowledgedServerSequence ≤ number)
    (word : number < 4294967296) :
    (acknowledgeServerPackets seq c).acknowledgedServerSequence = number ∧
      (acknowledgeServerPackets seq c).sequenceBuffer =
        c.sequenceBuffer.dropWhile fun pack => !decide (pack.getSequence > number) := by
  obtain ⟨event, flushed⟩ := acknowledgeServerPackets_flush seq available (meant ▸ current)
  rw [flushed, meant]
  refine ⟨rfl, ?_⟩
  change c.sequenceBuffer.dropWhile (fun pack => !decide (pack.getSequence > u32 number)) = _
  rw [u32_natCast, Nat.mod_eq_of_lt word]

/-- The right packets are taken out when none of them stands behind a later one. -/
theorem acknowledgement_exact (c : BaseClient) (available : c.isAvailable = true)
    (signed : c.serverSequence < 2147483648)
    (below : c.acknowledgedServerSequence ≤ c.serverSequence)
    (limit : c.serverSequence ≤ c.acknowledgedServerSequence + 51) :
    (∀ number : Nat, c.acknowledgedServerSequence < number → number < c.serverSequence →
      let c' := acknowledgeServerPackets (number % 65536) c
      realSequence (number % 65536) c = number ∧
      c'.acknowledgedServerSequence = number ∧
      (c'.sequenceBuffer = c.sequenceBuffer.filter
        (fun pack => decide (pack.getSequence > number)) ↔
        c.sequenceBuffer.Pairwise fun a b => b.getSequence ≤ number → a.getSequence ≤ number)) ∧
    (∀ number : Nat, number ≤ c.acknowledgedServerSequence →
      c.acknowledgedServerSequence < number + 65485 →
      let c' := acknowledgeServerPackets (number % 65536) c
      c'.acknowledgedServerSequence = c.acknowledgedServerSequence ∧
      (c'.sequenceBuffer = c.sequenceBuffer ↔
        number < c.acknowledgedServerSequence ∨
          ∀ pack ∈ c.sequenceBuffer.head?, number < pack.getSequence)) := by
  constructor
  · intro number above sent c'
    have meant := realSequence_of_sent number signed below limit (by omega) (by omega)
    obtain ⟨counter, buffer⟩ := acknowledgeServerPackets_window available
      meant above.le (by omega)
    refine ⟨meant, counter, ?_⟩
    have exact := dropWhile_eq_filter_iff
      (fun pack : BasePacket => !decide (pack.getSequence > number)) c.sequenceBuffer
    change (acknowledgeServerPackets (number % 65536) c).sequenceBuffer = _ ↔ _
    rw [buffer]
    simpa using exact
  · intro number old near c'
    have meant := realSequence_of_sent number signed below limit (by omega) (by omega)
    -- only the number acknowledged last gets past the test, and flushes up to itself again
    rcases lt_or_eq_of_le old with stale | last
    · have same : c' = c := acknowledgeServerPackets_stale _ (meant ▸ stale)
      rw [same]
      exact ⟨rfl, iff_of_true rfl (Or.inl stale)⟩
    · obtain ⟨counter, buffer⟩ := acknowledgeServerPackets_window available meant last.ge (by omega)
      refine ⟨counter.trans last, ?_⟩
      change (acknowledgeServerPackets (number % 65536) c).sequenceBuffer = _ ↔ _
      rw [buffer, or_iff_right (by omega), dropWhile_eq_self_iff]
      cases c.sequenceBuffer with
      | nil => simp
      | cons first rest => simp

def wrapping : BaseClient :=
  { connected 0 5000 with
    serverSequence := 65538
    acknowledgedServerSequence := 65534
    sequenceBuffer := [65535, 65536, 65537].map fun number =>
      { shortPacket with sequence := number } }

theorem acknowledgement_exact_wrapping :
    (acknowledgeServerPackets 0 wrapping).acknowledgedServerSequence = 65536 ∧
      (acknowledgeServerPackets 0 wrapping).sequenceBuffer =
        wrapping.sequenceBuffer.filter (fun pack => decide (pack.getSequence > 65536)) := by
  obtain ⟨-, counter, buf⟩ := (acknowledgement_exact wrapping (by decide) (by decide) (by decide)
    (by decide)).1 65536 (by decide) (by decide)
  exact ⟨counter, buf.mpr (by decide)⟩

/-! ### Steps of the threads -/

inductive ThreadStep
  | sendPacket (pack : BasePacket)
  | beginSend
  | finishSend (k : Nat)
  | acknowledge (seq : UInt16)

def ThreadStep.senderStep : ThreadStep → SenderStep
  | .sendPacket pack => .call (.sendPacket pack)
  | .beginSend => .beginSend
  | .finishSend k => .finishSend k
  | .acknowledge seq => .call (.acknowledge seq)

def ThreadStep.apply (env : Env) (step : ThreadStep) (s : Sender) : Sender :=
  step.senderStep.apply env s

def runThreads (env : Env) (steps : List ThreadStep) (s : Sender) : Sender :=
  steps.foldl (fun s step => step.apply env s) s

def overtaking : List ThreadStep :=
  [.sendPacket shortPacket, .beginSend, .sendPacket shortPacket, .beginSend, .finishSend 1]

theorem acknowledgement_keeps_acknowledged :
    let c := (runThreads Env.plain (overtaking ++ [.finishSend 0]) ⟨connected 0 5000, []⟩).client
    let c' := acknowledgeServerPackets 0 c
    c.isAvailable = true ∧ c.serverSequence = 2 ∧ c.acknowledgedServerSequence = -1 ∧
      c'.acknowledgedServerSequence = 0 ∧
      c'.sequenceBuffer.map getSequence = [1, 0] := by
  decide +kernel

/-- The buffer is in the order of the numbers, and nothing in it is acknowledged. -/
def InOrder (c : BaseClient) : Prop :=
  (c.sequenceBuffer.Pairwise fun a b => a.getSequence < b.getSequence) ∧
    ∀ pack ∈ c.sequenceBuffer, c.acknowledgedServerSequence < pack.getSequence

def Late (c : BaseClient) (pack : BasePacket) : Prop :=
  pack.getSequence ≤ c.acknowledgedServerSequence ∨
    ∃ other ∈ c.sequenceBuffer, pack.getSequence ≤ other.getSequence

instance (c : BaseClient) (pack : BasePacket) : Decidable (Late c pack) :=
  inferInstanceAs (Decidable (_ ∨ _))

def ThreadStep.late : ThreadStep → Sender → List BasePacket
  | .finishSend k, s => (s.inFlight[k]?).toList.filter fun pack => Late s.client pack
  | _, _ => []

def latePackets (env : Env) : List ThreadStep → Sender → List BasePacket
  | [], _ => []
  | step :: rest, s => step.late s ++ latePackets env rest (step.apply env s)

theorem late_iff_not_placed (c : BaseClient) (pack : BasePacket) :
    Late c pack ↔ ¬ Placed getSequence c.acknowledgedServerSequence c.sequenceBuffer
      pack := by
  rw [Late, Placed, not_and_or]
  simp only [not_lt, not_forall, exists_prop]

/-! ### What a step does -/

def Bounded (c : BaseClient) : Prop :=
  c.isAvailable = true → c.acknowledgedServerSequence ≤ c.serverSequence ∧
    c.serverSequence ≤ c.acknowledgedServerSequence + 51

structure Fewer (s s' : Sender) : Prop where
  inFlight : s'.inFlight.Sublist s.inFlight
  open_ : s'.client.isAvailable = true →
    s.client.isAvailable = true ∧ s'.client.serverSequence = s.client.serverSequence

inductive Steps (late : List BasePacket) (s s' : Sender) : Prop
  | kept (fewer : Fewer s s') (buffer : s'.client.sequenceBuffer = s.client.sequenceBuffer)
      (counter : s'.client.acknowledgedServerSequence = s.client.acknowledgedServerSequence)
  | emptied (fewer : Fewer s s') (buffer : s'.client.sequenceBuffer = [])
      (counter : s'.client.isAvailable = true →
        s'.client.acknowledgedServerSequence = s.client.acknowledgedServerSequence)
  | begun (pack : BasePacket) (inFlight : s'.inFlight = s.inFlight ++ [pack])
      (open_ : s.client.isAvailable = true) (number : pack.getSequence = s.client.serverSequence)
      (next : s'.client.serverSequence = s.client.serverSequence + 1)
      (room : s.client.serverSequence ≤ s.client.acknowledgedServerSequence + 50)
      (buffer : s'.client.sequenceBuffer = s.client.sequenceBuffer)
      (counter : s'.client.acknowledgedServerSequence = s.client.acknowledgedServerSequence)
  | finished (k : Nat) (pack : BasePacket) (held : s.inFlight[k]? = some pack)
      (inFlight : s'.inFlight = s.inFlight.eraseIdx k)
      (open_ : s'.client.isAvailable = true →
        s.client.isAvailable = true ∧ s'.client.serverSequence = s.client.serverSequence)
      (buffer : s'.client.sequenceBuffer = s.client.sequenceBuffer ++ [pack])
      (counter : s'.client.acknowledgedServerSequence = s.client.acknowledgedServerSequence)
      (flagged : pack ∈ late ↔ Late s.client pack)
  | acknowledged (fewer : Fewer s s') (number : Nat)
      (rises : s.client.acknowledgedServerSequence ≤ number)
      (sent : number ≤ s.client.serverSequence)
      (counter : s'.client.acknowledgedServerSequence = number)
      (buffer : s'.client.sequenceBuffer =
        s.client.sequenceBuffer.dropWhile fun pack => !decide (pack.getSequence > number))

theorem Fewer.refl (s : Sender) : Fewer s s :=
  ⟨Sublist.refl _, fun available => ⟨available, rfl⟩⟩

theorem Fewer.of_unavailable (inFlight : s'.inFlight.Sublist s.inFlight)
    (closed : s'.client.isAvailable = false) : Fewer s s' :=
  ⟨inFlight, fun available => absurd available (by simp [closed])⟩

theorem Steps.shut (late : List BasePacket) (inFlight : s'.inFlight.Sublist s.inFlight)
    (shut : Shut s'.client) : Steps late s s' :=
  .emptied (.of_unavailable inFlight shut.unavailable) shut.emptied
    fun available => absurd available (by simp [shut.unavailable])

theorem Steps.refl (late : List BasePacket) (s : Sender) : Steps late s s :=
  .kept (Fewer.refl s) rfl rfl

section Inversion

variable (env : Env) {s : Sender} (reachable : Reachable s)

include reachable

theorem sendPacket_steps (pack : BasePacket) (late : List BasePacket) :
    Steps late s ((ThreadStep.sendPacket pack).apply env s) := by
  change Steps late s { s with client := s.client.sendPacket env pack }
  cases open_ : s.client.isAvailable with
  | false =>
    rw [sendPacket_unavailable env s.client open_]
    exact .refl late s
  | true =>
    rcases sendPacket_cases env pack (reachable.counted open_).sequenced with queues | shut
    · obtain ⟨⟨_, _, _, same⟩, -⟩ := queues
      rw [same]
      exact .kept ⟨List.Sublist.refl _, fun _ => ⟨open_, rfl⟩⟩ rfl rfl
    · exact .shut late (List.Sublist.refl _) shut

theorem beginSend_steps (bounded : Bounded s.client) (late : List BasePacket) :
    Steps late s (ThreadStep.beginSend.apply env s) := by
  change Steps late s (SenderStep.apply env .beginSend s)
  rw [SenderStep.apply]
  cases open_ : s.client.isAvailable with
  | false =>
    rw [beginSend_unavailable env _ open_]
    exact .refl late s
  | true =>
    have counted := reachable.counted open_
    cases first : BaseClient.beginSend env s.client with
    | mk taken begun =>
      cases taken with
      | none =>
        rcases beginSend_none open_ first with rfl | ⟨rfl, -⟩ | shut
        · exact .refl late s
        · exact .kept ⟨List.Sublist.refl _, fun _ => ⟨open_, rfl⟩⟩ rfl rfl
        · exact .shut late (List.Sublist.refl _) shut
      | some pack =>
        obtain ⟨began, numbered, room⟩ := beginSend_some counted.sequenced first
        have num := (numbered.encoded env.zlib begun.crcSeed).getSequence
        obtain ⟨_, event, ⟨⟨_, _, _, rfl⟩, -⟩, rfl⟩ := began
        -- the window keeps the counter far below the end of its range
        obtain ⟨below, limit⟩ := bounded open_
        have signed := counted.signed
        rw [← Int.ofNat_le, u32_of_nonneg (by omega) (by omega)] at room
        exact .begun _ rfl open_ num (Nat.mod_eq_of_lt (by omega)) (by omega) rfl rfl

omit reachable in
theorem finishSend_of_disconnected {pack : BasePacket} {c c' : BaseClient}
    (disconnected : c.disconnected = true)
    (failed : BaseClient.finishSend env pack c = (false, c')) :
    c'.isAvailable = false ∧ c'.sequenceBuffer = c.sequenceBuffer ∧
      c'.acknowledgedServerSequence = c.acknowledgedServerSequence := by
  rw [BaseClient.finishSend, datagramSend] at failed
  split at failed
  next => cases failed
  next thrown =>
    split at thrown
    · cases thrown
    · cases thrown
      cases failed
      rw [disconnectError, disconnect, if_pos (by simp [disconnected])]
      simp [isAvailable]

omit reachable in
theorem finishSend_steps (k : Nat) :
    Steps ((ThreadStep.finishSend k).late s) s ((ThreadStep.finishSend k).apply env s) := by
  change Steps _ s (SenderStep.apply env (.finishSend k) s)
  rw [SenderStep.apply]
  cases held : s.inFlight[k]? with
  | none => exact .refl _ s
  | some pack =>
    have fewer : (s.inFlight.eraseIdx k).Sublist s.inFlight := eraseIdx_sublist ..
    simp only
    cases second : BaseClient.finishSend env pack s.client with
    | mk goesOn finished =>
      cases goesOn with
      | true =>
        rw [finishSend_true second]
        refine .finished k pack held rfl (fun available => ⟨available, rfl⟩) rfl rfl ?_
        simp [ThreadStep.late, held]
      | false =>
        cases connected : s.client.disconnected with
        | false =>
          have shut := finishSend_false connected second
          exact .shut _ fewer shut
        | true =>
          obtain ⟨closed, buffer, counter⟩ := finishSend_of_disconnected env connected second
          exact .kept (.of_unavailable fewer closed) buffer counter

omit env in
theorem acknowledge_steps (env : Env) (seq : UInt16) (late : List BasePacket) :
    Steps late s ((ThreadStep.acknowledge seq).apply env s) := by
  change Steps late s { s with client := acknowledgeServerPackets seq.toNat s.client }
  cases open_ : s.client.isAvailable with
  | false =>
    rw [acknowledgeServerPackets_unavailable s.client open_]
    exact .refl late s
  | true =>
    have counted := reachable.counted open_
    have known := counted.known
    rcases lt_or_ge (realSequence seq.toNat s.client) s.client.acknowledgedServerSequence with
      stale | current
    · rw [acknowledgeServerPackets_stale _ stale]
      exact .refl late s
    · have signed := realSequence_signed seq.toNat_lt counted.word
      obtain ⟨event, flushed⟩ := acknowledgeServerPackets_flush seq.toNat open_ current
      have fewer : Fewer s { s with client := acknowledgeServerPackets seq.toNat s.client } := by
        rw [flushed]
        exact ⟨List.Sublist.refl _, fun _ => ⟨open_, rfl⟩⟩
      have sent := realSequence_le seq.toNat_lt counted.word
      rcases lt_or_ge (realSequence seq.toNat s.client) 0 with negative | nonneg
      · -- minus one is taken for the largest number there is
        have last : u32 (realSequence seq.toNat s.client) = 4294967295 := by
          unfold u32
          omega
        refine .emptied fewer ?_ fun _ => ?_
        · change (acknowledgeServerPackets seq.toNat s.client).sequenceBuffer = []
          rw [flushed]
          change s.client.sequenceBuffer.dropWhile (fun pack =>
            !decide (pack.getSequence > u32 (realSequence seq.toNat s.client))) = []
          rw [last, dropWhile_eq_nil_iff]
          intro pack member
          have := counted.numbers pack member
          simp
          omega
        · change (acknowledgeServerPackets seq.toNat s.client).acknowledgedServerSequence = _
          rw [flushed]
          change realSequence seq.toNat s.client = _
          omega
      · obtain ⟨counter, buffer⟩ := acknowledgeServerPackets_window open_
          (Int.toNat_of_nonneg nonneg).symm
          (by omega) (by omega)
        exact .acknowledged fewer _ (by omega) (by omega) counter buffer

theorem ThreadStep.steps (bounded : Bounded s.client) (step : ThreadStep) :
    Steps (step.late s) s (step.apply env s) := by
  cases step with
  | sendPacket pack => exact sendPacket_steps env reachable pack _
  | beginSend => exact beginSend_steps env reachable bounded _
  | finishSend k => exact finishSend_steps env k
  | acknowledge seq => exact acknowledge_steps reachable env seq _

end Inversion

/-! ### Late packets stay out of place -/

structure Tracked (bad : List BasePacket) (s : Sender) : Prop where
  bounded : Bounded s.client
  distinct : ((s.client.sequenceBuffer ++ s.inFlight).map BasePacket.getSequence).Nodup
  numbered : s.client.isAvailable = true → ∀ pack,
    pack ∈ s.client.sequenceBuffer ∨ pack ∈ s.inFlight ∨ pack ∈ bad →
      pack.getSequence < s.client.serverSequence
  gone : ∀ pack ∈ bad, pack ∉ s.inFlight
  place : ∀ front pack back, s.client.sequenceBuffer = front ++ pack :: back →
    (Placed BasePacket.getSequence s.client.acknowledgedServerSequence front pack ↔ pack ∉ bad)

section Track

variable {bad late : List BasePacket} {s s' : Sender} (tracked : Tracked bad s)

include tracked

theorem Tracked.apart {pack : BasePacket} (buffered : pack ∈ s.client.sequenceBuffer) :
    pack ∉ s.inFlight := by
  intro held
  have nodup := tracked.distinct
  rw [map_append, nodup_append] at nodup
  exact nodup.2.2 _ (mem_map_of_mem buffered) _ (mem_map_of_mem held) rfl

section Within

variable (within : ∀ pack ∈ late, pack ∈ s.inFlight ∧ pack ∉ s'.inFlight)

include within

theorem Tracked.still {pack : BasePacket} (buffered : pack ∈ s.client.sequenceBuffer) :
    pack ∉ bad ++ late ↔ pack ∉ bad := by
  have ne : pack ∉ late := fun mem => tracked.apart buffered (within pack mem).1
  simp [ne]

theorem Tracked.less (op : s.client.isAvailable = true) (pack : BasePacket)
    (mem : pack ∈ s.client.sequenceBuffer ∨ pack ∈ s.inFlight ∨ pack ∈ bad ++ late) :
    pack.getSequence < s.client.serverSequence := by
  apply tracked.numbered op
  rcases mem with buffered | held | listed
  · exact Or.inl buffered
  · exact Or.inr (Or.inl held)
  · rcases mem_append.mp listed with old | new
    · exact Or.inr (Or.inr old)
    · exact Or.inr (Or.inl (within pack new).1)

theorem Tracked.never_held (fresh : ∀ pack ∈ bad, pack ∈ s'.inFlight → pack ∈ s.inFlight) :
    ∀ pack ∈ bad ++ late, pack ∉ s'.inFlight := by
  intro pack listed
  rcases mem_append.mp listed with old | new
  · exact fun held => tracked.gone pack old (fresh pack old held)
  · exact (within pack new).2

theorem Tracked.fewer (fewer : Fewer s s')
    (buffer : s'.client.sequenceBuffer.Sublist s.client.sequenceBuffer)
    (bounded : Bounded s'.client)
    (place : ∀ front pack back, s'.client.sequenceBuffer = front ++ pack :: back →
      (Placed BasePacket.getSequence s'.client.acknowledgedServerSequence front pack ↔
        pack ∉ bad)) : Tracked (bad ++ late) s' where
  bounded := bounded
  distinct := (buffer.append fewer.inFlight).map _ |>.nodup tracked.distinct
  numbered := by
    intro available pack member
    obtain ⟨open_, same⟩ := fewer.open_ available
    rw [same]
    apply tracked.less within open_
    rcases member with buffered | held | listed
    · exact Or.inl (buffer.subset buffered)
    · exact Or.inr (Or.inl (fewer.inFlight.subset held))
    · exact Or.inr (Or.inr listed)
  gone := tracked.never_held within fun _ _ held => fewer.inFlight.subset held
  place := by
    intro front pack back split
    have member : pack ∈ s.client.sequenceBuffer := buffer.subset (by rw [split]; simp)
    rw [place front pack back split, tracked.still within member]

theorem Tracked.begun (pack : BasePacket) (inFlight : s'.inFlight = s.inFlight ++ [pack])
    (open_ : s.client.isAvailable = true) (number : pack.getSequence = s.client.serverSequence)
    (next : s'.client.serverSequence = s.client.serverSequence + 1)
    (buffer : s'.client.sequenceBuffer = s.client.sequenceBuffer)
    (counter : s'.client.acknowledgedServerSequence = s.client.acknowledgedServerSequence)
    (bounded : Bounded s'.client) : Tracked (bad ++ late) s' where
  bounded := bounded
  distinct := by
    rw [buffer, inFlight, ← append_assoc, map_append, nodup_append]
    refine ⟨tracked.distinct, pairwise_singleton _ _, ?_⟩
    intro old member new single
    obtain ⟨other, held, rfl⟩ := mem_map.mp member
    rw [map_singleton, mem_singleton] at single
    have less := tracked.less within open_ other (by
      rcases mem_append.mp held with buffered | flying
      · exact Or.inl buffered
      · exact Or.inr (Or.inl flying))
    omega
  numbered := by
    intro _ other member
    rw [next]
    rw [buffer, inFlight, mem_append, mem_singleton] at member
    -- the new number is the largest, and all others are below it
    by_cases new : other = pack
    · rw [new, number]
      omega
    · have := tracked.less within open_ other (by simpa [new] using member)
      omega
  gone := by
    apply tracked.never_held within
    intro other old held
    rw [inFlight, mem_append, mem_singleton] at held
    rcases held with flying | rfl
    · exact flying
    · have := tracked.numbered open_ other (Or.inr (Or.inr old))
      omega
  place := by
    intro front other back split
    rw [buffer] at split
    have member : other ∈ s.client.sequenceBuffer := by rw [split]; simp
    rw [counter, tracked.place front other back split, tracked.still within member]

theorem Tracked.place_append {pack : BasePacket} (held : pack ∈ s.inFlight)
    (flagged : pack ∈ late ↔ Late s.client pack) (front : List BasePacket) (other : BasePacket)
    (back : List BasePacket) (split : s.client.sequenceBuffer ++ [pack] = front ++ other :: back) :
    Placed BasePacket.getSequence s.client.acknowledgedServerSequence front other ↔
      other ∉ bad ++ late := by
  rcases eq_nil_or_concat back with rfl | ⟨shorter, last, rfl⟩
  · obtain ⟨rfl, same⟩ := append_inj' split rfl
    obtain rfl : pack = other := head_eq_of_cons_eq same
    have fresh : pack ∉ bad := fun old => tracked.gone pack old held
    rw [mem_append, flagged, late_iff_not_placed]
    simp [fresh]
  · rw [concat_eq_append, ← cons_append, ← append_assoc] at split
    obtain ⟨before, -⟩ := append_inj' split rfl
    have member : other ∈ s.client.sequenceBuffer := by rw [before]; simp
    rw [tracked.place front other shorter before, tracked.still within member]

theorem Tracked.finished (k : Nat) (pack : BasePacket) (held : s.inFlight[k]? = some pack)
    (inFlight : s'.inFlight = s.inFlight.eraseIdx k)
    (open_ : s'.client.isAvailable = true →
      s.client.isAvailable = true ∧ s'.client.serverSequence = s.client.serverSequence)
    (buffer : s'.client.sequenceBuffer = s.client.sequenceBuffer ++ [pack])
    (counter : s'.client.acknowledgedServerSequence = s.client.acknowledgedServerSequence)
    (flagged : pack ∈ late ↔ Late s.client pack)
    (bounded : Bounded s'.client) : Tracked (bad ++ late) s' where
  bounded := bounded
  distinct := by
    obtain ⟨inside, rfl⟩ := List.getElem?_eq_some_iff.mp held
    -- the packet moves from the threads to the buffer
    have same : (s'.client.sequenceBuffer ++ s'.inFlight).Perm
        (s.client.sequenceBuffer ++ s.inFlight) := by
      rw [buffer, inFlight, append_assoc]
      exact (getElem_cons_eraseIdx_perm inside).append_left _
    exact (same.map _).nodup_iff.mpr tracked.distinct
  numbered := by
    intro available other member
    obtain ⟨open_, same⟩ := open_ available
    rw [same]
    apply tracked.less within open_
    rw [buffer, inFlight, mem_append, mem_singleton] at member
    rcases member with (old | rfl) | flying | listed
    · exact Or.inl old
    · exact Or.inr (Or.inl (mem_of_getElem? held))
    · exact Or.inr (Or.inl ((eraseIdx_sublist ..).subset flying))
    · exact Or.inr (Or.inr listed)
  gone := by
    apply tracked.never_held within
    rw [inFlight]
    exact fun _ _ flying => (eraseIdx_sublist ..).subset flying
  place := by
    rw [buffer, counter]
    exact tracked.place_append within (mem_of_getElem? held) flagged

end Within

theorem Steps.bounded (steps : Steps late s s') : Bounded s'.client := by
  intro available
  cases steps with
  | kept fewer buffer counter =>
    obtain ⟨open_, same⟩ := fewer.open_ available
    rw [counter, same]
    exact tracked.bounded open_
  | emptied fewer buffer counter =>
    obtain ⟨open_, same⟩ := fewer.open_ available
    rw [counter available, same]
    exact tracked.bounded open_
  | begun pack inFlight open_ number next room buffer counter =>
    have := tracked.bounded open_
    rw [counter, next]
    omega
  | finished k pack held inFlight open_ buffer counter flagged =>
    obtain ⟨open_, same⟩ := open_ available
    rw [counter, same]
    exact tracked.bounded open_
  | acknowledged fewer number rises sent counter buffer =>
    obtain ⟨open_, same⟩ := fewer.open_ available
    have := tracked.bounded open_
    rw [counter, same]
    omega

theorem Tracked.step (within : ∀ pack ∈ late, pack ∈ s.inFlight ∧ pack ∉ s'.inFlight)
    (steps : Steps late s s') : Tracked (bad ++ late) s' := by
  have bounded := Steps.bounded tracked steps
  cases steps with
  | kept fewer buffer counter =>
    refine tracked.fewer within fewer (by rw [buffer]) bounded ?_
    rw [buffer, counter]
    exact tracked.place
  | emptied fewer buffer counter =>
    refine tracked.fewer within fewer (by rw [buffer]; exact nil_sublist _) bounded ?_
    intro front pack back split
    rw [buffer] at split
    simp at split
  | begun pack inFlight open_ number next room buffer counter =>
    exact tracked.begun within pack inFlight open_ number next buffer counter bounded
  | finished k pack held inFlight open_ buffer counter flagged =>
    exact tracked.finished within k pack held inFlight open_ buffer counter flagged bounded
  | acknowledged fewer number rises sent counter buffer =>
    refine tracked.fewer within fewer (by rw [buffer]; exact dropWhile_sublist _) bounded ?_
    intro front pack back split
    rw [buffer] at split
    obtain ⟨whole, same⟩ := placed_dropWhile BasePacket.getSequence
      (by simp) rises front back pack split
    rw [counter, same]
    exact tracked.place _ pack back whole

theorem Tracked.within (env : Env) (step : ThreadStep) :
    ∀ pack ∈ step.late s, pack ∈ s.inFlight ∧ pack ∉ (step.apply env s).inFlight := by
  intro pack member
  cases step with
  | finishSend k =>
    simp only [ThreadStep.late, mem_filter, Option.mem_toList] at member
    obtain ⟨held, -⟩ := member
    refine ⟨mem_of_getElem? held, ?_⟩
    have rest : ((ThreadStep.finishSend k).apply env s).inFlight = s.inFlight.eraseIdx k := by
      change (SenderStep.apply env (.finishSend k) s).inFlight = _
      simp only [SenderStep.apply, held]
    obtain ⟨inside, rfl⟩ := List.getElem?_eq_some_iff.mp held
    have distinct := tracked.distinct
    rw [map_append, nodup_append] at distinct
    have once := ((getElem_cons_eraseIdx_perm inside).map
      BasePacket.getSequence).nodup_iff.mpr distinct.2.1
    rw [rest]
    exact fun flying => (nodup_cons.mp once).1 (mem_map_of_mem flying)
  | sendPacket other => cases member
  | beginSend => cases member
  | acknowledge seq => cases member

end Track

theorem runThreads_tracked (env : Env) (steps : List ThreadStep) (bad : List BasePacket)
    (s : Sender) (reachable : Reachable s) (tracked : Tracked bad s) :
    Tracked (bad ++ latePackets env steps s) (runThreads env steps s) := by
  induction steps generalizing bad s with
  | nil =>
    rw [latePackets, append_nil]
    exact tracked
  | cons step rest ih =>
    have next := tracked.step (tracked.within env step)
      (step.steps env reachable tracked.bounded)
    rw [latePackets, ← append_assoc]
    exact ih _ _ (reachable.step env step.senderStep) next

theorem tracked_connected (crcSeed : UInt32) (maxOutstandingPackets : Nat) :
    Tracked [] ⟨connected crcSeed maxOutstandingPackets, []⟩ where
  bounded := fun _ => ⟨show (-1 : Int) ≤ 0 by decide, show (0 : Int) ≤ -1 + 51 by decide⟩
  distinct := Pairwise.nil
  numbered := by simp [connected, initialized]
  gone := by simp
  place := by simp [connected, initialized]

/-- Exactly when no packet that came back too late is left in the buffer. -/
theorem overlapping_inOrder_iff (env : Env) (crcSeed : UInt32) (maxOutstandingPackets : Nat)
    (steps : List ThreadStep) :
    let start : Sender := ⟨connected crcSeed maxOutstandingPackets, []⟩
    let final := (runThreads env steps start).client
    InOrder final ↔ ∀ pack ∈ latePackets env steps start, pack ∉ final.sequenceBuffer := by
  intro start final
  have tracked := runThreads_tracked env steps [] start
    (reachable_connected crcSeed maxOutstandingPackets)
    (tracked_connected crcSeed maxOutstandingPackets)
  rw [nil_append] at tracked
  have order := ordered_iff_placed BasePacket.getSequence final.acknowledgedServerSequence
    final.sequenceBuffer
  rw [InOrder, order]
  constructor
  · intro placed pack late buffered
    obtain ⟨front, back, split⟩ := append_of_mem buffered
    exact (tracked.place front pack back split).mp (placed front pack back split) late
  · intro out front pack back split
    refine (tracked.place front pack back split).mpr fun late => out pack late ?_
    rw [split]
    simp

theorem overlapping_overtakes :
    let swapped := runThreads Env.plain (overtaking ++ [.finishSend 0]) ⟨connected 0 5000, []⟩
    let acknowledged := runThreads Env.plain (overtaking ++ [.acknowledge 1, .finishSend 0])
      ⟨connected 0 5000, []⟩
    (swapped.inFlight = [] ∧ swapped.client.sequenceBuffer.map BasePacket.getSequence = [1, 0]) ∧
      acknowledged.inFlight = [] ∧ acknowledged.client.acknowledgedServerSequence = 1 ∧
      acknowledged.client.sequenceBuffer.map BasePacket.getSequence = [0] := by
  decide +kernel

end Engine3.BaseClient
