import Engine3.Proto.ReliableReceive
import Engine3.Proto.Segmentation
import Engine3.Proto.SenderFrame

/-!
# Packets on their way out

Whatever a service gives to `sendPacket`, the packets in front of the window are of the
size and layout that the codec takes, and a number makes each of them a packet of the
stream that the receiver knows.
-/
namespace Engine3.BasePacketHandler

open Bytes MachineInt Exec BaseClient List

structure Outgoing (pack : BasePacket) : Prop where
  layout : ∃ (channel : Channel) (room payload : List UInt8), room.length = 2 ∧
    pack.elementData = leBytes 2 channel.opcode ++ (room ++ payload)
  cursor : pack.offset = pack.size
  small : pack.size ≤ 493
  doSeq : pack.doSeq = true
  doEncr : pack.doEncr = true
  doCRCTest : pack.doCRCTest = true

structure Outbound (c : BaseClient) : Prop where
  queued : ∀ pack ∈ c.sendBuffer, Outgoing pack
  pending : ∃ bodies, Pending c.bufferedPacket bodies

theorem outgoing_packet (m : Message) (lt : m.packet.size ≤ 493) : Outgoing m.packet :=
  ⟨⟨.data, leBytes 2 m.room, m.body, length_leBytes 2 _, rfl⟩, rfl, lt, rfl, rfl, rfl⟩

theorem outgoing_fragment {payload : List UInt8} (lt : payload.length ≤ 489) :
    Outgoing (fragment payload) := by
  refine ⟨⟨.fragment, leBytes 2 0, payload, length_leBytes 2 _, rfl⟩, rfl, ?_, rfl, rfl, rfl⟩
  simp only [fragment, BasePacket.ofBytes, Stream.size, length_append, length_leBytes]
  omega

theorem outgoing_bundle {multi : BaseMultiPacket} {bodies : List (List UInt8)}
    (bundle : Bundle multi bodies) : Outgoing multi.getPacket := by
  cases bundle with
  | single m plain short =>
    refine outgoing_packet m ?_
    rw [size_packet]
    omega
  | many bodies short lt doComp =>
    exact ⟨⟨.data, leBytes 2 0, leBytes 2 0x1900 ++ blocks bodies, length_leBytes 2 _, rfl⟩, rfl,
      le_trans lt (by decide), rfl, rfl, rfl⟩

theorem getFragment_fragment {frag : BaseFragmentedPacket} {pack : BasePacket}
    (whole : frag.singlePacket = some pack) :
    ∃ payload, payload.length ≤ 489 ∧ frag.getFragment.1 = fragment payload := by
  cases fst : frag.totalSize == 0 with
  | true =>
    refine ⟨beBytes 4 (pack.size - 4) ++ (pack.elementData.drop 4).take 485, ?_, ?_⟩
    · rw [length_append, length_beBytes]
      have short := length_take_le 485 (pack.elementData.drop 4)
      omega
    · simp only [BaseFragmentedPacket.getFragment, whole, fst, if_true, fragment,
        append_assoc]
      rfl
  | false =>
    refine ⟨(pack.elementData.drop frag.totalSize.toNat).take
      (min (496 - 4 - 3) ((pack.size : Int) - frag.totalSize)).toNat, ?_, ?_⟩
    · have short := length_take_le (min (496 - 4 - 3) ((pack.size : Int) - frag.totalSize)).toNat
        (pack.elementData.drop frag.totalSize.toNat)
      omega
    · simp only [BaseFragmentedPacket.getFragment, whole, fst, Bool.false_eq_true, if_false,
        fragment, append_assoc]

variable {m : Message} {s : Stream}

theorem isMultiPacket_false (single : BasePacket.isMultiPacket m.packet.toStream = .ok false s) :
    2 ≤ m.body.length ∧ m.body.take 2 ≠ leBytes 2 0x1900 := by
  have start := Stream.readShortFrom_start m.packet.toStream 0x0900 rfl
  have snd := (bind_of_ok start).symm.trans single
  change EStateM.map (· == 0x1900) (Stream.readShortFrom 4) m.packet.toStream = _ at snd
  by_cases large : 2 ≤ m.body.length
  · refine ⟨large, fun marked => ?_⟩
    have read := Stream.readShortFrom_at 4 m.packet.toStream 0x1900 (m.body.drop 2)
      (by rw [← marked, take_append_drop]; exact m.drop_bytes)
    simp [EStateM.map, read] at snd
  · have out : 4 + 2 > m.packet.size := by
      rw [size_packet]
      omega
    have fails : Stream.readPrimitiveFrom 2 4 m.packet.toStream =
        .error (.streamIndexOutOfBounds (4 + 2 : Nat)) m.packet.toStream := if_pos out
    change EStateM.map (· == 0x1900) (EStateM.map leNat (Stream.readPrimitiveFrom 2 4)) _ = _
      at snd
    simp [EStateM.map, fails] at snd

theorem joinable_true (joins : joinable m.packet m.packet.toStream = .ok true s) :
    m.Plain ∧ m.body.length < 0xFF := by
  have size : m.packet.size - 4 = m.body.length := by
    rfl
  have snd := (bind_of_ok (isDataChannelPacket_packet m)).symm.trans joins
  obtain ⟨multi, s', single, last⟩ := bind_ok_iff.mp snd
  cases multi with
  | true => cases last
  | false =>
    obtain ⟨large, unmarked⟩ := isMultiPacket_false single
    obtain ⟨short, -⟩ := pure_ok_iff.mp last
    rw [size, decide_eq_true_eq] at short
    exact ⟨⟨large, by omega, unmarked⟩, short⟩

/-! ### What the sending calls keep -/

theorem packaged_message (m : Message) :
    Packaged Outgoing (fun multi => ∃ bodies, Bundle multi bodies) m.packet where
  direct small := outgoing_packet m (by omega)
  opens s joins := by
    obtain ⟨plain, short⟩ := joinable_true joins
    exact ⟨_, .single m plain short⟩
  adds s joins multi := by
    rintro ⟨bodies, bundle⟩
    exact ⟨_, bundle.add m (joinable_true joins).2⟩
  cuts frag whole := by
    obtain ⟨payload, short, piece⟩ := getFragment_fragment whole
    rw [piece]
    exact outgoing_fragment short

theorem outbound_iff (c : BaseClient) :
    Outbound c ↔ Waiting Outgoing (fun multi => ∃ bodies, Bundle multi bodies) c := by
  constructor
  · intro outbound
    refine ⟨outbound.queued, fun multi held => ?_⟩
    obtain ⟨bodies, ⟨none, -⟩ | ⟨m, some, bundle⟩⟩ := outbound.pending
    · rw [none] at held
      cases held
    · rw [some] at held
      cases held
      exact ⟨bodies, bundle⟩
  · intro waiting
    refine ⟨waiting.queued, ?_⟩
    cases held : c.bufferedPacket with
    | none => exact ⟨[], Or.inl ⟨rfl, rfl⟩⟩
    | some multi =>
      obtain ⟨bodies, bundle⟩ := waiting.multi multi held
      exact ⟨bodies, Or.inr ⟨multi, rfl, bundle⟩⟩

section Outbound

variable {c : BaseClient} (outbound : Outbound c)

include outbound

theorem Outbound.sequenced : Sequenced c := by
  have waiting := (outbound_iff c).mp outbound
  refine ⟨fun pack mem => (waiting.queued pack mem).doSeq, fun multi held => ?_⟩
  obtain ⟨bodies, bundle⟩ := waiting.multi multi held
  cases bundle with
  | single m plain short => exact multiSequenced_new m.packet rfl
  | many bodies short lt doComp => exact ⟨rfl, fun pack none => nomatch none⟩

theorem Outbound.sendPacket (env : Env) (m : Message) :
    Outbound (sendPacket env m.packet c) ∨
      Shut (sendPacket env m.packet c) := by
  rw [outbound_iff]
  exact ((outbound_iff c).mp outbound).sendPacket (fun _ ⟨_, bundle⟩ => outgoing_bundle bundle) env
    m.packet (fun _ => packaged_message m)

end Outbound

/-! ### Numbered packets -/

structure Sealed (number : Nat) (p : ReliablePacket) (pack : BasePacket) : Prop where
  closed : BaseProtocol.IsClosed pack (p.bytes number)
  small : (p.bytes number).length ≤ 493
  doEncr : pack.doEncr = true
  doCRCTest : pack.doCRCTest = true

theorem prepareSequence_sealed {number : Nat} {pack pack' : BasePacket} (outgoing : Outgoing pack)
    (ret : BaseProtocol.prepareSequence number pack = .ok () pack') :
    ∃ p, Sealed number p pack' := by
  obtain ⟨channel, room, payload, two, layout⟩ := outgoing.layout
  have closed := BaseProtocol.isClosed_close pack outgoing.cursor
  have shape := BasePacket.close_at_end pack outgoing.cursor
  have lt : (leBytes 2 channel.opcode ++ (room ++ payload)).length ≤ 493 := by
    rw [← layout]
    exact outgoing.small
  have bytes : pack.close.elementData = leBytes 2 channel.opcode ++
      (room ++ (payload ++ [UInt8.ofNat pack.close.doComp.toNat, 0, 0])) := by
    rw [closed.bytes, layout, append_assoc, append_assoc]
  refine ⟨⟨channel, payload⟩, ?_⟩
  -- the number goes to the two bytes behind the opcode
  have patched : pack.close.elementData.take 2 ++ beBytes 2 number ++
      pack.close.elementData.drop 4 = ReliablePacket.bytes number ⟨channel, payload⟩ ++
        [UInt8.ofNat pack.close.doComp.toNat, 0, 0] := by
    rw [bytes, take_left' (length_leBytes 2 _), show 4 = 2 + 2 from rfl, ← drop_drop,
      drop_left' (length_leBytes 2 _), drop_left' two]
    simp only [ReliablePacket.bytes, append_assoc]
  have len : (ReliablePacket.bytes number ⟨channel, payload⟩).length =
      pack.elementData.length := by
    rw [layout]
    simp only [ReliablePacket.bytes, length_append, length_leBytes, length_beBytes, two]
  have hin : ¬ 2 + (beBytes 2 number).length > pack.close.toStream.size := by
    simp only [Stream.size, bytes, length_beBytes, length_append, length_leBytes, two]
    omega
  have written : Stream.writePrimitiveTo 2 (beBytes 2 number) pack.close.toStream =
      .ok () ⟨ReliablePacket.bytes number ⟨channel, payload⟩ ++
        [UInt8.ofNat pack.close.doComp.toNat, 0, 0], pack.close.offset⟩ := by
    rw [Stream.writePrimitiveTo, if_neg hin, length_beBytes, ← patched]
  rw [BaseProtocol.prepareSequence, if_pos outgoing.doSeq, BasePacket.setSequence,
    BasePacket.onStream] at ret
  simp only [written, EStateM.Result.ok.injEq, true_and] at ret
  subst ret
  have flags : pack.close.doEncr = true ∧ pack.close.doCRCTest = true := by
    rw [shape]
    exact ⟨outgoing.doEncr, outgoing.doCRCTest⟩
  refine ⟨⟨rfl, ?_, ?_⟩, ?_, flags.1, flags.2⟩
  · rw [len]
    exact closed.cursor
  · rw [len]
    exact closed.large
  · rw [len, layout]
    exact lt

theorem Outbound.beginSend {env : Env} {c c' : BaseClient} {pack : BasePacket}
    (outbound : Outbound c) (sent : beginSend env c = (some pack, c')) :
    Outbound c' ∧ ∃ p, Sealed c.serverSequence p pack := by
  obtain ⟨waiting, raw, outgoing, ret⟩ := ((outbound_iff c).mp outbound).beginSend
    (fun _ ⟨_, bundle⟩ => outgoing_bundle bundle) sent
  exact ⟨(outbound_iff c').mpr waiting, prepareSequence_sealed outgoing ret⟩

end Engine3.BasePacketHandler
