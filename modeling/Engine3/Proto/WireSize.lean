import Engine3.Proto.Outgoing
import Engine3.Proto.SenderWindow

/-!
# The size of a packet on the wire

`BaseFragmentedPacket` cuts and `BaseMultiPacket` joins packets such that, with the trailer,
they fill the 496 bytes a socket reads. Compression comes after that. It keeps its output when
that is at least four bytes shorter than the packet, but writes up to five bytes around it.
-/
namespace Engine3.BasePacketHandler

open Bytes MachineInt Exec BaseClient BaseProtocol List BaseMultiPacket

/-! ### Packets that wait -/

def Fitting (pack : BasePacket) : Prop :=
  pack.offset ≤ pack.size ∧
    (pack.size ≤ 492 ∨ ∃ payload, payload.length = 489 ∧ pack = fragment payload)

def FittingMulti (multi : BaseMultiPacket) : Prop :=
  match multi.singlePacket with
  | some pack => multi.toStream = Stream.empty ∧ pack.offset ≤ pack.size ∧ pack.size < 259
  | none => multi.offset = multi.size ∧ multi.size ≤ 460

variable {pack pack' : BasePacket} {s : Stream} {multi : BaseMultiPacket} {number : Nat}
  {c : BaseClient}

theorem joinable_size (joins : joinable pack pack.toStream = .ok true s) :
    2 ≤ pack.size ∧ pack.size < 259 := by
  obtain ⟨data, s', channel, snd⟩ := bind_ok_iff.mp joins
  have read : 2 ≤ pack.size := by
    by_contra short
    have fails : Stream.readPrimitiveFrom 2 0 pack.toStream =
        .error (.streamIndexOutOfBounds (0 + 2 : Nat)) pack.toStream := if_pos (by omega)
    change EStateM.map (· == 0x0900) (EStateM.map leNat (Stream.readPrimitiveFrom 2 0)) _ = _
      at channel
    simp only [EStateM.map, fails, reduceCtorEq] at channel
  refine ⟨read, ?_⟩
  cases data with
  | false =>
    obtain ⟨wrong, -⟩ := pure_ok_iff.mp snd
    cases wrong
  | true =>
    obtain ⟨multi, s'', _, last⟩ := bind_ok_iff.mp snd
    cases multi with
    | true =>
      obtain ⟨wrong, -⟩ := pure_ok_iff.mp last
      cases wrong
    | false =>
      obtain ⟨short, -⟩ := pure_ok_iff.mp last
      rw [decide_eq_true_eq] at short
      omega

theorem insertPacket_at_end (pack : BasePacket) (short : pack.size - 4 < 0xFF) (multi : Stream)
    (atEnd : multi.offset = multi.size) :
    (insertPacket pack multi).offset =
        (insertPacket pack multi).size ∧
      (insertPacket pack multi).size ≤ multi.size + (1 + (pack.size - 4)) := by
  have body := length_take_le (pack.size - 4) (pack.elementData.drop 4)
  simp only [insertPacket, if_neg (show ¬ pack.size - 4 ≥ 0xFF by omega)]
  rw [Stream.writeStream_writeStream _ _ atEnd.le, Stream.writeStream_at_end _ _ atEnd]
  simp only [Stream.size, length_append, length_leBytes] at short body ⊢
  exact ⟨trivial, by omega⟩

theorem fittingMulti_openMulti (fitting : FittingMulti multi) :
    FittingMulti multi.openMulti ∧ multi.openMulti.singlePacket = none := by
  rw [openMulti]
  split
  next held => exact ⟨fitting, held⟩
  next single held =>
    simp only [FittingMulti, held] at fitting
    obtain ⟨empty, _, short⟩ := fitting
    refine ⟨?_, rfl⟩
    have header : ((multi.toStream.writeShort 0x0900).writeShort 0).writeShort 0x1900 =
        ⟨leBytes 2 0x0900 ++ leBytes 2 0 ++ leBytes 2 0x1900, 6⟩ := by
      rw [empty]
      rfl
    obtain ⟨atEnd, bound⟩ := insertPacket_at_end single (by omega)
      ⟨leBytes 2 0x0900 ++ leBytes 2 0 ++ leBytes 2 0x1900, 6⟩ rfl
    have six : Stream.size ⟨leBytes 2 0x0900 ++ leBytes 2 0 ++ leBytes 2 0x1900, 6⟩ = 6 := rfl
    simp only [FittingMulti, header]
    exact ⟨atEnd, by omega⟩

theorem fittingMulti_add (pack : BasePacket) (large : 2 ≤ pack.size) (short : pack.size < 259)
    (multi : BaseMultiPacket) (fitting : FittingMulti multi) : FittingMulti (multi.add pack).2 := by
  obtain ⟨opened, several⟩ := fittingMulti_openMulti fitting
  rw [add]
  split
  · exact opened
  next room =>
    simp only [FittingMulti, several] at opened ⊢
    obtain ⟨atEnd, bound⟩ := insertPacket_at_end pack (by omega) multi.openMulti.toStream opened.1
    exact ⟨atEnd, by omega⟩

theorem FittingMulti.getPacket (fitting : FittingMulti multi) :
    Fitting multi.getPacket := by
  rw [BaseMultiPacket.getPacket]
  cases held : multi.singlePacket with
  | none =>
    simp only [FittingMulti, held] at fitting
    exact ⟨fitting.1.le, Or.inl (le_trans fitting.2 (by decide))⟩
  | some pack =>
    simp only [FittingMulti, held] at fitting
    exact ⟨fitting.2.1, Or.inl (le_trans fitting.2.2.le (by decide))⟩

theorem size_fragment (payload : List UInt8) : (fragment payload).size = payload.length + 4 := by
  simp only [fragment, BasePacket.ofBytes, Stream.size, length_append, length_leBytes]
  omega

theorem fitting_fragment {payload : List UInt8} (short : payload.length ≤ 489) :
    Fitting (fragment payload) := by
  refine ⟨le_refl _, ?_⟩
  rcases Nat.lt_or_eq_of_le short with less | full
  · left
    rw [size_fragment]
    omega
  · exact Or.inr ⟨payload, full, rfl⟩

theorem packaged_fitting (cursor : pack.offset ≤ pack.size) :
    Packaged Fitting FittingMulti pack where
  direct small := ⟨cursor, Or.inl (by omega)⟩
  opens s joins := ⟨rfl, cursor, (joinable_size joins).2⟩
  adds s joins := by
    obtain ⟨large, short⟩ := joinable_size joins
    exact fittingMulti_add pack large short
  cuts frag whole := by
    obtain ⟨payload, short, piece⟩ := getFragment_fragment whole
    rw [piece]
    exact fitting_fragment short

/-! ### Packets with their trailer -/

theorem size_writeByte (v : Nat) (hin : s.offset ≤ s.size) :
    (s.writeByte v).offset ≤ (s.writeByte v).size ∧ s.offset + 1 ≤ (s.writeByte v).size ∧
      (s.writeByte v).offset = s.offset + 1 ∧ (s.writeByte v).size ≤ s.size + 1 := by
  simp only [Stream.writeByte, Stream.writeStream, Stream.size, length_append,
    length_take, length_drop, length_leBytes] at hin ⊢
  refine ⟨?_, ?_, trivial, ?_⟩ <;> omega

theorem size_close (hin : pack.offset ≤ pack.size) :
    3 ≤ pack.close.size ∧ pack.close.size ≤ pack.size + 3 := by
  have three : ∀ flag, 3 ≤ (((pack.toStream.writeByte flag).writeByte 0).writeByte 0).size ∧
      (((pack.toStream.writeByte flag).writeByte 0).writeByte 0).size ≤ pack.size + 3 := by
    intro flag
    have fst := size_writeByte flag hin
    have snd := size_writeByte 0 fst.1
    have third := size_writeByte 0 snd.1
    omega
  rw [BasePacket.close]
  split
  · exact three _
  · exact three _

theorem prepareSequence_keeps (ret : prepareSequence number pack = .ok () pack') :
    pack'.size = pack.close.size ∧
      pack'.elementData.take 2 = pack.close.elementData.take 2 ∧
      pack'.doComp = pack.close.doComp := by
  rw [prepareSequence] at ret
  split at ret
  · rw [BasePacket.setSequence, BasePacket.onStream] at ret
    simp only [Stream.writePrimitiveTo, length_beBytes] at ret
    split at ret
    next stream written =>
      split at written
      · cases written
      next hin =>
        simp only [EStateM.Result.ok.injEq, true_and] at written ret
        subst written ret
        simp only [Stream.size, not_lt] at hin ⊢
        refine ⟨?_, ?_, trivial⟩
        · simp only [length_append, length_take, length_beBytes, length_drop]
          omega
        · rw [append_assoc, take_left']
          rw [length_take]
          omega
    · cases ret
  · simp only [EStateM.Result.ok.injEq, true_and] at ret
    subst ret
    exact ⟨rfl, rfl, rfl⟩

/-! ### Packets on the wire -/

theorem size_compress (zlib : Zlib) (trailer : 3 ≤ pack.size) :
    (finalState (compress zlib pack.toStream)).size =
      let output := ((zlib.deflate (zlibInput pack.elementData)).take (pack.size + 20)).length
      if output + 3 ≥ pack.size then pack.size
      else output + clearLength pack.elementData + 3 := by
  have clear_le := clearLength_le pack.elementData
  simp only [compress]
  split
  -- the compressed form is not kept, and only the flag in the trailer changes
  next =>
    cases cleared : Stream.writePrimitiveTo (pack.offset - 3) [0] pack.toStream with
    | error e s =>
      simp only [Stream.writePrimitiveTo] at cleared
      split at cleared
      · cases cleared
        rfl
      · cases cleared
    | ok u s =>
      simp only [Stream.writePrimitiveTo] at cleared
      split at cleared
      · cases cleared
      next inside =>
        cases cleared
        simp only [finalState, Stream.size, length_append, length_take, length_drop,
          length_cons, length_nil] at inside ⊢
        omega
  next =>
    simp only [finalState, Stream.reset, Stream.size]
    rw [rewrite_eq _ _ (by omega) (by omega)]
    simp only [Stream.size] at trailer ⊢
    simp only [length_append, length_take, length_cons, length_drop]
    omega

theorem size_prepareEncryptionAndCompression (zlib : Zlib) (crcSeed : UInt32)
    (trailer : 3 ≤ pack.size) :
    (prepareEncryptionAndCompression zlib crcSeed pack).size =
      if pack.doComp then (finalState (compress zlib pack.toStream)).size else pack.size := by
  -- cipher and checksum work in place
  have keeps : ∀ (doEncr doCRCTest : Bool) (stream : Stream), 2 ≤ stream.size →
      Stream.size (if doCRCTest then
          appendCRC crcSeed 2 (if doEncr then encrypt crcSeed true stream else stream)
        else if doEncr then encrypt crcSeed true stream else stream) = stream.size := by
    intro doEncr doCRCTest stream room
    have ciphered : (if doEncr then encrypt crcSeed true stream else stream).size =
        stream.size := by
      split
      · exact size_encrypt crcSeed room
      · rfl
    split
    · rw [size_appendCRC crcSeed (by omega), ciphered]
    · exact ciphered
  simp only [prepareEncryptionAndCompression, BasePacket.onStream]
  by_cases compresses : pack.doComp = true
  · have compressed := size_compress zlib trailer
    simp only [if_pos compresses]
    cases result : compress zlib pack.toStream with
    | error e stream => rfl
    | ok kept stream =>
      rw [result] at compressed
      refine keeps pack.doEncr pack.doCRCTest stream ?_
      change stream.size = _ at compressed
      dsimp only at compressed
      split at compressed <;> omega
  · simp only [if_neg compresses]
    exact keeps pack.doEncr pack.doCRCTest pack.toStream (by omega)

def rawMaxSize : Nat := 496

/-- A fragment that fills the wire before it is compressed. -/
def FullFragment (pack : BasePacket) : Prop :=
  pack.size = 496 ∧ pack.elementData.take 2 = leBytes 2 0x0D00

instance (pack : BasePacket) : Decidable (FullFragment pack) :=
  inferInstanceAs (Decidable (_ ∧ _))

def Prepared (pack : BasePacket) : Prop :=
  3 ≤ pack.size ∧ (pack.size ≤ 495 ∨ FullFragment pack ∧ pack.doComp = true)

theorem prepareSequence_prepared (fitting : Fitting pack)
    (ret : prepareSequence number pack = .ok () pack') : Prepared pack' := by
  obtain ⟨size, opcode, flag⟩ := prepareSequence_keeps ret
  obtain ⟨cursor, short | ⟨payload, full, rfl⟩⟩ := fitting
  · obtain ⟨low, high⟩ := size_close cursor
    exact ⟨by omega, Or.inl (by omega)⟩
  · have total : (fragment payload).size = 493 := by
      rw [size_fragment, full]
    have compresses : (fragment payload).compresses = true := by
      rw [BasePacket.compresses, total]
      rfl
    rw [BasePacket.close_at_end _ rfl] at size opcode flag
    have whole : pack'.size = 496 := by
      rw [size]
      change ((fragment payload).elementData ++ _).length = 496
      rw [length_append]
      change (fragment payload).size + 3 = 496
      rw [total]
    refine ⟨by omega, Or.inr ⟨⟨whole, ?_⟩, ?_⟩⟩
    · rw [opcode]
      rfl
    · rw [flag]
      exact compresses

theorem Prepared.fits_iff (prepared : Prepared pack) (zlib : Zlib) (crcSeed : UInt32) :
    (prepareEncryptionAndCompression zlib crcSeed pack).size ≤ rawMaxSize ↔
      (FullFragment pack → (zlib.deflate (zlibInput pack.elementData)).length ≠ 492) := by
  obtain ⟨trailer, sizes⟩ := prepared
  have clear_le := clearLength_le pack.elementData
  rw [size_prepareEncryptionAndCompression zlib crcSeed trailer,
    size_compress zlib trailer, length_take, rawMaxSize]
  dsimp only
  -- below 496 bytes the two bytes not counted do no harm yet
  rcases sizes with short | ⟨full, compresses⟩
  · have notFull : ¬ FullFragment pack := fun full => by
      have := full.1
      omega
    simp only [notFull, false_implies, iff_true]
    split
    · split <;> omega
    · omega
  · have clear : clearLength pack.elementData = 2 := by
      have first : pack.elementData.head? = some 0 := by
        have kept : (pack.elementData.take 2).head? = pack.elementData.head? := by
          rw [List.head?_take]
          rfl
        rw [← kept, full.2]
        rfl
      rw [clearLength, if_pos first]
    have size := full.1
    simp only [full, compresses, if_true, true_implies, clear, size]
    split <;> omega

/-! ### Runs -/

inductive WireStep
  | give (pack : BasePacket) (cursor : pack.offset ≤ pack.size)
  | draw
  | acknowledge (seq : UInt16)

def WireStep.apply (env : Env) (c : BaseClient) : WireStep → Option BasePacket × BaseClient
  | .give pack _ => (none, c.sendPacket env pack)
  | .draw => c.beginSend env
  | .acknowledge seq => (none, c.acknowledgeServerPackets seq.toNat)

def FittingClient (c : BaseClient) : Prop :=
  c.isAvailable = true → Waiting Fitting FittingMulti c

theorem fittingClient_of_shut (shut : Shut c) : FittingClient c := by
  intro available
  rw [shut.unavailable] at available
  cases available

theorem acknowledgeServerPackets_waiting (seq : Nat) (waiting : Waiting Fitting FittingMulti c) :
    Waiting Fitting FittingMulti (c.acknowledgeServerPackets seq) := by
  rw [acknowledgeServerPackets]
  split
  · dsimp only
    split
    · exact waiting
    · split <;> exact ⟨waiting.queued, waiting.multi⟩
  · exact waiting

theorem beginSend_fitting (env : Env) (available : c.isAvailable = true)
    (waiting : Waiting Fitting FittingMulti c) :
    (∀ pack, (c.beginSend env).1 = some pack → Prepared pack) ∧
      FittingClient (c.beginSend env).2 := by
  cases sent : c.beginSend env with
  | mk taken c' =>
    cases taken with
    | none =>
      refine ⟨(fun _ none => nomatch none), ?_⟩
      rcases beginSend_none available sent with rfl | ⟨rfl, -⟩ | shut
      · exact fun _ => waiting
      · exact fun _ => ⟨waiting.queued, waiting.multi⟩
      · exact fittingClient_of_shut shut
    | some pack =>
      obtain ⟨rest, raw, fitting, ret⟩ :=
        waiting.beginSend (fun _ fitting => fitting.getPacket) sent
      refine ⟨?_, fun _ => rest⟩
      rintro _ ⟨⟩
      exact prepareSequence_prepared fitting ret

theorem WireStep.apply_fitting (env : Env) (c : BaseClient) (step : WireStep)
    (fitting : FittingClient c) :
    (∀ pack, (step.apply env c).1 = some pack → Prepared pack) ∧
      FittingClient (step.apply env c).2 := by
  cases open_ : c.isAvailable with
  | false =>
    -- a closed connection takes and sends nothing
    cases step with
    | give pack cursor =>
      rw [apply, sendPacket_unavailable env c open_]
      exact ⟨(fun _ none => nomatch none), fitting⟩
    | draw =>
      rw [apply, beginSend_unavailable env c open_]
      exact ⟨(fun _ none => nomatch none), fitting⟩
    | acknowledge seq =>
      rw [apply, acknowledgeServerPackets_unavailable c open_]
      exact ⟨(fun _ none => nomatch none), fitting⟩
  | true =>
    have waiting := fitting open_
    cases step with
    | give pack cursor =>
      refine ⟨(fun _ none => nomatch none), ?_⟩
      rcases waiting.sendPacket (fun _ fitting => fitting.getPacket) env pack
        (fun _ => packaged_fitting cursor) with next | shut
      · exact fun _ => next
      · exact fittingClient_of_shut shut
    | draw => exact beginSend_fitting env open_ waiting
    | acknowledge seq =>
      exact ⟨(fun _ none => nomatch none),
        fun _ => acknowledgeServerPackets_waiting seq.toNat waiting⟩

theorem fittingClient_connected (crcSeed : UInt32) (maxOutstandingPackets : Nat) :
    FittingClient (connected crcSeed maxOutstandingPackets) :=
  fun _ => ⟨fun _ mem => absurd mem not_mem_nil, fun _ held => nomatch held⟩

/-- Exactly when no full fragment is deflated from its 491 bytes to 492. -/
theorem wire_fits_iff (env : Env) (crcSeed : UInt32) (maxOutstandingPackets : Nat)
    (steps : List WireStep) :
    let taken := (Machine.run (WireStep.apply env)
      (connected crcSeed maxOutstandingPackets) steps).1
    (∀ pack, some pack ∈ taken →
      (prepareEncryptionAndCompression env.zlib crcSeed pack).size ≤ rawMaxSize) ↔
    ∀ pack, some pack ∈ taken → FullFragment pack →
      (env.zlib.deflate (zlibInput pack.elementData)).length ≠ 492 := by
  intro taken
  have prepared : ∀ answer ∈ taken, ∀ pack, answer = some pack → Prepared pack :=
    Machine.run_answers (WireStep.apply_fitting env) _
      (fittingClient_connected crcSeed maxOutstandingPackets) steps
  constructor
  · intro fits pack mem
    exact ((prepared _ mem pack rfl).fits_iff env.zlib crcSeed).mp (fits pack mem)
  · intro sizes pack mem
    exact ((prepared _ mem pack rfl).fits_iff env.zlib crcSeed).mpr (sizes pack mem)

def growing : Env :=
  { Env.plain with zlib := ⟨fun input => if input.length = 491 then replicate 492 7 else input,
      id⟩ }

def longMessage : List WireStep := [.give (filled 486 1).packet (le_refl _), .draw]

theorem wire_overflows :
    ∃ pack, some pack ∈ (Machine.run (WireStep.apply growing) (connected 0 5000) longMessage).1 ∧
      (prepareEncryptionAndCompression growing.zlib 0 pack).size = 497 := by
  refine ⟨((Machine.run (WireStep.apply growing) (connected 0 5000) longMessage).1[1]?.join).getD
    BasePacket.new, ?_, ?_⟩
  · decide +kernel
  · decide +kernel

end Engine3.BasePacketHandler
