import Engine3.Proto.HandlerFrame
import Engine3.Proto.Reassembly

/-!
# Cutting and joining messages

`sendPacket` joins short messages into multi packets, passes middle ones on as they are
and cuts long ones into fragments. Handling the packets in the order in which they are
drawn gives the messages back.
-/
namespace Engine3

open Bytes MachineInt List BaseClient BaseFragmentedPacket BasePacket BaseMultiPacket

structure Message where
  room : Nat
  body : List UInt8
  doComp : Bool
  deriving DecidableEq, Repr

def Message.bytes (m : Message) : List UInt8 :=
  leBytes 2 0x0900 ++ (leBytes 2 m.room ++ m.body)

def Message.packet (m : Message) : BasePacket :=
  { ofBytes m.bytes with doComp := m.doComp }

/-- What a body must be like to arrive as one message. -/
structure Message.Plain (m : Message) : Prop where
  large : 2 ≤ m.body.length
  small : m.body.length ≤ 1500000
  unmarked : m.body.take 2 ≠ leBytes 2 0x1900

theorem Message.length_bytes (m : Message) : m.bytes.length = m.body.length + 4 := by
  simp only [bytes, length_append, length_leBytes]
  omega

theorem Message.drop_bytes (m : Message) : m.bytes.drop 4 = m.body := by
  rw [bytes, show 4 = 2 + 2 from rfl, ← drop_drop, drop_left' (length_leBytes 2 _),
    drop_left' (length_leBytes 2 _)]

theorem Message.Plain.opens {m : Message} (plain : m.Plain) :
    ∃ first rest, m.body = leBytes 2 first ++ rest ∧ first % 65536 ≠ 0x1900 := by
  have len : (m.body.take 2).length = 2 := by
    have := plain.large
    rw [length_take]
    omega
  have back := leBytes_leNat (m.body.take 2)
  have lt := leNat_lt (m.body.take 2)
  rw [len] at back lt
  refine ⟨leNat (m.body.take 2), m.body.drop 2, ?_, fun marked => plain.unmarked ?_⟩
  · rw [back, take_append_drop]
  · rw [← back, ← marked, Nat.mod_eq_of_lt (show _ < 65536 from lt)]

namespace BasePacketHandler

open Exec

/-! ### Decoding drawn packets -/

def decode (env : Env) (pack : BasePacket) : HandlerM Unit := do
  let (opcode, stream) ← parse (Stream.readShortFrom 0) pack.toStream
  let ((), stream) ← parse (Stream.setOffset 4) stream
  handOver env (if opcode = 0x0D00 then .fragment else .data) stream

def decodeAll (env : Env) : List BasePacket → HandlerM Unit
  | [] => pure ()
  | pack :: rest => do
    decode env pack
    decodeAll env rest

def Delivers (env : Env) (packs : List BasePacket) (bodies : List (List UInt8)) : Prop :=
  ∀ s : Session, s.client.fragmentedPacket = none → ∃ handed,
    decodeAll env packs s = .ok () { s with messages := s.messages ++ bodies, handed := handed }

theorem delivers_nil (env : Env) : Delivers env [] [] := by
  intro s _
  refine ⟨s.handed, ?_⟩
  rw [append_nil]
  rfl

theorem decodeAll_append (env : Env) (front back : List BasePacket) (s s' : Session)
    (fst : decodeAll env front s = .ok () s') :
    decodeAll env (front ++ back) s = decodeAll env back s' := by
  induction front generalizing s with
  | nil =>
    cases fst
    rfl
  | cons pack rest ih =>
    obtain ⟨_, middle, decoded, others⟩ := bind_ok_iff.mp fst
    exact (bind_of_ok decoded).trans (ih middle others)

theorem Delivers.append {env : Env} {front back : List BasePacket}
    {bodies bodies' : List (List UInt8)} (fst : Delivers env front bodies)
    (snd : Delivers env back bodies') : Delivers env (front ++ back) (bodies ++ bodies') := by
  intro s clean
  obtain ⟨handed, decoded⟩ := fst s clean
  obtain ⟨handed', decoded'⟩ := snd
    { s with messages := s.messages ++ bodies, handed := handed } clean
  refine ⟨handed', ?_⟩
  rw [decodeAll_append env front back s _ decoded, decoded', append_assoc]

theorem decode_layout (env : Env) (pack : BasePacket) (channel : Channel)
    {room : List UInt8} (payload : List UInt8) (two : room.length = 2)
    (layout : pack.elementData = leBytes 2 channel.opcode ++ (room ++ payload)) (s : Session) :
    decode env pack s = handleChannel env channel ⟨pack.elementData, 4⟩
      { s with handed := s.handed ++ [(channel, payload)] } := by
  have read := Stream.readShortFrom_start pack.toStream channel.opcode layout
  have hin : 4 ≤ pack.toStream.size := by
    simp only [Stream.size, layout, length_append, length_leBytes, two]
    omega
  have moved := Stream.setOffset_inside 4 pack.toStream hin
  have after : (Stream.mk pack.elementData 4).unread = payload := by
    rw [Stream.unread]
    simp only [layout]
    rw [show 4 = 2 + 2 from rfl, ← drop_drop, drop_left' (length_leBytes 2 _),
      drop_left' two]
  refine (bind_of_ok (parse_of_ok read)).trans ?_
  refine (bind_of_ok (parse_of_ok moved)).trans ?_
  rw [← after]
  cases channel <;> rfl

theorem decodeAll_singleton (env : Env) (pack : BasePacket) (s : Session) :
    decodeAll env [pack] s = decode env pack s := by
  simp only [decodeAll, bind, EStateM.bind]
  cases decode env pack s <;> rfl

/-! ### Messages that are sent as they are or joined -/

section Accepting

variable {env : Env} (accepts : ∀ seen message, env.processMessage seen message = none)

include accepts

theorem processMessage_accepts (message : List UInt8) (s : Session) :
    processMessage env message s = .ok () { s with messages := s.messages ++ [message] } := by
  simp only [processMessage, accepts]

theorem handleDataChannelPacket_plain {m : Message} (plain : m.Plain) (pack : Stream)
    (body : pack.unread = m.body) (s : Session) :
    handleDataChannelPacket env pack s = .ok () { s with messages := s.messages ++ [m.body] } := by
  obtain ⟨first, rest, opens, single⟩ := plain.opens
  rw [handleDataChannelPacket_single env pack first rest (body.trans opens) single, body]
  exact processMessage_accepts accepts m.body s

theorem delivers_message {m : Message} (plain : m.Plain) : Delivers env [m.packet] [m.body] := by
  intro s _
  refine ⟨s.handed ++ [(.data, m.body)], ?_⟩
  rw [decodeAll_singleton, decode_layout env m.packet .data m.body
    (length_leBytes 2 _) rfl]
  exact handleDataChannelPacket_plain accepts plain ⟨m.bytes, 4⟩ m.drop_bytes _

end Accepting

def blocks (bodies : List (List UInt8)) : List UInt8 :=
  bodies.flatMap fun body => leBytes 1 body.length ++ body

theorem baseMessage_unread (pack : Stream) (message back : List UInt8)
    (next : pack.unread = message ++ back) (hin : pack.offset ≤ pack.size) (s : Session) :
    baseMessage pack pack.offset (pack.offset + message.length) s = .ok message s := by
  have total : pack.size - pack.offset = message.length + back.length := by
    simpa [Stream.unread, Stream.size] using congrArg length next
  rw [baseMessage, if_neg (by omega), if_neg (by omega), if_neg (by omega)]
  have counted : ((pack.offset : Int) + message.length - pack.offset).toNat = message.length := by
    omega
  have front : pack.elementData.drop pack.offset = message ++ back := next
  rw [counted, Int.toNat_natCast, front, take_left]

theorem parseBlockSize_short {pack : Stream} {size : Nat} (short : size < 0xFF)
    {back : List UInt8} (next : pack.unread = leBytes 1 size ++ back) (s : Session) :
    parseBlockSize pack s = .ok (size, pack.advance 1) s := by
  have read := Stream.readByte_unread pack size back next
  rw [Nat.mod_eq_of_lt (by omega)] at read
  refine (bind_of_ok (parse_of_ok read)).trans ?_
  exact (ite_run_neg (by omega)).trans rfl

theorem block_within {pack : Stream} {body back : List UInt8}
    (parts : pack.unread = leBytes 1 body.length ++ (body ++ back)) :
    (pack.advance 1).offset + body.length ≤ (pack.advance 1).size := by
  have total := congrArg length parts
  simp only [Stream.unread, length_drop, length_append, length_leBytes] at total
  simp only [Stream.advance, Stream.size]
  omega

section Accepting

variable {env : Env} (accepts : ∀ seen message, env.processMessage seen message = none)

include accepts

theorem block_round (body back : List UInt8) (short : body.length < 0xFF) (pack : Stream)
    (parts : pack.unread = leBytes 1 body.length ++ (body ++ back))
    (goOn : Nat → Stream → Stream → HandlerM Unit) (s : Session) :
    (do
      let (blockSize, block) ← parseBlockSize pack
      let message ← baseMessage block block.offset (block.offset + blockSize)
      processMessage env message
      let ((), rest) ← parse (Stream.shiftOffset blockSize) block
      goOn blockSize block rest) s =
      goOn body.length (pack.advance 1) ((pack.advance 1).advance body.length)
        { s with messages := s.messages ++ [body] } := by
  have size := parseBlockSize_short short parts s
  have content := Stream.unread_advance pack _ _ parts 1 (length_leBytes 1 _)
  have within := block_within parts
  have message := baseMessage_unread (pack.advance 1) body _ content (by omega) s
  have given := processMessage_accepts accepts body s
  have moved := Stream.shiftOffset_inside body.length (pack.advance 1) within
  refine (bind_of_ok size).trans ?_
  refine (bind_of_ok message).trans ?_
  refine (bind_of_ok given).trans ?_
  exact bind_of_ok (parse_of_ok moved)

theorem dataChannelBlocks_blocks (bodies : List (List UInt8))
    (short : ∀ body ∈ bodies, body.length < 0xFF) (fuel : Nat) (le : bodies.length ≤ fuel)
    (pack : Stream) (next : pack.unread = blocks bodies) (hin : pack.offset ≤ pack.size)
    (s : Session) : dataChannelBlocks env fuel pack s =
      .ok () { s with messages := s.messages ++ bodies } := by
  induction bodies generalizing fuel pack s with
  | nil =>
    have ended : pack.hasData = false := by
      have all : pack.elementData.length ≤ pack.offset := drop_eq_nil_iff.mp next
      exact decide_eq_false (Nat.not_lt.mpr all)
    rw [append_nil]
    cases fuel with
    | zero => rfl
    | succ fuel =>
      rw [dataChannelBlocks, ended]
      rfl
  | cons body rest ih =>
    cases fuel with
    | zero => exact absurd le (by simp)
    | succ fuel =>
      have parts : pack.unread = leBytes 1 body.length ++ (body ++ blocks rest) := by
        rw [next, blocks, flatMap_cons, append_assoc]
        rfl
      have within := block_within parts
      have some : pack.hasData = true := by
        simp only [Stream.hasData, decide_eq_true_eq]
        simp only [Stream.advance, Stream.size] at within ⊢
        omega
      have remaining := Stream.unread_advance _ _ _
        (Stream.unread_advance pack _ _ parts 1 (length_leBytes 1 _)) body.length rfl
      rw [dataChannelBlocks, some]
      refine (block_round accepts body _ (short body mem_cons_self) pack parts
        (fun _ _ pack => dataChannelBlocks env fuel pack) s).trans ?_
      refine (ih (fun b mem => short b (mem_cons_of_mem _ mem)) fuel
        (by simpa using le) _ remaining within _).trans ?_
      simp only [append_assoc, singleton_append]

end Accepting

/-! ### Multi packets -/

def joined (bodies : List (List UInt8)) : Stream :=
  let bytes := leBytes 2 0x0900 ++ (leBytes 2 0 ++ (leBytes 2 0x1900 ++ blocks bodies))
  ⟨bytes, bytes.length⟩

theorem size_joined (bodies : List (List UInt8)) :
    (joined bodies).size = 6 + (blocks bodies).length := by
  simp only [joined, Stream.size, length_append, length_leBytes]
  omega

theorem blocks_append (bodies : List (List UInt8)) (body : List UInt8) :
    blocks (bodies ++ [body]) = blocks bodies ++ (leBytes 1 body.length ++ body) := by
  simp [blocks]

inductive Bundle : BaseMultiPacket → List (List UInt8) → Prop
  | single (m : Message) (plain : m.Plain) (short : m.body.length < 0xFF) :
    Bundle (new m.packet) [m.body]
  | many (bodies : List (List UInt8)) (short : ∀ body ∈ bodies, body.length < 0xFF)
    (small : (joined bodies).size ≤ 460) (doComp : Bool) :
    Bundle ⟨{ BasePacket.new with toStream := joined bodies, doComp := doComp }, none⟩ bodies

variable {m : Message} {multi : BaseMultiPacket} {bodies : List (List UInt8)} {env : Env} {k : Nat}
  {pack : Stream} {c : BaseClient} {s : Session}

theorem insertPacket_joined (short : m.body.length < 0xFF) (bodies : List (List UInt8)) :
    insertPacket m.packet (joined bodies) = joined (bodies ++ [m.body]) := by
  have size : m.packet.size - 4 = m.body.length := by
    have : m.packet.size = m.body.length + 4 := m.length_bytes
    omega
  have content : (m.packet.elementData.drop 4).take m.body.length = m.body := by
    have : m.packet.elementData.drop 4 = m.body := m.drop_bytes
    rw [this, take_length]
  simp only [insertPacket, size, content]
  rw [if_neg (by omega), Stream.writeStream_writeStream _ _ (Nat.le_refl _),
    Stream.writeStream_at_end _ _ rfl]
  simp only [joined, blocks_append, Stream.size, append_assoc, length_append]
  simp only [Stream.mk.injEq, true_and]
  omega

theorem openMulti_single (short : m.body.length < 0xFF) :
    (BaseMultiPacket.new m.packet).openMulti =
      ⟨{ BasePacket.new with toStream := joined [m.body], doComp := m.doComp }, none⟩ := by
  have header : ((Stream.empty.writeShort 0x0900).writeShort 0).writeShort 0x1900 = joined [] := rfl
  have fst := insertPacket_joined short []
  change BaseMultiPacket.mk { BasePacket.new with
    toStream := insertPacket m.packet
      (((Stream.empty.writeShort 0x0900).writeShort 0).writeShort 0x1900)
    doComp := m.doComp } none = _
  rw [header, fst]
  rfl

theorem Bundle.openMulti (bundle : Bundle multi bodies) : ∃ doComp, multi.openMulti =
      ⟨{ BasePacket.new with toStream := joined bodies, doComp := doComp }, none⟩ ∧
      (∀ body ∈ bodies, body.length < 0xFF) ∧ (joined bodies).size ≤ 460 := by
  cases bundle with
  | single m plain short =>
    refine ⟨m.doComp, openMulti_single short, ?_, ?_⟩
    · intro body mem
      rw [mem_singleton.mp mem]
      exact short
    · simp only [size_joined, blocks, flatMap_cons, flatMap_nil, length_append,
        length_leBytes, length_nil]
      omega
  | many bodies short lt doComp => exact ⟨doComp, rfl, short, lt⟩

theorem Bundle.add (bundle : Bundle multi bodies) (m : Message) (short : m.body.length < 0xFF) :
    Bundle (multi.add m.packet).2
      (if (multi.add m.packet).1 then bodies ++ [m.body] else bodies) := by
  obtain ⟨doComp, opened, shorts, lt⟩ := bundle.openMulti
  have size : m.packet.size = m.body.length + 4 := m.length_bytes
  simp only [BaseMultiPacket.add, opened]
  by_cases full : (joined bodies).size + m.packet.size > 460
  · simp only [if_pos full]
    exact .many bodies shorts lt doComp
  · have room : (joined bodies).size + m.packet.size ≤ 460 := Nat.not_lt.mp full
    simp only [if_neg full, insertPacket_joined short, if_true]
    refine .many (bodies ++ [m.body]) ?_ ?_ _
    · intro body mem
      rcases mem_append.mp mem with old | new
      · exact shorts body old
      · rw [mem_singleton.mp new]
        exact short
    · rw [size_joined] at room ⊢
      rw [blocks_append, length_append, length_append, length_leBytes]
      omega

theorem length_le_blocks (bodies : List (List UInt8)) : bodies.length ≤ (blocks bodies).length := by
  induction bodies with
  | nil => exact Nat.le_refl _
  | cons body rest ih =>
    simp only [blocks, flatMap_cons, length_append, length_leBytes, length_cons]
      at ih ⊢
    omega

theorem delivers_bundle (accepts : ∀ seen message, env.processMessage seen message = none)
    (bundle : Bundle multi bodies) :
    Delivers env [multi.getPacket] bodies := by
  cases bundle with
  | single m plain short => exact delivers_message accepts plain
  | many bodies short lt doComp =>
    intro s _
    refine ⟨s.handed ++ [(.data, leBytes 2 0x1900 ++ blocks bodies)], ?_⟩
    rw [decodeAll_singleton, decode_layout env _ .data
      (leBytes 2 0x1900 ++ blocks bodies) (length_leBytes 2 _) rfl]
    have marker := Stream.readShort_unread ⟨(joined bodies).elementData, 4⟩ 0x1900
      (blocks bodies) rfl
    have hin : 6 ≤ (joined bodies).size := by
      rw [size_joined]
      omega
    have le : bodies.length ≤ (joined bodies).size := by
      have := length_le_blocks bodies
      rw [size_joined]
      omega
    refine (bind_of_ok (parse_of_ok marker)).trans ?_
    refine (ite_run_pos rfl).trans ?_
    exact dataChannelBlocks_blocks accepts bodies short _ le
      ⟨(joined bodies).elementData, 6⟩ rfl hin _

/-! ### Fragments -/

def fragments : Nat → BaseFragmentedPacket → List BasePacket
  | 0, _ => []
  | fuel + 1, frag =>
    if frag.hasFragments then frag.getFragment.1 :: fragments fuel frag.getFragment.2 else []

theorem sendFragments_eq (fuel : Nat) (frag : BaseFragmentedPacket) (c : BaseClient)
    (available : c.isAvailable = true) : sendFragments fuel frag c =
      { c with sendBuffer := c.sendBuffer ++ fragments fuel frag } := by
  induction fuel generalizing frag c with
  | zero => simp [sendFragments, fragments]
  | succ fuel ih =>
    rw [sendFragments, fragments]
    by_cases more : frag.hasFragments
    · simp only [if_pos more]
      rw [sendSequenced, if_pos available]
      refine (ih _ { c with sendBuffer := c.sendBuffer ++ [frag.getFragment.1] } available).trans ?_
      simp only [append_assoc, singleton_append]
    · simp only [if_neg more, append_nil]

def fragment (payload : List UInt8) : BasePacket :=
  { ofBytes (leBytes 2 0x0D00 ++ (leBytes 2 0 ++ payload)) with doComp := true }

def cut (m : Message) (k : Nat) : BaseFragmentedPacket :=
  { new (some m.packet) with totalSize := (k : Int) + 4 }

def collecting (m : Message) (k : Nat) : BaseFragmentedPacket :=
  { new none with
    toStream := ⟨m.body.take k, k⟩, totalSize := m.body.length }

theorem size_packet (m : Message) : m.packet.size = m.body.length + 4 := m.length_bytes

theorem hasFragments_cut (m : Message) (k : Nat) :
    (cut m k).hasFragments = decide (k < m.body.length) := by
  have size : m.packet.size = m.body.length + 4 := size_packet m
  simp only [hasFragments, cut, BaseFragmentedPacket.new, size]
  exact decide_eq_decide.mpr (by omega)

theorem drop_packet (m : Message) (k : Nat) :
    m.packet.elementData.drop (k + 4) = m.body.drop k := by
  have front : m.packet.elementData.drop 4 = m.body := m.drop_bytes
  rw [Nat.add_comm, ← drop_drop, front]

theorem getFragment_first (m : Message) :
    (BaseFragmentedPacket.new (some m.packet)).getFragment =
      (fragment (beBytes 4 m.body.length ++ m.body.take 485), cut m 485) := by
  have front : m.packet.elementData.drop 4 = m.body := m.drop_bytes
  have size : m.packet.size - 4 = m.body.length := by rw [size_packet]; rfl
  simp only [getFragment, BaseFragmentedPacket.new, beq_self_eq_true, if_true,
    size, fragment, cut]
  congr 1

theorem getFragment_cut (hin : k ≤ m.body.length) :
    (cut m k).getFragment =
      (fragment ((m.body.drop k).take 489), cut m (k + min 489 (m.body.length - k))) := by
  have later : ((k : Int) + 4 == 0) = false := by
    simp only [beq_eq_false_iff_ne]
    omega
  have size : m.packet.size = m.body.length + 4 := size_packet m
  have start : ((k : Int) + 4).toNat = k + 4 := by omega
  have counted : (min (489 : Int) ((m.packet.size : Int) - ((k : Int) + 4))).toNat =
      min 489 (m.body.length - k) := by
    omega
  have pos : (k : Int) + 4 + min 489 ((m.packet.size : Int) - ((k : Int) + 4)) =
      ((k + min 489 (m.body.length - k) : Nat) : Int) + 4 := by
    omega
  have width : (496 - 4 - 3 : Int) = 489 := rfl
  have chunk : (m.body.drop k).take (min 489 (m.body.length - k)) = (m.body.drop k).take 489 := by
    rw [← length_drop, take_eq_take_iff]
    omega
  simp only [getFragment, cut, BaseFragmentedPacket.new, later]
  simp only [Bool.false_eq_true, if_false, start, width, counted, drop_packet, chunk, fragment,
    append_assoc, pos]

theorem collecting_eq (within : k ≤ m.body.length) :
    collecting m k = Reassembly.collecting m.body.length (m.body.take k) := by
  simp only [collecting, Reassembly.collecting, length_take, Nat.min_eq_left within]

theorem receiveFragmentedPacket_next (next : pack.unread = (m.body.drop k).take 489)
    (hin : pack.offset ≤ pack.size) (within : k < m.body.length)
    (pending : c.fragmentedPacket = some (collecting m k)) :
    receiveFragmentedPacket pack c =
      if k + 489 < m.body.length then
        .ok none { c with fragmentedPacket := some (collecting m (k + 489)) }
      else
        .ok (some { BasePacket.new with toStream := ⟨m.body, 0⟩ })
          { c with fragmentedPacket := none } := by
  have joined : m.body.take k ++ pack.unread = m.body.take (k + 489) := by
    rw [next, take_add]
  have short : ((m.body.take k).length : Int) < m.body.length := by
    rw [length_take]
    omega
  rw [collecting_eq within.le] at pending
  rw [Reassembly.receiveFragmentedPacket_next hin short pending, joined,
    length_take]
  by_cases more : k + 489 < m.body.length
  · rw [if_neg (by omega), if_pos more, collecting_eq more.le]
  · rw [if_pos (by omega), if_neg more, take_of_length_le (by omega : m.body.length ≤ k + 489),
      Int.toNat_natCast, take_length]

theorem receiveFragmentedPacket_first
    (next : pack.unread = beBytes 4 m.body.length ++ m.body.take 485) (long : 485 < m.body.length)
    (lt : m.body.length ≤ 1500000) (none_ : c.fragmentedPacket = none) :
    receiveFragmentedPacket pack c =
      .ok none { c with fragmentedPacket := some (collecting m 485) } := by
  have width : pack.offset + 4 ≤ pack.size := by
    have total := Reassembly.length_unread pack
    rw [next, length_append, length_beBytes] at total
    omega
  have front : pack.unread.take 4 = beBytes 4 m.body.length := by
    rw [next, take_left' (length_beBytes 4 _)]
  have rest : pack.unread.drop 4 = m.body.take 485 := by
    rw [next, drop_left' (length_beBytes 4 _)]
  have size : Reassembly.announced pack.unread = m.body.length := by
    rw [Reassembly.announced, front, beNat_beBytes, Nat.mod_eq_of_lt (by omega),
      i32_of_small _ (by omega) (by omega)]
  rw [Reassembly.receiveFragmentedPacket_first width (by omega) (by omega) c
      (by rw [none_]; rfl), size, rest, length_take, if_neg (by omega),
    collecting_eq long.le]

theorem decode_fragment (env : Env) (payload : List UInt8) (s : Session) :
    decode env (fragment payload) s =
      handleChannel env .fragment ⟨(fragment payload).elementData, 4⟩
        { s with handed := s.handed ++ [(.fragment, payload)] } :=
  decode_layout env (fragment payload) .fragment payload (length_leBytes 2 _) rfl s

theorem unread_fragment (payload : List UInt8) :
    (Stream.mk (fragment payload).elementData 4).unread = payload ∧
    (Stream.mk (fragment payload).elementData 4).offset ≤
      (Stream.mk (fragment payload).elementData 4).size := by
  refine ⟨rfl, ?_⟩
  simp only [fragment, ofBytes, Stream.size, length_append, length_leBytes]
  omega

theorem handleChannel_collects (env : Env)
    (kept : receiveFragmentedPacket pack s.client = .ok none c) :
    handleChannel env .fragment pack s = .ok () { s with client := c } := by
  have received : receiveFragment env pack s = .ok () { s with client := c } := by
    refine (@bind_of_ok _ _ _ _ _ _ s { s with client := c } none ?_).trans rfl
    simp only [onClient, kept]
  have handled : handleFragmentedPacket env pack s = .ok 0 { s with client := c } := by
    simp only [handleFragmentedPacket, received]
  exact (bind_of_ok handled).trans rfl

theorem handleChannel_completes {s' : Session} {whole : BasePacket}
    (complete : receiveFragmentedPacket pack s.client = .ok (some whole) c)
    (handled : handleDataChannelPacket env whole.toStream { s with client := c } = .ok () s') :
    handleChannel env .fragment pack s = .ok () s' := by
  have received : receiveFragment env pack s = .ok () s' := by
    refine (@bind_of_ok _ _ _ _ _ _ s { s with client := c } (some whole) ?_).trans handled
    simp only [onClient, complete]
  have counted : handleFragmentedPacket env pack s = .ok 0 s' := by
    simp only [handleFragmentedPacket, received]
  exact (bind_of_ok counted).trans rfl

section Accepting

variable {env : Env} (accepts : ∀ seen message, env.processMessage seen message = none)

include accepts

theorem decodeAll_fragments {m : Message} (plain : m.Plain) (fuel k : Nat)
    (within : k < m.body.length) (le : m.body.length ≤ k + fuel) (s : Session)
    (pending : s.client.fragmentedPacket = some (collecting m k)) :
    ∃ handed, decodeAll env (fragments fuel (cut m k)) s = .ok () { s with
      messages := s.messages ++ [m.body], handed := handed
      client := { s.client with fragmentedPacket := none } } := by
  induction fuel generalizing k s with
  | zero => omega
  | succ fuel ih =>
    have more : (cut m k).hasFragments = true := by
      rw [hasFragments_cut, decide_eq_true within]
    rw [fragments, if_pos more, getFragment_cut (Nat.le_of_lt within)]
    have chunk := unread_fragment ((m.body.drop k).take 489)
    have received := receiveFragmentedPacket_next chunk.1 chunk.2 within pending
    -- 489 bytes per fragment, and the one that completes the message may have fewer
    by_cases last : k + 489 < m.body.length
    · rw [if_pos last] at received
      have decoded := (decode_fragment env ((m.body.drop k).take 489) s).trans
        (handleChannel_collects env received)
      obtain ⟨handed, rest⟩ := ih (k + 489) last (by omega)
        { s with handed := s.handed ++ [(.fragment, (m.body.drop k).take 489)]
                 client := { s.client with fragmentedPacket := some (collecting m (k + 489)) } } rfl
      refine ⟨handed, (bind_of_ok decoded).trans ?_⟩
      rw [Nat.min_eq_left (by omega)]
      exact rest
    · rw [if_neg last] at received
      have given := handleDataChannelPacket_plain accepts plain ⟨m.body, 0⟩ rfl
        { s with handed := s.handed ++ [(.fragment, (m.body.drop k).take 489)]
                 client := { s.client with fragmentedPacket := none } }
      have decoded := (decode_fragment env ((m.body.drop k).take 489) s).trans
        (handleChannel_completes received given)
      refine ⟨s.handed ++ [(.fragment, (m.body.drop k).take 489)],
        (bind_of_ok decoded).trans ?_⟩
      have all : k + min 489 (m.body.length - k) = m.body.length := by omega
      have ended : (cut m m.body.length).hasFragments = false := by
        rw [hasFragments_cut, decide_eq_false (Nat.lt_irrefl _)]
      rw [all]
      cases fuel with
      | zero => rfl
      | succ fuel =>
        rw [fragments, if_neg (by simp [ended])]
        rfl

theorem delivers_fragments {m : Message} (plain : m.Plain) (long : 490 ≤ m.packet.size) :
    Delivers env (fragments m.packet.size (BaseFragmentedPacket.new (some m.packet))) [m.body] := by
  intro s clean
  have size : m.packet.size = m.body.length + 4 := size_packet m
  have more : (BaseFragmentedPacket.new (some m.packet)).hasFragments = true := by
    simp only [hasFragments, BaseFragmentedPacket.new, size]
    exact decide_eq_true (by omega)
  have chunk := unread_fragment (beBytes 4 m.body.length ++ m.body.take 485)
  have received := receiveFragmentedPacket_first chunk.1 (by omega) plain.small clean
  have decoded := (decode_fragment env (beBytes 4 m.body.length ++ m.body.take 485) s).trans
    (handleChannel_collects env received)
  obtain ⟨handed, rest⟩ := decodeAll_fragments accepts plain (m.body.length + 3) 485 (by omega)
    (by omega)
    { s with handed := s.handed ++ [(.fragment, beBytes 4 m.body.length ++ m.body.take 485)]
             client := { s.client with fragmentedPacket := some (collecting m 485) } } rfl
  refine ⟨handed, ?_⟩
  rw [size, fragments, if_pos more, getFragment_first]
  refine (bind_of_ok decoded).trans (rest.trans ?_)
  rw [← clean]

end Accepting

/-! ### Giving and drawing -/

structure Outbox where
  client : BaseClient
  drawn : List BasePacket
  deriving DecidableEq, Repr

inductive OutboxEvent
  | give (m : Message)
  | draw

def OutboxEvent.apply (env : Env) (event : OutboxEvent) (o : Outbox) : Outbox :=
  match event with
  | .give m => { o with client := o.client.sendPacket env m.packet }
  | .draw =>
    match o.client.getNextSequencedPacket env with
    | (none, c) => { o with client := c }
    | (some pack, c) => { client := c, drawn := o.drawn ++ [pack] }

def given (events : List OutboxEvent) : List (List UInt8) :=
  events.filterMap fun event => match event with
    | .give m => some m.body
    | .draw => none

def runOutbox (env : Env) (events : List OutboxEvent) (o : Outbox) : Outbox :=
  events.foldl (fun o event => event.apply env o) o

def Pending (multi : Option BaseMultiPacket) (bodies : List (List UInt8)) : Prop :=
  (multi = none ∧ bodies = []) ∨ ∃ m, multi = some m ∧ Bundle m bodies

structure Segmented (env : Env) (o : Outbox) (bodies : List (List UInt8)) : Prop where
  available : o.client.isAvailable = true
  room : u32 ((o.client.serverSequence : Int) - o.client.acknowledgedServerSequence) ≤ 50
  delivers : ∃ front back, bodies = front ++ back ∧
    Delivers env (o.drawn ++ o.client.sendBuffer) front ∧ Pending o.client.bufferedPacket back

/-! ### Steps -/

theorem isDataChannelPacket_packet (m : Message) :
    isDataChannelPacket m.packet.toStream = .ok true m.packet.toStream := by
  change EStateM.map (· == 0x0900) (Stream.readShortFrom 0) m.packet.toStream = _
  rfl

theorem joinable_packet {m : Message} (plain : m.Plain) :
    joinable m.packet m.packet.toStream =
      .ok (decide (m.body.length < 0xFF)) m.packet.toStream := by
  obtain ⟨first, rest, opens, unmarked⟩ := plain.opens
  have start := Stream.readShortFrom_start m.packet.toStream 0x0900 rfl
  have body := Stream.readShortFrom_at 4 m.packet.toStream first rest
    (m.drop_bytes.trans opens)
  have notMulti : isMultiPacket m.packet.toStream = .ok false m.packet.toStream := by
    refine (bind_of_ok start).trans ((ite_run_neg (by decide)).trans ?_)
    change EStateM.map (· == 0x1900) (Stream.readShortFrom 4) m.packet.toStream = _
    simp only [EStateM.map, body, beq_eq_false_iff_ne.mpr unmarked]
  have size : m.packet.size - 4 = m.body.length := by
    rfl
  refine (bind_of_ok (isDataChannelPacket_packet m)).trans
    ((ite_run_pos rfl).trans ?_)
  refine (bind_of_ok notMulti).trans ((ite_run_neg (by decide)).trans ?_)
  rfl

section Accepting

variable {env : Env} (accepts : ∀ seen message, env.processMessage seen message = none)
  {o : Outbox} {bodies : List (List UInt8)} (segmented : Segmented env o bodies)

include segmented

theorem Segmented.enqueue (idle : o.client.bufferedPacket = none) (packs : List BasePacket)
    (more : List (List UInt8)) (delivers : Delivers env packs more) :
    Segmented env { o with client := { o.client with
      sendBuffer := o.client.sendBuffer ++ packs } } (bodies ++ more) := by
  obtain ⟨front, back, split, before, pending⟩ := segmented.delivers
  have none : back = [] := by
    rcases pending with ⟨-, empty⟩ | ⟨m, some, -⟩
    · exact empty
    · rw [idle] at some
      cases some
  refine ⟨segmented.available, segmented.room, bodies ++ more, [], (append_nil _).symm, ?_,
    Or.inl ⟨idle, rfl⟩⟩
  rw [split, none, append_nil]
  simpa only [append_assoc] using before.append delivers

include accepts

theorem Segmented.flush :
    Segmented env { o with client := o.client.flushBufferedPacket } bodies ∧
    o.client.flushBufferedPacket.bufferedPacket = none := by
  obtain ⟨front, back, split, before, pending⟩ := segmented.delivers
  rcases pending with ⟨idle, -⟩ | ⟨multi, held, bundle⟩
  · have eq : o.client.flushBufferedPacket = o.client := by
      simp only [flushBufferedPacket, idle]
    rw [eq]
    exact ⟨segmented, idle⟩
  · have flushed : o.client.flushBufferedPacket = { o.client with
        sendBuffer := o.client.sendBuffer ++ [multi.getPacket], bufferedPacket := none } := by
      simp only [flushBufferedPacket, held, sendSequenced,
        if_pos segmented.available]
    rw [flushed]
    refine ⟨⟨segmented.available, segmented.room, bodies, [], (append_nil _).symm, ?_,
      Or.inl ⟨rfl, rfl⟩⟩, rfl⟩
    rw [split]
    simpa only [append_assoc] using before.append (delivers_bundle accepts bundle)

theorem Segmented.draw (out : Env) : Segmented env (OutboxEvent.draw.apply out o) bodies := by
  obtain ⟨front, back, split, before, pending⟩ := segmented.delivers
  have op : ¬ u32 ((o.client.serverSequence : Int) -
      o.client.acknowledgedServerSequence) > 50 := Nat.not_lt.mpr segmented.room
  simp only [OutboxEvent.apply, getNextSequencedPacket, if_neg op]
  cases queue : o.client.sendBuffer with
  | cons pack rest =>
    refine ⟨segmented.available, segmented.room, front, back, split, ?_, pending⟩
    rw [queue] at before
    simpa only [append_assoc, singleton_append] using before
  | nil =>
    rcases pending with ⟨idle, empty⟩ | ⟨multi, held, bundle⟩
    · simp only [idle]
      exact segmented
    · simp only [held]
      refine ⟨segmented.available, segmented.room, bodies, [], (append_nil _).symm, ?_,
        Or.inl ⟨rfl, rfl⟩⟩
      rw [split]
      simpa only [queue, append_nil] using before.append (delivers_bundle accepts bundle)

theorem Segmented.give (out : Env) (m : Message) (plain : m.Plain) :
    Segmented env ((OutboxEvent.give m).apply out o) (bodies ++ [m.body]) := by
  have available := segmented.available
  have size : m.packet.size = m.body.length + 4 := size_packet m
  obtain ⟨flushed, idle⟩ := segmented.flush accepts
  simp only [OutboxEvent.apply, sendPacket, if_pos available]
  rw [if_pos (show m.packet.doSeq = true from rfl)]
  by_cases long : m.packet.size ≥ 490
  · rw [if_pos long, sendFragmented, if_pos flushed.available,
      sendFragments_eq _ _ _ flushed.available]
    exact flushed.enqueue idle _ _ (delivers_fragments accepts plain long)
  · rw [if_neg long]
    have joins := joinable_packet plain
    by_cases short : m.body.length < 0xFF
    · rw [decide_eq_true short] at joins
      obtain ⟨front, back, split, before, pending⟩ := segmented.delivers
      rcases pending with ⟨none, empty⟩ | ⟨multi, held, bundle⟩
      · simp only [bufferMultiPacket, none, joins]
        refine ⟨available, segmented.room, front, [m.body], ?_, before,
          Or.inr ⟨_, rfl, .single m plain short⟩⟩
        rw [split, empty, append_nil]
      · have added := bundle.add m short
        cases res : multi.add m.packet with
        | mk fits multi' =>
          rw [res] at added
          cases fits with
          | true =>
            simp only [bufferMultiPacket, held, joins, res]
            refine ⟨available, segmented.room, front, back ++ [m.body], ?_, before,
              Or.inr ⟨_, rfl, added⟩⟩
            rw [split, append_assoc]
          | false =>
            simp only [bufferMultiPacket, held, joins, res,
              sendSequenced, if_pos available]
            refine ⟨available, segmented.room, bodies, [m.body], rfl, ?_,
              Or.inr ⟨_, rfl, .single m plain short⟩⟩
            have delivers : Delivers env [multi'.getPacket] back := delivers_bundle accepts added
            rw [split]
            simpa only [append_assoc] using before.append delivers
    · -- a message of middle length goes out on its own, after what is under construction
      rw [decide_eq_false short] at joins
      have direct : bufferMultiPacket m.packet o.client =
          .ok () (sendSequenced m.packet o.client.flushBufferedPacket) := by
        cases held : o.client.bufferedPacket with
        | none =>
          simp only [bufferMultiPacket, flushBufferedPacket, held, joins]
        | some multi =>
          simp only [bufferMultiPacket, flushBufferedPacket, held, joins]
      simp only [direct]
      rw [sendSequenced, if_pos flushed.available]
      exact flushed.enqueue idle _ _ (delivers_message accepts plain)

omit segmented in
theorem runOutbox_segmented (out : Env) (events : List OutboxEvent)
    (plain : ∀ m, OutboxEvent.give m ∈ events → m.Plain) (o : Outbox)
    (bodies : List (List UInt8)) (segmented : Segmented env o bodies) :
    Segmented env (runOutbox out events o) (bodies ++ given events) := by
  induction events generalizing o bodies with
  | nil =>
    rw [given, filterMap_nil, append_nil]
    exact segmented
  | cons event rest ih =>
    have others : ∀ m, OutboxEvent.give m ∈ rest → m.Plain :=
      fun m mem => plain m (mem_cons_of_mem _ mem)
    cases event with
    | give m =>
      have next := ih others _ _ (segmented.give accepts out m (plain m mem_cons_self))
      rwa [append_assoc] at next
    | draw => exact ih others _ _ (segmented.draw accepts out)

omit segmented in
theorem runOutbox_drained (out : Env) (n : Nat) (o : Outbox) (bodies : List (List UInt8))
    (segmented : Segmented env o bodies) (queued : o.client.sendBuffer.length = n) :
    (runOutbox out (replicate (n + 1) .draw) o).client.sendBuffer = [] ∧
    (runOutbox out (replicate (n + 1) .draw) o).client.bufferedPacket = none := by
  induction n generalizing o with
  | zero =>
    have op : ¬ u32 ((o.client.serverSequence : Int) -
        o.client.acknowledgedServerSequence) > 50 := Nat.not_lt.mpr segmented.room
    have empty : o.client.sendBuffer = [] := length_eq_zero_iff.mp queued
    change (OutboxEvent.draw.apply out o).client.sendBuffer = [] ∧
      (OutboxEvent.draw.apply out o).client.bufferedPacket = none
    cases held : o.client.bufferedPacket with
    | none =>
      simp [OutboxEvent.apply, getNextSequencedPacket, if_neg op, empty, held]
    | some multi =>
      simp [OutboxEvent.apply, getNextSequencedPacket, if_neg op, empty, held]
  | succ n ih =>
    have op : ¬ u32 ((o.client.serverSequence : Int) -
        o.client.acknowledgedServerSequence) > 50 := Nat.not_lt.mpr segmented.room
    obtain ⟨pack, rest, queue⟩ := exists_cons_of_length_eq_add_one queued
    have drawn : OutboxEvent.draw.apply out o =
        ⟨{ o.client with sendBuffer := rest }, o.drawn ++ [pack]⟩ := by
      simp only [OutboxEvent.apply, getNextSequencedPacket, if_neg op, queue]
    have next := segmented.draw accepts out
    have fewer : (OutboxEvent.draw.apply out o).client.sendBuffer.length = n := by
      rw [drawn]
      simpa [queue] using queued
    exact ih _ next fewer

end Accepting

def recording (env : Env) : Env := { env with processMessage := fun _ _ => none }

/-- However the draws fall, decoding what is drawn gives the bodies in their order. -/
theorem decodeAll_drawn (env : Env) (c : BaseClient)
    (available : c.isAvailable = true)
    (room : u32 ((c.serverSequence : Int) - c.acknowledgedServerSequence) ≤ 50)
    (unqueued : c.sendBuffer = []) (unbuffered : c.bufferedPacket = none)
    (events : List OutboxEvent) (plain : ∀ m, OutboxEvent.give m ∈ events → m.Plain)
    (o last : Outbox) (ran : o = runOutbox env events ⟨c, []⟩)
    (drained : last = runOutbox env (List.replicate (o.client.sendBuffer.length + 1) .draw) o)
    (receiver : BaseClient) (clean : receiver.fragmentedPacket = none) :
    (last.client.getNextSequencedPacket env).1 = none ∧
    ∃ s, decodeAll (recording env) last.drawn (Session.start receiver) = .ok () s ∧
      s.messages = given events := by
  have accepts : ∀ seen message, (recording env).processMessage seen message = none :=
    fun _ _ => rfl
  have start : Segmented (recording env) ⟨c, []⟩ [] := by
    refine ⟨available, room, [], [], rfl, ?_, Or.inl ⟨unbuffered, rfl⟩⟩
    rw [unqueued]
    exact delivers_nil (recording env)
  have whole := runOutbox_segmented accepts env events plain _ _ start
  rw [← ran, nil_append] at whole
  -- drawing the rest gives nothing new to the outbox
  have draws : ∀ m, OutboxEvent.give m ∈ replicate (o.client.sendBuffer.length + 1) .draw →
      m.Plain := fun m mem => nomatch (eq_of_mem_replicate mem)
  have none : given (replicate (o.client.sendBuffer.length + 1) .draw) = [] := by
    rw [given, filterMap_replicate]
  have final := runOutbox_segmented accepts env _ draws _ _ whole
  obtain ⟨empty, idle⟩ := runOutbox_drained accepts env _ o _ whole rfl
  rw [← drained] at final empty idle
  rw [none, append_nil] at final
  obtain ⟨front, back, split, delivers, pending⟩ := final.delivers
  refine ⟨?_, ?_⟩
  · simp only [getNextSequencedPacket, if_neg (Nat.not_lt.mpr final.room), empty, idle]
  · have nothing : back = [] := by
      rcases pending with ⟨-, gone⟩ | ⟨m, held, -⟩
      · exact gone
      · rw [idle] at held
        cases held
    rw [empty, append_nil] at delivers
    obtain ⟨handed, decoded⟩ := delivers (Session.start receiver) clean
    refine ⟨_, decoded, ?_⟩
    rw [split, nothing, append_nil]
    rfl

def filled (n : Nat) (byte : UInt8) : Message := ⟨0, replicate n byte, true⟩

theorem plain_filled {n : Nat} {byte : UInt8} (large : 2 ≤ n) (lt : n ≤ 1500000)
    (nonzero : byte ≠ 0) : (filled n byte).Plain := by
  obtain ⟨k, rfl⟩ := Nat.exists_eq_add_of_le large
  refine ⟨by simp [filled], by simpa [filled] using lt, ?_⟩
  simp only [filled, Nat.add_comm 2 k, replicate_succ, take_succ_cons, take_zero]
  exact fun eq => nonzero (cons.inj eq).1

def mixedEvents : List OutboxEvent :=
  [.give (filled 2 1), .draw, .give (filled 2 2), .give (filled 300 3), .give (filled 1000 4),
    .give (filled 2 5), .give (filled 20 6)]

theorem decodeAll_drawn_mixed :
    ∃ s, decodeAll (recording Env.plain)
        (runOutbox Env.plain (List.replicate ((runOutbox Env.plain mixedEvents
          ⟨BaseClient.initialized 0, []⟩).client.sendBuffer.length + 1) .draw)
          (runOutbox Env.plain mixedEvents ⟨BaseClient.initialized 0, []⟩)).drawn
        (Session.start (BaseClient.initialized 0)) = .ok () s ∧
      s.messages = given mixedEvents :=
  (decodeAll_drawn Env.plain (initialized 0) rfl (by decide) rfl rfl mixedEvents
    (by
      intro m member
      simp only [mixedEvents, mem_cons, OutboxEvent.give.injEq, reduceCtorEq, not_mem_nil,
        or_false, false_or] at member
      rcases member with rfl | rfl | rfl | rfl | rfl | rfl <;>
        exact plain_filled (by decide) (by decide) (by decide))
    _ _ rfl rfl (initialized 0) rfl).2

end BasePacketHandler

end Engine3
