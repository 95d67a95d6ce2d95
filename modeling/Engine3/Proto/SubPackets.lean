import Engine3.Proto.HandlerFrame

/-!
# What a sub-packet hands out

A multi-SOE packet is a sequence of sub-packets, each behind a byte with its length. Which
bytes are handed out for a sub-packet, and whether as a message or as a fragment, depends on
the packet alone. The client decides only whether a sequenced sub-packet is processed, and the
service handler may end the processing by an exception.
-/
namespace Engine3.BasePacketHandler

open Bytes Exec BaseClient

/-! ### Plans -/

inductive Handout
  | message
  | fragment
  deriving DecidableEq, Repr

structure Piece where
  handout : Handout
  start : Nat
  stop : Nat
  deriving DecidableEq, Repr

def Piece.bytes (data : List UInt8) (piece : Piece) : List UInt8 :=
  (data.drop piece.start).take (piece.stop - piece.start)

structure Plan where
  pieces : List Piece
  ending : Except Exception Unit

namespace Plan

def done : Plan := ⟨[], .ok ()⟩

def after {α : Type} (m : StreamM α) (pack : Stream) (next : α → Stream → Plan) : Plan :=
  match m pack with
  | .ok a pack => next a pack
  | .error e _ => ⟨[], .error e⟩

def cut (handout : Handout) (pack : Stream) (startoffs endoffs : Int) (next : Plan) : Plan :=
  if endoffs - startoffs < 0 then ⟨[], .error (.packetIndexOutOfBounds (endoffs - startoffs))⟩
  else if startoffs < 0 then ⟨[], .error (.packetIndexOutOfBounds startoffs)⟩
  else if endoffs > pack.size then ⟨[], .error (.packetIndexOutOfBounds endoffs)⟩
  else ⟨⟨handout, startoffs.toNat, endoffs.toNat⟩ :: next.pieces, next.ending⟩

end Plan

def handOut (env : Env) (handout : Handout) (bytes : List UInt8) : HandlerM Unit :=
  match handout with
  | .message => processMessage env bytes
  | .fragment => do
    let _ ← handleFragmentedPacket env ⟨bytes, 0⟩
    pure ()

def handOutAll (env : Env) (data : List UInt8) : List Piece → HandlerM Unit
  | [] => pure ()
  | piece :: rest => do
    handOut env piece.handout (piece.bytes data)
    handOutAll env data rest

def Plan.run (env : Env) (data : List UInt8) (plan : Plan) : HandlerM Unit := do
  handOutAll env data plan.pieces
  match plan.ending with
  | .ok () => pure ()
  | .error e => throw e

def handedOut (env : Env) (data : List UInt8) : List Piece → Session → List Piece
  | [], _ => []
  | piece :: rest, s =>
    piece :: match handOut env piece.handout (piece.bytes data) s with
      | .ok () s => handedOut env data rest s
      | .error _ _ => []

/-! ### Plans and the handler -/

theorem run_after {α : Type} (env : Env) (data : List UInt8) (m : StreamM α) (pack : Stream)
    (next : α → Stream → Plan) (f : α × Stream → HandlerM Unit) (s : Session)
    (eq : ∀ a pack', m pack = .ok a pack' → f (a, pack') s = (next a pack').run env data s) :
    (parse m pack >>= f) s = (Plan.after m pack next).run env data s := by
  cases read : m pack with
  | ok a pack' =>
    rw [Plan.after, read]
    exact (bind_of_ok (parse_of_ok read)).trans (eq a pack' read)
  | error e pack' =>
    have fails : parse m pack s = .error e s := by simp only [parse, read]
    rw [Plan.after, read]
    exact (bind_of_error fails).trans rfl

theorem run_cons (env : Env) (data : List UInt8) (piece : Piece) (plan : Plan) (s : Session) :
    Plan.run env data ⟨piece :: plan.pieces, plan.ending⟩ s =
      (do handOut env piece.handout (piece.bytes data)
          plan.run env data) s := by
  simp only [Plan.run, handOutAll, bind_assoc]

theorem run_cut (env : Env) (handout : Handout) (pack : Stream) (startoffs endoffs : Int)
    {plan : Plan} (rest : List UInt8 → HandlerM Unit) (s : Session)
    (eq : ∀ bytes, rest bytes s =
      (do handOut env handout bytes
          plan.run env pack.elementData) s) :
    (baseMessage pack startoffs endoffs >>= rest) s =
      (Plan.cut handout pack startoffs endoffs plan).run env pack.elementData s := by
  by_cases neg : endoffs - startoffs < 0
  · rw [Plan.cut, if_pos neg]
    exact (bind_of_error (s := s) (if_pos neg)).trans rfl
  by_cases before : startoffs < 0
  · rw [Plan.cut, if_neg neg, if_pos before]
    exact (bind_of_error (s := s) ((if_neg neg).trans (if_pos before))).trans rfl
  by_cases beyond : endoffs > pack.size
  · rw [Plan.cut, if_neg neg, if_neg before, if_pos beyond]
    exact (bind_of_error (s := s)
      ((if_neg neg).trans ((if_neg before).trans (if_pos beyond)))).trans rfl
  rw [Plan.cut, if_neg neg, if_neg before, if_neg beyond, run_cons]
  have width : (endoffs - startoffs).toNat = endoffs.toNat - startoffs.toNat := by omega
  have cut : baseMessage pack startoffs endoffs s = .ok (Piece.bytes pack.elementData
      ⟨handout, startoffs.toNat, endoffs.toNat⟩) s := by
    rw [Piece.bytes, ← width]
    exact (if_neg neg).trans ((if_neg before).trans (if_neg beyond))
  exact (bind_of_ok cut).trans (eq _)

/-! ### Reading -/

def Moves {α : Type} (m : StreamM α) (n : Nat) : Prop :=
  ∀ pack a pack', m pack = .ok a pack' → pack' = pack.advance n ∧ pack.offset + n ≤ pack.size

theorem moves_shiftOffset (n : Nat) : Moves (Stream.shiftOffset n) n := by
  intro pack a pack' moved
  by_cases hin : pack.offset + n ≤ pack.size
  · rw [Stream.shiftOffset_inside n pack hin] at moved
    cases moved
    exact ⟨rfl, hin⟩
  · have fails : Stream.shiftOffset n pack =
        .error (.streamIndexOutOfBounds (pack.offset + n : Nat))
          { pack with offset := pack.offset + n } := if_pos (Nat.not_le.mp hin)
    rw [fails] at moved
    cases moved

theorem moves_read (decode : List UInt8 → Nat) (n : Nat) :
    Moves (decode <$> Stream.readPrimitive n) n := by
  intro pack a pack' moved
  change EStateM.map decode (Stream.readPrimitive n) pack = _ at moved
  simp only [EStateM.map, Stream.readPrimitive] at moved
  cases shifted : Stream.shiftOffset n pack with
  | ok u pack'' =>
    rw [shifted] at moved
    cases moved
    exact moves_shiftOffset n pack u pack' shifted
  | error e pack'' =>
    rw [shifted] at moved
    cases moved

theorem readShort_eq (pack : Stream) (hin : pack.offset + 2 ≤ pack.size) :
    Stream.readShort pack = .ok (leNat (pack.unread.take 2)) (pack.advance 2) := by
  change EStateM.map leNat (Stream.readPrimitive 2) pack = _
  simp only [EStateM.map, Stream.readPrimitive, Stream.shiftOffset_inside 2 pack hin]
  rfl

def blockSizeAt : StreamM Nat := do
  let blockSize ← Stream.readByte
  if blockSize = 0xFF then Stream.parseNetShort else pure blockSize

theorem parseBlockSize_eq (pack : Stream) (s : Session) :
    parseBlockSize pack s = parse blockSizeAt pack s := by
  cases read : Stream.readByte pack with
  | error e pack' =>
    have fails : parse Stream.readByte pack s = .error e s := by simp only [parse, read]
    rw [parse, blockSizeAt, bind_of_error read]
    exact bind_of_error fails
  | ok blockSize pack' =>
    rw [parse, blockSizeAt, bind_of_ok read]
    refine (bind_of_ok (parse_of_ok read)).trans ?_
    by_cases marked : blockSize = 0xFF
    · simp only [if_pos marked]
      rfl
    · simp only [if_neg marked]
      rfl

theorem blockSizeAt_moves (pack : Stream) (blockSize : Nat) (block : Stream)
    (read : blockSizeAt pack = .ok blockSize block) :
    ∃ n, 1 ≤ n ∧ block = pack.advance n ∧ pack.offset + n ≤ pack.size := by
  obtain ⟨first, pack', byte, rest⟩ := bind_ok_iff.mp read
  obtain ⟨rfl, hin⟩ := moves_read leNat 1 pack first pack' byte
  by_cases marked : first = 0xFF
  · rw [if_pos marked] at rest
    obtain ⟨rfl, within⟩ := moves_read beNat 2 _ _ _ rest
    exact ⟨3, by decide, rfl, within⟩
  · rw [if_neg marked] at rest
    obtain ⟨-, rfl⟩ := pure_ok_iff.mp rest
    exact ⟨1, by decide, rfl, hin⟩

/-! ### Sub-packets -/

def blockPlan (size : Nat) : Nat → Nat → Stream → Plan
  | 0, _, _ => .done
  | fuel + 1, parsedsize, pack =>
    if parsedsize < size then
      .after blockSizeAt pack fun blockSize block =>
        .cut .message block block.offset (block.offset + blockSize)
          (.after (Stream.shiftOffset blockSize) block fun _ rest =>
            blockPlan size fuel ((parsedsize + blockSize + (block.offset - pack.offset)) % 65536)
              rest)
    else .done

def countedPlan (size opCount : Nat) (pack : Stream) : Plan :=
  if opCount = 0x1900 then blockPlan size (pack.size + 1) 6 pack
  else if opCount = 0x0D00 then
    .after (Stream.shiftOffset 2) pack fun _ pack =>
      .cut .fragment pack pack.offset (pack.offset + ((size : Int) - 4)) .done
  else if opCount = 0x0900 then
    .after (Stream.shiftOffset 2) pack fun _ pack =>
      .cut .message pack pack.offset (pack.offset + ((size : Int) - 4)) .done
  else
    .cut .message pack ((pack.offset : Int) - 2)
      ((pack.offset : Int) - 2 + ((size : Int) - 4)) .done

def dataPlan (size : Nat) (pack : Stream) : Plan :=
  .after Stream.readShort pack (countedPlan size)

theorem dataChannelMultiBlocks_run (env : Env) (size fuel parsedsize : Nat) (pack : Stream) :
    dataChannelMultiBlocks env size fuel parsedsize pack =
      (blockPlan size fuel parsedsize pack).run env pack.elementData := by
  induction fuel generalizing parsedsize pack with
  | zero => rfl
  | succ fuel ih =>
    rw [dataChannelMultiBlocks, blockPlan]
    by_cases more : parsedsize < size
    · rw [if_pos more, if_pos more, show parseBlockSize pack = parse blockSizeAt pack from
        funext (parseBlockSize_eq pack)]
      funext s
      apply run_after
      intro blockSize block read
      -- parsing moves the cursor only, so the pieces are cut from the same bytes
      obtain ⟨n, -, rfl, -⟩ := blockSizeAt_moves pack blockSize block read
      refine run_cut env .message (pack.advance n) _ _ _ s fun bytes => ?_
      refine congrFun (bind_congr fun _ => ?_) s
      funext s'
      apply run_after
      intro _ rest moved
      obtain ⟨rfl, -⟩ := moves_shiftOffset blockSize _ _ _ moved
      exact congrFun (ih _ _) s'
    · rw [if_neg more, if_neg more]
      rfl

theorem run_cut_done (env : Env) (handout : Handout) (pack : Stream) (startoffs endoffs : Int) :
    (baseMessage pack startoffs endoffs >>= handOut env handout) =
      (Plan.cut handout pack startoffs endoffs .done).run env pack.elementData := by
  funext s
  apply run_cut
  intro bytes
  exact congrFun (bind_pure_unit (x := handOut env handout bytes)).symm s

theorem handleDataChannelMultiPacket_run (env : Env) (size : Nat) (pack : Stream) :
    handleDataChannelMultiPacket env size pack =
      (dataPlan size pack).run env pack.elementData := by
  funext s
  apply run_after
  intro opCount pack' read
  obtain ⟨rfl, -⟩ := moves_read leNat 2 _ _ _ read
  rw [countedPlan]
  by_cases several : opCount = 0x1900
  · simp only [if_pos several]
    exact congrFun (dataChannelMultiBlocks_run env size _ _ _) s
  by_cases nestedFragment : opCount = 0x0D00
  · simp only [if_neg several, if_pos nestedFragment]
    apply run_after
    intro _ pack'' moved
    obtain ⟨rfl, -⟩ := moves_shiftOffset 2 _ _ _ moved
    exact congrFun (run_cut_done env .fragment _ _ _) s
  by_cases nestedData : opCount = 0x0900
  · simp only [if_neg several, if_neg nestedFragment, if_pos nestedData]
    apply run_after
    intro _ pack'' moved
    obtain ⟨rfl, -⟩ := moves_shiftOffset 2 _ _ _ moved
    exact congrFun (run_cut_done env .message _ _ _) s
  · simp only [if_neg several, if_neg nestedFragment, if_neg nestedData]
    exact congrFun (run_cut_done env .message _ _ _) s

structure SubPacket where
  pack : Stream
  opened : pack.offset + 3 ≤ pack.size

namespace SubPacket

variable (sub : SubPacket)

def blockSize : Nat := leNat (sub.pack.unread.take 1)

def offset : Nat := sub.pack.offset + 1

def opcode : Nat := leNat ((sub.pack.advance 1).unread.take 2)

def body : Stream := (sub.pack.advance 1).advance 2

def Sequenced : Prop := sub.opcode = 0x0900 ∨ sub.opcode = 0x0D00

instance : Decidable sub.Sequenced := inferInstanceAs (Decidable (_ ∨ _))

def plan : Plan :=
  if sub.opcode = 0x0900 then dataPlan sub.blockSize (sub.body.advance 2)
  else if sub.opcode = 0x0D00 then
    let pack := sub.body.advance 2
    .cut .fragment pack pack.offset (min ((pack.offset : Int) + sub.blockSize - 4) pack.size) .done
  else if sub.opcode = 0x1100 ∨ sub.opcode = 0x1500 ∨ sub.opcode = 0x0001 then .done
  else if sub.opcode / 256 = 0 then
    .cut .message sub.body sub.offset (sub.offset + sub.blockSize) .done
  else .done

def control : HandlerM Unit :=
  if sub.opcode = 0x1100 then doOutOfOrder sub.body
  else if sub.opcode = 0x1500 then doAcknowledge sub.body
  else if sub.opcode = 0x0001 then do
    let _ ← parse Stream.readInt sub.body
    pure ()
  else pure ()

def process (env : Env) (drain : HandlerM Unit) (validatePackets : Bool) : HandlerM Unit :=
  if sub.Sequenced then do
    let (expected, _) ← validateSubPacket env validatePackets sub.body
    if expected then do
      sub.plan.run env sub.pack.elementData
      if validatePackets then drain else pure ()
    else pure ()
  else do
    sub.plan.run env sub.pack.elementData
    sub.control

def handedOut (env : Env) (validatePackets : Bool) (s : Session) : List Piece :=
  if sub.Sequenced then
    match validateSubPacket env validatePackets sub.body s with
    | .ok (true, _) s => BasePacketHandler.handedOut env sub.pack.elementData sub.plan.pieces s
    | _ => []
  else BasePacketHandler.handedOut env sub.pack.elementData sub.plan.pieces s

end SubPacket

theorem validateSubPacket_moves {env : Env} {validatePackets : Bool} {pack pack' : Stream}
    {s s' : Session} {expected : Bool}
    (validated : validateSubPacket env validatePackets pack s = .ok (expected, pack') s') :
    pack' = pack.advance 2 := by
  cases validatePackets with
  | true =>
    change onClient (validatePacket env pack) s = _ at validated
    cases read : Stream.parseNetShort pack with
    | error e pack'' =>
      simp only [onClient, validatePacket, read] at validated
      cases validated
    | ok seq pack'' =>
      obtain ⟨rfl, -⟩ := moves_read beNat 2 _ _ _ read
      simp only [onClient, validatePacket, read] at validated
      cases classified : classify seq s.client.clientSequence <;>
        simp only [classified, EStateM.Result.ok.injEq, Prod.mk.injEq] at validated <;>
        exact validated.1.2.symm
  | false =>
    obtain ⟨⟨⟨⟩, moved⟩, s'', skipped, rest⟩ := bind_ok_iff.mp validated
    obtain ⟨shifted, -⟩ := (parse_ok_iff _ _ _ _ _ _).mp skipped
    obtain ⟨rfl, -⟩ := moves_shiftOffset 2 _ _ _ shifted
    obtain ⟨eq, -⟩ := pure_ok_iff.mp rest
    exact (congrArg Prod.snd eq).symm

theorem validated_bind (env : Env) (validatePackets : Bool) (pack : Stream)
    (f g : Bool × Stream → HandlerM Unit)
    (eq : ∀ expected, f (expected, pack.advance 2) = g (expected, pack.advance 2)) :
    validateSubPacket env validatePackets pack >>= f =
      validateSubPacket env validatePackets pack >>= g := by
  funext s
  cases validated : validateSubPacket env validatePackets pack s with
  | error e s' => rw [bind_of_error validated, bind_of_error validated]
  | ok result s' =>
    obtain ⟨expected, pack'⟩ := result
    obtain rfl := validateSubPacket_moves validated
    rw [bind_of_ok validated, bind_of_ok validated, eq]

namespace SubPacket

variable (sub : SubPacket)

theorem handleSubPacket_process (env : Env) (drain : HandlerM Unit) (validatePackets : Bool) :
    handleSubPacket env drain validatePackets sub.blockSize sub.offset sub.opcode sub.body =
      sub.process env drain validatePackets := by
  by_cases data : sub.opcode = 0x0900
  · have seq : sub.Sequenced := Or.inl data
    rw [handleSubPacket, process, if_pos data, if_pos seq]
    refine validated_bind env validatePackets sub.body _ _ fun expected => ?_
    simp only [handleDataChannelMultiPacket_run, plan, if_pos data]
    rfl
  -- the order of the tests does not matter, since the opcodes are different
  by_cases fragment : sub.opcode = 0x0D00
  · have seq : sub.Sequenced := Or.inr fragment
    rw [handleSubPacket, process, if_neg data, if_neg (by omega), if_neg (by omega),
      if_neg (by omega), if_pos fragment, if_pos seq]
    refine validated_bind env validatePackets sub.body _ _ fun expected => ?_
    have piece := run_cut_done env .fragment (sub.body.advance 2) (sub.body.advance 2).offset
      (min (((sub.body.advance 2).offset : Int) + sub.blockSize - 4) (sub.body.advance 2).size)
    have planned : sub.plan.run env sub.pack.elementData = _ :=
      (congrArg (Plan.run env sub.pack.elementData)
        ((if_neg data).trans (if_pos fragment))).trans piece.symm
    simp only [planned, handOut, bind_assoc, pure_bind]
  have unsequenced : ¬ sub.Sequenced := not_or.mpr ⟨data, fragment⟩
  by_cases named : sub.opcode = 0x1100 ∨ sub.opcode = 0x1500 ∨ sub.opcode = 0x0001
  · rw [handleSubPacket, process, if_neg data, if_neg unsequenced, plan, if_neg data,
      if_neg fragment, if_pos named, control]
    rcases named with code | code | code <;> rw [code] <;> rfl
  · rw [handleSubPacket, process, if_neg data, if_neg unsequenced, plan, if_neg data,
      if_neg fragment, if_neg named, control]
    simp only [not_or] at named
    rw [if_neg named.1, if_neg named.2.1, if_neg named.2.2, if_neg fragment, if_neg named.1,
      if_neg named.2.1, if_neg named.2.2]
    refine Eq.trans ?_ bind_pure_unit.symm
    by_cases low : sub.opcode / 256 = 0
    · rw [if_pos low, if_pos low]
      exact run_cut_done env .message sub.body _ _
    · rw [if_neg low, if_neg low]
      rfl

end SubPacket

/-! ### Where the pieces lie -/

variable {pack : Stream} {piece : Piece} {pieces : List Piece}

theorem mem_cut {handout : Handout} {startoffs endoffs : Int} {next : Plan} :
    piece ∈ (Plan.cut handout pack startoffs endoffs next).pieces ↔
      (0 ≤ startoffs ∧ startoffs ≤ endoffs ∧ endoffs ≤ pack.size) ∧
        (piece = ⟨handout, startoffs.toNat, endoffs.toNat⟩ ∨ piece ∈ next.pieces) := by
  rw [Plan.cut]
  split
  · simp
    omega
  split
  · simp
    omega
  split
  · simp
    omega
  · rw [List.mem_cons]
    exact (and_iff_right (by omega)).symm

theorem mem_after {α : Type} {m : StreamM α} {next : α → Stream → Plan} :
    piece ∈ (Plan.after m pack next).pieces ↔
      ∃ a pack', m pack = .ok a pack' ∧ piece ∈ (next a pack').pieces := by
  rw [Plan.after]
  cases read : m pack with
  | ok a pack' => simp
  | error e pack' => simp

theorem mem_blockPlan (size fuel parsedsize : Nat) (pack : Stream) (piece : Piece)
    (mem : piece ∈ (blockPlan size fuel parsedsize pack).pieces) :
    piece.handout = .message ∧ pack.offset ≤ piece.start ∧ piece.stop ≤ pack.size := by
  induction fuel generalizing parsedsize pack with
  | zero => cases mem
  | succ fuel ih =>
    rw [blockPlan] at mem
    split at mem
    · obtain ⟨blockSize, block, read, cut⟩ := mem_after.mp mem
      obtain ⟨n, -, rfl, -⟩ := blockSizeAt_moves pack blockSize block read
      obtain ⟨bounds, here | later⟩ := mem_cut.mp cut
      · subst here
        simp only [Stream.advance, Stream.size] at bounds ⊢
        exact ⟨trivial, by omega, by omega⟩
      · obtain ⟨_, rest, moved, mem⟩ := mem_after.mp later
        obtain ⟨rfl, -⟩ := moves_shiftOffset blockSize _ _ _ moved
        obtain ⟨message, low, high⟩ := ih _ _ mem
        simp only [Stream.advance, Stream.size] at low high ⊢
        exact ⟨message, by omega, high⟩
    · cases mem

theorem mem_handedOut {env : Env} {data : List UInt8} {s : Session}
    (handed : piece ∈ handedOut env data pieces s) : piece ∈ pieces := by
  induction pieces generalizing s with
  | nil => cases handed
  | cons first rest ih =>
    rcases List.mem_cons.mp handed with rfl | later
    · exact List.mem_cons_self
    · split at later
      · exact List.mem_cons_of_mem _ (ih later)
      · cases later

theorem exists_handedOut (env : Env) (data : List UInt8) (found : pieces ≠ []) (s : Session) :
    ∃ piece ∈ pieces, piece ∈ handedOut env data pieces s := by
  cases pieces with
  | nil => exact absurd rfl found
  | cons first rest => exact ⟨first, List.mem_cons_self, List.mem_cons_self⟩

theorem handedOut_messages (data : List UInt8) (pieces : List Piece)
    (messages : ∀ piece ∈ pieces, piece.handout = .message) (s : Session) :
    handedOut Env.plain data pieces s = pieces := by
  induction pieces generalizing s with
  | nil => rfl
  | cons first rest ih =>
    have taken : handOut Env.plain first.handout (first.bytes data) s =
        .ok () { s with messages := s.messages ++ [first.bytes data] } := by
      rw [messages first List.mem_cons_self]
      rfl
    rw [handedOut, taken]
    simp only [ih (fun piece mem => messages piece (List.mem_cons_of_mem _ mem))]

namespace SubPacket

variable (sub : SubPacket)

def opCount : Nat := leNat ((sub.body.advance 2).unread.take 2)

/-- Only bytes of the sub-packet, and of the packet. -/
def Covers (piece : Piece) : Prop :=
  ∀ i, piece.start ≤ i → i < piece.stop →
    sub.offset ≤ i ∧ i < sub.offset + sub.blockSize ∧ i < sub.pack.size

/-- A Data Channel sub-packet carries no other header, unless nothing is behind it or the packet
ends before the four bytes too many, and its blocks are no longer than what is left of it. -/
def Contained : Prop :=
  sub.opcode = 0x0900 →
    ((sub.opCount = 0x0D00 ∨ sub.opCount = 0x0900) →
      sub.blockSize ≤ 4 ∨ sub.pack.size < sub.offset + sub.blockSize + 4) ∧
    (sub.opCount = 0x1900 → ∀ block ∈ sub.plan.pieces, block.start < block.stop →
      block.stop ≤ sub.offset + sub.blockSize)

variable (data : sub.opcode = 0x0900)
include data

theorem mem_plan_data (piece : Piece) :
    piece ∈ sub.plan.pieces ↔ sub.offset + 6 ≤ sub.pack.size ∧
      piece ∈ (countedPlan sub.blockSize sub.opCount ((sub.body.advance 2).advance 2)).pieces := by
  have planned : sub.plan = dataPlan sub.blockSize (sub.body.advance 2) := if_pos data
  have pos : (sub.body.advance 2).offset + 2 = sub.offset + 6 := rfl
  have size : (sub.body.advance 2).size = sub.pack.size := rfl
  rw [planned, dataPlan, mem_after]
  constructor
  · rintro ⟨opCount, pack', read, mem⟩
    obtain ⟨-, hin⟩ := moves_read leNat 2 _ _ _ read
    rw [readShort_eq _ hin] at read
    cases read
    exact ⟨by omega, mem⟩
  · rintro ⟨hin, mem⟩
    exact ⟨_, _, readShort_eq (sub.body.advance 2) (by omega), mem⟩

theorem mem_plan_nested {handout : Handout} (nested : sub.opCount = 0x0D00 ∧ handout = .fragment ∨
      sub.opCount = 0x0900 ∧ handout = .message) (piece : Piece) :
    piece ∈ sub.plan.pieces ↔
      (4 ≤ sub.blockSize ∧ sub.offset + sub.blockSize + 4 ≤ sub.pack.size) ∧
        piece = ⟨handout, sub.offset + 8, sub.offset + sub.blockSize + 4⟩ := by
  have planned : countedPlan sub.blockSize sub.opCount ((sub.body.advance 2).advance 2) =
      .after (Stream.shiftOffset 2) ((sub.body.advance 2).advance 2) fun _ pack =>
        .cut handout pack pack.offset (pack.offset + ((sub.blockSize : Int) - 4)) .done := by
    rcases nested with ⟨counted, rfl⟩ | ⟨counted, rfl⟩ <;> rw [counted] <;> rfl
  have pos : ((sub.body.advance 2).advance 2).offset + 2 = sub.offset + 8 := rfl
  have size : ((sub.body.advance 2).advance 2).size = sub.pack.size := rfl
  have behind : (((sub.body.advance 2).advance 2).advance 2).offset = sub.offset + 8 := rfl
  have whole : (((sub.body.advance 2).advance 2).advance 2).size = sub.pack.size := rfl
  rw [mem_plan_data sub data, planned, mem_after]
  constructor
  · rintro ⟨-, _, pack', moved, mem⟩
    obtain ⟨rfl, -⟩ := moves_shiftOffset 2 _ _ _ moved
    obtain ⟨bounds, rfl | none⟩ := mem_cut.mp mem
    · refine ⟨by omega, ?_⟩
      rw [behind, Piece.mk.injEq]
      exact ⟨rfl, by omega, by omega⟩
    · cases none
  · rintro ⟨⟨four, hin⟩, rfl⟩
    refine ⟨by omega, (), _, Stream.shiftOffset_inside 2 _ (by omega), mem_cut.mpr ?_⟩
    rw [behind, whole, Piece.mk.injEq]
    exact ⟨by omega, Or.inl ⟨rfl, by omega, by omega⟩⟩

theorem covers_single (several : sub.opCount ≠ 0x1900) (fragment : sub.opCount ≠ 0x0D00)
    (nested : sub.opCount ≠ 0x0900) {piece : Piece} (mem : piece ∈ sub.plan.pieces) :
    sub.Covers piece := by
  have pos : ((sub.body.advance 2).advance 2).offset = sub.offset + 6 := rfl
  have size : ((sub.body.advance 2).advance 2).size = sub.pack.size := rfl
  obtain ⟨-, counted⟩ := (mem_plan_data sub data piece).mp mem
  rw [countedPlan, if_neg several, if_neg fragment, if_neg nested] at counted
  obtain ⟨bounds, rfl | none⟩ := mem_cut.mp counted
  · intro i low high
    simp only [pos] at low high
    omega
  · cases none

theorem mem_plan_several (several : sub.opCount = 0x1900) {piece : Piece}
    (mem : piece ∈ sub.plan.pieces) :
    piece.handout = .message ∧ sub.offset + 6 ≤ piece.start ∧ piece.stop ≤ sub.pack.size := by
  obtain ⟨-, counted⟩ := (mem_plan_data sub data piece).mp mem
  rw [countedPlan, if_pos several] at counted
  exact mem_blockPlan _ _ _ _ piece counted

omit data

theorem covers_other (data : sub.opcode ≠ 0x0900) {piece : Piece}
    (mem : piece ∈ sub.plan.pieces) : sub.Covers piece := by
  have pos : (sub.body.advance 2).offset = sub.offset + 4 := rfl
  have size : (sub.body.advance 2).size = sub.pack.size := rfl
  have whole : sub.body.size = sub.pack.size := rfl
  rw [plan, if_neg data] at mem
  intro i low high
  split at mem
  · obtain ⟨bounds, rfl | none⟩ := mem_cut.mp mem
    · simp only [pos, size] at low high
      omega
    · cases none
  split at mem
  · cases mem
  split at mem
  · obtain ⟨bounds, rfl | none⟩ := mem_cut.mp mem
    · simp only at low high
      omega
    · cases none
  · cases mem

theorem covers_of_contained (contained : sub.Contained) (piece : Piece)
    (mem : piece ∈ sub.plan.pieces) : sub.Covers piece := by
  by_cases data : sub.opcode = 0x0900
  · obtain ⟨nested, blocks⟩ := contained data
    by_cases several : sub.opCount = 0x1900
    · obtain ⟨-, low, high⟩ := sub.mem_plan_several data several mem
      intro i above below
      have ends := blocks several piece mem (by omega)
      omega
    have header : ∀ handout, (sub.opCount = 0x0D00 ∧ handout = Handout.fragment ∨
        sub.opCount = 0x0900 ∧ handout = Handout.message) → sub.Covers piece := by
      intro handout counted
      obtain ⟨bounds, rfl⟩ := (sub.mem_plan_nested data counted piece).mp mem
      have short := nested (counted.imp And.left And.left)
      intro i low high
      simp only at low high
      omega
    by_cases fragment : sub.opCount = 0x0D00
    · exact header .fragment (Or.inl ⟨fragment, rfl⟩)
    by_cases message : sub.opCount = 0x0900
    · exact header .message (Or.inr ⟨message, rfl⟩)
    · exact sub.covers_single data several fragment message mem
  · exact sub.covers_other data mem

theorem handedOut_replayed (data : sub.opcode = 0x0900) (found : sub.plan.pieces ≠ [])
    (env : Env) (s : Session) :
    sub.handedOut env false s =
      BasePacketHandler.handedOut env sub.pack.elementData sub.plan.pieces s := by
  obtain ⟨piece, mem⟩ := List.exists_mem_of_ne_nil _ found
  obtain ⟨hin, -⟩ := (sub.mem_plan_data data piece).mp mem
  have pos : sub.body.offset + 2 = sub.offset + 4 := rfl
  have size : sub.body.size = sub.pack.size := rfl
  have skipped := Stream.shiftOffset_inside 2 sub.body (by omega)
  have validated : validateSubPacket env false sub.body s = .ok (true, sub.body.advance 2) s :=
    (bind_of_ok (parse_of_ok skipped)).trans rfl
  have seq : sub.Sequenced := Or.inl data
  rw [handedOut, if_pos seq, validated]

theorem contained_of_covers
    (covers : ∀ env validatePackets s, ∀ piece ∈ sub.handedOut env validatePackets s,
      sub.Covers piece) : sub.Contained := by
  intro data
  have replayed : ∀ piece ∈ BasePacketHandler.handedOut Env.plain sub.pack.elementData
      sub.plan.pieces (Session.start (initialized 0)), sub.Covers piece := by
    intro piece handed
    apply covers Env.plain false (Session.start (initialized 0)) piece
    rwa [sub.handedOut_replayed data (List.ne_nil_of_mem (mem_handedOut handed))]
  constructor
  · intro counted
    by_contra long
    have header : ∃ handout, sub.opCount = 0x0D00 ∧ handout = Handout.fragment ∨
        sub.opCount = 0x0900 ∧ handout = Handout.message := by
      rcases counted with fragment | message
      · exact ⟨.fragment, Or.inl ⟨fragment, rfl⟩⟩
      · exact ⟨.message, Or.inr ⟨message, rfl⟩⟩
    obtain ⟨handout, nested⟩ := header
    have mem := (sub.mem_plan_nested data nested _).mpr ⟨by omega, rfl⟩
    obtain ⟨piece, planned, handed⟩ := exists_handedOut Env.plain sub.pack.elementData
      (List.ne_nil_of_mem mem) (Session.start (initialized 0))
    obtain ⟨-, rfl⟩ := (sub.mem_plan_nested data nested piece).mp planned
    -- the last of the four bytes too many
    obtain ⟨-, below, -⟩ := replayed _ handed (sub.offset + sub.blockSize + 3)
      (show sub.offset + 8 ≤ _ by omega) (Nat.lt_succ_self _)
    omega
  · intro several block mem some
    have all := handedOut_messages sub.pack.elementData sub.plan.pieces
      (fun piece mem => (sub.mem_plan_several data several mem).1)
      (Session.start (initialized 0))
    rw [all] at replayed
    obtain ⟨-, below, -⟩ := replayed block mem (block.stop - 1) (by omega) (by omega)
    omega

end SubPacket

/-- The handler hands out bytes of the sub-packet only, exactly for the contained ones. -/
theorem subPacket_contained_iff (sub : SubPacket) :
    (∀ env drain validatePackets,
      handleSubPacket env drain validatePackets sub.blockSize sub.offset sub.opcode sub.body =
        sub.process env drain validatePackets) ∧
    ((∀ env validatePackets s, ∀ piece ∈ sub.handedOut env validatePackets s, sub.Covers piece) ↔
      sub.Contained) := by
  refine ⟨sub.handleSubPacket_process, sub.contained_of_covers, ?_⟩
  intro contained env validatePackets s piece handed
  apply sub.covers_of_contained contained
  rw [SubPacket.handedOut] at handed
  split at handed
  · split at handed
    · exact mem_handedOut handed
    · cases handed
  · exact mem_handedOut handed

def nestedHeader : List UInt8 :=
  [0, 3, 9, 0, 9, 0, 0, 0, 9, 0, 0, 65, 4, 2, 0, 66, 67]

theorem nestedHeader_spills :
    let sub : SubPacket := ⟨⟨nestedHeader, 2⟩, by decide⟩
    let s := Session.start (initialized 0)
    sub.handedOut Env.plain true s = [⟨.message, 11, 16⟩] ∧
      ¬ sub.Covers ⟨.message, 11, 16⟩ ∧
      (finalState (handleMultiPacket Env.plain ⟨nestedHeader, 2⟩ s)).messages =
        [[65, 4, 2, 0, 66], [2, 0, 66, 67]] := by
  refine ⟨by decide +kernel, fun covers => ?_, by decide +kernel⟩
  obtain ⟨-, below, -⟩ := covers 12 (by decide) (by decide)
  exact absurd below (by decide)

end Engine3.BasePacketHandler
