import Engine3.Library.Exec
import Engine3.Library.MachineInt
import Engine3.System.Stream

/-!
# Broker message framing

`engine/orb/messages/DOBServiceClient::receiveMessages` and `system/net/Socket::readAppend`. A
broker message is prefixed with its total length. The receive loop appends what the socket
has to a packet, takes complete messages off its front and keeps the rest for the next read.

The packet is modelled with the memory behind it, because `readAppend` leaves a byte of that
memory at the packet's end, and with the capacity of its buffer, because it does not make room for
all that it receives. A write behind the buffer is an error here.
-/
namespace Engine3

open Bytes MachineInt Exec List

structure ReceivePacket where
  elementData : Nat → UInt8
  elementCount : Nat
  elementCapacity : Nat
  capacityIncrement : Nat
  offset : Nat

namespace ReceivePacket

def rawMaxSize : Nat := 496

def new (memory : Nat → UInt8) : ReceivePacket := ⟨memory, 0, rawMaxSize, rawMaxSize, 0⟩

def size (p : ReceivePacket) : Nat := p.elementCount

def contents (p : ReceivePacket) : List UInt8 := (range p.elementCount).map p.elementData

def setOffset (offs : Nat) (p : ReceivePacket) : ReceivePacket := { p with offset := offs }

def reset (p : ReceivePacket) : ReceivePacket := { p with offset := 0 }

def removeFront (toIndex : Nat) (p : ReceivePacket) : ReceivePacket :=
  { p with
    elementData := fun i =>
      if i < p.elementCount - toIndex then p.elementData (i + toIndex) else p.elementData i
    elementCount := p.elementCount - toIndex }

def ensureCapacity (minCapacity : Nat) (p : ReceivePacket) : ReceivePacket :=
  if minCapacity > p.elementCapacity then
    let newCapacity := if p.capacityIncrement > 0 then p.elementCapacity + p.capacityIncrement
      else p.elementCapacity * 2
    { p with
      elementCapacity := max newCapacity minCapacity
      capacityIncrement := p.capacityIncrement * 2 }
  else p

def setSize (len : Nat) (p : ReceivePacket) : ReceivePacket :=
  { (if len > p.elementCount then p.ensureCapacity len else p) with elementCount := len }

def extendSize (len : Int) (p : ReceivePacket) : ReceivePacket :=
  let offset := (p.offset + len).toNat
  { (if offset > p.elementCount then p.setSize offset else p) with offset }

def write (offset : Nat) (received : List UInt8) (p : ReceivePacket) : ReceivePacket :=
  { p with elementData := fun i =>
      if offset ≤ i then (received[i - offset]?).getD (p.elementData i) else p.elementData i }

def extended (p : ReceivePacket) : ReceivePacket :=
  if (p.size : Int) - p.offset < rawMaxSize then
    p.extendSize ((rawMaxSize : Int) - p.offset + 1)
  else p

def readAppend (received : List UInt8) (p : ReceivePacket) : Except Exception ReceivePacket :=
  if p.offset + received.length > p.extended.elementCapacity then
    .error (.abort "recv writes behind the buffer")
  else
    let appended := ((p.extended.write p.offset received).setSize (received.length + p.size)).reset
    if appended.elementCapacity < 2 ^ 31 then .ok appended
    else .error (.abort "the capacity is not an int")

@[simp] theorem setSize_elementData (len : Nat) (p : ReceivePacket) :
    (p.setSize len).elementData = p.elementData := by
  unfold setSize ensureCapacity
  split_ifs <;> rfl

theorem setSize_write_elementCapacity (len offset : Nat) (received : List UInt8)
    (p : ReceivePacket) :
    ((p.write offset received).setSize len).elementCapacity = (p.setSize len).elementCapacity := by
  by_cases larger : len > p.elementCount <;> by_cases grows : len > p.elementCapacity <;>
    simp [setSize, ensureCapacity, write, larger, grows]

theorem extended_elementData (p : ReceivePacket) : p.extended.elementData = p.elementData := by
  unfold extended extendSize
  split
  · dsimp only
    split
    · exact setSize_elementData _ _
    · rfl
  · rfl

@[simp] theorem length_contents (p : ReceivePacket) : p.contents.length = p.size := by
  simp [contents, size]

theorem contents_removeFront (toIndex : Nat) (p : ReceivePacket) :
    (p.removeFront toIndex).contents = p.contents.drop toIndex := by
  apply ext_getElem
  · simp [removeFront, size]
  · intro i hin _
    have inRange : i < p.elementCount - toIndex := by
      simpa [removeFront, size] using hin
    simp [contents, removeFront, inRange, Nat.add_comm]

end ReceivePacket

structure DOBServiceClient where
  packet : ReceivePacket
  messageSize : Int
  handled : List (List UInt8)

abbrev ReceiveM := EStateM Exception DOBServiceClient

namespace DOBServiceClient

def handleMessages : Nat → ReceiveM Unit
  | 0 => fun c => if c.packet.size > 0 then .error (.abort "out of fuel") c else .ok () c
  | fuel + 1 => fun c =>
    if c.packet.size > 0 then
      if c.messageSize ≠ 0 ∧ c.messageSize ≤ c.packet.size then
        -- a negative length reaches memcpy as a size_t
        if c.messageSize < 0 then .error (.abort "memcpy of a negative length") c
        else
          handleMessages fuel
            { packet := c.packet.reset.removeFront c.messageSize.toNat
              messageSize := 0
              handled := c.handled ++ [c.packet.contents.take c.messageSize.toNat] }
      else if c.messageSize = 0 then
        if c.packet.size ≥ 4 then
          handleMessages fuel { c with
            packet := c.packet.reset.removeFront 4
            messageSize := i32 ((leNat (c.packet.contents.take 4) : Int) - 4) }
        else .ok () c
      else .ok () c
    else .ok () c

def rewind (packet : ReceivePacket) : ReceivePacket :=
  if packet.size > 0 then packet.setOffset (packet.size - 1) else packet.reset

def receive (chunk : List UInt8) : ReceiveM Unit := fun c =>
  match (rewind c.packet).readAppend chunk with
  | .ok packet => handleMessages packet.size { c with packet }
  | .error e => .error e c

def receiveMessages : List (List UInt8) → ReceiveM Unit
  | [] => pure ()
  | [] :: _ => pure ()
  | (b :: bytes) :: rest => do
    receive (b :: bytes)
    receiveMessages rest

def start (memory : Nat → UInt8) : DOBServiceClient :=
  { packet := .new memory, messageSize := 0, handled := [] }

/-! ### What a read leaves in the packet -/

structure Intact (packet : ReceivePacket) (chunk : List UInt8) : Prop where
  /-- It ends inside the buffer. -/
  inside : packet.size - 1 + chunk.length ≤ (rewind packet).extended.elementCapacity
  /-- The buffer is no larger afterwards than an `int` says. -/
  int : ((rewind packet).extended.setSize (chunk.length + packet.size)).elementCapacity < 2 ^ 31
  /-- Nothing is left over from the read before, or the last byte left over, every byte of the
  chunk and the byte of the memory behind them are one and the same. -/
  same : packet.size = 0 ∨
    (∀ b ∈ chunk, b = packet.elementData (packet.size - 1)) ∧
      packet.elementData (packet.size - 1 + chunk.length) = packet.elementData (packet.size - 1)

theorem cons_eq_append_iff (first last : UInt8) (bytes : List UInt8) :
    first :: bytes = bytes ++ [last] ↔ (∀ b ∈ bytes, b = first) ∧ last = first := by
  induction bytes generalizing first with
  | nil => simp [eq_comm]
  | cons b bytes ih =>
    simp only [cons_append, cons.injEq, ih, mem_cons, forall_eq_or_imp]
    constructor
    · rintro ⟨rfl, eq, stale⟩
      exact ⟨⟨rfl, eq⟩, stale⟩
    · rintro ⟨⟨rfl, eq⟩, stale⟩
      exact ⟨rfl, eq, stale⟩

@[simp] theorem rewind_offset (packet : ReceivePacket) :
    (rewind packet).offset = packet.size - 1 := by
  unfold rewind
  split_ifs with left
  · rfl
  · simp only [ReceivePacket.reset]
    omega

@[simp] theorem rewind_size (packet : ReceivePacket) : (rewind packet).size = packet.size := by
  unfold rewind
  split_ifs <;> rfl

@[simp] theorem rewind_elementData (packet : ReceivePacket) :
    (rewind packet).elementData = packet.elementData := by
  unfold rewind
  split_ifs <;> rfl

def appended (packet : ReceivePacket) (chunk : List UInt8) : ReceivePacket :=
  (((rewind packet).extended.write (packet.size - 1) chunk).setSize
    (chunk.length + packet.size)).reset

theorem readAppend_ok_iff (packet packet' : ReceivePacket) (chunk : List UInt8) :
    (rewind packet).readAppend chunk = .ok packet' ↔
      packet.size - 1 + chunk.length ≤ (rewind packet).extended.elementCapacity ∧
        ((rewind packet).extended.setSize (chunk.length + packet.size)).elementCapacity < 2 ^ 31 ∧
        packet' = appended packet chunk := by
  have capacity : (appended packet chunk).elementCapacity =
      ((rewind packet).extended.setSize (chunk.length + packet.size)).elementCapacity :=
    ReceivePacket.setSize_write_elementCapacity ..
  have expanded : (rewind packet).readAppend chunk =
      if packet.size - 1 + chunk.length > (rewind packet).extended.elementCapacity then
        .error (.abort "recv writes behind the buffer")
      else if (appended packet chunk).elementCapacity < 2 ^ 31 then .ok (appended packet chunk)
      else .error (.abort "the capacity is not an int") := by
    simp only [ReceivePacket.readAppend, rewind_offset, rewind_size, appended]
    rfl
  rw [expanded, capacity]
  split_ifs with outside int
  · constructor
    · rintro ⟨⟩
    · rintro ⟨inside, -⟩
      omega
  · constructor
    · rintro ⟨⟩
      exact ⟨by omega, int, rfl⟩
    · rintro ⟨-, -, rfl⟩
      rfl
  · constructor
    · rintro ⟨⟩
    · rintro ⟨-, small, -⟩
      exact absurd small int

theorem contents_appended {packet : ReceivePacket} (chunk : List UInt8) (left : 0 < packet.size) :
    (appended packet chunk).contents =
      packet.contents.take (packet.size - 1) ++
        (chunk ++ [packet.elementData (packet.size - 1 + chunk.length)]) := by
  have data : (appended packet chunk).elementData =
      fun i => if packet.size - 1 ≤ i then
        (chunk[i - (packet.size - 1)]?).getD (packet.elementData i) else packet.elementData i := by
    simp [appended, ReceivePacket.reset, ReceivePacket.write,
      ReceivePacket.extended_elementData]
  have count : (appended packet chunk).elementCount = chunk.length + packet.size := rfl
  simp only [ReceivePacket.size] at left
  simp only [ReceivePacket.contents, data, count]
  simp only [ReceivePacket.size]
  apply ext_getElem
  · simp
    omega
  · intro i inside _
    simp only [length_map, length_range] at inside
    simp only [getElem_map, getElem_range, getElem_append, length_take,
      length_map, length_range, getElem_take, getElem_singleton]
    -- in front of the cursor, in the chunk, or the one byte behind it
    rcases Nat.lt_or_ge i (packet.elementCount - 1) with before | behind
    · rw [if_neg (by omega), dif_pos (by omega)]
    · rw [if_pos behind, dif_neg (by omega)]
      have shift : i - min (packet.elementCount - 1) packet.elementCount =
          i - (packet.elementCount - 1) := by omega
      rcases Nat.lt_or_ge (i - (packet.elementCount - 1)) chunk.length with fits | past
      · simp [fits]
      · have last : i = packet.elementCount - 1 + chunk.length := by omega
        simp [last]

theorem contents_take_last {packet : ReceivePacket} (left : 0 < packet.size) :
    packet.contents =
      packet.contents.take (packet.size - 1) ++ [packet.elementData (packet.size - 1)] := by
  simp only [ReceivePacket.size] at left
  obtain ⟨n, counted⟩ := Nat.exists_eq_add_of_lt left
  simp [ReceivePacket.contents, ReceivePacket.size, counted, range_succ]

theorem contents_appended_iff (packet : ReceivePacket) (chunk : List UInt8) :
    (appended packet chunk).contents = packet.contents ++ chunk ↔
      packet.size = 0 ∨
        (∀ b ∈ chunk, b = packet.elementData (packet.size - 1)) ∧
          packet.elementData (packet.size - 1 + chunk.length) =
            packet.elementData (packet.size - 1) := by
  rcases Nat.eq_zero_or_pos packet.size with none | left
  · have empty : packet.contents = [] := by
      rw [← length_eq_zero_iff, ReceivePacket.length_contents, none]
    have filled : (appended packet chunk).contents = chunk := by
      apply ext_getElem
      · simp [appended, ReceivePacket.contents, ReceivePacket.reset, ReceivePacket.setSize, none]
      · intro i _ inside
        simp [ReceivePacket.contents, appended, ReceivePacket.reset, ReceivePacket.write, none,
          inside]
    simp [filled, empty, none]
  · have ne : packet.size ≠ 0 := by omega
    have whole := contents_take_last left
    rw [contents_appended chunk left]
    generalize packet.contents.take (packet.size - 1) = initial at whole ⊢
    rw [whole, append_assoc, singleton_append, append_cancel_left_eq, eq_comm,
      cons_eq_append_iff]
    simp [ne]

theorem contents_readAppend_iff (packet : ReceivePacket) (chunk : List UInt8) :
    (∃ packet', (rewind packet).readAppend chunk = .ok packet' ∧
      packet'.contents = packet.contents ++ chunk) ↔ Intact packet chunk := by
  constructor
  · rintro ⟨packet', read, right⟩
    obtain ⟨inside, int, rfl⟩ := (readAppend_ok_iff packet packet' chunk).mp read
    exact ⟨inside, int, (contents_appended_iff packet chunk).mp right⟩
  · rintro ⟨inside, int, same⟩
    exact ⟨_, (readAppend_ok_iff packet _ chunk).mpr ⟨inside, int, rfl⟩,
      (contents_appended_iff packet chunk).mpr same⟩

theorem Intact.of_empty {packet : ReceivePacket} {chunk : List UInt8} (none : packet.size = 0)
    (short : chunk.length ≤ ReceivePacket.rawMaxSize)
    (allocated : ReceivePacket.rawMaxSize < packet.elementCapacity)
    (int : packet.elementCapacity < 2 ^ 31) : Intact packet chunk := by
  have cursor : rewind packet = packet.reset := if_neg (by omega)
  have count : packet.elementCount = 0 := none
  have extended : (rewind packet).extended =
      { packet with elementCount := ReceivePacket.rawMaxSize + 1
                    offset := ReceivePacket.rawMaxSize + 1 } := by
    have enough : ¬ packet.elementCapacity < ReceivePacket.rawMaxSize + 1 := by omega
    have positive : 0 < ReceivePacket.rawMaxSize := by decide
    simp [cursor, ReceivePacket.extended, ReceivePacket.extendSize, ReceivePacket.reset,
      ReceivePacket.size, ReceivePacket.setSize, ReceivePacket.ensureCapacity, count, enough,
      positive]
  have kept : ¬ chunk.length + packet.size > ReceivePacket.rawMaxSize + 1 := by omega
  refine ⟨?_, ?_, .inl none⟩
  · rw [extended]
    dsimp only
    omega
  · rw [extended, ReceivePacket.setSize, if_neg kept]
    exact int

/-! ### The stream of messages -/

def frame (body : List UInt8) : List UInt8 := leBytes 4 (body.length + 4) ++ body

def wire (bodies : List (List UInt8)) : List UInt8 := bodies.flatMap frame

/-- The total length is an `int`, and a message is more than its length. -/
def Sendable (body : List UInt8) : Prop := body ≠ [] ∧ body.length + 4 < 2 ^ 31

inductive Rest
  | length (later : List (List UInt8))
  | body (first : List UInt8) (later : List (List UInt8))

namespace Rest

def bytes : Rest → List UInt8
  | length later => wire later
  | body first later => first ++ wire later

def bodies : Rest → List (List UInt8)
  | length later => later
  | body first later => first :: later

def messageSize : Rest → Int
  | length _ => 0
  | body first _ => first.length

theorem bytes_pos (r : Rest) (sendable : ∀ b ∈ r.bodies, Sendable b) :
    r.bodies = [] ∨ 0 < r.bytes.length := by
  cases r with
  | length later =>
    cases later with
    | nil => exact .inl rfl
    | cons b later => simp [bytes, wire, frame]
  | body first later =>
    have ne : first ≠ [] := (sendable first (by simp [bodies])).1
    right
    simp only [bytes, length_append]
    have := length_pos_iff.mpr ne
    omega

end Rest

structure Tracks (c : DOBServiceClient) (r : Rest) (back : List UInt8) : Prop where
  split : r.bytes = c.packet.contents ++ back
  messageSize : c.messageSize = r.messageSize

theorem handleMessages_length (fuel : Nat) (c : DOBServiceClient) (first : List UInt8)
    (later : List (List UInt8)) (back : List UInt8) (sendable : Sendable first)
    (tracks : Tracks c (.length (first :: later)) back) (complete : 4 ≤ c.packet.size) :
    ∃ c', handleMessages (fuel + 1) c = handleMessages fuel c' ∧
      Tracks c' (.body first later) back ∧ c'.packet.size = c.packet.size - 4 ∧
      c'.handled = c.handled := by
  have split : leBytes 4 (first.length + 4) ++ (first ++ wire later) =
      c.packet.contents ++ back := by
    simpa [Rest.bytes, wire, frame] using tracks.split
  have none : c.messageSize = 0 := tracks.messageSize
  have width : (leBytes 4 (first.length + 4)).length = 4 := length_leBytes 4 _
  have fits : 4 ≤ c.packet.contents.length := by simpa using complete
  have header : c.packet.contents.take 4 = leBytes 4 (first.length + 4) := by
    have := congrArg (take 4) split
    rwa [take_append_of_le_length fits, take_left' width, eq_comm] at this
  have rest : first ++ wire later = c.packet.contents.drop 4 ++ back := by
    have := congrArg (drop 4) split
    rwa [drop_append_of_le_length fits, drop_left' width] at this
  -- the length counts its own four bytes
  have val : i32 ((leNat (c.packet.contents.take 4) : Int) - 4) = first.length := by
    have lt := sendable.2
    rw [header, leNat_leBytes, Nat.mod_eq_of_lt (by omega), i32_of_small _ (by omega) (by omega)]
    omega
  refine ⟨{ c with
    packet := c.packet.reset.removeFront 4
    messageSize := i32 ((leNat (c.packet.contents.take 4) : Int) - 4) }, ?_, ⟨?_, val⟩, rfl, rfl⟩
  · simp [handleMessages, none, complete, show 0 < c.packet.size by omega]
  · rw [ReceivePacket.contents_removeFront]
    exact rest

theorem handleMessages_body (fuel : Nat) (c : DOBServiceClient) (first : List UInt8)
    (later : List (List UInt8)) (back : List UInt8) (sendable : Sendable first)
    (tracks : Tracks c (.body first later) back) (complete : first.length ≤ c.packet.size) :
    ∃ c', handleMessages (fuel + 1) c = handleMessages fuel c' ∧
      Tracks c' (.length later) back ∧ c'.packet.size = c.packet.size - first.length ∧
      c'.handled = c.handled ++ [first] := by
  have split : first ++ wire later = c.packet.contents ++ back := tracks.split
  have size : c.messageSize = first.length := tracks.messageSize
  have pos : 0 < first.length := length_pos_iff.mpr sendable.1
  have fits : first.length ≤ c.packet.contents.length := by simpa using complete
  have taken : c.packet.contents.take first.length = first := by
    have := congrArg (take first.length) split
    rwa [take_append_of_le_length fits, take_left, eq_comm] at this
  have rest : wire later = c.packet.contents.drop first.length ++ back := by
    have := congrArg (drop first.length) split
    rwa [drop_append_of_le_length fits, drop_left] at this
  refine ⟨{
    packet := c.packet.reset.removeFront first.length
    messageSize := 0
    handled := c.handled ++ [first] }, ?_, ⟨?_, rfl⟩, rfl, rfl⟩
  · have ready : c.messageSize ≠ 0 ∧ c.messageSize ≤ c.packet.size := by omega
    have sign : ¬ c.messageSize < 0 := by omega
    simp only [handleMessages]
    rw [if_pos (by omega), if_pos ready, if_neg sign, size, Int.toNat_natCast, taken]
  · rw [ReceivePacket.contents_removeFront]
    exact rest

theorem handleMessages_waits (fuel : Nat) (c : DOBServiceClient)
    (waits : c.packet.size = 0 ∨ c.messageSize = 0 ∧ c.packet.size < 4 ∨
      c.messageSize > c.packet.size) :
    handleMessages (fuel + 1) c = .ok () c := by
  rcases waits with empty | ⟨none, short⟩ | short
  · simp [handleMessages, empty]
  · simp [handleMessages, none, show ¬ 4 ≤ c.packet.size by omega]
  · have wanted : c.messageSize ≠ 0 := by omega
    simp [handleMessages, wanted, show ¬ c.messageSize ≤ c.packet.size by omega]

theorem handleMessages_tracks (fuel : Nat) (c : DOBServiceClient) (r : Rest) (back : List UInt8)
    (le : c.packet.size ≤ fuel) (sendable : ∀ b ∈ r.bodies, Sendable b)
    (tracks : Tracks c r back) :
    ∃ r' c' done, handleMessages fuel c = .ok () c' ∧ Tracks c' r' back ∧
      c'.handled = c.handled ++ done ∧ r.bodies = done ++ r'.bodies ∧
      (r'.bodies = [] ∨ c'.packet.size < r'.bytes.length) := by
  induction fuel generalizing c r with
  | zero =>
    have empty : c.packet.size = 0 := by omega
    exact ⟨r, c, [], if_neg (by omega), tracks, by simp, rfl,
      by simpa [empty] using r.bytes_pos sendable⟩
  | succ fuel ih =>
    have stays (waits : handleMessages (fuel + 1) c = .ok () c)
        (short : r.bodies = [] ∨ c.packet.size < r.bytes.length) :
        ∃ r' c' done, handleMessages (fuel + 1) c = .ok () c' ∧ Tracks c' r' back ∧
          c'.handled = c.handled ++ done ∧ r.bodies = done ++ r'.bodies ∧
          (r'.bodies = [] ∨ c'.packet.size < r'.bytes.length) :=
      ⟨r, c, [], waits, tracks, by simp, rfl, short⟩
    rcases Nat.eq_zero_or_pos c.packet.size with isEmpty | filled
    · exact stays (handleMessages_waits fuel c (.inl isEmpty))
        (by simpa [isEmpty] using r.bytes_pos sendable)
    -- the two kinds of rest are the two branches of the loop's body
    match r with
    | .length [] =>
      have len := congrArg length tracks.split
      simp only [Rest.bytes, wire, flatMap_nil, length_nil, length_append,
        ReceivePacket.length_contents] at len
      omega
    | .length (first :: later) =>
      by_cases complete : 4 ≤ c.packet.size
      · obtain ⟨c', round, tracks', size', handled'⟩ :=
          handleMessages_length fuel c first later back (sendable first (by simp [Rest.bodies]))
            tracks complete
        obtain ⟨r'', c'', done, ran, tracks'', handled'', eq, waits⟩ :=
          ih c' (.body first later) (by omega) sendable tracks'
        rw [handled'] at handled''
        exact ⟨r'', c'', done, round.trans ran, tracks'', handled'', eq, waits⟩
      · apply stays (handleMessages_waits fuel c (.inr (.inl ⟨tracks.messageSize, by omega⟩)))
        right
        simp only [Rest.bytes, wire, frame, flatMap_cons, length_append,
          length_leBytes]
        omega
    | .body first later =>
      have sendableFirst := sendable first (by simp [Rest.bodies])
      by_cases complete : first.length ≤ c.packet.size
      · obtain ⟨c', round, tracks', size', handled'⟩ :=
          handleMessages_body fuel c first later back sendableFirst tracks complete
        have pos : 0 < first.length := length_pos_iff.mpr sendableFirst.1
        obtain ⟨r'', c'', done, ran, tracks'', handled'', eq, waits⟩ :=
          ih c' (.length later) (by omega)
            (fun b mem => sendable b (mem_cons_of_mem _ mem)) tracks'
        rw [handled', append_assoc] at handled''
        exact ⟨r'', c'', first :: done, round.trans ran, tracks'', handled'',
          congrArg (first :: ·) eq, waits⟩
      · have size : c.messageSize = first.length := tracks.messageSize
        apply stays (handleMessages_waits fuel c (.inr (.inr (by omega))))
        right
        simp only [Rest.bytes, length_append]
        omega

/-! ### Whole connections -/

/-- Every read that the run comes to is intact. -/
def IntactRun (chunks : List (List UInt8)) (c : DOBServiceClient) : Prop :=
  ∀ before chunk after, chunks = before ++ chunk :: after →
    ∀ c', receiveMessages before c = .ok () c' → Intact c'.packet chunk

theorem receiveMessages_cons (chunk : List UInt8) (rest : List (List UInt8)) (ne : chunk ≠ []) :
    receiveMessages (chunk :: rest) = receive chunk >>= fun _ => receiveMessages rest := by
  obtain ⟨b, bytes, rfl⟩ := exists_cons_of_ne_nil ne
  rfl

variable {chunk : List UInt8} {rest : List (List UInt8)} {c : DOBServiceClient}

theorem IntactRun.head (intact : IntactRun (chunk :: rest) c) : Intact c.packet chunk :=
  intact [] chunk rest rfl c rfl

theorem IntactRun.tail {c' : DOBServiceClient} (intact : IntactRun (chunk :: rest) c)
    (ne : chunk ≠ []) (ran : receive chunk c = .ok () c') : IntactRun rest c' := by
  intro before next after split c'' run
  apply intact (chunk :: before) next after (by rw [split, cons_append])
  rw [receiveMessages_cons chunk before ne]
  exact (bind_of_ok ran).trans run

theorem IntactRun.nil (c : DOBServiceClient) : IntactRun [] c := by
  intro before chunk after split
  simp at split

theorem IntactRun.cons (ne : chunk ≠ []) (fst : Intact c.packet chunk)
    (later : ∀ c', receive chunk c = .ok () c' → IntactRun rest c') :
    IntactRun (chunk :: rest) c := by
  intro before next after split c'' run
  cases before with
  | nil =>
    cases split
    cases run
    exact fst
  | cons _ before =>
    cases split
    rw [receiveMessages_cons chunk before ne] at run
    obtain ⟨_, c', ran, run'⟩ := bind_ok_iff.mp run
    exact later c' ran before next after rfl c'' run'

theorem receive_tracks {r : Rest} {back : List UInt8} (sendable : ∀ b ∈ r.bodies, Sendable b)
    (intact : Intact c.packet chunk) (tracks : Tracks c r (chunk ++ back)) :
    ∃ r' c' done, receive chunk c = .ok () c' ∧ Tracks c' r' back ∧
      c'.handled = c.handled ++ done ∧ r.bodies = done ++ r'.bodies ∧
      (r'.bodies = [] ∨ c'.packet.size < r'.bytes.length) := by
  obtain ⟨packet, read, contents⟩ := (contents_readAppend_iff c.packet chunk).mpr intact
  unfold receive
  rw [read]
  apply handleMessages_tracks _ { c with packet } r back (le_refl _) sendable
  constructor
  · rw [contents, append_assoc]
    exact tracks.split
  · exact tracks.messageSize

theorem receiveMessages_tracks (chunks : List (List UInt8)) (c : DOBServiceClient) (r : Rest)
    (ne : ∀ chunk ∈ chunks, chunk ≠ []) (sendable : ∀ b ∈ r.bodies, Sendable b)
    (intact : IntactRun chunks c) (tracks : Tracks c r chunks.flatten)
    (waits : r.bodies = [] ∨ c.packet.size < r.bytes.length) :
    ∃ c', receiveMessages chunks c = .ok () c' ∧ c'.handled = c.handled ++ r.bodies := by
  induction chunks generalizing c r with
  | nil =>
    -- the packet holds all that is left, so no message is waited for
    have all : r.bytes.length = c.packet.size := by
      simpa using congrArg length tracks.split
    have done : r.bodies = [] := waits.resolve_right (by omega)
    exact ⟨c, rfl, by simp [done]⟩
  | cons chunk rest ih =>
    simp only [forall_mem_cons] at ne
    obtain ⟨r', c', done, ran, tracks', handled', eq, waits'⟩ :=
      receive_tracks sendable intact.head tracks
    have sendable' : ∀ b ∈ r'.bodies, Sendable b := by
      intro b mem
      apply sendable b
      rw [eq]
      exact mem_append_right done mem
    obtain ⟨c'', run, handled⟩ :=
      ih c' r' ne.2 sendable' (intact.tail ne.1 ran) tracks' waits'
    refine ⟨c'', ?_, ?_⟩
    · rw [receiveMessages_cons chunk rest ne.1]
      exact (bind_of_ok ran).trans run
    · rw [handled, handled', eq, append_assoc]

/-- However the stream is cut, the handler is called once for each message, in order. -/
theorem receiveMessages_delivers (memory : Nat → UInt8) (bodies chunks : List (List UInt8))
    (sendable : ∀ b ∈ bodies, Sendable b) (nonempty : ∀ chunk ∈ chunks, chunk ≠ [])
    (cut : chunks.flatten = wire bodies) (intact : IntactRun chunks (start memory)) :
    ∃ c, receiveMessages chunks (start memory) = .ok () c ∧ c.handled = bodies := by
  have tracks : Tracks (start memory) (.length bodies) chunks.flatten := ⟨cut.symm, rfl⟩
  exact receiveMessages_tracks chunks (start memory) (.length bodies) nonempty sendable intact
    tracks ((Rest.length bodies).bytes_pos sendable)

theorem receiveMessages_delivers_two_bodies :
    ∃ c, receiveMessages [[5, 0, 0, 0, 1, 6, 0, 0, 0], [7, 7]] (start fun _ => 0) = .ok () c ∧
      c.handled = [[1], [7, 7]] := by
  apply receiveMessages_delivers
  · intro b mem
    rcases mem_pair.mp mem with rfl | rfl <;> exact ⟨by decide, by decide⟩
  · decide
  · decide +kernel
  · apply IntactRun.cons (by decide) ⟨by decide, by decide, .inl rfl⟩
    intro c ran
    -- the first read ends behind a length field
    have run :
        (finalState (receive [5, 0, 0, 0, 1, 6, 0, 0, 0] (start fun _ => 0))).packet.size = 0 ∧
        (finalState (receive [5, 0, 0, 0, 1, 6, 0, 0, 0]
          (start fun _ => 0))).packet.elementCapacity = 992 := by
      decide +kernel
    rw [ran] at run
    obtain ⟨empty, capacity⟩ : c.packet.size = 0 ∧ c.packet.elementCapacity = 992 := run
    have intact : Intact c.packet [7, 7] :=
      .of_empty empty (by decide) (by rw [capacity]; decide) (by rw [capacity]; decide)
    exact IntactRun.cons (by decide) intact (fun c' _ => IntactRun.nil c')

theorem receiveMessages_splits_body :
    [[6, 0, 0, 0, 1], [2]].flatten = wire [[1, 2]] ∧
      (finalState (receiveMessages [[6, 0, 0, 0, 1], [2]] (start fun _ => 0))).handled =
        [[2, 0]] ∧
      (212 :: 7 :: replicate 494 0) ++ replicate 1508 0 = wire [replicate 2000 0] ∧
      IsError (receiveMessages [212 :: 7 :: replicate 494 0, replicate 496 0, replicate 496 0]
        (start fun _ => 0)) := by
  decide +kernel

end DOBServiceClient

end Engine3
