import Engine3.Library.CheckedMemory
import Engine3.Proto.CodecRoundTrip

/-!
# The codec on the packet's memory

`engine/service/proto/BaseProtocol` once more, this time as the loops over `getBuffer()` that
the source has: with `short` counters, pointers into the packet and the lengths that are
subtracted from each other. An access outside the packet stops the run. Packets of ordinary
size come out as `BaseProtocol` says; what happens to the others is the subject of the modules
after this one.
-/
namespace Engine3.PacketMemory

open Bytes MachineInt Exec CheckedMemory BaseProtocol List

/-! ### Checksum -/

def crcChar (nCrc : UInt32) (c : UInt8) : UInt32 :=
  crcRound nCrc (c.toInt8.toInt32.toUInt32 ^^^ nCrc)

def crcBody (i : Int) (nCrc : UInt32) : MemoryM Exception UInt32 := do
  let c ← load i
  pure (crcChar nCrc c)

def generateCrc (crcSeed : UInt32) (fuel : Nat) (nLength : Int) : MemoryM Exception UInt32 := do
  let nCrc ← forLoop i16 nLength crcBody fuel 0 (crcStart crcSeed)
  pure (~~~nCrc)

def crcWriteBody (crc : UInt32) (crcLength : Nat) (pData i : Int) (_ : Unit) :
    MemoryM Exception Unit :=
  store (pData + (crcLength - 1 - i)) (UInt8.ofNat (crc.toNat >>> (8 * i.toNat)))

def appendCRC (crcSeed : UInt32) (crcLength fuel : Nat) : MemoryM Exception Unit := do
  let nLength ← size
  if crcLength > 0 then
    let crc ← generateCrc crcSeed fuel (nLength - crcLength)
    forLoop (fun z => u16 z) crcLength (crcWriteBody crc crcLength (nLength - crcLength)) fuel 0 ()
  else pure ()

def crcReadBody (crcLength : Nat) (pData i : Int) :
    UInt32 × UInt32 → MemoryM Exception (UInt32 × UInt32)
  | (crc, mask) => do
    let pullbyte ← load (pData + i)
    pure (crc ||| pullbyte.toUInt32 <<< UInt32.ofNat ((crcLength - 1 - i).toNat * 8),
      mask <<< 8 ||| 0xFF)

def testCRC (crcSeed : UInt32) (crcLength fuel : Nat) : MemoryM Exception Bool := do
  let nLength ← size
  if crcLength > 0 then
    let p_crc ← generateCrc crcSeed fuel (nLength - crcLength)
    let (crc, mask) ←
      forLoop i16 crcLength (crcReadBody crcLength (nLength - crcLength)) fuel 0 (0, 0)
    pure (p_crc &&& mask == crc)
  else pure true

/-! ### Cipher -/

def wordBody (next : UInt32 → UInt32 → UInt32) (_ : Int) :
    UInt32 × Int → MemoryM Exception (UInt32 × Int)
  | (nCrcSeed, data) => do
    let read ← loadWord data
    storeWord data (read ^^^ nCrcSeed)
    pure (next read (read ^^^ nCrcSeed), data + 4)

def byteBody (nCrcSeed : UInt32) (_ pData : Int) : MemoryM Exception Int := do
  let c ← load pData
  store pData (c ^^^ nCrcSeed.toUInt8)
  pure (pData + 1)

def chainLoops (next : UInt32 → UInt32 → UInt32) (crcSeed : UInt32) (fuel : Nat)
    (nLength data : Int) : MemoryM Exception Unit := do
  let block_count := i16 (nLength.tdiv 4)
  let byte_count := i16 (nLength.tmod 4)
  let (nCrcSeed, pData) ← forLoop i16 block_count (wordBody next) fuel 0 (crcSeed, data)
  let _ ← forLoop i16 byte_count (byteBody nCrcSeed) fuel 0 pData

def encrypt (crcSeed : UInt32) (crc : Bool) (fuel : Nat) : MemoryM Exception Unit := do
  let nLength ← size
  let nLength := if crc then nLength else nLength + 2
  -- the opcode stays in the clear, and so do the two bytes of the checksum
  if (← load 0) = 0 then
    chainLoops (fun _ written => written) crcSeed fuel (nLength - 4) 2
  else
    chainLoops (fun _ written => written) crcSeed fuel (nLength - 3) 1

def decrypt (crcSeed : UInt32) (fuel : Nat) : MemoryM Exception Unit := do
  let nLength ← size
  if nLength < 3 then pure ()
  else
    let (nLength, data) := if (← load 0) = 0 then (nLength - 4, 2) else (nLength - 3, 1)
    if nLength ≤ 0 then pure ()
    else chainLoops (fun itemp _ => itemp) crcSeed fuel nLength data

/-! ### The packet around its memory -/

def onBuffer {α : Type} (m : MemoryM Exception α) : EStateM (Fault Exception) Stream α :=
  fun pack =>
    match m (Memory.ofBytes pack.elementData) with
    | .ok a memory => .ok a { pack with elementData := memory.bytes }
    | .error e memory => .error e { pack with elementData := memory.bytes }

def onLocal {α : Type} (buffer : List UInt8) (m : MemoryM Exception α) :
    EStateM (Fault Exception) Stream α := fun pack =>
  match m (Memory.ofBytes buffer) with
  | .ok a _ => .ok a pack
  | .error e _ => .error e pack

def throwing {α : Type} (m : StreamM α) : EStateM (Fault Exception) Stream α := fun pack =>
  match m pack with
  | .ok a pack => .ok a pack
  | .error e pack => .error (.thrown e) pack

def writeInflated (opcode crc inflated : List UInt8) (offset : Nat) :
    EStateM (Fault Exception) Stream Unit := do
  let output := inflated.take compressionBufferMax
  let newLength := output.length
  let payload ← onLocal (output ++ replicate (compressionBufferMax - newLength) 0)
    (region 0 newLength)
  modify fun pack =>
    let pack := pack.reset.setSize (newLength + offset + 3)
    (((pack.writeStream (opcode.take offset)).writeStream payload).writeByte 1).writeStream crc
  throwing (Stream.setOffset 2)

def decompress (zlib : Zlib) : EStateM (Fault Exception) Stream Unit := do
  let pack ← get
  let nLength : Int := pack.size
  if nLength < 3 then pure ()
  else
    let opcode ← onBuffer (region 0 2)
    let crc ← onBuffer (region (nLength - 2) 2)
    let offset : Nat := if opcode.head? = some 0 then 2 else 1
    let input ← onBuffer (region offset (u32 (nLength - offset - 3)))
    writeInflated opcode crc (zlib.inflate input) offset

def processRecieve (zlib : Zlib) (crcSeed : UInt32) (fuel : Nat) :
    EStateM (Fault Exception) Stream Bool := do
  if ← onBuffer (testCRC crcSeed 2 fuel) then
    onBuffer (decrypt crcSeed fuel)
    let pack ← get
    if pack.size < 3 then throw (.thrown (.packetIndexOutOfBounds 3))
    else
      if (← throwing (Stream.readByteFrom (pack.size - 3))) = 1 then decompress zlib
      throwing (Stream.removeLastBytes 3)
      pure true
  else pure false

/-! ### The checksum loops -/

private theorem i16_counts (n : Nat) (lt : n < 32768) : ∀ k ≤ n, i16 (k : Int) = k := by
  intro k below
  exact i16_of_small (by omega) (by omega)

structure CrcRead (crcSeed : UInt32) (m : Memory) (k : Nat) (nCrc : UInt32) (m' : Memory) :
    Prop where
  register : nCrc = (m.bytes.take k).foldl crcChar (crcStart crcSeed)
  bytes : m'.bytes = m.bytes
  stores : m'.stores = m.stores
  loads : ∀ i, i ∈ m'.loads ↔ i ∈ m.loads ∨ i < k

variable {m m' : Memory} {k crcLength : Nat}

theorem CrcRead.step {crcSeed : UInt32} {nCrc : UInt32} (read : CrcRead crcSeed m k nCrc m')
    (hin : k < m.bytes.length) :
    ∃ nCrc' m'', crcBody k nCrc m' = .ok nCrc' m'' ∧ CrcRead crcSeed m (k + 1) nCrc' m'' := by
  have loaded : (load k : MemoryM Exception UInt8) m' =
      .ok m.bytes[k] { m' with loads := k :: m'.loads } := by
    simp only [load_inside m' k (read.bytes ▸ hin), read.bytes]
  refine ⟨crcChar nCrc m.bytes[k], { m' with loads := k :: m'.loads }, ?_, ?_, read.bytes,
    read.stores, ?_⟩
  · rw [crcBody, bind_of_ok loaded]
    rfl
  · rw [take_succ_eq_append_getElem hin, foldl_append, ← read.register]
    rfl
  · intro i
    simp only [mem_cons, read.loads, Nat.lt_succ_iff_lt_or_eq]
    tauto

variable (crcSeed : UInt32)

theorem generateCrc_returns {nLength : Nat} (fuel : Nat) (lt : nLength < 32768)
    (le : nLength < fuel) (m : Memory) (hin : nLength ≤ m.bytes.length) :
    ∃ m', generateCrc crcSeed fuel nLength m =
        .ok (BaseProtocol.generateCrc crcSeed m.bytes nLength) m' ∧
      m'.bytes = m.bytes ∧ m'.stores = m.stores ∧
      ∀ i, i ∈ m'.loads ↔ i ∈ m.loads ∨ i < nLength := by
  have start : CrcRead crcSeed m 0 (crcStart crcSeed) m := by
    constructor <;> simp
  obtain ⟨nCrc, m', ret, read⟩ := forLoop_ok i16 (CrcRead crcSeed m) nLength
    (Int.toNat_natCast nLength) (i16_counts nLength lt)
    (fun k below nCrc m' read => read.step (by omega)) fuel 0 (crcStart crcSeed) m (Nat.zero_le _)
    le start
  refine ⟨m', ?_, read.bytes, read.stores, read.loads⟩
  apply (bind_of_ok ret).trans
  rw [read.register]
  rfl

theorem generateCrc_never_returns (fuel : Nat) {nLength : Int} (large : 32768 ≤ nLength)
    (m : Memory) (crc : UInt32) (m' : Memory) :
    generateCrc crcSeed fuel nLength m ≠ .ok crc m' := by
  intro ret
  rw [generateCrc, bind_ok_iff] at ret
  obtain ⟨nCrc, m₁, looped, _⟩ := ret
  -- whatever the counter becomes, as a `short` it is below the length
  apply forLoop_never_returns i16 (fun i => _) fuel 0 _ _ m nCrc m₁ looped
  · intro i
    unfold i16
    omega
  · omega

structure CrcWritten (crc : UInt32) (crcLength : Nat) (front : List UInt8) (m : Memory) (k : Nat)
    (_ : Unit) (m' : Memory) : Prop where
  bytes : ∃ gap, m'.bytes = front ++ gap ++ beBytes k crc.toNat ∧ gap.length + k = crcLength
  loads : m'.loads = m.loads
  stores : ∀ i, i ∈ m'.stores ↔ i ∈ m.stores ∨
    (front.length + crcLength ≤ i + k ∧ i < front.length + crcLength)

theorem CrcWritten.step {crc : UInt32} {front : List UInt8}
    (written : CrcWritten crc crcLength front m k () m') (more : k < crcLength) :
    ∃ u m'', crcWriteBody crc crcLength front.length k () m' = .ok u m'' ∧
      CrcWritten crc crcLength front m (k + 1) u m'' := by
  obtain ⟨gap, bytes, total⟩ := written.bytes
  -- the octet goes to the last place of the gap
  obtain ⟨gap, last, rfl⟩ : ∃ gap' last, gap = gap' ++ [last] := by
    refine ⟨gap.dropLast, gap.getLast ?_, (dropLast_append_getLast ?_).symm⟩ <;>
    · rintro rfl
      simp at total
      omega
  rw [length_append, length_singleton] at total
  have pieces : m'.bytes = (front ++ gap) ++ last :: beBytes k crc.toNat := by
    simp [bytes]
  have stored := store_at (ε := Exception) m' (front ++ gap) _
    (front.length + (crcLength - 1 - k)) (by simp; omega) last
    (UInt8.ofNat (crc.toNat >>> (8 * k))) pieces
  refine ⟨(), _, stored, ⟨gap, ?_, by omega⟩, written.loads, ?_⟩
  · have octet : crc.toNat >>> (8 * k) = crc.toNat / 256 ^ k := by
      rw [Nat.shiftRight_eq_div_pow, Nat.pow_mul]
    simp [beBytes_succ, octet]
  · intro i
    have place : (front ++ gap).length + k + 1 = front.length + crcLength := by
      simp; omega
    simp only [mem_cons, written.stores]
    grind

theorem appendCRC_returns (crcLength fuel : Nat) (m : Memory) (pos : 0 < crcLength)
    (narrow : crcLength < 65536) (hin : crcLength ≤ m.bytes.length)
    (lt : m.bytes.length - crcLength < 32768) (le : m.bytes.length < fuel) :
    ∃ m', appendCRC crcSeed crcLength fuel m = .ok () m' ∧
      m'.bytes = (BaseProtocol.appendCRC crcSeed crcLength ⟨m.bytes, 0⟩).elementData ∧
      (∀ i, i ∈ m'.loads ↔ i ∈ m.loads ∨ i < m.bytes.length - crcLength) ∧
      ∀ i, i ∈ m'.stores ↔ i ∈ m.stores ∨
        (m.bytes.length ≤ i + crcLength ∧ i < m.bytes.length) := by
  set nLength := m.bytes.length - crcLength with nLength_eq
  have start : (m.bytes.length : Int) - crcLength = nLength := by omega
  obtain ⟨m₁, generated, bytes, stores, loads⟩ :=
    generateCrc_returns crcSeed fuel lt (by omega) m (by omega)
  set crc := BaseProtocol.generateCrc crcSeed m.bytes nLength
  have front : (m.bytes.take nLength).length = nLength := length_take_of_le (by omega)
  have begun : CrcWritten crc crcLength (m.bytes.take nLength) m₁ 0 () m₁ := by
    refine ⟨⟨m.bytes.drop nLength, ?_, ?_⟩, rfl, ?_⟩
    · simp [bytes, beBytes, leBytes]
    · simp; omega
    · intro i
      grind
  have fits : ∀ k ≤ crcLength, (fun z : Int => (u16 z : Int)) (k : Int) = k := by
    intro k below
    simp only [u16_natCast]
    omega
  -- the second loop starts where the first has read up to, so its invariant speaks of `m₁`
  obtain ⟨_, m₂, looped, written⟩ := forLoop_ok (fun z : Int => (u16 z : Int))
    (CrcWritten crc crcLength (m.bytes.take nLength) m₁) crcLength (Int.toNat_natCast crcLength)
    fits (fun k below _ m' written => written.step below) fuel 0 () m₁ (Nat.zero_le _) (by omega)
    begun
  refine ⟨m₂, ?_, ?_, ?_, ?_⟩
  · have sized : (size : MemoryM Exception Int) m = .ok m.bytes.length m := rfl
    rw [front] at looped
    rw [appendCRC, bind_of_ok sized, ite_run_pos pos, start,
      bind_of_ok generated]
    exact looped
  · obtain ⟨gap, final, empty⟩ := written.bytes
    have none : gap = [] := length_eq_zero_iff.mp (by omega)
    rw [final, none, append_nil, BaseProtocol.appendCRC, if_pos pos]
    rfl
  · intro i
    rw [written.loads, loads]
  · intro i
    have total : nLength + crcLength = m.bytes.length := by omega
    rw [written.stores, stores, front, total]

theorem appendCRC_never_returns (crcLength fuel : Nat) (pos : 0 < crcLength)
    (large : 32768 + crcLength ≤ m.bytes.length) (u : Unit) (m' : Memory) :
    appendCRC crcSeed crcLength fuel m ≠ .ok u m' := by
  intro ret
  have sized : (size : MemoryM Exception Int) m = .ok m.bytes.length m := rfl
  rw [appendCRC, bind_of_ok sized, ite_run_pos pos, bind_ok_iff] at ret
  obtain ⟨crc, m₁, generated, _⟩ := ret
  exact generateCrc_never_returns crcSeed fuel (by omega) m crc m₁ generated

structure CrcParsed (crcLength : Nat) (found : List UInt8) (m : Memory) (k : Nat)
    (parsed : UInt32 × UInt32) (m' : Memory) : Prop where
  crc : parsed.1.toNat = beNat (found.take k) * 256 ^ (crcLength - k)
  mask : parsed.2.toNat + 1 = 256 ^ k
  bytes : m'.bytes = m.bytes

private theorem power_of_octets (k : Nat) : 256 ^ k = 2 ^ (k * 8) := by
  rw [Nat.mul_comm, Nat.pow_mul]

private theorem toNat_or_octet (crc : UInt32) (b : UInt8) (n shift : Nat) (lt : shift < 4)
    (above : crc.toNat = n * 256 ^ (shift + 1)) :
    (crc ||| b.toUInt32 <<< UInt32.ofNat (shift * 8)).toNat =
      (n * 256 + b.toNat) * 256 ^ shift := by
  have octet : b.toNat * 256 ^ shift < 2 ^ ((shift + 1) * 8) := by
    rw [← power_of_octets, Nat.pow_succ, Nat.mul_comm (256 ^ shift)]
    exact Nat.mul_lt_mul_of_pos_right b.toNat_lt (Nat.pow_pos (by decide))
  have shifted : (b.toUInt32 <<< UInt32.ofNat (shift * 8)).toNat = b.toNat * 256 ^ shift := by
    have amount : (UInt32.ofNat (shift * 8)).toNat % 32 = shift * 8 := by
      rw [UInt32.toNat_ofNat']
      omega
    have fits : b.toNat * 256 ^ shift < 2 ^ 32 :=
      lt_of_lt_of_le octet (Nat.pow_le_pow_right (by decide) (by omega))
    rw [UInt32.toNat_shiftLeft, amount, UInt8.toNat_toUInt32, Nat.shiftLeft_eq,
      ← power_of_octets, Nat.mod_eq_of_lt fits]
  have joined := Nat.shiftLeft_add_eq_or_of_lt octet n
  rw [Nat.shiftLeft_eq, ← power_of_octets] at joined
  rw [UInt32.toNat_or, above, shifted, ← joined, Nat.pow_succ]
  ring

private theorem toNat_widen_mask (mask : UInt32) (k : Nat) (lt : k < 4)
    (ones : mask.toNat + 1 = 256 ^ k) : (mask <<< 8 ||| 0xFF).toNat + 1 = 256 ^ (k + 1) := by
  have room : 256 ^ k ≤ 256 ^ 3 := Nat.pow_le_pow_right (by decide) (by omega)
  have shifted : (mask <<< 8).toNat = mask.toNat <<< 8 := by
    have fits : mask.toNat <<< 8 < 2 ^ 32 := by
      omega
    exact Nat.mod_eq_of_lt fits
  have joined := Nat.shiftLeft_add_eq_or_of_lt (show 255 < 2 ^ 8 by decide) mask.toNat
  have low : (0xFF : UInt32).toNat = 255 := rfl
  rw [UInt32.toNat_or, shifted, low, ← joined, Nat.shiftLeft_eq, Nat.pow_succ]
  omega

private theorem masked_beq (p_crc mask crc : UInt32) (k n : Nat)
    (ones : mask.toNat + 1 = 256 ^ k) (val : crc.toNat = n) :
    (p_crc &&& mask == crc) = (p_crc.toNat % 256 ^ k == n) := by
  rw [power_of_octets] at ones ⊢
  have all : mask.toNat = 2 ^ (k * 8) - 1 := by omega
  have masked : (p_crc &&& mask).toNat = p_crc.toNat % 2 ^ (k * 8) := by
    rw [UInt32.toNat_and, all, Nat.and_two_pow_sub_one_eq_mod]
  apply Bool.eq_iff_iff.mpr
  rw [beq_iff_eq, beq_iff_eq, ← UInt32.toNat_inj, masked, val]

theorem CrcParsed.step {start : Nat} {found : List UInt8} {parsed : UInt32 × UInt32}
    (read : CrcParsed crcLength found m k parsed m') (tail : m.bytes.drop start = found)
    (len : found.length = crcLength) (narrow : crcLength ≤ 4) (more : k < crcLength) :
    ∃ parsed' m'', crcReadBody crcLength start k parsed m' = .ok parsed' m'' ∧
      CrcParsed crcLength found m (k + 1) parsed' m'' := by
  obtain ⟨crc, mask⟩ := parsed
  have hin : start + k < m'.bytes.length := by
    have total := congrArg length tail
    rw [length_drop, len] at total
    rw [read.bytes]
    omega
  have octet : m'.bytes[start + k] = found[k] := by
    simp [← tail, read.bytes]
  have loaded := load_inside (ε := Exception) m' (start + k) hin
  rw [octet] at loaded
  refine ⟨_, _, bind_of_ok loaded, ?_, ?_, read.bytes⟩
  -- the octet read now goes right below those already there
  · have shift : ((crcLength : Int) - 1 - k).toNat = crcLength - (k + 1) := by omega
    have before : crcLength - k = crcLength - (k + 1) + 1 := by omega
    have above := read.crc
    rw [before] at above
    have grown : beNat (found.take (k + 1)) = beNat (found.take k) * 256 + found[k].toNat := by
      rw [take_succ_eq_append_getElem (by omega)]
      simp only [beNat, reverse_append, reverse_singleton, singleton_append, leNat]
      omega
    simp only [shift, grown]
    exact toNat_or_octet crc found[k] _ _ (by omega) above
  · exact toNat_widen_mask mask k (by omega) read.mask

theorem testCRC_returns (crcLength fuel : Nat) (m : Memory) (pos : 0 < crcLength)
    (narrow : crcLength ≤ 4) (hin : crcLength ≤ m.bytes.length)
    (lt : m.bytes.length - crcLength < 32768) (hle : m.bytes.length < fuel) :
    ∃ m', testCRC crcSeed crcLength fuel m =
        .ok (BaseProtocol.testCRC crcSeed crcLength ⟨m.bytes, 0⟩) m' ∧ m'.bytes = m.bytes := by
  set nLength := m.bytes.length - crcLength with nLength_eq
  have start : (m.bytes.length : Int) - crcLength = nLength := by omega
  obtain ⟨m₁, generated, bytes, _, _⟩ :=
    generateCrc_returns crcSeed fuel lt (by omega) m (by omega)
  have len : (m.bytes.drop nLength).length = crcLength := by
    rw [length_drop]
    omega
  have begun : CrcParsed crcLength (m.bytes.drop nLength) m 0 (0, 0) m₁ :=
    ⟨by simp [beNat, leNat], rfl, bytes⟩
  obtain ⟨⟨crc, mask⟩, m₂, looped, read⟩ := forLoop_ok i16
    (CrcParsed crcLength (m.bytes.drop nLength) m) crcLength (Int.toNat_natCast crcLength)
    (i16_counts crcLength (by omega))
    (fun k below parsed m' read => read.step rfl len narrow below) fuel 0 (0, 0) m₁
    (Nat.zero_le _) (by omega) begun
  refine ⟨m₂, ?_, read.bytes⟩
  have sized : (size : MemoryM Exception Int) m = .ok m.bytes.length m := rfl
  rw [testCRC, bind_of_ok sized, ite_run_pos pos, start,
    bind_of_ok generated]
  apply (bind_of_ok looped).trans
  -- after all rounds nothing is left to shift
  have val : crc.toNat = beNat (m.bytes.drop nLength) := by
    have parsed := read.crc
    rwa [take_of_length_le len.le, Nat.sub_self, Nat.pow_zero, Nat.mul_one] at parsed
  have compared := masked_beq (BaseProtocol.generateCrc crcSeed m.bytes nLength) mask crc crcLength
    _ read.mask val
  have spec : BaseProtocol.testCRC crcSeed crcLength ⟨m.bytes, 0⟩ =
      ((BaseProtocol.generateCrc crcSeed m.bytes nLength).toNat % 256 ^ crcLength ==
        beNat (m.bytes.drop nLength)) := if_pos pos
  rw [spec, ← compared]
  rfl

/-! ### The cipher loops -/

theorem wordBody_at (next : UInt32 → UInt32 → UInt32) (m : Memory) (front rest : List UInt8)
    (nCrcSeed : UInt32) (i address : Int) (here : address = front.length)
    (room : 4 ≤ rest.length) (bytes : m.bytes = front ++ rest) :
    ∃ m', wordBody next i (nCrcSeed, address) m =
        .ok (next (word rest) (word rest ^^^ nCrcSeed), address + 4) m' ∧
      m'.bytes = front ++ leBytes 4 (word rest ^^^ nCrcSeed).toNat ++ rest.drop 4 ∧
      ∀ i, i ∈ m'.stores ↔ i ∈ m.stores ∨ (front.length ≤ i ∧ i < front.length + 4) := by
  have four : (rest.take 4).length = 4 := length_take_of_le room
  have pieces : m.bytes = front ++ rest.take 4 ++ rest.drop 4 := by
    rw [append_assoc, take_append_drop, bytes]
  have loaded := loadWord_at (ε := Exception) m _ _ address here four pieces
  have stored := storeWord_at (ε := Exception)
    { m with loads := [front.length + 3, front.length + 2, front.length + 1, front.length] ++
      m.loads } _ _ address here four (word rest ^^^ nCrcSeed) pieces
  refine ⟨_, (bind_of_ok loaded).trans (bind_of_ok stored), rfl, ?_⟩
  intro i
  grind

theorem byteBody_at (m : Memory) (front back : List UInt8) (c : UInt8) (nCrcSeed : UInt32)
    (i address : Int) (here : address = front.length) (bytes : m.bytes = front ++ c :: back) :
    ∃ m', byteBody nCrcSeed i address m = .ok (address + 1) m' ∧
      m'.bytes = front ++ (c ^^^ nCrcSeed.toUInt8) :: back ∧
      ∀ i, i ∈ m'.stores ↔ i ∈ m.stores ∨ (front.length ≤ i ∧ i < front.length + 1) := by
  have loaded := load_at (ε := Exception) m _ _ address here c bytes
  have stored := store_at (ε := Exception) { m with loads := front.length :: m.loads } _ _ address
    here c (c ^^^ nCrcSeed.toUInt8) bytes
  refine ⟨_, (bind_of_ok loaded).trans (bind_of_ok stored), rfl, ?_⟩
  intro i
  grind

section Chain

variable (next : UInt32 → UInt32 → UInt32) (front data : List UInt8) (m : Memory)

structure WordsDone (blocks bytes : Nat) (key : UInt32) (k : Nat) (at_word : UInt32 × Int)
    (m' : Memory) : Prop where
  address : at_word.2 = (front.length + 4 * k : Nat)
  memory : ∃ done rest, m'.bytes = front ++ done ++ rest ∧ done.length = 4 * k ∧
    rest.length + 4 * k = data.length ∧
    chainBlocks next blocks bytes key data =
      done ++ chainBlocks next (blocks - k) bytes at_word.1 rest
  stores : ∀ i, i ∈ m'.stores ↔ i ∈ m.stores ∨
    (front.length ≤ i ∧ i < front.length + 4 * k)

structure BytesDone (key : UInt32) (k : Nat) (address : Int) (m' : Memory) : Prop where
  address : address = (front.length + k : Nat)
  memory : m'.bytes = front ++ ((data.take k).map (· ^^^ key.toUInt8) ++ data.drop k)
  stores : ∀ i, i ∈ m'.stores ↔ i ∈ m.stores ∨ (front.length ≤ i ∧ i < front.length + k)

variable {next front data m}

theorem WordsDone.step {blocks bytes k : Nat} {key : UInt32} {at_word : UInt32 × Int}
    {m' : Memory} (done : WordsDone next front data m blocks bytes key k at_word m')
    (more : k < blocks) (room : 4 * blocks ≤ data.length) :
    ∃ at_word' m'', wordBody next k at_word m' = .ok at_word' m'' ∧
      WordsDone next front data m blocks bytes key (k + 1) at_word' m'' := by
  obtain ⟨nCrcSeed, address⟩ := at_word
  have here : address = (front.length + 4 * k : Nat) := done.address
  obtain ⟨before, rest, contents, len, total, chain⟩ := done.memory
  have place : (front ++ before).length = front.length + 4 * k := by
    rw [length_append, len]
  obtain ⟨m'', ret, written, stores⟩ := wordBody_at next m' (front ++ before) rest nCrcSeed k
    address (by rw [here, place]) (by omega) contents
  refine ⟨_, m'', ret, ?_, ?_, ?_⟩
  · omega
  · refine ⟨before ++ leBytes 4 (word rest ^^^ nCrcSeed).toNat, rest.drop 4, ?_, ?_, ?_, ?_⟩
    · rw [written, append_assoc front]
    · rw [length_append, len, length_leBytes]
      omega
    · rw [length_drop]
      omega
    · -- the chain over the words that were left begins with this one
      obtain ⟨left, left_eq⟩ : ∃ left, blocks - k = left + 1 := ⟨blocks - k - 1, by omega⟩
      have one_less : blocks - (k + 1) = left := by omega
      simp only [chain, left_eq, one_less, chainBlocks, append_assoc]
  · intro i
    rw [stores, done.stores, place]
    grind

theorem BytesDone.step {k : Nat} {key : UInt32} {address : Int} {m' : Memory}
    (done : BytesDone front data m key k address m') (more : k < data.length) :
    ∃ address' m'', byteBody key k address m' = .ok address' m'' ∧
      BytesDone front data m key (k + 1) address' m'' := by
  set before := front ++ (data.take k).map (· ^^^ key.toUInt8) with before_eq
  have place : before.length = front.length + k := by
    rw [before_eq, length_append, length_map, length_take_of_le more.le]
  have contents : m'.bytes = before ++ data[k] :: data.drop (k + 1) := by
    rw [done.memory, getElem_cons_drop, before_eq, append_assoc]
  obtain ⟨m'', ret, written, stores⟩ := byteBody_at m' before _ data[k] key k address
    (by rw [done.address, place]) contents
  refine ⟨_, m'', ret, ?_, ?_, ?_⟩
  · rw [done.address]
    omega
  · rw [written, take_succ_eq_append_getElem more, before_eq, map_append]
    simp only [map_cons, map_nil, append_assoc, singleton_append]
  · intro i
    rw [stores, done.stores, place]
    grind

theorem chainLoops_returns (next : UInt32 → UInt32 → UInt32) (crcSeed : UInt32) (fuel : Nat)
    (nLength : Int) (front data : List UInt8) (m : Memory)
    (room : 4 * blockCount nLength + byteCount nLength ≤ data.length)
    (le : 32768 ≤ fuel ∨ data.length < fuel) (bytes : m.bytes = front ++ data) :
    ∃ m', chainLoops next crcSeed fuel nLength front.length m = .ok () m' ∧
      m'.bytes = front ++ chainBlocks next (blockCount nLength) (byteCount nLength) crcSeed data ∧
      ∀ i, i ∈ m'.stores ↔ i ∈ m.stores ∨ (front.length ≤ i ∧
        i < front.length + (4 * blockCount nLength + byteCount nLength)) := by
  -- both counts are `short`, so the counters reach them
  have words_fit : blockCount nLength < 32768 := by
    simp only [blockCount, i16]
    omega
  have bytes_fit : byteCount nLength < 32768 := by
    simp only [byteCount, i16]
    omega
  have words_start : WordsDone next front data m (blockCount nLength) (byteCount nLength) crcSeed 0
      (crcSeed, front.length) m := by
    refine ⟨by simp, ⟨[], data, by simp [bytes], rfl, by simp, by simp⟩, ?_⟩
    intro i
    grind
  obtain ⟨⟨key, address⟩, m₁, words, done⟩ := forLoop_ok i16
    (WordsDone next front data m (blockCount nLength) (byteCount nLength) crcSeed)
    (blockCount nLength) rfl (i16_counts _ words_fit)
    (fun k below at_word m' done => done.step below (by omega)) fuel 0 (crcSeed, front.length) m
    (Nat.zero_le _) (by omega) words_start
  -- the byte loop takes over the address and the key of the word loop
  obtain ⟨before, rest, contents, len, total, chain⟩ := done.memory
  have bytes_start : BytesDone (front ++ before) rest m₁ key 0 address m₁ := by
    refine ⟨?_, by simp [contents], ?_⟩
    · rw [length_append, len]
      exact done.address
    · intro i
      grind
  obtain ⟨last, m₂, loop, finished⟩ := forLoop_ok i16 (BytesDone (front ++ before) rest m₁ key)
    (byteCount nLength) rfl (i16_counts _ bytes_fit)
    (fun k below address m' done => done.step (by omega)) fuel 0 address m₁ (Nat.zero_le _)
    (by omega) bytes_start
  refine ⟨m₂, ?_, ?_, ?_⟩
  · apply (bind_of_ok words).trans
    exact bind_of_ok loop
  · rw [finished.memory, chain, Nat.sub_self, chainBlocks, append_assoc]
  · intro i
    have place : (front ++ before).length = front.length + 4 * blockCount nLength := by
      rw [length_append, len]
    rw [finished.stores, done.stores, place]
    grind

end Chain

private theorem load_first (m : Memory) (some : 0 < m.bytes.length) :
    ∃ b, (load 0 : MemoryM Exception UInt8) m = .ok b { m with loads := 0 :: m.loads } ∧
      clearLength m.bytes = if b = 0 then 2 else 1 := by
  obtain ⟨b, back, bytes⟩ := exists_cons_of_length_pos some
  refine ⟨b, load_at m [] back 0 rfl b bytes, ?_⟩
  simp [clearLength, bytes]

theorem encrypt_returns (crcSeed : UInt32) (crc : Bool) (fuel : Nat) (m : Memory)
    (some : 2 ≤ m.bytes.length) (le : m.bytes.length < fuel) :
    ∃ m', encrypt crcSeed crc fuel m = .ok () m' ∧
      m'.bytes = (BaseProtocol.encrypt crcSeed crc ⟨m.bytes, 0⟩).elementData ∧
      ∀ i, i ∈ m'.stores ↔ i ∈ m.stores ∨ (clearLength m.bytes ≤ i ∧
        let nLength : Int := (if crc then m.bytes.length else m.bytes.length + 2 : Nat) -
          (clearLength m.bytes + 2 : Nat)
        i < clearLength m.bytes + (4 * blockCount nLength + byteCount nLength)) := by
  obtain ⟨b, loaded, opcode⟩ := load_first m (by omega)
  have clear_le := clearLength_le m.bytes
  have front : (m.bytes.take (clearLength m.bytes)).length = clearLength m.bytes :=
    length_take_of_le (by omega)
  set nLength : Int := (if crc then m.bytes.length else m.bytes.length + 2 : Nat) -
    (clearLength m.bytes + 2 : Nat) with nLength_eq
  have bound : -4 < nLength ∧ nLength ≤ m.bytes.length - clearLength m.bytes := by
    cases crc <;> simp only [nLength_eq] <;> constructor <;> simp <;> omega
  obtain ⟨m', ret, bytes, stores⟩ := chainLoops_returns (fun _ written => written) crcSeed fuel
    nLength (m.bytes.take (clearLength m.bytes)) (m.bytes.drop (clearLength m.bytes))
    { m with loads := 0 :: m.loads }
    (by
      have counts := (counts_spec nLength bound.1).1
      rw [length_drop]
      omega)
    (by
      right
      rw [length_drop]
      omega)
    (take_append_drop _ _).symm
  rw [front] at ret stores
  refine ⟨m', ?_, bytes, stores⟩
  have sized : (size : MemoryM Exception Int) m = .ok m.bytes.length m := rfl
  rw [encrypt, bind_of_ok sized, bind_of_ok loaded]
  rw [nLength_eq, opcode] at ret
  -- the two branches differ in the length of the opcode alone
  by_cases zero : b = 0
  · rw [ite_run_pos zero]
    rw [if_pos zero] at ret
    cases crc <;> exact ret
  · rw [ite_run_neg zero]
    rw [if_neg zero] at ret
    cases crc <;> exact ret

theorem decrypt_returns (crcSeed : UInt32) (fuel : Nat) (m : Memory)
    (le : m.bytes.length < fuel) (o : Nat) :
    ∃ m', decrypt crcSeed fuel m = .ok () m' ∧
      BaseProtocol.decrypt crcSeed ⟨m.bytes, o⟩ = ⟨m'.bytes, o⟩ := by
  have sized : (size : MemoryM Exception Int) m = .ok m.bytes.length m := rfl
  rw [decrypt, bind_of_ok sized]
  by_cases short : m.bytes.length < 3
  · exact ⟨m, ite_run_pos (by omega), if_pos short⟩
  obtain ⟨b, loaded, opcode⟩ := load_first m (by omega)
  have clear_le := clearLength_le m.bytes
  set nLength : Int := m.bytes.length - (clearLength m.bytes + 2 : Nat) with nLength_eq
  have chosen : (if b = 0 then ((m.bytes.length : Int) - 4, (2 : Int))
      else ((m.bytes.length : Int) - 3, 1)) = (nLength, (clearLength m.bytes : Int)) := by
    rw [nLength_eq, opcode]
    split <;> rfl
  have branch : BaseProtocol.decrypt crcSeed ⟨m.bytes, o⟩ = if nLength ≤ 0 then ⟨m.bytes, o⟩
      else ⟨m.bytes.take (clearLength m.bytes) ++ decryptBlocks (blockCount nLength)
        (byteCount nLength) crcSeed (m.bytes.drop (clearLength m.bytes)), o⟩ := if_neg short
  rw [ite_run_neg (by omega), bind_of_ok loaded, chosen, branch]
  by_cases empty : nLength ≤ 0
  · exact ⟨_, ite_run_pos empty, if_pos empty⟩
  · have counts := (counts_spec nLength (by omega)).1
    obtain ⟨m', ret, bytes, _⟩ := chainLoops_returns (fun itemp _ => itemp) crcSeed fuel
      nLength (m.bytes.take (clearLength m.bytes)) (m.bytes.drop (clearLength m.bytes))
      { m with loads := 0 :: m.loads } (by rw [length_drop]; omega)
      (by rw [length_drop]; omega) (take_append_drop _ _).symm
    rw [length_take_of_le (by omega)] at ret
    refine ⟨m', (ite_run_neg empty).trans ret, ?_⟩
    rw [bytes, if_neg empty]
    rfl

/-! ### Receiving -/

variable {pack : Stream}

theorem onBuffer_of_ok {α : Type} {m : MemoryM Exception α} {a : α} {memory : Memory}
    (ret : m (Memory.ofBytes pack.elementData) = .ok a memory) :
    onBuffer m pack = .ok a { pack with elementData := memory.bytes } := by
  simp only [onBuffer, ret]

theorem onBuffer_region (start length : Nat) (pack : Stream) (hin : start + length ≤ pack.size) :
    onBuffer (region start length) pack =
      .ok ((pack.elementData.drop start).take length) pack :=
  onBuffer_of_ok (region_inside (Memory.ofBytes pack.elementData) start length hin)

theorem onLocal_region {buffer : List UInt8} (start length : Nat) (pack : Stream)
    (hin : start + length ≤ buffer.length) :
    onLocal buffer (region start length) pack = .ok ((buffer.drop start).take length) pack := by
  have read := region_inside (ε := Exception) (Memory.ofBytes buffer) start length hin
  simp only [onLocal, read]
  rfl

/-- The input of `inflate` lies inside the packet: the clear opcode and the trailer leave a
length that is not negative. -/
def InflateInside (pack : Stream) : Prop := clearLength pack.elementData + 3 ≤ pack.size

instance (pack : Stream) : Decidable (InflateInside pack) :=
  inferInstanceAs (Decidable (_ ≤ _))

theorem writeInflated_returns (inflated : List UInt8) (long : 3 ≤ pack.size) :
    writeInflated (pack.elementData.take 2) (pack.elementData.drop (pack.size - 2)) inflated
        (clearLength pack.elementData) pack =
      .ok () { rewrite (inflated.take compressionBufferMax) pack with offset := 2 } := by
  have clear_le := clearLength_le pack.elementData
  set output := inflated.take compressionBufferMax with output_eq
  have copied : onLocal (output ++ replicate (compressionBufferMax - output.length) 0)
      (region 0 output.length) pack = .ok output pack := by
    apply (onLocal_region 0 output.length pack (by simp)).trans
    rw [drop_zero, take_left]
  have eq : (pack.elementData.take 2).take (clearLength pack.elementData) =
      pack.elementData.take (clearLength pack.elementData) := by
    rw [take_take, Nat.min_eq_left clear_le]
  have large : 2 ≤ (rewrite output pack).size := by
    rw [rewrite_eq output pack (by omega) (by omega)]
    simp only [Stream.size, length_append, length_cons, length_drop]
    simp only [Stream.size] at long
    omega
  rw [writeInflated, bind_of_ok copied]
  apply (@bind_of_ok _ _ _ _ _ _ pack (rewrite output pack) () _).trans
  · simp only [throwing, Stream.setOffset_inside 2 _ large]
  · simp only [eq]
    rfl

variable (zlib : Zlib)

theorem decompress_eq (long : 3 ≤ pack.size) : decompress zlib pack = (do
      let input ← onBuffer (region (clearLength pack.elementData)
        (u32 (pack.size - clearLength pack.elementData - 3)))
      writeInflated (pack.elementData.take 2) (pack.elementData.drop (pack.size - 2))
        (zlib.inflate input) (clearLength pack.elementData)) pack := by
  have opcode := onBuffer_region 0 2 pack (by omega)
  have crc : onBuffer (region ((pack.size : Int) - 2) 2) pack =
      .ok (pack.elementData.drop (pack.size - 2)) pack := by
    have start : (pack.size : Int) - 2 = (pack.size - 2 : Nat) := by omega
    rw [start, onBuffer_region _ 2 pack (by omega)]
    rw [take_of_length_le]
    simp only [length_drop, Stream.size]
    omega
  have head : (if (pack.elementData.take 2).head? = some 0 then 2 else 1) =
      clearLength pack.elementData := by
    rw [clearLength, head?_take]
    rfl
  apply get_bind.trans
  rw [ite_run_neg (by omega)]
  apply (bind_of_ok opcode).trans
  apply (bind_of_ok crc).trans
  simp only [drop_zero, head]

theorem decompress_inside (hin : InflateInside pack) (lt : pack.size < 4294967296) :
    decompress zlib pack = .ok () (BaseProtocol.decompress zlib pack) := by
  have long : 3 ≤ pack.size := by
    simp only [InflateInside] at hin
    omega
  set clear := clearLength pack.elementData with clear_eq
  have len : (pack.size : Int) - clear - 3 = (pack.size - clear - 3 : Nat) := by
    simp only [InflateInside] at hin
    omega
  have input : onBuffer (region clear (u32 (pack.size - clear - 3))) pack =
      .ok (zlibInput pack.elementData) pack := by
    have bounded : u32 ((pack.size : Int) - clear - 3) = pack.size - clear - 3 := by
      rw [len, u32_natCast, Nat.mod_eq_of_lt (by omega)]
    rw [bounded, onBuffer_region _ _ _ (by simp only [InflateInside] at hin; omega)]
    simp only [zlibInput, ← clear_eq]
    rw [show (pack.elementData.length : Int) = pack.size from rfl, bounded]
  rw [decompress_eq zlib long, bind_of_ok input,
    writeInflated_returns _ long, BaseProtocol.decompress, if_neg (by omega)]

theorem decompress_outside (long : 3 ≤ pack.size) (out : ¬ InflateInside pack) :
    ∃ index, decompress zlib pack = .error (.outOfBounds index) pack := by
  have clear_le := clearLength_le pack.elementData
  set clear := clearLength pack.elementData with clear_eq
  simp only [InflateInside, ← clear_eq] at out
  have beyond : (Memory.ofBytes pack.elementData).bytes.length <
      clear + u32 ((pack.size : Int) - clear - 3) := by
    simp only [Memory.ofBytes, u32, Stream.size] at long out ⊢
    omega
  have stopped : onBuffer (region clear (u32 ((pack.size : Int) - clear - 3))) pack =
      .error (.outOfBounds (clear + u32 ((pack.size : Int) - clear - 3) - 1)) pack := by
    simp only [onBuffer, region_outside beyond]
    rfl
  refine ⟨clear + u32 ((pack.size : Int) - clear - 3) - 1, ?_⟩
  rw [decompress_eq zlib long]
  exact bind_of_error stopped

def flag (pack : Stream) : Option UInt8 := pack.elementData.reverse[2]?

theorem size_of_flag {b : UInt8} (set : flag pack = some b) : 3 ≤ pack.size := by
  obtain ⟨hin, _⟩ := List.getElem?_eq_some_iff.mp set
  rwa [length_reverse] at hin

theorem readByteFrom_flag (pack : Stream) (long : 3 ≤ pack.size) :
    ∃ b, flag pack = some b ∧ Stream.readByteFrom (pack.size - 3) pack = .ok b.toNat pack := by
  obtain ⟨bytes, o⟩ := pack
  simp only [Stream.size] at long
  have tail : (bytes.drop (bytes.length - 3)).length = 3 := by
    rw [length_drop]
    omega
  obtain ⟨b, c, d, last⟩ := length_eq_three.mp tail
  have split : bytes = bytes.take (bytes.length - 3) ++ b :: [c, d] := by
    rw [← last, take_append_drop]
  refine ⟨b, ?_, ?_⟩
  · rw [flag, split]
    simp
  · have read := readByteFrom_trailer (bytes.take (bytes.length - 3)) [c, d] b rfl o
    rwa [← split] at read

private theorem throwing_removeLastBytes (pack : Stream) :
    (do
      throwing (Stream.removeLastBytes 3)
      pure true) pack =
    throwing (fun pack => match Stream.removeLastBytes 3 pack with
      | .error e pack => .error e pack
      | .ok () pack => .ok true pack) pack := by
  change EStateM.bind _ _ pack = _
  simp only [EStateM.bind, throwing]
  cases Stream.removeLastBytes 3 pack <;> rfl

section Receive

variable (zlib : Zlib) (crcSeed : UInt32) (fuel : Nat) (pack : Stream)
  (datagram : 2 ≤ pack.size) (small : pack.size < 32768) (enough : pack.size < fuel)

include datagram small enough

private theorem onBuffer_testCRC :
    onBuffer (testCRC crcSeed 2 fuel) pack = .ok (BaseProtocol.testCRC crcSeed 2 pack) pack := by
  obtain ⟨m', ret, bytes⟩ := testCRC_returns crcSeed 2 fuel (Memory.ofBytes pack.elementData)
    (by decide) (by decide) datagram (by simp only [Memory.ofBytes, Stream.size] at small ⊢; omega)
    enough
  rw [onBuffer_of_ok ret, bytes]
  rfl

omit datagram small in
private theorem onBuffer_decrypt :
    onBuffer (decrypt crcSeed fuel) pack = .ok () (BaseProtocol.decrypt crcSeed pack) := by
  obtain ⟨m', ret, eq⟩ := decrypt_returns crcSeed fuel (Memory.ofBytes pack.elementData)
    enough pack.offset
  rw [onBuffer_of_ok ret]
  exact congrArg (EStateM.Result.ok ()) eq.symm

theorem processRecieve_inside
    (hin : BaseProtocol.testCRC crcSeed 2 pack = true →
      flag (BaseProtocol.decrypt crcSeed pack) = some 1 →
      InflateInside (BaseProtocol.decrypt crcSeed pack)) :
    processRecieve zlib crcSeed fuel pack =
      throwing (BaseProtocol.processRecieve zlib crcSeed) pack := by
  rw [processRecieve, bind_of_ok (onBuffer_testCRC crcSeed fuel pack datagram small enough)]
  simp only [throwing, BaseProtocol.processRecieve]
  cases passes : BaseProtocol.testCRC crcSeed 2 pack with
  | false => rfl
  | true =>
    rw [ite_run_pos rfl, bind_of_ok (onBuffer_decrypt crcSeed fuel pack enough)]
    have kept := (decrypt_keeps crcSeed pack).1
    have room := hin passes
    generalize BaseProtocol.decrypt crcSeed pack = plain at kept room ⊢
    apply get_bind.trans
    -- the deciphered packet is as long as the datagram, which may have two bytes only
    by_cases short : plain.size < 3
    · simp only [if_true, if_pos short]
      rfl
    obtain ⟨b, marked, read⟩ := readByteFrom_flag plain (by omega)
    have found : throwing (Stream.readByteFrom (plain.size - 3)) plain = .ok b.toNat plain := by
      simp only [throwing, read]
    rw [ite_run_neg short, bind_of_ok found]
    simp only [if_true, if_neg short, read]
    by_cases one : b.toNat = 1
    · have set : flag plain = some 1 := by
        rw [marked, UInt8.toNat_inj.mp (show b.toNat = (1 : UInt8).toNat from one)]
      rw [ite_run_pos one, if_pos one,
        bind_of_ok (decompress_inside zlib (room set) (by omega))]
      exact throwing_removeLastBytes _
    · rw [ite_run_neg one, if_neg one]
      exact throwing_removeLastBytes plain

theorem processRecieve_outside (passes : BaseProtocol.testCRC crcSeed 2 pack = true)
    (set : flag (BaseProtocol.decrypt crcSeed pack) = some 1)
    (out : ¬ InflateInside (BaseProtocol.decrypt crcSeed pack)) :
    ∃ index s, processRecieve zlib crcSeed fuel pack = .error (.outOfBounds index) s := by
  have long := size_of_flag set
  rw [processRecieve, bind_of_ok (onBuffer_testCRC crcSeed fuel pack datagram small enough),
    ite_run_pos passes, bind_of_ok (onBuffer_decrypt crcSeed fuel pack enough)]
  generalize BaseProtocol.decrypt crcSeed pack = plain at long set out ⊢
  obtain ⟨b, marked, read⟩ := readByteFrom_flag plain (by omega)
  obtain rfl : b = 1 := Option.some.inj (marked.symm.trans set)
  have found : throwing (Stream.readByteFrom (plain.size - 3)) plain = .ok 1 plain := by
    simp only [throwing, read]
    rfl
  obtain ⟨index, stopped⟩ := decompress_outside zlib (by omega) out
  refine ⟨index, plain, ?_⟩
  apply get_bind.trans
  rw [ite_run_neg (by omega), bind_of_ok found, ite_run_pos rfl,
    bind_of_error stopped]

end Receive

end Engine3.PacketMemory
