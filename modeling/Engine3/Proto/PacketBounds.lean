import Engine3.Proto.PacketMemory

/-!
# Which packets the codec can handle

The codec subtracts header and trailer lengths from the size of a packet, counts with
`short`s and does not look at what `inflate` returns. Here is, for each of these, exactly
which packets it gets right.
-/
namespace Engine3.PacketMemory

open Bytes MachineInt Exec CheckedMemory BaseProtocol List Memory

/-! ### Short datagrams -/

/-- A run that ends, by returning or by an exception, without an access outside its
buffers. -/
def StaysInside {α : Type} : EStateM.Result (Fault Exception) Stream α → Prop
  | .error (.outOfBounds _) _ => False
  | .error .outOfFuel _ => False
  | _ => True

instance {α : Type} (r : EStateM.Result (Fault Exception) Stream α) :
    Decidable (StaysInside r) :=
  match r with
  | .error (.outOfBounds _) _ => isFalse id
  | .error .outOfFuel _ => isFalse id
  | .error (.thrown _) _ => isTrue trivial
  | .ok _ _ => isTrue trivial

theorem staysInside_throwing {α : Type} (m : StreamM α) (pack : Stream) :
    StaysInside (throwing m pack) := by
  simp only [throwing]
  cases m pack <;> trivial

/-- Too short for anything compressed: the opcode is one byte and the flag stands on it, or it
is two bytes and the flag stands on the second. -/
def FlagInOpcode (bytes : List UInt8) : Prop :=
  (∃ x y, bytes = [1, x, y]) ∨ ∃ x y, bytes = [0, 1, x, y]

variable (crcSeed : UInt32) (pack : Stream)

private theorem decrypt_of_flagInOpcode (short : FlagInOpcode pack.elementData) :
    BaseProtocol.decrypt crcSeed pack = pack := by
  obtain ⟨bytes, o⟩ := pack
  rcases short with ⟨x, y, rfl⟩ | ⟨x, y, rfl⟩ <;> rfl

theorem flag_outside_iff : flag (BaseProtocol.decrypt crcSeed pack) = some 1 ∧
      ¬ InflateInside (BaseProtocol.decrypt crcSeed pack) ↔ FlagInOpcode pack.elementData := by
  constructor
  · rintro ⟨set, out⟩
    obtain ⟨size_eq, clear_eq⟩ := decrypt_keeps crcSeed pack
    have long : 3 ≤ pack.size := size_eq ▸ size_of_flag set
    have clear_le := clearLength_le pack.elementData
    simp only [InflateInside, size_eq, clear_eq] at out
    -- the opcode and the trailer overlap, so the cipher left the packet alone
    have plain : BaseProtocol.decrypt crcSeed pack = pack := by
      rw [BaseProtocol.decrypt, if_neg (by omega)]
      apply if_pos
      omega
    rw [plain, flag] at set
    obtain ⟨bytes, o⟩ := pack
    simp only [Stream.size] at long out set clear_le
    obtain three | four : bytes.length = 3 ∨ bytes.length = 4 := by omega
    · obtain ⟨a, b, c, rfl⟩ := length_eq_three.mp three
      obtain rfl : a = 1 := by simpa using set
      exact Or.inl ⟨b, c, rfl⟩
    · obtain ⟨a, b, c, d, rfl⟩ := length_eq_four.mp four
      obtain rfl : b = 1 := by simpa using set
      have zero : a = 0 := by
        by_contra ne
        simp [clearLength, ne] at out
      subst zero
      exact Or.inr ⟨c, d, rfl⟩
  · intro short
    rw [decrypt_of_flagInOpcode crcSeed pack short]
    obtain ⟨bytes, o⟩ := pack
    rcases short with ⟨x, y, rfl⟩ | ⟨x, y, rfl⟩
    · exact ⟨rfl, by simp [InflateInside, clearLength, Stream.size]⟩
    · exact ⟨rfl, by simp [InflateInside, clearLength, Stream.size]⟩

/-- Except for three or four bytes with the compression flag in their opcode. -/
theorem processRecieve_staysInside_iff (zlib : Zlib) (crcSeed : UInt32) (pack : Stream)
    (fuel : Nat) (nonempty : 2 ≤ pack.size) (datagram : pack.size ≤ 496)
    (enough : pack.size < fuel) :
    StaysInside (processRecieve zlib crcSeed fuel pack) ↔
      ¬ (BaseProtocol.testCRC crcSeed 2 pack = true ∧ FlagInOpcode pack.elementData) := by
  by_cases bad : BaseProtocol.testCRC crcSeed 2 pack = true ∧ FlagInOpcode pack.elementData
  · obtain ⟨passes, short⟩ := bad
    obtain ⟨set, out⟩ := (flag_outside_iff crcSeed pack).mpr short
    obtain ⟨index, s, stopped⟩ := processRecieve_outside zlib crcSeed fuel pack nonempty
      (by omega) enough passes set out
    rw [stopped]
    simp only [StaysInside, false_iff, not_not]
    exact ⟨passes, short⟩
  · apply iff_of_true _ bad
    rw [processRecieve_inside zlib crcSeed fuel pack nonempty (by omega) enough]
    · exact staysInside_throwing _ pack
    · intro passes set
      by_contra out
      exact bad ⟨passes, (flag_outside_iff crcSeed pack).mp ⟨set, out⟩⟩

theorem processRecieve_staysInside_compressed :
    let pack : Stream := ⟨[0, 9, 70, 66, 67, 68, 3, 71, 221, 84], 0⟩
    StaysInside (processRecieve ⟨id, id⟩ 7 11 pack) ∧ BaseProtocol.testCRC 7 2 pack = true ∧
      (BaseProtocol.decrypt 7 pack).elementData = [0, 9, 65, 66, 67, 68, 69, 1, 221, 84] := by
  intro pack
  have longer : ¬ FlagInOpcode pack.elementData := by
    rintro (⟨x, y, bytes⟩ | ⟨x, y, bytes⟩) <;> simp [pack] at bytes
  have spec := processRecieve_staysInside_iff ⟨id, id⟩ 7 pack 11 (by decide) (by decide) (by decide)
  exact ⟨spec.mpr fun bad => longer bad.2, by decide +kernel, by decide +kernel⟩

theorem processRecieve_reads_past_end :
    ¬ StaysInside (processRecieve ⟨id, id⟩ 0 4 ⟨[1, 199, 139], 0⟩) := by
  decide +kernel

/-! ### What `inflate` leaves behind -/

structure Decompressor (zlib : Zlib) where
  payload : List UInt8 → Option (List UInt8)
  complete : ∀ input p, payload input = some p → zlib.inflate input = p

/-- The packet holds its opcode and the whole of what its compressed part stands for. -/
def HoldsPayload {zlib : Zlib} (whole : Decompressor zlib) (plain final : Stream) : Prop :=
  ∃ p, whole.payload (zlibInput plain.elementData) = some p ∧
    final.elementData = plain.elementData.take (clearLength plain.elementData) ++ p

theorem removeLastBytes_decompress (zlib : Zlib) {plain : Stream} (hin : InflateInside plain) :
    Stream.removeLastBytes 3 (BaseProtocol.decompress zlib plain) =
      .ok () ⟨plain.elementData.take (clearLength plain.elementData) ++
        (zlib.inflate (zlibInput plain.elementData)).take compressionBufferMax, 2⟩ := by
  simp only [InflateInside] at hin
  have len : (plain.elementData.drop (plain.size - 2)).length = 2 := by
    rw [length_drop]
    simp only [Stream.size] at hin ⊢
    omega
  have expanded : BaseProtocol.decompress zlib plain =
      ⟨plain.elementData.take (clearLength plain.elementData) ++
        (zlib.inflate (zlibInput plain.elementData)).take compressionBufferMax ++
        1 :: plain.elementData.drop (plain.size - 2), 2⟩ := by
    simp only [BaseProtocol.decompress, if_neg (show ¬ plain.size < 3 by omega),
      rewrite_eq _ plain (by omega) (by omega), append_assoc]
  rw [expanded]
  exact removeLastBytes_trailer _ _ 1 len 2

theorem processRecieve_accepts (zlib : Zlib) {crcSeed : UInt32} {pack : Stream}
    (passes : BaseProtocol.testCRC crcSeed 2 pack = true)
    (set : flag (BaseProtocol.decrypt crcSeed pack) = some 1)
    (hin : InflateInside (BaseProtocol.decrypt crcSeed pack)) :
    let plain := BaseProtocol.decrypt crcSeed pack
    BaseProtocol.processRecieve zlib crcSeed pack =
      .ok true ⟨plain.elementData.take (clearLength plain.elementData) ++
        (zlib.inflate (zlibInput plain.elementData)).take compressionBufferMax, 2⟩ := by
  have long := size_of_flag set
  simp only [BaseProtocol.processRecieve, passes, if_true]
  generalize BaseProtocol.decrypt crcSeed pack = plain at long set hin ⊢
  obtain ⟨b, marked, read⟩ := readByteFrom_flag plain (by omega)
  obtain rfl : b = 1 := Option.some.inj (marked.symm.trans set)
  have one : (1 : UInt8).toNat = 1 := by decide
  simp only [if_neg (show ¬ plain.size < 3 by omega), read, one, if_true,
    removeLastBytes_decompress zlib hin]

def compressedDatagram : Stream := ⟨[0, 9, 7, 7, 1, 235, 240], 0⟩

private theorem compressedDatagram_flagged :
    BaseProtocol.testCRC 0 2 compressedDatagram = true ∧
      flag (BaseProtocol.decrypt 0 compressedDatagram) = some 1 ∧
      InflateInside (BaseProtocol.decrypt 0 compressedDatagram) := by
  decide +kernel

def stored : Decompressor ⟨id, id⟩ := ⟨some, fun _ _ same => Option.some.inj same⟩

def broken : Decompressor ⟨id, fun _ => []⟩ := ⟨fun _ => none, fun _ _ same => by cases same⟩

/-- Enciphering ends, given a round for each byte, and writes exactly the bytes between the
opcode and the checksum. -/
def EncryptCovers (crcSeed : UInt32) (bytes : List UInt8) : Prop :=
  ∀ fuel, bytes.length < fuel → ∃ m, encrypt crcSeed true fuel (ofBytes bytes) = .ok () m ∧
    ∀ i, i ∈ m.stores ↔ clearLength bytes ≤ i ∧ i + 2 < bytes.length

/-- The checksum is appended, given a round for each byte, after every byte in front of it was
read, and nothing but its own two bytes is written. -/
def ChecksumCovers (crcSeed : UInt32) (bytes : List UInt8) : Prop :=
  ∀ fuel, bytes.length < fuel →
    ∃ m, appendCRC crcSeed 2 fuel (ofBytes bytes) = .ok () m ∧
      (∀ i, i ∈ m.loads ↔ i + 2 < bytes.length) ∧
      ∀ i, i ∈ m.stores ↔ bytes.length ≤ i + 2 ∧ i < bytes.length

theorem encryptCovers_iff {bytes : List UInt8} (opcode : 2 ≤ bytes.length) :
    EncryptCovers crcSeed bytes ↔ bytes.length < 131074 + clearLength bytes := by
  have clear_le := clearLength_le bytes
  obtain ⟨at_most, all⟩ := counts_spec ((bytes.length : Int) - (clearLength bytes + 2 : Nat))
    (by omega)
  constructor
  · intro covers
    obtain ⟨m, ret, stores⟩ := covers (bytes.length + 1) (Nat.lt_succ_self _)
    obtain ⟨m', ret', _, stores'⟩ := encrypt_returns crcSeed true (bytes.length + 1)
      (ofBytes bytes) opcode (Nat.lt_succ_self _)
    obtain rfl : m = m' := by
      rw [ret] at ret'
      cases ret'
      rfl
    simp only [stores, ofBytes, not_mem_nil, false_or, if_true] at stores'
    -- otherwise the first byte that is left out is not the first of the checksum
    by_contra long
    have fst := stores' (clearLength bytes +
      (4 * blockCount ((bytes.length : Int) - (clearLength bytes + 2 : Nat)) +
        byteCount ((bytes.length : Int) - (clearLength bytes + 2 : Nat))))
    omega
  · intro short fuel le
    obtain ⟨m, ret, _, stores⟩ := encrypt_returns crcSeed true fuel (ofBytes bytes)
      opcode le
    refine ⟨m, ret, ?_⟩
    intro i
    simp only [stores, ofBytes, not_mem_nil, false_or, if_true,
      all.mpr (by omega)]
    omega

theorem checksumCovers_iff {bytes : List UInt8} (room : 2 ≤ bytes.length) :
    ChecksumCovers crcSeed bytes ↔ bytes.length < 32770 := by
  constructor
  · intro covers
    obtain ⟨m, ret, _⟩ := covers (bytes.length + 1) (Nat.lt_succ_self _)
    by_contra long
    exact appendCRC_never_returns crcSeed 2 _ (by decide) (by simp only [ofBytes]; omega)
      () m ret
  · intro short fuel le
    obtain ⟨m, ret, _, loads, stores⟩ := appendCRC_returns crcSeed 2 fuel
      (ofBytes bytes) (by decide) (by decide) room
      (by simp only [ofBytes]; omega) le
    refine ⟨m, ret, ?_, ?_⟩
    · intro i
      simp only [loads, ofBytes, not_mem_nil, false_or]
      omega
    · intro i
      simp only [stores, ofBytes, not_mem_nil, false_or]

/-- Up to 131071 bytes are enciphered, and up to 32767 are under the checksum. -/
theorem seal_covers_iff (crcSeed : UInt32) (body : List UInt8) (compressed : UInt8) :
    let bytes := body ++ [compressed, 0, 0]
    (EncryptCovers crcSeed bytes ↔ bytes.length < 131074 + clearLength bytes) ∧
      (ChecksumCovers crcSeed bytes ↔ bytes.length < 32770) := by
  intro bytes
  have trailer : 2 ≤ bytes.length := by
    simp [bytes]
  exact ⟨encryptCovers_iff crcSeed trailer, checksumCovers_iff crcSeed trailer⟩

theorem appendCRC_long_packet :
    let bytes := replicate 32767 (1 : UInt8) ++ [0, 0, 0]
    (∀ fuel m, appendCRC 0 2 fuel (ofBytes bytes) ≠ .ok () m) ∧
      ¬ ChecksumCovers 0 bytes := by
  intro bytes
  have len : bytes.length = 32770 := by
    rw [length_append, length_replicate]
    rfl
  have stuck : ∀ fuel m, appendCRC 0 2 fuel (ofBytes bytes) ≠ .ok () m :=
    fun fuel m => appendCRC_never_returns 0 2 fuel (by decide)
      (by simp only [ofBytes]; omega) () m
  refine ⟨stuck, ?_⟩
  intro covers
  obtain ⟨m, ret, _⟩ := covers 32771 (by omega)
  exact stuck 32771 m ret

end Engine3.PacketMemory
