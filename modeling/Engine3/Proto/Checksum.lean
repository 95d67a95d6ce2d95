import Engine3.Library.Crc32
import Engine3.Proto.PacketMemory

/-!
# The checksum is CRC-32

The table of `protodetail`, the register that is set up from the seed by hand and the sign
extension of the characters, against the bit by bit definition: the checksum of a packet is
the CRC-32 of the seed, least significant octet first, followed by the packet.
-/
namespace Engine3.BaseProtocol

open Bytes CheckedMemory Crc32

/-! ### The table -/

theorem crcTable_remainder {i : UInt32} (lt : i.toNat < 256) :
    crcTable.getD i.toNat 0 = remainder i := by
  have entries : ∀ k : Fin 256, crcTable.getD k 0 = remainder (UInt32.ofNat k) := by
    decide +kernel
  have entry := entries ⟨i.toNat, lt⟩
  rwa [UInt32.ofNat_toNat] at entry

private theorem high_octet_clear (nCrc : UInt32) :
    (nCrc >>> (8 : UInt32)) &&& (0x00FFFFFF : UInt32) = nCrc >>> 8 := by
  have bound := nCrc.toNat_lt
  have shifted : (nCrc >>> 8).toNat = nCrc.toNat / 256 := by
    exact Nat.shiftRight_eq_div_pow _ 8
  have mask : (0x00FFFFFF : UInt32).toNat = 2 ^ 24 - 1 := rfl
  apply UInt32.toNat_inj.mp
  rw [UInt32.toNat_and, mask, Nat.and_two_pow_sub_one_eq_mod, shifted]
  exact Nat.mod_eq_of_lt (by omega)

theorem crcRound_eq_byteStep (nCrc x : UInt32) :
    crcRound nCrc (x ^^^ nCrc) = byteStep nCrc x.toUInt8 := by
  have lt : ((x ^^^ nCrc) &&& 0xFF).toNat < 256 := by
    have mask : (0xFF : UInt32).toNat = 2 ^ 8 - 1 := rfl
    rw [UInt32.toNat_and, mask, Nat.and_two_pow_sub_one_eq_mod]
    exact Nat.mod_lt _ (by decide)
  rw [crcRound, high_octet_clear, crcTable_remainder lt, byteStep_eq_remainder, index_octet]

theorem toUInt8_signExtended (c : UInt8) : c.toInt8.toInt32.toUInt32.toUInt8 = c := by
  have all : ∀ k : Fin 256, (UInt8.ofNat k).toInt8.toInt32.toUInt32.toUInt8 = UInt8.ofNat k := by
    decide +kernel
  have here := all ⟨c.toNat, c.toNat_lt⟩
  rwa [UInt8.ofNat_toNat] at here

theorem crcStart_eq (seed : UInt32) :
    crcStart seed = (leBytes 4 seed.toNat).foldl byteStep 0xFFFFFFFF := by
  have fst : crcTable.getD (~~~seed &&& 0xFF).toNat 0 ^^^ 0x00FFFFFF =
      byteStep 0xFFFFFFFF seed.toUInt8 := by
    have round := crcRound_eq_byteStep 0xFFFFFFFF seed
    have inverted : seed ^^^ 0xFFFFFFFF = ~~~seed :=
      UInt32.toBitVec_inj.mp BitVec.xor_allOnes
    rw [← round, crcRound, inverted, UInt32.xor_comm]
    rfl
  rw [leBytes_octets]
  simp only [List.foldl_cons, List.foldl_nil, crcStart, fst, crcRound_eq_byteStep]

/-! ### Packets -/

theorem generateCRC_eq (data : List UInt8) (seed : UInt32) :
    generateCRC data seed = crc32 (leBytes 4 seed.toNat ++ data) := by
  have step : (fun (nCrc : UInt32) (c : UInt8) =>
      crcRound nCrc (c.toInt8.toInt32.toUInt32 ^^^ nCrc)) = byteStep := by
    funext nCrc c
    rw [crcRound_eq_byteStep, toUInt8_signExtended]
  rw [generateCRC, step, crcStart_eq, crc32, List.foldl_append]

/-- With the bytes of the seed in front, the checksum is CRC-32. -/
theorem checksum_is_crc32 (seed : UInt32) (data : List UInt8) :
    generateCRC data seed = crc32 (leBytes 4 seed.toNat ++ data) ∧
    ∀ (pack : Stream) (nLength fuel : Nat), pack.size < 32768 → nLength ≤ pack.size →
      nLength < fuel →
      ∃ m, PacketMemory.generateCrc seed fuel nLength (Memory.ofBytes pack.elementData) =
          .ok (crc32 (leBytes 4 seed.toNat ++ pack.elementData.take nLength)) m ∧
        m.bytes = pack.elementData := by
  refine ⟨generateCRC_eq data seed, ?_⟩
  intro pack nLength fuel lt hin le
  obtain ⟨m, ret, bytes, _, _⟩ := PacketMemory.generateCrc_returns seed fuel
    (by omega) le (Memory.ofBytes pack.elementData) hin
  refine ⟨m, ?_, bytes⟩
  rw [ret, ← generateCRC_eq]
  rfl

theorem checksum_of_signed_bytes :
    generateCRC [1, 200, 255] 7 = crc32 (leBytes 4 7 ++ [1, 200, 255]) ∧
    ∃ m, PacketMemory.generateCrc 7 4 3 (Memory.ofBytes [1, 200, 255]) =
        .ok (crc32 (leBytes 4 7 ++ [1, 200, 255])) m ∧ m.bytes = [1, 200, 255] := by
  obtain ⟨static, mem⟩ := checksum_is_crc32 7 [1, 200, 255]
  exact ⟨static, mem ⟨[1, 200, 255], 0⟩ 3 4 (by simp [Stream.size]) (by simp [Stream.size])
    (by decide)⟩

end Engine3.BaseProtocol
