import Engine3.Proto.BaseProtocol

/-!
# The codec is undone by `processRecieve`

The cipher is inverted word by word, since decryption takes the next key from the
ciphertext it reads. Around it the packet is split into the clear opcode, the enciphered
region and the two checksum bytes, none of which changes the length of another.
-/
namespace Engine3.BaseProtocol

open Bytes MachineInt List

/-! ### The cipher -/

variable (data : List UInt8)

private theorem toNat_word : (word data).toNat = leNat (data.take 4) := by
  have bound := leNat_lt (data.take 4)
  have width : 256 ^ (data.take 4).length ≤ 256 ^ 4 :=
    Nat.pow_le_pow_right (by decide) (length_take_le 4 data)
  exact Nat.mod_eq_of_lt (lt_of_lt_of_le bound width)

private theorem leBytes_word (le : 4 ≤ data.length) :
    leBytes 4 (word data).toNat = data.take 4 := by
  have four : (data.take 4).length = 4 := by simp [le]
  have eq := leBytes_leNat (data.take 4)
  rwa [four, ← toNat_word] at eq

private theorem word_leBytes (w : UInt32) (data : List UInt8) :
    word (leBytes 4 w.toNat ++ data) = w := by
  have bound := w.toNat_lt
  have front : (leBytes 4 w.toNat ++ data).take 4 = leBytes 4 w.toNat :=
    take_left' (length_leBytes 4 _)
  apply UInt32.toNat_inj.mp
  rw [toNat_word, front, leNat_leBytes]
  exact Nat.mod_eq_of_lt bound

private theorem xor_map_cancel (key : UInt8) (data : List UInt8) :
    (data.map (· ^^^ key)).map (· ^^^ key) = data := by
  rw [map_map]
  conv_rhs => rw [← map_id data]
  apply map_congr_left
  intro b _
  rw [Function.comp_apply, UInt8.xor_assoc, UInt8.xor_self, UInt8.xor_zero, id]

variable (next : UInt32 → UInt32 → UInt32) (blocks bytes : Nat)

theorem length_chainBlocks (seed : UInt32) (data : List UInt8)
    (le : 4 * blocks + bytes ≤ data.length) :
    (chainBlocks next blocks bytes seed data).length = data.length := by
  induction blocks generalizing seed data with
  | zero =>
    simp only [chainBlocks, length_append, length_map, length_take, length_drop]
    omega
  | succ blocks ih =>
    have rest := ih (next (word data) (word data ^^^ seed)) (data.drop 4)
      (by rw [length_drop]; omega)
    simp only [chainBlocks, length_append, length_leBytes, rest, length_drop]
    omega

theorem chainBlocks_append (seed : UInt32) (data back : List UInt8)
    (le : 4 * blocks + bytes ≤ data.length) : chainBlocks next blocks bytes seed (data ++ back) =
      chainBlocks next blocks bytes seed data ++ back := by
  induction blocks generalizing seed data with
  | zero =>
    have hin : bytes ≤ data.length := by omega
    simp only [chainBlocks, take_append_of_le_length hin,
      drop_append_of_le_length hin, append_assoc]
  | succ blocks ih =>
    have four : 4 ≤ data.length := by omega
    have eq : word (data ++ back) = word data := by
      simp only [word, take_append_of_le_length four]
    simp only [chainBlocks, eq, drop_append_of_le_length four, append_assoc]
    rw [ih _ (data.drop 4) (by rw [length_drop]; omega)]

theorem decryptBlocks_encryptBlocks (seed : UInt32) (data : List UInt8)
    (le : 4 * blocks + bytes ≤ data.length) :
    decryptBlocks blocks bytes seed (encryptBlocks blocks bytes seed data) = data := by
  induction blocks generalizing seed data with
  | zero =>
    have len : ((data.take bytes).map (· ^^^ seed.toUInt8)).length = bytes := by
      simp only [length_map, length_take]
      omega
    simp only [encryptBlocks, decryptBlocks, chainBlocks, take_left' len,
      drop_left' len, xor_map_cancel, take_append_drop]
  | succ blocks ih =>
    have plain : (word data ^^^ seed) ^^^ seed = word data := by
      rw [UInt32.xor_assoc, UInt32.xor_self, UInt32.xor_zero]
    have rest := ih (word data ^^^ seed) (data.drop 4) (by rw [length_drop]; omega)
    simp only [encryptBlocks, decryptBlocks] at rest
    simp only [encryptBlocks, decryptBlocks, chainBlocks, word_leBytes, plain,
      drop_left' (length_leBytes 4 _), rest, leBytes_word data (by omega),
      take_append_drop]

/-! ### Cipher and checksum on a packet -/

def sealBytes (crcSeed : UInt32) (data : List UInt8) : List UInt8 :=
  (appendCRC crcSeed 2 (encrypt crcSeed true ⟨data, 0⟩)).elementData

theorem counts_spec (nLength : Int) (low : -4 < nLength) :
    4 * blockCount nLength + byteCount nLength ≤ nLength.toNat ∧
      (4 * blockCount nLength + byteCount nLength = nLength.toNat ↔ nLength < 131072) := by
  simp only [blockCount, byteCount]
  by_cases neg : nLength < 0
  · obtain rfl | rfl | rfl : nLength = -1 ∨ nLength = -2 ∨ nLength = -3 := by omega
    all_goals decide
  · have nonneg : 0 ≤ nLength := by omega
    rw [Int.tdiv_eq_ediv_of_nonneg nonneg, Int.tmod_eq_emod_of_nonneg nonneg]
    simp only [i16]
    omega

private theorem counts (n : Nat) (lt : n < 32768) :
    4 * blockCount n + byteCount n = n :=
  (counts_spec n (by omega)).2.mpr (by omega)

theorem clearLength_le (pData : List UInt8) : clearLength pData ≤ 2 := by
  simp only [clearLength]
  split <;> omega

private theorem clearLength_append (clear back : List UInt8) (some : clear ≠ []) :
    clearLength (clear ++ back) = clearLength clear := by
  cases clear with
  | nil => exact absurd rfl some
  | cons b bs => rfl

private theorem clearLength_take_append (back : List UInt8) (some : data ≠ []) :
    clearLength (data.take (clearLength data) ++ back) = clearLength data := by
  cases data with
  | nil => exact absurd rfl some
  | cons b bs =>
    by_cases zero : b = 0
    · simp [clearLength, zero]
    · simp [clearLength, zero]

variable (seed : UInt32) (front : List UInt8)

private theorem generateCrc_append (back : List UInt8) :
    generateCrc seed (front ++ back) front.length = generateCrc seed front front.length := by
  simp only [generateCrc, take_left, take_length]

private theorem appendCRC_eq (two : List UInt8) (len : two.length = 2) (o : Nat) :
    appendCRC seed 2 ⟨front ++ two, o⟩ =
      ⟨front ++ beBytes 2 (generateCrc seed front front.length).toNat, o⟩ := by
  have n : (front ++ two).length - 2 = front.length := by
    rw [length_append, len]
    omega
  simp only [appendCRC, Stream.size, n, take_left, generateCrc_append,
    if_pos (show 2 > 0 by decide)]

private theorem testCRC_of_crc (o : Nat) :
    testCRC seed 2 ⟨front ++ beBytes 2 (generateCrc seed front front.length).toNat, o⟩ = true := by
  have n : (front ++ beBytes 2 (generateCrc seed front front.length).toNat).length - 2 =
      front.length := by simp
  simp only [testCRC, Stream.size, n, drop_left, generateCrc_append, beNat_beBytes,
    if_pos (show 2 > 0 by decide), beq_self_eq_true]

theorem size_encrypt {pack : Stream} (opcode : 2 ≤ pack.size) :
    (encrypt seed true pack).size = pack.size := by
  have clear_le := clearLength_le pack.elementData
  simp only [encrypt, Stream.size, if_true] at opcode ⊢
  have counts := (counts_spec _ (by omega : (-4 : Int) < (pack.elementData.length : Int) -
    (clearLength pack.elementData + 2 : Nat))).1
  rw [length_append, encryptBlocks, length_chainBlocks _ _ _ _ _
    (by rw [length_drop]; omega), length_take, length_drop]
  omega

theorem size_appendCRC {pack : Stream} (room : 2 ≤ pack.size) :
    (appendCRC seed 2 pack).size = pack.size := by
  simp only [appendCRC, Stream.size] at room ⊢
  rw [if_pos (by decide), length_append, length_take, length_beBytes]
  omega

theorem decrypt_keeps (pack : Stream) : (decrypt seed pack).size = pack.size ∧
      clearLength (decrypt seed pack).elementData = clearLength pack.elementData := by
  simp only [decrypt]
  split
  · exact ⟨rfl, rfl⟩
  split
  · exact ⟨rfl, rfl⟩
  next long some =>
    simp only [Stream.size] at long some ⊢
    have counts := (counts_spec _ (by omega : (-4 : Int) < (pack.elementData.length : Int) -
      (clearLength pack.elementData + 2 : Nat))).1
    constructor
    · rw [length_append, decryptBlocks, length_chainBlocks _ _ _ _ _
        (by rw [length_drop]; omega), length_take, length_drop]
      omega
    · exact clearLength_take_append _ _ (length_pos_iff.mp (by omega))

section Split

variable (seed : UInt32) (clear region two : List UInt8) (some : clear ≠ [])
  (opcode : clearLength clear = clear.length) (length : two.length = 2)
  (small : region.length < 32768)

include some opcode length

private theorem size_split : (((clear ++ (region ++ two)).length : Nat) : Int) -
    ((clearLength (clear ++ (region ++ two)) + 2 : Nat) : Int) = (region.length : Int) := by
  rw [clearLength_append _ _ some, opcode]
  simp only [length_append, length]
  omega

include small

private theorem encrypt_split (o : Nat) :
    encrypt seed true ⟨clear ++ (region ++ two), o⟩ =
      ⟨clear ++ (encryptBlocks (blockCount region.length) (byteCount region.length) seed region
        ++ two), o⟩ := by
  have split : clearLength (clear ++ (region ++ two)) = clear.length := by
    rw [clearLength_append _ _ some, opcode]
  have n := size_split clear region two some opcode length
  have whole := counts region.length small
  have inner := chainBlocks_append (fun _ written => written) (blockCount region.length)
    (byteCount region.length) seed region two (by omega)
  simp only [encrypt, Stream.size, if_true, n]
  rw [split, take_left, drop_left]
  exact congrArg (fun bytes => Stream.mk (clear ++ bytes) o) inner

private theorem decrypt_split (o : Nat) :
    decrypt seed ⟨clear ++ (region ++ two), o⟩ =
      ⟨clear ++ (decryptBlocks (blockCount region.length) (byteCount region.length) seed region
        ++ two), o⟩ := by
  have split : clearLength (clear ++ (region ++ two)) = clear.length := by
    rw [clearLength_append _ _ some, opcode]
  have n := size_split clear region two some opcode length
  have pos := length_pos_iff.mpr some
  have large : ¬ (clear ++ (region ++ two)).length < 3 := by
    omega
  have whole := counts region.length small
  have inner := chainBlocks_append (fun itemp _ => itemp) (blockCount region.length)
    (byteCount region.length) seed region two (by omega)
  simp only [decrypt, Stream.size, if_neg large, n]
  by_cases none : (region.length : Int) ≤ 0
  · -- nothing is enciphered, and the source returns early
    have nil : region = [] := length_eq_zero_iff.mp (by omega)
    subst nil
    rfl
  · rw [if_neg none, split, take_left, drop_left]
    exact congrArg (fun bytes => Stream.mk (clear ++ bytes) o) inner

end Split

private theorem clear_split (some : front ≠ []) :
    front = [0] ∨ ∃ clear region, front = clear ++ region ∧ clear ≠ [] ∧
      clearLength clear = clear.length := by
  cases front with
  | nil => exact absurd rfl some
  | cons b rest =>
    by_cases zero : b = 0
    · subst zero
      cases rest with
      | nil => exact Or.inl rfl
      | cons c rest => exact Or.inr ⟨[0, c], rest, rfl, by simp, rfl⟩
    · exact Or.inr ⟨[b], rest, rfl, by simp, by simp [clearLength, zero]⟩

private theorem sealBytes_split (seed : UInt32) (clear region two : List UInt8)
    (some : clear ≠ []) (opcode : clearLength clear = clear.length) (len : two.length = 2)
    (lt : region.length < 32768) :
    let enciphered := encryptBlocks (blockCount region.length) (byteCount region.length) seed region
    sealBytes seed (clear ++ region ++ two) = (clear ++ enciphered) ++
      beBytes 2 (generateCrc seed (clear ++ enciphered) (clear ++ enciphered).length).toNat := by
  intro enciphered
  rw [sealBytes, append_assoc, encrypt_split seed clear region two some opcode len lt,
    ← append_assoc, appendCRC_eq seed _ two len]

theorem open_sealBytes (two : List UInt8) (len : two.length = 2) (some : front ≠ [])
    (lt : front.length < 32768) : ∃ crc, crc.length = 2 ∧ ∀ o,
      testCRC seed 2 ⟨sealBytes seed (front ++ two), o⟩ = true ∧
      decrypt seed ⟨sealBytes seed (front ++ two), o⟩ = ⟨front ++ crc, o⟩ := by
  rcases clear_split front some with rfl | ⟨clear, region, rfl, someClear, opcode⟩
  · -- three bytes with a zero first: the cipher has nothing to do on either side
    obtain ⟨x, y, rfl⟩ := length_eq_two.mp len
    have plain : sealBytes seed ([0] ++ [x, y]) =
        [0] ++ beBytes 2 (generateCrc seed [0] 1).toNat := by
      have idle : encrypt seed true ⟨[0] ++ [x, y], 0⟩ = ⟨[0] ++ [x, y], 0⟩ := rfl
      rfl
    refine ⟨beBytes 2 (generateCrc seed [0] 1).toNat, length_beBytes 2 _, fun o => ?_⟩
    exact ⟨testCRC_of_crc seed [0] o, rfl⟩
  · have whole : region.length < 32768 := by
      rw [length_append] at lt
      omega
    have bytes := sealBytes_split seed clear region two someClear opcode len whole
    have counted := counts region.length whole
    have eq : (encryptBlocks (blockCount region.length) (byteCount region.length) seed
        region).length = region.length := length_chainBlocks _ _ _ _ _ (by omega)
    have inverse := decryptBlocks_encryptBlocks (blockCount region.length)
      (byteCount region.length) seed region (by omega)
    generalize encryptBlocks (blockCount region.length) (byteCount region.length) seed
      region = enciphered at bytes eq inverse
    refine ⟨beBytes 2 (generateCrc seed (clear ++ enciphered) (clear ++ enciphered).length).toNat,
      length_beBytes 2 _, fun o => ?_⟩
    rw [bytes]
    refine ⟨testCRC_of_crc seed _ o, ?_⟩
    rw [append_assoc, decrypt_split seed clear enciphered _ someClear opcode
      (length_beBytes 2 _) (by omega), eq, inverse, append_assoc]

/-! ### Compression -/

theorem rewrite_eq (payload : List UInt8) (pack : Stream)
    (opcode : clearLength pack.elementData ≤ pack.size) (trailer : 2 ≤ pack.size) :
    rewrite payload pack =
      ⟨pack.elementData.take (clearLength pack.elementData) ++
        (payload ++ 1 :: pack.elementData.drop (pack.size - 2)),
        clearLength pack.elementData + payload.length + 3⟩ := by
  set front := pack.elementData.take (clearLength pack.elementData) with front_eq
  set crc := pack.elementData.drop (pack.size - 2) with crc_eq
  have front_length : front.length = clearLength pack.elementData :=
    length_take_of_le opcode
  have crc_length : crc.length = 2 := by
    rw [crc_eq, length_drop]
    simp only [Stream.size] at trailer ⊢
    omega
  have total : (front ++ (payload ++ 1 :: crc)).length =
      payload.length + clearLength pack.elementData + 3 := by
    simp only [length_append, length_cons, front_length, crc_length]
    omega
  have room := Stream.size_setSize (payload.length + clearLength pack.elementData + 3) pack.reset
  have joined : front ++ payload ++ leBytes 1 1 ++ crc = front ++ (payload ++ 1 :: crc) := by
    simp [leBytes]
  -- the four writes are one write over the whole packet
  simp only [rewrite, Stream.writeByte, ← front_eq, ← crc_eq]
  rw [Stream.writeStream_writeStream front payload (Nat.zero_le _),
    Stream.writeStream_writeStream (front ++ payload) (leBytes 1 1) (Nat.zero_le _),
    Stream.writeStream_writeStream (front ++ payload ++ leBytes 1 1) crc (Nat.zero_le _), joined,
    Stream.writeStream_over rfl (by rw [total]; exact Nat.le_of_eq room), total,
    Nat.add_comm payload.length]

section Zlib

variable (opcode payload crc : List UInt8) (flag : UInt8) (some : opcode ≠ [])
  (clear : clearLength opcode = opcode.length) (length : crc.length = 2)
  (small : payload.length < 32768)

include some clear length small in
private theorem zlibInput_split :
    zlibInput (opcode ++ (payload ++ flag :: crc)) = payload := by
  have n : (((opcode ++ (payload ++ flag :: crc)).length : Nat) : Int) - opcode.length - 3 =
      (payload.length : Nat) := by
    simp only [length_append, length_cons, length]
    omega
  simp only [zlibInput, clearLength_append _ _ some, clear, n, u32_natCast, drop_left]
  rw [Nat.mod_eq_of_lt (by omega), take_left]

include some clear length in
private theorem rewrite_split (output : List UInt8) (o : Nat) :
    rewrite output ⟨opcode ++ (payload ++ flag :: crc), o⟩ =
      ⟨opcode ++ (output ++ 1 :: crc), opcode.length + output.length + 3⟩ := by
  have tail : (opcode ++ (payload ++ flag :: crc)).drop
      ((opcode ++ (payload ++ flag :: crc)).length - 2) = crc := by
    have front : opcode ++ (payload ++ flag :: crc) = (opcode ++ payload ++ [flag]) ++ crc := by
      simp
    rw [front, drop_left']
    simp only [length_append, length]
    omega
  have opening : clearLength (opcode ++ (payload ++ flag :: crc)) = opcode.length := by
    rw [clearLength_append _ _ some, clear]
  rw [rewrite_eq]
  · simp only [Stream.size, opening, take_left, tail]
  · simp only [opening, Stream.size, length_append]
    omega
  · simp only [Stream.size, length_append, length_cons, length]
    omega

include some clear length small in
private theorem decompress_split (zlib : Zlib) (o : Nat) :
    decompress zlib ⟨opcode ++ (payload ++ flag :: crc), o⟩ =
      ⟨opcode ++ ((zlib.inflate payload).take compressionBufferMax ++ 1 :: crc), 2⟩ := by
  have large : ¬ (opcode ++ (payload ++ flag :: crc)).length < 3 := by
    have pos := length_pos_iff.mpr some
    simp only [length_append, length_cons, length]
    omega
  simp only [decompress, Stream.size, if_neg large,
    zlibInput_split opcode payload crc flag some clear length small,
    rewrite_split opcode payload crc flag some clear length]

end Zlib

/-! ### Receiving -/

theorem readByteFrom_trailer (body crc : List UInt8) (flag : UInt8)
    (len : crc.length = 2) (o : Nat) :
    Stream.readByteFrom ((body ++ flag :: crc).length - 3) ⟨body ++ flag :: crc, o⟩ =
      .ok flag.toNat ⟨body ++ flag :: crc, o⟩ := by
  have place : (body ++ flag :: crc).length - 3 = body.length := by
    simp only [length_append, length_cons, len]
    omega
  have hin : ¬ body.length + 1 > (body ++ flag :: crc).length := by simp
  rw [place]
  change EStateM.map leNat _ _ = _
  simp only [EStateM.map, Stream.readPrimitiveFrom, Stream.size, if_neg hin, drop_left]
  rfl

theorem removeLastBytes_trailer (body crc : List UInt8) (flag : UInt8)
    (len : crc.length = 2) (o : Nat) :
    Stream.removeLastBytes 3 ⟨body ++ flag :: crc, o⟩ = .ok () ⟨body, o⟩ := by
  have large : ¬ (body ++ flag :: crc).length < 3 := by
    simp only [length_append, length_cons, len]
    omega
  have rest : (body ++ flag :: crc).length - 3 = body.length := by
    simp only [length_append, length_cons, len]
    omega
  have shrink : body.length - (body ++ flag :: crc).length = 0 := by simp
  simp only [Stream.removeLastBytes, Stream.size, if_neg large, Stream.setSize, rest, shrink,
    take_left, replicate_zero, append_nil]

variable (zlib : Zlib)

private theorem processRecieve_sealBytes (seed : UInt32) (body : List UInt8) (flag : UInt8)
    (lt : body.length < 32767) (o : Nat) :
    ∃ crc, crc.length = 2 ∧ ∀ final, Stream.removeLastBytes 3 (if flag.toNat = 1 then
        decompress zlib ⟨body ++ flag :: crc, o⟩ else ⟨body ++ flag :: crc, o⟩) = .ok () final →
      processRecieve zlib seed ⟨sealBytes seed (body ++ [flag, 0, 0]), o⟩ = .ok true final := by
  obtain ⟨crc, len, opened⟩ := open_sealBytes seed (body ++ [flag]) [0, 0] rfl (by simp)
    (by rw [length_append, length_singleton]; omega)
  obtain ⟨passes, plain⟩ := opened o
  simp only [append_assoc, singleton_append] at passes plain
  have large : ¬ (body ++ flag :: crc).length < 3 := by
    simp only [length_append, length_cons, len]
    omega
  refine ⟨crc, len, fun final removed => ?_⟩
  simp only [processRecieve, passes, plain, Stream.size, if_true, if_neg large,
    readByteFrom_trailer body crc flag len o, removed]

theorem processRecieve_plain (seed : UInt32) (body : List UInt8) (lt : body.length < 32767)
    (o : Nat) :
    processRecieve zlib seed ⟨sealBytes seed (body ++ [0, 0, 0]), o⟩ = .ok true ⟨body, o⟩ := by
  obtain ⟨crc, len, received⟩ := processRecieve_sealBytes zlib seed body 0 lt o
  apply received
  rw [if_neg (by decide), removeLastBytes_trailer body crc 0 len o]

variable {opcode payload : List UInt8} {pack : BasePacket}

theorem processRecieve_compressed (zlib : Zlib) (seed : UInt32) (some : opcode ≠ [])
    (clear : clearLength opcode = opcode.length) (lt : (opcode ++ payload).length < 32767)
    (o : Nat) :
    processRecieve zlib seed ⟨sealBytes seed (opcode ++ payload ++ [1, 0, 0]), o⟩ =
      .ok true ⟨opcode ++ (zlib.inflate payload).take compressionBufferMax, 2⟩ := by
  obtain ⟨crc, len, received⟩ := processRecieve_sealBytes zlib seed (opcode ++ payload) 1 lt o
  have whole : payload.length < 32768 := by
    rw [length_append] at lt
    omega
  apply received
  rw [if_pos (by decide), append_assoc opcode,
    decompress_split opcode payload crc 1 some clear len whole, ← append_assoc opcode,
    removeLastBytes_trailer _ crc 1 len 2]

/-! ### The whole way -/

structure IsClosed (pack : BasePacket) (body : List UInt8) : Prop where
  bytes : pack.elementData = body ++ [UInt8.ofNat pack.doComp.toNat, 0, 0]
  cursor : pack.offset = body.length + 3
  large : pack.doComp = true → 100 ≤ body.length

theorem isClosed_close (pack : BasePacket) (atEnd : pack.offset = pack.size) :
    IsClosed pack.close pack.elementData := by
  rw [BasePacket.close_at_end pack atEnd]
  refine ⟨rfl, rfl, fun compresses => ?_⟩
  simp only [BasePacket.compresses, Bool.and_eq_true, decide_eq_true_eq] at compresses
  exact compresses.2

def wire (zlib : Zlib) (crcSeed : UInt32) (pack : BasePacket) : List UInt8 :=
  (prepareEncryptionAndCompression zlib crcSeed pack).elementData

private theorem wire_of_compress (seed : UInt32) (pack : BasePacket) (encr : pack.doEncr = true)
    (crc : pack.doCRCTest = true) (on : pack.doComp = true) (done : Bool) (data : List UInt8)
    (o : Nat) (res : compress zlib pack.toStream = .ok done ⟨data, o⟩) :
    wire zlib seed pack = sealBytes seed data := by
  simp only [wire, prepareEncryptionAndCompression, on, if_true, BasePacket.onStream, res, encr,
    crc]
  rfl

private theorem wire_uncompressed (seed : UInt32) (pack : BasePacket) (encr : pack.doEncr = true)
    (crc : pack.doCRCTest = true) (off : pack.doComp = false) :
    wire zlib seed pack = sealBytes seed pack.elementData := by
  simp only [wire, prepareEncryptionAndCompression, off, Bool.false_eq_true, if_false, encr, crc,
    if_true]
  rfl

private theorem compress_closed (pack : BasePacket) (opcode payload : List UInt8)
    (closed : IsClosed pack (opcode ++ payload)) (on : pack.doComp = true) (some : opcode ≠ [])
    (clear : clearLength opcode = opcode.length) (lt : payload.length < 32768) :
    (∃ o, compress zlib pack.toStream = .ok true ⟨opcode ++ zlib.deflate payload ++ [1, 0, 0], o⟩ ∧
      (zlib.deflate payload).length < pack.size) ∨
    (∃ o, compress zlib pack.toStream = .ok false ⟨opcode ++ payload ++ [0, 0, 0], o⟩) := by
  obtain ⟨bytes, cursor, -⟩ := closed
  obtain ⟨⟨data, offset⟩, sequence, doSeq, doEncr, doComp, doCRCTest⟩ := pack
  simp only at bytes cursor on
  subst bytes cursor on
  have shape : opcode ++ payload ++ [UInt8.ofNat true.toNat, 0, 0] =
      opcode ++ (payload ++ 1 :: [0, 0]) := by simp
  have input := zlibInput_split opcode payload [0, 0] 1 some clear rfl lt
  by_cases fits : ((zlib.deflate payload).take
      ((opcode ++ (payload ++ 1 :: [0, 0])).length + 20)).length + 3 ≥
      (opcode ++ (payload ++ 1 :: [0, 0])).length
  · right
    have place : (opcode ++ payload).length + 3 - 3 = (opcode ++ payload).length := by omega
    have hin : ¬ (opcode ++ payload).length + 1 >
        (opcode ++ (payload ++ 1 :: [0, 0])).length := by
      simp only [length_append, length_cons, length_nil]
      omega
    have front : (opcode ++ (payload ++ 1 :: [0, 0])).take (opcode ++ payload).length =
        opcode ++ payload := by rw [← append_assoc, take_left]
    have back : (opcode ++ (payload ++ 1 :: [0, 0])).drop ((opcode ++ payload).length + 1) =
        [0, 0] := by rw [← append_assoc, ← drop_drop, drop_left]; rfl
    refine ⟨(opcode ++ payload).length + 3, ?_⟩
    simp only [shape, compress, Stream.size, input, if_pos fits, place, Stream.writePrimitiveTo,
      length_singleton, if_neg hin, front, back]
    simp
  · left
    -- an output that is kept is far below the end of its buffer, so it was not cut
    have whole : (zlib.deflate payload).take ((opcode ++ (payload ++ 1 :: [0, 0])).length + 20) =
        zlib.deflate payload := by
      apply take_of_length_le
      rw [length_take] at fits
      omega
    rw [whole] at fits
    refine ⟨0, ?_, ?_⟩
    · simp only [shape, compress, Stream.size, input, whole, if_neg fits,
        rewrite_split opcode payload [0, 0] 1 some clear rfl, Stream.reset, append_assoc]
    · simp only [shape, Stream.size]
      omega

theorem processRecieve_wire {zlib : Zlib}
    (inverse : ∀ data, zlib.inflate (zlib.deflate data) = data) (seed : UInt32) {body : List UInt8}
    (closed : IsClosed pack body) (encr : pack.doEncr = true) (crc : pack.doCRCTest = true)
    (lt : body.length ≤ 493) (o : Nat) : ∃ cursor, (cursor = o ∨ cursor = 2) ∧
      processRecieve zlib seed ⟨wire zlib seed pack, o⟩ = .ok true ⟨body, cursor⟩ := by
  cases on : pack.doComp with
  | false =>
    refine ⟨o, Or.inl rfl, ?_⟩
    have bytes := closed.bytes
    rw [on] at bytes
    rw [wire_uncompressed zlib seed pack encr crc on, bytes]
    exact processRecieve_plain zlib seed body (by omega) o
  | true =>
    have large := closed.large on
    -- at 100 bytes or more the opcode is there, so the packet splits behind it
    rcases clear_split body (by rintro rfl; simp at large) with rfl |
      ⟨opcode, payload, rfl, some, clear⟩
    · simp at large
    have payloadSmall : payload.length ≤ 493 := by
      rw [length_append] at lt
      omega
    rcases compress_closed zlib pack opcode payload closed on some clear (by omega) with
      ⟨out, res, shorter⟩ | ⟨out, res⟩
    · refine ⟨2, Or.inr rfl, ?_⟩
      have size : pack.size = (opcode ++ payload).length + 3 := by
        rw [Stream.size, closed.bytes, length_append]
        rfl
      rw [wire_of_compress zlib seed pack encr crc on _ _ _ res,
        processRecieve_compressed zlib seed some clear
          (by rw [length_append] at *; omega), inverse,
        take_of_length_le (show payload.length ≤ compressionBufferMax by
          simp only [compressionBufferMax]; omega)]
    · refine ⟨o, Or.inl rfl, ?_⟩
      rw [wire_of_compress zlib seed pack encr crc on _ _ _ res]
      exact processRecieve_plain zlib seed _ (by omega) o

theorem wire_clear (zlib : Zlib) (seed : UInt32) (closed : IsClosed pack (opcode ++ payload))
    (encr : pack.doEncr = true) (crc : pack.doCRCTest = true) (some : opcode ≠ [])
    (clear : clearLength opcode = opcode.length) (lt : (opcode ++ payload).length ≤ 493) :
    ∃ rest, wire zlib seed pack = opcode ++ rest := by
  have sealed : ∀ region flag, region.length < 32767 →
      ∃ rest, sealBytes seed (opcode ++ region ++ [flag, 0, 0]) = opcode ++ rest := by
    intro region flag bound
    have bytes := sealBytes_split seed opcode (region ++ [flag]) [0, 0] some clear rfl
      (by rw [length_append, length_singleton]; omega)
    simp only [append_assoc, singleton_append] at bytes ⊢
    exact ⟨_, bytes⟩
  rw [length_append] at lt
  cases on : pack.doComp with
  | false =>
    rw [wire_uncompressed zlib seed pack encr crc on, closed.bytes]
    exact sealed payload _ (by omega)
  | true =>
    have size : pack.size = (opcode ++ payload).length + 3 := by
      rw [Stream.size, closed.bytes, length_append]
      rfl
    rw [length_append] at size
    rcases compress_closed zlib pack opcode payload closed on some clear (by omega) with
      ⟨out, res, shorter⟩ | ⟨out, res⟩
    · rw [wire_of_compress zlib seed pack encr crc on _ _ _ res]
      exact sealed _ 1 (by omega)
    · rw [wire_of_compress zlib seed pack encr crc on _ _ _ res]
      exact sealed payload 0 (by omega)

/-- `processRecieve` inverts the sending side for every packet that fits a datagram. -/
theorem processRecieve_prepareEncryptionAndCompression (zlib : Zlib)
    (inverse : ∀ data, zlib.inflate (zlib.deflate data) = data) (crcSeed : UInt32)
    (pack : BasePacket) (atEnd : pack.offset = pack.size) (encr : pack.doEncr = true)
    (crc : pack.doCRCTest = true) (small : pack.close.size ≤ 496) (offset : Nat) :
    ∃ cursor, processRecieve zlib crcSeed
        ⟨(prepareEncryptionAndCompression zlib crcSeed pack.close).elementData, offset⟩ =
      .ok true ⟨pack.elementData, cursor⟩ := by
  have closed := isClosed_close pack atEnd
  have size : pack.close.size = pack.elementData.length + 3 := by
    rw [Stream.size, closed.bytes, length_append]
    rfl
  have flags : pack.close.doEncr = true ∧ pack.close.doCRCTest = true := by
    rw [BasePacket.close_at_end pack atEnd]
    exact ⟨encr, crc⟩
  obtain ⟨cursor, -, received⟩ := processRecieve_wire inverse crcSeed closed flags.1 flags.2
    (by omega) offset
  exact ⟨cursor, received⟩

theorem processRecieve_prepareEncryptionAndCompression_identity :
    ∃ cursor, processRecieve ⟨id, id⟩ 0xDEADBABE
        ⟨(prepareEncryptionAndCompression ⟨id, id⟩ 0xDEADBABE
          { BasePacket.ofBytes (List.replicate 120 7) with doComp := true }.close).elementData, 2⟩ =
      .ok true ⟨replicate 120 7, cursor⟩ :=
  processRecieve_prepareEncryptionAndCompression ⟨id, id⟩ (fun _ => rfl) 0xDEADBABE
    { BasePacket.ofBytes (replicate 120 7) with doComp := true } rfl rfl rfl
    (by decide +kernel) 2

end Engine3.BaseProtocol
