import Mathlib.Data.List.Nodup
import Engine3.System.HeaderScan

/-!
# Objects with hashed names

`Serializable::convertToHashCodeNameMembers` writes an object again with the hash of every name in
place of the name. A variable is then looked up by its hash, in records of another layout, and the
bytes that are found are those that were found by its name.
-/
namespace Engine3

open Bytes Exec List

namespace CStrings

/-! ### The hash of a string -/

def crctable : Array UInt32 :=
  #[0x00000000, 0x04C11DB7, 0x09823B6E, 0x0D4326D9, 0x130476DC, 0x17C56B6B, 0x1A864DB2, 0x1E475005,
    0x2608EDB8, 0x22C9F00F, 0x2F8AD6D6, 0x2B4BCB61, 0x350C9B64, 0x31CD86D3, 0x3C8EA00A, 0x384FBDBD,
    0x4C11DB70, 0x48D0C6C7, 0x4593E01E, 0x4152FDA9, 0x5F15ADAC, 0x5BD4B01B, 0x569796C2, 0x52568B75,
    0x6A1936C8, 0x6ED82B7F, 0x639B0DA6, 0x675A1011, 0x791D4014, 0x7DDC5DA3, 0x709F7B7A, 0x745E66CD,
    0x9823B6E0, 0x9CE2AB57, 0x91A18D8E, 0x95609039, 0x8B27C03C, 0x8FE6DD8B, 0x82A5FB52, 0x8664E6E5,
    0xBE2B5B58, 0xBAEA46EF, 0xB7A96036, 0xB3687D81, 0xAD2F2D84, 0xA9EE3033, 0xA4AD16EA, 0xA06C0B5D,
    0xD4326D90, 0xD0F37027, 0xDDB056FE, 0xD9714B49, 0xC7361B4C, 0xC3F706FB, 0xCEB42022, 0xCA753D95,
    0xF23A8028, 0xF6FB9D9F, 0xFBB8BB46, 0xFF79A6F1, 0xE13EF6F4, 0xE5FFEB43, 0xE8BCCD9A, 0xEC7DD02D,
    0x34867077, 0x30476DC0, 0x3D044B19, 0x39C556AE, 0x278206AB, 0x23431B1C, 0x2E003DC5, 0x2AC12072,
    0x128E9DCF, 0x164F8078, 0x1B0CA6A1, 0x1FCDBB16, 0x018AEB13, 0x054BF6A4, 0x0808D07D, 0x0CC9CDCA,
    0x7897AB07, 0x7C56B6B0, 0x71159069, 0x75D48DDE, 0x6B93DDDB, 0x6F52C06C, 0x6211E6B5, 0x66D0FB02,
    0x5E9F46BF, 0x5A5E5B08, 0x571D7DD1, 0x53DC6066, 0x4D9B3063, 0x495A2DD4, 0x44190B0D, 0x40D816BA,
    0xACA5C697, 0xA864DB20, 0xA527FDF9, 0xA1E6E04E, 0xBFA1B04B, 0xBB60ADFC, 0xB6238B25, 0xB2E29692,
    0x8AAD2B2F, 0x8E6C3698, 0x832F1041, 0x87EE0DF6, 0x99A95DF3, 0x9D684044, 0x902B669D, 0x94EA7B2A,
    0xE0B41DE7, 0xE4750050, 0xE9362689, 0xEDF73B3E, 0xF3B06B3B, 0xF771768C, 0xFA325055, 0xFEF34DE2,
    0xC6BCF05F, 0xC27DEDE8, 0xCF3ECB31, 0xCBFFD686, 0xD5B88683, 0xD1799B34, 0xDC3ABDED, 0xD8FBA05A,
    0x690CE0EE, 0x6DCDFD59, 0x608EDB80, 0x644FC637, 0x7A089632, 0x7EC98B85, 0x738AAD5C, 0x774BB0EB,
    0x4F040D56, 0x4BC510E1, 0x46863638, 0x42472B8F, 0x5C007B8A, 0x58C1663D, 0x558240E4, 0x51435D53,
    0x251D3B9E, 0x21DC2629, 0x2C9F00F0, 0x285E1D47, 0x36194D42, 0x32D850F5, 0x3F9B762C, 0x3B5A6B9B,
    0x0315D626, 0x07D4CB91, 0x0A97ED48, 0x0E56F0FF, 0x1011A0FA, 0x14D0BD4D, 0x19939B94, 0x1D528623,
    0xF12F560E, 0xF5EE4BB9, 0xF8AD6D60, 0xFC6C70D7, 0xE22B20D2, 0xE6EA3D65, 0xEBA91BBC, 0xEF68060B,
    0xD727BBB6, 0xD3E6A601, 0xDEA580D8, 0xDA649D6F, 0xC423CD6A, 0xC0E2D0DD, 0xCDA1F604, 0xC960EBB3,
    0xBD3E8D7E, 0xB9FF90C9, 0xB4BCB610, 0xB07DABA7, 0xAE3AFBA2, 0xAAFBE615, 0xA7B8C0CC, 0xA379DD7B,
    0x9B3660C6, 0x9FF77D71, 0x92B45BA8, 0x9675461F, 0x8832161A, 0x8CF30BAD, 0x81B02D74, 0x857130C3,
    0x5D8A9099, 0x594B8D2E, 0x5408ABF7, 0x50C9B640, 0x4E8EE645, 0x4A4FFBF2, 0x470CDD2B, 0x43CDC09C,
    0x7B827D21, 0x7F436096, 0x7200464F, 0x76C15BF8, 0x68860BFD, 0x6C47164A, 0x61043093, 0x65C52D24,
    0x119B4BE9, 0x155A565E, 0x18197087, 0x1CD86D30, 0x029F3D35, 0x065E2082, 0x0B1D065B, 0x0FDC1BEC,
    0x3793A651, 0x3352BBE6, 0x3E119D3F, 0x3AD08088, 0x2497D08D, 0x2056CD3A, 0x2D15EBE3, 0x29D4F654,
    0xC5A92679, 0xC1683BCE, 0xCC2B1D17, 0xC8EA00A0, 0xD6AD50A5, 0xD26C4D12, 0xDF2F6BCB, 0xDBEE767C,
    0xE3A1CBC1, 0xE760D676, 0xEA23F0AF, 0xEEE2ED18, 0xF0A5BD1D, 0xF464A0AA, 0xF9278673, 0xFDE69BC4,
    0x89B8FD09, 0x8D79E0BE, 0x803AC667, 0x84FBDBD0, 0x9ABC8BD5, 0x9E7D9662, 0x933EB0BB, 0x97FFAD0C,
    0xAFB010B1, 0xAB710D06, 0xA6322BDF, 0xA2F33668, 0xBCB4666D, 0xB8757BDA, 0xB5365D03, 0xB1F740B4]

def hashCodeFrom (startCRC : UInt32) : List UInt8 → UInt32
  | [] => ~~~startCRC
  | c :: string =>
    if c = 0 then ~~~startCRC
    else hashCodeFrom (crctable.getD (((startCRC >>> 24) ^^^ c.toUInt32) &&& 0xFF).toNat 0 ^^^
      (startCRC <<< 8)) string

def hashCode (chars : List UInt8) : UInt32 := hashCodeFrom 0xFFFFFFFF chars

theorem hashCodeFrom_takeWhile (startCRC : UInt32) (chars : List UInt8) :
    hashCodeFrom startCRC (chars.takeWhile (· ≠ 0)) = hashCodeFrom startCRC chars := by
  induction chars generalizing startCRC with
  | nil => rfl
  | cons c chars ih =>
    by_cases zero : c = 0
    · simp [zero, hashCodeFrom]
    · rw [takeWhile_cons_of_pos (by simpa using zero), hashCodeFrom, hashCodeFrom,
        if_neg zero, if_neg zero, ih]

theorem hashCode_congr {a b : List UInt8} (eq : CString.ofChars a = CString.ofChars b) :
    hashCode a = hashCode b := by
  have chars : a.takeWhile (· ≠ 0) = b.takeWhile (· ≠ 0) := congrArg CString.chars eq
  rw [hashCode, hashCode, ← hashCodeFrom_takeWhile, chars, hashCodeFrom_takeWhile]

end CStrings

def Stream.readStream (len : Nat) : StreamM Stream := do
  if len = 0 then return Stream.empty
  else
    let buf ← Stream.readPrimitive len
    return ⟨buf, 0⟩

namespace Serializable

def convertMembers : Nat → Stream → StreamM Stream
  | 0, newData => return newData
  | n + 1, newData => do
    let name ← CStrings.parseFromBinaryStream
    let varSize ← Stream.readInt
    let str ← Stream.readStream varSize
    convertMembers n (((newData.writeInt (CStrings.hashCode name).toNat).writeInt
      varSize).writeStream str.elementData)

def convertToHashCodeNameMembers : StreamM Stream := do
  let dataSize ← Stream.readShort
  convertMembers dataSize (Stream.empty.writeShort dataSize)

/-! ### The records that are written -/

def hashed (entry : StoredName × List UInt8) : UInt32 × List UInt8 :=
  (CStrings.hashCode entry.1.1, entry.2)

theorem readStream_unread {stream : Stream} {data back : List UInt8}
    (next : stream.unread = data ++ back) :
    Stream.readStream data.length stream = .ok ⟨data, 0⟩ (stream.advance data.length) := by
  by_cases empty : data = []
  · subst empty
    rfl
  · have len : ¬ data.length = 0 := fun zero => empty (length_eq_zero_iff.mp zero)
    apply (ite_run_neg len).trans
    exact bind_of_ok (Stream.readPrimitive_unread stream back empty next)

theorem writeMember (content : List UInt8) (entry : StoredName × List UInt8) :
    (((Stream.mk content content.length).writeInt (CStrings.hashCode entry.1.1).toNat).writeInt
        entry.2.length).writeStream entry.2 =
      ⟨content ++ recordBytes hashes (hashed entry),
        (content ++ recordBytes hashes (hashed entry)).length⟩ := by
  rw [Stream.writeInt, Stream.writeInt, writeStream_end, writeStream_end, writeStream_end]
  simp [recordBytes, hashes, hashed]

variable {vars : List (StoredName × List UInt8)}

theorem convertMembers_records (stream : Stream) (lt : ∀ entry ∈ vars, entry.2.length < 2 ^ 32)
    (next : stream.unread = vars.flatMap (recordBytes names)) (content : List UInt8) :
    ∃ k, convertMembers vars.length ⟨content, content.length⟩ stream =
      .ok ⟨content ++ (vars.map hashed).flatMap (recordBytes hashes),
        (content ++ (vars.map hashed).flatMap (recordBytes hashes)).length⟩
        (stream.advance k) := by
  induction vars generalizing stream content with
  | nil =>
    refine ⟨0, ?_⟩
    rw [map_nil, flatMap_nil, append_nil]
    rfl
  | cons entry vars ih =>
    obtain ⟨fits, others⟩ := forall_mem_cons.mp lt
    obtain ⟨data, moved, keyed, sized, after, -⟩ :=
      read_header reads_names stream _ fits next
    have copied := readStream_unread after
    have behind := Stream.unread_advance data _ _ after _ rfl
    obtain ⟨k, converted⟩ := ih _ others behind
      (content ++ recordBytes hashes (hashed entry))
    refine ⟨(names.bytes entry.1).length + 4 + (entry.2.length + k), ?_⟩
    rw [length_cons, convertMembers, bind_of_ok keyed, bind_of_ok sized,
      bind_of_ok copied, writeMember, converted, moved, map_cons,
      flatMap_cons, append_assoc]
    simp only [Stream.advance, Nat.add_assoc]

theorem convertToHashCodeNameMembers_decode {object : Stream} (start : object.offset = 0)
    (decoded : decode names object.elementData = some vars) :
    ∃ newData object', convertToHashCodeNameMembers object = .ok newData object' ∧
      decode hashes newData.elementData = some (vars.map hashed) := by
  obtain ⟨next, counted⟩ := read_count start decoded
  obtain ⟨few, lt, -⟩ := (decode_eq_some_iff _ _ _).mp decoded
  obtain ⟨k, converted⟩ := convertMembers_records (object.advance 2) lt next
    (leBytes 2 vars.length)
  have written : Stream.empty.writeShort vars.length =
      ⟨leBytes 2 vars.length, (leBytes 2 vars.length).length⟩ := writeStream_end [] _
  refine ⟨_, _, (bind_of_ok counted).trans converted, ?_⟩
  rw [decode_eq_some_iff, length_map]
  refine ⟨few, ?_, rfl⟩
  intro entry mem
  obtain ⟨old, among, rfl⟩ := mem_map.mp mem
  exact lt old among

/-! ### Looking up -/

def dataAt (stream : Stream) (offset : Int) : Option (List UInt8) :=
  if offset = -1 then none
  else
    let size := leNat ((stream.elementData.drop (offset.toNat - 4)).take 4)
    some ((stream.elementData.drop offset.toNat).take size)

theorem dataAt_found (stream : Stream) (before data back : List UInt8)
    (lt : data.length < 2 ^ 32)
    (bytes : stream.elementData = before ++ (leBytes 4 data.length ++ (data ++ back))) :
    dataAt stream (before.length + 4 : Nat) = some data := by
  have found : ¬ ((before.length + 4 : Nat) : Int) = -1 := by omega
  have behind : stream.elementData.drop (before.length + 4) = data ++ back := by
    rw [bytes, ← drop_drop, drop_left, drop_leBytes]
  rw [dataAt, if_neg found, Int.toNat_natCast, Nat.add_sub_cancel, behind, bytes, drop_left,
    leNat_take_leBytes 4 _ _ lt]
  simp only [take_left]

section Lookup

variable {K R : Type} {format : KeyFormat K} {readKey : StreamM R} {value : K → R}
  (reads : Reads format readKey value) (isKey : R → Bool) {object : Stream}
  {vars : List (K × List UInt8)} (start : object.offset = 0)
  (decoded : decode format object.elementData = some vars)

include reads start decoded

theorem lookup_finds {entry : K × List UInt8} (mem : entry ∈ vars)
    (here : isKey (value entry.1) = true)
    (only : ∀ other ∈ vars, isKey (value other.1) = true → other = entry) :
    ∃ offset, getVariableDataOffset readKey isKey object = .ok offset object ∧
      dataAt object offset = some entry.2 := by
  obtain ⟨-, lt, -⟩ := (decode_eq_some_iff _ _ _).mp decoded
  obtain ⟨front, key, data, back, split, absent, fst⟩ :=
    exists_first (fun key => isKey (value key) = true) vars ⟨entry, mem, here⟩
  have among : (key, data) ∈ vars := by simp [split]
  have eq := only (key, data) among fst
  obtain ⟨before, -, bytes, found⟩ := getVariableDataOffset_found reads isKey start decoded front
    back key data split (fun other mem => Bool.eq_false_iff.mpr (absent other mem)) fst
  exact ⟨_, found, (dataAt_found object before data _ (lt _ among) bytes).trans (by rw [← eq])⟩

end Lookup

/-- Names with different hashes are looked up by them as they were by themselves. -/
theorem hashed_lookup {object : Stream} {vars : List (StoredName × List UInt8)}
    (start : object.offset = 0) (decoded : decode names object.elementData = some vars)
    (distinct : (vars.map fun entry => CStrings.hashCode entry.1.1).Nodup) :
    ∃ newData object', convertToHashCodeNameMembers object = .ok newData object' ∧
      (∀ variableName, ∀ entry ∈ vars, Named variableName entry.1 →
        (∃ offset, getVariableDataOffsetOfName variableName object = .ok offset object ∧
          dataAt object offset = some entry.2) ∧
        ∃ offset, getVariableDataOffsetOfHash (CStrings.hashCode variableName) newData.reset =
            .ok offset newData.reset ∧
          dataAt newData offset = some entry.2) ∧
      ∀ variableName,
        (∀ entry ∈ vars, CStrings.hashCode entry.1.1 ≠ CStrings.hashCode variableName) →
        getVariableDataOffsetOfName variableName object = .ok (-1) object ∧
          getVariableDataOffsetOfHash (CStrings.hashCode variableName) newData.reset =
            .ok (-1) newData.reset := by
  obtain ⟨newData, object', converted, content⟩ :=
    convertToHashCodeNameMembers_decode start decoded
  have output : decode hashes newData.reset.elementData = some (vars.map hashed) := content
  have only : ∀ a ∈ vars, ∀ b ∈ vars,
      CStrings.hashCode a.1.1 = CStrings.hashCode b.1.1 → a = b :=
    fun a fst b snd => inj_on_of_nodup_map distinct fst snd
  refine ⟨newData, object', converted, ?_, ?_⟩
  · intro variableName entry mem named
    have hash : CStrings.hashCode entry.1.1 = CStrings.hashCode variableName :=
      CStrings.hashCode_congr named
    constructor
    · -- a variable of the same name has the same hash, so it is this one
      apply lookup_finds reads_names (sameName · variableName) start decoded mem
        ((sameName_iff _ _).mpr named)
      intro other among eq
      exact only other among entry mem
        ((CStrings.hashCode_congr ((sameName_iff _ _).mp eq)).trans hash.symm)
    · apply lookup_finds reads_hashes (· == (CStrings.hashCode variableName).toNat) rfl output
        (mem_map_of_mem mem) (by simp [hashed, hash])
      intro other among eq
      obtain ⟨old, oldMember, rfl⟩ := mem_map.mp among
      have equal : CStrings.hashCode old.1.1 = CStrings.hashCode variableName :=
        UInt32.toNat_inj.mp (beq_iff_eq.mp eq)
      rw [only old oldMember entry mem (equal.trans hash.symm)]
  · intro variableName unused
    constructor
    · apply getVariableDataOffset_absent reads_names (sameName · variableName) start decoded
      intro entry mem
      exact Bool.eq_false_iff.mpr fun eq =>
        unused entry mem (CStrings.hashCode_congr ((sameName_iff _ _).mp eq))
    · apply getVariableDataOffset_absent reads_hashes
        (· == (CStrings.hashCode variableName).toNat) rfl output
      intro entry mem
      obtain ⟨old, oldMember, rfl⟩ := mem_map.mp mem
      exact beq_false_of_ne fun equal => unused old oldMember (UInt32.toNat_inj.mp equal)

theorem hashed_lookup_two :
    let object : Stream := ⟨[2, 0, 1, 0, 97, 2, 0, 0, 0, 5, 6, 1, 0, 98, 0, 0, 0, 0], 0⟩
    ∃ newData object', convertToHashCodeNameMembers object = .ok newData object' ∧
      (∃ offset, getVariableDataOffsetOfHash (CStrings.hashCode [97]) newData.reset =
        .ok offset newData.reset ∧ dataAt newData offset = some [5, 6]) ∧
      (∃ offset, getVariableDataOffsetOfHash (CStrings.hashCode [98]) newData.reset =
        .ok offset newData.reset ∧ dataAt newData offset = some []) ∧
      getVariableDataOffsetOfHash (CStrings.hashCode [99]) newData.reset =
        .ok (-1) newData.reset := by
  intro object
  have decoded : decode names object.elementData =
      some [(⟨[97], by decide⟩, [5, 6]), (⟨[98], by decide⟩, [])] := by decide
  obtain ⟨newData, object', converted, found, missing⟩ :=
    hashed_lookup rfl decoded (by decide +kernel)
  exact ⟨newData, object', converted, (found [97] (⟨[97], by decide⟩, [5, 6]) (by simp) rfl).2,
    (found [98] (⟨[98], by decide⟩, []) (by simp) rfl).2, (missing [99] (by decide +kernel)).2⟩

end Serializable

end Engine3
