import Engine3.Library.MachineInt
import Engine3.Library.Regrouping
import Engine3.System.SchemaEvolution

/-!
# Binary data as text

`engine/db/BinaryData`: bytes as characters of six bits, without padding characters. Both loops keep
bits that are not yet a group in an accumulator, at its upper end, and both buffers are as long as
the output is computed to be.
-/
namespace Engine3.BinaryData

open MachineInt Regrouping List

/-! ### The source -/

def base64Chars : List UInt8 :=
  [65, 66, 67, 68, 69, 70, 71, 72, 73, 74, 75, 76, 77, 78, 79, 80,
    81, 82, 83, 84, 85, 86, 87, 88, 89, 90, 97, 98, 99, 100, 101, 102,
    103, 104, 105, 106, 107, 108, 109, 110, 111, 112, 113, 114, 115, 116, 117, 118,
    119, 120, 121, 122, 48, 49, 50, 51, 52, 53, 54, 55, 56, 57, 43, 47]

def put (oDataSize : Nat) (out : List UInt8) (c : UInt8) : Except Exception (List UInt8) :=
  if out.length < oDataSize then .ok (out ++ [c])
  else .error (.abort "write behind the buffer")

def spit (oDataSize : Nat) (out : List UInt8) (acc : UInt8) : Except Exception (List UInt8) :=
  match base64Chars[acc.toNat]? with
  | some c => put oDataSize out c
  | none => .error (.abort "read behind the table")

def encodeByte (oDataSize : Nat) (out : List UInt8) (acc : UInt8) (accbits bits : Nat)
    (byte : UInt8) : Except Exception (List UInt8 × UInt8 × Nat) :=
  if accbits + bits ≥ 6 then
    match spit oDataSize out (acc ||| byte >>> UInt8.ofNat (2 + accbits)) with
    | .error e => .error e
    | .ok out =>
      encodeByte oDataSize out 0 0 (bits - (6 - accbits)) (byte <<< UInt8.ofNat (6 - accbits))
  else .ok (out, byte >>> 2, bits)
termination_by accbits + bits

def encodeBytes (oDataSize : Nat) :
    List UInt8 → List UInt8 → UInt8 → Nat → Except Exception (List UInt8 × UInt8 × Nat)
  | [], out, acc, accbits => .ok (out, acc, accbits)
  | byte :: bytes, out, acc, accbits =>
    match encodeByte oDataSize out acc accbits 8 byte with
    | .error e => .error e
    | .ok (out, acc, accbits) => encodeBytes oDataSize bytes out acc accbits

def spitLeft (oDataSize : Nat) (out : List UInt8) (acc : UInt8) (accbits : Nat) :
    Except Exception (List UInt8) :=
  if accbits ≠ 0 then spit oDataSize out acc else .ok out

def encode (iData : List UInt8) : Except Exception (List UInt8) := do
  let oDataSize := (1 + (i32 (iData.length * 8 + 5)).tdiv 6).toNat
  let (out, acc, accbits) ← encodeBytes oDataSize iData [] 0 0
  let out ← spitLeft oDataSize out acc accbits
  let out ← put oDataSize out 0
  -- the string is made of what stands in front of the terminator
  return (CString.ofChars out).chars

def decodeChars (oDataSize : Nat) :
    List UInt8 → List UInt8 → UInt8 → Nat → Except Exception (Option (List UInt8))
  | [], out, _, _ =>
    if out.length < oDataSize then .error (.abort "read behind the buffer") else .ok (some out)
  | c :: cur, out, acc, accbits =>
    if out.length < oDataSize then
      if c = 0 then .ok (some out)
      else
        match base64Chars.idxOf? c with
        | none => .ok none
        | some s =>
          let byte : UInt8 := UInt8.ofNat s <<< 2
          if accbits + 6 ≥ 8 then
            decodeChars oDataSize cur (out ++ [acc ||| byte >>> UInt8.ofNat accbits])
              (byte <<< UInt8.ofNat (8 - accbits)) (accbits - 2)
          else decodeChars oDataSize cur out byte 6
    else .ok (some out)

def decode (iData : List UInt8) : Except Exception (Option (List UInt8)) :=
  decodeChars ((i32 (iData.length * 3)).tdiv 4).toNat (iData ++ [0]) [] 0 0

/-! ### Characters and groups of six bits -/

def char (index : Nat) : UInt8 := base64Chars.getD index 0

theorem char_spec {index : Nat} (lt : index < 64) :
    base64Chars[index]? = some (char index) ∧ char index ≠ 0 ∧
      base64Chars.idxOf? (char index) = some index := by
  have all : ∀ index : Fin 64, base64Chars[index.1]? = some (char index) ∧ char index ≠ 0 ∧
      base64Chars.idxOf? (char index) = some index.1 := by decide
  exact all ⟨index, lt⟩

theorem spit_ok {oDataSize : Nat} {out : List UInt8} {acc : UInt8} (lt : acc.toNat < 64)
    (room : out.length < oDataSize) :
    spit oDataSize out acc = .ok (out ++ [char acc.toNat]) := by
  rw [spit, (char_spec lt).1]
  exact if_pos room

theorem toNat_or_of_apart (high low : UInt8) (k : Nat) (apart : high.toNat % 2 ^ k = 0)
    (lt : low.toNat < 2 ^ k) : (high ||| low).toNat = high.toNat + low.toNat := by
  have multiple : high.toNat = 2 ^ k * (high.toNat / 2 ^ k) := by
    rw [Nat.mul_div_cancel' (Nat.dvd_of_mod_eq_zero apart)]
  rw [UInt8.toNat_or, multiple, Nat.two_pow_add_eq_or_of_lt lt]

theorem toNat_shiftRight (byte : UInt8) (k : Nat) (lt : k < 8) :
    (byte >>> UInt8.ofNat k).toNat = byte.toNat / 2 ^ k := by
  have amount : k % 256 % 8 = k := by omega
  rw [UInt8.toNat_shiftRight, UInt8.toNat_ofNat', amount, Nat.shiftRight_eq_div_pow]

theorem toNat_shiftLeft (byte : UInt8) (k : Nat) (lt : k < 8) :
    (byte <<< UInt8.ofNat k).toNat = byte.toNat * 2 ^ k % 256 := by
  have amount : k % 256 % 8 = k := by omega
  rw [UInt8.toNat_shiftLeft, UInt8.toNat_ofNat', amount, Nat.shiftLeft_eq]

/-! ### Encoding -/

structure Encoding (read : List UInt8) (groups : List Nat) (acc : UInt8) (accbits bits : Nat)
    (byte : UInt8) (high low : Nat) : Prop where
  regroups : Regroups 8 6 (read.map UInt8.toNat) groups (accbits + bits) (high * 2 ^ bits + low)
  inside : ∀ group ∈ groups, group < 64
  few : accbits < 6
  fits : bits ≤ 8
  accumulated : acc.toNat = high * 2 ^ (6 - accbits)
  left : byte.toNat = low * 2 ^ (8 - bits)
  small : low < 2 ^ bits

variable {read out : List UInt8} {groups : List Nat} {acc byte : UInt8}
  {accbits bits high low held : Nat}

theorem Encoding.group (state : Encoding read groups acc accbits bits byte high low)
    (le : 6 ≤ accbits + bits) :
    ∃ group < 64, (acc ||| byte >>> UInt8.ofNat (2 + accbits)).toNat = group ∧
      Encoding read (groups ++ [group]) 0 0 (bits - (6 - accbits))
        (byte <<< UInt8.ofNat (6 - accbits)) 0 (low % 2 ^ (bits - (6 - accbits))) := by
  have few := state.few
  have fits := state.fits
  have lt := state.small
  generalize kept : bits - (6 - accbits) = rest
  -- the bits that complete the group stand above those that are kept
  have counted : accbits + bits - 6 = rest := by omega
  have bits_pow : 2 ^ bits = 2 ^ rest * 2 ^ (6 - accbits) := by
    rw [← Nat.pow_add]
    congr 1
    omega
  have shift_pow : 2 ^ (2 + accbits) = 2 ^ rest * 2 ^ (8 - bits) := by
    rw [← Nat.pow_add]
    congr 1
    omega
  have rest_pow : 2 ^ (8 - rest) = 2 ^ (8 - bits) * 2 ^ (6 - accbits) := by
    rw [← Nat.pow_add]
    congr 1
    omega
  have byte_pow : 256 = 2 ^ rest * 2 ^ (8 - rest) := by
    rw [← Nat.pow_add, Nat.add_sub_cancel' (by omega)]
  have above : (byte >>> UInt8.ofNat (2 + accbits)).toNat = low / 2 ^ rest := by
    rw [toNat_shiftRight byte _ (by omega), state.left, shift_pow,
      Nat.mul_div_mul_right _ _ (Nat.two_pow_pos _)]
  have above_lt : low / 2 ^ rest < 2 ^ (6 - accbits) := by
    rw [Nat.div_lt_iff_lt_mul (Nat.two_pow_pos _), Nat.mul_comm, ← bits_pow]
    exact lt
  have group : (high * 2 ^ bits + low) / 2 ^ rest = high * 2 ^ (6 - accbits) + low / 2 ^ rest := by
    rw [bits_pow, Nat.mul_left_comm, Nat.mul_add_div (Nat.two_pow_pos _)]
  have remainder : (high * 2 ^ bits + low) % 2 ^ rest = low % 2 ^ rest := by
    rw [bits_pow, Nat.mul_left_comm, Nat.mul_add_mod]
  have group_lt := state.regroups.group_lt le
  have written := state.regroups.write_group le
  rw [counted, group] at group_lt
  rw [counted, group, remainder] at written
  refine ⟨_, group_lt, ?_, ?_⟩
  · rw [toNat_or_of_apart acc _ (6 - accbits) (by simp [state.accumulated]) (by rwa [above]),
      state.accumulated, above]
  · refine ⟨?_, ?_, by omega, by omega, by simp, ?_, Nat.mod_lt _ (Nat.two_pow_pos _)⟩
    · rwa [Nat.zero_add, Nat.zero_mul, Nat.zero_add]
    · intro other mem
      rcases mem_append.mp mem with old | new
      · exact state.inside other old
      · rw [mem_singleton.mp new]
        exact group_lt
    · rw [toNat_shiftLeft byte _ (by omega), state.left, Nat.mul_assoc, ← rest_pow, byte_pow,
        Nat.mul_mod_mul_right]

theorem Encoding.next (state : Encoding read groups acc accbits 0 0 high 0) (byte : UInt8) :
    Encoding (read ++ [byte]) groups acc accbits 8 byte high byte.toNat where
  regroups := by
    have after := state.regroups.read_group byte.toNat byte.toNat_lt
    simpa using after
  inside := state.inside
  few := state.few
  fits := Nat.le_refl 8
  accumulated := state.accumulated
  left := by simp
  small := byte.toNat_lt

theorem Encoding.keep (state : Encoding read groups acc 0 bits byte high low) (few : bits < 6) :
    Encoding read groups (byte >>> 2) bits 0 0 low 0 where
  regroups := by
    have none : high = 0 := by
      have bound := state.regroups.small
      rw [Nat.zero_add] at bound
      by_contra some
      have more := Nat.mul_le_mul_right (2 ^ bits) (Nat.one_le_iff_ne_zero.mpr some)
      omega
    have after := state.regroups
    simpa [none] using after
  inside := state.inside
  few := few
  fits := Nat.zero_le _
  accumulated := by
    have width : 2 ^ (8 - bits) = 2 ^ (6 - bits) * 2 ^ 2 := by
      rw [← Nat.pow_add]
      congr 1
      omega
    have shifted := toNat_shiftRight byte 2 (by omega)
    rw [state.left, width, ← Nat.mul_assoc, Nat.mul_div_cancel _ (by decide)] at shifted
    exact shifted
  left := by simp
  small := by simp

theorem encodeByte_spec (oDataSize : Nat)
    (state : Encoding read groups acc accbits bits byte high low)
    (reaches : accbits = 0 ∨ 6 ≤ accbits + bits) (room : 8 * read.length ≤ 6 * oDataSize) :
    ∃ groups' acc' accbits' high', encodeByte oDataSize (groups.map char) acc accbits bits byte =
        .ok (groups'.map char, acc', accbits') ∧
      Encoding read groups' acc' accbits' 0 0 high' 0 := by
  induction total : accbits + bits using Nat.strong_induction_on
    generalizing groups acc accbits bits byte high low with
  | _ n ih =>
    by_cases le : 6 ≤ accbits + bits
    · have len := state.regroups.total
      rw [length_map] at len
      obtain ⟨group, lt, spat, after⟩ := state.group le
      have few := state.few
      obtain ⟨groups', acc', accbits', high', encoded, ended⟩ :=
        ih _ (by omega) after (.inl rfl) rfl
      refine ⟨groups', acc', accbits', high', ?_, ended⟩
      rw [encodeByte, if_pos le, spit_ok (by rwa [spat]) (by rw [length_map]; omega),
        spat, ← encoded, map_append]
      rfl
    · obtain rfl : accbits = 0 := by omega
      refine ⟨groups, _, bits, low, ?_, state.keep (by omega)⟩
      rw [encodeByte, if_neg le]

theorem encodeBytes_spec (oDataSize : Nat) (bytes : List UInt8)
    (state : Encoding read groups acc accbits 0 0 high 0)
    (room : 8 * (read ++ bytes).length ≤ 6 * oDataSize) :
    ∃ groups' acc' accbits' high', encodeBytes oDataSize bytes (groups.map char) acc accbits =
        .ok (groups'.map char, acc', accbits') ∧
      Encoding (read ++ bytes) groups' acc' accbits' 0 0 high' 0 := by
  induction bytes generalizing read groups acc accbits high with
  | nil =>
    rw [append_nil]
    exact ⟨groups, acc, accbits, high, rfl, state⟩
  | cons byte bytes ih =>
    rw [append_cons] at room ⊢
    obtain ⟨groups', acc', accbits', high', encoded, after⟩ :=
      encodeByte_spec oDataSize (state.next byte) (.inr (by omega))
        (by simp only [length_append] at room ⊢; omega)
    obtain ⟨groups, acc, accbits, high, rest, ended⟩ := ih after room
    refine ⟨groups, acc, accbits, high, ?_, ended⟩
    rw [encodeBytes, encoded]
    exact rest

theorem Encoding.finish (state : Encoding read groups acc accbits 0 0 high 0) :
    ∃ groups' pad, (if accbits ≠ 0 then groups ++ [acc.toNat] else groups) = groups' ∧
      (∀ group ∈ groups', group < 64) ∧ Padded 8 6 (read.map UInt8.toNat) groups' pad := by
  have held : Regroups 8 6 (read.map UInt8.toNat) groups accbits high := by
    simpa using state.regroups
  have few := state.few
  by_cases none : accbits = 0
  · subst none
    exact ⟨groups, 0, if_neg (by simp), state.inside, held.padded_none (by decide)⟩
  · refine ⟨groups ++ [acc.toNat], 6 - accbits, if_pos none, ?_, ?_⟩
    · intro group mem
      rcases mem_append.mp mem with old | new
      · exact state.inside group old
      · rw [mem_singleton.mp new, state.accumulated]
        calc high * 2 ^ (6 - accbits) < 2 ^ accbits * 2 ^ (6 - accbits) :=
              Nat.mul_lt_mul_of_pos_right held.small (Nat.two_pow_pos _)
          _ = 64 := by rw [← Nat.pow_add, Nat.add_sub_cancel' (Nat.le_of_lt few)]
    · rw [state.accumulated]
      exact held.padded (Nat.pos_of_ne_zero none) (Nat.le_of_lt few)

theorem bufferSize {n : Nat} (lt : n < 2 ^ 27) :
    (1 + (i32 (n * 8 + 5)).tdiv 6).toNat = 1 + (8 * n + 5) / 6 := by
  rw [i32_of_small _ (by omega) (by omega), Int.tdiv_eq_ediv_of_nonneg (by omega)]
  omega

theorem chars_ofChars_terminated {chars : List UInt8} (nonzero : (0 : UInt8) ∉ chars) :
    (CString.ofChars (chars ++ [0])).chars = chars := by
  have all : ∀ c ∈ chars, decide (c ≠ 0) = true := fun c mem =>
    decide_eq_true fun zero => nonzero (zero ▸ mem)
  exact (takeWhile_append_of_pos all).trans (append_nil chars)

variable {data : List UInt8} {read : List Nat}

theorem encode_run {out' out'' : List UInt8} {size : Nat}
    (oDataSize : (1 + (i32 (data.length * 8 + 5)).tdiv 6).toNat = size)
    (encoded : encodeBytes size data [] 0 0 = .ok (out, acc, accbits))
    (spat : spitLeft size out acc accbits = .ok out') (ended : put size out' 0 = .ok out'') :
    encode data = .ok (CString.ofChars out'').chars := by
  unfold encode
  rw [oDataSize]
  change bind (encodeBytes size data [] 0 0) _ = _
  rw [encoded]
  change bind (spitLeft size out acc accbits) _ = _
  rw [spat]
  change bind (put size out' 0) _ = _
  rw [ended]
  rfl

theorem encode_spec (lt : data.length < 2 ^ 27) :
    ∃ groups pad, encode data = .ok (groups.map char) ∧ (∀ group ∈ groups, group < 64) ∧
      Padded 8 6 (data.map UInt8.toNat) groups pad := by
  have start : Encoding [] [] 0 0 0 0 0 0 :=
    ⟨Regroups.nil, by simp, by decide, by decide, rfl, rfl, by decide⟩
  obtain ⟨groups, acc, accbits, high, encoded, state⟩ :=
    encodeBytes_spec (1 + (8 * data.length + 5) / 6) data start (by simp; omega)
  rw [nil_append] at state
  obtain ⟨groups', pad, last, hin, padded⟩ := state.finish
  have total := padded.total
  have short := padded.short
  rw [length_map] at total
  have nonzero : (0 : UInt8) ∉ groups'.map char := by
    intro mem
    obtain ⟨group, among, zero⟩ := mem_map.mp mem
    exact (char_spec (hin group among)).2.1 zero
  have spat : spitLeft (1 + (8 * data.length + 5) / 6) (groups.map char) acc accbits =
      .ok (groups'.map char) := by
    rw [spitLeft]
    split_ifs at last ⊢ with some
    · subst last
      have len : groups.length + 1 = (groups ++ [acc.toNat]).length := by simp
      rw [spit_ok (hin _ (by simp)) (by rw [length_map]; omega), map_append]
      rfl
    · rw [last]
  have ended : put (1 + (8 * data.length + 5) / 6) (groups'.map char) 0 =
      .ok (groups'.map char ++ [0]) := if_pos (by rw [length_map]; omega)
  refine ⟨groups', pad, ?_, hin, padded⟩
  rw [encode_run (bufferSize lt) encoded spat ended, chars_ofChars_terminated nonzero]

/-! ### Decoding -/

structure Decoding (read : List Nat) (out : List UInt8) (acc : UInt8) (accbits held : Nat) :
    Prop where
  regroups : Regroups 6 8 read (out.map UInt8.toNat) accbits held
  few : accbits ≤ 6
  accumulated : acc.toNat = held * 2 ^ (8 - accbits)

theorem toNat_ofNat_shiftLeft_two {group : Nat} (lt : group < 64) :
    (UInt8.ofNat group <<< 2).toNat = group * 2 ^ 2 := by
  have shifted := toNat_shiftLeft (UInt8.ofNat group) 2 (by omega)
  rw [UInt8.toNat_ofNat', Nat.mod_eq_of_lt (by omega : group < 2 ^ 8)] at shifted
  exact shifted.trans (Nat.mod_eq_of_lt (by omega))

theorem Decoding.write (state : Decoding read out acc accbits held) (group : Nat)
    (lt : group < 64) (le : 2 ≤ accbits) (byte : UInt8)
    (shifted : byte.toNat = group * 2 ^ 2) :
    Decoding (read ++ [group]) (out ++ [acc ||| byte >>> UInt8.ofNat accbits])
      (byte <<< UInt8.ofNat (8 - accbits)) (accbits - 2) (group % 2 ^ (accbits - 2)) := by
  have few := state.few
  generalize kept : accbits - 2 = rest
  have counted : accbits + 6 - 8 = rest := by omega
  -- the bits that complete the byte stand above those that are kept
  have group_pow : 2 ^ 6 = 2 ^ rest * 2 ^ (8 - accbits) := by
    rw [← Nat.pow_add]
    congr 1
    omega
  have accbits_pow : 2 ^ accbits = 2 ^ rest * 2 ^ 2 := by
    rw [← Nat.pow_add]
    congr 1
    omega
  have rest_pow : 2 ^ (8 - rest) = 2 ^ 2 * 2 ^ (8 - accbits) := by
    rw [← Nat.pow_add]
    congr 1
    omega
  have byte_pow : 256 = 2 ^ rest * 2 ^ (8 - rest) := by
    rw [← Nat.pow_add, Nat.add_sub_cancel' (by omega)]
  have above : (byte >>> UInt8.ofNat accbits).toNat = group / 2 ^ rest := by
    rw [toNat_shiftRight byte _ (by omega), shifted, accbits_pow,
      Nat.mul_div_mul_right _ _ (Nat.two_pow_pos _)]
  have above_lt : group / 2 ^ rest < 2 ^ (8 - accbits) := by
    rw [Nat.div_lt_iff_lt_mul (Nat.two_pow_pos _), Nat.mul_comm, ← group_pow]
    exact lt
  have joined : (acc ||| byte >>> UInt8.ofNat accbits).toNat =
      held * 2 ^ (8 - accbits) + group / 2 ^ rest := by
    rw [toNat_or_of_apart acc _ (8 - accbits) (by simp [state.accumulated]) (by rwa [above]),
      state.accumulated, above]
  have written := (state.regroups.read_group group lt).write_group (by omega)
  rw [counted, group_pow, Nat.mul_left_comm, Nat.mul_add_div (Nat.two_pow_pos _),
    Nat.mul_add_mod, ← joined] at written
  refine ⟨?_, by omega, ?_⟩
  · rw [map_append]
    exact written
  · rw [toNat_shiftLeft byte _ (by omega), shifted, Nat.mul_assoc, ← rest_pow, byte_pow,
      Nat.mul_mod_mul_right]

theorem Decoding.hold (state : Decoding read out acc 0 held) (group : Nat) (lt : group < 64)
    (byte : UInt8) (shifted : byte.toNat = group * 2 ^ 2) :
    Decoding (read ++ [group]) out byte 6 group where
  regroups := by
    have zero : held = 0 := Nat.lt_one_iff.mp state.regroups.small
    have after := state.regroups.read_group group lt
    simpa [zero] using after
  few := Nat.le_refl 6
  accumulated := shifted

theorem Decoding.even (state : Decoding read out acc accbits held) :
    accbits % 2 = 0 := by
  have total := state.regroups.total
  omega

theorem decodeChars_spec (oDataSize : Nat) (groups : List Nat)
    (state : Decoding read out acc accbits held) (hin : ∀ group ∈ groups, group < 64)
    (least : 8 * oDataSize ≤ 6 * (read ++ groups).length)
    (most : 6 * (read ++ groups).length < 8 * oDataSize + 6) (room : out.length ≤ oDataSize) :
    ∃ out' acc' accbits' held',
      decodeChars oDataSize (groups.map char ++ [0]) out acc accbits = .ok (some out') ∧
        out'.length = oDataSize ∧ Decoding (read ++ groups) out' acc' accbits' held' := by
  induction groups generalizing read out acc accbits held with
  | nil =>
    have total := state.regroups.total
    have few := state.few
    rw [length_map] at total
    rw [append_nil] at least most ⊢
    -- six bits are held at most, so that the last byte is complete
    have full : out.length = oDataSize := by omega
    refine ⟨out, acc, accbits, held, ?_, full, state⟩
    exact if_neg (by omega)
  | cons group groups ih =>
    have more : out.length < oDataSize := by
      have total := state.regroups.total
      rw [length_map] at total
      rw [length_append, length_cons] at most
      omega
    have lt := hin group mem_cons_self
    have others := fun other mem => hin other (mem_cons_of_mem group mem)
    have shifted := toNat_ofNat_shiftLeft_two lt
    obtain ⟨-, nonzero, index⟩ := char_spec lt
    rw [append_cons read] at least most ⊢
    rw [map_cons, cons_append, decodeChars, if_pos more, if_neg nonzero, index]
    by_cases le : accbits + 6 ≥ 8
    · have after := state.write group lt (by omega) _ shifted
      simp only [if_pos le]
      exact ih after others least most (by simp; omega)
    · have even := state.even
      obtain rfl : accbits = 0 := by omega
      have after := state.hold group lt _ shifted
      exact ih after others least most (Nat.le_of_lt more)

theorem decodedSize {data : List Nat} {pad : Nat} (padded : Padded 8 6 data groups pad)
    (lt : data.length < 2 ^ 27) :
    ((i32 (groups.length * 3)).tdiv 4).toNat = data.length := by
  have total := padded.total
  have short := padded.short
  rw [i32_of_small _ (by omega) (by omega), Int.tdiv_eq_ediv_of_nonneg (by omega)]
  omega

/-- Neither loop leaves its buffer, and the bytes come back. -/
theorem decode_encode (data : List UInt8) (small : data.length < 2 ^ 27) :
    ∃ text, encode data = .ok text ∧ decode text = .ok (some data) := by
  obtain ⟨groups, pad, encoded, hin, padded⟩ := encode_spec small
  have total := padded.total
  have short := padded.short
  rw [length_map] at total
  have start : Decoding [] [] 0 0 0 := ⟨Regroups.nil, by decide, rfl⟩
  obtain ⟨out, acc, accbits, held, decoded, length, state⟩ :=
    decodeChars_spec data.length groups start hin (by rw [nil_append]; omega)
      (by rw [nil_append]; omega) (Nat.zero_le _)
  have bytes : out.map UInt8.toNat = data.map UInt8.toNat := by
    apply padded.inverse state.regroups (by decide)
    · rw [length_map, length_map, length]
    · intro byte mem
      obtain ⟨b, -, rfl⟩ := mem_map.mp mem
      exact b.toNat_lt
    · intro byte mem
      obtain ⟨b, -, rfl⟩ := mem_map.mp mem
      exact b.toNat_lt
  refine ⟨groups.map char, encoded, ?_⟩
  have size := decodedSize padded (by rwa [length_map])
  rw [length_map] at size
  rw [decode, length_map, size, decoded,
    map_injective_iff.mpr (fun _ _ => UInt8.toNat_inj.mp) bytes]

theorem decode_encode_three : ∃ text, encode [0, 255, 7] = .ok text ∧
    decode text = .ok (some [0, 255, 7]) :=
  decode_encode [0, 255, 7] (by decide)

end Engine3.BinaryData
