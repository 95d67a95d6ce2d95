import Engine3.System.Serializable

/-!
# Reading objects of another schema

Each record says how long its data are. Whatever the parser of a variable does with them,
and whether there is such a variable at all, the next record is found.
-/
namespace Engine3

open Bytes Exec List SortedVector

variable {α : Type}

/-! ### Names and values -/

theorem CString.ofChars_chars (name : CString) : CString.ofChars name.chars = name := by
  have all : name.chars.takeWhile (· ≠ 0) = name.chars := by
    rw [takeWhile_eq_self_iff]
    intro c member
    have nonzero : c ≠ 0 := fun zero => name.terminated (zero ▸ member)
    simpa using nonzero
  cases name with
  | mk chars terminated =>
    simp only [CString.ofChars, CString.mk.injEq]
    exact all

theorem CString.chars_ofChars {chars : List UInt8} (terminated : (0 : UInt8) ∉ chars) :
    (CString.ofChars chars).chars = chars :=
  congrArg CString.chars (CString.ofChars_chars ⟨chars, terminated⟩)

theorem CStrings.parseFromBinaryStream_unread (chars back : List UInt8)
    (short : chars.length ≤ 65535)
    (stream : Stream) (next : stream.unread = leBytes 2 chars.length ++ (chars ++ back)) :
    CStrings.parseFromBinaryStream stream =
      .ok chars ((stream.advance 2).advance chars.length) := by
  have length := Stream.readShort_unread stream chars.length _ next
  rw [Nat.mod_eq_of_lt (by omega)] at length
  have content := Stream.unread_advance stream _ _ next 2 (length_leBytes 2 _)
  have total := congrArg List.length next
  simp only [Stream.unread, length_drop, length_append, length_leBytes] at total
  have moved := Stream.shiftOffset_inside chars.length (stream.advance 2) (by
    simp only [Stream.advance, Stream.size]
    omega)
  have taken : ((stream.advance 2).elementData.drop (stream.advance 2).offset).take chars.length =
      chars := by
    have front : (stream.advance 2).elementData.drop (stream.advance 2).offset = chars ++ back :=
      content
    rw [front, take_left]
  refine (bind_of_ok length).trans ?_
  refine get_bind.trans ?_
  refine (bind_of_ok moved).trans ?_
  simp only [taken]
  rfl

def Member.parsedAt (member : Member α) (stream : Stream) : Member α :=
  { member with value := (finalState
      (member.parseFromBinaryStream stream.elementData (member.value, stream.offset))).1 }

def Member.Restores (member : Member α) (bytes : List UInt8) (value : α) : Prop :=
  ∀ stream back, stream.unread = bytes ++ back → (member.parsedAt stream).value = value

namespace Serializable

/-! ### One record -/

theorem onStream_of_ok {β : Type} (m : StreamM β) {r : Reading α} {b : β} {stream : Stream}
    (read : m r.stream = .ok b stream) : onStream m r = .ok b { r with stream := stream } := by
  simp only [onStream, read]

def absorb (name : CString) (stream : Stream) (vars : Variables α) : Variables α :=
  vars.map fun e => if e.1 = name then (e.1, e.2.parsedAt stream) else e

variable {vars : Variables α} {pos : Nat} {name : CString} {member : Member α}

theorem set_eq_map (nodup : Distinct vars) {entry : CString × Member α}
    (found : vars[pos]? = some entry) (f : CString × Member α → CString × Member α) :
    vars.set pos (f entry) = vars.map fun e => if e.1 = entry.1 then f e else e := by
  obtain ⟨hin, rfl⟩ := List.getElem?_eq_some_iff.mp found
  refine ext_getElem (by simp) fun j left right => ?_
  have within : j < vars.length := by simpa using left
  rw [getElem_set, getElem_map]
  by_cases here : pos = j
  · subst here
    rw [if_pos rfl, if_pos rfl]
  · rw [if_neg here, if_neg]
    intro eq
    rcases Nat.lt_or_gt_of_ne here with less | more
    · exact pairwise_iff_getElem.mp nodup pos j hin within less eq.symm
    · exact pairwise_iff_getElem.mp nodup j pos within hin more eq

theorem absorb_absent (stream : Stream) (absent : ∀ e ∈ vars, e.1 ≠ name) :
    absorb name stream vars = vars := by
  refine (map_congr_left fun e member => if_neg (absent e member)).trans ?_
  exact map_id' vars

theorem parseVariable_found (sorted : Sorted vars)
    (found : findKey VariableName.compareTo name vars = some pos) (stream : Stream) :
    ∃ offset, parseVariable pos ⟨vars, stream⟩ =
      .ok () ⟨absorb name stream vars, { stream with offset := offset }⟩ := by
  rw [findKey_eq] at found
  obtain ⟨key, here, eq⟩ := find_some compareTo_orderedBy name pos found
  rw [getElem?_map, Option.map_eq_some_iff] at here
  obtain ⟨⟨key, member⟩, here, rfl⟩ := here
  obtain rfl : key = name := rank_inj.mp eq
  have changed := set_eq_map sorted.distinct here
    fun e => (e.1, e.2.parsedAt stream)
  refine ⟨(finalState
    (member.parseFromBinaryStream stream.elementData (member.value, stream.offset))).2, ?_⟩
  rw [absorb, ← changed]
  simp only [parseVariable, here]
  rfl

theorem readVariable_record (entry : CString × Member α) (fits : Fits entry) (back : List UInt8)
    (vars : Variables α) (sorted : Sorted vars) (stream : Stream)
    (next : stream.unread = record entry ++ back) :
    ∃ start : Stream, start.unread = entry.2.toBinaryStream entry.2.value ++ back ∧
      readVariable ⟨vars, stream⟩ = .ok () ⟨absorb entry.1 start vars,
        start.advance (entry.2.toBinaryStream entry.2.value).length⟩ := by
  obtain ⟨short, lt⟩ := fits
  generalize content : entry.2.toBinaryStream entry.2.value = data at lt
  have layout : stream.unread = leBytes 2 entry.1.chars.length ++
      (entry.1.chars ++ (leBytes 4 data.length ++ (data ++ back))) := by
    simp only [next, record, content, append_assoc]
  have name := CStrings.parseFromBinaryStream_unread entry.1.chars _ short stream layout
  have sized := Stream.unread_advance _ _ _
    (Stream.unread_advance stream _ _ layout 2 (length_leBytes 2 _)) entry.1.chars.length rfl
  have size := Stream.readInt_unread _ data.length _ sized
  rw [Nat.mod_eq_of_lt (by omega)] at size
  have start := Stream.unread_advance _ _ _ sized 4 (length_leBytes 4 _)
  have hin : stream.offset + 2 + entry.1.chars.length + 4 + data.length ≤ stream.size := by
    have total := congrArg length layout
    simp only [Stream.unread, length_drop, length_append, length_leBytes] at total
    rw [Stream.size]
    omega
  generalize moved : ((stream.advance 2).advance entry.1.chars.length).advance 4 = at'
    at size start
  replace hin : at'.offset + data.length ≤ at'.size := by
    rw [← moved]
    exact hin
  refine ⟨at', start, ?_⟩
  refine (bind_of_ok (onStream_of_ok _ name)).trans ?_
  refine (bind_of_ok (onStream_of_ok _ size)).trans ?_
  refine get_bind.trans ?_
  rw [CString.ofChars_chars]
  -- an unknown variable is skipped by its size, a known one ends at its size as well
  cases found : findKey VariableName.compareTo entry.1 vars with
  | none =>
    rw [findKey_eq] at found
    have absent : ∀ e ∈ vars, e.1 ≠ entry.1 := by
      intro e member eq
      exact find_none compareTo_orderedBy entry.1 (vars.map Prod.fst)
        (StrictlySorted.sorted (pairwise_map.mpr sorted)) found e.1
        (mem_map_of_mem member) (congrArg rank eq)
    rw [absorb_absent _ absent]
    exact onStream_of_ok _ (Stream.shiftOffset_inside data.length at' hin)
  | some pos =>
    obtain ⟨offset, parsed⟩ := parseVariable_found sorted found at'
    refine (bind_of_ok parsed).trans ?_
    exact onStream_of_ok _
      (Stream.setOffset_inside (at'.offset + data.length) { at' with offset := offset } hin)

/-! ### All records -/

theorem absorb_sorted (name : CString) (stream : Stream) (vars : Variables α)
    (sorted : Sorted vars) : Sorted (absorb name stream vars) := by
  refine pairwise_map.mpr (Pairwise.imp (fun less => ?_) sorted)
  split <;> split <;> exact less

theorem absorb_names (name : CString) (stream : Stream) (vars : Variables α) :
    (absorb name stream vars).map Prod.fst = vars.map Prod.fst := by
  rw [absorb, map_map]
  refine map_congr_left fun e _ => ?_
  simp only [Function.comp]
  split <;> rfl

theorem mem_absorb_of_ne {other : CString} (stream : Stream) (inVars : (other, member) ∈ vars)
    (apart : other ≠ name) :
    (other, member) ∈ absorb name stream vars :=
  mem_map.mpr ⟨(other, member), inVars, if_neg apart⟩

theorem mem_absorb_self (stream : Stream) (inVars : (name, member) ∈ vars) :
    (name, member.parsedAt stream) ∈ absorb name stream vars :=
  mem_map.mpr ⟨(name, member), inVars, if_pos rfl⟩

/-- What reading the records of `written` makes of the variables in `reading`. -/
structure Evolves (written reading : List (CString × Member α)) (after : Variables α) : Prop where
  names : (after.map Prod.fst).Perm (reading.map Prod.fst)
  kept : ∀ name member, (name, member) ∈ reading → (∀ w, (name, w) ∉ written) →
    (name, member) ∈ after
  restored : ∀ name member w, (name, member) ∈ reading → (name, w) ∈ written →
    member.Restores (w.toBinaryStream w.value) w.value →
    (name, { member with value := w.value }) ∈ after

theorem readVariables_records (written : List (CString × Member α)) (nodup : Distinct written)
    (fit : ∀ e ∈ written, Fits e) (vars : Variables α) (sorted : Sorted vars) (stream : Stream)
    (next : stream.unread = written.flatMap record) :
    ∃ after stream', readVariables written.length ⟨vars, stream⟩ = .ok () ⟨after, stream'⟩ ∧
      stream'.unread = [] ∧ Evolves written vars after := by
  induction written generalizing vars stream with
  | nil =>
    refine ⟨vars, stream, rfl, next, Perm.refl _, fun _ _ member _ => member, ?_⟩
    exact fun _ _ _ _ none => absurd none not_mem_nil
  | cons entry rest ih =>
    obtain ⟨apart, distinctRest⟩ := pairwise_cons.mp nodup
    obtain ⟨start, content, fst⟩ := readVariable_record entry (fit entry mem_cons_self)
      (rest.flatMap record) vars sorted stream (next.trans flatMap_cons)
    obtain ⟨after, stream', snd, ended, evolves⟩ := ih distinctRest
      (fun e member => fit e (mem_cons_of_mem entry member)) (absorb entry.1 start vars)
      (absorb_sorted _ _ _ sorted) _ (Stream.unread_advance start _ _ content _ rfl)
    refine ⟨after, stream', (bind_of_ok fst).trans snd, ended, ?_, ?_, ?_⟩
    · rw [← absorb_names entry.1 start vars]
      exact evolves.names
    · intro name member inVars unknown
      have ne : name ≠ entry.1 := fun eq =>
        unknown entry.2 (by rw [eq]; exact mem_cons_self)
      exact evolves.kept name member (mem_absorb_of_ne _ inVars ne)
        fun w later => unknown w (mem_cons_of_mem entry later)
    -- a variable is restored by its own record and left alone by the others
    · intro name member w inVars stored restores
      rcases mem_cons.mp stored with rfl | later
      · have val : member.parsedAt start = { member with value := w.value } := by
          rw [← restores start _ content]
          rfl
        have absorbed := mem_absorb_self start inVars
        rw [val] at absorbed
        exact evolves.kept name _ absorbed fun w' later => apart (name, w') later rfl
      · have ne : name ≠ entry.1 := fun eq => apart (name, w) later eq.symm
        exact evolves.restored name member w (mem_absorb_of_ne _ inVars ne) later
          restores

/-! ### Variables of one byte -/

def byteMember (value : UInt8) : Member UInt8 where
  toBinaryStream value := [value]
  parseFromBinaryStream bytes := fun (value, offset) =>
    match bytes[offset]? with
    | some byte => .ok () (byte, offset + 1)
    | none => .error (.streamIndexOutOfBounds (offset + 1)) (value, offset + 1)
  value := value

theorem byteMember_restores (old value : UInt8) : (byteMember old).Restores [value] value := by
  intro stream back next
  have here : stream.elementData[stream.offset]? = some value := by
    have front := congrArg (fun bytes => bytes[0]?) next
    simpa [Stream.unread, getElem?_drop] using front
  simp only [Member.parsedAt, byteMember, here]
  rfl

theorem byteMember_fits (short : name.chars.length ≤ 65535) (value : UInt8) :
    Fits (name, byteMember value) :=
  ⟨short, by change 1 < 2147483648; decide⟩

def numberedName (i : Nat) : CString where
  chars := [UInt8.ofNat (i % 255 + 1), UInt8.ofNat (i / 255 % 255 + 1),
    UInt8.ofNat (i / 65025 % 255 + 1)]
  terminated := by
    have digit : ∀ n, (0 : UInt8) ≠ UInt8.ofNat (n % 255 + 1) := by
      intro n zero
      have value := congrArg UInt8.toNat zero
      simp only [UInt8.toNat_ofNat', UInt8.reduceToNat] at value
      omega
    simp only [mem_cons, not_mem_nil, or_false, not_or]
    exact ⟨digit _, digit _, digit _⟩

theorem numberedName_inj {i j : Nat} (fst : i < 65536) (snd : j < 65536)
    (equal : numberedName i = numberedName j) : i = j := by
  have chars := congrArg CString.chars equal
  simp only [numberedName, cons.injEq, and_true] at chars
  obtain ⟨low, middle, high⟩ := chars
  have digit : ∀ m n, UInt8.ofNat (m % 255 + 1) = UInt8.ofNat (n % 255 + 1) →
      m % 255 = n % 255 := by
    intro m n eq
    have val := congrArg UInt8.toNat eq
    simp only [UInt8.toNat_ofNat'] at val
    omega
  have low := digit _ _ low
  have middle := digit _ _ middle
  have high := digit _ _ high
  omega

def numberedVariables (count : Nat) (value : UInt8) : List (CString × Member UInt8) :=
  (range count).map fun i => (numberedName i, byteMember value)

theorem numberedVariables_distinct (count : Nat) (few : count ≤ 65536) (value : UInt8) :
    Distinct (numberedVariables count value) := by
  refine pairwise_map.mpr (Pairwise.imp_of_mem ?_ (pairwise_lt_range))
  intro i j fst snd less eq
  have := numberedName_inj (by have := mem_range.mp fst; omega)
    (by have := mem_range.mp snd; omega) eq
  omega

theorem numberedVariables_fit (count : Nat) (value : UInt8) :
    ∀ e ∈ numberedVariables count value, Fits e := by
  intro e member
  obtain ⟨i, -, rfl⟩ := mem_map.mp member
  exact byteMember_fits (by simp [numberedName]) value

/-! ### Objects -/

/-- A written object is read back by an object with any other set of variables. -/
theorem readObject_writeObject (written reading : List (CString × Member α))
    (distinct : Distinct written) (distinct' : Distinct reading)
    (few : written.length ≤ 65535) (fit : ∀ e ∈ written, Fits e) :
    ∃ data after stream, writeObject (registered written) Stream.empty = .ok () data ∧
      readObject ⟨registered reading, data.reset⟩ = .ok () ⟨after, stream⟩ ∧
      stream.unread = [] ∧ Evolves written reading after := by
  have perm := registered_perm distinct
  have perm' := registered_perm distinct'
  have sorted := registered_sorted distinct
  obtain ⟨data, wrote, -, bytes⟩ := writeObject_bytes (registered written)
    fun e member => fit e (perm.mem_iff.mp member)
  -- the number of variables is written in two bytes
  have counted : (registered written).length % 65536 = (registered written).length := by
    rw [perm.length_eq]
    exact Nat.mod_eq_of_lt (by omega)
  have read := Stream.readShort_unread data.reset _ _ bytes
  rw [counted, counted] at read
  have remaining := Stream.unread_advance data.reset _ _ bytes 2 (length_leBytes 2 _)
  obtain ⟨after, stream, ret, ended, evolves⟩ := readVariables_records (registered written)
    sorted.distinct (fun e member => fit e (perm.mem_iff.mp member)) (registered reading)
    (registered_sorted distinct') _ remaining
  refine ⟨data, after, stream, wrote, ?_, ended, ?_, ?_, ?_⟩
  · exact (bind_of_ok (onStream_of_ok _ read)).trans ret
  · exact evolves.names.trans (perm'.map Prod.fst)
  · intro name member inReading unknown
    exact evolves.kept name member (perm'.mem_iff.mpr inReading)
      fun w stored => unknown w (perm.mem_iff.mp stored)
  · intro name member w inReading stored restores
    exact evolves.restored name member w (perm'.mem_iff.mpr inReading) (perm.mem_iff.mpr stored)
      restores

def brokenMember : Member UInt8 :=
  { byteMember 0 with
    parseFromBinaryStream := fun _ state => .error (.plain "broken") (9, state.2 + 3) }

theorem readObject_writeObject_bytes :
    ∃ data after stream,
      writeObject (registered (numberedVariables 3 7)) Stream.empty = .ok () data ∧
      readObject ⟨registered [(numberedName 3, byteMember 5), (numberedName 2, byteMember 0),
        (numberedName 1, brokenMember)], data.reset⟩ = .ok () ⟨after, stream⟩ ∧
      stream.unread = [] ∧
      Evolves (numberedVariables 3 7) [(numberedName 3, byteMember 5),
        (numberedName 2, byteMember 0), (numberedName 1, brokenMember)] after :=
  readObject_writeObject (numberedVariables 3 7) [(numberedName 3, byteMember 5),
      (numberedName 2, byteMember 0), (numberedName 1, brokenMember)]
    (numberedVariables_distinct 3 (by decide) 7)
    (by
      simp only [Distinct, pairwise_cons, mem_cons, not_mem_nil, or_false,
        forall_eq_or_imp, forall_eq, IsEmpty.forall_iff, implies_true, Pairwise.nil, and_true]
      decide)
    (by decide) (numberedVariables_fit 3 7)

theorem readObject_empty (vars : Variables α) (stream : Stream) {back : List UInt8}
    (next : stream.unread = leBytes 2 0 ++ back) :
    readObject ⟨vars, stream⟩ = .ok () ⟨vars, stream.advance 2⟩ := by
  have read := Stream.readShort_unread stream 0 back next
  exact (bind_of_ok (onStream_of_ok _ read)).trans rfl

theorem readObject_ignores_many :
    Distinct (numberedVariables 65536 1) ∧ Distinct (numberedVariables 65536 0) ∧
    (∀ e ∈ numberedVariables 65536 1, Fits e) ∧
    (∀ e ∈ numberedVariables 65536 0, e.2.Restores [1] 1) ∧
    ∃ data stream, writeObject (registered (numberedVariables 65536 1)) Stream.empty =
        .ok () data ∧
      readObject ⟨registered (numberedVariables 65536 0), data.reset⟩ =
        .ok () ⟨registered (numberedVariables 65536 0), stream⟩ ∧
      ¬ Evolves (numberedVariables 65536 1) (numberedVariables 65536 0)
        (registered (numberedVariables 65536 0)) := by
  have nodup := numberedVariables_distinct 65536 (Nat.le_refl _)
  have fit := numberedVariables_fit 65536 1
  have perm := registered_perm (nodup 1)
  have perm' := registered_perm (nodup 0)
  obtain ⟨data, wrote, -, bytes⟩ := writeObject_bytes (registered (numberedVariables 65536 1))
    fun e member => fit e (perm.mem_iff.mp member)
  have counted : (registered (numberedVariables 65536 1)).length % 65536 = 0 := by
    rw [perm.length_eq, numberedVariables, length_map, length_range]
  rw [counted] at bytes
  refine ⟨nodup 1, nodup 0, fit, ?_, data, data.reset.advance 2, wrote, ?_, ?_⟩
  · intro e member
    obtain ⟨i, -, rfl⟩ := mem_map.mp member
    exact byteMember_restores 0 1
  · exact readObject_empty _ data.reset bytes
  · intro evolves
    have here : ∀ value, (numberedName 0, byteMember value) ∈ numberedVariables 65536 value :=
      fun value => mem_map.mpr ⟨0, mem_range.mpr (by omega), rfl⟩
    have stored := evolves.restored _ _ _ (here 0) (here 1) (byteMember_restores 0 1)
    obtain ⟨i, -, eq⟩ := mem_map.mp (perm'.mem_iff.mp stored)
    have values : (0 : UInt8) = 1 := congrArg (fun e : CString × Member UInt8 => e.2.value) eq
    exact absurd values (by decide)

end Serializable

end Engine3
