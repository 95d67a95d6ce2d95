import Engine3.Library.MachineInt
import Engine3.System.ObjectEditing

/-!
# Deleting and renaming stored variables

`Serializable::deleteVariable` and `Serializable::changeVariableName` look for the name with a loop
of their own. It reads the name and the size of a variable and goes on where the data of this
variable begin, so only what stands in front of the first data is read as it was written. The range
they cut out is wrong as well: the header of a deleted variable is left out of its length, and one
byte of a changed name stays.

Streams are shorter than 2^31 bytes. A size that is read is any number of four bytes.
-/
namespace Engine3

open Bytes Exec MachineInt List

namespace Stream

def removeIntRange (fromIndex toIndex : Int) : StreamM Unit := do
  if fromIndex < 0 then throw (.arrayIndexOutOfBounds fromIndex)
  else if toIndex < 0 then throw (.plain "IllegalArgumentException")
  else removeRange fromIndex.toNat toIndex.toNat

end Stream

namespace Serializable

/-! ### The source -/

def findName (variableName : List UInt8) : Nat → StreamM (Option (Nat × List UInt8 × Nat))
  | 0 => return none
  | n + 1 => do
    let currentOffset := (← get).offset
    let name ← CStrings.parseFromBinaryStream
    let varSize ← Stream.readInt
    if sameName name variableName then return some (currentOffset, name, varSize)
    -- the data are not skipped
    else findName variableName n

def foundRange (endOffset : Nat → List UInt8 → Nat → Int) :
    Option (Nat × List UInt8 × Nat) → Int × Int
  | none => (0, 0)
  | some (currentOffset, name, varSize) => (currentOffset, endOffset currentOffset name varSize)

def findRange (variableName : List UInt8) (endOffset : Nat → List UInt8 → Nat → Int) :
    StreamM (Int × Int) := do
  modify Stream.reset
  let dataSize ← Stream.readShort
  let found ← findName variableName dataSize
  modify Stream.reset
  return foundRange endOffset found

def deleteVariable (variableName : List UInt8) : StreamM (Option Stream) := do
  -- the size is unsigned, and so is the sum that is assigned to an `int`
  let (startOffset, endOffset) ← findRange variableName fun currentOffset name varSize =>
    i32 (u32 (currentOffset + name.length + varSize : Nat))
  if endOffset = 0 then return none
  else
    let newData ← Stream.copy 0 Stream.empty
    let newData ← onNew newData do
      Stream.removeIntRange startOffset endOffset
      modify Stream.reset
    return some newData

def changeVariableName (variableName newVariableName : List UInt8) : StreamM (Option Stream) := do
  let (startOffset, endOffset) ← findRange variableName fun currentOffset name _ =>
    (currentOffset + name.length + 1 : Nat)
  if endOffset = 0 then return none
  else
    let newData ← Stream.copy 0 Stream.empty
    let newData ← onNew newData (Stream.removeIntRange startOffset endOffset)
    let newName ← onNew Stream.empty (CStrings.toBinaryStream newVariableName)
    let newData ← onNew newData (Stream.insertStream newName newName.size startOffset.toNat)
    return some newData

/-! ### What the loop reads -/

structure Header where
  name : StoredName
  varSize : Nat
  fits : varSize < 2 ^ 32

def Header.bytes (header : Header) : List UInt8 :=
  names.bytes header.name ++ leBytes 4 header.varSize

/-- The names that `String::operator==` takes for this one. -/
def Named (variableName : List UInt8) (name : StoredName) : Prop :=
  CString.ofChars name.1 = CString.ofChars variableName

/-- As many headers stand one behind the other, and none has the name. -/
def Passes (variableName : List UInt8) (n : Nat) (input : List UInt8) : Prop :=
  ∃ headers : List Header, headers.length = n ∧
    (∀ header ∈ headers, ¬ Named variableName header.name) ∧
    headers.flatMap Header.bytes <+: input

/-- A header with the name stands behind others, one behind the other. -/
def Meets (variableName : List UInt8) (n : Nat) (input : List UInt8) (passed : List Header)
    (header : Header) : Prop :=
  passed.length < n ∧ (∀ other ∈ passed, ¬ Named variableName other.name) ∧
    Named variableName header.name ∧ passed.flatMap Header.bytes ++ header.bytes <+: input

theorem append_prefix_iff (a b input : List UInt8) :
    a ++ b <+: input ↔ a <+: input ∧ b <+: input.drop a.length := by
  constructor
  · rintro ⟨back, rfl⟩
    rw [append_assoc, drop_left]
    exact ⟨prefix_append _ _, prefix_append _ _⟩
  · rintro ⟨⟨back, rfl⟩, later⟩
    rw [drop_left] at later
    exact (prefix_append_right_inj a).mpr later

section Step

variable {variableName : List UInt8} {n : Nat} {input : List UInt8} {header : Header}
  (unnamed : ¬ Named variableName header.name) (next : header.bytes <+: input)

include unnamed next

theorem Passes.cons (passes : Passes variableName n (input.drop header.bytes.length)) :
    Passes variableName (n + 1) input := by
  obtain ⟨headers, rfl, others, later⟩ := passes
  exact ⟨header :: headers, rfl, forall_mem_cons.mpr ⟨unnamed, others⟩,
    (append_prefix_iff _ _ _).mpr ⟨next, later⟩⟩

theorem Meets.cons {passed : List Header} {found : Header}
    (meets : Meets variableName n (input.drop header.bytes.length) passed found) :
    Meets variableName (n + 1) input (header :: passed) found := by
  obtain ⟨few, others, named, later⟩ := meets
  refine ⟨Nat.succ_lt_succ few, forall_mem_cons.mpr ⟨unnamed, others⟩, named, ?_⟩
  rw [flatMap_cons, append_assoc]
  exact (append_prefix_iff _ _ _).mpr ⟨next, later⟩

end Step

/-! ### What was read when a read returned -/

variable {stream stream' : Stream} {chars : List UInt8}

theorem shiftOffset_ok {offs : Nat} {u : Unit}
    (shifted : Stream.shiftOffset offs stream = .ok u stream') :
    stream.offset + offs ≤ stream.size ∧ stream' = stream.advance offs := by
  unfold Stream.shiftOffset Stream.setOffset at shifted
  split at shifted
  next => cases shifted
  next inside =>
    cases shifted
    exact ⟨Nat.not_lt.mp inside, rfl⟩

theorem readPrimitive_ok {n : Nat} {bytes : List UInt8}
    (read : Stream.readPrimitive n stream = .ok bytes stream') :
    stream.offset + n ≤ stream.size ∧ bytes = stream.unread.take n ∧
      stream' = stream.advance n := by
  unfold Stream.readPrimitive at read
  split at read
  next => cases read
  next moved shifted =>
    cases read
    obtain ⟨hin, moved⟩ := shiftOffset_ok shifted
    exact ⟨hin, rfl, moved⟩

theorem length_unread (stream : Stream) :
    stream.unread.length = stream.size - stream.offset :=
  length_drop

theorem unread_advance_drop (stream : Stream) (n : Nat) :
    (stream.advance n).unread = stream.unread.drop n :=
  drop_drop.symm

theorem readInt_ok {value : Nat} (read : Stream.readInt stream = .ok value stream') :
    value < 2 ^ 32 ∧ leBytes 4 value <+: stream.unread ∧ stream' = stream.advance 4 := by
  obtain ⟨bytes, taken, rfl⟩ := map_ok_iff.mp read
  obtain ⟨hin, rfl, moved⟩ := readPrimitive_ok taken
  have long : 4 ≤ stream.unread.length := by
    rw [length_unread]
    omega
  exact ⟨leNat_take_lt 4 _, ⟨_, (eq_leBytes_append 4 _ long).symm⟩, moved⟩

theorem parseFromBinaryStream_ok
    (read : CStrings.parseFromBinaryStream stream = .ok chars stream') :
    ∃ name : StoredName, name.1 = chars ∧ names.bytes name <+: stream.unread ∧
      stream' = stream.advance (names.bytes name).length := by
  obtain ⟨len, behind, counted, read⟩ := bind_ok_iff.mp read
  obtain ⟨bytes, taken, rfl⟩ := map_ok_iff.mp counted
  obtain ⟨hin, rfl, rfl⟩ := readPrimitive_ok taken
  obtain ⟨_, _, got, read⟩ := bind_ok_iff.mp read
  cases got
  obtain ⟨_, moved, shifted, read⟩ := bind_ok_iff.mp read
  obtain ⟨complete, rfl⟩ := shiftOffset_ok shifted
  cases read
  -- so the decoder of names takes the same characters
  have length := length_unread stream
  have rest : (stream.unread.drop 2).length = stream.size - (stream.offset + 2) := by
    rw [length_drop, length]
    omega
  have le : ¬ (stream.unread.length < 2 ∨
      (stream.unread.drop 2).length < leNat (stream.unread.take 2)) := by
    rw [rest, length]
    simp only [Stream.advance, Stream.size] at complete hin ⊢
    omega
  have parsed := (names.parse_eq_some_iff stream.unread _ _).mp (if_neg le)
  refine ⟨_, ?_, ⟨_, parsed.symm⟩, ?_⟩
  · exact congrArg (take _) (unread_advance_drop stream 2).symm
  · have taken : ((stream.unread.drop 2).take (leNat (stream.unread.take 2))).length =
        leNat (stream.unread.take 2) := by
      rw [length_take]
      omega
    simp [names, Stream.advance, taken, Nat.add_assoc]

theorem Header.reads (header : Header) (stream : Stream) (next : header.bytes <+: stream.unread) :
    CStrings.parseFromBinaryStream stream =
        .ok header.name.1 (stream.advance (names.bytes header.name).length) ∧
      Stream.readInt (stream.advance (names.bytes header.name).length) =
        .ok header.varSize (stream.advance header.bytes.length) := by
  obtain ⟨back, next⟩ := next
  rw [Header.bytes, append_assoc] at next
  have behind := Stream.unread_advance stream _ _ next.symm _ rfl
  have sized := Stream.readInt_unread _ _ _ behind
  have size : header.varSize % 4294967296 = header.varSize := Nat.mod_eq_of_lt header.fits
  rw [size] at sized
  refine ⟨reads_names stream header.name _ next.symm, sized.trans ?_⟩
  simp [Header.bytes, Stream.advance, Nat.add_assoc]

theorem read_header_ok {behind : Stream} {varSize : Nat}
    (named : CStrings.parseFromBinaryStream stream = .ok chars behind)
    (sized : Stream.readInt behind = .ok varSize stream') :
    ∃ header : Header, header.name.1 = chars ∧ header.varSize = varSize ∧
      header.bytes <+: stream.unread ∧ stream' = stream.advance header.bytes.length := by
  obtain ⟨name, rfl, ⟨back, next⟩, rfl⟩ := parseFromBinaryStream_ok named
  obtain ⟨fits, ⟨content, size⟩, rfl⟩ := readInt_ok sized
  have rest := Stream.unread_advance stream _ _ next.symm _ rfl
  refine ⟨⟨name, varSize, fits⟩, rfl, rfl, ⟨content, ?_⟩, ?_⟩
  · rw [Header.bytes, append_assoc, size, rest, next]
  · simp [Header.bytes, Stream.advance, Nat.add_assoc]

/-! ### How the loop ends -/

section Scanning

variable (variableName : List UInt8) (n : Nat)

theorem findName_step (header : Header) (stream : Stream) (next : header.bytes <+: stream.unread) :
    findName variableName (n + 1) stream =
      if sameName header.name.1 variableName then
        .ok (some (stream.offset, header.name.1, header.varSize))
          (stream.advance header.bytes.length)
      else findName variableName n (stream.advance header.bytes.length) := by
  obtain ⟨named, sized⟩ := header.reads stream next
  rw [findName, get_bind, bind_of_ok named,
    bind_of_ok sized]
  split <;> rfl

theorem findName_header (stream stream' : Stream) (found : Option (Nat × List UInt8 × Nat))
    (scanned : findName variableName (n + 1) stream = .ok found stream') :
    ∃ header : Header, header.bytes <+: stream.unread := by
  obtain ⟨_, _, got, scanned⟩ := bind_ok_iff.mp scanned
  cases got
  obtain ⟨name, behind, named, scanned⟩ := bind_ok_iff.mp scanned
  obtain ⟨varSize, _, sized, -⟩ := bind_ok_iff.mp scanned
  obtain ⟨header, -, -, next, -⟩ := read_header_ok named sized
  exact ⟨header, next⟩

theorem findName_ok (stream stream' : Stream) (found : Option (Nat × List UInt8 × Nat))
    (scanned : findName variableName n stream = .ok found stream') : stream'.reset = stream.reset ∧
      (found = none ∧ Passes variableName n stream.unread ∨
        ∃ passed header, Meets variableName n stream.unread passed header ∧
          found = some (stream.offset + (passed.flatMap Header.bytes).length, header.name.1,
            header.varSize)) := by
  induction n generalizing stream with
  | zero =>
    cases scanned
    exact ⟨rfl, .inl ⟨rfl, [], rfl, by simp, nil_prefix⟩⟩
  | succ n ih =>
    obtain ⟨header, next⟩ := findName_header variableName n stream stream' found scanned
    rw [findName_step variableName n header stream next] at scanned
    split at scanned
    next eq =>
      cases scanned
      exact ⟨rfl, .inr ⟨[], header, ⟨Nat.succ_pos n, by simp, (sameName_iff _ _).mp eq, next⟩,
        rfl⟩⟩
    next other =>
      obtain ⟨eq, ended⟩ := ih _ scanned
      rw [unread_advance_drop] at ended
      have unnamed : ¬ Named variableName header.name := fun named =>
        other ((sameName_iff _ _).mpr named)
      refine ⟨eq, ?_⟩
      rcases ended with ⟨rfl, passes⟩ | ⟨passed, found, meets, rfl⟩
      · exact .inl ⟨rfl, passes.cons unnamed next⟩
      · exact .inr ⟨_, found, meets.cons unnamed next, by simp [Stream.advance, Nat.add_assoc]⟩

theorem findName_passes (stream : Stream) (passes : Passes variableName n stream.unread) :
    ∃ k, findName variableName n stream = .ok none (stream.advance k) := by
  obtain ⟨headers, rfl, unnamed, next⟩ := passes
  induction headers generalizing stream with
  | nil => exact ⟨0, rfl⟩
  | cons header headers ih =>
    obtain ⟨fst, others⟩ := forall_mem_cons.mp unnamed
    obtain ⟨here, later⟩ := (append_prefix_iff _ _ _).mp next
    rw [← unread_advance_drop] at later
    obtain ⟨k, scanned⟩ := ih _ others later
    have ne : ¬ sameName header.name.1 variableName = true := fun eq =>
      fst ((sameName_iff _ _).mp eq)
    refine ⟨header.bytes.length + k, ?_⟩
    rw [length_cons, findName_step variableName _ header stream here, if_neg ne, scanned]
    simp [Stream.advance, Nat.add_assoc]

theorem findName_meets (stream : Stream) (passed : List Header) (header : Header)
    (meets : Meets variableName n stream.unread passed header) :
    ∃ k, findName variableName n stream =
      .ok (some (stream.offset + (passed.flatMap Header.bytes).length, header.name.1,
        header.varSize)) (stream.advance k) := by
  obtain ⟨few, unnamed, named, next⟩ := meets
  induction passed generalizing n stream with
  | nil =>
    obtain ⟨n, rfl⟩ := Nat.exists_eq_succ_of_ne_zero (Nat.ne_of_gt few)
    refine ⟨header.bytes.length, ?_⟩
    rw [findName_step variableName n header stream next, if_pos ((sameName_iff _ _).mpr named)]
    rfl
  | cons first passed ih =>
    obtain ⟨n, rfl⟩ := Nat.exists_eq_succ_of_ne_zero (Nat.ne_of_gt (Nat.zero_lt_of_lt few))
    obtain ⟨differs, others⟩ := forall_mem_cons.mp unnamed
    rw [flatMap_cons, append_assoc] at next
    obtain ⟨here, later⟩ := (append_prefix_iff _ _ _).mp next
    rw [← unread_advance_drop] at later
    obtain ⟨k, scanned⟩ := ih n _ (Nat.lt_of_succ_lt_succ few) others later
    have ne : ¬ sameName first.name.1 variableName = true := fun eq =>
      differs ((sameName_iff _ _).mp eq)
    refine ⟨first.bytes.length + k, ?_⟩
    rw [findName_step variableName n first stream here, if_neg ne, scanned]
    simp [Stream.advance, Nat.add_assoc]

end Scanning

section Ranges

variable {object : Stream} {vars : List (StoredName × List UInt8)}
  (decoded : decode names object.elementData = some vars) (variableName : List UInt8)
  (endOffset : Nat → List UInt8 → Nat → Int)

def position (passed : List Header) : Nat := 2 + (passed.flatMap Header.bytes).length

include decoded

theorem findRange_run :
    findRange variableName endOffset object =
      (do
        let found ← findName variableName vars.length
        modify Stream.reset
        return foundRange endOffset found : StreamM (Int × Int)) (object.reset.advance 2) ∧
      (object.reset.advance 2).unread = object.elementData.drop 2 := by
  have whole : decode names object.reset.elementData = some vars := decoded
  obtain ⟨-, counted⟩ := read_count rfl whole
  constructor
  · rw [findRange, bind_of_ok (m := modify Stream.reset) rfl, bind_of_ok counted]
  · simp [Stream.unread, Stream.advance, Stream.reset]

theorem findRange_ok {object' : Stream} {range : Int × Int}
    (ranged : findRange variableName endOffset object = .ok range object') :
    object' = object.reset ∧
      (range = (0, 0) ∧ Passes variableName vars.length (object.elementData.drop 2) ∨
        ∃ passed header,
          Meets variableName vars.length (object.elementData.drop 2) passed header ∧
          range = foundRange endOffset
            (some (position passed, header.name.1, header.varSize))) := by
  obtain ⟨run, next⟩ := findRange_run decoded variableName endOffset
  rw [run] at ranged
  obtain ⟨found, stream, scanned, ranged⟩ := bind_ok_iff.mp ranged
  obtain ⟨eq, ended⟩ := findName_ok variableName _ _ _ _ scanned
  cases ranged
  refine ⟨eq, ?_⟩
  rcases ended with ⟨rfl, passes⟩ | ⟨passed, header, meets, rfl⟩
  · exact .inl ⟨rfl, passes⟩
  · exact .inr ⟨passed, header, meets, rfl⟩

theorem findRange_passes
    (passes : Passes variableName vars.length (object.elementData.drop 2)) :
    findRange variableName endOffset object = .ok (0, 0) object.reset := by
  obtain ⟨run, next⟩ := findRange_run decoded variableName endOffset
  rw [← next] at passes
  obtain ⟨k, scanned⟩ := findName_passes variableName _ _ passes
  rw [run, bind_of_ok scanned]
  rfl

theorem findRange_meets {passed : List Header} {header : Header}
    (meets : Meets variableName vars.length (object.elementData.drop 2) passed header) :
    findRange variableName endOffset object =
      .ok (foundRange endOffset (some (position passed, header.name.1, header.varSize)))
        object.reset := by
  obtain ⟨run, next⟩ := findRange_run decoded variableName endOffset
  rw [← next] at meets
  obtain ⟨k, scanned⟩ := findName_meets variableName _ _ _ _ meets
  rw [run, bind_of_ok scanned]
  rfl

end Ranges

theorem removeIntRange_ok {fromIndex toIndex : Int} {stream stream' : Stream} {u : Unit}
    (removed : Stream.removeIntRange fromIndex toIndex stream = .ok u stream') :
    stream' = { stream with elementData :=
      stream.elementData.take fromIndex.toNat ++ stream.elementData.drop toIndex.toNat } := by
  unfold Stream.removeIntRange at removed
  split at removed
  next => cases removed
  split at removed
  next => cases removed
  obtain ⟨_, _, got, removed⟩ := bind_ok_iff.mp removed
  cases got
  split at removed
  next => cases removed
  split at removed
  next => cases removed
  cases removed
  rfl

theorem removeIntRange_inside {toIndex : Nat} (fromIndex : Nat) {stream : Stream}
    (ord : fromIndex ≤ toIndex) (hin : toIndex ≤ stream.size) :
    Stream.removeIntRange fromIndex toIndex stream = .ok () { stream with
      elementData := stream.elementData.take fromIndex ++ stream.elementData.drop toIndex } := by
  apply (ite_run_neg (by omega)).trans
  apply (ite_run_neg (by omega)).trans
  apply (ite_run_neg (Nat.not_lt.mpr hin)).trans
  apply (ite_run_neg (Nat.not_lt.mpr ord)).trans
  rfl

theorem onNew_ok_iff (newData newData' object object' : Stream) (m : StreamM Unit) :
    onNew newData m object = .ok newData' object' ↔
      m newData = .ok () newData' ∧ object' = object := by
  unfold onNew
  split
  next ran => simp [ran, eq_comm]
  next ran => simp [ran]

/-! ### Deleting -/

/-- The stream made by `delete` is without the first pair with the name, and there is none exactly
when no pair has the name. -/
def Deletes (object : Stream) (vars : List (StoredName × List UInt8)) (variableName : List UInt8)
    (delete : StreamM (Option Stream)) : Prop :=
  ((∃ object', delete object = .ok none object') ↔
      ∀ entry ∈ vars, ¬ Named variableName entry.1) ∧
    ∀ front key old back, vars = front ++ (key, old) :: back →
      (∀ entry ∈ front, ¬ Named variableName entry.1) → Named variableName key →
      ∃ newData object', delete object = .ok (some newData) object' ∧
        decode names newData.elementData = some (front ++ back)

/-- The name of the header ends the range at a multiple of 2^32, which is zero for the source. -/
def EndsAtZero (passed : List Header) (header : Header) : Prop :=
  (position passed + header.name.1.length + header.varSize) % 2 ^ 32 = 0

theorem i32_u32_eq_zero_iff (n : Nat) : i32 (u32 n) = 0 ↔ n % 2 ^ 32 = 0 := by
  rw [u32_natCast]
  unfold i32
  omega

section Deleting

variable {object : Stream} {vars : List (StoredName × List UInt8)}
  (decoded : decode names object.elementData = some vars) (variableName : List UInt8)

include decoded

theorem deleteVariable_none_iff :
    (∃ object', deleteVariable variableName object = .ok none object') ↔
      Passes variableName vars.length (object.elementData.drop 2) ∨
        ∃ passed header, EndsAtZero passed header ∧
          Meets variableName vars.length (object.elementData.drop 2) passed header := by
  constructor
  · rintro ⟨object', deleted⟩
    obtain ⟨range, _, ranged, deleted⟩ := bind_ok_iff.mp deleted
    obtain ⟨rfl, ⟨-, passes⟩ | ⟨passed, header, meets, rfl⟩⟩ :=
      findRange_ok decoded variableName _ ranged
    · exact .inl passes
    · refine .inr ⟨passed, header, ?_, meets⟩
      by_contra nonzero
      rw [EndsAtZero, ← i32_u32_eq_zero_iff] at nonzero
      obtain ⟨_, _, _, deleted⟩ :=
        bind_ok_iff.mp ((ite_run_neg nonzero).symm.trans deleted)
      obtain ⟨_, _, _, deleted⟩ := bind_ok_iff.mp deleted
      cases deleted
  · intro ends
    refine ⟨object.reset, ?_⟩
    rcases ends with passes | ⟨passed, header, zero, meets⟩
    · exact bind_of_ok (findRange_passes decoded variableName _ passes)
    · apply (bind_of_ok (findRange_meets decoded variableName _ meets)).trans
      exact ite_run_pos ((i32_u32_eq_zero_iff _).mpr zero)

theorem deleteVariable_some {newData object' : Stream}
    (deleted : deleteVariable variableName object = .ok (some newData) object') :
    ∃ startOffset endOffset, 2 ≤ startOffset ∧ newData.elementData =
      object.elementData.take startOffset ++ object.elementData.drop endOffset := by
  obtain ⟨range, _, ranged, deleted⟩ := bind_ok_iff.mp deleted
  obtain ⟨rfl, ⟨rfl, -⟩ | ⟨passed, header, -, rfl⟩⟩ :=
    findRange_ok decoded variableName _ ranged
  · cases deleted
  · by_cases zero : i32 (u32 (position passed + header.name.1.length + header.varSize : Nat)) = 0
    · cases (ite_run_pos zero).symm.trans deleted
    · obtain ⟨copy, _, copied, deleted⟩ :=
        bind_ok_iff.mp ((ite_run_neg zero).symm.trans deleted)
      rw [copy_all] at copied
      cases copied
      obtain ⟨_, _, made, deleted⟩ := bind_ok_iff.mp deleted
      cases deleted
      obtain ⟨made, -⟩ := (onNew_ok_iff _ _ _ _ _).mp made
      obtain ⟨_, cut, removed, made⟩ := bind_ok_iff.mp made
      cases made
      have bytes := removeIntRange_ok removed
      subst bytes
      exact ⟨_, _, Nat.le_add_right _ _, rfl⟩

theorem deleteVariable_count {newData object' : Stream} {after : List (StoredName × List UInt8)}
    (deleted : deleteVariable variableName object = .ok (some newData) object')
    (res : decode names newData.elementData = some after) : after.length = vars.length := by
  obtain ⟨startOffset, endOffset, behind, bytes⟩ :=
    deleteVariable_some decoded variableName deleted
  obtain ⟨few, -, whole⟩ := (decode_eq_some_iff _ _ _).mp decoded
  obtain ⟨fewer, -, content⟩ := (decode_eq_some_iff _ _ _).mp res
  have kept : newData.elementData.take 2 = object.elementData.take 2 := by
    have long : 2 ≤ (object.elementData.take startOffset).length := by
      rw [length_take, whole, length_append, length_leBytes]
      omega
    rw [bytes, take_append_of_le_length long, take_take, Nat.min_eq_left behind]
  have counts := congrArg leNat kept
  rwa [content, whole, leNat_take_leBytes 2 _ _ fewer, leNat_take_leBytes 2 _ _ few] at counts

/-- Exactly if no variable has the name and the loop ends without an offset. -/
theorem deleteVariable_right_iff :
    Deletes object vars variableName (deleteVariable variableName) ↔
      (∀ entry ∈ vars, ¬ Named variableName entry.1) ∧
        (Passes variableName vars.length (object.elementData.drop 2) ∨
          ∃ passed header, EndsAtZero passed header ∧
            Meets variableName vars.length (object.elementData.drop 2) passed header) := by
  rw [← deleteVariable_none_iff decoded variableName]
  constructor
  · rintro ⟨null, removes⟩
    have absent : ∀ entry ∈ vars, ¬ Named variableName entry.1 := by
      by_contra present
      push Not at present
      obtain ⟨front, key, old, back, rfl, before, here⟩ := exists_first _ vars present
      obtain ⟨newData, object', deleted, res⟩ := removes front key old back rfl before here
      have eq := deleteVariable_count decoded variableName deleted res
      simp at eq
    exact ⟨absent, null.mpr absent⟩
  · rintro ⟨absent, null⟩
    refine ⟨iff_of_true null absent, ?_⟩
    intro front key old back split _ here
    exact absurd here (absent (key, old) (by simp [split]))

end Deleting

def Header.of (entry : StoredName × List UInt8) (small : entry.2.length < 2 ^ 32) : Header where
  name := entry.1
  varSize := entry.2.length
  fits := small

theorem Header.of_bytes {entry : StoredName × List UInt8} (lt : entry.2.length < 2 ^ 32) :
    recordBytes names entry = (Header.of entry lt).bytes ++ entry.2 :=
  (append_assoc ..).symm

variable {variableName : List UInt8}

theorem passes_of_no_data {vars : List (StoredName × List UInt8)}
    (lt : ∀ entry ∈ vars, entry.2.length < 2 ^ 32)
    (absent : ∀ entry ∈ vars, ¬ Named variableName entry.1)
    (empty : ∀ entry ∈ vars.dropLast, entry.2 = []) :
    Passes variableName vars.length (vars.flatMap (recordBytes names)) := by
  induction vars with
  | nil => exact ⟨[], rfl, by simp, nil_prefix⟩
  | cons entry vars ih =>
    obtain ⟨fits, others⟩ := forall_mem_cons.mp lt
    obtain ⟨unnamed, absent⟩ := forall_mem_cons.mp absent
    have header := Header.of_bytes fits
    cases vars with
    | nil =>
      refine ⟨[Header.of entry fits], rfl, forall_mem_singleton.mpr unnamed, ?_⟩
      simp [header]
    | cons second vars =>
      obtain ⟨none, empty⟩ := forall_mem_cons.mp empty
      rw [none, append_nil] at header
      have passes := ih others absent empty
      rw [flatMap_cons, header]
      have differs : ¬ Named variableName (Header.of entry fits).name := unnamed
      exact Passes.cons differs (prefix_append _ _) (by rwa [drop_left])

theorem deleteVariable_right_absent :
    let object : Stream := ⟨[2, 0, 1, 0, 97, 0, 0, 0, 0, 1, 0, 98, 1, 0, 0, 0, 5], 0⟩
    let vars : List (StoredName × List UInt8) := [(⟨[97], by decide⟩, []), (⟨[98], by decide⟩, [5])]
    decode names object.elementData = some vars ∧
      Deletes object vars [99] (deleteVariable [99]) := by
  intro object vars
  have decoded : decode names object.elementData = some vars := by decide
  have absent : ∀ entry ∈ vars, ¬ Named [99] entry.1 := by
    simp [vars, Named, CString.ofChars]
  refine ⟨decoded, (deleteVariable_right_iff decoded [99]).mpr ⟨absent, .inl ?_⟩⟩
  exact passes_of_no_data (by decide) absent (by simp [vars])

theorem deleteVariable_wrong :
    let object : Stream := ⟨[1, 0, 1, 0, 97, 1, 0, 0, 0, 5], 0⟩
    let second : Stream :=
      ⟨[2, 0, 1, 0, 97, 2, 0, 0, 0, 99, 0, 1, 0, 98, 1, 0, 0, 0, 5], 0⟩
    decode names object.elementData = some [(⟨[97], by decide⟩, [5])] ∧
      deleteVariable [97] object = .ok (some ⟨[1, 0, 97, 1, 0, 0, 0, 5], 0⟩) object ∧
      decode names [1, 0, 97, 1, 0, 0, 0, 5] = none ∧
      decode names second.elementData =
        some [(⟨[97], by decide⟩, [99, 0]), (⟨[98], by decide⟩, [5])] ∧
      deleteVariable [99] second =
        .error (.streamIndexOutOfBounds 110) (second.advance 110) := by
  intro object second
  have ranged : findRange [97] (fun currentOffset name varSize =>
      i32 (u32 (currentOffset + name.length + varSize : Nat))) object =
      .ok (2, i32 (u32 (4 : Nat))) object := rfl
  have last : i32 (u32 (4 : Nat)) = 4 := by decide
  have deleted : deleteVariable [97] object = .ok (some ⟨[1, 0, 97, 1, 0, 0, 0, 5], 0⟩) object :=
    (bind_of_ok ranged).trans rfl
  exact ⟨by decide, deleted, by decide, by decide, rfl⟩

/-! ### Renaming -/

/-- The stream made by `change` decodes to the same pairs, with the new name in this one. -/
def Renames (object : Stream) (front back : List (StoredName × List UInt8)) (data : List UInt8)
    (newVariableName : List UInt8) (change : StreamM (Option Stream)) : Prop :=
  ∃ (name : StoredName) (newData object' : Stream), name.1 = newVariableName ∧
    change object = .ok (some newData) object' ∧
    decode names newData.elementData = some (front ++ (name, data) :: back)

def renamedBytes (bytes : List UInt8) (passed : List Header) (header : Header)
    (name : StoredName) : List UInt8 :=
  bytes.take (position passed) ++
    (names.bytes name ++ bytes.drop (position passed + (header.name.1.length + 1)))

theorem toBinaryStream_empty (name : StoredName) :
    CStrings.toBinaryStream name.1 Stream.empty =
      .ok () ⟨names.bytes name, (names.bytes name).length⟩ := by
  have short : name.1.length ≤ 65535 := Nat.le_of_lt_succ name.2
  apply (if_pos short).trans
  rw [Stream.writeShort, Stream.empty]
  have fst := writeStream_end [] (leBytes 2 name.1.length)
  rw [length_nil, nil_append] at fst
  rw [fst, writeStream_end]
  rfl

section Renaming

variable {object : Stream} {vars : List (StoredName × List UInt8)}
  (decoded : decode names object.elementData = some vars) {variableName : List UInt8}
  {passed : List Header} {header : Header}
  (meets : Meets variableName vars.length (object.elementData.drop 2) passed header)

include decoded meets

theorem Meets.split :
    ∃ front back, front.length = position passed ∧
      object.elementData = front ++ (header.bytes ++ back) := by
  obtain ⟨-, -, -, back, next⟩ := meets
  obtain ⟨-, -, bytes⟩ := (decode_eq_some_iff _ _ _).mp decoded
  refine ⟨leBytes 2 vars.length ++ passed.flatMap Header.bytes, back, ?_, ?_⟩
  · rw [length_append, length_leBytes, position]
  · rw [append_assoc, ← append_assoc (passed.flatMap _), next, bytes, drop_leBytes]

theorem changeVariableName_cut (newVariableName : List UInt8) :
    changeVariableName variableName newVariableName object =
      (do
        let newName ← onNew Stream.empty (CStrings.toBinaryStream newVariableName)
        let newData ← onNew ⟨object.elementData.take (position passed) ++
            object.elementData.drop (position passed + (header.name.1.length + 1)), 0⟩
          (Stream.insertStream newName newName.size (position passed))
        return some newData : StreamM (Option Stream)) object.reset := by
  obtain ⟨front, back, start, bytes⟩ := meets.split decoded
  have hin : position passed + header.name.1.length + 1 ≤ object.reset.size := by
    rw [Stream.size, Stream.reset, bytes, ← start]
    simp only [Header.bytes, names, length_append, length_leBytes]
    omega
  have removed := removeIntRange_inside (position passed) (by omega) hin
  have ranged := findRange_meets decoded variableName
    (fun currentOffset name _ => (currentOffset + name.length + 1 : Nat)) meets
  have nonzero : ((position passed + header.name.1.length + 1 : Nat) : Int) ≠ 0 := by omega
  apply (bind_of_ok ranged).trans
  apply (ite_run_neg nonzero).trans
  apply (bind_of_ok (copy_all _)).trans
  exact bind_of_ok (onNew_ok _ removed)

theorem changeVariableName_long {newVariableName : List UInt8}
    (long : ¬ newVariableName.length ≤ 65535) :
    changeVariableName variableName newVariableName object =
      .error (.abort "String length exceeded 65k in toBinaryStream") object.reset := by
  rw [changeVariableName_cut decoded meets]
  apply bind_of_error
  simp only [onNew, CStrings.toBinaryStream, if_neg long]

theorem changeVariableName_meets (name : StoredName) :
    changeVariableName variableName name.1 object =
      .ok (some ⟨renamedBytes object.elementData passed header name, 0⟩) object.reset := by
  obtain ⟨front, back, start, bytes⟩ := meets.split decoded
  have taken : object.elementData.take (position passed) = front := by
    rw [bytes, ← start, take_left]
  generalize rest : object.elementData.drop (position passed + (header.name.1.length + 1)) = kept
  have inserted : Stream.insertStream ⟨names.bytes name, (names.bytes name).length⟩
      (names.bytes name).length front.length ⟨front ++ kept, 0⟩ =
      .ok () ⟨front ++ (names.bytes name ++ kept), 0⟩ := by
    apply (ite_run_neg (Nat.lt_irrefl _)).trans
    apply (ite_run_neg (by simp [Stream.size])).trans
    exact insertElements_middle _ _ _ _
  rw [changeVariableName_cut decoded meets, renamedBytes, taken, rest, ← start]
  apply (bind_of_ok (onNew_ok _ (toBinaryStream_empty name))).trans
  exact (bind_of_ok (onNew_ok _ inserted)).trans rfl

end Renaming

theorem changeVariableName_some {object : Stream} {vars : List (StoredName × List UInt8)}
    (decoded : decode names object.elementData = some vars)
    {variableName newVariableName : List UInt8} {newData object' : Stream}
    (changed : changeVariableName variableName newVariableName object =
      .ok (some newData) object') :
    ∃ (name : StoredName) (passed : List Header) (header : Header), name.1 = newVariableName ∧
      Meets variableName vars.length (object.elementData.drop 2) passed header ∧
      newData.elementData = renamedBytes object.elementData passed header name := by
  obtain ⟨range, _, ranged, made⟩ := bind_ok_iff.mp changed
  obtain ⟨rfl, ⟨rfl, -⟩ | ⟨passed, header, meets, rfl⟩⟩ :=
    findRange_ok decoded variableName _ ranged
  · cases made
  · by_cases short : newVariableName.length ≤ 65535
    · have named := changeVariableName_meets decoded meets
        ⟨newVariableName, Nat.lt_succ_of_le short⟩
      rw [changed] at named
      cases named
      exact ⟨_, passed, header, rfl, meets, rfl⟩
    · rw [changeVariableName_long decoded meets short] at changed
      cases changed

/-! ### The bytes of a renamed object -/

def byteSum (bytes : List UInt8) : Nat := (bytes.map UInt8.toNat).sum

theorem byteSum_append (a b : List UInt8) : byteSum (a ++ b) = byteSum a + byteSum b := by
  simp [byteSum]

theorem byteSum_succ_ne (n : Nat) : byteSum (leBytes 2 (n + 1)) ≠ byteSum (leBytes 2 n) := by
  simp only [byteSum, leBytes, map_cons, map_nil, sum_cons, sum_nil,
    UInt8.toNat_ofNat']
  omega

theorem named_longer {key name : StoredName} (terminated : (0 : UInt8) ∉ key.1)
    (eq : Named variableName key) (named : Named variableName name)
    (longer : name.1.length = key.1.length + 1) : ∃ last, name.1 = key.1 ++ [last] := by
  have front : name.1.takeWhile (· ≠ 0) = key.1 :=
    (congrArg CString.chars (named.trans eq.symm)).trans (CString.chars_ofChars terminated)
  have parts := takeWhile_append_dropWhile (p := (· ≠ 0)) (l := name.1)
  rw [front] at parts
  have len := congrArg length parts
  rw [length_append, longer] at len
  obtain ⟨last, single⟩ := length_eq_one_iff.mp (Nat.add_left_cancel len)
  exact ⟨last, by rw [← parts, single]⟩

section Bytes

variable {object : Stream} {front back : List (StoredName × List UInt8)} {key name : StoredName}
  {data : List UInt8} {variableName : List UInt8} {passed : List Header} {header : Header}
  (decoded : decode names object.elementData = some (front ++ (key, data) :: back))
  (meets : Meets variableName (front ++ (key, data) :: back).length (object.elementData.drop 2)
    passed header)
  (right : decode names (renamedBytes object.elementData passed header name) =
    some (front ++ (name, data) :: back))

include decoded meets right

theorem renamed_measure (measure : List UInt8 → Nat)
    (additive : ∀ a b, measure (a ++ b) = measure a + measure b) :
    measure ((names.bytes header.name).take (header.name.1.length + 1)) =
      measure (names.bytes key) := by
  obtain ⟨before, behind, start, bytes⟩ := meets.split decoded
  obtain ⟨-, -, whole⟩ := (decode_eq_some_iff _ _ _).mp decoded
  obtain ⟨-, -, renamed⟩ := (decode_eq_some_iff _ _ _).mp right
  have taken : object.elementData.take (position passed) = before := by
    rw [bytes, ← start, take_left]
  have long : header.name.1.length + 1 ≤ (names.bytes header.name).length := by
    simp only [names, length_append, length_leBytes]
    omega
  have cut : object.elementData = before ++ ((names.bytes header.name).take
      (header.name.1.length + 1) ++
      object.elementData.drop (position passed + (header.name.1.length + 1))) := by
    have fst : (names.bytes header.name ++ (leBytes 4 header.varSize ++ behind)).take
        (header.name.1.length + 1) = (names.bytes header.name).take (header.name.1.length + 1) :=
      take_append_of_le_length long
    rw [bytes, ← start, ← drop_drop, drop_left, Header.bytes, append_assoc,
      ← fst, take_append_drop]
  -- the bytes that stay are the same in both
  rw [renamedBytes, taken] at renamed
  generalize object.elementData.drop _ = kept at cut renamed
  have old := congrArg measure (cut.symm.trans whole)
  have new := congrArg measure renamed
  simp only [additive, flatMap_append, flatMap_cons, recordBytes, length_append,
    length_cons] at old new
  omega

theorem renamed_length : header.name.1.length = key.1.length + 1 := by
  have lengths := renamed_measure decoded meets right length fun _ _ => length_append
  simp only [names, length_take, length_append, length_leBytes] at lengths
  omega

end Bytes

/-- Putting these bytes over a stretch of this length comes to the same at both places: what is
between the places is also between the ends of the stretches. -/
def Interchangeable (bytes : List UInt8) (p q length : Nat) (new : List UInt8) : Prop :=
  (bytes.drop (min p q)).take (max p q - min p q) ++ new =
    new ++ (bytes.drop (min p q + length)).take (max p q - min p q)

theorem interchangeable_iff (bytes : List UInt8) (p q length : Nat) (new : List UInt8) :
    Interchangeable bytes p q length new ↔
      bytes.take p ++ (new ++ bytes.drop (p + length)) =
        bytes.take q ++ (new ++ bytes.drop (q + length)) := by
  have ordered (p apart : Nat) :
      (bytes.drop p).take apart ++ new = new ++ (bytes.drop (p + length)).take apart ↔
        bytes.take p ++ (new ++ bytes.drop (p + length)) =
          bytes.take (p + apart) ++ (new ++ bytes.drop (p + apart + length)) := by
    have behind : bytes.drop (p + length) = (bytes.drop (p + length)).take apart ++
        bytes.drop (p + apart + length) := by
      have parts := (take_append_drop apart (bytes.drop (p + length))).symm
      rwa [drop_drop, Nat.add_right_comm] at parts
    rw [behind, take_add, append_assoc, append_cancel_left_eq, ← append_assoc, ← append_assoc,
      append_cancel_right_eq, ← behind, eq_comm]
  unfold Interchangeable
  rcases Nat.le_total p q with le | le
  · rw [min_eq_left le, max_eq_right le, ordered, Nat.add_sub_cancel' le]
  · rw [min_eq_right le, max_eq_left le, ordered, Nat.add_sub_cancel' le, eq_comm]

theorem renamed_right_iff {object : Stream} {front back : List (StoredName × List UInt8)}
    {key name : StoredName} {data : List UInt8} {passed : List Header} {header : Header}
    (decoded : decode names object.elementData = some (front ++ (key, data) :: back))
    (longer : header.name.1.length = key.1.length + 1) :
    decode names (renamedBytes object.elementData passed header name) =
        some (front ++ (name, data) :: back) ↔
      Interchangeable object.elementData (position passed)
        (2 + (front.flatMap (recordBytes names)).length) (names.bytes key).length
        (names.bytes name) := by
  obtain ⟨few, fits, whole⟩ := (decode_eq_some_iff _ _ _).mp decoded
  have width : header.name.1.length + 1 = (names.bytes key).length := by
    simp only [longer, names, length_append, length_leBytes]
    omega
  have count : (front ++ (name, data) :: back).length = (front ++ (key, data) :: back).length := by
    simp
  have parts : object.elementData =
      (leBytes 2 (front ++ (key, data) :: back).length ++ front.flatMap (recordBytes names)) ++
        (names.bytes key ++ (leBytes 4 data.length ++ data ++
          back.flatMap (recordBytes names))) := by
    rw [whole]
    simp [recordBytes]
  have start : 2 + (front.flatMap (recordBytes names)).length =
      (leBytes 2 (front ++ (key, data) :: back).length ++
        front.flatMap (recordBytes names)).length := by
    rw [length_append, length_leBytes]
  have here : object.elementData.take (2 + (front.flatMap (recordBytes names)).length) ++
      (names.bytes name ++ object.elementData.drop
        (2 + (front.flatMap (recordBytes names)).length + (names.bytes key).length)) =
      leBytes 2 (front ++ (name, data) :: back).length ++
        (front ++ (name, data) :: back).flatMap (recordBytes names) := by
    rw [← drop_drop, start, parts, take_left, drop_left, drop_left, count]
    simp [recordBytes]
  rw [interchangeable_iff, here, renamedBytes, width, decode_eq_some_iff]
  refine ⟨fun right => right.2.2, fun same => ⟨count ▸ few, ?_, same⟩⟩
  intro entry member
  rcases mem_append.mp member with before | here
  · exact fits entry (mem_append_left _ before)
  · rcases mem_cons.mp here with rfl | behind
    · exact fits (key, data) (mem_append_right _ mem_cons_self)
    · exact fits entry (mem_append_right _ (mem_cons_of_mem _ behind))

theorem renames_iff {object : Stream} {front back : List (StoredName × List UInt8)}
    {key : StoredName} {data : List UInt8}
    (decoded : decode names object.elementData = some (front ++ (key, data) :: back))
    (variableName newVariableName : List UInt8) :
    Renames object front back data newVariableName
        (changeVariableName variableName newVariableName) ↔
      ∃ (name : StoredName) (passed : List Header) (header : Header), name.1 = newVariableName ∧
        Meets variableName (front ++ (key, data) :: back).length (object.elementData.drop 2)
          passed header ∧
        header.name.1.length = key.1.length + 1 ∧
        decode names (renamedBytes object.elementData passed header name) =
          some (front ++ (name, data) :: back) := by
  constructor
  · rintro ⟨name, newData, object', rfl, changed, right⟩
    obtain ⟨same, passed, header, new, meets, bytes⟩ :=
      changeVariableName_some decoded changed
    obtain rfl := Subtype.ext new
    rw [bytes] at right
    exact ⟨same, passed, header, rfl, meets, renamed_length decoded meets right, right⟩
  · rintro ⟨name, passed, header, rfl, meets, -, right⟩
    exact ⟨name, _, _, rfl, changeVariableName_meets decoded meets name, right⟩

/-- Only by chance, where the loop meets a name that is one byte longer. -/
theorem changeVariableName_right_iff {object : Stream}
    {front back : List (StoredName × List UInt8)} {key : StoredName} {data : List UInt8}
    (decoded : decode names object.elementData = some (front ++ (key, data) :: back))
    (variableName newVariableName : List UInt8) :
    (Renames object front back data newVariableName
        (changeVariableName variableName newVariableName) ↔
      ∃ (name : StoredName) (passed : List Header) (header : Header), name.1 = newVariableName ∧
        Meets variableName (front ++ (key, data) :: back).length (object.elementData.drop 2)
          passed header ∧
        header.name.1.length = key.1.length + 1 ∧
        Interchangeable object.elementData (position passed)
          (2 + (front.flatMap (recordBytes names)).length) (names.bytes key).length
          (names.bytes name)) ∧
    (Named variableName key → (0 : UInt8) ∉ key.1 →
      ¬ Renames object front back data newVariableName
        (changeVariableName variableName newVariableName)) := by
  constructor
  · rw [renames_iff decoded variableName newVariableName]
    apply exists_congr
    intro name
    apply exists_congr
    intro passed
    apply exists_congr
    intro header
    constructor
    · rintro ⟨new, meets, longer, right⟩
      exact ⟨new, meets, longer, (renamed_right_iff decoded longer).mp right⟩
    · rintro ⟨new, meets, longer, right⟩
      exact ⟨new, meets, longer, (renamed_right_iff decoded longer).mpr right⟩
  intro eq terminated renames
  obtain ⟨name, passed, header, -, meets, longer, right⟩ :=
    (renames_iff decoded variableName newVariableName).mp renames
  obtain ⟨last, ends⟩ := named_longer terminated eq meets.2.2.1 longer
  -- all but the last byte of the longer name is cut out, and its length is another
  have bytes : names.bytes header.name =
      leBytes 2 (key.1.length + 1) ++ key.1 ++ [last] := by
    simp [names, ends]
  have sums := renamed_measure decoded meets right byteSum byteSum_append
  have cut : (names.bytes header.name).take (header.name.1.length + 1) =
      leBytes 2 (key.1.length + 1) ++ key.1 := by
    rw [bytes, longer]
    apply take_left'
    rw [length_append, length_leBytes]
    omega
  rw [cut, names, byteSum_append, byteSum_append] at sums
  exact byteSum_succ_ne key.1.length (Nat.add_right_cancel sums)

theorem changeVariableName_wrong :
    let object : Stream := ⟨[1, 0, 1, 0, 97, 1, 0, 0, 0, 5], 0⟩
    decode names object.elementData = some [(⟨[97], by decide⟩, [5])] ∧
      changeVariableName [97] [98] object =
        .ok (some ⟨[1, 0, 1, 0, 98, 97, 1, 0, 0, 0, 5], 0⟩) object ∧
      decode names [1, 0, 1, 0, 98, 97, 1, 0, 0, 0, 5] = none :=
  ⟨by decide, rfl, by decide⟩

theorem changeVariableName_right_by_chance :
    let object : Stream := ⟨[3, 0, 0, 0, 4, 0, 0, 0, 0, 0, 0, 0, 4, 0, 5, 0, 5, 0, 4, 0, 0, 0,
      1, 2, 3, 4, 0, 0, 0, 0, 0, 0], 0⟩
    let front : List (StoredName × List UInt8) := [(⟨[], by decide⟩, [0, 0, 0, 0])]
    let back : List (StoredName × List UInt8) := [(⟨[], by decide⟩, [])]
    decode names object.elementData =
        some (front ++ (⟨[5, 0, 5, 0], by decide⟩, [1, 2, 3, 4]) :: back) ∧
      Renames object front back [1, 2, 3, 4] [4, 0, 4, 0]
        (changeVariableName [5] [4, 0, 4, 0]) := by
  intro object front back
  have decoded : decode names object.elementData =
      some (front ++ (⟨[5, 0, 5, 0], by decide⟩, [1, 2, 3, 4]) :: back) := by decide
  refine ⟨decoded, (changeVariableName_right_iff decoded [5] [4, 0, 4, 0]).1.mpr ?_⟩
  refine ⟨⟨[4, 0, 4, 0], by decide⟩,
    [⟨⟨[], by decide⟩, 4, by decide⟩, ⟨⟨[], by decide⟩, 262144, by decide⟩],
    ⟨⟨[5, 0, 4, 0, 0], by decide⟩, 50462976, by decide⟩, rfl, ⟨by decide, ?_, ?_, ?_⟩, rfl, ?_⟩
  · simp [Named, CString.ofChars]
  · simp [Named, CString.ofChars]
  · decide
  · unfold Interchangeable
    decide

end Serializable

end Engine3
