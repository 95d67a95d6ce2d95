import Engine3.System.SchemaEvolution

/-!
# Editing stored objects

`Serializable::changeVariableData` and `Serializable::addVariable` work on the bytes of an object:
they copy them, cut out the data of a variable, put others in their place and correct the size in
front of them, or append a record and correct the count. What they do to the variables is said of
the list that the bytes are decoded to. There are two formats, with the name of a variable in its
record, or the hash of the name.

Streams are shorter than 2^31 bytes, so that no offset wraps.
-/
namespace Engine3

open Bytes Exec List

namespace Stream

def copy (startoffs : Nat) (stream : Stream) : StreamM Stream := do
  let s ← get
  if startoffs ≠ 0 ∧ s.size ≤ startoffs then throw (.abort "startoffs < size()")
  else
    let written := stream.reset.writeStream (s.elementData.drop startoffs)
    return if startoffs = 0 then { written with offset := s.offset } else written

def removeRange (fromIndex toIndex : Nat) : StreamM Unit := do
  if toIndex > (← get).size then throw (.arrayIndexOutOfBounds toIndex)
  else if fromIndex > toIndex then throw (.plain "IllegalArgumentException")
  else modify fun s =>
    { s with elementData := s.elementData.take fromIndex ++ s.elementData.drop toIndex }

def insertElementAt (element : UInt8) (index : Nat) : StreamM Unit := do
  if index > (← get).size then throw (.arrayIndexOutOfBounds index)
  else modify fun s =>
    { s with elementData := s.elementData.take index ++ element :: s.elementData.drop index }

def insertElements : List UInt8 → Nat → StreamM Unit
  | [], _ => return ()
  | element :: elements, offs => do
    insertElementAt element offs
    insertElements elements (offs + 1)

def insertStream (stream : Stream) (len offs : Nat) : StreamM Unit := do
  if len > stream.size then throw (.streamIndexOutOfBounds len)
  else if offs > (← get).size then modify (writeStream (stream.elementData.take len))
  else insertElements stream.elementData offs

end Stream

namespace Serializable

/-! ### The source -/

def findVariable {R : Type} (readKey : StreamM R) (isKey : R → Bool) : Nat → StreamM Int
  | 0 => do
    modify Stream.reset
    return -1
  | n + 1 => do
    let key ← readKey
    let varSize ← Stream.readInt
    let offset := (← get).offset
    if isKey key then
      modify Stream.reset
      return offset
    else
      Stream.shiftOffset varSize
      findVariable readKey isKey n

def getVariableDataOffset {R : Type} (readKey : StreamM R) (isKey : R → Bool) : StreamM Int := do
  let dataSize ← Stream.readShort
  findVariable readKey isKey dataSize

def sameName (name variableName : List UInt8) : Bool :=
  VariableName.compareTo (CString.ofChars variableName) (CString.ofChars name) == 0

def getVariableDataOffsetOfName (variableName : List UInt8) : StreamM Int :=
  getVariableDataOffset CStrings.parseFromBinaryStream (sameName · variableName)

def getVariableDataOffsetOfHash (variableHashCode : UInt32) : StreamM Int :=
  getVariableDataOffset Stream.readInt (· == variableHashCode.toNat)

def onNew (newData : Stream) (m : StreamM Unit) : StreamM Stream := fun object =>
  match m newData with
  | .ok _ newData => .ok newData object
  | .error e _ => .error e object

def replaceData (offset dataSize : Nat) (newVariableData : Stream) : StreamM Unit := do
  Stream.shiftOffset offset
  if dataSize > 0 then Stream.removeRange offset (offset + dataSize)
  Stream.writePrimitiveTo (offset - 4) (leBytes 4 newVariableData.size)
  Stream.insertStream newVariableData newVariableData.size offset

def changeVariableData (getOffset : StreamM Int) (newVariableData : Stream) :
    StreamM (Option Stream) := do
  let offset ← getOffset
  if offset = -1 then return none
  else
    let newData ← Stream.copy 0 Stream.empty
    modify Stream.reset
    Stream.shiftOffset (offset.toNat - 4)
    let dataSize ← Stream.readInt
    let newData ← onNew newData.reset (replaceData offset.toNat dataSize newVariableData)
    modify Stream.reset
    return some newData

def changeVariableDataOfName (variableName : List UInt8) (newVariableData : Stream) :
    StreamM (Option Stream) :=
  changeVariableData (getVariableDataOffsetOfName variableName) newVariableData

def changeVariableDataOfHash (variableHashCode : UInt32) (newVariableData : Stream) :
    StreamM (Option Stream) :=
  changeVariableData (getVariableDataOffsetOfHash variableHashCode) newVariableData

def appendRecord (variableName : List UInt8) (newVariableData : Stream) : StreamM Unit := do
  Stream.setOffset (← get).size
  CStrings.toBinaryStream variableName
  modify (Stream.writeInt newVariableData.size)
  modify (Stream.writeStream newVariableData.elementData)

def addVariable (variableName : List UInt8) (newVariableData : Stream) : StreamM Stream := do
  modify Stream.reset
  let oldVariableCount ← Stream.readShort
  let newData ← Stream.copy 0 Stream.empty
  onNew newData do
    Stream.writePrimitiveTo 0 (leBytes 2 (oldVariableCount + 1))
    appendRecord variableName newVariableData

/-! ### The variables of an object -/

structure KeyFormat (K : Type) where
  bytes : K → List UInt8
  parse : List UInt8 → Option (K × List UInt8)
  parse_eq_some_iff : ∀ input key rest, parse input = some (key, rest) ↔ input = bytes key ++ rest

variable {K : Type}

def decodeRecords (format : KeyFormat K) : Nat → List UInt8 → Option (List (K × List UInt8))
  | 0, [] => some []
  | 0, _ :: _ => none
  | n + 1, input =>
    match format.parse input with
    | none => none
    | some (key, input) =>
      if input.length < 4 then none
      else
        let size := leNat (input.take 4)
        if (input.drop 4).length < size then none
        else
          (decodeRecords format n ((input.drop 4).drop size)).map
            ((key, (input.drop 4).take size) :: ·)

def decode (format : KeyFormat K) (input : List UInt8) : Option (List (K × List UInt8)) :=
  if input.length < 2 then none
  else decodeRecords format (leNat (input.take 2)) (input.drop 2)

def recordBytes (format : KeyFormat K) (entry : K × List UInt8) : List UInt8 :=
  format.bytes entry.1 ++ (leBytes 4 entry.2.length ++ entry.2)

variable (format : KeyFormat K)

theorem decodeRecords_succ_iff (n : Nat) (input : List UInt8) (vars : List (K × List UInt8)) :
    decodeRecords format (n + 1) input = some vars ↔
      ∃ entry later rest, vars = entry :: later ∧ entry.2.length < 2 ^ 32 ∧
        input = recordBytes format entry ++ rest ∧ decodeRecords format n rest = some later := by
  constructor
  · intro decoded
    unfold decodeRecords at decoded
    split at decoded
    next => cases decoded
    next key rest parsed =>
      split at decoded
      next => cases decoded
      next sized =>
        -- the size field is the four bytes that encode the number read from it
        have size := eq_leBytes_append 4 rest (by omega)
        have bound := leNat_take_lt 4 rest
        generalize leNat (rest.take 4) = dataSize at decoded size bound
        generalize rest.drop 4 = content at decoded size
        simp only at decoded
        split at decoded
        next => cases decoded
        next complete =>
          obtain ⟨later, decodedRest, rfl⟩ := Option.map_eq_some_iff.mp decoded
          have taken : (content.take dataSize).length = dataSize := by
            rw [length_take]
            omega
          refine ⟨_, later, _, rfl, ?_, ?_, decodedRest⟩
          · rw [taken]
            exact bound
          · rw [(format.parse_eq_some_iff _ _ _).mp parsed, size, recordBytes, taken,
              append_assoc, append_assoc, take_append_drop]
  · rintro ⟨entry, later, rest, rfl, lt, rfl, decoded⟩
    have parsed := (format.parse_eq_some_iff (recordBytes format entry ++ rest) entry.1
      (leBytes 4 entry.2.length ++ (entry.2 ++ rest))).mpr (by simp [recordBytes])
    have complete : ¬ (entry.2 ++ rest).length < entry.2.length := by
      rw [length_append]
      omega
    simp only [decodeRecords, parsed, leNat_take_leBytes 4 _ _ lt, drop_leBytes]
    rw [if_neg (width_le_leBytes 4 _ _), if_neg complete, take_left, drop_left, decoded]
    rfl

theorem decodeRecords_eq_some_iff (n : Nat) (input : List UInt8) (vars : List (K × List UInt8)) :
    decodeRecords format n input = some vars ↔
      vars.length = n ∧ (∀ entry ∈ vars, entry.2.length < 2 ^ 32) ∧
        input = vars.flatMap (recordBytes format) := by
  induction n generalizing input vars with
  | zero =>
    -- bytes behind the last record are refused
    cases input with
    | nil => cases vars <;> simp [decodeRecords]
    | cons b input => cases vars <;> simp [decodeRecords]
  | succ n ih =>
    rw [decodeRecords_succ_iff]
    constructor
    · rintro ⟨entry, later, rest, rfl, lt, rfl, decoded⟩
      obtain ⟨len, others, rfl⟩ := (ih _ _).mp decoded
      exact ⟨congrArg (· + 1) len, forall_mem_cons.mpr ⟨lt, others⟩,
        (flatMap_cons ..).symm⟩
    · rintro ⟨len, lt, rfl⟩
      cases vars with
      | nil => cases len
      | cons entry later =>
        obtain ⟨fst, others⟩ := forall_mem_cons.mp lt
        exact ⟨entry, later, _, rfl, fst, flatMap_cons ..,
          (ih _ _).mpr ⟨Nat.succ.inj len, others, rfl⟩⟩

theorem decode_eq_some_iff (input : List UInt8) (vars : List (K × List UInt8)) :
    decode format input = some vars ↔
      vars.length < 2 ^ 16 ∧ (∀ entry ∈ vars, entry.2.length < 2 ^ 32) ∧
        input = leBytes 2 vars.length ++ vars.flatMap (recordBytes format) := by
  unfold decode
  constructor
  · intro decoded
    split at decoded
    next => cases decoded
    next counted =>
      obtain ⟨len, lt, bytes⟩ := (decodeRecords_eq_some_iff _ _ _ _).mp decoded
      refine ⟨?_, lt, ?_⟩
      · rw [len]
        exact leNat_take_lt 2 input
      · rw [len, ← bytes]
        exact eq_leBytes_append 2 input (by omega)
  · rintro ⟨few, lt, rfl⟩
    rw [if_neg (width_le_leBytes 2 _ _), leNat_take_leBytes 2 _ _ few, drop_leBytes]
    exact (decodeRecords_eq_some_iff _ _ _ _).mpr ⟨rfl, lt, rfl⟩

/-! ### Names and hashes -/

abbrev StoredName := { chars : List UInt8 // chars.length < 2 ^ 16 }

def names : KeyFormat StoredName where
  bytes name := leBytes 2 name.1.length ++ name.1
  parse input :=
    if input.length < 2 ∨ (input.drop 2).length < leNat (input.take 2) then none
    else some (⟨(input.drop 2).take (leNat (input.take 2)),
      Nat.lt_of_le_of_lt (length_take_le _ _) (leNat_take_lt 2 input)⟩,
      (input.drop 2).drop (leNat (input.take 2)))
  parse_eq_some_iff input key rest := by
    constructor
    · intro parsed
      split at parsed
      next => cases parsed
      next complete =>
        rw [not_or] at complete
        cases parsed
        have length : ((input.drop 2).take (leNat (input.take 2))).length =
            leNat (input.take 2) := by
          rw [length_take]
          omega
        simp only [length, append_assoc, take_append_drop]
        exact eq_leBytes_append 2 input (by omega)
    · rintro rfl
      have complete : ¬ (key.1 ++ rest).length < key.1.length := by
        rw [length_append]
        omega
      simp only [append_assoc, leNat_take_leBytes 2 _ _ key.2, drop_leBytes, take_left,
        drop_left]
      exact if_neg (not_or.mpr ⟨width_le_leBytes 2 _ _, complete⟩)

def hashes : KeyFormat UInt32 where
  bytes hash := leBytes 4 hash.toNat
  parse input :=
    if input.length < 4 then none else some (UInt32.ofNat (leNat (input.take 4)), input.drop 4)
  parse_eq_some_iff input key rest := by
    constructor
    · intro parsed
      split at parsed
      next => cases parsed
      next complete =>
        cases parsed
        have number : (UInt32.ofNat (leNat (input.take 4))).toNat = leNat (input.take 4) := by
          rw [UInt32.toNat_ofNat']
          exact Nat.mod_eq_of_lt (leNat_take_lt 4 input)
        rw [number]
        exact eq_leBytes_append 4 input (by omega)
    · rintro rfl
      rw [if_neg (width_le_leBytes 4 _ _), leNat_take_leBytes 4 _ _ key.toNat_lt, drop_leBytes,
        UInt32.ofNat_toNat]

def Reads {R : Type} (format : KeyFormat K) (readKey : StreamM R) (value : K → R) : Prop :=
  ∀ (stream : Stream) (key : K) (back : List UInt8), stream.unread = format.bytes key ++ back →
    readKey stream = .ok (value key) (stream.advance (format.bytes key).length)

theorem reads_names : Reads names CStrings.parseFromBinaryStream Subtype.val := by
  intro stream key back next
  have short : key.1.length ≤ 65535 := Nat.le_of_lt_succ key.2
  rw [CStrings.parseFromBinaryStream_unread key.1 back short stream (by simpa [names] using next)]
  simp [names, Stream.advance, Nat.add_assoc]

theorem reads_hashes : Reads hashes Stream.readInt UInt32.toNat := by
  intro stream key back next
  rw [Stream.readInt_unread stream key.toNat back next, Nat.mod_eq_of_lt key.toNat_lt]
  simp [hashes]

/-! ### Finding a variable -/

section Finding

variable {R : Type} {format : KeyFormat K} {readKey : StreamM R} {value : K → R}
  (reads : Reads format readKey value) (isKey : R → Bool)

include reads

variable {entry : K × List UInt8}

theorem read_header (stream : Stream) (back : List UInt8) (lt : entry.2.length < 2 ^ 32)
    (next : stream.unread = recordBytes format entry ++ back) :
    ∃ content, content = stream.advance ((format.bytes entry.1).length + 4) ∧
      readKey stream = .ok (value entry.1) (stream.advance (format.bytes entry.1).length) ∧
      Stream.readInt (stream.advance (format.bytes entry.1).length) =
        .ok entry.2.length content ∧
      content.unread = entry.2 ++ back ∧ content.offset + entry.2.length ≤ content.size := by
  rw [recordBytes, append_assoc, append_assoc] at next
  have behind := Stream.unread_advance stream _ _ next _ rfl
  have sized := Stream.readInt_unread _ _ _ behind
  have size : entry.2.length % 4294967296 = entry.2.length := Nat.mod_eq_of_lt lt
  rw [size] at sized
  -- all of the record is there, so the data can be passed over
  have content := Stream.unread_advance _ _ _ behind 4 (length_leBytes 4 _)
  have hin := Stream.inside_of_unread _ _ (by simp [leBytes]) behind
  have rest := congrArg length content
  simp only [Stream.unread, length_drop, length_append] at rest
  refine ⟨_, ?_, reads stream entry.1 _ next, sized, content, ?_⟩
  · simp [Stream.advance, Nat.add_assoc]
  · rw [length_leBytes] at hin
    simp only [Stream.advance, Stream.size] at hin rest ⊢
    omega

theorem findVariable_pass (stream : Stream) {back : List UInt8} (lt : entry.2.length < 2 ^ 32)
    (next : stream.unread = recordBytes format entry ++ back)
    (ne : isKey (value entry.1) = false) (n : Nat) :
    (stream.advance (recordBytes format entry).length).unread = back ∧
      findVariable readKey isKey (n + 1) stream =
        findVariable readKey isKey n (stream.advance (recordBytes format entry).length) := by
  obtain ⟨content, moved, keyed, sized, after, hin⟩ :=
    read_header reads stream back lt next
  have passed := Stream.shiftOffset_inside entry.2.length content hin
  have pos : content.advance entry.2.length =
      stream.advance (recordBytes format entry).length := by
    simp [moved, recordBytes, Stream.advance, Nat.add_assoc]
  constructor
  · rw [← pos]
    exact Stream.unread_advance content _ _ after _ rfl
  · rw [findVariable, bind_of_ok keyed, bind_of_ok sized,
      get_bind]
    apply (ite_run_neg (by simp [ne])).trans
    rw [bind_of_ok passed, pos]

theorem findVariable_absent {vars : List (K × List UInt8)} (stream : Stream)
    (lt : ∀ entry ∈ vars, entry.2.length < 2 ^ 32)
    (next : stream.unread = vars.flatMap (recordBytes format))
    (absent : ∀ entry ∈ vars, isKey (value entry.1) = false) :
    findVariable readKey isKey vars.length stream = .ok (-1) stream.reset := by
  induction vars generalizing stream with
  | nil => rfl
  | cons entry vars ih =>
    obtain ⟨fst, others⟩ := forall_mem_cons.mp lt
    obtain ⟨ne, absent⟩ := forall_mem_cons.mp absent
    obtain ⟨after, passed⟩ :=
      findVariable_pass reads isKey stream fst next ne vars.length
    rw [length_cons, passed, ih _ others after absent]
    rfl

theorem findVariable_found {front : List (K × List UInt8)} {back : List (K × List UInt8)}
    (stream : Stream) (lt : ∀ e ∈ front ++ entry :: back, e.2.length < 2 ^ 32)
    (next : stream.unread = (front ++ entry :: back).flatMap (recordBytes format))
    (absent : ∀ e ∈ front, isKey (value e.1) = false) (here : isKey (value entry.1) = true) :
    findVariable readKey isKey (front ++ entry :: back).length stream =
      .ok (stream.offset + ((front.flatMap (recordBytes format)).length +
        ((format.bytes entry.1).length + 4)) : Nat) stream.reset := by
  induction front generalizing stream with
  | nil =>
    -- here it is, and the offset is that of its data
    obtain ⟨content, moved, keyed, sized, -⟩ := read_header reads stream _
      (lt entry (by simp)) next
    rw [nil_append, length_cons, findVariable, bind_of_ok keyed,
      bind_of_ok sized, get_bind]
    apply (ite_run_pos here).trans
    rw [moved]
    simp [Stream.advance]
    rfl
  | cons first front ih =>
    obtain ⟨fits, others⟩ := forall_mem_cons.mp lt
    obtain ⟨ne, absent⟩ := forall_mem_cons.mp absent
    obtain ⟨after, passed⟩ := findVariable_pass reads isKey stream fits next ne
      (front ++ entry :: back).length
    rw [cons_append, length_cons, passed, ih _ others after absent, flatMap_cons,
      length_append]
    simp only [Stream.advance, Stream.reset, Nat.add_assoc]

end Finding

/-! ### Changing the bytes -/

theorem removeRange_middle (front middle back : List UInt8) (offset : Nat) :
    Stream.removeRange front.length (front.length + middle.length)
        ⟨front ++ (middle ++ back), offset⟩ = .ok () ⟨front ++ back, offset⟩ := by
  have hin : ¬ front.length + middle.length > (front ++ (middle ++ back)).length := by
    simp only [length_append]
    omega
  apply (ite_run_neg hin).trans
  apply (ite_run_neg (by omega)).trans
  have kept : (front ++ (middle ++ back)).drop (front.length + middle.length) = back := by
    rw [← drop_drop, drop_left, drop_left]
  change EStateM.Result.ok () _ = _
  simp only [kept, take_left]

theorem insertElements_middle (elements front back : List UInt8) (offset : Nat) :
    Stream.insertElements elements front.length ⟨front ++ back, offset⟩ =
      .ok () ⟨front ++ (elements ++ back), offset⟩ := by
  induction elements generalizing front with
  | nil => rfl
  | cons element elements ih =>
    have hin : ¬ front.length > (front ++ back).length := by
      simp
    have inserted : Stream.insertElementAt element front.length ⟨front ++ back, offset⟩ =
        .ok () ⟨front ++ [element] ++ back, offset⟩ := by
      apply (ite_run_neg hin).trans
      change EStateM.Result.ok () _ = _
      simp only [take_left, drop_left, append_assoc, singleton_append]
    -- the inserted bytes stand in front of the next position
    have rest := ih (front ++ [element])
    rw [length_append, length_singleton] at rest
    rw [Stream.insertElements, bind_of_ok inserted, rest]
    simp

theorem writePrimitiveTo_middle (front old new back : List UInt8) (eq : old.length = new.length)
    (offset : Nat) :
    Stream.writePrimitiveTo front.length new ⟨front ++ (old ++ back), offset⟩ =
      .ok () ⟨front ++ (new ++ back), offset⟩ := by
  have hin : ¬ front.length + new.length > (front ++ (old ++ back)).length := by
    simp only [length_append]
    omega
  have kept : (front ++ (old ++ back)).drop (front.length + new.length) = back := by
    rw [← eq, ← drop_drop, drop_left, drop_left]
  rw [Stream.writePrimitiveTo, Stream.size, if_neg hin]
  simp only [take_left, kept, append_assoc]

theorem replaceData_spec {size : List UInt8} (front old back : List UInt8) (width : size.length = 4)
    (newVariableData : Stream) :
    ∃ offset, replaceData (front.length + 4) old.length newVariableData
        ⟨front ++ (size ++ (old ++ back)), 0⟩ =
      .ok () ⟨front ++ (leBytes 4 newVariableData.size ++ (newVariableData.elementData ++ back)),
        offset⟩ := by
  have start : (front ++ size).length = front.length + 4 := by rw [length_append, width]
  have moved := Stream.shiftOffset_inside (front.length + 4)
    ⟨front ++ (size ++ (old ++ back)), 0⟩ (by
      simp only [Stream.size, length_append]
      omega)
  have removed := removeRange_middle (front ++ size) old back (0 + (front.length + 4))
  have written := writePrimitiveTo_middle front size (leBytes 4 newVariableData.size) back
    (by simp [width]) (0 + (front.length + 4))
  have inserted := insertElements_middle newVariableData.elementData
    (front ++ leBytes 4 newVariableData.size) back (0 + (front.length + 4))
  simp only [start, append_assoc] at removed
  simp only [length_append, length_leBytes, append_assoc] at inserted
  -- both branches of the test for old data go on with the same bytes
  have rest : (do
        Stream.writePrimitiveTo (front.length + 4 - 4) (leBytes 4 newVariableData.size)
        Stream.insertStream newVariableData newVariableData.size (front.length + 4))
      ⟨front ++ (size ++ back), 0 + (front.length + 4)⟩ = .ok () ⟨front ++
        (leBytes 4 newVariableData.size ++ (newVariableData.elementData ++ back)),
        0 + (front.length + 4)⟩ := by
    rw [Nat.add_sub_cancel, bind_of_ok written]
    apply (ite_run_neg (Nat.lt_irrefl _)).trans
    exact (ite_run_neg (by simp [Stream.size])).trans inserted
  refine ⟨0 + (front.length + 4), ?_⟩
  rw [replaceData, bind_of_ok moved]
  by_cases some : old.length > 0
  · apply (ite_run_pos some).trans
    exact (bind_of_ok removed).trans rest
  · apply (ite_run_neg some).trans
    have empty : old = [] := length_eq_zero_iff.mp (by omega)
    rw [empty]
    exact rest

theorem reset_start {object : Stream} (start : object.offset = 0) : object.reset = object := by
  simp [Stream.reset, ← start]

theorem copy_all (object : Stream) : Stream.copy 0 Stream.empty object = .ok object object := by
  rw [Stream.copy, get_bind]
  apply (ite_run_neg (by simp)).trans
  change EStateM.Result.ok _ _ = _
  simp [Stream.writeStream, Stream.empty, Stream.reset]

theorem onNew_ok {m : StreamM Unit} {newData newData' : Stream} (object : Stream)
    (ran : m newData = .ok () newData') : onNew newData m object = .ok newData' object := by
  simp only [onNew, ran]

theorem changeVariableData_bytes {before old back : List UInt8} (lt : old.length < 2 ^ 32)
    {object : Stream} (start : object.offset = 0)
    (bytes : object.elementData = before ++ (leBytes 4 old.length ++ (old ++ back)))
    {getOffset : StreamM Int} (found : getOffset object = .ok (before.length + 4 : Nat) object)
    (newVariableData : Stream) :
    ∃ offset, changeVariableData getOffset newVariableData object =
      .ok (some ⟨before ++ (leBytes 4 newVariableData.size ++
        (newVariableData.elementData ++ back)), offset⟩) object := by
  have moved := Stream.shiftOffset_inside before.length object (by
    rw [start, Stream.size, bytes]
    simp)
  have sized := Stream.readInt_unread (object.advance before.length) old.length (old ++ back) (by
    rw [Stream.unread, Stream.advance, start, Nat.zero_add, bytes, drop_left])
  have size : old.length % 4294967296 = old.length := Nat.mod_eq_of_lt lt
  rw [size] at sized
  obtain ⟨offset, replaced⟩ := replaceData_spec before old back
    (length_leBytes 4 _) newVariableData
  -- the copy is reset before it is changed, so it is the object, whose cursor is at the start
  rw [← bytes, ← start] at replaced
  refine ⟨offset, ?_⟩
  rw [changeVariableData, bind_of_ok found]
  apply (ite_run_neg (by omega)).trans
  rw [bind_of_ok (copy_all object), bind_of_ok (m := modify Stream.reset) rfl,
    reset_start start, Int.toNat_natCast, Nat.add_sub_cancel, bind_of_ok moved,
    bind_of_ok sized, bind_of_ok (onNew_ok _ replaced)]
  exact congrArg (EStateM.Result.ok _) (reset_start start)

/-! ### Editing -/

/-- The stream made by `change` has other bytes in the first pair with the key, and there is none
exactly when no pair has the key. The object stays as it was. -/
def Replaces (format : KeyFormat K) (object : Stream) (vars : List (K × List UInt8))
    (same : K → Prop) (newVariableData : Stream) (change : StreamM (Option Stream)) : Prop :=
  (change object = .ok none object ↔ ∀ entry ∈ vars, ¬ same entry.1) ∧
    ∀ front key old back, vars = front ++ (key, old) :: back →
      (∀ entry ∈ front, ¬ same entry.1) → same key →
      ∃ newData, change object = .ok (some newData) object ∧
        decode format newData.elementData =
          some (front ++ (key, newVariableData.elementData) :: back)

theorem exists_first (same : K → Prop) (vars : List (K × List UInt8))
    (present : ∃ entry ∈ vars, same entry.1) :
    ∃ front key old back, vars = front ++ (key, old) :: back ∧
      (∀ entry ∈ front, ¬ same entry.1) ∧ same key := by
  induction vars with
  | nil => simp at present
  | cons entry vars ih =>
    by_cases here : same entry.1
    · exact ⟨[], entry.1, entry.2, vars, rfl, by simp, here⟩
    · obtain ⟨front, key, old, back, rfl, absent, fst⟩ := ih (by simpa [here] using present)
      exact ⟨entry :: front, key, old, back, rfl, by simpa [here] using absent, fst⟩

section Editing

variable {R : Type} {format : KeyFormat K} {readKey : StreamM R} {value : K → R}
  (reads : Reads format readKey value) (isKey : R → Bool) {object : Stream}
  {vars : List (K × List UInt8)} (start : object.offset = 0)
  (decoded : decode format object.elementData = some vars) (newVariableData : Stream)

include start decoded

theorem read_count :
    (object.advance 2).unread = vars.flatMap (recordBytes format) ∧
      Stream.readShort object = .ok vars.length (object.advance 2) := by
  obtain ⟨few, -, bytes⟩ := (decode_eq_some_iff _ _ _).mp decoded
  have next : object.unread = leBytes 2 vars.length ++ vars.flatMap (recordBytes format) := by
    rw [Stream.unread, start, drop_zero, bytes]
  have fits16 : vars.length % 65536 = vars.length := Nat.mod_eq_of_lt few
  have count_eq := Stream.readShort_unread object vars.length _ next
  rw [fits16] at count_eq
  exact ⟨Stream.unread_advance object _ _ next 2 (length_leBytes 2 _), count_eq⟩

section Keys

include reads

theorem getVariableDataOffset_absent (absent : ∀ entry ∈ vars, isKey (value entry.1) = false) :
    getVariableDataOffset readKey isKey object = .ok (-1) object := by
  obtain ⟨next, counted⟩ := read_count start decoded
  obtain ⟨-, lt, -⟩ := (decode_eq_some_iff _ _ _).mp decoded
  have missing := findVariable_absent reads isKey (object.advance 2) lt next absent
  have eq : (object.advance 2).reset = object := reset_start start
  rw [getVariableDataOffset, bind_of_ok counted, missing, eq]

theorem getVariableDataOffset_found (front back : List (K × List UInt8)) (key : K)
    (old : List UInt8) (split : vars = front ++ (key, old) :: back)
    (absent : ∀ entry ∈ front, isKey (value entry.1) = false) (here : isKey (value key) = true) :
    ∃ before, before = leBytes 2 vars.length ++
        (front.flatMap (recordBytes format) ++ format.bytes key) ∧
      object.elementData =
        before ++ (leBytes 4 old.length ++ (old ++ back.flatMap (recordBytes format))) ∧
      getVariableDataOffset readKey isKey object = .ok (before.length + 4 : Nat) object := by
  obtain ⟨next, counted⟩ := read_count start decoded
  obtain ⟨-, fits, bytes⟩ := (decode_eq_some_iff _ _ _).mp decoded
  subst split
  have found := findVariable_found reads isKey (object.advance 2) fits next
    absent here
  have eq : (object.advance 2).reset = object := reset_start start
  refine ⟨_, rfl, ?_, ?_⟩
  · rw [bytes]
    simp [recordBytes]
  · rw [getVariableDataOffset, bind_of_ok counted, found, eq]
    simp only [Stream.advance, start, length_append, length_leBytes, Nat.zero_add,
      Nat.add_assoc]

theorem changeVariableData_absent (absent : ∀ entry ∈ vars, isKey (value entry.1) = false) :
    changeVariableData (getVariableDataOffset readKey isKey) newVariableData object =
      .ok none object := by
  have offset := getVariableDataOffset_absent reads isKey start decoded absent
  rw [changeVariableData, bind_of_ok offset]
  exact ite_run_pos rfl

theorem changeVariableData_found (lt : newVariableData.size < 2 ^ 32)
    (front back : List (K × List UInt8)) (key : K) (old : List UInt8)
    (split : vars = front ++ (key, old) :: back)
    (absent : ∀ entry ∈ front, isKey (value entry.1) = false) (here : isKey (value key) = true) :
    ∃ newData, changeVariableData (getVariableDataOffset readKey isKey) newVariableData object =
        .ok (some newData) object ∧
      decode format newData.elementData =
        some (front ++ (key, newVariableData.elementData) :: back) := by
  obtain ⟨few, fits, -⟩ := (decode_eq_some_iff _ _ _).mp decoded
  obtain ⟨before, layout, whole, offset⟩ := getVariableDataOffset_found reads isKey start decoded
    front back key old split absent here
  subst split
  obtain ⟨cursor, changed⟩ := changeVariableData_bytes
    (fits (key, old) (by simp)) start whole offset newVariableData
  refine ⟨_, changed, ?_⟩
  rw [decode_eq_some_iff]
  refine ⟨by simpa using few, ?_, ?_⟩
  · intro entry mem
    rcases mem_append.mp mem with front' | back'
    · exact fits entry (by simp [front'])
    · rcases mem_cons.mp back' with rfl | back'
      · exact lt
      · exact fits entry (by simp [back'])
  · rw [layout]
    simp [recordBytes, Stream.size]

theorem changeVariableData_replaces (lt : newVariableData.size < 2 ^ 32)
    (same : K → Prop) (test : ∀ key, isKey (value key) = true ↔ same key) :
    Replaces format object vars same newVariableData
      (changeVariableData (getVariableDataOffset readKey isKey) newVariableData) := by
  have ne : ∀ key, ¬ same key → isKey (value key) = false := fun key differs =>
    Bool.eq_false_iff.mpr fun eq => differs ((test key).mp eq)
  have found : ∀ front key old back, vars = front ++ (key, old) :: back →
      (∀ entry ∈ front, ¬ same entry.1) → same key → ∃ newData,
        changeVariableData (getVariableDataOffset readKey isKey) newVariableData object =
            .ok (some newData) object ∧
          decode format newData.elementData =
            some (front ++ (key, newVariableData.elementData) :: back) := by
    intro front key old back split absent here
    exact changeVariableData_found reads isKey start decoded newVariableData lt front back key
      old split (fun entry mem => ne _ (absent entry mem)) ((test key).mpr here)
  refine ⟨⟨?_, ?_⟩, found⟩
  · -- a pair with the key is there, so there is a first one, and its data are changed
    intro null entry mem here
    obtain ⟨front, key, old, back, split, absent, fst⟩ :=
      exists_first same vars ⟨entry, mem, here⟩
    obtain ⟨newData, changed, -⟩ := found front key old back split absent fst
    rw [null] at changed
    cases changed
  · intro absent
    exact changeVariableData_absent reads isKey start decoded newVariableData
      fun entry mem => ne _ (absent entry mem)

end Keys

end Editing

variable (content : List UInt8)

theorem writeStream_end (buf : List UInt8) : Stream.writeStream buf ⟨content, content.length⟩ =
      ⟨content ++ buf, (content ++ buf).length⟩ := by
  rw [Stream.writeStream_at_end buf _ rfl, length_append, Stream.size]

theorem appendRecord_short (offset : Nat) (name : StoredName) (newVariableData : Stream) :
    ∃ newData, newData.elementData =
        content ++ recordBytes names (name, newVariableData.elementData) ∧
      appendRecord name.1 newVariableData ⟨content, offset⟩ = .ok () newData := by
  have short : name.1.length ≤ 65535 := Nat.le_of_lt_succ name.2
  have atEnd := Stream.setOffset_inside content.length ⟨content, offset⟩ (Nat.le_refl _)
  have named : CStrings.toBinaryStream name.1 ⟨content, content.length⟩ =
      .ok () (Stream.writeStream name.1
        (Stream.writeStream (leBytes 2 name.1.length) ⟨content, content.length⟩)) := if_pos short
  rw [writeStream_end, writeStream_end] at named
  generalize layout : content ++ leBytes 2 name.1.length ++ name.1 = key at named
  refine ⟨Stream.writeStream newVariableData.elementData (Stream.writeStream
    (leBytes 4 newVariableData.size) ⟨key, key.length⟩), ?_, ?_⟩
  · rw [writeStream_end, writeStream_end, ← layout]
    simp [recordBytes, names, Stream.size]
  · rw [appendRecord, get_bind, Stream.size, bind_of_ok atEnd,
      bind_of_ok named]
    rfl

theorem appendRecord_long (stream : Stream) (name : List UInt8) (long : 65535 < name.length)
    (newVariableData : Stream) :
    ∃ stream', appendRecord name newVariableData stream =
      .error (.abort "String length exceeded 65k in toBinaryStream") stream' := by
  have atEnd := Stream.setOffset_inside stream.size stream (Nat.le_refl _)
  refine ⟨{ stream with offset := stream.size }, ?_⟩
  rw [appendRecord, get_bind, bind_of_ok atEnd]
  exact bind_of_error (if_neg (by omega))

section Adding

variable {object : Stream} {vars : List (StoredName × List UInt8)} (start : object.offset = 0)
  (decoded : decode names object.elementData = some vars) (newVariableData : Stream)

include start decoded

theorem addVariable_counted (name : List UInt8) :
    addVariable name newVariableData object =
      onNew ⟨leBytes 2 (vars.length + 1) ++ vars.flatMap (recordBytes names), object.offset + 2⟩
        (appendRecord name newVariableData) (object.advance 2) := by
  obtain ⟨-, counted⟩ := read_count start decoded
  obtain ⟨-, -, bytes⟩ := (decode_eq_some_iff _ _ _).mp decoded
  have written := writePrimitiveTo_middle [] (leBytes 2 vars.length)
    (leBytes 2 (vars.length + 1)) (vars.flatMap (recordBytes names)) (by simp) (object.offset + 2)
  rw [nil_append, ← bytes, nil_append, length_nil] at written
  rw [addVariable, bind_of_ok (m := modify Stream.reset) rfl, reset_start start,
    bind_of_ok counted, bind_of_ok (copy_all _)]
  simp only [onNew, Stream.advance, bind_of_ok written]

theorem addVariable_appends (room : vars.length < 65535) (name : StoredName)
    (lt : newVariableData.size < 2 ^ 32) :
    ∃ newData, addVariable name.1 newVariableData object = .ok newData (object.advance 2) ∧
      decode names newData.elementData =
        some (vars ++ [(name, newVariableData.elementData)]) := by
  obtain ⟨-, fits, -⟩ := (decode_eq_some_iff _ _ _).mp decoded
  obtain ⟨newData, content, appended⟩ := appendRecord_short
    (leBytes 2 (vars.length + 1) ++ vars.flatMap (recordBytes names)) (object.offset + 2) name
    newVariableData
  refine ⟨newData, ?_, ?_⟩
  · rw [addVariable_counted start decoded, onNew_ok _ appended]
  · rw [decode_eq_some_iff, content]
    refine ⟨?_, ?_, ?_⟩
    · rw [length_append, length_singleton]
      omega
    · intro entry mem
      rcases mem_append.mp mem with old | new
      · exact fits entry old
      · rw [mem_singleton.mp new]
        exact lt
    · simp

theorem addVariable_long {name : List UInt8} (long : 65535 < name.length) :
    addVariable name newVariableData object =
      .error (.abort "String length exceeded 65k in toBinaryStream") (object.advance 2) := by
  obtain ⟨stream', asserted⟩ := appendRecord_long
    ⟨leBytes 2 (vars.length + 1) ++ vars.flatMap (recordBytes names), object.offset + 2⟩ name long
    newVariableData
  rw [addVariable_counted start decoded, onNew, asserted]

end Adding

theorem sameName_iff (name variableName : List UInt8) :
    sameName name variableName = true ↔ CString.ofChars name = CString.ofChars variableName := by
  rw [sameName, beq_iff_eq, compareTo_orderedBy.zero, rank_inj, eq_comm]

/-- Exact for names up to their first zero, whatever the lengths. -/
theorem stored_objects_edited (object : Stream) (start : object.offset = 0) :
    (∀ vars, decode names object.elementData = some vars → vars.length < 65535 →
      ∀ newVariableData : Stream, newVariableData.size < 2 ^ 31 →
        (∀ name : StoredName, ∃ newData,
          addVariable name.1 newVariableData object = .ok newData (object.advance 2) ∧
            decode names newData.elementData =
              some (vars ++ [(name, newVariableData.elementData)])) ∧
        ∀ variableName, Replaces names object vars
          (fun key => CString.ofChars key.1 = CString.ofChars variableName) newVariableData
          (changeVariableDataOfName variableName newVariableData)) ∧
    (∀ vars, decode hashes object.elementData = some vars → vars.length < 65535 →
      ∀ newVariableData : Stream, newVariableData.size < 2 ^ 31 →
        ∀ variableHashCode, Replaces hashes object vars (· = variableHashCode) newVariableData
          (changeVariableDataOfHash variableHashCode newVariableData)) := by
  constructor
  · intro vars decoded room newVariableData int
    have lt : newVariableData.size < 2 ^ 32 := by omega
    constructor
    · intro name
      exact addVariable_appends start decoded newVariableData room name lt
    · intro variableName
      exact changeVariableData_replaces reads_names (sameName · variableName) start decoded
        newVariableData lt _ fun key => sameName_iff key.1 variableName
  · intro vars decoded _ newVariableData int variableHashCode
    have lt : newVariableData.size < 2 ^ 32 := by omega
    exact changeVariableData_replaces reads_hashes (· == variableHashCode.toNat) start decoded
      newVariableData lt _ fun key => beq_iff_eq.trans UInt32.toNat_inj

theorem stored_objects_edited_three :
    let object : Stream :=
      ⟨[3, 0, 1, 0, 97, 1, 0, 0, 0, 5, 1, 0, 98, 2, 0, 0, 0, 6, 6, 1, 0, 99, 1, 0, 0, 0, 4], 0⟩
    let data : Stream := ⟨[7, 8, 9], 3⟩
    let a : StoredName := ⟨[97], by decide⟩
    let b : StoredName := ⟨[98], by decide⟩
    let c : StoredName := ⟨[99], by decide⟩
    decode names object.elementData = some [(a, [5]), (b, [6, 6]), (c, [4])] ∧
      (∃ newData, addVariable [100] data object = .ok newData (object.advance 2) ∧
        decode names newData.elementData =
          some [(a, [5]), (b, [6, 6]), (c, [4]), (⟨[100], by decide⟩, [7, 8, 9])]) ∧
      ∃ newData, changeVariableDataOfName [98] data object = .ok (some newData) object ∧
        decode names newData.elementData = some [(a, [5]), (b, [7, 8, 9]), (c, [4])] := by
  intro object data a b c
  have decoded : decode names object.elementData = some [(a, [5]), (b, [6, 6]), (c, [4])] := by
    decide
  obtain ⟨added, changed⟩ := (stored_objects_edited object rfl).1 _ decoded (by decide) data
    (by decide)
  exact ⟨decoded, added ⟨[100], by decide⟩,
    (changed [98]).2 [(a, [5])] b [6, 6] [(c, [4])] rfl (by simp [a]; decide) rfl⟩

theorem stored_objects_other_names :
    let object : Stream := ⟨[1, 0, 1, 0, 97, 1, 0, 0, 0, 5], 0⟩
    let data : Stream := ⟨[7], 1⟩
    decode names object.elementData = some [(⟨[97], by decide⟩, [5])] ∧
      (∃ newData, changeVariableDataOfName [97, 0, 98] data object = .ok (some newData) object ∧
        decode names newData.elementData = some [(⟨[97], by decide⟩, [7])]) ∧
      addVariable (replicate 65536 97) data object =
        .error (.abort "String length exceeded 65k in toBinaryStream") (object.advance 2) := by
  intro object data
  have decoded : decode names object.elementData = some [(⟨[97], by decide⟩, [5])] := by decide
  have changed := changeVariableData_found reads_names (sameName · [97, 0, 98]) rfl decoded data
    (by decide) [] [] _ [5] rfl (by simp) (by decide)
  have long : 65535 < (replicate 65536 (97 : UInt8)).length := by
    rw [length_replicate]
    omega
  exact ⟨decoded, changed, addVariable_long rfl decoded data long⟩


end Serializable

end Engine3
