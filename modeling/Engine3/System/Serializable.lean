import Mathlib.Data.List.Lex
import Mathlib.Data.List.TakeWhile
import Engine3.Library.Exec
import Engine3.System.SortedVector
import Engine3.System.Stream

/-!
# Serializable objects

`system/io/Serializable`: an object registers its variables under names, writes them as
records of name, size and data, and reads such records back by name. The variables'
own serializers are parameters.
-/
namespace Engine3

open Bytes Exec List SortedVector

structure CString where
  chars : List UInt8
  terminated : (0 : UInt8) ∉ chars
  deriving DecidableEq

def CString.ofChars (chars : List UInt8) : CString where
  chars := chars.takeWhile (· ≠ 0)
  terminated := by
    intro member
    have nonzero := mem_takeWhile_imp member
    simp at nonzero

def strcmp : List UInt8 → List UInt8 → Int
  | [], [] => 0
  | [], b :: _ => -b.toNat
  | a :: _, [] => a.toNat
  | a :: as, b :: bs => if a = b then strcmp as bs else (a.toNat : Int) - b.toNat

def VariableName.compareTo (this str : CString) : Int := strcmp this.chars str.chars

namespace CStrings

def toBinaryStream (chars : List UInt8) : StreamM Unit := fun s =>
  if chars.length ≤ 65535 then .ok () ((s.writeShort chars.length).writeStream chars)
  else .error (.abort "String length exceeded 65k in toBinaryStream") s

def parseFromBinaryStream : StreamM (List UInt8) := do
  let len ← Stream.readShort
  let stream ← get
  Stream.shiftOffset len
  pure ((stream.elementData.drop stream.offset).take len)

end CStrings

/-! ### Objects -/

structure Member (α : Type) where
  toBinaryStream : α → List UInt8
  parseFromBinaryStream : List UInt8 → EStateM Exception (α × Nat) Unit
  value : α

namespace Serializable

variable {α : Type}

abbrev Variables (α : Type) := List (CString × Member α)

def compare (e1 e2 : CString × Member α) : Int := VariableName.compareTo e1.1 e2.1

def addSerializableVariable (vars : Variables α) (entry : CString × Member α) : Variables α :=
  (put compare .noDuplicate entry vars).1

def registered (entries : List (CString × Member α)) : Variables α :=
  entries.foldl addSerializableVariable []

def writeVariable (entry : CString × Member α) : StreamM Unit := do
  CStrings.toBinaryStream entry.1.chars
  let offset := (← get).offset
  modify (Stream.writeInt 0)
  modify (Stream.writeStream (entry.2.toBinaryStream entry.2.value))
  let totalSize := ((← get).offset - (offset + 4)) % 4294967296
  Stream.writePrimitiveTo offset (leBytes 4 totalSize)

def writeVariables : Variables α → StreamM Unit
  | [] => pure ()
  | entry :: rest => do
    writeVariable entry
    writeVariables rest

def writeObject (vars : Variables α) : StreamM Unit := do
  modify (Stream.writeShort (vars.length % 65536))
  writeVariables vars

structure Reading (α : Type) where
  vars : Variables α
  stream : Stream

abbrev ReadM (α : Type) := EStateM Exception (Reading α)

def onStream {β : Type} (m : StreamM β) : ReadM α β := fun r =>
  match m r.stream with
  | .ok b stream => .ok b { r with stream := stream }
  | .error e stream => .error e { r with stream := stream }

def parseVariable (pos : Nat) : ReadM α Unit := fun r =>
  match r.vars[pos]? with
  | none => .ok () r
  | some (name, member) =>
    let parsed := finalState
      (member.parseFromBinaryStream r.stream.elementData (member.value, r.stream.offset))
    .ok ()
      { vars := r.vars.set pos (name, { member with value := parsed.1 })
        stream := { r.stream with offset := parsed.2 } }

def readVariable : ReadM α Unit := do
  let name ← onStream CStrings.parseFromBinaryStream
  let varSize ← onStream Stream.readInt
  let r ← get
  match findKey VariableName.compareTo (CString.ofChars name) r.vars with
  | none => onStream (Stream.shiftOffset varSize)
  | some pos => do
    parseVariable pos
    onStream (Stream.setOffset (r.stream.offset + varSize))

def readVariables : Nat → ReadM α Unit
  | 0 => pure ()
  | count + 1 => do
    readVariable
    readVariables count

def readObject : ReadM α Unit := do
  let dataSize ← onStream Stream.readShort
  readVariables dataSize

/-! ### The order of the names -/

def rank (name : CString) : (List Nat)ᵒᵈ := OrderDual.toDual (name.chars.map UInt8.toNat)

private theorem nul_lt (b : UInt8) (bs : List UInt8) (terminated : (0 : UInt8) ∉ b :: bs) :
    0 < b.toNat := by
  refine Nat.pos_of_ne_zero fun zero => terminated ?_
  have nul : b = 0 := UInt8.toNat_inj.mp zero
  rw [nul]
  exact mem_cons_self

private theorem strcmp_spec (as bs : List UInt8) (left : (0 : UInt8) ∉ as)
    (right : (0 : UInt8) ∉ bs) :
    (0 < strcmp as bs ↔ bs.map UInt8.toNat < as.map UInt8.toNat) ∧
    (strcmp as bs = 0 ↔ as = bs) := by
  induction as generalizing bs with
  | nil =>
    cases bs with
    | nil => simp [strcmp]
    -- the terminating zero compares below every character
    | cons b bs =>
      have pos := nul_lt b bs right
      simp only [strcmp, map_nil, not_lt_nil, iff_false, reduceCtorEq]
      omega
  | cons a as ih =>
    cases bs with
    | nil =>
      have pos := nul_lt a as left
      simp only [strcmp, map_nil, map_cons, nil_lt_cons, iff_true, reduceCtorEq,
        iff_false]
      omega
    | cons b bs =>
      simp only [strcmp, map_cons, cons_lt_cons_iff, cons.injEq]
      by_cases eq : a = b
      · rw [if_pos eq, eq]
        have rest := ih bs (fun mem => left (mem_cons_of_mem a mem))
          fun mem => right (mem_cons_of_mem b mem)
        simpa using rest
      · have apart : a.toNat ≠ b.toNat := fun equal => eq (UInt8.toNat_inj.mp equal)
        rw [if_neg eq]
        simp only [eq, false_and, iff_false]
        omega

theorem rank_inj {a b : CString} : rank a = rank b ↔ a = b := by
  rw [rank, rank, OrderDual.toDual_inj,
    (map_injective_iff.mpr fun x y => UInt8.toNat_inj.mp).eq_iff]
  cases a
  cases b
  simp

theorem compareTo_orderedBy : OrderedBy VariableName.compareTo rank where
  pos := fun a b => (strcmp_spec a.chars b.chars a.terminated b.terminated).1
  zero := by
    intro a b
    rw [rank_inj, VariableName.compareTo, (strcmp_spec _ _ a.terminated b.terminated).2]
    cases a
    cases b
    simp

theorem compare_orderedBy :
    OrderedBy compare fun entry : CString × Member α => rank entry.1 :=
  ⟨fun a b => compareTo_orderedBy.pos a.1 b.1, fun a b => compareTo_orderedBy.zero a.1 b.1⟩

/-- Entries under distinct names. -/
def Distinct (entries : List (CString × Member α)) : Prop :=
  entries.Pairwise fun a b => a.1 ≠ b.1

def Sorted (vars : Variables α) : Prop :=
  StrictlySorted (fun entry => rank entry.1) vars

variable {vars : Variables α} {entries : List (CString × Member α)}

theorem Sorted.distinct (sorted : Sorted vars) : Distinct vars :=
  Pairwise.imp (fun less eq => ne_of_lt less (congrArg rank eq)) sorted

private theorem foldl_registered (entries : List (CString × Member α)) (vars : Variables α)
    (sorted : Sorted vars) (nodup : Distinct entries)
    (new : ∀ e ∈ entries, ∀ v ∈ vars, v.1 ≠ e.1) :
    Sorted (entries.foldl addSerializableVariable vars) ∧
      (entries.foldl addSerializableVariable vars).Perm (entries ++ vars) := by
  induction entries generalizing vars with
  | nil => exact ⟨sorted, Perm.refl _⟩
  | cons entry rest ih =>
    have absent : ∀ v ∈ vars, rank v.1 ≠ rank entry.1 := fun v mem eq =>
      new entry mem_cons_self v mem (rank_inj.mp eq)
    obtain ⟨apart, distinctRest⟩ := pairwise_cons.mp nodup
    have added := put_noDuplicate_perm compare_orderedBy absent
    obtain ⟨inOrder, members⟩ := put_noDuplicate_absent compare_orderedBy entry
      sorted absent
    obtain ⟨final, perm⟩ := ih (addSerializableVariable vars entry) inOrder distinctRest (by
      intro e later v mem
      rcases (members v).mp mem with rfl | old
      · exact apart e later
      · exact new e (mem_cons_of_mem entry later) v old)
    exact ⟨final, perm.trans ((added.append_left rest).trans perm_middle)⟩

theorem registered_sorted (nodup : Distinct entries) :
    Sorted (registered entries) :=
  (foldl_registered entries [] Pairwise.nil nodup (by simp)).1

theorem registered_perm (nodup : Distinct entries) :
    (registered entries).Perm entries := by
  rw [registered]
  simpa using (foldl_registered entries [] Pairwise.nil nodup (by simp)).2

/-! ### Writing -/

def record (entry : CString × Member α) : List UInt8 :=
  let data := entry.2.toBinaryStream entry.2.value
  leBytes 2 entry.1.chars.length ++ (entry.1.chars ++ (leBytes 4 data.length ++ data))

/-- A name and data whose lengths fit their fields. -/
structure Fits (entry : CString × Member α) : Prop where
  name : entry.1.chars.length ≤ 65535
  data : (entry.2.toBinaryStream entry.2.value).length < 2147483648

private theorem writePrimitiveTo_gap (front gap back value : List UInt8)
    (eq : gap.length = value.length) :
    Stream.writePrimitiveTo front.length value
        ⟨front ++ gap ++ back, (front ++ gap ++ back).length⟩ =
      .ok () ⟨front ++ value ++ back, (front ++ value ++ back).length⟩ := by
  have room : ¬ front.length + value.length >
      (Stream.mk (front ++ gap ++ back) (front ++ gap ++ back).length).size := by
    simp only [Stream.size, length_append]
    omega
  rw [Stream.writePrimitiveTo, if_neg room]
  have kept : (front ++ gap ++ back).take front.length = front := by
    rw [append_assoc, take_left]
  have behind : (front ++ gap ++ back).drop (front.length + value.length) = back := by
    rw [← eq, ← length_append, drop_left]
  simp only [kept, behind, length_append, eq]

theorem writeVariable_record {entry : CString × Member α} (fits : Fits entry)
    (bytes : List UInt8) :
    writeVariable entry ⟨bytes, bytes.length⟩ =
      .ok () ⟨bytes ++ record entry, (bytes ++ record entry).length⟩ := by
  obtain ⟨name, data⟩ := fits
  have append : ∀ front back : List UInt8, (Stream.mk front front.length).writeStream back =
      ⟨front ++ back, (front ++ back).length⟩ := by
    intro front back
    rw [Stream.writeStream_at_end _ _ rfl, length_append]
    rfl
  have named : CStrings.toBinaryStream entry.1.chars ⟨bytes, bytes.length⟩ =
      .ok () ⟨bytes ++ leBytes 2 entry.1.chars.length ++ entry.1.chars,
        (bytes ++ leBytes 2 entry.1.chars.length ++ entry.1.chars).length⟩ := by
    rw [CStrings.toBinaryStream, if_pos name, Stream.writeShort, append, append]
  refine (bind_of_ok named).trans ?_
  generalize front : bytes ++ leBytes 2 entry.1.chars.length ++ entry.1.chars = header
  generalize content : entry.2.toBinaryStream entry.2.value = written at data
  have filled : ((Stream.mk header header.length).writeInt 0).writeStream written =
      ⟨header ++ leBytes 4 0 ++ written, (header ++ leBytes 4 0 ++ written).length⟩ := by
    rw [Stream.writeInt, append, append]
  -- the size is known only after the value was written, and then goes to the gap before it
  have totalSize : ((header ++ leBytes 4 0 ++ written).length - (header.length + 4)) %
      4294967296 = written.length := by
    simp only [length_append, length_leBytes]
    omega
  have layout : bytes ++ record entry = header ++ leBytes 4 written.length ++ written := by
    simp only [record, content, ← front, append_assoc]
  have appended : (modify (Stream.writeStream written) : StreamM Unit)
      ((Stream.mk header header.length).writeInt 0) =
      .ok () ⟨header ++ leBytes 4 0 ++ written, (header ++ leBytes 4 0 ++ written).length⟩ := by
    rw [← filled]
    rfl
  refine get_bind.trans ?_
  refine (bind_of_ok (m := modify (Stream.writeInt 0)) rfl).trans ?_
  refine (bind_of_ok appended).trans ?_
  refine get_bind.trans ?_
  simp only [totalSize, layout]
  exact writePrimitiveTo_gap header (leBytes 4 0) written (leBytes 4 written.length) (by simp)

theorem writeVariables_records (fit : ∀ e ∈ vars, Fits e) (bytes : List UInt8) :
    writeVariables vars ⟨bytes, bytes.length⟩ =
      .ok () ⟨bytes ++ vars.flatMap record, (bytes ++ vars.flatMap record).length⟩ := by
  induction vars generalizing bytes with
  | nil =>
    rw [flatMap_nil, append_nil]
    rfl
  | cons entry rest ih =>
    have fst := writeVariable_record (fit entry mem_cons_self) bytes
    refine (bind_of_ok fst).trans ?_
    rw [ih (fun e mem => fit e (mem_cons_of_mem entry mem)), flatMap_cons,
      append_assoc]

theorem writeObject_bytes (vars : Variables α) (fit : ∀ e ∈ vars, Fits e) :
    ∃ data, writeObject vars Stream.empty = .ok () data ∧ data.offset = data.size ∧
      data.elementData = leBytes 2 (vars.length % 65536) ++ vars.flatMap record :=
  ⟨_, writeVariables_records fit (leBytes 2 (vars.length % 65536)), rfl, rfl⟩

end Serializable

end Engine3
