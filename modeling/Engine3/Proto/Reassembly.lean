import Engine3.Library.Machine
import Engine3.Proto.BaseClient

/-!
# Reassembly of hostile fragments

The first fragment of a message announces in four bytes how long the message is. The bodies of
the fragments are put one behind the other until they are that long. The peer chooses both the
bodies and the announcement.
-/
namespace Engine3.Reassembly

open Bytes MachineInt BaseFragmentedPacket List BaseClient

inductive Outcome
  | incomplete
  | message (bytes : List UInt8)
  | rejected
  | failed
  deriving DecidableEq, Repr

def announced (bytes : List UInt8) : Int := i32 (beNat (bytes.take 4))

def reassemble (bodies : List (List UInt8)) (body : List UInt8) :
    Outcome × List (List UInt8) :=
  let bytes := (bodies ++ [body]).flatten
  let collected := bytes.drop 4
  if bytes.length < 4 then (.failed, [])
  else if announced bytes ≤ 0 ∨ 1500000 < announced bytes then (.rejected, [])
  else if announced bytes ≤ collected.length then
    (.message (collected.take (announced bytes).toNat), [])
  else (.incomplete, bodies ++ [body])

/-! ### What the client does -/

structure Fragment where
  pack : Stream
  cursor : pack.offset ≤ pack.size

def Fragment.body (fragment : Fragment) : List UInt8 := fragment.pack.unread

def outcome : Except Exception (Option BasePacket) → Outcome
  | .ok none => .incomplete
  | .ok (some pack) => .message pack.unread
  | .error (.fragmentedPacketParse _) => .rejected
  | .error _ => .failed

def receive (c : BaseClient) (fragment : Fragment) : Outcome × BaseClient :=
  match receiveFragmentedPacket fragment.pack c with
  | .ok result c => (outcome (.ok result), c)
  | .error e c => (outcome (.error e), c)

theorem outcome_message (bytes : List UInt8) :
    outcome (.ok (some { BasePacket.new with toStream := ⟨bytes, 0⟩ })) = .message bytes :=
  congrArg Outcome.message drop_zero

def collecting (total : Int) (data : List UInt8) : BaseFragmentedPacket :=
  { new none with toStream := ⟨data, data.length⟩, totalSize := total }

theorem length_unread (pack : Stream) : pack.unread.length = pack.size - pack.offset := by
  simp [Stream.unread, Stream.size]

variable {pack : Stream} {total : Int} {data : List UInt8} {c : BaseClient}
  {bodies : List (List UInt8)} {frag : BaseFragmentedPacket}

theorem parseNetInt_short (short : pack.size < pack.offset + 4) :
    Stream.parseNetInt pack =
      .error (.streamIndexOutOfBounds (pack.offset + 4 : Nat)) (pack.advance 4) := by
  change EStateM.map beNat (Stream.readPrimitive 4) pack = _
  have moved : Stream.shiftOffset 4 pack =
      .error (.streamIndexOutOfBounds (pack.offset + 4 : Nat)) (pack.advance 4) := if_pos short
  simp only [EStateM.map, Stream.readPrimitive, moved]

theorem parseNetInt_inside (long : pack.offset + 4 ≤ pack.size) :
    Stream.parseNetInt pack = .ok (beNat (pack.unread.take 4)) (pack.advance 4) := by
  change EStateM.map beNat (Stream.readPrimitive 4) pack = _
  simp only [EStateM.map, Stream.readPrimitive, Stream.shiftOffset_inside 4 pack long]
  rfl

theorem addFragment_short (pack : Stream) (short : pack.size < pack.offset + 4) :
    (new none).addFragment pack =
      .error (.streamIndexOutOfBounds (pack.offset + 4 : Nat)) := by
  rw [addFragment, if_pos (show (new none).totalSize = 0 from rfl),
    parseNetInt_short short]

theorem addFragment_first (long : pack.offset + 4 ≤ pack.size) :
    (new none).addFragment pack =
      if announced pack.unread ≤ 0 ∨ 1500000 < announced pack.unread then
        .ok (false, collecting (announced pack.unread) [])
      else .ok ((collecting (announced pack.unread) []).appendFragment (pack.advance 4)) := by
  rw [addFragment, if_pos (show (new none).totalSize = 0 from rfl),
    parseNetInt_inside long]
  change (if announced pack.unread < 0 ∨ announced pack.unread > maxCompleteFragSize then
      Except.ok (false, collecting (announced pack.unread) [])
    else if announced pack.unread = 0 then .ok (false, collecting (announced pack.unread) [])
    else .ok ((collecting (announced pack.unread) []).appendFragment (pack.advance 4))) = _
  rw [maxCompleteFragSize]
  split_ifs <;> first | rfl | omega

theorem addFragment_next (total : Int) (data : List UInt8) (pack : Stream) (some : total ≠ 0) :
    (collecting total data).addFragment pack = .ok ((collecting total data).appendFragment pack) :=
  if_neg some

theorem appendFragment_collecting (cursor : pack.offset ≤ pack.size)
    (room : (data.length : Int) ≤ total) :
    (collecting total data).appendFragment pack =
      (true, collecting total ((data ++ pack.unread).take total.toNat)) := by
  have width := length_unread pack
  have size : (collecting total data).size = data.length := rfl
  have announcedSize : (collecting total data).totalSize = total := rfl
  have taken : ∀ count : Int, count = min ((pack.size : Int) - pack.offset) (total - data.length) →
      (pack.elementData.drop pack.offset).take count.toNat =
        pack.unread.take (total.toNat - data.length) := by
    intro count least
    rw [Stream.unread, take_eq_take_iff, length_drop]
    simp only [Stream.size] at least cursor ⊢
    omega
  have whole : (data ++ pack.unread).take total.toNat =
      data ++ pack.unread.take (total.toNat - data.length) := by
    rw [take_append, take_of_length_le (by omega)]
  simp only [appendFragment, size, announcedSize]
  rw [if_neg (by split <;> omega), taken _ (by split <;> omega),
    Stream.writeStream_at_end _ _ rfl, whole]
  simp only [collecting, new, Stream.size, length_append]

theorem isComplete_collecting (total : Int) (bytes : List UInt8) (pos : 0 < total) :
    (collecting total (bytes.take total.toNat)).isComplete =
      .ok (decide (total ≤ bytes.length)) := by
  have size : (collecting total (bytes.take total.toNat)).size = min total.toNat bytes.length :=
    length_take
  have announcedSize : (collecting total (bytes.take total.toNat)).totalSize = total := rfl
  simp only [isComplete, size, announcedSize]
  by_cases reached : total ≤ bytes.length
  · rw [if_neg (by omega), if_pos (by omega), decide_eq_true reached]
  · rw [if_pos (by omega), decide_eq_false reached]

theorem receiveFragmentedPacket_added (total : Int) (data : List UInt8) (pack body : Stream)
    (cursor : body.offset ≤ body.size) (room : (data.length : Int) < total) (c : BaseClient)
    (added : (c.fragmentedPacket.getD (new none)).addFragment pack =
      .ok ((collecting total data).appendFragment body)) :
    receiveFragmentedPacket pack c =
      if total ≤ (data ++ body.unread).length then
        .ok (some { BasePacket.new with
            toStream := ⟨(data ++ body.unread).take total.toNat, 0⟩ })
          { c with fragmentedPacket := none }
      else
        .ok none { c with fragmentedPacket := some (collecting total (data ++ body.unread)) } := by
  have complete := isComplete_collecting total (data ++ body.unread) (by omega)
  rw [appendFragment_collecting cursor room.le] at added
  simp only [receiveFragmentedPacket, added, complete]
  by_cases reached : total ≤ (data ++ body.unread).length
  · rw [decide_eq_true reached, if_pos reached]
    rfl
  · rw [decide_eq_false reached, if_neg reached, take_of_length_le (by omega)]

theorem receiveFragmentedPacket_next (cursor : pack.offset ≤ pack.size)
    (room : (data.length : Int) < total)
    (pending : c.fragmentedPacket = some (collecting total data)) :
    receiveFragmentedPacket pack c =
      if total ≤ (data ++ pack.unread).length then
        .ok (some { BasePacket.new with
            toStream := ⟨(data ++ pack.unread).take total.toNat, 0⟩ })
          { c with fragmentedPacket := none }
      else
        .ok none { c with fragmentedPacket := some (collecting total (data ++ pack.unread)) } := by
  apply receiveFragmentedPacket_added total data pack pack cursor room c
  rw [pending]
  exact addFragment_next total data pack (by omega)

theorem receiveFragmentedPacket_first (long : pack.offset + 4 ≤ pack.size)
    (low : 0 < announced pack.unread) (high : announced pack.unread ≤ 1500000) (c : BaseClient)
    (opens : c.fragmentedPacket.getD (new none) =
      new none) :
    receiveFragmentedPacket pack c =
      if announced pack.unread ≤ (pack.unread.drop 4).length then
        .ok (some { BasePacket.new with
            toStream := ⟨(pack.unread.drop 4).take (announced pack.unread).toNat, 0⟩ })
          { c with fragmentedPacket := none }
      else
        .ok none { c with
          fragmentedPacket := some (collecting (announced pack.unread) (pack.unread.drop 4)) } := by
  have rest : (pack.advance 4).unread = pack.unread.drop 4 := by
    rw [Stream.unread, Stream.unread, drop_drop]
    rfl
  have added := receiveFragmentedPacket_added (announced pack.unread) [] pack (pack.advance 4) long
    low c
  rw [rest] at added
  apply added
  rw [opens, addFragment_first long, if_neg (by omega)]

theorem receiveFragmentedPacket_rejects (long : pack.offset + 4 ≤ pack.size)
    (bad : announced pack.unread ≤ 0 ∨ 1500000 < announced pack.unread)
    (opens : c.fragmentedPacket.getD (new none) =
      new none) :
    receiveFragmentedPacket pack c =
      .error (.fragmentedPacketParse "could not insert frag")
        { c with fragmentedPacket := none } := by
  have refused := addFragment_first long
  rw [if_pos bad] at refused
  simp only [receiveFragmentedPacket, opens, refused]

theorem receiveFragmentedPacket_short (pack : Stream) (short : pack.size < pack.offset + 4)
    (opens : c.fragmentedPacket.getD (new none) =
      new none) :
    receiveFragmentedPacket pack c =
      .error (.streamIndexOutOfBounds (pack.offset + 4 : Nat))
        { c with fragmentedPacket := some (new none) } := by
  simp only [receiveFragmentedPacket, opens, addFragment_short pack short]

/-! ### The client reassembles -/

inductive Holds : List (List UInt8) → Option BaseFragmentedPacket → Prop
  | idle : Holds [] none
  | opened : Holds [] (some (new none))
  | underWay (bodies : List (List UInt8)) (long : 4 ≤ bodies.flatten.length)
      (high : announced bodies.flatten ≤ 1500000)
      (more : ((bodies.flatten.drop 4).length : Int) < announced bodies.flatten) :
      Holds bodies (some (collecting (announced bodies.flatten) (bodies.flatten.drop 4)))

theorem receive_first (c : BaseClient) (fragment : Fragment)
    (opens : c.fragmentedPacket.getD (new none) =
      new none) :
    (receive c fragment).1 = (reassemble [] fragment.body).1 ∧
      Holds (reassemble [] fragment.body).2 (receive c fragment).2.fragmentedPacket := by
  have width := length_unread fragment.pack
  have cursor := fragment.cursor
  have bytes : ([] ++ [fragment.body]).flatten = fragment.pack.unread := append_nil _
  simp only [reassemble, bytes, receive]
  by_cases long : fragment.pack.offset + 4 ≤ fragment.pack.size
  · rw [if_neg (show ¬ fragment.pack.unread.length < 4 by omega)]
    by_cases bad : announced fragment.pack.unread ≤ 0 ∨ 1500000 < announced fragment.pack.unread
    · rw [receiveFragmentedPacket_rejects long bad opens, if_pos bad]
      exact ⟨rfl, .idle⟩
    · rw [receiveFragmentedPacket_first long (by omega) (by omega) c opens,
        if_neg bad]
      by_cases reached : announced fragment.pack.unread ≤ (fragment.pack.unread.drop 4).length
      · rw [if_pos reached, if_pos reached]
        exact ⟨outcome_message _, .idle⟩
      · rw [if_neg reached, if_neg reached]
        have held := Holds.underWay [fragment.pack.unread] (by simp; omega) (by simp; omega)
          (by simpa using reached)
        rw [flatten_singleton] at held
        exact ⟨rfl, held⟩
  · rw [receiveFragmentedPacket_short fragment.pack (by omega) opens, if_pos (by omega)]
    exact ⟨rfl, .opened⟩

theorem receive_simulates (fragment : Fragment) (held : Holds bodies c.fragmentedPacket) :
    (receive c fragment).1 = (reassemble bodies fragment.body).1 ∧
      Holds (reassemble bodies fragment.body).2 (receive c fragment).2.fragmentedPacket := by
  generalize pending : c.fragmentedPacket = frag at held
  cases held with
  | idle => exact receive_first c fragment (by rw [pending]; rfl)
  | opened => exact receive_first c fragment (by rw [pending]; rfl)
  | underWay _ long high more =>
    have bytes : (bodies ++ [fragment.body]).flatten = bodies.flatten ++ fragment.pack.unread := by
      simp [Fragment.body]
    -- the announcement stays where it was, in front of everything that arrives later
    have eq : announced (bodies.flatten ++ fragment.pack.unread) = announced bodies.flatten := by
      rw [announced, announced, take_append_of_le_length long]
    have collected : (bodies.flatten ++ fragment.pack.unread).drop 4 =
        bodies.flatten.drop 4 ++ fragment.pack.unread := drop_append_of_le_length long
    have le : ¬ (bodies.flatten ++ fragment.pack.unread).length < 4 := by
      rw [length_append]
      omega
    have allowed : ¬ (announced bodies.flatten ≤ 0 ∨ 1500000 < announced bodies.flatten) := by
      omega
    simp only [reassemble, bytes, eq, collected, receive, if_neg le, if_neg allowed]
    rw [receiveFragmentedPacket_next fragment.cursor more pending]
    by_cases reached :
        announced bodies.flatten ≤ (bodies.flatten.drop 4 ++ fragment.pack.unread).length
    · rw [if_pos reached, if_pos reached]
      exact ⟨outcome_message _, .idle⟩
    · rw [if_neg reached, if_neg reached]
      have next := Holds.underWay (bodies ++ [fragment.body])
      rw [bytes, eq, collected] at next
      exact ⟨rfl, next (Nat.not_lt.mp le) high (Int.not_le.mp reached)⟩

theorem Holds.bounded (held : Holds bodies (some frag)) :
    frag.size ≤ frag.totalSize ∧ frag.totalSize ≤ maxCompleteFragSize := by
  cases held with
  | opened => exact ⟨Int.le_refl 0, by decide⟩
  | underWay _ long high more => exact ⟨more.le, high⟩

theorem isComplete_appended {body : Stream} (cursor : body.offset ≤ body.size)
    (pos : 0 < total) (room : (data.length : Int) ≤ total)
    (appended : (collecting total data).appendFragment body = (true, frag)) :
    ∃ complete, frag.isComplete = .ok complete := by
  rw [appendFragment_collecting cursor room] at appended
  cases appended
  exact ⟨_, isComplete_collecting total _ pos⟩

theorem isComplete_first
    (added : (new none).addFragment pack = .ok (true, frag)) :
    ∃ complete, frag.isComplete = .ok complete := by
  by_cases long : pack.offset + 4 ≤ pack.size
  · rw [addFragment_first long] at added
    split at added
    · cases added
    next allowed =>
      exact isComplete_appended long (by omega)
        (by rw [length_nil]; omega) (Except.ok.inj added)
  · rw [addFragment_short pack (by omega)] at added
    cases added

theorem Holds.isComplete {pending : Option BaseFragmentedPacket} (held : Holds bodies pending)
    (fragment : Fragment) (frag : BaseFragmentedPacket)
    (added : (pending.getD (new none)).addFragment fragment.pack =
      .ok (true, frag)) : ∃ complete, frag.isComplete = .ok complete := by
  cases held with
  | idle => exact isComplete_first added
  | opened => exact isComplete_first added
  | underWay _ long high more =>
    rw [Option.getD_some, addFragment_next _ _ _ (by omega)] at added
    exact isComplete_appended fragment.cursor (by omega) more.le (Except.ok.inj added)

/-- Whatever the fragments are, the client answers as the abstract reassembly. -/
theorem reassembly_is_exact (c : BaseClient) (fragments : List Fragment) :
    let client := { c with fragmentedPacket := none }
    let answers := Machine.run receive client fragments
    answers.1 = (Machine.run (fun bodies fragment => reassemble bodies (Fragment.body fragment))
        [] fragments).1 ∧
      (∀ frag, answers.2.fragmentedPacket = some frag →
        frag.size ≤ frag.totalSize ∧ frag.totalSize ≤ maxCompleteFragSize) ∧
      ∀ (next : Fragment) (frag : BaseFragmentedPacket),
        (answers.2.fragmentedPacket.getD (new none)).addFragment next.pack =
            .ok (true, frag) →
          ∃ complete, frag.isComplete = .ok complete := by
  intro client answers
  obtain ⟨eq, held⟩ := Machine.run_simulates
    (R := fun c bodies => Holds bodies c.fragmentedPacket)
    (fun c bodies fragment held => receive_simulates fragment held)
    client [] .idle fragments
  exact ⟨eq, fun frag pending => Holds.bounded (pending ▸ held),
    fun next frag added => held.isComplete next frag added⟩

end Engine3.Reassembly
