import Engine3.System.UnicodeString

/-!
# Strings in packets

The string methods of `system/net/Packet`, at the cursor and at an offset, and what they and
`UnicodeString::parseFromBinaryStream` do with any announced length. All parsers of units end in
the same way: a new buffer is filled with as many units of the stream as the length says when it
is taken for an `int`.
-/
namespace Engine3

open Bytes CheckedMemory Exec MachineInt OwnedBlocks StreamBuffer UnicodeString List

namespace Packet

def maxUnicodeLength : Nat := 33554432

/-! ### The methods -/

def insertAscii (ascii : List UInt8) : BufferM Unit := do
  writeStream (leBytes 2 ascii.length)
  writeStream ascii

def insertUnicode (units : List UInt16) : BufferM Unit := do
  writeStream (leBytes 4 units.length)
  writeStream (unitBytes units)

def parseAscii : BufferM (List UInt8) := do
  let len ← readShort
  shiftOffset len
  copyFrom ((← get).offset - len) len

def parseAsciiFrom (offs : Int) : BufferM (List UInt8) := do
  let len ← readShortFrom offs
  let elementOffset := offs + 2
  if elementOffset > (← get).size then throw (.thrown (.streamIndexOutOfBounds (offs + 2)))
  else copyFrom (elementOffset - len) len

def refill (str : UnicodeString) (len : Nat) (units : List (Option UInt16)) :
    UnitM UnicodeString := do
  let cleared ← str.clear
  cleared.append (.array units) (i32 len)

def parseUnicode (str : UnicodeString) : ParseM UnicodeString := do
  let len ← onStream readInt
  let totalLen := u32 (2 * len)
  if totalLen > maxUnicodeLength then
    throw (.stream (.thrown (.streamIndexOutOfBounds maxUnicodeLength)))
  else do
    onStream (shiftOffset totalLen)
    let b := (← get).stream
    onHeap (refill str len (unitsFrom b (b.offset - totalLen)))

def parseUnicodeFrom (offs : Int) (str : UnicodeString) : ParseM UnicodeString := do
  let len ← onStream (readIntFrom offs)
  let totalLen := u32 (2 * len)
  if totalLen > maxUnicodeLength then
    throw (.stream (.thrown (.streamIndexOutOfBounds maxUnicodeLength)))
  else do
    let b := (← get).stream
    let elementOffset := offs + 4
    if elementOffset > b.size then
      throw (.stream (.thrown (.streamIndexOutOfBounds (offs + 4))))
    else onHeap (refill str len (unitsFrom b (elementOffset - totalLen)))

end Packet

namespace UnicodeString

/-! ### A buffer filled from a stream -/

def fill (p len : Nat) (units : List (Option UInt16)) : UnitM UnicodeString := do
  copyLen p 0 (.array units) (i32 len)
  store p len [some 0]
  return ⟨some p, len⟩

def Yields (r : EStateM.Result Fault (Heap UInt16) UnicodeString) (us : List UInt16) : Prop :=
  ∃ s h, r = .ok s h ∧ Holds h s (some us)

theorem copyUnits_length_le {rounds : Nat} {cells : List (Option UInt16)} {us : List UInt16}
    (copied : copyUnits rounds cells = .ok us) : us.length ≤ rounds := by
  induction rounds generalizing cells us with
  | zero =>
    cases copied
    exact Nat.le_refl _
  | succ rounds ih =>
    match cells with
    | [] => cases copied
    | none :: _ => cases copied
    | some u :: cells =>
      simp only [copyUnits] at copied
      split at copied
      · cases copied
        simp
      · cases rest : copyUnits rounds cells with
        | error fault => simp [rest] at copied
        | ok vs =>
          simp only [rest, Except.ok.injEq] at copied
          subst copied
          simpa using ih rest

theorem clean_cons_iff (u : UInt16) (us : List UInt16) :
    Clean (u :: us) ↔ us = [] ∨ u ≠ 0 ∧ Clean us := by
  cases us with
  | nil => simp [Clean]
  | cons v us =>
    simp only [Clean, dropLast_cons_cons, mem_cons, not_or, reduceCtorEq, false_or]
    exact and_congr_left fun _ => ne_comm

theorem copyUnits_complete_iff (len : Nat) (vs us : List UInt16) :
    copyUnits len (vs.map some) = .ok us ∧ us.length = len ↔
      len ≤ vs.length ∧ us = vs.take len ∧ Clean (vs.take len) := by
  induction len generalizing vs us with
  | zero => simp [copyUnits, Clean, eq_comm]
  | succ len ih =>
    cases vs with
    | nil => simp [copyUnits]
    | cons v vs =>
      rw [take_succ_cons, clean_cons_iff, length_cons, Nat.add_le_add_iff_right]
      by_cases zero : v = 0
      · -- the loop ends here, so nothing may be left to copy
        subst zero
        have copied : copyUnits (len + 1) (((0 : UInt16) :: vs).map some) = .ok [0] := by
          simp [copyUnits]
        constructor
        · rintro ⟨⟨⟩, single⟩
          obtain rfl : len = 0 := by simpa using single.symm
          simp
        · rintro ⟨le, rfl, empty | ⟨apart, _⟩⟩
          · rw [empty]
            exact ⟨rfl, by simpa [le, eq_comm] using congrArg length empty⟩
          · exact absurd rfl apart
      · have clean : (vs.take len = [] ∨ v ≠ 0 ∧ Clean (vs.take len)) ↔ Clean (vs.take len) := by
          constructor
          · rintro (empty | ⟨_, clean⟩)
            · rw [empty]
              decide
            · exact clean
          · exact fun clean => .inr ⟨zero, clean⟩
        rw [clean]
        constructor
        · rintro ⟨copied, lengths⟩
          simp only [map_cons, copyUnits, if_neg zero] at copied
          cases rest : copyUnits len (vs.map some) with
          | error fault => simp [rest] at copied
          | ok ts =>
            simp only [rest, Except.ok.injEq] at copied
            subst copied
            obtain ⟨le, eq, clean⟩ := (ih vs ts).mp ⟨rest, by simpa using lengths⟩
            exact ⟨le, by rw [eq], clean⟩
        · rintro ⟨le, rfl, clean⟩
          obtain ⟨rest, lengths⟩ := (ih vs (vs.take len)).mpr ⟨le, rfl, clean⟩
          constructor
          · simp only [map_cons, copyUnits, if_neg zero, rest]
          · simpa using lengths

section Fill

variable {h : Heap UInt16} {p len : Nat} {cells : List (Option UInt16)} {us : List UInt16}

theorem copyLen_array_ok {room : Nat} (new : h.blocks p = some (replicate room none))
    (copied : copyUnits len cells = .ok us) (fits : us.length ≤ room) :
    ∃ h', copyLen p 0 (.array cells) len h = .ok () h' ∧
      h'.blocks p = some (us.map some ++ replicate (room - us.length) none) := by
  rcases Nat.eq_zero_or_pos len with rfl | pos
  · cases copied
    exact ⟨h, rfl, by simpa using new⟩
  · have live : h.blocks p ≠ none := by simp [new]
    have written := blit_fresh [] [] (us.map some) room (by simpa using fits)
    simp only [nil_append, append_nil, length_nil, length_map] at written
    refine ⟨h.set p (some (blit (replicate room none) 0 (us.map some))), ?_, ?_⟩
    · rw [copyLen, if_pos (by omega)]
      refine (bind_of_ok (m := Source.read _) rfl).trans ?_
      simp only [copyRounds, Int.toNat_natCast, copied]
      exact store_live new 0 (by simpa using fits)
    · rw [Heap.set_self h _ live, written]

theorem copyLen_array_error {fault : Fault} (failed : copyUnits len cells = .error fault) :
    copyLen p 0 (.array cells) len h = .error fault h := by
  rcases Nat.eq_zero_or_pos len with rfl | pos
  · cases failed
  · rw [copyLen, if_pos (by omega)]
    refine (bind_of_ok (m := Source.read _) rfl).trans ?_
    simp only [copyRounds, Int.toNat_natCast, failed]
    rfl

theorem holds_copied_iff (ws : List UInt16) (hin : us.length ≤ len)
    (live : h.blocks p = some (us.map some ++ replicate (len - us.length) none ++ [some 0])) :
    Holds h ⟨some p, len⟩ (some ws) ↔ us = ws ∧ us.length = len := by
  constructor
  · intro held
    -- a unit that was not copied is not initialised
    have all : us.length = len := by
      by_contra less
      refine not_holds_of_gap rfl live (k := us.length) (by simp only; omega) ?_ ws held
      rw [append_assoc, getElem?_append_right (by simp), length_map, Nat.sub_self,
        getElem?_append_left (by simp; omega), getElem?_replicate, if_pos (by omega)]
    obtain ⟨q, cells, points, counted, block, t, rfl, _⟩ := held
    cases points
    rw [live, all, Nat.sub_self, replicate_zero, append_nil] at block
    have eq := (append_inj' (Option.some.inj block) rfl).1
    exact ⟨map_injective_iff.mpr (Option.some_injective _) eq, all⟩
  · rintro ⟨rfl, all⟩
    rw [all, Nat.sub_self, replicate_zero, append_nil] at live
    exact ⟨p, _, rfl, all.symm, live, some 0, rfl, .inl rfl⟩

theorem fill_ok (us : List UInt16) {h₁ : Heap UInt16}
    (written : copyLen p 0 (.array cells) (i32 len) h = .ok () h₁) (hin : us.length ≤ len)
    (block : h₁.blocks p = some (us.map some ++ replicate (len + 1 - us.length) none))
    (ws : List UInt16) : Yields (fill p len cells h) ws ↔ us = ws ∧ us.length = len := by
  have ready : h₁.blocks p =
      some (us.map some ++ replicate (len - us.length) none ++ [none] ++ []) := by
    rw [block, append_nil, append_assoc, ← replicate_succ', Nat.succ_sub hin]
  obtain ⟨h₂, ended, block', _⟩ := store_exact ready len [some 0] (by simp; omega) rfl
  rw [append_nil] at block'
  have ret : fill p len cells h = .ok ⟨some p, len⟩ h₂ := by
    refine (bind_of_ok written).trans ?_
    exact (bind_of_ok ended).trans rfl
  rw [← holds_copied_iff ws hin block']
  constructor
  · rintro ⟨s, h', eq, held⟩
    rw [ret] at eq
    cases eq
    exact held
  · intro held
    exact ⟨_, h₂, ret, held⟩

end Fill

theorem fill_yields_iff {h : Heap UInt16} {p len : Nat} (vs us : List UInt16)
    (new : h.blocks p = some (replicate (u32 (len + 1)) none)) (word : len < 4294967296) :
    Yields (fill p len (vs.map some) h) us ↔
      len < 2147483648 ∧ len ≤ vs.length ∧ us = vs.take len ∧ Clean (vs.take len) := by
  rw [← copyUnits_complete_iff]
  rcases Nat.lt_or_ge len 2147483648 with lt | large
  · have room : u32 (len + 1) = len + 1 := by
      unfold u32
      omega
    rw [and_iff_right lt]
    rw [room] at new
    cases copied : copyUnits len (vs.map some) with
    | error fault =>
      refine iff_of_false ?_ (by simp)
      rintro ⟨s, h', ret, _⟩
      rw [fill, i32_of_small _ (by omega) (by omega),
        bind_of_error (copyLen_array_error copied)] at ret
      cases ret
    | ok ws =>
      have hin := copyUnits_length_le copied
      obtain ⟨h₁, written, block⟩ := copyLen_array_ok new copied (by omega)
      rw [← i32_of_small len (by omega) (by omega)] at written
      rw [fill_ok ws written hin block, Except.ok.injEq]
      exact and_congr_right fun eq => by rw [eq]
  · -- a negative `int` copies nothing
    refine iff_of_false ?_ (by omega)
    have nothing : copyLen p 0 (.array (vs.map some)) (i32 len) h = .ok () h := by
      rw [copyLen, if_neg]
      · rfl
      · unfold i32
        omega
    rcases Nat.lt_or_ge (len + 1) 4294967296 with fits | wraps
    · have room : u32 (len + 1) = len + 1 := by
        unfold u32
        omega
      rw [room] at new
      rw [fill_ok [] nothing (Nat.zero_le _) (by simpa using new)]
      rintro ⟨_, empty⟩
      simp only [length_nil] at empty
      omega
    · have room : u32 (len + 1) = 0 := by
        unfold u32
        omega
      rw [room] at new
      rintro ⟨s, h', ret, _⟩
      have out : OwnedBlocks.store p len [some 0] h = .error .outside h := by
        simp [OwnedBlocks.store, new]
      rw [fill, bind_of_ok nothing, bind_of_error out] at ret
      cases ret

section Ends

variable {h : Heap UInt16} {s : UnicodeString} {us : List UInt16} (held : Buffers h s us)
  (len : Nat) (units : List (Option UInt16))
include held

theorem receive_eq_fill :
    ∃ h₁ p, h₁.blocks p = some (replicate (u32 (len + 1)) none) ∧
      receive s len units h = fill p len units h₁ := by
  obtain ⟨h₁, freed, _⟩ := free_spec held (Extends.refl h none)
  refine ⟨_, h₁.next, Heap.push_self h₁ _, ?_⟩
  refine (bind_of_ok freed).trans ?_
  exact bind_of_ok (m := alloc _) rfl

theorem refill_eq_fill (word : len < 4294967296) :
    ∃ h₁ p, h₁.blocks p = some (replicate (u32 (len + 1)) none) ∧
      Packet.refill s len units h = fill p len units h₁ := by
  obtain ⟨s₁, h₁, cleared, _, points, empty⟩ := clear_spec held
  have counted : s₁.count = 0 := empty.count_eq
  have ncount : u32 ((0 : Nat) + i32 len) = len := by
    unfold u32 i32
    omega
  obtain ⟨h₂, freed, _, _, others⟩ := free_spec empty.buffers
    ((Extends.refl h₁ none).push (replicate (u32 (len + 1)) none))
  have dead : h₁.blocks h₁.next = none := h₁.fresh _ (Nat.le_refl _)
  refine ⟨h₂, h₁.next, ?_, ?_⟩
  · rw [others _ dead, Heap.push_self]
  · refine (bind_of_ok cleared).trans ?_
    simp only [append, counted, ncount]
    refine (bind_of_ok (m := alloc _) rfl).trans ?_
    refine (bind_of_ok (m := copyLen _ 0 _ (i32 (0 : Nat))) rfl).trans ?_
    refine (bind_of_ok freed).trans ?_
    rfl

end Ends

/-! ### Units of a stream -/

theorem unitsFrom_take (b : StreamBuffer) (start : Int) (len : Nat) :
    ∃ vs : List UInt16, unitsFrom b start = vs.map some ∧
      (len ≤ vs.length ↔ b.Covers start (2 * len)) ∧
      (len ≤ vs.length → vs.take len = unitsAt b.memory start len) := by
  by_cases low : 0 ≤ start
  · refine ⟨unitsAt b.memory start ((b.size - start) / 2).toNat, if_pos low, ?_, ?_⟩
    · rw [length_unitsAt, Covers]
      omega
    · intro le
      rw [length_unitsAt] at le
      obtain ⟨more, split⟩ := Nat.exists_eq_add_of_le le
      rw [split, unitsAt_add, take_left' (length_unitsAt ..)]
  · refine ⟨[], if_neg low, ?_, ?_⟩
    · rw [length_nil, Covers]
      omega
    · intro none
      obtain rfl : len = 0 := Nat.le_zero.mp none
      rfl

/-- The announced units are inside the data, their number is an `int`, and a zero is at most the
last of them. -/
def Readable (b : StreamBuffer) (start : Int) (len : Nat) : Prop :=
  len < 2147483648 ∧ b.Covers start (2 * len) ∧ Clean (unitsAt b.memory start len)

instance (b : StreamBuffer) (start : Int) (len : Nat) : Decidable (Readable b start len) :=
  inferInstanceAs (Decidable (_ ∧ _ ∧ _))

theorem fill_unitsFrom_iff {h : Heap UInt16} {p len : Nat} (b : StreamBuffer) (start : Int)
    (us : List UInt16) (new : h.blocks p = some (replicate (u32 (len + 1)) none))
    (word : len < 4294967296) :
    Yields (fill p len (unitsFrom b start) h) us ↔
      Readable b start len ∧ us = unitsAt b.memory start len := by
  obtain ⟨vs, units, le, eq⟩ := unitsFrom_take b start len
  rw [units, fill_yields_iff vs us new word, Readable, ← le]
  constructor
  · rintro ⟨lt, all, rfl, clean⟩
    exact ⟨⟨lt, all, eq all ▸ clean⟩, eq all⟩
  · rintro ⟨⟨lt, all, clean⟩, rfl⟩
    exact ⟨lt, all, (eq all).symm, (eq all).symm ▸ clean⟩

section Ends

variable {h : Heap UInt16} {s : UnicodeString} {us : List UInt16} (held : Buffers h s us)
  {len : Nat} (word : len < 4294967296) (b : StreamBuffer) (start : Int) (ws : List UInt16)
include held word

theorem receive_yields_iff :
    Yields (receive s len (unitsFrom b start) h) ws ↔
      Readable b start len ∧ ws = unitsAt b.memory start len := by
  obtain ⟨h₁, p, new, eq⟩ := receive_eq_fill held len (unitsFrom b start)
  rw [eq]
  exact fill_unitsFrom_iff b start ws new word

theorem refill_yields_iff :
    Yields (Packet.refill s len (unitsFrom b start) h) ws ↔
      Readable b start len ∧ ws = unitsAt b.memory start len := by
  obtain ⟨h₁, p, new, eq⟩ := refill_eq_fill held len (unitsFrom b start) word
  rw [eq]
  exact fill_unitsFrom_iff b start ws new word

end Ends

/-! ### Results of parsers -/

variable {α : Type}

def Thrown (r : EStateM.Result Stop Parsing α) : Prop :=
  ∃ e p, r = .error (.stream (.thrown e)) p

def Returns (r : EStateM.Result Stop Parsing UnicodeString) (us : List UInt16) : Prop :=
  ∃ s p, r = .ok s p ∧ Holds p.heap s (some us)

theorem thrown_error (e : Exception) (p : Parsing) :
    Thrown (.error (.stream (.thrown e)) p : EStateM.Result Stop Parsing α) := ⟨e, p, rfl⟩

theorem not_returns_error (stop : Stop) (p : Parsing) (us : List UInt16) :
    ¬ Returns (.error stop p) us := by
  rintro ⟨_, _, ret, _⟩
  cases ret

theorem not_thrown_onHeap (m : UnitM α) (p : Parsing) : ¬ Thrown (onHeap m p) := by
  rintro ⟨e, p', thrown⟩
  unfold onHeap at thrown
  split at thrown
  · cases thrown
  · cases thrown

theorem returns_onHeap_iff (m : UnitM UnicodeString) (p : Parsing) (us : List UInt16) :
    Returns (onHeap m p) us ↔ Yields (m p.heap) us := by
  unfold onHeap
  constructor
  · rintro ⟨s, p', ret, held⟩
    split at ret
    next s' heap ran =>
      cases ret
      exact ⟨_, heap, ran, held⟩
    next => cases ret
  · rintro ⟨s, heap, ran, held⟩
    exact ⟨s, { p with heap := heap }, by rw [ran], held⟩

theorem onStream_error {m : BufferM α} {b b' : StreamBuffer} {h : Heap UInt16}
    {fault : Fault Exception} (failed : m b = .error fault b') :
    onStream m ⟨b, h⟩ = .error (.stream fault) ⟨b', h⟩ := by
  simp only [onStream, failed]

def announced (b : StreamBuffer) (pos : Int) : Nat := leNat (bytesAt b.memory pos 4)

theorem announced_lt (b : StreamBuffer) (pos : Int) : announced b pos < 4294967296 := by
  have bound := leNat_lt (bytesAt b.memory pos 4)
  simpa [announced] using bound

section Cursor

variable {β : Type} {b : StreamBuffer} {h : Heap UInt16} (rest : Nat → ParseM β)

/-! A length at the cursor, and whatever follows. -/

theorem readInt_beyond (beyond : b.size < b.offset + 4) :
    (onStream readInt >>= rest) ⟨b, h⟩ =
      .error (.stream (.thrown (.streamIndexOutOfBounds (b.offset + 4))))
        ⟨{ b with offset := b.offset + 4 }, h⟩ := by
  have failed : readInt b = .error (.thrown (.streamIndexOutOfBounds (b.offset + 4)))
      { b with offset := b.offset + 4 } := map_error leNat (readStream_outside b beyond)
  exact bind_of_error (onStream_error failed)

theorem readInt_negative (neg : b.offset < 0) (fits : b.offset + 4 ≤ b.size) :
    (onStream readInt >>= rest) ⟨b, h⟩ =
      .error (.stream (.outOfBounds b.offset)) ⟨{ b with offset := b.offset + 4 }, h⟩ := by
  have failed : readInt b = .error (.outOfBounds b.offset) { b with offset := b.offset + 4 } :=
    map_error leNat (readStream_negative b neg (by decide) fits)
  exact bind_of_error (onStream_error failed)

theorem readInt_read (low : 0 ≤ b.offset) (fits : b.offset + 4 ≤ b.size) :
    (onStream readInt >>= rest) ⟨b, h⟩ =
      rest (announced b b.offset) ⟨{ b with offset := b.offset + 4 }, h⟩ :=
  bind_of_ok (onStream_ok (readInt_inside b low fits))

end Cursor

structure Parses (r : EStateM.Result Stop Parsing UnicodeString) (refuses : Prop)
    (b : StreamBuffer) (start : Int) (len : Nat) (inside : Prop) : Prop where
  thrown_iff : Thrown r ↔ refuses
  returns_iff : ∀ us, Returns r us ↔
    ¬ refuses ∧ inside ∧ Readable b start len ∧ us = unitsAt b.memory start len

variable {refuses inside : Prop} {b : StreamBuffer} {start : Int} {len : Nat}

theorem Parses.thrown {r : EStateM.Result Stop Parsing UnicodeString} (thrown : Thrown r)
    (refused : refuses) :
    Parses r refuses b start len inside where
  thrown_iff := iff_of_true thrown refused
  returns_iff us := by
    obtain ⟨e, p, rfl⟩ := thrown
    exact iff_of_false (not_returns_error _ _ us) fun ne => ne.1 refused

theorem Parses.stopped {pos : Int} (p : Parsing) (acc : ¬ refuses) (out : ¬ inside) :
    Parses (.error (.stream (.outOfBounds pos)) p) refuses b start len inside where
  thrown_iff := by
    refine iff_of_false ?_ acc
    rintro ⟨e, p', thrown⟩
    cases thrown
  returns_iff us := iff_of_false (not_returns_error _ _ us) fun ne => out ne.2.1

theorem Parses.filled {m : UnitM UnicodeString} {p : Parsing} (acc : ¬ refuses)
    (within : inside) (yields : ∀ us, Yields (m p.heap) us ↔
      Readable b start len ∧ us = unitsAt b.memory start len) :
    Parses (onHeap m p) refuses b start len inside where
  thrown_iff := iff_of_false (not_thrown_onHeap m p) acc
  returns_iff us := by
    rw [returns_onHeap_iff, yields, and_iff_right acc, and_iff_right within]

section Parsers

variable {h : Heap UInt16} {s : UnicodeString} {us : List UInt16} (held : Buffers h s us)
  (b : StreamBuffer)
include held

theorem parseFromBinaryStream_parses :
    Parses (parseFromBinaryStream s ⟨b, h⟩)
      (b.size < b.offset + 4 ∨ 0 ≤ b.offset ∧
        b.size < b.offset + 4 + i32 (2 * announced b b.offset))
      b (b.offset + 4) (announced b b.offset) (0 ≤ b.offset) := by
  rcases lt_or_ge b.size (b.offset + 4) with beyond | fits
  · rw [parseFromBinaryStream, readInt_beyond _ beyond]
    exact .thrown (thrown_error _ _) (.inl beyond)
  rcases lt_or_ge b.offset 0 with neg | low
  · rw [parseFromBinaryStream, readInt_negative _ neg fits]
    exact .stopped _ (by omega) (by omega)
  rw [parseFromBinaryStream, readInt_read _ low fits]
  have word := announced_lt b b.offset
  generalize announced b b.offset = len at word ⊢
  rw [get_bind]
  rcases lt_or_ge b.size (b.offset + 4 + i32 (2 * len)) with refused | shifts
  · have failed := shiftOffset_outside { b with offset := b.offset + 4 } refused
    rw [bind_of_error (onStream_error failed)]
    exact .thrown (thrown_error _ _) (.inr ⟨low, refused⟩)
  · have moved := shiftOffset_inside { b with offset := b.offset + 4 } shifts
    rw [bind_of_ok (onStream_ok moved),
      get_bind]
    exact .filled (by omega) low (receive_yields_iff held word b (b.offset + 4))

theorem parseUnicode_parses :
    Parses (Packet.parseUnicode s ⟨b, h⟩)
      (b.size < b.offset + 4 ∨ 0 ≤ b.offset ∧
        (Packet.maxUnicodeLength < u32 (2 * announced b b.offset) ∨
          b.size < b.offset + 4 + u32 (2 * announced b b.offset)))
      b (b.offset + 4) (announced b b.offset) (0 ≤ b.offset) := by
  rcases lt_or_ge b.size (b.offset + 4) with beyond | fits
  · rw [Packet.parseUnicode, readInt_beyond _ beyond]
    exact .thrown (thrown_error _ _) (.inl beyond)
  rcases lt_or_ge b.offset 0 with neg | low
  · rw [Packet.parseUnicode, readInt_negative _ neg fits]
    exact .stopped _ (by omega) (by omega)
  rw [Packet.parseUnicode, readInt_read _ low fits]
  have word := announced_lt b b.offset
  generalize announced b b.offset = len at word ⊢
  generalize u32 (2 * len) = totalLen
  by_cases long : totalLen > Packet.maxUnicodeLength
  · rw [if_pos long]
    exact .thrown (thrown_error _ _) (.inr ⟨low, .inl long⟩)
  rw [if_neg long]
  rcases lt_or_ge b.size (b.offset + 4 + totalLen) with refused | shifts
  · have failed := shiftOffset_outside { b with offset := b.offset + 4 } refused
    rw [bind_of_error (onStream_error failed)]
    exact .thrown (thrown_error _ _) (.inr ⟨low, .inr refused⟩)
  · have moved := shiftOffset_inside { b with offset := b.offset + 4 } shifts
    have start : b.offset + 4 + (totalLen : Int) - totalLen = b.offset + 4 := by omega
    rw [bind_of_ok (onStream_ok moved),
      get_bind]
    simp only [start]
    exact .filled (by omega) low (refill_yields_iff held word b (b.offset + 4))

theorem parseUnicodeFrom_parses {offs : Int} (low : 0 ≤ offs) :
    Parses (Packet.parseUnicodeFrom offs s ⟨b, h⟩)
      (b.size < offs + 4 ∨ Packet.maxUnicodeLength < u32 (2 * announced b offs))
      b (offs + 4 - u32 (2 * announced b offs)) (announced b offs) True := by
  rcases lt_or_ge b.size (offs + 4) with beyond | fits
  · have failed : readIntFrom offs b = .error (.thrown (.streamIndexOutOfBounds (offs + 4))) b :=
      map_error leNat (if_pos beyond)
    rw [Packet.parseUnicodeFrom,
      bind_of_error (onStream_error failed)]
    exact .thrown (thrown_error _ _) (.inl beyond)
  have read : readIntFrom offs b = .ok (announced b offs) b :=
    map_ok leNat (readPrimitiveFrom_inside b low fits)
  rw [Packet.parseUnicodeFrom, bind_of_ok (onStream_ok read)]
  have word := announced_lt b offs
  generalize announced b offs = len at word ⊢
  generalize u32 (2 * len) = totalLen
  by_cases long : totalLen > Packet.maxUnicodeLength
  · rw [if_pos long]
    exact .thrown (thrown_error _ _) (.inr long)
  rw [if_neg long, get_bind, if_neg (not_lt.mpr fits)]
  exact .filled (by omega) trivial (refill_yields_iff held word b _)

end Parsers

/-! ### Whatever length is announced -/

/-- A parser at the cursor throws, or returns the units whose number is announced and which are
all in the data. -/
def Proper (b : StreamBuffer) (r : EStateM.Result Stop Parsing UnicodeString) : Prop :=
  Thrown r ∨ 0 ≤ b.offset ∧ b.offset + 4 + 2 * announced b b.offset ≤ b.size ∧
    Returns r (unitsAt b.memory (b.offset + 4) (announced b b.offset))

theorem Parses.proper_iff {b : StreamBuffer} {r : EStateM.Result Stop Parsing UnicodeString}
    {refuses : Prop}
    (parses : Parses r refuses b (b.offset + 4) (announced b b.offset) (0 ≤ b.offset))
    (fits : ¬ refuses → b.offset + 4 ≤ b.size) :
    Proper b r ↔
      refuses ∨ 0 ≤ b.offset ∧ Readable b (b.offset + 4) (announced b b.offset) := by
  rw [Proper, parses.thrown_iff, parses.returns_iff]
  by_cases refused : refuses
  · exact iff_of_true (.inl refused) (.inl refused)
  · have length := fits refused
    simp only [refused, false_or, not_false_eq_true, true_and, and_true]
    constructor
    · rintro ⟨low, _, _, readable⟩
      exact ⟨low, readable⟩
    · rintro ⟨low, readable⟩
      have covers := readable.2.1
      rw [Covers] at covers
      exact ⟨low, by omega, low, readable⟩

/-- Exactly if they refuse the length, each in its way, or the units are readable. -/
theorem unicode_parsers_proper_iff {h : Heap UInt16} {s : UnicodeString} {a : Content}
    (held : Holds h s a) (b : StreamBuffer) :
    (Proper b (Packet.parseUnicode s ⟨b, h⟩) ↔
      (b.size < b.offset + 4 ∨ 0 ≤ b.offset ∧
        (Packet.maxUnicodeLength < u32 (2 * announced b b.offset) ∨
          b.size < b.offset + 4 + u32 (2 * announced b b.offset))) ∨
      0 ≤ b.offset ∧ Readable b (b.offset + 4) (announced b b.offset)) ∧
    (Proper b (parseFromBinaryStream s ⟨b, h⟩) ↔
      (b.size < b.offset + 4 ∨ 0 ≤ b.offset ∧
        b.size < b.offset + 4 + i32 (2 * announced b b.offset)) ∨
      0 ≤ b.offset ∧ Readable b (b.offset + 4) (announced b b.offset)) := by
  constructor
  · exact (parseUnicode_parses held.buffers b).proper_iff fun acc =>
      not_lt.mp fun beyond => acc (.inl beyond)
  · exact (parseFromBinaryStream_parses held.buffers b).proper_iff fun acc =>
      not_lt.mp fun beyond => acc (.inl beyond)

theorem unicode_parsers_proper_one :
    Proper (ofBytes [1, 0, 0, 0, 65, 0])
      (Packet.parseUnicode ⟨none, 0⟩ ⟨ofBytes [1, 0, 0, 0, 65, 0], Heap.empty⟩) ∧
    Proper (ofBytes [1, 0, 0, 0, 65, 0])
      (parseFromBinaryStream ⟨none, 0⟩ ⟨ofBytes [1, 0, 0, 0, 65, 0], Heap.empty⟩) := by
  have null : Holds Heap.empty ⟨none, 0⟩ none := ⟨rfl, rfl⟩
  obtain ⟨fst, snd⟩ := unicode_parsers_proper_iff null (ofBytes [1, 0, 0, 0, 65, 0])
  exact ⟨fst.mpr (.inr (by decide +kernel)), snd.mpr (.inr (by decide +kernel))⟩

theorem unicode_parsers_improper :
    ¬ Proper (ofBytes [0, 0, 0, 128])
      (Packet.parseUnicode ⟨none, 0⟩ ⟨ofBytes [0, 0, 0, 128], Heap.empty⟩) ∧
    ¬ Proper (ofBytes [0, 0, 0, 64])
      (parseFromBinaryStream ⟨none, 0⟩ ⟨ofBytes [0, 0, 0, 64], Heap.empty⟩) ∧
    ¬ Proper (ofBytes [3, 0, 0, 0, 65, 0, 0, 0, 66, 0])
      (Packet.parseUnicode ⟨none, 0⟩
        ⟨ofBytes [3, 0, 0, 0, 65, 0, 0, 0, 66, 0], Heap.empty⟩) := by
  have null : Buffers Heap.empty ⟨none, 0⟩ [] := ⟨rfl, .inl ⟨rfl, rfl⟩⟩
  refine ⟨?_, ?_, ?_⟩
  · rw [(parseUnicode_parses null _).proper_iff (by decide +kernel)]
    decide +kernel
  · rw [(parseFromBinaryStream_parses null _).proper_iff (by decide +kernel)]
    decide +kernel
  · rw [(parseUnicode_parses null _).proper_iff (by decide +kernel)]
    decide +kernel

/-! ### At the cursor and at an offset -/

/-- Both parsers throw, or both return strings of the same units. -/
def SameUnits (r r' : EStateM.Result Stop Parsing UnicodeString) : Prop :=
  Thrown r ∧ Thrown r' ∨ ∃ us, Returns r us ∧ Returns r' us

theorem Parses.same_iff {r r' : EStateM.Result Stop Parsing UnicodeString}
    {refuses refuses' inside inside' : Prop} {b : StreamBuffer} {start start' : Int} {len : Nat}
    (parses : Parses r refuses b start len inside)
    (parses' : Parses r' refuses' b start' len inside') :
    SameUnits r r' ↔ refuses ∧ refuses' ∨ ¬ refuses ∧ ¬ refuses' ∧ inside ∧ inside' ∧
      Readable b start len ∧ Readable b start' len ∧
      unitsAt b.memory start len = unitsAt b.memory start' len := by
  simp only [SameUnits, parses.thrown_iff, parses'.thrown_iff, parses.returns_iff,
    parses'.returns_iff]
  refine or_congr_right ⟨?_, ?_⟩
  · rintro ⟨us, ⟨acc, within, readable, rfl⟩, acc', within', readable', eq⟩
    exact ⟨acc, acc', within, within', readable, readable', eq⟩
  · rintro ⟨acc, acc', within, within', readable, readable', eq⟩
    exact ⟨_, ⟨acc, within, readable, rfl⟩, acc', within', readable', eq⟩

end UnicodeString

namespace Packet

/-- Both parsers throw, or both return the same characters. -/
def SameAscii : EStateM.Result (Fault Exception) StreamBuffer (List UInt8) →
    EStateM.Result (Fault Exception) StreamBuffer (List UInt8) → Prop
  | .ok ascii _, .ok ascii' _ => ascii = ascii'
  | .error (.thrown _) _, .error (.thrown _) _ => True
  | _, _ => False

def asciiLength (b : StreamBuffer) (offs : Int) : Nat := leNat (bytesAt b.memory offs 2)

section Ascii

variable (b : StreamBuffer) (offs : Int) (low : 0 ≤ offs)
include low

theorem parseAscii_at (fits : offs + 2 ≤ b.size) :
    parseAscii { b with offset := offs } =
      if b.size < offs + 2 + asciiLength b offs then
        .error (.thrown (.streamIndexOutOfBounds (offs + 2 + asciiLength b offs)))
          { b with offset := offs + 2 + asciiLength b offs }
      else .ok (bytesAt b.memory (offs + 2) (asciiLength b offs))
        { b with offset := offs + 2 + asciiLength b offs } := by
  have read : readShort { b with offset := offs } =
      .ok (asciiLength b offs) { b with offset := offs + 2 } :=
    readShort_inside { b with offset := offs } low fits
  rw [parseAscii, bind_of_ok read]
  split
  next beyond =>
    exact bind_of_error (shiftOffset_outside { b with offset := offs + 2 } beyond)
  next inside =>
    have shifts := not_lt.mp inside
    have start : offs + 2 + (asciiLength b offs : Int) - asciiLength b offs = offs + 2 := by omega
    have covers : Covers { b with offset := offs + 2 + asciiLength b offs } (offs + 2)
        (asciiLength b offs) := .inr ⟨by omega, shifts⟩
    rw [bind_of_ok (shiftOffset_inside { b with offset := offs + 2 } shifts),
      get_bind]
    simp only [start, copyFrom, if_pos covers]

theorem parseAsciiFrom_at (fits : offs + 2 ≤ b.size) :
    parseAsciiFrom offs b =
      if asciiLength b offs ≤ offs + 2 then
        .ok (bytesAt b.memory (offs + 2 - asciiLength b offs) (asciiLength b offs)) b
      else .error (.outOfBounds (offs + 2 - asciiLength b offs)) b := by
  have read : readShortFrom offs b = .ok (asciiLength b offs) b :=
    map_ok leNat (readPrimitiveFrom_inside b low fits)
  have covers : b.Covers (offs + 2 - asciiLength b offs) (asciiLength b offs) ↔
      asciiLength b offs ≤ offs + 2 := by
    rw [Covers]
    omega
  rw [parseAsciiFrom, bind_of_ok read, get_bind,
    if_neg (not_lt.mpr fits)]
  simp only [copyFrom, covers]

theorem parseAscii_same_iff (hin : offs ≤ b.size) :
    SameAscii (parseAsciiFrom offs b) ((setOffset offs >>= fun _ => parseAscii) b) ↔
      b.size < offs + 2 ∨ offs + 2 + asciiLength b offs ≤ b.size ∧
        asciiLength b offs ≤ offs + 2 ∧
        bytesAt b.memory (offs + 2 - asciiLength b offs) (asciiLength b offs) =
          bytesAt b.memory (offs + 2) (asciiLength b offs) := by
  have placed : setOffset offs b = .ok () { b with offset := offs } := if_neg (not_lt.mpr hin)
  rw [bind_of_ok placed]
  rcases lt_or_ge b.size (offs + 2) with beyond | fits
  · have thrown : parseAsciiFrom offs b =
        .error (.thrown (.streamIndexOutOfBounds (offs + 2))) b :=
      bind_of_error (map_error leNat (if_pos beyond))
    have thrown' : parseAscii { b with offset := offs } =
        .error (.thrown (.streamIndexOutOfBounds (offs + 2))) { b with offset := offs + 2 } :=
      bind_of_error
        (map_error leNat (readStream_outside { b with offset := offs } beyond))
    rw [thrown, thrown']
    exact iff_of_true trivial (.inl beyond)
  · rw [parseAsciiFrom_at b offs low fits, parseAscii_at b offs low fits]
    split
    next near =>
      split
      next refused => exact iff_of_false id (by omega)
      next shifts =>
        rw [or_iff_right (not_lt.mpr fits), and_iff_right (not_lt.mp shifts), and_iff_right near]
        rfl
    next far => exact iff_of_false (by split <;> exact id) (by omega)

end Ascii

end Packet

namespace UnicodeString

theorem parseUnicode_same_iff {h : Heap UInt16} {s : UnicodeString} {us : List UInt16}
    (held : Buffers h s us) {b : StreamBuffer} (offs : Int) (low : 0 ≤ offs)
    (hin : offs ≤ b.size) :
    SameUnits (Packet.parseUnicodeFrom offs s ⟨b, h⟩)
        ((onStream (setOffset offs) >>= fun _ => Packet.parseUnicode s) ⟨b, h⟩) ↔
      (b.size < offs + 4 ∨ Packet.maxUnicodeLength < u32 (2 * announced b offs)) ∨
        offs + 4 + u32 (2 * announced b offs) ≤ b.size ∧
        Readable b (offs + 4 - u32 (2 * announced b offs)) (announced b offs) ∧
        Readable b (offs + 4) (announced b offs) ∧
        unitsAt b.memory (offs + 4 - u32 (2 * announced b offs)) (announced b offs) =
          unitsAt b.memory (offs + 4) (announced b offs) := by
  have placed : setOffset offs b = .ok () { b with offset := offs } := if_neg (not_lt.mpr hin)
  have fst := parseUnicodeFrom_parses held b low
  have snd : Parses (Packet.parseUnicode s ⟨{ b with offset := offs }, h⟩)
      (b.size < offs + 4 ∨ 0 ≤ offs ∧ (Packet.maxUnicodeLength < u32 (2 * announced b offs) ∨
        b.size < offs + 4 + u32 (2 * announced b offs)))
      b (offs + 4) (announced b offs) (0 ≤ offs) := by
    have parses := parseUnicode_parses held { b with offset := offs }
    exact ⟨parses.thrown_iff, parses.returns_iff⟩
  rw [bind_of_ok (onStream_ok placed), fst.same_iff snd]
  constructor
  · rintro (⟨refused, _⟩ | ⟨_, acc, _, _, front, back, eq⟩)
    · exact .inl refused
    · refine .inr ⟨not_lt.mp fun beyond => acc (.inr ⟨low, .inr beyond⟩), front, back, eq⟩
  · intro cases
    by_cases refused : b.size < offs + 4 ∨ Packet.maxUnicodeLength < u32 (2 * announced b offs)
    · exact .inl ⟨refused, refused.imp_right fun long => ⟨low, .inl long⟩⟩
    · obtain ⟨fits, front, back, eq⟩ := cases.resolve_left refused
      refine .inr ⟨refused, ?_, trivial, low, front, back, eq⟩
      rintro (beyond | ⟨_, long | beyond⟩)
      · exact refused (.inl beyond)
      · exact refused (.inr long)
      · omega

end UnicodeString

namespace Packet

/-- Exactly if both throw, or the bytes on the two sides of the position are the same. -/
theorem parsers_agree_iff {h : Heap UInt16} {s : UnicodeString} {a : Content} (held : Holds h s a)
    (b : StreamBuffer) (offs : Int) (low : 0 ≤ offs) (inside : offs ≤ b.size) :
    (SameAscii (parseAsciiFrom offs b) ((setOffset offs >>= fun _ => parseAscii) b) ↔
      b.size < offs + 2 ∨ offs + 2 + asciiLength b offs ≤ b.size ∧
        asciiLength b offs ≤ offs + 2 ∧
        bytesAt b.memory (offs + 2 - asciiLength b offs) (asciiLength b offs) =
          bytesAt b.memory (offs + 2) (asciiLength b offs)) ∧
    (SameUnits (parseUnicodeFrom offs s ⟨b, h⟩)
        ((UnicodeString.onStream (setOffset offs) >>= fun _ => parseUnicode s) ⟨b, h⟩) ↔
      (b.size < offs + 4 ∨ maxUnicodeLength < u32 (2 * announced b offs)) ∨
        offs + 4 + u32 (2 * announced b offs) ≤ b.size ∧
        Readable b (offs + 4 - u32 (2 * announced b offs)) (announced b offs) ∧
        Readable b (offs + 4) (announced b offs) ∧
        unitsAt b.memory (offs + 4 - u32 (2 * announced b offs)) (announced b offs) =
          unitsAt b.memory (offs + 4) (announced b offs)) :=
  ⟨parseAscii_same_iff b offs low inside, parseUnicode_same_iff held.buffers offs low inside⟩

theorem parsers_agree_repeated :
    SameAscii (parseAsciiFrom 0 (ofBytes [2, 0, 2, 0]))
      ((setOffset 0 >>= fun _ => parseAscii) (ofBytes [2, 0, 2, 0])) ∧
    (∃ b, parseAsciiFrom 0 (ofBytes [2, 0, 2, 0]) = .ok [2, 0] b) ∧
    SameUnits (parseUnicodeFrom 0 ⟨none, 0⟩ ⟨ofBytes [1, 0, 0, 0, 0, 0], Heap.empty⟩)
      ((UnicodeString.onStream (setOffset 0) >>= fun _ => parseUnicode ⟨none, 0⟩)
        ⟨ofBytes [1, 0, 0, 0, 0, 0], Heap.empty⟩) ∧
    SameAscii (parseAsciiFrom 0 (ofBytes [5]))
      ((setOffset 0 >>= fun _ => parseAscii) (ofBytes [5])) ∧
    SameUnits (parseUnicodeFrom 0 ⟨none, 0⟩ ⟨ofBytes [5], Heap.empty⟩)
      ((UnicodeString.onStream (setOffset 0) >>= fun _ => parseUnicode ⟨none, 0⟩)
        ⟨ofBytes [5], Heap.empty⟩) := by
  have null : Holds Heap.empty ⟨none, 0⟩ none := ⟨rfl, rfl⟩
  have ascii := (parsers_agree_iff null (ofBytes [2, 0, 2, 0]) 0 (by decide) (by decide)).1
  have units := (parsers_agree_iff null (ofBytes [1, 0, 0, 0, 0, 0]) 0 (by decide) (by decide)).2
  obtain ⟨shortAscii, shortUnits⟩ := parsers_agree_iff null (ofBytes [5]) 0 (by decide) (by decide)
  exact ⟨ascii.mpr (by decide +kernel), ⟨_, rfl⟩, units.mpr (by decide +kernel),
    shortAscii.mpr (by decide +kernel), shortUnits.mpr (by decide +kernel)⟩

theorem parsers_disagree :
    (∃ b b', (setOffset 0 >>= fun _ => parseAscii) (ofBytes [1, 0, 65]) = .ok [65] b ∧
      parseAsciiFrom 0 (ofBytes [1, 0, 65]) = .ok [0] b') ∧
    (∃ b b', (setOffset 0 >>= fun _ => parseAscii) (ofBytes [5, 0]) =
        .error (.thrown (.streamIndexOutOfBounds 7)) b ∧
      parseAsciiFrom 0 (ofBytes [5, 0]) = .error (.outOfBounds (-3)) b') ∧
    ¬ SameUnits (parseUnicodeFrom 0 ⟨none, 0⟩ ⟨ofBytes [1, 0, 0, 0, 65, 0], Heap.empty⟩)
      ((UnicodeString.onStream (setOffset 0) >>= fun _ => parseUnicode ⟨none, 0⟩)
        ⟨ofBytes [1, 0, 0, 0, 65, 0], Heap.empty⟩) := by
  refine ⟨⟨_, _, rfl, rfl⟩, ⟨_, _, rfl, rfl⟩, ?_⟩
  have null : Buffers Heap.empty ⟨none, 0⟩ [] := ⟨rfl, .inl ⟨rfl, rfl⟩⟩
  rw [parseUnicode_same_iff null 0 (by decide) (by decide)]
  decide +kernel

end Packet

end Engine3
