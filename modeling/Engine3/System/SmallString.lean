import Engine3.Library.MachineInt
import Engine3.Library.OwnedBlocks
import Engine3.System.Stream

/-!
# Strings with an inline buffer

`system/lang/String` keeps a string of less than sixteen characters in the object and a longer one
on the heap. A union holds the characters or the pointer, and the length alone says which. The
cells of the union may therefore hold the bytes of a pointer, and so may a block to which they
were copied.
-/
namespace Engine3

open Exec MachineInt OwnedBlocks List

inductive Datum
  | byte (b : UInt8)
  /-- One byte of the address of a block. -/
  | pointer (block part : Nat)
  deriving DecidableEq, Repr

namespace SmallString

abbrev CharM := HeapM Datum

abbrev Cells := List (Option Datum)

/-! ### The union -/

structure Union where
  cells : Cells
  size : cells.length = 16

namespace Union

def fresh : Union := ⟨replicate 16 none, rfl⟩

def write (u : Union) (start : Nat) (part : Cells) : CharM Union :=
  if fits : start + part.length ≤ 16 then
    pure ⟨blit u.cells start part, by rw [length_blit (u.size ▸ fits), u.size]⟩
  else throw .outside

end Union

def pointerCells : Option Nat → Cells
  | none => replicate 8 (some (.byte 0))
  | some p => (range 8).map fun i => some (.pointer p i)

theorem length_pointerCells (p : Option Nat) : (pointerCells p).length = 8 := by
  cases p <;> rfl

namespace Union

def setValue (u : Union) (p : Option Nat) : Union :=
  ⟨blit u.cells 0 (pointerCells p), by
    rw [length_blit (by rw [length_pointerCells, u.size]; decide), u.size]⟩

def value? (u : Union) : Option (Option Nat) :=
  match u.cells.head? with
  | some (some (.pointer p _)) =>
    if u.cells.take 8 = pointerCells (some p) then some (some p) else none
  | _ => if u.cells.take 8 = pointerCells none then some none else none

def value (u : Union) : CharM (Option Nat) :=
  match u.value? with
  | some p => pure p
  | none => throw .uninitialised

end Union

end SmallString

structure SmallString where
  count : Nat
  union : SmallString.Union

namespace SmallString

/-! ### The methods -/

def toCharArray (s : SmallString) : CharM Cells :=
  if s.count < 16 then pure s.union.cells else do load (← s.union.value)

def initial (n : Nat) (cells : Cells) : CharM Cells :=
  if n ≤ cells.length then pure (cells.take n) else throw .outside

def content (s : SmallString) : CharM Cells := do initial s.count (← s.toCharArray)

def zero : Option Datum := some (.byte 0)

def create (u : Union) (str : Cells) : CharM SmallString :=
  if str.length < 16 then do
    let u ← u.write 0 str
    let u ← u.write str.length [zero]
    return ⟨str.length, u⟩
  else do
    let p ← alloc (i32 (str.length + 1)).toNat
    store p 0 str
    store p str.length [zero]
    return ⟨str.length, u.setValue (some p)⟩

def clear (s : SmallString) : CharM SmallString :=
  if s.count < 16 then pure { s with count := 0 }
  else do
    match ← s.union.value with
    | none => pure s
    | some p =>
      free (some p)
      return ⟨0, s.union.setValue none⟩

def destroy (s : SmallString) : CharM Unit :=
  if 16 ≤ s.count then do free (← s.union.value) else pure ()

def copyConstruct (str : SmallString) : CharM SmallString := do create .fresh (← str.content)

def assign (this str : SmallString) : CharM SmallString := do
  let cleared ← this.clear
  create cleared.union (← str.content)

def assignChars (this : SmallString) (str : Cells) : CharM SmallString := do
  let cleared ← this.clear
  create cleared.union str

def moveFrom (u : Union) (str : SmallString) : CharM (SmallString × SmallString) :=
  if str.count < 16 then do
    let u ← u.write 0 (← initial str.count str.union.cells)
    let u ← u.write str.count [zero]
    return (⟨str.count, u⟩, str)
  else do
    let p ← str.union.value
    return (⟨str.count, u.setValue p⟩, ⟨0, str.union.setValue none⟩)

def moveAssign (this str : SmallString) : CharM (SmallString × SmallString) := do
  let cleared ← this.clear
  moveFrom cleared.union str

def grow (s : SmallString) (newlen : Int) : CharM Union :=
  if s.count < 16 then do
    let p ← alloc (i32 (newlen + 1)).toNat
    store p 0 (← initial s.count s.union.cells)
    store p newlen.toNat [zero]
    return s.union.setValue (some p)
  else do
    let p ← realloc (← s.union.value) (i32 (newlen + 1)).toNat
    return s.union.setValue (some p)

def append (s : SmallString) (len : Nat) (read : SmallString → CharM Cells) :
    CharM SmallString :=
  let newlen := i32 (s.count + len)
  if newlen < 16 then do
    let u ← s.union.write s.count (← read s)
    let u ← u.write newlen.toNat [zero]
    return ⟨newlen.toNat, u⟩
  else do
    let u ← s.grow newlen
    let str ← read { s with union := u }
    match ← u.value with
    | none => throw .null
    | some p =>
      store p s.count str
      store p newlen.toNat [zero]
      return ⟨newlen.toNat, u⟩

def appendChars (s : SmallString) (str : Cells) : CharM SmallString :=
  s.append str.length fun _ => pure str

def appendString (s str : SmallString) : CharM SmallString :=
  s.append str.count fun _ => str.content

def appendSelf (s : SmallString) : CharM SmallString := s.append s.count content

def concatChars (s : SmallString) (str : Cells) : CharM SmallString := do
  let newstr ← create .fresh (← s.content)
  newstr.appendChars str

def concat (s str : SmallString) : CharM SmallString := do
  let newstr ← create .fresh (← s.content)
  newstr.appendString str

def subString (s : SmallString) (beginIndex endIndex : Int) :
    Except Exception (CharM SmallString) :=
  if beginIndex < 0 ∨ beginIndex > s.count then .error (.arrayIndexOutOfBounds beginIndex)
  else if endIndex < 0 ∨ endIndex > s.count then .error (.arrayIndexOutOfBounds endIndex)
  else if beginIndex > endIndex then .error (.arrayIndexOutOfBounds beginIndex)
  else if beginIndex ≠ endIndex then
    .ok do
      let chars ← s.toCharArray
      create .fresh (← initial (endIndex - beginIndex).toNat (chars.drop beginIndex.toNat))
  else .ok (create .fresh [])

def subStringFrom (s : SmallString) (beginIndex : Int) : Except Exception (CharM SmallString) :=
  if beginIndex < 0 ∨ beginIndex ≥ s.count then .error (.arrayIndexOutOfBounds beginIndex)
  else
    .ok do
      let chars ← s.toCharArray
      create .fresh (← initial (s.count - beginIndex).toNat (chars.drop beginIndex.toNat))

/-! ### What a string holds -/

def text (bytes : List UInt8) : Cells := bytes.map fun b => some (.byte b)

@[simp] theorem length_text (bytes : List UInt8) : (text bytes).length = bytes.length :=
  length_map _

theorem text_append (us vs : List UInt8) : text (us ++ vs) = text us ++ text vs :=
  map_append

inductive Holds (h : Heap Datum) : SmallString → List UInt8 → Prop
  | inline {u : Union} {bytes : List UInt8} (short : bytes.length < 16) (rest : Cells)
      (cells : u.cells = text bytes ++ zero :: rest) : Holds h ⟨bytes.length, u⟩ bytes
  | heap {u : Union} {bytes : List UInt8} {p : Nat} (long : 16 ≤ bytes.length)
      (value : u.value? = some (some p)) (block : h.blocks p = some (text bytes ++ [zero])) :
      Holds h ⟨bytes.length, u⟩ bytes

def pointer (s : SmallString) : Option Nat := if s.count < 16 then none else s.union.value?.join

section Holds

variable {h h' : Heap Datum} {s : SmallString} {us : List UInt8}

theorem Holds.count_eq (held : Holds h s us) : s.count = us.length := by
  cases held <;> rfl

variable {u : Union} {n p : Nat}

theorem pointer_inline (short : n < 16) :
    pointer ⟨n, u⟩ = none := if_pos short

theorem pointer_heap (long : 16 ≤ n) (val : u.value? = some (some p)) :
    pointer ⟨n, u⟩ = some p := by
  rw [pointer, if_neg (not_lt.mpr long), val]
  rfl

theorem Holds.block_eq (held : Holds h ⟨n, u⟩ us) (long : 16 ≤ n) (val : u.value? = some (some p)) :
    h.blocks p = some (text us ++ [zero]) := by
  cases held with
  | inline short rest cells => exact absurd short (not_lt.mpr long)
  | heap _ val' block =>
    cases val.symm.trans val'
    exact block

theorem Holds.live (held : Holds h s us) (points : s.pointer = some p) :
    h.blocks p ≠ none := by
  cases held with
  | inline short rest cells =>
    rw [pointer_inline short] at points
    cases points
  | heap long val block =>
    rw [pointer_heap long val] at points
    cases points
    simp [block]

theorem Holds.frame (held : Holds h s us)
    (eq : ∀ p, s.pointer = some p → h'.blocks p = h.blocks p) : Holds h' s us := by
  cases held with
  | inline short rest cells => exact .inline short rest cells
  | heap long val block =>
    exact .heap long val ((eq _ (pointer_heap long val)).trans block)

end Holds

def owner : Owner Datum SmallString (List UInt8) where
  pointer := pointer
  Holds := Holds
  live := Holds.live
  frame := Holds.frame

/-! ### Characters in the union -/

namespace Union

variable (u : Union) (h : Heap Datum)

theorem take_setValue (p : Option Nat) : (u.setValue p).cells.take 8 = pointerCells p := by
  exact take_left' (length_pointerCells p)

theorem value?_setValue (p : Option Nat) : (u.setValue p).value? = some p := by
  have front := u.take_setValue p
  have head : (u.setValue p).cells.head? = (pointerCells p).head? := by
    rw [← front, head?_take, if_neg (by decide)]
  cases p with
  | none =>
    rfl
  | some p =>
    exact if_pos rfl

theorem value_of {p : Option Nat} (val : u.value? = some p) : u.value h = .ok p h := by
  rw [value, val]
  rfl

theorem write_ok (start : Nat) (part : Cells) (fits : start + part.length ≤ 16) :
    ∃ u', u.write start part h = .ok u' h ∧ u'.cells = blit u.cells start part := by
  rw [write, dif_pos fits]
  exact ⟨_, rfl, rfl⟩

theorem write_terminated (k : Nat) (front part : Cells) (kept : u.cells.take k = front)
    (len : front.length = k) (fits : k + part.length < 16) :
    ∃ u₁ u₂ rest, u.write k part h = .ok u₁ h ∧ u₁.write (k + part.length) [zero] h = .ok u₂ h ∧
      u₂.cells = front ++ part ++ zero :: rest := by
  obtain ⟨u₁, written, cells₁⟩ := u.write_ok h k part (by omega)
  have room : k + part.length + [zero].length ≤ 16 := by
    rw [length_singleton]
    omega
  obtain ⟨u₂, ended, cells₂⟩ := u₁.write_ok h (k + part.length) [zero] room
  refine ⟨u₁, u₂, u₁.cells.drop (k + part.length + 1), written, ended, ?_⟩
  have before : u₁.cells.take (k + part.length) = front ++ part := by
    rw [cells₁, blit, kept, take_left' (by simp [len])]
  rw [cells₂, blit, before]
  simp

end Union

/-! ### Blocks -/

theorem finish_spec {h : Heap Datum} {p : Nat} {front : Cells} (part : Cells) {tail : Cells}
    (live : h.blocks p = some (front ++ tail)) (room : tail.length = part.length + 1) :
    ∃ h₁ h₂, store p front.length part h = .ok () h₁ ∧
      store p (front.length + part.length) [zero] h₁ = .ok () h₂ ∧
      h₂.blocks p = some (front ++ part ++ [zero]) ∧ Only p h h₂ := by
  obtain ⟨last, ending⟩ : ∃ last, tail.drop part.length = [last] := by
    apply length_eq_one_iff.mp
    rw [length_drop]
    omega
  have cut : h.blocks p = some (front ++ tail.take part.length ++ [last]) := by
    rw [live, append_assoc, ← ending, take_append_drop]
  obtain ⟨h₁, written, block₁, only₁⟩ := store_exact cut front.length part rfl (by simp; omega)
  have ready : h₁.blocks p = some (front ++ part ++ [last] ++ []) := by
    rw [block₁, append_nil]
  obtain ⟨h₂, ended, block₂, only₂⟩ :=
    store_exact ready (front.length + part.length) [zero] (by simp) rfl
  exact ⟨h₁, h₂, written, ended, by rw [block₂, append_nil], only₁.trans only₂⟩

section Methods

variable {h : Heap Datum} {s : SmallString} {us : List UInt8}

theorem toCharArray_spec (held : Holds h s us) :
    ∃ rest, toCharArray s h = .ok (text us ++ zero :: rest) h := by
  cases held with
  | inline short rest cells =>
    refine ⟨rest, ?_⟩
    rw [toCharArray, if_pos short, cells]
    rfl
  | heap long val block =>
    refine ⟨[], ?_⟩
    rw [toCharArray, if_neg (not_lt.mpr long), bind_of_ok (Union.value_of _ h val)]
    exact load_live block

variable {n len : Nat} {vs : List UInt8}

theorem initial_ok {front rest : Cells} (length : front.length = n) :
    initial n (front ++ rest) h = .ok front h := by
  rw [initial, if_pos (by simp; omega), take_left' length]
  rfl

theorem content_spec (held : Holds h s us) : content s h = .ok (text us) h := by
  obtain ⟨rest, read⟩ := toCharArray_spec held
  rw [content, bind_of_ok read, held.count_eq]
  exact initial_ok (length_text us)

theorem create_spec (u : Union) (us : List UInt8) (h : Heap Datum)
    (fits : us.length < 2147483647) :
    ∃ s' h', create u (text us) h = .ok s' h' ∧ Extends h none h' ∧ Holds h' s' us ∧
      ∀ p, s'.pointer = some p → h.blocks p = none := by
  rw [create, length_text]
  rcases Nat.lt_or_ge us.length 16 with short | long
  · obtain ⟨u₁, u₂, rest, written, ended, cells⟩ :=
      u.write_terminated h 0 [] (text us) rfl rfl (by simpa using short)
    rw [length_text, Nat.zero_add] at ended
    rw [if_pos short, bind_of_ok written, bind_of_ok ended]
    refine ⟨_, h, rfl, Extends.refl _ _, .inline short rest cells, ?_⟩
    rw [pointer_inline short]
    simp
  · have dead : h.blocks h.next = none := h.fresh _ (Nat.le_refl _)
    have room : (i32 (us.length + 1)).toNat = us.length + 1 := by
      rw [i32_of_small _ (by omega) (by omega)]
      omega
    rw [if_neg (not_lt.mpr long), room, bind_of_ok (m := alloc _) rfl]
    have new : (h.push (replicate (us.length + 1) none)).blocks h.next =
        some ([] ++ replicate (us.length + 1) none) := Heap.push_self h _
    obtain ⟨h₁, h₂, written, ended, block, only⟩ := finish_spec (text us) new (by simp)
    simp only [length_nil, length_text, Nat.zero_add] at written ended
    rw [bind_of_ok written, bind_of_ok ended]
    refine ⟨_, h₂, rfl, ((Extends.refl h none).push _).only only dead,
      .heap long (u.value?_setValue _) block, ?_⟩
    rw [pointer_heap long (u.value?_setValue _)]
    rintro p ⟨⟩
    exact dead

theorem clear_spec (held : Holds h s us) :
    ∃ s' h', clear s h = .ok s' h' ∧ Extends h s.pointer h' := by
  cases held with
  | inline short rest cells =>
    rw [clear, if_pos short]
    exact ⟨_, h, rfl, Extends.refl _ _⟩
  | heap long val block =>
    rw [clear, if_neg (not_lt.mpr long), bind_of_ok (Union.value_of _ h val)]
    refine ⟨_, _, bind_of_ok (free_live block), ?_⟩
    rw [pointer_heap long val]
    exact (Extends.refl h _).set (.inl rfl) none

theorem destroy_spec (held : Holds h s us) :
    ∃ h', destroy s h = .ok () h' ∧ Extends h s.pointer h' := by
  cases held with
  | inline short rest cells =>
    rw [destroy, if_neg (not_le.mpr short)]
    exact ⟨h, rfl, Extends.refl _ _⟩
  | heap long val block =>
    rw [destroy, if_pos long, bind_of_ok (Union.value_of _ h val)]
    refine ⟨_, free_live block, ?_⟩
    rw [pointer_heap long val]
    exact (Extends.refl h _).set (.inl rfl) none

theorem copyConstruct_spec (held : Holds h s us) (fits : us.length < 2147483647) :
    ∃ s' h', copyConstruct s h = .ok s' h' ∧ Extends h none h' ∧ Holds h' s' us ∧
      ∀ p, s'.pointer = some p → h.blocks p = none := by
  rw [copyConstruct, bind_of_ok (content_spec held)]
  exact create_spec .fresh us h fits

theorem assigned_spec (held : Holds h s us) (fits : vs.length < 2147483647) (read : CharM Cells)
    (there : ∀ h', Extends h s.pointer h' → read h' = .ok (text vs) h') :
    ∃ s' h', (do
        let cleared ← s.clear
        create cleared.union (← read)) h = .ok s' h' ∧ Extends h s.pointer h' ∧ Holds h' s' vs ∧
      ∀ p, s'.pointer = some p → h.blocks p = none ∨ s.pointer = some p := by
  obtain ⟨s₁, h₁, cleared, ext⟩ := clear_spec held
  obtain ⟨s', h', created, ext', holds, new⟩ := create_spec s₁.union vs h₁ fits
  refine ⟨s', h', ?_, ext.trans (ext'.mono _), holds, fun p points => ext.dead (new p points)⟩
  rw [bind_of_ok cleared, bind_of_ok (there h₁ ext)]
  exact created

theorem holds_null (u : Union) (h : Heap Datum) : Holds h ⟨0, u.setValue none⟩ [] := by
  have empty : ([] : List UInt8).length < 16 := by decide
  exact .inline empty (replicate 7 zero ++ u.cells.drop 8) rfl

theorem moveFrom_spec (u : Union) (held : Holds h s us) :
    ∃ s' left, moveFrom u s h = .ok (s', left) h ∧ Holds h s' us ∧
      Holds h left (if us.length < 16 then us else []) ∧ left.pointer = none ∧
      ∀ p, s'.pointer = some p → s.pointer = some p := by
  rw [moveFrom, held.count_eq]
  cases held with
  | inline short rest cells =>
    obtain ⟨u₁, u₂, rest', written, ended, cells'⟩ :=
      u.write_terminated h 0 [] (text us) rfl rfl (by simpa using short)
    rw [length_text, Nat.zero_add] at ended
    rw [if_pos short, cells, bind_of_ok (initial_ok (length_text us)),
      bind_of_ok written, bind_of_ok ended, if_pos short]
    refine ⟨_, _, rfl, .inline short rest' cells', .inline short rest cells, pointer_inline short,
      ?_⟩
    rw [pointer_inline short]
    simp
  | heap long val block =>
    rw [if_neg (not_lt.mpr long), bind_of_ok (Union.value_of _ h val),
      if_neg (not_lt.mpr long)]
    refine ⟨_, _, rfl, .heap long (u.value?_setValue _) block, holds_null _ h,
      pointer_inline (by decide), ?_⟩
    rw [pointer_heap long val, pointer_heap long (u.value?_setValue _)]
    exact fun p eq => eq

/-! ### Appending -/

theorem append_short (held : Holds h s us) (fits : us.length + vs.length < 16)
    {read : SmallString → CharM Cells} (there : read s h = .ok (text vs) h) :
    ∃ s', append s vs.length read h = .ok s' h ∧ Holds h s' (us ++ vs) ∧ s'.pointer = none := by
  have newlen : i32 (s.count + vs.length) = (us.length + vs.length : Nat) := by
    rw [held.count_eq, i32_of_small _ (by omega) (by omega)]
    rfl
  have short : (us ++ vs).length < 16 := by rwa [length_append]
  cases held with
  | heap long val block => omega
  | inline few rest cells =>
    -- the new characters start where the old terminator was
    obtain ⟨u₁, u₂, rest', written, ended, cells'⟩ :=
      Union.write_terminated _ h us.length (text us) (text vs)
        (by rw [cells, take_left' (length_text us)]) (length_text us) (by simpa using fits)
    rw [length_text] at ended
    simp only [append, newlen]
    rw [if_pos (by omega), bind_of_ok there, bind_of_ok written,
      Int.toNat_natCast, bind_of_ok ended]
    rw [← text_append] at cells'
    rw [← length_append]
    exact ⟨_, rfl, .inline short rest' cells', pointer_inline short⟩

theorem grow_spec (held : Holds h s us) (long : 16 ≤ us.length + len)
    (fits : us.length + len < 2147483647) :
    ∃ q h₁ tail, grow s (us.length + len : Nat) h = .ok (s.union.setValue (some q)) h₁ ∧
      Extends h s.pointer h₁ ∧ h.blocks q = none ∧ h₁.blocks q = some (text us ++ tail) ∧
      tail.length = len + 1 := by
  have dead : h.blocks h.next = none := h.fresh _ (Nat.le_refl _)
  have room : (i32 ((us.length + len : Nat) + 1)).toNat = us.length + len + 1 := by
    rw [i32_of_small _ (by omega) (by omega)]
    omega
  rw [grow, held.count_eq, room]
  cases held with
  | inline short rest cells =>
    -- the characters are copied out before the pointer is written over them
    have new : (h.push (replicate (us.length + len + 1) none)).blocks h.next =
        some ([] ++ replicate us.length none ++ replicate (len + 1) none) := by
      rw [Heap.push_self, nil_append, replicate_append_replicate, Nat.add_assoc]
    obtain ⟨h₁, written, block₁, only₁⟩ := store_exact new 0 (text us) rfl (by simp)
    have ready : h₁.blocks h.next =
        some (text us ++ replicate len none ++ [none] ++ []) := by
      rw [block₁, replicate_succ']
      simp
    obtain ⟨h₂, ended, block₂, only₂⟩ :=
      store_exact ready (us.length + len) [zero] (by simp) rfl
    refine ⟨h.next, h₂, replicate len none ++ [zero], ?_, ?_, dead, ?_, by simp⟩
    · rw [if_pos short, cells, bind_of_ok (m := alloc _) rfl,
        bind_of_ok (initial_ok (length_text us)), bind_of_ok written,
        Int.toNat_natCast, bind_of_ok ended]
      rfl
    · exact (((Extends.refl h _).push _).only only₁ dead).only only₂ dead
    · rw [block₂, append_nil, append_assoc]
  | heap much val block =>
    obtain ⟨h₂, moved, ext, block₂⟩ := realloc_spec block (us.length + len + 1) (by simp)
    refine ⟨h.next, h₂, zero :: replicate len none, ?_, ?_, dead, ?_, by simp⟩
    · rw [if_neg (not_lt.mpr much), bind_of_ok (Union.value_of _ h val),
        bind_of_ok moved]
      rfl
    · rwa [pointer_heap much val]
    · rw [block₂]
      simp

theorem append_long (held : Holds h s us) (long : 16 ≤ us.length + len)
    (fits : us.length + len < 2147483647) :
    ∃ q h₁ tail, Extends h s.pointer h₁ ∧ h.blocks q = none ∧
      h₁.blocks q = some (text us ++ tail) ∧
      ∀ (read : SmallString → CharM Cells) (str : Cells), str.length = len →
        read { s with union := s.union.setValue (some q) } h₁ = .ok str h₁ →
        ∃ h', append s len read h =
            .ok ⟨us.length + len, s.union.setValue (some q)⟩ h' ∧ Extends h s.pointer h' ∧
          h'.blocks q = some (text us ++ str ++ [zero]) := by
  obtain ⟨q, h₁, tail, grown, ext, dead, block, room⟩ := grow_spec held long fits
  refine ⟨q, h₁, tail, ext, dead, block, ?_⟩
  intro read str length there
  obtain ⟨h₂, h₃, written, ended, block', only⟩ := finish_spec str block (by omega)
  rw [length_text] at written ended
  have newlen : i32 (s.count + len) = (us.length + len : Nat) := by
    rw [held.count_eq, i32_of_small _ (by omega) (by omega)]
    rfl
  refine ⟨h₃, ?_, ext.only only dead, block'⟩
  simp only [append, newlen]
  rw [if_neg (by omega), bind_of_ok grown, bind_of_ok there,
    bind_of_ok (Union.value_of _ h₁ (Union.value?_setValue _ _)), held.count_eq]
  dsimp only
  rw [bind_of_ok written, Int.toNat_natCast, ← length, bind_of_ok ended]
  rfl

theorem append_spec (held : Holds h s us) (fits : us.length + vs.length < 2147483647)
    (read : SmallString → CharM Cells)
    (there : ∀ s' h', Extends h s.pointer h' → read s' h' = .ok (text vs) h') :
    ∃ s' h', append s vs.length read h = .ok s' h' ∧ Extends h s.pointer h' ∧
      Holds h' s' (us ++ vs) ∧ ∀ p, s'.pointer = some p → h.blocks p = none := by
  rcases Nat.lt_or_ge (us.length + vs.length) 16 with short | long
  · obtain ⟨s', appended, holds, nothing⟩ :=
      append_short held short (there s h (Extends.refl _ _))
    refine ⟨s', h, appended, Extends.refl _ _, holds, ?_⟩
    rw [nothing]
    simp
  · obtain ⟨q, h₁, tail, ext, dead, _, append⟩ := append_long held long fits
    obtain ⟨h', appended, ext', block⟩ := append read (text vs) (length_text vs) (there _ h₁ ext)
    rw [← text_append] at block
    have much : 16 ≤ (us ++ vs).length := by rwa [length_append]
    have val := s.union.value?_setValue (some q)
    rw [← length_append] at appended
    refine ⟨_, h', appended, ext', .heap much val block, ?_⟩
    rw [pointer_heap much val]
    rintro p ⟨⟩
    exact dead

theorem content_overwritten (u : Union) (h : Heap Datum) (q : Nat) (le : 8 ≤ n)
    (short : n < 16) :
    ∃ str, content ⟨n, u.setValue (some q)⟩ h = .ok str h ∧ str.length = n ∧
      str.head? = some (some (.pointer q 0)) := by
  have size := (u.setValue (some q)).size
  refine ⟨(u.setValue (some q)).cells.take n, ?_, by rw [length_take]; omega, ?_⟩
  · have hin : n ≤ (u.setValue (some q)).cells.length := by omega
    rw [content, toCharArray, if_pos short, bind_of_ok (m := pure _) rfl, initial,
      if_pos hin]
    rfl
  · have front : ((u.setValue (some q)).cells.take n).take 8 = pointerCells (some q) := by
      rw [take_take, Nat.min_eq_left le, u.take_setValue]
    have head := congrArg head? front
    rwa [head?_take, if_neg (by decide)] at head

theorem appendSelf_spec (held : Holds h s us) (fits : us.length + us.length < 2147483647) :
    ∃ s' h', appendSelf s h = .ok s' h' ∧ Extends h s.pointer h' ∧
      (Holds h' s' (us ++ us) ↔ us.length < 8 ∨ 16 ≤ us.length) ∧
      ∀ p, s'.pointer = some p → h.blocks p = none := by
  rw [appendSelf, held.count_eq]
  rcases Nat.lt_or_ge us.length 8 with few | le
  · -- both copies stay in the object
    obtain ⟨s', appended, holds, nothing⟩ :=
      append_short held (by omega) (content_spec held)
    refine ⟨s', h, appended, Extends.refl _ _, iff_of_true holds (.inl few), ?_⟩
    rw [nothing]
    simp
  obtain ⟨q, h₁, tail, _, dead, block, append⟩ := append_long held (by omega) fits
  have val := s.union.value?_setValue (some q)
  have much : 16 ≤ us.length + us.length := by omega
  have new : ∀ p, pointer ⟨us.length + us.length, s.union.setValue (some q)⟩ = some p →
      h.blocks p = none := by
    rw [pointer_heap much val]
    rintro p ⟨⟩
    exact dead
  rcases Nat.lt_or_ge us.length 16 with short | long
  · -- the pointer is among the characters when they are read again
    obtain ⟨str, read, length, fst⟩ := content_overwritten s.union h₁ q (by omega) short
    obtain ⟨h', appended, ext', block'⟩ := append content str length (held.count_eq ▸ read)
    refine ⟨_, h', appended, ext', iff_of_false ?_ (by omega), new⟩
    intro holds
    have eq := (holds.block_eq much val).symm.trans block'
    rw [text_append, Option.some.injEq, append_left_inj, append_right_inj] at eq
    rw [← eq] at fst
    cases us with
    | nil => cases le
    | cons u us => cases fst
  · -- the characters are read from the new block
    have read : content { s with union := s.union.setValue (some q) } h₁ = .ok (text us) h₁ := by
      rw [content, toCharArray, held.count_eq, if_neg (not_lt.mpr long),
        bind_of_ok ((bind_of_ok (Union.value_of _ h₁ val)).trans
          (load_live block))]
      exact initial_ok (length_text us)
    obtain ⟨h', appended, ext', block'⟩ := append content (text us) (length_text us) read
    refine ⟨_, h', appended, ext', iff_of_true ?_ (.inr long), new⟩
    rw [← text_append] at block'
    rw [← length_append] at much ⊢
    exact .heap much val block'

/-! ### Strings made of others -/

theorem concat_spec (held : Holds h s us) (fits : us.length + vs.length < 2147483647)
    (read : CharM Cells) (there : ∀ h', Extends h none h' → read h' = .ok (text vs) h') :
    ∃ s' h', (do
        let newstr ← create .fresh (← s.content)
        newstr.append vs.length fun _ => read) h = .ok s' h' ∧ Extends h none h' ∧
      Holds h' s' (us ++ vs) ∧ ∀ p, s'.pointer = some p → h.blocks p = none := by
  obtain ⟨s₁, h₁, created, ext, holds, new⟩ := create_spec .fresh us h (by omega)
  obtain ⟨s', h', appended, ext', holds', new'⟩ :=
    append_spec holds fits (fun _ => read) fun _ h₂ ext₂ =>
      there h₂ (ext.trans_fresh ext₂ new)
  refine ⟨s', h', ?_, ext.trans_fresh ext' new, holds', ?_⟩
  · rw [bind_of_ok (content_spec held), bind_of_ok created]
    exact appended
  · intro p points
    exact (ext.dead (new' p points)).resolve_right (by simp)

theorem subString_outside (s : SmallString) (beginIndex endIndex : Int)
    (out : ¬ (0 ≤ beginIndex ∧ beginIndex ≤ endIndex ∧ endIndex ≤ s.count)) :
    ∃ e, s.subString beginIndex endIndex = .error e := by
  unfold subString
  split
  · exact ⟨_, rfl⟩
  split
  · exact ⟨_, rfl⟩
  split
  · exact ⟨_, rfl⟩
  · omega

theorem part_spec (held : Holds h s us) (start n : Nat) (hin : start + n ≤ us.length)
    (fits : us.length < 2147483647) :
    ∃ s' h', (do
        let chars ← s.toCharArray
        create .fresh (← initial n (chars.drop start))) h = .ok s' h' ∧ Extends h none h' ∧
      Holds h' s' ((us.drop start).take n) ∧ ∀ p, s'.pointer = some p → h.blocks p = none := by
  obtain ⟨rest, read⟩ := toCharArray_spec held
  have behind : (text us).drop start = text (us.drop start) := by
    rw [text, text, map_drop]
  have cut : (text us ++ zero :: rest).drop start =
      text ((us.drop start).take n) ++ (text ((us.drop start).drop n) ++ zero :: rest) := by
    rw [drop_append_of_le_length (by simp; omega), behind, ← append_assoc, ← text_append,
      take_append_drop]
  have length : (text ((us.drop start).take n)).length = n := by
    rw [length_text, length_take, length_drop]
    omega
  rw [bind_of_ok read, cut, bind_of_ok (initial_ok length)]
  exact create_spec .fresh _ h (by simp; omega)

end Methods

end SmallString

end Engine3
