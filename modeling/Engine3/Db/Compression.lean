import Engine3.System.StreamBuffer

/-!
# Compressed records

`LocalDatabase::compress` and `uncompress`: zlib is given room for one chunk at the end of a stream,
again and again, until it leaves some of the room unused. Of zlib only this is assumed: a call
fills the room it is given or has finished, and what `deflate` writes in all is what `inflate`
turns back into the data.
-/
namespace Engine3

open Bytes Exec StreamBuffer

inductive ZReturn
  | ok
  | streamEnd
  | dataError
  | failure
  deriving DecidableEq, Repr

structure Coder (σ : Type) where
  init : List UInt8 → σ
  call : σ → Nat → ZReturn × List UInt8 × σ

variable {σ δ : Type}

namespace LocalDatabase

def fillLoop (z : Coder σ) (zlibChunkSize : Nat) : Nat → σ → Nat → BufferM (Option Nat)
  | 0, _, _ => throw .outOfFuel
  | rounds + 1, packet, totalSize => do
    extendSize zlibChunkSize
    if (← get).Covers totalSize zlibChunkSize then
      let (ret, written, packet) := z.call packet zlibChunkSize
      copyTo totalSize written
      match ret with
      | .dataError => return none
      | .failure => throw (.thrown (.abort "ret == Z_OK || ret == Z_STREAM_END"))
      | _ =>
        -- no room is left: `avail_out == 0`
        if written.length = zlibChunkSize then
          fillLoop z zlibChunkSize rounds packet (totalSize + written.length)
        else return some (totalSize + written.length)
    else throw (.outOfBounds totalSize)

def compress (deflate : Coder δ) (zlibChunkSize rounds : Nat) (data : List UInt8) :
    BufferM Unit := do
  match ← fillLoop deflate zlibChunkSize rounds (deflate.init data) 0 with
  | some totalSize => setSize totalSize none
  | none => throw (.thrown (.abort "ret == Z_OK || ret == Z_STREAM_END"))

def uncompress (inflate : Coder σ) (zlibChunkSize rounds : Nat) (data : List UInt8) :
    BufferM Unit := do
  reset
  match ← fillLoop inflate zlibChunkSize rounds (inflate.init data) 0 with
  | some totalSize => do
    setSize totalSize none
    reset
  -- "could not decompress stream from database returning uncompressed"
  | none => return ()

inductive Writes (z : Coder σ) (n : Nat) : σ → List UInt8 → Prop
  | last {packet packet' : σ} {ret : ZReturn} {out : List UInt8}
    (called : z.call packet n = (ret, out, packet')) (fine : ret = .ok ∨ ret = .streamEnd)
    (room : out.length < n) : Writes z n packet out
  | more {packet packet' : σ} {ret : ZReturn} {part rest : List UInt8}
    (called : z.call packet n = (ret, part, packet')) (fine : ret = .ok ∨ ret = .streamEnd)
    (full : part.length = n) (later : Writes z n packet' rest) : Writes z n packet (part ++ rest)

/-- What `deflate` writes, whatever its room, `inflate` turns back into the data. -/
def RoundTrips (deflate : Coder δ) (inflate : Coder σ) : Prop :=
  ∀ n m, 1 ≤ n → 1 ≤ m → ∀ data, ∃ out,
    Writes deflate n (deflate.init data) out ∧ Writes inflate m (inflate.init out) data

/-! ### The loop -/

variable {z : Coder σ} {chunk rounds total : Nat} {packet packet' : σ} {ret : ZReturn}
  {out part : List UInt8} {b : StreamBuffer}

theorem fillLoop_round (rounds : Nat) (called : z.call packet chunk = (ret, part, packet'))
    (fine : ret = .ok ∨ ret = .streamEnd) (room : part.length ≤ chunk)
    (cursor : b.offset = total) :
    ∃ b', fillLoop z chunk (rounds + 1) packet total b =
        (if part.length = chunk then fillLoop z chunk rounds packet' (total + part.length) b'
        else .ok (some (total + part.length)) b') ∧
      b'.offset = (total + chunk : Nat) ∧
      bytesAt b'.memory 0 (total + part.length) = bytesAt b.memory 0 total ++ part := by
  let grown : StreamBuffer := { b with
    offset := b.offset + chunk, size := max b.size (b.offset + chunk) }
  have covers : grown.Covers total chunk := by
    right
    dsimp only [grown]
    omega
  have coversPart : grown.Covers total part.length := by
    right
    dsimp only [grown]
    omega
  have written : copyTo total part grown =
      .ok () { grown with memory := overwrite b.memory total part } := if_pos coversPart
  refine ⟨{ grown with memory := overwrite b.memory total part }, ?_, ?_, ?_⟩
  · rw [fillLoop, bind_of_ok (show extendSize chunk b = .ok () grown from rfl), get_bind,
      ite_run_pos covers, called]
    refine (bind_of_ok written).trans ?_
    rcases fine with rfl | rfl
    · split <;> rfl
    · split <;> rfl
  · dsimp only [grown]
    omega
  · rw [bytesAt_zero_overwrite _ _ _ _ le_rfl, Nat.sub_self]
    simp [bytesAt]

theorem fillLoop_writes (rounds total : Nat) (b : StreamBuffer) (pos : 1 ≤ chunk)
    (writes : Writes z chunk packet out) (hle : out.length < rounds)
    (cursor : b.offset = total) :
    ∃ b', fillLoop z chunk rounds packet total b = .ok (some (total + out.length)) b' ∧
      bytesAt b'.memory 0 (total + out.length) = bytesAt b.memory 0 total ++ out := by
  induction writes generalizing rounds total b with
  | last called fine room =>
    obtain ⟨rounds, rfl⟩ := Nat.exists_eq_succ_of_ne_zero (Nat.ne_zero_of_lt hle)
    obtain ⟨b', ran, -, bytes⟩ := fillLoop_round rounds called fine room.le cursor
    exact ⟨b', by rw [ran, if_neg room.ne], bytes⟩
  | more called fine full later ih =>
    obtain ⟨rounds, rfl⟩ := Nat.exists_eq_succ_of_ne_zero (Nat.ne_zero_of_lt hle)
    obtain ⟨b₁, ran, cursor₁, bytes₁⟩ := fillLoop_round rounds called fine full.le cursor
    rw [List.length_append] at hle ⊢
    rw [← full] at cursor₁
    obtain ⟨b₂, ran₂, bytes₂⟩ := ih rounds _ b₁ (by omega) cursor₁
    rw [← Nat.add_assoc]
    refine ⟨b₂, ?_, ?_⟩
    · rw [ran, if_pos full, ran₂]
    · rw [bytes₂, bytes₁, List.append_assoc]

/-- Whatever the chunk sizes, decompression of what was compressed leaves exactly the data. -/
theorem uncompress_compress (deflate : Coder δ) (inflate : Coder σ)
    (zlib : RoundTrips deflate inflate) (compressChunkSize chunkSize : Nat)
    (compressPositive : 1 ≤ compressChunkSize) (positive : 1 ≤ chunkSize) (data : List UInt8)
    (memory : Int → UInt8) (target : StreamBuffer) :
    ∃ enough, ∀ rounds ≥ enough, ∃ packed b,
      compress deflate compressChunkSize rounds data ⟨memory, 0, 0⟩ = .ok () packed ∧
      uncompress inflate chunkSize rounds (bytesAt packed.memory 0 packed.size.toNat) target =
        .ok () b ∧
      b.size = data.length ∧ b.offset = 0 ∧ bytesAt b.memory 0 data.length = data := by
  obtain ⟨out, deflates, inflates⟩ :=
    zlib compressChunkSize chunkSize compressPositive positive data
  refine ⟨max out.length data.length + 1, fun rounds enough => ?_⟩
  obtain ⟨b₁, packed, bytes₁⟩ := fillLoop_writes rounds 0 ⟨memory, 0, 0⟩ compressPositive deflates
    (by omega) rfl
  obtain ⟨b₂, unpacked, bytes₂⟩ := fillLoop_writes rounds 0 { target with offset := 0 } positive
    inflates (by omega) rfl
  rw [Nat.zero_add] at packed bytes₁ unpacked bytes₂
  refine ⟨{ b₁ with size := out.length }, { b₂ with size := data.length, offset := 0 }, ?_, ?_, rfl,
    rfl, bytes₂⟩
  · rw [compress, bind_of_ok packed]
    rfl
  · have input : bytesAt b₁.memory 0 out.length = out := bytes₁
    change uncompress inflate chunkSize rounds (bytesAt b₁.memory 0 out.length) target = _
    rw [input, uncompress,
      bind_of_ok (show reset target = .ok () { target with offset := 0 } from rfl),
      bind_of_ok unpacked]
    rfl

def Coder.copying : Coder (List UInt8) where
  init := id
  call packet n := (if packet.length < n then .streamEnd else .ok, packet.take n, packet.drop n)

theorem writes_copying {n : Nat} (pos : 1 ≤ n) (data : List UInt8) :
    Writes Coder.copying n data data := by
  induction size : data.length using Nat.strong_induction_on generalizing data with
  | _ length ih =>
    by_cases short : data.length < n
    · have called : Coder.copying.call data n = (.streamEnd, data, data.drop n) := by
        simp [Coder.copying, short, List.take_of_length_le short.le]
      exact .last called (.inr rfl) short
    · have shorter : (data.drop n).length < length := by
        rw [List.length_drop]
        omega
      have called : Coder.copying.call data n = (.ok, data.take n, data.drop n) := by
        simp [Coder.copying, short]
      have full : (data.take n).length = n := List.length_take_of_le (by omega)
      have whole := Writes.more called (.inl rfl) full (ih _ shorter _ rfl)
      rwa [List.take_append_drop] at whole

theorem uncompress_compress_three :
    ∃ enough, ∀ rounds ≥ enough, ∃ packed b,
      compress Coder.copying 1 rounds [1, 2, 3] ⟨fun _ => 0, 0, 0⟩ = .ok () packed ∧
      uncompress Coder.copying 3 rounds (bytesAt packed.memory 0 packed.size.toNat)
        (ofBytes [9, 9, 9, 9, 9]) = .ok () b ∧
      b.size = 3 ∧ b.offset = 0 ∧ bytesAt b.memory 0 3 = [1, 2, 3] :=
  uncompress_compress Coder.copying Coder.copying
    (fun _ _ first second data => ⟨data, writes_copying first data, writes_copying second data⟩)
    1 3 (by decide) (by decide) [1, 2, 3] _ (ofBytes [9, 9, 9, 9, 9])

end LocalDatabase

end Engine3
