import Mathlib.Data.UInt

/-!
# Strings as text

`String::toString` writes a string between quotes, with a backslash in front of the characters that
need one, and `String::parseFromString` reads it. Three of the characters are written as the letter
that stands for them behind the backslash, and the parser keeps the letter.
-/
namespace Engine3.CStrings

def escapeChar (ch : UInt8) : List UInt8 :=
  if ch = 0 then [92, 48]
  else if ch = 10 then [92, 110]
  else if ch = 13 then [92, 114]
  else if ch = 92 then [92, 92]
  else if ch = 34 then [92, 34]
  else if ch = 39 then [92, 39]
  else [ch]

def escapeString (chars : List UInt8) : List UInt8 :=
  if chars.isEmpty then [] else chars.flatMap escapeChar

def toString (chars : List UInt8) : List UInt8 := 34 :: (escapeString chars ++ [34])

def parseChars (skip : Bool) (buffer : List UInt8) : List UInt8 → List UInt8
  | [] => buffer
  | ch :: chars =>
    if skip then parseChars false (buffer ++ [ch]) chars
    else if ch = 92 then parseChars true buffer chars
    else parseChars false (buffer ++ [ch]) chars

def parseFromString (str : List UInt8) : Option (List UInt8) :=
  if str.length < 2 then none
  else some (parseChars false [] ((str.drop 1).take (str.length - 2)))

/-! ### The round trip -/

def reparsed (ch : UInt8) : UInt8 :=
  if ch = 0 then 48 else if ch = 10 then 110 else if ch = 13 then 114 else ch

/-- The characters that come back. -/
def Kept (ch : UInt8) : Prop := ch ≠ 0 ∧ ch ≠ 10 ∧ ch ≠ 13

theorem reparsed_eq_iff (ch : UInt8) : reparsed ch = ch ↔ Kept ch := by
  unfold reparsed Kept
  split
  next zero => simp [zero]
  split
  next newline => simp [newline]
  split
  next ret => simp [ret]
  next zero newline ret => simp [zero, newline, ret]

theorem escapeString_eq (chars : List UInt8) : escapeString chars = chars.flatMap escapeChar := by
  cases chars <;> rfl

theorem parseChars_escapeChar (ch : UInt8) (buffer chars : List UInt8) :
    parseChars false buffer (escapeChar ch ++ chars) =
      parseChars false (buffer ++ [reparsed ch]) chars := by
  unfold escapeChar reparsed
  -- a character behind a backslash is kept, whichever it is
  split
  next => rfl
  split
  next => rfl
  split
  next => rfl
  split
  next backslash =>
    rw [backslash]
    rfl
  next plain =>
    split
    next quote =>
      rw [quote]
      rfl
    split
    next quote =>
      rw [quote]
      rfl
    next => simp [parseChars, plain]

theorem parseChars_escapeString (chars buffer : List UInt8) :
    parseChars false buffer (escapeString chars) = buffer ++ chars.map reparsed := by
  rw [escapeString_eq]
  induction chars generalizing buffer with
  | nil => simp [parseChars]
  | cons ch chars ih =>
    rw [List.flatMap_cons, parseChars_escapeChar, ih, List.map_cons, List.append_assoc,
      List.singleton_append]

theorem parseFromString_toString (chars : List UInt8) :
    parseFromString (toString chars) = some (chars.map reparsed) := by
  have len : (toString chars).length = (escapeString chars).length + 2 := by
    simp [toString]
  have inner : ((toString chars).drop 1).take ((toString chars).length - 2) =
      escapeString chars := by
    rw [len, Nat.add_sub_cancel]
    exact List.take_left
  rw [parseFromString, if_neg (by omega), inner, parseChars_escapeString, List.nil_append]

/-- The text of a string gives it back exactly if it has none of the three characters. -/
theorem text_round_trip_iff (chars : List UInt8) :
    (parseFromString (toString chars)).isSome ∧
      (parseFromString (toString chars) = some chars ↔ ∀ ch ∈ chars, Kept ch) := by
  have eq : chars.map reparsed = chars ↔ ∀ ch ∈ chars, reparsed ch = ch := by
    simpa using List.map_inj_left (f := reparsed) (g := id) (l := chars)
  rw [parseFromString_toString]
  refine ⟨rfl, ?_⟩
  rw [Option.some.injEq, eq]
  simp only [reparsed_eq_iff]

theorem text_round_trip_newline : parseFromString (toString [97, 10]) = some [97, 110] := by
  decide

end Engine3.CStrings
