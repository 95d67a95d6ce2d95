import Engine3.Library.Tokens
import Engine3.System.SchemaEvolution

/-!
# Tokenizers

`StringTokenizer` and `UnicodeTokenizer` give the pieces of a string between delimiters. Their
loops are the same, over strings with different searches: `String::indexOf` is `strstr`, and
`UnicodeString::indexOf` gives up behind 2048 units. Where a delimiter stands at the index the loop
goes on one character behind it, however long the delimiter is, and behind a delimiter at the end
of the string there is one more token, which is empty.
-/
namespace Engine3

open Occurrences List CString
open Tokens (filled Splits Below)

/-! ### The source -/

namespace CStrings

def indexOf (chars str : List UInt8) (fromIndex : Nat) : Option Nat :=
  if fromIndex ≥ chars.length then none
  else
    (firstAt (ofChars str).chars (ofChars (chars.drop fromIndex)).chars).map
      (fromIndex + ·)

def subString (chars : List UInt8) (beginIndex endIndex : Nat) : Except Exception (List UInt8) :=
  if beginIndex > chars.length then .error (.arrayIndexOutOfBounds beginIndex)
  else if endIndex > chars.length then .error (.arrayIndexOutOfBounds endIndex)
  else if beginIndex > endIndex then .error (.arrayIndexOutOfBounds beginIndex)
  else .ok ((chars.drop beginIndex).take (endIndex - beginIndex))

end CStrings

namespace Units

def maxLoops : Nat := 2048

def copied (fresh : Nat → UInt16) : List UInt16 → List UInt16
  | [] => []
  | unit :: rest =>
    unit :: if unit = 0 then (range rest.length).map fresh else copied fresh rest

def indexLoop (units str : List UInt16) (i : Nat) : Option Nat :=
  if i ≤ units.length - str.length ∧ i < maxLoops then
    if (units.drop i).take str.length = str then some i else indexLoop units str (i + 1)
  else none
termination_by maxLoops - i

def indexOf (units str : List UInt16) (startPos : Nat) : Option Nat :=
  if str.isEmpty ∨ startPos ≥ units.length ∨ units.length < str.length then none
  else indexLoop units str startPos

def substr (fresh : Nat → UInt16) (units : List UInt16) (beg length : Nat) :
    Except Exception (List UInt16) :=
  if length = 0 then .ok []
  else if beg + length > units.length then .error (.abort "read behind the buffer")
  else .ok (copied fresh ((units.drop beg).take length))

end Units

namespace Tokenizers

variable {α : Type}

def findToken (indexOf : Nat → Option Nat) (length index : Nat) : Nat × Option Nat :=
  match indexOf index with
  | none => (index, none)
  | some found =>
    if found = index ∧ found ≤ length then findToken indexOf length (index + 1)
    else (index, some found)
termination_by length + 1 - index

def nextToken (indexOf : Nat → Option Nat) (cut : Nat → Nat → Except Exception (List α))
    (length delimiter index : Nat) : Except Exception (List α × Option Nat) :=
  match findToken indexOf length index with
  | (oindex, some found) => (cut oindex found).map (·, some (found + delimiter))
  | (oindex, none) => (cut oindex length).map (·, none)

def tokens (next : Nat → Except Exception (List α × Option Nat)) :
    Nat → Option Nat → Except Exception (Option (List (List α)))
  | _, none => .ok (some [])
  | 0, some _ => .ok none
  | calls + 1, some index =>
    match next index with
    | .error e => .error e
    | .ok (token, index) => (tokens next calls index).map (·.map (token :: ·))

end Tokenizers

namespace StringTokenizer

def nextToken (str delimiter : List UInt8) : Nat → Except Exception (List UInt8 × Option Nat) :=
  Tokenizers.nextToken (CStrings.indexOf str delimiter) (CStrings.subString str) str.length
    delimiter.length

def tokens (str delimiter : List UInt8) (calls : Nat) :
    Except Exception (Option (List (List UInt8))) :=
  Tokenizers.tokens (nextToken str delimiter) calls (if str.isEmpty then none else some 0)

end StringTokenizer

namespace UnicodeTokenizer

def nextToken (fresh : Nat → Nat → UInt16) (str delimeter : List UInt16) :
    Nat → Except Exception (List UInt16 × Option Nat) :=
  Tokenizers.nextToken (Units.indexOf str delimeter)
    (fun oindex index =>
      (Units.substr (fresh (2 * oindex + 2)) str oindex (index - oindex)).map
        (Units.copied (fresh (2 * oindex + 3))))
    str.length delimeter.length

def tokens (fresh : Nat → Nat → UInt16) (str delimeter : List UInt16) (calls : Nat) :
    Except Exception (Option (List (List UInt16))) :=
  Tokenizers.tokens
    (nextToken fresh (Units.copied (fresh 0) str) (Units.copied (fresh 1) delimeter)) calls
    (if str.isEmpty then none else some 0)

end UnicodeTokenizer

namespace Tokenizers

/-! ### One call -/

/-- After enough calls these are the tokens. -/
def Gives {α : Type} (run : Nat → Except Exception (Option (List (List α))))
    (ts : List (List α)) : Prop :=
  ∃ enough, ∀ calls ≥ enough, run calls = .ok (some ts)

theorem Gives.unique {α : Type} {run : Nat → Except Exception (Option (List (List α)))}
    {first second : List (List α)} (one : Gives run first) (other : Gives run second) :
    first = second := by
  obtain ⟨m, one⟩ := one
  obtain ⟨n, other⟩ := other
  have same := (one (max m n) (Nat.le_max_left _ _)).symm.trans
    (other (max m n) (Nat.le_max_right _ _))
  injection same with same
  injection same

section Call

variable {α : Type} {next : Nat → Except Exception (List α × Option Nat)} {ts : List (List α)}

theorem gives_none : Gives (tokens next · none) ts ↔ ts = [] := by
  have done : Gives (tokens next · none) [] := by
    refine ⟨0, ?_⟩
    intro calls _
    cases calls <;> rfl
  constructor
  · exact fun given => given.unique done
  · rintro rfl
    exact done

theorem gives_step {index : Nat} {token : List α} {later : Option Nat}
    (called : next index = .ok (token, later)) :
    Gives (tokens next · (some index)) ts ↔
      ∃ rest, ts = token :: rest ∧ Gives (tokens next · later) rest := by
  have unfolded (calls : Nat) : tokens next (calls + 1) (some index) =
      (tokens next calls later).map (·.map (token :: ·)) := by
    simp only [tokens, called]
  constructor
  · rintro ⟨enough, given⟩
    have others (calls : Nat) (le : enough ≤ calls) :
        ∃ rest, ts = token :: rest ∧ tokens next calls later = .ok (some rest) := by
      have same := (unfolded calls).symm.trans (given (calls + 1) (Nat.le_succ_of_le le))
      match answer : tokens next calls later with
      | .error _ => simp [answer, Except.map] at same
      | .ok none => simp [answer, Except.map] at same
      | .ok (some rest) => exact ⟨rest, by simpa [answer, Except.map] using same.symm, rfl⟩
    obtain ⟨rest, rfl, -⟩ := others enough (Nat.le_refl _)
    refine ⟨rest, rfl, enough, ?_⟩
    intro calls le
    obtain ⟨rest', same, answer⟩ := others calls le
    injection same with _ same
    exact answer.trans (by rw [same])
  · rintro ⟨rest, rfl, enough, given⟩
    refine ⟨enough + 1, ?_⟩
    intro calls le
    obtain ⟨calls, rfl⟩ := Nat.exists_eq_add_of_le' (Nat.le_trans (Nat.le_add_left 1 _) le)
    have answer : tokens next calls later = .ok (some rest) :=
      given calls (Nat.le_of_succ_le_succ le)
    exact (unfolded calls).trans (by rw [answer]; rfl)

theorem Gives.ne_nil {index : Nat} (given : Gives (tokens next · (some index)) ts) : ts ≠ [] := by
  match called : next index with
  | .ok (token, later) =>
    obtain ⟨rest, rfl, -⟩ := (gives_step called).mp given
    exact cons_ne_nil _ _
  | .error _ =>
    obtain ⟨enough, given⟩ := given
    have same := given (enough + 1) (Nat.le_succ _)
    simp only [tokens, called] at same
    cases same

/-! The outcomes of a call: there is no other delimiter, it comes later, or it stands at the
index. -/

variable {indexOf : Nat → Option Nat} {cut : Nat → Nat → Except Exception (List α)}
  {length width index : Nat} {token : List α}

theorem gives_last (search : indexOf index = none) (given : cut index length = .ok token) :
    Gives (tokens (nextToken indexOf cut length width) · (some index)) ts ↔ ts = [token] := by
  have called : nextToken indexOf cut length width index = .ok (token, none) := by
    rw [nextToken, findToken, search]
    simp only [given]
    rfl
  simp [gives_step called, gives_none]

theorem gives_cut {found : Nat} (search : indexOf index = some found) (apart : found ≠ index)
    (given : cut index found = .ok token) :
    Gives (tokens (nextToken indexOf cut length width) · (some index)) ts ↔
      ∃ rest, ts = token :: rest ∧
        Gives (tokens (nextToken indexOf cut length width) · (some (found + width))) rest := by
  apply gives_step
  rw [nextToken, findToken, search]
  simp only [apart, false_and, if_false, given]
  rfl

theorem gives_skip (search : indexOf index = some index) (inside : index ≤ length) :
    Gives (tokens (nextToken indexOf cut length width) · (some index)) ts ↔
      Gives (tokens (nextToken indexOf cut length width) · (some (index + 1))) ts := by
  have called : nextToken indexOf cut length width index =
      nextToken indexOf cut length width (index + 1) := by
    rw [nextToken, findToken, search]
    simp only [inside, and_self, if_true]
    rfl
  have same (calls : Nat) : tokens (nextToken indexOf cut length width) calls (some index) =
      tokens (nextToken indexOf cut length width) calls (some (index + 1)) := by
    cases calls with
    | zero => rfl
    | succ calls => rw [tokens, called, tokens]
  simp only [same]

end Call

/-! ### All tokens -/

section Tokens

variable {α : Type} [DecidableEq α] {str delimiter : List α} {indexOf : Nat → Option Nat}
  {cut : Nat → Nat → Except Exception (List α)} {R : List α → List α → Prop}

structure FindsBelow (limit reach : Nat) (indexOf : Nat → Option Nat) (str delimiter : List α) :
    Prop where
  search : ∀ front text, str = front ++ text → front.length ≤ reach →
    indexOf front.length = ((firstAt delimiter text).map (front.length + ·)).filter (· < limit)
  reached : ∀ front after, str = front ++ (delimiter ++ after) → front.length < limit →
    front.length + delimiter.length ≤ reach

def Cuts (R : List α → List α → Prop) (cut : Nat → Nat → Except Exception (List α))
    (str : List α) : Prop :=
  ∀ front middle back, str = front ++ (middle ++ back) →
    ∃ token, cut front.length (front.length + middle.length) = .ok token ∧ R token middle

theorem tokens_run {limit reach : Nat} (below : FindsBelow limit reach indexOf str delimiter)
    (cuts : Cuts R cut str) (nonempty : delimiter ≠ []) (text front : List α)
    (split : str = front ++ text) (within : front.length ≤ reach) :
    ∃ ts, Gives (tokens (nextToken indexOf cut str.length delimiter.length) ·
        (some front.length)) ts ∧
      Forall₂ R ts (Tokens.tokens delimiter limit front.length text) := by
  have positive := length_pos_iff.mpr nonempty
  induction len : text.length using Nat.strong_induction_on generalizing text front with
  | _ n ih =>
    subst len
    have search := below.search front text split within
    have last (none : indexOf front.length = none) :
        ∃ ts, Gives (tokens (nextToken indexOf cut str.length delimiter.length) ·
          (some front.length)) ts ∧ Forall₂ R ts [text] := by
      obtain ⟨token, given, related⟩ := cuts front text [] (by rw [split, append_nil])
      rw [← length_append, ← split] at given
      exact ⟨_, (gives_last none given).mpr rfl, .cons related .nil⟩
    rcases cut_or_last nonempty text with avoids | ⟨before, after, rfl, avoids⟩
    · rw [(firstAt_eq_none_iff text nonempty).mpr avoids] at search
      rw [Tokens.tokens_last nonempty _ avoids]
      exact last search
    · rw [firstAt_of_avoids avoids, Option.map_some] at search
      rcases Nat.lt_or_ge (front.length + before.length) limit with near | far
      · rw [Option.filter_some, if_pos (decide_eq_true near)] at search
        have reached : front.length + before.length + delimiter.length ≤ reach := by
          have behind := below.reached (front ++ before) after (by rw [split, append_assoc])
          rw [length_append] at behind
          exact behind near
        by_cases empty : before = []
        · -- the same call goes on one character further
          subst empty
          rw [length_nil, Nat.add_zero] at near search reached
          obtain ⟨a, tail, cons⟩ := exists_cons_of_ne_nil
            (show [] ++ (delimiter ++ after) ≠ [] by simp [nonempty])
          have here : delimiter <+: a :: tail := cons ▸ prefix_append _ _
          rw [cons] at split ⊢
          obtain ⟨ts, given, related⟩ := ih tail.length (by simp [cons]) tail (front ++ [a])
            (by simp [split]) (by simp; omega) rfl
          rw [length_append, length_singleton] at given related
          rw [Tokens.tokens_skip nonempty _ a tail here near]
          exact ⟨ts, (gives_skip search (by simp [split])).mpr given, related⟩
        · obtain ⟨token, given, related⟩ := cuts front before _ split
          obtain ⟨ts, later, others⟩ := ih after.length (by simp; omega) after
            (front ++ (before ++ delimiter)) (by simp [split]) (by simp; omega) rfl
          simp only [length_append, ← Nat.add_assoc] at later others
          rw [Tokens.tokens_cut nonempty _ before after avoids empty near]
          have apart : front.length + before.length ≠ front.length := by simpa using empty
          exact ⟨_, (gives_cut search apart given).mpr ⟨ts, rfl, later⟩, .cons related others⟩
      · rw [Option.filter_some, if_neg (by simpa using far)] at search
        rw [Tokens.tokens_far nonempty _ before after avoids far]
        exact last search

theorem gives_tokens_iff {limit reach : Nat} (below : FindsBelow limit reach indexOf str delimiter)
    (cuts : Cuts (· = ·) cut str) (nonempty : delimiter ≠ []) (expected : List (List α)) :
    Gives (tokens (nextToken indexOf cut str.length delimiter.length) · (some 0)) expected ↔
      Tokens.tokens delimiter limit 0 str = expected := by
  obtain ⟨ts, given, related⟩ := tokens_run below cuts nonempty str [] rfl (Nat.zero_le _)
  rw [forall₂_eq_eq_eq] at related
  subst related
  constructor
  · exact given.unique
  · rintro rfl
    exact given

end Tokens

end Tokenizers

open Tokenizers

/-! ### The two searches -/

namespace CStrings

theorem nonzero_of_not_mem {chars : List UInt8} (terminated : (0 : UInt8) ∉ chars) :
    ∀ c ∈ chars, decide (c ≠ 0) = true :=
  fun _ mem => decide_eq_true (ne_of_mem_of_not_mem mem terminated)

theorem chars_isPrefix (text : List UInt8) : (ofChars text).chars <+: text :=
  takeWhile_prefix _

theorem not_mem_of_begins {front text : List UInt8} (begins : front <+: (ofChars text).chars) :
    (0 : UInt8) ∉ front :=
  fun member => (ofChars text).terminated (begins.subset member)

theorem chars_of_free {front : List UInt8} (free : (0 : UInt8) ∉ front) (text : List UInt8) :
    (ofChars (front ++ text)).chars = front ++ (ofChars text).chars :=
  takeWhile_append_of_pos (nonzero_of_not_mem free)

theorem chars_append {front text : List UInt8}
    (within : front.length ≤ (ofChars (front ++ text)).chars.length) :
    (ofChars (front ++ text)).chars = front ++ (ofChars text).chars := by
  have begins : front <+: (ofChars (front ++ text)).chars :=
    prefix_of_prefix_length_le (prefix_append _ _) (chars_isPrefix _) within
  exact chars_of_free (not_mem_of_begins begins) text

theorem indexOf_below (str : List UInt8) {delimiter : List UInt8} (ne : delimiter ≠ [])
    (terminated : (0 : UInt8) ∉ delimiter) :
    FindsBelow (ofChars str).chars.length (ofChars str).chars.length
      (indexOf str delimiter) str delimiter where
  search := by
    rintro front text rfl within
    have fst := firstAt_takeWhile (· ≠ 0) delimiter text ne (nonzero_of_not_mem terminated)
    rw [indexOf, chars_ofChars terminated, drop_left, chars_append within]
    split_ifs with atEnd
    · -- nothing is left to search
      have empty : text = [] := by
        rw [length_append] at atEnd
        exact length_eq_zero_iff.mp (by omega)
      rw [empty, firstAt, if_neg ne]
      rfl
    · rw [ofChars, fst]
      cases firstAt delimiter text with
      | none => rfl
      | some i => simp [Option.filter]
  reached := by
    rintro front after rfl hin
    rw [chars_append (Nat.le_of_lt hin), chars_of_free terminated]
    simp only [length_append]
    omega

theorem subString_cuts (str : List UInt8) : Cuts (· = ·) (subString str) str := by
  rintro front middle back rfl
  refine ⟨middle, ?_, rfl⟩
  simp [subString]

/-! ### A delimiter with a zero -/

/-- `strstr` finds what is in front of the delimiter's zero behind each piece but the last, and not
before. It looks no further than to the first zero. -/
def CutsAtZero (delimiter : List UInt8) : List (List UInt8) → Prop
  | [] => True
  | [piece] => piece ≠ [] ∧ ¬ (ofChars delimiter).chars <:+: (ofChars piece).chars
  | piece :: next :: rest =>
    (piece ≠ [] ∧ (0 : UInt8) ∉ piece ∧
      Avoids (ofChars delimiter).chars piece (ofChars delimiter).chars) ∧
    CutsAtZero delimiter (next :: rest)

section Zero

variable {str delimiter : List UInt8}

theorem chars_delimiter (zero : (0 : UInt8) ∈ delimiter) (after : List UInt8) :
    (ofChars (delimiter ++ after)).chars = (ofChars delimiter).chars := by
  induction delimiter with
  | nil => cases zero
  | cons c delimiter ih =>
    by_cases stop : c = 0
    · simp [ofChars, stop]
    · have later := ih ((mem_cons.mp zero).resolve_left (Ne.symm stop))
      have free : (0 : UInt8) ∉ [c] := by simpa using Ne.symm stop
      rw [← singleton_append, append_assoc, chars_of_free free, chars_of_free free, later]

theorem content_of_found {text before word rest : List UInt8} (some : word ≠ [])
    (found : (ofChars text).chars = before ++ (word ++ rest)) : text ≠ [] := by
  rintro rfl
  have none := prefix_nil.mp (chars_isPrefix [])
  rw [found, append_eq_nil_iff, append_eq_nil_iff] at none
  exact some none.2.1

theorem indexOf_from (front text : List UInt8) (content : text ≠ []) :
    indexOf (front ++ text) delimiter front.length =
      (firstAt (ofChars delimiter).chars (ofChars text).chars).map (front.length + ·) := by
  rw [indexOf, if_neg (by simpa using content), drop_left]

abbrev GivesFrom (str delimiter : List UInt8) (index : Nat) (ts : List (List UInt8)) : Prop :=
  Gives (tokens (StringTokenizer.nextToken str delimiter) · (some index)) ts

theorem givesFrom_last {front text : List UInt8} (split : str = front ++ text)
    (search : indexOf str delimiter front.length = none) (ts : List (List UInt8)) :
    GivesFrom str delimiter front.length ts ↔ ts = [text] :=
  gives_last search (by simp [subString, split])

theorem givesFrom_cut {front before rest : List UInt8} (split : str = front ++ (before ++ rest))
    (content : before ≠ []) (search : indexOf str delimiter front.length =
      some (front.length + before.length)) (ts : List (List UInt8)) :
    GivesFrom str delimiter front.length ts ↔ ∃ later, ts = before :: later ∧
      GivesFrom str delimiter (front.length + before.length + delimiter.length) later :=
  gives_cut search (by simpa using content) (by simp [subString, split])

theorem givesFrom_cases {front text : List UInt8} (split : str = front ++ text)
    (some : (ofChars delimiter).chars ≠ []) :
    (¬ (ofChars delimiter).chars <:+: (ofChars text).chars ∧
      ∀ ts, GivesFrom str delimiter front.length ts ↔ ts = [text]) ∨
    (∃ c rest, text = c :: rest ∧ c ≠ 0 ∧ (ofChars delimiter).chars <+: (ofChars text).chars ∧
      ∀ ts, GivesFrom str delimiter front.length ts ↔
        GivesFrom str delimiter (front ++ [c]).length ts) ∨
    ∃ before rest, (ofChars text).chars = before ++ ((ofChars delimiter).chars ++ rest) ∧
      before ≠ [] ∧ Avoids (ofChars delimiter).chars before ((ofChars delimiter).chars ++ rest) ∧
      ∀ ts, GivesFrom str delimiter front.length ts ↔ ∃ later, ts = before :: later ∧
        GivesFrom str delimiter (front.length + before.length + delimiter.length) later := by
  rcases cut_or_last some (ofChars text).chars with avoids | ⟨before, rest, found, avoids⟩
  · refine .inl ⟨not_infix_of_avoids some avoids, givesFrom_last split ?_⟩
    by_cases empty : text = []
    · simp [indexOf, split, empty]
    · rw [split, indexOf_from front text empty, (firstAt_eq_none_iff _ some).mpr avoids]
      rfl
  · have content := content_of_found some found
    have search : indexOf str delimiter front.length = .some (front.length + before.length) := by
      rw [split, indexOf_from front text content, found, firstAt_of_avoids avoids]
      rfl
    right
    by_cases empty : before = []
    · subst empty
      obtain ⟨c, tail, rfl⟩ := exists_cons_of_ne_nil content
      refine .inl ⟨c, tail, rfl, ?_, found ▸ prefix_append _ _, ?_⟩
      · rintro rfl
        have none : (ofChars (0 :: tail)).chars = [] := by simp [ofChars]
        rw [found, nil_append, append_eq_nil_iff] at none
        exact some none.1
      · intro ts
        rw [length_append, length_singleton]
        exact gives_skip search (by simp [split])
    · obtain ⟨back, whole⟩ : before <+: text :=
        (found ▸ prefix_append _ _ : before <+: (ofChars text).chars).trans (chars_isPrefix text)
      exact .inr ⟨before, rest, found, empty, avoids,
        givesFrom_cut (by rw [split, whole]) empty search⟩

section Ahead

variable (zero : (0 : UInt8) ∈ delimiter) (some : (ofChars delimiter).chars ≠ [])
include zero

theorem ne_filled_of_shorter (front text : List UInt8) (content : front ≠ [])
    (free : (0 : UInt8) ∉ front) : [text] ≠ filled delimiter (front ++ text) := by
  have nonempty := ne_nil_of_mem zero
  have positive := length_pos_iff.mpr content
  intro same
  rcases cut_or_last nonempty (front ++ text) with avoids | ⟨before, after, split, avoids⟩
  · rw [Tokens.filled_last nonempty avoids (by simp [content])] at same
    have lengths := congrArg length (head_eq_of_cons_eq same)
    rw [length_append] at lengths
    omega
  · rw [split] at same
    by_cases empty : before = []
    · subst empty
      rw [nil_append] at split same
      rw [Tokens.filled_skip nonempty] at same
      have member : text ∈ filled delimiter after := same ▸ mem_singleton_self _
      have shorter := (Tokens.piece_spec nonempty _ (mem_of_mem_filter member)).1
      have lengths := congrArg length split
      simp only [length_append] at lengths
      have begins : delimiter <+: front := prefix_of_prefix_length_le
        (split ▸ prefix_append _ _) (prefix_append front text) (by omega)
      exact free (begins.subset zero)
    · rw [Tokens.filled_cut nonempty before after avoids empty] at same
      obtain rfl := head_eq_of_cons_eq same
      -- the delimiter has a zero more than the front
      have zeros := congrArg (count 0) split
      have more := count_pos_iff.mpr zero
      simp only [count_append, count_eq_zero_of_not_mem free] at zeros
      omega

include some

theorem not_givesFrom_ahead (text front ahead : List UInt8) (split : str = front ++ text)
    (content : ahead ≠ []) (free : (0 : UInt8) ∉ ahead) :
    ¬ GivesFrom str delimiter front.length (filled delimiter (ahead ++ text)) := by
  have nonempty := ne_nil_of_mem zero
  induction len : text.length using Nat.strong_induction_on generalizing text front ahead with
  | _ n ih =>
    subst len
    intro given
    rcases givesFrom_cases split some with
      ⟨-, last⟩ | ⟨c, rest, rfl, nonzero, -, skip⟩ | ⟨token, rest, found, filled, -, cut⟩
    · exact ne_filled_of_shorter zero ahead text content free ((last _).mp given).symm
    · have later := (skip _).mp given
      rw [append_cons ahead c rest] at later
      exact ih rest.length (by simp) rest (front ++ [c]) (ahead ++ [c]) (by simp [split])
        (by simp) (by simp [free, Ne.symm nonzero]) rfl later
    · obtain ⟨others, same, -⟩ := (cut _).mp given
      have chars := chars_of_free free text
      have positive := length_pos_iff.mpr content
      rcases cut_or_last nonempty (ahead ++ text) with avoids | ⟨before, after, whole, avoids⟩
      · rw [Tokens.filled_last nonempty avoids (by simp [content])] at same
        have longer := congrArg length (head_eq_of_cons_eq same)
        have shorter := (chars_isPrefix text).length_le
        rw [found] at shorter
        simp only [length_append] at longer shorter
        omega
      · -- the zero of the delimiter stands behind what is found
        have early : (0 : UInt8) ∉ before ∧ before.length ≤ token.length := by
          by_cases empty : before = []
          · simp [empty]
          · rw [whole, Tokens.filled_cut nonempty before after avoids empty] at same
            obtain rfl := head_eq_of_cons_eq same
            exact ⟨not_mem_of_begins (found ▸ prefix_append _ _), Nat.le_refl _⟩
        rw [whole, chars_of_free early.1, chars_delimiter zero, found] at chars
        have lengths := congrArg length chars
        simp only [length_append] at lengths
        omega

theorem not_givesFrom_skip {c : UInt8} {rest front : List UInt8} (split : str = front ++ c :: rest)
    (nonzero : c ≠ 0) :
    ¬ GivesFrom str delimiter (front ++ [c]).length (filled delimiter (c :: rest)) :=
  not_givesFrom_ahead zero some rest (front ++ [c]) [c] (by simp [split]) (by simp)
    (by simp [Ne.symm nonzero])

theorem givesFrom_filled_iff (text front : List UInt8) (split : str = front ++ text) :
    GivesFrom str delimiter front.length (filled delimiter text) ↔
      CutsAtZero delimiter (pieces delimiter text) := by
  have nonempty := ne_nil_of_mem zero
  induction text using cut_induction nonempty generalizing front with
  | last text avoids =>
    rw [pieces_last nonempty text avoids, CutsAtZero]
    rcases givesFrom_cases split some with
      ⟨no, last⟩ | ⟨c, rest, rfl, nonzero, here, skip⟩ | ⟨token, rest, found, -, -, cut⟩
    · rw [last]
      by_cases empty : text = []
      · simp [empty, Tokens.filled_nil nonempty]
      · simp [Tokens.filled_last nonempty avoids empty, empty, no]
    · rw [skip]
      exact iff_of_false (not_givesFrom_skip zero some split nonzero)
        fun right => right.2 here.isInfix
    · apply iff_of_false
      · intro given
        obtain ⟨later, same, more⟩ := (cut _).mp given
        rw [Tokens.filled_last nonempty avoids (content_of_found some found)] at same
        exact more.ne_nil (tail_eq_of_cons_eq same).symm
      · exact fun right => right.2 ⟨token, rest, by rw [found, append_assoc]⟩
  | cut before after avoids ih =>
    obtain ⟨next, others, parts⟩ := exists_cons_of_ne_nil (pieces_ne_nil nonempty after)
    rw [pieces_cut nonempty before after avoids, parts, CutsAtZero, ← parts]
    by_cases good : before ≠ [] ∧ (0 : UInt8) ∉ before ∧
        Avoids (ofChars delimiter).chars before (ofChars delimiter).chars
    · obtain ⟨content, free, first⟩ := good
      have search : indexOf str delimiter front.length = .some (front.length + before.length) := by
        have found : firstAt (ofChars delimiter).chars
            (before ++ ((ofChars delimiter).chars ++ [])) = .some before.length :=
          firstAt_of_avoids (by rwa [append_nil])
        rw [append_nil] at found
        rw [split, indexOf_from front _ (by simp [content]), chars_of_free free,
          chars_delimiter zero, found]
        rfl
      have later := ih (front ++ (before ++ delimiter)) (by simp [split])
      simp only [length_append, ← Nat.add_assoc] at later
      rw [givesFrom_cut split content search,
        Tokens.filled_cut nonempty before after avoids content]
      simp [later, content, free, first]
    · refine iff_of_false ?_ fun right => good right.1
      intro given
      rcases givesFrom_cases split some with
        ⟨-, last⟩ | ⟨c, rest, eq, nonzero, -, skip⟩ | ⟨token, rest, found, filled, first, cut⟩
      · exact Tokens.occurrence_ne_filled nonempty ⟨before, after, append_assoc ..⟩
          ((last _).mp given).symm
      · rw [skip, eq] at given
        exact not_givesFrom_skip zero some (eq ▸ split) nonzero given
      · obtain ⟨later, same, -⟩ := (cut _).mp given
        by_cases empty : before = []
        · rw [empty, nil_append, chars_delimiter zero] at found
          have lengths := congrArg length found
          have positive := length_pos_iff.mpr filled
          simp only [length_append] at lengths
          omega
        · rw [Tokens.filled_cut nonempty before after avoids empty] at same
          obtain rfl := head_eq_of_cons_eq same
          have free : (0 : UInt8) ∉ before := not_mem_of_begins (found ▸ prefix_append _ _)
          rw [chars_of_free free, chars_delimiter zero, append_cancel_left_eq] at found
          rw [← found] at first
          exact good ⟨empty, free, first⟩

end Ahead

/-! Without anything in front of the zero every index is one of a delimiter. -/

theorem givesFrom_of_leading {ts : List (List UInt8)} (none : (ofChars delimiter).chars = [])
    (text front : List UInt8) (split : str = front ++ text)
    (given : GivesFrom str delimiter front.length ts) : ts = [[]] := by
  induction text generalizing front with
  | nil => exact (givesFrom_last split (by simp [indexOf, split]) ts).mp given
  | cons c text ih =>
    have search : indexOf str delimiter front.length = some front.length := by
      rw [split, indexOf_from front _ (cons_ne_nil _ _), none, firstAt_of_prefix nil_prefix]
      rfl
    apply ih (front ++ [c]) (by simp [split])
    rw [length_append, length_singleton]
    exact (gives_skip search (by simp [split])).mp given

theorem not_cutsAtZero_of_leading (none : (ofChars delimiter).chars = [])
    (parts : List (List UInt8)) (some : parts ≠ []) : ¬ CutsAtZero delimiter parts := by
  induction parts with
  | nil => contradiction
  | cons piece rest ih =>
    cases rest with
    | nil => exact fun right => right.2 (none ▸ nil_infix)
    | cons next rest => exact fun right => ih (cons_ne_nil _ _) right.2

theorem givesFrom_zero_iff (zero : (0 : UInt8) ∈ delimiter) :
    GivesFrom str delimiter 0 (filled delimiter str) ↔
      CutsAtZero delimiter (pieces delimiter str) := by
  by_cases none : (ofChars delimiter).chars = []
  · apply iff_of_false
    · intro given
      have same := givesFrom_of_leading none str [] rfl given
      have member : [] ∈ filled delimiter str := same ▸ mem_singleton_self _
      simp [filled] at member
    · exact not_cutsAtZero_of_leading none _ (pieces_ne_nil (ne_nil_of_mem zero) str)
  · exact givesFrom_filled_iff zero none str [] rfl

end Zero

end CStrings

namespace Units

theorem firstAt_short (str text : List UInt16) (short : text.length < str.length) :
    firstAt str text = none := by
  cases fst : firstAt str text with
  | none => rfl
  | some i =>
    obtain ⟨before, after, rfl, -⟩ := exists_of_firstAt str text i fst
    simp only [length_append] at short
    omega

theorem indexLoop_below {units str : List UInt16} (ne : str ≠ [])
    (fits : str.length ≤ units.length) (text front : List UInt16) (split : units = front ++ text) :
    indexLoop units str front.length =
      ((firstAt str text).map (front.length + ·)).filter (· < maxLoops) := by
  have pos := length_pos_iff.mpr ne
  have len : units.length = front.length + text.length := by rw [split, length_append]
  induction text generalizing front with
  | nil =>
    rw [length_nil] at len
    rw [indexLoop, if_neg (by omega), firstAt, if_neg ne]
    rfl
  | cons a text ih =>
    have rest : units.drop front.length = a :: text := by rw [split, drop_left]
    by_cases low : front.length < maxLoops
    · by_cases room : front.length ≤ units.length - str.length
      · rw [indexLoop, if_pos ⟨room, low⟩, rest]
        by_cases here : str <+: a :: text
        · rw [if_pos (prefix_iff_eq_take.mp here).symm, firstAt_of_prefix here]
          simp [Option.filter, low]
        · -- one unit further, and so is what is found
          have next := ih (front ++ [a]) (by simp [split]) (by simp [split]; omega)
          rw [length_append, length_singleton] at next
          rw [if_neg fun eq => here (prefix_iff_eq_take.mpr eq.symm), next, firstAt,
            if_neg here, Option.map_map]
          congr 2
          funext i
          simp only [Function.comp]
          omega
      · rw [indexLoop, if_neg (fun both => room both.1), firstAt_short str _ (by omega)]
        rfl
    · rw [indexLoop, if_neg (fun both => low both.2), eq_comm, Option.filter_eq_none_iff]
      intro found mem
      obtain ⟨i, -, rfl⟩ := Option.map_eq_some_iff.mp mem
      simp only [decide_eq_true_eq]
      omega

theorem indexOf_below {units str : List UInt16} (ne : str ≠ []) :
    FindsBelow maxLoops units.length (indexOf units str) units str := by
  refine ⟨?_, fun front after split _ => by simp [split]⟩
  intro front text split _
  have len : units.length = front.length + text.length := by rw [split, length_append]
  rw [indexOf]
  split_ifs with no
  · have short : text.length < str.length := by
      have pos := length_pos_iff.mpr ne
      rcases no with empty | atEnd | short
      · exact absurd (isEmpty_iff.mp empty) ne
      · omega
      · omega
    rw [firstAt_short str text short]
    rfl
  · exact indexLoop_below ne (by omega) text front split

/-! ### Copies -/

/-- A zero stands only at the end. -/
def Clean (units : List UInt16) : Prop := (0 : UInt16) ∉ units.dropLast

instance (units : List UInt16) : Decidable (Clean units) :=
  inferInstanceAs (Decidable ((0 : UInt16) ∉ units.dropLast))

theorem copied_ne_nil (fresh : Nat → UInt16) {units : List UInt16} (content : units ≠ []) :
    copied fresh units ≠ [] := by
  obtain ⟨unit, rest, rfl⟩ := exists_cons_of_ne_nil content
  exact cons_ne_nil _ _

theorem clean_cons (unit next : UInt16) (rest : List UInt16) :
    Clean (unit :: next :: rest) ↔ unit ≠ 0 ∧ Clean (next :: rest) := by
  simp [Clean, eq_comm]

theorem copied_of_clean (fresh : Nat → UInt16) {units : List UInt16} (clean : Clean units) :
    copied fresh units = units := by
  induction units with
  | nil => rfl
  | cons unit rest ih =>
    cases rest with
    | nil => simp [copied]
    | cons next rest =>
      obtain ⟨nonzero, clean⟩ := (clean_cons _ _ _).mp clean
      rw [copied, if_neg nonzero, ih clean]

theorem getLast?_copied (c : UInt16) (units : List UInt16)
    (last : Clean units → units.getLast? = some c) :
    (copied (fun _ => c) units).getLast? = some c := by
  induction units with
  | nil => exact absurd (last (by simp [Clean])) (by simp)
  | cons unit rest ih =>
    cases rest with
    | nil =>
      rw [copied_of_clean _ (by simp [Clean])]
      exact last (by simp [Clean])
    | cons next rest =>
      by_cases stop : unit = 0
      · simp [copied, stop, map_const', getLast?_cons, getLast?_replicate]
      · have later := ih fun clean => by
          simpa using last ((clean_cons _ _ _).mpr ⟨stop, clean⟩)
        rw [copied, if_neg stop, getLast?_cons, later]
        rfl

theorem clean_copied_iff (fresh : Nat → UInt16) (units : List UInt16) :
    Clean (copied fresh units) ↔ Clean units := by
  induction units with
  | nil => rfl
  | cons unit rest ih =>
    cases rest with
    | nil => simp [copied, Clean]
    | cons next rest =>
      by_cases stop : unit = 0
      · simp [copied, stop, Clean, range_succ_eq_map]
      · rw [clean_cons, ← ih, copied, if_neg stop, copied, clean_cons]

theorem Clean.of_infix {units part : List UInt16} (clean : Clean units) (inside : part <:+: units) :
    Clean part := by
  obtain ⟨front, back, rfl⟩ := inside
  intro member
  have content : part ≠ [] := by
    rintro rfl
    cases member
  apply clean
  by_cases end_ : back = []
  · rw [end_, append_nil, dropLast_append_of_ne_nil content]
    exact mem_append_right _ member
  · rw [dropLast_append_of_ne_nil end_]
    exact mem_append_left _ (mem_append_right _ (mem_of_mem_dropLast member))

def Copies (fresh : Nat → Nat → UInt16) (token units : List UInt16) : Prop :=
  ∃ index, token = copied (fresh (2 * index + 3)) (copied (fresh (2 * index + 2)) units)

theorem substr_copies (fresh : Nat → Nat → UInt16) (units : List UInt16) :
    Cuts (Copies fresh)
      (fun oindex index => (substr (fresh (2 * oindex + 2)) units oindex (index - oindex)).map
        (copied (fresh (2 * oindex + 3)))) units := by
  rintro front middle back rfl
  refine ⟨_, ?_, front.length, rfl⟩
  by_cases empty : middle = []
  · simp [substr, empty, copied, Except.map]
  · simp [substr, empty, Except.map]

theorem substr_cuts (fresh : Nat → Nat → UInt16) {units : List UInt16} (clean : Clean units) :
    Cuts (· = ·)
      (fun oindex index => (substr (fresh (2 * oindex + 2)) units oindex (index - oindex)).map
        (copied (fresh (2 * oindex + 3)))) units := by
  intro front middle back split
  obtain ⟨token, given, index, rfl⟩ := substr_copies fresh units front middle back split
  have part : Clean middle := clean.of_infix ⟨front, back, by rw [split, append_assoc]⟩
  refine ⟨_, given, ?_⟩
  rw [copied_of_clean _ part, copied_of_clean _ part]

end Units

/-! ### The two tokenizers -/

namespace StringTokenizer

theorem tokens_of_content {str : List UInt8} (content : str ≠ []) (delimiter : List UInt8) :
    tokens str delimiter = (Tokenizers.tokens (nextToken str delimiter) · (some 0)) := by
  funext calls
  simp [tokens, content]

theorem tokens_terminates (str : List UInt8) {delimiter : List UInt8} (nonempty : delimiter ≠ [])
    (terminated : (0 : UInt8) ∉ delimiter) : ∃ ts, Gives (tokens str delimiter) ts := by
  by_cases empty : str = []
  · subst empty
    exact ⟨[], gives_none.mpr rfl⟩
  · obtain ⟨ts, given, -⟩ := tokens_run (CStrings.indexOf_below str nonempty terminated)
      (CStrings.subString_cuts str) nonempty str [] rfl (Nat.zero_le _)
    rw [tokens_of_content empty]
    exact ⟨ts, given⟩

theorem gives_filled_iff (str delimiter : List UInt8) (nonempty : delimiter ≠ []) :
    Gives (tokens str delimiter) (filled delimiter str) ↔
      str = [] ∨ if 0 ∈ delimiter then CStrings.CutsAtZero delimiter (pieces delimiter str)
        else Splits delimiter (pieces delimiter str) ∧
          Below delimiter.length (CString.ofChars str).chars.length 0 (pieces delimiter str) := by
  by_cases empty : str = []
  · subst empty
    rw [Tokens.filled_nil nonempty]
    exact iff_of_true (gives_none.mpr rfl) (.inl rfl)
  · rw [or_iff_right empty, tokens_of_content empty]
    split_ifs with zero
    · exact CStrings.givesFrom_zero_iff zero
    · rw [← Tokens.tokens_eq_filled_iff nonempty]
      exact gives_tokens_iff (CStrings.indexOf_below str nonempty zero)
        (CStrings.subString_cuts str) nonempty _

end StringTokenizer

namespace UnicodeTokenizer

variable {fresh : Nat → Nat → UInt16} {text separator : List UInt16}

theorem tokens_of_content (fresh : Nat → Nat → UInt16) (content : text ≠ []) :
    tokens fresh text separator = (Tokenizers.tokens (nextToken fresh
      (Units.copied (fresh 0) text) (Units.copied (fresh 1) separator)) · (some 0)) := by
  funext calls
  simp [tokens, content]

theorem gives_copies (fresh : Nat → Nat → UInt16) (text : List UInt16)
    (nonempty : separator ≠ []) :
    ∃ ts, Gives (tokens fresh text separator) ts ∧ (text ≠ [] → Forall₂ (Units.Copies fresh) ts
      (Tokens.tokens (Units.copied (fresh 1) separator) 2048 0 (Units.copied (fresh 0) text))) := by
  by_cases empty : text = []
  · subst empty
    exact ⟨[], gives_none.mpr rfl, fun content => absurd rfl content⟩
  · have delimiter := Units.copied_ne_nil (fresh 1) nonempty
    obtain ⟨ts, given, related⟩ := tokens_run (Units.indexOf_below delimiter)
      (Units.substr_copies fresh (Units.copied (fresh 0) text)) delimiter _ [] rfl (Nat.zero_le _)
    rw [tokens_of_content fresh empty]
    exact ⟨ts, given, fun _ => related⟩

theorem gives_filled_iff_of_clean (fresh : Nat → Nat → UInt16) (content : text ≠ [])
    (clean : Units.Clean text) (nonempty : separator ≠ []) :
    Gives (tokens fresh text separator) (filled separator text) ↔
      Splits separator (pieces separator text) ∧
        Below separator.length 2048 0 (pieces separator text) := by
  have delimiter := Units.copied_ne_nil (fresh 1) nonempty
  rw [tokens_of_content fresh content, Units.copied_of_clean _ clean, nextToken,
    gives_tokens_iff (Units.indexOf_below delimiter) (Units.substr_cuts fresh clean) delimiter]
  by_cases whole : Units.Clean separator
  · rw [Units.copied_of_clean _ whole, ← Tokens.tokens_eq_filled_iff nonempty]
    rfl
  · -- neither the separator nor its copy occurs in the text
    have avoids (word : List UInt16) (unclean : ¬ Units.Clean word) : Avoids word text [] := by
      intro i _ occurs
      rw [append_nil] at occurs
      exact unclean (clean.of_infix (occurs.isInfix.trans (drop_suffix i text).isInfix))
    have last := avoids separator whole
    rw [Tokens.tokens_last delimiter _ (avoids _ (mt (Units.clean_copied_iff _ _).mp whole)),
      Tokens.filled_last nonempty last content, pieces_last nonempty text last]
    exact iff_of_true rfl ⟨content, trivial⟩

theorem forall₂_getLast? {α β : Type} {R : α → β → Prop} {as : List α} {bs : List β} {last : β}
    (related : Forall₂ R as bs) (isLast : bs.getLast? = some last) :
    ∃ a, as.getLast? = some a ∧ R a last := by
  induction related with
  | nil => cases isLast
  | cons here rest ih =>
    cases rest with
    | nil => exact ⟨_, rfl, Option.some.inj isLast ▸ here⟩
    | cons =>
      rw [getLast?_cons_cons] at isLast ⊢
      exact ih isLast

theorem getLast?_last (c : UInt16) (unclean : ¬ Units.Clean text) (nonempty : separator ≠ [])
    (right : Gives (tokens (fun _ _ => c) text separator) (filled separator text)) :
    ∃ token, (filled separator text).getLast? = some token ∧ token.getLast? = some c := by
  obtain ⟨ts, given, related⟩ := gives_copies (fun _ _ => c) text nonempty
  have content : text ≠ [] := by
    rintro rfl
    exact unclean (by simp [Units.Clean])
  have delimiter := Units.copied_ne_nil (fun _ => c) nonempty
  obtain rfl := right.unique given
  obtain ⟨last, isLast, back⟩ := Tokens.getLast?_tokens delimiter 0 2048
    (Units.copied (fun _ => c) text)
  obtain ⟨token, ends, index, rfl⟩ := forall₂_getLast? (related content) isLast
  refine ⟨_, ends, ?_⟩
  have member := mem_of_getLast? ends
  have filledLast : last ≠ [] := by
    rintro rfl
    simp [filled, Units.copied] at member
  apply Units.getLast?_copied
  intro _
  apply Units.getLast?_copied
  intro _
  obtain ⟨front, whole⟩ := back
  rw [← getLast?_append_of_ne_nil front filledLast, whole]
  exact Units.getLast?_copied c text fun clean => absurd clean unclean

end UnicodeTokenizer

def Units.longWord : List UInt16 := replicate 2048 97 ++ [32, 98]

end Engine3
