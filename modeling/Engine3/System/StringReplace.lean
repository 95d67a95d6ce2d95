import Engine3.Library.Replacing
import Engine3.System.SchemaEvolution

/-!
# Replacing in strings

`String::replaceAll` looks for the pattern in the buffer it is changing, and always from the start.
So it finds what a replacement brought in, alone or together with what stands beside it, and with a
replacement that contains the pattern it does not end.

The pattern is a literal, for which `std::regex_search` finds the leftmost occurrence.
-/
namespace Engine3

open Occurrences Replacing List

namespace StringBuffer

def indexOf (regexString elementData : List UInt8) : Except Exception (Option (Nat × Nat)) :=
  if 0 ≥ elementData.length then .error (.arrayIndexOutOfBounds 0)
  else
    let regex := (CString.ofChars regexString).chars
    .ok ((firstAt regex elementData).map fun start => (start, start + regex.length))

def replace (start stop : Nat) (str elementData : List UInt8) : List UInt8 :=
  elementData.take start ++ (str ++ elementData.drop stop)

end StringBuffer

namespace CStrings

def replaceLoop (regex replacement : List UInt8) :
    Nat → List UInt8 → Except Exception (Option (List UInt8))
  | 0, _ => .ok none
  | rounds + 1, str =>
    match StringBuffer.indexOf regex str with
    | .error e => .error e
    | .ok none => .ok (some str)
    | .ok (some (start, stop)) =>
      let str := StringBuffer.replace start stop replacement str
      if str = replacement then .ok (some str) else replaceLoop regex replacement rounds str

def replaceAll (regex replacement : List UInt8) (rounds : Nat) (chars : List UInt8) :
    Except Exception (Option (List UInt8)) :=
  replaceLoop regex replacement rounds chars

/-! ### One round -/

theorem indexOf_literal {pattern : List UInt8} (terminated : (0 : UInt8) ∉ pattern)
    {str : List UInt8} (content : str ≠ []) :
    StringBuffer.indexOf pattern str =
      .ok ((firstAt pattern str).map fun start => (start, start + pattern.length)) := by
  have pos := length_pos_iff.mpr content
  rw [StringBuffer.indexOf, if_neg (by omega)]
  simp only [CString.chars_ofChars terminated]

theorem around_eq_iff (before middle after : List UInt8) :
    before ++ (middle ++ after) = middle ↔ before = [] ∧ after = [] := by
  constructor
  · intro eq
    have lengths := congrArg length eq
    simp only [length_append] at lengths
    exact ⟨length_eq_zero_iff.mp (by omega), length_eq_zero_iff.mp (by omega)⟩
  · rintro ⟨rfl, rfl⟩
    simp

theorem around_ne_nil {before after : List UInt8} (more : ¬ (before = [] ∧ after = []))
    (middle : List UInt8) : before ++ (middle ++ after) ≠ [] := by
  intro empty
  obtain ⟨front, back⟩ := append_eq_nil_iff.mp empty
  exact more ⟨front, (append_eq_nil_iff.mp back).2⟩

section Rounds

variable {pattern : List UInt8} (nonempty : pattern ≠ []) (terminated : (0 : UInt8) ∉ pattern)
  (replacement : List UInt8)

include nonempty terminated

theorem replaceLoop_last (rounds : Nat) {str : List UInt8} (content : str ≠ [])
    (avoids : Avoids pattern str []) :
    replaceLoop pattern replacement (rounds + 1) str = .ok (some str) := by
  have none := (firstAt_eq_none_iff str nonempty).mpr avoids
  rw [replaceLoop, indexOf_literal terminated content, none]
  rfl

theorem replaceLoop_cut (rounds : Nat) (before after : List UInt8)
    (avoids : Avoids pattern before (pattern ++ after)) :
    replaceLoop pattern replacement (rounds + 1) (before ++ (pattern ++ after)) =
      if before = [] ∧ after = [] then .ok (some replacement)
      else replaceLoop pattern replacement rounds (before ++ (replacement ++ after)) := by
  have fst := firstAt_of_avoids avoids
  have replaced : StringBuffer.replace before.length (before.length + pattern.length) replacement
      (before ++ (pattern ++ after)) = before ++ (replacement ++ after) := by
    rw [StringBuffer.replace, take_left, ← drop_drop, drop_left, drop_left]
  rw [replaceLoop, indexOf_literal terminated (by simp [nonempty]), fst]
  simp only [Option.map_some, replaced, around_eq_iff]
  split
  next whole => simp [whole]
  next => rfl

end Rounds

/-! ### What is returned -/

/-- The pass over the text replaces the occurrences one after the other. At none of its stages does
an occurrence begin in what it has already put out. -/
def Undisturbed (pattern replacement text : List UInt8) : Prop :=
  ∀ done rest, pieces pattern text = done ++ rest → rest ≠ [] →
    Avoids pattern (done.flatMap (· ++ replacement)) (pattern.intercalate rest)

section Returning

variable {pattern : List UInt8} (nonempty : pattern ≠ []) (terminated : (0 : UInt8) ∉ pattern)
  (replacement : List UInt8)

include nonempty terminated

theorem replaceLoop_pass (text out : List UInt8) (rounds : Nat) (content : out ++ text ≠ [])
    (undisturbed : ∀ done rest, pieces pattern text = done ++ rest → rest ≠ [] →
      Avoids pattern (out ++ done.flatMap (· ++ replacement)) (pattern.intercalate rest))
    (le : (pieces pattern text).length ≤ rounds) :
    replaceLoop pattern replacement rounds (out ++ text) =
      .ok (some (out ++ replacement.intercalate (pieces pattern text))) := by
  induction text using cut_induction nonempty generalizing out rounds with
  | last text avoids =>
    have split := pieces_last nonempty text avoids
    have before := undisturbed [] [text] split (by simp)
    rw [flatMap_nil, append_nil, intercalate_singleton] at before
    rw [split, length_singleton] at le
    obtain ⟨rounds, rfl⟩ := Nat.exists_eq_add_of_le' le
    have whole : Avoids pattern (out ++ text) [] :=
      (avoids_append _ _ _ _).mpr ⟨by rwa [append_nil], avoids⟩
    rw [replaceLoop_last nonempty terminated replacement rounds content whole, split,
      intercalate_singleton]
  | cut before after avoids ih =>
    have split := pieces_cut nonempty before after avoids
    have start := undisturbed [] _ rfl (pieces_ne_nil nonempty _)
    rw [flatMap_nil, append_nil, intercalate_pieces nonempty] at start
    rw [split, length_cons] at le
    obtain ⟨rounds, rfl⟩ := Nat.exists_eq_add_of_le' (Nat.le_trans (Nat.le_add_left 1 _) le)
    have front : Avoids pattern (out ++ before) (pattern ++ after) :=
      (avoids_append _ _ _ _).mpr ⟨start, avoids⟩
    have round := replaceLoop_cut nonempty terminated replacement rounds _ _ front
    rw [append_assoc] at round
    rw [round, split, intercalate_cons_of_ne_nil (pieces_ne_nil nonempty after)]
    split_ifs with whole
    · -- nothing is left around the replacement
      obtain ⟨ended, rfl⟩ := whole
      obtain ⟨rfl, rfl⟩ := append_eq_nil_iff.mp ended
      have none : pieces pattern [] = [[]] := pieces_last nonempty [] (avoids_nil _ _)
      rw [none, intercalate_singleton]
      simp
    · have later := ih (out ++ before ++ replacement) rounds ?_ ?_ (by omega)
      · rw [← append_assoc, later]
        simp
      · intro empty
        obtain ⟨front, none⟩ := append_eq_nil_iff.mp empty
        exact whole ⟨(append_eq_nil_iff.mp front).1, none⟩
      · intro done rest parts others
        have stage := undisturbed (before :: done) rest (by rw [split, parts, cons_append])
          others
        simpa using stage

theorem replaceLoop_forever (again : pattern <:+: replacement) (text : List UInt8)
    (occurs : pattern <:+: text) (more : text ≠ pattern) (rounds : Nat) :
    replaceLoop pattern replacement rounds text = .ok none := by
  induction rounds generalizing text with
  | zero => rfl
  | succ rounds ih =>
    rcases cut_or_last nonempty text with avoids | ⟨before, after, rfl, avoids⟩
    · exact absurd occurs (not_infix_of_avoids nonempty avoids)
    · rw [ne_eq, around_eq_iff] at more
      rw [replaceLoop_cut nonempty terminated replacement rounds before after avoids, if_neg more]
      apply ih
      · exact again.trans ⟨before, after, by rw [append_assoc]⟩
      · -- the text is not shorter than the replacement, nor that than the pattern
        intro eq
        have lengths := congrArg length eq
        have long := again.length_le
        simp only [length_append] at lengths
        exact more ⟨length_eq_zero_iff.mp (by omega), length_eq_zero_iff.mp (by omega)⟩

theorem replaceLoop_absent (absent : ¬ pattern <:+: replacement) (rounds : Nat)
    (text result : List UInt8) (content : text ≠ [])
    (ret : replaceLoop pattern replacement rounds text = .ok (some result)) :
    ¬ pattern <:+: result := by
  induction rounds generalizing text with
  | zero => cases ret
  | succ rounds ih =>
    rcases cut_or_last nonempty text with avoids | ⟨before, after, rfl, avoids⟩
    · rw [replaceLoop_last nonempty terminated replacement rounds content avoids] at ret
      cases ret
      exact not_infix_of_avoids nonempty avoids
    · rw [replaceLoop_cut nonempty terminated replacement rounds before after avoids] at ret
      split_ifs at ret with whole
      · cases ret
        exact absent
      · exact ih _ (around_ne_nil whole _) ret

theorem replaceLoop_steps (unbordered : Unbordered pattern) (absent : ¬ pattern <:+: replacement)
    (n : Nat) (text result : List UInt8) (content : text ≠ [])
    (steps : Steps (Replaced pattern replacement) n text result)
    (ended : ¬ pattern <:+: result) (rounds : Nat) (le : n < rounds) :
    replaceLoop pattern replacement rounds text = .ok (some result) := by
  induction rounds generalizing n text with
  | zero => cases le
  | succ rounds ih =>
    rcases cut_or_last nonempty text with avoids | ⟨before, after, rfl, avoids⟩
    · -- there is no step from here
      cases n with
      | zero =>
        subst steps
        exact replaceLoop_last nonempty terminated replacement rounds content avoids
      | succ n =>
        obtain ⟨_, fst, -⟩ := steps
        exact absurd fst (not_replaced (not_infix_of_avoids nonempty avoids) _ _)
    · obtain ⟨m, rfl, later⟩ := steps.of_first (unbordered.diamond replacement)
        (not_replaced ended replacement) ⟨before, after, rfl, rfl⟩
      rw [replaceLoop_cut nonempty terminated replacement rounds before after avoids]
      split_ifs with whole
      · -- the replacement is all there is, and the end
        rw [whole.1, whole.2, nil_append, append_nil] at later
        cases m with
        | zero =>
          cases later
          rfl
        | succ m =>
          obtain ⟨_, fst, -⟩ := later
          exact absurd fst (not_replaced absent _ _)
      · exact ih m _ (around_ne_nil whole _) later (Nat.lt_of_succ_lt_succ le)

end Returning

theorem undisturbed_of_apart {pattern replacement : List UInt8} (ne : pattern ≠ [])
    (content : replacement ≠ []) (apart : ∀ c ∈ pattern, c ∉ replacement) (text : List UInt8) :
    Undisturbed pattern replacement text := by
  induction text using cut_induction ne with
  | last text avoids =>
    intro done rest parts others
    rw [pieces_last ne text avoids, eq_comm, append_eq_singleton_iff] at parts
    rcases parts with ⟨rfl, -⟩ | ⟨-, none⟩
    · exact avoids_nil _ _
    · exact absurd none others
  | cut before after avoids ih =>
    intro done rest parts others
    rw [pieces_cut ne before after avoids] at parts
    cases done with
    | nil => exact avoids_nil _ _
    | cons first done =>
      obtain ⟨rfl, later⟩ := cons.inj parts
      rw [flatMap_cons, append_assoc, avoids_append, avoids_append, append_assoc]
      exact ⟨avoids_before_separator apart content _ avoids, avoids_separator apart ne _,
        ih done rest later others⟩

/-- The loop ends with this string. -/
def Returns (pattern replacement chars result : List UInt8) : Prop :=
  ∃ enough, ∀ rounds ≥ enough,
    replaceAll pattern replacement rounds chars = .ok (some result)

section Results

variable {pattern : List UInt8} (nonempty : pattern ≠ []) (terminated : (0 : UInt8) ∉ pattern)
  (replacement chars : List UInt8)

include nonempty terminated

theorem returns_whole : Returns pattern replacement pattern
    (replacement.intercalate (pieces pattern pattern)) := by
  have parts := pieces_cut nonempty [] [] (avoids_nil pattern (pattern ++ []))
  have none := pieces_last nonempty [] (avoids_nil pattern [])
  have round := replaceLoop_cut nonempty terminated replacement
  rw [nil_append, append_nil] at parts
  refine ⟨1, ?_⟩
  intro rounds le
  obtain ⟨rounds, rfl⟩ := Nat.exists_eq_add_of_le' le
  have whole := round rounds [] [] (avoids_nil _ _)
  rw [nil_append, append_nil, if_pos ⟨rfl, rfl⟩] at whole
  rw [replaceAll, whole, parts, none]
  simp [intercalate]

theorem returns_of_undisturbed (content : chars ≠ [])
    (undisturbed : Undisturbed pattern replacement chars) :
    Returns pattern replacement chars (replacement.intercalate (pieces pattern chars)) :=
  ⟨(pieces pattern chars).length, fun rounds le =>
    replaceLoop_pass nonempty terminated replacement chars [] rounds content undisturbed le⟩

theorem absent_of_returns
    (ret : Returns pattern replacement chars
      (replacement.intercalate (pieces pattern chars))) :
    chars = pattern ∨
      chars ≠ [] ∧ ¬ pattern <:+: replacement.intercalate (pieces pattern chars) := by
  obtain ⟨enough, ret⟩ := ret
  have last := ret (enough + 1) (Nat.le_succ _)
  have content : chars ≠ [] := by
    rintro rfl
    cases last
  by_cases eq : chars = pattern
  · exact .inl eq
  · refine .inr ⟨content, ?_⟩
    by_cases again : pattern <:+: replacement
    · by_cases occurs : pattern <:+: chars
      · have forever := replaceLoop_forever nonempty terminated replacement again chars occurs eq
        rw [replaceAll, forever] at last
        cases last
      · rwa [intercalate_of_absent nonempty replacement occurs]
    · exact replaceLoop_absent nonempty terminated replacement again _ chars _ content last

theorem returns_of_unbordered (unbordered : Unbordered pattern) (content : chars ≠ [])
    (absent : ¬ pattern <:+: replacement.intercalate (pieces pattern chars)) :
    Returns pattern replacement chars (replacement.intercalate (pieces pattern chars)) := by
  by_cases again : pattern <:+: replacement
  · -- then there was nothing to replace
    rcases cut_or_last nonempty chars with avoids | ⟨before, after, rfl, -⟩
    · rw [pieces_last nonempty chars avoids, intercalate_singleton]
      refine ⟨1, ?_⟩
      intro rounds le
      obtain ⟨rounds, rfl⟩ := Nat.exists_eq_add_of_le' le
      exact replaceLoop_last nonempty terminated replacement rounds content avoids
    · have occurs : pattern <:+: before ++ (pattern ++ after) :=
        ⟨before, after, append_assoc ..⟩
      exact absurd (again.trans (infix_of_occurs nonempty replacement occurs)) absent
  · obtain ⟨n, steps⟩ := steps_pass nonempty replacement chars []
    exact ⟨n + 1, fun rounds le => replaceLoop_steps nonempty terminated replacement unbordered
      again n chars _ content steps absent rounds le⟩

end Results

/-- Right if the pattern is all of the string, or no occurrence begins in what was put out. -/
theorem replaceAll_right (pattern replacement chars : List UInt8) (nonempty : pattern ≠ [])
    (terminated : (0 : UInt8) ∉ pattern) :
    (chars = pattern ∨ chars ≠ [] ∧ Undisturbed pattern replacement chars →
      Returns pattern replacement chars (replacement.intercalate (pieces pattern chars))) ∧
    (Returns pattern replacement chars (replacement.intercalate (pieces pattern chars)) →
      chars = pattern ∨
        chars ≠ [] ∧ ¬ pattern <:+: replacement.intercalate (pieces pattern chars)) ∧
    (Unbordered pattern →
      (Returns pattern replacement chars (replacement.intercalate (pieces pattern chars)) ↔
        chars = pattern ∨
          chars ≠ [] ∧ ¬ pattern <:+: replacement.intercalate (pieces pattern chars))) ∧
    (pattern <:+: replacement → pattern <:+: chars → chars ≠ pattern →
      ∀ rounds, replaceAll pattern replacement rounds chars = .ok none) := by
  have needed := absent_of_returns nonempty terminated replacement chars
  refine ⟨?_, needed, ?_, ?_⟩
  · rintro (rfl | ⟨content, undisturbed⟩)
    · exact returns_whole nonempty terminated replacement
    · exact returns_of_undisturbed nonempty terminated replacement chars content undisturbed
  · intro unbordered
    refine ⟨needed, ?_⟩
    rintro (rfl | ⟨content, absent⟩)
    · exact returns_whole nonempty terminated replacement
    · exact returns_of_unbordered nonempty terminated replacement chars unbordered content absent
  · intro again occurs more rounds
    exact replaceLoop_forever nonempty terminated replacement again chars occurs more rounds

theorem replaceAll_right_twice :
    Returns [97, 98] [120] [99, 97, 98, 97, 98] [99, 120, 120] ∧
      Returns [97, 97] [120] [97, 97, 97, 97] [120, 120] := by
  constructor
  · have res : [120].intercalate (pieces [97, 98] [99, 97, 98, 97, 98]) =
        ([99, 120, 120] : List UInt8) := by
      decide +kernel
    have right := (replaceAll_right [97, 98] [120] [99, 97, 98, 97, 98] (by simp)
      (by simp)).2.2.1 (by decide)
    rw [res] at right
    exact right.mpr (.inr ⟨by simp, by decide⟩)
  · have res : [120].intercalate (pieces [97, 97] [97, 97, 97, 97]) =
        ([120, 120] : List UInt8) := by
      decide +kernel
    rw [← res]
    exact (replaceAll_right [97, 97] [120] _ (by simp) (by simp)).1
      (.inr ⟨by simp, undisturbed_of_apart (by simp) (by simp) (by simp) _⟩)

theorem replaceAll_wrong :
    (∀ rounds, replaceAll [97] [97, 97] rounds [98, 97] = .ok none) ∧
      replaceAll [97, 98] [] 3 [97, 97, 98, 98] = .ok (some []) ∧
      ([] : List UInt8).intercalate (pieces [97, 98] [97, 97, 98, 98]) = [97, 98] := by
  refine ⟨?_, by decide, ?_⟩
  · exact replaceLoop_forever (by simp) (by simp) [97, 97] ⟨[], [97], rfl⟩ [98, 97]
      ⟨[98], [], rfl⟩ (by simp)
  · decide +kernel

end CStrings

end Engine3
