import Engine3.Library.Occurrences

/-!
# Replacing a word

Replacing one occurrence after the other, in any order. Two occurrences of a word that has no proper
end in common with its beginning do not overlap, so replacing one leaves the other. The order then
does not matter: if some replacements lead to a text without the word, all do, and in as many steps.
-/
namespace Replacing

open Occurrences List

section Steps

variable {α : Type} {step : α → α → Prop}

def Steps (step : α → α → Prop) : Nat → α → α → Prop
  | 0, a, c => a = c
  | n + 1, a, c => ∃ b, step a b ∧ Steps step n b c

theorem Steps.of_first (diamond : ∀ a b c, step a b → step a c → b = c ∨ ∃ d, step b d ∧ step c d)
    {n : Nat} {a b c : α} (steps : Steps step n a c) (ended : ∀ d, ¬ step c d)
    (fst : step a b) : ∃ m, n = m + 1 ∧ Steps step m b c := by
  induction n generalizing a b with
  | zero =>
    subst steps
    exact absurd fst (ended b)
  | succ n ih =>
    obtain ⟨b', ne, rest⟩ := steps
    rcases diamond a b b' fst ne with rfl | ⟨d, join, join'⟩
    · exact ⟨n, rfl, rest⟩
    · obtain ⟨m, rfl, later⟩ := ih rest join'
      exact ⟨m + 1, rfl, d, join, later⟩

end Steps

/-! ### One occurrence -/

variable {α : Type} {word : List α}

def Replaced (word replacement text text' : List α) : Prop :=
  ∃ before after, text = before ++ (word ++ after) ∧ text' = before ++ (replacement ++ after)

/-- No proper end of the word is its beginning. -/
def Unbordered (word : List α) : Prop :=
  ∀ n, 0 < n → n < word.length → ¬ word.drop n <+: word

instance [DecidableEq α] (word : List α) : Decidable (Unbordered word) :=
  decidable_of_iff (∀ n < word.length, 0 < n → ¬ word.drop n <+: word)
    ⟨fun all n positive inside => all n inside positive,
      fun all n inside positive => all n positive inside⟩

theorem not_replaced {text : List α} (absent : ¬ word <:+: text) (replacement text' : List α) :
    ¬ Replaced word replacement text text' := by
  rintro ⟨before, after, rfl, -⟩
  exact absent ⟨before, after, append_assoc ..⟩

theorem Unbordered.behind (unbordered : Unbordered word) {gap after after' : List α}
    (content : gap ≠ []) (eq : word ++ after = gap ++ (word ++ after')) :
    ∃ middle, after = middle ++ (word ++ after') ∧ gap = word ++ middle := by
  rcases append_eq_append_iff.mp eq with ⟨middle, rfl, rest⟩ | ⟨overlap, start, rest⟩
  · exact ⟨middle, rest, rfl⟩
  · by_cases none : overlap = []
    · subst none
      rw [append_nil] at start
      exact ⟨[], rest.symm, by rw [start, append_nil]⟩
    · -- the end of the word would be its beginning
      have hin := length_pos_iff.mpr none
      have fst : overlap <+: word ++ after' := ⟨after, rest.symm⟩
      refine absurd ?_ (unbordered gap.length (length_pos_iff.mpr content) ?_)
      · rw [start, drop_left, ← start]
        exact prefix_of_prefix_length_le fst (prefix_append _ _) (by simp [start])
      · simp only [start, length_append]
        omega

theorem Unbordered.joined (unbordered : Unbordered word) (replacement before gap : List α)
    {after after' : List α} (eq : word ++ after = gap ++ (word ++ after')) :
    before ++ (replacement ++ after) = before ++ gap ++ (replacement ++ after') ∨
      ∃ both, Replaced word replacement (before ++ (replacement ++ after)) both ∧
        Replaced word replacement (before ++ gap ++ (replacement ++ after')) both := by
  by_cases none : gap = []
  · subst none
    rw [nil_append, append_cancel_left_eq] at eq
    exact .inl (by simp [eq])
  · obtain ⟨middle, rfl, rfl⟩ := unbordered.behind none eq
    refine .inr ⟨before ++ (replacement ++ (middle ++ (replacement ++ after'))), ?_, ?_⟩
    · exact ⟨before ++ (replacement ++ middle), after', by simp, by simp⟩
    · exact ⟨before, middle ++ (replacement ++ after'), by simp, by simp⟩

theorem Unbordered.diamond (unbordered : Unbordered word) (replacement text first second : List α)
    (left : Replaced word replacement text first) (right : Replaced word replacement text second) :
    first = second ∨ ∃ both, Replaced word replacement first both ∧
      Replaced word replacement second both := by
  obtain ⟨before, after, rfl, rfl⟩ := left
  obtain ⟨before', after', split, rfl⟩ := right
  rcases append_eq_append_iff.mp split with ⟨gap, rfl, eq⟩ | ⟨gap, rfl, eq⟩
  · exact unbordered.joined replacement before gap eq
  · rcases unbordered.joined replacement before' gap eq with equal | ⟨both, join, join'⟩
    · exact .inl equal.symm
    · exact .inr ⟨both, join', join⟩

/-! ### All occurrences -/

section Pass

variable [DecidableEq α] (nonempty : word ≠ []) (replacement : List α)

include nonempty

theorem steps_pass (text out : List α) :
    ∃ n, Steps (Replaced word replacement) n (out ++ text)
      (out ++ replacement.intercalate (pieces word text)) := by
  induction text using cut_induction nonempty generalizing out with
  | last text avoids =>
    refine ⟨0, ?_⟩
    rw [pieces_last nonempty text avoids, intercalate_singleton]
    rfl
  | cut before after avoids ih =>
    obtain ⟨n, steps⟩ := ih (out ++ (before ++ replacement))
    rw [pieces_cut nonempty before after avoids,
      intercalate_cons_of_ne_nil (pieces_ne_nil nonempty after)]
    refine ⟨n + 1, _, ⟨out ++ before, after, by simp, rfl⟩, ?_⟩
    simpa using steps

theorem intercalate_of_absent {text : List α} (absent : ¬ word <:+: text) :
    replacement.intercalate (pieces word text) = text := by
  rcases cut_or_last nonempty text with avoids | ⟨before, after, rfl, -⟩
  · rw [pieces_last nonempty text avoids, intercalate_singleton]
  · exact absurd ⟨before, after, append_assoc ..⟩ absent

theorem infix_of_occurs {text : List α} (occurs : word <:+: text) :
    replacement <:+: replacement.intercalate (pieces word text) := by
  rcases cut_or_last nonempty text with avoids | ⟨before, after, rfl, avoids⟩
  · exact absurd occurs (not_infix_of_avoids nonempty avoids)
  · rw [pieces_cut nonempty before after avoids,
      intercalate_cons_of_ne_nil (pieces_ne_nil nonempty after)]
    exact ⟨before, _, rfl⟩

end Pass

end Replacing
