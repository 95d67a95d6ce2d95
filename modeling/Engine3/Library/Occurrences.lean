import Mathlib.Data.List.Infix

/-!
# Occurrences of a word

Where a word first occurs in a text, and the pieces between its occurrences, taken from left to
right without overlaps.
-/
namespace Occurrences

open List

variable {α : Type} [DecidableEq α]

/-! ### The first occurrence -/

def firstAt (word : List α) : List α → Option Nat
  | [] => if word = [] then some 0 else none
  | a :: text => if word <+: a :: text then some 0 else (firstAt word text).map (· + 1)

def Avoids (word front back : List α) : Prop :=
  ∀ i < front.length, ¬ word <+: (front ++ back).drop i

instance (word front back : List α) : Decidable (Avoids word front back) :=
  inferInstanceAs (Decidable (∀ i < front.length, ¬ word <+: (front ++ back).drop i))

omit [DecidableEq α] in
@[simp] theorem avoids_nil (word back : List α) : Avoids word [] back := by
  intro i hin
  cases hin

omit [DecidableEq α] in
theorem avoids_cons (word front back : List α) (a : α) :
    Avoids word (a :: front) back ↔ ¬ word <+: a :: (front ++ back) ∧ Avoids word front back := by
  constructor
  · intro avoids
    refine ⟨avoids 0 (Nat.succ_pos _), ?_⟩
    intro i hin
    exact avoids (i + 1) (Nat.succ_lt_succ hin)
  · rintro ⟨fst, others⟩ i hin
    cases i with
    | zero => exact fst
    | succ i => exact others i (Nat.lt_of_succ_lt_succ hin)

omit [DecidableEq α] in
theorem avoids_append (word front middle back : List α) :
    Avoids word (front ++ middle) back ↔
      Avoids word front (middle ++ back) ∧ Avoids word middle back := by
  induction front with
  | nil => simp
  | cons a front ih =>
    rw [cons_append, avoids_cons, avoids_cons, ih, append_assoc, and_assoc]

omit [DecidableEq α] in
theorem avoids_singleton (c : α) (front back : List α) : Avoids [c] front back ↔ c ∉ front := by
  induction front with
  | nil => simp
  | cons a front ih => simp [avoids_cons, cons_prefix_cons, ih]

variable {word text : List α}

omit [DecidableEq α] in
theorem avoids_of_longer {front back : List α} (avoids : Avoids word front back) :
    Avoids word front [] := by
  intro i hin occurs
  apply avoids i hin
  rw [append_nil] at occurs
  rw [drop_append_of_le_length (Nat.le_of_lt hin)]
  exact occurs.trans (prefix_append _ _)

theorem firstAt_eq_none_iff (text : List α) (ne : word ≠ []) :
    firstAt word text = none ↔ Avoids word text [] := by
  induction text with
  | nil => simp [firstAt, ne]
  | cons a text ih =>
    rw [avoids_cons, ← ih, firstAt, append_nil]
    split
    next here => simp [here]
    next elsewhere => simp [elsewhere]

theorem firstAt_of_prefix (here : word <+: text) :
    firstAt word text = some 0 := by
  cases text with
  | nil => simp [firstAt, prefix_nil.mp here]
  | cons a text => rw [firstAt, if_pos here]

theorem firstAt_of_avoids {before after : List α} (avoids : Avoids word before (word ++ after)) :
    firstAt word (before ++ (word ++ after)) = some before.length := by
  induction before with
  | nil => exact firstAt_of_prefix (prefix_append _ _)
  | cons a before ih =>
    obtain ⟨elsewhere, avoids⟩ := (avoids_cons _ _ _ _).mp avoids
    rw [cons_append, firstAt, if_neg elsewhere, ih avoids]
    rfl

theorem exists_of_firstAt (word text : List α) (i : Nat) (found : firstAt word text = some i) :
    ∃ before after, text = before ++ (word ++ after) ∧ before.length = i ∧
      Avoids word before (word ++ after) := by
  induction text generalizing i with
  | nil =>
    by_cases empty : word = []
    · rw [firstAt, if_pos empty] at found
      cases found
      exact ⟨[], [], by simp [empty], rfl, avoids_nil _ _⟩
    · rw [firstAt, if_neg empty] at found
      cases found
  | cons a text ih =>
    by_cases here : word <+: a :: text
    · rw [firstAt, if_pos here] at found
      cases found
      obtain ⟨after, split⟩ := here
      exact ⟨[], after, split.symm, rfl, avoids_nil _ _⟩
    · rw [firstAt, if_neg here] at found
      obtain ⟨j, later, rfl⟩ := Option.map_eq_some_iff.mp found
      obtain ⟨before, after, rfl, rfl, avoids⟩ := ih j later
      exact ⟨a :: before, after, rfl, rfl, (avoids_cons _ _ _ _).mpr ⟨here, avoids⟩⟩

theorem firstAt_takeWhile (p : α → Bool) (word text : List α) (ne : word ≠ [])
    (all : ∀ a ∈ word, p a) :
    firstAt word (text.takeWhile p) =
      (firstAt word text).filter (· < (text.takeWhile p).length) := by
  induction text with
  | nil => simp [firstAt, ne]
  | cons a text ih =>
    cases kind : p a with
    | false => simp [kind, firstAt, ne]
    | true =>
      have eq : word <+: a :: text.takeWhile p ↔ word <+: a :: text := by
        constructor
        · intro here
          exact here.trans ((prefix_cons_inj a).mpr <| takeWhile_prefix p)
        · rintro ⟨rest, here⟩
          rw [← takeWhile_cons_of_pos kind, ← here, takeWhile_append_of_pos all]
          exact prefix_append _ _
      rw [takeWhile_cons_of_pos kind, firstAt, firstAt, ih, length_cons]
      by_cases here : word <+: a :: text
      · rw [if_pos (eq.mpr here), if_pos here]
        rfl
      · rw [if_neg (mt eq.mp here), if_neg here]
        cases firstAt word text with
        | none => rfl
        | some i => simp [Option.filter]

omit [DecidableEq α] in
theorem not_infix_of_avoids (ne : word ≠ []) (avoids : Avoids word text []) :
    ¬ word <:+: text := by
  rintro ⟨before, after, rfl⟩
  have pos := length_pos_iff.mpr ne
  apply avoids before.length
  · simp only [length_append]
    omega
  · rw [append_nil, append_assoc, drop_left]
    exact prefix_append _ _

/-! ### A separator that shares nothing with the word -/

section Separator

variable {word separator : List α} (apart : ∀ a ∈ word, a ∉ separator)

include apart

omit [DecidableEq α] in
theorem avoids_separator (ne : word ≠ []) (back : List α) :
    Avoids word separator back := by
  intro i hin occurs
  obtain ⟨a, word, rfl⟩ := exists_cons_of_ne_nil ne
  rw [drop_append_of_le_length (Nat.le_of_lt hin),
    drop_eq_getElem_cons hin, cons_append, cons_prefix_cons] at occurs
  apply apart a mem_cons_self
  rw [occurs.1]
  exact getElem_mem hin

omit [DecidableEq α] in
theorem avoids_before_separator (some : separator ≠ []) {front back : List α} (rest : List α)
    (avoids : Avoids word front back) : Avoids word front (separator ++ rest) := by
  intro i hin occurs
  rw [drop_append_of_le_length (Nat.le_of_lt hin)] at occurs
  rcases Nat.lt_or_ge (front.drop i).length word.length with long | short
  · obtain ⟨reach, rfl⟩ := prefix_of_prefix_length_le
      (prefix_append (front.drop i) (separator ++ rest)) occurs (Nat.le_of_lt long)
    have into := (prefix_append_right_inj _).mp occurs
    have pos : reach ≠ [] := by
      rintro rfl
      simp at long
    -- so the word and the separator have the first element of the rest in common
    obtain ⟨a, reach, rfl⟩ := exists_cons_of_ne_nil pos
    obtain ⟨b, separator, rfl⟩ := exists_cons_of_ne_nil some
    rw [cons_append, cons_prefix_cons] at into
    exact apart a (by simp) (by simp [into.1])
  · apply avoids i hin
    rw [drop_append_of_le_length (Nat.le_of_lt hin)]
    exact (prefix_of_prefix_length_le occurs (prefix_append _ _) short).trans
      (prefix_append _ _)

end Separator

/-! ### The pieces -/

theorem rest_shorter {word text : List α} {i : Nat} (ne : word ≠ [])
    (found : firstAt word text = some i) :
    text.length - (i + word.length) < text.length := by
  obtain ⟨before, after, rfl, rfl, -⟩ := exists_of_firstAt word text i found
  have pos := length_pos_iff.mpr ne
  simp only [length_append]
  omega

def pieces (word text : List α) : List (List α) :=
  if empty : word = [] then [text]
  else
    match found : firstAt word text with
    | none => [text]
    | some i =>
      have := rest_shorter empty found
      text.take i :: pieces word (text.drop (i + word.length))
termination_by text.length

section Nonempty

variable {word : List α} (nonempty : word ≠ [])

include nonempty

theorem pieces_last (text : List α) (avoids : Avoids word text []) :
    pieces word text = [text] := by
  have none := (firstAt_eq_none_iff text nonempty).mpr avoids
  rw [pieces, dif_neg nonempty]
  split
  next => rfl
  next found =>
    rw [none] at found
    cases found

theorem pieces_cut (before after : List α) (avoids : Avoids word before (word ++ after)) :
    pieces word (before ++ (word ++ after)) = before :: pieces word after := by
  have fst := firstAt_of_avoids avoids
  rw [pieces, dif_neg nonempty]
  split
  next found =>
    rw [fst] at found
    cases found
  next i found =>
    rw [fst] at found
    cases found
    rw [take_left, ← drop_drop, drop_left, drop_left]

theorem cut_or_last (text : List α) :
    Avoids word text [] ∨ ∃ before after, text = before ++ (word ++ after) ∧
      Avoids word before (word ++ after) := by
  cases found : firstAt word text with
  | none => exact .inl ((firstAt_eq_none_iff text nonempty).mp found)
  | some i =>
    obtain ⟨before, after, split, -, avoids⟩ := exists_of_firstAt word text i found
    exact .inr ⟨before, after, split, avoids⟩

theorem cut_induction {motive : List α → Prop}
    (last : ∀ text, Avoids word text [] → motive text)
    (cut : ∀ before after, Avoids word before (word ++ after) → motive after →
      motive (before ++ (word ++ after))) (text : List α) : motive text := by
  have pos := length_pos_iff.mpr nonempty
  induction len : text.length using Nat.strong_induction_on generalizing text with
  | _ n ih =>
    rcases cut_or_last nonempty text with avoids | ⟨before, after, rfl, avoids⟩
    · exact last text avoids
    · apply cut before after avoids
      apply ih after.length _ after rfl
      simp only [length_append] at len
      omega

theorem pieces_ne_nil (text : List α) : pieces word text ≠ [] := by
  rcases cut_or_last nonempty text with avoids | ⟨before, after, rfl, avoids⟩
  · simp [pieces_last nonempty text avoids]
  · simp [pieces_cut nonempty before after avoids]

theorem intercalate_pieces (text : List α) : word.intercalate (pieces word text) = text := by
  induction text using cut_induction nonempty with
  | last text avoids => rw [pieces_last nonempty text avoids, intercalate_singleton]
  | cut before after avoids ih =>
    rw [pieces_cut nonempty before after avoids,
      intercalate_cons_of_ne_nil (pieces_ne_nil nonempty after), ih, append_assoc]

end Nonempty

end Occurrences
