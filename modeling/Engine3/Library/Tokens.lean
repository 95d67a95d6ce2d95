import Engine3.Library.Occurrences

/-!
# Tokens between words

A scanner of a text gives what stands between the occurrences of a word. Where an occurrence stands
at its position it goes on one element behind it, not one word, and occurrences from a limit on are
not found. Its tokens are the pieces that are not empty exactly if the last piece is not empty and
behind each empty piece the scanner comes back to the beginning of a piece.
-/
namespace Tokens

open Occurrences List

variable {α : Type} [DecidableEq α] {word : List α} {limit : Nat}

def tokens (word : List α) (limit pos : Nat) (text : List α) : List (List α) :=
  if empty : word = [] then [text]
  else
    match found : firstAt word text with
    | none => [text]
    | some i =>
      have := rest_shorter empty found
      if limit ≤ pos + i then [text]
      else if i = 0 then tokens word limit (pos + 1) (text.drop 1)
      else text.take i :: tokens word limit (pos + i + word.length) (text.drop (i + word.length))
termination_by text.length
decreasing_by
  · simp only [List.length_drop]
    omega
  · simp only [List.length_drop]
    omega

def filled (word text : List α) : List (List α) :=
  (pieces word text).filter (· ≠ [])

def Uniform (word : List α) : Prop := ∃ a, ∀ b ∈ word, b = a

/-- The last piece is not empty. Behind an empty one stands another one, or one that begins with
the word but for one element, if all its elements are the same. -/
def Splits (word : List α) : List (List α) → Prop
  | [] => True
  | [piece] => piece ≠ []
  | piece :: next :: rest =>
    (piece = [] → next = [] ∨ Uniform word ∧ word.tail <+: next) ∧ Splits word (next :: rest)

/-- The words between the pieces begin below the limit. One behind an empty piece also ends
there. -/
def Below (width limit : Nat) : Nat → List (List α) → Prop
  | pos, piece :: next :: rest =>
    (if piece = [] then pos + width ≤ limit else pos + piece.length < limit) ∧
      Below width limit (pos + piece.length + width) (next :: rest)
  | _, _ => True

/-! ### One step of the scanner -/

section Steps

variable (nonempty : word ≠ [])

include nonempty

variable (pos : Nat)
include pos

theorem tokens_rest (text : List α) (far : ∀ i, firstAt word text = some i → limit ≤ pos + i) :
    tokens word limit pos text = [text] := by
  rw [tokens, dif_neg nonempty]
  split
  next => rfl
  next i found => rw [if_pos (far i found)]

variable {text : List α} {a : α}

theorem tokens_last (avoids : Avoids word text []) :
    tokens word limit pos text = [text] := by
  apply tokens_rest nonempty
  intro i found
  rw [(firstAt_eq_none_iff text nonempty).mpr avoids] at found
  cases found

variable (before after : List α)

theorem tokens_far (avoids : Avoids word before (word ++ after))
    (far : limit ≤ pos + before.length) :
    tokens word limit pos (before ++ (word ++ after)) = [before ++ (word ++ after)] := by
  apply tokens_rest nonempty
  intro i found
  rw [firstAt_of_avoids avoids] at found
  cases found
  exact far

theorem tokens_cut (avoids : Avoids word before (word ++ after)) (content : before ≠ [])
    (near : pos + before.length < limit) : tokens word limit pos (before ++ (word ++ after)) =
      before :: tokens word limit (pos + before.length + word.length) after := by
  have fst := firstAt_of_avoids avoids
  have hpos := length_pos_iff.mpr content
  rw [tokens, dif_neg nonempty]
  split
  next found =>
    rw [fst] at found
    cases found
  next i found =>
    rw [fst] at found
    cases found
    rw [if_neg (by omega), if_neg (by omega), take_left, ← drop_drop, drop_left,
      drop_left]

theorem tokens_skip (a : α) (text : List α) (here : word <+: a :: text) (near : pos < limit) :
    tokens word limit pos (a :: text) = tokens word limit (pos + 1) text := by
  have fst := firstAt_of_prefix here
  rw [tokens, dif_neg nonempty]
  split
  next found =>
    rw [fst] at found
    cases found
  next i found =>
    rw [fst] at found
    cases found
    rw [if_neg (by omega), if_pos rfl, drop_succ_cons, drop_zero]

theorem tokens_here_far (text : List α) (here : word <+: text) (far : limit ≤ pos) :
    tokens word limit pos text = [text] := by
  obtain ⟨after, rfl⟩ := here
  exact tokens_far nonempty pos [] after (avoids_nil _ _) far

theorem tokens_ne_nil (text : List α) : tokens word limit pos text ≠ [] := by
  fun_induction tokens word limit pos text with
  | case1 => contradiction
  | case2 => simp
  | case3 => simp
  | case4 _ _ _ _ _ _ ih => exact ih
  | case5 => simp

theorem getLast?_tokens (limit : Nat) (text : List α) :
    ∃ last, (tokens word limit pos text).getLast? = some last ∧ last <:+ text := by
  fun_induction tokens word limit pos text with
  | case1 => contradiction
  | case2 => exact ⟨_, rfl, suffix_rfl⟩
  | case3 => exact ⟨_, rfl, suffix_rfl⟩
  | case4 _ _ _ _ _ _ ih =>
    obtain ⟨last, isLast, back⟩ := ih
    exact ⟨last, isLast, back.trans (drop_suffix _ _)⟩
  | case5 _ _ _ _ _ _ _ _ ih =>
    obtain ⟨last, isLast, back⟩ := ih
    refine ⟨last, ?_, back.trans (drop_suffix _ _)⟩
    rw [getLast?_cons, isLast]
    rfl

omit pos

/-! ### The pieces -/

theorem filled_last (avoids : Avoids word text []) (content : text ≠ []) :
    filled word text = [text] := by
  simp [filled, pieces_last nonempty text avoids, content]

theorem filled_nil : filled word [] = [] := by
  rw [filled, pieces_last nonempty [] (avoids_nil _ _)]
  rfl

theorem filled_cut (avoids : Avoids word before (word ++ after)) (content : before ≠ []) :
    filled word (before ++ (word ++ after)) = before :: filled word after := by
  simp [filled, pieces_cut nonempty before after avoids, content]

theorem filled_skip : filled word (word ++ after) = filled word after := by
  have fst := pieces_cut nonempty [] after (avoids_nil _ _)
  rw [nil_append] at fst
  rw [filled, fst, filter_cons_of_neg (by simp)]
  rfl

theorem piece_spec :
    ∀ piece ∈ pieces word text, piece.length ≤ text.length ∧ ¬ word <:+: piece := by
  induction text using cut_induction nonempty with
  | last text avoids =>
    rw [pieces_last nonempty text avoids, forall_mem_singleton]
    exact ⟨Nat.le_refl _, not_infix_of_avoids nonempty avoids⟩
  | cut before after avoids ih =>
    rw [pieces_cut nonempty before after avoids, forall_mem_cons]
    constructor
    · refine ⟨by simp, ?_⟩
      exact not_infix_of_avoids nonempty (avoids_of_longer avoids)
    · intro piece mem
      obtain ⟨short, absent⟩ := ih piece mem
      refine ⟨?_, absent⟩
      simp only [length_append]
      omega

theorem longer_ne_filled (front text : List α) (content : front ≠ []) :
    [front ++ text] ≠ filled word text := by
  intro eq
  have mem : front ++ text ∈ filled word text := by
    rw [← eq]
    exact mem_singleton_self _
  have short := (piece_spec nonempty _ (mem_of_mem_filter mem)).1
  have hpos := length_pos_iff.mpr content
  rw [length_append] at short
  omega

theorem occurrence_ne_filled (occurs : word <:+: text) :
    [text] ≠ filled word text := by
  intro eq
  have mem : text ∈ filled word text := by
    rw [← eq]
    exact mem_singleton_self _
  exact (piece_spec nonempty _ (mem_of_mem_filter mem)).2 occurs

/-! ### A word of different elements -/

omit [DecidableEq α] nonempty in
theorem eq_of_shifted {front back : List α} (shifted : a :: front <+: front ++ back) :
    ∀ b ∈ front, b = a := by
  induction front generalizing a with
  | nil => simp
  | cons b front ih =>
    rw [cons_append, cons_prefix_cons] at shifted
    obtain ⟨rfl, shifted⟩ := shifted
    rw [forall_mem_cons]
    exact ⟨rfl, ih shifted⟩

omit [DecidableEq α] nonempty in
theorem uniform_of_twice (here : word <+: a :: text) (next : word <+: text) : Uniform word := by
  cases word with
  | nil => exact ⟨a, by simp⟩
  | cons b front =>
    rw [cons_prefix_cons] at here
    obtain ⟨rfl, back, rfl⟩ := here
    refine ⟨b, ?_⟩
    rw [forall_mem_cons]
    exact ⟨rfl, eq_of_shifted next⟩

theorem tokens_cases (limit pos : Nat) (text : List α) (elsewhere : ¬ word <+: text) :
    tokens word limit pos text = [text] ∨ ∃ before after, text = before ++ (word ++ after) ∧
      before ≠ [] ∧ tokens word limit pos text =
        before :: tokens word limit (pos + before.length + word.length) after := by
  rcases cut_or_last nonempty text with avoids | ⟨before, after, rfl, avoids⟩
  · exact .inl (tokens_last nonempty pos avoids)
  · have content : before ≠ [] := by
      rintro rfl
      exact elsewhere (prefix_append _ _)
    rcases Nat.lt_or_ge (pos + before.length) limit with near | far
    · exact .inr ⟨before, after, rfl, content,
        tokens_cut nonempty pos before after avoids content near⟩
    · exact .inl (tokens_far nonempty pos before after avoids far)

omit [DecidableEq α] nonempty in
theorem behind_again {gap token after later : List α}
    (avoids : Avoids word token (word ++ after)) (content : token ≠ []) (behind : gap ≠ [])
    (split : gap ++ (token ++ (word ++ after)) = token ++ (word ++ later)) :
    ∃ gap', later = gap' ++ after ∧ 1 < gap'.length := by
  have lengths := congrArg length split
  simp only [length_append] at lengths
  have hpos := length_pos_iff.mpr behind
  have filled := length_pos_iff.mpr content
  have short : token.length < gap.length := by
    by_contra long
    have occurs := congrArg (drop token.length) split
    rw [drop_left, drop_append, drop_of_length_le (by omega),
      nil_append] at occurs
    apply avoids (token.length - gap.length) (by omega)
    rw [occurs]
    exact prefix_append _ _
  have fst : after <:+ token ++ (word ++ later) := by
    rw [← split]
    exact ⟨gap ++ (token ++ word), by simp⟩
  have snd : later <:+ token ++ (word ++ later) := ⟨token ++ word, by simp⟩
  obtain ⟨gap', rfl⟩ := suffix_of_suffix_length_le fst snd (by omega)
  rw [length_append] at lengths
  exact ⟨gap', rfl, by omega⟩

theorem tokens_ne_of_behind (mixed : ¬ Uniform word) (limit : Nat) (text : List α) (pos : Nat)
    (gap : List α) (behind : gap ≠ []) (elsewhere : ¬ word <+: gap ++ text) :
    tokens word limit pos (gap ++ text) ≠ filled word text := by
  induction text using cut_induction nonempty generalizing pos gap with
  | last text avoids =>
    rcases tokens_cases nonempty limit pos _ elsewhere with rest | ⟨token, later, -, -, first⟩
    · rw [rest]
      exact longer_ne_filled nonempty gap text behind
    · -- a second token follows, but there is no second piece
      rw [first]
      intro same
      by_cases empty : text = []
      · rw [empty, filled_nil nonempty] at same
        cases same
      · rw [filled_last nonempty avoids empty] at same
        injection same with _ none
        exact tokens_ne_nil nonempty _ _ none
  | cut before after avoids ih =>
    by_cases empty : before = []
    · -- the piece is empty, and the scanner is one more word behind
      subst empty
      rw [nil_append] at elsewhere ⊢
      rw [← append_assoc] at elsewhere ⊢
      rw [filled_skip nonempty]
      exact ih pos (gap ++ word) (by simp [behind]) elsewhere
    · rw [filled_cut nonempty before after avoids empty]
      rcases tokens_cases nonempty limit pos _ elsewhere with
        rest | ⟨token, later, split, -, first⟩
      · rw [rest, ← filled_cut nonempty before after avoids empty]
        exact longer_ne_filled nonempty gap _ behind
      · rw [first]
        intro same
        injection same with token_eq same
        subst token_eq
        obtain ⟨gap', rfl, wide⟩ := behind_again avoids empty behind split
        -- the token is not empty, so the gap is still there after one skipped element
        by_cases here : word <+: gap' ++ after
        · rcases Nat.lt_or_ge (pos + token.length + word.length) limit with near | far
          · obtain ⟨a, gap', rfl⟩ := exists_cons_of_length_pos (Nat.lt_of_succ_lt wide)
            rw [cons_append] at here same
            rw [tokens_skip nonempty _ a _ here near] at same
            have left : gap' ≠ [] := length_pos_iff.mp (Nat.lt_of_succ_lt_succ wide)
            exact ih _ gap' left (fun again => mixed (uniform_of_twice here again)) same
          · rw [tokens_here_far nonempty _ _ here far] at same
            exact longer_ne_filled nonempty gap' after (length_pos_iff.mp (by omega)) same
        · exact ih _ gap' (length_pos_iff.mp (by omega)) here same

end Steps

/-! ### A word of one element -/

section Replicated

omit [DecidableEq α] in
theorem replicate_prefix_append {a : α} {m : Nat} (n : Nat) {text : List α}
    (here : replicate m a <+: text) : replicate m a <+: replicate n a ++ text := by
  obtain ⟨rest, rfl⟩ := here
  refine ⟨replicate n a ++ rest, ?_⟩
  rw [← append_assoc, ← append_assoc, replicate_append_replicate,
    replicate_append_replicate, Nat.add_comm]

variable (a : α) (n : Nat)

theorem tokens_ne_of_few (limit pos m : Nat) (text : List α)
    (elsewhere : ¬ replicate (n + 1) a <+: replicate (m + 1) a ++ text) :
    tokens (replicate (n + 1) a) limit pos (replicate (m + 1) a ++ text) ≠
      filled (replicate (n + 1) a) text := by
  have nonempty : replicate (n + 1) a ≠ [] := by simp
  have front : replicate (m + 1) a ≠ [] := by simp
  have avoids : Avoids (replicate (n + 1) a) (replicate (m + 1) a) text := by
    intro i inside occurs
    rw [length_replicate] at inside
    rw [drop_append_of_le_length (by simp; omega), drop_replicate] at occurs
    have longer := replicate_prefix_append i occurs
    rw [← append_assoc, replicate_append_replicate,
      Nat.add_sub_cancel' (Nat.le_of_lt inside)] at longer
    exact elsewhere longer
  rcases cut_or_last nonempty text with last | ⟨before, after, rfl, cut⟩
  · have whole := (avoids_append _ (replicate (m + 1) a) text []).mpr
      ⟨by rwa [append_nil], last⟩
    rw [tokens_last nonempty pos whole]
    exact longer_ne_filled nonempty _ text front
  · have whole := (avoids_append _ _ before _).mpr ⟨avoids, cut⟩
    have content : before ≠ [] := by
      rintro rfl
      exact elsewhere (replicate_prefix_append _ (prefix_append _ _))
    rcases Nat.lt_or_ge (pos + (replicate (m + 1) a ++ before).length) limit with near | far
    · -- the token is longer than the piece
      rw [← append_assoc, tokens_cut nonempty pos _ after whole (by simp) near,
        filled_cut nonempty before after cut content]
      intro same
      injection same with longer
      simpa using congrArg length longer
    · rw [← append_assoc, tokens_far nonempty pos _ after whole far, append_assoc]
      exact longer_ne_filled nonempty _ _ front

theorem tokens_replicate_step (limit pos m : Nat) (text : List α) :
    tokens (List.replicate (n + 1) a) limit pos (List.replicate (m + 1) a ++ text) =
        filled (List.replicate (n + 1) a) text ↔
      List.replicate (n + 1) a <+: List.replicate (m + 1) a ++ text ∧ pos < limit ∧
        tokens (List.replicate (n + 1) a) limit (pos + 1) (List.replicate m a ++ text) =
          filled (List.replicate (n + 1) a) text := by
  have nonempty : List.replicate (n + 1) a ≠ [] := by simp
  by_cases here : List.replicate (n + 1) a <+: List.replicate (m + 1) a ++ text
  · rcases Nat.lt_or_ge pos limit with near | far
    · have next := tokens_skip nonempty pos a (List.replicate m a ++ text) here near
      rw [and_iff_right here, and_iff_right near, ← next]
      rfl
    · rw [tokens_here_far nonempty pos _ here far]
      apply iff_of_false
      · exact longer_ne_filled nonempty _ text (by simp)
      · intro right
        omega
  · apply iff_of_false
    · exact tokens_ne_of_few a n limit pos m text here
    · exact fun right => here right.1

theorem tokens_replicate (limit pos m : Nat) (text : List α) :
    tokens (replicate (n + 1) a) limit pos (replicate (m + 1) a ++ text) =
        filled (replicate (n + 1) a) text ↔
      replicate n a <+: text ∧ pos + (m + 1) ≤ limit ∧
        tokens (replicate (n + 1) a) limit (pos + (m + 1)) text =
          filled (replicate (n + 1) a) text := by
  have one : replicate (n + 1) a <+: replicate 1 a ++ text ↔
      replicate n a <+: text := by
    rw [replicate_succ, replicate_one, singleton_append, cons_prefix_cons]
    exact and_iff_right rfl
  induction m generalizing pos with
  | zero =>
    rw [tokens_replicate_step, one]
    rfl
  | succ m ih =>
    have later := ih (pos + 1)
    rw [Nat.add_assoc, Nat.add_comm 1] at later
    rw [tokens_replicate_step]
    constructor
    · rintro ⟨-, -, right⟩
      exact later.mp right
    · intro right
      have begins := right.1
      have near := right.2.1
      have here := replicate_prefix_append (m + 1) (one.mpr begins)
      rw [← append_assoc, replicate_append_replicate] at here
      exact ⟨here, by omega, later.mpr right⟩

theorem replicate_prefix_piece (text next : List α) (rest : List (List α))
    (parts : pieces (List.replicate (n + 1) a) text = next :: rest)
    (right : Splits (List.replicate (n + 1) a) (next :: rest)) :
    List.replicate n a <+: text ↔ next = [] ∨ List.replicate n a <+: next := by
  have nonempty : List.replicate (n + 1) a ≠ [] := by simp
  rcases cut_or_last nonempty text with last | ⟨before, after, rfl, cut⟩
  · rw [pieces_last nonempty text last] at parts
    cases parts
    exact (or_iff_right right).symm
  · rw [pieces_cut nonempty before after cut] at parts
    cases parts
    constructor
    · intro begins
      by_cases empty : next = []
      · exact .inl empty
      · right
        -- a shorter piece would be of the same elements, so the word would stand in its place
        apply prefix_of_prefix_length_le begins (prefix_append _ _)
        by_contra short
        have same : next = List.replicate next.length a := by
          have inside := prefix_of_prefix_length_le (prefix_append next _) begins
            (by omega)
          exact eq_replicate_of_mem fun b member =>
            eq_of_mem_replicate (inside.subset member)
        apply cut 0 (length_pos_iff.mpr empty)
        rw [drop_zero, same]
        exact replicate_prefix_append _ (prefix_append _ _)
    · rintro (rfl | begins)
      · exact ⟨a :: after, by simp [replicate_succ']⟩
      · exact begins.trans (prefix_append _ _)

end Replicated

/-! ### All tokens -/

section All

omit [DecidableEq α] in
theorem not_splits_of_empty (mixed : ¬ Uniform word) (rest : List (List α)) :
    ¬ Splits word ([] :: rest) := by
  induction rest with
  | nil => exact fun right => right rfl
  | cons next rest ih =>
    rintro ⟨empty, right⟩
    rcases empty rfl with rfl | ⟨uniform, -⟩
    · exact ih right
    · exact mixed uniform

variable (nonempty : word ≠ [])

include nonempty

theorem tokens_word_iff (limit pos : Nat) (text next : List α) (rest : List (List α))
    (parts : pieces word text = next :: rest)
    (later : tokens word limit (pos + word.length) text = filled word text ↔
      Splits word (next :: rest) ∧ Below word.length limit (pos + word.length) (next :: rest)) :
    tokens word limit pos (word ++ text) = filled word text ↔
      Splits word ([] :: next :: rest) ∧ Below word.length limit pos ([] :: next :: rest) := by
  by_cases uniform : Uniform word
  · obtain ⟨a, eq⟩ := uniform
    obtain ⟨n, len⟩ := Nat.exists_eq_add_of_le' (length_pos_iff.mpr nonempty)
    obtain rfl : word = replicate (n + 1) a := len ▸ eq_replicate_of_mem eq
    have uniform : Uniform (replicate (n + 1) a) := ⟨a, eq⟩
    have fst := replicate_prefix_piece a n text next rest parts
    rw [length_replicate] at later ⊢
    rw [tokens_replicate, later, Splits, Below, tail_replicate, if_pos rfl]
    constructor
    · rintro ⟨begins, near, right, below⟩
      exact ⟨⟨fun _ => ((fst right).mp begins).imp_right (⟨uniform, ·⟩), right⟩, near, below⟩
    · rintro ⟨⟨begins, right⟩, near, below⟩
      exact ⟨(fst right).mpr ((begins rfl).imp_right (·.2)), near, right, below⟩
  · apply iff_of_false
    · obtain ⟨a, tail, rfl⟩ := exists_cons_of_ne_nil nonempty
      have here : a :: tail <+: a :: (tail ++ text) := prefix_append (a :: tail) text
      rcases Nat.lt_or_ge pos limit with near | far
      · -- one element further, the rest of the word is in front of the next piece
        have behind : tail ≠ [] := by
          rintro rfl
          exact uniform ⟨a, by simp⟩
        rw [cons_append, tokens_skip nonempty pos a _ here near]
        exact tokens_ne_of_behind nonempty uniform limit text (pos + 1) tail behind
          fun again => uniform (uniform_of_twice here again)
      · rw [tokens_here_far nonempty pos _ (prefix_append _ _) far]
        exact longer_ne_filled nonempty _ text nonempty
    · exact fun right => not_splits_of_empty uniform _ right.1

theorem tokens_eq_filled_iff (limit pos : Nat) (text : List α) :
    tokens word limit pos text = filled word text ↔
      Splits word (pieces word text) ∧ Below word.length limit pos (pieces word text) := by
  induction text using cut_induction nonempty generalizing pos with
  | last text avoids =>
    rw [tokens_last nonempty pos avoids, pieces_last nonempty text avoids, Splits]
    by_cases empty : text = []
    · simp [empty, filled_nil nonempty]
    · simp [empty, filled_last nonempty avoids, Below]
  | cut before after avoids ih =>
    obtain ⟨next, rest, parts⟩ := exists_cons_of_ne_nil (pieces_ne_nil nonempty after)
    rw [pieces_cut nonempty before after avoids, parts]
    simp only [parts] at ih
    by_cases empty : before = []
    · subst empty
      rw [nil_append, filled_skip nonempty]
      exact tokens_word_iff nonempty limit pos after next rest parts (ih _)
    · rw [Splits, Below, if_neg empty]
      rcases Nat.lt_or_ge (pos + before.length) limit with near | far
      · rw [tokens_cut nonempty pos before after avoids empty near,
          filled_cut nonempty before after avoids empty, cons_inj_right, ih]
        simp [empty, near]
      · rw [tokens_far nonempty pos before after avoids far]
        apply iff_of_false
        · exact occurrence_ne_filled nonempty ⟨before, after, append_assoc ..⟩
        · rintro ⟨-, near, -⟩
          omega

end All

end Tokens
