import Engine3.Util.IffVisits

/-!
# The cursor of an IFF stream after a failed open

`openForm` and `openChunk` move on to the next chunk of the level before they look at it, and before
they know that there is one. A call that fails has skipped one place, and nothing else: the chunk
that was refused is met again after `skipChunks(-1)`.
-/
namespace Engine3

open Exec

namespace IffStream

theorem skipChunks_children (num : Int) (s : IffStream) :
    (s.skipChunks num).children = s.children := by
  unfold children
  rw [skipChunks_openedChunk]
  cases opened : s.openedChunk with
  | none => exact skipChunks_mainChunks num s
  | some c => simp [skipChunks_chunks, opened]

theorem skipChunks_lastOpened (num : Int) (s : IffStream) :
    (s.skipChunks num).lastOpened = s.lastOpened + num := by
  unfold lastOpened
  rw [skipChunks_openedChunk]
  cases opened : s.openedChunk with
  | none =>
    rw [skipChunks]
    simp [opened]
  | some c => simp [skipChunks_chunks, opened]

theorem skipChunks_back (num : Int) (s : IffStream) :
    (s.skipChunks num).skipChunks (-num) = s := by
  rw [skipChunks, skipChunks_openedChunk, skipChunks]
  cases opened : s.openedChunk with
  | none => simp [← opened]
  | some c => simp [setChunk]

/-! ### Calls that open a chunk -/

inductive Opening
  | form (formType : UInt32)
  | chunk (id : UInt32)

def Opening.run : Opening → IffM (Option Nat)
  | form formType => openForm formType
  | chunk id => openChunk id

/-- The type is the one that is asked for. -/
def Opening.Accepts : Opening → Chunk → Prop
  | form formType, next => next.isFORM = true ∧ next.formType = formType
  | chunk id, next => id = 0 ∨ next.chunkID = id

def following (s : IffStream) : Option Nat :=
  if s.lastOpened + 1 < 0 then none else s.children[(s.lastOpened + 1).toNat]?

variable {s : IffStream} {c : Nat} {opening : Opening}

theorem getNextChunk_none (none : s.following = none) :
    getNextChunk s = .error (.arrayIndexOutOfBounds (s.lastOpened + 1)) (s.skipChunks 1) := by
  refine (bind_of_ok (m := modify _) rfl).trans (get_bind.trans ?_)
  rw [following] at none
  simp only [elementAt, skipChunks_children, skipChunks_lastOpened, none]

theorem getNextChunk_some (found : s.following = some c) :
    getNextChunk s = .ok c (s.skipChunks 1) := by
  refine (bind_of_ok (m := modify _) rfl).trans (get_bind.trans ?_)
  rw [following] at found
  simp only [elementAt, skipChunks_children, skipChunks_lastOpened, found]

theorem accepts_skipChunks (opening : Opening) (num : Int) (s : IffStream) (c : Nat) :
    opening.Accepts ((s.skipChunks num).chunks c) ↔ opening.Accepts (s.chunks c) := by
  rw [skipChunks_chunks]
  split
  · cases opening <;> exact Iff.rfl
  · exact Iff.rfl

theorem run_none (opening : Opening) (none : s.following = none) :
    opening.run s = .error (.arrayIndexOutOfBounds (s.lastOpened + 1)) (s.skipChunks 1) := by
  cases opening with
  | form formType => exact bind_of_error (getNextChunk_none none)
  | chunk id => exact bind_of_error (getNextChunk_none none)

theorem run_accepted (found : s.following = some c) (acc : opening.Accepts (s.chunks c)) :
    opening.run s = .ok (some c) (s.entered c) := by
  have moved := (accepts_skipChunks opening 1 s c).mpr acc
  cases opening with
  | form formType =>
    obtain ⟨isForm, type⟩ := moved
    exact (bind_of_ok (getNextChunk_some found)).trans (get_bind.trans
      ((ite_run_neg (by simp [isForm])).trans ((ite_run_neg (by simp [type])).trans
        (bind_of_ok (m := set _) rfl))))
  | chunk id =>
    have matching : ¬ (id ≠ 0 ∧ ((s.skipChunks 1).chunks c).chunkID ≠ id) := by
      rintro ⟨notZero, ne⟩
      exact moved.elim notZero ne
    exact (bind_of_ok (getNextChunk_some found)).trans (get_bind.trans
      ((ite_run_neg matching).trans (bind_of_ok (m := set _) rfl)))

theorem run_refused (found : s.following = some c) (refused : ¬ opening.Accepts (s.chunks c)) :
    opening.run s = .ok none (s.skipChunks 1) := by
  have moved := mt (accepts_skipChunks opening 1 s c).mp refused
  cases opening with
  | form formType =>
    refine (bind_of_ok (getNextChunk_some found)).trans
      (get_bind.trans ?_)
    -- the form type is only looked at if the chunk is a form
    by_cases isForm : ((s.skipChunks 1).chunks c).isFORM = true
    · have ne : ((s.skipChunks 1).chunks c).formType ≠ formType := fun eq =>
        moved ⟨isForm, eq⟩
      exact (ite_run_neg (by simp [isForm])).trans (ite_run_pos ne)
    · exact ite_run_pos (by simpa using isForm)
  | chunk id =>
    have different : id ≠ 0 ∧ ((s.skipChunks 1).chunks c).chunkID ≠ id := not_or.mp moved
    exact (bind_of_ok (getNextChunk_some found)).trans (get_bind.trans
      (ite_run_pos different))

/-! ### Calls that fail -/

/-- The call returned a null pointer or threw, and left the stream so. -/
def Fails (opening : Opening) (s s' : IffStream) : Prop :=
  opening.run s = .ok none s' ∨ ∃ e, opening.run s = .error e s'

/-- A call that fails has moved the cursor of the level by one place and nothing else. -/
theorem failed_open (opening : Opening) (s s' : IffStream) (failed : Fails opening s s') :
    s' = s.skipChunks 1 ∧ s'.lastOpened = s.lastOpened + 1 ∧ s'.skipChunks (-1) = s ∧
      ∀ c, s.following = some c → ∀ right : Opening, right.Accepts (s.chunks c) →
        right.run (s'.skipChunks (-1)) = .ok (some c) { s' with openedChunk := some c } := by
  have skipped : s' = s.skipChunks 1 := by
    cases found : s.following with
    | none =>
      rw [Fails, run_none opening found] at failed
      rcases failed with ret | ⟨e, thrown⟩
      · cases ret
      · cases thrown
        rfl
    | some c =>
      by_cases acc : opening.Accepts (s.chunks c)
      · rw [Fails, run_accepted found acc] at failed
        rcases failed with ret | ⟨e, thrown⟩
        · cases ret
        · cases thrown
      · rw [Fails, run_refused found acc] at failed
        rcases failed with ret | ⟨e, thrown⟩
        · cases ret
          rfl
        · cases thrown
  subst skipped
  refine ⟨rfl, skipChunks_lastOpened 1 s, skipChunks_back 1 s, ?_⟩
  intro c found right acc
  rw [skipChunks_back]
  exact run_accepted found acc

theorem failed_open_form : ∃ s s',
    parseChunks 2 (IffForest.form 1 .nil .nil).encode empty = .ok true s ∧
    openForm 2 s = .ok none s' ∧ s'.skipChunks (-1) = s ∧
      openForm 1 (s'.skipChunks (-1)) = .ok (some 0) { s' with openedChunk := some 0 } := by
  obtain ⟨s, parsed, refused⟩ : ∃ s,
      parseChunks 2 (IffForest.form 1 .nil .nil).encode empty = .ok true s ∧
        openForm 2 s = .ok none (s.skipChunks 1) ∧ s.following = some 0 ∧
          (Opening.form 1).Accepts (s.chunks 0) := ⟨_, rfl, rfl, rfl, rfl, rfl⟩
  obtain ⟨refused, next, acc⟩ := refused
  obtain ⟨-, -, back, opens⟩ := failed_open (.form 2) s _ (.inl refused)
  exact ⟨s, _, parsed, refused, back, opens 0 next (.form 1) acc⟩

theorem failed_open_moves : ∃ s s' s'',
    parseChunks 2 (IffForest.form 1 .nil .nil).encode empty = .ok true s ∧
      openForm 1 s = .ok (some 0) (s.entered 0) ∧ openForm 2 s = .ok none s' ∧
      s'.lastOpened ≠ s.lastOpened ∧
      openForm 1 s' = .error (.arrayIndexOutOfBounds 1) s'' ∧ s''.lastOpened ≠ s'.lastOpened :=
  ⟨_, _, _, rfl, rfl, rfl, by decide, rfl, by decide⟩

end IffStream

end Engine3
