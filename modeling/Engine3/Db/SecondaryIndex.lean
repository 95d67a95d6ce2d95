import Mathlib.Data.List.Nodup
import Engine3.Library.Exec
import Engine3.System.Stream

/-!
# Secondary indexes

`engine/db/LocalDatabase`: a database has one handle for each thread, and a list of indexes that
every handle has to be associated with. A thread remembers how far in the list its handle has come.
When a thread registers an index it associates its own handle with that index only, and then takes
the handle to be up to date: indexes that others have registered meanwhile are passed over.

A call is one step. What Berkeley DB returns is left open; a fatal error ends the program.
-/
namespace Engine3

open Exec List Function

inductive AssociateReturn
  | success
  | deadlock
  | failure
  deriving DecidableEq, Repr

structure IndexedDatabase (θ ι γ : Type) where
  secondaryIndexes : List (ι × γ)
  associations : Nat
  objectsDatabase : θ → Option (List (ι × γ))
  lastAssociation : θ → Nat
  attempts : Nat

abbrev IndexM (θ ι γ : Type) := EStateM Exception (IndexedDatabase θ ι γ)

namespace IndexedDatabase

variable {θ ι γ : Type}

section Calls

variable [DecidableEq θ] [DecidableEq ι] (returns : Nat → AssociateReturn) (maxRetries : Nat)

def attempt : IndexM θ ι γ AssociateReturn := fun s =>
  .ok (returns s.attempts) { s with attempts := s.attempts + 1 }

def append (t : θ) (index : ι × γ) (s : IndexedDatabase θ ι γ) : IndexedDatabase θ ι γ :=
  { s with objectsDatabase :=
    Function.update s.objectsDatabase t ((s.objectsDatabase t).map (· ++ [index])) }

def tryAssociate (message : String) (t : θ) (index : ι × γ) : Nat → IndexM θ ι γ Unit
  | 0 => throw (.abort message)
  | retries + 1 => do
    match ← attempt returns with
    | .success => modify (append t index)
    | .deadlock => tryAssociate message t index retries
    | .failure => throw (.abort message)

def associateIndexTransactional (t : θ) (index : ι × γ) : IndexM θ ι γ Unit :=
  tryAssociate returns "could not associate secondary index to database" t index (max 1 maxRetries)

def setLastAssociation (t : θ) (last : Nat) : IndexM θ ι γ Unit :=
  modify fun s => { s with lastAssociation := update s.lastAssociation t last }

def associateFrom (body : ι × γ → IndexM θ ι γ Unit) : Nat → Nat → IndexM θ ι γ Unit
  | 0, _ => pure ()
  | count + 1, i => do
    match (← get).secondaryIndexes[i]? with
    | none => throw (.arrayIndexOutOfBounds i)
    | some index => body index
    associateFrom body count (i + 1)

def openDatabase (t : θ) : IndexM θ ι γ Unit := do
  let s ← get
  if (s.objectsDatabase t).isSome then return ()
  else
    modify fun s => { s with objectsDatabase := update s.objectsDatabase t (some []) }
    associateFrom
      (fun index => tryAssociate returns "error could not associate secondary index" t index 1)
      s.secondaryIndexes.length 0
    setLastAssociation t s.secondaryIndexes.length

def getDatabaseHandle (t : θ) : IndexM θ ι γ Unit := do
  let s ← get
  if s.objectsDatabase t = none then openDatabase returns t
  else if s.lastAssociation t ≠ s.associations then
    associateFrom (associateIndexTransactional returns maxRetries t)
      (s.associations - s.lastAssociation t) (s.lastAssociation t)
    setLastAssociation t s.associations
  else return ()

def associate (t : θ) (secondaryDB : ι) (callback : γ) : IndexM θ ι γ Unit := do
  let s ← get
  if s.secondaryIndexes.any fun index => index.1 = secondaryDB then return ()
  else
    set { s with
      secondaryIndexes := s.secondaryIndexes ++ [(secondaryDB, callback)]
      associations := s.associations + 1 }
    if (s.objectsDatabase t).isSome then
      associateIndexTransactional returns maxRetries t (secondaryDB, callback)
      setLastAssociation t (s.associations + 1)
    else return ()

def start (creator : θ) : IndexedDatabase θ ι γ where
  secondaryIndexes := []
  associations := 0
  objectsDatabase := update (fun _ => none) creator (some [])
  lastAssociation := fun _ => 0
  attempts := 0

inductive Call (θ ι γ : Type)
  | associate (t : θ) (secondaryDB : ι) (callback : γ)
  | getDatabaseHandle (t : θ)

def perform : Call θ ι γ → IndexM θ ι γ Unit
  | .associate t secondaryDB callback => associate returns maxRetries t secondaryDB callback
  | .getDatabaseHandle t => getDatabaseHandle returns maxRetries t

def passesOver (s : IndexedDatabase θ ι γ) (t : θ) : Call θ ι γ → Prop
  | .associate t' secondaryDB _ => t' = t ∧ secondaryDB ∉ s.secondaryIndexes.map Prod.fst ∧
      s.objectsDatabase t ≠ none ∧ s.lastAssociation t ≠ s.associations
  | .getDatabaseHandle _ => False

/-- The states that calls of all threads lead to, and whether `t` has passed over an index. -/
inductive Runs (creator t : θ) : IndexedDatabase θ ι γ → Prop → Prop
  | start : Runs creator t (start creator) False
  | step (s s' : IndexedDatabase θ ι γ) (passed : Prop) (call : Call θ ι γ)
    (before : Runs creator t s passed) (performed : perform returns maxRetries call s = .ok () s') :
    Runs creator t s' (passed ∨ passesOver s t call)

end Calls

/-! ### What a call does -/

variable [DecidableEq θ] {returns : Nat → AssociateReturn} {maxRetries last n : Nat}
  {message : String} {s s' : IndexedDatabase θ ι γ} {t : θ} {made : List (ι × γ)} {index : ι × γ}

def caughtUp (s : IndexedDatabase θ ι γ) (t : θ) (made : List (ι × γ)) (last n : Nat) :
    IndexedDatabase θ ι γ :=
  { s with
    objectsDatabase := update s.objectsDatabase t (some made)
    lastAssociation := update s.lastAssociation t last
    attempts := n }

@[simp] theorem caughtUp_caughtUp {made' : List (ι × γ)} {last' m : Nat} :
    (s.caughtUp t made last n).caughtUp t made' last' m = s.caughtUp t made' last' m := by
  simp only [caughtUp, update_idem]

theorem caughtUp_handle : (s.caughtUp t made last n).objectsDatabase t = some made :=
  update_self ..

theorem eq_caughtUp (handle : s.objectsDatabase t = some made) :
    s = s.caughtUp t made (s.lastAssociation t) s.attempts := by
  rw [caughtUp, ← handle, update_eq_self, update_eq_self]

theorem tryAssociate_ok {retries : Nat} (handle : s.objectsDatabase t = some made)
    (ret : tryAssociate returns message t index retries s = .ok () s') :
    ∃ n, s' = s.caughtUp t (made ++ [index]) (s.lastAssociation t) n := by
  induction retries generalizing s with
  | zero => cases ret
  | succ retries ih =>
    obtain ⟨answer, s₁, asked, later⟩ := bind_ok_iff.mp ret
    obtain rfl : { s with attempts := s.attempts + 1 } = s₁ := by cases asked; rfl
    cases answer with
    | success =>
      cases later
      exact ⟨s.attempts + 1, by
        simp only [append, handle, Option.map_some, caughtUp, update_eq_self]⟩
    | deadlock => exact ih (s := { s with attempts := s.attempts + 1 }) handle later
    | failure => cases later

theorem associateFrom_ok {retries count i : Nat} (handle : s.objectsDatabase t = some made)
    (ret : associateFrom (fun index => tryAssociate returns message t index retries)
      count i s = .ok () s') :
    ∃ n, s' = s.caughtUp t (made ++ (s.secondaryIndexes.drop i).take count)
      (s.lastAssociation t) n := by
  induction count generalizing i s made with
  | zero =>
    cases ret
    exact ⟨_, by rw [take_zero, append_nil, ← eq_caughtUp handle]⟩
  | succ count ih =>
    rw [associateFrom, get_bind] at ret
    cases here : s.secondaryIndexes[i]? with
    | none =>
      rw [here] at ret
      cases ret
    | some index =>
      rw [here] at ret
      obtain ⟨_, s₁, added, later⟩ := bind_ok_iff.mp ret
      obtain ⟨hin, rfl⟩ := List.getElem?_eq_some_iff.mp here
      obtain ⟨n, rfl⟩ := tryAssociate_ok handle added
      obtain ⟨m, rfl⟩ := ih caughtUp_handle later
      refine ⟨m, ?_⟩
      rw [caughtUp_caughtUp, drop_eq_getElem_cons hin, take_succ_cons,
        append_assoc, singleton_append]
      simp only [caughtUp, update_self]

def handle (s : IndexedDatabase θ ι γ) (t : θ) : List (ι × γ) × Nat :=
  match s.objectsDatabase t with
  | none => ([], 0)
  | some made => (made, s.lastAssociation t)

theorem getDatabaseHandle_ok (counted : s.associations = s.secondaryIndexes.length)
    (ret : getDatabaseHandle returns maxRetries t s = .ok () s') :
    ∃ n, s' = s.caughtUp t ((s.handle t).1 ++ s.secondaryIndexes.drop (s.handle t).2)
      s.secondaryIndexes.length n := by
  rw [getDatabaseHandle, get_bind] at ret
  cases there : s.objectsDatabase t with
  | none =>
    rw [if_pos there, openDatabase, get_bind, there] at ret
    obtain ⟨_, s₁, opened, ret⟩ := bind_ok_iff.mp ret
    cases opened
    obtain ⟨_, s₁, made, last⟩ := bind_ok_iff.mp ret
    obtain ⟨n, rfl⟩ := associateFrom_ok (s := s.caughtUp t [] (s.lastAssociation t) s.attempts)
      caughtUp_handle (by simpa only [caughtUp, update_eq_self] using made)
    cases last
    refine ⟨n, ?_⟩
    simp [handle, there, caughtUp]
  | some made =>
    rw [if_neg (by simp [there])] at ret
    simp only [handle, there]
    split at ret
    next behind =>
      obtain ⟨_, _, more, last⟩ := bind_ok_iff.mp ret
      obtain ⟨n, rfl⟩ := associateFrom_ok there more
      cases last
      refine ⟨n, ?_⟩
      rw [counted, ← length_drop, take_length]
      simp only [caughtUp, update_idem]
    next upToDate =>
      cases ret
      have last := (Decidable.not_not.mp upToDate).trans counted
      rw [last, drop_length, append_nil, ← last]
      exact ⟨_, eq_caughtUp there⟩

def registered (s : IndexedDatabase θ ι γ) (index : ι × γ) : IndexedDatabase θ ι γ :=
  { s with secondaryIndexes := s.secondaryIndexes ++ [index], associations := s.associations + 1 }

theorem associate_ok [DecidableEq ι] (index : ι × γ)
    (ret : associate returns maxRetries t index.1 index.2 s = .ok () s') :
    index.1 ∈ s.secondaryIndexes.map Prod.fst ∧ s' = s ∨
    index.1 ∉ s.secondaryIndexes.map Prod.fst ∧
      ((s.objectsDatabase t = none ∧ s' = s.registered index) ∨
      ∃ made n, s.objectsDatabase t = some made ∧
        s' = (s.registered index).caughtUp t (made ++ [index]) (s.associations + 1) n) := by
  rw [associate, get_bind] at ret
  split at ret
  next known =>
    cases ret
    exact .inl ⟨by simpa using known, rfl⟩
  next new =>
    refine .inr ⟨by simpa using new, ?_⟩
    cases there : s.objectsDatabase t with
    | none =>
      rw [there] at ret
      cases ret
      exact .inl ⟨rfl, rfl⟩
    | some made =>
      rw [there] at ret
      obtain ⟨_, _, added, ret⟩ := bind_ok_iff.mp ret
      cases added
      obtain ⟨_, _, more, last⟩ := bind_ok_iff.mp ret
      obtain ⟨n, rfl⟩ := tryAssociate_ok (s := s.registered index) there more
      cases last
      exact .inr ⟨made, n, rfl, by simp only [caughtUp, update_idem]⟩

/-! ### What holds in every run -/

structure Registered (s : IndexedDatabase θ ι γ) : Prop where
  counted : s.associations = s.secondaryIndexes.length
  once : (s.secondaryIndexes.map Prod.fst).Nodup

structure Kept (s : IndexedDatabase θ ι γ) (t : θ) (passed : Prop) : Prop where
  fewer : (s.handle t).1.length ≤ (s.handle t).2
  inside : (s.handle t).2 ≤ s.secondaryIndexes.length
  all : (s.handle t).1.Perm (s.secondaryIndexes.take (s.handle t).2) ↔ ¬ passed

variable {passed : Prop}

@[simp] theorem handle_caughtUp : (s.caughtUp t made last n).handle t = (made, last) := by
  simp [handle, caughtUp]

theorem handle_caughtUp_of_ne {u : θ} (ne : t ≠ u) :
    (s.caughtUp u made last n).handle t = s.handle t := by
  simp [handle, caughtUp, update_of_ne ne]

omit [DecidableEq θ] in
theorem Kept.extended (kept : Kept s t passed) (eq : s'.handle t = s.handle t)
    (longer : s.secondaryIndexes <+: s'.secondaryIndexes) : Kept s' t passed where
  fewer := eq ▸ kept.fewer
  inside := eq ▸ kept.inside.trans longer.length_le
  all := by
    obtain ⟨more, longer⟩ := longer
    rw [eq, ← longer, take_append_of_le_length kept.inside, kept.all]

omit [DecidableEq θ] in
theorem Kept.perm_iff (kept : Kept s t passed) :
    ((s.handle t).1 ++ s.secondaryIndexes.drop (s.handle t).2).Perm s.secondaryIndexes ↔
      ¬ passed := by
  have eq : ((s.handle t).1 ++ _).Perm (s.secondaryIndexes.take (s.handle t).2 ++ _) ↔ _ :=
    perm_append_right_iff (s.secondaryIndexes.drop (s.handle t).2)
  rw [take_append_drop] at eq
  exact eq.trans kept.all

theorem Kept.getDatabaseHandle (kept : Kept s t passed) :
    Kept (s.caughtUp t ((s.handle t).1 ++ s.secondaryIndexes.drop (s.handle t).2)
      s.secondaryIndexes.length n) t passed := by
  have fewer := kept.fewer
  have hin := kept.inside
  constructor <;> rw [handle_caughtUp]
  · rw [length_append, length_drop]
    omega
  · exact le_rfl
  · exact (take_length (l := s.secondaryIndexes)).symm ▸ kept.perm_iff

theorem Kept.associate (kept : Kept s t passed) (there : s.objectsDatabase t = some made)
    (counted : s.associations = s.secondaryIndexes.length) :
    Kept ((s.registered index).caughtUp t (made ++ [index]) (s.associations + 1) n) t
      (passed ∨ s.lastAssociation t ≠ s.associations) := by
  obtain ⟨fewer, hin, all⟩ := kept
  simp only [handle, there] at fewer hin all
  constructor <;> rw [handle_caughtUp]
  · rw [length_append, length_singleton]
    omega
  · simp [registered, caughtUp, counted]
  · have whole : (s.registered index).secondaryIndexes.take (s.associations + 1) =
        s.secondaryIndexes ++ [index] := take_of_length_le (by simp [registered, counted])
    change Perm _ ((s.registered index).secondaryIndexes.take _) ↔ _
    rw [whole, perm_append_right_iff, not_or, ← all, not_not, counted]
    constructor
    · intro eq
      have upToDate : s.lastAssociation t = s.secondaryIndexes.length := by
        have := eq.length_eq
        omega
      rw [upToDate, take_length]
      exact ⟨eq, rfl⟩
    · rintro ⟨eq, upToDate⟩
      rwa [upToDate, take_length] at eq

section Runs

variable [DecidableEq ι] {creator : θ}

theorem perform_registered {call : Call θ ι γ} (registered : Registered s)
    (performed : perform returns maxRetries call s = .ok () s') :
    Registered s' ∧ s.secondaryIndexes <+: s'.secondaryIndexes := by
  cases call with
  | getDatabaseHandle u =>
    obtain ⟨n, rfl⟩ := getDatabaseHandle_ok registered.counted performed
    exact ⟨⟨registered.counted, registered.once⟩, prefix_rfl⟩
  | associate u secondaryDB callback =>
    obtain ⟨-, rfl⟩ | ⟨new, added⟩ := associate_ok (secondaryDB, callback) performed
    · exact ⟨registered, prefix_rfl⟩
    have counted : s.associations + 1 =
        (s.secondaryIndexes ++ [(secondaryDB, callback)]).length := by
      simp [registered.counted]
    have once : ((s.secondaryIndexes ++ [(secondaryDB, callback)]).map Prod.fst).Nodup := by
      rw [map_append]
      exact nodup_append_comm.mpr (nodup_cons.mpr ⟨new, registered.once⟩)
    obtain ⟨-, rfl⟩ | ⟨made, n, -, rfl⟩ := added
    · exact ⟨⟨counted, once⟩, prefix_append ..⟩
    · exact ⟨⟨counted, once⟩, prefix_append ..⟩

theorem perform_kept {call : Call θ ι γ} (registered : Registered s)
    (kept : Kept s t passed) (performed : perform returns maxRetries call s = .ok () s') :
    Kept s' t (passed ∨ passesOver s t call) := by
  obtain ⟨-, longer⟩ := perform_registered registered performed
  cases call with
  | getDatabaseHandle u =>
    rw [passesOver, or_false]
    obtain ⟨n, rfl⟩ := getDatabaseHandle_ok registered.counted performed
    by_cases own : t = u
    · subst own
      exact kept.getDatabaseHandle
    · exact kept.extended (handle_caughtUp_of_ne own) longer
  | associate u secondaryDB callback =>
    obtain ⟨known, rfl⟩ | ⟨new, ⟨none, rfl⟩ | ⟨made, n, there, rfl⟩⟩ :=
      associate_ok (secondaryDB, callback) performed
    · simpa [passesOver, known] using kept
    · have unpassed : ¬ passesOver s t (.associate u secondaryDB callback) := by
        rintro ⟨rfl, -, op, -⟩
        exact op none
      rw [or_iff_left unpassed]
      exact kept.extended rfl longer
    · by_cases own : t = u
      · subst own
        simpa [passesOver, new, there] using kept.associate there registered.counted
      · rw [passesOver, or_iff_left (fun skips => own skips.1.symm)]
        exact kept.extended (handle_caughtUp_of_ne own) longer

theorem Runs.kept (run : Runs returns maxRetries creator t s passed) :
    Registered s ∧ Kept s t passed := by
  induction run with
  | start =>
    have none : (IndexedDatabase.start creator : IndexedDatabase θ ι γ).handle t = ([], 0) := by
      unfold handle IndexedDatabase.start
      by_cases own : t = creator
      · simp [own]
      · simp [update_of_ne own]
    exact ⟨⟨rfl, nodup_nil⟩, by constructor <;> simp [none]⟩
  | step s s' passed call before performed ih =>
    exact ⟨(perform_registered ih.1 performed).1, perform_kept ih.1 ih.2 performed⟩

/-- Exactly if no index was registered while the handle lacked another thread's. -/
theorem indexes_associated_iff (run : Runs returns maxRetries creator t s passed)
    (returned : getDatabaseHandle returns maxRetries t s = .ok () s') :
    (∃ made, s'.objectsDatabase t = some made ∧ made.Perm s'.secondaryIndexes ∧
      (made.map Prod.fst).Nodup) ↔ ¬ passed := by
  obtain ⟨registered, kept⟩ := run.kept
  obtain ⟨n, rfl⟩ := getDatabaseHandle_ok registered.counted returned
  rw [← kept.perm_iff, caughtUp_handle]
  constructor
  · rintro ⟨_, own, eq, -⟩
    cases own
    exact eq
  · intro eq
    exact ⟨_, rfl, eq, (eq.map _).nodup_iff.mpr registered.once⟩

end Runs

theorem indexes_associated_two :
    ∃ (s s' : IndexedDatabase Nat Nat Unit) (passed : Prop),
      Runs (fun _ => .success) 1000 0 0 s passed ∧
      getDatabaseHandle (fun _ => .success) 1000 0 s = .ok () s' ∧
      (∃ made, s'.objectsDatabase 0 = some made ∧ made.Perm s'.secondaryIndexes ∧
        (made.map Prod.fst).Nodup) ∧
      s'.secondaryIndexes = [(7, ()), (8, ())] := by
  have opened : Runs (fun _ => .success) 1000 0 0
      (start 0 : IndexedDatabase Nat Nat Unit) False := .start
  have registered := opened.step _ _ _ (.associate 1 7 ()) rfl
  have caught := registered.step _ _ _ (.getDatabaseHandle 0) rfl
  have run := caught.step _ _ _ (.associate 0 8 ()) rfl
  refine ⟨_, _, _, run, rfl, (indexes_associated_iff run rfl).mpr ?_, rfl⟩
  rintro (((none | ne) | none) | behind)
  · exact none
  · exact absurd ne.1 (by decide)
  · exact none
  · exact behind.2.2.2 rfl

theorem getDatabaseHandle_passes_over :
    ∃ s' : IndexedDatabase Nat Nat Unit,
      (do perform (fun _ => .success) 1000 (.getDatabaseHandle 1)
          perform (fun _ => .success) 1000 (.associate 1 7 ())
          perform (fun _ => .success) 1000 (.associate 0 8 ())
          perform (fun _ => .success) 1000 (.getDatabaseHandle 0)) (start 0) = .ok () s' ∧
      s'.secondaryIndexes = [(7, ()), (8, ())] ∧ s'.objectsDatabase 0 = some [(8, ())] :=
  ⟨_, rfl, rfl, rfl⟩

end IndexedDatabase

end Engine3
