import Engine3.Util.IffParsing

/-!
# Visits of a parsed IFF stream

A visit opens the chunks of a level one after the other, reads what is in them and closes them
again. It meets every chunk in document order.
-/
namespace Engine3

open Bytes Exec IffStream List

namespace IffForest

def visit (ask : UInt32 → UInt32) (cut : List UInt8 → List (List UInt8)) : IffForest → List Op
  | nil => [.getRemainingSubChunksNumber]
  | form formType children rest =>
    [.getRemainingSubChunksNumber, .getNextFormType, .openForm formType, .getFormType,
      .getSubChunksNumber] ++
      children.visit ask cut ++ .closeForm formType :: rest.visit ask cut
  | leaf id payload rest =>
    [.getRemainingSubChunksNumber, .openChunk (ask id), .getDataSize] ++
      (cut payload).map (fun piece => .getBytes piece.length) ++
      .closeChunk (ask id) :: rest.visit ask cut

def seen (cut : List UInt8 → List (List UInt8)) : IffForest → List Answer
  | nil => [.number 0]
  | form formType children rest =>
    [.number (rest.count + 1), .type formType, .chunk (some Chunk.FORM), .type formType,
      .number children.count] ++
      children.seen cut ++ .closed :: rest.seen cut
  | leaf id payload rest =>
    [.number (rest.count + 1), .chunk (some id), .number payload.length] ++
      (cut payload).map .bytes ++ .closed :: rest.seen cut

end IffForest

namespace IffStream

variable {ops : List Op} {answers : List Answer} {s s₁ s₂ s' : IffStream} {n m k : Nat}

theorem performAll_cons {op : Op} {answer : Answer} (fst : perform op s = .ok answer s₁)
    (rest : performAll ops s₁ = .ok answers s₂) :
    performAll (op :: ops) s = .ok (answer :: answers) s₂ :=
  (bind_of_ok fst).trans (bind_of_ok rest)

theorem performAll_append {ops' : List Op} {answers' : List Answer}
    (fst : performAll ops s = .ok answers s₁) (rest : performAll ops' s₁ = .ok answers' s₂) :
    performAll (ops ++ ops') s = .ok (answers ++ answers') s₂ := by
  induction ops generalizing answers s with
  | nil =>
    cases fst
    exact rest
  | cons op ops ih =>
    obtain ⟨answer, s₀, one, later⟩ := bind_ok_iff.mp fst
    obtain ⟨tail, s₀', others, done⟩ := bind_ok_iff.mp later
    obtain ⟨rfl, rfl⟩ := pure_ok_iff.mp done
    exact performAll_cons one (ih others)

/-! ### The position of a visit -/

theorem skipChunks_openedChunk (num : Int) (s : IffStream) :
    (s.skipChunks num).openedChunk = s.openedChunk := by
  unfold skipChunks
  split <;> rfl

theorem skipChunks_mainChunks (num : Int) (s : IffStream) :
    (s.skipChunks num).mainChunks = s.mainChunks := by
  unfold skipChunks
  split <;> rfl

theorem skipChunks_chunks (num : Int) (s : IffStream) (a : Nat) :
    (s.skipChunks num).chunks a = if s.openedChunk = some a then
      { s.chunks a with lastOpenedSubChunk := (s.chunks a).lastOpenedSubChunk + num }
      else s.chunks a := by
  unfold skipChunks
  split
  next none => simp [none]
  next c isOpen =>
    rw [isOpen]
    by_cases here : a = c
    · subst here
      rw [setChunk_chunks_self, if_pos rfl]
    · rw [setChunk_chunks_of_ne here, if_neg (by simpa using Ne.symm here)]

theorem skipChunks_chunks_of_ne {num : Int} {a : Nat} (ne : s.openedChunk ≠ some a) :
    (s.skipChunks num).chunks a = s.chunks a := by
  rw [skipChunks_chunks, if_neg ne]

structure At (s : IffStream) (parent : Option Nat) (n : Nat) (forest : IffForest) (k : Nat) :
    Prop where
  opened : s.openedChunk = parent
  above : ∀ p, parent = some p → p < n
  laid : forest.Laid s.chunks parent n
  last : s.lastOpened + 1 = k
  inside : k ≤ s.children.length
  left : s.children.drop k = forest.addresses n

structure Visited (s s' : IffStream) (n m k : Nat) : Prop where
  openedChunk : s'.openedChunk = s.openedChunk
  mainChunks : s'.mainChunks = s.mainChunks
  lastOpenedChunk : s'.lastOpenedChunk = (s.skipChunks k).lastOpenedChunk
  chunks : ∀ a, a < n ∨ m ≤ a → s'.chunks a = (s.skipChunks k).chunks a

theorem Visited.lastOpened (visited : Visited s s' n m k)
    (above : ∀ p, s.openedChunk = some p → p < n) : s'.lastOpened = s.lastOpened + k := by
  unfold IffStream.lastOpened
  rw [visited.openedChunk]
  cases opened : s.openedChunk with
  | none =>
    rw [visited.lastOpenedChunk, skipChunks]
    simp [opened]
  | some p => simp [visited.chunks p (.inl (above p opened)), skipChunks_chunks, opened]

theorem Visited.children (visited : Visited s s' n m k)
    (above : ∀ p, s.openedChunk = some p → p < n) : s'.children = s.children := by
  unfold IffStream.children
  rw [visited.openedChunk]
  cases opened : s.openedChunk with
  | none => exact visited.mainChunks
  | some p => simp [visited.chunks p (.inl (above p opened)), skipChunks_chunks, opened]

theorem Visited.chunks_behind (visited : Visited s s' n m k)
    (above : ∀ p, s.openedChunk = some p → p < n) (order : n ≤ m) {a : Nat} (behind : m ≤ a) :
    s'.chunks a = s.chunks a := by
  rw [visited.chunks a (.inr behind), skipChunks_chunks_of_ne]
  intro isOpen
  have lt := above a isOpen
  omega

theorem Visited.trans {s₃ : IffStream} {l j : Nat} (fst : Visited s₁ s₂ n m j)
    (snd : Visited s₂ s₃ m l k) (nm : n ≤ m) (ml : m ≤ l) : Visited s₁ s₃ n l (j + k) where
  openedChunk := snd.openedChunk.trans fst.openedChunk
  mainChunks := snd.mainChunks.trans fst.mainChunks
  lastOpenedChunk := by
    rw [snd.lastOpenedChunk, skipChunks, skipChunks, fst.openedChunk]
    have earlier := fst.lastOpenedChunk
    rw [skipChunks] at earlier
    cases opened : s₁.openedChunk with
    | none =>
      rw [opened] at earlier
      simp only [earlier, Nat.cast_add, Int.add_assoc]
    | some p =>
      rw [opened] at earlier
      exact earlier
  chunks a outside := by
    rw [snd.chunks a (by omega), skipChunks_chunks, fst.openedChunk,
      fst.chunks a (by omega), skipChunks_chunks, skipChunks_chunks]
    by_cases isOpen : s₁.openedChunk = some a
    · simp [isOpen, Int.add_assoc]
    · simp [isOpen]

theorem At.behind {parent : Option Nat} {forest rest : IffForest} (here : At s parent n forest k)
    (visited : Visited s s' n m 1) (order : n ≤ m) (laid : rest.Laid s.chunks parent m)
    (left : forest.addresses n = n :: rest.addresses m) :
    At s' parent m rest (k + 1) := by
  have above : ∀ p, s.openedChunk = some p → p < n := fun p isOpen =>
    here.above p (here.opened.symm.trans isOpen)
  have drop := here.left
  rw [left] at drop
  constructor
  · rw [visited.openedChunk, here.opened]
  · exact fun p isParent => Nat.lt_of_lt_of_le (here.above p isParent) order
  · exact laid.congr fun a low _ => visited.chunks_behind above order low
  · have last := here.last
    rw [visited.lastOpened above]
    omega
  · rw [visited.children above]
    have lengths := congrArg length drop
    rw [length_drop, length_cons] at lengths
    omega
  · rw [visited.children above, ← drop_drop, drop]
    rfl

/-! ### Calls -/

variable {s : IffStream} {parent : Option Nat} {n k : Nat} {forest : IffForest}

theorem At.remaining (here : At s parent n forest k) :
    perform .getRemainingSubChunksNumber s = .ok (.number forest.count) s := by
  have lengths := congrArg length here.left
  rw [length_drop, IffForest.length_addresses] at lengths
  have last := here.last
  have hin := here.inside
  have val : s.getRemainingSubChunksNumber = forest.count := by
    rw [getRemainingSubChunksNumber]
    omega
  refine get_bind.trans ?_
  rw [val]
  rfl

theorem elementAt_spec (xs rest : List Nat) (index : Int) (k a : Nat) (isIndex : index = k)
    (left : xs.drop k = a :: rest) (s : IffStream) : elementAt xs index s = .ok a s := by
  have found : xs[k]? = some a := by
    rw [← head?_drop, left]
    rfl
  have notNegative : ¬ index < 0 := by omega
  have eq : index.toNat = k := by omega
  simp only [elementAt, if_neg notNegative, eq, found]

theorem At.getNextChunk (here : At s parent n forest k) {rest : List Nat}
    (left : forest.addresses n = n :: rest) :
    getNextChunk s = .ok n (s.skipChunks 1) := by
  have skipped : Visited s (s.skipChunks 1) n n 1 :=
    ⟨skipChunks_openedChunk 1 s, skipChunks_mainChunks 1 s, rfl, fun _ _ => rfl⟩
  have above : ∀ p, s.openedChunk = some p → p < n := fun p isOpen =>
    here.above p (here.opened.symm.trans isOpen)
  have last := here.last
  refine (bind_of_ok (m := modify _) rfl).trans (get_bind.trans ?_)
  apply elementAt_spec _ rest _ k n
  · rw [skipped.lastOpened above]
    omega
  · rw [skipped.children above, here.left, left]

def entered (n : Nat) (s : IffStream) : IffStream := { s.skipChunks 1 with openedChunk := some n }

theorem At.entered_chunks (here : At s parent n forest k) (a : Nat) (low : n ≤ a) :
    (s.entered n).chunks a = s.chunks a := by
  apply skipChunks_chunks_of_ne
  intro isOpen
  have lt := here.above a (here.opened.symm.trans isOpen)
  omega

theorem closeChunk_spec {c : Nat} (id : UInt32) (isOpen : s.openedChunk = some c) :
    closeChunk id s = .ok () { s with openedChunk := (s.chunks c).parent } := by
  have opened : getOpenedChunk s = .ok c s := by simp only [getOpenedChunk, isOpen]
  exact bind_of_ok opened

theorem At.close (here : At s parent n forest k) (isOpen : s'.openedChunk = some n)
    (up : (s'.chunks n).parent = parent) (mainChunks : s'.mainChunks = s.mainChunks)
    (lastOpenedChunk : s'.lastOpenedChunk = (s.skipChunks 1).lastOpenedChunk)
    (others : ∀ a, a < n ∨ m ≤ a → s'.chunks a = (s.entered n).chunks a) (id : UInt32) :
    ∃ s'', closeChunk id s' = .ok () s'' ∧ Visited s s'' n m 1 :=
  ⟨_, closeChunk_spec id isOpen, by rw [up, here.opened], mainChunks, lastOpenedChunk, others⟩

/-! ### Forms -/

section Form

variable {formType : UInt32} {children rest : IffForest}

variable (here : At s parent n (.form formType children rest) k)
include here

theorem At.getNextFormType :
    perform .getNextFormType s = .ok (.type formType) s := by
  have chunk : s.chunks n = IffForest.formChunk parent n formType children := here.laid.1
  have isForm : (s.chunks n).isFORM = true := by rw [chunk]; rfl
  have next : elementAt s.children (s.lastOpened + 1) s = .ok n s :=
    elementAt_spec _ _ _ k n here.last here.left s
  have type : IffStream.getNextFormType s = .ok formType s := by
    refine get_bind.trans ((bind_of_ok next).trans
      ((ite_run_pos isForm).trans ?_))
    rw [chunk]
    rfl
  exact bind_of_ok type

theorem At.openForm :
    perform (.openForm formType) s = .ok (.chunk (some Chunk.FORM)) (s.entered n) := by
  have chunk : (s.skipChunks 1).chunks n = IffForest.formChunk parent n formType children :=
    (here.entered_chunks n (Nat.le_refl n)).trans here.laid.1
  have isForm : ¬ (!((s.skipChunks 1).chunks n).isFORM) = true := by
    rw [chunk]
    exact Bool.false_ne_true
  have sameType : ¬ ((s.skipChunks 1).chunks n).formType ≠ formType := by
    rw [chunk]
    exact fun ne => ne rfl
  have opened : IffStream.openForm formType s = .ok (some n) (s.entered n) :=
    (bind_of_ok (here.getNextChunk rfl)).trans (get_bind.trans
      ((ite_run_neg isForm).trans ((ite_run_neg sameType).trans
        (bind_of_ok (m := set _) rfl))))
  refine (bind_of_ok opened).trans (get_bind.trans ?_)
  have id : ((s.entered n).chunks n).chunkID = Chunk.FORM := by
    change ((s.skipChunks 1).chunks n).chunkID = _
    rw [chunk]
    rfl
  rw [Option.map_some, id]
  rfl

theorem At.inside_form :
    At (s.entered n) (some n) (n + 1) children 0 := by
  have chunk : (s.entered n).chunks n = IffForest.formChunk parent n formType children :=
    (here.entered_chunks n (Nat.le_refl n)).trans here.laid.1
  have subChunks : (s.entered n).children = children.addresses (n + 1) := by
    change ((s.entered n).chunks n).subChunks = _
    rw [chunk]
    rfl
  constructor
  · rfl
  · rintro p ⟨⟩
    exact Nat.lt_succ_self n
  · exact here.laid.2.1.congr fun a low _ => here.entered_chunks a (by omega)
  · change ((s.entered n).chunks n).lastOpenedSubChunk + 1 = 0
    rw [chunk]
    rfl
  · exact Nat.zero_le _
  · rw [subChunks, drop_zero]

theorem At.getFormType :
    perform .getFormType (s.entered n) = .ok (.type formType) (s.entered n) := by
  have chunk : (s.entered n).chunks n = IffForest.formChunk parent n formType children :=
    (here.entered_chunks n (Nat.le_refl n)).trans here.laid.1
  have isForm : ((s.entered n).chunks n).isFORM = true := by rw [chunk]; rfl
  have type : IffStream.getFormType (s.entered n) = .ok formType (s.entered n) := by
    refine (bind_of_ok (m := getOpenedChunk) rfl).trans
      (get_bind.trans ((ite_run_pos isForm).trans ?_))
    rw [chunk]
    rfl
  exact bind_of_ok type

omit here

theorem At.getSubChunksNumber (here : At s parent n forest 0) :
    perform .getSubChunksNumber s = .ok (.number forest.count) s := by
  have val : s.getSubChunksNumber = forest.count := by
    have left := here.left
    rw [drop_zero] at left
    rw [IffStream.getSubChunksNumber, left, IffForest.length_addresses]
  refine get_bind.trans ?_
  rw [val]
  rfl

theorem At.closeForm {s' : IffStream} (here : At s parent n (.form formType children rest) k)
    (visited : Visited (s.entered n) s' (n + 1) (n + 1 + children.total) children.count) :
    ∃ s'', perform (.closeForm formType) s' = .ok .closed s'' ∧
      Visited s s'' n (n + 1 + children.total) 1 := by
  have chunk : (s.entered n).chunks n = IffForest.formChunk parent n formType children :=
    (here.entered_chunks n (Nat.le_refl n)).trans here.laid.1
  have up : (s'.chunks n).parent = parent := by
    rw [visited.chunks n (.inl (Nat.lt_succ_self n)), skipChunks_chunks]
    have isOpen : (s.entered n).openedChunk = some n := rfl
    rw [if_pos isOpen, chunk]
    rfl
  have others (a : Nat) (out : a < n ∨ n + 1 + children.total ≤ a) :
      s'.chunks a = (s.entered n).chunks a := by
    rw [visited.chunks a (by omega), skipChunks_chunks_of_ne]
    intro isOpen
    have eq : n = a := Option.some.inj isOpen
    omega
  obtain ⟨s'', closed, done⟩ := here.close visited.openedChunk up
    (visited.mainChunks.trans (skipChunks_mainChunks 1 s)) visited.lastOpenedChunk others formType
  exact ⟨s'', bind_of_ok (bind_of_ok closed), done⟩

end Form

/-! ### Other chunks -/

section Leaf

variable {id : { id : UInt32 // id ≠ Chunk.FORM }} {payload : List UInt8} {rest : IffForest}

theorem At.openChunk (here : At s parent n (.leaf id payload rest) k) (ask : UInt32)
    (matching : ask = id ∨ ask = 0) :
    perform (.openChunk ask) s = .ok (.chunk (some id)) (s.entered n) := by
  have chunk : (s.skipChunks 1).chunks n = .new parent id payload :=
    (here.entered_chunks n (Nat.le_refl n)).trans here.laid.1
  have acc : ¬ (ask ≠ 0 ∧ ((s.skipChunks 1).chunks n).chunkID ≠ ask) := by
    rw [chunk]
    rintro ⟨notZero, ne⟩
    rcases matching with eq | zero
    · exact ne eq.symm
    · exact notZero zero
  have opened : IffStream.openChunk ask s = .ok (some n) (s.entered n) :=
    (bind_of_ok (here.getNextChunk rfl)).trans (get_bind.trans
      ((ite_run_neg acc).trans (bind_of_ok (m := set _) rfl)))
  refine (bind_of_ok opened).trans (get_bind.trans ?_)
  have isId : ((s.entered n).chunks n).chunkID = id := by
    change ((s.skipChunks 1).chunks n).chunkID = _
    rw [chunk]
    rfl
  rw [Option.map_some, isId]
  rfl

theorem At.getDataSize (here : At s parent n (.leaf id payload rest) k) :
    perform .getDataSize (s.entered n) = .ok (.number payload.length) (s.entered n) := by
  have chunk : (s.entered n).chunks n = .new parent id payload :=
    (here.entered_chunks n (Nat.le_refl n)).trans here.laid.1
  have size : IffStream.getDataSize (s.entered n) = .ok payload.length (s.entered n) := by
    refine (bind_of_ok (m := getOpenedChunk) rfl).trans
      (get_bind.trans ?_)
    rw [chunk]
    rfl
  exact bind_of_ok size

theorem advanced_zero (a : Nat) (s : IffStream) : s.advanced a 0 = s := by
  simp [advanced, setChunk, Stream.advance]

theorem getBytes_spec {c : Nat} {s : IffStream} (isOpen : s.openedChunk = some c)
    (piece back : List UInt8) (next : (s.chunks c).stream.unread = piece ++ back) :
    perform (.getBytes piece.length) s = .ok (.bytes piece) (s.advanced c piece.length) := by
  have opened : getOpenedChunk s = .ok c s := by simp only [getOpenedChunk, isOpen]
  have read : getBytes piece.length s = .ok piece (s.advanced c piece.length) := by
    refine (bind_of_ok opened).trans ?_
    by_cases nothing : piece = []
    · -- an empty read does not look at the chunk
      rw [nothing, length_nil, advanced_zero]
      rfl
    · have pos : ¬ piece.length = 0 := by simpa using nothing
      exact (ite_run_neg pos).trans
        (onStream_ok (Stream.readPrimitive_unread _ back nothing next))
  exact bind_of_ok read

theorem getBytes_pieces (c : Nat) (s : IffStream) (isOpen : s.openedChunk = some c)
    (pieces : List (List UInt8)) (back : List UInt8)
    (next : (s.chunks c).stream.unread = pieces.flatten ++ back) :
    performAll (pieces.map fun piece => .getBytes piece.length) s =
      .ok (pieces.map .bytes) (s.advanced c pieces.flatten.length) := by
  induction pieces generalizing s with
  | nil =>
    rw [flatten_nil, length_nil, advanced_zero]
    rfl
  | cons piece pieces ih =>
    rw [flatten_cons, append_assoc] at next
    have fst := getBytes_spec isOpen piece (pieces.flatten ++ back) next
    have later := ih (s.advanced c piece.length) isOpen (by
      rw [advanced, setChunk_chunks_self]
      exact Stream.unread_advance _ piece _ next _ rfl)
    have both : (s.advanced c piece.length).advanced c pieces.flatten.length =
        s.advanced c (piece :: pieces).flatten.length := by
      rw [advanced, advanced, setChunk_setChunk, advanced]
      simp [Function.comp_def, Stream.advance, Nat.add_assoc]
    rw [both] at later
    exact performAll_cons fst later

theorem At.closeChunk (here : At s parent n (.leaf id payload rest) k) (ask : UInt32) :
    ∃ s'', perform (.closeChunk ask) ((s.entered n).advanced n payload.length) = .ok .closed s'' ∧
      Visited s s'' n (n + 1) 1 := by
  have chunk : (s.entered n).chunks n = .new parent id payload :=
    (here.entered_chunks n (Nat.le_refl n)).trans here.laid.1
  have up : (((s.entered n).advanced n payload.length).chunks n).parent = parent := by
    rw [advanced, setChunk_chunks_self, chunk]
    rfl
  have others (a : Nat) (out : a < n ∨ n + 1 ≤ a) :
      ((s.entered n).advanced n payload.length).chunks a = (s.entered n).chunks a :=
    setChunk_chunks_of_ne (by omega) _ _
  obtain ⟨s'', closed, done⟩ := here.close rfl up (skipChunks_mainChunks 1 s) rfl others ask
  exact ⟨s'', bind_of_ok closed, done⟩

end Leaf

/-! ### Whole visits -/

theorem visit_spec (ask : UInt32 → UInt32) (matching : ∀ id, ask id = id ∨ ask id = 0)
    (cut : List UInt8 → List (List UInt8)) (whole : ∀ payload, (cut payload).flatten = payload)
    (forest : IffForest) (s : IffStream) (parent : Option Nat) (n k : Nat)
    (here : At s parent n forest k) :
    ∃ s', performAll (forest.visit ask cut) s = .ok (forest.seen cut) s' ∧
      Visited s s' n (n + forest.total) forest.count := by
  induction forest generalizing s parent n k with
  | nil =>
    refine ⟨s, performAll_cons here.remaining rfl, rfl, rfl, ?_, ?_⟩
    · simp only [skipChunks, IffForest.count, Nat.cast_zero, Int.add_zero]
      split <;> rfl
    · intro a _
      rw [skipChunks_chunks]
      split
      · simp [IffForest.count]
      · rfl
  -- down into the children, back up, and on to the next chunk
  | form formType children rest ihChildren ihRest =>
    obtain ⟨s₁, inner, visited₁⟩ := ihChildren _ _ _ _ here.inside_form
    obtain ⟨s₂, closed, visited₂⟩ := here.closeForm visited₁
    obtain ⟨s₃, outer, visited₃⟩ := ihRest _ _ _ _
      (here.behind visited₂ (by omega) here.laid.2.2 rfl)
    refine ⟨s₃, ?_, ?_⟩
    · have begun : performAll [.getRemainingSubChunksNumber, .getNextFormType, .openForm formType,
          .getFormType, .getSubChunksNumber] s = .ok [.number (rest.count + 1), .type formType,
          .chunk (some Chunk.FORM), .type formType, .number children.count] (s.entered n) :=
        performAll_cons here.remaining (performAll_cons here.getNextFormType
          (performAll_cons here.openForm (performAll_cons here.getFormType
            (performAll_cons here.inside_form.getSubChunksNumber rfl))))
      exact performAll_append (performAll_append begun inner) (performAll_cons closed outer)
    · have both := visited₂.trans visited₃ (by omega) (by omega)
      rwa [Nat.add_comm 1, Nat.add_assoc, Nat.add_assoc, ← Nat.add_assoc 1] at both
  | leaf id payload rest ihRest =>
    have chunk : (s.entered n).chunks n = .new parent id payload :=
      (here.entered_chunks n (Nat.le_refl n)).trans here.laid.1
    -- the pieces add up to the payload, however it is cut
    have read := getBytes_pieces n (s.entered n) rfl (cut payload) [] (by
      rw [chunk, new_stream, whole, append_nil]
      rfl)
    rw [whole] at read
    obtain ⟨s₂, closed, visited₂⟩ := here.closeChunk (ask id)
    obtain ⟨s₃, outer, visited₃⟩ := ihRest _ _ _ _
      (here.behind visited₂ (by omega) here.laid.2 rfl)
    refine ⟨s₃, ?_, ?_⟩
    · have begun : performAll [.getRemainingSubChunksNumber, .openChunk (ask id), .getDataSize] s =
          .ok [.number (rest.count + 1), .chunk (some id), .number payload.length] (s.entered n) :=
        performAll_cons here.remaining (performAll_cons (here.openChunk (ask id) (matching id))
          (performAll_cons here.getDataSize rfl))
      exact performAll_append (performAll_append begun read) (performAll_cons closed outer)
    · have both := visited₂.trans visited₃ (by omega) (by omega)
      rwa [Nat.add_comm 1, Nat.add_assoc] at both

/-! ### Parsing and visiting -/

/-- The chunks at these addresses, below `parent`, are those of the forest. -/
inductive Builds (s : IffStream) : Option Nat → List Nat → IffForest → Prop
  | nil (parent : Option Nat) : Builds s parent [] .nil
  | form (parent : Option Nat) (a : Nat) (behind : List Nat) (children rest : IffForest)
    (isForm : (s.chunks a).chunkID = Chunk.FORM) (up : (s.chunks a).parent = parent)
    (inner : Builds s (some a) (s.chunks a).subChunks children)
    (outer : Builds s parent behind rest) :
    Builds s parent (a :: behind) (.form (s.chunks a).formType children rest)
  | leaf (parent : Option Nat) (a : Nat) (behind : List Nat)
    (id : { id : UInt32 // id ≠ Chunk.FORM }) (rest : IffForest)
    (isLeaf : (s.chunks a).chunkID = id) (up : (s.chunks a).parent = parent)
    (childless : (s.chunks a).subChunks = [])
    (size : (s.chunks a).chunkSize = (s.chunks a).stream.elementData.length)
    (outer : Builds s parent behind rest) :
    Builds s parent (a :: behind) (.leaf id (s.chunks a).stream.elementData rest)

theorem builds_of_laid (s : IffStream) (parent : Option Nat) (n : Nat) (forest : IffForest)
    (laid : forest.Laid s.chunks parent n) : Builds s parent (forest.addresses n) forest := by
  induction forest generalizing parent n with
  | nil => exact .nil parent
  | form formType children rest ihChildren ihRest =>
    obtain ⟨chunk, inner, outer⟩ := laid
    have type : formType = (s.chunks n).formType := by rw [chunk]; rfl
    have subChunks : (s.chunks n).subChunks = children.addresses (n + 1) := by rw [chunk]; rfl
    rw [type]
    apply Builds.form parent n _ children rest
    · rw [chunk]
      rfl
    · rw [chunk]
      rfl
    · rw [subChunks]
      exact ihChildren (some n) (n + 1) inner
    · exact ihRest parent _ outer
  | leaf id payload rest ihRest =>
    obtain ⟨chunk, outer⟩ := laid
    have data : payload = (s.chunks n).stream.elementData := by rw [chunk, new_stream]
    rw [data]
    apply Builds.leaf parent n _ id rest
    · rw [chunk]
      rfl
    · rw [chunk]
      rfl
    · rw [chunk]
      rfl
    · rw [← data, chunk]
      rfl
    · exact ihRest parent (n + 1) outer

theorem parseChunks_spec (forest : IffForest) (large : 8 ≤ forest.encode.length)
    (lt : forest.encode.length < 2147483648) (fuel : Nat) (le : forest.encode.length < fuel) :
    ∃ s, parseChunks fuel forest.encode empty = .ok true s ∧ Loaded empty s forest := by
  have few := forest.total_le_length
  obtain ⟨s, loaded, done⟩ := loadMainChunks_spec forest.encode forest fuel 0 empty rfl (by omega)
    (by omega)
  exact ⟨s, (ite_run_neg (by omega)).trans (bind_of_ok loaded), done⟩

theorem Loaded.at_start {s : IffStream} {forest : IffForest} (loaded : Loaded empty s forest) :
    At s none 0 forest 0 := by
  have opened : s.openedChunk = none := loaded.openedChunk
  have level : s.children = forest.addresses 0 := by
    rw [children, opened]
    exact loaded.mainChunks
  constructor
  · exact opened
  · rintro p ⟨⟩
  · exact loaded.laid
  · rw [lastOpened, opened]
    exact congrArg (· + 1) loaded.lastOpenedChunk
  · exact Nat.zero_le _
  · rw [level, drop_zero]

/-- Parsing inverts the encoding, and a visit sees all chunks in document order. -/
theorem parseChunks_visit (forest : IffForest) (large : 8 ≤ forest.encode.length)
    (small : forest.encode.length < 2147483648) (fuel : Nat) (enough : forest.encode.length < fuel)
    (ask : UInt32 → UInt32) (matching : ∀ id, ask id = id ∨ ask id = 0)
    (cut : List UInt8 → List (List UInt8)) (whole : ∀ payload, (cut payload).flatten = payload) :
    ∃ s s', parseChunks fuel forest.encode empty = .ok true s ∧
      Builds s none s.mainChunks forest ∧
      performAll (forest.visit ask cut) s = .ok (forest.seen cut) s' ∧
      s'.openedChunk = none ∧ s'.getRemainingSubChunksNumber = 0 := by
  obtain ⟨s, parsed, loaded⟩ := parseChunks_spec forest large small fuel enough
  have start := loaded.at_start
  obtain ⟨s', ran, visited⟩ := visit_spec ask matching cut whole forest s none 0 0 start
  have top : ∀ p, s.openedChunk = some p → p < 0 := by
    rintro p isOpen
    rw [start.opened] at isOpen
    cases isOpen
  refine ⟨s, s', parsed, ?_, ran, visited.openedChunk.trans start.opened, ?_⟩
  · have addresses : s.mainChunks = forest.addresses 0 := loaded.mainChunks
    rw [addresses]
    exact builds_of_laid s none 0 forest loaded.laid
  · have length : s.children.length = forest.count := by
      rw [← forest.length_addresses 0, ← start.left, drop_zero]
    have last := start.last
    rw [getRemainingSubChunksNumber, visited.children top, visited.lastOpened top, length]
    omega

theorem parseChunks_visit_nested :
    let forest : IffForest := .form 1 (.form 2 .nil (.leaf ⟨3, by decide⟩ [7, 8, 9] .nil))
      (.leaf ⟨0, by decide⟩ [] .nil)
    let cut : List UInt8 → List (List UInt8) := fun payload => [payload.take 1, payload.drop 1]
    ∃ s s', parseChunks 56 forest.encode empty = .ok true s ∧
      Builds s none s.mainChunks forest ∧
      performAll (forest.visit (fun id => id) cut) s = .ok (forest.seen cut) s' ∧
      s'.openedChunk = none ∧ s'.getRemainingSubChunksNumber = 0 := by
  intro forest cut
  have whole (payload : List UInt8) : (cut payload).flatten = payload := by
    simp only [cut, flatten_cons, flatten_nil, append_nil, take_append_drop]
  exact parseChunks_visit forest (by decide) (by decide) 56 (by decide) (fun id => id)
    (fun id => .inl rfl) cut whole

end IffStream

end Engine3
