import Engine3.Util.IffStream

/-!
# Parsing inverts the encoding of IFF chunks

The chunks are allocated in document order: a form, then all that is in it, then its next
sibling. So where a chunk stands follows from where the first one does, and the memory after
`parseChunks` is known exactly.
-/
namespace Engine3

open Bytes Exec IffStream List

namespace IffForest

def total : IffForest → Nat
  | nil => 0
  | form _ children rest => 1 + children.total + rest.total
  | leaf _ _ rest => 1 + rest.total

def addresses : Nat → IffForest → List Nat
  | _, nil => []
  | n, form _ children rest => n :: addresses (n + 1 + children.total) rest
  | n, leaf _ _ rest => n :: addresses (n + 1) rest

theorem length_addresses (n : Nat) (forest : IffForest) :
    (forest.addresses n).length = forest.count := by
  induction forest generalizing n with
  | nil => rfl
  | form _ children rest _ ih => rw [addresses, length_cons, ih, count]
  | leaf _ _ rest ih => rw [addresses, length_cons, ih, count]

theorem total_le_length (forest : IffForest) : 8 * forest.total ≤ forest.encode.length := by
  induction forest with
  | nil => exact Nat.le_refl 0
  | form formType children rest ihChildren ih =>
    simp only [total, encode, length_append, length_beBytes]
    omega
  | leaf id payload rest ih =>
    simp only [total, encode, length_append, length_beBytes]
    omega

def formData (formType : UInt32) (children : IffForest) : List UInt8 :=
  beBytes 4 formType.toNat ++ children.encode

variable (formType : UInt32) (children : IffForest)

theorem length_formData : (formData formType children).length = 4 + children.encode.length := by
  rw [formData, length_append, length_beBytes]

theorem encode_form (rest : IffForest) :
    (form formType children rest).encode = beBytes 4 Chunk.FORM.toNat ++
      (beBytes 4 (formData formType children).length ++
        (formData formType children ++ rest.encode)) := by
  rw [length_formData]
  simp only [encode, formData, append_assoc]

theorem length_encode_form (rest : IffForest) : (form formType children rest).encode.length =
      8 + (formData formType children).length + rest.encode.length := by
  rw [encode_form]
  simp only [length_append, length_beBytes]
  omega

def formChunk (parent : Option Nat) (n : Nat) (formType : UInt32) (children : IffForest) : Chunk :=
  let data := formData formType children
  { Chunk.new parent Chunk.FORM data with
    stream := { elementData := data, offset := data.length }
    formType := formType
    subChunks := children.addresses (n + 1) }

def Laid (chunks : Nat → Chunk) : Option Nat → Nat → IffForest → Prop
  | _, _, nil => True
  | parent, n, form formType children rest =>
    chunks n = formChunk parent n formType children ∧ Laid chunks (some n) (n + 1) children ∧
      Laid chunks parent (n + 1 + children.total) rest
  | parent, n, leaf id payload rest =>
    chunks n = .new parent id payload ∧ Laid chunks parent (n + 1) rest

theorem Laid.congr {chunks chunks' : Nat → Chunk} {parent : Option Nat} {n : Nat}
    {forest : IffForest} (laid : Laid chunks parent n forest)
    (eq : ∀ a, n ≤ a → a < n + forest.total → chunks' a = chunks a) :
    Laid chunks' parent n forest := by
  induction forest generalizing parent n with
  | nil => trivial
  | form formType children rest ihChildren ihRest =>
    simp only [total] at eq
    obtain ⟨fst, hin, behind⟩ := laid
    refine ⟨(eq n (by omega) (by omega)).trans fst, ihChildren hin ?_, ihRest behind ?_⟩
    · exact fun a low high => eq a (by omega) (by omega)
    · exact fun a low high => eq a (by omega) (by omega)
  | leaf id payload rest ih =>
    simp only [total] at eq
    obtain ⟨fst, behind⟩ := laid
    refine ⟨(eq n (by omega) (by omega)).trans fst, ih behind ?_⟩
    exact fun a low high => eq a (by omega) (by omega)

end IffForest

namespace IffStream

/-! ### Single steps -/

variable {a b v w offset : Nat} {s s₁ : IffStream} {back data : List UInt8}

@[simp] theorem setChunk_chunks_self (a : Nat) (f : Chunk → Chunk) (s : IffStream) :
    (s.setChunk a f).chunks a = f (s.chunks a) :=
  Function.update_self ..

theorem setChunk_chunks_of_ne (ne : b ≠ a) (f : Chunk → Chunk) (s : IffStream) :
    (s.setChunk a f).chunks b = s.chunks b :=
  Function.update_of_ne ne ..

@[simp] theorem setChunk_next (a : Nat) (f : Chunk → Chunk) (s : IffStream) :
    (s.setChunk a f).next = s.next := rfl

theorem setChunk_setChunk (a : Nat) (f g : Chunk → Chunk) (s : IffStream) :
    (s.setChunk a f).setChunk a g = s.setChunk a (g ∘ f) := by
  simp [setChunk]

def advanced (a n : Nat) (s : IffStream) : IffStream :=
  s.setChunk a fun chunk => { chunk with stream := chunk.stream.advance n }

theorem onStream_ok {β : Type} {m : StreamM β} {b : β} {n : Nat}
    (ran : m (s.chunks a).stream = .ok b ((s.chunks a).stream.advance n)) :
    onStream a m s = .ok b (s.advanced a n) := by
  simp only [onStream, ran]
  rfl

theorem readNetInt_spec (a v : Nat) (s : IffStream) (back : List UInt8)
    (next : (s.chunks a).stream.unread = beBytes 4 v ++ back) (lt : v < 4294967296) :
    onStream a Stream.parseNetInt s = .ok v (s.advanced a 4) := by
  have ran := Stream.parseNetInt_unread (s.chunks a).stream v back next
  rw [Nat.mod_eq_of_lt lt] at ran
  exact onStream_ok ran

variable (parent : Option Nat) (id : UInt32)

theorem new_stream (data : List UInt8) :
    (Chunk.new parent id data).stream = { elementData := data, offset := 0 } := by
  simp [Chunk.new, Stream.empty, Stream.writeStream, Stream.reset]

def created (parent : Option Nat) (id : UInt32) (payload : List UInt8) (s : IffStream) :
    IffStream :=
  { s with chunks := Function.update s.chunks s.next (.new parent id payload), next := s.next + 1 }

theorem createChunk_spec (data payload back : List UInt8) (offs : Nat)
    (here : data.drop offs = payload ++ back) (hin : offs ≤ data.length) (s : IffStream) :
    createChunk parent id.toNat payload.length data offs s =
      .ok s.next (s.created parent id payload) := by
  have lengths : data.length - offs = payload.length + back.length := by
    rw [← length_drop, here, length_append]
  have taken : (data.drop offs).take payload.length = payload := by
    rw [here, take_left]
  simp only [createChunk, taken, UInt32.ofNat_toNat, created]
  rw [if_pos (by omega)]

variable (payload : List UInt8)

theorem created_chunks_next (s : IffStream) :
    (s.created parent id payload).chunks s.next = .new parent id payload :=
  Function.update_self ..

theorem created_chunks_of_lt (old : b < s.next) :
    (s.created parent id payload).chunks b = s.chunks b :=
  Function.update_of_ne (Nat.ne_of_lt old) ..

theorem unread_header (stream : Stream)
    (next : stream.unread = beBytes 4 v ++ (beBytes 4 w ++ back)) :
    (stream.advance 4).unread = beBytes 4 w ++ back ∧ (stream.advance 8).unread = back := by
  have fst := Stream.unread_advance stream _ _ next 4 (length_beBytes 4 v)
  exact ⟨fst, Stream.unread_advance (stream.advance 4) _ _ fst 4 (length_beBytes 4 w)⟩

theorem parseSubObjects_header (parse : Nat → IffM Unit) (s : IffStream) (a : Nat)
    (next : (s.chunks a).stream.unread = beBytes 4 v ++ (beBytes 4 w ++ back))
    (smallID : v < 4294967296) (lt : w < 4294967296) :
    parseSubObjects parse a s =
      (createChunk (some a) v w (s.chunks a).stream.elementData ((s.chunks a).stream.offset + 8) >>=
        fun chunk => do
          parse chunk
          modify (addChunk a chunk)
          onStream a (Stream.shiftOffset w)) (s.advanced a 8) := by
  obtain ⟨behindID, -⟩ := unread_header (s.chunks a).stream next
  have fst := readNetInt_spec a v s _ next smallID
  have snd : onStream a Stream.parseNetInt (s.advanced a 4) = .ok w (s.advanced a 8) := by
    have again : (s.advanced a 4).advanced a 4 = s.advanced a 8 := setChunk_setChunk ..
    rw [readNetInt_spec a w (s.advanced a 4) back _ lt, again]
    simpa [advanced] using behindID
  have stream : ((s.advanced a 8).chunks a).stream = (s.chunks a).stream.advance 8 := by
    simp [advanced]
  refine (bind_of_ok fst).trans ((bind_of_ok snd).trans
    (get_bind.trans ?_))
  rw [stream]
  rfl

theorem parseSubObjects_spec (parse : Nat → IffM Unit) (s s' : IffStream) (a : Nat) (id : UInt32)
    (payload back : List UInt8)
    (next : (s.chunks a).stream.unread =
      beBytes 4 id.toNat ++ (beBytes 4 payload.length ++ (payload ++ back)))
    (lt : payload.length < 4294967296)
    (parsed : parse s.next ((s.advanced a 8).created (some a) id payload) = .ok () s')
    (kept : s'.chunks a = (s.advanced a 8).chunks a) :
    parseSubObjects parse a s = .ok () ((s'.addChunk a s.next).advanced a payload.length) := by
  obtain ⟨-, behindSize⟩ := unread_header (s.chunks a).stream next
  -- what is left of the buffer starts with the bytes of the chunk
  have hin : ((s.chunks a).stream.advance 8).offset + payload.length ≤
      (s.chunks a).stream.size := by
    have lengths := congrArg length next
    simp only [Stream.unread, length_drop, length_append, length_beBytes] at lengths
    simp only [Stream.advance, Stream.size]
    omega
  have created := createChunk_spec (some a) id (s.chunks a).stream.elementData payload back
    ((s.chunks a).stream.offset + 8) behindSize (Nat.le_of_add_right_le hin) (s.advanced a 8)
  have last : onStream a (Stream.shiftOffset payload.length) (s'.addChunk a s.next) =
      .ok () ((s'.addChunk a s.next).advanced a payload.length) := by
    apply onStream_ok
    have eq : ((s'.addChunk a s.next).chunks a).stream = (s.chunks a).stream.advance 8 := by
      simp only [addChunk, setChunk_chunks_self, kept, advanced]
    rw [eq]
    exact Stream.shiftOffset_inside _ _ hin
  rw [parseSubObjects_header parse s a next (UInt32.toNat_lt id) lt]
  exact (bind_of_ok created).trans ((bind_of_ok parsed).trans
    ((bind_of_ok (m := modify _) rfl).trans last))

/-! ### Forms -/

structure SamePosition (s s' : IffStream) : Prop where
  mainChunks : s'.mainChunks = s.mainChunks
  lastOpenedChunk : s'.lastOpenedChunk = s.lastOpenedChunk
  openedChunk : s'.openedChunk = s.openedChunk

theorem SamePosition.trans {s₂ s₃ : IffStream} (fst : SamePosition s₁ s₂)
    (snd : SamePosition s₂ s₃) : SamePosition s₁ s₃ where
  mainChunks := snd.mainChunks.trans fst.mainChunks
  lastOpenedChunk := snd.lastOpenedChunk.trans fst.lastOpenedChunk
  openedChunk := snd.openedChunk.trans fst.openedChunk

structure Parsed (s s' : IffStream) (a : Nat) (forest : IffForest) : Prop where
  next : s'.next = s.next + forest.total
  laid : forest.Laid s'.chunks (some a) s.next
  form : s'.chunks a = { s.chunks a with
    stream := (s.chunks a).stream.advance forest.encode.length
    subChunks := (s.chunks a).subChunks ++ forest.addresses s.next }
  others : ∀ b, b < s.next → b ≠ a → s'.chunks b = s.chunks b
  position : SamePosition s s'

def Parses (forest : IffForest) : Prop :=
  ∀ fuel rounds a (s : IffStream), forest.total ≤ fuel → forest.total < rounds → a < s.next →
    (s.chunks a).stream.unread = forest.encode → forest.encode.length < 4294967296 →
    ∃ s', parseWhileData (parseData fuel) rounds a s = .ok () s' ∧ Parsed s s' a forest

theorem hasData_iff (stream : Stream) : stream.hasData = true ↔ stream.unread ≠ [] := by
  rw [Stream.hasData, decide_eq_true_iff, Stream.unread, ne_eq, drop_eq_nil_iff, Nat.not_le]
  exact Iff.rfl

theorem parses_nil : Parses .nil := by
  intro fuel rounds a s _ le _ next _
  obtain ⟨rounds, rfl⟩ : ∃ k, rounds = k + 1 := ⟨rounds - 1, by omega⟩
  have atEnd : ¬ (s.chunks a).stream.hasData = true := by
    rw [hasData_iff, next]
    exact fun ne => ne rfl
  refine ⟨s, get_bind.trans (ite_run_neg atEnd), rfl, trivial, ?_,
    fun _ _ _ => rfl, rfl, rfl, rfl⟩
  simp [IffForest.encode, IffForest.addresses, Stream.advance]

theorem parseData_form {children : IffForest} (parses : Parses children) (fuel n : Nat)
    (s : IffStream) (parent : Option Nat) (formType : UInt32) (newest : s.next = n + 1)
    (isForm : s.chunks n = .new parent Chunk.FORM (IffForest.formData formType children))
    (le : children.total ≤ fuel) (lt : children.encode.length < 4294967296) :
    ∃ s', parseData (fuel + 1) n s = .ok () s' ∧ s'.next = n + 1 + children.total ∧
      s'.chunks n = IffForest.formChunk parent n formType children ∧
      children.Laid s'.chunks (some n) (n + 1) ∧
      (∀ b, b < n → s'.chunks b = s.chunks b) ∧ SamePosition s s' := by
  have form : (s.chunks n).isFORM = true := by simp [isForm, Chunk.isFORM, Chunk.new]
  have next : (s.chunks n).stream.unread = beBytes 4 formType.toNat ++ children.encode := by
    simp [isForm, new_stream, Stream.unread, IffForest.formData]
  have read := readNetInt_spec n formType.toNat s _ next (UInt32.toNat_lt formType)
  -- the form behind its type: what is left of it is its children
  let s₁ : IffStream := (s.advanced n 4).setChunk n fun chunk =>
    { chunk with formType := UInt32.ofNat formType.toNat }
  have chunk₁ : s₁.chunks n =
      { s.chunks n with stream := (s.chunks n).stream.advance 4, formType := formType } := by
    simp [s₁, advanced]
  have others₁ (b : Nat) (ne : b ≠ n) : s₁.chunks b = s.chunks b := by
    simp only [s₁, advanced, setChunk_chunks_of_ne ne]
  have next₁ : (s₁.chunks n).stream.unread = children.encode := by
    rw [chunk₁]
    exact Stream.unread_advance _ _ _ next 4 (length_beBytes 4 _)
  obtain ⟨s', looped, parsed⟩ := parses fuel (fuel + 1) n s₁ le (Nat.lt_succ_of_le le)
    (by simp [s₁, advanced, newest]) next₁ lt
  have sameNext : s₁.next = n + 1 := newest
  refine ⟨s', ?_, by rw [parsed.next, sameNext], ?_, sameNext ▸ parsed.laid, ?_,
    parsed.position.mainChunks, parsed.position.lastOpenedChunk, parsed.position.openedChunk⟩
  · exact get_bind.trans ((ite_run_pos form).trans
      ((bind_of_ok read).trans ((bind_of_ok (m := modify _) rfl).trans looped)))
  · rw [parsed.form, chunk₁, isForm, sameNext]
    simp [IffForest.formChunk, IffForest.formData, Chunk.new, Stream.advance, Stream.empty,
      Stream.writeStream, Stream.reset]
  · intro b lt
    rw [parsed.others b (by omega) (Nat.ne_of_lt lt), others₁ b (Nat.ne_of_lt lt)]

theorem parseData_leaf (fuel n : Nat) (s : IffStream)
    (notForm : (s.chunks n).chunkID ≠ Chunk.FORM) :
    parseData (fuel + 1) n s = .ok () s := by
  refine get_bind.trans (ite_run_neg ?_)
  simpa [Chunk.isFORM] using notForm

theorem parseWhileData_step (parse : Nat → IffM Unit) (rounds a : Nat) (s s₁ : IffStream)
    (id : UInt32) (payload back : List UInt8) (old : a < s.next)
    (next : (s.chunks a).stream.unread =
      beBytes 4 id.toNat ++ (beBytes 4 payload.length ++ (payload ++ back)))
    (lt : payload.length < 4294967296)
    (parsed : parse s.next ((s.advanced a 8).created (some a) id payload) = .ok () s₁)
    (others : ∀ b, b < s.next → s₁.chunks b = (s.advanced a 8).chunks b) :
    ∃ s₂, parseWhileData parse (rounds + 1) a s = parseWhileData parse rounds a s₂ ∧
      s₂.next = s₁.next ∧ SamePosition s₁ s₂ ∧
      (s₂.chunks a).stream.unread = back ∧
      s₂.chunks a = { s.chunks a with
        stream := (s.chunks a).stream.advance (8 + payload.length)
        subChunks := (s.chunks a).subChunks ++ [s.next] } ∧
      (∀ b, b < s.next → b ≠ a → s₂.chunks b = s.chunks b) ∧
      ∀ b, s.next ≤ b → s₂.chunks b = s₁.chunks b := by
  have kept := others a old
  have some_ : (s.chunks a).stream.hasData = true := by
    rw [hasData_iff, next]
    intro nothing
    have lengths := congrArg length nothing
    simp at lengths
  -- the child has a stream of its own, so the parent is where it was before
  have step := parseSubObjects_spec parse s s₁ a id payload back next lt parsed kept
  have chunk : ((s₁.addChunk a s.next).advanced a payload.length).chunks a = { s.chunks a with
      stream := (s.chunks a).stream.advance (8 + payload.length)
      subChunks := (s.chunks a).subChunks ++ [s.next] } := by
    simp [advanced, addChunk, kept, Stream.advance, Nat.add_assoc]
  refine ⟨(s₁.addChunk a s.next).advanced a payload.length, ?_, rfl, ⟨rfl, rfl, rfl⟩, ?_, chunk,
    ?_, ?_⟩
  · exact get_bind.trans ((ite_run_pos some_).trans
      (bind_of_ok step))
  · obtain ⟨-, behind⟩ := unread_header (s.chunks a).stream next
    have twice : ((s.chunks a).stream.advance 8).advance payload.length =
        (s.chunks a).stream.advance (8 + payload.length) := by
      simp only [Stream.advance, Nat.add_assoc]
    rw [chunk, ← twice]
    exact Stream.unread_advance ((s.chunks a).stream.advance 8) payload back behind _ rfl
  · intro b lt ne
    simp only [advanced, addChunk, setChunk_chunks_of_ne ne, others b lt]
  · intro b large
    have ne : b ≠ a := by omega
    simp only [advanced, addChunk, setChunk_chunks_of_ne ne]

theorem parses_first {rest : IffForest} (parses : Parses rest) (fuel rounds a k : Nat)
    (s s₁ : IffStream) (id : UInt32) (payload : List UInt8) (old : a < s.next)
    (next : (s.chunks a).stream.unread =
      beBytes 4 id.toNat ++ (beBytes 4 payload.length ++ (payload ++ rest.encode)))
    (lt : payload.length < 4294967296) (smallRest : rest.encode.length < 4294967296)
    (le : rest.total ≤ fuel) (hle : rest.total < rounds)
    (parsed : parseData fuel s.next ((s.advanced a 8).created (some a) id payload) = .ok () s₁)
    (others : ∀ b, b < s.next → s₁.chunks b = (s.advanced a 8).chunks b)
    (next₁ : s₁.next = s.next + k) (pos : SamePosition s s₁) :
    ∃ s', parseWhileData (parseData fuel) (rounds + 1) a s = .ok () s' ∧
      s'.next = s.next + k + rest.total ∧ rest.Laid s'.chunks (some a) (s.next + k) ∧
      (∀ b, s.next ≤ b → b < s.next + k → s'.chunks b = s₁.chunks b) ∧
      s'.chunks a = { s.chunks a with
        stream := (s.chunks a).stream.advance (8 + payload.length + rest.encode.length)
        subChunks := (s.chunks a).subChunks ++ s.next :: rest.addresses (s.next + k) } ∧
      (∀ b, b < s.next → b ≠ a → s'.chunks b = s.chunks b) ∧ SamePosition s s' := by
  -- one round for the first chunk, and the hypothesis for the rest
  obtain ⟨s₂, step, next₂, pos₂, unread₂, form₂, others₂, behind₂⟩ :=
    parseWhileData_step (parseData fuel) rounds a s s₁ id payload rest.encode old next lt parsed
      others
  have start : s₂.next = s.next + k := next₂.trans next₁
  obtain ⟨s', looped, done⟩ := parses fuel rounds a s₂ le hle
    (start ▸ Nat.lt_add_right k old) unread₂ smallRest
  refine ⟨s', step.trans looped, by rw [done.next, start], start ▸ done.laid, ?_, ?_, ?_,
    (pos.trans pos₂).trans done.position⟩
  · intro b low high
    rw [done.others b (start ▸ high) (by omega), behind₂ b low]
  · rw [done.form, form₂, start]
    simp [Stream.advance, Nat.add_assoc]
  · intro b lt ne
    rw [done.others b (start ▸ Nat.lt_add_right k lt) ne, others₂ b lt ne]

theorem parses (forest : IffForest) : Parses forest := by
  induction forest with
  | nil => exact parses_nil
  | form formType children rest ihChildren ihRest =>
    intro fuel rounds a s le hle old next lt
    simp only [IffForest.total] at le hle
    obtain ⟨fuel, rfl⟩ : ∃ f, fuel = f + 1 := ⟨fuel - 1, by omega⟩
    obtain ⟨rounds, rfl⟩ : ∃ k, rounds = k + 1 := ⟨rounds - 1, by omega⟩
    have len := IffForest.length_formData formType children
    rw [IffForest.encode_form] at next
    rw [IffForest.length_encode_form, len] at lt
    -- the new form is parsed where it stands
    obtain ⟨s₁, parsed, next₁, form₁, laid₁, others₁, pos₁⟩ := parseData_form ihChildren fuel
      s.next ((s.advanced a 8).created (some a) Chunk.FORM _) (some a) formType rfl
      (created_chunks_next _ _ _ _) (by omega) (by omega)
    obtain ⟨s', looped, next', laid', fst', form', others', pos'⟩ :=
      parses_first ihRest (fuel + 1) rounds a (1 + children.total) s s₁ Chunk.FORM _ old next
        (by omega) (by omega) (by omega) (by omega) parsed
        (fun b lt => (others₁ b lt).trans (created_chunks_of_lt _ _ _ lt))
        (by rw [next₁, Nat.add_assoc]) ⟨pos₁.mainChunks, pos₁.lastOpenedChunk,
          pos₁.openedChunk⟩
    refine ⟨s', looped, ?_, ⟨?_, ?_, ?_⟩, ?_, others', pos'⟩
    · simp only [next', IffForest.total, Nat.add_assoc]
    · rw [fst' s.next (Nat.le_refl _) (by omega), form₁]
    · apply laid₁.congr
      intro b low high
      exact fst' b (by omega) (by omega)
    · rw [Nat.add_assoc]
      exact laid'
    · simp only [form', IffForest.length_encode_form, IffForest.addresses, Nat.add_assoc]
  | leaf id leafPayload rest ihRest =>
    intro fuel rounds a s le hle old next lt
    simp only [IffForest.total] at le hle
    obtain ⟨fuel, rfl⟩ : ∃ f, fuel = f + 1 := ⟨fuel - 1, by omega⟩
    obtain ⟨rounds, rfl⟩ : ∃ k, rounds = k + 1 := ⟨rounds - 1, by omega⟩
    simp only [IffForest.encode, length_append, length_beBytes] at lt
    have chunk := created_chunks_next (some a) id.val leafPayload (s.advanced a 8)
    obtain ⟨s', looped, next', laid', fst', form', others', pos'⟩ :=
      parses_first ihRest (fuel + 1) rounds a 1 s _ id.val leafPayload old next (by omega)
        (by omega) (by omega) (by omega)
        (parseData_leaf fuel s.next ((s.advanced a 8).created (some a) id.val leafPayload) (by
          have isLeaf : ((s.advanced a 8).created (some a) id.val leafPayload).chunks s.next = _ :=
            chunk
          rw [isLeaf]
          exact id.property))
        (fun b lt => created_chunks_of_lt _ _ _ lt) rfl ⟨rfl, rfl, rfl⟩
    refine ⟨s', looped, ?_, ⟨?_, laid'⟩, ?_, others', pos'⟩
    · simp only [next', IffForest.total, Nat.add_assoc]
    · exact (fst' s.next (Nat.le_refl _) (by omega)).trans chunk
    · simp only [form', IffForest.encode, IffForest.addresses, length_append,
        length_beBytes, Nat.add_assoc, Nat.reduceAdd]

/-! ### The main chunks -/

theorem readNetIntFrom_spec {offs : Nat} (s : IffStream)
    (here : data.drop offs = beBytes 4 v ++ back) (lt : v < 4294967296) :
    readNetIntFrom data offs s = .ok v s := by
  have lengths := congrArg length here
  rw [length_drop, length_append, length_beBytes] at lengths
  have taken : (data.drop offs).take 4 = beBytes 4 v := by
    rw [here]
    exact take_left' (length_beBytes 4 v)
  simp only [readNetIntFrom, taken, beNat_beBytes, Nat.reducePow, Nat.mod_eq_of_lt lt]
  rw [if_pos (by omega)]

theorem loadMainChunks_header (fuel : Nat) (s : IffStream)
    (here : data.drop offset = beBytes 4 v ++ (beBytes 4 w ++ back)) (smallID : v < 4294967296)
    (lt : w < 4294967296) :
    loadMainChunks data (fuel + 1) offset s =
        (createChunk none v w data (offset + 8) >>= fun chunk => do
          parseData fuel chunk
          modify fun s => { s with mainChunks := s.mainChunks ++ [chunk] }
          loadMainChunks data fuel (offset + 8 + w)) s ∧
      data.drop (offset + 8) = back ∧ offset + 8 ≤ data.length := by
  have size : data.drop (offset + 4) = beBytes 4 w ++ back := by
    rw [← drop_drop, here]
    exact drop_left' (length_beBytes 4 _)
  have bytes : data.drop (offset + 8) = back := by
    rw [show offset + 8 = offset + 4 + 4 from rfl, ← drop_drop, size]
    exact drop_left' (length_beBytes 4 _)
  have lengths := congrArg length here
  simp only [length_drop, length_append, length_beBytes] at lengths
  refine ⟨?_, bytes, by omega⟩
  exact (ite_run_pos (by omega)).trans
    ((bind_of_ok (readNetIntFrom_spec s here smallID)).trans
      (bind_of_ok (readNetIntFrom_spec s size lt)))

theorem loadMainChunks_step {payload : List UInt8} {fuel : Nat} {id : UInt32}
    (here : data.drop offset =
      beBytes 4 id.toNat ++ (beBytes 4 payload.length ++ (payload ++ back)))
    (lt : payload.length < 4294967296)
    (parsed : parseData fuel s.next (s.created none id payload) = .ok () s₁) :
    loadMainChunks data (fuel + 1) offset s =
        loadMainChunks data fuel (offset + 8 + payload.length)
          { s₁ with mainChunks := s₁.mainChunks ++ [s.next] } ∧
      data.drop (offset + 8 + payload.length) = back := by
  obtain ⟨read, bytes, hin⟩ :=
    loadMainChunks_header fuel s here (UInt32.toNat_lt id) lt
  have created := createChunk_spec none id data payload back (offset + 8) bytes hin s
  constructor
  · rw [read]
    exact (bind_of_ok created).trans ((bind_of_ok parsed).trans
      (bind_of_ok (m := modify _) rfl))
  · rw [← drop_drop, bytes, drop_left]

structure Loaded (s s' : IffStream) (forest : IffForest) : Prop where
  next : s'.next = s.next + forest.total
  laid : forest.Laid s'.chunks none s.next
  mainChunks : s'.mainChunks = s.mainChunks ++ forest.addresses s.next
  others : ∀ b, b < s.next → s'.chunks b = s.chunks b
  lastOpenedChunk : s'.lastOpenedChunk = s.lastOpenedChunk
  openedChunk : s'.openedChunk = s.openedChunk

theorem loadMainChunks_spec (data : List UInt8) (forest : IffForest) (fuel offset : Nat)
    (s : IffStream) (here : data.drop offset = forest.encode) (le : forest.total < fuel)
    (lt : forest.encode.length < 4294967296) :
    ∃ s', loadMainChunks data fuel offset s = .ok () s' ∧ Loaded s s' forest := by
  induction forest generalizing fuel offset s with
  | nil =>
    obtain ⟨fuel, rfl⟩ : ∃ f, fuel = f + 1 := ⟨fuel - 1, by omega⟩
    have atEnd : data.length ≤ offset := drop_eq_nil_iff.mp here
    refine ⟨s, ite_run_neg (by omega), rfl, trivial, ?_, fun _ _ => rfl, rfl, rfl⟩
    simp [IffForest.addresses]
  | form formType children rest _ ihRest =>
    simp only [IffForest.total] at le
    have len := IffForest.length_formData formType children
    rw [IffForest.encode_form] at here
    rw [IffForest.length_encode_form, len] at lt
    obtain ⟨fuel, rfl⟩ : ∃ f, fuel = f + 2 := ⟨fuel - 2, by omega⟩
    obtain ⟨s₁, parsed, next₁, form₁, laid₁, others₁, pos₁⟩ :=
      parseData_form (parses children) fuel s.next (s.created none Chunk.FORM _) none formType
        rfl (created_chunks_next _ _ _ _) (by omega) (by omega)
    obtain ⟨step, behind⟩ := loadMainChunks_step
      here (by omega) parsed
    obtain ⟨s', loaded, done⟩ := ihRest (fuel + 1) _
      { s₁ with mainChunks := s₁.mainChunks ++ [s.next] }
      behind (by omega) (by omega)
    -- what is loaded later goes to new addresses
    have others' (b : Nat) (low : b < s.next + 1 + children.total) : s'.chunks b = s₁.chunks b :=
      done.others b (low.trans_eq next₁.symm)
    refine ⟨s', step.trans loaded, ?_, ⟨?_, ?_, next₁ ▸ done.laid⟩, ?_, ?_,
      done.lastOpenedChunk.trans pos₁.lastOpenedChunk,
      done.openedChunk.trans pos₁.openedChunk⟩
    · simp only [done.next, next₁, IffForest.total, Nat.add_assoc]
    · rw [others' s.next (by omega), form₁]
    · apply laid₁.congr
      intro b _ high
      exact others' b high
    · rw [done.mainChunks, pos₁.mainChunks]
      simp [IffForest.addresses, next₁, created]
    · intro b low
      rw [others' b (by omega), others₁ b low, created_chunks_of_lt _ _ _ low]
  | leaf id payload rest ihRest =>
    simp only [IffForest.total] at le
    simp only [IffForest.encode, length_append, length_beBytes] at lt
    obtain ⟨fuel, rfl⟩ : ∃ f, fuel = f + 2 := ⟨fuel - 2, by omega⟩
    have chunk := created_chunks_next none id.val payload s
    have parsed := parseData_leaf fuel s.next (s.created none id.val payload) (by
      rw [chunk]
      exact id.property)
    obtain ⟨step, behind⟩ := loadMainChunks_step
      here (by omega) parsed
    obtain ⟨s', loaded, done⟩ := ihRest (fuel + 1) _ _ behind (by omega) (by omega)
    refine ⟨s', step.trans loaded, ?_, ⟨?_, done.laid⟩, ?_, ?_, done.lastOpenedChunk,
      done.openedChunk⟩
    · simp only [done.next, created, IffForest.total, Nat.add_assoc]
    · exact (done.others s.next (Nat.lt_succ_self _)).trans chunk
    · rw [done.mainChunks]
      simp [IffForest.addresses, created]
    · intro b low
      exact (done.others b (Nat.lt_succ_of_lt low)).trans (created_chunks_of_lt _ _ _ low)

end IffStream

end Engine3
