import Engine3.Library.MachineInt
import Engine3.Util.IffParsing

/-!
# Parsing IFF chunks of any bytes

Sizes are read from the file, and a chunk copies as many bytes as its header announces before
anybody compares them with what there is. How parsing ends is a question about the bytes alone: it
throws inside a form that is cut off, and it reads behind the data at a chunk that announces more
than what is left, or at the end of a file where a header is incomplete.
-/
namespace Engine3

open Bytes Exec IffStream MachineInt List

namespace IffHostile

/-! ### How parsing ends -/

inductive Ending
  | success
  | throws
  | overreads
  deriving DecidableEq

def Ending.andThen : Ending → Ending → Ending
  | success, later => later
  | throws, _ => throws
  | overreads, _ => overreads

def identifier (bytes : List UInt8) : UInt32 := UInt32.ofNat (beNat (bytes.take 4))

def announced (bytes : List UInt8) : Nat := beNat ((bytes.drop 4).take 4)

def payload (bytes : List UInt8) : List UInt8 := (bytes.drop 8).take (announced bytes)

def behind (bytes : List UInt8) : List UInt8 := bytes.drop (8 + announced bytes)

variable {bytes : List UInt8} {how : Ending} {parse : Nat → IffM Unit} {rounds a : Nat}

theorem length_behind_lt (header : ¬ bytes.length < 8) :
    (behind bytes).length < bytes.length := by
  rw [behind, length_drop]
  omega

theorem length_payload_lt (header : ¬ bytes.length < 8) :
    ((payload bytes).drop 4).length < bytes.length := by
  rw [payload, length_drop, length_take, length_drop]
  omega

def ending (main : Bool) (bytes : List UInt8) : Ending :=
  if bytes.length < 8 then
    -- the file is read without a look at its end, and four bytes are ignored there
    if main then if bytes.length ≤ 4 then .success else .overreads
    else if bytes = [] then .success else .throws
  else if bytes.length < 8 + announced bytes then .overreads
  else
    (if identifier bytes = Chunk.FORM then
      if (payload bytes).length < 4 then .throws else ending false ((payload bytes).drop 4)
    else .success).andThen (ending main (behind bytes))
termination_by bytes.length
decreasing_by
  · exact length_payload_lt ‹_›
  · exact length_behind_lt ‹_›

def chunkEnding (id : UInt32) (data : List UInt8) : Ending :=
  if id = Chunk.FORM then if data.length < 4 then .throws else ending false (data.drop 4)
  else .success

theorem ending_short (main : Bool) (short : bytes.length < 8) :
    ending main bytes = if main then if bytes.length ≤ 4 then .success else .overreads
      else if bytes = [] then .success else .throws := by
  rw [ending, if_pos short]

theorem ending_overreads (main : Bool) (header : ¬ bytes.length < 8)
    (more : bytes.length < 8 + announced bytes) : ending main bytes = .overreads := by
  rw [ending, if_neg header, if_pos more]

theorem ending_chunk (main : Bool) (header : ¬ bytes.length < 8)
    (fits : ¬ bytes.length < 8 + announced bytes) :
    ending main bytes =
      (chunkEnding (identifier bytes) (payload bytes)).andThen (ending main (behind bytes)) := by
  rw [ending, if_neg header, if_neg fits]
  rfl

theorem announced_lt (bytes : List UInt8) : announced bytes < 4294967296 :=
  beNat_take_lt 4 (bytes.drop 4)

theorem toNat_identifier (bytes : List UInt8) :
    (identifier bytes).toNat = beNat (bytes.take 4) := by
  exact Nat.mod_eq_of_lt (beNat_take_lt 4 bytes)

theorem eq_header (header : ¬ bytes.length < 8) :
    bytes = beBytes 4 (identifier bytes).toNat ++
      (beBytes 4 (announced bytes) ++ bytes.drop 8) := by
  have size := eq_beBytes_append 4 (bytes.drop 4) (by rw [length_drop]; omega)
  rw [drop_drop] at size
  calc bytes = beBytes 4 (beNat (bytes.take 4)) ++ bytes.drop 4 :=
        eq_beBytes_append 4 bytes (by omega)
    _ = beBytes 4 (identifier bytes).toNat ++ bytes.drop 4 := by rw [toNat_identifier]
    _ = _ := congrArg _ size

theorem length_payload (fits : ¬ bytes.length < 8 + announced bytes) :
    (payload bytes).length = announced bytes := by
  rw [payload, length_take, length_drop]
  omega

theorem eq_chunk (header : ¬ bytes.length < 8) (fits : ¬ bytes.length < 8 + announced bytes) :
    bytes = beBytes 4 (identifier bytes).toNat ++
      (beBytes 4 (payload bytes).length ++ (payload bytes ++ behind bytes)) := by
  have parts : payload bytes ++ behind bytes = bytes.drop 8 := by
    rw [payload, behind, ← drop_drop, take_append_drop]
  rw [length_payload fits, parts]
  exact eq_header header

/-! ### The chunks hold pieces of the file -/

def Held (data : List UInt8) (s : IffStream) : Prop :=
  ∀ b < s.next, (s.chunks b).stream.elementData <:+: data ∧
    (s.chunks b).chunkSize = (s.chunks b).stream.elementData.length

variable {data : List UInt8} {s s' : IffStream}

theorem Held.setChunk (held : Held data s) (a : Nat) (f : Chunk → Chunk)
    (bytes : (f (s.chunks a)).stream.elementData = (s.chunks a).stream.elementData)
    (size : (f (s.chunks a)).chunkSize = (s.chunks a).chunkSize) : Held data (s.setChunk a f) := by
  intro b old
  by_cases eq : b = a
  · subst eq
    rw [setChunk_chunks_self, bytes, size]
    exact held b old
  · rw [setChunk_chunks_of_ne eq]
    exact held b old

theorem Held.advanced (held : Held data s) (a n : Nat) : Held data (s.advanced a n) :=
  held.setChunk a _ rfl rfl

theorem Held.created (held : Held data s) (parent : Option Nat) (id : UInt32)
    (piece : bytes <:+: data) : Held data (s.created parent id bytes) := by
  intro b old
  rcases Nat.lt_succ_iff_lt_or_eq.mp old with earlier | rfl
  · rw [created_chunks_of_lt parent id bytes earlier]
    exact held b earlier
  · rw [created_chunks_next, new_stream]
    exact ⟨piece, rfl⟩

structure Leaves (data : List UInt8) (n : Nat) (s s' : IffStream) : Prop where
  next : s.next ≤ s'.next
  others : ∀ b < n, s'.chunks b = s.chunks b
  held : Held data s'

inductive Ends (data : List UInt8) (n : Nat) (s : IffStream) :
    Ending → EStateM.Result Exception IffStream Unit → Prop
  | success {s' : IffStream} (leaves : Leaves data n s s') : Ends data n s .success (.ok () s')
  | throws {s' : IffStream} (index : Int) (leaves : Leaves data n s s') :
      Ends data n s .throws (.error (.streamIndexOutOfBounds index) s')
  | overreads {s' : IffStream} (leaves : Leaves data n s s') :
      Ends data n s .overreads (.error (.abort "read behind the buffer") s')

theorem Ends.from {n m : Nat} {result : EStateM.Result Exception IffStream Unit}
    (ends : Ends data n s' how result) (fewer : m ≤ n) (next : s.next ≤ s'.next)
    (others : ∀ b < m, s'.chunks b = s.chunks b) : Ends data m s how result := by
  have leaves {s'' : IffStream} (later : Leaves data n s' s'') : Leaves data m s s'' :=
    ⟨next.trans later.next, fun b lt => (later.others b (lt.trans_le fewer)).trans
      (others b lt), later.held⟩
  cases ends with
  | success later => exact .success (leaves later)
  | throws index later => exact .throws index (leaves later)
  | overreads later => exact .overreads (leaves later)

theorem Leaves.advanced (holds : Held data s) (a n : Nat) : Leaves data a s (s.advanced a n) where
  next := Nat.le_refl _
  others := fun _ lt => setChunk_chunks_of_ne (Nat.ne_of_lt lt) _ s
  held := holds.advanced a n

/-! ### Forms -/

theorem readNetInt_short (a : Nat) (s : IffStream)
    (short : (s.chunks a).stream.unread.length < 4) :
    onStream a Stream.parseNetInt s =
      .error (.streamIndexOutOfBounds ((s.chunks a).stream.offset + 4 : Nat)) (s.advanced a 4) := by
  have out : (s.chunks a).stream.offset + 4 > (s.chunks a).stream.size := by
    rw [Stream.unread, length_drop] at short
    simp only [Stream.size]
    omega
  have moved : Stream.readPrimitive 4 (s.chunks a).stream =
      .error (.streamIndexOutOfBounds ((s.chunks a).stream.offset + 4 : Nat))
        ((s.chunks a).stream.advance 4) := by
    simp only [Stream.readPrimitive, Stream.shiftOffset, Stream.setOffset, if_pos out]
    rfl
  have thrown : Stream.parseNetInt (s.chunks a).stream =
      .error (.streamIndexOutOfBounds ((s.chunks a).stream.offset + 4 : Nat))
        ((s.chunks a).stream.advance 4) := map_error beNat moved
  simp only [onStream, thrown]
  rfl

variable {a offset fuel : Nat} {s s' : IffStream} {e : Exception}

theorem parseSubObjects_short (parse : Nat → IffM Unit) (held : Held data s)
    (short : (s.chunks a).stream.unread.length < 8) :
    Ends data a s .throws (parseSubObjects parse a s) := by
  by_cases none : (s.chunks a).stream.unread.length < 4
  · have ended : parseSubObjects parse a s = _ :=
      bind_of_error (readNetInt_short a s none)
    rw [ended]
    exact .throws _ (.advanced held a 4)
  · have type := eq_beBytes_append 4 (s.chunks a).stream.unread (by omega)
    have fst := readNetInt_spec a _ s _ type (beNat_take_lt 4 _)
    have left : ((s.advanced a 4).chunks a).stream.unread.length < 4 := by
      simp only [advanced, setChunk_chunks_self, Stream.advance, Stream.unread,
        length_drop] at short ⊢
      omega
    have ended : parseSubObjects parse a s = _ :=
      (bind_of_ok fst).trans (bind_of_error (readNetInt_short a _ left))
    have again : (s.advanced a 4).advanced a 4 = s.advanced a 8 := setChunk_setChunk ..
    rw [ended, again]
    exact .throws _ (.advanced held a 8)

theorem createChunk_outside (par : Option Nat) {size : Nat} (id : Nat) {bytes : List UInt8}
    {offs : Nat}
    (s : IffStream) (out : ¬ offs + size ≤ bytes.length) :
    createChunk par id size bytes offs s = .error (.abort "read behind the buffer") s :=
  if_neg out

theorem parseSubObjects_overreads (parse : Nat → IffM Unit) (held : Held data s)
    (header : ¬ (s.chunks a).stream.unread.length < 8)
    (more : (s.chunks a).stream.unread.length < 8 + announced (s.chunks a).stream.unread) :
    Ends data a s .overreads (parseSubObjects parse a s) := by
  rw [parseSubObjects_header parse s a (eq_header header) (UInt32.toNat_lt _)
    (announced_lt _)]
  have left : (s.chunks a).stream.unread.length =
      (s.chunks a).stream.elementData.length - (s.chunks a).stream.offset := length_drop
  rw [bind_of_error (createChunk_outside _ _ _ (by omega))]
  exact .overreads (.advanced held a 8)

def Foreseen (data bytes : List UInt8) : Prop :=
  ∀ fuel rounds a (s : IffStream), a < s.next → Held data s →
    (s.chunks a).stream.unread = bytes → bytes.length < 8 * (fuel + 1) → bytes.length < 8 * rounds →
    Ends data a s (ending false bytes) (parseWhileData (parseData fuel) rounds a s)

theorem parseData_ends (fuel n : Nat) (s : IffStream) (id : UInt32) (parent : Option Nat)
    (bytes : List UInt8) (newest : n < s.next) (chunk : s.chunks n = .new parent id bytes)
    (held : Held data s) (foreseen : Foreseen data (bytes.drop 4))
    (enough : bytes.length < 8 * (fuel + 1)) :
    Ends data n s (chunkEnding id bytes) (parseData (fuel + 1) n s) := by
  have stream : (s.chunks n).stream = { elementData := bytes, offset := 0 } := by
    rw [chunk, new_stream]
  have unread : (s.chunks n).stream.unread = bytes := by rw [stream]; rfl
  by_cases form : id = Chunk.FORM
  · have isForm : (s.chunks n).isFORM = true := by simp [chunk, Chunk.isFORM, Chunk.new, form]
    rw [chunkEnding, if_pos form]
    by_cases short : bytes.length < 4
    · have ended : parseData (fuel + 1) n s = _ :=
        get_bind.trans ((ite_run_pos isForm).trans
          (bind_of_error (readNetInt_short n s (by rwa [unread]))))
      rw [if_pos short, ended]
      exact .throws _ (.advanced held n 4)
    · have type := eq_beBytes_append 4 bytes (by omega)
      have read := readNetInt_spec n _ s _ (unread.trans type) (beNat_take_lt 4 bytes)
      -- the form behind its type
      let s₁ : IffStream := (s.advanced n 4).setChunk n fun chunk =>
        { chunk with formType := UInt32.ofNat (beNat (bytes.take 4)) }
      have left : (s₁.chunks n).stream.unread = bytes.drop 4 := by
        simp [s₁, advanced, stream, Stream.unread, Stream.advance]
      have looped : parseData (fuel + 1) n s = parseWhileData (parseData fuel) (fuel + 1) n s₁ :=
        get_bind.trans ((ite_run_pos isForm).trans
          ((bind_of_ok read).trans (bind_of_ok (m := modify _) rfl)))
      have ends := foreseen fuel (fuel + 1) n s₁ newest
        ((held.advanced n 4).setChunk n _ rfl rfl) left (by rw [length_drop]; omega)
        (by rw [length_drop]; omega)
      rw [if_neg short, looped]
      apply ends.from (Nat.le_refl n) (Nat.le_refl s.next)
      intro b lt
      simp only [s₁, advanced, setChunk_chunks_of_ne (Nat.ne_of_lt lt)]
  · have notForm : (s.chunks n).chunkID ≠ Chunk.FORM := by rwa [chunk]
    rw [chunkEnding, if_neg form, parseData_leaf fuel n s notForm]
    exact .success ⟨Nat.le_refl _, fun _ _ => rfl, held⟩

theorem parseSubObjects_error (parse : Nat → IffM Unit)
    (header : ¬ (s.chunks a).stream.unread.length < 8)
    (fits : ¬ (s.chunks a).stream.unread.length < 8 + announced (s.chunks a).stream.unread)
    (failed : parse s.next ((s.advanced a 8).created (some a)
      (identifier (s.chunks a).stream.unread) (payload (s.chunks a).stream.unread)) =
        .error e s') :
    parseSubObjects parse a s = .error e s' := by
  have chunk := eq_chunk header fits
  have lt : (payload (s.chunks a).stream.unread).length < 4294967296 := by
    rw [length_payload fits]
    exact announced_lt _
  have left : (s.chunks a).stream.unread.length =
      (s.chunks a).stream.elementData.length - (s.chunks a).stream.offset := length_drop
  obtain ⟨-, bytes⟩ := unread_header (s.chunks a).stream chunk
  have created := createChunk_spec (some a) (identifier (s.chunks a).stream.unread)
    (s.chunks a).stream.elementData (payload (s.chunks a).stream.unread) _
    ((s.chunks a).stream.offset + 8) bytes (by omega) (s.advanced a 8)
  rw [parseSubObjects_header parse s a chunk (UInt32.toNat_lt _) lt]
  exact (bind_of_ok created).trans (bind_of_error failed)

theorem parseWhileData_error {parse : Nat → IffM Unit} (rounds : Nat)
    (some : (s.chunks a).stream.unread ≠ []) (failed : parseSubObjects parse a s = .error e s') :
    parseWhileData parse (rounds + 1) a s = .error e s' :=
  get_bind.trans ((ite_run_pos ((hasData_iff _).mpr some)).trans
    (bind_of_error failed))

theorem Ends.round (failing : how ≠ .success) (some : (s.chunks a).stream.unread ≠ [])
    (ends : Ends data a s how (parseSubObjects parse a s)) :
    Ends data a s how (parseWhileData parse (rounds + 1) a s) := by
  generalize ran : parseSubObjects parse a s = result at ends
  cases ends with
  | success => exact absurd rfl failing
  | throws index leaves =>
    rw [parseWhileData_error rounds some ran]
    exact .throws index leaves
  | overreads leaves =>
    rw [parseWhileData_error rounds some ran]
    exact .overreads leaves

theorem payload_inside (bytes : List UInt8) : payload bytes <:+: bytes := by
  have front : payload bytes <+: bytes.drop 8 := take_prefix _ _
  exact front.isInfix.trans (drop_suffix _ _).isInfix

theorem Leaves.of_child {id : UInt32} (old : a < s.next)
    (leaves : Leaves data s.next ((s.advanced a 8).created (some a) id bytes) s') :
    Leaves data a s s' where
  next := Nat.le_of_succ_le leaves.next
  others := by
    intro b lt
    have before := created_chunks_of_lt (some a) id bytes
      (lt.trans old : b < (s.advanced a 8).next)
    rw [leaves.others b (lt.trans old), before]
    exact setChunk_chunks_of_ne (Nat.ne_of_lt lt) _ s
  held := leaves.held

theorem Ends.chunk (old : a < s.next) (held : Held data s)
    (header : ¬ (s.chunks a).stream.unread.length < 8)
    (fits : ¬ (s.chunks a).stream.unread.length < 8 + announced (s.chunks a).stream.unread)
    (first : Ends data s.next
      ((s.advanced a 8).created (some a) (identifier (s.chunks a).stream.unread)
        (payload (s.chunks a).stream.unread)) how
      (parse s.next ((s.advanced a 8).created (some a) (identifier (s.chunks a).stream.unread)
        (payload (s.chunks a).stream.unread))))
    (rest : ∀ s₂ : IffStream, a < s₂.next → Held data s₂ →
      (s₂.chunks a).stream.unread = behind (s.chunks a).stream.unread →
      Ends data a s₂ (ending false (behind (s.chunks a).stream.unread))
        (parseWhileData parse rounds a s₂)) :
    Ends data a s (how.andThen (ending false (behind (s.chunks a).stream.unread)))
      (parseWhileData parse (rounds + 1) a s) := by
  have some : (s.chunks a).stream.unread ≠ [] := fun none => header (by rw [none]; decide)
  generalize ran : parse s.next _ = result at first
  cases first with
  | throws index leaves =>
    rw [parseWhileData_error rounds some
      (parseSubObjects_error parse header fits ran)]
    exact .throws index (leaves.of_child old)
  | overreads leaves =>
    rw [parseWhileData_error rounds some
      (parseSubObjects_error parse header fits ran)]
    exact .overreads (leaves.of_child old)
  | @success s₁ leaves =>
    have small : (payload (s.chunks a).stream.unread).length < 4294967296 := by
      rw [length_payload fits]
      exact announced_lt _
    obtain ⟨s₂, step, next₂, -, unread₂, form₂, others₂, behind₂⟩ :=
      parseWhileData_step parse rounds a s s₁ _ _ _ old (eq_chunk header fits) small ran
        fun b small => (leaves.others b small).trans (created_chunks_of_lt _ _ _ small)
    have later : s.next ≤ s₂.next := next₂ ▸ Nat.le_of_succ_le leaves.next
    -- the form and the chunks before it are as they were, what stands behind them is parsed
    have held₂ : Held data s₂ := by
      intro b below
      by_cases before : b < s.next
      · by_cases same : b = a
        · rw [same, form₂]
          exact held a old
        · rw [others₂ b before same]
          exact held b before
      · rw [behind₂ b (Nat.not_lt.mp before)]
        exact leaves.held b (next₂ ▸ below)
    rw [step]
    exact (rest s₂ (old.trans_le later) held₂ unread₂).from (Nat.le_refl a) later
      fun b below => others₂ b (below.trans old) (Nat.ne_of_lt below)

theorem foreseen (data bytes : List UInt8) : Foreseen data bytes := by
  induction total : bytes.length using Nat.strong_induction_on generalizing bytes with
  | _ length ih =>
    subst total
    intro fuel rounds a s old held next deep long
    obtain ⟨rounds, rfl⟩ : ∃ k, rounds = k + 1 := ⟨rounds - 1, by omega⟩
    subst next
    by_cases header : (s.chunks a).stream.unread.length < 8
    · rw [ending_short false header, if_neg Bool.false_ne_true]
      by_cases none : (s.chunks a).stream.unread = []
      · have atEnd : ¬ (s.chunks a).stream.hasData = true := fun more =>
          (hasData_iff _).mp more none
        have ended : parseWhileData (parseData fuel) (rounds + 1) a s = _ :=
          get_bind.trans (ite_run_neg atEnd)
        rw [if_pos none, ended]
        exact .success ⟨Nat.le_refl _, fun _ _ => rfl, held⟩
      · rw [if_neg none]
        exact (parseSubObjects_short _ held header).round (by decide) none
    · by_cases more : (s.chunks a).stream.unread.length < 8 + announced (s.chunks a).stream.unread
      · have some : (s.chunks a).stream.unread ≠ [] := fun none => header (by rw [none]; decide)
        rw [ending_overreads false header more]
        exact (parseSubObjects_overreads _ held header more).round (by decide) some
      · obtain ⟨fuel, rfl⟩ : ∃ f, fuel = f + 1 := ⟨fuel - 1, by omega⟩
        have size := length_payload more
        have rest : (behind (s.chunks a).stream.unread).length + 8 ≤
            (s.chunks a).stream.unread.length := by
          rw [behind, length_drop]
          omega
        have piece : payload (s.chunks a).stream.unread <:+: data :=
          ((payload_inside _).trans (drop_suffix _ _).isInfix).trans (held a old).1
        have fst := parseData_ends fuel s.next
          ((s.advanced a 8).created (some a) (identifier (s.chunks a).stream.unread)
            (payload (s.chunks a).stream.unread)) _ (some a) _ (Nat.lt_succ_self _)
          (created_chunks_next _ _ _ _) ((held.advanced a 8).created _ _ piece)
          (ih _ (length_payload_lt header) _ rfl) (by omega)
        rw [ending_chunk false header more]
        apply Ends.chunk old held header more fst
        intro s₂ old₂ held₂ next₂
        exact ih _ (length_behind_lt header) _ rfl (fuel + 1) rounds a s₂ old₂ held₂ next₂
          (by omega) (by omega)

/-! ### The file -/

theorem readNetIntFrom_outside (bytes : List UInt8) (offs : Nat) (s : IffStream)
    (out : ¬ offs + 4 ≤ bytes.length) :
    readNetIntFrom bytes offs s = .error (.abort "read behind the buffer") s :=
  if_neg out

theorem loadMainChunks_short (fuel : Nat) (held : Held data s)
    (short : (data.drop offset).length < 8) :
    Ends data 0 s (ending true (data.drop offset)) (loadMainChunks data (fuel + 1) offset s) := by
  have left : (data.drop offset).length = data.length - offset := length_drop
  rw [ending_short true short, if_pos rfl]
  by_cases few : (data.drop offset).length ≤ 4
  · have ended : loadMainChunks data (fuel + 1) offset s = _ := ite_run_neg (by omega)
    rw [if_pos few, ended]
    exact .success ⟨Nat.le_refl _, fun _ _ => rfl, held⟩
  · have type := readNetIntFrom_spec s
      (eq_beBytes_append 4 (data.drop offset) (by omega)) (beNat_take_lt 4 _)
    have ended : loadMainChunks data (fuel + 1) offset s = _ :=
      (ite_run_pos (by omega)).trans ((bind_of_ok type).trans
        (bind_of_error (readNetIntFrom_outside data (offset + 4) s (by omega))))
    rw [if_neg few, ended]
    exact .overreads ⟨Nat.le_refl _, fun _ _ => rfl, held⟩

theorem loadMainChunks_error (header : ¬ (data.drop offset).length < 8)
    (fits : ¬ (data.drop offset).length < 8 + announced (data.drop offset))
    (failed : parseData fuel s.next (s.created none (identifier (data.drop offset))
      (payload (data.drop offset))) = .error e s') :
    loadMainChunks data (fuel + 1) offset s = .error e s' := by
  have lt : (payload (data.drop offset)).length < 4294967296 := by
    rw [length_payload fits]
    exact announced_lt _
  obtain ⟨read, bytes, hin⟩ := loadMainChunks_header fuel s
    (eq_chunk header fits) (UInt32.toNat_lt _) lt
  rw [read]
  exact (bind_of_ok (createChunk_spec none _ data _ _ _ bytes hin s)).trans
    (bind_of_error failed)

theorem loadMainChunks_ends (data : List UInt8) (fuel offset : Nat) (s : IffStream)
    (held : Held data s) (long : (data.drop offset).length < 8 * fuel) :
    Ends data 0 s (ending true (data.drop offset)) (loadMainChunks data fuel offset s) := by
  induction fuel generalizing offset s with
  | zero => omega
  | succ fuel ih =>
    by_cases header : (data.drop offset).length < 8
    · exact loadMainChunks_short fuel held header
    have left : (data.drop offset).length = data.length - offset := length_drop
    by_cases more : (data.drop offset).length < 8 + announced (data.drop offset)
    · obtain ⟨read, -, -⟩ := loadMainChunks_header fuel s
        (eq_header header) (UInt32.toNat_lt _) (announced_lt _)
      rw [ending_overreads true header more, read,
        bind_of_error (createChunk_outside _ _ _ (by omega))]
      exact .overreads ⟨Nat.le_refl _, fun _ _ => rfl, held⟩
    obtain ⟨fuel, rfl⟩ : ∃ f, fuel = f + 1 := ⟨fuel - 1, by omega⟩
    have size := length_payload more
    have piece : payload (data.drop offset) <:+: data :=
      (payload_inside _).trans (drop_suffix _ _).isInfix
    have first := parseData_ends fuel s.next (s.created none (identifier (data.drop offset))
      (payload (data.drop offset))) _ none _ (Nat.lt_succ_self _) (created_chunks_next _ _ _ _)
      (held.created none _ piece) (foreseen data _) (by omega)
    rw [ending_chunk true header more]
    -- how the first chunk ends decides whether the loop goes on
    generalize chunkEnding _ _ = how at first ⊢
    generalize ran : parseData (fuel + 1) s.next _ = result at first
    cases first with
    | throws index leaves =>
      rw [loadMainChunks_error header more ran]
      exact .throws index ⟨Nat.le_of_succ_le leaves.next, fun _ none => absurd none (by omega),
        leaves.held⟩
    | overreads leaves =>
      rw [loadMainChunks_error header more ran]
      exact .overreads ⟨Nat.le_of_succ_le leaves.next, fun _ none => absurd none (by omega),
        leaves.held⟩
    | @success s₁ leaves =>
      obtain ⟨step, rest⟩ := loadMainChunks_step
        (eq_chunk header more) (by rw [size]; exact announced_lt _) ran
      have shorter := length_behind_lt header
      rw [step, ← rest]
      apply Ends.from (ih _ { s₁ with mainChunks := s₁.mainChunks ++ [s.next] } leaves.held ?_)
        (Nat.le_refl 0) (Nat.le_of_succ_le leaves.next) fun _ none => absurd none (by omega)
      rw [rest, behind, length_drop]
      omega

theorem parseChunks_ends {data : List UInt8} (le : 8 ≤ data.length)
    (rounds : data.length < 8 * fuel) :
    (ending true data = .success ∧ ∃ s, parseChunks fuel data empty = .ok true s ∧ Held data s) ∨
      (ending true data = .throws ∧ ∃ index s,
        parseChunks fuel data empty = .error (.streamIndexOutOfBounds index) s ∧ Held data s) ∨
      (ending true data = .overreads ∧ ∃ s,
        parseChunks fuel data empty = .error (.abort "read behind the buffer") s) := by
  have ends := loadMainChunks_ends data fuel 0 empty (fun _ none => absurd none (Nat.not_lt_zero _))
    rounds
  have start : parseChunks fuel data empty = (do loadMainChunks data fuel 0; return true) empty :=
    ite_run_neg (Nat.not_lt.mpr le)
  rw [drop_zero] at ends
  rw [start]
  generalize ending true data = how at ends ⊢
  generalize ran : loadMainChunks data fuel 0 empty = result at ends
  cases ends with
  | @success s leaves => exact .inl ⟨rfl, s, bind_of_ok ran, leaves.held⟩
  | @throws s index leaves =>
    exact .inr (.inl ⟨rfl, index, s, bind_of_error ran, leaves.held⟩)
  | @overreads s => exact .inr (.inr ⟨rfl, s, bind_of_error ran⟩)

def Sized (data : List UInt8) (s : IffStream) : Prop :=
  ∀ b < s.next, 0 ≤ i32 (s.chunks b).chunkSize ∧ (s.chunks b).chunkSize ≤ data.length

theorem Held.sized (held : Held data s) (int : data.length < 2 ^ 31) : Sized data s := by
  intro b old
  obtain ⟨piece, size⟩ := held b old
  have lt := piece.length_le
  rw [size, i32_of_small _ (by omega) (by omega)]
  exact ⟨Int.natCast_nonneg _, lt⟩

/-- The parser returned or threw. What stays behind is a read outside of the data, and a loop that
never ends. -/
def Safe (data : List UInt8) : EStateM.Result Exception IffStream Bool → Prop
  | .ok answer s => answer = true ∧ Sized data s
  | .error (.abort _) _ => False
  | .error _ s => Sized data s

/-- Exactly if every size that is reached fits into what is left of the form or the file. -/
theorem parseChunks_safe_iff (data : List UInt8) (fuel : Nat) (enough : 8 ≤ data.length)
    (int : data.length < 2 ^ 31) (rounds : data.length < 8 * fuel) :
    (Safe data (parseChunks fuel data empty) ↔ ending true data ≠ .overreads) ∧
      (ending true data = .overreads → ∃ s,
        parseChunks fuel data empty = .error (.abort "read behind the buffer") s) := by
  rcases parseChunks_ends enough rounds with
    ⟨how, s, ran, held⟩ | ⟨how, index, s, ran, held⟩ | ⟨how, s, ran⟩
  · rw [how, ran]
    exact ⟨⟨fun _ => by decide, fun _ => ⟨rfl, held.sized int⟩⟩, fun eq => nomatch eq⟩
  · rw [how, ran]
    exact ⟨⟨fun _ => by decide, fun _ => held.sized int⟩, fun eq => nomatch eq⟩
  · rw [how, ran]
    exact ⟨⟨fun safe => safe.elim, fun ne => absurd rfl ne⟩, fun _ => ⟨s, rfl⟩⟩

theorem parseChunks_safe_cut :
    Safe [70, 79, 82, 77, 0, 0, 0, 5, 84, 69, 83, 84, 68]
      (parseChunks 2 [70, 79, 82, 77, 0, 0, 0, 5, 84, 69, 83, 84, 68] empty) :=
  (parseChunks_safe_iff [70, 79, 82, 77, 0, 0, 0, 5, 84, 69, 83, 84, 68] 2 (by decide) (by decide)
    (by decide)).1.mpr (by decide +kernel)

theorem parseChunks_hostile :
    (∀ fuel, ¬ Safe [70, 79, 82, 77, 0, 0, 0, 100]
      (parseChunks (fuel + 3) [70, 79, 82, 77, 0, 0, 0, 100] empty)) ∧
    (∀ fuel, ¬ Safe
      [70, 79, 82, 77, 0, 0, 0, 12, 84, 69, 83, 84, 68, 65, 84, 65, 255, 255, 255, 255]
      (parseChunks (fuel + 3)
        [70, 79, 82, 77, 0, 0, 0, 12, 84, 69, 83, 84, 68, 65, 84, 65, 255, 255, 255, 255] empty)) ∧
    ∀ fuel, ¬ Safe [68, 65, 84, 65, 0, 0, 0, 0, 1, 2, 3, 4, 5]
      (parseChunks (fuel + 3) [68, 65, 84, 65, 0, 0, 0, 0, 1, 2, 3, 4, 5] empty) :=
  ⟨fun _ safe => safe, fun _ safe => safe, fun _ safe => safe⟩

end IffHostile

end Engine3
