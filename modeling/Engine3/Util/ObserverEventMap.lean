import Engine3.Library.Exec
import Engine3.System.SortedVector
import Engine3.System.Stream

/-!
# Observers

`engine/util/ObserverEventMap`: for each event type the observers that are to be notified, sorted by
their object ids. A notification copies the list and then calls one handler after the other; a
handler may itself register, drop and notify on the same map, and an observer whose handler
returns 1 is dropped.

What a handler does next may depend on everything that has happened. The hash table is the function
from event types to the lists it holds.
-/
namespace Engine3

open Exec List SortedVector

inductive HandlerStep
  | registerObserver (eventType : UInt32) (observer : Option UInt64)
  | dropObserver (eventType : UInt32) (observer : Option UInt64)
  | notifyObservers (eventType : UInt32)
  | finish (result : Int)

inductive ObserverEvent
  | registered (eventType : UInt32) (observer : UInt64)
  | dropped (eventType : UInt32) (observer : UInt64)
  | invoked (eventType : UInt32) (observer : UInt64)
  | took (step : HandlerStep)
  | returned (eventType : UInt32) (observer : UInt64) (result : Int)

structure ObserverEventMap where
  entries : UInt32 → Option (List UInt64)
  log : List ObserverEvent

namespace ObserverEventMap

abbrev MapM := EStateM Exception ObserverEventMap

def compareTo (a b : UInt64) : Int := if a < b then 1 else if b < a then -1 else 0

def record (event : ObserverEvent) : MapM Unit := modify fun m => { m with log := event :: m.log }

def registerObserver (eventType : UInt32) : Option UInt64 → MapM Unit
  | none => pure ()
  | some observer => do
    let m ← get
    let observers := match m.entries eventType with
      | none => (put compareTo .allowDuplicate observer []).1
      | some observers => (put compareTo .noDuplicate observer observers).1
    set { m with entries := Function.update m.entries eventType (some observers) }
    record (.registered eventType observer)

def dropObserver (eventType : UInt32) : Option UInt64 → MapM Unit
  | none => pure ()
  | some observer => do
    let m ← get
    match m.entries eventType with
    | none => pure ()
    | some observers =>
      let observers := (drop compareTo observer observers).2
      set { m with entries :=
        Function.update m.entries eventType (if observers = [] then none else some observers) }
    record (.dropped eventType observer)

def notifyObserverEvent (handler : MapM Int) (eventType : UInt32) (observer : UInt64) :
    MapM Int := do
  record (.invoked eventType observer)
  let result ← handler
  record (.returned eventType observer result)
  return result

def notifyObserver (handler : MapM Int) (eventType : UInt32) (observer : UInt64) : MapM Int := do
  let result ← notifyObserverEvent handler eventType observer
  if result = 1 then dropObserver eventType (some observer)
  return result

def notifyLoop (handler : MapM Int) (eventType : UInt32) :
    List UInt64 → MapM (List (UInt64 × Int))
  | [] => pure []
  | observer :: rest => do
    let result ← notifyObserver handler eventType observer
    return (observer, result) :: (← notifyLoop handler eventType rest)

def notifyObservers (handler : MapM Int) (eventType : UInt32) : MapM (List (UInt64 × Int)) := do
  match (← get).entries eventType with
  | none => pure []
  | some observers => notifyLoop handler eventType observers

def handler (next : List ObserverEvent → HandlerStep) : Nat → MapM Int
  | 0 => throw (.abort "out of stack")
  | fuel + 1 => do
    let step := next (← get).log
    record (.took step)
    match step with
    | .finish result => return result
    | .registerObserver eventType observer => registerObserver eventType observer
    | .dropObserver eventType observer => dropObserver eventType observer
    | .notifyObservers eventType => discard (notifyObservers (handler next fuel) eventType)
    handler next fuel

/-! ### Calls within calls -/

def outermost : Nat → List ObserverEvent → List ObserverEvent
  | _, [] => []
  | depth, event :: events =>
    match event with
    | .invoked .. =>
      if depth = 0 then event :: outermost 1 events else outermost (depth + 1) events
    | .returned .. =>
      if depth = 1 then event :: outermost 0 events else outermost (depth - 1) events
    | _ => outermost depth events

def Nested (events : List ObserverEvent) : Prop :=
  ∀ depth rest, outermost (depth + 1) (events ++ rest) = outermost (depth + 1) rest

def callEvents (eventType : UInt32) (calls : List (UInt64 × Int)) : List ObserverEvent :=
  calls.flatMap fun call => [.invoked eventType call.1, .returned eventType call.1 call.2]

section Nesting

variable {events events' rest : List ObserverEvent} {eventType : UInt32} {observer : UInt64}
  {result : Int}

theorem Nested.append (first : Nested events) (second : Nested events') :
    Nested (events ++ events') := by
  intro depth rest
  rw [append_assoc, first, second]

theorem Nested.call (body : Nested events) :
    Nested (.invoked eventType observer :: events ++ [.returned eventType observer result]) := by
  intro depth rest
  simp [outermost, body (depth + 1)]

theorem outermost_call (body : Nested events) :
    outermost 0 (.invoked eventType observer :: events ++
        .returned eventType observer result :: rest) =
      .invoked eventType observer :: .returned eventType observer result :: outermost 0 rest := by
  simp [outermost, body 0]

end Nesting

/-! ### What holds whatever the handlers do -/

def observersOf (m : ObserverEventMap) (eventType : UInt32) : List UInt64 :=
  (m.entries eventType).getD []

/-- The map between calls. -/
structure Valid (m : ObserverEventMap) : Prop where
  filled : ∀ eventType, m.entries eventType ≠ some []
  sorted : ∀ eventType, StrictlySorted UInt64.toNat (m.observersOf eventType)
  /-- Who is registered though its handler has returned 1 has been registered since. -/
  again : ∀ eventType observer later earlier,
    m.log = later ++ .returned eventType observer 1 :: earlier →
      observer ∈ m.observersOf eventType → .registered eventType observer ∈ later

def Keeps {α : Type} (program : MapM α) : Prop :=
  ∀ m a m', program m = .ok a m' → Valid m →
    Valid m' ∧ ∃ events, Nested events ∧ m'.log = events.reverse ++ m.log

variable {m m' : ObserverEventMap} {event : ObserverEvent} {eventType : UInt32} {observer : UInt64}
  {observers : List UInt64}

theorem compareTo_orderedBy : OrderedBy compareTo UInt64.toNat := by
  constructor <;> intro a b <;> simp only [compareTo, UInt64.lt_iff_toNat_lt]
  · split_ifs <;> omega
  · split_ifs <;> simp <;> omega

def setObservers (m : ObserverEventMap) (eventType : UInt32) (observers : List UInt64) :
    ObserverEventMap :=
  { m with entries :=
    Function.update m.entries eventType (if observers = [] then none else some observers) }

theorem observersOf_setObservers (e : UInt32) :
    (m.setObservers eventType observers).observersOf e =
      if e = eventType then observers else m.observersOf e := by
  unfold observersOf setObservers
  by_cases eq : e = eventType
  · subst eq
    simp only [Function.update_self, if_true]
    split_ifs with empty
    · exact empty.symm
    · rfl
  · simp only [Function.update_of_ne eq, if_neg eq]

theorem Valid.setObservers (valid : Valid m) (eventType : UInt32) (events : List ObserverEvent)
    (sorted : StrictlySorted UInt64.toNat observers)
    (known : ∀ o ∈ observers, o ∈ m.observersOf eventType ∨ .registered eventType o ∈ events)
    (gone : ∀ e o, .returned e o 1 ∈ events →
      o ∉ (m.setObservers eventType observers).observersOf e) :
    Valid { m.setObservers eventType observers with log := events ++ m.log } where
  filled e := by
    by_cases same : e = eventType
    · subst same
      simp only [ObserverEventMap.setObservers, Function.update_self]
      split_ifs with empty <;> simp [empty]
    · simpa [ObserverEventMap.setObservers, Function.update_of_ne same] using valid.filled e
  sorted e := by
    change StrictlySorted _ ((m.setObservers eventType observers).observersOf e)
    rw [observersOf_setObservers]
    split_ifs
    · exact sorted
    · exact valid.sorted e
  again e o later earlier split here := by
    change o ∈ (m.setObservers eventType observers).observersOf e at here
    have before (old : List ObserverEvent) (logged : m.log = old ++ .returned e o 1 :: earlier) :
        .registered e o ∈ events ++ old := by
      have again := valid.again e o old earlier logged
      rw [observersOf_setObservers] at here
      split_ifs at here with same
      · subst same
        rcases known o here with member | new
        · exact mem_append_right _ (again member)
        · exact mem_append_left _ new
      · exact mem_append_right _ (again here)
    rcases append_eq_append_iff.mp split with ⟨old, rfl, logged⟩ | ⟨new, rfl, logged⟩
    · exact before old logged
    · cases new with
      | nil => simpa using before [] logged.symm
      | cons first new =>
        obtain ⟨rfl, -⟩ := cons.inj logged
        exact absurd here (gone e o (by simp))

theorem setObservers_self (filled : ∀ e, m.entries e ≠ some []) :
    m.setObservers eventType (m.observersOf eventType) = m := by
  have same : (if m.observersOf eventType = [] then none else some (m.observersOf eventType)) =
      m.entries eventType := by
    have nonempty := filled eventType
    unfold observersOf
    cases entry : m.entries eventType with
    | none => rfl
    | some observers =>
      rw [entry] at nonempty
      exact if_neg fun empty => nonempty (congrArg some empty)
  rw [setObservers, same, Function.update_eq_self]

/-! ### What the operations do -/

theorem Valid.record (valid : Valid m)
    (gone : ∀ e o, event = .returned e o 1 → o ∉ m.observersOf e) :
    Valid { m with log := event :: m.log } := by
  have self : m.setObservers 0 (m.observersOf 0) = m := setObservers_self valid.filled
  have kept := valid.setObservers 0 [event] (valid.sorted 0) (fun o member => .inl member) (by
    rw [self]
    intro e o member
    exact gone e o (mem_singleton.mp member).symm)
  rwa [self] at kept

theorem put_registers (observer : UInt64) (sorted : StrictlySorted UInt64.toNat observers) :
    observer ∈ (put compareTo .noDuplicate observer observers).1 ∧
    StrictlySorted UInt64.toNat (put compareTo .noDuplicate observer observers).1 := by
  by_cases present : observer ∈ observers
  · rw [put_noDuplicate_present compareTo_orderedBy sorted present rfl]
    exact ⟨present, sorted⟩
  · have absent : ∀ o ∈ observers, o.toNat ≠ observer.toNat :=
      fun o member same => present (UInt64.toNat_inj.mp same ▸ member)
    obtain ⟨sorted', members⟩ := put_noDuplicate_absent compareTo_orderedBy observer sorted absent
    exact ⟨(members observer).mpr (.inl rfl), sorted'⟩

theorem registerObserver_eq (valid : Valid m) :
    registerObserver eventType (some observer) m = .ok ()
      { m.setObservers eventType
          (put compareTo .noDuplicate observer (m.observersOf eventType)).1 with
        log := .registered eventType observer :: m.log } := by
  have nonempty := ne_nil_of_mem (put_registers observer (valid.sorted eventType)).1
  unfold setObservers
  rw [if_neg nonempty, registerObserver, get_bind]
  unfold observersOf
  cases m.entries eventType with
  | none => rfl
  | some observers => rfl

theorem dropObserver_eq (filled : ∀ e, m.entries e ≠ some []) :
    dropObserver eventType (some observer) m = .ok ()
      { m.setObservers eventType
          (drop compareTo observer (m.observersOf eventType)).2 with
        log := .dropped eventType observer :: m.log } := by
  rw [dropObserver, get_bind]
  cases entry : m.entries eventType with
  | none =>
    have nobody : (drop compareTo observer (m.observersOf eventType)).2 =
        m.observersOf eventType := by
      rw [observersOf, entry]
      rfl
    rw [nobody, setObservers_self filled]
    rfl
  | some observers =>
    rw [observersOf, entry]
    rfl

theorem Valid.drop (valid : Valid m) (eventType : UInt32) (observer : UInt64)
    (events : List ObserverEvent)
    (gone : ∀ e o, .returned e o 1 ∈ events → e = eventType ∧ o = observer) :
    ∃ m', dropObserver eventType (some observer) { m with log := events ++ m.log } = .ok () m' ∧
      Valid m' ∧ m'.log = .dropped eventType observer :: events ++ m.log := by
  have members := mem_drop_iff (o := observer) compareTo_orderedBy
    (fun _ _ => UInt64.toNat_inj.mp) (valid.sorted eventType)
  refine ⟨_, dropObserver_eq valid.filled, ?_, rfl⟩
  apply valid.setObservers eventType (.dropped eventType observer :: events)
  · exact (valid.sorted eventType).sublist (drop_sublist ..)
  · exact fun o member => .inl ((members o).mp member).1
  · intro e o member
    obtain ⟨rfl, rfl⟩ := gone e o (by simpa using member)
    change o ∉ (m.setObservers e (SortedVector.drop compareTo o (m.observersOf e)).2).observersOf e
    rw [observersOf_setObservers, if_pos rfl, members]
    exact fun both => both.2 rfl

theorem kept_single (single : Nested [event]) (valid : Valid m')
    (log : m'.log = event :: m.log) :
    Valid m' ∧ ∃ events, Nested events ∧ m'.log = events.reverse ++ m.log :=
  ⟨valid, [event], single, log⟩

theorem kept_nothing (valid : Valid m) :
    Valid m ∧ ∃ events, Nested events ∧ m.log = events.reverse ++ m.log :=
  ⟨valid, [], fun _ _ => rfl, rfl⟩

theorem keeps_registerObserver : ∀ observer, Keeps (registerObserver eventType observer)
  | none => by
    rintro m a m' ⟨⟩ valid
    exact kept_nothing valid
  | some observer => by
    intro m a m' ran valid
    rw [registerObserver_eq valid] at ran
    cases ran
    refine kept_single (fun _ _ => rfl) (valid.setObservers _ [_]
      (put_registers _ (valid.sorted eventType)).2 ?_ (by simp)) rfl
    intro o member
    rcases mem_of_mem_put member with rfl | old
    · exact .inr mem_cons_self
    · exact .inl old

theorem keeps_dropObserver : ∀ observer, Keeps (dropObserver eventType observer)
  | none => by
    rintro m a m' ⟨⟩ valid
    exact kept_nothing valid
  | some observer => by
    intro m a m' ran valid
    obtain ⟨m'', dropped, valid', log⟩ := valid.drop eventType observer [] (by simp)
    cases ran.symm.trans dropped
    exact kept_single (fun _ _ => rfl) valid' log

/-! ### Whatever the handlers do -/

theorem Keeps.bind {α β : Type} {p : MapM α} {f : α → MapM β} (first : Keeps p)
    (rest : ∀ a, Keeps (f a)) : Keeps (p >>= f) := by
  intro m b m' ran valid
  obtain ⟨a, m₁, begun, ran⟩ := bind_ok_iff.mp ran
  obtain ⟨valid₁, events, nested, log⟩ := first m a m₁ begun valid
  obtain ⟨valid', events', nested', log'⟩ := rest a m₁ b m' ran valid₁
  refine ⟨valid', events ++ events', nested.append nested', ?_⟩
  rw [log', log, reverse_append, append_assoc]

theorem keeps_took (step : HandlerStep) : Keeps (record (.took step)) := by
  rintro m a m' ⟨⟩ valid
  exact kept_single (fun _ _ => rfl) (valid.record nofun) rfl

theorem keeps_pure {α : Type} (a : α) : Keeps (pure a : MapM α) := by
  rintro m a m' ⟨⟩ valid
  exact kept_nothing valid

theorem keeps_get {α : Type} {f : ObserverEventMap → MapM α} (rest : ∀ m, Keeps (f m)) :
    Keeps (get >>= f) :=
  fun m => rest m m

variable {body : MapM Int}

theorem notifyObserver_of_ok {result : Int} (valid : Valid m')
    (ran : body { m with log := .invoked eventType observer :: m.log } = .ok result m') :
    ∃ m'' after, notifyObserver body eventType observer m = .ok result m'' ∧ Valid m'' ∧
      (after = [] ∨ after = [.dropped eventType observer]) ∧
      m''.log = after ++ .returned eventType observer result :: m'.log := by
  have called : notifyObserverEvent body eventType observer m =
      .ok result { m' with log := .returned eventType observer result :: m'.log } :=
    bind_of_ok ran
  unfold notifyObserver
  rw [bind_of_ok called]
  by_cases one : result = 1
  · subst one
    obtain ⟨m'', dropped, valid'', log⟩ := valid.drop eventType observer
      [.returned eventType observer 1] (by simp)
    exact ⟨m'', [.dropped eventType observer], bind_of_ok dropped, valid'', .inr rfl, log⟩
  · refine ⟨_, [], by rw [if_neg one]; rfl, valid.record ?_, .inl rfl, rfl⟩
    rintro e o ⟨⟩
    exact absurd rfl one

theorem notifyObserver_calls (keeps : Keeps body) (valid : Valid m) {result : Int}
    (ran : notifyObserver body eventType observer m = .ok result m') :
    Valid m' ∧ ∃ events, Nested events ∧ m'.log = events.reverse ++ m.log ∧
      ∀ rest, outermost 0 (events ++ rest) =
        callEvents eventType [(observer, result)] ++ outermost 0 rest := by
  obtain ⟨answer, m₂, called, -⟩ := bind_ok_iff.mp ran
  obtain ⟨_, m₁, began, called⟩ := bind_ok_iff.mp called
  cases began
  obtain ⟨answer', m₃, handled, -⟩ := bind_ok_iff.mp called
  obtain ⟨valid₃, events, nested, log₃⟩ := keeps _ _ _ handled (valid.record nofun)
  obtain ⟨m'', after, again, valid', shape, log⟩ := notifyObserver_of_ok valid₃ handled
  cases ran.symm.trans again
  -- a drop at the end is not a call
  have quiet : Nested after ∧ ∀ rest, outermost 0 (after ++ rest) = outermost 0 rest := by
    rcases shape with rfl | rfl
    · exact ⟨fun _ _ => rfl, fun _ => rfl⟩
    · exact ⟨fun _ _ => rfl, fun _ => rfl⟩
  have palindrome : after.reverse = after := by
    rcases shape with rfl | rfl <;> rfl
  refine ⟨valid', (.invoked eventType observer :: events ++
    [.returned eventType observer result]) ++ after, nested.call.append quiet.1, ?_, fun rest => ?_⟩
  · rw [log, log₃]
    simp [palindrome]
  · have shifted : outermost 0 (.invoked eventType observer :: events ++
          .returned eventType observer result :: (after ++ rest)) =
        .invoked eventType observer :: .returned eventType observer result ::
          outermost 0 (after ++ rest) :=
      outermost_call nested
    simpa [callEvents, quiet.2] using shifted

theorem notifyLoop_calls (keeps : Keeps body) {observers : List UInt64}
    {calls : List (UInt64 × Int)} (valid : Valid m)
    (ran : notifyLoop body eventType observers m = .ok calls m') :
    calls.map Prod.fst = observers ∧ Valid m' ∧
      ∃ events, Nested events ∧ m'.log = events.reverse ++ m.log ∧
        outermost 0 events = callEvents eventType calls := by
  induction observers generalizing m calls with
  | nil =>
    cases ran
    exact ⟨rfl, valid, [], fun _ _ => rfl, rfl, rfl⟩
  | cons observer rest ih =>
    obtain ⟨result, m₁, notified, ran⟩ := bind_ok_iff.mp ran
    obtain ⟨others, m₂, looped, ran⟩ := bind_ok_iff.mp ran
    cases ran
    obtain ⟨valid₁, events, nested, log₁, calls⟩ := notifyObserver_calls keeps valid notified
    obtain ⟨all, valid', events', nested', log', calls'⟩ := ih valid₁ looped
    refine ⟨congrArg (observer :: ·) all, valid', events ++ events', nested.append nested', ?_, ?_⟩
    · rw [log', log₁, reverse_append, append_assoc]
    · rw [calls, calls']
      rfl

theorem notifyObservers_calls (keeps : Keeps body) {calls : List (UInt64 × Int)} (valid : Valid m)
    (ran : notifyObservers body eventType m = .ok calls m') :
    calls.map Prod.fst = m.observersOf eventType ∧ Valid m' ∧
      ∃ events, Nested events ∧ m'.log = events.reverse ++ m.log ∧
        outermost 0 events = callEvents eventType calls := by
  rw [notifyObservers, get_bind] at ran
  unfold observersOf
  cases entry : m.entries eventType with
  | none =>
    rw [entry] at ran
    cases ran
    exact ⟨rfl, valid, [], fun _ _ => rfl, rfl, rfl⟩
  | some observers =>
    rw [entry] at ran
    exact notifyLoop_calls keeps valid ran

theorem notifyObservers_keeps (keeps : Keeps body) : Keeps (notifyObservers body eventType) := by
  intro m calls m' ran valid
  obtain ⟨-, valid', events, nested, log, -⟩ := notifyObservers_calls keeps valid ran
  exact ⟨valid', events, nested, log⟩

theorem handler_keeps (next : List ObserverEvent → HandlerStep) (fuel : Nat) :
    Keeps (handler next fuel) := by
  induction fuel with
  | zero => exact fun _ _ _ ran => nomatch ran
  | succ fuel ih =>
    refine keeps_get fun m => (keeps_took _).bind fun _ => ?_
    split
    · exact keeps_pure _
    · exact (keeps_registerObserver _).bind fun _ => ih
    · exact (keeps_dropObserver _).bind fun _ => ih
    · exact Keeps.bind ((notifyObservers_keeps ih).bind fun _ => keeps_pure _) fun _ => ih

/-! ### Returning -/

def Finishes {α : Type} (count : Nat) (program : MapM α) : Prop :=
  ∀ m, Valid m → count ≤ m.log.length → ∃ a m', program m = .ok a m'

variable {count : Nat}

theorem Finishes.bind {α β : Type} {p : MapM α} {f : α → MapM β} (keeps : Keeps p)
    (first : Finishes count p) (rest : ∀ a, Finishes count (f a)) : Finishes count (p >>= f) := by
  intro m valid enough
  obtain ⟨a, m₁, ran⟩ := first m valid enough
  obtain ⟨valid₁, events, -, log⟩ := keeps m a m₁ ran valid
  obtain ⟨b, m', ran'⟩ := rest a m₁ valid₁ (by rw [log, length_append]; omega)
  exact ⟨b, m', (bind_of_ok ran).trans ran'⟩

theorem finishes_registerObserver (observer : Option UInt64) :
    Finishes count (registerObserver eventType observer) := by
  intro m valid _
  cases observer with
  | none => exact ⟨_, _, rfl⟩
  | some observer => exact ⟨_, _, registerObserver_eq valid⟩

theorem finishes_dropObserver (observer : Option UInt64) :
    Finishes count (dropObserver eventType observer) := by
  intro m valid _
  cases observer with
  | none => exact ⟨_, _, rfl⟩
  | some observer => exact ⟨_, _, dropObserver_eq valid.filled⟩

theorem finishes_notifyObserver (keeps : Keeps body) (finishes : Finishes count body) :
    Finishes count (notifyObserver body eventType observer) := by
  intro m valid enough
  have began : Valid { m with log := .invoked eventType observer :: m.log } := valid.record nofun
  obtain ⟨result, m', ran⟩ := finishes _ began (Nat.le_succ_of_le enough)
  obtain ⟨m'', -, called, -⟩ := notifyObserver_of_ok (keeps _ _ _ ran began).1 ran
  exact ⟨result, m'', called⟩

theorem finishes_notifyObservers (keeps : Keeps body) (finishes : Finishes count body) :
    Finishes count (notifyObservers body eventType) := by
  have loop (observers : List UInt64) : Finishes count (notifyLoop body eventType observers) := by
    induction observers with
    | nil => exact fun m _ _ => ⟨_, _, rfl⟩
    | cons observer rest ih =>
      refine Finishes.bind (fun m result m' ran valid => ?_)
        (finishes_notifyObserver keeps finishes) fun result => Finishes.bind ?_ ih
          fun calls m _ _ => ⟨_, _, rfl⟩
      · obtain ⟨valid', events, nested, log, -⟩ := notifyObserver_calls keeps valid ran
        exact ⟨valid', events, nested, log⟩
      · intro m calls m' ran valid
        obtain ⟨-, valid', events, nested, log, -⟩ := notifyLoop_calls keeps valid ran
        exact ⟨valid', events, nested, log⟩
  intro m valid enough
  rw [notifyObservers, get_bind]
  cases m.entries eventType with
  | none => exact ⟨_, _, rfl⟩
  | some observers => exact loop observers m valid enough

theorem handler_finishes {next : List ObserverEvent → HandlerStep} {bound : Nat}
    (ends : ∀ log, bound ≤ log.length → ∃ result, next log = .finish result) (fuel : Nat) :
    Finishes (bound - fuel) (handler next (fuel + 1)) := by
  induction fuel with
  | zero =>
    intro m valid enough
    obtain ⟨result, finished⟩ := ends m.log enough
    refine ⟨result, { m with log := .took (.finish result) :: m.log }, ?_⟩
    rw [handler, get_bind, finished]
    rfl
  | succ fuel ih =>
    intro m valid enough
    have keeps := handler_keeps next (fuel + 1)
    have began : Valid { m with log := .took (next m.log) :: m.log } := valid.record nofun
    have room : bound - fuel ≤ (.took (next m.log) :: m.log).length := by
      rw [length_cons]
      omega
    rw [handler, get_bind]
    generalize next m.log = step at began room ⊢
    cases step with
    | finish result => exact ⟨_, _, rfl⟩
    | registerObserver eventType observer =>
      exact Finishes.bind (keeps_registerObserver _) (finishes_registerObserver _) (fun _ => ih)
        _ began room
    | dropObserver eventType observer =>
      exact Finishes.bind (keeps_dropObserver _) (finishes_dropObserver _) (fun _ => ih)
        _ began room
    | notifyObservers eventType =>
      exact Finishes.bind ((notifyObservers_keeps keeps).bind fun _ => keeps_pure _)
        (Finishes.bind (notifyObservers_keeps keeps) (finishes_notifyObservers keeps ih)
          fun _ _ _ _ => ⟨_, _, rfl⟩) (fun _ => ih) _ began room

/-- Whatever the handlers do, those registered at the beginning are called once, in order. -/
theorem notifyObservers_exact (next : List ObserverEvent → HandlerStep) (valid : Valid m)
    (eventType : UInt32) :
    (∀ bound, (∀ log, bound ≤ log.length → ∃ result, next log = .finish result) →
      ∀ fuel > bound, ∃ calls m', notifyObservers (handler next fuel) eventType m = .ok calls m') ∧
    ∀ fuel calls m', notifyObservers (handler next fuel) eventType m = .ok calls m' →
      calls.map Prod.fst = m.observersOf eventType ∧ (m.observersOf eventType).Nodup ∧
      (∃ events, m'.log = events.reverse ++ m.log ∧
        outermost 0 events = calls.flatMap fun call =>
          [.invoked eventType call.1, .returned eventType call.1 call.2]) ∧
      (∀ observer, (observer, 1) ∈ calls →
        ∀ later earlier, m'.log = later ++ .returned eventType observer 1 :: earlier →
          observer ∈ m'.observersOf eventType → .registered eventType observer ∈ later) ∧
      ∀ e, m'.entries e ≠ some [] := by
  refine ⟨fun bound ends fuel more => ?_, fun fuel calls m' ran => ?_⟩
  · obtain ⟨fuel, rfl⟩ := Nat.exists_eq_add_of_lt more
    exact finishes_notifyObservers (handler_keeps next _) (handler_finishes ends (bound + fuel)) m
      valid (by omega)
  · obtain ⟨all, valid', events, -, log, calls⟩ :=
      notifyObservers_calls (handler_keeps next fuel) valid ran
    exact ⟨all, nodup_of_strictlySorted (valid.sorted eventType), ⟨events, log, calls⟩,
      fun observer _ => valid'.again eventType observer, valid'.filled⟩

def two : ObserverEventMap := ⟨fun e => if e = 3 then some [5, 9] else none, []⟩

theorem valid_two : Valid two where
  filled e := by
    dsimp only [two]
    split_ifs <;> simp
  sorted e := by
    dsimp only [two, observersOf]
    split_ifs
    · simp [StrictlySorted]
    · exact Pairwise.nil
  again e o later earlier nothing := by
    cases later <;> cases nothing

def restoring (log : List ObserverEvent) : HandlerStep :=
  match log.length with
  | 1 => .notifyObservers 3
  | 8 => .finish 1
  | 12 => .registerObserver 3 (some 5)
  | _ => .finish 0

theorem notifyObservers_exact_two :
    (∃ calls m', notifyObservers (handler restoring 14) 3 two = .ok calls m') ∧
      ∃ m', notifyObservers (handler restoring 3) 3 two = .ok [(5, 1), (9, 0)] m' ∧
        m'.observersOf 3 = [5, 9] ∧ m'.log.length = 16 ∧ ∀ e, m'.entries e ≠ some [] := by
  obtain ⟨returns, exact⟩ := notifyObservers_exact restoring valid_two 3
  refine ⟨returns 13 (fun log long => ?_) 14 (by decide), _, rfl, rfl, rfl,
    (exact 3 [(5, 1), (9, 0)] _ rfl).2.2.2.2⟩
  unfold restoring
  split
  all_goals first | omega | exact ⟨_, rfl⟩

end ObserverEventMap

end Engine3
