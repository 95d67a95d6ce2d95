import Engine3.Library.OwnedBlocks

/-!
# Programs on objects that own blocks

Objects have names. A construction takes a name without an object, and a method the name of an
object; a step that does not find what it takes does nothing. What is said about such a step,
`P`, is then said where the objects are there.
-/
namespace OwnedBlocks

open Function

variable {ε β S A ι : Type}

structure World (β S ι : Type) where
  heap : Heap β
  objects : ι → Option S

abbrev WorldM (ε β S ι : Type) := EStateM ε (World β S ι)

def used (x : ι) (method : S → WorldM ε β S ι Unit) : WorldM ε β S ι Unit := fun w =>
  match w.objects x with
  | some this => method this w
  | none => .ok () w

def unused (x : ι) (construct : WorldM ε β S ι Unit) : WorldM ε β S ι Unit := fun w =>
  match w.objects x with
  | some _ => .ok () w
  | none => construct w

def Keeps (own : Owner β S A) (m : WorldM ε β S ι Unit) (w : World β S ι) (b : ι → Option A) :
    Prop :=
  ∃ w', m w = .ok () w' ∧ Represents own w'.heap w'.objects b

variable {own : Owner β S A} {w : World β S ι} {a b : ι → Option A} {x y : ι} {good : Prop}

section Names

variable (rep : Represents own w.heap w.objects a)
include rep

variable {method : S → WorldM ε β S ι Unit} {g : A → ι → Option A} {construct : WorldM ε β S ι Unit}

theorem used_iff {P : A → Prop}
    (each : ∀ s v, w.objects x = some s → a x = some v → own.Holds w.heap s v →
      (Keeps own (method s) w (g v) ↔ P v)) :
    Keeps own (used x method) w ((a x).elim a g) ↔ (a x).elim True P := by
  rcases rep.lookup x with ⟨absent, none⟩ | ⟨s, v, obj, val, held⟩
  · rw [none]
    have nothing : used x method w = .ok () w := by simp only [used, absent]
    exact iff_of_true ⟨w, nothing, rep⟩ trivial
  · have called : used x method w = method s w := by simp only [used, obj]
    rw [val, Keeps, called]
    exact each s v obj val held

theorem used_keeps (each : ∀ s v, w.objects x = some s → a x = some v → own.Holds w.heap s v →
      Keeps own (method s) w (g v)) :
    Keeps own (used x method) w ((a x).elim a g) := by
  have always := used_iff (P := fun _ => True) rep fun s v obj val held =>
    iff_of_true (each s v obj val held) trivial
  apply always.mpr
  cases a x <;> trivial

theorem unused_iff (new : w.objects x = none → (Keeps own construct w b ↔ good)) :
    Keeps own (unused x construct) w ((a x).elim b fun _ => a) ↔
      (a x).elim good fun _ => True := by
  rcases rep.lookup x with ⟨absent, none⟩ | ⟨s, v, obj, val, _⟩
  · have called : unused x construct w = construct w := by simp only [unused, absent]
    rw [none, Keeps, called]
    exact new absent
  · rw [val]
    have nothing : unused x construct w = .ok () w := by simp only [unused, obj]
    exact iff_of_true ⟨w, nothing, rep⟩ trivial

theorem unused_keeps (new : w.objects x = none → Keeps own construct w b) :
    Keeps own (unused x construct) w ((a x).elim b fun _ => a) := by
  have always := unused_iff rep fun absent => iff_of_true (new absent) trivial
  apply always.mpr
  cases a x <;> trivial

end Names

def Every (P : A → Prop) (a : ι → Option A) : Prop := ∀ x v, a x = some v → P v

theorem every_nothing (P : A → Prop) : Every P (fun _ : ι => none) :=
  fun _ _ nothing => nomatch nothing

variable {v : A} {m : EStateM ε (Heap β) S} {h' : Heap β}

theorem Every.update [DecidableEq ι] {P : A → Prop} (every : Every P a) (x : ι) (holds : P v) :
    Every P (update a x (some v)) := by
  intro y u found
  by_cases here : y = x
  · subst here
    rw [update_self] at found
    cases found
    exact holds
  · rw [update_of_ne here] at found
    exact every y u found

/-! ### Objects that change -/

variable [DecidableEq ι]

def become (x : ι) (m : EStateM ε (Heap β) S) : WorldM ε β S ι Unit := fun w =>
  match m w.heap with
  | .ok s heap => .ok () ⟨heap, update w.objects x (some s)⟩
  | .error e heap => .error e { w with heap := heap }

def dispose (x : ι) (m : EStateM ε (Heap β) Unit) : WorldM ε β S ι Unit := fun w =>
  match m w.heap with
  | .ok _ heap => .ok () ⟨heap, update w.objects x none⟩
  | .error e heap => .error e { w with heap := heap }

def exchange (x y : ι) (m : EStateM ε (Heap β) (S × S)) : WorldM ε β S ι Unit := fun w =>
  match m w.heap with
  | .ok (moved, left) heap =>
    .ok () ⟨heap, update (update w.objects y (some left)) x (some moved)⟩
  | .error e heap => .error e { w with heap := heap }

theorem become_iff {s' : S} (rep : Represents own w.heap w.objects a)
    (ret : m w.heap = .ok s' h') (ext : Extends w.heap (own.block w.objects x) h')
    (new : ∀ p, own.pointer s' = some p → w.heap.blocks p = none ∨ own.block w.objects x = some p)
    (holds : own.Holds h' s' v ↔ good) :
    Keeps own (become x m) w (update a x (some v)) ↔ good := by
  have became : become x m w = .ok () ⟨h', update w.objects x (some s')⟩ := by
    simp only [become, ret]
  constructor
  · rintro ⟨w', eq, rep'⟩
    rw [became] at eq
    cases eq
    exact holds.mp (rep'.holds x s' v (update_self ..) (update_self ..))
  · intro sound
    refine ⟨_, became, rep.update ext (holds.mpr sound) ?_⟩
    intro p points
    rcases new p points with dead | mine
    · exact rep.unowned_of_dead dead x
    · exact rep.unowned_of_own mine

theorem become_error {e : ε} (stopped : m w.heap = .error e h') : ¬ Keeps own (become x m) w b := by
  rintro ⟨w', ret, _⟩
  simp only [become, stopped] at ret
  cases ret

theorem dispose_keeps {m : EStateM ε (Heap β) Unit} (rep : Represents own w.heap w.objects a)
    (ret : m w.heap = .ok () h') (ext : Extends w.heap (own.block w.objects x) h') :
    Keeps own (dispose x m) w (update a x none) := by
  have disposed : dispose x m w = .ok () ⟨h', update w.objects x none⟩ := by
    simp only [dispose, ret]
  exact ⟨_, disposed, rep.erase ext⟩

theorem exchange_keeps {m : EStateM ε (Heap β) (S × S)} {s t left : S} {u : A}
    (rep : Represents own w.heap w.objects a) (apart : x ≠ y)
    (ret : m w.heap = .ok (s, left) h') (ext : Extends w.heap (own.block w.objects x) h')
    (obj : w.objects y = some t) (points : ∀ p, own.pointer s = some p → own.pointer t = some p)
    (held : own.Holds h' s v) (rest : own.Holds h' left u) (nothing : own.pointer left = none) :
    Keeps own (exchange x y m) w (Function.update (Function.update a y (some u)) x (some v)) := by
  have exchanged : exchange x y m w = .ok ()
      ⟨h', Function.update (Function.update w.objects y (some left)) x (some s)⟩ := by
    simp only [exchange, ret]
  -- `x` gives up its object and `y` its block, which then has no owner
  have without : Represents own h'
      (Function.update (Function.update w.objects x none) y (some left))
      (Function.update (Function.update a x none) y (some u)) := by
    refine (rep.erase ext).update (Extends.refl _ _) rest ?_
    intro p found
    rw [nothing] at found
    cases found
  have moved := without.update (x := x) (Extends.refl _ _) held ?_
  · rw [update_comm apart, update_idem, update_comm apart,
      update_idem] at moved
    exact ⟨_, exchanged, moved⟩
  intro p mine z r ne found
  by_cases here : z = y
  · subst here
    rw [update_self] at found
    cases found
    rw [nothing]
    simp
  · rw [update_of_ne here, update_of_ne ne] at found
    intro eq
    exact here (rep.separate z y r t p found obj eq (points p mine))

end OwnedBlocks
