import Engine3.Library.Lockstep
import Engine3.Proto.BaseClient

/-!
# The delay before packets are sent again

`BasePacketChekupEvent` keeps a delay between a minimum and a maximum. The limits it compares
with are those its constructor was given. `BaseClient::initialize` passes two arguments to a
constructor whose first parameter is the delay: the configured minimum becomes the delay, the
configured maximum becomes the minimum, and the maximum is the default of `500`.
-/
namespace Engine3

open MachineInt

structure CheckupConfig where
  minCheckupTime : Nat
  maxCheckupTime : Nat
  positive : 0 < minCheckupTime
  ordered : minCheckupTime ≤ maxCheckupTime
  fits : maxCheckupTime < 2147483648

namespace CheckupConfig

/-- The time lies in the limits. -/
def Admits (config : CheckupConfig) (time : Nat) : Prop :=
  config.minCheckupTime ≤ time ∧ time ≤ config.maxCheckupTime

instance (config : CheckupConfig) (time : Nat) : Decidable (config.Admits time) :=
  inferInstanceAs (Decidable (_ ∧ _))

end CheckupConfig

namespace CheckupEvent

def create (time minTime maxTime : Nat) : CheckupEvent :=
  { packet := none, scheduled := false, checkupTime := time
    minCheckupTime := minTime, maxCheckupTime := maxTime }

def setCheckupTime (time : Nat) (event : CheckupEvent) : CheckupEvent :=
  { event with checkupTime := time }

end CheckupEvent

open CheckupEvent CheckupConfig

/-! ### The calls of the client -/

inductive CheckupCall
  | increaseCheckupTime
  | decreaseCheckupTime
  | setPacketCheckupTime (time : UInt32)
  | balancePacketCheckupTime
  | resetPacketCheckupTime
  deriving DecidableEq, Repr

def CheckupCall.apply (event : CheckupEvent) : CheckupCall → CheckupEvent
  | increaseCheckupTime => event.increaseCheckupTime 250
  | decreaseCheckupTime => event.decreaseCheckupTime 1
  | setPacketCheckupTime time => event.setCheckupTime time.toNat
  | balancePacketCheckupTime => event.setCheckupTime 2000
  | resetPacketCheckupTime => event.setCheckupTime 100

def BaseClient.initializeCheckup (config : CheckupConfig) : CheckupEvent :=
  CheckupCall.apply
    (create (u32 config.minCheckupTime) (u32 config.maxCheckupTime) 500) .balancePacketCheckupTime

theorem BaseClient.initializeCheckup_eq (config : CheckupConfig) :
    initializeCheckup config = create 2000 config.maxCheckupTime 500 := by
  have lt := config.fits
  have kept : u32 config.maxCheckupTime = config.maxCheckupTime := by
    rw [u32_natCast, Nat.mod_eq_of_lt (by omega)]
  simp only [initializeCheckup, CheckupCall.apply, setCheckupTime, create, kept]

/-! ### One call -/

theorem CheckupCall.apply_limits (call : CheckupCall) (event : CheckupEvent) :
    (call.apply event).minCheckupTime = event.minCheckupTime ∧
      (call.apply event).maxCheckupTime = event.maxCheckupTime := by
  cases call with
  | increaseCheckupTime =>
    simp only [apply, CheckupEvent.increaseCheckupTime]
    split <;> exact ⟨rfl, rfl⟩
  | decreaseCheckupTime =>
    simp only [apply, CheckupEvent.decreaseCheckupTime]
    split <;> exact ⟨rfl, rfl⟩
  | setPacketCheckupTime time => exact ⟨rfl, rfl⟩
  | balancePacketCheckupTime => exact ⟨rfl, rfl⟩
  | resetPacketCheckupTime => exact ⟨rfl, rfl⟩

/-- What a call asks of the configuration: the value it sets lies in the limits. -/
def CheckupCall.Respects (config : CheckupConfig) : CheckupCall → Prop
  | setPacketCheckupTime time => config.Admits time.toNat
  | resetPacketCheckupTime => config.minCheckupTime ≤ 100
  | _ => True

structure CheckupEvent.Guarded (config : CheckupConfig) (event : CheckupEvent) : Prop where
  floor : config.minCheckupTime ≤ event.minCheckupTime
  ceiling : event.maxCheckupTime + 249 ≤ config.maxCheckupTime
  balanced : config.Admits 2000

variable {config : CheckupConfig} {event : CheckupEvent} {call : CheckupCall}

theorem CheckupEvent.Guarded.apply (guarded : event.Guarded config) (call : CheckupCall) :
    (call.apply event).Guarded config := by
  obtain ⟨floor, ceiling⟩ := call.apply_limits event
  exact ⟨floor ▸ guarded.floor, ceiling ▸ guarded.ceiling, guarded.balanced⟩

theorem CheckupCall.Respects.apply (respects : call.Respects config)
    (guarded : event.Guarded config) (within : config.Admits event.checkupTime) :
    config.Admits (call.apply event).checkupTime := by
  obtain ⟨floor, ceiling, low, high⟩ := guarded
  have word := config.fits
  cases call with
  | increaseCheckupTime =>
    simp only [CheckupCall.apply, CheckupEvent.increaseCheckupTime]
    split
    next below =>
      -- the sum stays below the configured maximum, so it does not wrap either
      have sum : (event.checkupTime + 250) % 4294967296 = event.checkupTime + 250 :=
        Nat.mod_eq_of_lt (by omega)
      simp only [Admits, sum] at within ⊢
      omega
    · exact within
  | decreaseCheckupTime =>
    simp only [CheckupCall.apply, CheckupEvent.decreaseCheckupTime]
    split
    next above =>
      have difference : u32 ((event.checkupTime : Int) - (1 : Nat)) = event.checkupTime - 1 := by
        unfold u32
        simp only [Admits] at within
        omega
      simp only [Admits, difference] at within ⊢
      omega
    · exact within
  | setPacketCheckupTime time => exact respects
  | balancePacketCheckupTime => exact ⟨low, high⟩
  | resetPacketCheckupTime =>
    refine ⟨respects, ?_⟩
    simp only [CheckupCall.apply, setCheckupTime]
    omega

theorem CheckupCall.respects_of_apply (within : config.Admits (call.apply event).checkupTime) :
    call.Respects config := by
  cases call with
  | increaseCheckupTime => trivial
  | decreaseCheckupTime => trivial
  | setPacketCheckupTime time => exact within
  | balancePacketCheckupTime => trivial
  | resetPacketCheckupTime => exact within.1

/-! ### Runs of calls -/

/-- The delay lies in the limits at the start and after every call. -/
def CheckupEvent.AlwaysWithin (config : CheckupConfig) (event : CheckupEvent)
    (calls : List CheckupCall) : Prop :=
  Lockstep.Throughout CheckupCall.apply (fun event => config.Admits event.checkupTime) event calls

theorem CheckupEvent.Guarded.alwaysWithin_iff (guarded : event.Guarded config)
    (within : config.Admits event.checkupTime) (calls : List CheckupCall) :
    event.AlwaysWithin config calls ↔ ∀ call ∈ calls, call.Respects config := by
  induction calls generalizing event with
  | nil => exact iff_of_true ((Lockstep.throughout_nil event).mpr within) (by simp)
  | cons call calls ih =>
    rw [AlwaysWithin, Lockstep.throughout_cons, List.forall_mem_cons]
    constructor
    · rintro ⟨_, always⟩
      have next := always.start
      exact ⟨CheckupCall.respects_of_apply next, (ih (guarded.apply call) next).mp always⟩
    · rintro ⟨respects, rest⟩
      have next := respects.apply guarded within
      exact ⟨within, (ih (guarded.apply call) next).mpr rest⟩

/-- Exactly if the limits admit the first 2000 and every value the time is set to. -/
theorem checkupTime_within_iff (config : CheckupConfig) (calls : List CheckupCall) :
    (BaseClient.initializeCheckup config).AlwaysWithin config calls ↔
      config.Admits 2000 ∧ ∀ call ∈ calls, call.Respects config := by
  rw [BaseClient.initializeCheckup_eq]
  have guarded (balanced : config.Admits 2000) :
      (create 2000 config.maxCheckupTime 500).Guarded config :=
    ⟨config.ordered, by have := balanced.2; simp only [create]; omega, balanced⟩
  constructor
  · intro always
    have balanced : config.Admits 2000 := always [] calls rfl
    exact ⟨balanced, ((guarded balanced).alwaysWithin_iff balanced calls).mp always⟩
  · rintro ⟨balanced, respected⟩
    exact ((guarded balanced).alwaysWithin_iff balanced calls).mpr respected

theorem checkupTime_outside_limits :
    (∃ config : CheckupConfig, config.minCheckupTime = 100 ∧ config.maxCheckupTime = 1000 ∧
      (BaseClient.initializeCheckup config).checkupTime = 2000) ∧
    (∃ config : CheckupConfig, config.minCheckupTime = 200 ∧ config.maxCheckupTime = 2000 ∧
      (CheckupCall.apply (BaseClient.initializeCheckup config)
        .resetPacketCheckupTime).checkupTime =
        100) :=
  ⟨⟨⟨100, 1000, by decide, by decide, by decide⟩, rfl, rfl, by decide +kernel⟩,
    ⟨⟨200, 2000, by decide, by decide, by decide⟩, rfl, rfl, by decide +kernel⟩⟩

end Engine3
