import Mathlib.Data.UInt
import ZhuOS.Machine

/-!
# `device/ide.c`: waiting for the drive

`busy_wait` reads the status register until the drive is not busy. Between two reads it sleeps for
ten milliseconds; the countdown is written so that it takes one off and not ten.
-/

namespace ZhuOS

def BIT_STAT_BSY : UInt8 := 0x80
def BIT_STAT_DRQ : UInt8 := 0x8

theorem countdown_lt {t : UInt16} (h : t ≠ 0) : (t - 1).toNat < t.toNat := by
  have hpos : t.toNat ≠ 0 := fun hz => h (UInt16.toNat_inj.mp hz)
  have hone : (1 : UInt16).toNat = 1 := rfl
  rw [UInt16.toNat_sub_of_le _ _ (UInt16.le_iff_toNat_le.mpr (by omega))]
  omega

/-- The loop of `busy_wait`, with how often `mtime_sleep(10)` has been called; `status i` is what
the `i`-th read of the register returns. In `time_limit -= 10 >= 0` the comparison comes first. -/
def busyWaitLoop (status : Nat → UInt8) (timeLimit : UInt16) (i sleeps : Nat) : Int × Nat :=
  let left := timeLimit - if (10 : Int) ≥ 0 then 1 else 0
  if _h : left = 0 then (0, sleeps)
  else if status i &&& BIT_STAT_BSY = 0 then
    (Int.ofNat (status (i + 1) &&& BIT_STAT_DRQ).toNat, sleeps)
  else busyWaitLoop status left (i + 1) (sleeps + 1)
termination_by (timeLimit - 1).toNat
decreasing_by exact countdown_lt _h

/-- `busy_wait`: what it returns and how often it has slept. -/
def busyWait (status : Nat → UInt8) : Int × Nat := busyWaitLoop status (30 * 1000) 0 0

/-! ## Every stream -/

def Busy (v : UInt8) : Prop := v &&& BIT_STAT_BSY ≠ 0

/-- The first value that is not busy is the one at `n`. -/
structure FirstReady (status : Nat → UInt8) (n : Nat) : Prop where
  before : ∀ i < n, Busy (status i)
  ready : ¬ Busy (status n)

variable {status : Nat → UInt8} {n m i sleeps : Nat} {limit : UInt16}

theorem FirstReady.unique (h : FirstReady status n) (h' : FirstReady status m) : n = m := by
  obtain hlt | heq | hlt := Nat.lt_trichotomy n m
  · exact absurd (h'.before n hlt) h.ready
  · exact heq
  · exact absurd (h.before m hlt) h'.ready

theorem firstReady_or (status : Nat → UInt8) (k : Nat) :
    (∃ n < k, FirstReady status n) ∨ ∀ i < k, Busy (status i) := by
  induction k with
  | zero => exact .inr fun i hi => absurd hi (Nat.not_lt_zero i)
  | succ k ih =>
    obtain ⟨n, hn, h⟩ | hbusy := ih
    · exact .inl ⟨n, Nat.lt_succ_of_lt hn, h⟩
    · by_cases hk : Busy (status k)
      · refine .inr fun i hi => ?_
        obtain hlt | rfl := Nat.lt_succ_iff_lt_or_eq.mp hi
        · exact hbusy i hlt
        · exact hk
      · exact .inl ⟨k, Nat.lt_succ_self k, hbusy, hk⟩

theorem countdown {k : Nat} (h : limit.toNat = k + 1) : (limit - 1).toNat = k := by
  have hone : (1 : UInt16).toNat = 1 := rfl
  rw [UInt16.toNat_sub_of_le _ _ (UInt16.le_iff_toNat_le.mpr (by omega))]
  omega

/-- One round of the loop. -/
theorem busyWaitLoop_step (limit : UInt16) : busyWaitLoop status limit i sleeps =
    if limit - 1 = 0 then (0, sleeps)
    else if status i &&& BIT_STAT_BSY = 0 then
      (Int.ofNat (status (i + 1) &&& BIT_STAT_DRQ).toNat, sleeps)
    else busyWaitLoop status (limit - 1) (i + 1) (sleeps + 1) := by
  have hone : limit - (if (10 : Int) ≥ 0 then 1 else 0) = limit - 1 := rfl
  rw [busyWaitLoop.eq_def, hone]
  rfl

/-- A value that is not busy ends the loop if the countdown has not. -/
theorem busyWaitLoop_ready {k : Nat} (hlimit : limit.toNat = k + 1) (hn : n < k)
    (hbusy : ∀ j < n, Busy (status (i + j))) (hready : ¬ Busy (status (i + n))) :
    busyWaitLoop status limit i sleeps =
      (Int.ofNat (status (i + n + 1) &&& BIT_STAT_DRQ).toNat, sleeps + n) := by
  induction n generalizing limit k i sleeps with
  | zero =>
    have hleft : limit - 1 ≠ 0 := fun h => by
      have hzero := countdown hlimit
      rw [h] at hzero
      have hz : (0 : UInt16).toNat = 0 := rfl
      omega
    have hnow : status i &&& BIT_STAT_BSY = 0 := not_not.mp hready
    rw [busyWaitLoop_step, if_neg hleft, if_pos hnow]
    rfl
  | succ n ih =>
    obtain ⟨k, rfl⟩ := Nat.exists_eq_add_one_of_ne_zero (n := k) (by omega)
    have hnext := countdown hlimit
    have hleft : limit - 1 ≠ 0 := fun h => by
      rw [h] at hnext
      have hz : (0 : UInt16).toNat = 0 := rfl
      omega
    have hshift : ∀ j, i + 1 + j = i + (j + 1) := fun j => by omega
    have hnow : Busy (status i) := hbusy 0 (Nat.succ_pos n)
    rw [busyWaitLoop_step, if_neg hleft, if_neg hnow,
      ih hnext (by omega) (fun j hj => hshift j ▸ hbusy (j + 1) (by omega)) (hshift n ▸ hready),
      hshift]
    congr 1
    omega

/-- Without one the countdown ends it. -/
theorem busyWaitLoop_never {k : Nat} (hlimit : limit.toNat = k + 1)
    (hbusy : ∀ j < k, Busy (status (i + j))) :
    busyWaitLoop status limit i sleeps = (0, sleeps + k) := by
  induction k generalizing limit i sleeps with
  | zero =>
    have hleft : limit - 1 = 0 := UInt16.toNat_inj.mp (countdown hlimit)
    rw [busyWaitLoop_step, if_pos hleft]
    rfl
  | succ k ih =>
    have hnext := countdown hlimit
    have hleft : limit - 1 ≠ 0 := fun h => by
      rw [h] at hnext
      have hz : (0 : UInt16).toNat = 0 := rfl
      omega
    have hshift : ∀ j, i + 1 + j = i + (j + 1) := fun j => by omega
    have hnow : Busy (status i) := hbusy 0 (Nat.succ_pos k)
    rw [busyWaitLoop_step, if_neg hleft, if_neg hnow,
      ih hnext fun j hj => hshift j ▸ hbusy (j + 1) (by omega)]
    congr 1
    omega

/-- The register is polled 29999 times, for about five minutes. -/
theorem busyWait_ready (h : FirstReady status n) (hn : n < 29999) :
    busyWait status = (Int.ofNat (status (n + 1) &&& BIT_STAT_DRQ).toNat, n) := by
  have hrun := @busyWaitLoop_ready status n 0 0 (30 * 1000) 29999 rfl hn
    (fun j hj => (Nat.zero_add j).symm ▸ h.before j hj) ((Nat.zero_add n).symm ▸ h.ready)
  rwa [Nat.zero_add] at hrun

theorem busyWait_never (h : ∀ i < 29999, Busy (status i)) : busyWait status = (0, 29999) := by
  have hrun := @busyWaitLoop_never status 0 0 (30 * 1000) 29999 rfl
    fun j hj => (Nat.zero_add j).symm ▸ h j hj
  rwa [Nat.zero_add] at hrun

/-! ## Thirty seconds -/

/-- At most 3000 sleeps of ten milliseconds, and true just when the drive is ready within as many
polls and then has data. -/
structure WaitsThirtySeconds (status : Nat → UInt8) : Prop where
  sleeps : (busyWait status).2 ≤ 3000
  result : (busyWait status).1 ≠ 0 ↔
    ∃ n < 3000, FirstReady status n ∧ status (n + 1) &&& BIT_STAT_DRQ ≠ 0

theorem drq_result (v : UInt8) : Int.ofNat (v &&& BIT_STAT_DRQ).toNat ≠ 0 ↔
    v &&& BIT_STAT_DRQ ≠ 0 := by
  have hcast : Int.ofNat (v &&& BIT_STAT_DRQ).toNat = 0 ↔ (v &&& BIT_STAT_DRQ).toNat = 0 :=
    Int.ofNat_eq_zero
  rw [ne_eq, ne_eq, hcast, ← UInt8.toNat_inj]
  rfl

/-- The promise is kept just when the drive is ready by then, or at the next poll without data. -/
theorem busyWait_thirty_iff (status : Nat → UInt8) : WaitsThirtySeconds status ↔
    ∃ n, FirstReady status n ∧
      (n < 3000 ∨ n = 3000 ∧ status (n + 1) &&& BIT_STAT_DRQ = 0) := by
  constructor
  · intro ⟨hsleeps, hresult⟩
    obtain ⟨n, hn, h⟩ | hbusy := firstReady_or status 29999
    · rw [busyWait_ready h hn] at hsleeps hresult
      refine ⟨n, h, ?_⟩
      obtain hlt | rfl := Nat.lt_or_eq_of_le hsleeps
      · exact .inl hlt
      · refine .inr ⟨rfl, ?_⟩
        by_contra hdrq
        obtain ⟨m, hm, h', -⟩ := hresult.mp ((drq_result _).mpr hdrq)
        exact absurd (h.unique h') (by omega)
    · rw [busyWait_never hbusy] at hsleeps
      exact absurd hsleeps (by decide)
  · rintro ⟨n, h, hn⟩
    have hlt : n < 29999 := by omega
    have hrun := busyWait_ready h hlt
    refine ⟨?_, ?_⟩
    · rw [hrun]
      change n ≤ 3000
      omega
    · rw [hrun, drq_result]
      constructor
      · intro hdrq
        obtain hlt | ⟨-, hnone⟩ := hn
        · exact ⟨n, hlt, h, hdrq⟩
        · exact absurd hnone hdrq
      · rintro ⟨m, -, h', hdrq⟩
        obtain rfl := h.unique h'
        exact hdrq

/-- A drive that stays busy is waited for 29999 times. -/
theorem busyWait_thirty_busy : ¬ WaitsThirtySeconds fun _ => 0x80 := by
  intro h
  have hsleeps := h.sleeps
  rw [busyWait_never fun i _ => by unfold Busy; decide] at hsleeps
  exact absurd hsleeps (by decide)

end ZhuOS
