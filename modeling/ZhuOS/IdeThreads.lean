import ZhuOS.Ata
import ZhuOS.LockClients

/-!
# `device/ide.c`: threads and the interrupt

A thread that has sent a command waits on `disk_done`, and the handler of the drive's
interrupt wakes it. The channel's lock keeps the threads apart; `expecting_intr` is all that
keeps the interrupts apart, and these come whenever they are enabled.
-/

namespace ZhuOS.IdeThreads

open Ata

/-- What the threads of a channel share with the handler. -/
structure IdeChannel where
  diskDone : Semaphore
  expectingIntr : Bool

/-- `intr_hd_handler`, on the vector of the channel. -/
def intrHdHandler (s : Threads) (channel : IdeChannel) : Except Fault (Threads × IdeChannel) :=
  if channel.expectingIntr then do
    let channel := { channel with expectingIntr := false }
    let (s, diskDone) ← semaUp s channel.diskDone
    return (s, { channel with diskDone })
  else return (s, channel)

/-- A call of `ide_read` or of `ide_write`. -/
structure IdeCall where
  command : Command
  lba : Nat
  secCnt : Nat

/-- Where a thread is in it: what it does next. -/
inductive IdePlace
  | outside
  /-- `select_disk`, behind `lock_acquire` -/
  | selectDisk (c : IdeCall)
  /-- the test of the loop and `select_sector` -/
  | selectSector (c : IdeCall) (secsDone : Nat)
  /-- `cmd_out`: `expecting_intr = true` -/
  | expect (c : IdeCall) (secsDone : Nat)
  /-- `cmd_out`: the command -/
  | command (c : IdeCall) (secsDone : Nat)
  /-- `busy_wait`, and the data -/
  | transfer (c : IdeCall) (secsDone : Nat)
  /-- `sema_down` -/
  | down (c : IdeCall) (secsDone : Nat)
  /-- inside its loop -/
  | waiting (c : IdeCall) (secsDone : Nat) (oldStatus : IntrStatus)
  /-- behind `lock_release` -/
  | released

inductive IdeStep
  | call (c : IdeCall)
  | next

namespace IdePlace

def mode : IdePlace → LockMode
  | .outside => .free
  | .selectDisk _ => .taking
  | .selectSector .. | .expect .. | .command .. | .transfer .. | .down .. | .waiting .. => .inside
  | .released => .giving

/-- Inside the loop of `sema_down`. -/
def Waiting : IdePlace → Prop
  | .waiting .. => True
  | _ => False

/-- Behind `expecting_intr = true`, and the interrupt's `sema_up` not used yet. -/
def Pending : IdePlace → Prop
  | .command .. | .down .. | .waiting .. => True
  | .transfer c _ => c.command = .writeSector
  | _ => False

/-- The way back to the loop. -/
def again (c : IdeCall) (secsDone : Nat) : IdePlace :=
  .selectSector c (u32 (secsDone + secsOp c.secCnt secsDone))

/-- `ide_read` waits before the data, `ide_write` behind them. -/
def afterCommand (c : IdeCall) (secsDone : Nat) : IdePlace :=
  match c.command with
  | .readSector => .down c secsDone
  | .writeSector => .transfer c secsDone

def afterTransfer (c : IdeCall) (secsDone : Nat) : IdePlace :=
  match c.command with
  | .readSector => again c secsDone
  | .writeSector => .down c secsDone

def afterDown (c : IdeCall) (secsDone : Nat) : IdePlace :=
  match c.command with
  | .readSector => .transfer c secsDone
  | .writeSector => again c secsDone

/-- The steps of both, but for `sema_down`. -/
def step (channel : IdeChannel) : IdePlace → IdeStep → Except Fault (IdeChannel × IdePlace)
  | .outside, .call c => do
    ASSERT (c.lba ≤ max_lba)
    ASSERT (0 < c.secCnt)
    return (channel, .selectDisk c)
  | .selectDisk c, .next => return (channel, .selectSector c 0)
  | .selectSector c secsDone, .next =>
    if secsDone < c.secCnt then do
      ASSERT (u32 (c.lba + secsDone) ≤ max_lba)
      return (channel, .expect c secsDone)
    else return (channel, .released)
  | .expect c secsDone, .next =>
    return ({ channel with expectingIntr := true }, .command c secsDone)
  | .command c secsDone, .next => return (channel, afterCommand c secsDone)
  | .transfer c secsDone, .next => return (channel, afterTransfer c secsDone)
  | .released, .next => return (channel, .outside)
  | _, _ => .error .stuck

def guard : IdePlace → IdeStep → Prop
  | .outside, .call _ => True
  | .outside, .next | .down .., _ | .waiting .., _ => False
  | _, .call _ => False
  | _, .next => True

/-- The arguments fail an `ASSERT` of the step. -/
def Refuses : IdePlace → IdeStep → Prop
  | .outside, .call c => ¬ (c.lba ≤ max_lba ∧ 0 < c.secCnt)
  | .selectSector c secsDone, .next => secsDone < c.secCnt ∧ ¬ u32 (c.lba + secsDone) ≤ max_lba
  | _, _ => False

variable {channel channel' : IdeChannel} {p p' : IdePlace} {k : IdeStep}

theorem Pending.inside (h : p.Pending) : p.mode = .inside := by
  cases p with
  | command | down | waiting | transfer => rfl
  | _ => exact h.elim

theorem Waiting.inside (h : p.Waiting) : p.mode = .inside := by
  cases p with
  | waiting => rfl
  | _ => exact h.elim

theorem after_mode (c : IdeCall) (secsDone : Nat) : (afterCommand c secsDone).mode = .inside ∧
    (afterTransfer c secsDone).mode = .inside ∧ (afterDown c secsDone).mode = .inside := by
  obtain ⟨command, _, _⟩ := c
  cases command <;> exact ⟨rfl, rfl, rfl⟩

/-- Inside `cmd_out` and behind it, until the semaphore is down. -/
theorem after_pending (c : IdeCall) (secsDone : Nat) : (afterCommand c secsDone).Pending ∧
    ((afterTransfer c secsDone).Pending ↔ (transfer c secsDone).Pending) ∧
    ¬ (afterDown c secsDone).Pending := by
  obtain ⟨command, _, _⟩ := c
  cases command <;> simp [afterCommand, afterTransfer, afterDown, again, Pending]

theorem after_waiting (c : IdeCall) (secsDone : Nat) : ¬ (afterCommand c secsDone).Waiting ∧
    ¬ (afterTransfer c secsDone).Waiting ∧ ¬ (afterDown c secsDone).Waiting := by
  obtain ⟨command, _, _⟩ := c
  cases command <;> exact ⟨id, id, id⟩

/-- What a step does to the flag: the first of `cmd_out` sets it, the others leave it, and
which threads are behind it. -/
inductive Stepped (channel : IdeChannel) (p : IdePlace) (channel' : IdeChannel)
    (p' : IdePlace) : Prop
  | expects (before : p.mode = .inside) (quiet : ¬ p.Pending) (pending : p'.Pending)
      (channel : channel' = { channel with expectingIntr := true })
  | keeps (pending : p'.Pending ↔ p.Pending) (channel : channel' = channel)

/-- A step goes well unless it refuses the arguments. -/
theorem step_ok (channel : IdeChannel) (hg : p.guard k) (hr : ¬ p.Refuses k) :
    ∃ channel' p', step channel p k = .ok (channel', p') := by
  cases p with
  | outside =>
    cases k with
    | call c =>
      obtain ⟨hlba, hcnt⟩ := not_not.mp hr
      simp only [step, ASSERT_true hlba, ASSERT_true hcnt, ok_bind]
      exact ⟨_, _, rfl⟩
    | next => exact hg.elim
  | selectSector c secsDone =>
    cases k with
    | call _ => exact hg.elim
    | next =>
      by_cases hlt : secsDone < c.secCnt
      · have hlba : u32 (c.lba + secsDone) ≤ max_lba := by
          by_contra hn
          exact hr ⟨hlt, hn⟩
        simp only [step, if_pos hlt, ASSERT_true hlba, ok_bind]
        exact ⟨_, _, rfl⟩
      · simp only [step, if_neg hlt]
        exact ⟨_, _, rfl⟩
  | down | waiting => exact hg.elim
  | selectDisk | expect | command | transfer | released =>
    cases k with
    | call _ => exact hg.elim
    | next => exact ⟨_, _, rfl⟩

/-- Else it fails. -/
theorem step_refuses (hr : p.Refuses k) : step channel p k = .error .panic := by
  cases p with
  | outside =>
    cases k with
    | call c =>
      by_cases hlba : c.lba ≤ max_lba
      · have hcnt : ¬ 0 < c.secCnt := fun hc => hr ⟨hlba, hc⟩
        simp only [step, ASSERT_true hlba, ASSERT_false hcnt, ok_bind]
        rfl
      · simp only [step, ASSERT_false hlba]
        rfl
    | next => exact hr.elim
  | selectSector c secsDone =>
    cases k with
    | call _ => exact hr.elim
    | next =>
      simp only [step, if_pos hr.1, ASSERT_false hr.2]
      rfl
  | _ => exact hr.elim

/-- A step takes its turn at the lock, and neither begins nor ends in `sema_down`. -/
theorem step_stepped (h : step channel p k = .ok (channel', p')) :
    p.mode.Turns p'.mode ∧ Stepped channel p channel' p' ∧ ¬ p.Waiting ∧ ¬ p'.Waiting := by
  cases p with
  | outside =>
    cases k with
    | call c =>
      obtain ⟨-, -, h⟩ := bind_ok.mp h
      obtain ⟨-, -, h⟩ := bind_ok.mp h
      cases h
      exact ⟨.inr rfl, .keeps .rfl rfl, id, id⟩
    | next => cases h
  | selectSector c secsDone =>
    cases k with
    | call _ => cases h
    | next =>
      by_cases hlt : secsDone < c.secCnt
      · simp only [step, if_pos hlt] at h
        obtain ⟨-, -, h⟩ := bind_ok.mp h
        cases h
        exact ⟨.inl rfl, .keeps .rfl rfl, id, id⟩
      · simp only [step, if_neg hlt] at h
        cases h
        exact ⟨.inr rfl, .keeps .rfl rfl, id, id⟩
  | down | waiting => cases k <;> cases h
  | selectDisk | released =>
    cases k with
    | call _ => cases h
    | next =>
      cases h
      exact ⟨.inl rfl, .keeps .rfl rfl, id, id⟩
  | expect =>
    cases k with
    | call _ => cases h
    | next =>
      cases h
      exact ⟨.inl rfl, .expects rfl id trivial rfl, id, id⟩
  | command c secsDone =>
    cases k with
    | call _ => cases h
    | next =>
      cases h
      exact ⟨.inl (after_mode c secsDone).1,
        .keeps (iff_of_true (after_pending c secsDone).1 trivial) rfl, id,
        (after_waiting c secsDone).1⟩
  | transfer c secsDone =>
    cases k with
    | call _ => cases h
    | next =>
      cases h
      exact ⟨.inl (after_mode c secsDone).2.1, .keeps (after_pending c secsDone).2.1 rfl, id,
        (after_waiting c secsDone).2.1⟩

end IdePlace

/-- The code between `lock_acquire` and `lock_release` of the channel's lock. -/
def ideCode : Client IdeChannel IdePlace IdeStep where
  outside := .outside
  mode := IdePlace.mode
  guard _ := IdePlace.guard
  step _ := IdePlace.step
  outside_free := rfl
  turns h := (IdePlace.step_stepped h).1

abbrev IdeWorld := ClientWorld IdeChannel IdePlace

inductive IdeEvent
  /-- the threads, the lock, and the steps of the code -/
  | code (e : ClientCall IdeStep)
  /-- `busy_wait` lets others run -/
  | sleep
  /-- `sema_down`, or the test of its loop by a thread that was woken -/
  | down
  /-- the drive's interrupt, whatever the reason -/
  | interrupt

namespace IdeWorld

/-- The thread that runs. -/
def cur (w : IdeWorld) : Nat := w.locks.sched.running

def Waits (w : IdeWorld) (t : Nat) : Prop := (w.place t).Waiting

/-- The threads that wait on `disk_done` are woken by its `sema_up` alone. -/
def guard (w : IdeWorld) : IdeEvent → Prop
  | .code e => ideCode.callGuard w e ∧ ∀ t, e = .lock (.thread (.unblock t)) → ¬ w.Waits t
  | .sleep => ∃ c secsDone, w.place w.cur = .transfer c secsDone
  | .down => (∃ c secsDone, w.place w.cur = .down c secsDone) ∨ w.Waits w.cur
  | .interrupt => w.locks.sched.intr = .INTR_ON

/-- The running thread has been at the semaphore and goes on at `p`. -/
def moved (w : IdeWorld) (s : Threads) (diskDone : Semaphore) (p : IdePlace) : IdeWorld where
  locks := { w.locks with sched := s }
  shared := { w.shared with diskDone }
  place := Function.update w.place w.cur p

/-- A round of the loop of `sema_down`. -/
def round (w : IdeWorld) (s : Threads) (c : IdeCall) (secsDone : Nat) (oldStatus : IntrStatus) :
    Except Fault IdeWorld := do
  let (taken, s, diskDone) ← semaRound s w.shared.diskDone
  if taken then return w.moved (s.setIntr oldStatus) diskDone (.afterDown c secsDone)
  else return w.moved s diskDone (.waiting c secsDone oldStatus)

def exec (w : IdeWorld) : IdeEvent → Except Fault IdeWorld
  | .code e => ideCode.exec w e
  | .sleep => ideCode.exec w (.lock (.thread .yield))
  | .down =>
    match w.place w.cur with
    | .down c secsDone => w.round (w.locks.sched.setIntr .INTR_OFF) c secsDone w.locks.sched.intr
    | .waiting c secsDone oldStatus => w.round w.locks.sched c secsDone oldStatus
    | _ => .error .stuck
  | .interrupt => do
    let (s, shared) ← intrHdHandler (w.locks.sched.setIntr .INTR_OFF) w.shared
    return { w with locks := { w.locks with sched := s.setIntr .INTR_ON }, shared }

def system : Guarded.System IdeWorld IdeEvent Fault := ⟨guard, exec⟩

/-- After `ide_init`. -/
def start (s : Threads) : IdeWorld := ideCode.start s ⟨semaInit 0, false⟩

/-- The event fails an `ASSERT` on the arguments of `ide_read` or `ide_write`. -/
def Refuses (w : IdeWorld) : IdeEvent → Prop
  | .code (.go k) => (w.place w.cur).Refuses k
  | _ => False

/-- The value of `disk_done`, and 1 more while an interrupt is expected. -/
def due (w : IdeWorld) : Nat :=
  w.shared.diskDone.value.toNat + if w.shared.expectingIntr then 1 else 0

section
variable (w : IdeWorld) (s : Threads) (diskDone : Semaphore) {p : IdePlace}

/-- A thread's new place makes no difference to what was true of its old one. -/
theorem update_iff (P : IdePlace → Prop) (hp : P p ↔ P (w.place w.cur)) (t : Nat) :
    P (Function.update w.place w.cur p t) ↔ P (w.place t) := by
  by_cases ht : t = w.cur
  · subst ht
    rw [Function.update_self]
    exact hp
  · rw [Function.update_of_ne ht]

/-- The places of the threads, the running one at `p`. -/
theorem update_pending (hp : p.Pending) :
    ¬ ∀ t, ¬ (Function.update w.place w.cur p t).Pending := by
  intro hall
  have hself := hall w.cur
  rw [Function.update_self] at hself
  exact hself hp

theorem moved_waits (p : IdePlace) (t : Nat) :
    (w.moved s diskDone p).Waits t ↔ t = w.cur ∧ p.Waiting ∨ t ≠ w.cur ∧ w.Waits t := by
  unfold Waits moved
  by_cases ht : t = w.cur
  · simp [ht]
  · simp [ht]

end

end IdeWorld

/-- One interrupt at most is on its way to the waiting thread, and none when a thread is
about to call `cmd_out`. -/
structure DiskDoneRight (w : IdeWorld) : Prop where
  one : w.due ≤ 1
  none : ∀ t c secsDone, w.place t = .expect c secsDone → w.due = 0

/-! ## What every event keeps -/

structure IdeInv (w : IdeWorld) : Prop where
  code : ClientInv ideCode w
  waiters : Waiters w.locks.sched w.shared.diskDone w.Waits
  one : w.due ≤ 1
  quiet : (∀ t, ¬ (w.place t).Pending) → w.due = 0

namespace IdeInv

variable {w w' : IdeWorld}

/-- The lock keeps the others out. -/
theorem none_pending (h : IdeInv w) {t : Nat} (ht : (w.place t).mode = .inside)
    (hp : ¬ (w.place t).Pending) : w.due = 0 := by
  apply h.quiet
  intro u hu
  obtain rfl := h.code.one (h.code.depth_inside ht) (h.code.depth_inside hu.inside)
  exact hp hu

theorem right (h : IdeInv w) : DiskDoneRight w := by
  refine ⟨h.one, fun t c secsDone hp => h.none_pending (t := t) ?_ ?_⟩
  · rw [hp]
    rfl
  · rw [hp]
    exact id

/-- A thread inside is outside the lock's code, and no other than the threads that may
block. -/
theorem inside (h : IdeInv w) (hi : (w.place w.cur).mode = .inside) :
    w.locks.place w.cur = .outside ∧ w.cur ≠ w.locks.sched.idleThread := by
  obtain ⟨owner, hl⟩ := h.code.lock
  have hd : 0 < w.locks.depth w.cur := h.code.depth_inside hi
  have hplaced : (w.place w.cur).mode.Placed (w.locks.place w.cur) (w.locks.depth w.cur) :=
    h.code.placed w.cur
  rw [hi] at hplaced
  exact ⟨hplaced.1, (hl.known _ (.inr hd)).2⟩

theorem lock_or_waits (h : IdeInv w) {t : Nat} (ht : w.locks.Waits t) : ¬ w.Waits t := by
  intro hw
  have hm := h.code.waits_taking ht
  exact absurd (hm.symm.trans hw.inside) (by decide)

/-- What the threads do besides. -/
theorem thread_ok (h : IdeInv w) {e : ThreadCall} (hg : w.locks.sched.guard e)
    (hblock : ∀ stat, e = .block stat → ¬ w.locks.Waits w.cur ∧ ¬ w.Waits w.cur)
    (hunblock : ∀ t, e = .unblock t → ¬ w.locks.Waits t ∧ ¬ w.Waits t) :
    ∃ w', ideCode.exec w (.lock (.thread e)) = .ok w' ∧ IdeInv w' := by
  obtain ⟨owner, hl⟩ := h.code.lock
  obtain ⟨s', hs', hw, ho⟩ := hl.waiters.exec_ok hg (fun stat he => (hblock stat he).1)
    fun t he => (hunblock t he).1
  obtain ⟨_, hs'', hw', -⟩ := h.waiters.exec_ok hg (fun stat he => (hblock stat he).2)
    fun t he => (hunblock t he).2
  cases hs'.symm.trans hs''
  simp only [Client.exec, LockWorld.exec, hs', ok_bind]
  exact ⟨_, rfl, h.code.moved hw ho.all ho.idle fun _ => rfl, hw', h.one, h.quiet⟩

/-- The lock's own steps. -/
theorem lock_ok (h : IdeInv w) {e : LockCall} (hg : w.guard (.code (.lock e))) :
    ∃ w', ideCode.exec w (.lock e) = .ok w' ∧ IdeInv w' := by
  obtain ⟨hg, hunblock⟩ := hg
  have hnot : ∀ t, w.locks.place t = .outside → ¬ w.locks.Waits t := by
    rintro t ht ⟨old, hw⟩
    cases ht.symm.trans hw
  cases e with
  | acquire | release => exact hg.elim
  | thread e =>
    obtain ⟨hout, hlock, hguard, hlocks⟩ := hg
    refine h.thread_ok hguard (fun stat he => ⟨hnot _ ?_, fun hw => ?_⟩) fun t he => ?_
    · rcases hlock with rfl | hlock
      · cases he
      · exact hlock
    · subst he
      rw [IdeWorld.Waits, IdeWorld.cur, hout.resolve_left nofun] at hw
      exact hw
    · exact ⟨hnot t (hlocks t he), hunblock t (by rw [he])⟩
  | reorder l =>
    obtain ⟨owner, hl⟩ := h.code.lock
    exact ⟨_, rfl, h.code.moved (hl.waiters.reorder hg) (fun _ ht => ht) rfl fun _ => rfl,
      h.waiters.reorder hg, h.one, h.quiet⟩
  | step =>
    obtain ⟨owner, hl⟩ := h.code.lock
    obtain ⟨locks, he, -⟩ := hl.step_ok hg
    have hrun : ¬ w.Waits w.locks.sched.running := fun hw => hg (h.inside hw.inside).1
    have hwaiters := hl.step_waiters h.waiters hg hrun (fun _ => h.lock_or_waits) he
    have hcode := h.code.lock_step (e := .step) hg he
    simp only [Client.exec, LockWorld.exec, he, ok_bind]
    exact ⟨_, rfl, hcode, hwaiters, h.one, h.quiet⟩

/-- A step of the code. -/
theorem go_ok (h : IdeInv w) {k : IdeStep} (hg : ideCode.callGuard w (.go k))
    (hr : ¬ (w.place w.cur).Refuses k) :
    ∃ w', ideCode.exec w (.go k) = .ok w' ∧ IdeInv w' := by
  obtain ⟨hout, -, hguard⟩ := id hg
  obtain ⟨shared, p, hs⟩ := IdePlace.step_ok w.shared hguard hr
  obtain ⟨hturns, hstep, hnot, hnot'⟩ := IdePlace.step_stepped hs
  obtain ⟨locks, hlocks⟩ := h.code.call_ok hout rfl hturns
  have he : ideCode.exec w (.go k) = .ok ⟨locks, shared, Function.update w.place w.cur p⟩ :=
    bind_ok.mpr ⟨(shared, p), hs, bind_ok.mpr ⟨locks, hlocks, rfl⟩⟩
  have hwaits := w.update_iff IdePlace.Waiting (iff_of_false hnot' hnot)
  have hcode := h.code.go_step hg he
  have hsched := LockMode.call_sched hlocks
  have hw : Waiters locks.sched w.shared.diskDone _ := hsched ▸ h.waiters.congr hwaits
  cases hstep with
  | expects before quiet pending channel =>
    have hzero := h.none_pending before quiet
    subst channel
    refine ⟨_, he, hcode, hw, ?_, fun hall => ?_⟩
    · simp only [IdeWorld.due, if_true] at hzero ⊢
      omega
    · exact absurd hall (w.update_pending pending)
  | keeps pending channel =>
    subst channel
    have hpending := w.update_iff IdePlace.Pending pending
    refine ⟨_, he, hcode, hw, h.one, fun hall => h.quiet fun t ht => ?_⟩
    exact hall t ((hpending t).mpr ht)

/-- The value is 0 or 1, and at 1 nothing is expected any more. -/
theorem value_cases (h : IdeInv w) : w.shared.diskDone.value = 0 ∨
    w.shared.diskDone.value = 1 ∧ w.shared.expectingIntr = false := by
  have hone := h.one
  unfold IdeWorld.due at hone
  by_cases hexpects : w.shared.expectingIntr = true
  · rw [if_pos hexpects] at hone
    exact .inl (UInt8.toNat_inj.mp (by rw [UInt8.toNat_zero]; omega))
  · rw [if_neg hexpects] at hone
    by_cases hz : w.shared.diskDone.value = 0
    · exact .inl hz
    · have hne : w.shared.diskDone.value.toNat ≠ 0 := fun he => hz (UInt8.toNat_inj.mp he)
      refine .inr ⟨UInt8.toNat_inj.mp ?_, eq_false_of_ne_true hexpects⟩
      rw [UInt8.toNat_one]
      omega

/-- A thread inside goes on inside. -/
theorem moved (h : IdeInv w) {s : Threads} {diskDone : Semaphore} {p : IdePlace}
    (hlocks : Waiters s w.locks.lock.semaphore w.locks.Waits)
    (hall : ∀ t ∈ w.locks.sched.threadAllList, t ∈ s.threadAllList)
    (hidle : s.idleThread = w.locks.sched.idleThread) (hi : (w.place w.cur).mode = .inside)
    (hp : p.mode = .inside) : ClientInv ideCode (w.moved s diskDone p) := by
  refine h.code.moved hlocks hall hidle fun t => ?_
  exact (w.update_iff (·.mode = (w.place t).mode) (by rw [hp, hi]) t).mpr rfl

/-- A round of the loop of `sema_down`. -/
theorem round_ok (h : IdeInv w) (status oldStatus : IntrStatus) (c : IdeCall) (secsDone : Nat)
    (hi : (w.place w.cur).mode = .inside) :
    ∃ w', w.round (w.locks.sched.setIntr status) c secsDone oldStatus = .ok w' ∧ IdeInv w' := by
  obtain ⟨owner, hl⟩ := h.code.lock
  have hwaiters := h.waiters.setIntr status
  have hlocks := hl.waiters.setIntr status
  rcases h.value_cases with hz | ⟨hone, hnot⟩
  · obtain ⟨s', hround, hw, ht⟩ := hwaiters.round_blocks hz (h.inside hi).2
    have hlocks' : Waiters s' w.locks.lock.semaphore w.locks.Waits := by
      refine hlocks.turn hw.sched ht fun t hwt => or_iff_left ?_
      rintro rfl
      obtain ⟨old, hplace⟩ := hwt
      cases hplace.symm.trans (h.inside hi).1
    simp only [IdeWorld.round, hround, ok_bind]
    refine ⟨_, rfl, h.moved hlocks' ht.all ht.idle hi rfl, hw.congr fun t => ?_, h.one,
      fun hall => absurd hall (w.update_pending (p := .waiting c secsDone oldStatus) trivial)⟩
    change (w.moved _ _ _).Waits t ↔ w.Waits t ∨ t = w.cur
    rw [IdeWorld.moved_waits]
    by_cases he : t = w.cur
    · exact iff_of_true (.inl ⟨he, trivial⟩) (.inr he)
    · simp [he]
  · obtain ⟨hround, hw⟩ := hwaiters.round_takes hone
    have hzero : (0 : UInt8).toNat + (if w.shared.expectingIntr then 1 else 0) = 0 := by
      rw [hnot]
      rfl
    simp only [IdeWorld.round, hround, ok_bind]
    refine ⟨_, rfl, h.moved (hlocks.setIntr oldStatus) (fun _ ht => ht) rfl hi
      (IdePlace.after_mode c secsDone).2.2, (hw.setIntr oldStatus).congr fun t => ?_,
      hzero.trans_le (Nat.zero_le 1), fun _ => hzero⟩
    change (w.moved _ _ _).Waits t ↔ w.Waits t ∧ t ≠ w.cur
    rw [IdeWorld.moved_waits]
    simp [(IdePlace.after_waiting c secsDone).2.2, and_comm]

/-- Neither `ASSERT` of `sema_down` fails. -/
theorem down_ok (h : IdeInv w) (hg : w.guard .down) :
    ∃ w', w.exec .down = .ok w' ∧ IdeInv w' := by
  rcases hg with ⟨c, secsDone, hp⟩ | hw
  · simp only [IdeWorld.exec, hp]
    apply h.round_ok
    rw [hp]
    rfl
  · cases hp : w.place w.cur with
    | waiting c secsDone oldStatus =>
      simp only [IdeWorld.exec, hp]
      apply h.round_ok w.locks.sched.intr
      rw [hp]
      rfl
    | _ =>
      rw [IdeWorld.Waits, hp] at hw
      exact hw.elim

/-- Nor does one of `sema_up`, whenever the interrupt comes. -/
theorem interrupt_ok (h : IdeInv w) : ∃ w', w.exec .interrupt = .ok w' ∧ IdeInv w' := by
  obtain ⟨owner, hl⟩ := h.code.lock
  have hwaiters := h.waiters.setIntr .INTR_OFF
  have hlocks := hl.waiters.setIntr .INTR_OFF
  by_cases hexpects : w.shared.expectingIntr = true
  · have hz : w.shared.diskDone.value = 0 := by
      rcases h.value_cases with hz | ⟨-, hnot⟩
      · exact hz
      · exact absurd (hexpects.symm.trans hnot) (by decide)
    obtain ⟨s', hs', hw, -, ht⟩ := hwaiters.up_ok hz
    have hlocks' : Waiters s' w.locks.lock.semaphore w.locks.Waits := by
      refine hlocks.turn hw.sched ht fun t hwt => and_iff_left fun hhead => ?_
      exact h.lock_or_waits hwt (hwaiters.mem t (List.mem_of_mem_head? hhead)).1
    simp only [IdeWorld.exec, intrHdHandler, if_pos hexpects, hs', ok_bind]
    refine ⟨_, rfl, h.code.moved (hlocks'.setIntr .INTR_ON) ht.all ht.idle fun _ => rfl,
      hw.setIntr .INTR_ON, le_rfl, fun hall => ?_⟩
    have hzero := h.quiet hall
    simp [IdeWorld.due, hexpects] at hzero
  · simp only [IdeWorld.exec, intrHdHandler, if_neg hexpects]
    exact ⟨_, rfl, h.code.moved (hlocks.setIntr .INTR_ON) (fun _ ht => ht) rfl fun _ => rfl,
      hwaiters.setIntr .INTR_ON, h.one, h.quiet⟩

/-- An event refuses the arguments of a call, or it keeps the invariant. -/
theorem exec_ok (h : IdeInv w) {e : IdeEvent} (hg : w.guard e) :
    w.Refuses e ∧ (∀ w', w.exec e ≠ .ok w') ∨ ∃ w', w.exec e = .ok w' ∧ IdeInv w' := by
  cases e with
  | code e =>
    cases e with
    | lock e => exact .inr (h.lock_ok hg)
    | go k =>
      by_cases hr : (w.place w.cur).Refuses k
      · refine .inl ⟨hr, fun w' he => ?_⟩
        obtain ⟨_, hs, -⟩ := bind_ok.mp he
        cases (IdePlace.step_refuses hr).symm.trans hs
      · exact .inr (h.go_ok hg.1 hr)
  | sleep =>
    obtain ⟨c, secsDone, hp⟩ := hg
    exact .inr (h.thread_ok trivial (fun _ he => nomatch he) fun _ he => nomatch he)
  | down => exact .inr (h.down_ok hg)
  | interrupt => exact .inr h.interrupt_ok

theorem start {s : Threads} (hs : SchedOk s) : IdeInv (.start s) := by
  refine ⟨ClientInv.start hs _, ⟨hs, fun t hw => hw.elim, List.nodup_nil, fun t ht => (nomatch ht),
    fun t hw => hw.elim, fun _ hne => absurd rfl hne⟩, Nat.zero_le 1, fun _ => rfl⟩

end IdeInv

theorem ide_preserves : Guarded.Preserves IdeWorld.system IdeInv := by
  intro w e w' h hg he
  rcases h.exec_ok hg with ⟨-, hfails⟩ | ⟨w'', he', h'⟩
  · exact absurd he (hfails w')
  · cases he.symm.trans he'
    exact h'

/-- In every run of the threads, the timer and the drive, whatever its interrupts: and no
event fails but where a call's own arguments are refused. -/
theorem ide_run {s : Threads} (hs : SchedOk s) {events : List IdeEvent} {w : IdeWorld}
    (hrun : Guarded.Run IdeWorld.system (.start s) events w) : DiskDoneRight w ∧
    ∀ e, w.guard e → w.Refuses e ∨ ∃ w', w.exec e = .ok w' := by
  have h := hrun.preserved ide_preserves (.start hs)
  refine ⟨h.right, fun e hg => ?_⟩
  rcases h.exec_ok hg with ⟨hr, -⟩ | ⟨w', he, -⟩
  · exact .inl hr
  · exact .inr ⟨w', he⟩

/-- The main thread reads a sector: it sleeps until the drive's interrupt; another one comes
when nothing is expected. -/
theorem ide_run_sector : ∃ events w, Guarded.Run IdeWorld.system (.start bootedThreads) events w ∧
    w.place w.cur = .released ∧ DiskDoneRight w ∧
    ∀ e, w.guard e → w.Refuses e ∨ ∃ w', w.exec e = .ok w' := by
  let thread (e : ThreadCall) : IdeEvent := .code (.lock (.thread e))
  let step : IdeEvent := .code (.lock .step)
  let next : IdeEvent := .code (.go .next)
  -- the idle thread runs from the first `sema_down` to `thread_block`
  let calls := [thread (.intr .INTR_ON), .code (.go (.call ⟨.readSector, 0, 1⟩)),
    step, step, step, step, next, next, next, next, .down, thread (.intr .INTR_ON), .interrupt,
    thread (.block .TASK_BLOCKED), .down, .interrupt, next, next]
  obtain ⟨w, hrun, hplace⟩ : ∃ w, Guarded.Run IdeWorld.system (.start bootedThreads) calls w ∧
      w.place w.cur = .released :=
    ⟨_, .cons ⟨⟨.inr rfl, .inr rfl, trivial, nofun⟩, nofun⟩ rfl <|
      .cons ⟨⟨rfl, by decide, trivial⟩, nofun⟩ rfl <| .cons ⟨nofun, nofun⟩ rfl <|
      .cons ⟨nofun, nofun⟩ rfl <| .cons ⟨nofun, nofun⟩ rfl <| .cons ⟨nofun, nofun⟩ rfl <|
      .cons ⟨⟨rfl, by decide, trivial⟩, nofun⟩ rfl <|
      .cons ⟨⟨rfl, by decide, trivial⟩, nofun⟩ rfl <|
      .cons ⟨⟨rfl, by decide, trivial⟩, nofun⟩ rfl <|
      .cons ⟨⟨rfl, by decide, trivial⟩, nofun⟩ rfl <| .cons (.inl ⟨_, _, rfl⟩) rfl <|
      .cons ⟨⟨.inr rfl, .inr rfl, trivial, nofun⟩, nofun⟩ rfl <| .cons rfl rfl <|
      .cons ⟨⟨.inr rfl, .inr rfl, rfl, nofun⟩, nofun⟩ rfl <| .cons (.inr trivial) rfl <|
      .cons rfl rfl <| .cons ⟨⟨rfl, by decide, trivial⟩, nofun⟩ rfl <|
      .cons ⟨⟨rfl, by decide, trivial⟩, nofun⟩ rfl (.nil _), rfl⟩
  exact ⟨calls, w, hrun, hplace, ide_run (threadInit_ok threadInit_booted) hrun⟩

end ZhuOS.IdeThreads
