import ZhuOS.Sync

/-!
# `thread/sync.c`: locks

`lock_acquire` and `lock_release` run with interrupts on, so a thread can be switched
out between any two of their accesses to the lock. `LockPlace` says which access comes
next; the calls of `sema_down` and `sema_up` are one step each but for the wait.
-/

namespace ZhuOS

structure Lock where
  holder : Option Nat
  semaphore : Semaphore
  holderRepeatNr : UInt32

def lockInit : Lock := ⟨none, semaInit 1, 0⟩

/-- Where a thread is: what it does next. -/
inductive LockPlace
  | outside
  /-- `sema_down`: the lock's holder was another -/
  | down
  | waiting (oldStatus : IntrStatus)
  /-- `holder = running_thread()` -/
  | setHolder
  /-- `ASSERT(holder_repeat_nr == 0)` -/
  | checkRepeat
  /-- `holder_repeat_nr = 1` -/
  | setRepeat
  /-- `holder_repeat_nr++` of the holder itself, the read and the write -/
  | readMore
  | writeMore (nr : UInt32)
  /-- `holder_repeat_nr > 1`? -/
  | testRepeat
  /-- `holder_repeat_nr--` -/
  | readLess
  | writeLess (nr : UInt32)
  /-- `ASSERT(holder_repeat_nr == 1)` -/
  | checkOne
  /-- `holder = NULL` -/
  | clearHolder
  /-- `holder_repeat_nr = 0` -/
  | clearRepeat
  /-- `sema_up` -/
  | up

/-- A lock and the threads that use it; `depth` counts the calls of `lock_acquire` a
thread has to match yet. -/
structure LockWorld where
  sched : Threads
  lock : Lock
  place : Nat → LockPlace
  depth : Nat → Nat

inductive LockCall
  | thread (e : ThreadCall)
  | reorder (l : List Nat)
  /-- the running thread calls `lock_acquire` and compares the holder with itself -/
  | acquire
  /-- it calls `lock_release` and asserts that it is the holder -/
  | release
  /-- it takes the next step of either -/
  | step

namespace LockWorld

/-- The running thread acts: what the lock, its place and its depth are then. -/
def act (w : LockWorld) (lock : Lock) (place : LockPlace) (depth : Nat) : LockWorld :=
  { w with
    lock
    place := fun t => if t = w.sched.running then place else w.place t
    depth := fun t => if t = w.sched.running then depth else w.depth t }

/-- A round of the loop of `sema_down`. -/
def round (w : LockWorld) (oldStatus : IntrStatus) : Except Fault LockWorld := do
  let (taken, sched, semaphore) ← semaRound w.sched w.lock.semaphore
  let place := if taken then .setHolder else .waiting oldStatus
  let sched := if taken then sched.setIntr oldStatus else sched
  return { w.act { w.lock with semaphore } place (w.depth w.sched.running) with sched }

def step (w : LockWorld) : Except Fault LockWorld :=
  let cur := w.sched.running
  let nr := w.lock.holderRepeatNr
  let d := w.depth cur
  match w.place cur with
  | .outside => return w
  | .down => { w with sched := w.sched.setIntr .INTR_OFF }.round w.sched.intr
  | .waiting oldStatus => w.round oldStatus
  | .setHolder => return w.act { w.lock with holder := some cur } .checkRepeat d
  | .checkRepeat => do
    ASSERT (nr = 0)
    return w.act w.lock .setRepeat d
  | .setRepeat => return w.act { w.lock with holderRepeatNr := 1 } .outside (d + 1)
  | .readMore => return w.act w.lock (.writeMore nr) d
  | .writeMore n => return w.act { w.lock with holderRepeatNr := n + 1 } .outside (d + 1)
  | .testRepeat => return w.act w.lock (if 1 < nr then .readLess else .checkOne) d
  | .readLess => return w.act w.lock (.writeLess nr) d
  | .writeLess n => return w.act { w.lock with holderRepeatNr := n - 1 } .outside (d - 1)
  | .checkOne => do
    ASSERT (nr = 1)
    return w.act w.lock .clearHolder d
  | .clearHolder => return w.act { w.lock with holder := none } .clearRepeat d
  | .clearRepeat => return w.act { w.lock with holderRepeatNr := 0 } .up d
  | .up => do
    let (sched, semaphore) ← semaUp w.sched w.lock.semaphore
    return { w.act { w.lock with semaphore } .outside (d - 1) with sched }

/-- The calls nest well. The timer comes between any two steps; the rest of what a
thread does, it does outside. `nests` are the depths at which threads call
`lock_acquire`. -/
def guard (nests : Nat → Prop) (w : LockWorld) : LockCall → Prop
  | .thread e => (e = .timer ∨ w.place w.sched.running = .outside) ∧ w.sched.guard e ∧
      ∀ t, e = .unblock t → w.place t = .outside
  | .reorder l => l.Perm w.sched.threadReadyList
  | .acquire => w.place w.sched.running = .outside ∧ w.sched.running ≠ w.sched.idleThread ∧
      nests (w.depth w.sched.running)
  | .release => w.place w.sched.running = .outside ∧ 0 < w.depth w.sched.running
  | .step => w.place w.sched.running ≠ .outside

def exec (w : LockWorld) : LockCall → Except Fault LockWorld
  | .thread e => return { w with sched := ← w.sched.exec e }
  | .reorder l => return { w with sched := w.sched.setReady l }
  | .acquire =>
    let cur := w.sched.running
    let place := if w.lock.holder ≠ some cur then .down else .readMore
    return w.act w.lock place (w.depth cur)
  | .release => do
    ASSERT (w.lock.holder = some w.sched.running)
    return w.act w.lock .testRepeat (w.depth w.sched.running)
  | .step => w.step

def system (nests : Nat → Prop) : Guarded.System LockWorld LockCall Fault := ⟨guard nests, exec⟩

def start (s : Threads) : LockWorld := ⟨s, lockInit, fun _ => .outside, fun _ => 0⟩

/-- Past `sema_down`, and `sema_up` not reached yet. -/
def Past (w : LockWorld) (t : Nat) : Prop :=
  match w.place t with
  | .outside => 0 < w.depth t
  | .down | .waiting _ => False
  | _ => True

/-- Inside the loop of `sema_down`. -/
def Waits (w : LockWorld) (t : Nat) : Prop := ∃ oldStatus, w.place t = .waiting oldStatus

end LockWorld

/-- One thread at most has the lock; outside the two functions the holder and the count
are its own; and the value is 0 or 1. -/
structure LockRight (w : LockWorld) : Prop where
  one : ∀ t u, w.Past t → w.Past u → t = u
  outside : ∀ t, w.place t = .outside → (w.lock.holder = some t ↔ 0 < w.depth t) ∧
    (0 < w.depth t → w.lock.holderRepeatNr.toNat = w.depth t)
  value : w.lock.semaphore.value = 0 ∨ w.lock.semaphore.value = 1

/-! ## The invariant -/

/-- Not past `sema_down`. -/
def LockPlace.Away : LockPlace → Prop
  | .outside | .down | .waiting _ => True
  | _ => False

/-- The lock while `t` is past `sema_down`, at depth `d`. -/
def Holding (lock : Lock) (t d : Nat) : LockPlace → Prop
  | .outside | .testRepeat =>
    lock.holder = some t ∧ lock.holderRepeatNr.toNat = d ∧ 1 ≤ d
  | .setHolder => lock.holder = none ∧ lock.holderRepeatNr = 0 ∧ d = 0
  | .checkRepeat | .setRepeat => lock.holder = some t ∧ lock.holderRepeatNr = 0 ∧ d = 0
  | .readMore => lock.holder = some t ∧ lock.holderRepeatNr.toNat = d ∧ 1 ≤ d ∧ d + 1 < 2 ^ 32
  | .writeMore n => lock.holder = some t ∧ n.toNat = d ∧ 1 ≤ d ∧ d + 1 < 2 ^ 32
  | .readLess => lock.holder = some t ∧ lock.holderRepeatNr.toNat = d ∧ 2 ≤ d
  | .writeLess n => lock.holder = some t ∧ n.toNat = d ∧ 2 ≤ d
  | .checkOne | .clearHolder => lock.holder = some t ∧ lock.holderRepeatNr = 1 ∧ d = 1
  | .clearRepeat => lock.holder = none ∧ d = 1
  | .up => lock.holder = none ∧ lock.holderRepeatNr = 0 ∧ d = 1
  | .down | .waiting _ => False

/-- The lock is free, or it is `owner`'s. -/
structure LockInv (w : LockWorld) (owner : Option Nat) : Prop where
  waiters : Waiters w.sched w.lock.semaphore w.Waits
  known : ∀ t, w.place t ≠ .outside ∨ 0 < w.depth t →
    t ∈ w.sched.threadAllList ∧ t ≠ w.sched.idleThread
  others : ∀ t, owner ≠ some t → w.depth t = 0 ∧ (w.place t).Away
  free : owner = none → w.lock.holder = none ∧ w.lock.holderRepeatNr = 0 ∧
    w.lock.semaphore.value = 1
  held : ∀ t, owner = some t → w.lock.semaphore.value = 0 ∧
    Holding w.lock t (w.depth t) (w.place t)


theorem Holding.holder {lock : Lock} {t d : Nat} {p : LockPlace} (h : Holding lock t d p) :
    lock.holder = some t ∨ lock.holder = none := by
  cases p with
  | outside | testRepeat | checkRepeat | setRepeat | readMore | writeMore | readLess | writeLess
  | checkOne | clearHolder => exact .inl h.1
  | setHolder | clearRepeat | up => exact .inr h.1
  | down | waiting => exact h.elim

theorem Holding.busy {lock : Lock} {t d : Nat} {p : LockPlace} (h : Holding lock t d p) :
    p ≠ .outside ∨ 0 < d := by
  cases p with
  | outside => exact .inr h.2.2
  | _ => exact .inl (by simp)

theorem Holding.not_waiting {lock : Lock} {t d : Nat} {p : LockPlace} (h : Holding lock t d p)
    (oldStatus : IntrStatus) : p ≠ .waiting oldStatus := by
  rintro rfl
  exact h

namespace LockWorld

variable (w : LockWorld) (lock : Lock) (p : LockPlace) (d : Nat)

@[simp] theorem act_place_self : (w.act lock p d).place w.sched.running = p := if_pos rfl

theorem act_place_other {t : Nat} (h : t ≠ w.sched.running) :
    (w.act lock p d).place t = w.place t := if_neg h

@[simp] theorem act_depth_self : (w.act lock p d).depth w.sched.running = d := if_pos rfl

theorem act_depth_other {t : Nat} (h : t ≠ w.sched.running) :
    (w.act lock p d).depth t = w.depth t := if_neg h

@[simp] theorem act_lock : (w.act lock p d).lock = lock := rfl

@[simp] theorem act_sched : (w.act lock p d).sched = w.sched := rfl

/-- A step that leaves the loop, or was outside it. -/
theorem act_waits (hp : ∀ oldStatus, p ≠ .waiting oldStatus) (t : Nat) :
    (w.act lock p d).Waits t ↔ w.Waits t ∧ t ≠ w.sched.running := by
  unfold Waits
  by_cases he : t = w.sched.running
  · subst he
    simp [hp]
  · rw [act_place_other _ _ _ _ he]
    simp [he]

theorem act_waits_outside (hp : ∀ oldStatus, p ≠ .waiting oldStatus)
    (hw : ¬ w.Waits w.sched.running) (t : Nat) : (w.act lock p d).Waits t ↔ w.Waits t := by
  rw [act_waits w lock p d hp]
  refine ⟨And.left, fun h => ⟨h, ?_⟩⟩
  rintro rfl
  exact hw h

theorem act_waits_waiting (oldStatus : IntrStatus) (t : Nat) :
    (w.act lock (.waiting oldStatus) d).Waits t ↔ w.Waits t ∨ t = w.sched.running := by
  unfold Waits
  by_cases he : t = w.sched.running
  · subst he
    simp
  · rw [act_place_other _ _ _ _ he]
    simp [he]

variable {w}

theorem round_waits {oldStatus : IntrStatus} {s' : Threads} {semaphore : Semaphore}
    (h : semaRound w.sched w.lock.semaphore = .ok (false, s', semaphore)) :
    w.round oldStatus = .ok { w.act { w.lock with semaphore } (.waiting oldStatus)
      (w.depth w.sched.running) with sched := s' } := by
  simp only [round, h, ok_bind]
  rfl

theorem round_takes {oldStatus : IntrStatus} {s' : Threads} {semaphore : Semaphore}
    (h : semaRound w.sched w.lock.semaphore = .ok (true, s', semaphore)) :
    w.round oldStatus = .ok { w.act { w.lock with semaphore } .setHolder
      (w.depth w.sched.running) with sched := s'.setIntr oldStatus } := by
  simp only [round, h, ok_bind]
  rfl

end LockWorld

namespace LockInv

variable {w : LockWorld} {owner : Option Nat}

/-- The threads may have turned meanwhile. -/
theorem setSched (h : LockInv w owner) {s' : Threads}
    (hw : Waiters s' w.lock.semaphore w.Waits)
    (hall : ∀ t ∈ w.sched.threadAllList, t ∈ s'.threadAllList)
    (hidle : s'.idleThread = w.sched.idleThread) : LockInv { w with sched := s' } owner := by
  refine ⟨hw, fun t ht => ?_, h.others, h.free, h.held⟩
  obtain ⟨hm, hne⟩ := h.known t ht
  exact ⟨hall t hm, hidle ▸ hne⟩

/-- A thread past `sema_down` has the lock. -/
theorem owner_of (h : LockInv w owner) {t : Nat} (ht : 0 < w.depth t ∨ ¬ (w.place t).Away) :
    owner = some t := by
  by_contra hne
  obtain ⟨hd, ha⟩ := h.others t hne
  rcases ht with ht | ht
  · omega
  · exact ht ha

theorem owner_of_holder (h : LockInv w owner) {t : Nat} (ht : w.lock.holder = some t) :
    owner = some t := by
  cases owner with
  | none => simp [(h.free rfl).1] at ht
  | some u =>
    rcases (h.held u rfl).2.holder with hu | hu
    · exact hu.symm.trans ht
    · simp [hu] at ht

/-- What is left to check when the running thread has acted. -/
theorem acted (h : LockInv w owner) {owner' : Option Nat} {s : Threads} {lock : Lock}
    {p : LockPlace} {d : Nat} (hw : Waiters s lock.semaphore (w.act lock p d).Waits)
    (hall : ∀ t ∈ w.sched.threadAllList, t ∈ s.threadAllList)
    (hidle : s.idleThread = w.sched.idleThread)
    (hrun : w.sched.running ∈ w.sched.threadAllList ∧ w.sched.running ≠ w.sched.idleThread)
    (hothers : ∀ t, t ≠ w.sched.running → owner = some t → owner' = some t)
    (haway : owner' ≠ some w.sched.running → d = 0 ∧ p.Away)
    (hfree : owner' = none →
      lock.holder = none ∧ lock.holderRepeatNr = 0 ∧ lock.semaphore.value = 1)
    (hself : owner' = some w.sched.running →
      lock.semaphore.value = 0 ∧ Holding lock w.sched.running d p)
    (hheld : ∀ t, t ≠ w.sched.running → owner' = some t →
      lock.semaphore.value = 0 ∧ Holding lock t (w.depth t) (w.place t)) :
    LockInv { w.act lock p d with sched := s } owner' := by
  refine ⟨hw, fun t ht => ?_, fun t ht => ?_, hfree, fun t ht => ?_⟩
  · by_cases he : t = w.sched.running
    · exact he ▸ ⟨hall _ hrun.1, hidle ▸ hrun.2⟩
    · change (w.act lock p d).place t ≠ _ ∨ 0 < (w.act lock p d).depth t at ht
      rw [LockWorld.act_place_other _ _ _ _ he, LockWorld.act_depth_other _ _ _ _ he] at ht
      obtain ⟨hm, hne⟩ := h.known t ht
      exact ⟨hall t hm, hidle ▸ hne⟩
  · show (w.act lock p d).depth t = 0 ∧ ((w.act lock p d).place t).Away
    by_cases he : t = w.sched.running
    · subst he
      simpa using haway ht
    · rw [LockWorld.act_place_other _ _ _ _ he, LockWorld.act_depth_other _ _ _ _ he]
      exact h.others t fun ho => ht (hothers t he ho)
  · show lock.semaphore.value = 0 ∧
      Holding lock t ((w.act lock p d).depth t) ((w.act lock p d).place t)
    by_cases he : t = w.sched.running
    · subst he
      simpa using hself ht
    · rw [LockWorld.act_place_other _ _ _ _ he, LockWorld.act_depth_other _ _ _ _ he]
      exact hheld t he ht

/-- The owner goes on, the semaphore as it was. -/
theorem own (h : LockInv w (some w.sched.running)) {lock : Lock} {p : LockPlace} {d : Nat}
    (hs : lock.semaphore = w.lock.semaphore) (hh : Holding lock w.sched.running d p) :
    LockInv (w.act lock p d) (some w.sched.running) := by
  obtain ⟨hz, hold⟩ := h.held _ rfl
  have hnot : ¬ w.Waits w.sched.running := fun ⟨old, hw⟩ => hold.not_waiting old hw
  refine h.acted (s := w.sched) ?_ (fun _ ht => ht) rfl (h.known _ hold.busy) (fun _ _ ho => ho)
    (fun hne => absurd rfl hne) (fun hn => (nomatch hn)) (fun _ => ⟨hs ▸ hz, hh⟩) ?_
  · rw [hs]
    exact h.waiters.congr (w.act_waits_outside lock p d hh.not_waiting hnot)
  · rintro t he ⟨⟩
    exact absurd rfl he

/-- A round of the loop: with the lock another's the thread waits, else it has it. -/
theorem round_ok (h : LockInv w owner) (hp : w.place w.sched.running ≠ .outside)
    (ha : (w.place w.sched.running).Away) (oldStatus : IntrStatus) :
    ∃ w', w.round oldStatus = .ok w' ∧ ∃ owner', LockInv w' owner' := by
  have hne : owner ≠ some w.sched.running := by
    rintro rfl
    have hh := (h.held _ rfl).2
    revert hp ha hh
    cases w.place w.sched.running with
    | outside => exact fun hp => absurd rfl hp
    | down | waiting => exact fun _ _ hh => hh
    | _ => exact fun _ ha => ha.elim
  have hd := (h.others _ hne).1
  have hrun := h.known _ (.inl hp)
  cases owner with
  | none =>
    obtain ⟨hholder, hnr, hone⟩ := h.free rfl
    obtain ⟨hround, hw⟩ := h.waiters.round_takes hone
    refine ⟨_, LockWorld.round_takes hround, some w.sched.running,
      h.acted ?_ (fun _ ht => ht) rfl hrun (fun _ _ ho => (nomatch ho))
      (fun hne => absurd rfl hne) (fun hn => (nomatch hn)) (fun _ => ⟨rfl, hholder, hnr, hd⟩) ?_⟩
    · exact (hw.setIntr oldStatus).congr (w.act_waits _ _ _ (by simp))
    · rintro t he ⟨⟩
      exact absurd rfl he
  | some u =>
    have hu : u ≠ w.sched.running := fun he => hne (congrArg some he)
    obtain ⟨hz, hh⟩ := h.held u rfl
    obtain ⟨s', hround, hw, ht⟩ := h.waiters.round_blocks hz hrun.2
    refine ⟨_, LockWorld.round_waits hround, some u,
      h.acted (hw.congr (w.act_waits_waiting _ _ _)) ht.all ht.idle hrun (fun _ _ ho => ho)
      (fun _ => ⟨hd, trivial⟩) (fun hn => (nomatch hn)) (fun ho => absurd ho hne) ?_⟩
    rintro t - ⟨⟩
    refine ⟨hz, ?_⟩
    cases hplace : w.place u with
    | _ => exact hplace ▸ hh

/-- `sema_up`: the lock is free, and the first of those that wait is woken. -/
theorem up_ok (h : LockInv w (some w.sched.running)) (hp : w.place w.sched.running = .up) :
    ∃ w', w.step = .ok w' ∧ LockInv w' none := by
  obtain ⟨hz, hh⟩ := h.held _ rfl
  have hrun := h.known _ hh.busy
  rw [hp] at hh
  obtain ⟨hholder, hnr, hd⟩ := hh
  have hnot : ¬ w.Waits w.sched.running := by
    rintro ⟨old, hw⟩
    simp [hp] at hw
  obtain ⟨s', hs', hw, -, ht⟩ := h.waiters.up_ok hz
  simp only [LockWorld.step, hp, hs', ok_bind]
  refine ⟨_, rfl, h.acted (hw.congr (w.act_waits_outside _ _ _ (by simp) hnot)) ht.all
    ht.idle hrun ?_ (fun _ => ⟨by omega, trivial⟩) (fun _ => ⟨hholder, hnr, rfl⟩)
    (fun ho => (nomatch ho)) (fun _ _ ho => (nomatch ho))⟩
  rintro t he ⟨⟩
  exact absurd rfl he

/-- The owner's other steps. -/
theorem owner_step_ok (h : LockInv w (some w.sched.running))
    (hp : w.place w.sched.running ≠ .outside) :
    ∃ w', w.step = .ok w' ∧ ∃ owner', LockInv w' owner' := by
  have hh := (h.held _ rfl).2
  cases hplace : w.place w.sched.running with
  | outside => exact absurd hplace hp
  | down | waiting => simp only [hplace, Holding] at hh
  | setHolder =>
    rw [hplace] at hh
    simp only [LockWorld.step, hplace]
    obtain ⟨-, hnr, hd⟩ := hh
    exact ⟨_, rfl, _, h.own rfl ⟨rfl, hnr, hd⟩⟩
  | checkRepeat =>
    rw [hplace] at hh
    simp only [LockWorld.step, hplace, ASSERT_true hh.2.1, ok_bind]
    exact ⟨_, rfl, _, h.own rfl hh⟩
  | setRepeat =>
    rw [hplace] at hh
    simp only [LockWorld.step, hplace]
    obtain ⟨hholder, -, hd⟩ := hh
    refine ⟨_, rfl, _, h.own rfl ⟨hholder, ?_, ?_⟩⟩
    · simp [hd]
    · omega
  | readMore =>
    rw [hplace] at hh
    simp only [LockWorld.step, hplace]
    exact ⟨_, rfl, _, h.own rfl hh⟩
  | writeMore n =>
    rw [hplace] at hh
    simp only [LockWorld.step, hplace]
    obtain ⟨hholder, hn, hd, hlt⟩ := hh
    refine ⟨_, rfl, _, h.own rfl ⟨hholder, ?_, ?_⟩⟩
    · simp only [UInt32.toNat_add, UInt32.toNat_one]
      omega
    · omega
  | testRepeat =>
    rw [hplace] at hh
    simp only [LockWorld.step, hplace]
    obtain ⟨hholder, hnr, hd⟩ := hh
    refine ⟨_, rfl, _, h.own rfl ?_⟩
    by_cases hone : 1 < w.lock.holderRepeatNr
    · rw [if_pos hone]
      refine ⟨hholder, hnr, ?_⟩
      have := UInt32.lt_iff_toNat_lt.mp hone
      rw [UInt32.toNat_one] at this
      omega
    · rw [if_neg hone]
      have hle : ¬ 1 < w.lock.holderRepeatNr.toNat := fun hlt =>
        hone (UInt32.lt_iff_toNat_lt.mpr hlt)
      refine ⟨hholder, UInt32.toNat_inj.mp ?_, ?_⟩
      · rw [UInt32.toNat_one]
        omega
      · omega
  | readLess =>
    rw [hplace] at hh
    simp only [LockWorld.step, hplace]
    exact ⟨_, rfl, _, h.own rfl hh⟩
  | writeLess n =>
    rw [hplace] at hh
    simp only [LockWorld.step, hplace]
    obtain ⟨hholder, hn, hd⟩ := hh
    have hle : (1 : UInt32) ≤ n := UInt32.le_iff_toNat_le.mpr (by rw [UInt32.toNat_one]; omega)
    refine ⟨_, rfl, _, h.own rfl ⟨hholder, ?_, ?_⟩⟩
    · rw [UInt32.toNat_sub_of_le _ _ hle, UInt32.toNat_one, hn]
    · omega
  | checkOne =>
    rw [hplace] at hh
    simp only [LockWorld.step, hplace, ASSERT_true hh.2.1, ok_bind]
    exact ⟨_, rfl, _, h.own rfl hh⟩
  | clearHolder =>
    rw [hplace] at hh
    simp only [LockWorld.step, hplace]
    exact ⟨_, rfl, _, h.own rfl ⟨rfl, hh.2.2⟩⟩
  | clearRepeat =>
    rw [hplace] at hh
    simp only [LockWorld.step, hplace]
    exact ⟨_, rfl, _, h.own rfl ⟨hh.1, rfl, hh.2⟩⟩
  | up =>
    obtain ⟨w', hw', h'⟩ := h.up_ok hplace
    exact ⟨w', hw', none, h'⟩

/-- The step of a thread inside one of the two functions. -/
theorem step_ok (h : LockInv w owner) (hp : w.place w.sched.running ≠ .outside) :
    ∃ w', w.step = .ok w' ∧ ∃ owner', LockInv w' owner' := by
  by_cases ha : (w.place w.sched.running).Away
  · cases hplace : w.place w.sched.running with
    | outside => exact absurd hplace hp
    | down =>
      simp only [LockWorld.step, hplace]
      exact (h.setSched (h.waiters.setIntr .INTR_OFF) (fun _ ht => ht) rfl).round_ok hp ha _
    | waiting oldStatus =>
      simp only [LockWorld.step, hplace]
      exact h.round_ok hp ha oldStatus
    | _ => exact absurd ha (by simp [hplace, LockPlace.Away])
  · obtain rfl := h.owner_of (.inr ha)
    exact h.owner_step_ok hp

/-- `lock_acquire`, up to the comparison. -/
theorem acquire_ok (h : LockInv w owner) (hp : w.place w.sched.running = .outside)
    (hidle : w.sched.running ≠ w.sched.idleThread)
    (hd : w.depth w.sched.running + 1 < 2 ^ 32) :
    ∃ w', w.exec .acquire = .ok w' ∧ ∃ owner', LockInv w' owner' := by
  have hnot : ¬ w.Waits w.sched.running := by
    rintro ⟨old, hw⟩
    simp [hp] at hw
  refine ⟨_, rfl, ?_⟩
  by_cases hholder : w.lock.holder = some w.sched.running
  · obtain rfl := h.owner_of_holder hholder
    have hh := (h.held _ rfl).2
    rw [hp] at hh
    refine ⟨_, h.own rfl ?_⟩
    rw [if_neg (not_not.mpr hholder)]
    exact ⟨hh.1, hh.2.1, hh.2.2, hd⟩
  · have hne : owner ≠ some w.sched.running := by
      rintro rfl
      have hh := (h.held _ rfl).2
      rw [hp] at hh
      exact hholder hh.1
    rw [if_pos hholder]
    refine ⟨owner, h.acted (h.waiters.congr (w.act_waits_outside _ _ _ (by simp) hnot))
      (fun _ ht => ht) rfl ⟨h.waiters.sched.running_mem, hidle⟩ (fun _ _ ho => ho)
      (fun _ => ⟨(h.others _ hne).1, trivial⟩) h.free (fun ho => absurd ho hne)
      fun t _ ho => h.held t ho⟩

end LockInv

theorem lock_keeps : Guarded.Keeps (LockWorld.system fun d => d + 1 < 2 ^ 32)
    fun w => ∃ owner, LockInv w owner := by
  rintro w e ⟨owner, h⟩ hg
  cases e with
  | thread e =>
    obtain ⟨hout, hguard, hunblock⟩ := hg
    have hnot : ∀ t, w.place t = .outside → ¬ w.Waits t := by
      rintro t ht ⟨old, hw⟩
      simp [ht] at hw
    obtain ⟨s', hs', hw, ho⟩ := h.waiters.exec_ok hguard (fun stat he => hnot _ (by
      rcases hout with rfl | hout
      · cases he
      · exact hout)) fun t he => hnot t (hunblock t he)
    simp only [LockWorld.system, LockWorld.exec, hs', ok_bind]
    exact ⟨_, rfl, owner, h.setSched hw ho.all ho.idle⟩
  | reorder l => exact ⟨_, rfl, owner, h.setSched (h.waiters.reorder hg) (fun _ ht => ht) rfl⟩
  | acquire => exact h.acquire_ok hg.1 hg.2.1 hg.2.2
  | release =>
    obtain ⟨hout, hd⟩ := hg
    obtain rfl := h.owner_of (.inl hd)
    have hh := (h.held _ rfl).2
    rw [hout] at hh
    simp only [LockWorld.system, LockWorld.exec, ASSERT_true hh.1, ok_bind]
    exact ⟨_, rfl, _, h.own (p := .testRepeat) rfl hh⟩
  | step => exact h.step_ok hg

theorem LockInv.right {w : LockWorld} {owner : Option Nat} (h : LockInv w owner) :
    LockRight w := by
  have hpast : ∀ t, w.Past t → owner = some t := by
    intro t ht
    apply h.owner_of
    unfold LockWorld.Past at ht
    cases hp : w.place t with
    | outside =>
      rw [hp] at ht
      exact .inl ht
    | down | waiting =>
      rw [hp] at ht
      exact ht.elim
    | _ => exact .inr (by simp [LockPlace.Away])
  refine ⟨fun t u ht hu => ?_, fun t ht => ⟨⟨fun hh => ?_, fun hd => ?_⟩, fun hd => ?_⟩, ?_⟩
  · exact Option.some.inj ((hpast t ht).symm.trans (hpast u hu))
  · have hh := (h.held t (h.owner_of_holder hh)).2
    rw [ht] at hh
    exact hh.2.2
  · have hh := (h.held t (h.owner_of (.inl hd))).2
    rw [ht] at hh
    exact hh.1
  · have hh := (h.held t (h.owner_of (.inl hd))).2
    rw [ht] at hh
    exact hh.2.1
  · cases owner with
    | none => exact .inr (h.free rfl).2.2
    | some u => exact .inl (h.held u rfl).1

theorem LockInv.start {s : Threads} (hs : SchedOk s) : LockInv (LockWorld.start s) none := by
  refine ⟨⟨hs, ?_, List.nodup_nil, fun t ht => (nomatch ht), ?_, fun _ hne => absurd rfl hne⟩,
    ?_, fun _ _ => ⟨rfl, trivial⟩, fun _ => ⟨rfl, rfl, rfl⟩, fun t ht => (nomatch ht)⟩
  · rintro t ⟨old, hw⟩
    cases hw
  · rintro t ⟨old, hw⟩
    cases hw
  · rintro t (ht | ht)
    · exact absurd rfl ht
    · exact absurd ht (Nat.lt_irrefl 0)

/-- Every run of a lock whose calls nest fewer than `2 ^ 32` deep. -/
theorem lock_run {s : Threads} (hs : SchedOk s) {calls : List LockCall} {w : LockWorld}
    (hrun : Guarded.Run (LockWorld.system fun d => d + 1 < 2 ^ 32) (.start s) calls w) :
    LockRight w ∧ ∀ e, w.guard (fun d => d + 1 < 2 ^ 32) e → ∃ w', w.exec e = .ok w' := by
  obtain ⟨owner, h⟩ := hrun.invariant lock_keeps ⟨none, LockInv.start hs⟩
  refine ⟨h.right, fun e hg => ?_⟩
  obtain ⟨w', hw', -⟩ := lock_keeps w e ⟨owner, h⟩ hg
  exact ⟨w', hw'⟩

/-- The main thread takes the lock, and takes it again. -/
theorem lock_run_again : ∃ w, Guarded.Run (LockWorld.system fun d => d + 1 < 2 ^ 32)
    (.start bootedThreads) [.acquire, .step, .step, .step, .step, .acquire, .step, .step] w ∧
    LockRight w := by
  have hrun : Guarded.Run (LockWorld.system fun d => d + 1 < 2 ^ 32) (.start bootedThreads)
      [.acquire, .step, .step, .step, .step, .acquire, .step, .step] _ :=
    .cons (by exact ⟨rfl, by decide, by decide⟩) rfl <| .cons (by exact nofun) rfl <|
    .cons (by exact nofun) rfl <| .cons (by exact nofun) rfl <| .cons (by exact nofun) rfl <|
    .cons (by exact ⟨rfl, by decide, by decide⟩) rfl <| .cons (by exact nofun) rfl <|
    .cons (by exact nofun) rfl (.nil _)
  exact ⟨_, hrun, (lock_run (threadInit_ok threadInit_booted) hrun).1⟩

/-! ## The count wraps -/

/-- The running thread is the owner, outside the two functions. -/
structure Nested (w : LockWorld) (nr : UInt32) (d : Nat) : Prop where
  place : w.place w.sched.running = .outside
  idle : w.sched.running ≠ w.sched.idleThread
  holder : w.lock.holder = some w.sched.running
  nr : w.lock.holderRepeatNr = nr
  depth : w.depth w.sched.running = d

/-- Once more. -/
theorem Nested.more (nests : Nat → Prop) {w : LockWorld} {nr : UInt32} {d : Nat}
    (h : Nested w nr d) (hn : nests d) : ∃ w',
      Guarded.Run (LockWorld.system nests) w [.acquire, .step, .step] w' ∧
      Nested w' (nr + 1) (d + 1) := by
  let w1 := w.act w.lock .readMore d
  let w2 := w1.act w.lock (.writeMore nr) d
  let w3 := w2.act { w.lock with holderRepeatNr := nr + 1 } .outside (d + 1)
  have h1 : w.exec .acquire = .ok w1 := by
    simp only [LockWorld.exec, h.holder, ne_eq, not_true_eq_false, ↓reduceIte, h.depth]
    rfl
  have h2 : w1.exec .step = .ok w2 := by
    simp [w1, w2, LockWorld.exec, LockWorld.step, LockWorld.act, h.nr]
    rfl
  have h3 : w2.exec .step = .ok w3 := by
    simp [w1, w2, w3, LockWorld.exec, LockWorld.step, LockWorld.act]
    rfl
  have hp1 : w1.place w.sched.running = .readMore := w.act_place_self ..
  have hp2 : w2.place w.sched.running = .writeMore nr := w1.act_place_self ..
  have hn : nests (w.depth w.sched.running) := h.depth ▸ hn
  refine ⟨w3, .cons ⟨h.place, h.idle, hn⟩ h1 (.cons (fun he => ?_) h2
    (.cons (fun he => ?_) h3 (.nil _))), ?_⟩
  · cases hp1.symm.trans he
  · cases hp2.symm.trans he
  · exact ⟨w2.act_place_self .., h.idle, h.holder, rfl, w2.act_depth_self ..⟩

/-- As often as one likes. -/
theorem Nested.deep {w : LockWorld} {nr : UInt32} {d : Nat} (h : Nested w nr d) (n : Nat) :
    ∃ calls w', Guarded.Run (LockWorld.system fun _ => True) w calls w' ∧
      Nested w' (nr + .ofNat n) (d + n) := by
  induction n with
  | zero => exact ⟨[], w, .nil w, by simpa using h⟩
  | succ n ih =>
    obtain ⟨calls, w', hrun, hn⟩ := ih
    obtain ⟨w'', hrun', hn'⟩ := hn.more (fun _ => True) trivial
    refine ⟨_, w'', hrun.append hrun', ?_⟩
    have hadd : nr + UInt32.ofNat (n + 1) = nr + UInt32.ofNat n + 1 := by
      rw [UInt32.ofNat_add, UInt32.add_assoc]
      rfl
    rw [hadd]
    exact hn'

/-- The main thread calls `lock_acquire` `2 ^ 32` times: the count is 0 again. -/
theorem lock_run_wraps : ∃ calls w,
    Guarded.Run (LockWorld.system fun _ => True) (.start bootedThreads) calls w ∧
    ¬ LockRight w := by
  obtain ⟨w, hrun, hn⟩ : ∃ w, Guarded.Run (LockWorld.system fun _ => True)
      (.start bootedThreads) [.acquire, .step, .step, .step, .step] w ∧ Nested w 1 1 :=
    ⟨_, .cons ⟨rfl, by decide, trivial⟩ rfl <| .cons nofun rfl <|
      .cons nofun rfl <| .cons nofun rfl <| .cons nofun rfl (.nil _),
      ⟨rfl, by decide, rfl, rfl, rfl⟩⟩
  obtain ⟨calls, w', hrun', hn'⟩ := hn.deep (2 ^ 32 - 1)
  refine ⟨_, w', hrun.append hrun', fun hr => ?_⟩
  have hnr := (hr.outside _ hn'.place).2 (by rw [hn'.depth]; omega)
  rw [hn'.nr, hn'.depth] at hnr
  exact absurd hnr (by decide)

end ZhuOS
