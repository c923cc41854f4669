import ZhuOS.Lib.Ring
import ZhuOS.Locks

/-!
# `device/ioqueue.c`

The queue's functions run with interrupts off, so a thread is switched out where it
blocks and nowhere else: in the loop of `sema_down`, when another has the queue's lock,
and in `ioq_wait`. What lies between two such places is one step.
-/

namespace ZhuOS

structure Ioqueue where
  lock : Lock
  producer : Option Nat
  consumer : Option Nat
  buf : Fin 64 → UInt8
  /-- where the next byte is written -/
  head : Fin 64
  /-- where the next byte is read -/
  tail : Fin 64

/-- `ioqueue_init`; the buffer is as it was. -/
def ioqueueInit (buf : Fin 64 → UInt8) : Ioqueue := ⟨lockInit, none, none, buf, 0, 0⟩

/-- `(pos + 1) % bufsize` -/
def nextPos (pos : Fin 64) : Fin 64 := pos + 1

def ioqFull (s : Threads) (ioq : Ioqueue) : Except Fault Bool := do
  ASSERT (s.intr = .INTR_OFF)
  return nextPos ioq.head = ioq.tail

def ioqEmpty (s : Threads) (ioq : Ioqueue) : Except Fault Bool := do
  ASSERT (s.intr = .INTR_OFF)
  return ioq.head = ioq.tail

def ioqWait (s : Threads) (waiter : Option Nat) : Except Fault (Threads × Option Nat) := do
  ASSERT (waiter = none)
  return (← threadBlock s .TASK_BLOCKED, some s.running)

def wakeup (s : Threads) : Option Nat → Except Fault (Threads × Option Nat)
  | none => .error .panic
  | some t => return (← threadUnblock s t, none)

/-- `if(waiter != NULL) wakeup(&waiter)` -/
def wakeupIf (s : Threads) (waiter : Option Nat) : Except Fault (Threads × Option Nat) :=
  if waiter ≠ none then wakeup s waiter else return (s, waiter)

/-- A round of the loop of `sema_down`, and what `lock_acquire` does after it: `true`
when the thread has the lock, `false` when it has blocked. -/
def Lock.lockRound (s : Threads) (lock : Lock) (oldStatus : IntrStatus) :
    Except Fault (Bool × Threads × Lock) := do
  let (taken, s, semaphore) ← semaRound s lock.semaphore
  if taken then
    ASSERT (lock.holderRepeatNr = 0)
    return (true, s.setIntr oldStatus, ⟨some s.running, semaphore, 1⟩)
  else return (false, s, { lock with semaphore })

/-- `lock_acquire` with interrupts off, up to where it blocks. -/
def Lock.lockAcquire (s : Threads) (lock : Lock) : Except Fault (Bool × Threads × Lock) :=
  if lock.holder ≠ some s.running then Lock.lockRound (s.setIntr .INTR_OFF) lock s.intr
  else return (true, s, { lock with holderRepeatNr := lock.holderRepeatNr + 1 })

/-- `lock_release` with interrupts off. -/
def Lock.lockRelease (s : Threads) (lock : Lock) : Except Fault (Threads × Lock) := do
  ASSERT (lock.holder = some s.running)
  if 1 < lock.holderRepeatNr then
    return (s, { lock with holderRepeatNr := lock.holderRepeatNr - 1 })
  else
    ASSERT (lock.holderRepeatNr = 1)
    let (s, semaphore) ← semaUp s lock.semaphore
    return (s, ⟨none, semaphore, 0⟩)

/-- `ioq_getchar` after its loop. -/
def takeByte (s : Threads) (ioq : Ioqueue) : Except Fault (UInt8 × Threads × Ioqueue) := do
  let byte := ioq.buf ioq.tail
  let (s, producer) ← wakeupIf s ioq.producer
  return (byte, s, { ioq with tail := nextPos ioq.tail, producer })

/-- `ioq_putchar` after its loop. -/
def storeByte (s : Threads) (ioq : Ioqueue) (byte : UInt8) :
    Except Fault (Threads × Ioqueue) := do
  let buf := Function.update ioq.buf ioq.head byte
  let (s, consumer) ← wakeupIf s ioq.consumer
  return (s, { ioq with buf, head := nextPos ioq.head, consumer })

/-- Which of the two functions a thread is in. -/
inductive IoqCall
  | getchar
  | putchar (byte : UInt8)

namespace IoqCall

def puts : IoqCall → Bool
  | .getchar => false
  | .putchar _ => true

/-- The test of its loop. -/
def test (s : Threads) (ioq : Ioqueue) : IoqCall → Except Fault Bool
  | .getchar => ioqEmpty s ioq
  | .putchar _ => ioqFull s ioq

/-- The place of the thread that waits in it. -/
def slot (ioq : Ioqueue) : IoqCall → Option Nat
  | .getchar => ioq.consumer
  | .putchar _ => ioq.producer

def setSlot (ioq : Ioqueue) (waiter : Option Nat) : IoqCall → Ioqueue
  | .getchar => { ioq with consumer := waiter }
  | .putchar _ => { ioq with producer := waiter }

end IoqCall

/-- Where a thread is. -/
inductive IoqPlace
  | outside
  /-- in the loop of `sema_down`, called by `lock_acquire` -/
  | locking (call : IoqCall) (oldStatus : IntrStatus)
  /-- in `ioq_wait` -/
  | sleeping (call : IoqCall)

/-- A queue and the threads that use it, the bytes of the completed `ioq_putchar` calls
and those of the completed `ioq_getchar` calls. -/
structure IoqWorld where
  sched : Threads
  ioq : Ioqueue
  place : Nat → IoqPlace
  stored : List UInt8
  fetched : List UInt8

inductive IoqEvent
  | thread (e : ThreadCall)
  | reorder (l : List Nat)
  /-- the running thread calls one of the functions -/
  | call (call : IoqCall)
  /-- it was switched out in one and goes on -/
  | resume

namespace IoqWorld

def setPlace (w : IoqWorld) (place : IoqPlace) : Nat → IoqPlace :=
  fun t => if t = w.sched.running then place else w.place t

/-- The call is over. -/
def finish (w : IoqWorld) : IoqCall → Except Fault IoqWorld
  | .getchar => do
    let (byte, sched, ioq) ← takeByte w.sched w.ioq
    return { w with sched, ioq, place := w.setPlace .outside, fetched := w.fetched ++ [byte] }
  | .putchar byte => do
    let (sched, ioq) ← storeByte w.sched w.ioq byte
    return { w with sched, ioq, place := w.setPlace .outside, stored := w.stored ++ [byte] }

/-- The thread has the lock and sleeps, or it has blocked in `sema_down`. -/
def locked (w : IoqWorld) (call : IoqCall) (oldStatus : IntrStatus) :
    Bool × Threads × Lock → Except Fault IoqWorld
  | (true, sched, lock) => do
    let (sched, waiter) ← ioqWait sched (call.slot w.ioq)
    return { w with
      sched, ioq := call.setSlot { w.ioq with lock } waiter, place := w.setPlace (.sleeping call) }
  | (false, sched, lock) =>
    return { w with
      sched, ioq := { w.ioq with lock }, place := w.setPlace (.locking call oldStatus) }

/-- The test of the loop, and on to where the thread blocks or returns. -/
def loop (w : IoqWorld) (call : IoqCall) : Except Fault IoqWorld := do
  if ← call.test w.sched w.ioq then
    w.locked call w.sched.intr (← Lock.lockAcquire w.sched w.ioq.lock)
  else w.finish call

def resume (w : IoqWorld) : Except Fault IoqWorld :=
  match w.place w.sched.running with
  | .outside => return w
  | .locking call oldStatus => do
    w.locked call oldStatus (← Lock.lockRound w.sched w.ioq.lock oldStatus)
  | .sleeping call => do
    let (sched, lock) ← Lock.lockRelease w.sched w.ioq.lock
    { w with sched, ioq := { w.ioq with lock }, place := w.setPlace .outside }.loop call

/-- A thread in a call does nothing else, and is woken by the queue alone. Calls come
with interrupts off and from threads other than the idle one. -/
def guard (w : IoqWorld) : IoqEvent → Prop
  | .thread e => w.place w.sched.running = .outside ∧ w.sched.guard e ∧
      ∀ t, e = .unblock t → w.place t = .outside
  | .reorder l => l.Perm w.sched.threadReadyList
  | .call _ => w.place w.sched.running = .outside ∧ w.sched.running ≠ w.sched.idleThread ∧
      w.sched.intr = .INTR_OFF
  | .resume => w.place w.sched.running ≠ .outside

def exec (w : IoqWorld) : IoqEvent → Except Fault IoqWorld
  | .thread e => return { w with sched := ← w.sched.exec e }
  | .reorder l => return { w with sched := w.sched.setReady l }
  | .call call => w.loop call
  | .resume => w.resume

def system : Guarded.System IoqWorld IoqEvent Fault := ⟨guard, exec⟩

def start (s : Threads) (buf : Fin 64 → UInt8) : IoqWorld :=
  ⟨s, ioqueueInit buf, fun _ => .outside, [], []⟩

/-- Inside the loop of `sema_down`. -/
def Waits (w : IoqWorld) (t : Nat) : Prop := ∃ call oldStatus, w.place t = .locking call oldStatus

end IoqWorld

/-- The bytes held, the oldest first. -/
def Ioqueue.unread (ioq : Ioqueue) : List UInt8 := Ring.held ioq.buf ioq.head ioq.tail

/-- What has been stored is what has been fetched and then what is held: nothing is
lost, repeated or overwritten. -/
structure IoqRight (w : IoqWorld) : Prop where
  fetched : w.fetched <+: w.stored
  unread : w.stored = w.fetched ++ w.ioq.unread
  room : w.ioq.unread.length ≤ 63

/-! ## The invariant -/

/-- The queue's lock when `owner` sleeps with it. -/
def SleptOn (lock : Lock) : Option Nat → Prop
  | none => lock.holder = none ∧ lock.holderRepeatNr = 0 ∧ lock.semaphore.value = 1
  | some t => lock.holder = some t ∧ lock.holderRepeatNr = 1 ∧ lock.semaphore.value = 0

/-- The thread that has the lock is in `ioq_wait`, and in its slot until it is woken. -/
structure IoqInv (w : IoqWorld) (owner : Option Nat) : Prop where
  waiters : Waiters w.sched w.ioq.lock.semaphore w.Waits
  known : ∀ t, w.place t ≠ .outside → t ∈ w.sched.threadAllList ∧ t ≠ w.sched.idleThread
  off : ∀ t, w.place t ≠ .outside → w.sched.intrOf t = .INTR_OFF
  old : ∀ t call oldStatus, w.place t = .locking call oldStatus → oldStatus = .INTR_OFF
  sleeper : ∀ t, (∃ call, w.place t = .sleeping call) ↔ owner = some t
  lock : SleptOn w.ioq.lock owner
  slots : ∀ (call : IoqCall) (t : Nat), call.slot w.ioq = some t ↔
    (∃ call', call'.puts = call.puts ∧ w.place t = .sleeping call') ∧ w.sched.Blocked t
  bytes : w.stored = w.fetched ++ w.ioq.unread

theorem IoqCall.slot_setSlot (call call' : IoqCall) (ioq : Ioqueue) (waiter : Option Nat) :
    call'.slot (call.setSlot ioq waiter) =
      if call'.puts = call.puts then waiter else call'.slot ioq := by
  cases call with
  | getchar => cases call' with | getchar | putchar => rfl
  | putchar => cases call' with | getchar | putchar => rfl

@[simp] theorem IoqCall.setSlot_lock (call : IoqCall) (ioq : Ioqueue) (waiter : Option Nat) :
    (call.setSlot ioq waiter).lock = ioq.lock := by
  cases call with | getchar | putchar => rfl

@[simp] theorem IoqCall.setSlot_unread (call : IoqCall) (ioq : Ioqueue) (waiter : Option Nat) :
    (call.setSlot ioq waiter).unread = ioq.unread := by
  cases call with | getchar | putchar => rfl

/-- What the test of a loop finds. -/
def IoqCall.Must (ioq : Ioqueue) : IoqCall → Prop
  | .getchar => ioq.unread = []
  | .putchar _ => ioq.unread.length = 63

theorem IoqCall.test_ok (call : IoqCall) {s : Threads} (ioq : Ioqueue) (h : s.intr = .INTR_OFF) :
    ∃ b, call.test s ioq = .ok b ∧ (b = true ↔ call.Must ioq) := by
  cases call with
  | getchar =>
    refine ⟨_, by simp only [test, ioqEmpty, ASSERT_true h, ok_bind]; rfl, ?_⟩
    rw [decide_eq_true_iff]
    exact (Ring.held_eq_nil ..).symm
  | putchar =>
    refine ⟨_, by simp only [test, ioqFull, ASSERT_true h, ok_bind]; rfl, ?_⟩
    rw [decide_eq_true_iff]
    exact Ring.full_iff ..

theorem Threads.setIntr_eq {s : Threads} {status : IntrStatus} (h : s.intr = status) :
    s.setIntr status = s := by
  subst h
  rfl

namespace IoqWorld

variable (w : IoqWorld) (p : IoqPlace)

@[simp] theorem setPlace_self : w.setPlace p w.sched.running = p := if_pos rfl

theorem setPlace_other {t : Nat} (h : t ≠ w.sched.running) : w.setPlace p t = w.place t :=
  if_neg h

end IoqWorld

/-- What an uninterrupted piece of a call does to the queue. -/
inductive IoqOutcome (w : IoqWorld) (call : IoqCall) (w' : IoqWorld) : Prop
  | queues (value : w.ioq.lock.semaphore.value = 0)
      (place : w'.place = w.setPlace (.locking call .INTR_OFF))
      (unread : w'.ioq.unread = w.ioq.unread)
      (slots : ∀ call' : IoqCall, call'.slot w'.ioq = call'.slot w.ioq)
  | sleeps (value : w.ioq.lock.semaphore.value = 1)
      (place : w'.place = w.setPlace (.sleeping call))
      (unread : w'.ioq.unread = w.ioq.unread)
      (slots : ∀ call' : IoqCall, call'.slot w'.ioq =
        if call'.puts = call.puts then some w.sched.running else call'.slot w.ioq)
  | gets (call : call = .getchar) (place : w'.place = w.setPlace .outside) (byte : UInt8)
      (unread : w.ioq.unread = byte :: w'.ioq.unread)
      (consumer : w'.ioq.consumer = w.ioq.consumer) (producer : w'.ioq.producer = none)
  | puts (byte : UInt8) (call : call = .putchar byte) (place : w'.place = w.setPlace .outside)
      (unread : w'.ioq.unread = w.ioq.unread ++ [byte])
      (producer : w'.ioq.producer = w.ioq.producer) (consumer : w'.ioq.consumer = none)

namespace IoqInv

variable {w : IoqWorld} {owner : Option Nat}

theorem not_sleeping (h : IoqInv w none) (t : Nat) (call : IoqCall) :
    w.place t ≠ .sleeping call := by
  intro hp
  cases (h.sleeper t).mp ⟨call, hp⟩

theorem slot_none (h : IoqInv w none) (call : IoqCall) : call.slot w.ioq = none := by
  cases hs : call.slot w.ioq with
  | none => rfl
  | some t =>
    obtain ⟨⟨call', -, hp⟩, -⟩ := (h.slots call t).mp hs
    exact absurd hp (h.not_sleeping t call')

/-- The thread in a slot has the lock. -/
theorem owner_of_slot (h : IoqInv w owner) {call : IoqCall} {t : Nat}
    (hs : call.slot w.ioq = some t) : owner = some t := by
  obtain ⟨⟨call', -, hp⟩, -⟩ := (h.slots call t).mp hs
  exact (h.sleeper t).mp ⟨call', hp⟩

/-- What is left to check when the running thread has acted. -/
theorem acted (h : IoqInv w owner) {owner' : Option Nat} {s' : Threads} {ioq : Ioqueue}
    {p : IoqPlace} {stored fetched : List UInt8} {B : Nat → Prop}
    (hw : Waiters s' ioq.lock.semaphore
      (IoqWorld.Waits ⟨s', ioq, w.setPlace p, stored, fetched⟩))
    (ht : Turn w.sched s' B)
    (hrun : w.sched.running ∈ w.sched.threadAllList ∧ w.sched.running ≠ w.sched.idleThread)
    (hoff : w.sched.intr = .INTR_OFF)
    (hold : ∀ call oldStatus, p = .locking call oldStatus → oldStatus = .INTR_OFF)
    (hself : (∃ call, p = .sleeping call) ↔ owner' = some w.sched.running)
    (hother : ∀ t, t ≠ w.sched.running → (owner = some t ↔ owner' = some t))
    (hlock : SleptOn ioq.lock owner')
    (hslots : ∀ (call : IoqCall) (t : Nat), call.slot ioq = some t ↔
      (∃ call', call'.puts = call.puts ∧ w.setPlace p t = .sleeping call') ∧ s'.Blocked t)
    (hbytes : stored = fetched ++ ioq.unread) :
    IoqInv ⟨s', ioq, w.setPlace p, stored, fetched⟩ owner' := by
  have hkept : ∀ t, w.setPlace p t ≠ .outside →
      (t ∈ w.sched.threadAllList ∧ t ≠ w.sched.idleThread) ∧ w.sched.intrOf t = .INTR_OFF := by
    intro t hp
    by_cases he : t = w.sched.running
    · subst he
      exact ⟨hrun, (if_pos rfl).trans hoff⟩
    · rw [w.setPlace_other p he] at hp
      exact ⟨h.known t hp, h.off t hp⟩
  refine ⟨hw, fun t hp => ?_, fun t hp => ?_, fun t call oldStatus hp => ?_, fun t => ?_, hlock,
    hslots, hbytes⟩
  · obtain ⟨⟨hall, hidle⟩, -⟩ := hkept t hp
    exact ⟨ht.all t hall, ht.idle.symm ▸ hidle⟩
  · obtain ⟨⟨hall, -⟩, hoff⟩ := hkept t hp
    exact (ht.intrOf t hall).trans hoff
  · by_cases he : t = w.sched.running
    · subst he
      exact hold call oldStatus ((w.setPlace_self p).symm.trans hp)
    · exact h.old t call oldStatus ((w.setPlace_other p he).symm.trans hp)
  · show (∃ call, w.setPlace p t = _) ↔ _
    by_cases he : t = w.sched.running
    · subst he
      rw [w.setPlace_self]
      exact hself
    · rw [w.setPlace_other p he, ← hother t he]
      exact h.sleeper t

/-- A round of `sema_down` and `ioq_wait` after it. -/
theorem locked_ok (h : IoqInv w owner) (hp : ∀ call, w.place w.sched.running ≠ .sleeping call)
    (hrun : w.sched.running ∈ w.sched.threadAllList ∧ w.sched.running ≠ w.sched.idleThread)
    (hoff : w.sched.intr = .INTR_OFF) (call : IoqCall) :
    ∃ r w', Lock.lockRound w.sched w.ioq.lock .INTR_OFF = .ok r ∧
      w.locked call .INTR_OFF r = .ok w' ∧ (∃ owner', IoqInv w' owner') ∧
      IoqOutcome w call w' ∧ w'.place w.sched.running ≠ .outside := by
  have hne : owner ≠ some w.sched.running := by
    intro ho
    obtain ⟨call', hs⟩ := (h.sleeper _).mpr ho
    exact hp call' hs
  cases owner with
  | none =>
    obtain ⟨hholder, hnr, hone⟩ := h.lock
    obtain ⟨hround, hw⟩ := h.waiters.round_takes hone
    have hstat : TaskStatus.TASK_BLOCKED.blocked = true := rfl
    obtain ⟨s', hs', hok, ht, -⟩ := hw.sched.threadBlock_ok hstat
    have hslot := h.slot_none call
    let lock : Lock := ⟨some w.sched.running, { w.ioq.lock.semaphore with value := 0 }, 1⟩
    have hround : Lock.lockRound w.sched w.ioq.lock .INTR_OFF = .ok (true, w.sched, lock) := by
      simp only [Lock.lockRound, hround, ok_bind, ↓reduceIte, ASSERT_true hnr,
        Threads.setIntr_eq hoff]
      rfl
    let ioq := call.setSlot { w.ioq with lock } (some w.sched.running)
    have hslots : ∀ call' : IoqCall, call'.slot ioq =
        if call'.puts = call.puts then some w.sched.running else none := by
      intro call'
      rw [call.slot_setSlot]
      split
      · rfl
      · exact h.slot_none call'
    refine ⟨_, ⟨s', ioq, w.setPlace (.sleeping call), w.stored, w.fetched⟩, hround, ?_,
      ⟨some w.sched.running, h.acted ?_ ht hrun hoff ?_ ?_ ?_ ?_ ?_ ?_⟩,
      .sleeps hone rfl (call.setSlot_unread ..) fun call' => ?_, by simp⟩
    · simp only [IoqWorld.locked, ioqWait, hslot, ASSERT_true, ok_bind, hs']
      rfl
    · rw [call.setSlot_lock]
      have hturn := hw.turn hok ht fun t hwt => by simp [hwt.2]
      apply hturn.congr
      intro t
      show (∃ call old, w.setPlace _ t = _) ↔ _
      by_cases he : t = w.sched.running
      · simp [he]
      · simp [he, w.setPlace_other _ he, IoqWorld.Waits]
    · simp
    · simp
    · intro t he
      simp [Ne.symm he]
    · rw [call.setSlot_lock]
      exact ⟨rfl, rfl, rfl⟩
    · intro call' t
      rw [hslots]
      by_cases he : t = w.sched.running
      · subst he
        have hb : s'.Blocked w.sched.running := (ht.blocked _ hrun.1 hrun.2).mpr (.inr rfl)
        simp [hb, eq_comm]
      · have hno := h.not_sleeping t
        simp [w.setPlace_other _ he, hno, Ne.symm he]
    · rw [call.setSlot_unread]
      exact h.bytes
    · rw [hslots, h.slot_none]
  | some u =>
    obtain ⟨hholder, hnr, hz⟩ := h.lock
    have hu : u ≠ w.sched.running := fun he => hne (congrArg some he)
    obtain ⟨s', hround, hw, ht⟩ := h.waiters.round_blocks hz hrun.2
    let semaphore : Semaphore :=
      ⟨w.ioq.lock.semaphore.value, w.ioq.lock.semaphore.waiters ++ [w.sched.running]⟩
    let lock : Lock := { w.ioq.lock with semaphore }
    have hround : Lock.lockRound w.sched w.ioq.lock .INTR_OFF = .ok (false, s', lock) := by
      simp only [Lock.lockRound, hround, ok_bind]
      rfl
    refine ⟨_, ⟨s', { w.ioq with lock }, w.setPlace (.locking call .INTR_OFF), w.stored,
      w.fetched⟩, hround, rfl, ⟨some u, h.acted (hw.congr fun t => ?_) ht hrun hoff ?_ ?_
      (fun _ _ => .rfl) ⟨hholder, hnr, hz⟩ ?_ h.bytes⟩, .queues hz rfl rfl fun call' => ?_,
      by simp⟩
    · show (∃ call old, w.setPlace _ t = _) ↔ _
      by_cases he : t = w.sched.running
      · simp [he]
      · simp [he, w.setPlace_other _ he, IoqWorld.Waits]
    · rintro call' oldStatus ⟨⟩
      rfl
    · simp [hu]
    · intro call' t
      have hslot : call'.slot { w.ioq with lock } = call'.slot w.ioq := by
        cases call' with | getchar | putchar => rfl
      rw [hslot, h.slots]
      by_cases he : t = w.sched.running
      · subst he
        simp [hp]
      · rw [w.setPlace_other _ he]
        apply and_congr_right
        intro hs
        obtain ⟨call'', -, hs⟩ := hs
        obtain ⟨hall, hidle⟩ := h.known t (by simp [hs])
        rw [ht.blocked t hall hidle]
        simp [he]
    · cases call' with | getchar | putchar => rfl

/-- The end of a call wakes the thread in the other slot, if there is one. -/
theorem wakeupIf_ok (h : IoqInv w owner) (call : IoqCall) :
    ∃ s', wakeupIf w.sched (call.slot w.ioq) = .ok (s', none) ∧ s'.running = w.sched.running ∧
      Waiters s' w.ioq.lock.semaphore w.Waits ∧
      Turn w.sched s' fun t => w.sched.Blocked t ∧ call.slot w.ioq ≠ some t := by
  cases hs : call.slot w.ioq with
  | none =>
    refine ⟨w.sched, rfl, rfl, h.waiters, fun _ ht => ht, rfl, fun t _ _ => ?_,
      fun _ _ _ _ _ => rfl, fun _ _ => rfl⟩
    simp
  | some u =>
    obtain ⟨⟨call', -, hp⟩, hb⟩ := (h.slots call u).mp hs
    obtain ⟨hall, hidle⟩ := h.known u (by simp [hp])
    obtain ⟨s', hs', hok, hrun, ht⟩ := h.waiters.sched.threadUnblock_ok hall hb
    refine ⟨s', ?_, hrun, h.waiters.turn hok ht fun t hw => ?_, ht.all, ht.idle,
      fun t hm hi => ?_, fun t hm hi hb hne => ?_, ht.intrOf⟩
    · simp only [wakeupIf, ne_eq, reduceCtorEq, not_false_eq_true, ↓reduceIte, wakeup, hs',
        ok_bind]
      rfl
    · obtain ⟨call'', old, hw⟩ := hw
      have hne : t ≠ u := by
        rintro rfl
        cases hw.symm.trans hp
      simp [hne]
    · rw [ht.blocked t hm hi]
      simp [eq_comm]
    · exact ht.status t hm hi hb ⟨hb, fun he => hne.2 (congrArg some he.symm)⟩

/-- The slots after it. -/
theorem woken_slots (h : IoqInv w owner) (hp : w.place w.sched.running = .outside)
    {s' : Threads} (call : IoqCall)
    (ht : Turn w.sched s' fun t => w.sched.Blocked t ∧ call.slot w.ioq ≠ some t)
    (call' : IoqCall) (t : Nat) :
    (if call'.puts = call.puts then none else call'.slot w.ioq) = some t ↔
      (∃ c, c.puts = call'.puts ∧ w.setPlace .outside t = .sleeping c) ∧ s'.Blocked t := by
  by_cases he : t = w.sched.running
  · subst he
    have hslot : call'.slot w.ioq ≠ some w.sched.running := by
      intro hs
      obtain ⟨⟨c, -, hc⟩, -⟩ := (h.slots call' _).mp hs
      cases hp.symm.trans hc
    split
    · simp
    · simp [hslot]
  rw [w.setPlace_other _ he]
  have hb : (∃ c, c.puts = call'.puts ∧ w.place t = .sleeping c) →
      (s'.Blocked t ↔ w.sched.Blocked t ∧ call.slot w.ioq ≠ some t) := by
    rintro ⟨c, -, hc⟩
    obtain ⟨hall, hidle⟩ := h.known t (by simp [hc])
    exact ht.blocked t hall hidle
  split
  · rename_i hsame
    refine ⟨fun hn => (nomatch hn), ?_⟩
    rintro ⟨hc, hblocked⟩
    obtain ⟨hblocked, hslot⟩ := (hb hc).mp hblocked
    exact absurd ((h.slots call t).mpr ⟨hsame ▸ hc, hblocked⟩) hslot
  · rename_i hdiff
    rw [h.slots]
    apply and_congr_right
    intro hc
    rw [hb hc]
    refine ⟨fun hblocked => ⟨hblocked, fun hs => hdiff ?_⟩, And.left⟩
    obtain ⟨c, hputs, hc⟩ := hc
    obtain ⟨⟨c', hputs', hc'⟩, -⟩ := (h.slots call t).mp hs
    cases hc.symm.trans hc'
    exact hputs.symm.trans hputs'

/-- The end of a call. -/
theorem finish_ok (h : IoqInv w owner) (hp : w.place w.sched.running = .outside)
    (hidle : w.sched.running ≠ w.sched.idleThread) (hoff : w.sched.intr = .INTR_OFF)
    {call : IoqCall} (hm : ¬ call.Must w.ioq) :
    ∃ w', w.finish call = .ok w' ∧ (∃ owner', IoqInv w' owner') ∧ IoqOutcome w call w' ∧
      w'.place w.sched.running = .outside := by
  have hrun := h.waiters.sched.running_mem
  have hne : owner ≠ some w.sched.running := by
    intro ho
    obtain ⟨call', hs⟩ := (h.sleeper _).mpr ho
    cases hp.symm.trans hs
  have hwaits : ∀ s' ioq stored fetched t,
      IoqWorld.Waits ⟨s', ioq, w.setPlace .outside, stored, fetched⟩ t ↔ w.Waits t := by
    intro s' ioq stored fetched t
    show (∃ call old, w.setPlace _ t = _) ↔ _
    by_cases he : t = w.sched.running
    · simp [he, IoqWorld.Waits, hp]
    · simp [w.setPlace_other _ he, IoqWorld.Waits]
  cases call with
  | getchar =>
    obtain ⟨s', hs', -, hw, ht⟩ := h.wakeupIf_ok (.putchar 0)
    have hs' : wakeupIf w.sched w.ioq.producer = .ok (s', none) := hs'
    have hread : w.ioq.unread = w.ioq.buf w.ioq.tail ::
        Ring.held w.ioq.buf w.ioq.head (nextPos w.ioq.tail) :=
      Ring.held_read _ _ _ fun he => hm ((Ring.held_eq_nil ..).mpr he)
    simp only [IoqWorld.finish, takeByte, hs', ok_bind]
    refine ⟨_, rfl, ⟨owner, h.acted (hw.congr (hwaits _ _ _ _)) ht ⟨hrun, hidle⟩ hoff (by simp) ?_
        (fun _ _ => .rfl) h.lock (fun call' t => ?_) ?_⟩, .gets rfl rfl _ hread rfl rfl, by simp⟩
    · simp [hne]
    · rw [← h.woken_slots hp _ ht call' t]
      cases call' with | getchar | putchar => rfl
    · rw [List.append_assoc, h.bytes, hread]
      rfl
  | putchar byte =>
    obtain ⟨s', hs', -, hw, ht⟩ := h.wakeupIf_ok .getchar
    have hs' : wakeupIf w.sched w.ioq.consumer = .ok (s', none) := hs'
    have hwrite : Ring.held (Function.update w.ioq.buf w.ioq.head byte) (nextPos w.ioq.head)
        w.ioq.tail = w.ioq.unread ++ [byte] :=
      Ring.held_write _ _ _ _ fun he => hm ((Ring.full_iff ..).mp he)
    simp only [IoqWorld.finish, storeByte, hs', ok_bind]
    refine ⟨_, rfl, ⟨owner, h.acted (hw.congr (hwaits _ _ _ _)) ht ⟨hrun, hidle⟩ hoff (by simp) ?_
        (fun _ _ => .rfl) h.lock (fun call' t => ?_) ?_⟩, .puts byte rfl rfl hwrite rfl rfl,
        by simp⟩
    · simp [hne]
    · rw [← h.woken_slots hp _ ht call' t]
      cases call' with | getchar | putchar => rfl
    · show w.stored ++ [byte] = w.fetched ++ Ring.held _ _ _
      rw [hwrite, h.bytes, List.append_assoc]

/-- From the test to where the thread blocks or returns. -/
theorem loop_ok (h : IoqInv w owner) (hp : w.place w.sched.running = .outside)
    (hidle : w.sched.running ≠ w.sched.idleThread) (hoff : w.sched.intr = .INTR_OFF)
    (call : IoqCall) :
    ∃ w', w.loop call = .ok w' ∧ (∃ owner', IoqInv w' owner') ∧ IoqOutcome w call w' ∧
      (w'.place w.sched.running ≠ .outside ↔ call.Must w.ioq) := by
  obtain ⟨b, hb, hmust⟩ := call.test_ok w.ioq hoff
  cases b with
  | false =>
    have hm : ¬ call.Must w.ioq := by simpa using hmust
    obtain ⟨w', hw', hinv, hout, hplace⟩ := h.finish_ok hp hidle hoff hm
    refine ⟨w', by simp only [IoqWorld.loop, hb, ok_bind]; exact hw', hinv, hout, ?_⟩
    exact iff_of_false (not_not.mpr hplace) hm
  | true =>
    have hm : call.Must w.ioq := hmust.mp rfl
    have hholder : w.ioq.lock.holder ≠ some w.sched.running := by
      intro hh
      have howner : owner = some w.sched.running := by
        cases owner with
        | none => cases h.lock.1.symm.trans hh
        | some u => exact h.lock.1.symm.trans hh
      obtain ⟨call', hs⟩ := (h.sleeper _).mpr howner
      cases hp.symm.trans hs
    obtain ⟨r, w', hr, hw', hinv, hout, hplace⟩ := h.locked_ok (by simp [hp])
      ⟨h.waiters.sched.running_mem, hidle⟩ hoff call
    refine ⟨w', ?_, hinv, hout, iff_of_true hplace hm⟩
    simp only [IoqWorld.loop, hb, ok_bind, ↓reduceIte, Lock.lockAcquire, ne_eq, hholder,
      not_false_eq_true, hoff, Threads.setIntr_eq hoff, hr, hw']

end IoqInv

/-- The queue after `lock_release`: the bytes and the slots are as they were. -/
structure Released (w w' : IoqWorld) : Prop where
  running : w'.sched.running = w.sched.running
  place : w'.place = w.setPlace .outside
  value : w'.ioq.lock.semaphore.value = 1
  unread : w'.ioq.unread = w.ioq.unread
  slots : ∀ call : IoqCall, call.slot w'.ioq = call.slot w.ioq

/-- What a thread does that goes on inside a call. -/
inductive Resumed (w w' : IoqWorld) : Prop
  | locking (call : IoqCall) (oldStatus : IntrStatus)
      (place : w.place w.sched.running = .locking call oldStatus) (outcome : IoqOutcome w call w')
  | sleeping (call : IoqCall) (place : w.place w.sched.running = .sleeping call)
      (w₁ : IoqWorld) (released : Released w w₁) (inv : IoqInv w₁ none)
      (outcome : IoqOutcome w₁ call w')
      (must : w'.place w.sched.running ≠ .outside ↔ call.Must w.ioq)

namespace IoqInv

variable {w : IoqWorld} {owner : Option Nat}

/-- The sleeper that was woken gives the lock back. -/
theorem release_ok (h : IoqInv w (some w.sched.running)) :
    ∃ s' lock, Lock.lockRelease w.sched w.ioq.lock = .ok (s', lock) ∧
      s'.running = w.sched.running ∧ s'.idleThread = w.sched.idleThread ∧
      s'.intr = .INTR_OFF ∧ lock.semaphore.value = 1 ∧
      IoqInv { w with sched := s', ioq := { w.ioq with lock }, place := w.setPlace .outside }
        none := by
  obtain ⟨call, hp⟩ := (h.sleeper w.sched.running).mpr rfl
  have hrun := h.known w.sched.running (by simp [hp])
  have hoff : w.sched.intr = .INTR_OFF := (if_pos rfl).symm.trans (h.off _ (by simp [hp]))
  obtain ⟨hholder, hnr, hz⟩ := h.lock
  obtain ⟨s', hs', hw, hsame, ht⟩ := h.waiters.up_ok hz
  have hone : ¬ 1 < w.ioq.lock.holderRepeatNr := by
    rw [hnr]
    decide
  have hslot : ∀ call' : IoqCall, call'.slot w.ioq = none := by
    intro call'
    cases hs : call'.slot w.ioq with
    | none => rfl
    | some t =>
      cases h.owner_of_slot hs
      exact absurd ((h.slots call' _).mp hs).2 h.waiters.sched.running_not_blocked
  have hintr : s'.intr = .INTR_OFF := by
    have := ht.intrOf w.sched.running hrun.1
    unfold Threads.intrOf at this
    rw [hsame, if_pos rfl, if_pos rfl] at this
    exact this.trans hoff
  refine ⟨s', ⟨none, ⟨1, w.ioq.lock.semaphore.waiters.tail⟩, 0⟩, ?_, hsame, ht.idle, hintr, rfl,
    h.acted (hw.congr fun t => ?_) ht hrun hoff
    (by simp) (by simp) (fun t he => ?_) ⟨rfl, rfl, rfl⟩ (fun call' t => ?_) h.bytes⟩
  · simp only [Lock.lockRelease, ASSERT_true hholder, ok_bind, hone, ↓reduceIte, ASSERT_true hnr,
      hs']
    rfl
  · show (∃ call old, w.setPlace _ t = _) ↔ _
    by_cases he : t = w.sched.running
    · simp [he, IoqWorld.Waits, hp]
    · simp [w.setPlace_other _ he, IoqWorld.Waits]
  · simp [Ne.symm he]
  · have hslot' : call'.slot
        { w.ioq with lock := ⟨none, ⟨1, w.ioq.lock.semaphore.waiters.tail⟩, 0⟩ }
        = none := by
      cases call' with
      | getchar => exact hslot .getchar
      | putchar b => exact hslot (.putchar b)
    rw [hslot']
    refine ⟨fun hn => (by cases hn), ?_⟩
    rintro ⟨⟨c, -, hc⟩, -⟩
    by_cases he : t = w.sched.running
    · subst he
      cases (w.setPlace_self _).symm.trans hc
    · have hs : w.place t = .sleeping c := (w.setPlace_other _ he).symm.trans hc
      have howner := (h.sleeper t).mp ⟨c, hs⟩
      exact absurd (Option.some.inj howner).symm he

/-- A thread goes on inside a call. -/
theorem resume_ok (h : IoqInv w owner) (hp : w.place w.sched.running ≠ .outside) :
    ∃ w', w.resume = .ok w' ∧ (∃ owner', IoqInv w' owner') ∧ Resumed w w' := by
  have hrun := h.known _ hp
  have hoff : w.sched.intr = .INTR_OFF := (if_pos rfl).symm.trans (h.off _ hp)
  cases hplace : w.place w.sched.running with
  | outside => exact absurd hplace hp
  | locking call oldStatus =>
    obtain rfl := h.old _ _ _ hplace
    obtain ⟨r, w', hr, hw', hinv, hout, -⟩ :=
      h.locked_ok (by simp [hplace]) hrun hoff call
    refine ⟨w', ?_, hinv, .locking call _ hplace hout⟩
    simp only [IoqWorld.resume, hplace, hr, ok_bind, hw']
  | sleeping call =>
    obtain rfl := (h.sleeper _).mp ⟨call, hplace⟩
    obtain ⟨s', lock, hs', hsame, hidle, hoff', hvalue, hinv⟩ := h.release_ok
    obtain ⟨w', hw', hinv', hout, hmust⟩ := hinv.loop_ok
      (by rw [hsame]; exact w.setPlace_self _) (by rw [hsame, hidle]; exact hrun.2) hoff' call
    let w₁ : IoqWorld :=
      { w with sched := s', ioq := { w.ioq with lock }, place := w.setPlace .outside }
    refine ⟨w', ?_, hinv', .sleeping call hplace w₁
      ⟨hsame, rfl, hvalue, rfl, fun call' => ?_⟩ hinv hout ?_⟩
    · simp only [IoqWorld.resume, hplace, hs', ok_bind, hw']
    · cases call' with | getchar | putchar => rfl
    · rw [hsame] at hmust
      apply hmust.trans
      cases call with | getchar | putchar => exact .rfl

/-- What the threads do besides, and the timer. -/
theorem setSched (h : IoqInv w owner) {s' : Threads}
    (hw : Waiters s' w.ioq.lock.semaphore w.Waits)
    (hall : ∀ t ∈ w.sched.threadAllList, t ∈ s'.threadAllList)
    (hidle : s'.idleThread = w.sched.idleThread)
    (hintr : ∀ t, w.place t ≠ .outside → s'.intrOf t = w.sched.intrOf t)
    (hblocked : ∀ t, w.place t ≠ .outside → (s'.Blocked t ↔ w.sched.Blocked t)) :
    IoqInv { w with sched := s' } owner := by
  refine ⟨hw, fun t hp => ?_, fun t hp => (hintr t hp).trans (h.off t hp), h.old, h.sleeper,
    h.lock, fun call t => (h.slots call t).trans (and_congr_right fun hs => ?_), h.bytes⟩
  · obtain ⟨hall', hne⟩ := h.known t hp
    exact ⟨hall t hall', hidle ▸ hne⟩
  · obtain ⟨call', -, hs⟩ := hs
    exact (hblocked t (by simp [hs])).symm

end IoqInv

theorem ioqueue_keeps : Guarded.Keeps IoqWorld.system fun w => ∃ owner, IoqInv w owner := by
  rintro w e ⟨owner, h⟩ hg
  cases e with
  | thread e =>
    obtain ⟨hout, hguard, hunblock⟩ := hg
    have hnot : ∀ t, w.place t = .outside → ¬ w.Waits t := by
      rintro t ht ⟨call, old, hw⟩
      cases ht.symm.trans hw
    obtain ⟨s', hs', hw, ho⟩ := h.waiters.exec_ok hguard (fun _ _ => hnot _ hout)
      fun t he => hnot t (hunblock t he)
    simp only [IoqWorld.system, IoqWorld.exec, hs', ok_bind]
    refine ⟨_, rfl, owner, h.setSched hw ho.all ho.idle (fun t hp => ?_) fun t hp => ?_⟩
    · apply ho.intrOf t (h.known t hp).1
      rintro rfl
      exact hp hout
    · obtain ⟨hall, hidle⟩ := h.known t hp
      refine h.waiters.sched.exec_blocked hguard hs' hall hidle (fun _ _ he => ?_) fun he => ?_
      · exact hp (he ▸ hout)
      · exact hp (hunblock t he)
  | reorder l =>
    exact ⟨_, rfl, owner, h.setSched (h.waiters.reorder hg) (fun _ ht => ht) rfl
      (fun _ _ => rfl) fun _ _ => .rfl⟩
  | call call =>
    obtain ⟨hp, hidle, hoff⟩ := hg
    obtain ⟨w', hw', hinv, -⟩ := h.loop_ok hp hidle hoff call
    exact ⟨w', hw', hinv⟩
  | resume =>
    obtain ⟨w', hw', hinv, -⟩ := h.resume_ok hg
    exact ⟨w', hw', hinv⟩

theorem ioqueue_start {s : Threads} (hs : SchedOk s) (buf : Fin 64 → UInt8) :
    IoqInv (.start s buf) none := by
  refine ⟨⟨hs, ?_, List.nodup_nil, fun t ht => (nomatch ht), ?_, fun _ hne => absurd rfl hne⟩,
    fun t hp => absurd rfl hp, fun t hp => absurd rfl hp, fun t _ _ hp => (nomatch hp), fun t => ?_,
    ⟨rfl, rfl, rfl⟩, fun call t => ?_, ?_⟩
  · rintro t ⟨call, old, hw⟩
    cases hw
  · rintro t ⟨call, old, hw⟩
    cases hw
  · simp [IoqWorld.start]
  · cases call with
    | getchar | putchar => simp [IoqWorld.start, ioqueueInit, IoqCall.slot]
  · exact ((Ring.held_eq_nil buf 0 0).mpr rfl).symm

/-- In every run of one queue the bytes come out in the order in which they went in, and
no `ASSERT` fails. -/
theorem ioqueue_run {s : Threads} (hs : SchedOk s) (buf : Fin 64 → UInt8)
    {events : List IoqEvent} {w : IoqWorld}
    (hrun : Guarded.Run IoqWorld.system (.start s buf) events w) :
    IoqRight w ∧ ∀ e, w.guard e → ∃ w', w.exec e = .ok w' := by
  obtain ⟨owner, h⟩ := hrun.invariant ioqueue_keeps ⟨none, ioqueue_start hs buf⟩
  refine ⟨⟨⟨_, h.bytes.symm⟩, h.bytes, Ring.length_held_le ..⟩, fun e hg => ?_⟩
  obtain ⟨w', hw', -⟩ := ioqueue_keeps w e ⟨owner, h⟩ hg
  exact ⟨w', hw'⟩

/-- The main thread stores a byte and fetches it. -/
theorem ioqueue_run_byte : ∃ w, Guarded.Run IoqWorld.system (.start bootedThreads fun _ => 0)
    [.call (.putchar 7), .call .getchar] w ∧ IoqRight w := by
  have hrun : Guarded.Run IoqWorld.system (.start bootedThreads fun _ => 0)
      [.call (.putchar 7), .call .getchar] _ :=
    .cons (by exact ⟨rfl, by decide, rfl⟩) rfl <|
    .cons (by exact ⟨rfl, by decide, rfl⟩) rfl (.nil _)
  exact ⟨_, hrun, (ioqueue_run (threadInit_ok threadInit_booted) _ hrun).1⟩

end ZhuOS
