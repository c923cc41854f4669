import ZhuOS.Locks
import Mathlib.Logic.Function.Basic

/-!
# Code around a lock

Threads that run one piece of code, parts of which lie between `lock_acquire` and
`lock_release` of one lock. A thread goes on in the code when it is outside these two
functions; in between it takes their steps one by one, and the timer comes between any
two. What the code keeps follows from what each of its own steps keeps.
-/

namespace ZhuOS

/-- Where a place of the code is in respect of the lock. -/
inductive LockMode
  | free
  /-- behind `lock_acquire`, which may not have returned yet -/
  | taking
  | inside
  /-- behind `lock_release`, which may not have returned yet -/
  | giving
  deriving DecidableEq

/-- `lock_acquire` and `lock_release` take turns. -/
def LockMode.Turns : LockMode → LockMode → Prop
  | .free, m | .giving, m => m = .free ∨ m = .taking
  | .taking, m | .inside, m => m = .inside ∨ m = .giving

/-- Coming to a place: the call of `lock_acquire` or `lock_release` it is behind. -/
def LockMode.call (locks : LockWorld) : LockMode → Except Fault LockWorld
  | .taking => locks.exec .acquire
  | .giving => locks.exec .release
  | .free | .inside => .ok locks

/-- The code: where a thread that does not run it is, and what a thread does at a place,
given what it is called with. -/
structure Client (σ π κ : Type) where
  outside : π
  mode : π → LockMode
  guard : σ → π → κ → Prop
  step : Nat → σ → π → κ → Except Fault (σ × π)
  outside_free : mode outside = .free
  turns : ∀ {t s p k s' p'}, step t s p k = .ok (s', p') → (mode p).Turns (mode p')

structure ClientWorld (σ π : Type) where
  locks : LockWorld
  shared : σ
  place : Nat → π

inductive ClientCall (κ : Type)
  | lock (e : LockCall)
  | go (k : κ)

namespace Client

variable {σ π κ : Type} (C : Client σ π κ)

/-- The lock is for the code only, and inside the code only the timer interrupts. -/
def callGuard (w : ClientWorld σ π) : ClientCall κ → Prop
  | .lock .acquire | .lock .release => False
  | .lock (.thread e) => (e = .timer ∨ w.place w.locks.sched.running = C.outside) ∧
      w.locks.guard (fun d => d + 1 < 2 ^ 32) (.thread e)
  | .lock e => w.locks.guard (fun d => d + 1 < 2 ^ 32) e
  | .go k => w.locks.place w.locks.sched.running = .outside ∧
      w.locks.sched.running ≠ w.locks.sched.idleThread ∧
      C.guard w.shared (w.place w.locks.sched.running) k

def exec (w : ClientWorld σ π) : ClientCall κ → Except Fault (ClientWorld σ π)
  | .lock e => return { w with locks := ← w.locks.exec e }
  | .go k => do
    let cur := w.locks.sched.running
    let (shared, p) ← C.step cur w.shared (w.place cur) k
    let locks ← (C.mode p).call w.locks
    return { locks, shared, place := Function.update w.place cur p }

def system : Guarded.System (ClientWorld σ π) (ClientCall κ) Fault := ⟨C.callGuard, C.exec⟩

def start (s : Threads) (shared : σ) : ClientWorld σ π :=
  ⟨.start s, shared, fun _ => C.outside⟩

end Client

/-! ## The places of the lock's own code -/

/-- In `lock_acquire`, the lock another's. -/
def LockPlace.Acquiring : LockPlace → Prop
  | .down | .waiting _ | .setHolder | .checkRepeat | .setRepeat => True
  | _ => False

/-- In the `lock_release` that gives the lock back. -/
def LockPlace.Releasing : LockPlace → Prop
  | .testRepeat | .checkOne | .clearHolder | .clearRepeat | .up => True
  | _ => False

/-- Where a thread is in the lock's code, and how deep, at a place of each mode. -/
def LockMode.Placed : LockMode → LockPlace → Nat → Prop
  | .free, p, d => p = .outside ∧ d = 0
  | .taking, p, d => p.Acquiring ∧ d = 0 ∨ p = .outside ∧ d = 1
  | .inside, p, d => p = .outside ∧ d = 1
  | .giving, p, d => p.Releasing ∧ d = 1 ∨ p = .outside ∧ d = 0

namespace LockMode

variable {m : LockMode} {p : LockPlace} {d : Nat}

theorem Placed.of_acquiring (h : m.Placed p d) (hp : p.Acquiring) : m = .taking ∧ d = 0 := by
  have hne : p ≠ .outside := by
    rintro rfl
    exact hp
  cases m with
  | free | inside => exact absurd h.1 hne
  | taking =>
    rcases h with h | h
    · exact ⟨rfl, h.2⟩
    · exact absurd h.1 hne
  | giving =>
    rcases h with h | h
    · cases p with
      | _ => first | exact h.1.elim | exact hp.elim
    · exact absurd h.1 hne

theorem Placed.of_releasing (h : m.Placed p d) (hp : p.Releasing) : m = .giving ∧ d = 1 := by
  have hne : p ≠ .outside := by
    rintro rfl
    exact hp
  cases m with
  | free | inside => exact absurd h.1 hne
  | giving =>
    rcases h with h | h
    · exact ⟨rfl, h.2⟩
    · exact absurd h.1 hne
  | taking =>
    rcases h with h | h
    · cases p with
      | _ => first | exact h.1.elim | exact hp.elim
    · exact absurd h.1 hne

/-- A thread in the lock's code is on one of the two ways through it. -/
theorem Placed.moving (h : m.Placed p d) (hp : p ≠ .outside) : p.Acquiring ∨ p.Releasing := by
  cases m with
  | free | inside => exact absurd h.1 hp
  | taking =>
    rcases h with h | h
    · exact .inl h.1
    · exact absurd h.1 hp
  | giving =>
    rcases h with h | h
    · exact .inr h.1
    · exact absurd h.1 hp

end LockMode

/-- What a step inside the lock's code does to the places: the running thread moves on. -/
structure Stepped (m : LockMode) (w w' : LockWorld) : Prop where
  self : m.Placed (w'.place w.sched.running) (w'.depth w.sched.running)
  others : ∀ t, t ≠ w.sched.running → w'.place t = w.place t ∧ w'.depth t = w.depth t

namespace LockWorld

variable {w w' : LockWorld} {m : LockMode}

theorem act_stepped {lock : Lock} {p : LockPlace} {d : Nat} (s : Threads) (h : m.Placed p d) :
    Stepped m w { w.act lock p d with sched := s } := by
  constructor
  · change m.Placed ((w.act lock p d).place _) ((w.act lock p d).depth _)
    rw [act_place_self, act_depth_self]
    exact h
  · intro t ht
    exact ⟨w.act_place_other lock p d ht, w.act_depth_other lock p d ht⟩

theorem round_stepped {oldStatus : IntrStatus} (hd : w.depth w.sched.running = 0)
    (h : w.round oldStatus = .ok w') : Stepped .taking w w' := by
  unfold round at h
  obtain ⟨⟨taken, s, psema⟩, -, h⟩ := bind_ok.mp h
  cases h
  apply act_stepped
  rw [hd]
  cases taken with
  | true => exact .inl ⟨trivial, rfl⟩
  | false => exact .inl ⟨trivial, rfl⟩

/-- A step of `lock_acquire` or of a `lock_release` that gives the lock back. -/
theorem step_stepped {owner : Option Nat} (hi : LockInv w owner)
    (hm : m.Placed (w.place w.sched.running) (w.depth w.sched.running))
    (hp : w.place w.sched.running ≠ .outside) (h : w.step = .ok w') : Stepped m w w' := by
  rcases hm.moving hp with ha | hr
  · obtain ⟨rfl, hd⟩ := hm.of_acquiring ha
    cases hplace : w.place w.sched.running with
    | down =>
      simp only [step, hplace] at h
      obtain ⟨hself, hothers⟩ :=
        round_stepped (w := { w with sched := w.sched.setIntr .INTR_OFF }) hd h
      exact ⟨hself, hothers⟩
    | waiting oldStatus =>
      simp only [step, hplace] at h
      exact round_stepped hd h
    | setHolder =>
      simp only [step, hplace] at h
      cases h
      exact act_stepped _ (.inl ⟨trivial, hd⟩)
    | checkRepeat =>
      simp only [step, hplace] at h
      obtain ⟨-, -, h⟩ := bind_ok.mp h
      cases h
      exact act_stepped _ (.inl ⟨trivial, hd⟩)
    | setRepeat =>
      simp only [step, hplace] at h
      cases h
      exact act_stepped _ (.inr ⟨rfl, by rw [hd]⟩)
    | _ => exact absurd ha (by simp [hplace, LockPlace.Acquiring])
  · obtain ⟨rfl, hd⟩ := hm.of_releasing hr
    cases hplace : w.place w.sched.running with
    | testRepeat =>
      obtain rfl := hi.owner_of (.inl (by omega : 0 < w.depth w.sched.running))
      have hh := (hi.held _ rfl).2
      rw [hplace] at hh
      simp only [step, hplace] at h
      have hone : ¬ 1 < w.lock.holderRepeatNr := by
        intro hlt
        have := UInt32.lt_iff_toNat_lt.mp hlt
        rw [hh.2.1, hd] at this
        exact absurd this (by decide)
      cases h
      apply act_stepped
      rw [if_neg hone]
      exact .inl ⟨trivial, hd⟩
    | checkOne =>
      simp only [step, hplace] at h
      obtain ⟨-, -, h⟩ := bind_ok.mp h
      cases h
      exact act_stepped _ (.inl ⟨trivial, hd⟩)
    | clearHolder =>
      simp only [step, hplace] at h
      cases h
      exact act_stepped _ (.inl ⟨trivial, hd⟩)
    | clearRepeat =>
      simp only [step, hplace] at h
      cases h
      exact act_stepped _ (.inl ⟨trivial, hd⟩)
    | up =>
      simp only [step, hplace] at h
      obtain ⟨⟨s, psema⟩, -, h⟩ := bind_ok.mp h
      cases h
      exact act_stepped _ (.inr ⟨rfl, by rw [hd]⟩)
    | _ => exact absurd hr (by simp [hplace, LockPlace.Releasing])

end LockWorld

theorem stepped_self {w : LockWorld} {m : LockMode}
    (h : m.Placed (w.place w.sched.running) (w.depth w.sched.running)) : Stepped m w w := by
  constructor
  · exact h
  · exact fun _ _ => ⟨rfl, rfl⟩

/-- The calls of the lock come in turns, so that each finds the depth it needs. -/
theorem LockMode.call_stepped {w w' : LockWorld} {m m' : LockMode} {owner : Option Nat}
    (hi : LockInv w owner) (hout : w.place w.sched.running = .outside)
    (hidle : w.sched.running ≠ w.sched.idleThread)
    (hm : m.Placed (w.place w.sched.running) (w.depth w.sched.running)) (ht : m.Turns m')
    (h : m'.call w = .ok w') : (∃ owner', LockInv w' owner') ∧ Stepped m' w w' := by
  have hfree : m' = .free ∨ m' = .taking → w.depth w.sched.running = 0 := by
    intro hm'
    rw [hout] at hm
    cases m with
    | free => exact hm.2
    | giving => exact hm.elim (fun hr => hr.1.elim) And.right
    | taking | inside => rcases hm' with rfl | rfl <;> rcases ht with ht | ht <;> cases ht
  have hheld : m' = .inside ∨ m' = .giving → w.depth w.sched.running = 1 := by
    intro hm'
    rw [hout] at hm
    cases m with
    | inside => exact hm.2
    | taking => exact hm.elim (fun hr => hr.1.elim) And.right
    | free | giving => rcases hm' with rfl | rfl <;> rcases ht with ht | ht <;> cases ht
  cases m' with
  | free =>
    cases h
    exact ⟨⟨owner, hi⟩, stepped_self ⟨hout, hfree (.inl rfl)⟩⟩
  | inside =>
    cases h
    exact ⟨⟨owner, hi⟩, stepped_self ⟨hout, hheld (.inl rfl)⟩⟩
  | taking =>
    have hd := hfree (.inr rfl)
    obtain ⟨w'', hw'', hi'⟩ := hi.acquire_ok hout hidle (by rw [hd]; decide)
    cases h.symm.trans hw''
    refine ⟨hi', ?_⟩
    have hnot : w.lock.holder ≠ some w.sched.running := by
      intro hholder
      obtain rfl := hi.owner_of_holder hholder
      have hh := (hi.held _ rfl).2
      rw [hout] at hh
      exact absurd hh.2.2 (by omega)
    change w.exec .acquire = _ at h
    simp only [LockWorld.exec, if_pos hnot] at h
    cases h
    exact LockWorld.act_stepped w.sched (.inl ⟨trivial, hd⟩)
  | giving =>
    have hd := hheld (.inr rfl)
    obtain ⟨w'', hw'', hi'⟩ := lock_keeps w .release ⟨owner, hi⟩ ⟨hout, by omega⟩
    cases h.symm.trans hw''
    refine ⟨hi', ?_⟩
    obtain ⟨-, -, h⟩ := bind_ok.mp h
    cases h
    exact LockWorld.act_stepped w.sched (.inl ⟨trivial, hd⟩)

/-! ## What every run keeps -/

/-- The lock is right, and every thread is in its code where its own place says. -/
structure ClientInv {σ π κ : Type} (C : Client σ π κ) (w : ClientWorld σ π) : Prop where
  lock : ∃ owner, LockInv w.locks owner
  placed : ∀ t, (C.mode (w.place t)).Placed (w.locks.place t) (w.locks.depth t)

namespace ClientInv

variable {σ π κ : Type} {C : Client σ π κ} {w w' : ClientWorld σ π}

/-- Two threads that have the lock are one. -/
theorem one (h : ClientInv C w) {t u : Nat} (ht : 0 < w.locks.depth t)
    (hu : 0 < w.locks.depth u) : t = u := by
  obtain ⟨owner, hl⟩ := h.lock
  exact Option.some.inj ((hl.owner_of (.inl ht)).symm.trans (hl.owner_of (.inl hu)))

theorem depth_inside (h : ClientInv C w) {t : Nat} (ht : C.mode (w.place t) = .inside) :
    0 < w.locks.depth t := by
  have hp := h.placed t
  rw [ht] at hp
  rw [hp.2]
  exact Nat.one_pos

/-- An event of the lock and the threads. -/
theorem lock_step (h : ClientInv C w) {e : LockCall} (hg : C.callGuard w (.lock e))
    {locks : LockWorld} (he : w.locks.exec e = .ok locks) :
    ClientInv C { w with locks } := by
  obtain ⟨owner, hl⟩ := h.lock
  have hlg : w.locks.guard (fun d => d + 1 < 2 ^ 32) e := by
    cases e with
    | acquire | release => exact hg.elim
    | thread e => exact hg.2
    | reorder | step => exact hg
  constructor
  · obtain ⟨locks', he', hl'⟩ := lock_keeps w.locks e ⟨owner, hl⟩ hlg
    cases he.symm.trans he'
    exact hl'
  · intro t
    cases e with
    | acquire | release => exact hg.elim
    | thread e =>
      obtain ⟨s, -, he⟩ := bind_ok.mp he
      cases he
      exact h.placed t
    | reorder l =>
      cases he
      exact h.placed t
    | step =>
      have hs := LockWorld.step_stepped hl (h.placed _) hlg he
      by_cases ht : t = w.locks.sched.running
      · subst ht
        exact hs.self
      · obtain ⟨hp, hd⟩ := hs.others t ht
        rw [hp, hd]
        exact h.placed t

/-- A step of the code. -/
theorem go_step (h : ClientInv C w) {k : κ} (hg : C.callGuard w (.go k))
    (he : C.exec w (.go k) = .ok w') : ClientInv C w' := by
  obtain ⟨hout, hidle, -⟩ := hg
  obtain ⟨owner, hlock⟩ := h.lock
  obtain ⟨⟨shared, p⟩, hs, he⟩ := bind_ok.mp he
  obtain ⟨locks, hl, he⟩ := bind_ok.mp he
  cases he
  obtain ⟨hinv, hstep⟩ :=
    LockMode.call_stepped hlock hout hidle (h.placed _) (C.turns hs) hl
  constructor
  · exact hinv
  · intro t
    by_cases ht : t = w.locks.sched.running
    · subst ht
      have hself := hstep.self
      simpa using hself
    · obtain ⟨hp, hd⟩ := hstep.others t ht
      simpa [Function.update_of_ne ht, hp, hd] using h.placed t

theorem step (h : ClientInv C w) {e : ClientCall κ} (hg : C.callGuard w e)
    (he : C.exec w e = .ok w') : ClientInv C w' := by
  cases e with
  | lock e =>
    obtain ⟨locks, hl, heq⟩ := bind_ok.mp he
    cases heq
    exact h.lock_step hg hl
  | go k => exact h.go_step hg he

/-- What the steps of the code keep, as long as `P` holds before each, every run keeps. -/
theorem preserves {P : ClientWorld σ π → ClientCall κ → Prop} {J : ClientWorld σ π → Prop}
    (hlock : ∀ w locks, J w → J { w with locks })
    (hgo : ∀ w k w', ClientInv C w → J w → C.callGuard w (.go k) → P w (.go k) →
      C.exec w (.go k) = .ok w' → J w') :
    Guarded.Preserves (C.system.only P) fun w => ClientInv C w ∧ J w := by
  rintro w e w' ⟨h, hj⟩ ⟨hg, hp⟩ he
  constructor
  · exact h.step hg he
  · cases e with
    | lock e =>
      obtain ⟨locks, -, heq⟩ := bind_ok.mp he
      cases heq
      exact hlock w locks hj
    | go k => exact hgo w k w' h hj hg hp he

theorem start {s : Threads} (hs : SchedOk s) (shared : σ) : ClientInv C (C.start s shared) := by
  constructor
  · exact ⟨none, LockInv.start hs⟩
  · intro t
    change (C.mode C.outside).Placed .outside 0
    rw [C.outside_free]
    exact ⟨rfl, rfl⟩

end ClientInv

/-! ## Another semaphore beside the lock -/

section Beside

variable {w w' : LockWorld} {owner : Option Nat} {psema : Semaphore} {W : Nat → Prop}

theorem LockInv.round_waiters (hi : LockInv w owner) {oldStatus : IntrStatus}
    (h : Waiters w.sched psema W) (hrun : ¬ W w.sched.running)
    (hidle : w.sched.running ≠ w.sched.idleThread) (he : w.round oldStatus = .ok w') :
    Waiters w'.sched psema W := by
  cases owner with
  | none =>
    obtain ⟨hround, -⟩ := hi.waiters.round_takes (hi.free rfl).2.2
    cases he.symm.trans (LockWorld.round_takes hround)
    exact h.setIntr oldStatus
  | some u =>
    obtain ⟨s', hround, hw, ht⟩ := hi.waiters.round_blocks (hi.held u rfl).1 hidle
    cases he.symm.trans (LockWorld.round_waits hround)
    refine h.turn hw.sched ht fun t hwt => ?_
    have hne : t ≠ w.sched.running := by
      rintro rfl
      exact hrun hwt
    simp [hne]

/-- A step of the lock's code leaves alone those that wait for something else. -/
theorem LockInv.step_waiters (hi : LockInv w owner) (h : Waiters w.sched psema W)
    (hp : w.place w.sched.running ≠ .outside) (hrun : ¬ W w.sched.running)
    (hW : ∀ t, w.Waits t → ¬ W t) (he : w.step = .ok w') : Waiters w'.sched psema W := by
  have hidle := (hi.known _ (.inl hp)).2
  cases hplace : w.place w.sched.running with
  | outside => exact absurd hplace hp
  | down =>
    simp only [LockWorld.step, hplace] at he
    have hoff := hi.setSched (hi.waiters.setIntr .INTR_OFF) (fun _ ht => ht) rfl
    exact hoff.round_waiters (h.setIntr .INTR_OFF) hrun hidle he
  | waiting oldStatus =>
    simp only [LockWorld.step, hplace] at he
    exact hi.round_waiters h hrun hidle he
  | checkRepeat | checkOne =>
    simp only [LockWorld.step, hplace] at he
    obtain ⟨-, -, he⟩ := bind_ok.mp he
    cases he
    exact h
  | up =>
    simp only [LockWorld.step, hplace] at he
    have haway : ¬ (w.place w.sched.running).Away := by
      rw [hplace]
      exact id
    obtain rfl := hi.owner_of (.inr haway)
    obtain ⟨s', hs', hw, -, ht⟩ := hi.waiters.up_ok (hi.held _ rfl).1
    rw [hs'] at he
    cases he
    refine h.turn hw.sched ht fun t hwt => and_iff_left fun hhead => ?_
    exact hW t (hi.waiters.mem t (List.mem_of_mem_head? hhead)).1 hwt
  | setHolder | setRepeat | readMore | writeMore | testRepeat | readLess | writeLess
  | clearHolder | clearRepeat =>
    simp only [LockWorld.step, hplace] at he
    cases he
    exact h

theorem LockMode.call_sched {m : LockMode} (h : m.call w = .ok w') : w'.sched = w.sched := by
  cases m with
  | free | inside | taking =>
    cases h
    rfl
  | giving =>
    obtain ⟨-, -, h⟩ := bind_ok.mp h
    cases h
    rfl

end Beside

namespace ClientInv

variable {σ π κ : Type} {C : Client σ π κ} {w : ClientWorld σ π}

/-- A thread that waits for the lock is behind `lock_acquire`. -/
theorem waits_taking (h : ClientInv C w) {t : Nat} (ht : w.locks.Waits t) :
    C.mode (w.place t) = .taking := by
  obtain ⟨oldStatus, hp⟩ := ht
  have hplaced := h.placed t
  rw [hp] at hplaced
  exact (hplaced.of_acquiring trivial).1

/-- The scheduler may do what leaves the lock's waiters in order, and a thread may move
on as long as it stays where it is in respect of the lock. -/
theorem moved (h : ClientInv C w) {s : Threads} {shared : σ} {place : Nat → π}
    (hw : Waiters s w.locks.lock.semaphore w.locks.Waits)
    (hall : ∀ t ∈ w.locks.sched.threadAllList, t ∈ s.threadAllList)
    (hidle : s.idleThread = w.locks.sched.idleThread)
    (hmode : ∀ t, C.mode (place t) = C.mode (w.place t)) :
    ClientInv C ⟨{ w.locks with sched := s }, shared, place⟩ := by
  obtain ⟨owner, hl⟩ := h.lock
  constructor
  · exact ⟨owner, hl.setSched hw hall hidle⟩
  · intro t
    rw [hmode t]
    exact h.placed t

/-- Coming to a place of the code goes well. -/
theorem call_ok (h : ClientInv C w) {m m' : LockMode}
    (hout : w.locks.place w.locks.sched.running = .outside)
    (hm : C.mode (w.place w.locks.sched.running) = m) (ht : m.Turns m') :
    ∃ locks, m'.call w.locks = .ok locks := by
  cases m' with
  | free | inside | taking => exact ⟨_, rfl⟩
  | giving =>
    obtain ⟨owner, hl⟩ := h.lock
    have hplaced := h.placed w.locks.sched.running
    rw [hm, hout] at hplaced
    have hd : 0 < w.locks.depth w.locks.sched.running := by
      cases m with
      | free | giving => rcases ht with ht | ht <;> cases ht
      | inside => exact hplaced.2 ▸ Nat.one_pos
      | taking => exact hplaced.elim (fun ha => ha.1.elim) fun ha => ha.2 ▸ Nat.one_pos
    obtain ⟨locks, he, -⟩ := lock_keeps w.locks .release ⟨owner, hl⟩ ⟨hout, hd⟩
    exact ⟨locks, he⟩

end ClientInv

/-! ## A lock nobody else wants -/

namespace LockWorld

variable (w : LockWorld)

theorem act_act (lock lock' : Lock) (p p' : LockPlace) (d d' : Nat) :
    (w.act lock p d).act lock' p' d' = w.act lock' p' d' := by
  have hp : ∀ t, ((w.act lock p d).act lock' p' d').place t = (w.act lock' p' d').place t := by
    intro t
    by_cases ht : t = w.sched.running
    · subst ht
      exact (act_place_self (w.act lock p d) lock' p' d').trans (w.act_place_self lock' p' d').symm
    · rw [w.act_place_other lock' p' d' ht, act_place_other (w.act lock p d) lock' p' d' ht,
        w.act_place_other lock p d ht]
  have hd : ∀ t, ((w.act lock p d).act lock' p' d').depth t = (w.act lock' p' d').depth t := by
    intro t
    by_cases ht : t = w.sched.running
    · subst ht
      exact (act_depth_self (w.act lock p d) lock' p' d').trans (w.act_depth_self lock' p' d').symm
    · rw [w.act_depth_other lock' p' d' ht, act_depth_other (w.act lock p d) lock' p' d' ht,
        w.act_depth_other lock p d ht]
  exact congrArg₂ (LockWorld.mk w.sched lock') (funext hp) (funext hd)

/-- The lock that `t` holds, nobody waiting for it. -/
def lockOf (t : Nat) : Lock := ⟨some t, ⟨0, []⟩, 1⟩

theorem step_down : (w.act lockInit .down 0).step =
    .ok (w.act ⟨none, ⟨0, []⟩, 0⟩ .setHolder 0) := by
  have hr : semaRound (w.sched.setIntr .INTR_OFF) (semaInit 1) =
      .ok (true, w.sched.setIntr .INTR_OFF, ⟨0, []⟩) := rfl
  have hround : round { w.act lockInit .down 0 with sched := w.sched.setIntr .INTR_OFF }
      w.sched.intr = _ := round_takes hr
  simp only [step, act_sched, act_place_self]
  apply hround.trans
  apply congrArg Except.ok
  change (w.act lockInit .down 0).act ⟨none, ⟨0, []⟩, 0⟩ .setHolder
    ((w.act lockInit .down 0).depth w.sched.running) = _
  rw [act_depth_self, act_act]

theorem step_up : (w.act ⟨none, ⟨0, []⟩, 0⟩ .up 1).step = .ok (w.act lockInit .outside 0) := by
  have hu : semaUp w.sched ⟨0, []⟩ = .ok (w.sched, semaInit 1) := rfl
  simp only [step, act_sched, act_place_self, act_depth_self, act_lock, hu, ok_bind, act_act]
  rfl

variable (nests : Nat → Prop)

theorem guard_step {lock : Lock} {p : LockPlace} {d : Nat} (hp : p ≠ .outside) :
    guard nests (w.act lock p d) .step := by
  change (w.act lock p d).place w.sched.running ≠ .outside
  rw [act_place_self]
  exact hp

/-- Inside `lock_acquire`, the lock free. -/
theorem run_acquired : Guarded.Run (system nests) (w.act lockInit .down 0)
    [.step, .step, .step, .step] (w.act (lockOf w.sched.running) .outside 1) := by
  have hset : (w.act ⟨none, ⟨0, []⟩, 0⟩ .setHolder 0).step =
      .ok (w.act ⟨some w.sched.running, ⟨0, []⟩, 0⟩ .checkRepeat 0) := by
    simp only [step, act_sched, act_place_self, act_depth_self, act_act]
    rfl
  have hcheck : (w.act ⟨some w.sched.running, ⟨0, []⟩, 0⟩ .checkRepeat 0).step =
      .ok (w.act ⟨some w.sched.running, ⟨0, []⟩, 0⟩ .setRepeat 0) := by
    simp only [step, act_sched, act_place_self, act_depth_self, act_act]
    rfl
  have hrepeat : (w.act ⟨some w.sched.running, ⟨0, []⟩, 0⟩ .setRepeat 0).step =
      .ok (w.act (lockOf w.sched.running) .outside 1) := by
    simp only [step, act_sched, act_place_self, act_depth_self, act_act]
    rfl
  exact .cons (w.guard_step nests (by rintro ⟨⟩)) w.step_down <| .cons (w.guard_step nests (by rintro ⟨⟩)) hset <|
    .cons (w.guard_step nests (by rintro ⟨⟩)) hcheck <| .cons (w.guard_step nests (by rintro ⟨⟩)) hrepeat <| .nil _

/-- Inside `lock_release`, nobody waiting. -/
theorem run_released : Guarded.Run (system nests)
    (w.act (lockOf w.sched.running) .testRepeat 1) [.step, .step, .step, .step, .step]
    (w.act lockInit .outside 0) := by
  have htest : (w.act (lockOf w.sched.running) .testRepeat 1).step =
      .ok (w.act (lockOf w.sched.running) .checkOne 1) := by
    simp only [step, act_sched, act_place_self, act_depth_self, act_act]
    rfl
  have hone : (w.act (lockOf w.sched.running) .checkOne 1).step =
      .ok (w.act (lockOf w.sched.running) .clearHolder 1) := by
    simp only [step, act_sched, act_place_self, act_depth_self, act_act]
    rfl
  have hholder : (w.act (lockOf w.sched.running) .clearHolder 1).step =
      .ok (w.act ⟨none, ⟨0, []⟩, 1⟩ .clearRepeat 1) := by
    simp only [step, act_sched, act_place_self, act_depth_self, act_act]
    rfl
  have hrepeat : (w.act ⟨none, ⟨0, []⟩, 1⟩ .clearRepeat 1).step =
      .ok (w.act ⟨none, ⟨0, []⟩, 0⟩ .up 1) := by
    simp only [step, act_sched, act_place_self, act_depth_self, act_act]
    rfl
  exact .cons (w.guard_step nests (by rintro ⟨⟩)) htest <| .cons (w.guard_step nests (by rintro ⟨⟩)) hone <|
    .cons (w.guard_step nests (by rintro ⟨⟩)) hholder <| .cons (w.guard_step nests (by rintro ⟨⟩)) hrepeat <|
    .cons (w.guard_step nests (by rintro ⟨⟩)) w.step_up <| .nil _

end LockWorld
namespace Client

variable {σ π κ : Type} {C : Client σ π κ} {P : ClientWorld σ π → ClientCall κ → Prop}

theorem reach_steps (hP : ∀ w e, P w (.lock e)) (s : σ) (place : Nat → π) (n : Nat)
    {locks locks' : LockWorld} (h : Guarded.Run (LockWorld.system fun d => d + 1 < 2 ^ 32) locks
      (List.replicate n .step) locks') :
    Guarded.Reach (C.system.only P) ⟨locks, s, place⟩ ⟨locks', s, place⟩ := by
  induction n generalizing locks with
  | zero =>
    cases h
    exact .refl _
  | succ n ih =>
    cases h with
    | @cons _ l _ _ _ hg he hrest =>
      have hstep : C.exec ⟨locks, s, place⟩ (.lock .step) = .ok ⟨l, s, place⟩ := by
        change (locks.exec .step >>= fun locks => _) = _
        rw [show locks.exec .step = .ok l from he]
        rfl
      have hguard : (C.system.only P).guard ⟨locks, s, place⟩ (.lock .step) := ⟨hg, hP _ _⟩
      exact (Guarded.Reach.single (.lock .step) hguard hstep).trans (ih hrest)

/-- The running thread is at place `p` of the code and outside the lock's. -/
def runningAt (locks : LockWorld) (place : Nat → π) (lock : Lock) (d : Nat) (s : σ) (p : π) :
    ClientWorld σ π :=
  ⟨locks.act lock .outside d, s, Function.update place locks.sched.running p⟩

theorem runningAt_self {w : ClientWorld σ π}
    (hout : w.locks.place w.locks.sched.running = .outside) :
    runningAt w.locks w.place w.locks.lock (w.locks.depth w.locks.sched.running) w.shared
      (w.place w.locks.sched.running) = w := by
  have hp : ∀ t, (w.locks.act w.locks.lock .outside
      (w.locks.depth w.locks.sched.running)).place t = w.locks.place t := by
    intro t
    by_cases ht : t = w.locks.sched.running
    · subst ht
      rw [LockWorld.act_place_self, hout]
    · exact w.locks.act_place_other _ _ _ ht
  have hd : ∀ t, (w.locks.act w.locks.lock .outside
      (w.locks.depth w.locks.sched.running)).depth t = w.locks.depth t := by
    intro t
    by_cases ht : t = w.locks.sched.running
    · subst ht
      exact w.locks.act_depth_self ..
    · exact w.locks.act_depth_other _ _ _ ht
  rw [runningAt, Function.update_eq_self]
  exact congrArg (ClientWorld.mk · w.shared w.place)
    (congrArg₂ (LockWorld.mk w.locks.sched w.locks.lock) (funext hp) (funext hd))

section
variable {locks : LockWorld} {place : Nat → π} {k : κ} {s s' : σ} {p p' : π} {lock : Lock} {d : Nat}

theorem runningAt_guard (hidle : locks.sched.running ≠ locks.sched.idleThread)
    (hk : C.guard s p k) : C.callGuard (runningAt locks place lock d s p) (.go k) := by
  refine ⟨locks.act_place_self .., hidle, ?_⟩
  change C.guard s (Function.update place locks.sched.running p locks.sched.running) k
  rw [Function.update_self]
  exact hk

/-- The step's effect but for the lock. -/
theorem runningAt_exec (hs : C.step locks.sched.running s p k = .ok (s', p')) :
    C.exec (runningAt locks place lock d s p) (.go k) = (do
      let locks' ← (C.mode p').call (locks.act lock .outside d)
      return ⟨locks', s', Function.update place locks.sched.running p'⟩) := by
  simp only [exec, runningAt, LockWorld.act_sched, Function.update_self, hs, ok_bind,
    Function.update_idem]

/-- The code goes on without a call of the lock. -/
theorem reach_going (hidle : locks.sched.running ≠ locks.sched.idleThread) (hk : C.guard s p k)
    (hp : P (runningAt locks place lock d s p) (.go k))
    (hs : C.step locks.sched.running s p k = .ok (s', p'))
    (hm : C.mode p' = .free ∨ C.mode p' = .inside) :
    Guarded.Reach (C.system.only P) (runningAt locks place lock d s p)
      (runningAt locks place lock d s' p') := by
  have hexec : C.exec (runningAt locks place lock d s p) (.go k) =
      .ok (runningAt locks place lock d s' p') := by
    rw [runningAt_exec hs]
    rcases hm with hm | hm
    · rw [hm]
      rfl
    · rw [hm]
      rfl
  exact Guarded.Reach.single (M := C.system.only P) (.go k) ⟨runningAt_guard hidle hk, hp⟩ hexec

/-- The code comes to a `lock_acquire` that finds the lock free. -/
theorem reach_taking (hP : ∀ w e, P w (.lock e))
    (hidle : locks.sched.running ≠ locks.sched.idleThread) (hk : C.guard s p k)
    (hp : P (runningAt locks place lockInit 0 s p) (.go k))
    (hs : C.step locks.sched.running s p k = .ok (s', p')) (hm : C.mode p' = .taking) :
    Guarded.Reach (C.system.only P) (runningAt locks place lockInit 0 s p)
      (runningAt locks place (LockWorld.lockOf locks.sched.running) 1 s' p') := by
  have hexec : C.exec (runningAt locks place lockInit 0 s p) (.go k) =
      .ok ⟨locks.act lockInit .down 0, s', Function.update place locks.sched.running p'⟩ := by
    rw [runningAt_exec hs, hm]
    simp only [LockMode.call, LockWorld.exec, LockWorld.act_sched, LockWorld.act_depth_self,
      LockWorld.act_act]
    rfl
  exact (Guarded.Reach.single (M := C.system.only P) (.go k) ⟨runningAt_guard hidle hk, hp⟩
    hexec).trans (reach_steps hP _ _ 4 (locks.run_acquired _))

/-- The code comes to a `lock_release` with nobody waiting. -/
theorem reach_giving (hP : ∀ w e, P w (.lock e))
    (hidle : locks.sched.running ≠ locks.sched.idleThread) (hk : C.guard s p k)
    (hp : P (runningAt locks place (LockWorld.lockOf locks.sched.running) 1 s p) (.go k))
    (hs : C.step locks.sched.running s p k = .ok (s', p')) (hm : C.mode p' = .giving) :
    Guarded.Reach (C.system.only P)
      (runningAt locks place (LockWorld.lockOf locks.sched.running) 1 s p)
      (runningAt locks place lockInit 0 s' p') := by
  let held := locks.act (LockWorld.lockOf locks.sched.running) .outside 1
  have hholder : held.lock.holder = some held.sched.running := rfl
  have hrelease : held.exec .release =
      .ok (locks.act (LockWorld.lockOf locks.sched.running) .testRepeat 1) := by
    simp only [LockWorld.exec, ASSERT_true hholder, ok_bind]
    simp only [held, LockWorld.act_sched, LockWorld.act_lock, LockWorld.act_depth_self,
      LockWorld.act_act]
    rfl
  have hexec : C.exec (runningAt locks place (LockWorld.lockOf locks.sched.running) 1 s p)
      (.go k) = .ok ⟨locks.act (LockWorld.lockOf locks.sched.running) .testRepeat 1, s',
        Function.update place locks.sched.running p'⟩ := by
    rw [runningAt_exec hs, hm, LockMode.call, hrelease]
    rfl
  exact (Guarded.Reach.single (M := C.system.only P) (.go k) ⟨runningAt_guard hidle hk, hp⟩
    hexec).trans (reach_steps hP _ _ 5 (locks.run_released _))

end

/-- The threads take turns. -/
theorem reach_thread {w : ClientWorld σ π} {e : ThreadCall} {sched : Threads}
    (hg : C.callGuard w (.lock (.thread e))) (hp : P w (.lock (.thread e)))
    (he : w.locks.sched.exec e = .ok sched) :
    Guarded.Reach (C.system.only P) w { w with locks := { w.locks with sched } } := by
  have hexec : C.exec w (.lock (.thread e)) =
      .ok { w with locks := { w.locks with sched } } := by
    simp only [exec, LockWorld.exec, he, ok_bind]
    rfl
  exact .single (M := C.system.only P) (.lock (.thread e)) ⟨hg, hp⟩ hexec

/-- How the threads take turns when a new one, of priority 0, is switched out at the first
tick of the timer and goes on when the main thread yields. -/
structure SwitchTurns (s₁ s₂ s₃ s₄ s₅ : Threads) : Prop where
  start : threadStart bootedThreads 0xc0101000 0 = .ok s₁
  mainYields : threadYield s₁ = .ok s₂
  idleBlocks : threadBlock s₂ .TASK_BLOCKED = .ok s₃
  timer : intrTimerHandler s₃ = .ok s₄
  mainYieldsAgain : threadYield s₄ = .ok s₅
  intr : s₃.intr = .INTR_ON
  running : s₃.running = 0xc0101000 ∧ s₄.running = 0xc009e000 ∧ s₅.running = 0xc0101000
  idle : s₃.idleThread = 0xc0100000 ∧ s₄.idleThread = 0xc0100000 ∧ s₅.idleThread = 0xc0100000

theorem switchTurns : ∃ s₁ s₂ s₃ s₄ s₅, SwitchTurns s₁ s₂ s₃ s₄ s₅ :=
  ⟨_, _, _, _, _, rfl, rfl, rfl, rfl, rfl, rfl, ⟨rfl, rfl, rfl⟩, ⟨rfl, rfl, rfl⟩⟩

/-- A thread alone comes from one place of the code to another, the lock free. -/
def Goes (C : Client σ π κ) (s : σ) (p : π) (s' : σ) (p' : π) : Prop :=
  ∀ (locks : LockWorld) (place : Nat → π), locks.sched.running ≠ locks.sched.idleThread →
    Guarded.Reach (C.system.only fun _ _ => True) (runningAt locks place lockInit 0 s p)
      (runningAt locks place lockInit 0 s' p')

/-- One thread comes to `p`, another makes its whole call, and the first goes on. -/
theorem reach_switched {s s₁ s₂ s₃ : σ} {p : π} (first : C.Goes s C.outside s₁ p)
    (other : C.Goes s₁ C.outside s₂ C.outside) (rest : C.Goes s₂ p s₃ C.outside) :
    ∃ events w, Guarded.Run C.system (C.start bootedThreads s) events w ∧ w.shared = s₃ := by
  obtain ⟨t₁, t₂, t₃, t₄, t₅, h⟩ := switchTurns
  let M := C.system.only fun _ _ => True
  let w := fun t => C.start t s
  have hne : (0xc0101000 : Nat) ≠ 0xc009e000 := by decide
  have hidle₃ : t₃.running ≠ t₃.idleThread := by
    rw [h.running.1, h.idle.1]
    decide
  have hidle₄ : t₄.running ≠ t₄.idleThread := by
    rw [h.running.2.1, h.idle.2.1]
    decide
  have hidle₅ : t₅.running ≠ t₅.idleThread := by
    rw [h.running.2.2, h.idle.2.2]
    decide
  -- the new thread runs
  have hnew : (0xc0101000 : Nat) ∉ bootedThreads.threadAllList := by decide
  have h₁ : Guarded.Reach M (w bootedThreads) (w t₁) :=
    reach_thread (e := .start 0xc0101000 0) ⟨.inr rfl, .inr rfl, hnew, nofun⟩ trivial h.start
  have h₂ : Guarded.Reach M (w t₁) (w t₂) :=
    reach_thread (e := .yield) ⟨.inr rfl, .inr rfl, trivial, nofun⟩ trivial h.mainYields
  have h₃ : Guarded.Reach M (w t₂) (w t₃) :=
    reach_thread (e := .block .TASK_BLOCKED) ⟨.inr rfl, .inr rfl, rfl, nofun⟩ trivial
      h.idleBlocks
  -- it comes to `p` and is switched out
  have hfirst := first (w t₃).locks (w t₃).place hidle₃
  let x : ClientWorld σ π := runningAt (w t₃).locks (w t₃).place lockInit 0 s₁ p
  let y : ClientWorld σ π := { x with locks := { x.locks with sched := t₄ } }
  have hself₃ : runningAt (w t₃).locks (w t₃).place lockInit 0 s C.outside = w t₃ :=
    runningAt_self rfl
  rw [hself₃] at hfirst
  have h₄ : Guarded.Reach M x y :=
    reach_thread (e := .timer) ⟨.inl rfl, .inl rfl, h.intr, nofun⟩ trivial h.timer
  -- the main thread calls and returns
  have hmain : y.place t₄.running = C.outside := by
    change Function.update (w t₃).place t₃.running p t₄.running = _
    rw [h.running.1, h.running.2.1, Function.update_of_ne hne.symm]
    rfl
  have hout : ∀ t, y.locks.place t = .outside ∧ y.locks.depth t = 0 := by
    intro t
    by_cases ht : t = t₃.running
    · subst ht
      exact ⟨(w t₃).locks.act_place_self lockInit .outside 0,
        (w t₃).locks.act_depth_self lockInit .outside 0⟩
    · exact ⟨(w t₃).locks.act_place_other lockInit .outside 0 ht,
        (w t₃).locks.act_depth_other lockInit .outside 0 ht⟩
  have hself₄ : runningAt y.locks y.place lockInit 0 s₁ C.outside = y := by
    have hself := runningAt_self (w := y) (hout t₄.running).1
    rw [show y.place y.locks.sched.running = C.outside from hmain,
      show y.locks.depth y.locks.sched.running = 0 from (hout t₄.running).2] at hself
    exact hself
  have hother := other y.locks y.place hidle₄
  rw [hself₄] at hother
  -- the new thread goes on where it was
  let z : ClientWorld σ π := runningAt y.locks y.place lockInit 0 s₂ C.outside
  let v : ClientWorld σ π := { z with locks := { z.locks with sched := t₅ } }
  have hmain' : z.place t₄.running = C.outside := Function.update_self ..
  have h₅ : Guarded.Reach M z v :=
    reach_thread (e := .yield)
      ⟨.inr hmain', .inr (y.locks.act_place_self lockInit .outside 0), trivial, nofun⟩ trivial
      h.mainYieldsAgain
  have hnew' : v.place t₅.running = p := by
    change Function.update (Function.update (w t₃).place t₃.running p) t₄.running C.outside
      t₅.running = _
    rw [h.running.1, h.running.2.1, h.running.2.2, Function.update_of_ne hne,
      Function.update_self]
  have hne' : t₅.running ≠ t₄.running := by
    rw [h.running.2.1, h.running.2.2]
    exact hne
  have hout' : v.locks.place t₅.running = .outside ∧ v.locks.depth t₅.running = 0 :=
    ⟨(y.locks.act_place_other lockInit .outside 0 hne').trans (hout _).1,
      (y.locks.act_depth_other lockInit .outside 0 hne').trans (hout _).2⟩
  have hself₅ : runningAt v.locks v.place lockInit 0 s₂ p = v := by
    have hself := runningAt_self (w := v) hout'.1
    rw [show v.place v.locks.sched.running = p from hnew',
      show v.locks.depth v.locks.sched.running = 0 from hout'.2] at hself
    exact hself
  have hrest := rest v.locks v.place hidle₅
  rw [hself₅] at hrest
  obtain ⟨events, hrun⟩ :=
    h₁.trans <| h₂.trans <| h₃.trans <| hfirst.trans <| h₄.trans <| hother.trans <|
      h₅.trans hrest
  exact ⟨events, _, hrun.of_only, rfl⟩

end Client

end ZhuOS
