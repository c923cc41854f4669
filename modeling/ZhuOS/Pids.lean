import ZhuOS.LockClients

/-!
# `thread/thread.c`: process numbers

`allocate_pid` counts `next_pid` up under `pid_lock` and returns what `next_pid` is
after it has given the lock back.
-/

namespace ZhuOS

/-- `next_pid`, and the numbers that have been returned, the last one first. -/
structure Pids where
  nextPid : Int16
  returned : List Int16

inductive PidPlace
  | outside
  /-- `next_pid++`, the read and the write -/
  | readNext
  | writeNext (nr : Int16)
  /-- `lock_release` -/
  | unlock
  /-- `return next_pid` -/
  | result

def allocatePid : Client Pids PidPlace Unit where
  outside := .outside
  mode
    | .outside => .free
    | .readNext => .taking
    | .writeNext _ | .unlock => .inside
    | .result => .giving
  guard _ _ _ := True
  step _ s p _ :=
    match p with
    | .outside => .ok (s, .readNext)
    | .readNext => .ok (s, .writeNext s.nextPid)
    | .writeNext nr => .ok ({ s with nextPid := nr + 1 }, .unlock)
    | .unlock => .ok (s, .result)
    | .result => .ok ({ s with returned := s.nextPid :: s.returned }, .outside)
  outside_free := rfl
  turns := by
    intro t s p k s' p' h
    cases p with
    | outside | writeNext | unlock | result =>
      cases h
      simp [LockMode.Turns]
    | readNext =>
      cases h
      simp [LockMode.Turns]

abbrev PidWorld := ClientWorld Pids PidPlace

/-- No number twice, and none that `fork` could take for its 0 or -1. -/
structure PidsRight (s : Pids) : Prop where
  nodup : s.returned.Nodup
  positive : ∀ pid ∈ s.returned, 0 < pid

/-- When a thread is about to count up, no other is still to return its number, and the
next number is there. -/
def AllRead (w : PidWorld) : ClientCall Unit → Prop
  | .lock _ => True
  | .go () => ∀ nr, w.place w.locks.sched.running = .writeNext nr →
      w.shared.nextPid < 32767 ∧ ∀ t, w.place t ≠ .result

/-- Counted up, and the number not returned yet. -/
def PidPlace.Unread : PidPlace → Prop
  | .unlock | .result => True
  | _ => False

structure PidInv (w : PidWorld) : Prop where
  read : ∀ t nr, w.place t = .writeNext nr → nr = w.shared.nextPid
  nonneg : 0 ≤ w.shared.nextPid.toInt
  nodup : w.shared.returned.Nodup
  returned : ∀ pid ∈ w.shared.returned, 0 < pid.toInt ∧ pid.toInt ≤ w.shared.nextPid.toInt
  unread : ∀ t, (w.place t).Unread →
    0 < w.shared.nextPid.toInt ∧ w.shared.nextPid ∉ w.shared.returned
  one : ∀ t u, (w.place t).Unread → (w.place u).Unread → t = u

theorem Int16.toInt_succ {nr : Int16} (h : nr < 32767) : (nr + 1).toInt = nr.toInt + 1 := by
  have hlt := Int16.lt_iff_toInt_lt.mp h
  have hle := nr.le_toInt
  rw [Int16.toInt_add]
  change (nr.toInt + 1).bmod (2 ^ 16) = _
  apply Int.bmod_eq_of_le
  · change -(2 ^ 15) ≤ nr.toInt at hle
    omega
  · change nr.toInt < 32767 at hlt
    omega

namespace PidInv

variable {w w' : PidWorld}

/-- A step that writes nothing. -/
theorem moved (h : PidInv w) (cur : Nat) {p : PidPlace} {locks : LockWorld}
    (hread : ∀ nr, p = .writeNext nr → nr = w.shared.nextPid)
    (hunread : p.Unread → (w.place cur).Unread) :
    PidInv ⟨locks, w.shared, Function.update w.place cur p⟩ := by
  have hplace : ∀ t, (Function.update w.place cur p t).Unread → (w.place t).Unread := by
    intro t ht
    by_cases he : t = cur
    · subst he
      rw [Function.update_self] at ht
      exact hunread ht
    · rw [Function.update_of_ne he] at ht
      exact ht
  constructor
  · intro t nr ht
    by_cases he : t = cur
    · subst he
      exact hread nr ((Function.update_self ..).symm.trans ht)
    · exact h.read t nr ((Function.update_of_ne he ..).symm.trans ht)
  · exact h.nonneg
  · exact h.nodup
  · exact h.returned
  · exact fun t ht => h.unread t (hplace t ht)
  · exact fun t u ht hu => h.one t u (hplace t ht) (hplace u hu)

/-- The write of `next_pid++`: nobody else has the lock, and nobody else is still to return
a number. -/
theorem counted (hc : ClientInv allocatePid w) (h : PidInv w) {cur : Nat} {nr : Int16}
    {locks : LockWorld} (hcur : w.place cur = .writeNext nr) (hlt : w.shared.nextPid < 32767)
    (hread : ∀ t, w.place t ≠ .result) :
    PidInv ⟨locks, { w.shared with nextPid := nr + 1 }, Function.update w.place cur .unlock⟩ := by
  obtain rfl := h.read cur nr hcur
  have hsucc := Int16.toInt_succ hlt
  have hnonneg := h.nonneg
  have hinside : ∀ t, allocatePid.mode (w.place t) = .inside → t = cur := by
    intro t ht
    apply hc.one (hc.depth_inside ht) (hc.depth_inside _)
    rw [hcur]
    rfl
  have hone : ∀ t, (Function.update w.place cur .unlock t).Unread → t = cur := by
    intro t ht
    by_contra he
    rw [Function.update_of_ne he] at ht
    cases hp : w.place t with
    | unlock => exact he (hinside t (by rw [hp]; rfl))
    | result => exact hread t hp
    | outside | readNext | writeNext => exact absurd ht (by simp [hp, PidPlace.Unread])
  constructor
  · intro t nr ht
    exfalso
    by_cases he : t = cur
    · subst he
      cases (Function.update_self ..).symm.trans ht
    · have hp := (Function.update_of_ne he ..).symm.trans ht
      exact he (hinside t (by rw [hp]; rfl))
  · change 0 ≤ (w.shared.nextPid + 1).toInt
    omega
  · exact h.nodup
  · intro pid hpid
    obtain ⟨hpos, hle⟩ := h.returned pid hpid
    change 0 < pid.toInt ∧ pid.toInt ≤ (w.shared.nextPid + 1).toInt
    omega
  · intro t _
    constructor
    · change 0 < (w.shared.nextPid + 1).toInt
      omega
    · intro hm
      obtain ⟨-, hle⟩ := h.returned _ hm
      change (w.shared.nextPid + 1).toInt ≤ _ at hle
      omega
  · intro t u ht hu
    rw [hone t ht, hone u hu]

/-- `return next_pid`: it is the thread's own number still. -/
theorem gave (h : PidInv w) {cur : Nat} {locks : LockWorld} (hcur : w.place cur = .result) :
    PidInv ⟨locks, { w.shared with returned := w.shared.nextPid :: w.shared.returned },
      Function.update w.place cur .outside⟩ := by
  have hunread : (w.place cur).Unread := by
    rw [hcur]
    trivial
  obtain ⟨hpos, hnew⟩ := h.unread cur hunread
  have hnone : ∀ t, ¬ (Function.update w.place cur .outside t).Unread := by
    intro t ht
    by_cases he : t = cur
    · subst he
      rw [Function.update_self] at ht
      exact ht
    · rw [Function.update_of_ne he] at ht
      exact he (h.one t cur ht hunread)
  constructor
  · intro t nr ht
    by_cases he : t = cur
    · subst he
      cases (Function.update_self ..).symm.trans ht
    · exact h.read t nr ((Function.update_of_ne he ..).symm.trans ht)
  · exact h.nonneg
  · exact List.nodup_cons.mpr ⟨hnew, h.nodup⟩
  · intro pid hpid
    rcases List.mem_cons.mp hpid with rfl | hpid
    · exact ⟨hpos, Int.le_refl _⟩
    · exact h.returned pid hpid
  · exact fun t ht => absurd ht (hnone t)
  · exact fun t _ ht => absurd ht (hnone t)

theorem go (hc : ClientInv allocatePid w) (h : PidInv w) {k : Unit} (hp : AllRead w (.go k))
    (he : allocatePid.exec w (.go k) = .ok w') : PidInv w' := by
  obtain ⟨⟨shared, p⟩, hs, he⟩ := bind_ok.mp he
  obtain ⟨locks, -, he⟩ := bind_ok.mp he
  cases he
  cases hcur : w.place w.locks.sched.running with
  | outside =>
    rw [hcur] at hs
    cases hs
    exact h.moved _ nofun nofun
  | readNext =>
    rw [hcur] at hs
    cases hs
    apply h.moved
    · rintro nr ⟨⟩
      rfl
    · exact nofun
  | writeNext nr =>
    rw [hcur] at hs
    cases hs
    obtain ⟨hlt, hread⟩ := hp nr hcur
    exact h.counted hc hcur hlt hread
  | unlock =>
    rw [hcur] at hs
    cases hs
    apply h.moved
    · exact nofun
    · intro _
      rw [hcur]
      trivial
  | result =>
    rw [hcur] at hs
    cases hs
    exact h.gave hcur

theorem right (h : PidInv w) : PidsRight w.shared := by
  constructor
  · exact h.nodup
  · intro pid hpid
    exact Int16.lt_iff_toInt_lt.mpr (h.returned pid hpid).1

end PidInv

/-- Every run in which nobody counts up while another is still to read its number. -/
theorem pids_run {s : Threads} (hs : SchedOk s) {events : List (ClientCall Unit)} {w : PidWorld}
    (hrun : Guarded.Run (allocatePid.system.only AllRead) (allocatePid.start s ⟨0, []⟩)
      events w) : PidsRight w.shared := by
  have hstart : PidInv (allocatePid.start s ⟨0, []⟩) := by
    constructor
    · exact nofun
    · change 0 ≤ (0 : Int16).toInt
      decide
    · exact List.nodup_nil
    · exact nofun
    · exact nofun
    · exact nofun
  have hpres := ClientInv.preserves (P := AllRead) (J := PidInv)
    (fun w _ h => ⟨h.read, h.nonneg, h.nodup, h.returned, h.unread, h.one⟩)
    fun _ _ _ hc h _ hp he => PidInv.go hc h hp he
  exact (hrun.preserved hpres ⟨ClientInv.start hs _, hstart⟩).2.right

/-! ## Two threads -/

section
open Client

variable {P : PidWorld → ClientCall Unit → Prop} {locks : LockWorld} {place : Nat → PidPlace}
  {s : Pids}

/-- A thread alone, up to `return`. -/
theorem reach_counted (hP : ∀ w e, P w (.lock e))
    (hidle : locks.sched.running ≠ locks.sched.idleThread)
    (hgo : ∀ lock d s' p, ((∀ nr, p ≠ .writeNext nr) ∨ s' = s) →
      P (runningAt locks place lock d s' p) (.go ())) :
    Guarded.Reach (allocatePid.system.only P) (runningAt locks place lockInit 0 s .outside)
      (runningAt locks place lockInit 0 { s with nextPid := s.nextPid + 1 } .result) := by
  let M := allocatePid.system.only P
  let held := LockWorld.lockOf locks.sched.running
  have htake : Guarded.Reach M (runningAt locks place lockInit 0 s .outside)
      (runningAt locks place held 1 s .readNext) :=
    reach_taking hP hidle trivial (hgo _ _ _ _ (.inl nofun)) rfl rfl
  have hread : Guarded.Reach M (runningAt locks place held 1 s .readNext)
      (runningAt locks place held 1 s (.writeNext s.nextPid)) :=
    reach_going hidle trivial (hgo _ _ _ _ (.inl nofun)) rfl (.inr rfl)
  have hwrite : Guarded.Reach M (runningAt locks place held 1 s (.writeNext s.nextPid))
      (runningAt locks place held 1 { s with nextPid := s.nextPid + 1 } .unlock) :=
    reach_going hidle trivial (hgo _ _ _ _ (.inr rfl)) rfl (.inr rfl)
  have hgive : Guarded.Reach M
      (runningAt locks place held 1 { s with nextPid := s.nextPid + 1 } .unlock)
      (runningAt locks place lockInit 0 { s with nextPid := s.nextPid + 1 } .result) :=
    reach_giving hP hidle trivial (hgo _ _ _ _ (.inl nofun)) rfl rfl
  exact htake.trans (hread.trans (hwrite.trans hgive))

/-- The call returns. -/
theorem reach_returned (hidle : locks.sched.running ≠ locks.sched.idleThread) {lock : Lock}
    {d : Nat} (hgo : P (runningAt locks place lock d s .result) (.go ())) :
    Guarded.Reach (allocatePid.system.only P) (runningAt locks place lock d s .result)
      (runningAt locks place lock d { s with returned := s.nextPid :: s.returned } .outside) :=
  reach_going hidle trivial hgo rfl (.inl rfl)

end

/-- The main thread gets the number 1. -/
theorem pids_run_one : ∃ events w, Guarded.Run (allocatePid.system.only AllRead)
    (allocatePid.start bootedThreads ⟨0, []⟩) events w ∧ w.shared.returned = [1] ∧
    PidsRight w.shared := by
  let boot := allocatePid.start bootedThreads ⟨0, []⟩
  have hself : Client.runningAt boot.locks boot.place lockInit 0 ⟨0, []⟩ .outside = boot :=
    Client.runningAt_self rfl
  have hidle : boot.locks.sched.running ≠ boot.locks.sched.idleThread := by decide
  have hread : ∀ lock d (s : Pids) p, ((∀ nr, p ≠ .writeNext nr) ∨ s = ⟨0, []⟩) →
      AllRead (Client.runningAt boot.locks boot.place lock d s p) (.go ()) := by
    intro lock d s p hp nr hnr
    have hp' : p = .writeNext nr := by
      let cur := boot.locks.sched.running
      change Function.update boot.place cur p cur = .writeNext nr at hnr
      rwa [Function.update_self] at hnr
    rcases hp with hp | rfl
    · exact absurd hp' (hp nr)
    · constructor
      · change (0 : Int16) < 32767
        decide
      · intro t ht
        change Function.update boot.place _ p t = _ at ht
        by_cases he : t = boot.locks.sched.running
        · subst he
          rw [hp', Function.update_self] at ht
          cases ht
        · rw [Function.update_of_ne he] at ht
          cases ht
  have hcount : Guarded.Reach (allocatePid.system.only AllRead)
      (Client.runningAt boot.locks boot.place lockInit 0 ⟨0, []⟩ .outside)
      (Client.runningAt boot.locks boot.place lockInit 0 ⟨1, []⟩ .result) :=
    reach_counted (fun _ _ => trivial) hidle hread
  have hreturn : Guarded.Reach (allocatePid.system.only AllRead)
      (Client.runningAt boot.locks boot.place lockInit 0 ⟨1, []⟩ .result)
      (Client.runningAt boot.locks boot.place lockInit 0 ⟨1, [1]⟩ .outside) :=
    reach_returned hidle (hread _ _ _ _ (.inl nofun))
  rw [hself] at hcount
  obtain ⟨events, hrun⟩ := hcount.trans hreturn
  exact ⟨events, _, hrun, rfl, pids_run (threadInit_ok threadInit_booted) hrun⟩

/-- Two calls return 2. -/
theorem pids_run_twice : ∃ events w, Guarded.Run allocatePid.system
    (allocatePid.start bootedThreads ⟨0, []⟩) events w ∧ w.shared.returned = [2, 2] ∧
    ¬ PidsRight w.shared := by
  have counts : allocatePid.Goes ⟨0, []⟩ .outside ⟨1, []⟩ .result :=
    fun _ _ hidle => reach_counted (fun _ _ => trivial) hidle fun _ _ _ _ _ => trivial
  have calls : allocatePid.Goes ⟨1, []⟩ .outside ⟨2, [2]⟩ .outside :=
    fun _ _ hidle => (reach_counted (fun _ _ => trivial) hidle fun _ _ _ _ _ => trivial).trans
      (reach_returned hidle trivial)
  have returns : allocatePid.Goes ⟨2, [2]⟩ .result ⟨2, [2, 2]⟩ .outside :=
    fun _ _ hidle => reach_returned hidle trivial
  obtain ⟨events, w, hrun, hs⟩ := Client.reach_switched counts calls returns
  refine ⟨events, w, hrun, by rw [hs], ?_⟩
  intro hright
  rw [hs] at hright
  exact absurd hright.nodup (by decide : ¬ ([2, 2] : List Int16).Nodup)

end ZhuOS
