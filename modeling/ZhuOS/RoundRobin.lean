import ZhuOS.Threads

/-!
# The turns the scheduler gives

A thread that is ready runs after the turns of those before it. Only `thread_unblock` puts a thread
in front of it.
-/

namespace ZhuOS

open Guarded (Run total total_cons total_congr)

namespace Threads

/-- The timer interrupts until the thread's turn is over, while it runs. -/
def turn (s : Threads) (t : Nat) : Nat := (s.task t).ticks.toNat + 1

/-- The interrupts until a ready thread runs: what is left to the running thread, and the turns
of those before it. -/
def wait (s : Threads) (t : Nat) : Nat :=
  s.turn s.running + total s.turn (s.threadReadyList.takeWhile (· ≠ t))

/-- The queue of `schedule`: a thread whose time is up is at its end. -/
def queue (s : Threads) : List Nat :=
  s.threadReadyList ++ if (s.task s.running).status = .TASK_RUNNING then [s.running] else []

end Threads

/-- What `schedule` leaves when the queue is not empty. -/
structure Passed (s s' : Threads) (next : Nat) (rest : List Nat) (r : IntrStatus) : Prop where
  running : s'.running = next
  ready : s'.threadReadyList = rest
  intr : s'.intr = if next = s.running then r else (s.task next).resumes
  clock : s'.ticks = s.ticks
  ticks : ∀ u, (s'.task u).ticks =
    if u = s.running ∧ (s.task u).status = .TASK_RUNNING then (s.task u).priority
    else (s.task u).ticks
  priority : ∀ u, (s'.task u).priority = (s.task u).priority
  elapsed : ∀ u, (s'.task u).elapsedTicks = (s.task u).elapsedTicks
  resumes : ∀ u, (s'.task u).resumes = if u = s.running then r else (s.task u).resumes

section
variable {s s' : Threads} {next t : Nat} {rest : List Nat} {r : IntrStatus} {calls : List ThreadCall}

/-- The switch sets no time. -/
theorem switchTo_task (s : Threads) (next : Nat) (r : IntrStatus) (u : Nat) :
    let s' := switchTo (s.setStatus next .TASK_RUNNING) next r
    (s'.task u).ticks = (s.task u).ticks ∧ (s'.task u).priority = (s.task u).priority ∧
      (s'.task u).elapsedTicks = (s.task u).elapsedTicks ∧
      (s'.task u).resumes = if u = s.running then r else (s.task u).resumes := by
  have hstatus : ∀ v, ∃ stat, (s.setStatus next .TASK_RUNNING).task v =
      { s.task v with status := stat } := by
    intro v
    by_cases hv : v = next
    · exact ⟨.TASK_RUNNING, by rw [hv]; exact Threads.setTask_self ..⟩
    · exact ⟨(s.task v).status, Threads.setTask_other _ _ _ _ hv⟩
  obtain ⟨stat, hu⟩ := hstatus u
  intro s'
  by_cases hrun : u = s.running
  · have htask : s'.task u = { (s.setStatus next .TASK_RUNNING).task u with resumes := r } := by
      subst hrun
      exact Threads.setTask_self ..
    rw [htask, hu, if_pos hrun]
    exact ⟨rfl, rfl, rfl, rfl⟩
  · have htask : s'.task u = (s.setStatus next .TASK_RUNNING).task u :=
      Threads.setTask_other _ _ _ _ hrun
    rw [htask, hu, if_neg hrun]
    exact ⟨rfl, rfl, rfl, rfl⟩

/-- What a switch from a queue without the running thread leaves. -/
theorem switchTo_passed (s : Threads) (next : Nat) (rest : List Nat) (r : IntrStatus)
    (hrun : (s.task s.running).status ≠ .TASK_RUNNING) :
    Passed s (switchTo ((s.setReady rest).setStatus next .TASK_RUNNING) next r) next rest r := by
  have htask := switchTo_task (s.setReady rest) next r
  have hnext := (htask next).2.2.2
  refine ⟨rfl, rfl, hnext, rfl, fun u => ?_, fun u => (htask u).2.1, fun u => (htask u).2.2.1,
    fun u => (htask u).2.2.2⟩
  have hnot : ¬ (u = s.running ∧ (s.task u).status = .TASK_RUNNING) := by
    rintro ⟨rfl, hu⟩
    exact hrun hu
  rw [if_neg hnot]
  exact (htask u).1

/-- The thread whose time is up has a full turn again. -/
theorem requeued_passed {k : TaskStruct} (hrun : (s.task s.running).status = .TASK_RUNNING)
    (hk : k = { s.task s.running with
      ticks := (s.task s.running).priority, status := .TASK_READY })
    (h : Passed (s.setTask s.running k) s' next rest r) : Passed s s' next rest r := by
  have hself : (s.setTask s.running k).task s.running = k := Threads.setTask_self ..
  have hother : ∀ u, u ≠ s.running → (s.setTask s.running k).task u = s.task u :=
    fun u hu => Threads.setTask_other _ _ _ _ hu
  have hmove : (s.setTask s.running k).running = s.running := rfl
  have hintr := h.intr
  have hticks := h.ticks
  have hpriority := h.priority
  have helapsed := h.elapsed
  have hresumes := h.resumes
  simp only [hmove] at hintr hticks hresumes
  refine ⟨h.running, h.ready, ?_, h.clock, fun u => ?_, fun u => ?_, fun u => ?_, fun u => ?_⟩
  · by_cases hu : next = s.running
    · rw [hintr, if_pos hu, if_pos hu]
    · rw [hintr, if_neg hu, if_neg hu, hother next hu]
  · by_cases hu : u = s.running
    · have hready : k.status ≠ .TASK_RUNNING := by simp [hk]
      subst hu
      refine Eq.trans ?_ (if_pos ⟨rfl, hrun⟩).symm
      rw [hticks, hself, if_neg fun hboth => hready hboth.2, hk]
    · rw [hticks, hother u hu]
  · by_cases hu : u = s.running
    · subst hu
      rw [hpriority, hself, hk]
    · rw [hpriority, hother u hu]
  · by_cases hu : u = s.running
    · subst hu
      rw [helapsed, hself, hk]
    · rw [helapsed, hother u hu]
  · by_cases hu : u = s.running
    · rw [hresumes, if_pos hu, if_pos hu]
    · rw [hresumes, if_neg hu, if_neg hu, hother u hu]

theorem schedule_passes (h : Leaving s) (hoff : s.intr = .INTR_OFF) (hq : s.queue = next :: rest)
    (hs' : schedule s r = .ok s') : Passed s s' next rest r := by
  have hpass : ∀ s₁ : Threads, requeue s = .ok s₁ → s₁.threadReadyList = next :: rest →
      s' = switchTo ((s₁.setReady rest).setStatus next .TASK_RUNNING) next r := by
    intro s₁ h₁ hl
    have hwake : wakeIdle s₁ = .ok s₁ := by
      rw [wakeIdle, if_neg (by rw [hl]; exact List.cons_ne_nil next rest)]
      rfl
    simp only [schedule, ASSERT_true hoff, ok_bind, h₁, hwake, hl] at hs'
    exact (Except.ok.inj hs').symm
  unfold Threads.queue at hq
  by_cases hrun : (s.task s.running).status = .TASK_RUNNING
  · have hnot : s.running ∉ s.threadReadyList := h.not_ready (by simp [hrun])
    rw [if_pos hrun] at hq
    let k := { s.task s.running with
      ticks := (s.task s.running).priority, status := .TASK_READY }
    have hrequeue : requeue s =
        .ok ((s.setReady (s.threadReadyList ++ [s.running])).setTask s.running k) := by
      simp only [requeue, hrun, ↓reduceIte, ASSERT_true hnot, ok_bind]
      rfl
    rw [hpass _ hrequeue hq]
    refine requeued_passed hrun rfl (switchTo_passed (s.setTask s.running k) next rest r ?_)
    have hready : k.status ≠ .TASK_RUNNING := by simp [k]
    have hself : (s.setTask s.running k).task s.running = k := Threads.setTask_self ..
    change ((s.setTask s.running k).task s.running).status ≠ _
    rw [hself]
    exact hready
  · rw [if_neg hrun, List.append_nil] at hq
    have hrequeue : requeue s = .ok s := by
      simp only [requeue, hrun, ↓reduceIte]
      rfl
    rw [hpass s hrequeue hq]
    exact switchTo_passed s next rest r hrun

/-! ## No thread is kept waiting -/

theorem takeWhile_ne_append {l : List Nat} (h : t ∈ l) (m : List Nat) :
    (l ++ m).takeWhile (· ≠ t) = l.takeWhile (· ≠ t) := by
  induction l with
  | nil => exact absurd h List.not_mem_nil
  | cons u l ih =>
    by_cases hu : u = t
    · simp [hu]
    · have hl : t ∈ l := (List.mem_cons.mp h).resolve_left fun he => hu he.symm
      simpa [hu] using ih hl

theorem mem_of_mem_takeWhile {l : List Nat} {p : Nat → Bool} {u : Nat} (h : u ∈ l.takeWhile p) :
    u ∈ l := (List.takeWhile_sublist p).subset h

/-- A switch takes the rest of the turn that it ends from everybody's waiting time. -/
theorem Passed.wait (h : Passed s s' next rest r) (hs : Queued s) (hq : s.queue = next :: rest)
    (ht : t ∈ s.threadReadyList) :
    s'.running = t ∨ t ∈ s'.threadReadyList ∧ s'.wait t + s.turn s.running = s.wait t := by
  have hturn : ∀ u ∈ s.threadReadyList, s'.turn u = s.turn u := by
    intro u hu
    have hready := ((hs.ready u).mp hu).2
    rw [Threads.turn, h.ticks, if_neg fun hboth => by simp [hready] at hboth, Threads.turn]
  obtain ⟨l, hl⟩ : ∃ l, s.threadReadyList = next :: l ∧ ∃ m, rest = l ++ m := by
    unfold Threads.queue at hq
    cases hready : s.threadReadyList with
    | nil =>
      rw [hready] at ht
      exact absurd ht List.not_mem_nil
    | cons u l =>
      rw [hready, List.cons_append] at hq
      obtain ⟨rfl, hrest⟩ := List.cons.inj hq
      exact ⟨l, rfl, _, hrest.symm⟩
  obtain ⟨hl, m, rfl⟩ := hl
  by_cases hnext : next = t
  · exact .inl (h.running.trans hnext)
  · have hmem : t ∈ l := (List.mem_cons.mp (hl ▸ ht)).resolve_left fun he => hnext he.symm
    refine .inr ⟨h.ready ▸ List.mem_append_left m hmem, ?_⟩
    have hsame : total s'.turn (l.takeWhile (· ≠ t)) = total s.turn (l.takeWhile (· ≠ t)) :=
      total_congr fun u hu =>
        hturn u (hl ▸ List.mem_cons_of_mem next (mem_of_mem_takeWhile hu))
    have hfirst := hturn next (hl ▸ List.mem_cons_self)
    rw [Threads.wait, Threads.wait, h.running, h.ready, takeWhile_ne_append hmem, hsame, hfirst, hl,
      List.takeWhile_cons_of_pos (by simpa using hnext), total_cons]
    omega

/-- Threads whose turns are the same, in the same order, wait as long. -/
theorem wait_congr {m : List Nat} (hrun : s'.running = s.running)
    (hready : s'.threadReadyList = s.threadReadyList ++ m) (ht : t ∈ s.threadReadyList)
    (hturn : ∀ u, u = s.running ∨ u ∈ s.threadReadyList → s'.turn u = s.turn u) :
    s'.wait t = s.wait t := by
  have hsame : total s'.turn (s.threadReadyList.takeWhile (· ≠ t)) =
      total s.turn (s.threadReadyList.takeWhile (· ≠ t)) :=
    total_congr fun u hu => hturn u (.inr (mem_of_mem_takeWhile hu))
  rw [Threads.wait, Threads.wait, hrun, hready, takeWhile_ne_append ht, hsame,
    hturn s.running (.inl rfl)]

def ThreadCall.timers : ThreadCall → Nat
  | .timer => 1
  | .block _ | .yield | .unblock _ | .start _ _ | .intr _ => 0

/-- A thread that is woken keeps the ready ones waiting for its turn, 256 interrupts at most. -/
def ThreadCall.woken : ThreadCall → Nat
  | .unblock _ => 256
  | .timer | .block _ | .yield | .start _ _ | .intr _ => 0

theorem setStatus_turn (s : Threads) (t u : Nat) (stat : TaskStatus) :
    (s.setStatus t stat).turn u = s.turn u := by
  unfold Threads.turn Threads.setStatus
  rw [Threads.setTask_task]
  split
  · rename_i hu
    rw [hu]
  · rfl

/-- The running thread gives up the processor: a ready one waits the less for it. -/
theorem schedule_waits {s₁ : Threads} {m : List Nat} (h : Leaving s₁) (hoff : s₁.intr = .INTR_OFF)
    (hs' : schedule s₁ r = .ok s') (hrun : s₁.running = s.running)
    (hready : s₁.threadReadyList = s.threadReadyList ++ m) (ht : t ∈ s.threadReadyList)
    (hturn : ∀ u, s₁.turn u = s.turn u) :
    s'.running = t ∨ t ∈ s'.threadReadyList ∧ s'.wait t + s.turn s.running = s.wait t := by
  have ht₁ : t ∈ s₁.threadReadyList := hready ▸ List.mem_append_left m ht
  obtain ⟨next, rest, hq⟩ : ∃ next rest, s₁.queue = next :: rest :=
    List.exists_cons_of_ne_nil (List.ne_nil_of_mem (List.mem_append_left _ ht₁))
  have hwait := (schedule_passes h hoff hq hs').wait h.toQueued hq ht₁
  rwa [hturn, hrun, wait_congr hrun hready ht fun u _ => hturn u] at hwait

/-- The timer ends the turn of the running thread, or takes a part of it. -/
theorem timer_waits (h : SchedOk s) (ht : t ∈ s.threadReadyList)
    (hs' : intrTimerHandler s = .ok s') :
    s'.running = t ∨ t ∈ s'.threadReadyList ∧ s'.wait t + 1 = s.wait t := by
  have hmagic := h.magic _ h.running_mem
  simp only [intrTimerHandler, ASSERT_true hmagic, ok_bind] at hs'
  by_cases hup : (s.task s.running).ticks = 0
  · rw [if_pos hup] at hs'
    let k := { s.task s.running with elapsedTicks := (s.task s.running).elapsedTicks + 1 }
    have hok := h.setTicks k rfl rfl (s.ticks + 1) .INTR_OFF
    have hturn : ∀ u, (({ s with ticks := s.ticks + 1, intr := .INTR_OFF } : Threads).setTask
        s.running k).turn u = s.turn u := by
      intro u
      unfold Threads.turn
      rw [Threads.setTask_task]
      split
      · rename_i hu
        rw [hu]
      · rfl
    have hwait := schedule_waits ⟨hok.toQueued, fun t ht => (hok.one t ht).mp⟩ rfl hs'
      (s := s) rfl (List.append_nil _).symm ht hturn
    have hlast : s.turn s.running = 1 := by rw [Threads.turn, hup]; rfl
    rwa [hlast] at hwait
  · rw [if_neg hup] at hs'
    cases hs'
    refine .inr ⟨ht, ?_⟩
    let k := { s.task s.running with
      elapsedTicks := (s.task s.running).elapsedTicks + 1, ticks := (s.task s.running).ticks - 1 }
    let s₁ := ({ s with ticks := s.ticks + 1, intr := .INTR_OFF } : Threads).setTask s.running k
    change (s₁.setIntr s.intr).wait t + 1 = s.wait t
    have hpos : (s.task s.running).ticks.toNat ≠ 0 := fun hz => hup (UInt8.toNat_inj.mp hz)
    have hsub : ((s.task s.running).ticks - 1).toNat = (s.task s.running).ticks.toNat - 1 :=
      UInt8.toNat_sub_of_le _ _ (UInt8.le_iff_toNat_le.mpr (Nat.one_le_iff_ne_zero.mpr hpos))
    have hrun : s₁.turn s.running + 1 = s.turn s.running := by
      have hself : s₁.task s.running = k := Threads.setTask_self ..
      rw [Threads.turn, Threads.turn, hself, hsub]
      omega
    have hother : ∀ u ∈ s.threadReadyList.takeWhile (· ≠ t), s₁.turn u = s.turn u := by
      intro u hu
      have hne : u ≠ s.running := by
        rintro rfl
        exact h.running_not_ready (mem_of_mem_takeWhile hu)
      have hsame : s₁.task u = s.task u := Threads.setTask_other _ _ _ _ hne
      rw [Threads.turn, hsame, Threads.turn]
    have hsum := total_congr hother
    have hafter : (s₁.setIntr s.intr).wait t =
        s₁.turn s.running + total s₁.turn (s.threadReadyList.takeWhile (· ≠ t)) := rfl
    rw [hafter, hsum, Threads.wait]
    omega

/-- What a call does to the time that a ready thread has to wait. -/
theorem SchedOk.exec_waits (h : SchedOk s) (ht : t ∈ s.threadReadyList) {e : ThreadCall}
    (hg : s.guard e) (hs' : s.exec e = .ok s') :
    s'.running = t ∨
      t ∈ s'.threadReadyList ∧ s'.wait t + e.timers ≤ s.wait t + e.woken := by
  cases e with
  | timer => exact (timer_waits h ht hs').imp_right (And.imp_right Nat.le_of_eq)
  | block stat =>
    have hstat : stat.blocked = true := hg
    simp only [Threads.exec, threadBlock, ASSERT_true hstat, ok_bind] at hs'
    have hwait := schedule_waits (s := s) (h.blocking hstat) rfl hs' rfl (List.append_nil _).symm ht
      fun u => setStatus_turn ..
    exact hwait.imp_right (And.imp_right fun heq =>
      Nat.le_trans (Nat.le_add_right ..) (Nat.le_of_eq heq))
  | yield =>
    simp only [Threads.exec, threadYield, ASSERT_true h.running_not_ready, ok_bind] at hs'
    have hwait := schedule_waits (s := s) h.yielding rfl hs' rfl rfl ht fun u => setStatus_turn ..
    exact hwait.imp_right (And.imp_right fun heq =>
      Nat.le_trans (Nat.le_add_right ..) (Nat.le_of_eq heq))
  | unblock u =>
    have hne : t ≠ u := by
      rintro rfl
      exact hg.2.not_ready ((h.ready t).mp ht).2
    obtain ⟨s'', hs'', -, rfl⟩ := ZhuOS.threadUnblock_ok h.toQueued hg.1 hg.2
    obtain rfl := Except.ok.inj (hs''.symm.trans hs')
    refine .inr ⟨List.mem_cons_of_mem u ht, ?_⟩
    have hturn : ∀ v, ((s.setReady (u :: s.threadReadyList)).setStatus u .TASK_READY).turn v =
        s.turn v := fun v => setStatus_turn ..
    have hfirst : s.turn u ≤ 256 := (s.task u).ticks.toNat_lt
    have hwait : ((s.setReady (u :: s.threadReadyList)).setStatus u .TASK_READY).wait t =
        s.turn s.running + (s.turn u + total s.turn (s.threadReadyList.takeWhile (· ≠ t))) := by
      rw [Threads.wait, funext hturn, Threads.setStatus_ready, Threads.setReady_ready,
        List.takeWhile_cons_of_pos (by simpa using Ne.symm hne), total_cons]
      rfl
    have hcost : (ThreadCall.unblock u).woken = 256 := rfl
    have hnone : (ThreadCall.unblock u).timers = 0 := rfl
    rw [hwait, hcost, hnone, Threads.wait]
    omega
  | start page prio =>
    have hold : ∀ u ∈ s.threadAllList, (initThread s page prio).task u = s.task u := fun u hu =>
      Threads.setTask_other _ _ _ _ fun he => hg (he ▸ hu)
    obtain ⟨_, -, hs'⟩ := bind_ok.mp hs'
    obtain ⟨_, -, hs'⟩ := bind_ok.mp hs'
    cases hs'
    have hturn : ∀ u ∈ s.threadAllList, (initThread s page prio).turn u = s.turn u := by
      intro u hu
      rw [Threads.turn, hold u hu, Threads.turn]
    refine .inr ⟨List.mem_append_left _ ht, Nat.le_of_eq ?_⟩
    refine wait_congr (m := [page]) rfl rfl ht fun u hu => hturn u ?_
    obtain rfl | hu := hu
    · exact h.running_mem
    · exact ((h.ready u).mp hu).1
  | intr status =>
    cases hs'
    exact .inr ⟨ht, Nat.le_refl _⟩

/-- In every state that leads on from `thread_init`, a ready thread runs before the turns of those
in front of it, and of those that are woken meanwhile, are over. -/
theorem waits_run {m s₀ : Threads} {idlePage : Nat} (h₀ : threadInit m idlePage = .ok s₀)
    {earlier : List ThreadCall} (hreach : Run Threads.system s₀ earlier s)
    (ht : t ∈ s.threadReadyList) (hrun : Run Threads.system s calls s')
    (hlong : s.wait t + total ThreadCall.woken calls ≤ total ThreadCall.timers calls) :
    ∃ before after s₁, calls = before ++ after ∧ Run Threads.system s before s₁ ∧
      Run Threads.system s₁ after s' ∧ s₁.running = t ∧
      total ThreadCall.timers before ≤ s.wait t + total ThreadCall.woken before := by
  have hstep : ∀ u e v, (SchedOk u ∧ t ∈ u.threadReadyList) → ¬ u.running = t →
      Threads.system.guard u e → Threads.system.exec u e = .ok v →
      e.timers ≤ u.wait t + e.woken ∧ (v.running = t ∨
        (SchedOk v ∧ t ∈ v.threadReadyList) ∧ v.wait t + e.timers ≤ u.wait t + e.woken) := by
    rintro u e v ⟨hok, hready⟩ - hg he
    have hone : e.timers ≤ 1 := by
      unfold ThreadCall.timers
      split <;> omega
    have hleft : 1 ≤ u.wait t := Nat.le_trans (Nat.le_add_left ..) (Nat.le_add_right ..)
    refine ⟨by omega, (hok.exec_waits hready hg he).imp_right
      (And.imp_left fun hmem => ⟨threads_keeps.preserves u e v hok hg he, hmem⟩)⟩
  have hok := hreach.invariant threads_keeps (threadInit_ok h₀)
  obtain hmet | ⟨-, hleft⟩ := hrun.meets hstep ⟨hok, ht⟩
  · exact hmet
  · have hpos : 1 ≤ s'.wait t := Nat.le_trans (Nat.le_add_left ..) (Nat.le_add_right ..)
    omega

/-! ## Every thread gets its share -/

/-- Nothing but time passes: each thread has run so long, and these have a full turn again. -/
structure Elapsed (s s' : Threads) (time : Nat → Nat) (full : Nat → Prop) : Prop where
  elapsed : ∀ u, (s'.task u).elapsedTicks = (s.task u).elapsedTicks + .ofNat (time u)
  priority : ∀ u, (s'.task u).priority = (s.task u).priority
  ticks : ∀ u, full u → (s'.task u).ticks = (s.task u).priority
  kept : ∀ u, ¬ full u → (s'.task u).ticks = (s.task u).ticks

/-- Interrupts are on, and will be for those that are ready. -/
structure Preemptible (s : Threads) : Prop where
  ok : SchedOk s
  on : s.intr = .INTR_ON
  resumes : ∀ u ∈ s.threadReadyList, (s.task u).resumes = .INTR_ON

/-- A tick of a turn that is not over. -/
theorem tick_run (h : Preemptible s) (hleft : (s.task s.running).ticks ≠ 0) :
    ∃ s', intrTimerHandler s = .ok s' ∧ Preemptible s' ∧ s'.running = s.running ∧
      s'.threadReadyList = s.threadReadyList ∧
      s'.task s.running = { s.task s.running with
        elapsedTicks := (s.task s.running).elapsedTicks + 1
        ticks := (s.task s.running).ticks - 1 } ∧
      ∀ u, u ≠ s.running → s'.task u = s.task u := by
  let k := { s.task s.running with
    elapsedTicks := (s.task s.running).elapsedTicks + 1
    ticks := (s.task s.running).ticks - 1 }
  obtain ⟨s', hs', hok, -⟩ := h.ok.intrTimerHandler_ok
  refine ⟨s', hs', ?_⟩
  simp only [intrTimerHandler, ASSERT_true (h.ok.magic _ h.ok.running_mem), ok_bind,
    if_neg hleft] at hs'
  have hother : ∀ u, u ≠ s.running → s'.task u = s.task u := by
    intro u hu
    cases hs'
    exact Threads.setTask_other _ _ _ _ hu
  have hself : s'.task s.running = k := by
    cases hs'
    exact Threads.setTask_self ..
  have hready : s'.threadReadyList = s.threadReadyList := by
    cases hs'
    rfl
  refine ⟨⟨hok, ?_, fun u hu => ?_⟩, ?_, hready, hself, hother⟩
  · cases hs'
    exact h.on
  · rw [hready] at hu
    have hne : u ≠ s.running := fun he => h.ok.running_not_ready (he ▸ hu)
    rw [hother u hne]
    exact h.resumes u hu
  · cases hs'
    rfl

/-- The last tick of a turn. -/
theorem switch_run (h : Preemptible s) (hup : (s.task s.running).ticks = 0)
    (hq : s.threadReadyList ++ [s.running] = next :: rest) :
    ∃ s', intrTimerHandler s = .ok s' ∧ Preemptible s' ∧ s'.running = next ∧
      s'.threadReadyList = rest ∧
      Elapsed s s' (fun u => if u = s.running then 1 else 0) (· = s.running) := by
  let k := { s.task s.running with elapsedTicks := (s.task s.running).elapsedTicks + 1 }
  let s₁ := ({ s with ticks := s.ticks + 1, intr := .INTR_OFF } : Threads).setTask s.running k
  have hself : s₁.task s.running = k := Threads.setTask_self ..
  have hother : ∀ u, u ≠ s.running → s₁.task u = s.task u :=
    fun u hu => Threads.setTask_other _ _ _ _ hu
  have hok₁ : SchedOk s₁ := h.ok.setTicks k rfl rfl (s.ticks + 1) .INTR_OFF
  have hrunning : (s₁.task s₁.running).status = .TASK_RUNNING := hok₁.running_status
  have hqueue : s₁.queue = next :: rest := by
    rw [Threads.queue, if_pos hrunning]
    exact hq
  obtain ⟨s', hs', hok, -⟩ := h.ok.intrTimerHandler_ok
  refine ⟨s', hs', ?_⟩
  simp only [intrTimerHandler, ASSERT_true (h.ok.magic _ h.ok.running_mem), ok_bind,
    if_pos hup] at hs'
  have hpass := schedule_passes ⟨hok₁.toQueued, fun t ht => (hok₁.one t ht).mp⟩ rfl hqueue hs'
  have hresumes : ∀ u, u ∈ s.threadReadyList ∨ u = s.running →
      (s'.task u).resumes = .INTR_ON := by
    intro u hu
    rw [hpass.resumes]
    by_cases hrun : u = s.running
    · exact (if_pos hrun).trans h.on
    · exact (if_neg hrun).trans (by rw [hother u hrun]; exact h.resumes u (hu.resolve_right hrun))
  have hmem : ∀ u, u ∈ next :: rest → u ∈ s.threadReadyList ∨ u = s.running := by
    intro u hu
    rw [← hq] at hu
    exact (List.mem_append.mp hu).imp_right List.mem_singleton.mp
  refine ⟨⟨hok, ?_, fun u hu => hresumes u (hmem u (hpass.ready ▸ List.mem_cons_of_mem next hu))⟩,
    hpass.running, hpass.ready, fun u => ?_, fun u => ?_, fun u hu => ?_, fun u hu => ?_⟩
  · have hnext := hresumes next (hmem next List.mem_cons_self)
    rw [hpass.resumes] at hnext
    exact hpass.intr.trans hnext
  · rw [hpass.elapsed]
    by_cases hu : u = s.running
    · rw [hu, hself, if_pos rfl]
      rfl
    · rw [hother u hu, if_neg hu]
      exact (UInt32.add_zero _).symm
  · rw [hpass.priority]
    by_cases hu : u = s.running
    · rw [hu, hself]
    · rw [hother u hu]
  · rw [hpass.ticks, hu, if_pos ⟨rfl, hrunning⟩, hself]
  · rw [hpass.ticks, if_neg fun hboth => hu hboth.1, hother u hu]

/-- A turn: the next thread of the list runs, and the one before is at its end. -/
theorem turn_run (n : Nat) (h : Preemptible s) (hn : (s.task s.running).ticks.toNat = n)
    (hq : s.threadReadyList ++ [s.running] = next :: rest) :
    ∃ s', Run Threads.system s (List.replicate (n + 1) .timer) s' ∧ Preemptible s' ∧
      s'.running = next ∧ s'.threadReadyList = rest ∧
      Elapsed s s' (fun u => if u = s.running then n + 1 else 0) (· = s.running) := by
  induction n generalizing s with
  | zero =>
    obtain ⟨s', hs', hon, hrun, hready, htime⟩ := switch_run h (UInt8.toNat_inj.mp hn) hq
    exact ⟨s', .cons h.on hs' (.nil s'), hon, hrun, hready, htime⟩
  | succ n ih =>
    have hleft : (s.task s.running).ticks ≠ 0 := by
      intro hz
      rw [hz] at hn
      cases hn
    obtain ⟨s₁, hs₁, hon₁, hrun₁, hready₁, hself, hother⟩ := tick_run h hleft
    have hsub : ((s.task s.running).ticks - 1).toNat = n := by
      rw [UInt8.toNat_sub_of_le _ _ (UInt8.le_iff_toNat_le.mpr (hn ▸ Nat.le_add_left 1 n)), hn]
      rfl
    obtain ⟨s', hrun, hon, hnext, hready, htime⟩ := ih hon₁ (by rw [hrun₁, hself]; exact hsub)
      (by rw [hready₁, hrun₁]; exact hq)
    rw [hrun₁] at htime
    have hpriority : ∀ u, (s₁.task u).priority = (s.task u).priority := by
      intro u
      by_cases hu : u = s.running
      · rw [hu, hself]
      · rw [hother u hu]
    refine ⟨s', .cons h.on hs₁ hrun, hon, hnext, hready, fun u => ?_, fun u => ?_, fun u hu => ?_,
      fun u hu => ?_⟩
    · rw [htime.elapsed]
      by_cases hu : u = s.running
      · rw [if_pos hu, if_pos hu, hu, hself, UInt32.add_assoc, UInt32.add_comm 1,
          UInt32.ofNat_add (n + 1)]
        rfl
      · rw [if_neg hu, if_neg hu, hother u hu]
    · exact (htime.priority u).trans (hpriority u)
    · exact (htime.ticks u hu).trans (hpriority u)
    · exact (htime.kept u hu).trans (congrArg TaskStruct.ticks (hother u hu))

theorem Elapsed.trans {s₁ : Threads} {time time' : Nat → Nat} {full full' : Nat → Prop}
    (h : Elapsed s s₁ time full) (h' : Elapsed s₁ s' time' full') :
    Elapsed s s' (fun u => time u + time' u) (fun u => full u ∨ full' u) := by
  refine ⟨fun u => ?_, fun u => (h'.priority u).trans (h.priority u), fun u hu => ?_, fun u hu => ?_⟩
  · rw [h'.elapsed, h.elapsed, UInt32.ofNat_add, UInt32.add_assoc]
  · by_cases hagain : full' u
    · exact (h'.ticks u hagain).trans (h.priority u)
    · exact (h'.kept u hagain).trans (h.ticks u (hu.resolve_right hagain))
  · exact (h'.kept u fun hf => hu (.inr hf)).trans (h.kept u fun hf => hu (.inl hf))

theorem Elapsed.congr {time time' : Nat → Nat} {full full' : Nat → Prop}
    (h : Elapsed s s' time full) (htime : ∀ u, time' u = time u) (hfull : ∀ u, full' u ↔ full u) :
    Elapsed s s' time' full' :=
  ⟨fun u => (h.elapsed u).trans (congrArg _ (congrArg _ (htime u).symm)), h.priority,
    fun u hu => h.ticks u ((hfull u).mp hu), fun u hu => h.kept u fun hf => hu ((hfull u).mpr hf)⟩

/-- The turns of the first threads of the queue: they are its last ones afterwards. -/
theorem turns_run (p : List Nat) {m : List Nat} (h : Preemptible s)
    (hq : s.running :: s.threadReadyList = p ++ m) :
    ∃ s', Run Threads.system s (List.replicate (total s.turn p) .timer) s' ∧ Preemptible s' ∧
      s'.running :: s'.threadReadyList = m ++ p ∧
      Elapsed s s' (fun u => if u ∈ p then s.turn u else 0) (· ∈ p) := by
  induction p generalizing s m with
  | nil =>
    refine ⟨s, .nil s, h, by rw [hq, List.append_nil, List.nil_append], fun u => ?_, fun u => rfl,
      fun u hu => absurd hu List.not_mem_nil, fun u _ => rfl⟩
    rw [if_neg List.not_mem_nil]
    exact (UInt32.add_zero _).symm
  | cons a p ih =>
    rw [List.cons_append] at hq
    obtain ⟨rfl, hrest⟩ := List.cons.inj hq
    have hnot : s.running ∉ p := fun hp =>
      h.ok.running_not_ready (hrest ▸ List.mem_append_left m hp)
    obtain ⟨next, rest, hcons⟩ : ∃ next rest, s.threadReadyList ++ [s.running] = next :: rest :=
      List.exists_cons_of_ne_nil (by simp)
    obtain ⟨s₁, hrun₁, hon₁, hnext₁, hready₁, htime₁⟩ := turn_run _ h rfl hcons
    have hq₁ : s₁.running :: s₁.threadReadyList = p ++ (m ++ [s.running]) := by
      rw [hnext₁, hready₁, ← hcons, hrest, List.append_assoc]
    obtain ⟨s', hrun, hon, hlist, htime⟩ := ih hon₁ hq₁
    have hturn : ∀ u ∈ p, s₁.turn u = s.turn u := by
      intro u hu
      rw [Threads.turn, htime₁.kept u fun he => hnot (he ▸ hu), Threads.turn]
    refine ⟨s', ?_, hon, by rw [hlist, List.append_assoc]; rfl, ?_⟩
    · have hall := hrun₁.append hrun
      rw [List.replicate_append_replicate, total_congr hturn] at hall
      rwa [total_cons]
    · refine (htime₁.trans htime).congr (fun u => ?_) fun u => List.mem_cons
      by_cases hu : u = s.running
      · rw [if_pos (hu ▸ List.mem_cons_self), if_pos hu, if_neg (hu ▸ hnot), Nat.add_zero, hu]
        rfl
      · by_cases hp : u ∈ p
        · rw [if_pos (List.mem_cons_of_mem _ hp), if_neg hu, if_pos hp, hturn u hp, Nat.zero_add]
        · rw [if_neg (by simp [hu, hp]), if_neg hu, if_neg hp]

/-- A thread's turn when it is full. -/
def Threads.fullTurn (s : Threads) (t : Nat) : Nat := (s.task t).priority.toNat + 1

/-- A round after the first: all turns are full. -/
theorem round_run {l : List Nat} (h : Preemptible s) (hq : s.running :: s.threadReadyList = l)
    (hfull : ∀ u ∈ l, (s.task u).ticks = (s.task u).priority) :
    ∃ s', Run Threads.system s (List.replicate (total s.fullTurn l) .timer) s' ∧ Preemptible s' ∧
      s'.running :: s'.threadReadyList = l ∧
      Elapsed s s' (fun u => if u ∈ l then s.fullTurn u else 0) (· ∈ l) := by
  have hturn : ∀ u ∈ l, s.turn u = s.fullTurn u := by
    intro u hu
    rw [Threads.turn, hfull u hu, Threads.fullTurn]
  obtain ⟨s', hrun, hon, hlist, htime⟩ := turns_run l h (hq.trans (List.append_nil l).symm)
  rw [total_congr hturn] at hrun
  refine ⟨s', hrun, hon, hlist, htime.congr (fun u => ?_) fun u => .rfl⟩
  by_cases hu : u ∈ l
  · rw [if_pos hu, if_pos hu, hturn u hu]
  · rw [if_neg hu, if_neg hu]

/-- While there are only timer interrupts, each thread of the queue has what is left of its turn
and then, in each further round, as many ticks as its priority says and one more. -/
theorem rounds_run (h : Preemptible s) (k : Nat) :
    let l := s.running :: s.threadReadyList
    ∃ s', Run Threads.system s
        (List.replicate (total s.turn l + k * total s.fullTurn l) .timer) s' ∧
      Preemptible s' ∧ s'.running :: s'.threadReadyList = l ∧
      Elapsed s s' (fun u => if u ∈ l then s.turn u + k * s.fullTurn u else 0) (· ∈ l) := by
  intro l
  induction k with
  | zero =>
    obtain ⟨s', hrun, hon, hlist, htime⟩ := turns_run l h (List.append_nil l).symm
    refine ⟨s', by rwa [Nat.zero_mul, Nat.add_zero], hon, hlist, htime.congr (fun u => ?_)
      fun u => .rfl⟩
    rw [Nat.zero_mul, Nat.add_zero]
  | succ k ih =>
    obtain ⟨s₁, hrun₁, hon₁, hlist₁, htime₁⟩ := ih
    have hturn : s₁.fullTurn = s.fullTurn := by
      funext u
      rw [Threads.fullTurn, htime₁.priority, Threads.fullTurn]
    obtain ⟨s', hrun, hon, hlist, htime⟩ := round_run hon₁ hlist₁ fun u hu => by
      rw [htime₁.ticks u hu, htime₁.priority]
    have hall := hrun₁.append hrun
    rw [List.replicate_append_replicate, hturn, Nat.add_assoc, ← Nat.succ_mul] at hall
    refine ⟨s', hall, hon, hlist, (htime₁.trans htime).congr (fun u => ?_) fun u => ?_⟩
    · by_cases hu : u ∈ l
      · simp only [if_pos hu, hturn, Nat.succ_mul]
        exact (Nat.add_assoc ..).symm
      · simp only [if_neg hu]
    · exact (or_self_iff).symm

end

/-- Interrupts are on: the main thread runs and the idle thread is ready. -/
def startedThreads : Threads := bootedThreads.setIntr .INTR_ON

theorem startedThreads_preemptible : Preemptible startedThreads where
  ok := (threadInit_ok threadInit_booted).setIntr .INTR_ON
  on := rfl
  resumes u hu := by
    obtain rfl : u = 0xc0100000 := List.mem_singleton.mp hu
    rfl

/-- The idle thread runs before the main thread's 33 ticks are over. -/
theorem waits_run_started : ∃ s', Run Threads.system startedThreads (List.replicate 33 .timer) s' ∧
    ∃ before after s₁, List.replicate 33 ThreadCall.timer = before ++ after ∧
      Run Threads.system startedThreads before s₁ ∧ Run Threads.system s₁ after s' ∧
      s₁.running = 0xc0100000 ∧
      total ThreadCall.timers before ≤ startedThreads.wait 0xc0100000 +
        total ThreadCall.woken before := by
  have hearlier : Run Threads.system bootedThreads [.intr .INTR_ON] startedThreads :=
    .cons trivial rfl (.nil _)
  obtain ⟨s', hrun, -⟩ := turn_run 32 startedThreads_preemptible rfl rfl
  exact ⟨s', hrun, waits_run threadInit_booted hearlier List.mem_cons_self hrun (by decide)⟩

/-- A hundred rounds of the two threads. -/
theorem rounds_run_started :
    ∃ s', Run Threads.system startedThreads (List.replicate (44 + 100 * 44) .timer) s' ∧
      Preemptible s' ∧
      s'.running :: s'.threadReadyList = startedThreads.running :: startedThreads.threadReadyList ∧
      Elapsed startedThreads s' (fun u => if u ∈ startedThreads.running ::
        startedThreads.threadReadyList then startedThreads.turn u + 100 * startedThreads.fullTurn u
        else 0) (· ∈ startedThreads.running :: startedThreads.threadReadyList) :=
  rounds_run startedThreads_preemptible 100

end ZhuOS
