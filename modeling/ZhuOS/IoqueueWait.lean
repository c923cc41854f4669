import ZhuOS.Ioqueue

/-!
# `device/ioqueue.c`: who waits for whom

A thread that has the queue's lock sleeps with it in `ioq_wait`, and a thread that waits
for the lock does not test the queue again when it gets it. `Retested` and `Alone` say
when neither does harm.
-/

namespace ZhuOS

namespace IoqWorld

/-- The event puts the running thread to sleep in `ioq_wait`: it gets the lock. -/
def Sleeps (w : IoqWorld) : IoqEvent → IoqCall → Prop
  | .call call', call => call = call' ∧ call.Must w.ioq ∧ w.ioq.lock.semaphore.value = 1
  | .resume, call =>
    (∃ oldStatus, w.place w.sched.running = .locking call oldStatus) ∧
        w.ioq.lock.semaphore.value = 1 ∨
      w.place w.sched.running = .sleeping call ∧ call.Must w.ioq
  | .thread _, _ | .reorder _, _ => False

/-- A consumer goes to sleep over an empty queue alone, a producer over another. -/
def Retested (w : IoqWorld) (e : IoqEvent) : Prop :=
  ∀ call, w.Sleeps e call → (call.puts = false ↔ w.ioq.unread = [])

/-- Nobody goes to sleep while another waits for the lock. -/
def Alone (w : IoqWorld) (e : IoqEvent) : Prop :=
  ∀ call, w.Sleeps e call → ∀ t, t ≠ w.sched.running → ¬ w.Waits t

/-- The thread on a call's side. -/
def side (p c : Nat) (call : IoqCall) : Nat := if call.puts then p else c

theorem side_congr (p c : Nat) {call call' : IoqCall} (h : call.puts = call'.puts) :
    side p c call = side p c call' := by
  unfold side
  rw [h]

/-- `p` is the producer and `c` the consumer. -/
def Pair (p c : Nat) (w : IoqWorld) (e : IoqEvent) : Prop :=
  ∀ call, e = .call call → w.sched.running = side p c call

/-- Blocked inside the queue's functions. -/
def Stuck (w : IoqWorld) (t : Nat) : Prop := w.place t ≠ .outside ∧ w.sched.Blocked t

/-- The consumer in the slot sleeps over an empty queue. -/
def Awake (w : IoqWorld) : Prop := w.ioq.consumer ≠ none → w.ioq.unread = []

end IoqWorld

/-- What an event does to the queue. -/
inductive IoqStep (w : IoqWorld) (e : IoqEvent) (w' : IoqWorld) : Prop
  | threads (ioq : w'.ioq = w.ioq) (place : w'.place = w.place)
  | call (call : IoqCall) (event : e = .call call)
      (place : w.place w.sched.running = .outside) (outcome : IoqOutcome w call w')
      (must : w'.place w.sched.running ≠ .outside ↔ call.Must w.ioq)
  | resume (event : e = .resume) (resumed : Resumed w w')

theorem IoqInv.step {w w' : IoqWorld} {owner : Option Nat} (h : IoqInv w owner) {e : IoqEvent}
    (hg : w.guard e) (he : w.exec e = .ok w') : IoqStep w e w' := by
  cases e with
  | thread e =>
    obtain ⟨s', -, he⟩ := bind_ok.mp he
    cases he
    exact .threads rfl rfl
  | reorder l =>
    cases he
    exact .threads rfl rfl
  | call call =>
    obtain ⟨hp, hidle, hoff⟩ := hg
    obtain ⟨w'', hw'', -, hout, hmust⟩ := h.loop_ok hp hidle hoff call
    obtain rfl := Except.ok.inj (he.symm.trans hw'')
    exact .call call rfl hp hout hmust
  | resume =>
    obtain ⟨w'', hw'', -, hres⟩ := h.resume_ok hg
    obtain rfl := Except.ok.inj (he.symm.trans hw'')
    exact .resume rfl hres

/-! ## The consumer's slot -/

theorem IoqOutcome.awake {w w' : IoqWorld} {call : IoqCall} (h : IoqOutcome w call w')
    (ha : w.Awake) (hs : call = .getchar → w.ioq.lock.semaphore.value = 1 →
      w'.place w.sched.running ≠ .outside → w.ioq.unread = []) : w'.Awake := by
  intro hc
  cases h with
  | queues value place unread slots =>
    rw [unread]
    exact ha fun hn => hc ((slots .getchar).trans hn)
  | sleeps value place unread slots =>
    rw [unread]
    cases call with
    | getchar => exact hs rfl value (by simp [place])
    | putchar byte => exact ha fun hn => hc ((slots .getchar).trans hn)
  | gets call place byte unread consumer producer =>
    cases unread.symm.trans (ha (consumer ▸ hc))
  | puts byte call place unread producer consumer => exact absurd consumer hc

theorem Released.awake {w w' : IoqWorld} (h : Released w w') (ha : w.Awake) : w'.Awake := by
  intro hc
  rw [h.unread]
  exact ha fun hn => hc ((h.slots .getchar).trans hn)

theorem IoqStep.awake {w w' : IoqWorld} {e : IoqEvent} (h : IoqStep w e w') (ha : w.Awake)
    (hr : w.Retested e) : w'.Awake := by
  cases h with
  | threads ioq place =>
    intro hc
    rw [ioq] at hc ⊢
    exact ha hc
  | call call event place outcome must =>
    apply outcome.awake ha
    rintro rfl - hp
    exact must.mp hp
  | resume event resumed =>
    subst event
    cases resumed with
    | locking call oldStatus place outcome =>
      apply outcome.awake ha
      rintro rfl hv -
      exact (hr .getchar (.inl ⟨⟨oldStatus, place⟩, hv⟩)).mp rfl
    | sleeping call place w₁ released inv outcome must =>
      apply outcome.awake (released.awake ha)
      rintro rfl - hp
      rw [released.unread]
      exact must.mp (released.running ▸ hp)

/-! ## One producer and one consumer -/

/-- Each thread is on its side; nobody sleeps in vain; and while somebody is in a slot
nobody waits for the lock. -/
structure Duo (p c : Nat) (w : IoqWorld) : Prop where
  sleeping : ∀ t call, w.place t = .sleeping call → t = IoqWorld.side p c call
  locking : ∀ t call oldStatus, w.place t = .locking call oldStatus → t = IoqWorld.side p c call
  consumer : w.Awake
  producer : w.ioq.producer ≠ none → w.ioq.unread ≠ []
  alone : ∀ (call : IoqCall) (t : Nat), call.slot w.ioq = some t → ∀ u, ¬ w.Waits u

theorem IoqOutcome.duo {p c : Nat} {w w' : IoqWorld} {owner : Option Nat} {call : IoqCall}
    (h : IoqOutcome w call w') (hinv : IoqInv w owner) (hd : Duo p c w)
    (hside : w.sched.running = IoqWorld.side p c call)
    (hqueue : w.ioq.lock.semaphore.value = 0 → w'.place w.sched.running ≠ .outside →
      ∀ call' : IoqCall, call'.slot w.ioq = none)
    (hsleep : w.ioq.lock.semaphore.value = 1 → w'.place w.sched.running ≠ .outside →
      (call.puts = false ↔ w.ioq.unread = []) ∧ ∀ t, t ≠ w.sched.running → ¬ w.Waits t) :
    Duo p c w' := by
  have hplace : ∀ {q : IoqPlace}, w'.place = w.setPlace q →
      (∀ call', q = .sleeping call' → call' = call) →
      (∀ call' oldStatus, q = .locking call' oldStatus → call' = call) →
      (∀ t call', w'.place t = .sleeping call' → t = IoqWorld.side p c call') ∧
      ∀ t call' oldStatus, w'.place t = .locking call' oldStatus →
        t = IoqWorld.side p c call' := by
    intro q hq hs hl
    rw [hq]
    refine ⟨fun t call' ht => ?_, fun t call' oldStatus ht => ?_⟩
    · by_cases he : t = w.sched.running
      · subst he
        rw [hs call' ((w.setPlace_self q).symm.trans ht)]
        exact hside
      · exact hd.sleeping t call' ((w.setPlace_other q he).symm.trans ht)
    · by_cases he : t = w.sched.running
      · subst he
        rw [hl call' oldStatus ((w.setPlace_self q).symm.trans ht)]
        exact hside
      · exact hd.locking t call' oldStatus ((w.setPlace_other q he).symm.trans ht)
  have hwaits : ∀ {q : IoqPlace}, w'.place = w.setPlace q →
      (∀ call' oldStatus, q ≠ .locking call' oldStatus) → ∀ u, w'.Waits u →
      u ≠ w.sched.running ∧ w.Waits u := by
    rintro q hq hl u ⟨call', old, hu⟩
    rw [hq] at hu
    have hne : u ≠ w.sched.running := by
      rintro rfl
      exact hl call' old ((w.setPlace_self q).symm.trans hu)
    exact ⟨hne, call', old, (w.setPlace_other q hne).symm.trans hu⟩
  cases h with
  | queues value place unread slots =>
    have hnone := hqueue value (by simp [place])
    obtain ⟨hs, hl⟩ := hplace place (by simp) fun call' _ he => (IoqPlace.locking.inj he).1.symm
    refine ⟨hs, hl, fun hc => ?_, fun hp => ?_, fun call' t ht => ?_⟩
    · exact absurd ((slots .getchar).trans (hnone .getchar)) hc
    · exact absurd ((slots (.putchar 0)).trans (hnone (.putchar 0))) hp
    · rw [slots, hnone] at ht
      cases ht
  | sleeps value place unread slots =>
    obtain ⟨hempty, halone⟩ := hsleep value (by simp [place])
    have hnone : ∀ call' : IoqCall, call'.slot w.ioq = none := by
      cases owner with
      | none => exact hinv.slot_none
      | some u => exact absurd (hinv.lock.2.2.symm.trans value) (by decide)
    obtain ⟨hs, hl⟩ := hplace place (fun call' he => (IoqPlace.sleeping.inj he).symm) (by simp)
    refine ⟨hs, hl, fun hc => ?_, fun hp => ?_, fun call' t ht u hu => ?_⟩
    · rw [unread]
      cases call with
      | getchar => exact hempty.mp rfl
      | putchar byte => exact absurd ((slots .getchar).trans (hnone .getchar)) hc
    · rw [unread]
      cases call with
      | getchar => exact absurd ((slots (.putchar 0)).trans (hnone (.putchar 0))) hp
      | putchar byte => exact fun he => nomatch hempty.mpr he
    · obtain ⟨hne, hu⟩ := hwaits place (by simp) u hu
      exact halone u hne hu
  | gets hcall place byte unread consumer producer =>
    obtain ⟨hs, hl⟩ := hplace place (by simp) (by simp)
    have hnone : w'.ioq.consumer = none := by
      rw [consumer]
      by_contra hc
      cases unread.symm.trans (hd.consumer hc)
    refine ⟨hs, hl, fun hc => absurd hnone hc, fun hp => absurd producer hp, fun call' t ht => ?_⟩
    cases call' with
    | getchar => cases hnone.symm.trans ht
    | putchar b => cases producer.symm.trans ht
  | puts byte hcall place unread producer consumer =>
    obtain ⟨hs, hl⟩ := hplace place (by simp) (by simp)
    refine ⟨hs, hl, fun hc => absurd consumer hc, fun _ => by simp [unread],
      fun call' t ht u hu => ?_⟩
    obtain ⟨-, hu⟩ := hwaits place (by simp) u hu
    cases call' with
    | getchar => cases consumer.symm.trans ht
    | putchar b => exact hd.alone (.putchar b) t (producer.symm.trans ht) u hu

theorem Released.duo {p c : Nat} {w w' : IoqWorld} (h : Released w w') (hd : Duo p c w) :
    Duo p c w' := by
  have hother : ∀ t, w'.place t ≠ .outside → w'.place t = w.place t := by
    intro t ht
    rw [h.place] at ht ⊢
    by_cases he : t = w.sched.running
    · subst he
      exact absurd (w.setPlace_self _) ht
    · exact w.setPlace_other _ he
  refine ⟨fun t call ht => hd.sleeping t call ?_, fun t call old ht => hd.locking t call old ?_,
    h.awake hd.consumer, fun hp => ?_, fun call t ht u hu => ?_⟩
  · exact (hother t (by simp [ht])).symm.trans ht
  · exact (hother t (by simp [ht])).symm.trans ht
  · rw [h.unread]
    exact hd.producer fun hn => hp ((h.slots (.putchar 0)).trans hn)
  · obtain ⟨call', old, hu⟩ := hu
    exact hd.alone call t ((h.slots call).symm.trans ht) u
      ⟨call', old, (hother u (by simp [hu])).symm.trans hu⟩

/-- A full queue has no sleeping consumer and an empty one no sleeping producer. -/
theorem Duo.no_slot {p c : Nat} {w : IoqWorld} {owner : Option Nat} (hd : Duo p c w)
    (hinv : IoqInv w owner) {call : IoqCall} (hp : w.place w.sched.running = .outside)
    (hside : w.sched.running = IoqWorld.side p c call) (hm : call.Must w.ioq)
    (call' : IoqCall) : call'.slot w.ioq = none := by
  cases hs : call'.slot w.ioq with
  | none => rfl
  | some t =>
    obtain ⟨⟨call'', hputs, ht⟩, -⟩ := (hinv.slots call' t).mp hs
    have hself : call'.puts ≠ call.puts := by
      -- it would be the running thread itself
      intro he
      have ht' := hd.sleeping t call'' ht
      rw [IoqWorld.side_congr p c (hputs.trans he), ← hside] at ht'
      cases (ht' ▸ hp : w.place t = .outside).symm.trans ht
    cases call' with
    | getchar =>
      have hempty : w.ioq.unread = [] := hd.consumer fun hn => nomatch hn.symm.trans hs
      cases call with
      | getchar => exact absurd rfl hself
      | putchar byte => exact absurd hm (by simp [IoqCall.Must, hempty])
    | putchar b =>
      have hne : w.ioq.unread ≠ [] := hd.producer fun hn => nomatch hn.symm.trans hs
      cases call with
      | getchar => exact absurd hm hne
      | putchar byte => exact absurd rfl hself

theorem IoqStep.duo {p c : Nat} {w w' : IoqWorld} {owner : Option Nat} {e : IoqEvent}
    (h : IoqStep w e w') (hinv : IoqInv w owner) (hd : Duo p c w) (hpair : w.Pair p c e)
    (hr : w.Retested e) (ha : w.Alone e) : Duo p c w' := by
  cases h with
  | threads ioq place =>
    refine ⟨place ▸ hd.sleeping, place ▸ hd.locking, ?_, ?_, ?_⟩
    · unfold IoqWorld.Awake
      rw [ioq]
      exact hd.consumer
    · rw [ioq]
      exact hd.producer
    · rw [ioq]
      intro call t ht u hu
      apply hd.alone call t ht u
      unfold IoqWorld.Waits at hu ⊢
      rwa [place] at hu
  | call call event place outcome must =>
    subst event
    have hside := hpair call rfl
    refine outcome.duo hinv hd hside (fun _ hp => hd.no_slot hinv place hside (must.mp hp))
      fun hv hp => ?_
    have hs : w.Sleeps (.call call) call := ⟨rfl, must.mp hp, hv⟩
    exact ⟨hr call hs, ha call hs⟩
  | resume event resumed =>
    subst event
    cases resumed with
    | locking call oldStatus place outcome =>
      refine outcome.duo hinv hd (hd.locking _ call oldStatus place) (fun _ _ call' => ?_)
        fun hv _ => ?_
      · cases hs : call'.slot w.ioq with
        | none => rfl
        | some t => exact absurd ⟨call, oldStatus, place⟩ (hd.alone call' t hs _)
      · have hs : w.Sleeps .resume call := .inl ⟨⟨oldStatus, place⟩, hv⟩
        exact ⟨hr call hs, ha call hs⟩
    | sleeping call place w₁ released inv outcome must =>
      have hside : w₁.sched.running = IoqWorld.side p c call :=
        released.running.trans (hd.sleeping _ call place)
      refine outcome.duo inv (released.duo hd) hside (fun hv _ => ?_) fun _ hp => ?_
      · exact absurd (hv.symm.trans released.value) (by decide)
      · have hs : w.Sleeps .resume call := .inr ⟨place, must.mp (released.running ▸ hp)⟩
        rw [released.unread]
        refine ⟨hr call hs, fun t ht hw => ha call hs t (released.running ▸ ht) ?_⟩
        obtain ⟨call', old, hw⟩ := hw
        rw [released.place, w.setPlace_other _ (released.running ▸ ht)] at hw
        exact ⟨call', old, hw⟩

/-- The two are never stuck both. -/
theorem Duo.not_stuck {p c : Nat} {w : IoqWorld} {owner : Option Nat} (hd : Duo p c w)
    (hinv : IoqInv w owner) (hne : p ≠ c) : ¬ (w.Stuck p ∧ w.Stuck c) := by
  rintro ⟨⟨hp, hpb⟩, ⟨hc, hcb⟩⟩
  have hside : ∀ call, IoqWorld.side p c call = p ∨ IoqWorld.side p c call = c := by
    intro call
    cases call with
    | getchar => exact .inr rfl
    | putchar byte => exact .inl rfl
  have hwait : ∀ t, w.place t ≠ .outside → owner ≠ some t → w.Waits t := by
    intro t ht ho
    cases hplace : w.place t with
    | outside => exact absurd hplace ht
    | locking call old => exact ⟨call, old, hplace⟩
    | sleeping call => exact absurd ((hinv.sleeper t).mp ⟨call, hplace⟩) ho
  cases owner with
  | none =>
    -- both wait for the lock, which is free
    have hmem : ∀ t, w.place t ≠ .outside → w.sched.Blocked t →
        t ∈ w.ioq.lock.semaphore.waiters := by
      intro t ht hb
      by_contra hn
      exact hinv.waiters.woken t (hwait t ht (by simp)) hn hb
    obtain ⟨t, ⟨call, old, ht⟩, hn⟩ := hinv.waiters.wake hinv.lock.2.2
      (List.ne_nil_of_mem (hmem p hp hpb))
    rcases hside call with he | he
    · exact hn ((hd.locking t call old ht).trans he ▸ hmem p hp hpb)
    · exact hn ((hd.locking t call old ht).trans he ▸ hmem c hc hcb)
  | some u =>
    -- one sleeps in its slot, and the other waits for the lock
    obtain ⟨call, hu⟩ := (hinv.sleeper u).mpr rfl
    have hslot : w.sched.Blocked u → ∀ v, ¬ w.Waits v := fun hb =>
      hd.alone call u ((hinv.slots call u).mpr ⟨⟨call, rfl, hu⟩, hb⟩)
    rcases hside call with he | he
    · obtain rfl := (hd.sleeping u call hu).trans he
      exact hslot hpb c (hwait c hc (by simpa using hne))
    · obtain rfl := (hd.sleeping u call hu).trans he
      exact hslot hcb p (hwait p hp (by simpa using hne.symm))

theorem awake_preserves : Guarded.Preserves (IoqWorld.system.only IoqWorld.Retested)
    fun w => (∃ owner, IoqInv w owner) ∧ w.Awake := by
  rintro w e w' ⟨⟨owner, hinv⟩, ha⟩ ⟨hg, hr⟩ he
  exact ⟨ioqueue_keeps.preserves w e w' ⟨owner, hinv⟩ hg he, (hinv.step hg he).awake ha hr⟩

theorem duo_preserves (p c : Nat) : Guarded.Preserves (IoqWorld.system.only fun w e =>
    w.Retested e ∧ w.Alone e ∧ w.Pair p c e)
    fun w => (∃ owner, IoqInv w owner) ∧ Duo p c w := by
  rintro w e w' ⟨⟨owner, hinv⟩, hd⟩ ⟨hg, hr, ha, hpair⟩ he
  exact ⟨ioqueue_keeps.preserves w e w' ⟨owner, hinv⟩ hg he,
    (hinv.step hg he).duo hinv hd hpair hr ha⟩

/-- A consumer never sleeps over a byte in a run in which those that wait for the lock
still have to when they get it; and if nobody goes to sleep while another waits for the
lock, a producer and a consumer are never stuck both. -/
theorem ioqueue_run_awake {s : Threads} (hs : SchedOk s) (buf : Fin 64 → UInt8) :
    (∀ events w, Guarded.Run (IoqWorld.system.only IoqWorld.Retested) (.start s buf) events w →
      w.Awake) ∧
    ∀ p c, p ≠ c → ∀ events w, Guarded.Run (IoqWorld.system.only fun w e =>
      w.Retested e ∧ w.Alone e ∧ w.Pair p c e) (.start s buf) events w →
      ¬ (w.Stuck p ∧ w.Stuck c) := by
  have hinv := ioqueue_start hs buf
  have hawake : (IoqWorld.start s buf).Awake := fun hc => absurd rfl hc
  refine ⟨fun events w hrun => ?_, fun p c hne events w hrun => ?_⟩
  · exact (hrun.preserved awake_preserves ⟨⟨none, hinv⟩, hawake⟩).2
  · have hd : Duo p c (IoqWorld.start s buf) :=
      ⟨fun _ _ hp => (nomatch hp), fun _ _ _ hp => (nomatch hp), hawake,
        fun hp => absurd rfl hp, fun call t ht => absurd (hinv.slot_none call) (by simp [ht])⟩
    obtain ⟨⟨owner, hinv⟩, hd⟩ := hrun.preserved (duo_preserves p c) ⟨⟨none, hinv⟩, hd⟩
    exact hd.not_stuck hinv hne

/-- The main thread sleeps over the empty queue. -/
theorem ioqueue_run_awake_sleeper : ∃ w, Guarded.Run (IoqWorld.system.only fun w e =>
      w.Retested e ∧ w.Alone e ∧ w.Pair 0xc0101000 0xc009e000 e)
      (.start bootedThreads fun _ => 0) [.call .getchar] w ∧
    w.Stuck 0xc009e000 ∧ ¬ (w.Stuck 0xc0101000 ∧ w.Stuck 0xc009e000) := by
  have hg : IoqWorld.guard (.start bootedThreads fun _ => 0) (.call .getchar) :=
    ⟨rfl, by decide, rfl⟩
  have hr : IoqWorld.Retested (.start bootedThreads fun _ => 0) (.call .getchar) := by
    rintro call ⟨rfl, hm, -⟩
    exact iff_of_true rfl hm
  have ha : IoqWorld.Alone (.start bootedThreads fun _ => 0) (.call .getchar) := by
    rintro call - t - ⟨_, _, hw⟩
    cases hw
  have hpair : IoqWorld.Pair 0xc0101000 0xc009e000 (.start bootedThreads fun _ => 0)
      (.call .getchar) := by
    rintro call ⟨⟩
    rfl
  have hrun : Guarded.Run (IoqWorld.system.only fun w e =>
      w.Retested e ∧ w.Alone e ∧ w.Pair 0xc0101000 0xc009e000 e)
      (.start bootedThreads fun _ => 0) [.call .getchar] _ := .cons ⟨hg, hr, ha, hpair⟩ rfl (.nil _)
  refine ⟨_, hrun, ⟨nofun, rfl⟩, ?_⟩
  exact (ioqueue_run_awake (threadInit_ok threadInit_booted) _).2 _ _ (by decide) _ _ hrun

/-! ## A producer and a consumer that are stuck -/

namespace IoqWorld

variable {w : IoqWorld} {call : IoqCall}

theorem loop_finish (hoff : w.sched.intr = .INTR_OFF) (hm : ¬ call.Must w.ioq) :
    w.loop call = w.finish call := by
  obtain ⟨b, hb, hmust⟩ := call.test_ok w.ioq hoff
  obtain rfl : b = false := by simpa [hm] using hmust
  simp only [loop, hb, ok_bind]
  rfl

theorem loop_locked (hoff : w.sched.intr = .INTR_OFF) (hm : call.Must w.ioq)
    {r : Bool × Threads × Lock} (hr : Lock.lockAcquire w.sched w.ioq.lock = .ok r) :
    w.loop call = w.locked call .INTR_OFF r := by
  obtain ⟨b, hb, hmust⟩ := call.test_ok w.ioq hoff
  obtain rfl := hmust.mpr hm
  simp only [loop, hb, ok_bind, ↓reduceIte, hr, hoff]

/-- The calls that change bytes alone leave this. -/
structure Same (w w' : IoqWorld) : Prop where
  sched : w'.sched = w.sched
  place : w'.place = w.place
  lock : w'.ioq.lock = w.ioq.lock
  slots : w'.ioq.producer = w.ioq.producer ∧ w'.ioq.consumer = w.ioq.consumer

/-- The running thread is in no call and nobody is in a slot. -/
structure Free (w : IoqWorld) : Prop where
  place : w.place w.sched.running = .outside
  idle : w.sched.running ≠ w.sched.idleThread
  off : w.sched.intr = .INTR_OFF
  producer : w.ioq.producer = none
  consumer : w.ioq.consumer = none

theorem Same.free {w' : IoqWorld} (h : Same w w') (hf : w.Free) : w'.Free :=
  ⟨by rw [h.sched, h.place]; exact hf.place, by rw [h.sched]; exact hf.idle,
    by rw [h.sched]; exact hf.off, h.slots.1.trans hf.producer, h.slots.2.trans hf.consumer⟩

theorem Same.trans {w' w'' : IoqWorld} (h : Same w w') (h' : Same w' w'') : Same w w'' :=
  ⟨h'.sched.trans h.sched, h'.place.trans h.place, h'.lock.trans h.lock,
    h'.slots.1.trans h.slots.1, h'.slots.2.trans h.slots.2⟩

theorem setPlace_same (hp : w.place w.sched.running = .outside) :
    w.setPlace .outside = w.place := by
  funext t
  by_cases he : t = w.sched.running
  · rw [he, w.setPlace_self, hp]
  · exact w.setPlace_other _ he

theorem Free.put (h : w.Free) (hm : w.ioq.unread.length < 63) (byte : UInt8) :
    ∃ w', w.exec (.call (.putchar byte)) = .ok w' ∧ Same w w' ∧
      w'.ioq.unread.length = w.ioq.unread.length + 1 := by
  have hwrite : Ring.held (Function.update w.ioq.buf w.ioq.head byte) (nextPos w.ioq.head)
      w.ioq.tail = w.ioq.unread ++ [byte] := by
    apply Ring.held_write _ _ _ _
    intro he
    exact absurd ((Ring.full_iff w.ioq.buf ..).mp he) (Nat.ne_of_lt hm)
  have hmust : ¬ (IoqCall.putchar byte).Must w.ioq := Nat.ne_of_lt hm
  simp only [exec, loop_finish h.off hmust, finish, storeByte,
    wakeupIf, h.consumer]
  refine ⟨_, rfl, ⟨rfl, setPlace_same h.place, rfl, rfl, h.consumer.symm⟩, ?_⟩
  refine (congrArg List.length hwrite).trans ?_
  simp

theorem Free.get (h : w.Free) (hm : w.ioq.unread ≠ []) :
    ∃ w', w.exec (.call .getchar) = .ok w' ∧ Same w w' ∧
      w'.ioq.unread.length + 1 = w.ioq.unread.length := by
  have hread : w.ioq.unread = w.ioq.buf w.ioq.tail ::
      Ring.held w.ioq.buf w.ioq.head (nextPos w.ioq.tail) :=
    Ring.held_read _ _ _ fun he => hm ((Ring.held_eq_nil ..).mpr he)
  have hmust : ¬ IoqCall.getchar.Must w.ioq := hm
  simp only [exec, loop_finish h.off hmust, finish, takeByte, wakeupIf,
    h.producer]
  refine ⟨_, rfl, ⟨rfl, setPlace_same h.place, rfl, h.producer.symm, rfl⟩, ?_⟩
  rw [hread]
  rfl

variable {p c : Nat}

theorem fill (hf : w.Free) (hp : w.sched.running = p) (n : Nat)
    (hn : w.ioq.unread.length + n ≤ 63) : ∃ w', Guarded.Reach (system.only (Pair p c)) w w' ∧
      Same w w' ∧ w'.ioq.unread.length = w.ioq.unread.length + n := by
  induction n with
  | zero => exact ⟨w, .refl w, ⟨rfl, rfl, rfl, rfl, rfl⟩, rfl⟩
  | succ n ih =>
    obtain ⟨w₁, hreach, hsame, hlen⟩ := ih (by omega)
    have hf₁ := hsame.free hf
    obtain ⟨w₂, hput, hsame', hlen'⟩ := hf₁.put (by omega) 7
    have hpair : w₁.Pair p c (.call (.putchar 7)) := by
      rintro call ⟨⟩
      exact (congrArg Threads.running hsame.sched).trans hp
    refine ⟨w₂, hreach.trans (.single (.call (.putchar 7))
      ⟨⟨hf₁.place, hf₁.idle, hf₁.off⟩, hpair⟩ hput), hsame.trans hsame', ?_⟩
    omega

theorem drain (hf : w.Free) (hc : w.sched.running = c) (n : Nat)
    (hn : w.ioq.unread.length = n) : ∃ w', Guarded.Reach (system.only (Pair p c)) w w' ∧
      Same w w' ∧ w'.ioq.unread = [] := by
  induction n generalizing w with
  | zero => exact ⟨w, .refl w, ⟨rfl, rfl, rfl, rfl, rfl⟩, List.length_eq_zero_iff.mp hn⟩
  | succ n ih =>
    obtain ⟨w₁, hget, hsame, hlen⟩ := hf.get (List.ne_nil_of_length_pos (by omega))
    obtain ⟨w₂, hreach, hsame', hempty⟩ := ih (hsame.free hf)
      ((congrArg Threads.running hsame.sched).trans hc) (by omega)
    have hpair : w.Pair p c (.call .getchar) := by
      rintro call ⟨⟩
      exact hc
    exact ⟨w₂, .trans (.single (.call .getchar) ⟨⟨hf.place, hf.idle, hf.off⟩, hpair⟩ hget) hreach,
      hsame.trans hsame', hempty⟩

/-- The first byte wakes the consumer in the slot. -/
theorem put_wakes (hoff : w.sched.intr = .INTR_OFF) (hm : w.ioq.unread = []) {t : Nat}
    (hc : w.ioq.consumer = some t) {s' : Threads} (hu : threadUnblock w.sched t = .ok s')
    (byte : UInt8) : ∃ w', w.exec (.call (.putchar byte)) = .ok w' ∧ w'.sched = s' ∧
      w'.place = w.setPlace .outside ∧ w'.ioq.lock = w.ioq.lock ∧
      w'.ioq.producer = w.ioq.producer ∧ w'.ioq.consumer = none ∧ w'.ioq.unread.length = 1 := by
  have hnot : ¬ (IoqCall.putchar byte).Must w.ioq := by simp [IoqCall.Must, hm]
  have hwrite : Ring.held (Function.update w.ioq.buf w.ioq.head byte) (nextPos w.ioq.head)
      w.ioq.tail = w.ioq.unread ++ [byte] :=
    Ring.held_write _ _ _ _ fun he => hnot ((Ring.full_iff ..).mp he)
  have hwake : wakeupIf w.sched w.ioq.consumer = .ok (s', none) := by
    simp only [wakeupIf, hc, ne_eq, reduceCtorEq, not_false_eq_true, ↓reduceIte, wakeup, hu,
      ok_bind]
    rfl
  simp only [exec, loop_finish hoff hnot, finish, storeByte, hwake, ok_bind]
  refine ⟨_, rfl, rfl, rfl, rfl, rfl, rfl, ?_⟩
  refine (congrArg List.length hwrite).trans ?_
  simp [hm]

theorem Free.sleeps (hf : w.Free) (hm : call.Must w.ioq) {lock : Lock} {s' : Threads}
    (hr : Lock.lockAcquire w.sched w.ioq.lock = .ok (true, w.sched, lock))
    (hb : threadBlock w.sched .TASK_BLOCKED = .ok s') :
    w.exec (.call call) = .ok { w with
      sched := s'
      ioq := call.setSlot { w.ioq with lock } (some w.sched.running)
      place := w.setPlace (.sleeping call) } := by
  have hslot : call.slot w.ioq = none := by
    cases call with
    | getchar => exact hf.consumer
    | putchar byte => exact hf.producer
  simp only [exec, loop_locked hf.off hm hr, locked, ioqWait, hslot, ASSERT_true, ok_bind, hb]
  rfl

theorem Free.queues (hf : w.Free) (hm : call.Must w.ioq) {lock : Lock} {s' : Threads}
    (hr : Lock.lockAcquire w.sched w.ioq.lock = .ok (false, s', lock)) :
    w.exec (.call call) = .ok { w with
      sched := s', ioq := { w.ioq with lock }, place := w.setPlace (.locking call .INTR_OFF) } := by
  simp only [exec, loop_locked hf.off hm hr, locked]
  rfl

end IoqWorld

/-- How the threads take turns when the main thread is the consumer and the producer a
new one. -/
structure StuckTurns (s₁ s₂ s₃ s₅ s₆ s₇ s₈ s₉ : Threads) (l₁ l₂ l₃ l₄ l₅ : Lock) : Prop where
  start : threadStart bootedThreads 0xc0101000 31 = .ok s₁
  consumerLocks : Lock.lockAcquire s₁ lockInit = .ok (true, s₁, l₁)
  consumerSleeps : threadBlock s₁ .TASK_BLOCKED = .ok s₂
  idleBlocks : threadBlock s₂ .TASK_BLOCKED = .ok s₃
  producerWakes : threadUnblock (s₃.setIntr .INTR_OFF) 0xc009e000 = .ok s₅
  producerQueues : Lock.lockAcquire s₅ l₁ = .ok (false, s₆, l₂)
  consumerReleases : Lock.lockRelease s₆ l₂ = .ok (s₇, l₃)
  consumerLocksAgain : Lock.lockAcquire s₇ l₃ = .ok (true, s₇, l₄)
  consumerSleepsAgain : threadBlock s₇ .TASK_BLOCKED = .ok s₈
  producerQueuesAgain : Lock.lockRound s₈ l₄ .INTR_OFF = .ok (false, s₉, l₅)
  running : s₁.running = 0xc009e000 ∧ s₂.running = 0xc0100000 ∧ s₃.running = 0xc0101000 ∧
    s₅.running = 0xc0101000 ∧ s₆.running = 0xc009e000 ∧ s₇.running = 0xc009e000 ∧
    s₈.running = 0xc0101000
  idle : s₁.idleThread = 0xc0100000 ∧ s₃.idleThread = 0xc0100000 ∧ s₅.idleThread = 0xc0100000 ∧
    s₇.idleThread = 0xc0100000
  off : s₁.intr = .INTR_OFF ∧ s₅.intr = .INTR_OFF ∧ s₇.intr = .INTR_OFF
  blocked : s₉.Blocked 0xc009e000 ∧ s₉.Blocked 0xc0101000

theorem stuckTurns : ∃ s₁ s₂ s₃ s₅ s₆ s₇ s₈ s₉ l₁ l₂ l₃ l₄ l₅,
    StuckTurns s₁ s₂ s₃ s₅ s₆ s₇ s₈ s₉ l₁ l₂ l₃ l₄ l₅ :=
  ⟨_, _, _, _, _, _, _, _, _, _, _, _, _, rfl, rfl, rfl, rfl, rfl, rfl, rfl, rfl, rfl, rfl,
    ⟨rfl, rfl, rfl, rfl, rfl, rfl, rfl⟩, ⟨rfl, rfl, rfl, rfl⟩, ⟨rfl, rfl, rfl⟩, ⟨rfl, rfl⟩⟩

/-- The queue is full; the consumer, woken, has the lock and the producer waits for it. -/
structure Filled (s : Threads) (lock : Lock) (w : IoqWorld) : Prop where
  sched : w.sched = s
  lock : w.ioq.lock = lock
  producer : w.ioq.producer = none
  consumer : w.ioq.consumer = none
  unread : w.ioq.unread.length = 63
  sleeping : w.place 0xc009e000 = .sleeping .getchar
  locking : w.place 0xc0101000 = .locking (.putchar 7) .INTR_OFF

theorem pair_get {w : IoqWorld} (hw : w.sched.running = 0xc009e000) :
    w.Pair 0xc0101000 0xc009e000 (.call .getchar) := by
  rintro call ⟨⟩
  exact hw

theorem pair_put {w : IoqWorld} (hw : w.sched.running = 0xc0101000) :
    w.Pair 0xc0101000 0xc009e000 (.call (.putchar 7)) := by
  rintro call ⟨⟩
  exact hw

theorem StuckTurns.filled {s₁ s₂ s₃ s₅ s₆ s₇ s₈ s₉ : Threads} {l₁ l₂ l₃ l₄ l₅ : Lock}
    (h : StuckTurns s₁ s₂ s₃ s₅ s₆ s₇ s₈ s₉ l₁ l₂ l₃ l₄ l₅) : ∃ w,
    Guarded.Reach (IoqWorld.system.only (IoqWorld.Pair 0xc0101000 0xc009e000))
      (.start bootedThreads fun _ => 0) w ∧ Filled s₆ l₂ w := by
  obtain ⟨hrun₁, hrun₂, hrun₃, hrun₅, hrun₆, -, -⟩ := h.running
  obtain ⟨hidle₁, hidle₃, hidle₅, -⟩ := h.idle
  obtain ⟨hoff₁, hoff₅, -⟩ := h.off
  have hne : (0xc009e000 : Nat) ≠ 0xc0101000 := by decide
  let M := IoqWorld.system.only (IoqWorld.Pair 0xc0101000 0xc009e000)
  -- the producer is started, and the consumer sleeps
  let w₁ : IoqWorld := .start s₁ fun _ => 0
  have hempty : w₁.ioq.unread = [] := (Ring.held_eq_nil ..).mpr rfl
  have hf₁ : w₁.Free := ⟨rfl, by simp [w₁, IoqWorld.start, hrun₁, hidle₁], hoff₁, rfl, rfl⟩
  have h₁ : Guarded.Reach M (.start bootedThreads fun _ => 0) w₁ := by
    have hnew : (0xc0101000 : Nat) ∉ bootedThreads.threadAllList := by decide
    refine .single (.thread (.start 0xc0101000 31)) ⟨⟨rfl, hnew, fun _ he => by cases he⟩, fun _ he => by cases he⟩ ?_
    show (do let s ← threadStart bootedThreads 0xc0101000 31; return _) = _
    rw [h.start]
    rfl
  have h₂ := Guarded.Reach.single (M := M) (.call .getchar)
    ⟨⟨hf₁.place, hf₁.idle, hf₁.off⟩, pair_get hrun₁⟩
    (hf₁.sleeps (show IoqCall.getchar.Must w₁.ioq from hempty) h.consumerLocks h.consumerSleeps)
  -- the idle thread blocks, and the producer runs
  let w₃ : IoqWorld := ⟨s₃,
    { ioqueueInit (fun _ => 0) with lock := l₁, consumer := some s₁.running },
    w₁.setPlace (.sleeping .getchar), [], []⟩
  have hout₃ : ∀ t, t ≠ 0xc009e000 → w₃.place t = .outside := fun t ht =>
    w₁.setPlace_other _ (hrun₁.symm ▸ ht)
  have h₃ : Guarded.Reach M { w₃ with sched := s₂ } w₃ := by
    refine .single (.thread (.block .TASK_BLOCKED)) ⟨⟨hout₃ _ ?_, rfl, fun _ he => by cases he⟩, fun _ he => by cases he⟩ ?_
    · rw [hrun₂]
      decide
    · show (do let s ← threadBlock s₂ .TASK_BLOCKED; return _) = _
      rw [h.idleBlocks]
      rfl
  let w₄ : IoqWorld := { w₃ with sched := s₃.setIntr .INTR_OFF }
  have hout₄ : w₄.place w₄.sched.running = .outside := hout₃ _ (hrun₃.symm ▸ hne.symm)
  have h₄ : Guarded.Reach M w₃ w₄ :=
    .single (.thread (.intr .INTR_OFF)) ⟨⟨hout₄, trivial, fun _ he => by cases he⟩, fun _ he => by cases he⟩ rfl
  -- it wakes the consumer, fills the queue and waits for the lock
  have hidle₄ : w₄.sched.running ≠ w₄.sched.idleThread := by
    show s₃.running ≠ s₃.idleThread
    rw [hrun₃, hidle₃]
    decide
  obtain ⟨w₅, he₅, hs₅, hp₅, hl₅, hpr₅, hc₅, hlen₅⟩ := w₄.put_wakes rfl hempty
    (congrArg some hrun₁) h.producerWakes 7
  have h₅ : Guarded.Reach M w₄ w₅ :=
    .single (.call (.putchar 7)) ⟨⟨hout₄, hidle₄, rfl⟩, pair_put hrun₃⟩ he₅
  have hf₅ : w₅.Free := by
    refine ⟨?_, ?_, hs₅ ▸ hoff₅, hpr₅, hc₅⟩
    · rw [hs₅, hrun₅, hp₅]
      exact if_pos hrun₃.symm
    · rw [hs₅, hrun₅, hidle₅]
      decide
  obtain ⟨w₆, h₆, hsame₆, hlen₆⟩ := IoqWorld.fill (c := 0xc009e000) hf₅
    ((congrArg Threads.running hs₅).trans hrun₅) 62 (by omega)
  have hf₆ := hsame₆.free hf₅
  have hs₆ : w₆.sched = s₅ := hsame₆.sched.trans hs₅
  have hrun : w₆.sched.running = 0xc0101000 := (congrArg Threads.running hs₆).trans hrun₅
  have hacquire : Lock.lockAcquire w₆.sched w₆.ioq.lock = .ok (false, s₆, l₂) := by
    rw [hs₆, hsame₆.lock, hl₅]
    exact h.producerQueues
  let w₇ : IoqWorld := { w₆ with
    sched := s₆
    ioq := { w₆.ioq with lock := l₂ }
    place := w₆.setPlace (.locking (.putchar 7) .INTR_OFF) }
  have h₇ : Guarded.Reach M w₆ w₇ :=
    .single (.call (.putchar 7)) ⟨⟨hf₆.place, hf₆.idle, hf₆.off⟩, pair_put hrun⟩
      (hf₆.queues (show (IoqCall.putchar 7).Must w₆.ioq by simp [IoqCall.Must, hlen₆, hlen₅])
        hacquire)
  have hp₇ : w₇.place 0xc009e000 = .sleeping .getchar := by
    refine (w₆.setPlace_other _ (hrun.symm ▸ hne)).trans ?_
    rw [hsame₆.place, hp₅]
    refine (w₄.setPlace_other _ ?_).trans (if_pos hrun₁.symm)
    show _ ≠ s₃.running
    rw [hrun₃]
    exact hne
  refine ⟨w₇, h₁.trans (h₂.trans (h₃.trans (h₄.trans (h₅.trans (h₆.trans h₇))))),
    rfl, rfl, hf₆.producer, hf₆.consumer, ?_, hp₇, if_pos hrun.symm⟩
  apply hlen₆.trans
  omega

/-- The consumer releases the lock, drains the queue and sleeps with the lock again; the
producer waits for it. -/
theorem StuckTurns.stuck {s₁ s₂ s₃ s₅ s₆ s₇ s₈ s₉ : Threads} {l₁ l₂ l₃ l₄ l₅ : Lock}
    (h : StuckTurns s₁ s₂ s₃ s₅ s₆ s₇ s₈ s₉ l₁ l₂ l₃ l₄ l₅) {w : IoqWorld}
    (hw : Filled s₆ l₂ w) : ∃ w',
    Guarded.Reach (IoqWorld.system.only (IoqWorld.Pair 0xc0101000 0xc009e000)) w w' ∧
      w'.Stuck 0xc0101000 ∧ w'.Stuck 0xc009e000 := by
  obtain ⟨-, -, -, -, hrun₆, hrun₇, hrun₈⟩ := h.running
  obtain ⟨-, -, -, hidle₇⟩ := h.idle
  obtain ⟨-, -, hoff₇⟩ := h.off
  have hne : (0xc0101000 : Nat) ≠ 0xc009e000 := by decide
  let M := IoqWorld.system.only (IoqWorld.Pair 0xc0101000 0xc009e000)
  have hs : w.sched.running = 0xc009e000 := (congrArg Threads.running hw.sched).trans hrun₆
  let r : IoqWorld := { w with
    sched := s₇, ioq := { w.ioq with lock := l₃ }, place := w.setPlace .outside }
  have hfr : r.Free := by
    refine ⟨if_pos (hrun₇.trans hs.symm), ?_, hoff₇, hw.producer, hw.consumer⟩
    show s₇.running ≠ s₇.idleThread
    rw [hrun₇, hidle₇]
    decide
  have hlenr : r.ioq.unread.length = 63 := hw.unread
  obtain ⟨w₈, he₈, hsame₈, hlen₈⟩ := hfr.get (List.ne_nil_of_length_pos (by omega))
  have h₈ : Guarded.Reach M w w₈ := by
    have hp : w.place w.sched.running = .sleeping .getchar := hs.symm ▸ hw.sleeping
    have hrelease : Lock.lockRelease w.sched w.ioq.lock = .ok (s₇, l₃) := by
      rw [hw.sched, hw.lock]
      exact h.consumerReleases
    refine .single .resume ⟨?_, nofun⟩ ?_
    · show w.place w.sched.running ≠ .outside
      simp [hp]
    · show w.resume = _
      simp only [IoqWorld.resume, hp, hrelease, ok_bind]
      exact he₈
  have hs₈ : w₈.sched = s₇ := hsame₈.sched
  obtain ⟨w₉, h₉, hsame₉, hempty₉⟩ := IoqWorld.drain (p := 0xc0101000) (hsame₈.free hfr)
    ((congrArg Threads.running hs₈).trans hrun₇) 62 (by omega)
  -- it sleeps with the lock again, and the producer waits for it
  have hsame := hsame₈.trans hsame₉
  have hf₉ := hsame.free hfr
  have hs₉ : w₉.sched = s₇ := hsame.sched
  have hacquire : Lock.lockAcquire w₉.sched w₉.ioq.lock = .ok (true, w₉.sched, l₄) := by
    rw [hs₉, hsame.lock]
    exact h.consumerLocksAgain
  have hrun₉ : w₉.sched.running = 0xc009e000 := (congrArg Threads.running hs₉).trans hrun₇
  have h₁₀ := Guarded.Reach.single (M := M) (.call .getchar)
    ⟨⟨hf₉.place, hf₉.idle, hf₉.off⟩, pair_get hrun₉⟩
    (hf₉.sleeps (show IoqCall.getchar.Must w₉.ioq from hempty₉) hacquire
      (hs₉ ▸ h.consumerSleepsAgain))
  let w₁₀ : IoqWorld := { w₉ with
    sched := s₈
    ioq := IoqCall.getchar.setSlot { w₉.ioq with lock := l₄ } (some w₉.sched.running)
    place := w₉.setPlace (.sleeping .getchar) }
  have hp₁₀ : w₁₀.place 0xc0101000 = .locking (.putchar 7) .INTR_OFF := by
    refine (w₉.setPlace_other _ (hrun₉.symm ▸ hne)).trans ?_
    rw [hsame.place]
    exact (w.setPlace_other _ (hs.symm ▸ hne)).trans hw.locking
  let w₁₁ : IoqWorld := { w₁₀ with
    sched := s₉
    ioq := { w₁₀.ioq with lock := l₅ }
    place := w₁₀.setPlace (.locking (.putchar 7) .INTR_OFF) }
  have h₁₁ : Guarded.Reach M w₁₀ w₁₁ := by
    have hp : w₁₀.place w₁₀.sched.running = .locking (.putchar 7) .INTR_OFF := hrun₈.symm ▸ hp₁₀
    refine .single .resume ⟨?_, nofun⟩ ?_
    · show w₁₀.place w₁₀.sched.running ≠ .outside
      simp [hp]
    · show w₁₀.resume = _
      simp only [IoqWorld.resume, hp]
      show (do let x ← Lock.lockRound s₈ l₄ .INTR_OFF; _) = _
      rw [h.producerQueuesAgain]
      rfl
  have hlocking : w₁₁.place 0xc0101000 = .locking (.putchar 7) .INTR_OFF := if_pos hrun₈.symm
  have hsleeping : w₁₁.place 0xc009e000 = .sleeping .getchar := by
    refine (w₁₀.setPlace_other _ ?_).trans (if_pos hrun₉.symm)
    exact hrun₈.symm ▸ hne.symm
  refine ⟨w₁₁, h₈.trans (h₉.trans (h₁₀.trans h₁₁)), ⟨?_, h.blocked.2⟩, ⟨?_, h.blocked.1⟩⟩
  · simp [hlocking]
  · simp [hsleeping]

/-- The consumer sleeps over the empty queue with the lock. The producer wakes it with
the first byte, fills the queue and waits for the lock. The consumer releases the lock,
drains the queue and sleeps with the lock again; the producer waits for it. -/
theorem ioqueue_run_stuck : ∃ events w,
    Guarded.Run (IoqWorld.system.only (IoqWorld.Pair 0xc0101000 0xc009e000))
      (.start bootedThreads fun _ => 0) events w ∧
    w.Stuck 0xc0101000 ∧ w.Stuck 0xc009e000 := by
  obtain ⟨_, _, _, _, _, _, _, _, _, _, _, _, _, h⟩ := stuckTurns
  obtain ⟨w, hreach, hw⟩ := h.filled
  obtain ⟨w', hreach', hstuck⟩ := h.stuck hw
  obtain ⟨events, hrun⟩ := hreach.trans hreach'
  exact ⟨events, w', hrun, hstuck⟩

end ZhuOS
