import ZhuOS.PagingCalls

/-!
# The pages of a process

What `malloc_page` maps for a process it had not mapped before, and what `mfree_page` takes away
is what it was asked to. The address need not be the one the marks stand for.
-/

namespace ZhuOS

/-- Process `d` keeps the pages it has. -/
def KeepsUser (F F' : Ledger) (d : Nat) : Prop := ∀ q, F (.user d q) ≠ none → F' (.user d q) ≠ none

/-- The pages `p`, …, `p + cnt - 1` of process `d` are new. -/
def NewUser (F F' : Ledger) (d p cnt : Nat) : Prop :=
  ∀ q, p ≤ q → q < p + cnt → F (.user d q) = none ∧ F' (.user d q) ≠ none

/-- The pages other than `p`, …, `p + cnt - 1` are as they were. -/
def DropsUser (F F' : Ledger) (d p cnt : Nat) : Prop :=
  ∀ q, ¬ (p ≤ q ∧ q < p + cnt) → F' (.user d q) = F (.user d q)

theorem AddsUser.keepsUser {F F' : Ledger} {d p f : Nat} (h : AddsUser F F' d p f) :
    KeepsUser F F' d := by
  intro q hq
  by_cases hqp : q = p
  · subst hqp
    exact absurd h.fresh hq
  · rw [h.other _ (by simpa using hqp) (by nofun)]
    exact hq

theorem pfree_frame (m : Memory) (a : Nat) : (pfree m a).mmu = m.mmu ∧
    (pfree m a).running = m.running ∧ (pfree m a).userPool.poolSize = m.userPool.poolSize := by
  unfold pfree Memory.setPool
  split
  · exact ⟨rfl, rfl, rfl⟩
  · exact ⟨rfl, rfl, rfl⟩

section Tables

variable {m : Memory} {dir : Nat → Option Nat} {F : Ledger} {d D v t : Nat}

/-- The table entry of a page of the process whose directory is active. -/
theorem userEntry (h : Tables m.mmu.phys dir F) (hD : dirFrame F dir (some d) = some D)
    (hc : m.mmu.cr3 = D * 4096) (hv : v < 0xc0000000) (ht : F (.table d (v / 2 ^ 22)) = some t) :
    m.mmu.load (ptePtr v) = .ok (m.mmu.phys t (v / 4096 % 1024)) ∧
      ∀ e, m.mmu.store (ptePtr v) e = .ok (m.mmu.put t (v / 4096 % 1024) e) := by
  have hpde := h.entries d D hD (v / 2 ^ 22) (by omega)
  rw [ht] at hpde
  have hpde : m.mmu.phys D (v / 2 ^ 22) = t * 4096 + 7 := hpde
  have hp : m.mmu.phys D (v / 2 ^ 22) % 2 = 1 := by
    rw [hpde]
    exact entry_present _
  constructor
  · rw [(h.root hD hc).load_ptePtr (by omega) hp, hpde, entry_div]
  · intro e
    rw [(h.root hD hc).store_ptePtr (by omega) e hp, hpde, entry_div]

end Tables

namespace Books

variable {m m' : Memory} {dir : Nat → Option Nat} {F : Ledger} {d : Nat}

/-- A page that is mapped has its table. -/
theorem userTable (h : Books m dir F (some d)) {v f : Nat}
    (hf : F (.user d (v / 4096)) = some f) : ∃ t, F (.table d (v / 2 ^ 22)) = some t ∧
      m.mmu.phys t (v / 4096 % 1024) = f * 4096 + 7 := by
  obtain ⟨D, hD, -⟩ := h.active
  have hlive := dirFrame_live hD
  have hp : 1024 * (v / 2 ^ 22) + v / 4096 % 1024 = v / 4096 := by omega
  cases ht : F (.table d (v / 2 ^ 22)) with
  | none =>
    have hn := h.tables.rooted d _ (v / 4096 % 1024) hlive (by omega) ht
    rw [hp, hf] at hn
    cases hn
  | some t =>
    have hpage := h.tables.pages d _ t hlive ht (v / 4096 % 1024) (by omega)
    rw [hp, hf] at hpage
    exact ⟨t, rfl, hpage⟩

theorem addrV2p_user (h : Books m dir F (some d)) {v f : Nat} (hv : v < 0xc0000000)
    (hf : F (.user d (v / 4096)) = some f) : addrV2p m v = .ok (f * 4096 + v % 4096) := by
  obtain ⟨D, hD, hc⟩ := h.active
  obtain ⟨t, ht, hentry⟩ := h.userTable hf
  have hframe : (f * 4096 + 7) &&& 0xfffff000 = f * 4096 := by
    rw [and_frame (entry_lt (h.frame_lt hf)), entry_div]
  simp only [addrV2p, (userEntry h.tables hD hc hv ht).1, ok_bind, hentry, hframe, and_offset]
  rfl

/-- One round of the loop of `mfree_page` for a process. -/
theorem releaseUser (h : Books m dir F (some d)) {v f : Nat} (hv : v < 0xc0000000)
    (hf : F (.user d (v / 4096)) = some f) :
    ∃ m', pageTablePteRemove (pfree m (f * 4096)) v = .ok m' ∧
      Books m' dir (Function.update F (.user d (v / 4096)) none) (some d) ∧
      m'.running = m.running ∧ m'.userPool.poolSize = m.userPool.poolSize := by
  obtain ⟨D, hD, hc⟩ := h.active
  obtain ⟨t, ht, -⟩ := h.userTable hf
  obtain ⟨hmmu, hrun, hsize⟩ := pfree_frame m (f * 4096)
  obtain ⟨hload, hstore⟩ := userEntry h.tables hD hc hv ht
  have hp : 1024 * (v / 2 ^ 22) + v / 4096 % 1024 = v / 4096 := by omega
  refine ⟨{ pfree m (f * 4096) with
      mmu := m.mmu.put t (v / 4096 % 1024) (m.mmu.phys t (v / 4096 % 1024) &&& 0xfffffffe) }, ?_,
    ⟨(h.toAccounts.pfree hf).congr (SamePools.of_mmu ..), ?_, D, ?_, ?_⟩, hrun, hsize⟩
  · simp only [pageTablePteRemove, hmmu, hload, hstore, ok_bind]
    rfl
  · have hset := h.tables.setUser h.sound ht (w := v / 4096 % 1024)
      (e := m.mmu.phys t (v / 4096 % 1024) &&& 0xfffffffe) (v := none) (by omega)
      (clear_present _)
    rwa [hp] at hset
  · rw [dirFrame_update_user]
    exact hD
  · exact hc

theorem mapPages_adds (h : Books m dir F (some d)) (cnt v : Nat) {r : Bool}
    (hend : v + 4096 * cnt ≤ 0xc0000000) (hm : mapPages .PF_USER cnt v m = .ok (r, m')) :
    ∃ F', Books m' dir F' (some d) ∧ KeepsUser F F' d ∧
      (r = true → NewUser F F' d (v / 4096) cnt) ∧ m'.running = m.running ∧
      m'.userPool.poolSize = m.userPool.poolSize := by
  induction cnt generalizing v m F with
  | zero =>
    cases hm
    refine ⟨F, h, fun _ hq => hq, fun _ q hle hlt => ?_, rfl, rfl⟩
    omega
  | succ cnt ih =>
    obtain ⟨⟨page, p⟩, hp, hm⟩ := bind_ok.mp hm
    obtain ⟨_, -, -, rfl, rfl⟩ := palloc_ok hp
    obtain ⟨m₁, hadd, hm⟩ := bind_ok.mp hm
    obtain ⟨D, hD, -⟩ := h.active
    obtain ⟨f, F₁, h₁, hmap⟩ := h.mapUser hD hp rfl (by omega) hadd
    have hnext : u32 (v + PG_SIZE) = v + 4096 := u32_eq (by unfold PG_SIZE; omega)
    rw [hnext] at hm
    obtain ⟨F', h', hkeep, hnew, hrun, hsize⟩ := ih h₁ (v + 4096) (by omega) hm
    refine ⟨F', h', fun q hq => hkeep q (hmap.keepsUser q hq), fun hr q hle hlt => ?_,
      hrun.trans hmap.running, ?_⟩
    · by_cases hq : q = v / 4096
      · subst hq
        refine ⟨hmap.fresh, hkeep _ ?_⟩
        rw [hmap.page]
        nofun
      · obtain ⟨hnone, hsome⟩ := hnew hr q (by omega) (by omega)
        rw [hmap.other _ (by simpa using hq) (by nofun)] at hnone
        exact ⟨hnone, hsome⟩
    · rw [hsize, hmap.userPool]
      rfl

/-- The pages `malloc_page` returns were not mapped, whichever address it makes of its marks. -/
theorem mallocPage_new (h : Books m dir F (some d)) {n : Nat} {r : Option Nat}
    (hstart : m.running.userprogVaddr.vaddrStart = USER_VADDR_START)
    (hsize : m.running.userprogVaddr.vaddrBitmap.size ≤ 0xb8000)
    (hm : mallocPage m .PF_USER n = .ok (r, m')) :
    ∃ F', Books m' dir F' (some d) ∧ KeepsUser F F' d ∧ SameTask m.running m'.running ∧
      m'.userPool.poolSize = m.userPool.poolSize ∧ ∀ a, r = some a → 1 ≤ n ∧
        a + 4096 * n ≤ 0xc0000000 ∧ NewUser F F' d (a / 4096) n ∧
        ∃ s, bitmapScan m.running.userprogVaddr.vaddrBitmap n = .ok (some s) ∧
          a = USER_VADDR_START + s + PG_SIZE := by
  obtain ⟨_, hn, hm⟩ := bind_ok.mp hm
  have hn := ASSERT_ok hn
  obtain ⟨⟨v, m₁⟩, hget, hrest⟩ := bind_ok.mp hm
  obtain ⟨scan, hscan, hget⟩ := bind_ok.mp hget
  cases scan with
  | none =>
    cases hget
    cases hrest
    exact ⟨F, h, fun _ hq => hq, .of_eq rfl, rfl, nofun⟩
  | some s =>
    obtain ⟨_, -, hget⟩ := bind_ok.mp hget
    cases hget
    have hs : s + n ≤ m.running.userprogVaddr.vaddrBitmap.size + 1 :=
      bitmapScan_inside hn.1 hscan
    have haddr : u32 (m.running.userprogVaddr.vaddrStart + s + PG_SIZE) = 0x8048000 + s + 4096 := by
      rw [hstart]
      unfold USER_VADDR_START PG_SIZE
      exact u32_eq (by omega)
    obtain ⟨⟨b, m₂⟩, hmap, hrest⟩ := bind_ok.mp hrest
    have hmap : mapPages .PF_USER n (u32 (m.running.userprogVaddr.vaddrStart + s + PG_SIZE)) _ =
      .ok (b, m₂) := hmap
    rw [haddr] at hmap
    have hset := bitmapSetRun_size true n s m.running.userprogVaddr.vaddrBitmap
    have h₁ := h.same (.of_setVaddrBitmap m .PF_USER hset) rfl
    obtain ⟨F', h', hkeep, hnew, hrun, hpool⟩ := h₁.mapPages_adds n _ (by omega) hmap
    cases hrest
    refine ⟨F', h', hkeep, (sameTask_setVaddrBitmap m .PF_USER hset).trans (.of_eq hrun), hpool,
      fun a ha => ?_⟩
    cases b with
    | false => cases ha
    | true =>
      obtain rfl : 0x8048000 + s + 4096 = a := haddr.symm.trans (Option.some.inj ha)
      exact ⟨hn.1, by omega, hnew rfl, s, hscan, rfl⟩

theorem releasePages_user (h : Books m dir F (some d)) (inPool : Nat → Bool) (cnt v : Nat)
    (hend : v + 4096 * cnt ≤ 0xc0000000)
    (hsome : ∀ q, v / 4096 ≤ q → q < v / 4096 + cnt → F (.user d q) ≠ none)
    (hm : releasePages inPool cnt v m = .ok m') :
    ∃ F', Books m' dir F' (some d) ∧ DropsUser F F' d (v / 4096) cnt ∧ m'.running = m.running ∧
      m'.userPool.poolSize = m.userPool.poolSize := by
  induction cnt generalizing v m F with
  | zero =>
    cases hm
    exact ⟨F, h, fun _ _ => rfl, rfl, rfl⟩
  | succ cnt ih =>
    obtain ⟨f, hf⟩ := Option.ne_none_iff_exists'.mp (hsome _ (Nat.le_refl _) (by omega))
    obtain ⟨pa, hpa, hm⟩ := bind_ok.mp hm
    obtain ⟨_, hal, hm⟩ := bind_ok.mp hm
    rw [h.addrV2p_user (by omega) hf] at hpa
    cases hpa
    have hal := (ASSERT_ok hal).1
    have hoff : f * 4096 + v % 4096 = f * 4096 := by
      unfold PG_SIZE at hal
      omega
    rw [hoff] at hm
    obtain ⟨m₁, hm₁, h₁, hrun, hsize⟩ := h.releaseUser (by omega) hf
    have hnext : u32 (v + PG_SIZE) = v + 4096 := u32_eq (by unfold PG_SIZE; omega)
    simp only [hm₁, ok_bind, hnext] at hm
    obtain ⟨F', h', hdrop, hrun', hsize'⟩ := ih h₁ (v + 4096) (by omega)
      (fun q hle hlt => by
        rw [Function.update_of_ne (by simp only [ne_eq, Use.user.injEq, true_and]; omega)]
        exact hsome q (by omega) (by omega)) hm
    refine ⟨F', h', fun q hq => ?_, hrun'.trans hrun, hsize'.trans hsize⟩
    rw [hdrop q (by omega),
      Function.update_of_ne (by simp only [ne_eq, Use.user.injEq, true_and]; omega)]

theorem mfreePage_user (h : Books m dir F (some d)) {v n : Nat} (hend : v + 4096 * n ≤ 0xc0000000)
    (hsome : ∀ q, v / 4096 ≤ q → q < v / 4096 + n → F (.user d q) ≠ none)
    (hm : mfreePage m .PF_USER v n = .ok m') :
    ∃ F', Books m' dir F' (some d) ∧ DropsUser F F' d (v / 4096) n ∧
      SameTask m.running m'.running ∧ m'.userPool.poolSize = m.userPool.poolSize := by
  obtain ⟨_, -, hm⟩ := bind_ok.mp hm
  obtain ⟨pa, -, hm⟩ := bind_ok.mp hm
  obtain ⟨_, -, hm⟩ := bind_ok.mp hm
  have hloop : ∃ inPool m₁, releasePages inPool n v m = .ok m₁ ∧
      m' = vaddrRemove m₁ .PF_USER v n := by
    dsimp only at hm
    split at hm
    · obtain ⟨m₁, hm₁, hm⟩ := bind_ok.mp hm
      cases hm
      exact ⟨_, m₁, hm₁, rfl⟩
    · obtain ⟨m₁, hm₁, hm⟩ := bind_ok.mp hm
      cases hm
      exact ⟨_, m₁, hm₁, rfl⟩
  obtain ⟨inPool, m₁, hm₁, rfl⟩ := hloop
  obtain ⟨F', h₁, hdrop, hrun, hsize⟩ := h.releasePages_user inPool n v hend hsome hm₁
  have hset := bitmapSetRun_size false n
    (sub32 v m₁.running.userprogVaddr.vaddrStart / PG_SIZE) m₁.running.userprogVaddr.vaddrBitmap
  exact ⟨F', h₁.same (.of_setVaddrBitmap m₁ .PF_USER hset) rfl, hdrop,
    (SameTask.of_eq hrun).trans (sameTask_setVaddrBitmap m₁ .PF_USER hset), hsize⟩

end Books

end ZhuOS
