import ZhuOS.PagingSteps

/-!
# Whole requests and the ledger

`malloc_page`, `get_a_page` and `mfree_page`: each call that returns has only added the
uses it was asked for, or taken them out.
-/

namespace ZhuOS

open Assignment PackedBits

/-- `F'` has the heap pages `i`, …, `i + cnt - 1` besides. -/
structure AddsHeap (F F' : Ledger) (i cnt : Nat) : Prop where
  fresh : ∀ j, i ≤ j → j < i + cnt → F (.heap j) = none
  used : ∀ j, i ≤ j → j < i + cnt → F' (.heap j) ≠ none
  other : ∀ u, (∀ j, i ≤ j → j < i + cnt → u ≠ .heap j) → F' u = F u

theorem AddsHeap.refl (F : Ledger) (i : Nat) : AddsHeap F F i 0 :=
  ⟨fun j hj hlt => by omega, fun j hj hlt => by omega, fun _ _ => rfl⟩

theorem AddsHeap.cons {F F' : Ledger} {i cnt f : Nat} (hn : F (.heap i) = none)
    (h : AddsHeap (Function.update F (.heap i) (some f)) F' (i + 1) cnt) :
    AddsHeap F F' i (cnt + 1) := by
  have hi : F' (.heap i) = some f := by
    rw [h.other _ fun j hj hlt he => by simp only [Use.heap.injEq] at he; omega]
    exact Function.update_self ..
  refine ⟨fun j hj hlt => ?_, fun j hj hlt => ?_, fun u hu => ?_⟩
  · by_cases he : j = i
    · exact he ▸ hn
    · have := h.fresh j (by omega) (by omega)
      rwa [Function.update_of_ne (by simpa using he)] at this
  · by_cases he : j = i
    · simp [he, hi]
    · exact h.used j (by omega) (by omega)
  · rw [h.other u fun j hj hlt => hu j (by omega) (by omega),
      Function.update_of_ne (hu i (Nat.le_refl _) (by omega))]

/-- What a process gets is its own. -/
def KeepsOthers (F F' : Ledger) (d : Nat) : Prop :=
  ∀ u, (∀ k, u ≠ .table d k) → (∀ p, u ≠ .user d p) → F' u = F u

theorem AddsUser.keepsOthers {F F' : Ledger} {d p f : Nat} (h : AddsUser F F' d p f) :
    KeepsOthers F F' d := fun u hk hp => h.other u (hp _) (hk _)

theorem KeepsOthers.refl (F : Ledger) (d : Nat) : KeepsOthers F F d := fun _ _ _ => rfl

theorem KeepsOthers.trans {F F' F'' : Ledger} {d : Nat} (h : KeepsOthers F F' d)
    (h' : KeepsOthers F' F'' d) : KeepsOthers F F'' d :=
  fun u hk hp => (h' u hk hp).trans (h u hk hp)

/-- The thread runs on, with other pages marked. -/
structure SameTask (t t' : Task) : Prop where
  pgdir : t'.pgdir = t.pgdir
  vaddrStart : t'.userprogVaddr.vaddrStart = t.userprogVaddr.vaddrStart
  size : t'.userprogVaddr.vaddrBitmap.size = t.userprogVaddr.vaddrBitmap.size

theorem SameTask.of_eq {t t' : Task} (h : t' = t) : SameTask t t' := by
  subst h
  exact ⟨rfl, rfl, rfl⟩

theorem SameTask.trans {t t' t'' : Task} (h : SameTask t t') (h' : SameTask t' t'') :
    SameTask t t'' :=
  ⟨h'.pgdir.trans h.pgdir, h'.vaddrStart.trans h.vaddrStart, h'.size.trans h.size⟩

theorem sameTask_setVaddrBitmap (m : Memory) (pf : PoolFlags) {b : Bitmap}
    (hb : b.size = (m.vaddrPool pf).vaddrBitmap.size) :
    SameTask m.running (m.setVaddrBitmap b pf).running := by
  cases pf with
  | PF_KERNEL => exact ⟨rfl, rfl, rfl⟩
  | PF_USER => exact ⟨rfl, rfl, hb⟩

/-- The uses that are taken out are pages `i`, …, `i + cnt - 1` of the heap. -/
def RemovesHeap (F F' : Ledger) (i cnt : Nat) : Prop :=
  ∀ u, (∀ j, i ≤ j → j < i + cnt → u ≠ .heap j) → F' u = F u

theorem u32_nextPage {i : Nat} (hi : i < HEAP_PAGES) :
    u32 (pageAddr i + PG_SIZE) = pageAddr (i + 1) := by
  unfold HEAP_PAGES at hi
  rw [u32_eq (by unfold pageAddr K_HEAP_START PG_SIZE; omega)]
  unfold pageAddr PG_SIZE
  omega

/-! ## `vaddr_get` -/

/-- A scan looks one bit past the map at most. -/
theorem bitmapScan_inside {b : Bitmap} {n s : Nat} (hn : 1 ≤ n)
    (h : bitmapScan b n = .ok (some s)) : s + n ≤ b.size + 1 := by
  by_cases hfree : ∃ i < b.size, b.bit i = false
  · obtain ⟨r, hr, hrun⟩ := bitmapScanIf_free true hn hfree
    rw [bitmapScanIf_debug, h] at hr
    cases hr
    have hin := hrun.inside
    unfold scanLimit at hin
    split at hin
    · omega
    · exact hin
  · have hfull := bitmapScanIf_full true n hfree
    rw [bitmapScanIf_debug, h] at hfull
    cases hfull

/-- The address `vaddr_get` makes of a bit. -/
def runAddr (va : VirtualAddr) (s : Nat) : PoolFlags → Nat
  | .PF_KERNEL => u32 (va.vaddrStart + s * PG_SIZE)
  | .PF_USER => u32 (va.vaddrStart + s + PG_SIZE)

theorem vaddrGet_ok {m m' : Memory} {pf : PoolFlags} {n : Nat} {v : Option Nat} (hn : 1 ≤ n)
    (h : vaddrGet m pf n = .ok (v, m')) : v = none ∧ m' = m ∨
      ∃ s, s + n ≤ (m.vaddrPool pf).vaddrBitmap.size + 1 ∧
        m' = m.setVaddrBitmap (bitmapSetRun true n s (m.vaddrPool pf).vaddrBitmap) pf ∧
        v = some (runAddr (m.vaddrPool pf) s pf) := by
  simp only [vaddrGet, bind_ok] at h
  obtain ⟨r, hr, h⟩ := h
  cases r with
  | none =>
    cases h
    exact .inl ⟨rfl, rfl⟩
  | some s =>
    refine .inr ⟨s, bitmapScan_inside hn hr, ?_⟩
    cases pf with
    | PF_KERNEL =>
      cases h
      exact ⟨rfl, rfl⟩
    | PF_USER =>
      obtain ⟨_, -, h⟩ := bind_ok.mp h
      cases h
      exact ⟨rfl, rfl⟩

/-- `get_a_page` marks a page of a process or of a kernel thread. -/
theorem markPage_ok {m m' : Memory} {pf : PoolFlags} {v : Nat}
    (h : markPage true m pf v = .ok m') : SamePools m m' ∧ m'.mmu = m.mmu ∧
      SameTask m.running m'.running ∧ (pf = .PF_USER ↔ m.running.pgdir ≠ none) := by
  simp only [markPage] at h
  split at h
  · rename_i hd
    obtain ⟨_, -, h⟩ := bind_ok.mp h
    cases h
    have hb := bitmapSet_size (m.vaddrPool .PF_USER).vaddrBitmap
      (sub32 v (m.vaddrPool .PF_USER).vaddrStart / PG_SIZE) true
    exact ⟨.of_setVaddrBitmap m _ hb, rfl, sameTask_setVaddrBitmap m _ hb, by simp [hd]⟩
  · rename_i hd
    obtain ⟨_, -, h⟩ := bind_ok.mp h
    cases h
    have hb := bitmapSet_size (m.vaddrPool .PF_KERNEL).vaddrBitmap
      (sub32 v (m.vaddrPool .PF_KERNEL).vaddrStart / PG_SIZE) true
    exact ⟨.of_setVaddrBitmap m _ hb, rfl, sameTask_setVaddrBitmap m _ hb, by simp [hd]⟩
  · cases h

namespace Books

variable {m m' : Memory} {dir : Nat → Option Nat} {F : Ledger} {o : Option Nat}

/-! ## `malloc_page` -/

theorem mapPages_heap (h : Books m dir F o) (cnt i : Nat) {r : Bool} (hend : i + cnt ≤ HEAP_PAGES)
    (hm : mapPages .PF_KERNEL cnt (pageAddr i) m = .ok (r, m')) :
    ∃ F', r = true ∧ Books m' dir F' o ∧ AddsHeap F F' i cnt ∧ m'.running = m.running := by
  induction cnt generalizing i m F with
  | zero =>
    cases hm
    exact ⟨F, rfl, h, .refl F i, rfl⟩
  | succ cnt ih =>
    obtain ⟨⟨page, p⟩, hp, hm⟩ := bind_ok.mp hm
    obtain ⟨_, _, _, rfl, -⟩ := palloc_ok hp
    obtain ⟨m₁, hadd, hm⟩ := bind_ok.mp hm
    obtain ⟨hn, f, h₁, hrun, -⟩ := h.mapHeap hp rfl (by omega) rfl hadd
    rw [u32_nextPage (by omega)] at hm
    obtain ⟨F', hr, h', hadds, hrun'⟩ := ih h₁ (i + 1) (by omega) hm
    exact ⟨F', hr, h', .cons hn hadds, hrun'.trans hrun⟩

theorem mallocPage_heap (h : Books m dir F o) {n : Nat} {r : Option Nat}
    (hm : mallocPage m .PF_KERNEL n = .ok (r, m')) :
    m'.running = m.running ∧ (r = none ∧ Books m' dir F o ∨
      ∃ i F', r = some (pageAddr i) ∧ 1 ≤ n ∧ Books m' dir F' o ∧ AddsHeap F F' i n) := by
  obtain ⟨_, hn, hm⟩ := bind_ok.mp hm
  have hn := ASSERT_ok hn
  obtain ⟨⟨v, m₁⟩, hget, hrest⟩ := bind_ok.mp hm
  obtain ⟨rfl, rfl⟩ | ⟨s, hs, rfl, hv⟩ := vaddrGet_ok hn.1 hget
  · cases hrest
    exact ⟨rfl, .inl ⟨rfl, h⟩⟩
  · have hvs := h.vsize
    have hs : s + n ≤ m.kernelVaddr.vaddrBitmap.size + 1 := hs
    have haddr : u32 (m.kernelVaddr.vaddrStart + s * PG_SIZE) = pageAddr s := by
      rw [h.vstart, u32_eq (by unfold K_HEAP_START PG_SIZE; omega), Nat.mul_comm]
      rfl
    have hv : v = some (pageAddr s) := hv.trans (congrArg some haddr)
    subst hv
    obtain ⟨⟨b, m₂⟩, hmap, hrest⟩ := bind_ok.mp hrest
    have h₁ : Books (m.setVaddrBitmap (bitmapSetRun true n s m.kernelVaddr.vaddrBitmap) .PF_KERNEL)
        dir F o := h.same (.of_setVaddrBitmap m .PF_KERNEL (bitmapSetRun_size ..)) rfl
    obtain ⟨F', rfl, h', hadds, hrun⟩ := h₁.mapPages_heap n s (by unfold HEAP_PAGES; omega) hmap
    cases hrest
    exact ⟨hrun, .inr ⟨s, F', rfl, hn.1, h', hadds⟩⟩

theorem mapPages_user {d : Nat} (h : Books m dir F (some d)) (cnt v : Nat) {r : Bool}
    (hend : v + PG_SIZE * cnt ≤ 0xc0000000)
    (hm : mapPages .PF_USER cnt v m = .ok (r, m')) :
    ∃ F', Books m' dir F' (some d) ∧ KeepsOthers F F' d ∧ m'.running = m.running := by
  unfold PG_SIZE at hend
  induction cnt generalizing v m F with
  | zero =>
    cases hm
    exact ⟨F, h, .refl F d, rfl⟩
  | succ cnt ih =>
    obtain ⟨⟨page, p⟩, hp, hm⟩ := bind_ok.mp hm
    obtain ⟨_, _, _, rfl, -⟩ := palloc_ok hp
    obtain ⟨m₁, hadd, hm⟩ := bind_ok.mp hm
    obtain ⟨D, hD, -⟩ := h.active
    obtain ⟨f, F₁, h₁, hmap⟩ := h.mapUser hD hp rfl (by omega) hadd
    have hnext : u32 (v + PG_SIZE) = v + 4096 := u32_eq (by unfold PG_SIZE; omega)
    rw [hnext] at hm
    obtain ⟨F', h', hkeep, hrun⟩ := ih h₁ (v + 4096) (by omega) hm
    exact ⟨F', h', hmap.keepsOthers.trans hkeep, hrun.trans hmap.running⟩

/-- The pages of a process: its addresses stay below the kernel's. -/
theorem mallocPage_user {d : Nat} (h : Books m dir F (some d)) {n : Nat} {r : Option Nat}
    (hstart : m.running.userprogVaddr.vaddrStart = USER_VADDR_START)
    (hsize : m.running.userprogVaddr.vaddrBitmap.size ≤ 0xb8000)
    (hm : mallocPage m .PF_USER n = .ok (r, m')) :
    ∃ F', Books m' dir F' (some d) ∧ KeepsOthers F F' d ∧ SameTask m.running m'.running := by
  obtain ⟨_, hn, hm⟩ := bind_ok.mp hm
  have hn := ASSERT_ok hn
  obtain ⟨⟨v, m₁⟩, hget, hrest⟩ := bind_ok.mp hm
  obtain ⟨rfl, rfl⟩ | ⟨s, hs, rfl, hv⟩ := vaddrGet_ok hn.1 hget
  · cases hrest
    exact ⟨F, h, .refl F d, .of_eq rfl⟩
  · have hs : s + n ≤ m.running.userprogVaddr.vaddrBitmap.size + 1 := hs
    have haddr : u32 (m.running.userprogVaddr.vaddrStart + s + PG_SIZE) = 0x8048000 + s + 4096 := by
      rw [hstart]
      unfold USER_VADDR_START PG_SIZE
      exact u32_eq (by omega)
    have hv : v = some (0x8048000 + s + 4096) := hv.trans (congrArg some haddr)
    subst hv
    obtain ⟨⟨b, m₂⟩, hmap, hrest⟩ := bind_ok.mp hrest
    have hset := bitmapSetRun_size true n s m.running.userprogVaddr.vaddrBitmap
    have h₁ := h.same (.of_setVaddrBitmap m .PF_USER hset) rfl
    obtain ⟨F', h', hkeep, hrun⟩ := h₁.mapPages_user n _ (by unfold PG_SIZE; omega) hmap
    cases hrest
    exact ⟨F', h', hkeep, (sameTask_setVaddrBitmap m .PF_USER hset).trans (.of_eq hrun)⟩

/-! ## `get_a_page` -/

theorem getAPage_heap (h : Books m dir F o) {v : Nat} {r : Option Nat} (hlo : K_HEAP_START ≤ v)
    (hin : (v - K_HEAP_START) / PG_SIZE < m.kernelVaddr.vaddrBitmap.size)
    (hg : getAPage true m .PF_KERNEL v = .ok (r, m')) :
    ∃ i F', r = some v ∧ v / PG_SIZE * PG_SIZE = pageAddr i ∧ Books m' dir F' o ∧
      AddsHeap F F' i 1 ∧ SameTask m.running m'.running := by
  obtain ⟨m₁, hmark, hg⟩ := bind_ok.mp hg
  obtain ⟨hs₁, hm₁, ht₁, -⟩ := markPage_ok hmark
  have h₁ : Books m₁ dir F o := h.same ((SamePools.of_lockPool m _).trans hs₁) hm₁
  obtain ⟨⟨page, p⟩, hp, hg⟩ := bind_ok.mp hg
  obtain ⟨k, -, -, rfl, -⟩ := palloc_ok hp
  obtain ⟨m₂, hadd, hg⟩ := bind_ok.mp hg
  obtain ⟨m₃, hun, hg⟩ := bind_ok.mp hg
  cases hg
  have hvs := h.vsize
  have hpage : v / 4096 = pageAddr ((v - K_HEAP_START) / PG_SIZE) / 4096 := by
    rw [pageAddr_div]
    unfold K_HEAP_START PG_SIZE at *
    omega
  obtain ⟨hn, f, h₂, hrun, -⟩ := h₁.mapHeap hp rfl (by unfold HEAP_PAGES; omega) hpage hadd
  obtain ⟨hs₃, hm₃, ht₃, -⟩ := unlockPool_same hun
  refine ⟨(v - K_HEAP_START) / PG_SIZE, _, rfl, ?_, h₂.same hs₃ hm₃, .cons hn (.refl _ _),
    (ht₁.trans (.of_eq hrun)).trans (.of_eq ht₃)⟩
  unfold pageAddr K_HEAP_START PG_SIZE at *
  omega

theorem getAPage_user {d : Nat} (h : Books m dir F (some d)) {v : Nat} {r : Option Nat}
    (hv : v < 0xc0000000) (hg : getAPage true m .PF_USER v = .ok (r, m')) :
    ∃ F', r = some v ∧ Books m' dir F' (some d) ∧ KeepsOthers F F' d ∧
      SameTask m.running m'.running := by
  obtain ⟨m₁, hmark, hg⟩ := bind_ok.mp hg
  obtain ⟨hs₁, hm₁, ht₁, -⟩ := markPage_ok hmark
  have h₁ : Books m₁ dir F (some d) := h.same ((SamePools.of_lockPool m _).trans hs₁) hm₁
  obtain ⟨⟨page, p⟩, hp, hg⟩ := bind_ok.mp hg
  obtain ⟨k, -, -, rfl, -⟩ := palloc_ok hp
  obtain ⟨m₂, hadd, hg⟩ := bind_ok.mp hg
  obtain ⟨m₃, hun, hg⟩ := bind_ok.mp hg
  cases hg
  obtain ⟨D, hD, -⟩ := h.active
  obtain ⟨f, F', h₂, hmap⟩ := h₁.mapUser hD hp rfl hv hadd
  obtain ⟨hs₃, hm₃, ht₃, -⟩ := unlockPool_same hun
  exact ⟨F', rfl, h₂.same hs₃ hm₃, hmap.keepsOthers,
    (ht₁.trans (.of_eq hmap.running)).trans (.of_eq ht₃)⟩

/-! ## `mfree_page` -/

theorem releasePages_heap (h : Books m dir F o) (inPool : Nat → Bool) (cnt i : Nat)
    (hsome : ∀ j, i ≤ j → j < i + cnt → F (.heap j) ≠ none)
    (hdir : ∀ j, i ≤ j → j < i + cnt → ∀ d, dir d ≠ some j)
    (hm : releasePages inPool cnt (pageAddr i) m = .ok m') :
    ∃ F', Books m' dir F' o ∧ RemovesHeap F F' i cnt ∧ m'.running = m.running := by
  induction cnt generalizing i m F with
  | zero =>
    cases hm
    exact ⟨F, h, fun _ _ => rfl, rfl⟩
  | succ cnt ih =>
    obtain ⟨f, hf⟩ := Option.ne_none_iff_exists'.mp (hsome i (Nat.le_refl _) (by omega))
    obtain ⟨D, hD, hc⟩ := h.active
    have hv2p := addrV2p_heapPage h.tables h.sound hD hc hf (h.frame_lt hf) rfl
    have hoff : pageAddr i % 4096 = 0 := by
      unfold pageAddr K_HEAP_START PG_SIZE
      omega
    rw [hoff, Nat.add_zero] at hv2p
    obtain ⟨m₁, hm₁, h₁, hrun, -⟩ :=
      h.releaseHeap hf (hdir i (Nat.le_refl _) (by omega))
    simp only [releasePages, hv2p, ok_bind, hm₁, u32_nextPage (h.sound.inRange _ _ hf)] at hm
    obtain ⟨_, -, hm⟩ := bind_ok.mp hm
    obtain ⟨F', h', hrem, hrun'⟩ := ih h₁ (i + 1)
      (fun j hj hlt => by
        rw [Function.update_of_ne (by simp only [ne_eq, Use.heap.injEq]; omega)]
        exact hsome j (by omega) (by omega))
      (fun j hj hlt => hdir j (by omega) (by omega)) hm
    refine ⟨F', h', fun u hu => ?_, hrun'.trans hrun⟩
    rw [hrem u fun j hj hlt => hu j (by omega) (by omega),
      Function.update_of_ne (hu i (Nat.le_refl _) (by omega))]

theorem mfreePage_heap (h : Books m dir F o) {i n : Nat}
    (hsome : ∀ j, i ≤ j → j < i + n → F (.heap j) ≠ none)
    (hdir : ∀ j, i ≤ j → j < i + n → ∀ d, dir d ≠ some j)
    (hm : mfreePage m .PF_KERNEL (pageAddr i) n = .ok m') :
    ∃ F', Books m' dir F' o ∧ RemovesHeap F F' i n ∧ SameTask m.running m'.running := by
  obtain ⟨_, -, hm⟩ := bind_ok.mp hm
  obtain ⟨pa, -, hm⟩ := bind_ok.mp hm
  obtain ⟨_, -, hm⟩ := bind_ok.mp hm
  have hloop : ∃ inPool m₁, releasePages inPool n (pageAddr i) m = .ok m₁ ∧
      m' = vaddrRemove m₁ .PF_KERNEL (pageAddr i) n := by
    dsimp only at hm
    split at hm
    · obtain ⟨m₁, hm₁, hm⟩ := bind_ok.mp hm
      cases hm
      exact ⟨_, m₁, hm₁, rfl⟩
    · obtain ⟨m₁, hm₁, hm⟩ := bind_ok.mp hm
      cases hm
      exact ⟨_, m₁, hm₁, rfl⟩
  obtain ⟨inPool, m₁, hm₁, rfl⟩ := hloop
  obtain ⟨F', h₁, hrem, hrun⟩ := h.releasePages_heap inPool n i hsome hdir hm₁
  exact ⟨F', h₁.same (.of_setVaddrBitmap m₁ .PF_KERNEL (bitmapSetRun_size ..)) rfl, hrem,
    .of_eq hrun⟩

end Books

end ZhuOS
