import ZhuOS.CopyPages

/-!
# Runs of the paging system

From the tables of `setup_page` on, every call leaves some ledger that the pools and the
page tables of all processes follow. What the kernel's addresses mean and what a frame
serves is read off it.
-/

namespace ZhuOS

open Assignment

/-- The pages of a process, as `create_user_vaddr_bitmap` makes them. -/
structure IsUserRange (va : VirtualAddr) : Prop where
  vaddrStart : va.vaddrStart = USER_VADDR_START
  size : va.vaddrBitmap.size = (0xc0000000 - USER_VADDR_START) / PG_SIZE / 8 * 8

theorem IsUserRange.of_sameTask {t t' : Task} (h : IsUserRange t.userprogVaddr)
    (hs : SameTask t t') : IsUserRange t'.userprogVaddr :=
  ⟨hs.vaddrStart.trans h.vaddrStart, hs.size.trans h.size⟩

theorem isUserRange_userRange (bits : Nat → UInt8) : IsUserRange (userRange bits) := ⟨rfl, rfl⟩

/-- The live ranges are pages in use, and no two share one. -/
structure LivePages (F : Ledger) (live : List PageRange) : Prop where
  used : ∀ r ∈ live, ∃ i, r.vaddr = pageAddr i ∧ 1 ≤ r.pgCnt ∧
    ∀ j, i ≤ j → j < i + r.pgCnt → F (.heap j) ≠ none
  apart : live.Pairwise PageRange.Apart

namespace LivePages

variable {F F' : Ledger} {live : List PageRange}

theorem congr (h : LivePages F live) (hF : ∀ i, F' (.heap i) = F (.heap i)) :
    LivePages F' live := by
  refine ⟨fun r hr => ?_, h.apart⟩
  obtain ⟨i, hi, hn, hused⟩ := h.used r hr
  exact ⟨i, hi, hn, fun j hj hlt => (hF j).symm ▸ hused j hj hlt⟩

theorem cons (h : LivePages F live) {i n : Nat} (hn : 1 ≤ n) (hadds : AddsHeap F F' i n) :
    LivePages F' (⟨pageAddr i, n⟩ :: live) := by
  refine ⟨fun r hr => ?_, List.pairwise_cons.mpr ⟨fun r hr => ?_, h.apart⟩⟩
  · rcases List.mem_cons.mp hr with rfl | hr
    · exact ⟨i, rfl, hn, hadds.used⟩
    · obtain ⟨k, hk, hpos, hused⟩ := h.used r hr
      refine ⟨k, hk, hpos, fun j hj hlt hnone => ?_⟩
      by_cases hin : i ≤ j ∧ j < i + n
      · exact hused j hj hlt (hadds.fresh j hin.1 hin.2)
      · rw [hadds.other] at hnone
        · exact hused j hj hlt hnone
        · intro l hl hll he
          simp only [Use.heap.injEq] at he
          omega
  · obtain ⟨k, hk, hpos, hused⟩ := h.used r hr
    obtain ⟨v, c⟩ := r
    dsimp only at hk hpos hused
    subst hk
    rw [apart_page]
    by_contra hover
    -- a common page would be in use before
    exact hused (max i k) (by omega) (by omega) (hadds.fresh (max i k) (by omega) (by omega))

theorem nodup (h : LivePages F live) : live.Nodup := by
  refine h.apart.imp_of_mem fun {r s} hr _ hrs he => ?_
  obtain ⟨i, hi, hn, -⟩ := h.used r hr
  subst he
  unfold PageRange.Apart PG_SIZE at hrs
  omega

theorem erase (h : LivePages F live) {i n : Nat} (hr : (⟨pageAddr i, n⟩ : PageRange) ∈ live)
    (hrem : RemovesHeap F F' i n) : LivePages F' (live.erase ⟨pageAddr i, n⟩) := by
  refine ⟨fun s hs => ?_, h.apart.sublist List.erase_sublist⟩
  obtain ⟨hne, hs⟩ := h.nodup.mem_erase_iff.mp hs
  obtain ⟨k, hk, hpos, hused⟩ := h.used s hs
  have hapart : s.Apart ⟨pageAddr i, n⟩ := h.apart.forall hs hr hne
  obtain ⟨v, c⟩ := s
  dsimp only at hk hpos hused ⊢
  subst hk
  rw [apart_page] at hapart
  refine ⟨k, rfl, hpos, fun j hj hlt => ?_⟩
  rw [hrem]
  · exact hused j hj hlt
  · intro l hl hll he
    simp only [Use.heap.injEq] at he
    omega

end LivePages

/-- The ledger of a state of the system; `dir` tells the heap page of each directory. -/
structure Balanced (w : Processes) (dir : Nat → Option Nat) (F : Ledger) : Prop where
  books : Books w.mem dir F w.current
  pgdir : ∀ d, w.pgdir d = (dir d).map pageAddr
  running : w.mem.running.pgdir = w.current.bind w.pgdir
  /-- a kernel thread has no pages of its own -/
  idle : w.current = none → w.mem.running.userprogVaddr.vaddrBitmap.size = 0
  range : w.current ≠ none → IsUserRange w.mem.running.userprogVaddr
  ranges : ∀ d, IsUserRange (w.userprogVaddr d)
  fresh : ∀ d, w.next ≤ d →
    dir d = none ∧ (∀ k, F (.table d k) = none) ∧ ∀ p, F (.user d p) = none
  live : LivePages F w.live

namespace Balanced

variable {w t : Processes} {dir : Nat → Option Nat} {F : Ledger}

theorem dirFrame_of (h : Balanced w dir F) (o : Option Nat)
    (ho : ∀ d, o = some d → w.pgdir d ≠ none) : ∃ D, dirFrame F dir o = some D := by
  cases o with
  | none => exact ⟨_, rfl⟩
  | some d =>
    have hd := ho d rfl
    rw [h.pgdir, ne_eq, Option.map_eq_none_iff] at hd
    obtain ⟨i, hi⟩ := Option.ne_none_iff_exists'.mp hd
    obtain ⟨D, hD⟩ := Option.ne_none_iff_exists'.mp (h.books.tables.dirs d i hi)
    exact ⟨D, dirFrame_eq hi hD⟩

theorem current_live (h : Balanced w dir F) {d : Nat} (hd : w.current = some d) :
    dir d ≠ none := by
  obtain ⟨D, hD, -⟩ := h.books.active
  rw [hd] at hD
  exact dirFrame_live hD

/-- The directory of a process, or of the kernel, as an address. -/
theorem bind_pgdir (h : Balanced w dir F) (o : Option Nat) :
    o.bind w.pgdir = (o.bind dir).map pageAddr := by
  cases o with
  | none => rfl
  | some d => exact h.pgdir d

/-- The memory has changed, with pages of the heap added. -/
theorem heap (h : Balanced w dir F) {mem : Memory} {F' : Ledger} {i n : Nat} (hn : 1 ≤ n)
    (hbooks : Books mem dir F' w.current) (hadds : AddsHeap F F' i n)
    (hs : SameTask w.mem.running mem.running) :
    Balanced { w with mem, live := ⟨pageAddr i, n⟩ :: w.live } dir F' := by
  refine ⟨hbooks, h.pgdir, hs.pgdir.trans h.running, fun hc => hs.size.trans (h.idle hc),
    fun hc => (h.range hc).of_sameTask hs, h.ranges, fun d hd => ?_, h.live.cons hn hadds⟩
  obtain ⟨hdir, htable, huser⟩ := h.fresh d hd
  exact ⟨hdir, fun k => (hadds.other _ fun _ _ _ => by nofun).trans (htable k),
    fun p => (hadds.other _ fun _ _ _ => by nofun).trans (huser p)⟩

/-- The memory has changed, with pages of one process added. -/
theorem own (h : Balanced w dir F) {mem : Memory} {F' : Ledger} {d : Nat} (hd : dir d ≠ none)
    (hbooks : Books mem dir F' w.current) (hkeep : KeepsOthers F F' d)
    (hs : SameTask w.mem.running mem.running) : Balanced { w with mem } dir F' := by
  refine ⟨hbooks, h.pgdir, hs.pgdir.trans h.running, fun hc => hs.size.trans (h.idle hc),
    fun hc => (h.range hc).of_sameTask hs, h.ranges, fun d' hd' => ?_,
    h.live.congr fun i => hkeep _ (fun _ => by nofun) (fun _ => by nofun)⟩
  obtain ⟨hdir, htable, huser⟩ := h.fresh d' hd'
  have hne : d' ≠ d := by
    rintro rfl
    exact hd hdir
  exact ⟨hdir, fun k => (hkeep _ (fun _ he => hne (by cases he; rfl)) (fun _ => by nofun)).trans
    (htable k), fun p => (hkeep _ (fun _ => by nofun) (fun _ he => hne (by cases he; rfl))).trans
    (huser p)⟩

theorem same (h : Balanced w dir F) {mem : Memory} (hbooks : Books mem dir F w.current)
    (hs : SameTask w.mem.running mem.running) : Balanced { w with mem } dir F :=
  ⟨hbooks, h.pgdir, hs.pgdir.trans h.running, fun hc => hs.size.trans (h.idle hc),
    fun hc => (h.range hc).of_sameTask hs, h.ranges, h.fresh, h.live⟩

/-- A page that may be written is a page in use and no directory. -/
theorem writable (h : Balanced w dir F) {page : Nat} (hw : w.Writable page)
    (hal : page % PG_SIZE = 0) : ∃ b B, page = pageAddr b ∧ Buffer dir F b B := by
  obtain ⟨⟨r, hr, hcov⟩, hdir⟩ := hw
  obtain ⟨i, hi, -, hused⟩ := h.live.used r hr
  obtain ⟨v, n⟩ := r
  dsimp only at hi hused
  subst hi
  have hpage : page = pageAddr ((page - K_HEAP_START) / PG_SIZE) := by
    have hge : pageAddr i ≤ page := hcov.1
    unfold pageAddr K_HEAP_START PG_SIZE at *
    omega
  rw [hpage, covers_page] at hcov
  obtain ⟨B, hB⟩ := Option.ne_none_iff_exists'.mp (hused _ hcov.1 hcov.2)
  refine ⟨_, B, hpage, hB, fun d hd => hdir d ?_⟩
  rw [h.pgdir, hd, Option.map_some, ← hpage]

/-! ## The calls -/

theorem switch (h : Balanced w dir F) {next : Option Nat}
    (hg : ∀ d, next = some d → w.pgdir d ≠ none) (he : w.switch next = .ok t) :
    Balanced t dir F := by
  obtain ⟨D, hD⟩ := h.dirFrame_of next hg
  obtain ⟨hact, hbooks⟩ := h.books.activate hD
  rw [← h.bind_pgdir] at hact
  simp only [Processes.switch, hact, ok_bind] at he
  have hranges : ∀ d, IsUserRange
      (if w.current = some d then w.mem.running.userprogVaddr else w.userprogVaddr d) := by
    intro d
    split
    · rename_i hc
      exact h.range (by simp [hc])
    · exact h.ranges d
  cases next with
  | none =>
    cases he
    exact ⟨hbooks.same (.of_running ..) rfl, h.pgdir, rfl, fun _ => rfl,
      fun hn => absurd rfl hn, hranges, h.fresh, h.live⟩
  | some d =>
    cases he
    exact ⟨hbooks.same (.of_running ..) rfl, h.pgdir, rfl, nofun, fun _ => hranges d, hranges,
      h.fresh, h.live⟩

theorem createPageDir (h : Balanced w dir F) {bits : Nat → UInt8}
    (he : w.exec (.createPageDir bits) = .ok t) : ∃ dir' F', Balanced t dir' F' := by
  obtain ⟨⟨a, mem⟩, hcreate, he⟩ := bind_ok.mp he
  obtain ⟨hrun, ⟨rfl, hbooks⟩ | ⟨i, F', rfl, hadds, hbooks⟩⟩ := h.books.createPageDir_ok hcreate
  · cases he
    exact ⟨dir, F, h.same hbooks (.of_eq hrun)⟩
  · cases he
    obtain ⟨hdir, htable, huser⟩ := h.fresh w.next (Nat.le_refl _)
    have hcur : ∀ d, w.current = some d → d ≠ w.next := by
      rintro d hd rfl
      exact h.current_live hd hdir
    refine ⟨Function.update dir w.next (some i), F', hbooks w.next hdir htable huser, fun d => ?_,
      ?_, fun hc => ?_, fun hc => ?_, fun d => ?_, fun d hd => ?_,
      h.live.cons (Nat.le_refl _) hadds⟩
    · show (if d = w.next then some (pageAddr i) else w.pgdir d) = _
      by_cases hd : d = w.next
      · rw [if_pos hd, hd, Function.update_self]
        rfl
      · rw [if_neg hd, Function.update_of_ne hd]
        exact h.pgdir d
    · show mem.running.pgdir = w.current.bind fun d =>
        if d = w.next then some (pageAddr i) else w.pgdir d
      rw [hrun, h.running]
      cases hc : w.current with
      | none => rfl
      | some d => simp [hcur d hc]
    · exact hrun ▸ h.idle hc
    · exact hrun ▸ h.range hc
    · show IsUserRange (if d = w.next then userRange bits else w.userprogVaddr d)
      split
      · exact isUserRange_userRange bits
      · exact h.ranges d
    · have hd : w.next + 1 ≤ d := hd
      obtain ⟨hdir, htable, huser⟩ := h.fresh d (by omega)
      refine ⟨?_, fun k => (hadds.other _ fun _ _ _ => by nofun).trans (htable k),
        fun p => (hadds.other _ fun _ _ _ => by nofun).trans (huser p)⟩
      rw [Function.update_of_ne (by omega)]
      exact hdir

theorem getAPage (h : Balanced w dir F) {pf : PoolFlags} {v : Nat}
    (hg : w.guard (.getAPage pf v)) (he : w.exec (.getAPage pf v) = .ok t) :
    ∃ F', Balanced t dir F' := by
  obtain ⟨⟨a, mem⟩, hget, he⟩ := bind_ok.mp he
  cases pf with
  | PF_KERNEL =>
    obtain ⟨i, F', rfl, hpage, hbooks, hadds, hs⟩ := h.books.getAPage_heap hg.1 hg.2 hget
    cases he
    exact ⟨F', hpage ▸ h.heap (Nat.le_refl _) hbooks hadds hs⟩
  | PF_USER =>
    have he : t = { w with mem } := by
      cases a <;> cases he <;> rfl
    subst he
    have hcur : w.current ≠ none := by
      intro hc
      obtain ⟨m₁, hmark, -⟩ := bind_ok.mp hget
      have hpgdir : (lockPool w.mem .PF_USER).running.pgdir = none := by
        show w.mem.running.pgdir = none
        rw [h.running, hc]
        rfl
      exact (markPage_ok hmark).2.2.2.mp rfl hpgdir
    obtain ⟨d, hd⟩ := Option.ne_none_iff_exists'.mp hcur
    have hbooks := h.books
    rw [hd] at hbooks
    obtain ⟨F', -, hbooks, hkeep, hs⟩ := hbooks.getAPage_user hg.2 hget
    rw [← hd] at hbooks
    exact ⟨F', h.own (h.current_live hd) hbooks hkeep hs⟩

theorem mallocPage (h : Balanced w dir F) {pf : PoolFlags} {n : Nat}
    (he : w.exec (.mallocPage pf n) = .ok t) : ∃ F', Balanced t dir F' := by
  obtain ⟨⟨a, mem⟩, hmalloc, he⟩ := bind_ok.mp he
  cases pf with
  | PF_KERNEL =>
    obtain ⟨hrun, ⟨rfl, hbooks⟩ | ⟨i, F', rfl, hn, hbooks, hadds⟩⟩ :=
      h.books.mallocPage_heap hmalloc
    · cases he
      exact ⟨F, h.same hbooks (.of_eq hrun)⟩
    · cases he
      exact ⟨F', h.heap hn hbooks hadds (.of_eq hrun)⟩
  | PF_USER =>
    have he : t = { w with mem } := by
      cases a <;> cases he <;> rfl
    subst he
    have hcur : w.current ≠ none := by
      intro hc
      -- a scan of an empty map fails
      obtain ⟨_, -, hmalloc⟩ := bind_ok.mp hmalloc
      obtain ⟨_, hget, -⟩ := bind_ok.mp hmalloc
      obtain ⟨_, hscan, -⟩ := bind_ok.mp hget
      have hsize := h.idle hc
      have hfull := bitmapScanIf_full (b := w.mem.running.userprogVaddr.vaddrBitmap) true n
        (by rintro ⟨i, hi, -⟩; omega)
      have hscan : bitmapScan w.mem.running.userprogVaddr.vaddrBitmap n = .ok _ := hscan
      rw [bitmapScanIf_debug, hscan] at hfull
      cases hfull
    obtain ⟨d, hd⟩ := Option.ne_none_iff_exists'.mp hcur
    have hrange := h.range hcur
    have hbooks := h.books
    rw [hd] at hbooks
    obtain ⟨F', hbooks, hkeep, hs⟩ := hbooks.mallocPage_user hrange.vaddrStart
      (by rw [hrange.size]; decide) hmalloc
    rw [← hd] at hbooks
    exact ⟨F', h.own (h.current_live hd) hbooks hkeep hs⟩

theorem copyBodyStack3 (h : Balanced w dir F) {child bufPage : Nat}
    (hg : w.guard (.copyBodyStack3 child bufPage))
    (he : w.exec (.copyBodyStack3 child bufPage) = .ok t) : ∃ F', Balanced t dir F' := by
  obtain ⟨mem, hcopy, he⟩ := bind_ok.mp he
  cases he
  obtain ⟨hcur, -, hchild, hal, hwrite⟩ := hg
  obtain ⟨d, hd⟩ := Option.ne_none_iff_exists'.mp hcur
  obtain ⟨b, B, rfl, hbuf⟩ := h.writable hwrite hal
  have hbooks := h.books
  rw [hd] at hbooks
  obtain ⟨E, hE⟩ := h.dirFrame_of (some child) fun c hc => by cases hc; exact hchild
  have hrange := h.range hcur
  rw [copyBodyStack3_eq, h.running, hd] at hcopy
  have hpgdir : w.pgdir child = (dir child).map pageAddr := h.pgdir child
  have hparent : (some d).bind w.pgdir = (dir d).map pageAddr := h.pgdir d
  rw [hpgdir, hparent] at hcopy
  have haddr : ∀ i ∈ w.mem.running.userprogVaddr.marked,
      u32 (i * PG_SIZE + w.mem.running.userprogVaddr.vaddrStart) < 0xc0000000 ∧
        u32 (i * PG_SIZE + w.mem.running.userprogVaddr.vaddrStart) % 4096 = 0 := by
    intro i hi
    have hlt := (VirtualAddr.mem_marked.mp hi).1
    rw [hrange.size] at hlt
    rw [hrange.vaddrStart]
    unfold USER_VADDR_START PG_SIZE at *
    rw [u32_eq (by omega)]
    omega
  obtain ⟨F', hbooks, hkeep, hrun⟩ := hbooks.copyPages_ok hbuf hE _ _ haddr hcopy
  rw [← hd] at hbooks
  exact ⟨F', h.own (dirFrame_live hE) hbooks hkeep (.of_eq hrun)⟩

theorem mfreePage (h : Balanced w dir F) {r : PageRange} (hg : w.guard (.mfreePage r))
    (he : w.exec (.mfreePage r) = .ok t) : ∃ dir' F', Balanced t dir' F' := by
  obtain ⟨mem, hfree, he⟩ := bind_ok.mp he
  cases he
  obtain ⟨hr, hactive⟩ := hg
  obtain ⟨i, hi, hn, hused⟩ := h.live.used r hr
  obtain ⟨v, n⟩ := r
  dsimp only at hi hn hused hfree
  subst hi
  -- the processes whose directory is released are over
  let dir' d := (dir d).filter fun j => decide ¬ (i ≤ j ∧ j < i + n)
  have hsub : ∀ d j, dir' d = some j → dir d = some j ∧ ¬ (i ≤ j ∧ j < i + n) := by
    intro d j hj
    have := Option.filter_eq_some_iff.mp hj
    exact ⟨this.1, of_decide_eq_true this.2⟩
  have hkept : ∀ d, w.current = some d → dir' d = dir d := by
    intro d hd
    obtain ⟨j, hj⟩ := Option.ne_none_iff_exists'.mp (h.current_live hd)
    have hrun : w.mem.running.pgdir = some (pageAddr j) := by
      rw [h.running, hd]
      exact (h.pgdir d).trans (by rw [hj]; rfl)
    have hout : ¬ (i ≤ j ∧ j < i + n) := fun hin => hactive _ hrun (covers_page.mpr hin)
    show (dir d).filter _ = dir d
    rw [hj]
    exact Option.filter_eq_some_iff.mpr ⟨rfl, decide_eq_true hout⟩
  have hbooks : Books w.mem dir' F w.current := by
    refine ⟨h.books.toAccounts, h.books.tables.drop fun d j hj => (hsub d j hj).1, ?_⟩
    obtain ⟨D, hD, hc⟩ := h.books.active
    refine ⟨D, ?_, hc⟩
    cases hcur : w.current with
    | none =>
      rw [hcur] at hD
      exact hD
    | some d =>
      rw [hcur] at hD
      simp only [dirFrame, hkept d hcur]
      exact hD
  obtain ⟨F', hbooks', hrem, hs⟩ := hbooks.mfreePage_heap hused
    (fun j hj hlt d hd => (hsub d j hd).2 ⟨hj, hlt⟩) hfree
  have hpgdir : ∀ d, ((w.pgdir d).filter fun a =>
      decide ¬ (pageAddr i ≤ a ∧ a < pageAddr i + PG_SIZE * n)) = (dir' d).map pageAddr := by
    intro d
    rw [h.pgdir]
    show _ = ((dir d).filter _).map pageAddr
    cases hd : dir d with
    | none => rfl
    | some j =>
      have hcov : (pageAddr i ≤ pageAddr j ∧ pageAddr j < pageAddr i + PG_SIZE * n) ↔
          i ≤ j ∧ j < i + n := covers_page
      simp only [Option.map_some, Option.filter_some, hcov]
      split <;> rfl
  refine ⟨dir', F', hbooks', hpgdir, ?_, fun hc => hs.size.trans (h.idle hc),
    fun hc => (h.range hc).of_sameTask hs, h.ranges, fun d hd => ?_, h.live.erase hr hrem⟩
  · rw [hs.pgdir, h.running]
    cases hc : w.current with
    | none => rfl
    | some d =>
      refine (h.pgdir d).trans ?_
      rw [← hkept d hc]
      exact (hpgdir d).symm
  · obtain ⟨hdir, htable, huser⟩ := h.fresh d hd
    refine ⟨?_, fun k => (hrem _ fun _ _ _ => by rintro ⟨⟩).trans (htable k),
      fun p => (hrem _ fun _ _ _ => by rintro ⟨⟩).trans (huser p)⟩
    show (dir d).filter _ = none
    rw [hdir]
    rfl

theorem write (h : Balanced w dir F) {vaddr value : Nat} (hg : w.guard (.write vaddr value))
    (he : w.exec (.write vaddr value) = .ok t) : Balanced t dir F := by
  obtain ⟨mmu, hstore, he⟩ := bind_ok.mp he
  cases he
  obtain ⟨f, hwalk, hput⟩ := bind_ok.mp hstore
  cases hput
  obtain ⟨D, hD, hc⟩ := h.books.active
  have hf : ¬ Tables.Holds F dir f := by
    rcases hg.2 with ⟨hv, hcur⟩ | hwrite
    · obtain ⟨d, hd⟩ := Option.ne_none_iff_exists'.mp hcur
      rw [hd] at hD
      rw [h.books.tables.walk_user hD hc hv] at hwalk
      cases hu : F (.user d (vaddr / 4096)) with
      | none =>
        rw [hu] at hwalk
        cases hwalk
      | some g =>
        rw [hu] at hwalk
        cases hwalk
        exact Tables.not_holds_user h.books.sound hu
    · have hal : vaddr / PG_SIZE * PG_SIZE % PG_SIZE = 0 := Nat.mul_mod_left ..
      obtain ⟨b, B, hpage, hbuf⟩ := h.writable hwrite hal
      have hdiv : vaddr / 4096 = pageAddr b / 4096 := by
        unfold PG_SIZE at hpage
        omega
      rw [h.books.tables.walk_heap h.books.sound hD hc hbuf.used hdiv] at hwalk
      cases hwalk
      exact Tables.not_holds_heap h.books.sound hbuf.used hbuf.plain
  exact h.same (h.books.write hf _ (fun x hx w => if_neg fun hn => hx hn.1) rfl) (.of_eq rfl)

/-- What runs through keeps the books. -/
theorem preserved : Guarded.Preserves Processes.system fun w => ∃ dir F, Balanced w dir F := by
  rintro w e t ⟨dir, F, h⟩ hg he
  cases e with
  | switch next => exact ⟨dir, F, h.switch hg he⟩
  | createPageDir bits => exact h.createPageDir he
  | getAPage pf vaddr => exact ⟨dir, h.getAPage hg he⟩
  | mallocPage pf pgCnt => exact ⟨dir, h.mallocPage he⟩
  | copyBodyStack3 child bufPage => exact ⟨dir, h.copyBodyStack3 hg he⟩
  | mfreePage r => exact h.mfreePage hg he
  | write vaddr value => exact ⟨dir, F, h.write hg he⟩

end Balanced

end ZhuOS
