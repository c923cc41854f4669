import ZhuOS.Processes

/-!
# The address spaces of all processes

The start of the system, and what holds in every state it reaches: the kernel's addresses
mean the same in every directory, and a frame serves one use.
-/

namespace ZhuOS

open Assignment

/-! ## `setup_page` -/

/-- The loop writes its entries and nothing else. -/
theorem createPte_other (ebx ecx esi edx : Nat) (phys : PhysMem) {f w : Nat}
    (hebx : ebx % 4096 = 0) (hend : esi + ecx ≤ 1024)
    (hf : f = ebx / 4096 → w < esi ∨ esi + ecx ≤ w) :
    createPte ebx ecx esi edx phys f w = phys f w := by
  induction ecx generalizing esi edx phys with
  | zero => rfl
  | succ ecx ih =>
    rw [createPte, ih _ _ _ (by omega) (fun he => by have := hf he; omega)]
    exact if_neg fun hn => by
      have := hf (by omega)
      omega

theorem createKernelPde_other (ebx ecx esi eax : Nat) (phys : PhysMem) {f : Nat}
    (hebx : ebx % 4096 = 0) (hend : esi + ecx ≤ 1024) (hf : f ≠ ebx / 4096) (w : Nat) :
    createKernelPde ebx ecx esi eax phys f w = phys f w := by
  induction ecx generalizing esi eax phys with
  | zero => rfl
  | succ ecx ih =>
    rw [createKernelPde, ih _ _ _ (by omega)]
    exact if_neg fun hn => hf (by omega)

theorem createKernelPde_word (ebx ecx esi eax : Nat) (phys : PhysMem) {f : Nat}
    (hebx : ebx = f * 4096) (hend : esi + ecx ≤ 1024) (w : Nat) :
    createKernelPde ebx ecx esi eax phys f w =
      if esi ≤ w ∧ w < esi + ecx then eax + 0x1000 * (w - esi) else phys f w := by
  induction ecx generalizing esi eax phys with
  | zero =>
    rw [if_neg (by omega)]
    rfl
  | succ ecx ih =>
    have hword : writeWord phys (ebx + esi * 4) eax f w = if w = esi then eax else phys f w := by
      have hdiv : (ebx + esi * 4) / 4096 = f := by omega
      have hmod : (ebx + esi * 4) % 4096 / 4 = esi := by omega
      simp only [writeWord, hdiv, hmod, true_and]
    rw [createKernelPde, ih _ _ _ (by omega), hword]
    by_cases he : w = esi
    · rw [if_neg (by omega), if_pos he, if_pos (by omega), he, Nat.sub_self]
      rfl
    · by_cases hin : esi + 1 ≤ w ∧ w < esi + 1 + ecx
      · rw [if_pos hin, if_pos (by omega)]
        omega
      · rw [if_neg hin, if_neg he, if_neg (by omega)]

theorem writeWord_word (phys : PhysMem) {addr f : Nat} (value : Nat) (hf : addr / 4096 = f)
    (w : Nat) : writeWord phys addr value f w =
      if w = addr % 4096 / 4 then value else phys f w := by
  simp only [writeWord, hf, true_and]

/-- The directory `setup_page` makes. -/
theorem setupPage_dir (phys : PhysMem) : setupPage phys 0x100 1023 = 0x100 * 4096 + 7 ∧
    ∀ k < 255, setupPage phys 0x100 (768 + k) = (0x101 + k) * 4096 + 7 := by
  have htable : (PAGE_DIR_TABLE_POS + 0x1000) ||| PG_US_U ||| PG_RW_W ||| PG_P_1 =
      PAGE_DIR_TABLE_POS + 0x1000 + 7 := entry_eq (by decide)
  have hnext : (PAGE_DIR_TABLE_POS + 0x2000) ||| PG_US_U ||| PG_RW_W ||| PG_P_1 =
      PAGE_DIR_TABLE_POS + 0x2000 + 7 := entry_eq (by decide)
  have hpos : PAGE_DIR_TABLE_POS = 0x100 * 4096 := rfl
  have hword : ∀ w, 768 ≤ w → setupPage phys 0x100 w =
      if 769 ≤ w ∧ w < 769 + 254 then 0x102 * 4096 + 7 + 0x1000 * (w - 769)
      else if w = 1023 then 0x100 * 4096 + 7
      else if w = 768 then 0x101 * 4096 + 7 else clearPageDir phys 0x100 w := by
    intro w hw
    simp only [setupPage, htable, hnext]
    rw [createKernelPde_word _ _ _ _ _ hpos (by decide),
      createPte_other _ _ _ _ _ (by decide) (by decide) (fun he => absurd he (by decide)),
      writeWord_word _ _ (by decide), writeWord_word _ _ (by decide),
      writeWord_word _ _ (by decide), if_neg (show ¬ w = PAGE_DIR_TABLE_POS % 4096 / 4 by
        unfold PAGE_DIR_TABLE_POS; omega)]
    rfl
  refine ⟨?_, fun k hk => ?_⟩
  · rw [hword _ (by decide), if_neg (by decide), if_pos rfl]
  · rw [hword _ (by omega)]
    by_cases hz : k = 0
    · rw [hz, if_neg (by decide), if_neg (by decide), if_pos rfl]
    · rw [if_pos (by omega)]
      omega

theorem writeWord_other (phys : PhysMem) {addr f : Nat} (value : Nat) (hf : f ≠ addr / 4096)
    (w : Nat) : writeWord phys addr value f w = phys f w := if_neg fun hn => hf hn.1

/-- But for the directory and the entries of the first megabyte, memory is as it was. -/
theorem setupPage_other (phys : PhysMem) {f w : Nat} (hf : f ≠ 0x100)
    (hw : f = 0x101 → 256 ≤ w) : setupPage phys f w = phys f w := by
  simp only [setupPage]
  rw [createKernelPde_other _ _ _ _ _ (by decide) (by decide) hf,
    createPte_other _ _ _ _ _ (by decide) (by decide) (fun he => .inr (hw he)),
    writeWord_other _ _ hf, writeWord_other _ _ hf, writeWord_other _ _ hf]
  exact if_neg fun hn => hf hn.1

/-- Over empty memory these are the tables the heap starts with. -/
theorem setupPage_paging {phys : PhysMem}
    (hphys : ∀ f w, 0x101 ≤ f → f < 0x200 → phys f w % 2 = 0) :
    LoaderPaging ⟨setupPage phys, PAGE_DIR_TABLE_POS⟩ := by
  obtain ⟨hself, hkernel⟩ := setupPage_dir phys
  have hother : ∀ f w, f ≠ 0x100 → (f = 0x101 → 256 ≤ w) → setupPage phys f w = phys f w :=
    fun f w => setupPage_other phys
  generalize setupPage phys = tables at hself hkernel hother ⊢
  refine ⟨⟨rfl, hself, hkernel⟩, fun i hi => ?_⟩
  unfold HEAP_PAGES at hi
  show tables (0x101 + (256 + i) / 1024) ((256 + i) % 1024) % 2 = 0
  rw [hother _ _ (by omega) (by omega)]
  exact hphys _ _ (by omega) (by omega)

namespace Balanced

theorem memPoolInit_userFrame_free {mmu : Mmu} {running : Task} {byteAt : Nat → UInt8}
    {allMem k : Nat} (hk : k < (poolLayout allMem).ubmLength * 8) :
    (memPoolInit mmu running byteAt allMem).userPool.poolBitmap.bit k = false :=
  bitmapInit_bit _ hk

/-- With nothing handed out, over a directory that has the kernel's entries. -/
theorem start {phys : PhysMem} (hself : phys 0x100 1023 = 0x100 * 4096 + 7)
    (hkernel : ∀ k < 255, phys 0x100 (768 + k) = (0x101 + k) * 4096 + 7)
    (byteAt : Nat → UInt8) (allMem : Nat) :
    Balanced ⟨memPoolInit ⟨phys, PAGE_DIR_TABLE_POS⟩ Processes.kernelTask byteAt allMem,
      fun _ => none, fun _ => userRange fun _ => 0, none, 0, []⟩ (fun _ => none)
      (fun _ => none) := by
  let mmu : Mmu := ⟨phys, PAGE_DIR_TABLE_POS⟩
  have hk := kernelFreePages_lt allMem
  have hlen := kbmLength_le allMem
  have hulen : (poolLayout allMem).ubmLength * 8 ≤ (poolLayout allMem).userFreePages :=
    Nat.div_mul_le_self _ 8
  have hu : (poolLayout allMem).userFreePages < 2 ^ 16 := by
    simp only [poolLayout]
    omega
  have hframe : ∀ o D, dirFrame (fun _ => none) (fun _ => none) o = some D → D = 0x100 := by
    intro o D hD
    cases o with
    | none => exact (Option.some.inj hD).symm
    | some d => cases hD
  have hup : (memPoolInit mmu Processes.kernelTask byteAt allMem).userPool.phyAddrStart =
      USED_MEM + (poolLayout allMem).kernelFreePages * PG_SIZE := rfl
  have husize : (memPoolInit mmu Processes.kernelTask byteAt allMem).userPool.poolBitmap.size =
      (poolLayout allMem).ubmLength * 8 := rfl
  have hplaced : PoolsPlaced (memPoolInit mmu Processes.kernelTask byteAt allMem) := by
    refine ⟨rfl, ?_, rfl, ?_, ?_, ?_⟩
    · rw [memPoolInit_pageBits]
      omega
    · rw [memPoolInit_frames, hup]
      unfold PG_SIZE
      omega
    · rw [hup]
      unfold USED_MEM PG_SIZE
      omega
    · rw [hup, husize]
      unfold USED_MEM PG_SIZE
      omega
  have hpos : PAGE_DIR_TABLE_POS = 0x100 * 4096 := rfl
  refine ⟨⟨⟨hplaced, ?_, ?_, ?_, ?_⟩, ?_, 0x100, rfl, hpos⟩, fun _ => rfl, rfl, fun _ => rfl,
    fun hn => absurd rfl hn, fun _ => isUserRange_userRange _, fun _ _ => ⟨rfl, fun _ => rfl,
      fun _ => rfl⟩, ⟨fun _ h => (by cases h), List.Pairwise.nil⟩⟩
  · exact fun _ _ _ h _ => by cases h
  · exact fun _ _ h => by cases h
  · exact fun _ _ h => by cases h
  · intro pf k hk
    have hbit : ((memPoolInit mmu Processes.kernelTask byteAt allMem).pool pf).poolBitmap.bit k =
        false := by
      cases pf with
      | PF_KERNEL =>
        have hk : k < (poolLayout allMem).kbmLength * 8 := hk
        exact memPoolInit_frame_free hk
      | PF_USER =>
        have hk : k < (poolLayout allMem).ubmLength * 8 := hk
        exact memPoolInit_userFrame_free hk
    dsimp only
    rw [hbit]
    simp [Taken]
  · refine ⟨fun o D hD => ?_, fun o D hD k hk => ?_, fun _ _ h => (by cases h),
      fun _ _ h => (by cases h), fun _ _ _ h => absurd rfl h, fun _ _ _ _ _ _ => rfl,
      fun _ _ h => (by cases h), fun _ _ _ h => by cases h⟩
    · rw [hframe o D hD]
      exact hself
    · rw [hframe o D hD]
      exact hkernel k hk

/-- At the start nothing has a use. -/
theorem boot (phys : PhysMem) (byteAt : Nat → UInt8) (allMem : Nat) :
    Balanced (.boot phys byteAt allMem) (fun _ => none) (fun _ => none) := by
  obtain ⟨hself, hkernel⟩ := setupPage_dir phys
  exact start hself hkernel byteAt allMem

/-- Every state the system reaches has a ledger. -/
theorem run {phys : PhysMem} {byteAt : Nat → UInt8} {allMem : Nat} {calls : List PagingCall}
    {w : Processes} (hrun : Guarded.Run Processes.system (.boot phys byteAt allMem) calls w) :
    ∃ dir F, Balanced w dir F := hrun.preserved preserved ⟨_, _, boot phys byteAt allMem⟩

variable {w : Processes} {dir : Nat → Option Nat} {F : Ledger}

/-- The tables of a process, found from the ones that are active. -/
theorem space (h : Balanced w dir F) {o : Option Nat} {D : Nat} (hD : dirFrame F dir o = some D) :
    w.space o = .ok { w.mem.mmu with cr3 := D * 4096 } := by
  simp only [Processes.space, h.bind_pgdir, h.books.pagedirPhyAddr_eq hD, ok_bind]
  rfl

/-- A process that is over has the kernel's directory. -/
theorem space_total (h : Balanced w dir F) (o : Option Nat) : ∃ o' D,
    dirFrame F dir o' = some D ∧ w.space o = .ok { w.mem.mmu with cr3 := D * 4096 } ∧
    (o.bind w.pgdir ≠ none → o' = o) := by
  by_cases ho : o.bind w.pgdir = none
  · refine ⟨none, 0x100, rfl, ?_, fun hn => absurd ho hn⟩
    simp only [Processes.space, ho]
    rfl
  · have hlive : ∀ d, o = some d → w.pgdir d ≠ none := by
      rintro d rfl
      exact ho
    obtain ⟨D, hD⟩ := h.dirFrame_of o hlive
    exact ⟨o, D, hD, h.space hD, fun _ => rfl⟩

end Balanced

/-! ## The kernel's addresses -/

/-- In every state that is reached the kernel's addresses, up to the tables themselves, lead
to the same frames in every directory, and a page that is in use leads to one. -/
theorem kernelSpace_run {phys : PhysMem} {byteAt : Nat → UInt8} {allMem : Nat}
    {calls : List PagingCall} {w : Processes}
    (hrun : Guarded.Run Processes.system (.boot phys byteAt allMem) calls w) (d d' : Option Nat) :
    ∃ m m', w.space d = .ok m ∧ w.space d' = .ok m' ∧
      (∀ a, 0xc0000000 ≤ a → a ≤ 0xffbfffff → m.walk a = m'.walk a) ∧
      ∀ r ∈ w.live, ∀ a, r.Covers a → ∃ f, m.walk a = .ok f ∧ m'.walk a = .ok f := by
  obtain ⟨dir, F, h⟩ := Balanced.run hrun
  obtain ⟨o, D, hD, hm, -⟩ := h.space_total d
  obtain ⟨o', D', hD', hm', -⟩ := h.space_total d'
  have htables : Tables (Mmu.mk w.mem.mmu.phys (D * 4096)).phys dir F := h.books.tables
  have htables' : Tables (Mmu.mk w.mem.mmu.phys (D' * 4096)).phys dir F := h.books.tables
  refine ⟨_, _, hm, hm', fun a ha ha' => ?_, fun r hr a hcov => ?_⟩
  · rw [htables.walk_kernel hD rfl ha (by omega), htables'.walk_kernel hD' rfl ha (by omega)]
  · obtain ⟨i, hi, -, hused⟩ := h.live.used r hr
    obtain ⟨v, n⟩ := r
    dsimp only at hi hused
    subst hi
    have hge : pageAddr i ≤ a ∧ a < pageAddr i + PG_SIZE * n := hcov
    unfold pageAddr K_HEAP_START PG_SIZE at hge
    have hpage : a / 4096 = pageAddr (a / 4096 - 0xc0100) / 4096 := by
      rw [pageAddr_div]
      omega
    obtain ⟨f, hf⟩ := Option.ne_none_iff_exists'.mp
      (hused (a / 4096 - 0xc0100) (by omega) (by omega))
    exact ⟨f, htables.walk_heap h.books.sound hD rfl hf hpage,
      htables'.walk_heap h.books.sound hD' rfl hf hpage⟩

/-- A 32 MB machine with two pages of the heap in use. -/
theorem boot_mallocPage : ∃ w, Guarded.Run Processes.system
    (.boot (fun _ _ => 0) (fun _ => 0) 0x2000000) [.mallocPage .PF_KERNEL 2] w ∧
      w.live.length = 1 := by
  have hpages : PagesOk (memPoolInit ⟨setupPage fun _ _ => 0, PAGE_DIR_TABLE_POS⟩
      Processes.kernelTask (fun _ => 0) 0x2000000) [] :=
    memPoolInit_pages (setupPage_paging fun _ _ _ _ => rfl)
  obtain ⟨⟨s, hs⟩, hfree⟩ := memPoolInit_grantable (n := 2)
    (show 2 ≤ (poolLayout 0x2000000).kbmLength * 8 by decide)
  obtain ⟨i, m, hm, -⟩ := mallocPage_pages hpages (by decide) hs hfree
  generalize hw : Processes.boot (fun _ _ => 0) (fun _ => 0) 0x2000000 = w
  have hmem : mallocPage w.mem .PF_KERNEL 2 = .ok (some (pageAddr i), m) := by
    rw [← hw]
    exact hm
  have hlive : w.live = [] := by
    rw [← hw]
    rfl
  refine ⟨{ w with mem := m, live := ⟨pageAddr i, 2⟩ :: w.live }, .cons trivial ?_ (.nil _), ?_⟩
  · show w.exec (.mallocPage .PF_KERNEL 2) = _
    simp only [Processes.exec, hmem, ok_bind]
    rfl
  · simp [hlive]

/-- There the kernel and a process see the same. -/
theorem kernelSpace_run_two : ∃ w : Processes, w.live.length = 1 ∧
    ∃ m m', w.space none = .ok m ∧ w.space (some 0) = .ok m' ∧
      ∀ r ∈ w.live, ∀ a, r.Covers a → ∃ f, m.walk a = .ok f ∧ m'.walk a = .ok f := by
  obtain ⟨w, hrun, hlive⟩ := boot_mallocPage
  obtain ⟨m, m', hm, hm', -, hpages⟩ := kernelSpace_run hrun none (some 0)
  exact ⟨w, hlive, m, m', hm, hm', hpages⟩

/-! ## The use of a frame -/

/-- The ledger is what the pools' bitmaps and the tables of every process say. -/
structure OnePurpose (w : Processes) (F : Ledger) : Prop where
  distinct : Distinct F
  /-- a frame of the kernel pool serves a page of the heap or a table -/
  kernel : ∀ k < w.mem.kernelPool.poolBitmap.size, w.mem.kernelPool.poolBitmap.bit k = true ↔
    (∃ i, F (.heap i) = some (w.mem.frame .PF_KERNEL k)) ∨
      ∃ d l, F (.table d l) = some (w.mem.frame .PF_KERNEL k)
  /-- and one of the user pool a page of a process -/
  user : ∀ k < w.mem.userPool.poolBitmap.size, w.mem.userPool.poolBitmap.bit k = true ↔
    ∃ d p, p * PG_SIZE < 0xc0000000 ∧ F (.user d p) = some (w.mem.frame .PF_USER k)
  pools : ∀ u f, F u = some f → ∃ k < (w.mem.pool u.pool).poolBitmap.size,
    f = w.mem.frame u.pool k
  /-- a directory is a page of the heap -/
  dirs : ∀ d a, w.pgdir d = some a → ∃ i f, a = pageAddr i ∧ F (.heap i) = some f ∧
    ∃ m, w.space (some d) = .ok m ∧ m.cr3 = f * PG_SIZE
  heap : ∀ i f, F (.heap i) = some f → ∀ o m, w.space o = .ok m → m.walk (pageAddr i) = .ok f
  /-- the present entries below the kernel's lead to the tables of the process -/
  tables : ∀ d m, w.pgdir d ≠ none → w.space (some d) = .ok m → ∀ l < 768, ∀ t,
    F (.table d l) = some t ↔
      m.phys (m.cr3 / PG_SIZE) l % 2 = 1 ∧ m.phys (m.cr3 / PG_SIZE) l / PG_SIZE = t
  pages : ∀ d m, w.pgdir d ≠ none → w.space (some d) = .ok m → ∀ a < 0xc0000000, ∀ f,
    F (.user d (a / PG_SIZE)) = some f ↔ m.walk a = .ok f
  isolated : ∀ d d' m m', d ≠ d' → w.pgdir d ≠ none → w.pgdir d' ≠ none →
    w.space (some d) = .ok m → w.space (some d') = .ok m' →
    ∀ a < 0xc0000000, ∀ a' < 0xc0000000, ∀ f, m.walk a = .ok f → m'.walk a' ≠ .ok f

namespace Balanced

variable {w : Processes} {dir : Nat → Option Nat} {F : Ledger}

/-- The tables of a process that is not over. -/
theorem space_live (h : Balanced w dir F) {d : Nat} {m : Mmu} (hd : w.pgdir d ≠ none)
    (hm : w.space (some d) = .ok m) : ∃ D, dirFrame F dir (some d) = some D ∧
      m.phys = w.mem.mmu.phys ∧ m.cr3 = D * 4096 := by
  obtain ⟨D, hD⟩ := h.dirFrame_of (some d) fun c hc => by cases hc; exact hd
  rw [h.space hD] at hm
  cases hm
  exact ⟨D, hD, rfl, rfl⟩

theorem walk_page (h : Balanced w dir F) {d : Nat} {m : Mmu} (hd : w.pgdir d ≠ none)
    (hm : w.space (some d) = .ok m) {a : Nat} (ha : a < 0xc0000000) (f : Nat) :
    F (.user d (a / PG_SIZE)) = some f ↔ m.walk a = .ok f := by
  obtain ⟨D, hD, hphys, hc⟩ := h.space_live hd hm
  have htables : Tables m.phys dir F := hphys ▸ h.books.tables
  rw [htables.walk_user hD hc ha]
  show F (.user d (a / 4096)) = some f ↔ _
  cases F (.user d (a / 4096)) with
  | none => simp
  | some g => simp

theorem onePurpose (h : Balanced w dir F) : OnePurpose w F := by
  have hpools := h.books.frames
  have hpool : ∀ pf k, k < (w.mem.pool pf).poolBitmap.size → ∀ u, F u = some (w.mem.frame pf k) →
      pf = u.pool := by
    intro pf k hk u hu
    obtain ⟨l, hl, he⟩ := hpools u _ hu
    exact (h.books.toPoolsPlaced.frame_inj hk hl he).1
  refine ⟨h.books.distinct, fun k hk => ?_, fun k hk => ?_, hpools, fun d a hd => ?_,
    fun i f hi o m hm => ?_, fun d m hd hm l hl t => ?_, fun d m hd hm a ha f =>
      h.walk_page hd hm ha f, fun d d' m m' hne hd hd' hm hm' a ha a' ha' f hf hf' => ?_⟩
  · have hmark := h.books.marked .PF_KERNEL k hk
    refine Iff.trans hmark ⟨?_, ?_⟩
    · rintro ⟨u, hu⟩
      cases u with
      | heap i => exact .inl ⟨i, hu⟩
      | table d l => exact .inr ⟨d, l, hu⟩
      | user d p => exact absurd (hpool .PF_KERNEL k hk _ hu) (by simp [Use.pool])
    · rintro (⟨i, hu⟩ | ⟨d, l, hu⟩)
      · exact ⟨_, hu⟩
      · exact ⟨_, hu⟩
  · have hmark := h.books.marked .PF_USER k hk
    refine Iff.trans hmark ⟨?_, ?_⟩
    · rintro ⟨u, hu⟩
      cases u with
      | user d p =>
        have hr : p < 768 * 1024 := h.books.inRange _ _ hu
        exact ⟨d, p, by unfold PG_SIZE; omega, hu⟩
      | heap i => exact absurd (hpool .PF_USER k hk _ hu) (by simp [Use.pool])
      | table d l => exact absurd (hpool .PF_USER k hk _ hu) (by simp [Use.pool])
    · rintro ⟨d, p, -, hu⟩
      exact ⟨_, hu⟩
  · rw [h.pgdir, Option.map_eq_some_iff] at hd
    obtain ⟨i, hi, rfl⟩ := hd
    obtain ⟨f, hf⟩ := Option.ne_none_iff_exists'.mp (h.books.tables.dirs d i hi)
    exact ⟨i, f, rfl, hf, _, h.space (dirFrame_eq hi hf), rfl⟩
  · obtain ⟨o', D, hD, hspace, -⟩ := h.space_total o
    rw [hspace] at hm
    cases hm
    have htables : Tables (Mmu.mk w.mem.mmu.phys (D * 4096)).phys dir F := h.books.tables
    exact htables.walk_heap h.books.sound hD rfl hi rfl
  · obtain ⟨D, hD, hphys, hc⟩ := h.space_live hd hm
    have hentry := h.books.tables.entries d D hD l hl
    have hdiv : D * 4096 / 4096 = D := Nat.mul_div_cancel D (by decide)
    unfold PG_SIZE
    rw [hphys, hc, hdiv]
    cases ht : F (.table d l) with
    | none =>
      rw [ht] at hentry
      have hentry : w.mem.mmu.phys D l % 2 = 0 := hentry
      simp [hentry]
    | some t' =>
      rw [ht] at hentry
      have hentry : w.mem.mmu.phys D l = t' * 4096 + 7 := hentry
      rw [hentry, entry_div, entry_present]
      simp
  · have hu := (h.walk_page hd hm ha f).mpr hf
    have hu' := (h.walk_page hd' hm' ha' f).mpr hf'
    have he := h.books.distinct _ _ _ hu hu'
    simp only [Use.user.injEq] at he
    exact hne he.1

end Balanced

/-- In every state that is reached each frame serves one use, and a page of a process is in
no other's address space. -/
theorem onePurpose_run {phys : PhysMem} {byteAt : Nat → UInt8} {allMem : Nat}
    {calls : List PagingCall} {w : Processes}
    (hrun : Guarded.Run Processes.system (.boot phys byteAt allMem) calls w) :
    ∃ F, OnePurpose w F := by
  obtain ⟨dir, F, h⟩ := Balanced.run hrun
  exact ⟨F, h.onePurpose⟩

theorem onePurpose_run_two : ∃ w : Processes, w.live.length = 1 ∧ ∃ F, OnePurpose w F := by
  obtain ⟨w, hrun, hlive⟩ := boot_mallocPage
  exact ⟨w, hlive, onePurpose_run hrun⟩

end ZhuOS
