import ZhuOS.PageDirs

/-!
# Copying the pages of a process

The two loops of `copy_body_stack3` go over the marked pages in turn. A copy goes by way
of a page of the heap while the directories are switched, and gives the child one page.
-/

namespace ZhuOS

open Assignment PackedBits

/-! ## The loops -/

theorem copyByte_eq (copy : Nat → Memory → Except Fault Memory) (bits : Nat → UInt8)
    (idxByte left idxBit : Nat) (hsum : idxBit + left = 8) (m : Memory) :
    copyByte copy (bits idxByte) idxByte left idxBit m =
      ((List.range' (8 * idxByte + idxBit) left).filter (bit bits)).foldlM
        (fun m i => copy i m) m := by
  induction left generalizing idxBit m with
  | zero => rfl
  | succ left ih =>
    have hidx : idxByte * 8 + idxBit = 8 * idxByte + idxBit := by omega
    have hbit : (mask idxBit &&& bits idxByte ≠ 0) ↔ bit bits (8 * idxByte + idxBit) = true := by
      have hread := and_mask_ne_zero (k := idxBit) (bits idxByte) (by omega)
      have hdiv : (8 * idxByte + idxBit) / 8 = idxByte := by omega
      have hmod : (8 * idxByte + idxBit) % 8 = idxBit := by omega
      rw [bit, hdiv, hmod, ← hread, UInt8.and_comm]
      simp
    rw [List.range'_succ, List.filter_cons]
    simp only [copyByte, hbit, hidx]
    cases hb : bit bits (8 * idxByte + idxBit) with
    | true =>
      simp only [↓reduceIte, List.foldlM_cons]
      apply bind_congr
      intro m
      exact ih (idxBit + 1) (by omega) m
    | false => exact ih (idxBit + 1) (by omega) m

theorem copyBytes_eq (copy : Nat → Memory → Except Fault Memory) (bits : Nat → UInt8)
    (left idxByte : Nat) (m : Memory) : copyBytes copy bits left idxByte m =
      ((List.range' (8 * idxByte) (8 * left)).filter (bit bits)).foldlM
        (fun m i => copy i m) m := by
  induction left generalizing idxByte m with
  | zero => rfl
  | succ left ih =>
    have hsplit : List.range' (8 * idxByte) (8 * (left + 1)) =
        List.range' (8 * idxByte) 8 ++ List.range' (8 * (idxByte + 1)) (8 * left) := by
      rw [Nat.mul_succ, Nat.add_comm, ← List.range'_append_1]
      congr 2
    rw [hsplit, List.filter_append, List.foldlM_append]
    simp only [copyBytes]
    by_cases hzero : bits idxByte = 0
    · -- a byte without marks has no pages
      have hnone : (List.range' (8 * idxByte) 8).filter (bit bits) = [] := by
        apply List.filter_eq_nil_iff.mpr
        intro i hi
        have hdiv : i / 8 = idxByte := by
          have := List.mem_range'_1.mp hi
          omega
        simp [bit, hdiv, hzero]
      rw [hnone, if_neg (by simp [hzero])]
      exact ih (idxByte + 1) m
    · rw [if_pos hzero, copyByte_eq copy bits idxByte 8 0 rfl]
      apply bind_congr
      intro m
      exact ih (idxByte + 1) m

/-- The marked pages of a process. -/
def VirtualAddr.marked (va : VirtualAddr) : List Nat :=
  (List.range va.vaddrBitmap.size).filter va.vaddrBitmap.bit

theorem VirtualAddr.mem_marked {va : VirtualAddr} {i : Nat} :
    i ∈ va.marked ↔ i < va.vaddrBitmap.size ∧ va.vaddrBitmap.bit i = true := by
  rw [marked, List.mem_filter, List.mem_range]

theorem VirtualAddr.marked_nodup (va : VirtualAddr) : va.marked.Nodup :=
  List.Nodup.filter _ List.nodup_range

theorem copyBodyStack3_eq (m : Memory) (child : Option Nat) (bufPage : Nat) :
    copyBodyStack3 m child bufPage =
      m.running.userprogVaddr.marked.foldlM (fun m' i => copyPage child m.running.pgdir bufPage
        (u32 (i * PG_SIZE + m.running.userprogVaddr.vaddrStart)) m') m := by
  have hsize : m.running.userprogVaddr.vaddrBitmap.size =
      8 * m.running.userprogVaddr.vaddrBitmap.btmpBytesLen := Nat.mul_comm ..
  rw [copyBodyStack3, copyBytes_eq, VirtualAddr.marked, List.range_eq_range', hsize]
  rfl

/-! ## A page at a given address -/

theorem palloc_card {p p' : Pool} {r : Option Nat} (h : palloc p = .ok (r, p')) :
    p'.poolBitmap.free.card + 1 = p.poolBitmap.free.card := by
  obtain ⟨i, hi, hbit, -, rfl⟩ := palloc_ok h
  exact card_free_bitmapSet_true hi hbit

/-- What a page of a process costs, and what it leaves alone; `D` is the directory. -/
structure GetsPage (m m' : Memory) (F F' : Ledger) (d p f D : Nat) : Prop
    extends AddsUser F F' d p f where
  phys : ∀ x, x ≠ D → F' (.table d (p / 1024)) ≠ some x → ∀ w, m'.mmu.phys x w = m.mmu.phys x w
  userFree : m'.userPool.poolBitmap.free.card + 1 = m.userPool.poolBitmap.free.card
  kernelFree : m'.kernelPool.poolBitmap.free.card +
    (if F (.table d (p / 1024)) = none then 1 else 0) = m.kernelPool.poolBitmap.free.card
  userStart : m'.userPool.phyAddrStart = m.userPool.phyAddrStart
  userSize : m'.userPool.poolBitmap.size = m.userPool.poolBitmap.size
  running : m'.running = m.running

namespace Books

variable {m m' : Memory} {dir : Nat → Option Nat} {F : Ledger}

theorem getAPageWithout_ok {d D v : Nat} (h : Books m dir F (some d))
    (hD : dirFrame F dir (some d) = some D) (hv : v < 0xc0000000) {r : Option Nat}
    (hg : getAPageWithoutOpvaddrbitmap true m .PF_USER v = .ok (r, m')) :
    ∃ f F', Books m' dir F' (some d) ∧ GetsPage m m' F F' d (v / 4096) f D := by
  have h₁ : Books (lockPool m .PF_USER) dir F (some d) := h.same (.of_lockPool ..) rfl
  obtain ⟨⟨page, p⟩, hp, hg⟩ := bind_ok.mp hg
  obtain ⟨k, hk, hbit, rfl, rfl⟩ := palloc_ok hp
  obtain ⟨m₂, hadd, hg⟩ := bind_ok.mp hg
  obtain ⟨m₃, hun, hg⟩ := bind_ok.mp hg
  cases hg
  obtain ⟨f, F', h₂, hmap⟩ := h₁.mapUser hD hp rfl hv hadd
  obtain ⟨hs₃, hm₃, ht₃, -⟩ := unlockPool_same hun
  have hub : m'.userPool.poolBitmap = m₂.userPool.poolBitmap := hs₃.bitmap .PF_USER
  have hkb : m'.kernelPool.poolBitmap = m₂.kernelPool.poolBitmap := hs₃.bitmap .PF_KERNEL
  have hus : m'.userPool.phyAddrStart = m₂.userPool.phyAddrStart := hs₃.start .PF_USER
  refine ⟨f, F', h₂.same hs₃ hm₃, ⟨hmap.toAddsUser, fun x hx hxt w => ?_, ?_, ?_, ?_, ?_,
    ht₃.trans hmap.running⟩⟩
  · rw [hm₃]
    exact hmap.phys x hx hxt w
  · have hcard := palloc_card hp
    rw [hub, hmap.userPool]
    exact hcard
  · rw [hkb]
    rcases hmap.kernelPool with ⟨hn, hsame⟩ | ⟨hn, r, hr⟩
    · rw [if_neg hn, hsame]
      rfl
    · have hcard := palloc_card hr
      rw [if_pos hn]
      exact hcard
  · rw [hus, hmap.userPool]
    rfl
  · rw [hub, hmap.userPool]
    exact bitmapSet_size ..

/-- With frames enough the page is mapped. -/
theorem getAPageWithout_total {d v : Nat} (h : Books m dir F (some d)) (hv : v < 0xc0000000)
    (hn : F (.user d (v / 4096)) = none) (hu : 0 < m.userPool.poolBitmap.free.card)
    (hk : F (.table d (v / 4096 / 1024)) = none → 0 < m.kernelPool.poolBitmap.free.card) :
    ∃ r m', getAPageWithoutOpvaddrbitmap true m .PF_USER v = .ok (r, m') := by
  have h₁ : Books (lockPool m .PF_USER) dir F (some d) := h.same (.of_lockPool ..) rfl
  obtain ⟨D, hD, hc⟩ := h₁.active
  have hlive := dirFrame_live hD
  have hidx : v / 4096 / 1024 = v / 2 ^ 22 := by omega
  have hpage : 1024 * (v / 2 ^ 22) + v / 4096 % 1024 = v / 4096 := by omega
  obtain ⟨⟨page, p⟩, hp⟩ :=
    palloc_total (p := (lockPool m .PF_USER).userPool) (Bitmap.free_pos.mp hu)
  obtain ⟨f, rfl, -, -, hnot, hnew⟩ := h₁.toAccounts.palloc .PF_USER hp
  have hdepth : 0 < p.lockDepth := by
    obtain ⟨_, -, -, -, rfl⟩ := palloc_ok hp
    exact Nat.succ_pos _
  have hadd : ∃ m₂, pageTableAdd ((lockPool m .PF_USER).setPool p .PF_USER) v (f * 4096) = .ok m₂ ∧
      m₂.userPool = p := by
    have htables : Tables ((lockPool m .PF_USER).setPool p .PF_USER).mmu.phys dir F := h₁.tables
    cases ht : F (.table d (v / 2 ^ 22)) with
    | some t =>
      have heven := htables.pages d _ t hlive ht (v / 4096 % 1024) (by omega)
      rw [hpage, hn] at heven
      have heven :
          ((lockPool m .PF_USER).setPool p .PF_USER).mmu.phys t (v / 4096 % 1024) % 2 = 0 :=
        heven
      rw [pageTableAdd_userPage htables hD hc hv ht, if_pos heven]
      exact ⟨_, rfl, rfl⟩
    | none =>
      obtain ⟨⟨t', pool⟩, hr⟩ := palloc_total (Bitmap.free_pos.mp (hk (hidx ▸ ht)))
      obtain ⟨t, rfl, -, -, htnot, -⟩ := h₁.toAccounts.palloc .PF_KERNEL hr
      have htD : t ≠ D := by
        rintro rfl
        obtain ⟨i, -, hi⟩ := dirFrame_some hD
        exact htnot ⟨_, hi⟩
      exact ⟨_, pageTableAdd_userTable htables hD hc hv ht hr htD f, rfl⟩
  obtain ⟨m₂, hm₂, hpool⟩ := hadd
  have hassert : 0 < (m₂.pool .PF_USER).lockDepth := by
    show 0 < m₂.userPool.lockDepth
    rw [hpool]
    exact hdepth
  have hp : palloc ((lockPool m .PF_USER).pool .PF_USER) = .ok (some (f * 4096), p) := hp
  simp only [getAPageWithoutOpvaddrbitmap, pallocIf_debug, pageTableAddIf_debug, hp, ok_bind, hm₂,
    unlockPool, assertIf, ↓reduceIte, ASSERT_true hassert]
  exact ⟨_, _, rfl⟩

/-! ## One page of the parent -/

end Books

/-- A page has been copied between frames and a directory activated. -/
def Memory.copied (m : Memory) (f g D : Nat) : Memory :=
  { m with mmu := { m.mmu.blit f 0 g 0 1024 with cr3 := D * 4096 } }

theorem Memory.copied_page (m : Memory) (f g D : Nat) {w : Nat} (hw : w < 1024) :
    (m.copied f g D).mmu.phys f w = m.mmu.phys g w := by
  have hidx : 0 + (w - 0) = w := by omega
  refine (if_pos ⟨rfl, by omega⟩).trans ?_
  rw [hidx]

theorem Memory.copied_other (m : Memory) {f x : Nat} (g D : Nat) (hx : x ≠ f) (w : Nat) :
    (m.copied f g D).mmu.phys x w = m.mmu.phys x w := if_neg fun hn => hx hn.1

/-- A page of the heap that is no directory. -/
structure Buffer (dir : Nat → Option Nat) (F : Ledger) (b B : Nat) : Prop where
  used : F (.heap b) = some B
  plain : ∀ d, dir d ≠ some b

/-- What the copy of page `p` of a process, frame `g`, to process `c` has done. -/
structure CopiesPage (m m' : Memory) (dir : Nat → Option Nat) (F F' : Ledger)
    (c p b f g : Nat) : Prop extends AddsUser F F' c p f where
  contents : ∀ w < 1024, m'.mmu.phys f w = m.mmu.phys g w
  /-- but for the buffer, and the directory and the tables of `c`, memory is as it was -/
  others : ∀ u x, F u = some x → u ≠ .heap b → (∀ i, dir c = some i → u ≠ .heap i) →
    (∀ k, u ≠ .table c k) → ∀ w, m'.mmu.phys x w = m.mmu.phys x w
  low : ∀ x < 0x200, ∀ w, m'.mmu.phys x w = m.mmu.phys x w
  userFree : m'.userPool.poolBitmap.free.card + 1 = m.userPool.poolBitmap.free.card
  kernelFree : m'.kernelPool.poolBitmap.free.card +
    (if F (.table c (p / 1024)) = none then 1 else 0) = m.kernelPool.poolBitmap.free.card
  userStart : m'.userPool.phyAddrStart = m.userPool.phyAddrStart
  userSize : m'.userPool.poolBitmap.size = m.userPool.poolBitmap.size
  running : m'.running = m.running

namespace Books

variable {m m' : Memory} {dir : Nat → Option Nat} {F : Ledger}

/-- A page of a process goes to the buffer, and another directory is activated. -/
theorem copyOut {d b B g v c E : Nat} (h : Books m dir F (some d)) (hb : Buffer dir F b B)
    (hg : F (.user d (v / 4096)) = some g) (hv : v < 0xc0000000) (hal : v % 4096 = 0)
    (hE : dirFrame F dir (some c) = some E) :
    (do
      let mmu ← Mmu.copyWords 1024 (pageAddr b) v m.mmu
      pageDirActivate { m with mmu } ((dir c).map pageAddr)) = .ok (m.copied B g E) ∧
    Books (m.copied B g E) dir F (some c) := by
  obtain ⟨D, hD, hc⟩ := h.active
  have hB := Tables.not_holds_heap h.sound hb.used hb.plain
  have hbal := pageAddr_mod b
  have hcopy := Mmu.copyWords_ok 1024 (h.tables.fixed_heap h.sound hD hc hB hb.used rfl)
    (h.tables.fixed_user h.sound hD hc hB hv hg) (h.sound.ne hg hb.used (by nofun))
    ⟨by omega, LoaderDir.pageAddr_lt (h.sound.inRange _ _ hb.used)⟩ ⟨by omega, by omega⟩
    (by omega) (by omega)
  rw [hbal, hal] at hcopy
  have h₁ := h.write hB (m.mmu.blit B 0 g 0 1024) (fun x hx w => if_neg (by simp [hx])) rfl
  obtain ⟨hact, h₂⟩ := h₁.activate hE
  simp only [hcopy, ok_bind]
  exact ⟨hact, h₂⟩

/-- The buffer goes to a page of a process, and another directory is activated. -/
theorem copyIn {c b B f v d D : Nat} (h : Books m dir F (some c)) (hb : Buffer dir F b B)
    (hf : F (.user c (v / 4096)) = some f) (hv : v < 0xc0000000) (hal : v % 4096 = 0)
    (hD : dirFrame F dir (some d) = some D) :
    (do
      let mmu ← Mmu.copyWords 1024 v (pageAddr b) m.mmu
      pageDirActivate { m with mmu } ((dir d).map pageAddr)) = .ok (m.copied f B D) ∧
    Books (m.copied f B D) dir F (some d) := by
  obtain ⟨E, hE, hc⟩ := h.active
  have hholds : ¬ Tables.Holds F dir f := Tables.not_holds_user h.sound hf
  have hbal := pageAddr_mod b
  have hcopy := Mmu.copyWords_ok 1024 (h.tables.fixed_user h.sound hE hc hholds hv hf)
    (h.tables.fixed_heap h.sound hE hc hholds hb.used rfl) (h.sound.ne hb.used hf (by nofun))
    ⟨by omega, by omega⟩ ⟨by omega, LoaderDir.pageAddr_lt (h.sound.inRange _ _ hb.used)⟩
    (by omega) (by omega)
  rw [hbal, hal] at hcopy
  have h₁ := h.write hholds (m.mmu.blit f 0 B 0 1024) (fun x hx w => if_neg (by simp [hx])) rfl
  obtain ⟨hact, h₂⟩ := h₁.activate hD
  simp only [hcopy, ok_bind]
  exact ⟨hact, h₂⟩

theorem buffer_of {F F' : Ledger} {b B : Nat} (hb : Buffer dir F b B)
    (hF : F' (.heap b) = F (.heap b)) : Buffer dir F' b B := ⟨hF.trans hb.used, hb.plain⟩

/-- `copyPage`, taken apart at its call of the allocator. -/
theorem copyPage_eq {d b B g v c E : Nat} (h : Books m dir F (some d)) (hb : Buffer dir F b B)
    (hg : F (.user d (v / 4096)) = some g) (hv : v < 0xc0000000) (hal : v % 4096 = 0)
    (hE : dirFrame F dir (some c) = some E) :
    copyPage ((dir c).map pageAddr) ((dir d).map pageAddr) (pageAddr b) v m = (do
      let (_, m) ← getAPageWithoutOpvaddrbitmap true (m.copied B g E) .PF_USER v
      let mmu ← Mmu.copyWords 1024 v (pageAddr b) m.mmu
      pageDirActivate { m with mmu } ((dir d).map pageAddr)) := by
  obtain ⟨mmu, hcopy, hact⟩ := bind_ok.mp (h.copyOut hb hg hv hal hE).1
  simp only [copyPage, hcopy, ok_bind, hact]

/-- What is copied is a page of the parent. -/
theorem copyPage_source {d b v : Nat} (h : Books m dir F (some d)) {child : Option Nat}
    (hv : v < 0xc0000000)
    (hm : copyPage child ((dir d).map pageAddr) (pageAddr b) v m = .ok m') :
    ∃ g, F (.user d (v / 4096)) = some g := by
  obtain ⟨D, hD, hc⟩ := h.active
  obtain ⟨mmu, hcopy, -⟩ := bind_ok.mp hm
  obtain ⟨word, hword, -⟩ := bind_ok.mp hcopy
  simp only [Mmu.load, h.tables.walk_user hD hc hv] at hword
  cases hu : F (.user d (v / 4096)) with
  | some g => exact ⟨g, rfl⟩
  | none =>
    rw [hu] at hword
    cases hword

theorem copyPage_ok {d b B g v c E : Nat} (h : Books m dir F (some d)) (hb : Buffer dir F b B)
    (hg : F (.user d (v / 4096)) = some g) (hv : v < 0xc0000000) (hal : v % 4096 = 0)
    (hE : dirFrame F dir (some c) = some E)
    (hm : copyPage ((dir c).map pageAddr) ((dir d).map pageAddr) (pageAddr b) v m = .ok m') :
    ∃ f F', Books m' dir F' (some d) ∧ CopiesPage m m' dir F F' c (v / 4096) b f g := by
  rw [h.copyPage_eq hb hg hv hal hE] at hm
  obtain ⟨⟨r, m₂⟩, hget, hm⟩ := bind_ok.mp hm
  obtain ⟨f, F', h₂, hgets⟩ := (h.copyOut hb hg hv hal hE).2.getAPageWithout_ok hE hv hget
  have hheap : ∀ i, F' (.heap i) = F (.heap i) := fun i => hgets.other _ (by nofun) (by nofun)
  obtain ⟨D, hD, -⟩ := h.active
  have hD' : dirFrame F' dir (some d) = some D := by
    rw [dirFrame_congr fun _ i _ => hheap i]
    exact hD
  obtain ⟨hcopy, h₃⟩ := h₂.copyIn (buffer_of hb (hheap b)) hgets.page hv hal hD'
  have hm' : m' = m₂.copied f B D := by
    have hm : (do
      let mmu ← Mmu.copyWords 1024 v (pageAddr b) m₂.mmu
      pageDirActivate { m₂ with mmu } ((dir d).map pageAddr)) = .ok m' := hm
    rw [hcopy] at hm
    cases hm
    rfl
  subst hm'
  obtain ⟨e, he, hFe⟩ := dirFrame_some hE
  have hBE : B ≠ E := h.sound.ne hb.used hFe fun hn => by
    cases hn
    exact hb.plain c he
  have hBt : F' (.table c (v / 4096 / 1024)) ≠ some B := fun ht =>
    h₂.sound.ne ht ((hheap b).trans hb.used) (by nofun) rfl
  refine ⟨f, F', h₃, hgets.toAddsUser, fun w hw => ?_, fun u x hu hub huc hut w => ?_,
    fun x hx w => ?_, hgets.userFree, hgets.kernelFree, hgets.userStart, hgets.userSize,
    hgets.running⟩
  · rw [Memory.copied_page _ _ _ _ hw, hgets.phys B hBE hBt, Memory.copied_page _ _ _ _ hw]
  · have huser : u ≠ .user c (v / 4096) := by
      rintro rfl
      rw [hgets.fresh] at hu
      cases hu
    have hxf : x ≠ f := fun hn => hgets.unused ⟨u, hn ▸ hu⟩
    have hxE : x ≠ E := h.sound.ne hu hFe (huc e he)
    have hxB : x ≠ B := h.sound.ne hu hb.used hub
    have hxt : F' (.table c (v / 4096 / 1024)) ≠ some x := fun ht =>
      h₂.sound.ne ht ((hgets.other u huser (hut _)).trans hu) (Ne.symm (hut _)) rfl
    rw [Memory.copied_other _ _ _ hxf, hgets.phys x hxE hxt, Memory.copied_other _ _ _ hxB]
  · have hf := h₂.sound.high _ _ hgets.page
    have hEhigh := h.sound.high _ _ hFe
    have hBhigh := h.sound.high _ _ hb.used
    have hxt : F' (.table c (v / 4096 / 1024)) ≠ some x := fun ht => by
      have := h₂.sound.high _ _ ht
      omega
    rw [Memory.copied_other _ _ _ (by omega), hgets.phys x (by omega) hxt,
      Memory.copied_other _ _ _ (by omega)]

/-- With frames enough the copy goes through. -/
theorem copyPage_total {d b B g v c E : Nat} (h : Books m dir F (some d)) (hb : Buffer dir F b B)
    (hg : F (.user d (v / 4096)) = some g) (hv : v < 0xc0000000) (hal : v % 4096 = 0)
    (hE : dirFrame F dir (some c) = some E) (hn : F (.user c (v / 4096)) = none)
    (hu : 0 < m.userPool.poolBitmap.free.card)
    (hk : F (.table c (v / 4096 / 1024)) = none → 0 < m.kernelPool.poolBitmap.free.card) :
    ∃ m', copyPage ((dir c).map pageAddr) ((dir d).map pageAddr) (pageAddr b) v m = .ok m' := by
  have h₁ := (h.copyOut hb hg hv hal hE).2
  obtain ⟨r, m₂, hget⟩ := h₁.getAPageWithout_total hv hn hu hk
  obtain ⟨f, F', h₂, hgets⟩ := h₁.getAPageWithout_ok hE hv hget
  have hheap : ∀ i, F' (.heap i) = F (.heap i) := fun i => hgets.other _ (by nofun) (by nofun)
  obtain ⟨D, hD, -⟩ := h.active
  have hD' : dirFrame F' dir (some d) = some D := by
    rw [dirFrame_congr fun _ i _ => hheap i]
    exact hD
  rw [h.copyPage_eq hb hg hv hal hE, hget]
  exact ⟨_, (h₂.copyIn (buffer_of hb (hheap b)) hgets.page hv hal hD').1⟩

/-- The loops of `copy_body_stack3`, over the pages of any list. -/
theorem copyPages_ok {d b B c E : Nat} (h : Books m dir F (some d)) (hb : Buffer dir F b B)
    (hE : dirFrame F dir (some c) = some E) (addr : Nat → Nat) (pages : List Nat)
    (haddr : ∀ i ∈ pages, addr i < 0xc0000000 ∧ addr i % 4096 = 0)
    (hm : pages.foldlM (fun m i => copyPage ((dir c).map pageAddr) ((dir d).map pageAddr)
      (pageAddr b) (addr i) m) m = .ok m') :
    ∃ F', Books m' dir F' (some d) ∧ KeepsOthers F F' c ∧ m'.running = m.running := by
  induction pages generalizing m F with
  | nil =>
    cases hm
    exact ⟨F, h, .refl F c, rfl⟩
  | cons i pages ih =>
    rw [List.foldlM_cons] at hm
    obtain ⟨m₁, hcopy, hm⟩ := bind_ok.mp hm
    obtain ⟨hv, hal⟩ := haddr i (List.mem_cons_self ..)
    obtain ⟨g, hg⟩ := h.copyPage_source hv hcopy
    obtain ⟨f, F₁, h₁, hcopies⟩ := h.copyPage_ok hb hg hv hal hE hcopy
    have hheap : ∀ j, F₁ (.heap j) = F (.heap j) := fun j =>
      hcopies.other _ (by nofun) (by nofun)
    have hE₁ : dirFrame F₁ dir (some c) = some E := by
      rw [dirFrame_congr fun _ j _ => hheap j]
      exact hE
    obtain ⟨F', h', hkeep, hrun⟩ := ih h₁ (buffer_of hb (hheap b)) hE₁
      (fun j hj => haddr j (List.mem_cons_of_mem _ hj)) hm
    exact ⟨F', h', hcopies.keepsOthers.trans hkeep, hrun.trans hcopies.running⟩

end Books

end ZhuOS
