import ZhuOS.Tables

/-!
# The steps of the page allocator and the ledger

`Books` puts the pools and the page tables together with the directory that is active.
What runs through keeps them, and the ledger changes by the uses it asked for.
-/

namespace ZhuOS

open Assignment PackedBits

/-- The pools and the tables follow the ledger, and the directory of `o` is active. -/
structure Books (m : Memory) (dir : Nat → Option Nat) (F : Ledger) (o : Option Nat) : Prop
    extends Accounts m F where
  tables : Tables m.mmu.phys dir F
  active : ∃ D, dirFrame F dir o = some D ∧ m.mmu.cr3 = D * 4096

theorem SamePools.of_mmu (m : Memory) (mmu : Mmu) : SamePools m { m with mmu } :=
  ⟨rfl, rfl, fun pf => by cases pf <;> rfl, fun pf => by cases pf <;> rfl⟩

theorem SamePools.of_running (m : Memory) (running : Task) : SamePools m { m with running } :=
  ⟨rfl, rfl, fun pf => by cases pf <;> rfl, fun pf => by cases pf <;> rfl⟩

theorem SamePools.of_setVaddrBitmap (m : Memory) (pf : PoolFlags) {b : Bitmap}
    (hb : b.size = (m.vaddrPool pf).vaddrBitmap.size) : SamePools m (m.setVaddrBitmap b pf) := by
  cases pf with
  | PF_KERNEL => exact ⟨rfl, hb, fun pf => by cases pf <;> rfl, fun pf => by cases pf <;> rfl⟩
  | PF_USER => exact ⟨rfl, rfl, fun pf => by cases pf <;> rfl, fun pf => by cases pf <;> rfl⟩

theorem SamePools.of_lockPool (m : Memory) (pf : PoolFlags) : SamePools m (lockPool m pf) := by
  cases pf <;> exact ⟨rfl, rfl, fun pf => by cases pf <;> rfl, fun pf => by cases pf <;> rfl⟩

/-- A release of the lock says no more than that. -/
theorem unlockPool_same {debug : Bool} {m m' : Memory} {pf : PoolFlags}
    (h : unlockPool debug m pf = .ok m') :
    SamePools m m' ∧ m'.mmu = m.mmu ∧ m'.running = m.running ∧ m'.kernelVaddr = m.kernelVaddr := by
  obtain ⟨_, -, h⟩ := bind_ok.mp h
  cases h
  cases pf <;>
    exact ⟨⟨rfl, rfl, fun pf => by cases pf <;> rfl, fun pf => by cases pf <;> rfl⟩, rfl, rfl, rfl⟩

section Tables

variable {m : Memory} {dir : Nat → Option Nat} {F : Ledger} {o : Option Nat} {D : Nat}

/-- `page_table_add` at an address of the heap. -/
theorem pageTableAdd_heapPage (h : Tables m.mmu.phys dir F) (hD : dirFrame F dir o = some D)
    (hc : m.mmu.cr3 = D * 4096) {i v : Nat} (hi : i < HEAP_PAGES)
    (hv : v / 4096 = pageAddr i / 4096) (f : Nat) : pageTableAdd m v (f * 4096) =
      if m.mmu.phys (0x101 + (256 + i) / 1024) ((256 + i) % 1024) % 2 = 0 then
        .ok { m with
          mmu := m.mmu.put (0x101 + (256 + i) / 1024) ((256 + i) % 1024) (f * 4096 + 7) }
      else .error .panic := by
  obtain ⟨hlt, hpde, hword⟩ := h.heapPage hD hi hv
  have htable : m.mmu.tableOf D v = 0x101 + (256 + i) / 1024 := by
    rw [Mmu.tableOf, hpde, entry_div]
  rw [pageTableAdd_present (h.root hD hc) hlt (Nat.mul_mod_left ..)
    (by rw [hpde]; exact entry_present _), htable, hword]

/-- The physical address of a page of the heap. -/
theorem addrV2p_heapPage (h : Tables m.mmu.phys dir F) (hF : Sound F)
    (hD : dirFrame F dir o = some D) (hc : m.mmu.cr3 = D * 4096) {i v f : Nat}
    (hi : F (.heap i) = some f) (hf : f < 2 ^ 20) (hv : v / 4096 = pageAddr i / 4096) :
    addrV2p m v = .ok (f * 4096 + v % 4096) := by
  obtain ⟨hlt, hpde, hword⟩ := h.heapPage hD (hF.inRange _ _ hi) hv
  simp only [addrV2p, (h.root hD hc).load_ptePtr hlt (by rw [hpde]; exact entry_present _), hpde,
    entry_div, hword, h.heap i f hi, ok_bind, and_frame (entry_lt hf), and_offset]
  rfl

theorem pageTablePteRemove_heapPage (h : Tables m.mmu.phys dir F)
    (hD : dirFrame F dir o = some D) (hc : m.mmu.cr3 = D * 4096) {i v : Nat}
    (hi : i < HEAP_PAGES) (hv : v / 4096 = pageAddr i / 4096) : ∃ e, pageTablePteRemove m v =
      .ok { m with mmu := m.mmu.put (0x101 + (256 + i) / 1024) ((256 + i) % 1024) e } := by
  obtain ⟨hlt, hpde, hword⟩ := h.heapPage hD hi hv
  have hp : m.mmu.phys D (v / 2 ^ 22) % 2 = 1 := by
    rw [hpde]
    exact entry_present _
  simp only [pageTablePteRemove, (h.root hD hc).load_ptePtr hlt hp, ok_bind,
    (h.root hD hc).store_ptePtr hlt _ hp, hpde, entry_div, hword]
  exact ⟨_, rfl⟩

/-- `page_table_add` at an address of a process that has a table there. -/
theorem pageTableAdd_userPage {d t v : Nat} (h : Tables m.mmu.phys dir F)
    (hD : dirFrame F dir (some d) = some D) (hc : m.mmu.cr3 = D * 4096) (hv : v < 0xc0000000)
    (ht : F (.table d (v / 2 ^ 22)) = some t) (f : Nat) : pageTableAdd m v (f * 4096) =
      if m.mmu.phys t (v / 4096 % 1024) % 2 = 0 then
        .ok { m with mmu := m.mmu.put t (v / 4096 % 1024) (f * 4096 + 7) }
      else .error .panic := by
  have hpde := h.entries d D hD (v / 2 ^ 22) (by omega)
  rw [ht] at hpde
  have hpde : m.mmu.phys D (v / 2 ^ 22) = t * 4096 + 7 := hpde
  have htable : m.mmu.tableOf D v = t := by rw [Mmu.tableOf, hpde, entry_div]
  rw [pageTableAdd_present (h.root hD hc) (by omega) (Nat.mul_mod_left ..)
    (by rw [hpde]; exact entry_present _), htable]

/-- Without one it takes a frame for the table. -/
theorem pageTableAdd_userTable {d t v : Nat} (h : Tables m.mmu.phys dir F)
    (hD : dirFrame F dir (some d) = some D) (hc : m.mmu.cr3 = D * 4096) (hv : v < 0xc0000000)
    (hn : F (.table d (v / 2 ^ 22)) = none) {pool : Pool}
    (hp : palloc m.kernelPool = .ok (some (t * 4096), pool)) (ht : t ≠ D) (f : Nat) :
    pageTableAdd m v (f * 4096) = .ok { m with
      kernelPool := pool
      mmu := (m.mmu.addTable D (v / 2 ^ 22) t).put t (v / 4096 % 1024) (f * 4096 + 7) } := by
  have hpde := h.entries d D hD (v / 2 ^ 22) (by omega)
  rw [hn] at hpde
  have hdiv : t * 4096 / 4096 = t := Nat.mul_div_cancel t (by decide)
  rw [pageTableAdd_absent (h.root hD hc) (by omega) (Nat.mul_mod_left ..) hpde hp
    (Nat.mul_mod_left ..) (by rw [hdiv]; exact ht), hdiv]

theorem pageTableAdd_userTable_ok {d v f : Nat} {m' : Memory} (h : Tables m.mmu.phys dir F)
    (hD : dirFrame F dir (some d) = some D) (hc : m.mmu.cr3 = D * 4096) (hv : v < 0xc0000000)
    (hn : F (.table d (v / 2 ^ 22)) = none) (hadd : pageTableAdd m v f = .ok m') :
    ∃ r pool, palloc m.kernelPool = .ok (r, pool) := by
  have hpde := h.entries d D hD (v / 2 ^ 22) (by omega)
  rw [hn] at hpde
  have hpde : m.mmu.phys D (v / 2 ^ 22) &&& 0x00000001 = 0 := (and_one_eq_zero _).mpr hpde
  simp only [pageTableAdd, (h.root hD hc).load_pdePtr (show v < 2 ^ 32 by omega), ok_bind, hpde,
    ne_eq, not_true_eq_false, ↓reduceIte] at hadd
  obtain ⟨⟨r, pool⟩, hr, -⟩ := bind_ok.mp hadd
  exact ⟨r, pool, hr⟩

end Tables

namespace Books

variable {m m' : Memory} {dir : Nat → Option Nat} {F : Ledger} {o : Option Nat}

theorem sound (h : Books m dir F o) : Sound F := h.toAccounts.sound

theorem same (h : Books m dir F o) (hs : SamePools m m') (hm : m'.mmu = m.mmu) :
    Books m' dir F o :=
  ⟨h.toAccounts.congr hs, hm ▸ h.tables, hm ▸ h.active⟩

theorem frame_lt (h : Books m dir F o) {u : Use} {f : Nat} (hu : F u = some f) : f < 2 ^ 20 := by
  obtain ⟨k, hk, rfl⟩ := h.frames u f hu
  exact (h.toPoolsPlaced.frame_bounds _ hk).2

/-- What has no use yet is no directory. -/
theorem not_dir (h : Books m dir F o) {i : Nat} (hi : F (.heap i) = none) (d : Nat) :
    dir d ≠ some i := fun hd => h.tables.dirs d i hd hi

/-! ## Single pages -/

/-- A frame of the kernel pool behind a page of the heap. -/
theorem mapHeap (h : Books m dir F o) {r : Option Nat} {p : Pool}
    (hp : palloc m.kernelPool = .ok (r, p)) {i v a : Nat} (hr : r = some a)
    (hi : i < HEAP_PAGES) (hv : v / 4096 = pageAddr i / 4096)
    (hadd : pageTableAdd (m.setPool p .PF_KERNEL) v a = .ok m') :
    F (.heap i) = none ∧ ∃ f, Books m' dir (Function.update F (.heap i) (some f)) o ∧
      m'.running = m.running ∧ m'.kernelVaddr = m.kernelVaddr := by
  obtain ⟨f, hrf, -, -, -, hnew⟩ := h.toAccounts.palloc .PF_KERNEL hp
  rw [hrf] at hr
  cases hr
  obtain ⟨D, hD, hc⟩ := h.active
  have hmmu : (m.setPool p .PF_KERNEL).mmu = m.mmu := rfl
  rw [pageTableAdd_heapPage (m := m.setPool p .PF_KERNEL) h.tables hD hc hi hv] at hadd
  have hn : F (.heap i) = none := by
    cases hF : F (.heap i) with
    | none => rfl
    | some g =>
      have hodd := entry_present g
      rw [hmmu, h.tables.heap i g hF, if_neg (by omega)] at hadd
      cases hadd
  split at hadd
  · cases hadd
    have hdir := h.not_dir hn
    refine ⟨hn, f, ⟨(hnew (.heap i) rfl hi hn).congr (SamePools.of_mmu ..),
      h.tables.setHeap h.sound hi hdir (fun g hg => by cases hg; rfl), D, ?_, hc⟩, rfl, rfl⟩
    rw [dirFrame_update_heap hdir]
    exact hD
  · cases hadd

/-- One round of the loops of `mfree_page`, at a page that is no directory. -/
theorem releaseHeap (h : Books m dir F o) {i f : Nat} (hi : F (.heap i) = some f)
    (hdir : ∀ d, dir d ≠ some i) :
    ∃ m', pageTablePteRemove (pfree m (f * 4096)) (pageAddr i) = .ok m' ∧
      Books m' dir (Function.update F (.heap i) none) o ∧
      m'.running = m.running ∧ m'.kernelVaddr = m.kernelVaddr := by
  obtain ⟨D, hD, hc⟩ := h.active
  have hr := h.sound.inRange _ _ hi
  have hmmu : (pfree m (f * 4096)).mmu = m.mmu := by
    unfold pfree Memory.setPool
    split <;> rfl
  have hrun : (pfree m (f * 4096)).running = m.running := by
    unfold pfree Memory.setPool
    split <;> rfl
  have hva : (pfree m (f * 4096)).kernelVaddr = m.kernelVaddr := by
    unfold pfree Memory.setPool
    split <;> rfl
  obtain ⟨e, he⟩ := pageTablePteRemove_heapPage (m := pfree m (f * 4096)) (hmmu ▸ h.tables) hD
    (hmmu ▸ hc) hr rfl
  refine ⟨_, he, ⟨(h.toAccounts.pfree hi).congr (SamePools.of_mmu ..), ?_, D, ?_, ?_⟩, hrun, hva⟩
  · rw [hmmu]
    exact h.tables.setHeap h.sound hr hdir (by nofun)
  · rw [dirFrame_update_heap hdir]
    exact hD
  · rw [hmmu]
    exact hc

theorem user_of_odd (h : Books m dir F o) {d k t w : Nat} (hd : dir d ≠ none)
    (ht : F (.table d k) = some t) (hw : w < 1024) (he : m.mmu.phys t w % 2 = 0) :
    F (.user d (1024 * k + w)) = none := by
  have hpage := h.tables.pages d k t hd ht w hw
  cases hF : F (.user d (1024 * k + w)) with
  | none => rfl
  | some g =>
    rw [hF] at hpage
    have hpage : m.mmu.phys t w = g * 4096 + 7 := hpage
    have hodd := entry_present g
    omega

end Books

/-- Process `d` has page `p` besides, and the table it needs. -/
structure AddsUser (F F' : Ledger) (d p f : Nat) : Prop where
  fresh : F (.user d p) = none
  unused : ¬ Taken F f
  page : F' (.user d p) = some f
  other : ∀ u, u ≠ .user d p → u ≠ .table d (p / 1024) → F' u = F u
  table : F (.table d (p / 1024)) ≠ none → F' (.table d (p / 1024)) = F (.table d (p / 1024))

/-- What `page_table_add` has done for it; `D` is the directory. -/
structure MapsUser (m m' : Memory) (F F' : Ledger) (d p f D : Nat) : Prop
    extends AddsUser F F' d p f where
  phys : ∀ x, x ≠ D → F' (.table d (p / 1024)) ≠ some x → ∀ w, m'.mmu.phys x w = m.mmu.phys x w
  cr3 : m'.mmu.cr3 = m.mmu.cr3
  userPool : m'.userPool = m.userPool
  /-- a frame for the table comes from the kernel pool -/
  kernelPool : F (.table d (p / 1024)) ≠ none ∧ m'.kernelPool = m.kernelPool ∨
    F (.table d (p / 1024)) = none ∧ ∃ r, palloc m.kernelPool = .ok (r, m'.kernelPool)
  running : m'.running = m.running

namespace Books

variable {m m' : Memory} {dir : Nat → Option Nat} {F : Ledger}

/-- A frame of the user pool behind a page of the process whose directory is active. -/
theorem mapUser {d D : Nat} (h : Books m dir F (some d)) (hD : dirFrame F dir (some d) = some D)
    {r : Option Nat} {p : Pool} (hp : palloc m.userPool = .ok (r, p)) {v a : Nat} (hr : r = some a)
    (hv : v < 0xc0000000) (hadd : pageTableAdd (m.setPool p .PF_USER) v a = .ok m') :
    ∃ f F', Books m' dir F' (some d) ∧
      MapsUser (m.setPool p .PF_USER) m' F F' d (v / 4096) f D := by
  obtain ⟨f, hrf, -, -, hnot, hnew⟩ := h.toAccounts.palloc .PF_USER hp
  rw [hrf] at hr
  cases hr
  have hc : m.mmu.cr3 = D * 4096 := by
    obtain ⟨D', hD', hc⟩ := h.active
    rw [hD] at hD'
    cases hD'
    exact hc
  have hlive := dirFrame_live hD
  have hk : v / 4096 / 1024 = v / 2 ^ 22 := by omega
  have hpage : 1024 * (v / 2 ^ 22) + v / 4096 % 1024 = v / 4096 := by omega
  have hr : Use.InRange (.user d (v / 4096)) := by
    show v / 4096 < 768 * 1024
    omega
  -- the step on memory with the user frame taken
  have htables : Tables (m.setPool p .PF_USER).mmu.phys dir F := h.tables
  have hc' : (m.setPool p .PF_USER).mmu.cr3 = D * 4096 := hc
  cases ht : F (.table d (v / 2 ^ 22)) with
  | some t =>
    rw [pageTableAdd_userPage htables hD hc' hv ht] at hadd
    split at hadd
    · rename_i heven
      cases hadd
      have hn := h.user_of_odd hlive ht (by omega) heven
      rw [hpage] at hn
      refine ⟨f, Function.update F (.user d (v / 4096)) (some f), ⟨?_, ?_, D, ?_, hc⟩,
        ⟨⟨hn, hnot, Function.update_self .., fun u hu _ => Function.update_of_ne hu ..,
          fun _ => Function.update_of_ne (by nofun) ..⟩, ?_, rfl, rfl,
          .inl ⟨by rw [hk, ht]; nofun, rfl⟩, rfl⟩⟩
      · exact (hnew _ rfl hr hn).congr (SamePools.of_mmu ..)
      · have := h.tables.setUser h.sound ht (w := v / 4096 % 1024) (e := f * 4096 + 7)
          (v := some f) (by omega) rfl
        rwa [hpage] at this
      · rw [dirFrame_update_user]
        exact hD
      · intro x _ hx w
        rw [hk, Function.update_of_ne (by nofun), ht] at hx
        exact if_neg fun hxw => hx (congrArg some hxw.1.symm)
    · cases hadd
  | none =>
    obtain ⟨r', pool, hr'⟩ := pageTableAdd_userTable_ok htables hD hc' hv ht hadd
    have hn := h.tables.rooted d _ (v / 4096 % 1024) hlive (by omega) ht
    rw [hpage] at hn
    have hacc := hnew _ rfl hr hn
    obtain ⟨t, rfl, hlo, -, htnot, htnew⟩ := hacc.palloc .PF_KERNEL hr'
    have htF : ¬ Taken F t := fun htk => htnot ((taken_assign hn t).mpr (.inr htk))
    have htD : t ≠ D := by
      rintro rfl
      obtain ⟨i, -, hi⟩ := dirFrame_some hD
      exact htF ⟨_, hi⟩
    rw [pageTableAdd_userTable htables hD hc' hv ht hr' htD] at hadd
    cases hadd
    have htable :
        Function.update F (.user d (v / 4096)) (some f) (.table d (v / 2 ^ 22)) = none := by
      rw [Function.update_of_ne (by nofun)]
      exact ht
    have hk' : v / 2 ^ 22 < 768 := by omega
    have hkr : Use.InRange (.table d (v / 2 ^ 22)) := hk'
    have hadd := h.tables.addTable h.sound hD hk' ht htF hlo
    have hset := hadd.setUser (h.sound.assign hkr htF hlo) (Function.update_self ..)
      (w := v / 4096 % 1024) (e := f * 4096 + 7) (v := some f) (by omega) rfl
    rw [hpage] at hset
    have hcomm := Function.update_comm (show Use.user d (v / 4096) ≠ .table d (v / 2 ^ 22) by nofun)
      (some f) (some t) F
    refine ⟨f, _, ⟨(htnew _ rfl hkr htable).congr (SamePools.of_mmu ..), ?_, D, ?_, hc⟩,
      ⟨⟨hn, hnot, ?_, fun u hu hut => ?_, fun hne => absurd (hk ▸ ht) hne⟩, ?_, rfl, rfl,
        .inr ⟨hk ▸ ht, _, hr'⟩, rfl⟩⟩
    · rw [hcomm]
      exact hset
    · rw [dirFrame_update_table, dirFrame_update_user]
      exact hD
    · rw [Function.update_of_ne (by nofun), Function.update_self]
    · rw [Function.update_of_ne (hk ▸ hut), Function.update_of_ne hu]
    · intro x hx hxt w
      rw [hk, Function.update_self] at hxt
      have hxt : x ≠ t := fun he => hxt (congrArg some he.symm)
      show ((m.mmu.addTable D (v / 2 ^ 22) t).put t (v / 4096 % 1024) (f * 4096 + 7)).phys x w = _
      rw [Mmu.put_phys, if_neg fun hn => hxt hn.1, Mmu.addTable_other _ _ _ _ hxt hx]
      rfl

end Books

end ZhuOS
