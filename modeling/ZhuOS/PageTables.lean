import ZhuOS.Vaddr

/-!
# `page_table_add` and the hardware's walk

`pageTableAdd` writes through addresses that the tables it changes resolve. Here each
of its two paths is one change of physical memory, and the walk of every page is
followed across it.
-/

namespace ZhuOS

/-- Frame `t` as an empty table behind entry `k` of the directory. -/
def Mmu.addTable (m : Mmu) (dir k t : Nat) : Mmu :=
  { m with
    phys := fun f w => if f = t ∧ w < 1024 then 0 else (m.put dir k (t * 4096 + 7)).phys f w }

/-- The table of an address. -/
def Mmu.tableOf (m : Mmu) (dir a : Nat) : Nat := m.phys dir (a / 2 ^ 22) / 4096

namespace Mmu

variable (m : Mmu) (dir k t : Nat)

theorem addTable_dir (ht : t ≠ dir) (w : Nat) :
    (m.addTable dir k t).phys dir w = if w = k then t * 4096 + 7 else m.phys dir w := by
  simp [addTable, put_phys, Ne.symm ht]

theorem addTable_table {w : Nat} (hw : w < 1024) : (m.addTable dir k t).phys t w = 0 := by
  simp [addTable, hw]

theorem addTable_other {f : Nat} (ht : f ≠ t) (hd : f ≠ dir) (w : Nat) :
    (m.addTable dir k t).phys f w = m.phys f w := by
  simp [addTable, put_phys, ht, hd]

end Mmu

theorem RootMapped.addTable {m : Mmu} {dir k t : Nat} (h : RootMapped m dir) (ht : t ≠ dir)
    (hk : k ≠ 1023) : RootMapped (m.addTable dir k t) dir := by
  have hsame : (m.addTable dir k t).phys dir 1023 = m.phys dir 1023 := by
    rw [m.addTable_dir dir k t ht, if_neg (Ne.symm hk)]
  exact ⟨h.cr3, by rw [hsame]; exact h.present, by rw [hsame]; exact h.self⟩

/-- The frame of an entry with its attribute bits. -/
theorem entry_div (t : Nat) : (t * 4096 + 7) / 4096 = t := by omega

theorem entry_lt {t : Nat} (h : t < 2 ^ 20) : t * 4096 + 7 < 2 ^ 32 := by omega

theorem entry_present (t : Nat) : (t * 4096 + 7) % 2 = 1 := by omega

theorem and_one_eq_zero (n : Nat) : n &&& 0x00000001 = 0 ↔ n % 2 = 0 := by
  rw [Nat.and_one_is_mod]

/-- The path with a table there. -/
theorem pageTableAdd_present {m : Memory} {dir v p : Nat} (h : RootMapped m.mmu dir)
    (hv : v < 2 ^ 32) (hp : p % 4096 = 0) (hpde : m.mmu.phys dir (v / 2 ^ 22) % 2 = 1) :
    pageTableAdd m v p =
      if m.mmu.phys (m.mmu.tableOf dir v) (v / 4096 % 1024) % 2 = 0 then
        .ok { m with mmu := m.mmu.put (m.mmu.tableOf dir v) (v / 4096 % 1024) (p + 7) }
      else .error .panic := by
  have hpde' : m.mmu.phys dir (v / 2 ^ 22) &&& 0x00000001 ≠ 0 := by
    rw [ne_eq, and_one_eq_zero]
    omega
  have htable : m.mmu.phys dir (v / 2 ^ 22) / 4096 = m.mmu.tableOf dir v := rfl
  simp only [pageTableAdd, h.load_pdePtr hv, ok_bind, ne_eq, hpde', not_false_eq_true,
    ↓reduceIte, h.load_ptePtr hv hpde, h.store_ptePtr hv _ hpde, entry_eq hp, htable]
  by_cases hpte : m.mmu.phys (m.mmu.tableOf dir v) (v / 4096 % 1024) % 2 = 0
  · rw [if_pos hpte, ASSERT_true ((and_one_eq_zero _).mpr hpte)]
    rfl
  · rw [if_neg hpte, ASSERT_false (mt (and_one_eq_zero _).mp hpte)]
    rfl

/-- The path that makes one. -/
theorem pageTableAdd_absent {m : Memory} {dir v p t : Nat} {pool : Pool}
    (h : RootMapped m.mmu dir) (hv : v < 0xffc00000) (hp : p % 4096 = 0)
    (hpde : m.mmu.phys dir (v / 2 ^ 22) % 2 = 0)
    (hpalloc : palloc m.kernelPool = .ok (some t, pool)) (ht : t % 4096 = 0)
    (hne : t / 4096 ≠ dir) :
    pageTableAdd m v p = .ok { m with
      kernelPool := pool
      mmu := (m.mmu.addTable dir (v / 2 ^ 22) (t / 4096)).put (t / 4096) (v / 4096 % 1024)
        (p + 7) } := by
  have hv' : v < 2 ^ 32 := by omega
  have hk : v / 2 ^ 22 ≠ 1023 := by omega
  have hpde' : m.mmu.phys dir (v / 2 ^ 22) &&& 0x00000001 = 0 := (and_one_eq_zero _).mpr hpde
  have hentry : t + 7 = t / 4096 * 4096 + 7 := by omega
  -- the entry of the new table, before the table is cleared
  let m₁ := m.mmu.put dir (v / 2 ^ 22) (t / 4096 * 4096 + 7)
  have h₁ : RootMapped m₁ dir := h.put (by omega)
  have hpde₁ : m₁.phys dir (v / 2 ^ 22) = t / 4096 * 4096 + 7 := if_pos ⟨rfl, rfl⟩
  have htable₁ : m₁.phys dir (v / 2 ^ 22) / 4096 = t / 4096 := by omega
  have hclear : m₁.clearPage (ptePtr v) = .ok (m.mmu.addTable dir (v / 2 ^ 22) (t / 4096)) := by
    rw [h₁.clearPage_ptePtr hv' (by omega), htable₁]
    rfl
  have h₂ : RootMapped (m.mmu.addTable dir (v / 2 ^ 22) (t / 4096)) dir := h.addTable hne hk
  have hpde₂ : (m.mmu.addTable dir (v / 2 ^ 22) (t / 4096)).phys dir (v / 2 ^ 22) =
      t / 4096 * 4096 + 7 := by
    rw [Mmu.addTable_dir _ _ _ _ hne, if_pos rfl]
  have htable₂ : (t / 4096 * 4096 + 7) / 4096 = t / 4096 := by omega
  have hload := h₂.load_ptePtr hv' (by omega)
  have hstore := h₂.store_ptePtr hv' (p + 7) (by omega)
  rw [hpde₂, htable₂] at hload hstore
  rw [Mmu.addTable_table _ _ _ _ (by omega)] at hload
  simp only [pageTableAdd, h.load_pdePtr hv', ok_bind, ne_eq, hpde', not_true_eq_false,
    ↓reduceIte, hpalloc, Option.getD_some, entry_eq ht, entry_eq hp, hentry,
    h.store_pdePtr hv']
  show (do let mmu ← m₁.clearPage (ptePtr v); _) = _
  rw [hclear]
  simp only [ok_bind, hload, hstore, ASSERT_true (Nat.zero_and _)]
  rfl

/-! ## A directory that maps itself -/

/-- A two-level page table in `dir`, whose last entry leads back to it; the directory
and the tables are frames of their own. -/
structure PageTable (m : Mmu) (dir : Nat) : Prop extends RootMapped m dir where
  word : ∀ f w, m.phys f w < 2 ^ 32
  apart : ∀ k < 1023, m.phys dir k % 2 = 1 → m.phys dir k / 4096 ≠ dir
  once : ∀ k < 1023, ∀ l < 1023, m.phys dir k % 2 = 1 → m.phys dir l % 2 = 1 →
    m.phys dir k / 4096 = m.phys dir l / 4096 → k = l

/-- Frame `t` is neither the directory nor a table. -/
def Mmu.Unused (m : Mmu) (dir t : Nat) : Prop :=
  t ≠ dir ∧ ∀ k < 1023, m.phys dir k % 2 = 1 → m.phys dir k / 4096 ≠ t

namespace PageTable

variable {m : Mmu} {dir : Nat}

/-- Writing the table entry of `v` changes the walk of its page and of no other. -/
theorem walk_put (h : PageTable m dir) {v e : Nat} (hv : v < 0xffc00000)
    (hp : m.phys dir (v / 2 ^ 22) % 2 = 1) {a : Nat} (ha : a < 0xffc00000) :
    (m.put (m.tableOf dir v) (v / 4096 % 1024) e).walk a =
      if a / 4096 = v / 4096 then if e % 2 = 0 then .error .badAddress else .ok (e / 4096)
      else m.walk a := by
  have hdir := h.apart _ (show v / 2 ^ 22 < 1023 by omega) hp
  have hroot := h.put (f := m.tableOf dir v) (w := v / 4096 % 1024) (v := e)
    fun hn => hdir hn.1
  have hsame : ∀ k, (m.put (m.tableOf dir v) (v / 4096 % 1024) e).phys dir k = m.phys dir k :=
    fun k => by rw [Mmu.put_phys, if_neg fun hn => hdir hn.1.symm]
  rw [hroot.walk, hsame]
  by_cases hpage : a / 4096 = v / 4096
  · have hk : a / 2 ^ 22 = v / 2 ^ 22 := by omega
    have hw : a / 4096 % 1024 = v / 4096 % 1024 := by omega
    have hpte : (m.put (m.tableOf dir v) (v / 4096 % 1024) e).phys
        (m.phys dir (v / 2 ^ 22) / 4096) (v / 4096 % 1024) = e := if_pos ⟨rfl, rfl⟩
    rw [if_pos hpage, hk, hw, if_neg (by omega), hpte]
  · rw [if_neg hpage, h.walk]
    by_cases hpde : m.phys dir (a / 2 ^ 22) % 2 = 0
    · rw [if_pos hpde, if_pos hpde]
    · have hpte : (m.put (m.tableOf dir v) (v / 4096 % 1024) e).phys
          (m.phys dir (a / 2 ^ 22) / 4096) (a / 4096 % 1024) =
          m.phys (m.phys dir (a / 2 ^ 22) / 4096) (a / 4096 % 1024) := by
        apply if_neg
        rintro ⟨ht, hw⟩
        have := h.once _ (by omega) _ (by omega) (by omega) hp ht
        omega
      rw [if_neg hpde, if_neg hpde, hpte]

/-- A new table is empty, so no walk changes. -/
theorem walk_addTable (h : PageTable m dir) {k t : Nat} (hk : k < 1023)
    (hpde : m.phys dir k % 2 = 0) (ht : m.Unused dir t) {a : Nat} (ha : a < 0xffc00000) :
    (m.addTable dir k t).walk a = m.walk a := by
  rw [(h.addTable ht.1 (Nat.ne_of_lt hk)).walk, h.walk, Mmu.addTable_dir _ _ _ _ ht.1]
  by_cases he : a / 2 ^ 22 = k
  · have htable : (t * 4096 + 7) / 4096 = t := by omega
    rw [if_pos he, if_neg (by omega), htable, Mmu.addTable_table _ _ _ _ (by omega), he,
      if_pos rfl, if_pos hpde]
  · rw [if_neg he]
    by_cases hp : m.phys dir (a / 2 ^ 22) % 2 = 0
    · rw [if_pos hp, if_pos hp]
    · have hp : m.phys dir (a / 2 ^ 22) % 2 = 1 := by omega
      have hlt : a / 2 ^ 22 < 1023 := by omega
      rw [Mmu.addTable_other _ _ _ _ (ht.2 _ hlt hp) (h.apart _ hlt hp)]

theorem put (h : PageTable m dir) {v e : Nat} (hv : v < 0xffc00000)
    (hp : m.phys dir (v / 2 ^ 22) % 2 = 1) (he : e < 2 ^ 32) :
    PageTable (m.put (m.tableOf dir v) (v / 4096 % 1024) e) dir := by
  have hdir := h.apart _ (show v / 2 ^ 22 < 1023 by omega) hp
  have hsame : ∀ k, (m.put (m.tableOf dir v) (v / 4096 % 1024) e).phys dir k = m.phys dir k :=
    fun k => by rw [Mmu.put_phys, if_neg fun hn => hdir hn.1.symm]
  refine ⟨h.toRootMapped.put fun hn => hdir hn.1, fun f w => ?_, fun k hk hp => ?_,
    fun k hk l hl hpk hpl => ?_⟩
  · rw [Mmu.put_phys]
    split
    · exact he
    · exact h.word f w
  · rw [hsame] at hp ⊢
    exact h.apart k hk hp
  · rw [hsame] at hpk hpl ⊢
    rw [hsame]
    exact h.once k hk l hl hpk hpl

theorem addTable (h : PageTable m dir) {k t : Nat} (hk : k < 1023) (ht : m.Unused dir t)
    (hlt : t < 2 ^ 20) : PageTable (m.addTable dir k t) dir := by
  refine ⟨h.toRootMapped.addTable ht.1 (Nat.ne_of_lt hk), fun f w => ?_, fun l hl hp => ?_,
    fun l hl j hj hpl hpj he => ?_⟩
  · show (if _ then _ else (m.put dir k _).phys f w) < _
    rw [Mmu.put_phys]
    split
    · omega
    · split
      · exact entry_lt hlt
      · exact h.word f w
  · rw [Mmu.addTable_dir _ _ _ _ ht.1] at hp ⊢
    split
    · rw [entry_div]
      exact ht.1
    · rename_i hne
      rw [if_neg hne] at hp
      exact h.apart l hl hp
  · rw [Mmu.addTable_dir _ _ _ _ ht.1] at hpl hpj he
    rw [Mmu.addTable_dir _ _ _ _ ht.1] at he
    by_cases hlk : l = k
    · by_cases hjk : j = k
      · exact hlk.trans hjk.symm
      · rw [if_pos hlk, if_neg hjk, entry_div] at he
        rw [if_neg hjk] at hpj
        exact absurd he.symm (ht.2 j hj hpj)
    · rw [if_neg hlk] at hpl he
      by_cases hjk : j = k
      · rw [if_pos hjk, entry_div] at he
        exact absurd he (ht.2 l hl hpl)
      · rw [if_neg hjk] at hpj he
        exact h.once l hl j hj hpl hpj he

/-- A walk that goes through has a table. -/
theorem pde_of_walk (h : PageTable m dir) {a f : Nat} (hw : m.walk a = .ok f) :
    m.phys dir (a / 2 ^ 22) % 2 = 1 ∧ m.phys (m.tableOf dir a) (a / 4096 % 1024) / 4096 = f := by
  rw [h.walk] at hw
  split at hw
  · cases hw
  · split at hw
    · cases hw
    · cases hw
      exact ⟨by omega, rfl⟩

end PageTable

theorem and_frame {n : Nat} (h : n < 2 ^ 32) : n &&& 0xfffff000 = n / 4096 * 4096 := by
  have hfield := and_field n 20 12
  rw [show (2 ^ 20 - 1) <<< 12 = 0xfffff000 by decide] at hfield
  rw [hfield]
  omega

theorem and_offset (n : Nat) : n &&& 0x00000fff = n % 4096 := by
  have := Nat.and_two_pow_sub_one_eq_mod n 12
  rwa [show 2 ^ 12 - 1 = 0x00000fff by decide] at this

/-- `addr_v2p` is the walk, for every address there is. -/
theorem addrV2p_walk {m : Memory} {dir : Nat} (h : PageTable m.mmu dir) {a f : Nat}
    (ha : a < 2 ^ 32) (hw : m.mmu.walk a = .ok f) : addrV2p m a = .ok (f * 4096 + a % 4096) := by
  obtain ⟨hp, hf⟩ := h.pde_of_walk hw
  have htable : m.mmu.phys dir (a / 2 ^ 22) / 4096 = m.mmu.tableOf dir a := rfl
  simp only [addrV2p, h.load_ptePtr ha hp, ok_bind, htable, and_frame (h.word _ _), and_offset, hf]
  rfl

/-- `page_table_pte_remove` unmaps its page and no other. -/
theorem pageTablePteRemove_walk {m : Memory} {dir : Nat} (h : PageTable m.mmu dir) {v f : Nat}
    (hv : v < 0xffc00000) (hw : m.mmu.walk v = .ok f) :
    ∃ m', pageTablePteRemove m v = .ok m' ∧ ∀ a < 0xffc00000,
      m'.mmu.walk a = if a / 4096 = v / 4096 then .error .badAddress else m.mmu.walk a := by
  obtain ⟨hp, -⟩ := h.pde_of_walk hw
  have htable : m.mmu.phys dir (v / 2 ^ 22) / 4096 = m.mmu.tableOf dir v := rfl
  simp only [pageTablePteRemove, h.load_ptePtr (by omega) hp, ok_bind,
    h.store_ptePtr (by omega) _ hp, htable]
  refine ⟨_, rfl, fun a ha => ?_⟩
  rw [h.walk_put hv hp ha, if_pos (clear_present _)]

/-- A free frame of the kernel pool is no directory and no table, and the pool's frames
are pages. -/
structure PoolUnused (m : Memory) (dir : Nat) : Prop where
  aligned : m.kernelPool.phyAddrStart % 4096 = 0
  unused : ∀ i < m.kernelPool.poolBitmap.size, m.kernelPool.poolBitmap.bit i = false →
    m.mmu.Unused dir (u32 (i * PG_SIZE + m.kernelPool.phyAddrStart) / 4096)

theorem PoolUnused.palloc {m : Memory} {dir : Nat} (h : PoolUnused m dir)
    (hfree : ∃ i < m.kernelPool.poolBitmap.size, m.kernelPool.poolBitmap.bit i = false) :
    ∃ t pool, palloc m.kernelPool = .ok (some t, pool) ∧ t % 4096 = 0 ∧ t < 2 ^ 32 ∧
      m.mmu.Unused dir (t / 4096) := by
  obtain ⟨⟨r, pool⟩, hr⟩ := palloc_total hfree
  obtain ⟨i, hi, hbit, rfl, rfl⟩ := palloc_ok hr
  have hal := h.aligned
  refine ⟨_, _, hr, ?_, u32_lt _, h.unused i hi hbit⟩
  unfold u32 PG_SIZE
  omega

/-- `page_table_add` of a page that is not mapped. -/
theorem pageTableAdd_walk {m : Memory} {dir v p : Nat} (h : PageTable m.mmu dir)
    (hpool : PoolUnused m dir) (hv : v < 0xffc00000) (hp : p < 2 ^ 20)
    (hw : m.mmu.walk v = .error .badAddress)
    (hfree : ∃ i < m.kernelPool.poolBitmap.size, m.kernelPool.poolBitmap.bit i = false) :
    ∃ m', pageTableAdd m v (p * 4096) = .ok m' ∧ PageTable m'.mmu dir ∧
      ∀ a < 0xffc00000,
        m'.mmu.walk a = if a / 4096 = v / 4096 then .ok p else m.mmu.walk a := by
  have hal : p * 4096 % 4096 = 0 := Nat.mul_mod_left ..
  have hodd : ¬ (p * 4096 + 7) % 2 = 0 := by
    rw [entry_present]
    decide
  by_cases hpde : m.mmu.phys dir (v / 2 ^ 22) % 2 = 0
  · obtain ⟨t, pool, hpalloc, htal, htlt, hun⟩ := hpool.palloc hfree
    have hk : v / 2 ^ 22 < 1023 := by omega
    have hadd := h.addTable hk hun (by omega)
    have hentry : (m.mmu.addTable dir (v / 2 ^ 22) (t / 4096)).phys dir (v / 2 ^ 22) =
        t / 4096 * 4096 + 7 := by
      rw [Mmu.addTable_dir _ _ _ _ hun.1, if_pos rfl]
    have htable : (m.mmu.addTable dir (v / 2 ^ 22) (t / 4096)).tableOf dir v = t / 4096 := by
      rw [Mmu.tableOf, hentry, entry_div]
    have hpresent' := entry_present (t / 4096)
    refine ⟨_, pageTableAdd_absent h.toRootMapped hv hal hpde hpalloc htal hun.1, ?_,
      fun a ha => ?_⟩
    · have := hadd.put (e := p * 4096 + 7) hv (by omega) (entry_lt hp)
      rwa [htable] at this
    · have := hadd.walk_put (e := p * 4096 + 7) hv (by omega) ha
      rw [htable] at this
      apply this.trans
      rw [h.walk_addTable hk hpde hun ha, if_neg hodd, entry_div]
  · have hpde : m.mmu.phys dir (v / 2 ^ 22) % 2 = 1 := by omega
    have hpte : m.mmu.phys (m.mmu.tableOf dir v) (v / 4096 % 1024) % 2 = 0 := by
      rw [h.walk, if_neg (by omega)] at hw
      split at hw
      · assumption
      · cases hw
    refine ⟨_, (pageTableAdd_present h.toRootMapped (by omega) hal hpde).trans (if_pos hpte),
      h.put hv hpde (entry_lt hp), fun a ha => ?_⟩
    refine (h.walk_put hv hpde ha).trans ?_
    rw [if_neg hodd, entry_div]

/-- `page_table_add` maps its page and leaves the others; `addr_v2p` tells every mapping,
and `page_table_pte_remove` takes the new one back. -/
theorem pageTableAdd_refines {m : Memory} {dir v p : Nat} (h : PageTable m.mmu dir)
    (hpool : PoolUnused m dir) (hv : v < 0xffc00000) (hp : p < 2 ^ 20)
    (hw : m.mmu.walk v = .error .badAddress)
    (hfree : ∃ i < m.kernelPool.poolBitmap.size, m.kernelPool.poolBitmap.bit i = false) :
    ∃ m', pageTableAdd m v (p * 4096) = .ok m' ∧ m'.mmu.walk v = .ok p ∧
      (∀ a < 0xffc00000, a / 4096 ≠ v / 4096 → m'.mmu.walk a = m.mmu.walk a) ∧
      (∀ a < 2 ^ 32, ∀ f, m'.mmu.walk a = .ok f → addrV2p m' a = .ok (f * 4096 + a % 4096)) ∧
      ∃ m'', pageTablePteRemove m' v = .ok m'' ∧ m''.mmu.walk v = .error .badAddress ∧
        ∀ a < 0xffc00000, a / 4096 ≠ v / 4096 → m''.mmu.walk a = m'.mmu.walk a := by
  obtain ⟨m', hm', htable, hwalk⟩ := pageTableAdd_walk h hpool hv hp hw hfree
  have hv' : m'.mmu.walk v = .ok p := (hwalk v hv).trans (if_pos rfl)
  obtain ⟨m'', hm'', hwalk'⟩ := pageTablePteRemove_walk htable hv hv'
  refine ⟨m', hm', hv', fun a ha hne => (hwalk a ha).trans (if_neg hne),
    fun a ha f hf => addrV2p_walk htable ha hf, m'', hm'', ?_, fun a ha hne => ?_⟩
  · exact (hwalk' v hv).trans (if_pos rfl)
  · exact (hwalk' a ha).trans (if_neg hne)

/-- A directory with no table yet, and eight free frames. -/
def bareDirectory : Memory := { freshProcess with
  mmu := ⟨fun f w => if f = 0x100 ∧ w = 1023 then 0x100 * 4096 + 7 else 0, 0x100000⟩
  kernelPool := ⟨⟨1, fun _ => 0⟩, 0x200000, 0x8000, 0⟩ }

theorem bareDirectory_pde {k : Nat} (hk : k < 1023) : bareDirectory.mmu.phys 0x100 k = 0 :=
  if_neg fun h => absurd h.2 (Nat.ne_of_lt hk)

theorem bareDirectory_table : PageTable bareDirectory.mmu 0x100 := by
  have hnone : ∀ k < 1023, ¬ bareDirectory.mmu.phys 0x100 k % 2 = 1 := by
    intro k hk
    rw [bareDirectory_pde hk]
    decide
  refine ⟨⟨rfl, rfl, rfl⟩, fun f w => ?_, fun k hk hp => absurd hp (hnone k hk),
    fun k hk _ _ hp _ _ => absurd hp (hnone k hk)⟩
  show (if f = 0x100 ∧ w = 1023 then 0x100 * 4096 + 7 else 0) < 2 ^ 32
  split
  · decide
  · decide

/-- The first page of a process behind a bare directory. -/
theorem pageTableAdd_refines_first : ∃ m', pageTableAdd bareDirectory 0x8048000 (0x300 * 4096) =
    .ok m' ∧ m'.mmu.walk 0x8048000 = .ok 0x300 := by
  have hpool : PoolUnused bareDirectory 0x100 := by
    refine ⟨rfl, fun i hi _ => ⟨?_, fun k hk hp => ?_⟩⟩
    · have hi : i < 8 := hi
      show u32 (i * 4096 + 0x200000) / 4096 ≠ 0x100
      rw [u32_eq (by omega)]
      omega
    · rw [bareDirectory_pde hk] at hp
      cases hp
  have hw : bareDirectory.mmu.walk 0x8048000 = .error .badAddress := by
    rw [bareDirectory_table.walk, bareDirectory_pde (by decide)]
    rfl
  obtain ⟨m', hm', hwalk, -⟩ := pageTableAdd_refines (p := 0x300) bareDirectory_table hpool
    (by decide) (by decide) hw ⟨0, by decide, by decide⟩
  exact ⟨m', hm', hwalk⟩

end ZhuOS
