import ZhuOS.Arenas

/-!
# The kernel heap's invariant

`HeapOk` is `Arenas` for the descriptors of the kernel, with what the pages and the pool have to
do with it. `Partial` says no arena is free as a whole; it fails for one arena between the two
halves of a call.
-/

namespace ZhuOS

open PackedBits Slab

def kdesc (d : Nat) : DescPtr := ⟨none, d⟩

/-- The arena at `a` belongs to class `d`. -/
def ArenaOf (h : Heap) (own : List PageRange) (d a : Nat) : Prop :=
  ∃ r ∈ own, r.vaddr = a ∧ (h.arenaAt a).desc = some (kdesc d)

/-- A live block is a block of a small arena's class or the room of a large one. -/
def Placed (h : Heap) (own : List PageRange) (x : Block) : Prop :=
  (∃ d < DESC_CNT, ∃ a, ArenaOf h own d a ∧ x.addr ∈ slots d a ∧
    x.size ≤ (blockDescInit d).blockSize) ∨
  ∃ r ∈ own, LargeHeader h r ∧ x.addr = r.vaddr + SIZEOF_ARENA ∧
    x.size + SIZEOF_ARENA ≤ r.pgCnt * PG_SIZE

/-- The arenas are the ranges `own`; the page requests of others are `others`. -/
structure HeapOk (h : Heap) (own others : List PageRange) (live : List Block) : Prop where
  kernel : h.mem.running.pgdir = none
  poolSize : h.mem.kernelPool.poolSize ≤ 2 ^ 27
  pages : PagesOk h.mem (own ++ others)
  classes : ∀ d < DESC_CNT, (h.descs (kdesc d)).blockSize = (blockDescInit d).blockSize ∧
    (h.descs (kdesc d)).blocksPerArena = (blockDescInit d).blocksPerArena
  headers : ∀ r ∈ own, (∃ d < DESC_CNT, ∃ cnt, r.pgCnt = 1 ∧
    h.arenaAt r.vaddr = ⟨some (kdesc d), cnt, false⟩) ∨ LargeHeader h r
  slab : ∀ d < DESC_CNT,
    FreeList (slots d) (ArenaOf h own d) (Used live) (h.descs (kdesc d)).freeList
  cnt : ∀ d < DESC_CNT, ∀ a, ArenaOf h own d a →
    (h.arenaAt a).cnt = count block2arena (h.descs (kdesc d)).freeList a
  placed : ∀ x ∈ live, Placed h own x
  once : (live.map (·.addr)).Nodup
  large : ∀ r ∈ own, LargeHeader h r → Used live (r.vaddr + SIZEOF_ARENA)

/-- The arenas but `ex` have a block in use. -/
def PartialBut (h : Heap) (own : List PageRange) (ex : Nat) : Prop :=
  ∀ d < DESC_CNT, ∀ a, ArenaOf h own d a → a ≠ ex →
    (h.arenaAt a).cnt < (blockDescInit d).blocksPerArena

def Partial (h : Heap) (own : List PageRange) : Prop :=
  ∀ d < DESC_CNT, ∀ a, ArenaOf h own d a → (h.arenaAt a).cnt < (blockDescInit d).blocksPerArena

/-! ## The pages -/

/-- A live range is a run of pages of the heap that the hardware can read. -/
theorem PagesOk.range {m : Memory} {live : List PageRange} (h : PagesOk m live) {r : PageRange}
    (hr : r ∈ live) : ∃ i, r.vaddr = pageAddr i ∧ 1 ≤ r.pgCnt ∧ i + r.pgCnt ≤ 2 ^ 15 ∧
      ∃ fr, m.mmu.walk r.vaddr = .ok fr := by
  obtain ⟨f, hmap, hlive⟩ := h
  obtain ⟨i, hi, hpos⟩ := hlive.placed r hr
  have hcov : ∀ j, i ≤ j → j < i + r.pgCnt → ∃ k, f j = some k := by
    intro j hj hlt
    refine Option.isSome_iff_exists.mp ((hlive.owned j).mpr ⟨r, hr, ?_⟩)
    obtain ⟨v, n⟩ := r
    dsimp only at hi hlt ⊢
    subst hi
    exact covers_page.mpr ⟨hj, hlt⟩
  obtain ⟨k, hk⟩ := hcov i (Nat.le_refl _) (by omega)
  obtain ⟨l, hl⟩ := hcov (i + r.pgCnt - 1) (by omega) (by omega)
  have hlast := (hmap.bound _ l hl).1
  have hsize := hmap.vsize
  exact ⟨i, hi, hpos, by omega, _, hi ▸ hmap.walk hk⟩

theorem PagesOk.apart {m : Memory} {live : List PageRange} (h : PagesOk m live) :
    live.Pairwise PageRange.Apart := by
  obtain ⟨_, _, hlive⟩ := h
  exact hlive.apart

/-- Taking and releasing the pool's lock changes no page. -/
theorem PagesOk.setDepth {m : Memory} {live : List PageRange} (h : PagesOk m live) (n : Nat) :
    PagesOk { m with kernelPool := { m.kernelPool with lockDepth := n } } live := by
  obtain ⟨f, hmap, hlive⟩ := h
  exact ⟨f, ⟨⟨hmap.dir, hmap.vstart, hmap.kstart, hmap.vsize, hmap.ksize, hmap.ustart⟩,
    hmap.distinct, hmap.taken, hmap.bound, hmap.present, hmap.absent⟩,
    ⟨hlive.marked, hlive.owned, hlive.placed, hlive.apart⟩⟩

theorem PagesOk.ranges {m : Memory} {own others : List PageRange}
    (h : PagesOk m (own ++ others)) : Ranges own := by
  refine ⟨fun r hr => ?_, (List.pairwise_append.mp h.apart).1⟩
  obtain ⟨i, hi, hpos, hlt, -⟩ := h.range (List.mem_append_left _ hr)
  rw [hi]
  unfold pageAddr K_HEAP_START PG_SIZE
  omega

section

variable {h : Heap} {own others : List PageRange} {live : List Block} {d a : Nat}

namespace HeapOk

theorem arenas (hok : HeapOk h own others live) : Arenas none h own live :=
  ⟨hok.pages.ranges, hok.classes, hok.headers, hok.slab, hok.cnt, hok.placed, hok.once, hok.large⟩

theorem of_arenas (ha : Arenas none h own live) (hk : h.mem.running.pgdir = none)
    (hsize : h.mem.kernelPool.poolSize ≤ 2 ^ 27) (hp : PagesOk h.mem (own ++ others)) :
    HeapOk h own others live :=
  ⟨hk, hsize, hp, ha.classes, ha.headers, ha.slab, ha.cnt, ha.placed, ha.once, ha.large⟩

theorem own_range (hok : HeapOk h own others live) {r : PageRange} (hr : r ∈ own) :
    ∃ i, r.vaddr = pageAddr i ∧ 1 ≤ r.pgCnt ∧ i + r.pgCnt ≤ 2 ^ 15 ∧
      ∃ fr, h.mem.mmu.walk r.vaddr = .ok fr :=
  hok.pages.range (List.mem_append_left _ hr)

theorem arena_addr (hok : HeapOk h own others live) (ha : ArenaOf h own d a) :
    K_HEAP_START ≤ a ∧ ∃ fr, h.mem.mmu.walk a = .ok fr := by
  obtain ⟨r, hr, rfl, -⟩ := ha
  obtain ⟨i, hi, -, -, hw⟩ := hok.own_range hr
  refine ⟨?_, hw⟩
  rw [hi]
  exact Nat.le_add_right ..

end HeapOk

theorem readArena_ok {fr : Nat} (hw : h.mem.mmu.walk a = .ok fr) :
    h.readArena a = .ok (h.arenaAt a) := by
  simp only [Heap.readArena, hw, ok_bind]
  rfl

theorem readArena_setFreeList {l : List Nat} {e : DescPtr} {fr : Nat}
    (hw : h.mem.mmu.walk a = .ok fr) :
    (h.setFreeList e l).readArena a = .ok (h.arenaAt a) := readArena_ok (h := h.setFreeList e l) hw

theorem lockRelease_ok {m : Memory} (hm : 0 < m.kernelPool.lockDepth) :
    lockRelease m .PF_KERNEL =
      .ok { m with kernelPool := { m.kernelPool with
        lockDepth := m.kernelPool.lockDepth - 1 } } := by
  have hdepth : 0 < (m.pool .PF_KERNEL).lockDepth := hm
  simp only [lockRelease, ASSERT_true hdepth]
  rfl

/-! ## The parts of a call -/

/-- Taking the first free block of a class. -/
theorem takeBlock_ok (hok : HeapOk h own others live) (hd : d < DESC_CNT) {b size : Nat}
    {l : List Nat} (hl : (h.descs (kdesc d)).freeList = b :: l)
    (hsize : size ≤ (blockDescInit d).blockSize) (hpart : PartialBut h own (block2arena b))
    (hlock : 0 < h.mem.kernelPool.lockDepth) :
    ∃ h', takeBlock h .PF_KERNEL (kdesc d) = .ok (some b, h') ∧
      HeapOk h' own others (⟨b, size⟩ :: live) ∧ Partial h' own := by
  obtain ⟨ha, hok', hlt⟩ := hok.arenas.take hd hl hsize { h.mem with kernelPool :=
    { h.mem.kernelPool with lockDepth := h.mem.kernelPool.lockDepth - 1 } }
  obtain ⟨-, fr, hwalk⟩ := hok.arena_addr ha
  refine ⟨_, ?_, .of_arenas hok' hok.kernel hok.poolSize (hok.pages.setDepth _), ?_⟩
  · simp only [takeBlock, hl, readArena_setFreeList hwalk, ok_bind, Heap.setArena_mem,
      Heap.setFreeList_mem, lockRelease_ok hlock]
    rfl
  · intro e he c hc
    replace hc : ArenaOf h own e c := (arenaIn_setCnt rfl c).mp hc
    by_cases hca : c = block2arena b
    · subst hca
      obtain rfl := ha.class_eq hc
      simpa [Heap.setArena] using hlt
    · simpa [Heap.setArena, hca] using hpart e he c hc hca

/-! ## New arenas -/

/-- A page for a size class whose list is empty. -/
theorem newArena_ok (hok : HeapOk h own others live) (hpart : Partial h own)
    (hd : d < DESC_CNT) (hempty : (h.descs (kdesc d)).freeList = [])
    (hg : Grantable h.mem 1) :
    ∃ a h', newArena h .PF_KERNEL (kdesc d) = .ok (some a, h') ∧
      HeapOk h' (⟨a, 1⟩ :: own) others live ∧ PartialBut h' (⟨a, 1⟩ :: own) a ∧
      h.mem.Frame h'.mem ∧ ArenaOf h' (⟨a, 1⟩ :: own) d a ∧
      (h'.descs (kdesc d)).freeList = slots d a := by
  obtain ⟨⟨s, hs⟩, hfree⟩ := hg
  obtain ⟨i, m, hm, -, hpages, hframe⟩ := mallocPage_pages hok.pages (by decide) hs hfree
  have hpages : PagesOk m ((⟨pageAddr i, 1⟩ :: own) ++ others) := hpages
  have ho := hpages.ranges
  obtain ⟨hbs, hcnt⟩ := hok.classes d hd
  have happ : appendBlocks (h.descs (kdesc d)).blockSize (pageAddr i)
      (h.descs (kdesc d)).blocksPerArena 0 (h.descs (kdesc d)).freeList =
        .ok (slots d (pageAddr i)) := by
    rw [hempty, hbs, hcnt, appendBlocks_ok (by have := blockSize_pos d; omega) _ _ [] (by simp),
      List.nil_append, ← List.range_eq_range']
    rfl
  let hd' : Arena := ⟨some (kdesc d), (h.descs (kdesc d)).blocksPerArena, false⟩
  let h' : Heap := { h with mem := m, arenaAt := adoptAt h ⟨pageAddr i, 1⟩ hd' }
  have hnew : Arenas none (h'.setFreeList (kdesc d) (slots d (pageAddr i)))
      (⟨pageAddr i, 1⟩ :: own) live := hok.arenas.adoptSmall hd hempty ho rfl rfl
  have hin : ArenaOf (h'.setFreeList (kdesc d) (slots d (pageAddr i))) (⟨pageAddr i, 1⟩ :: own) d
      (pageAddr i) := ⟨_, List.mem_cons_self, rfl, by simp [h', hd', adoptAt]⟩
  refine ⟨pageAddr i, h'.setFreeList (kdesc d) (slots d (pageAddr i)), ?_,
    .of_arenas hnew (hframe.running ▸ hok.kernel) (hframe.poolSize ▸ hok.poolSize) hpages, ?_,
    hframe, hin, ?_⟩
  · simp only [newArena, hm, ok_bind, Heap.setArena_descs, happ]
    rfl
  · intro e he c hc hne
    rcases (ho.arenaIn_adopt rfl c).mp hc with ⟨rfl, -⟩ | hc
    · exact absurd rfl hne
    · have hold := hpart e he c hc
      obtain ⟨s, hs, rfl, -⟩ := hc
      have heq : h'.arenaAt s.vaddr = h.arenaAt s.vaddr := ho.adoptAt_own hs
      rw [← heq] at hold
      exact hold
  · simp

theorem divRoundUp_pages {size : Nat} (hsize : size < 2 ^ 27) :
    let n := DIV_ROUND_UP (size + SIZEOF_ARENA) PG_SIZE
    0 < n ∧ size + SIZEOF_ARENA ≤ n * PG_SIZE := by
  unfold DIV_ROUND_UP SIZEOF_ARENA PG_SIZE
  rw [u32_eq (by omega)]
  omega

/-- A large request gets an arena of its own. -/
theorem mallocLarge_ok (hok : HeapOk h own others live) (hpart : Partial h own) {size : Nat}
    (hsize : size < 2 ^ 27) (hlt : DIV_ROUND_UP (size + SIZEOF_ARENA) PG_SIZE < 3840)
    (hg : Grantable h.mem (DIV_ROUND_UP (size + SIZEOF_ARENA) PG_SIZE))
    (hlock : 0 < h.mem.kernelPool.lockDepth) :
    ∃ b h' own', mallocLarge h .PF_KERNEL size = .ok (some b, h') ∧
      HeapOk h' own' others (⟨b, size⟩ :: live) ∧ Partial h' own' := by
  obtain ⟨hpos, hfit⟩ := divRoundUp_pages hsize
  generalize hn : DIV_ROUND_UP (size + SIZEOF_ARENA) PG_SIZE = n at *
  obtain ⟨⟨s, hs⟩, hfree⟩ := hg
  obtain ⟨i, m, hm, -, hpages, hframe⟩ := mallocPage_pages hok.pages ⟨hpos, hlt⟩ hs hfree
  have hpages : PagesOk m ((⟨pageAddr i, n⟩ :: own) ++ others) := hpages
  have ho := hpages.ranges
  let h' : Heap :=
    { h with mem := { m with kernelPool := { m.kernelPool with
        lockDepth := m.kernelPool.lockDepth - 1 } }
             arenaAt := adoptAt h ⟨pageAddr i, n⟩ ⟨none, n, true⟩ }
  have hnew : Arenas none h' (⟨pageAddr i, n⟩ :: own)
      (⟨pageAddr i + SIZEOF_ARENA, size⟩ :: live) := hok.arenas.adoptLarge ho rfl rfl hfit
  refine ⟨pageAddr i + SIZEOF_ARENA, h', ⟨pageAddr i, n⟩ :: own, ?_,
    .of_arenas hnew (hframe.running ▸ hok.kernel) (hframe.poolSize ▸ hok.poolSize)
      (hpages.setDepth _), ?_⟩
  · have hdepth : 0 < m.kernelPool.lockDepth := by rw [hframe.lockDepth]; exact hlock
    simp only [mallocLarge, hn, hm, ok_bind, lockRelease_ok hdepth]
    rfl
  · intro e he c hc
    rcases (ho.arenaIn_adopt rfl c).mp hc with ⟨-, hnone⟩ | hc
    · cases hnone
    · have hold := hpart e he c hc
      obtain ⟨s, hs, rfl, -⟩ := hc
      have heq : h'.arenaAt s.vaddr = h.arenaAt s.vaddr := ho.adoptAt_own hs
      rw [← heq] at hold
      exact hold

/-! ## Requests -/

/-- The pages a request needs can be granted. -/
def PagesGranted (h : Heap) (size : Nat) : Prop :=
  if 1024 < size then
    DIV_ROUND_UP (size + SIZEOF_ARENA) PG_SIZE < 3840 ∧
      Grantable h.mem (DIV_ROUND_UP (size + SIZEOF_ARENA) PG_SIZE)
  else (h.descs (kdesc (findDesc (fun i => h.descs (kdesc i)) size DESC_CNT 0))).freeList = [] →
    Grantable h.mem 1

theorem mallocSmall_ok (hok : HeapOk h own others live) (hpart : Partial h own) {size : Nat}
    (hsize : size ≤ 1024) (hg : PagesGranted h size) (hlock : 0 < h.mem.kernelPool.lockDepth) :
    ∃ b h' own', mallocSmall h .PF_KERNEL size = .ok (some b, h') ∧
      HeapOk h' own' others (⟨b, size⟩ :: live) ∧ Partial h' own' := by
  have hfits := @findDesc_fits (fun i => h.descs (kdesc i)) size 6 0
    (by simpa [(hok.classes 6 (by decide)).1, blockDescInit] using hsize)
  rw [PagesGranted, if_neg (by omega)] at hg
  generalize hfind : findDesc (fun i => h.descs (kdesc i)) size DESC_CNT 0 = d at hg
  obtain ⟨hle, hfit⟩ : d ≤ 0 + 6 ∧ size ≤ (h.descs (kdesc d)).blockSize := hfind ▸ hfits
  have hd : d < DESC_CNT := Nat.lt_succ_of_le hle
  have hidx : findDesc (fun i => h.descs ⟨none, i⟩) size DESC_CNT 0 = d := hfind
  have hnot : ¬ DESC_CNT ≤ d := Nat.not_le.mpr hd
  rw [(hok.classes d hd).1] at hfit
  have hdesc : (⟨none, d⟩ : DescPtr) = kdesc d := rfl
  simp only [mallocSmall, hok.kernel, hidx, hnot, ↓reduceIte, hdesc]
  by_cases hempty : (h.descs (kdesc d)).freeList = []
  · obtain ⟨a, h₁, hnew, hok₁, hpart₁, hframe, ha, hl⟩ :=
      newArena_ok hok hpart hd hempty (hg hempty)
    have hpos : 0 < (blockDescInit d).blocksPerArena := by
      unfold DESC_CNT at hd
      interval_cases d <;> decide
    obtain ⟨l, hl'⟩ : ∃ l, slots d a = arena2block (blockDescInit d).blockSize a 0 :: l := by
      obtain ⟨n, hn⟩ := Nat.exists_eq_succ_of_ne_zero hpos.ne'
      exact ⟨_, by rw [slots, hn, List.range_succ_eq_map, List.map_cons]⟩
    have hhome := (hok₁.arenas.layout d).home a _ ha (mem_slots.mpr ⟨0, hpos, rfl⟩)
    obtain ⟨h₂, htake, hok₂, hpart₂⟩ := takeBlock_ok hok₁ hd (hl.trans hl') hfit
      (by rwa [hhome]) (by rw [hframe.lockDepth]; exact hlock)
    refine ⟨_, h₂, _, ?_, hok₂, hpart₂⟩
    rw [if_pos hempty]
    simp only [hnew, ok_bind, htake]
  · obtain ⟨b, l, hl⟩ := List.exists_cons_of_ne_nil hempty
    obtain ⟨h₂, htake, hok₂, hpart₂⟩ := takeBlock_ok hok hd hl hfit
      (fun e he c hc _ => hpart e he c hc) hlock
    refine ⟨b, h₂, own, ?_, hok₂, hpart₂⟩
    rw [if_neg hempty]
    simp only [htake]

/-! ## Releases -/

/-- A range that leaves takes no block of another arena along. -/
theorem HeapOk.erase (hok : HeapOk h own others live) {r : PageRange} (hr : r ∈ own)
    (hpart : PartialBut h own r.vaddr) {m : Memory} (hpages : PagesOk m ((own ++ others).erase r))
    (hframe : h.mem.Frame m) {descs' : DescPtr → MemBlockDesc} {live' : List Block}
    (ha : Arenas none { h with mem := m, descs := descs' } (own.erase r) live') :
    HeapOk { h with mem := m, descs := descs' } (own.erase r) others live' ∧
      Partial { h with mem := m, descs := descs' } (own.erase r) := by
  rw [List.erase_append_left _ hr] at hpages
  refine ⟨.of_arenas ha (hframe.running ▸ hok.kernel) (hframe.poolSize ▸ hok.poolSize) hpages, ?_⟩
  intro e he x hx
  obtain ⟨hne, hx⟩ := (hok.arenas.arenaIn_erase hr e x).mp hx
  exact hpart e he x hx hne

/-- An arena whose blocks are all free leaves with its page. -/
theorem dropArena_ok (hok : HeapOk h own others live) (hpart : PartialBut h own a)
    (hd : d < DESC_CNT) (ha : ArenaOf h own d a)
    (hfull : (h.arenaAt a).cnt = (blockDescInit d).blocksPerArena) :
    ∃ l m own', removeBlocks (h.descs (kdesc d)).blockSize a (h.descs (kdesc d)).blocksPerArena 0
        (h.descs (kdesc d)).freeList = .ok l ∧ mfreePage h.mem .PF_KERNEL a 1 = .ok m ∧
      HeapOk { h.setFreeList (kdesc d) l with mem := m } own' others live ∧
      Partial { h.setFreeList (kdesc d) l with mem := m } own' ∧ h.mem.Frame m := by
  obtain ⟨hr, -⟩ := hok.arenas.header ha
  obtain ⟨m, hm, hpages, hframe⟩ := mfreePage_pages hok.pages (List.mem_append_left others hr)
  obtain ⟨l, hremove, harenas⟩ := hok.arenas.drop hd ha hfull m
  obtain ⟨hok', hpart'⟩ := hok.erase hr hpart hpages hframe harenas
  exact ⟨l, m, own.erase ⟨a, 1⟩, hremove, hm, hok', hpart', hframe⟩

/-- A small block goes back to its class, and the last one takes its arena along. -/
theorem freeSmall_ok (hok : HeapOk h own others live) (hpart : Partial h own) {x : Block}
    (hx : x ∈ live) (hd : d < DESC_CNT) (ha : ArenaOf h own d a) (hin : x.addr ∈ slots d a) :
    ∃ h' own', freeSmall h .PF_KERNEL x.addr (h.arenaAt a) = .ok h' ∧
      HeapOk h' own' others (live.erase x) ∧ Partial h' own' ∧ h.mem.Frame h'.mem := by
  have hhome : block2arena x.addr = a := (hok.arenas.layout d).home a _ ha hin
  obtain ⟨-, cnt, hhead⟩ := hok.arenas.header ha
  obtain ⟨h₁, hg⟩ : ∃ h₁, h₁ = (h.setFreeList (kdesc d) ((h.descs (kdesc d)).freeList ++
    [x.addr])).setArena a { h.arenaAt a with cnt := u32 ((h.arenaAt a).cnt + 1) } := ⟨_, rfl⟩
  have hgive : Arenas none h₁ own (live.erase x) := by
    rw [hg]
    exact hok.arenas.give hx hd ha hin h.mem
  have hmem₁ : h₁.mem = h.mem := by rw [hg]; rfl
  have hat₁ : h₁.arenaAt = Function.update h.arenaAt a
      { h.arenaAt a with cnt := u32 ((h.arenaAt a).cnt + 1) } := by rw [hg]; rfl
  have hok₁ : HeapOk h₁ own others (live.erase x) := .of_arenas hgive (by rw [hmem₁, hok.kernel])
    (by rw [hmem₁]; exact hok.poolSize) (by rw [hmem₁]; exact hok.pages)
  have ha₁ : ArenaOf h₁ own d a := (arenaIn_setCnt hat₁ a).mpr ha
  have hcnt₁ : (h₁.arenaAt a).cnt = u32 ((h.arenaAt a).cnt + 1) := by rw [hat₁]; simp
  have hpart₁ : PartialBut h₁ own a := by
    intro e he c hc hca
    rw [hat₁, Function.update_of_ne hca]
    exact hpart e he c ((arenaIn_setCnt hat₁ c).mp hc)
  obtain ⟨-, hbpa₁⟩ := hok₁.classes d hd
  have hcode : freeSmall h .PF_KERNEL x.addr (h.arenaAt a) =
      if u32 ((h.arenaAt a).cnt + 1) = (h₁.descs (kdesc d)).blocksPerArena then do
        let l ← removeBlocks (h₁.descs (kdesc d)).blockSize a
          (h₁.descs (kdesc d)).blocksPerArena 0 (h₁.descs (kdesc d)).freeList
        return { h₁.setFreeList (kdesc d) l with mem := ← mfreePage h₁.mem .PF_KERNEL a 1 }
      else return h₁ := by
    rw [hg]
    simp only [freeSmall, hhome, hhead]
    rfl
  rw [hcode]
  by_cases hfull : u32 ((h.arenaAt a).cnt + 1) = (h₁.descs (kdesc d)).blocksPerArena
  · obtain ⟨l', m, own', hrem, hfree, hok₂, hpart₂, hframe⟩ :=
      dropArena_ok hok₁ hpart₁ hd ha₁ (by rw [hcnt₁, hfull, hbpa₁])
    refine ⟨_, own', ?_, hok₂, hpart₂, hmem₁ ▸ hframe⟩
    rw [if_pos hfull]
    simp only [hrem, hfree, ok_bind]
    rfl
  · refine ⟨h₁, own, if_neg hfull, hok₁, ?_, hmem₁ ▸ ⟨rfl, rfl, rfl⟩⟩
    intro e he c hc
    by_cases hca : c = a
    · subst hca
      obtain rfl : d = e := ArenaIn.class_eq ha₁ hc
      have hlt := hpart d hd c ha
      have hbpa := blocksPerArena_lt d
      rw [hbpa₁, u32_eq (by omega)] at hfull
      rw [hcnt₁, u32_eq (by omega)]
      omega
    · exact hpart₁ e he c hc hca

/-- The pages of a large block go back. -/
theorem freeLarge_ok (hok : HeapOk h own others live) (hpart : Partial h own) {x : Block}
    (hx : x ∈ live) {r : PageRange} (hr : r ∈ own) (hl : LargeHeader h r)
    (haddr : x.addr = r.vaddr + SIZEOF_ARENA) :
    ∃ m, mfreePage h.mem .PF_KERNEL r.vaddr r.pgCnt = .ok m ∧ h.mem.Frame m ∧
      HeapOk { h with mem := m } (own.erase r) others (live.erase x) ∧
      Partial { h with mem := m } (own.erase r) := by
  obtain ⟨m, hm, hpages, hframe⟩ := mfreePage_pages hok.pages (List.mem_append_left others hr)
  exact ⟨m, hm, hframe, hok.erase hr (fun e he c hc _ => hpart e he c hc) hpages hframe
    (hok.arenas.dropLarge hx hr hl haddr m)⟩

/-! ## The two calls -/

theorem poolFlags_kernel (hk : h.mem.running.pgdir = none) : h.poolFlags = .PF_KERNEL := if_pos hk

theorem HeapOk.acquire (hok : HeapOk h own others live) :
    HeapOk { h with mem := lockAcquire h.mem .PF_KERNEL } own others live :=
  ⟨hok.kernel, hok.poolSize, hok.pages.setDepth _, hok.classes, hok.headers, hok.slab, hok.cnt,
    hok.placed, hok.once, hok.large⟩

/-- Every valid request whose pages are granted is met. -/
theorem sysMalloc_ok (hok : HeapOk h own others live) (hpart : Partial h own) {size : Nat}
    (hsize : 0 < size ∧ size < h.mem.kernelPool.poolSize) (hg : PagesGranted h size) :
    ∃ b h' own', sysMalloc h size = .ok (some b, h') ∧
      HeapOk h' own' others (⟨b, size⟩ :: live) ∧ Partial h' own' := by
  have hvalid : ¬ ¬ (0 < size ∧ size < (h.mem.pool .PF_KERNEL).poolSize) := not_not.mpr hsize
  have hpool := hok.poolSize
  have hlock : 0 < (lockAcquire h.mem .PF_KERNEL).kernelPool.lockDepth := Nat.succ_pos _
  simp only [sysMalloc, poolFlags_kernel hok.kernel, if_neg hvalid]
  by_cases hbig : 1024 < size
  · rw [PagesGranted, if_pos hbig] at hg
    simp only [if_pos hbig]
    exact mallocLarge_ok hok.acquire hpart (by omega) hg.1 hg.2 hlock
  · simp only [if_neg hbig]
    exact mallocSmall_ok hok.acquire hpart (Nat.le_of_not_lt hbig) hg hlock

/-- A request of no bytes, or of the whole pool, gets `NULL` and changes nothing. -/
theorem sysMalloc_invalid (hk : h.mem.running.pgdir = none) {size : Nat}
    (hsize : ¬ (0 < size ∧ size < h.mem.kernelPool.poolSize)) :
    sysMalloc h size = .ok (none, h) := by
  have hinvalid : ¬ (0 < size ∧ size < (h.mem.pool .PF_KERNEL).poolSize) := hsize
  simp only [sysMalloc, poolFlags_kernel hk, if_pos hinvalid]
  rfl

/-- Every live block can be released. -/
theorem sysFree_ok (hok : HeapOk h own others live) (hpart : Partial h own) {x : Block}
    (hx : x ∈ live) : ∃ h' own', sysFree h x.addr = .ok h' ∧
      HeapOk h' own' others (live.erase x) ∧ Partial h' own' := by
  have hok₀ := hok.acquire
  generalize hm₀ : lockAcquire h.mem .PF_KERNEL = m₀ at hok₀
  have hlock : 0 < m₀.kernelPool.lockDepth := by rw [← hm₀]; exact Nat.succ_pos _
  have hrelease : ∀ {h₁ : Heap} {own' : List PageRange}, m₀.Frame h₁.mem →
      HeapOk h₁ own' others (live.erase x) → Partial h₁ own' →
      ∃ m, lockRelease h₁.mem .PF_KERNEL = .ok m ∧
        HeapOk { h₁ with mem := m } own' others (live.erase x) ∧
        Partial { h₁ with mem := m } own' := by
    intro h₁ own' hframe hok₁ hpart₁
    exact ⟨_, lockRelease_ok (by rw [hframe.lockDepth]; exact hlock),
      ⟨hok₁.kernel, hok₁.poolSize, hok₁.pages.setDepth _, hok₁.classes, hok₁.headers, hok₁.slab,
        hok₁.cnt, hok₁.placed, hok₁.once, hok₁.large⟩, hpart₁⟩
  rcases hok.placed x hx with ⟨d, hd, a, ha, hin, -⟩ | ⟨r, hr, hl, haddr, -⟩
  · have hhome : block2arena x.addr = a := (hok.arenas.layout d).home a _ ha hin
    obtain ⟨hstart, fr, hw⟩ := hok₀.arena_addr ha
    obtain ⟨-, cnt, hhead⟩ := hok.arenas.header ha
    have hge : K_HEAP_START ≤ x.addr := by
      obtain ⟨i, -, hi⟩ := mem_slots.mp hin
      unfold arena2block at hi
      omega
    obtain ⟨h₁, own', hfree, hok₁, hpart₁, hframe⟩ := freeSmall_ok hok₀ hpart hx hd ha hin
    obtain ⟨m, hm, hok₂, hpart₂⟩ := hrelease hframe hok₁ hpart₁
    refine ⟨_, own', ?_, hok₂, hpart₂⟩
    rw [hhead] at hfree
    simp only [sysFree, poolFlags_kernel hok.kernel, hm₀, hhome, readArena_ok hw, hhead, ok_bind,
      ASSERT_true hge, ASSERT_true (show x.addr ≠ 0 by unfold K_HEAP_START at hge; omega),
      ↓reduceIte, reduceCtorEq, false_and, hfree, hm]
    rfl
  · have hhome : block2arena x.addr = r.vaddr := by rw [haddr, hok.arenas.large_home hr]
    obtain ⟨i, hi, -, -, fr, hw⟩ := hok₀.own_range hr
    have hge : K_HEAP_START ≤ x.addr := by
      rw [haddr, hi]
      unfold pageAddr
      omega
    obtain ⟨m₁, hfree, hframe, hok₁, hpart₁⟩ := freeLarge_ok hok₀ hpart hx hr hl haddr
    obtain ⟨m, hm, hok₂, hpart₂⟩ := hrelease hframe hok₁ hpart₁
    refine ⟨_, _, ?_, hok₂, hpart₂⟩
    have hhead : h.arenaAt r.vaddr = ⟨none, r.pgCnt, true⟩ := hl
    dsimp only at hm
    simp only [sysFree, poolFlags_kernel hok.kernel, hm₀, hhome, readArena_ok hw, hhead, ok_bind,
      ASSERT_true hge, ASSERT_true (show x.addr ≠ 0 by unfold K_HEAP_START at hge; omega),
      ↓reduceIte, and_self, hfree, pure_bind, hm]
    rfl

end

end ZhuOS
