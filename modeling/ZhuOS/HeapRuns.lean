import ZhuOS.HeapBlocks

/-!
# Runs of `sys_malloc` and `sys_free`

`HeapSound` says what the callers and the page pool may rely on, in terms of the
arena headers, the free lists and the bitmaps. It follows from `HeapOk`, which
every call of a run keeps.
-/

namespace ZhuOS

open PackedBits Slab

/-- The room of the block at `b`, from the header of its arena. -/
def Heap.room (h : Heap) (b : Nat) : Nat :=
  let hd := h.arenaAt (block2arena b)
  match hd.desc with
  | none => hd.cnt * PG_SIZE - SIZEOF_ARENA
  | some d => (h.descs d).blockSize

/-- `b` is a block of an arena of class `d`. -/
def Heap.IsBlock (h : Heap) (arenas : List PageRange) (d b : Nat) : Prop :=
  ∃ r ∈ arenas, (h.arenaAt r.vaddr).desc = some (kdesc d) ∧
    ∃ i < (h.descs (kdesc d)).blocksPerArena,
      b = arena2block (h.descs (kdesc d)).blockSize r.vaddr i

/-- The heap as its callers see it: `arenas` are its page ranges, `others` those
of the other callers of the page pool. -/
structure HeapSound (h : Heap) (arenas others : List PageRange) (live : List Block) : Prop where
  pages : Consistent h.mem (arenas ++ others)
  disjoint : live.Pairwise fun x y =>
    x.addr + h.room x.addr ≤ y.addr ∨ y.addr + h.room y.addr ≤ x.addr
  fits : ∀ x ∈ live, x.size ≤ h.room x.addr
  inside : ∀ x ∈ live, ∃ r ∈ arenas, r.vaddr = block2arena x.addr ∧
    r.vaddr + SIZEOF_ARENA ≤ x.addr ∧ x.addr + h.room x.addr ≤ r.vaddr + PG_SIZE * r.pgCnt
  once : ∀ d < DESC_CNT, (h.descs (kdesc d)).freeList.Nodup
  exact : ∀ d < DESC_CNT, ∀ b, b ∈ (h.descs (kdesc d)).freeList ↔
    h.IsBlock arenas d b ∧ ∀ x ∈ live, x.addr ≠ b
  cnt : ∀ r ∈ arenas, ∀ d, (h.arenaAt r.vaddr).desc = some d →
    (h.arenaAt r.vaddr).cnt = (h.descs d).freeList.countP (block2arena · = r.vaddr) ∧
      (h.arenaAt r.vaddr).cnt < (h.descs d).blocksPerArena
  returned : live = [] → arenas = []

section

variable {h : Heap} {own others : List PageRange} {live : List Block}

/-- Where a live block lies. -/
structure Lies (h : Heap) (own : List PageRange) (x : Block) (r : PageRange) : Prop where
  mem : r ∈ own
  home : r.vaddr = block2arena x.addr
  above : r.vaddr + SIZEOF_ARENA ≤ x.addr
  below : x.addr + h.room x.addr ≤ r.vaddr + PG_SIZE * r.pgCnt

theorem HeapOk.lies (hok : HeapOk h own others live) {x : Block} (hx : x ∈ live) :
    x.size ≤ h.room x.addr ∧ ∃ r, Lies h own x r := by
  rcases hok.placed x hx with ⟨d, hd, a, ha, hin, hsize⟩ | ⟨r, hr, hl, haddr, hsize⟩
  · have hhome := (hok.arenas.layout d).home a _ ha hin
    obtain ⟨hr, cnt, hhead⟩ := hok.arenas.header ha
    have hroom : h.room x.addr = (blockDescInit d).blockSize := by
      simp only [Heap.room, hhome, hhead]
      exact (hok.classes d hd).1
    refine ⟨hroom ▸ hsize, ⟨a, 1⟩, hr, hhome.symm, ?_, ?_⟩
    · obtain ⟨i, -, hi⟩ := mem_slots.mp hin
      unfold arena2block at hi
      dsimp only
      omega
    · obtain ⟨i, hi, hi'⟩ := mem_slots.mp hin
      have := slot_inside hi
      rw [Nat.succ_mul] at this
      rw [hroom, ← hi']
      unfold arena2block SIZEOF_ARENA PG_SIZE
      dsimp only
      omega
  · have hhome : block2arena x.addr = r.vaddr := by rw [haddr, hok.arenas.large_home hr]
    have hroom : h.room x.addr = r.pgCnt * PG_SIZE - SIZEOF_ARENA := by
      simp only [Heap.room, hhome, show h.arenaAt r.vaddr = _ from hl]
    refine ⟨by omega, r, hr, hhome.symm, by omega, ?_⟩
    rw [hroom, haddr]
    rw [Nat.mul_comm] at hsize ⊢
    omega

/-- Two blocks of one class and arena do not overlap. -/
theorem slots_apart {d a b c : Nat} (hb : b ∈ slots d a) (hc : c ∈ slots d a) (hne : b ≠ c) :
    b + (blockDescInit d).blockSize ≤ c ∨ c + (blockDescInit d).blockSize ≤ b := by
  obtain ⟨i, -, rfl⟩ := mem_slots.mp hb
  obtain ⟨j, -, rfl⟩ := mem_slots.mp hc
  unfold arena2block
  rcases Nat.lt_trichotomy i j with hij | rfl | hij
  · have := Nat.mul_le_mul_right (blockDescInit d).blockSize hij
    rw [Nat.succ_mul] at this
    omega
  · exact absurd rfl hne
  · have := Nat.mul_le_mul_right (blockDescInit d).blockSize hij
    rw [Nat.succ_mul] at this
    omega

theorem HeapOk.blocks_apart (hok : HeapOk h own others live) {x y : Block} (hx : x ∈ live)
    (hy : y ∈ live) (hne : x.addr ≠ y.addr) :
    x.addr + h.room x.addr ≤ y.addr ∨ y.addr + h.room y.addr ≤ x.addr := by
  obtain ⟨-, r, hr⟩ := hok.lies hx
  obtain ⟨-, s, hs⟩ := hok.lies hy
  by_cases hrs : r = s
  · subst hrs
    have hhome := hr.home.symm.trans hs.home
    rcases hok.placed x hx with ⟨d, hd, a, ha, hin, -⟩ | ⟨t, ht, hl, haddr, -⟩
    · -- one small arena: its blocks are slots of one class
      have hxa := (hok.arenas.layout d).home a _ ha hin
      have hya : y.addr ∈ slots d a := hok.arenas.slot_of_home ha ⟨y, hy, rfl⟩ (hhome ▸ hxa)
      obtain ⟨-, cnt, hhead⟩ := hok.arenas.header ha
      have hroom : ∀ z : Block, block2arena z.addr = a →
          h.room z.addr = (blockDescInit d).blockSize := by
        intro z hz
        simp only [Heap.room, hz, hhead]
        exact (hok.classes d hd).1
      rw [hroom x hxa, hroom y (hhome ▸ hxa)]
      exact slots_apart hin hya hne
    · -- a large arena has one block
      have hxa : block2arena x.addr = t.vaddr := by rw [haddr, hok.arenas.large_home ht]
      rcases hok.placed y hy with ⟨d, -, a, ha, hin, -⟩ | ⟨u, hu, -, hyaddr, -⟩
      · have hya := (hok.arenas.layout d).home a _ ha hin
        exact absurd (hxa.symm.trans (hhome.trans hya)) (ArenaIn.not_large ha hl)
      · have hya : block2arena y.addr = u.vaddr := by rw [hyaddr, hok.arenas.large_home hu]
        rw [haddr, hyaddr, hxa.symm.trans (hhome.trans hya)] at hne
        exact absurd rfl hne
  · have hap := hok.arenas.ranges.apart.forall hr.mem hs.mem hrs
    have := hr.above
    have := hr.below
    have := hs.above
    have := hs.below
    unfold PageRange.Apart at hap
    omega

/-- With no block live, no arena is left. -/
theorem HeapOk.returned (hok : HeapOk h own others []) (hpart : Partial h own) : own = [] := by
  have hunused : ∀ y, ¬ Used [] y := fun y ⟨_, hx, _⟩ => nomatch hx
  apply List.eq_nil_iff_forall_not_mem.mpr
  intro r hr
  rcases hok.headers r hr with ⟨d, hd, cnt, -, hhead⟩ | hl
  · have ha : ArenaOf h own d r.vaddr := ⟨r, hr, rfl, by rw [hhead]⟩
    have hfull := (hok.slab d hd).count_full (hok.arenas.layout d) ha fun b _ => hunused b
    have hlt := hpart d hd _ ha
    rw [hok.cnt d hd _ ha, hfull, slots_length] at hlt
    exact Nat.lt_irrefl _ hlt
  · exact hunused _ (hok.large r hr hl)

theorem HeapOk.sound (hok : HeapOk h own others live) (hpart : Partial h own) :
    HeapSound h own others live := by
  refine ⟨hok.pages.consistent, ?_, fun x hx => (hok.lies hx).1, fun x hx => ?_,
    fun d hd => (hok.slab d hd).nodup, fun d hd b => ?_, fun r hr d hd => ?_, ?_⟩
  · exact (List.pairwise_map.mp hok.once).imp_of_mem fun hx hy hne => hok.blocks_apart hx hy hne
  · obtain ⟨-, r, hr⟩ := hok.lies hx
    exact ⟨r, hr.mem, hr.home, hr.above, hr.below⟩
  · obtain ⟨hbs, hbpa⟩ := hok.classes d hd
    rw [(hok.slab d hd).exact, Heap.IsBlock, hbs, hbpa]
    refine and_congr ?_ (by simp [Used])
    constructor
    · rintro ⟨_, ⟨r, hr, rfl, hdesc⟩, hin⟩
      obtain ⟨i, hi, hb⟩ := mem_slots.mp hin
      exact ⟨r, hr, hdesc, i, hi, hb.symm⟩
    · rintro ⟨r, hr, hdesc, i, hi, hb⟩
      exact ⟨_, ⟨r, hr, rfl, hdesc⟩, mem_slots.mpr ⟨i, hi, hb.symm⟩⟩
  · rcases hok.headers r hr with ⟨e, he, cnt, -, hhead⟩ | hl
    · have hde : d = kdesc e := by
        rw [hhead] at hd
        exact (Option.some.inj hd).symm
      subst hde
      have ha : ArenaOf h own e r.vaddr := ⟨r, hr, rfl, hd⟩
      exact ⟨hok.cnt e he _ ha, by rw [(hok.classes e he).2]; exact hpart e he _ ha⟩
    · rw [show h.arenaAt r.vaddr = _ from hl] at hd
      cases hd
  · rintro rfl
    exact hok.returned hpart

end

/-! ## Runs -/

structure HeapRun where
  heap : Heap
  live : List Block

inductive HeapCall
  | sysMalloc (size : Nat)
  | sysFree (x : Block)

namespace HeapRun

def exec (s : HeapRun) : HeapCall → Except Fault HeapRun
  | .sysMalloc size => do
    let (ptr, heap) ← ZhuOS.sysMalloc s.heap size
    match ptr with
    | none => return { s with heap }
    | some addr => return { heap, live := ⟨addr, size⟩ :: s.live }
  | .sysFree x => do
    let heap ← ZhuOS.sysFree s.heap x.addr
    return { heap, live := s.live.erase x }

/-- What a size must be for `sys_malloc` to look for memory at all. -/
def ValidSize (h : Heap) (size : Nat) : Prop := 0 < size ∧ size < h.mem.kernelPool.poolSize

/-- Page requests succeed, and what is freed is live. -/
def guard (s : HeapRun) : HeapCall → Prop
  | .sysMalloc size => ValidSize s.heap size → PagesGranted s.heap size
  | .sysFree x => x ∈ s.live

def system : Guarded.System HeapRun HeapCall Fault := ⟨guard, exec⟩

def Ok (others : List PageRange) (s : HeapRun) : Prop :=
  ∃ own, HeapOk s.heap own others s.live ∧ Partial s.heap own

variable {others : List PageRange} {s : HeapRun}

theorem exec_sysMalloc (hs : Ok others s) {size : Nat} (hsize : ValidSize s.heap size)
    (hg : s.guard (.sysMalloc size)) : ∃ addr s', s.exec (.sysMalloc size) = .ok s' ∧
      s'.live = ⟨addr, size⟩ :: s.live ∧ Ok others s' := by
  obtain ⟨own, hok, hpart⟩ := hs
  obtain ⟨b, h', own', hm, hok', hpart'⟩ := sysMalloc_ok hok hpart hsize (hg hsize)
  exact ⟨b, ⟨h', _⟩, by simp only [exec, hm, ok_bind]; rfl, rfl, own', hok', hpart'⟩

theorem exec_sysFree (hs : Ok others s) {x : Block} (hx : x ∈ s.live) :
    ∃ s', s.exec (.sysFree x) = .ok s' ∧ Ok others s' := by
  obtain ⟨own, hok, hpart⟩ := hs
  obtain ⟨h', own', hf, hok', hpart'⟩ := sysFree_ok hok hpart hx
  exact ⟨⟨h', _⟩, by simp only [exec, hf, ok_bind]; rfl, own', hok', hpart'⟩

theorem keeps (others : List PageRange) : Guarded.Keeps system (Ok others) := by
  intro s e hs hg
  cases e with
  | sysMalloc size =>
    by_cases hsize : ValidSize s.heap size
    · obtain ⟨_, s', hs', -, hok⟩ := exec_sysMalloc hs hsize hg
      exact ⟨s', hs', hok⟩
    · obtain ⟨own, hok, hpart⟩ := hs
      refine ⟨s, ?_, own, hok, hpart⟩
      simp only [system, exec, sysMalloc_invalid hok.kernel hsize, ok_bind]
      rfl
  | sysFree x => exact exec_sysFree hs hg

end HeapRun

/-- A new heap has no arena. -/
theorem heapOk_init {mem : Memory} {others : List PageRange} (hp : PagesOk mem others)
    (hk : mem.running.pgdir = none) (hsize : mem.kernelPool.poolSize ≤ 2 ^ 27)
    (arenaAt : Nat → Arena) : HeapRun.Ok others ⟨.init mem arenaAt, []⟩ := by
  have hnone : ∀ d a, ¬ ArenaOf (.init mem arenaAt) [] d a := fun d a ⟨_, hr, _⟩ => nomatch hr
  refine ⟨[], ⟨hk, hsize, hp, fun _ _ => ⟨rfl, rfl⟩, fun r hr => (nomatch hr), ?_,
    fun d _ a ha => absurd ha (hnone d a), fun x hx => (nomatch hx), List.nodup_nil,
    fun r hr => (nomatch hr)⟩, fun d _ a ha => absurd ha (hnone d a)⟩
  exact fun d _ => ⟨List.nodup_nil, fun b => iff_of_false (List.not_mem_nil) fun ⟨⟨a, ha, _⟩, _⟩ =>
    hnone d a ha⟩

/-- After every run of requests and releases by kernel threads, from the state the
initialisation and any page requests left, the heap is sound and the next call
goes through: a valid request gets a block, a live block can be released. -/
theorem heap_run {mmu : Mmu} (hl : LoaderPaging mmu) {running : Task} (hk : running.pgdir = none)
    (byteAt : Nat → UInt8) (allMem : Nat) (arenaAt : Nat → Arena) {pageCalls : List PageCall}
    {k : KernelPages}
    (hpages : Guarded.Run KernelPages.system (.boot mmu running byteAt allMem) pageCalls k)
    {calls : List HeapCall} {s : HeapRun}
    (hrun : Guarded.Run HeapRun.system ⟨.init k.mem arenaAt, []⟩ calls s) :
    (∃ arenas, HeapSound s.heap arenas k.live s.live) ∧
    (∀ size, HeapRun.ValidSize s.heap size → PagesGranted s.heap size →
      ∃ addr s', s.exec (.sysMalloc size) = .ok s' ∧ s'.live = ⟨addr, size⟩ :: s.live) ∧
    ∀ x ∈ s.live, ∃ s', s.exec (.sysFree x) = .ok s' := by
  obtain ⟨hk₀, hframe⟩ := kernelPages_ok hl hpages
  have hpool : k.mem.kernelPool.poolSize ≤ 2 ^ 27 := by
    have := kernelFreePages_lt allMem
    rw [hframe.poolSize]
    simp only [memPoolInit, PG_SIZE]
    omega
  have hok := hrun.invariant (HeapRun.keeps k.live)
    (heapOk_init hk₀ (hframe.running ▸ hk) hpool arenaAt)
  refine ⟨?_, fun size hsize hg => ?_, fun x hx => ?_⟩
  · obtain ⟨own, hok, hpart⟩ := hok
    exact ⟨own, hok.sound hpart⟩
  · obtain ⟨addr, s', hs', hlive, -⟩ := HeapRun.exec_sysMalloc hok hsize fun _ => hg
    exact ⟨addr, s', hs', hlive⟩
  · obtain ⟨s', hs', -⟩ := HeapRun.exec_sysFree hok hx
    exact ⟨s', hs'⟩

/-- The heap of a 32 MB machine in a kernel thread, before the first request. -/
def firstHeap : HeapRun :=
  let thread : Task := ⟨none, ⟨⟨0, fun _ => 0⟩, 0⟩⟩
  ⟨.init (KernelPages.boot loaderMmu thread (fun _ => 0) 0x2000000).mem fun _ => ⟨none, 0, false⟩,
    []⟩

theorem firstHeap_granted : PagesGranted firstHeap.heap 100 := by
  rw [PagesGranted, if_neg (by decide)]
  exact fun _ => memPoolInit_grantable (by decide)

/-- A first request of 100 bytes is met, and leaves a sound heap. -/
theorem heap_run_first : ∃ s, firstHeap.exec (.sysMalloc 100) = .ok s ∧
    ∃ arenas, HeapSound s.heap arenas [] s.live := by
  have hvalid : HeapRun.ValidSize firstHeap.heap 100 := ⟨by decide, by decide⟩
  obtain ⟨_, s, hs, -⟩ := (heap_run loaderMmu_paging (by rfl) _ _ _ (.nil _)
    (.nil firstHeap)).2.1 100 hvalid firstHeap_granted
  have hrun : Guarded.Run HeapRun.system firstHeap [.sysMalloc 100] s :=
    .cons (fun _ => firstHeap_granted) hs (.nil s)
  exact ⟨s, hs, (heap_run loaderMmu_paging (by rfl) _ _ _ (.nil _) hrun).1⟩

end ZhuOS
