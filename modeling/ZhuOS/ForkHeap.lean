import ZhuOS.Fork
import ZhuOS.HeapRuns
import ZhuOS.UserPages

/-!
# The heap of a child

`fork` gives the child descriptors of its own, with empty lists, and copies the parent's pages as
they are: the header of a small arena still points at the descriptor of the parent. The child's
heap is right, and the parent's lists are left alone, when no block of a size class is inherited.
-/

namespace ZhuOS

open PackedBits Slab

/-- `block_desc_init` on the descriptors of the process with this page directory. -/
def Heap.initDescs (h : Heap) (pgdir : Option Nat) : DescPtr → MemBlockDesc :=
  fun p => if p.pgdir = pgdir then blockDescInit p.idx else h.descs p

/-- `sys_fork`, up to where the child with page directory `child` runs: the headers and the marks
are copies of the parent's. -/
def forkHeap (h : Heap) (child : Option Nat) (bufPage : Nat) : Except Fault Heap := do
  let mem ← copyBodyStack3 h.mem child bufPage
  let mem ← pageDirActivate mem child
  return { h with
    mem := { mem with running := ⟨child, h.mem.running.userprogVaddr⟩ }
    descs := h.initDescs child }

/-- A call asks for this many pages. -/
def AsksPages (h : Heap) (size n : Nat) : Prop :=
  1024 < size ∧ n = DIV_ROUND_UP (size + SIZEOF_ARENA) PG_SIZE ∨
  size ≤ 1024 ∧ n = 1 ∧ (h.descs ⟨h.mem.running.pgdir, findDesc
    (fun i => h.descs ⟨h.mem.running.pgdir, i⟩) size DESC_CNT 0⟩).freeList = []

namespace HeapRun

/-- What is freed is live. -/
def childGuard (s : HeapRun) : HeapCall → Prop
  | .sysMalloc _ => True
  | .sysFree x => x ∈ s.live

/-- The run of marks that `vaddr_get` finds is one whose address, start plus index plus 4096, is
that of a page. -/
def PageAligned (s : HeapRun) : HeapCall → Prop
  | .sysMalloc size => ∀ n i, AsksPages s.heap size n →
      bitmapScan s.heap.mem.running.userprogVaddr.vaddrBitmap n = .ok (some i) → i % PG_SIZE = 0
  | .sysFree _ => True

def childSystem : Guarded.System HeapRun HeapCall Fault := ⟨childGuard, exec⟩

end HeapRun

/-- The descriptors of other processes are as they were, and the arenas and lists of process `o`
are as they should be. -/
structure ChildRight (parent : Heap) (o : Option Nat) (s : HeapRun) : Prop where
  parentLists : ∀ p, p.pgdir ≠ o → s.heap.descs p = parent.descs p
  heap : ∃ arenas, Arenas o s.heap arenas s.live

/-! ## The parts of a call -/

section

variable {o : Option Nat} {h h' : Heap} {own : List PageRange} {live : List Block} {d a : Nat}
  {r : Option Nat} {pf : PoolFlags}

/-- What a call on the heap of `o` leaves alone. -/
def OthersKept (o : Option Nat) (h h' : Heap) : Prop := ∀ p, p.pgdir ≠ o → h'.descs p = h.descs p

theorem OthersKept.trans {h'' : Heap} (hk : OthersKept o h h') (hk' : OthersKept o h' h'') :
    OthersKept o h h'' := fun p hp => (hk' p hp).trans (hk p hp)

theorem othersKept_setFreeList (h : Heap) (o : Option Nat) (d : Nat) (l : List Nat) :
    OthersKept o h (h.setFreeList ⟨o, d⟩ l) := by
  intro p hp
  have hne : p ≠ ⟨o, d⟩ := by
    rintro rfl
    exact hp rfl
  exact Function.update_of_ne hne ..

theorem takeBlock_arenas (ht : takeBlock h pf ⟨o, d⟩ = .ok (r, h')) (hok : Arenas o h own live)
    (hd : d < DESC_CNT) {size : Nat} (hsize : size ≤ (blockDescInit d).blockSize) :
    ∃ b, r = some b ∧ lockRelease h.mem pf = .ok h'.mem ∧ OthersKept o h h' ∧
      Arenas o h' own (⟨b, size⟩ :: live) := by
  unfold takeBlock at ht
  cases hl : (h.descs ⟨o, d⟩).freeList with
  | nil =>
    rw [hl] at ht
    cases ht
  | cons b l =>
    rw [hl] at ht
    obtain ⟨hd', hread, ht⟩ := bind_ok.mp ht
    obtain ⟨_, -, hread⟩ := bind_ok.mp hread
    cases hread
    obtain ⟨m, hm, ht⟩ := bind_ok.mp ht
    cases ht
    exact ⟨b, rfl, hm, othersKept_setFreeList h o d l, (hok.take hd hl hsize m).2.1⟩

theorem newArena_arenas (hn : newArena h pf ⟨o, d⟩ = .ok (r, h')) (hok : Arenas o h own live)
    (hd : d < DESC_CNT) (hempty : (h.descs ⟨o, d⟩).freeList = []) :
    mallocPage h.mem pf 1 = .ok (r, h'.mem) ∧ OthersKept o h h' ∧
      (r = none → Arenas o h' own live) ∧
      ∀ a, r = some a → Ranges (⟨a, 1⟩ :: own) → Arenas o h' (⟨a, 1⟩ :: own) live := by
  obtain ⟨⟨a, m⟩, hm, hn⟩ := bind_ok.mp hn
  cases a with
  | none =>
    cases hn
    exact ⟨hm, fun _ _ => rfl, fun _ => ⟨hok.ranges, hok.classes, hok.headers, hok.slab, hok.cnt,
      hok.placed, hok.once, hok.large⟩, nofun⟩
  | some a =>
    obtain ⟨hbs, hcnt⟩ := hok.classes d hd
    have happ : appendBlocks (h.descs ⟨o, d⟩).blockSize a (h.descs ⟨o, d⟩).blocksPerArena 0
        (h.descs ⟨o, d⟩).freeList = .ok (slots d a) := by
      rw [hempty, hbs, hcnt, appendBlocks_ok (by have := blockSize_pos d; omega) _ _ [] (by simp),
        List.nil_append, ← List.range_eq_range']
      rfl
    obtain ⟨l, hl, hn⟩ := bind_ok.mp hn
    have hl : appendBlocks (h.descs ⟨o, d⟩).blockSize a (h.descs ⟨o, d⟩).blocksPerArena 0
      (h.descs ⟨o, d⟩).freeList = .ok l := hl
    rw [happ] at hl
    cases hl
    cases hn
    refine ⟨hm, othersKept_setFreeList _ o d _, nofun, fun a' ha ho => ?_⟩
    cases ha
    exact hok.adoptSmall hd hempty ho rfl rfl

/-- A small block goes back, and the last one takes its page along. -/
theorem freeSmall_arenas {x : Block} (hf : freeSmall h pf x.addr (h.arenaAt a) = .ok h')
    (hok : Arenas o h own live) (hx : x ∈ live) (hd : d < DESC_CNT) (ha : ArenaIn o h own d a)
    (hin : x.addr ∈ slots d a) : OthersKept o h h' ∧ ⟨a, 1⟩ ∈ own ∧
      (h'.mem = h.mem ∧ Arenas o h' own (live.erase x) ∨
        mfreePage h.mem pf a 1 = .ok h'.mem ∧ Arenas o h' (own.erase ⟨a, 1⟩) (live.erase x)) := by
  have hhome : block2arena x.addr = a := (hok.layout d).home a _ ha hin
  obtain ⟨hr, cnt, hhead⟩ := hok.header ha
  obtain ⟨h₁, hg⟩ : ∃ h₁, h₁ = (h.setFreeList ⟨o, d⟩ ((h.descs ⟨o, d⟩).freeList ++
    [x.addr])).setArena a { h.arenaAt a with cnt := u32 ((h.arenaAt a).cnt + 1) } := ⟨_, rfl⟩
  have hgive : Arenas o h₁ own (live.erase x) := by
    rw [hg]
    exact hok.give hx hd ha hin h.mem
  have hkept : OthersKept o h h₁ := by
    rw [hg]
    exact othersKept_setFreeList h o d _
  have hmem₁ : h₁.mem = h.mem := by rw [hg]; rfl
  have hat₁ : h₁.arenaAt = Function.update h.arenaAt a
      { h.arenaAt a with cnt := u32 ((h.arenaAt a).cnt + 1) } := by rw [hg]; rfl
  have ha₁ : ArenaIn o h₁ own d a := (arenaIn_setCnt hat₁ a).mpr ha
  have hcnt₁ : (h₁.arenaAt a).cnt = u32 ((h.arenaAt a).cnt + 1) := by rw [hat₁]; simp
  have hcode : freeSmall h pf x.addr (h.arenaAt a) =
      if u32 ((h.arenaAt a).cnt + 1) = (h₁.descs ⟨o, d⟩).blocksPerArena then do
        let l ← removeBlocks (h₁.descs ⟨o, d⟩).blockSize a (h₁.descs ⟨o, d⟩).blocksPerArena 0
          (h₁.descs ⟨o, d⟩).freeList
        return { h₁.setFreeList ⟨o, d⟩ l with mem := ← mfreePage h₁.mem pf a 1 }
      else return h₁ := by
    rw [hg]
    simp only [freeSmall, hhome, hhead]
  rw [hcode] at hf
  split at hf
  · rename_i hfull
    obtain ⟨l, hl, hf⟩ := bind_ok.mp hf
    obtain ⟨m, hm, hf⟩ := bind_ok.mp hf
    cases hf
    rw [(hgive.classes d hd).2, ← hcnt₁] at hfull
    obtain ⟨l', hl', hdrop⟩ := hgive.drop hd ha₁ hfull m
    rw [hl] at hl'
    cases hl'
    exact ⟨hkept.trans (othersKept_setFreeList h₁ o d l), hr, .inr ⟨hmem₁ ▸ hm, hdrop⟩⟩
  · cases hf
    exact ⟨hkept, hr, .inl ⟨hmem₁, hgive⟩⟩

end

/-! ## The child's pages -/

/-- Process `c` runs, and the pages of its arenas are mapped. -/
structure ChildPages (m : Memory) (dir : Nat → Option Nat) (F : Ledger) (c : Nat)
    (own : List PageRange) : Prop where
  books : Books m dir F (some c)
  pgdir : m.running.pgdir = (dir c).map pageAddr
  start : m.running.userprogVaddr.vaddrStart = USER_VADDR_START
  size : m.running.userprogVaddr.vaddrBitmap.size ≤ 0xb8000
  poolSize : m.userPool.poolSize ≤ 2 ^ 28
  below : ∀ r ∈ own, r.vaddr + 4096 * r.pgCnt ≤ 0xc0000000
  mapped : ∀ r ∈ own, ∀ q, r.vaddr / 4096 ≤ q → q < r.vaddr / 4096 + r.pgCnt →
    F (.user c q) ≠ none

/-- A lock of a pool is taken or released. -/
structure LockStep (m m' : Memory) : Prop where
  pools : SamePools m m'
  mmu : m'.mmu = m.mmu
  running : m'.running = m.running
  poolSize : m'.userPool.poolSize = m.userPool.poolSize

theorem lockAcquire_step (m : Memory) (pf : PoolFlags) : LockStep m (lockAcquire m pf) := by
  cases pf with
  | PF_KERNEL =>
    exact ⟨⟨rfl, rfl, fun pf => by cases pf <;> rfl, fun pf => by cases pf <;> rfl⟩, rfl, rfl, rfl⟩
  | PF_USER =>
    exact ⟨⟨rfl, rfl, fun pf => by cases pf <;> rfl, fun pf => by cases pf <;> rfl⟩, rfl, rfl, rfl⟩

theorem lockRelease_step {m m' : Memory} {pf : PoolFlags} (h : lockRelease m pf = .ok m') :
    LockStep m m' := by
  obtain ⟨_, -, h⟩ := bind_ok.mp h
  cases h
  cases pf with
  | PF_KERNEL =>
    exact ⟨⟨rfl, rfl, fun pf => by cases pf <;> rfl, fun pf => by cases pf <;> rfl⟩, rfl, rfl, rfl⟩
  | PF_USER =>
    exact ⟨⟨rfl, rfl, fun pf => by cases pf <;> rfl, fun pf => by cases pf <;> rfl⟩, rfl, rfl, rfl⟩

namespace ChildPages

variable {m m' : Memory} {dir : Nat → Option Nat} {F : Ledger} {c : Nat} {own : List PageRange}

theorem locked (h : ChildPages m dir F c own) (hl : LockStep m m') : ChildPages m' dir F c own :=
  ⟨h.books.same hl.pools hl.mmu, hl.running ▸ h.pgdir, hl.running ▸ h.start, hl.running ▸ h.size,
    hl.poolSize ▸ h.poolSize, h.below, h.mapped⟩

/-- New pages, at a page's address, lie apart from the arenas there are. -/
theorem malloc (h : ChildPages m dir F c own) (ho : Ranges own) {n : Nat} {r : Option Nat}
    (hal : ∀ i, bitmapScan m.running.userprogVaddr.vaddrBitmap n = .ok (some i) → i % PG_SIZE = 0)
    (hm : mallocPage m .PF_USER n = .ok (r, m')) :
    ∃ F', ChildPages m' dir F' c own ∧ ∀ a, r = some a → Ranges (⟨a, n⟩ :: own) ∧
      ChildPages m' dir F' c (⟨a, n⟩ :: own) := by
  obtain ⟨F', h', hkeep, htask, hsize, hnew⟩ := h.books.mallocPage_new h.start h.size hm
  have hold : ChildPages m' dir F' c own :=
    ⟨h', htask.pgdir ▸ h.pgdir, htask.vaddrStart ▸ h.start, htask.size ▸ h.size,
      hsize ▸ h.poolSize, h.below, fun r hr q hle hlt => hkeep q (h.mapped r hr q hle hlt)⟩
  refine ⟨F', hold, fun a ha => ?_⟩
  obtain ⟨hpos, hend, hfresh, i, hscan, rfl⟩ := hnew a ha
  have hi := hal i hscan
  unfold USER_VADDR_START PG_SIZE at *
  constructor
  · constructor
    · intro r hr
      rcases List.mem_cons.mp hr with rfl | hr
      · dsimp only
        omega
      · exact ho.whole r hr
    · refine List.pairwise_cons.mpr ⟨fun s hs => ?_, ho.apart⟩
      obtain ⟨hsal, hspos, -⟩ := ho.whole s hs
      by_contra hap
      unfold PageRange.Apart PG_SIZE at hap
      dsimp only at hap
      -- the first page of the two that both ranges hold
      have hq := hfresh (max ((0x8048000 + i + 4096) / 4096) (s.vaddr / 4096)) (by omega) (by omega)
      exact h.mapped s hs _ (by omega) (by omega) hq.1
  · refine ⟨h', hold.pgdir, hold.start, hold.size, hold.poolSize, fun r hr => ?_,
      fun r hr q hle hlt => ?_⟩
    · rcases List.mem_cons.mp hr with rfl | hr
      · exact hend
      · exact h.below r hr
    · rcases List.mem_cons.mp hr with rfl | hr
      · exact (hfresh q hle hlt).2
      · exact hold.mapped r hr q hle hlt

theorem free (h : ChildPages m dir F c own) (ho : Ranges own) {r : PageRange} (hr : r ∈ own)
    (hm : mfreePage m .PF_USER r.vaddr r.pgCnt = .ok m') :
    ∃ F', ChildPages m' dir F' c (own.erase r) := by
  obtain ⟨F', h', hdrop, htask, hsize⟩ :=
    h.books.mfreePage_user (h.below r hr) (h.mapped r hr) hm
  refine ⟨F', h', htask.pgdir ▸ h.pgdir, htask.vaddrStart ▸ h.start, htask.size ▸ h.size,
    hsize ▸ h.poolSize, fun s hs => h.below s (List.mem_of_mem_erase hs), fun s hs q hle hlt => ?_⟩
  obtain ⟨hne, hs⟩ := ho.nodup.mem_erase_iff.mp hs
  have hap := ho.apart.forall hs hr hne
  have hsw := ho.whole s hs
  have hrw := ho.whole r hr
  unfold PageRange.Apart PG_SIZE at hap
  rw [hdrop q (by omega)]
  exact h.mapped s hs q hle hlt

end ChildPages

/-! ## The calls -/

/-- The heap and the pages of process `c`. -/
def ChildOk (dir : Nat → Option Nat) (c : Nat) (h : Heap) (live : List Block) : Prop :=
  ∃ own F, Arenas ((dir c).map pageAddr) h own live ∧ ChildPages h.mem dir F c own

/-- The live blocks after a request. -/
def granted (r : Option Nat) (size : Nat) (live : List Block) : List Block :=
  match r with
  | none => live
  | some b => ⟨b, size⟩ :: live

section

variable {dir : Nat → Option Nat} {c : Nat} {h h' : Heap} {live : List Block} {r : Option Nat}
  {size : Nat}

theorem Arenas.setMem {o : Option Nat} {own : List PageRange} (hok : Arenas o h own live)
    (mem : Memory) : Arenas o { h with mem } own live :=
  ⟨hok.ranges, hok.classes, hok.headers, hok.slab, hok.cnt, hok.placed, hok.once, hok.large⟩

theorem ChildOk.locked (hok : ChildOk dir c h live) {m : Memory} (hl : LockStep h.mem m) :
    ChildOk dir c { h with mem := m } live := by
  obtain ⟨own, F, harenas, hpages⟩ := hok
  exact ⟨own, F, harenas.setMem m, hpages.locked hl⟩

theorem mallocLarge_child (hm : mallocLarge h .PF_USER size = .ok (r, h'))
    (hok : ChildOk dir c h live) (hsize : size < 2 ^ 28) (hbig : 1024 < size)
    (hal : HeapRun.PageAligned ⟨h, live⟩ (.sysMalloc size)) :
    OthersKept ((dir c).map pageAddr) h h' ∧ ChildOk dir c h' (granted r size live) := by
  obtain ⟨own, F, harenas, hpages⟩ := hok
  have hfit : size + SIZEOF_ARENA ≤ DIV_ROUND_UP (size + SIZEOF_ARENA) PG_SIZE * PG_SIZE := by
    unfold DIV_ROUND_UP SIZEOF_ARENA PG_SIZE
    rw [u32_eq (by omega)]
    omega
  obtain ⟨⟨a, m⟩, hpage, hm⟩ := bind_ok.mp hm
  obtain ⟨F', hold, hnew⟩ := hpages.malloc harenas.ranges
    (fun i hi => hal _ i (.inl ⟨hbig, rfl⟩) hi) hpage
  cases a with
  | none =>
    obtain ⟨m', hrel, hm⟩ := bind_ok.mp hm
    cases hm
    exact ⟨fun _ _ => rfl, own, F', harenas.setMem m', hold.locked (lockRelease_step hrel)⟩
  | some a =>
    obtain ⟨m', hrel, hm⟩ := bind_ok.mp hm
    cases hm
    obtain ⟨ho, hpages'⟩ := hnew a rfl
    exact ⟨fun _ _ => rfl, _, F', harenas.adoptLarge ho rfl rfl hfit,
      hpages'.locked (lockRelease_step hrel)⟩

theorem mallocSmall_child (hm : mallocSmall h .PF_USER size = .ok (r, h'))
    (hok : ChildOk dir c h live) (hsmall : size ≤ 1024)
    (hal : HeapRun.PageAligned ⟨h, live⟩ (.sysMalloc size)) :
    OthersKept ((dir c).map pageAddr) h h' ∧ ChildOk dir c h' (granted r size live) := by
  obtain ⟨own, F, harenas, hpages⟩ := hok
  have hasks := fun n i => hal n i
  simp only [AsksPages, hpages.pgdir] at hasks
  simp only [mallocSmall, hpages.pgdir] at hm
  have hfits := @findDesc_fits (fun i => h.descs ⟨(dir c).map pageAddr, i⟩) size 6 0
    (by simpa [(harenas.classes 6 (by decide)).1, blockDescInit] using hsmall)
  generalize hfind : findDesc (fun i => h.descs ⟨(dir c).map pageAddr, i⟩) size DESC_CNT 0 = d
    at hm hasks
  obtain ⟨hle, hfit⟩ : d ≤ 0 + 6 ∧ size ≤ (h.descs ⟨(dir c).map pageAddr, d⟩).blockSize :=
    hfind ▸ hfits
  have hd : d < DESC_CNT := Nat.lt_succ_of_le hle
  rw [(harenas.classes d hd).1] at hfit
  rw [if_neg (Nat.not_le.mpr hd)] at hm
  by_cases hempty : (h.descs ⟨(dir c).map pageAddr, d⟩).freeList = []
  · rw [if_pos hempty] at hm
    obtain ⟨⟨a, h₁⟩, hn, hm⟩ := bind_ok.mp hm
    obtain ⟨hpage, hkept, hnone, hsome⟩ := newArena_arenas hn harenas hd hempty
    obtain ⟨F', hold, hnew⟩ := hpages.malloc harenas.ranges
      (fun i hi => hasks 1 i (.inr ⟨hsmall, rfl, hempty⟩) hi) hpage
    cases a with
    | none =>
      obtain ⟨m', hrel, hm⟩ := bind_ok.mp hm
      cases hm
      exact ⟨hkept, own, F', (hnone rfl).setMem m', hold.locked (lockRelease_step hrel)⟩
    | some a =>
      obtain ⟨ho, hpages'⟩ := hnew a rfl
      obtain ⟨b, rfl, hrel, hkept', harenas'⟩ :=
        takeBlock_arenas hm (hsome a rfl ho) hd hfit
      exact ⟨hkept.trans hkept', _, F', harenas', hpages'.locked (lockRelease_step hrel)⟩
  · rw [if_neg hempty] at hm
    obtain ⟨b, rfl, hrel, hkept, harenas'⟩ := takeBlock_arenas hm harenas hd hfit
    exact ⟨hkept, own, F, harenas', hpages.locked (lockRelease_step hrel)⟩

/-- A process allocates from the user pool. -/
theorem ChildPages.poolFlags {F : Ledger} {own : List PageRange}
    (h' : ChildPages h.mem dir F c own) : h.poolFlags = .PF_USER := by
  obtain ⟨D, hD, -⟩ := h'.books.active
  obtain ⟨i, hi⟩ := Option.ne_none_iff_exists'.mp (dirFrame_live hD)
  unfold Heap.poolFlags
  rw [h'.pgdir, hi]
  exact if_neg nofun

theorem sysMalloc_child (hm : sysMalloc h size = .ok (r, h')) (hok : ChildOk dir c h live)
    (hal : HeapRun.PageAligned ⟨h, live⟩ (.sysMalloc size)) :
    OthersKept ((dir c).map pageAddr) h h' ∧ ChildOk dir c h' (granted r size live) := by
  have hlocked := hok.locked (lockAcquire_step h.mem .PF_USER)
  obtain ⟨own, F, harenas, hpages⟩ := id hok
  simp only [sysMalloc, hpages.poolFlags] at hm
  split at hm
  · cases hm
    exact ⟨fun _ _ => rfl, hok⟩
  · rename_i hvalid
    have hsize : size < 2 ^ 28 := Nat.lt_of_lt_of_le (not_not.mp hvalid).2 hpages.poolSize
    have hal : HeapRun.PageAligned ⟨{ h with mem := lockAcquire h.mem .PF_USER }, live⟩
      (.sysMalloc size) := hal
    by_cases hbig : 1024 < size
    · rw [if_pos hbig] at hm
      obtain ⟨hkept, hok'⟩ := mallocLarge_child hm hlocked hsize hbig hal
      exact ⟨hkept, hok'⟩
    · rw [if_neg hbig] at hm
      obtain ⟨hkept, hok'⟩ := mallocSmall_child hm hlocked (Nat.le_of_not_lt hbig) hal
      exact ⟨hkept, hok'⟩

/-- What `sys_free` does with the lock held. -/
theorem sysFree_locked (hpf : h.poolFlags = .PF_USER) {ptr : Nat} (hf : sysFree h ptr = .ok h')
    {h₀ : Heap} (hg : h₀ = { h with mem := lockAcquire h.mem .PF_USER }) :
    ∃ h₁ m, lockRelease h₁.mem .PF_USER = .ok m ∧ h' = { h₁ with mem := m } ∧
      ((h₀.arenaAt (block2arena ptr)).desc = none ∧
        (h₀.arenaAt (block2arena ptr)).large = true ∧ (∃ mem, mfreePage h₀.mem .PF_USER
          (block2arena ptr) (h₀.arenaAt (block2arena ptr)).cnt = .ok mem ∧ h₁ = { h₀ with mem }) ∨
      ¬ ((h₀.arenaAt (block2arena ptr)).desc = none ∧
        (h₀.arenaAt (block2arena ptr)).large = true) ∧
        freeSmall h₀ .PF_USER ptr (h₀.arenaAt (block2arena ptr)) = .ok h₁) := by
  subst hg
  unfold sysFree at hf
  rw [hpf] at hf
  obtain ⟨_, -, hf⟩ := bind_ok.mp hf
  simp only [reduceCtorEq, ↓reduceIte] at hf
  obtain ⟨_, hread, hf⟩ := bind_ok.mp hf
  obtain ⟨_, -, hread⟩ := bind_ok.mp hread
  cases hread
  dsimp only at hf
  split at hf
  · rename_i hlarge
    obtain ⟨h₁, hh₁, hf⟩ := bind_ok.mp hf
    obtain ⟨mem, hfree, hh₁⟩ := bind_ok.mp hh₁
    cases hh₁
    obtain ⟨m, hrel, hf⟩ := bind_ok.mp hf
    cases hf
    exact ⟨_, m, hrel, rfl, .inl ⟨hlarge.1, hlarge.2, mem, hfree, rfl⟩⟩
  · rename_i hsmall
    obtain ⟨h₁, hh₁, hf⟩ := bind_ok.mp hf
    obtain ⟨m, hrel, hf⟩ := bind_ok.mp hf
    cases hf
    exact ⟨_, m, hrel, rfl, .inr ⟨hsmall, hh₁⟩⟩

theorem sysFree_child {x : Block} (hf : sysFree h x.addr = .ok h') (hok : ChildOk dir c h live)
    (hx : x ∈ live) :
    OthersKept ((dir c).map pageAddr) h h' ∧ ChildOk dir c h' (live.erase x) := by
  obtain ⟨own, F, harenas, hpages⟩ := hok.locked (lockAcquire_step h.mem .PF_USER)
  have hpf : h.poolFlags = .PF_USER := by
    obtain ⟨_, _, -, hp⟩ := hok
    exact hp.poolFlags
  obtain ⟨h₀, hg⟩ : ∃ h₀ : Heap, h₀ = { h with mem := lockAcquire h.mem .PF_USER } := ⟨_, rfl⟩
  obtain ⟨h₁, m, hrel, rfl, hh₁⟩ := sysFree_locked hpf hf hg
  rw [← hg] at harenas
  have hpages : ChildPages h₀.mem dir F c own := hg ▸ hpages
  have hkept₀ : OthersKept ((dir c).map pageAddr) h h₀ := by
    rw [hg]
    exact fun _ _ => rfl
  suffices hmid : OthersKept ((dir c).map pageAddr) h₀ h₁ ∧ ChildOk dir c h₁ (live.erase x) from
    ⟨hkept₀.trans hmid.1, hmid.2.locked (lockRelease_step hrel)⟩
  rcases harenas.placed x hx with ⟨d, hd, a, ha, hin, -⟩ | ⟨r, hr, hl, haddr, -⟩
  · have hhome : block2arena x.addr = a := (harenas.layout d).home a _ ha hin
    obtain ⟨hr, cnt, hhead⟩ := harenas.header ha
    rw [hhome] at hh₁
    rcases hh₁ with ⟨hnone, -⟩ | ⟨-, hfree⟩
    · rw [hhead] at hnone
      cases hnone
    obtain ⟨hkept, -, ⟨hmem, harenas'⟩ | ⟨hfree, harenas'⟩⟩ :=
      freeSmall_arenas hfree harenas hx hd ha hin
    · exact ⟨hkept, own, F, harenas', hmem ▸ hpages⟩
    · obtain ⟨F', hpages'⟩ := hpages.free harenas.ranges hr hfree
      exact ⟨hkept, _, F', harenas', hpages'⟩
  · have hhome : block2arena x.addr = r.vaddr := by rw [haddr, harenas.large_home hr]
    have hhead : h₀.arenaAt r.vaddr = ⟨none, r.pgCnt, true⟩ := hl
    rw [hhome, hhead] at hh₁
    rcases hh₁ with ⟨-, -, m', hfree, rfl⟩ | ⟨hnot, -⟩
    swap
    · exact absurd ⟨rfl, rfl⟩ hnot
    obtain ⟨F', hpages'⟩ := hpages.free harenas.ranges hr hfree
    exact ⟨fun _ _ => rfl, _, F', harenas.dropLarge hx hr hl haddr m', hpages'⟩

end

/-! ## The copy -/

theorem pageTableAdd_userPool {m m' : Memory} {v a : Nat} (h : pageTableAdd m v a = .ok m') :
    m'.userPool = m.userPool := by
  obtain ⟨pde, -, h⟩ := bind_ok.mp h
  split at h
  · obtain ⟨_, -, h⟩ := bind_ok.mp h
    obtain ⟨_, -, h⟩ := bind_ok.mp h
    obtain ⟨_, -, h⟩ := bind_ok.mp h
    cases h
    rfl
  · obtain ⟨⟨_, _⟩, -, h⟩ := bind_ok.mp h
    obtain ⟨_, -, h⟩ := bind_ok.mp h
    obtain ⟨_, -, h⟩ := bind_ok.mp h
    obtain ⟨_, -, h⟩ := bind_ok.mp h
    obtain ⟨_, -, h⟩ := bind_ok.mp h
    obtain ⟨_, -, h⟩ := bind_ok.mp h
    cases h
    rfl

theorem getAPageWithout_poolSize {m m' : Memory} {v : Nat} {r : Option Nat}
    (h : getAPageWithoutOpvaddrbitmap true m .PF_USER v = .ok (r, m')) :
    m'.userPool.poolSize = m.userPool.poolSize := by
  obtain ⟨⟨page, p⟩, hp, h⟩ := bind_ok.mp h
  obtain ⟨_, -, -, rfl, rfl⟩ := palloc_ok hp
  obtain ⟨m₂, hadd, h⟩ := bind_ok.mp h
  obtain ⟨m₃, hun, h⟩ := bind_ok.mp h
  obtain ⟨_, -, hun⟩ := bind_ok.mp hun
  cases hun
  cases h
  show m₂.userPool.poolSize = _
  rw [pageTableAdd_userPool hadd]
  rfl

theorem copyPage_poolSize {m m' : Memory} {child parent : Option Nat} {b v : Nat}
    (h : copyPage child parent b v m = .ok m') : m'.userPool.poolSize = m.userPool.poolSize := by
  obtain ⟨_, -, h⟩ := bind_ok.mp h
  obtain ⟨m₁, hact, h⟩ := bind_ok.mp h
  obtain ⟨_, -, hact⟩ := bind_ok.mp hact
  cases hact
  obtain ⟨⟨_, m₂⟩, hget, h⟩ := bind_ok.mp h
  obtain ⟨_, -, h⟩ := bind_ok.mp h
  obtain ⟨_, -, h⟩ := bind_ok.mp h
  cases h
  have hsize := getAPageWithout_poolSize hget
  exact hsize

namespace Books

variable {m m' : Memory} {dir : Nat → Option Nat} {F : Ledger}

/-- The child has each of the pages that were copied. -/
theorem copyPages_user {d b B c E : Nat} (h : Books m dir F (some d)) (hb : Buffer dir F b B)
    (hE : dirFrame F dir (some c) = some E) (addr : Nat → Nat) (pages : List Nat)
    (haddr : ∀ i ∈ pages, addr i < 0xc0000000 ∧ addr i % 4096 = 0)
    (hm : pages.foldlM (fun m i => copyPage ((dir c).map pageAddr) ((dir d).map pageAddr)
      (pageAddr b) (addr i) m) m = .ok m') :
    ∃ F', Books m' dir F' (some d) ∧ dirFrame F' dir (some c) = some E ∧ KeepsUser F F' c ∧
      (∀ i ∈ pages, F' (.user c (addr i / 4096)) ≠ none) ∧
      m'.userPool.poolSize = m.userPool.poolSize := by
  induction pages generalizing m F with
  | nil =>
    cases hm
    exact ⟨F, h, hE, fun _ hq => hq, nofun, rfl⟩
  | cons i pages ih =>
    rw [List.foldlM_cons] at hm
    obtain ⟨m₁, hcopy, hm⟩ := bind_ok.mp hm
    obtain ⟨hv, hal⟩ := haddr i (List.mem_cons_self ..)
    obtain ⟨g, hg⟩ := h.copyPage_source hv hcopy
    obtain ⟨f, F₁, h₁, hcopies⟩ := h.copyPage_ok hb hg hv hal hE hcopy
    have hheap : ∀ j, F₁ (.heap j) = F (.heap j) := fun j =>
      hcopies.other _ (by nofun) (by nofun)
    have hE₁ : dirFrame F₁ dir (some c) = some E := by
      rw [dirFrame_congr fun _ j _ => hheap j]
      exact hE
    obtain ⟨F', h', hE', hkeep, hmapped, hsize⟩ := ih h₁ (buffer_of hb (hheap b)) hE₁
      (fun j hj => haddr j (List.mem_cons_of_mem _ hj)) hm
    refine ⟨F', h', hE', fun q hq => hkeep q (hcopies.keepsUser q hq), fun j hj => ?_,
      hsize.trans (copyPage_poolSize hcopy)⟩
    rcases List.mem_cons.mp hj with rfl | hj
    · apply hkeep
      rw [hcopies.page]
      nofun
    · exact hmapped j hj

end Books

/-- A process `d` that runs, with a heap whose pages are marked, a directory for child `c` and
page `b` of the kernel's heap as the buffer. -/
structure ForkHeapReady (h : Heap) (dir : Nat → Option Nat) (F : Ledger) (d c b : Nat)
    (own : List PageRange) (live : List Block) : Prop where
  books : Books h.mem dir F (some d)
  pgdir : h.mem.running.pgdir = (dir d).map pageAddr
  range : IsUserRange h.mem.running.userprogVaddr
  poolSize : h.mem.userPool.poolSize ≤ 2 ^ 28
  arenas : Arenas ((dir d).map pageAddr) h own live
  below : ∀ r ∈ own, r.vaddr + 4096 * r.pgCnt ≤ 0xc0000000
  marked : ∀ r ∈ own, ∀ q, r.vaddr / 4096 ≤ q → q < r.vaddr / 4096 + r.pgCnt →
    q ∈ h.mem.running.userprogVaddr.pages
  other : c ≠ d
  child : dir c ≠ none
  buffer : ∃ B, Buffer dir F b B

/-- No block in use comes from a size class. -/
def NoSmallBlock (h : Heap) (live : List Block) : Prop :=
  ∀ x ∈ live, (h.arenaAt (block2arena x.addr)).desc = none

namespace ForkHeapReady

variable {h h₀ : Heap} {dir : Nat → Option Nat} {F : Ledger} {d c b : Nat}
  {own : List PageRange} {live : List Block}

theorem pgdir_ne (hr : ForkHeapReady h dir F d c b own live) :
    (dir d).map pageAddr ≠ (dir c).map pageAddr := by
  obtain ⟨D, hD, -⟩ := hr.books.active
  obtain ⟨i, hi⟩ := Option.ne_none_iff_exists'.mp (dirFrame_live hD)
  obtain ⟨j, hj⟩ := Option.ne_none_iff_exists'.mp hr.child
  rw [hi, hj, Option.map_some, Option.map_some]
  intro he
  have he := Option.some.inj he
  have hij : i = j := by
    unfold pageAddr PG_SIZE at he
    omega
  exact hr.other (hr.books.tables.own c d j hj (hij ▸ hi))

/-- The child as it starts. -/
structure Starts (h h₀ : Heap) (dir : Nat → Option Nat) (c : Nat) (own : List PageRange) :
    Prop where
  arenaAt : h₀.arenaAt = h.arenaAt
  descs : h₀.descs = h.initDescs ((dir c).map pageAddr)
  pages : ∃ F, ChildPages h₀.mem dir F c own

theorem starts (hr : ForkHeapReady h dir F d c b own live)
    (hf : forkHeap h ((dir c).map pageAddr) (pageAddr b) = .ok h₀) : Starts h h₀ dir c own := by
  obtain ⟨m₁, hcopy, hf⟩ := bind_ok.mp hf
  obtain ⟨m₂, hact, hf⟩ := bind_ok.mp hf
  cases hf
  obtain ⟨B, hb⟩ := hr.buffer
  obtain ⟨i, hi⟩ := Option.ne_none_iff_exists'.mp hr.child
  obtain ⟨E, hF⟩ := Option.ne_none_iff_exists'.mp (hr.books.tables.dirs c i hi)
  have hE : dirFrame F dir (some c) = some E := dirFrame_eq hi hF
  rw [copyBodyStack3_eq, hr.pgdir] at hcopy
  have haddr : ∀ i ∈ h.mem.running.userprogVaddr.marked,
      h.mem.running.userprogVaddr.addr i < 0xc0000000 ∧
        h.mem.running.userprogVaddr.addr i % 4096 = 0 := by
    intro i hi
    have hlt := (VirtualAddr.mem_marked.mp hi).1
    rw [hr.range.size] at hlt
    unfold VirtualAddr.addr
    rw [hr.range.vaddrStart]
    unfold USER_VADDR_START PG_SIZE at *
    rw [u32_eq (by omega)]
    omega
  obtain ⟨F', h₁, hE', -, hmapped, hsize⟩ := hr.books.copyPages_user hb hE
    h.mem.running.userprogVaddr.addr _ haddr hcopy
  obtain ⟨hact', h₂⟩ := h₁.activate hE'
  rw [Option.bind_some] at hact'
  rw [hact'] at hact
  cases hact
  refine ⟨rfl, rfl, F', ⟨h₂.same (.of_running ..) rfl, rfl, hr.range.vaddrStart, ?_, ?_,
    hr.below, fun r hrow q hle hlt => ?_⟩⟩
  · show h.mem.running.userprogVaddr.vaddrBitmap.size ≤ _
    rw [hr.range.size]
    decide
  · show m₁.userPool.poolSize ≤ _
    rw [hsize]
    exact hr.poolSize
  · obtain ⟨i, hi, rfl⟩ := List.mem_map.mp (hr.marked r hrow q hle hlt)
    exact hmapped i hi

/-- With large blocks alone the child's heap is right from the start. -/
theorem childOk (hr : ForkHeapReady h dir F d c b own live) (hs : Starts h h₀ dir c own)
    (hlarge : NoSmallBlock h live) : ChildOk dir c h₀ live := by
  have hne := hr.pgdir_ne
  obtain ⟨F', hpages⟩ := hs.pages
  have hdescs : ∀ e, h₀.descs ⟨(dir c).map pageAddr, e⟩ = blockDescInit e := by
    intro e
    rw [hs.descs]
    exact if_pos rfl
  obtain ⟨own', hown'⟩ : ∃ own', own' = own.filter fun r => (h.arenaAt r.vaddr).desc = none :=
    ⟨_, rfl⟩
  have hmem : ∀ r, r ∈ own' ↔ r ∈ own ∧ (h.arenaAt r.vaddr).desc = none := by
    intro r
    rw [hown', List.mem_filter, decide_eq_true_eq]
  have hhead : ∀ r ∈ own', LargeHeader h₀ r := by
    intro r hrow
    obtain ⟨hrow, hnone⟩ := (hmem r).mp hrow
    rcases hr.arenas.headers r hrow with ⟨e, -, cnt, -, hsmall⟩ | hl
    · rw [hsmall] at hnone
      cases hnone
    · unfold LargeHeader
      rw [hs.arenaAt]
      exact hl
  have hnot : ∀ e a, ¬ ArenaIn ((dir c).map pageAddr) h₀ own' e a := by
    rintro e a ⟨r, hrow, rfl, hdesc⟩
    rw [show h₀.arenaAt r.vaddr = _ from hhead r hrow] at hdesc
    cases hdesc
  refine ⟨own', F', ⟨⟨fun r hrow => hr.arenas.ranges.whole r ((hmem r).mp hrow).1, ?_⟩, ?_,
    fun r hrow => .inr (hhead r hrow), ?_, fun e _ a ha => absurd ha (hnot e a), ?_,
    hr.arenas.once, ?_⟩, ⟨hpages.books, hpages.pgdir, hpages.start, hpages.size, hpages.poolSize,
      fun r hrow => hpages.below r ((hmem r).mp hrow).1,
      fun r hrow => hpages.mapped r ((hmem r).mp hrow).1⟩⟩
  · rw [hown']
    exact hr.arenas.ranges.apart.sublist List.filter_sublist
  · intro e _
    rw [hdescs]
    exact ⟨rfl, rfl⟩
  · intro e _
    rw [hdescs]
    exact ⟨List.nodup_nil, fun b => iff_of_false List.not_mem_nil fun ⟨⟨a, ha, _⟩, _⟩ =>
      hnot e a ha⟩
  · intro x hx
    rcases hr.arenas.placed x hx with ⟨e, he, a, ha, hin, -⟩ | ⟨r, hrow, hl, haddr, hfit⟩
    · have hhome : block2arena x.addr = a := (hr.arenas.layout e).home a _ ha hin
      have hnone := hlarge x hx
      obtain ⟨_, -, -, hdesc⟩ := ha
      rw [hhome, hdesc] at hnone
      cases hnone
    · have hnone : (h.arenaAt r.vaddr).desc = none := by
        rw [show h.arenaAt r.vaddr = _ from hl]
      have hin := (hmem r).mpr ⟨hrow, hnone⟩
      exact .inr ⟨r, hin, hhead r hin, haddr, hfit⟩
  · intro r hrow _
    obtain ⟨hin, hnone⟩ := (hmem r).mp hrow
    rcases hr.arenas.headers r hin with ⟨e, -, cnt, -, hsmall⟩ | hl
    · rw [hsmall] at hnone
      cases hnone
    · exact hr.arenas.large r hin hl

/-- A block of a size class is tied to the descriptor of the parent. -/
theorem noSmallBlock (hr : ForkHeapReady h dir F d c b own live) (hs : Starts h h₀ dir c own)
    (hright : ChildRight h ((dir c).map pageAddr) ⟨h₀, live⟩) : NoSmallBlock h live := by
  intro x hx
  obtain ⟨arenas, harenas⟩ := hright.heap
  rcases hr.arenas.placed x hx with ⟨e, he, a, ha, hin, -⟩ | ⟨r, hrow, hl, haddr, -⟩
  · have hhome : block2arena x.addr = a := (hr.arenas.layout e).home a _ ha hin
    obtain ⟨_, -, -, hdesc⟩ := ha
    rcases harenas.placed x hx with ⟨e', -, a', ha', hin', -⟩ | ⟨r', hrow', hl', haddr', -⟩
    · have hhome' : block2arena x.addr = a' := (harenas.layout e').home a' _ ha' hin'
      obtain ⟨_, -, -, hdesc'⟩ := ha'
      have hdesc' : (h₀.arenaAt a').desc = some ⟨(dir c).map pageAddr, e'⟩ := hdesc'
      rw [← hhome', hhome, hs.arenaAt, hdesc] at hdesc'
      have hpgdir := congrArg DescPtr.pgdir (Option.some.inj hdesc')
      exact absurd hpgdir hr.pgdir_ne
    · have hhome' : block2arena x.addr = r'.vaddr := by rw [haddr', harenas.large_home hrow']
      have hl' : h₀.arenaAt r'.vaddr = ⟨none, r'.pgCnt, true⟩ := hl'
      rw [← hhome', hs.arenaAt] at hl'
      rw [hl']
  · have hhome : block2arena x.addr = r.vaddr := by rw [haddr, hr.arenas.large_home hrow]
    rw [hhome, show h.arenaAt r.vaddr = _ from hl]

end ForkHeapReady

/-! ## Runs of the child -/

namespace HeapRun

variable {dir : Nat → Option Nat} {c : Nat}

theorem exec_child {s t : HeapRun} {e : HeapCall} (hs : ChildOk dir c s.heap s.live)
    (hg : s.childGuard e) (hal : s.PageAligned e) (he : s.exec e = .ok t) :
    OthersKept ((dir c).map pageAddr) s.heap t.heap ∧ ChildOk dir c t.heap t.live := by
  cases e with
  | sysMalloc size =>
    obtain ⟨⟨ptr, heap⟩, hm, he⟩ := bind_ok.mp he
    have hstep := sysMalloc_child hm hs hal
    cases ptr with
    | none =>
      cases he
      exact hstep
    | some addr =>
      cases he
      exact hstep
  | sysFree x =>
    obtain ⟨heap, hf, he⟩ := bind_ok.mp he
    cases he
    exact sysFree_child hf hs hg

theorem child_preserved (h₀ : Heap) : Guarded.Preserves (childSystem.only PageAligned) fun s =>
    OthersKept ((dir c).map pageAddr) h₀ s.heap ∧ ChildOk dir c s.heap s.live := by
  rintro s e t ⟨hkept, hok⟩ ⟨hg, hal⟩ he
  obtain ⟨hstep, hok'⟩ := exec_child hok hg hal he
  exact ⟨hkept.trans hstep, hok'⟩

end HeapRun

/-- Every run of the child leaves the parent's lists alone and keeps a heap of its own, exactly
when no block of a size class is live at the fork. -/
theorem forkHeap_right_iff {h h₀ : Heap} {dir : Nat → Option Nat} {F : Ledger} {d c b : Nat}
    {own : List PageRange} {live : List Block} (hr : ForkHeapReady h dir F d c b own live)
    (hf : forkHeap h ((dir c).map pageAddr) (pageAddr b) = .ok h₀) :
    (∀ calls s, Guarded.Run (HeapRun.childSystem.only HeapRun.PageAligned) ⟨h₀, live⟩ calls s →
      ChildRight h ((dir c).map pageAddr) s) ↔ NoSmallBlock h live := by
  have hs := hr.starts hf
  constructor
  · intro hright
    exact hr.noSmallBlock hs (hright [] _ (.nil _))
  · intro hlarge calls s hrun
    obtain ⟨hkept, arenas, F', harenas, -⟩ := hrun.preserved (HeapRun.child_preserved h₀)
      ⟨fun _ _ => rfl, hr.childOk hs hlarge⟩
    refine ⟨fun p hp => (hkept p hp).trans ?_, arenas, harenas⟩
    rw [hs.descs]
    exact if_neg hp

/-! ## A parent with one arena -/

/-- Process 0 has an arena at page 0x8049, with this header, and nothing on its lists. -/
def oneArena (hd : Arena) : Heap where
  mem := oneParentMemory
  arenaAt := fun _ => hd
  descs := fun p => blockDescInit p.idx

def arenaPage : PageRange := ⟨0x8049000, 1⟩

theorem oneArena_ranges : Ranges [arenaPage] := by
  refine ⟨fun r hr => ?_, List.pairwise_singleton ..⟩
  obtain rfl := List.mem_singleton.mp hr
  decide

theorem oneArena_ready {hd : Arena} {live : List Block}
    (ha : Arenas ((twoDirs 0).map pageAddr) (oneArena hd) [arenaPage] live) :
    ForkHeapReady (oneArena hd) twoDirs oneParent 0 1 2 [arenaPage] live := by
  have hpool : oneParentMemory.userPool.poolSize ≤ 2 ^ 28 := by decide
  have hsize : 1 < oneParentMemory.running.userprogVaddr.vaddrBitmap.size := by decide
  have hpage : oneParentMemory.running.userprogVaddr.addr 1 / 4096 = 0x8049 := by decide
  refine ⟨oneParent_books, rfl, isUserRange_userRange _, hpool, ha, fun r hr => ?_,
    fun r hr q hle hlt => ?_, by decide, by decide, oneParent_ready.buffer⟩
  · obtain rfl := List.mem_singleton.mp hr
    decide
  · obtain rfl := List.mem_singleton.mp hr
    have hq : q = 0x8049 := by
      unfold arenaPage at hle hlt
      dsimp only at hle hlt
      omega
    subst hq
    exact List.mem_map.mpr ⟨1, VirtualAddr.mem_marked.mpr ⟨hsize, (oneParent_bit 1).mpr rfl⟩, hpage⟩

/-- The fork goes through, and the child can read the header. -/
theorem oneArena_forks (hd : Arena) : ∃ h₀ f,
    forkHeap (oneArena hd) ((twoDirs 1).map pageAddr) (pageAddr 2) = .ok h₀ ∧
      h₀.mem.mmu.walk 0x8049000 = .ok f := by
  obtain ⟨m', child', hcopy, hspace, hforked⟩ := copyBodyStack3_forks oneParent_ready
  obtain ⟨x, hx, hspace⟩ := bind_ok.mp hspace
  cases hspace
  have hload := hforked.same 0x8049000 (by decide)
  have hparent : oneParentMemory.mmu.load 0x8049000 = .ok 0 := by
    rw [Mmu.load, (oneParent_walk (by decide) 0x208).mpr rfl]
    rfl
  rw [hparent] at hload
  obtain ⟨f, hf, -⟩ := bind_ok.mp hload
  have hactivate : pageDirActivate m' ((twoDirs 1).map pageAddr) =
      .ok { m' with mmu := { m'.mmu with cr3 := x } } := by
    simp only [pageDirActivate, hx, ok_bind]
    rfl
  refine ⟨{ oneArena hd with
      mem := { m' with
        mmu := { m'.mmu with cr3 := x }
        running := ⟨(twoDirs 1).map pageAddr, oneParentMemory.running.userprogVaddr⟩ }
      descs := (oneArena hd).initDescs ((twoDirs 1).map pageAddr) }, f, ?_, hf⟩
  have hcopy : copyBodyStack3 (oneArena hd).mem ((twoDirs 1).map pageAddr) (pageAddr 2) = .ok m' :=
    hcopy
  simp only [forkHeap, hcopy, hactivate, ok_bind]
  rfl

/-- A header of a large arena, whose block has 2000 bytes. -/
theorem largeArena_arenas : Arenas ((twoDirs 0).map pageAddr) (oneArena ⟨none, 1, true⟩)
    [arenaPage] [⟨0x804900c, 2000⟩] := by
  have hnot : ∀ d a, ¬ ArenaIn ((twoDirs 0).map pageAddr) (oneArena ⟨none, 1, true⟩)
      [arenaPage] d a := by
    rintro d a ⟨_, -, -, hdesc⟩
    cases hdesc
  refine ⟨oneArena_ranges, fun _ _ => ⟨rfl, rfl⟩, fun r hr => ?_, fun d _ => ?_,
    fun d _ a ha => absurd ha (hnot d a), fun x hx => ?_, by decide, fun r hr _ => ?_⟩
  · obtain rfl := List.mem_singleton.mp hr
    exact .inr rfl
  · exact ⟨List.nodup_nil, fun b => iff_of_false List.not_mem_nil fun ⟨⟨a, ha, _⟩, _⟩ =>
      hnot d a ha⟩
  · obtain rfl := List.mem_singleton.mp hx
    exact .inr ⟨arenaPage, List.mem_singleton_self _, rfl, rfl, by decide⟩
  · obtain rfl := List.mem_singleton.mp hr
    exact ⟨_, List.mem_singleton_self _, rfl⟩

/-- A parent with one large block. -/
theorem forkHeap_right_large : ∃ h₀,
    forkHeap (oneArena ⟨none, 1, true⟩) ((twoDirs 1).map pageAddr) (pageAddr 2) = .ok h₀ ∧
    ∀ calls s, Guarded.Run (HeapRun.childSystem.only HeapRun.PageAligned)
      ⟨h₀, [⟨0x804900c, 2000⟩]⟩ calls s →
      ChildRight (oneArena ⟨none, 1, true⟩) ((twoDirs 1).map pageAddr) s := by
  obtain ⟨h₀, -, hf, -⟩ := oneArena_forks ⟨none, 1, true⟩
  exact ⟨h₀, hf, (forkHeap_right_iff (oneArena_ready largeArena_arenas) hf).mpr fun _ _ => rfl⟩

/-- A header of class 6, whose three blocks are in use. -/
def smallArena : Arena := ⟨some ⟨(twoDirs 0).map pageAddr, 6⟩, 0, false⟩

def smallBlocks : List Block :=
  [⟨0x804900c, 1000⟩, ⟨0x804940c, 1000⟩, ⟨0x804980c, 1000⟩]

theorem smallArena_arenas :
    Arenas ((twoDirs 0).map pageAddr) (oneArena smallArena) [arenaPage] smallBlocks := by
  have hin : ∀ d a, ArenaIn ((twoDirs 0).map pageAddr) (oneArena smallArena) [arenaPage] d a ↔
      d = 6 ∧ a = 0x8049000 := by
    intro d a
    constructor
    · rintro ⟨r, hr, rfl, hdesc⟩
      obtain rfl := List.mem_singleton.mp hr
      exact ⟨(congrArg DescPtr.idx (Option.some.inj hdesc)).symm, rfl⟩
    · rintro ⟨rfl, rfl⟩
      exact ⟨arenaPage, List.mem_singleton_self _, rfl, rfl⟩
  have hslots : slots 6 0x8049000 = smallBlocks.map (·.addr) := by decide
  refine ⟨oneArena_ranges, fun _ _ => ⟨rfl, rfl⟩, fun r hr => ?_, fun d _ => ?_,
    fun d _ a _ => rfl, fun x hx => ?_, by decide, fun r hr hl => ?_⟩
  · obtain rfl := List.mem_singleton.mp hr
    exact .inl ⟨6, by decide, 0, rfl, rfl⟩
  · refine ⟨List.nodup_nil, fun b => iff_of_false List.not_mem_nil ?_⟩
    rintro ⟨⟨a, ha, hb⟩, hunused⟩
    obtain ⟨rfl, rfl⟩ := (hin d a).mp ha
    rw [hslots] at hb
    exact hunused (List.mem_map.mp hb)
  · refine .inl ⟨6, by decide, 0x8049000, (hin _ _).mpr ⟨rfl, rfl⟩, ?_, ?_⟩
    · rw [hslots]
      exact List.mem_map_of_mem hx
    · revert x
      decide
  · cases hl

/-- `sys_free` puts a block on the list that the header of its arena points at, whosever it is. -/
theorem sysFree_header {h : Heap} (hpf : h.poolFlags = .PF_USER) {ptr cnt f : Nat} {p : DescPtr}
    (hptr : ptr ≠ 0) (hwalk : h.mem.mmu.walk (block2arena ptr) = .ok f)
    (hhead : h.arenaAt (block2arena ptr) = ⟨some p, cnt, false⟩)
    (hnot : u32 (cnt + 1) ≠ (h.descs p).blocksPerArena) :
    ∃ h', sysFree h ptr = .ok h' ∧ (h'.descs p).freeList = (h.descs p).freeList ++ [ptr] := by
  obtain ⟨h₀, hg⟩ : ∃ h₀ : Heap, h₀ = { h with mem := lockAcquire h.mem .PF_USER } := ⟨_, rfl⟩
  have hread : h₀.readArena (block2arena ptr) = .ok ⟨some p, cnt, false⟩ := by
    have hwalk₀ : h₀.mem.mmu.walk (block2arena ptr) = .ok f := by
      rw [hg]
      exact hwalk
    rw [readArena_ok hwalk₀, hg, hhead]
  have hnot₀ : u32 (cnt + 1) ≠ (h₀.descs p).blocksPerArena := by
    rw [hg]
    exact hnot
  have hfree : freeSmall h₀ .PF_USER ptr ⟨some p, cnt, false⟩ =
      .ok ((h₀.setFreeList p ((h₀.descs p).freeList ++ [ptr])).setArena (block2arena ptr)
        ⟨some p, u32 (cnt + 1), false⟩) := by
    simp only [freeSmall, Heap.setArena_descs, Heap.setFreeList_self, if_neg hnot₀]
    rfl
  have hdepth : 0 < (h₀.mem.pool .PF_USER).lockDepth := by
    rw [hg]
    exact Nat.succ_pos _
  obtain ⟨m, hrel⟩ : ∃ m, lockRelease h₀.mem .PF_USER = .ok m := by
    simp only [lockRelease, ASSERT_true hdepth]
    exact ⟨_, rfl⟩
  refine ⟨{ (h₀.setFreeList p ((h₀.descs p).freeList ++ [ptr])).setArena (block2arena ptr)
    ⟨some p, u32 (cnt + 1), false⟩ with mem := m }, ?_, ?_⟩
  · simp only [sysFree, hpf, ← hg, ASSERT_true hptr, hread, hfree, ok_bind, reduceCtorEq,
      false_and, ↓reduceIte, Heap.setArena_mem, Heap.setFreeList_mem, hrel]
    rfl
  · simp only [Heap.setArena_descs, Heap.setFreeList_self]
    rw [hg]

/-- The child frees a block it has inherited: it is put on the list of the parent. -/
theorem forkHeap_small_frees : ∃ h₀ s,
    forkHeap (oneArena smallArena) ((twoDirs 1).map pageAddr) (pageAddr 2) = .ok h₀ ∧
    Guarded.Run (HeapRun.childSystem.only HeapRun.PageAligned) ⟨h₀, smallBlocks⟩
      [.sysFree ⟨0x804900c, 1000⟩] s ∧
    ¬ ChildRight (oneArena smallArena) ((twoDirs 1).map pageAddr) s := by
  obtain ⟨h₀, f, hf, hwalk⟩ := oneArena_forks smallArena
  have hs := (oneArena_ready smallArena_arenas).starts hf
  obtain ⟨F, hpages⟩ := hs.pages
  have hhome : block2arena 0x804900c = 0x8049000 := by decide
  have hlist : h₀.descs ⟨(twoDirs 0).map pageAddr, 6⟩ = blockDescInit 6 := by
    rw [hs.descs]
    rfl
  have hhead : h₀.arenaAt (block2arena 0x804900c) = smallArena := by
    rw [hs.arenaAt]
    rfl
  obtain ⟨h₁, hfree, hdescs⟩ := sysFree_header hpages.poolFlags (by decide)
    (hhome.symm ▸ hwalk) hhead (by rw [hlist]; decide)
  have hstep : HeapRun.exec ⟨h₀, smallBlocks⟩ (.sysFree ⟨0x804900c, 1000⟩) =
      .ok ⟨h₁, smallBlocks.erase ⟨0x804900c, 1000⟩⟩ := by
    simp only [HeapRun.exec, hfree, ok_bind]
    rfl
  have hlive : (⟨0x804900c, 1000⟩ : Block) ∈ smallBlocks := List.mem_cons_self
  refine ⟨h₀, _, hf, .cons ⟨hlive, trivial⟩ hstep (.nil _), fun hright => ?_⟩
  have hkept := hright.parentLists ⟨(twoDirs 0).map pageAddr, 6⟩ (by decide)
  rw [hkept, hlist] at hdescs
  cases hdescs

end ZhuOS
