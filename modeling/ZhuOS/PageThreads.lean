import ZhuOS.Heap
import ZhuOS.Lib.Holdings
import ZhuOS.LockClients
import ZhuOS.PagingCalls

/-!
# `kernel/memory.c`: page requests by several threads

`sys_malloc` asks for pages with the lock of the kernel pool held, `get_kernel_pages` asks
without it. A thread can be switched out between the scan of a bitmap and the change of it;
the steps of `malloc_page` end there. The kernel has its page tables from the start, so that
`page_table_add` takes no frame for one.
-/

namespace ZhuOS

open Holdings

/-! ## The steps of `malloc_page` -/

/-- `vaddr_get` behind the scan. -/
def vaddrMark (m : Memory) (pgCnt bitIdxStart : Nat) : Nat × Memory :=
  (u32 (m.kernelVaddr.vaddrStart + bitIdxStart * PG_SIZE),
    m.setVaddrBitmap (bitmapSetRun true pgCnt bitIdxStart m.kernelVaddr.vaddrBitmap) .PF_KERNEL)

/-- `palloc` behind the scan. -/
def frameMark (mPool : Pool) (bitIdx : Nat) : Nat × Pool :=
  (u32 (bitIdx * PG_SIZE + mPool.phyAddrStart),
    { mPool with poolBitmap := bitmapSet mPool.poolBitmap bitIdx true })

theorem vaddrGet_eq (m : Memory) (pgCnt : Nat) : vaddrGet m .PF_KERNEL pgCnt =
    bitmapScan m.kernelVaddr.vaddrBitmap pgCnt >>= fun r => .ok <| match r with
      | none => (none, m)
      | some bitIdxStart =>
        (some (vaddrMark m pgCnt bitIdxStart).1, (vaddrMark m pgCnt bitIdxStart).2) := by
  unfold vaddrGet
  apply congrArg (bitmapScan m.kernelVaddr.vaddrBitmap pgCnt >>= ·)
  funext r
  cases r with
  | none => rfl
  | some bitIdxStart => rfl

theorem palloc_eq (mPool : Pool) : palloc mPool =
    bitmapScan mPool.poolBitmap 1 >>= fun r => .ok <| match r with
      | none => (none, mPool)
      | some bitIdx => (some (frameMark mPool bitIdx).1, (frameMark mPool bitIdx).2) := by
  unfold palloc
  apply congrArg (bitmapScan mPool.poolBitmap 1 >>= ·)
  funext r
  cases r with
  | none => rfl
  | some bitIdx => rfl

/-! ## `sys_malloc` behind `malloc_page` -/

/-- A request above 1024 bytes. -/
def largeEnd (h : Heap) (pageCnt : Nat) (a : Option Nat) : Except Fault (Option Nat × Heap) :=
  match a with
  | none => do return (none, { h with mem := ← lockRelease h.mem .PF_KERNEL })
  | some a => do
    let h := { h with arenaAt := clearArenas a pageCnt h.arenaAt }
    let h := h.setArena a { desc := none, cnt := pageCnt, large := true }
    return (some (a + SIZEOF_ARENA), { h with mem := ← lockRelease h.mem .PF_KERNEL })

/-- A new arena, and a block of it. -/
def smallEnd (h : Heap) (d : DescPtr) (a : Option Nat) : Except Fault (Option Nat × Heap) :=
  match a with
  | none => do return (none, { h with mem := ← lockRelease h.mem .PF_KERNEL })
  | some a => do
    let cnt := (h.descs d).blocksPerArena
    let h := { h with arenaAt := clearArenas a 1 h.arenaAt }
    let h := h.setArena a { desc := some d, cnt, large := false }
    let l ← appendBlocks (h.descs d).blockSize a cnt 0 (h.descs d).freeList
    takeBlock (h.setFreeList d l) .PF_KERNEL d

theorem mallocLarge_eq (h : Heap) (size : Nat) : mallocLarge h .PF_KERNEL size =
    mallocPage h.mem .PF_KERNEL (DIV_ROUND_UP (size + SIZEOF_ARENA) PG_SIZE) >>= fun (a, mem) =>
      largeEnd { h with mem } (DIV_ROUND_UP (size + SIZEOF_ARENA) PG_SIZE) a := by
  unfold mallocLarge largeEnd
  apply congrArg (mallocPage h.mem .PF_KERNEL _ >>= ·)
  funext ⟨a, mem⟩
  cases a with
  | none => rfl
  | some a => rfl

/-- With the free list empty. -/
theorem newArena_eq (h : Heap) (d : DescPtr) : (newArena h .PF_KERNEL d >>= fun (a, h) =>
      match a with
      | none => do return (none, { h with mem := ← lockRelease h.mem .PF_KERNEL })
      | some _ => takeBlock h .PF_KERNEL d) =
    mallocPage h.mem .PF_KERNEL 1 >>= fun (a, mem) => smallEnd { h with mem } d a := by
  unfold newArena
  cases mallocPage h.mem .PF_KERNEL 1 with
  | error e => rfl
  | ok r =>
    obtain ⟨a, mem⟩ := r
    cases a with
    | none => rfl
    | some a =>
      simp only [ok_bind, smallEnd, Heap.setArena_descs]
      cases appendBlocks (h.descs d).blockSize a (h.descs d).blocksPerArena 0
        (h.descs d).freeList with
      | error e => rfl
      | ok l => rfl

/-! ## The threads -/

inductive PageReq
  | getKernelPages (pgCnt : Nat)
  | sysMalloc (size : Nat)

/-- Who has called `malloc_page`. -/
inductive PageCaller
  | getKernelPages
  | mallocLarge
  | mallocSmall (d : DescPtr)
  deriving DecidableEq

structure PageJob where
  pgCnt : Nat
  caller : PageCaller

/-- What the loop of `malloc_page` has: `vaddr` and `cnt`, and the pages it has mapped so far,
each with its frame. -/
structure MapLoop where
  job : PageJob
  vaddrStart : Nat
  vaddr : Nat
  cnt : Nat
  pages : List (Nat × Nat)

inductive PagePlace
  | outside
  /-- `lock_acquire` in `sys_malloc` -/
  | locked (size : Nat)
  /-- `vaddr_get`, the scan and the change -/
  | vaddrScan (j : PageJob)
  | vaddrSet (j : PageJob) (bitIdxStart : Nat)
  /-- `palloc`, the scan and the change -/
  | pallocScan (l : MapLoop)
  | pallocSet (l : MapLoop) (bitIdx : Nat)
  /-- `page_table_add` -/
  | add (l : MapLoop) (pagePhyaddr : Nat)
  /-- `malloc_page` has returned -/
  | got (j : PageJob) (vaddr : Option Nat) (pages : List (Nat × Nat))
  /-- `lock_release` in `sys_malloc` -/
  | unlock (pages : List (Nat × Nat))
  | result (pages : List (Nat × Nat))

/-- The kernel's heap, and the pages that calls have returned, each with its frame. -/
structure PageState where
  heap : Heap
  handed : List (Nat × Nat)

def PageState.setMem (s : PageState) (mem : Memory) : PageState :=
  { s with heap := { s.heap with mem } }

namespace PagePlace

def callerMode : PageCaller → LockMode
  | .getKernelPages => .free
  | .mallocLarge | .mallocSmall _ => .inside

def mode : PagePlace → LockMode
  | .outside => .free
  | .locked _ => .taking
  | .vaddrScan j | .vaddrSet j _ | .got j _ _ => callerMode j.caller
  | .pallocScan l | .pallocSet l _ | .add l _ => callerMode l.job.caller
  | .unlock _ => .inside
  | .result _ => .giving

/-- The pages the call has mapped. -/
def pages : PagePlace → List (Nat × Nat)
  | .pallocScan l | .pallocSet l _ | .add l _ => l.pages
  | .got _ _ pages | .unlock pages | .result pages => pages
  | _ => []

/-- The frames the call has marked. -/
def frames : PagePlace → List Nat
  | .add l pagePhyaddr => pagePhyaddr :: l.pages.map (·.2)
  | p => p.pages.map (·.2)

end PagePlace

/-- `sys_malloc` with the lock held, up to `malloc_page` if it needs that. -/
def mallocBegin (h : Heap) (size : Nat) : Except Fault (Heap × PagePlace) := do
  let h := { h with mem := lockAcquire h.mem .PF_KERNEL }
  if 1024 < size then
    return (h, .vaddrScan ⟨DIV_ROUND_UP (size + SIZEOF_ARENA) PG_SIZE, .mallocLarge⟩)
  else
    let descIdx := findDesc (fun i => h.descs ⟨none, i⟩) size DESC_CNT 0
    if DESC_CNT ≤ descIdx then .error .outOfBounds
    else
      let d : DescPtr := ⟨none, descIdx⟩
      if (h.descs d).freeList = [] then return (h, .vaddrScan ⟨1, .mallocSmall d⟩)
      else
        let (_, h) ← takeBlock h .PF_KERNEL d
        return (h, .unlock [])

/-- What the caller does with what `malloc_page` returns. Pages it has mapped in vain are
nobody's. -/
def pageCallEnd (s : PageState) (j : PageJob) (vaddr : Option Nat) (pages : List (Nat × Nat)) :
    Except Fault (PageState × PagePlace) :=
  match j.caller with
  | .getKernelPages =>
    match vaddr with
    | none => .ok (s, .outside)
    | some a => .ok (⟨{ s.heap with arenaAt := clearArenas a j.pgCnt s.heap.arenaAt },
        pages ++ s.handed⟩, .outside)
  | .mallocLarge => do
    let (b, heap) ← largeEnd s.heap j.pgCnt vaddr
    return ({ s with heap }, .unlock (if b.isSome then pages else []))
  | .mallocSmall d => do
    let (b, heap) ← smallEnd s.heap d vaddr
    return ({ s with heap }, .unlock (if b.isSome then pages else []))

def pageStep (s : PageState) : PagePlace → PageReq → Except Fault (PageState × PagePlace)
  | .outside, .getKernelPages pgCnt => .ok (s, .vaddrScan ⟨pgCnt, .getKernelPages⟩)
  | .outside, .sysMalloc size =>
    if 0 < size ∧ size < s.heap.mem.kernelPool.poolSize then .ok (s, .locked size)
    else .ok (s, .outside)
  | .locked size, _ => do
    let (heap, p) ← mallocBegin s.heap size
    return ({ s with heap }, p)
  | .vaddrScan j, _ => do
    ASSERT (0 < j.pgCnt ∧ j.pgCnt < 3840)
    match ← bitmapScan s.heap.mem.kernelVaddr.vaddrBitmap j.pgCnt with
    | none => return (s, .got j none [])
    | some bitIdxStart => return (s, .vaddrSet j bitIdxStart)
  | .vaddrSet j bitIdxStart, _ =>
    let (vaddr, mem) := vaddrMark s.heap.mem j.pgCnt bitIdxStart
    .ok (s.setMem mem, .pallocScan ⟨j, vaddr, vaddr, j.pgCnt, []⟩)
  | .pallocScan l, _ =>
    if l.cnt = 0 then .ok (s, .got l.job (some l.vaddrStart) l.pages)
    else do
      match ← bitmapScan s.heap.mem.kernelPool.poolBitmap 1 with
      | none => return (s, .got l.job none l.pages)
      | some bitIdx => return (s, .pallocSet l bitIdx)
  | .pallocSet l bitIdx, _ =>
    let (pagePhyaddr, p) := frameMark s.heap.mem.kernelPool bitIdx
    .ok (s.setMem { s.heap.mem with kernelPool := p }, .add l pagePhyaddr)
  | .add l pagePhyaddr, _ => do
    let mem ← pageTableAdd s.heap.mem l.vaddr pagePhyaddr
    return (s.setMem mem, .pallocScan { l with
      vaddr := u32 (l.vaddr + PG_SIZE)
      cnt := l.cnt - 1
      pages := (l.vaddr, pagePhyaddr) :: l.pages })
  | .got j vaddr pages, _ => pageCallEnd s j vaddr pages
  | .unlock pages, _ => .ok (s, .result pages)
  | .result pages, _ => .ok ({ s with handed := pages ++ s.handed }, .outside)

/-! ## What a step does -/

/-- The pool, the tables and the range are the same. -/
structure SamePages (m m' : Memory) : Prop where
  mmu : m'.mmu = m.mmu
  kernelPool : m'.kernelPool = { m.kernelPool with lockDepth := m'.kernelPool.lockDepth }
  userPool : m'.userPool = m.userPool
  kernelVaddr : m'.kernelVaddr = m.kernelVaddr

theorem SamePages.refl (m : Memory) : SamePages m m := ⟨rfl, rfl, rfl, rfl⟩

theorem SamePages.trans {m m' m'' : Memory} (h : SamePages m m') (h' : SamePages m' m'') :
    SamePages m m'' := by
  constructor
  · exact h'.mmu.trans h.mmu
  · rw [h'.kernelPool, h.kernelPool]
  · exact h'.userPool.trans h.userPool
  · exact h'.kernelVaddr.trans h.kernelVaddr

theorem samePages_acquire (m : Memory) : SamePages m (lockAcquire m .PF_KERNEL) :=
  ⟨rfl, rfl, rfl, rfl⟩

section
variable {h h' : Heap} {m m' : Memory} {r : Option Nat}

theorem samePages_release (hr : lockRelease m .PF_KERNEL = .ok m') : SamePages m m' := by
  obtain ⟨-, -, hr⟩ := bind_ok.mp hr
  cases hr
  exact ⟨rfl, rfl, rfl, rfl⟩

theorem takeBlock_pages {d : DescPtr} (ht : takeBlock h .PF_KERNEL d = .ok (r, h')) :
    SamePages h.mem h'.mem := by
  unfold takeBlock at ht
  cases hl : (h.descs d).freeList with
  | nil =>
    rw [hl] at ht
    cases ht
  | cons b l =>
    rw [hl] at ht
    obtain ⟨hd, -, ht⟩ := bind_ok.mp ht
    obtain ⟨mem, hrel, ht⟩ := bind_ok.mp ht
    cases ht
    exact samePages_release hrel

theorem largeEnd_pages {pageCnt : Nat} {a : Option Nat}
    (he : largeEnd h pageCnt a = .ok (r, h')) : SamePages h.mem h'.mem := by
  cases a with
  | none =>
    obtain ⟨mem, hrel, he⟩ := bind_ok.mp he
    cases he
    exact samePages_release hrel
  | some a =>
    obtain ⟨mem, hrel, he⟩ := bind_ok.mp he
    cases he
    exact samePages_release hrel

theorem smallEnd_pages {d : DescPtr} {a : Option Nat} (he : smallEnd h d a = .ok (r, h')) :
    SamePages h.mem h'.mem := by
  cases a with
  | none =>
    obtain ⟨mem, hrel, he⟩ := bind_ok.mp he
    cases he
    exact samePages_release hrel
  | some a =>
    obtain ⟨l, -, he⟩ := bind_ok.mp he
    have ht := takeBlock_pages he
    exact ht

theorem mallocBegin_ok {size : Nat} {p : PagePlace} (hb : mallocBegin h size = .ok (h', p)) :
    SamePages h.mem h'.mem ∧
      ((∃ j, p = .vaddrScan j ∧ j.caller ≠ .getKernelPages) ∨ p = .unlock []) := by
  unfold mallocBegin at hb
  have hacq := samePages_acquire h.mem
  dsimp only at hb
  split at hb
  · cases hb
    exact ⟨hacq, .inl ⟨_, rfl, nofun⟩⟩
  · split at hb
    · cases hb
    · split at hb
      · cases hb
        exact ⟨hacq, .inl ⟨_, rfl, nofun⟩⟩
      · obtain ⟨⟨b, h₁⟩, ht, hb⟩ := bind_ok.mp hb
        cases hb
        exact ⟨hacq.trans (takeBlock_pages ht), .inr rfl⟩

end

/-- What a thread finds and does at each place. -/
inductive Stepping (s : PageState) : PagePlace → PageState → PagePlace → Prop
  | refused : Stepping s .outside s .outside
  | getKernelPages (pgCnt : Nat) : Stepping s .outside s (.vaddrScan ⟨pgCnt, .getKernelPages⟩)
  | sysMalloc (size : Nat) : Stepping s .outside s (.locked size)
  | needsPages {size : Nat} {heap : Heap} {j : PageJob} (hm : SamePages s.heap.mem heap.mem)
      (hj : j.caller ≠ .getKernelPages) : Stepping s (.locked size) { s with heap } (.vaddrScan j)
  | hasBlock {size : Nat} {heap : Heap} (hm : SamePages s.heap.mem heap.mem) :
    Stepping s (.locked size) { s with heap } (.unlock [])
  | noRange (j : PageJob) : Stepping s (.vaddrScan j) s (.got j none [])
  | range {j : PageJob} {bitIdxStart : Nat}
      (hin : bitIdxStart + j.pgCnt ≤ s.heap.mem.kernelVaddr.vaddrBitmap.size + 1) :
    Stepping s (.vaddrScan j) s (.vaddrSet j bitIdxStart)
  | rangeSet (j : PageJob) (bitIdxStart : Nat) {v : Nat}
      (hv : v = (vaddrMark s.heap.mem j.pgCnt bitIdxStart).1) :
    Stepping s (.vaddrSet j bitIdxStart) (s.setMem (vaddrMark s.heap.mem j.pgCnt bitIdxStart).2)
      (.pallocScan ⟨j, v, v, j.pgCnt, []⟩)
  | all {l : MapLoop} (hcnt : l.cnt = 0) :
    Stepping s (.pallocScan l) s (.got l.job (some l.vaddrStart) l.pages)
  | frame {l : MapLoop} {bitIdx : Nat} (hcnt : l.cnt ≠ 0)
      (hin : bitIdx < s.heap.mem.kernelPool.poolBitmap.size)
      (hfree : s.heap.mem.kernelPool.poolBitmap.bit bitIdx = false) :
    Stepping s (.pallocScan l) s (.pallocSet l bitIdx)
  | frameSet (l : MapLoop) (bitIdx : Nat) : Stepping s (.pallocSet l bitIdx)
      (s.setMem { s.heap.mem with kernelPool := (frameMark s.heap.mem.kernelPool bitIdx).2 })
      (.add l (frameMark s.heap.mem.kernelPool bitIdx).1)
  | added {l : MapLoop} {pagePhyaddr : Nat} {mem : Memory}
      (hm : pageTableAdd s.heap.mem l.vaddr pagePhyaddr = .ok mem) :
    Stepping s (.add l pagePhyaddr) (s.setMem mem) (.pallocScan { l with
      vaddr := u32 (l.vaddr + PG_SIZE)
      cnt := l.cnt - 1
      pages := (l.vaddr, pagePhyaddr) :: l.pages })
  | noPages {j : PageJob} {pages : List (Nat × Nat)} (hj : j.caller = .getKernelPages) :
    Stepping s (.got j none pages) s .outside
  | returned {j : PageJob} {a : Nat} {pages : List (Nat × Nat)} (hj : j.caller = .getKernelPages)
      {arenaAt : Nat → Arena} : Stepping s (.got j (some a) pages)
        ⟨{ s.heap with arenaAt }, pages ++ s.handed⟩ .outside
  | malloced {j : PageJob} {vaddr : Option Nat} {pages pages' : List (Nat × Nat)} {heap : Heap}
      (hj : j.caller ≠ .getKernelPages) (hm : SamePages s.heap.mem heap.mem)
      (hp : pages' = pages ∨ pages' = []) :
    Stepping s (.got j vaddr pages) { s with heap } (.unlock pages')
  | released (pages : List (Nat × Nat)) : Stepping s (.unlock pages) s (.result pages)
  | mallocReturned (pages : List (Nat × Nat)) :
    Stepping s (.result pages) { s with handed := pages ++ s.handed } .outside

theorem pageCallEnd_ok {s s' : PageState} {j : PageJob} {vaddr : Option Nat}
    {pages : List (Nat × Nat)} {p' : PagePlace} (h : pageCallEnd s j vaddr pages = .ok (s', p')) :
    Stepping s (.got j vaddr pages) s' p' := by
  have hpages : ∀ b : Bool, (if b then pages else []) = pages ∨ (if b then pages else []) = [] := by
    intro b
    cases b with
    | true => exact .inl rfl
    | false => exact .inr rfl
  unfold pageCallEnd at h
  cases hj : j.caller with
  | getKernelPages =>
    rw [hj] at h
    cases vaddr with
    | none =>
      cases h
      exact .noPages hj
    | some a =>
      cases h
      exact .returned hj
  | mallocLarge =>
    rw [hj] at h
    obtain ⟨⟨b, heap⟩, he, h⟩ := bind_ok.mp h
    cases h
    exact .malloced (by rw [hj]; exact nofun) (largeEnd_pages he) (hpages _)
  | mallocSmall d =>
    rw [hj] at h
    obtain ⟨⟨b, heap⟩, he, h⟩ := bind_ok.mp h
    cases h
    exact .malloced (by rw [hj]; exact nofun) (smallEnd_pages he) (hpages _)

theorem pageStep_ok {s s' : PageState} {p p' : PagePlace} {k : PageReq}
    (h : pageStep s p k = .ok (s', p')) : Stepping s p s' p' := by
  cases p with
  | outside =>
    cases k with
    | getKernelPages pgCnt =>
      cases h
      exact .getKernelPages pgCnt
    | sysMalloc size =>
      rw [pageStep] at h
      split at h
      · cases h
        exact .sysMalloc size
      · cases h
        exact .refused
  | locked size =>
    obtain ⟨⟨heap, p⟩, hb, h⟩ := bind_ok.mp h
    cases h
    obtain ⟨hm, ⟨j, rfl, hj⟩ | rfl⟩ := mallocBegin_ok hb
    · exact .needsPages hm hj
    · exact .hasBlock hm
  | vaddrScan j =>
    obtain ⟨_, ha, h⟩ := bind_ok.mp h
    obtain ⟨r, hscan, h⟩ := bind_ok.mp h
    cases r with
    | none =>
      cases h
      exact .noRange j
    | some bitIdxStart =>
      cases h
      exact .range (bitmapScan_inside (ASSERT_ok ha).1 hscan)
  | vaddrSet j bitIdxStart =>
    cases h
    exact .rangeSet j bitIdxStart rfl
  | pallocScan l =>
    rw [pageStep] at h
    split at h
    · rename_i hcnt
      cases h
      exact .all hcnt
    · rename_i hcnt
      obtain ⟨r, hscan, h⟩ := bind_ok.mp h
      obtain ⟨bitIdx, rfl, hin, hfree⟩ := bitmapScan_one_free hscan
      cases h
      exact .frame hcnt hin hfree
  | pallocSet l bitIdx =>
    cases h
    exact .frameSet l bitIdx
  | add l pagePhyaddr =>
    obtain ⟨mem, hm, h⟩ := bind_ok.mp h
    cases h
    exact .added hm
  | got j vaddr pages => exact pageCallEnd_ok h
  | unlock pages =>
    cases h
    exact .released pages
  | result pages =>
    cases h
    exact .mallocReturned pages

theorem callerMode_inside {c : PageCaller} (h : c ≠ .getKernelPages) :
    PagePlace.callerMode c = .inside := by
  cases c with
  | getKernelPages => exact absurd rfl h
  | mallocLarge | mallocSmall => rfl

theorem Stepping.turns {s s' : PageState} {p p' : PagePlace} (h : Stepping s p s' p') :
    p.mode.Turns p'.mode := by
  have hsame : ∀ c, (PagePlace.callerMode c).Turns (PagePlace.callerMode c) := by
    intro c
    cases c with
    | getKernelPages | mallocLarge | mallocSmall => exact .inl rfl
  cases h with
  | refused | getKernelPages | mallocReturned | hasBlock => exact .inl rfl
  | sysMalloc | released => exact .inr rfl
  | needsPages _ hj => exact .inl (callerMode_inside hj)
  | noRange | range | rangeSet | all | frame | frameSet | added => exact hsame _
  | @noPages j _ hj | @returned j _ _ hj =>
    change (PagePlace.callerMode j.caller).Turns .free
    rw [hj]
    exact .inl rfl
  | @malloced j _ _ _ _ hj =>
    change (PagePlace.callerMode j.caller).Turns .inside
    rw [callerMode_inside hj]
    exact .inl rfl

/-- `sys_malloc` and `get_kernel_pages` from kernel context. -/
def pageCalls : Client PageState PagePlace PageReq where
  outside := .outside
  mode := PagePlace.mode
  guard _ _ _ := True
  step _ s p k := pageStep s p k
  outside_free := rfl
  turns := by
    intro t s p k s' p' h
    exact (pageStep_ok h).turns

abbrev PageWorld := ClientWorld PageState PagePlace

/-- No page and no frame twice. -/
structure HandedOnce (s : PageState) : Prop where
  pages : (s.handed.map (·.1)).Nodup
  frames : (s.handed.map (·.2)).Nodup

/-- When a thread scans the frames of the pool, no other is between its scan and its change,
unless both have the lock. -/
def ScansAlone (w : PageWorld) : ClientCall PageReq → Prop
  | .lock _ => True
  | .go _ => ∀ l, w.place w.locks.sched.running = .pallocScan l → l.cnt ≠ 0 →
      ∀ u l' bitIdx, w.place u = .pallocSet l' bitIdx →
        l.job.caller ≠ .getKernelPages ∧ l'.job.caller ≠ .getKernelPages

/-! ## What every run keeps -/

/-- Where the pages of a call lie that it has not mapped yet. -/
def PagePlace.InHeap : PagePlace → Prop
  | .vaddrSet j bitIdxStart => bitIdxStart + j.pgCnt ≤ HEAP_PAGES
  | .pallocScan l => ∃ i, l.vaddr = pageAddr i ∧ i + l.cnt ≤ HEAP_PAGES
  | .pallocSet l _ | .add l _ => ∃ i, l.vaddr = pageAddr i ∧ i + l.cnt ≤ HEAP_PAGES ∧ l.cnt ≠ 0
  | _ => True

def pagesOf (place : Nat → PagePlace) (t : Nat) : List Nat := (place t).pages.map (·.1)

def framesOf (place : Nat → PagePlace) (t : Nat) : List Nat := (place t).frames

/-- The tables and the pool's bits stay. -/
structure SameMapping (m m' : Memory) : Prop where
  mmu : m'.mmu = m.mmu
  bits : m'.kernelPool.poolBitmap = m.kernelPool.poolBitmap
  geometry : Geometry m → Geometry m'

theorem SameMapping.refl (m : Memory) : SameMapping m m := ⟨rfl, rfl, id⟩

theorem SamePages.mapping {m m' : Memory} (h : SamePages m m') : SameMapping m m' := by
  have hpool := h.kernelPool
  constructor
  · exact h.mmu
  · rw [hpool]
  · intro hg
    constructor
    · rw [h.mmu]
      exact hg.dir
    · rw [h.kernelVaddr]
      exact hg.vstart
    · rw [hpool]
      exact hg.kstart
    · rw [h.kernelVaddr]
      exact hg.vsize
    · rw [hpool]
      exact hg.ksize
    · rw [hpool, h.userPool]
      exact hg.ustart

theorem vaddrMark_mapping (m : Memory) (pgCnt bitIdxStart : Nat) :
    SameMapping m (vaddrMark m pgCnt bitIdxStart).2 := by
  constructor
  · rfl
  · rfl
  · intro hg
    refine ⟨hg.dir, hg.vstart, hg.kstart, ?_, hg.ksize, hg.ustart⟩
    change (bitmapSetRun true pgCnt bitIdxStart m.kernelVaddr.vaddrBitmap).size ≤ 2 ^ 15
    rw [bitmapSetRun_size]
    exact hg.vsize

theorem frameMark_geometry {m : Memory} (hg : Geometry m) (bitIdx : Nat) :
    Geometry { m with kernelPool := (frameMark m.kernelPool bitIdx).2 } :=
  ⟨hg.dir, hg.vstart, hg.kstart, hg.vsize, hg.ksize, hg.ustart⟩

theorem setPte_geometry {m : Memory} (hg : Geometry m) (i e : Nat) :
    Geometry { m with mmu := setPte m.mmu i e } :=
  ⟨hg.dir.setPte i e, hg.vstart, hg.kstart, hg.vsize, hg.ksize, hg.ustart⟩

/-- The address of a bit of the range. -/
theorem vaddrMark_page {m : Memory} (hg : Geometry m) {bitIdxStart : Nat}
    (h : bitIdxStart ≤ HEAP_PAGES) (pgCnt : Nat) :
    (vaddrMark m pgCnt bitIdxStart).1 = pageAddr bitIdxStart := by
  unfold HEAP_PAGES at h
  change u32 (m.kernelVaddr.vaddrStart + bitIdxStart * PG_SIZE) = pageAddr bitIdxStart
  rw [hg.vstart, u32_eq (by unfold K_HEAP_START PG_SIZE; omega)]
  unfold pageAddr
  rw [Nat.mul_comm]

/-- A page of the heap is mapped if it was not. -/
theorem pageTableAdd_page {m m' : Memory} (hg : Geometry m) {i f : Nat} (hi : i < HEAP_PAGES)
    (h : pageTableAdd m (pageAddr i) f = .ok m') : pteOf m.mmu i % 2 = 0 ∧
      m' = { m with mmu := setPte m.mmu i (f ||| PG_US_U ||| PG_RW_W ||| PG_P_1) } := by
  have hpde : ((0x101 + (256 + i) / 1024) * 4096 + 7) &&& 0x00000001 ≠ 0 := by
    rw [Nat.and_one_is_mod]
    omega
  simp only [pageTableAdd, hg.dir.load_pde hi, ok_bind, hpde, ne_eq, not_false_eq_true,
    ↓reduceIte, hg.dir.load_pte hi, hg.dir.store_pte hi] at h
  obtain ⟨_, ha, h⟩ := bind_ok.mp h
  have habs := ASSERT_ok ha
  rw [Nat.and_one_is_mod] at habs
  cases h
  exact ⟨habs, rfl⟩

/-- Every page in somebody's hands is mapped. -/
structure PagesHeld (m : Memory) (common : List Nat) (own : Nat → List Nat) : Prop where
  apart : Apart common own
  mapped : ∀ v, Held common own v → ∃ i < HEAP_PAGES, v = pageAddr i ∧ pteOf m.mmu i % 2 ≠ 0

/-- Every frame in somebody's hands is marked. -/
structure FramesHeld (m : Memory) (common : List Nat) (own : Nat → List Nat) : Prop where
  apart : Apart common own
  marked : ∀ f, Held common own f → ∃ k < m.kernelPool.poolBitmap.size,
    f = frameAddr k ∧ m.kernelPool.poolBitmap.bit k = true

/-- One thread at most has found a frame and not marked it. -/
structure ScanOne (m : Memory) (place : Nat → PagePlace) : Prop where
  free : ∀ t l k, place t = .pallocSet l k →
    k < m.kernelPool.poolBitmap.size ∧ m.kernelPool.poolBitmap.bit k = false
  one : ∀ t u l l' k k', place t = .pallocSet l k → place u = .pallocSet l' k' → t = u

structure PageInv (w : PageWorld) : Prop where
  geometry : Geometry w.shared.heap.mem
  pages : PagesHeld w.shared.heap.mem (w.shared.handed.map (·.1)) (pagesOf w.place)
  frames : FramesHeld w.shared.heap.mem (w.shared.handed.map (·.2)) (framesOf w.place)
  scans : ScanOne w.shared.heap.mem w.place
  inHeap : ∀ t, (w.place t).InHeap

section
variable {m m' : Memory} {common : List Nat} {own : Nat → List Nat} {c i k : Nat}

namespace PagesHeld

theorem mapping (h : PagesHeld m common own) (hm : SameMapping m m') : PagesHeld m' common own := by
  constructor
  · exact h.apart
  · rw [hm.mmu]
    exact h.mapped

theorem drop (h : PagesHeld m common own) :
    PagesHeld m common (Function.update own c []) := by
  constructor
  · exact h.apart.drop
  · exact fun v hv => h.mapped v (held_drop hv)

theorem hand (h : PagesHeld m common own) :
    PagesHeld m (own c ++ common) (Function.update own c []) := by
  constructor
  · exact h.apart.hand
  · exact fun v hv => h.mapped v (held_hand hv)

/-- A page whose entry was free is nobody's. -/
theorem add (h : PagesHeld m common own) (hi : i < HEAP_PAGES) (habs : pteOf m.mmu i % 2 = 0)
    {e : Nat} (he : e % 2 ≠ 0) : PagesHeld { m with mmu := setPte m.mmu i e } common
      (Function.update own c (pageAddr i :: own c)) := by
  constructor
  · apply h.apart.take
    intro hheld
    obtain ⟨j, hj, heq, hpte⟩ := h.mapped _ hheld
    have hji : i = j := by
      unfold pageAddr PG_SIZE at heq
      omega
    subst hji
    exact hpte habs
  · intro v hv
    rcases held_take hv with rfl | hv
    · refine ⟨i, hi, rfl, ?_⟩
      rw [pteOf_setPte, if_pos rfl]
      exact he
    · obtain ⟨j, hj, hvj, hpte⟩ := h.mapped v hv
      refine ⟨j, hj, hvj, ?_⟩
      rw [pteOf_setPte]
      by_cases hji : j = i
      · rw [if_pos hji]
        exact he
      · rw [if_neg hji]
        exact hpte

end PagesHeld

namespace FramesHeld

theorem mapping (h : FramesHeld m common own) (hm : SameMapping m m') :
    FramesHeld m' common own := by
  constructor
  · exact h.apart
  · rw [hm.bits]
    exact h.marked

theorem mmu (h : FramesHeld m common own) (mmu : Mmu) : FramesHeld { m with mmu } common own :=
  ⟨h.apart, h.marked⟩

theorem drop (h : FramesHeld m common own) :
    FramesHeld m common (Function.update own c []) := by
  constructor
  · exact h.apart.drop
  · exact fun f hf => h.marked f (held_drop hf)

theorem hand (h : FramesHeld m common own) :
    FramesHeld m (own c ++ common) (Function.update own c []) := by
  constructor
  · exact h.apart.hand
  · exact fun f hf => h.marked f (held_hand hf)

/-- A frame whose bit was clear is nobody's. -/
theorem mark (h : FramesHeld m common own) (hk : k < m.kernelPool.poolBitmap.size)
    (hfree : m.kernelPool.poolBitmap.bit k = false) :
    FramesHeld { m with kernelPool := { m.kernelPool with
        poolBitmap := bitmapSet m.kernelPool.poolBitmap k true } } common
      (Function.update own c (frameAddr k :: own c)) := by
  constructor
  · apply h.apart.take
    intro hheld
    obtain ⟨j, hj, heq, hbit⟩ := h.marked _ hheld
    have hjk : k = j := by
      unfold frameAddr PG_SIZE at heq
      omega
    subst hjk
    rw [hfree] at hbit
    cases hbit
  · intro f hf
    have hbit : ∀ j, m.kernelPool.poolBitmap.bit j = true ∨ j = k →
        (bitmapSet m.kernelPool.poolBitmap k true).bit j = true := by
      intro j hj
      rw [bitmapSet_bit]
      by_cases hjk : j = k
      · rw [if_pos hjk]
      · rw [if_neg hjk]
        exact hj.resolve_right hjk
    rcases held_take hf with rfl | hf
    · exact ⟨k, hk, rfl, hbit k (.inr rfl)⟩
    · obtain ⟨j, hj, hfj, hb⟩ := h.marked f hf
      exact ⟨j, hj, hfj, hbit j (.inl hb)⟩

end FramesHeld

variable {place : Nat → PagePlace} {p : PagePlace}

namespace ScanOne

theorem mapping (h : ScanOne m place) (hm : SameMapping m m') : ScanOne m' place := by
  constructor
  · rw [hm.bits]
    exact h.free
  · exact h.one

/-- A thread moves on, not to a frame it has found. -/
theorem moved (h : ScanOne m place) (hp : ∀ l k, p ≠ .pallocSet l k) :
    ScanOne m (Function.update place c p) := by
  have hplace : ∀ t l k, Function.update place c p t = .pallocSet l k →
      place t = .pallocSet l k := by
    intro t l k ht
    by_cases htc : t = c
    · subst htc
      rw [Function.update_self] at ht
      exact absurd ht (hp l k)
    · rw [Function.update_of_ne htc] at ht
      exact ht
  constructor
  · exact fun t l k ht => h.free t l k (hplace t l k ht)
  · exact fun t u l l' k k' ht hu => h.one t u l l' k k' (hplace t l k ht) (hplace u l' k' hu)

/-- A thread has found a frame, and no other has. -/
theorem found {l : MapLoop} (hk : k < m.kernelPool.poolBitmap.size)
    (hfree : m.kernelPool.poolBitmap.bit k = false)
    (hnone : ∀ u l' k', place u = .pallocSet l' k' → u = c) :
    ScanOne m (Function.update place c (.pallocSet l k)) := by
  have hcur : ∀ t l' k', Function.update place c (.pallocSet l k) t = .pallocSet l' k' →
      t = c := by
    intro t l' k' ht
    by_contra htc
    rw [Function.update_of_ne htc] at ht
    exact htc (hnone t l' k' ht)
  constructor
  · intro t l' k' ht
    obtain rfl := hcur t l' k' ht
    rw [Function.update_self] at ht
    cases ht
    exact ⟨hk, hfree⟩
  · intro t u l' l'' k' k'' ht hu
    rw [hcur t l' k' ht, hcur u l'' k'' hu]

/-- It marks the frame. -/
theorem mark {l : MapLoop} (h : ScanOne m place) (hcur : place c = .pallocSet l k)
    (hp : ∀ l k, p ≠ .pallocSet l k) (pool : Pool) :
    ScanOne { m with kernelPool := pool } (Function.update place c p) := by
  have hnone : ∀ t l' k', Function.update place c p t ≠ .pallocSet l' k' := by
    intro t l' k' ht
    by_cases htc : t = c
    · subst htc
      rw [Function.update_self] at ht
      exact hp l' k' ht
    · rw [Function.update_of_ne htc] at ht
      exact htc (h.one t c l' l k' k ht hcur)
  constructor
  · exact fun t l' k' ht => absurd ht (hnone t l' k')
  · exact fun t _ l' _ k' _ ht => absurd ht (hnone t l' k')

end ScanOne

theorem pagesOf_update (place : Nat → PagePlace) (c : Nat) (p : PagePlace) :
    pagesOf (Function.update place c p) =
      Function.update (pagesOf place) c (p.pages.map (·.1)) := by
  funext t
  by_cases ht : t = c
  · subst ht
    simp [pagesOf]
  · simp [pagesOf, ht]

theorem framesOf_update (place : Nat → PagePlace) (c : Nat) (p : PagePlace) :
    framesOf (Function.update place c p) = Function.update (framesOf place) c p.frames := by
  funext t
  by_cases ht : t = c
  · subst ht
    simp [framesOf]
  · simp [framesOf, ht]

/-- A call keeps its pages or has given them up. -/
theorem PagesHeld.move (h : PagesHeld m common (pagesOf place))
    (hp : p.pages = (place c).pages ∨ p.pages = []) :
    PagesHeld m common (pagesOf (Function.update place c p)) := by
  rw [pagesOf_update]
  rcases hp with hp | hp
  · rw [hp]
    change PagesHeld m common (Function.update (pagesOf place) c (pagesOf place c))
    rw [Function.update_eq_self]
    exact h
  · rw [hp]
    exact h.drop

theorem FramesHeld.move (h : FramesHeld m common (framesOf place))
    (hp : p.frames = (place c).frames ∨ p.frames = []) :
    FramesHeld m common (framesOf (Function.update place c p)) := by
  rw [framesOf_update]
  rcases hp with hp | hp
  · rw [hp]
    change FramesHeld m common (Function.update (framesOf place) c (framesOf place c))
    rw [Function.update_eq_self]
    exact h
  · rw [hp]
    exact h.drop

end

namespace PageInv

variable {w : PageWorld} {cur : Nat} {p : PagePlace} {locks : LockWorld} {l : MapLoop} {k : Nat}

theorem inHeap_update (h : PageInv w) (hin : p.InHeap) :
    ∀ t, (Function.update w.place cur p t).InHeap := by
  intro t
  by_cases ht : t = cur
  · subst ht
    rw [Function.update_self]
    exact hin
  · rw [Function.update_of_ne ht]
    exact h.inHeap t

/-- A step that maps nothing and marks nothing. -/
theorem moved (h : PageInv w) {heap : Heap} (hm : SameMapping w.shared.heap.mem heap.mem)
    (hpages : p.pages = (w.place cur).pages ∨ p.pages = [])
    (hframes : p.frames = (w.place cur).frames ∨ p.frames = [])
    (hscan : ∀ l k, p ≠ .pallocSet l k) (hin : p.InHeap) :
    PageInv ⟨locks, { w.shared with heap }, Function.update w.place cur p⟩ := by
  constructor
  · exact hm.geometry h.geometry
  · exact (h.pages.mapping hm).move hpages
  · exact (h.frames.mapping hm).move hframes
  · exact (h.scans.mapping hm).moved hscan
  · exact h.inHeap_update hin

/-- `palloc` has found a frame. -/
theorem found (h : PageInv w) (hcur : w.place cur = .pallocScan l) (hcnt : l.cnt ≠ 0)
    (hk : k < w.shared.heap.mem.kernelPool.poolBitmap.size)
    (hfree : w.shared.heap.mem.kernelPool.poolBitmap.bit k = false)
    (hnone : ∀ u l' k', w.place u = .pallocSet l' k' → u = cur) :
    PageInv ⟨locks, w.shared, Function.update w.place cur (.pallocSet l k)⟩ := by
  constructor
  · exact h.geometry
  · exact h.pages.move (.inl (by rw [hcur]; rfl))
  · exact h.frames.move (.inl (by rw [hcur]; rfl))
  · exact .found hk hfree hnone
  · apply h.inHeap_update
    have hin := h.inHeap cur
    rw [hcur] at hin
    obtain ⟨i, hv, hend⟩ := hin
    exact ⟨i, hv, hend, hcnt⟩

/-- It marks the frame. -/
theorem marked (h : PageInv w) (hcur : w.place cur = .pallocSet l k) :
    PageInv ⟨locks, w.shared.setMem { w.shared.heap.mem with
        kernelPool := (frameMark w.shared.heap.mem.kernelPool k).2 },
      Function.update w.place cur (.add l (frameMark w.shared.heap.mem.kernelPool k).1)⟩ := by
  obtain ⟨hk, hfree⟩ := h.scans.free cur l k hcur
  have hframe : (frameMark w.shared.heap.mem.kernelPool k).1 = frameAddr k :=
    u32_frame h.geometry hk
  rw [hframe]
  constructor
  · exact frameMark_geometry h.geometry k
  · have hmove : PagesHeld w.shared.heap.mem (w.shared.handed.map (·.1))
        (pagesOf (Function.update w.place cur (.add l (frameAddr k)))) :=
      h.pages.move (.inl (by rw [hcur]; rfl))
    exact ⟨hmove.apart, hmove.mapped⟩
  · have hown : framesOf w.place cur = l.pages.map (·.2) := by
      rw [framesOf, hcur]
      rfl
    have hmark := h.frames.mark (c := cur) hk hfree
    rw [hown] at hmark
    change FramesHeld _ _ (framesOf (Function.update w.place cur (.add l (frameAddr k))))
    rw [framesOf_update]
    exact hmark
  · exact h.scans.mark hcur (fun _ _ hne => by cases hne) _
  · apply h.inHeap_update
    have hin := h.inHeap cur
    rw [hcur] at hin
    exact hin

/-- `page_table_add`, which refuses a page that is mapped. -/
theorem added (h : PageInv w) {f : Nat} (hcur : w.place cur = .add l f) {mem : Memory}
    (hm : pageTableAdd w.shared.heap.mem l.vaddr f = .ok mem) :
    PageInv ⟨locks, w.shared.setMem mem, Function.update w.place cur (.pallocScan { l with
      vaddr := u32 (l.vaddr + PG_SIZE)
      cnt := l.cnt - 1
      pages := (l.vaddr, f) :: l.pages })⟩ := by
  have hin := h.inHeap cur
  rw [hcur] at hin
  obtain ⟨i, hv, hend, hcnt⟩ := hin
  have hi : i < HEAP_PAGES := by omega
  have hframes : framesOf w.place cur = f :: l.pages.map (·.2) := by
    rw [framesOf, hcur]
    rfl
  have hpages : pagesOf w.place cur = l.pages.map (·.1) := by
    rw [pagesOf, hcur]
    rfl
  have hheld : Held (w.shared.handed.map (·.2)) (framesOf w.place) f := by
    right
    exact ⟨cur, by rw [hframes]; exact .head _⟩
  obtain ⟨k, -, hf, -⟩ := h.frames.marked f hheld
  rw [hv] at hm
  obtain ⟨habs, rfl⟩ := pageTableAdd_page h.geometry hi hm
  have hodd : (f ||| PG_US_U ||| PG_RW_W ||| PG_P_1) % 2 ≠ 0 := by
    have hmod := frameAddr_mod k
    rw [hf, entry_eq hmod]
    omega
  constructor
  · exact setPte_geometry h.geometry _ _
  · have hadd := h.pages.add (c := cur) hi habs hodd
    rw [hpages] at hadd
    change PagesHeld _ _ (pagesOf (Function.update w.place cur _))
    rw [pagesOf_update, hv]
    exact hadd
  · have hmove := (h.frames.mmu (setPte w.shared.heap.mem.mmu i
      (f ||| PG_US_U ||| PG_RW_W ||| PG_P_1))).move (c := cur) (p := .pallocScan { l with
        vaddr := u32 (l.vaddr + PG_SIZE)
        cnt := l.cnt - 1
        pages := (l.vaddr, f) :: l.pages }) (.inl (by rw [hcur]; rfl))
    exact hmove
  · have hmove := h.scans.moved (c := cur) (p := .pallocScan { l with
      vaddr := u32 (l.vaddr + PG_SIZE)
      cnt := l.cnt - 1
      pages := (l.vaddr, f) :: l.pages }) nofun
    exact ⟨hmove.free, hmove.one⟩
  · apply h.inHeap_update
    refine ⟨i + 1, ?_, ?_⟩
    · change u32 (l.vaddr + PG_SIZE) = _
      rw [hv]
      exact u32_nextPage hi
    · change i + 1 + (l.cnt - 1) ≤ HEAP_PAGES
      omega

/-- A call returns its pages. -/
theorem handed (h : PageInv w) {pages : List (Nat × Nat)} {arenaAt : Nat → Arena}
    (hpages : (w.place cur).pages = pages) (hframes : (w.place cur).frames = pages.map (·.2)) :
    PageInv ⟨locks, ⟨{ w.shared.heap with arenaAt }, pages ++ w.shared.handed⟩,
      Function.update w.place cur .outside⟩ := by
  constructor
  · exact h.geometry
  · have hhand := h.pages.hand (c := cur)
    have hown : pagesOf w.place cur = pages.map (·.1) := by rw [pagesOf, hpages]
    rw [hown] at hhand
    rw [pagesOf_update, List.map_append]
    exact hhand
  · have hhand := h.frames.hand (c := cur)
    have hown : framesOf w.place cur = pages.map (·.2) := hframes
    rw [hown] at hhand
    rw [framesOf_update, List.map_append]
    exact hhand
  · have hmove := h.scans.moved (c := cur) (p := .outside) nofun
    exact ⟨hmove.free, hmove.one⟩
  · exact h.inHeap_update trivial

/-- Nobody else is between its scan and its change: two that have the lock are one. -/
theorem alone (hc : ClientInv pageCalls w) (hcur : w.place cur = .pallocScan l)
    (hp : ∀ u l' k', w.place u = .pallocSet l' k' →
      l.job.caller ≠ .getKernelPages ∧ l'.job.caller ≠ .getKernelPages) :
    ∀ u l' k', w.place u = .pallocSet l' k' → u = cur := by
  intro u l' k' hu
  obtain ⟨hl, hl'⟩ := hp u l' k' hu
  apply hc.one (hc.depth_inside _) (hc.depth_inside _)
  · rw [hu]
    exact callerMode_inside hl'
  · rw [hcur]
    exact callerMode_inside hl

theorem go {w' : PageWorld} (hc : ClientInv pageCalls w) (h : PageInv w) {e : PageReq}
    (hp : ScansAlone w (.go e)) (he : pageCalls.exec w (.go e) = .ok w') : PageInv w' := by
  obtain ⟨⟨shared, p⟩, hs, he⟩ := bind_ok.mp he
  obtain ⟨locks, -, he⟩ := bind_ok.mp he
  cases he
  have hstep := pageStep_ok hs
  generalize hcur : w.place w.locks.sched.running = q at hstep
  cases hstep with
  | refused | getKernelPages | sysMalloc =>
    exact h.moved (.refl _) (.inr rfl) (.inr rfl) (fun _ _ hne => by cases hne) trivial
  | needsPages hm | hasBlock hm =>
    exact h.moved hm.mapping (.inr rfl) (.inr rfl) (fun _ _ hne => by cases hne) trivial
  | noRange =>
    exact h.moved (.refl _) (.inr rfl) (.inr rfl) (fun _ _ hne => by cases hne) trivial
  | @range j bitIdxStart hin =>
    apply h.moved (.refl _) (.inr rfl) (.inr rfl) (fun _ _ hne => by cases hne)
    change bitIdxStart + j.pgCnt ≤ HEAP_PAGES
    have hsize := h.geometry.vsize
    unfold HEAP_PAGES
    omega
  | @rangeSet j bitIdxStart v hv =>
    apply h.moved (vaddrMark_mapping ..) (.inr rfl) (.inr rfl) (fun _ _ hne => by cases hne)
    have hin := h.inHeap w.locks.sched.running
    rw [hcur] at hin
    change bitIdxStart + j.pgCnt ≤ HEAP_PAGES at hin
    exact ⟨bitIdxStart, hv.trans (vaddrMark_page h.geometry (by omega) _), hin⟩
  | @all l hcnt =>
    have hpages : (w.place w.locks.sched.running).pages = l.pages := by rw [hcur]; rfl
    have hframes : (w.place w.locks.sched.running).frames = l.pages.map (·.2) := by rw [hcur]; rfl
    exact h.moved (.refl _) (.inl hpages.symm) (.inl hframes.symm)
      (fun _ _ hne => by cases hne) trivial
  | @frame l k hcnt hk hfree =>
    exact h.found hcur hcnt hk hfree (alone hc hcur (hp l hcur hcnt))
  | frameSet l k => exact h.marked hcur
  | added hm => exact h.added hcur hm
  | noPages => exact h.moved (.refl _) (.inr rfl) (.inr rfl) (fun _ _ hne => by cases hne) trivial
  | returned =>
    apply h.handed
    · rw [hcur]
      rfl
    · rw [hcur]
      rfl
  | @malloced j vaddr pages pages' heap hj hm hp' =>
    have hpages : (w.place w.locks.sched.running).pages = pages := by rw [hcur]; rfl
    have hframes : (w.place w.locks.sched.running).frames = pages.map (·.2) := by rw [hcur]; rfl
    rcases hp' with rfl | rfl
    · exact h.moved hm.mapping (.inl hpages.symm) (.inl hframes.symm)
        (fun _ _ hne => by cases hne) trivial
    · exact h.moved hm.mapping (.inr rfl) (.inr rfl) (fun _ _ hne => by cases hne) trivial
  | released pages =>
    have hpages : (w.place w.locks.sched.running).pages = pages := by rw [hcur]; rfl
    have hframes : (w.place w.locks.sched.running).frames = pages.map (·.2) := by rw [hcur]; rfl
    exact h.moved (.refl _) (.inl hpages.symm) (.inl hframes.symm)
      (fun _ _ hne => by cases hne) trivial
  | mallocReturned =>
    apply h.handed
    · rw [hcur]
      rfl
    · rw [hcur]
      rfl

theorem once (h : PageInv w) : HandedOnce w.shared :=
  ⟨h.pages.apart.commonOnce, h.frames.apart.commonOnce⟩

end PageInv

/-- Every run in which no thread scans the frames while another has found one and not marked
it, but for two that have the lock. -/
theorem pageCalls_run {s : Threads} (hs : SchedOk s) {heap : Heap} (hg : Geometry heap.mem)
    {events : List (ClientCall PageReq)} {w : PageWorld}
    (hrun : Guarded.Run (pageCalls.system.only ScansAlone) (pageCalls.start s ⟨heap, []⟩)
      events w) : HandedOnce w.shared := by
  have hnone : ∀ x : Nat, ¬ Held [] (fun _ : Nat => ([] : List Nat)) x := by
    rintro x (hx | ⟨t, hx⟩)
    · cases hx
    · cases hx
  have hstart : PageInv (pageCalls.start s ⟨heap, []⟩) := by
    constructor
    · exact hg
    · exact ⟨.nothing, fun v hv => absurd hv (hnone v)⟩
    · exact ⟨.nothing, fun f hf => absurd hf (hnone f)⟩
    · constructor
      · intro t l k ht
        cases ht
      · intro t u l l' k k' ht
        cases ht
    · exact fun _ => trivial
  have hpres := ClientInv.preserves (P := ScansAlone) (J := PageInv)
    (fun w _ h => ⟨h.geometry, h.pages, h.frames, h.scans, h.inHeap⟩)
    fun _ _ _ hc h _ hp he => PageInv.go hc h hp he
  exact (hrun.preserved hpres ⟨ClientInv.start hs _, hstart⟩).2.once

/-- The steps of a thread alone are the loop of `malloc_page`. -/
theorem reach_mapPages {P : PageWorld → ClientCall PageReq → Prop} {locks : LockWorld}
    {place : Nat → PagePlace} {lock : Lock} {d : Nat} {k : PageReq} {job : PageJob} {v : Nat}
    (hidle : locks.sched.running ≠ locks.sched.idleThread)
    (hgo : ∀ s p, P (Client.runningAt locks place lock d s p) (.go k)) (cnt : Nat)
    {s : PageState} {vaddr : Nat} {pages : List (Nat × Nat)} {m : Memory}
    (h : mapPages .PF_KERNEL cnt vaddr s.heap.mem = .ok (true, m)) :
    ∃ pages', Guarded.Reach (pageCalls.system.only P)
      (Client.runningAt locks place lock d s (.pallocScan ⟨job, v, vaddr, cnt, pages⟩))
      (Client.runningAt locks place lock d (s.setMem m) (.got job (some v) pages')) := by
  have hmode : ∀ p, pageCalls.mode p = PagePlace.callerMode job.caller →
      pageCalls.mode p = .free ∨ pageCalls.mode p = .inside := by
    intro p hp
    rw [hp]
    cases job.caller with
    | getKernelPages => exact .inl rfl
    | mallocLarge | mallocSmall => exact .inr rfl
  induction cnt generalizing s vaddr pages with
  | zero =>
    cases h
    exact ⟨pages, Client.reach_going hidle trivial (hgo _ _) rfl (hmode _ rfl)⟩
  | succ cnt ih =>
    obtain ⟨⟨r, pool⟩, hp, h⟩ := bind_ok.mp h
    change palloc s.heap.mem.kernelPool = .ok (r, pool) at hp
    rw [palloc_eq] at hp
    obtain ⟨found, hscan, hp⟩ := bind_ok.mp hp
    obtain ⟨bitIdx, rfl, -, -⟩ := bitmapScan_one_free hscan
    cases hp
    obtain ⟨m', hadd, h⟩ := bind_ok.mp h
    let l : MapLoop := ⟨job, v, vaddr, cnt + 1, pages⟩
    let f := (frameMark s.heap.mem.kernelPool bitIdx).1
    let marked : PageState :=
      s.setMem { s.heap.mem with kernelPool := (frameMark s.heap.mem.kernelPool bitIdx).2 }
    have hfound : pageStep s (.pallocScan l) k = .ok (s, .pallocSet l bitIdx) := by
      change (bitmapScan s.heap.mem.kernelPool.poolBitmap 1 >>= _) = _
      rw [hscan]
      rfl
    have hadded : pageStep marked (.add l f) k = .ok (s.setMem m',
        .pallocScan ⟨job, v, u32 (vaddr + PG_SIZE), cnt, (vaddr, f) :: pages⟩) := by
      have hadd' : pageTableAdd marked.heap.mem vaddr f = .ok m' := hadd
      change (pageTableAdd marked.heap.mem vaddr f >>= _) = _
      rw [hadd']
      rfl
    have hnext : mapPages .PF_KERNEL cnt (u32 (vaddr + PG_SIZE)) (s.setMem m').heap.mem =
        .ok (true, m) := h
    obtain ⟨pages', hrest⟩ := ih hnext
    have hscans : Guarded.Reach (pageCalls.system.only P)
        (Client.runningAt locks place lock d s (.pallocScan l))
        (Client.runningAt locks place lock d s (.pallocSet l bitIdx)) :=
      Client.reach_going hidle trivial (hgo _ _) hfound (hmode _ rfl)
    have hmarks : Guarded.Reach (pageCalls.system.only P)
        (Client.runningAt locks place lock d s (.pallocSet l bitIdx))
        (Client.runningAt locks place lock d marked (.add l f)) :=
      Client.reach_going hidle trivial (hgo _ _) rfl (hmode _ rfl)
    have hmaps : Guarded.Reach (pageCalls.system.only P)
        (Client.runningAt locks place lock d marked (.add l f))
        (Client.runningAt locks place lock d (s.setMem m')
          (.pallocScan ⟨job, v, u32 (vaddr + PG_SIZE), cnt, (vaddr, f) :: pages⟩)) :=
      Client.reach_going hidle trivial (hgo _ _) hadded (hmode _ rfl)
    exact ⟨pages', hscans.trans (hmarks.trans (hmaps.trans hrest))⟩

/-- A 32 MB machine, nothing handed out. -/
def bootedPages : PageState :=
  ⟨.init (memPoolInit loaderMmu Processes.kernelTask (fun _ => 0) 0x2000000)
    fun _ => ⟨none, 0, false⟩, []⟩

theorem bootedPages_geometry : Geometry bootedPages.heap.mem := by
  have hpages : PagesOk (memPoolInit loaderMmu Processes.kernelTask (fun _ => 0) 0x2000000) [] :=
    memPoolInit_pages loaderMmu_paging
  obtain ⟨f, hmapped, -⟩ := hpages
  exact hmapped.toGeometry

/-! ## A page for each of two threads -/

section
open Client

/-- `get_kernel_pages(1)` that is to map page `i`. -/
def onePage (i : Nat) : MapLoop := ⟨⟨1, .getKernelPages⟩, pageAddr i, pageAddr i, 1, []⟩

/-- The state behind `vaddr_get`. -/
def PageState.atRange (s : PageState) (bitIdxStart : Nat) : PageState :=
  s.setMem (vaddrMark s.heap.mem 1 bitIdxStart).2

/-- The state behind the call that maps page `i` to frame `k`. -/
def PageState.withPage (s : PageState) (i k : Nat) : PageState where
  heap := { s.heap with
    mem := { s.heap.mem with
      kernelPool := (frameMark s.heap.mem.kernelPool k).2
      mmu := setPte s.heap.mem.mmu i (frameAddr k + 7) }
    arenaAt := clearArenas (pageAddr i) 1 s.heap.arenaAt }
  handed := (pageAddr i, frameAddr k) :: s.handed

variable {P : PageWorld → ClientCall PageReq → Prop} {locks : LockWorld} {place : Nat → PagePlace}
  {s : PageState} {start i k : Nat}

/-- A thread alone, up to the frame it finds. -/
theorem reach_found (hidle : locks.sched.running ≠ locks.sched.idleThread)
    (hgo : ∀ s p, P (runningAt locks place lockInit 0 s p) (.go (.getKernelPages 1)))
    (hg : Geometry s.heap.mem) (hstart : start ≤ HEAP_PAGES)
    (hscan : bitmapScan s.heap.mem.kernelVaddr.vaddrBitmap 1 = .ok (some start))
    (hfound : bitmapScan s.heap.mem.kernelPool.poolBitmap 1 = .ok (some k)) :
    Guarded.Reach (pageCalls.system.only P) (runningAt locks place lockInit 0 s .outside)
      (runningAt locks place lockInit 0 (s.atRange start) (.pallocSet (onePage start) k)) := by
  have hrange : pageStep s (.vaddrScan ⟨1, .getKernelPages⟩) (.getKernelPages 1) =
      .ok (s, .vaddrSet ⟨1, .getKernelPages⟩ start) := by
    simp only [pageStep, ASSERT_true (by decide : 0 < 1 ∧ 1 < 3840), ok_bind, hscan]
    rfl
  have hmark : pageStep s (.vaddrSet ⟨1, .getKernelPages⟩ start) (.getKernelPages 1) =
      .ok (s.atRange start, .pallocScan (onePage start)) := by
    have hv := vaddrMark_page hg hstart 1
    simp only [pageStep, hv]
    rfl
  have hframe : pageStep (s.atRange start) (.pallocScan (onePage start)) (.getKernelPages 1) =
      .ok (s.atRange start, .pallocSet (onePage start) k) := by
    change (bitmapScan s.heap.mem.kernelPool.poolBitmap 1 >>= _) = _
    rw [hfound]
    rfl
  have hcall : Guarded.Reach (pageCalls.system.only P)
      (runningAt locks place lockInit 0 s .outside)
      (runningAt locks place lockInit 0 s (.vaddrScan ⟨1, .getKernelPages⟩)) :=
    reach_going hidle trivial (hgo _ _) rfl (.inl rfl)
  have hvaddr : Guarded.Reach (pageCalls.system.only P)
      (runningAt locks place lockInit 0 s (.vaddrScan ⟨1, .getKernelPages⟩))
      (runningAt locks place lockInit 0 s (.vaddrSet ⟨1, .getKernelPages⟩ start)) :=
    reach_going hidle trivial (hgo _ _) hrange (.inl rfl)
  have hset : Guarded.Reach (pageCalls.system.only P)
      (runningAt locks place lockInit 0 s (.vaddrSet ⟨1, .getKernelPages⟩ start))
      (runningAt locks place lockInit 0 (s.atRange start) (.pallocScan (onePage start))) :=
    reach_going hidle trivial (hgo _ _) hmark (.inl rfl)
  exact hcall.trans <| hvaddr.trans <| hset.trans <|
    reach_going hidle trivial (hgo _ _) hframe (.inl rfl)

/-- It goes on to the end. -/
theorem reach_handed (hidle : locks.sched.running ≠ locks.sched.idleThread)
    (hgo : ∀ s p, P (runningAt locks place lockInit 0 s p) (.go (.getKernelPages 1)))
    (hg : Geometry s.heap.mem) (hi : i < s.heap.mem.kernelVaddr.vaddrBitmap.size)
    (habs : pteOf s.heap.mem.mmu i % 2 = 0) (hk : k < s.heap.mem.kernelPool.poolBitmap.size) :
    Guarded.Reach (pageCalls.system.only P)
      (runningAt locks place lockInit 0 s (.pallocSet (onePage i) k))
      (runningAt locks place lockInit 0 (s.withPage i k) .outside) := by
  let pages := [(pageAddr i, frameAddr k)]
  let l : MapLoop := ⟨⟨1, .getKernelPages⟩, pageAddr i, u32 (pageAddr i + PG_SIZE), 0, pages⟩
  let m : Memory := { s.heap.mem with kernelPool := (frameMark s.heap.mem.kernelPool k).2 }
  let m' : Memory := { m with mmu := setPte m.mmu i (frameAddr k + 7) }
  have hmark : pageStep s (.pallocSet (onePage i) k) (.getKernelPages 1) =
      .ok (s.setMem m, .add (onePage i) (frameAddr k)) := by
    have hf : (frameMark s.heap.mem.kernelPool k).1 = frameAddr k := u32_frame hg hk
    simp only [pageStep, hf]
    rfl
  have hmap : pageStep (s.setMem m) (.add (onePage i) (frameAddr k)) (.getKernelPages 1) =
      .ok (s.setMem m', .pallocScan l) := by
    have hadd : pageTableAdd m (pageAddr i) (frameAddr k) = .ok m' :=
      pageTableAdd_heap (frameMark_geometry hg k) hi habs k
    change (pageTableAdd m (pageAddr i) (frameAddr k) >>= _) = _
    rw [hadd]
    rfl
  have hset : Guarded.Reach (pageCalls.system.only P)
      (runningAt locks place lockInit 0 s (.pallocSet (onePage i) k))
      (runningAt locks place lockInit 0 (s.setMem m) (.add (onePage i) (frameAddr k))) :=
    reach_going hidle trivial (hgo _ _) hmark (.inl rfl)
  have hadded : Guarded.Reach (pageCalls.system.only P)
      (runningAt locks place lockInit 0 (s.setMem m) (.add (onePage i) (frameAddr k)))
      (runningAt locks place lockInit 0 (s.setMem m') (.pallocScan l)) :=
    reach_going hidle trivial (hgo _ _) hmap (.inl rfl)
  have hgot : Guarded.Reach (pageCalls.system.only P)
      (runningAt locks place lockInit 0 (s.setMem m') (.pallocScan l))
      (runningAt locks place lockInit 0 (s.setMem m')
        (.got ⟨1, .getKernelPages⟩ (some (pageAddr i)) pages)) :=
    reach_going hidle trivial (hgo _ _) rfl (.inl rfl)
  exact hset.trans <| hadded.trans <| hgot.trans <|
    reach_going hidle trivial (hgo _ _) rfl (.inl rfl)

theorem atRange_geometry (hg : Geometry s.heap.mem) (start : Nat) :
    Geometry (s.atRange start).heap.mem := (vaddrMark_mapping s.heap.mem 1 start).geometry hg

theorem withPage_geometry (hg : Geometry s.heap.mem) (i k : Nat) :
    Geometry (s.withPage i k).heap.mem := by
  have hset := setPte_geometry (frameMark_geometry hg k) i (frameAddr k + 7)
  exact hset

end

/-- The main thread gets the first page and the first frame. -/
theorem pageCalls_run_one : ∃ events w, Guarded.Run (pageCalls.system.only ScansAlone)
    (pageCalls.start bootedThreads bootedPages) events w ∧
    w.shared.handed = [(pageAddr 0, frameAddr 0)] ∧ HandedOnce w.shared := by
  let boot := pageCalls.start bootedThreads bootedPages
  let at' : PageState → PagePlace → PageWorld :=
    Client.runningAt boot.locks boot.place lockInit 0
  have hself : at' bootedPages .outside = boot := Client.runningAt_self rfl
  have hidle : boot.locks.sched.running ≠ boot.locks.sched.idleThread := by decide
  have hgo : ∀ s p, ScansAlone (at' s p) (.go (.getKernelPages 1)) := by
    intro s p l hl _ u l' k hu
    have hp : p = .pallocScan l := by
      rw [← hl]
      exact (Function.update_self boot.locks.sched.running p boot.place).symm
    subst hp
    change Function.update boot.place _ _ u = _ at hu
    by_cases he : u = boot.locks.sched.running
    · subst he
      rw [Function.update_self] at hu
      cases hu
    · rw [Function.update_of_ne he] at hu
      cases hu
  have hg := bootedPages_geometry
  have hfound : Guarded.Reach (pageCalls.system.only ScansAlone) (at' bootedPages .outside)
      (at' (bootedPages.atRange 0) (.pallocSet (onePage 0) 0)) :=
    reach_found hidle hgo hg (by decide) rfl rfl
  have hhanded : Guarded.Reach (pageCalls.system.only ScansAlone)
      (at' (bootedPages.atRange 0) (.pallocSet (onePage 0) 0))
      (at' ((bootedPages.atRange 0).withPage 0 0) .outside) :=
    reach_handed hidle hgo (atRange_geometry hg 0) (by decide) rfl (by decide)
  rw [hself] at hfound
  obtain ⟨events, hrun⟩ := hfound.trans hhanded
  exact ⟨events, _, hrun, rfl,
    pageCalls_run (threadInit_ok threadInit_booted) bootedPages_geometry hrun⟩

/-- Both threads find the first frame before either has marked it. -/
theorem pageCalls_run_both : ∃ events w, Guarded.Run pageCalls.system
    (pageCalls.start bootedThreads bootedPages) events w ∧
    w.shared.handed = [(pageAddr 0, frameAddr 0), (pageAddr 1, frameAddr 0)] ∧
    ¬ HandedOnce w.shared := by
  have hg := bootedPages_geometry
  let s₁ := bootedPages.atRange 0
  let s₂ := s₁.atRange 1
  let s₃ := s₂.withPage 1 0
  have hg₁ : Geometry s₁.heap.mem := atRange_geometry hg 0
  have hg₂ : Geometry s₂.heap.mem := atRange_geometry hg₁ 1
  have hg₃ : Geometry s₃.heap.mem := withPage_geometry hg₂ 1 0
  have hframe : bitmapScan bootedPages.heap.mem.kernelPool.poolBitmap 1 = .ok (some 0) := rfl
  have hpage : bitmapScan (bootedPages.atRange 0).heap.mem.kernelVaddr.vaddrBitmap 1 =
      .ok (some 1) := rfl
  have finds : pageCalls.Goes bootedPages .outside s₁ (.pallocSet (onePage 0) 0) :=
    fun _ _ hidle => reach_found hidle (fun _ _ => trivial) hg (by decide) rfl hframe
  have calls : pageCalls.Goes s₁ .outside s₂ (.pallocSet (onePage 1) 0) :=
    fun _ _ hidle => reach_found hidle (fun _ _ => trivial) hg₁ (by decide) hpage hframe
  have returns : pageCalls.Goes s₂ (.pallocSet (onePage 1) 0) s₃ .outside :=
    fun _ _ hidle => reach_handed hidle (fun _ _ => trivial) hg₂ (by decide) rfl (by decide)
  have goesOn : pageCalls.Goes s₃ (.pallocSet (onePage 0) 0) (s₃.withPage 0 0) .outside :=
    fun _ _ hidle => reach_handed hidle (fun _ _ => trivial) hg₃ (by decide) rfl (by decide)
  obtain ⟨events, w, hrun, hs⟩ := Client.reach_switched finds
    (fun locks place hidle => (calls locks place hidle).trans (returns locks place hidle)) goesOn
  refine ⟨events, w, hrun, by rw [hs]; rfl, ?_⟩
  intro honce
  rw [hs] at honce
  have hframes : ([frameAddr 0, frameAddr 0] : List Nat).Nodup := honce.frames
  exact absurd hframes (by decide)

end ZhuOS
