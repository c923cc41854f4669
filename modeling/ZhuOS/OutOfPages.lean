import ZhuOS.Vaddr

/-!
# Page requests that cannot be met

The four entry points of the page allocator, in a build with or without
`ASSERT`: `NDEBUG` leaves the macro empty. A request is refused when it returns
`NULL` and nothing has changed.
-/

namespace ZhuOS

open PackedBits

/-- `ASSERT(c)`, which a build with `NDEBUG` leaves out. -/
def assertIf (debug : Bool) (c : Prop) [Decidable c] : Except Fault Unit :=
  if debug then ASSERT c else .ok ()

def bitmapScanIf (debug : Bool) (btmp : Bitmap) (cnt : Nat) : Except Fault (Option Nat) := do
  let idxByte := scanByte btmp.bits btmp.btmpBytesLen 0
  assertIf debug (idxByte < btmp.btmpBytesLen)
  if idxByte = btmp.btmpBytesLen then
    return none
  let idxBit := scanBit (btmp.bits idxByte) 8 0
  let bitIdxStart := idxByte * 8 + idxBit
  if cnt = 1 then
    return some bitIdxStart
  return scanRun btmp cnt (btmp.btmpBytesLen * 8 - bitIdxStart) (bitIdxStart + 1) 1

def vaddrGetIf (debug : Bool) (m : Memory) (pf : PoolFlags) (pgCnt : Nat) :
    Except Fault (Option Nat × Memory) := do
  let va := m.vaddrPool pf
  match ← bitmapScanIf debug va.vaddrBitmap pgCnt with
  | none => return (none, m)
  | some bitIdxStart =>
    let m := m.setVaddrBitmap (bitmapSetRun true pgCnt bitIdxStart va.vaddrBitmap) pf
    match pf with
    | .PF_KERNEL => return (some (u32 (va.vaddrStart + bitIdxStart * PG_SIZE)), m)
    | .PF_USER =>
      let vaddrStart := u32 (va.vaddrStart + bitIdxStart + PG_SIZE)
      assertIf debug (vaddrStart < 0xc0000000 - PG_SIZE)
      return (some vaddrStart, m)

def pallocIf (debug : Bool) (mPool : Pool) : Except Fault (Option Nat × Pool) := do
  match ← bitmapScanIf debug mPool.poolBitmap 1 with
  | none => return (none, mPool)
  | some bitIdx =>
    return (some (u32 (bitIdx * PG_SIZE + mPool.phyAddrStart)),
      { mPool with poolBitmap := bitmapSet mPool.poolBitmap bitIdx true })

def pageTableAddIf (debug : Bool) (m : Memory) (vaddr pagePhyaddr : Nat) :
    Except Fault Memory := do
  let entry := pagePhyaddr ||| PG_US_U ||| PG_RW_W ||| PG_P_1
  let pde ← m.mmu.load (pdePtr vaddr)
  if pde &&& 0x00000001 ≠ 0 then
    let pte ← m.mmu.load (ptePtr vaddr)
    -- without the `ASSERT` it is the `PANIC` of the branch after it
    ASSERT (pte &&& 0x00000001 = 0)
    return { m with mmu := ← m.mmu.store (ptePtr vaddr) entry }
  else
    let (pdePhyaddr, kernelPool) ← pallocIf debug m.kernelPool
    let table := pdePhyaddr.getD 0 ||| PG_US_U ||| PG_RW_W ||| PG_P_1
    let mmu ← m.mmu.store (pdePtr vaddr) table
    let mmu ← mmu.clearPage (ptePtr vaddr)
    let pte ← mmu.load (ptePtr vaddr)
    assertIf debug (pte &&& 0x00000001 = 0)
    return { m with kernelPool, mmu := ← mmu.store (ptePtr vaddr) entry }

def mapPagesIf (debug : Bool) (pf : PoolFlags) :
    (cnt vaddr : Nat) → Memory → Except Fault (Bool × Memory)
  | 0, _, m => return (true, m)
  | cnt + 1, vaddr, m => do
    let (pagePhyaddr, p) ← pallocIf debug (m.pool pf)
    match pagePhyaddr with
    | none => return (false, m)
    | some pagePhyaddr =>
      let m ← pageTableAddIf debug (m.setPool p pf) vaddr pagePhyaddr
      mapPagesIf debug pf cnt (u32 (vaddr + PG_SIZE)) m

def mallocPageIf (debug : Bool) (m : Memory) (pf : PoolFlags) (pgCnt : Nat) :
    Except Fault (Option Nat × Memory) := do
  assertIf debug (0 < pgCnt ∧ pgCnt < 3840)
  let (vaddrStart, m) ← vaddrGetIf debug m pf pgCnt
  match vaddrStart with
  | none => return (none, m)
  | some vaddrStart =>
    let (mapped, m) ← mapPagesIf debug pf pgCnt vaddrStart m
    return (if mapped then some vaddrStart else none, m)

/-! ## The entry points -/

/-- `lock_acquire` of a pool's lock, once it is the running thread's to take. -/
def lockPool (m : Memory) (pf : PoolFlags) : Memory :=
  m.setPool { m.pool pf with lockDepth := (m.pool pf).lockDepth + 1 } pf

/-- `lock_release`. -/
def unlockPool (debug : Bool) (m : Memory) (pf : PoolFlags) : Except Fault Memory := do
  assertIf debug (0 < (m.pool pf).lockDepth)
  return m.setPool { m.pool pf with lockDepth := (m.pool pf).lockDepth - 1 } pf

/-- The bit of a page: a process has user pages alone, a kernel thread kernel pages. -/
def markPage (debug : Bool) (m : Memory) (pf : PoolFlags) (vaddr : Nat) : Except Fault Memory :=
  let va := m.vaddrPool pf
  let bitIdx := sub32 vaddr va.vaddrStart / PG_SIZE
  match m.running.pgdir, pf with
  | some _, .PF_USER | none, .PF_KERNEL => do
    assertIf debug (0 < bitIdx)
    return m.setVaddrBitmap (bitmapSet va.vaddrBitmap bitIdx true) pf
  | _, _ => .error .panic

/-- `get_a_page`: a page at a given address. Without a frame it returns with the
lock held and the page's bit set. -/
def getAPage (debug : Bool) (m : Memory) (pf : PoolFlags) (vaddr : Nat) :
    Except Fault (Option Nat × Memory) := do
  let m ← markPage debug (lockPool m pf) pf vaddr
  let (pagePhyaddr, p) ← pallocIf debug (m.pool pf)
  match pagePhyaddr with
  | none => return (none, m)
  | some pagePhyaddr =>
    let m ← pageTableAddIf debug (m.setPool p pf) vaddr pagePhyaddr
    return (some vaddr, ← unlockPool debug m pf)

/-- `get_a_page_without_opvaddrbitmap`. -/
def getAPageWithoutOpvaddrbitmap (debug : Bool) (m : Memory) (pf : PoolFlags) (vaddr : Nat) :
    Except Fault (Option Nat × Memory) := do
  let m := lockPool m pf
  let (pagePhyaddr, p) ← pallocIf debug (m.pool pf)
  match pagePhyaddr with
  | none => return (none, ← unlockPool debug m pf)
  | some pagePhyaddr =>
    let m ← pageTableAddIf debug (m.setPool p pf) vaddr pagePhyaddr
    return (some vaddr, ← unlockPool debug m pf)

/-- `*p = 0` on the byte at a virtual address. -/
def Mmu.clearByte (m : Mmu) (a : Nat) : Except Fault Mmu := do
  let f ← m.walk a
  let old := m.phys f (a % 4096 / 4)
  let byte := 256 ^ (a % 4)
  return m.put f (a % 4096 / 4) (old - old / byte % 256 * byte)

/-- `memset(a, 0, len)`. -/
def Mmu.clearBytes : (len a : Nat) → Mmu → Except Fault Mmu
  | 0, _, m => return m
  | len + 1, a, m => do clearBytes len (u32 (a + 1)) (← m.clearByte a)

/-- `get_user_pages`: the pages are cleared whether there are any or not, and
page 0 is no page of a process. -/
def getUserPages (debug : Bool) (m : Memory) (pgCnt : Nat) :
    Except Fault (Option Nat × Memory) := do
  let m := lockPool m .PF_USER
  let (vaddr, m) ← mallocPageIf debug m .PF_USER pgCnt
  match vaddr with
  | none => .error .badAddress
  | some vaddr =>
    let mmu ← Mmu.clearBytes (pgCnt * PG_SIZE) vaddr m.mmu
    return (some vaddr, ← unlockPool debug { m with mmu } .PF_USER)

/-! ## A build with `ASSERT` is the one modelled before -/

theorem bitmapScanIf_debug (b : Bitmap) (n : Nat) : bitmapScanIf true b n = bitmapScan b n := rfl

theorem vaddrGetIf_debug (m : Memory) (pf : PoolFlags) (n : Nat) :
    vaddrGetIf true m pf n = vaddrGet m pf n := by
  simp only [vaddrGetIf, bitmapScanIf_debug, assertIf, ↓reduceIte]
  cases pf with
  | PF_KERNEL => rfl
  | PF_USER => rfl

theorem pallocIf_debug (p : Pool) : pallocIf true p = palloc p := rfl

theorem pageTableAddIf_debug (m : Memory) (v f : Nat) :
    pageTableAddIf true m v f = pageTableAdd m v f := rfl

theorem mapPagesIf_debug (pf : PoolFlags) (cnt v : Nat) (m : Memory) :
    mapPagesIf true pf cnt v m = mapPages pf cnt v m := by
  induction cnt generalizing v m with
  | zero => rfl
  | succ cnt ih =>
    simp only [mapPagesIf, ih]
    rfl

theorem mallocPageIf_debug (m : Memory) (pf : PoolFlags) (n : Nat) :
    mallocPageIf true m pf n = mallocPage m pf n := by
  simp only [mallocPageIf, vaddrGetIf_debug, mapPagesIf_debug]
  rfl

/-! ## What a scan finds -/

/-- The bits a scan for `n` looks at: for more than one it takes the bit after the
map for one of its own. -/
def scanLimit (b : Bitmap) (n : Nat) : Nat := if n = 1 then b.size else b.size + 1

/-- No run of `n` free bits among those a scan looks at. -/
def ScansNone (b : Bitmap) (n : Nat) : Prop := ∀ s, ¬ ClearRun b.bits (scanLimit b n) s n

/-- A run the last loop returns is one. -/
theorem scanRun_sound {b : Bitmap} {cnt s : Nat} (left nextBit count : Nat) (hcount : count < cnt)
    (hle : count ≤ nextBit) (hclear : ∀ j, nextBit - count ≤ j → j < nextBit → b.bit j = false)
    (h : scanRun b cnt left nextBit count = some s) : ClearRun b.bits (nextBit + left) s cnt := by
  induction left generalizing nextBit count with
  | zero => cases h
  | succ left ih =>
    simp only [scanRun, bitmapScanTest_bit] at h
    cases hb : b.bit nextBit with
    | true =>
      simp only [hb, ↓reduceIte, show ¬ 0 = cnt by omega] at h
      have := ih (nextBit + 1) 0 (by omega) (by omega) (fun j hj hlt => by omega) h
      exact ⟨by have := this.inside; omega, this.clear⟩
    | false =>
      have hclear' : ∀ j, nextBit - count ≤ j → j < nextBit + 1 → b.bit j = false := by
        intro j hj hlt
        by_cases he : j = nextBit
        · exact he ▸ hb
        · exact hclear j hj (by omega)
      simp only [hb, Bool.false_eq_true, ↓reduceIte] at h
      split at h
      · rename_i hcnt
        cases h
        exact ⟨by omega, fun j hj hlt => hclear' j (by omega) (by omega)⟩
      · have := ih (nextBit + 1) (count + 1) (by omega) (by omega)
          (fun j hj hlt => hclear' j (by omega) hlt) h
        exact ⟨by have := this.inside; omega, this.clear⟩

/-- The first free bit of a map that has one. -/
theorem exists_first_free {b : Bitmap} (h : ∃ i < b.size, b.bit i = false) :
    ∃ i < b.size, b.bit i = false ∧ ∀ j < i, b.bit j = true := by
  classical
  obtain ⟨hi, hfree⟩ := Nat.find_spec h
  refine ⟨_, hi, hfree, fun j hj => ?_⟩
  have := Nat.find_min h hj
  simpa [show j < b.size by omega] using this

/-- In a map with a free bit a scan returns a run, or there is none where it looks. -/
theorem bitmapScanIf_free {b : Bitmap} {n : Nat} (debug : Bool) (hn : 1 ≤ n)
    (h : ∃ i < b.size, b.bit i = false) : ∃ r, bitmapScanIf debug b n = .ok r ∧
      match r with
      | some s => ClearRun b.bits (scanLimit b n) s n
      | none => ScansNone b n := by
  obtain ⟨i, hi, hfree, hfirst⟩ := exists_first_free h
  obtain ⟨hbyte, hpos⟩ := scan_first hi hfree hfirst
  have hne : scanByte b.bits b.btmpBytesLen 0 ≠ b.btmpBytesLen := by omega
  have hassert : assertIf debug (scanByte b.bits b.btmpBytesLen 0 < b.btmpBytesLen) = .ok () := by
    cases debug with
    | true => exact ASSERT_true hbyte
    | false => rfl
  simp only [bitmapScanIf, hassert, ok_bind, hne, ↓reduceIte, hpos]
  by_cases h1 : n = 1
  · subst h1
    exact ⟨_, rfl, by simp only [scanLimit, ↓reduceIte]; omega, fun j hj hlt =>
      (show j = i by omega) ▸ hfree⟩
  · have hlen : i + 1 + (b.btmpBytesLen * 8 - i) = b.size + 1 := by
      unfold Bitmap.size at hi ⊢
      omega
    have hone : ∀ j, i + 1 - 1 ≤ j → j < i + 1 → b.bit j = false := fun j hj hlt =>
      (show j = i by omega) ▸ hfree
    simp only [h1, ↓reduceIte, scanLimit, ScansNone]
    refine ⟨_, rfl, ?_⟩
    cases hrun : scanRun b n (b.btmpBytesLen * 8 - i) (i + 1) 1 with
    | some s => exact hlen ▸ scanRun_sound _ _ _ (by omega) (by omega) hone hrun
    | none =>
      intro s hs
      obtain ⟨t, ht⟩ := exists_leastRun hs
      have hin := ht.run.inside
      have hge : i ≤ t := by
        by_contra hlt
        have := hfirst t (by omega)
        simp [Bitmap.bit, ht.run.clear t (Nat.le_refl _) (by omega)] at this
      have hroom : t + n ≤ i + 1 + (b.btmpBytesLen * 8 - i) := by omega
      have hleast := scanRun_least ht _ (i + 1) 1 (by omega) (by omega) hone (by omega) hroom
      rw [hleast] at hrun
      cases hrun

/-- A scan of a full map is where the builds differ. -/
theorem bitmapScanIf_full {b : Bitmap} (debug : Bool) (n : Nat)
    (h : ¬ ∃ i < b.size, b.bit i = false) :
    bitmapScanIf debug b n = if debug then .error .panic else .ok none := by
  have hend : scanByte b.bits b.btmpBytesLen 0 = b.btmpBytesLen := by
    obtain ⟨-, hle, -, hstop⟩ := scanByte_spec b.bits b.btmpBytesLen 0
    rcases hstop with he | hne
    · omega
    · by_contra hlt
      refine absurd ((byte_full_iff b.bits _).mpr fun j hj => ?_) hne
      by_contra hb
      exact h ⟨scanByte b.bits b.btmpBytesLen 0 * 8 + j, by unfold Bitmap.size; omega,
        by simpa [Bitmap.bit] using hb⟩
  simp only [bitmapScanIf, hend, lt_self_iff_false, ↓reduceIte]
  cases debug with
  | true => rfl
  | false => rfl

theorem scansNone_full {b : Bitmap} {n : Nat} (hn : 1 ≤ n) (h : ¬ ∃ i < b.size, b.bit i = false) :
    ScansNone b n := by
  intro s hs
  have hin := hs.inside
  have hbit := hs.clear s (Nat.le_refl _) (by omega)
  refine h ⟨s, ?_, hbit⟩
  unfold scanLimit at hin
  split at hin
  · omega
  · omega

/-- With no free frame, too. -/
theorem pallocIf_full {p : Pool} (debug : Bool) (h : p.poolBitmap.free.card < 1) :
    pallocIf debug p = if debug then .error .panic else .ok (none, p) := by
  have hfull : ¬ ∃ i < p.poolBitmap.size, p.poolBitmap.bit i = false := fun hex => by
    have := Bitmap.free_pos.mpr hex
    omega
  rw [pallocIf, bitmapScanIf_full debug 1 hfull]
  cases debug with
  | true => rfl
  | false => rfl

theorem vaddrGetIf_some {debug : Bool} {m m' : Memory} {pf : PoolFlags} {n s : Nat} {v : Option Nat}
    (hs : bitmapScanIf debug (m.vaddrPool pf).vaddrBitmap n = .ok (some s))
    (h : vaddrGetIf debug m pf n = .ok (v, m')) : v.isSome ∧
      m' = m.setVaddrBitmap (bitmapSetRun true n s (m.vaddrPool pf).vaddrBitmap) pf := by
  simp only [vaddrGetIf, hs, ok_bind] at h
  cases pf with
  | PF_KERNEL =>
    cases h
    exact ⟨rfl, rfl⟩
  | PF_USER =>
    obtain ⟨_, -, h⟩ := bind_ok.mp h
    cases h
    exact ⟨rfl, rfl⟩

/-- Mapping a page leaves the virtual bitmaps alone. -/
theorem pageTableAddIf_vaddr {debug : Bool} {m m' : Memory} {v f : Nat}
    (h : pageTableAddIf debug m v f = .ok m') (pf : PoolFlags) :
    m'.vaddrPool pf = m.vaddrPool pf := by
  obtain ⟨pde, -, h⟩ := bind_ok.mp h
  split at h
  · obtain ⟨_, -, h⟩ := bind_ok.mp h
    obtain ⟨_, -, h⟩ := bind_ok.mp h
    obtain ⟨_, -, h⟩ := bind_ok.mp h
    cases h
    cases pf <;> rfl
  · obtain ⟨_, -, h⟩ := bind_ok.mp h
    obtain ⟨_, -, h⟩ := bind_ok.mp h
    obtain ⟨_, -, h⟩ := bind_ok.mp h
    obtain ⟨_, -, h⟩ := bind_ok.mp h
    obtain ⟨_, -, h⟩ := bind_ok.mp h
    obtain ⟨_, -, h⟩ := bind_ok.mp h
    cases h
    cases pf <;> rfl

theorem setPool_vaddrPool (m : Memory) (p : Pool) (pf pf' : PoolFlags) :
    (m.setPool p pf).vaddrPool pf' = m.vaddrPool pf' := by
  cases pf <;> cases pf' <;> rfl

theorem mapPagesIf_vaddr {debug : Bool} {pf : PoolFlags} {cnt v : Nat} {m m' : Memory} {r : Bool}
    (h : mapPagesIf debug pf cnt v m = .ok (r, m')) (pf' : PoolFlags) :
    m'.vaddrPool pf' = m.vaddrPool pf' := by
  induction cnt generalizing v m with
  | zero =>
    cases h
    rfl
  | succ cnt ih =>
    obtain ⟨⟨page, p⟩, -, h⟩ := bind_ok.mp h
    cases page with
    | none =>
      cases h
      rfl
    | some page =>
      obtain ⟨m1, hadd, h⟩ := bind_ok.mp h
      rw [ih h, pageTableAddIf_vaddr hadd, setPool_vaddrPool]

/-! ## Requests -/

inductive PageRequest
  | mallocPage (pf : PoolFlags) (pgCnt : Nat)
  | getAPage (pf : PoolFlags) (vaddr : Nat)
  | getAPageWithoutOpvaddrbitmap (pf : PoolFlags) (vaddr : Nat)
  | getUserPages (pgCnt : Nat)

def PageRequest.call (debug : Bool) (m : Memory) :
    PageRequest → Except Fault (Option Nat × Memory)
  | .mallocPage pf n => mallocPageIf debug m pf n
  | .getAPage pf v => ZhuOS.getAPage debug m pf v
  | .getAPageWithoutOpvaddrbitmap pf v => ZhuOS.getAPageWithoutOpvaddrbitmap debug m pf v
  | .getUserPages n => ZhuOS.getUserPages debug m n

/-- No free run of `n` virtual pages, or fewer than `n` free frames. -/
def NoPages (m : Memory) (pf : PoolFlags) (n : Nat) : Prop :=
  (¬ ∃ s, ClearRun (m.vaddrPool pf).vaddrBitmap.bits (m.vaddrPool pf).vaddrBitmap.size s n) ∨
    (m.pool pf).poolBitmap.free.card < n

/-- The request cannot be met. A page at a given address asks for a frame alone. -/
def Unmet (m : Memory) : PageRequest → Prop
  | .mallocPage pf n => NoPages m pf n
  | .getAPage pf _ => (m.pool pf).poolBitmap.free.card < 1
  | .getAPageWithoutOpvaddrbitmap pf _ => (m.pool pf).poolBitmap.free.card < 1
  | .getUserPages n => NoPages m .PF_USER n

/-- The bitmaps, the page tables and the locks of the two memories are the same. -/
structure Memory.Unchanged (m m' : Memory) : Prop where
  frames : ∀ pf i, (m'.pool pf).poolBitmap.bit i = (m.pool pf).poolBitmap.bit i
  pages : ∀ pf i, (m'.vaddrPool pf).vaddrBitmap.bit i = (m.vaddrPool pf).vaddrBitmap.bit i
  tables : m'.mmu = m.mmu
  locks : ∀ pf, (m'.pool pf).lockDepth = (m.pool pf).lockDepth

/-- The call returns `NULL` and nothing has changed. -/
def Refused (debug : Bool) (m : Memory) (r : PageRequest) : Prop :=
  ∃ m', r.call debug m = .ok (none, m') ∧ m.Unchanged m'

/-- What is refused as it should be: a virtual range, when the scan looks at no free
run and, with `ASSERT`, has a free page to start from; and a page at a given address
without its bit, when there is no `ASSERT`. -/
def RefusesRight (debug : Bool) (m : Memory) : PageRequest → Prop
  | .mallocPage pf n =>
    let b := (m.vaddrPool pf).vaddrBitmap
    ScansNone b n ∧ (debug = true → n < 3840 ∧ ∃ i < b.size, b.bit i = false)
  | .getAPageWithoutOpvaddrbitmap _ _ => debug = false
  | .getAPage _ _ | .getUserPages _ => False

theorem Memory.Unchanged.refl (m : Memory) : m.Unchanged m :=
  ⟨fun _ _ => rfl, fun _ _ => rfl, rfl, fun _ => rfl⟩

theorem NoPages.pos {m : Memory} {pf : PoolFlags} {n : Nat} (h : NoPages m pf n) : 1 ≤ n := by
  rcases h with h | h
  · by_contra hz
    obtain rfl : n = 0 := by omega
    exact h ⟨0, Nat.zero_le _, fun j hj hlt => by omega⟩
  · omega

/-- A range taken from the virtual bitmap is never given back. -/
theorem mallocPageIf_refused_iff {debug : Bool} {m : Memory} {pf : PoolFlags} {n : Nat}
    (hn : 1 ≤ n) :
    Refused debug m (.mallocPage pf n) ↔ RefusesRight debug m (.mallocPage pf n) := by
  constructor
  · rintro ⟨m', hcall, hun⟩
    obtain ⟨_, hassert, hcall⟩ := bind_ok.mp hcall
    obtain ⟨⟨v, m1⟩, hget, hcall⟩ := bind_ok.mp hcall
    by_cases hex : ∃ i < (m.vaddrPool pf).vaddrBitmap.size,
        (m.vaddrPool pf).vaddrBitmap.bit i = false
    · obtain ⟨r, hscan, hr⟩ := bitmapScanIf_free debug hn hex
      cases r with
      | none =>
        refine ⟨hr, fun hd => ⟨?_, hex⟩⟩
        subst hd
        exact (ASSERT_ok hassert).2
      | some s =>
        -- the page at `s` was free and stays taken
        obtain ⟨hv, rfl⟩ := vaddrGetIf_some hscan hget
        obtain ⟨a, rfl⟩ := Option.isSome_iff_exists.mp hv
        obtain ⟨⟨mapped, m2⟩, hmap, hcall⟩ := bind_ok.mp hcall
        obtain rfl : m2 = m' := congrArg Prod.snd (Except.ok.inj hcall)
        have hpage := hun.pages pf s
        have hin : s ≤ s ∧ s < s + n := by omega
        rw [mapPagesIf_vaddr hmap, setVaddrBitmap_vaddrPool, bitmapSetRun_bit, if_pos hin] at hpage
        exact absurd (hr.clear s (Nat.le_refl _) (by omega)) (by rw [← Bitmap.bit, ← hpage]; decide)
    · cases debug with
      | true =>
        simp only [vaddrGetIf, bitmapScanIf_full true n hex, ↓reduceIte, error_bind] at hget
        cases hget
      | false => exact ⟨scansNone_full hn hex, fun hd => Bool.noConfusion hd⟩
  · rintro ⟨hnone, hdebug⟩
    have hassert : assertIf debug (0 < n ∧ n < 3840) = .ok () := by
      cases debug with
      | true => exact ASSERT_true ⟨hn, (hdebug rfl).1⟩
      | false => rfl
    have hscan : bitmapScanIf debug (m.vaddrPool pf).vaddrBitmap n = .ok none := by
      by_cases hex : ∃ i < (m.vaddrPool pf).vaddrBitmap.size,
          (m.vaddrPool pf).vaddrBitmap.bit i = false
      · obtain ⟨r, hscan, hr⟩ := bitmapScanIf_free debug hn hex
        cases r with
        | none => exact hscan
        | some s => exact absurd hr (hnone s)
      · cases debug with
        | true => exact absurd (hdebug rfl).2 hex
        | false => exact bitmapScanIf_full false n hex
    refine ⟨m, ?_, .refl m⟩
    simp only [PageRequest.call, mallocPageIf, hassert, ok_bind, vaddrGetIf, hscan]
    rfl

@[simp] theorem setPool_pool (m : Memory) (p : Pool) (pf : PoolFlags) :
    (m.setPool p pf).pool pf = p := by
  cases pf <;> rfl

theorem setVaddrBitmap_pool (m : Memory) (b : Bitmap) (pf pf' : PoolFlags) :
    (m.setVaddrBitmap b pf).pool pf' = m.pool pf' := by
  cases pf <;> cases pf' <;> rfl

theorem markPage_pool {debug : Bool} {m m' : Memory} {pf : PoolFlags} {v : Nat}
    (h : markPage debug m pf v = .ok m') (pf' : PoolFlags) : m'.pool pf' = m.pool pf' := by
  simp only [markPage] at h
  split at h
  · obtain ⟨_, -, h⟩ := bind_ok.mp h
    cases h
    exact setVaddrBitmap_pool ..
  · obtain ⟨_, -, h⟩ := bind_ok.mp h
    cases h
    exact setVaddrBitmap_pool ..
  · cases h

/-- Without a frame `get_a_page` never lets go of the lock. -/
theorem getAPage_not_refused {debug : Bool} {m : Memory} {pf : PoolFlags} {v : Nat}
    (h : (m.pool pf).poolBitmap.free.card < 1) : ¬ Refused debug m (.getAPage pf v) := by
  rintro ⟨m', hcall, hun⟩
  obtain ⟨m1, hbit, hcall⟩ := bind_ok.mp hcall
  have hpool := markPage_pool hbit pf
  have hpalloc : pallocIf debug (m1.pool pf) = if debug then .error .panic else
      .ok (none, m1.pool pf) := by
    apply pallocIf_full debug
    simp only [hpool, lockPool, setPool_pool]
    exact h
  rw [hpalloc] at hcall
  cases debug with
  | true => cases hcall
  | false =>
    cases hcall
    have hlock := hun.locks pf
    simp only [hpool, lockPool, setPool_pool] at hlock
    exact absurd hlock (Nat.succ_ne_self _)

theorem getAPageWithout_refused_iff {debug : Bool} {m : Memory} {pf : PoolFlags} {v : Nat}
    (h : (m.pool pf).poolBitmap.free.card < 1) :
    Refused debug m (.getAPageWithoutOpvaddrbitmap pf v) ↔ debug = false := by
  have hpalloc : pallocIf debug ((lockPool m pf).pool pf) =
      if debug then .error .panic else .ok (none, (lockPool m pf).pool pf) := by
    simp only [lockPool, setPool_pool]
    exact pallocIf_full debug h
  cases debug with
  | true =>
    refine ⟨?_, fun hd => Bool.noConfusion hd⟩
    rintro ⟨m', hcall, -⟩
    simp only [PageRequest.call, getAPageWithoutOpvaddrbitmap, hpalloc, ↓reduceIte, error_bind]
      at hcall
    cases hcall
  | false =>
    refine ⟨fun _ => rfl, fun _ => ⟨m, ?_, .refl m⟩⟩
    simp only [PageRequest.call, getAPageWithoutOpvaddrbitmap, hpalloc, Bool.false_eq_true,
      ↓reduceIte, ok_bind]
    cases pf with
    | PF_KERNEL => rfl
    | PF_USER => rfl

/-- A request that cannot be met is refused exactly in these cases. -/
theorem refused_iff {debug : Bool} {m : Memory} {r : PageRequest} (h : Unmet m r) :
    Refused debug m r ↔ RefusesRight debug m r := by
  cases r with
  | mallocPage pf n => exact mallocPageIf_refused_iff (NoPages.pos h)
  | getAPage pf v => exact ⟨fun hr => getAPage_not_refused h hr, False.elim⟩
  | getAPageWithoutOpvaddrbitmap pf v => exact getAPageWithout_refused_iff h
  | getUserPages n =>
    refine ⟨?_, False.elim⟩
    rintro ⟨m', hcall, -⟩
    obtain ⟨⟨v, m1⟩, -, hcall⟩ := bind_ok.mp hcall
    cases v with
    | none => cases hcall
    | some v =>
      obtain ⟨_, -, hcall⟩ := bind_ok.mp hcall
      obtain ⟨_, -, hcall⟩ := bind_ok.mp hcall
      cases hcall

/-- Eight free kernel pages and no frame behind them. -/
def noFrames : Memory :=
  { freshProcess with
    running := { freshProcess.running with pgdir := none }
    kernelPool := ⟨⟨1, fun _ => 0xff⟩, USED_MEM, 0x8000, 0⟩
    kernelVaddr := ⟨⟨1, fun _ => 0⟩, K_HEAP_START⟩ }

theorem noFrames_unmet : Unmet noFrames (.mallocPage .PF_KERNEL 1) := by
  refine .inr ?_
  show noFrames.kernelPool.poolBitmap.free.card < 1
  decide

/-- Ten pages in a row are refused with nothing changed. -/
theorem refused_iff_ten : Refused true noFrames (.mallocPage .PF_KERNEL 10) ↔
    RefusesRight true noFrames (.mallocPage .PF_KERNEL 10) := by
  refine refused_iff (.inr ?_)
  show noFrames.kernelPool.poolBitmap.free.card < 10
  decide

/-- Without a frame one page more is asked for in vain: the kernel stops, or, without
`ASSERT`, keeps the page's bit. -/
theorem mallocPage_not_refused : Unmet noFrames (.mallocPage .PF_KERNEL 1) ∧
    ∀ debug, ¬ Refused debug noFrames (.mallocPage .PF_KERNEL 1) := by
  refine ⟨noFrames_unmet, fun debug hr => ?_⟩
  have hnone := ((mallocPageIf_refused_iff (Nat.le_refl 1)).mp hr).1
  exact hnone 0 ⟨by decide, fun j _ hlt => by
    obtain rfl : j = 0 := by omega
    decide⟩

end ZhuOS
