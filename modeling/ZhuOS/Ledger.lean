import ZhuOS.Paging

/-!
# What each frame is used for

A ledger gives a frame to each use there is: the pages of the kernel's heap, the tables
of a process, the pages of a process. `Accounts` is what the pools' bitmaps have to do
with it and `Tables` what the page tables do.
-/

namespace ZhuOS

open Assignment

inductive Use
  /-- page `i` of the heap; the directories of the processes are among them -/
  | heap (i : Nat)
  /-- the table behind entry `k` of the directory of process `d` -/
  | table (d k : Nat)
  /-- page `p` of process `d` -/
  | user (d p : Nat)
  deriving DecidableEq, Repr

namespace Use

def pool : Use → PoolFlags
  | .user _ _ => .PF_USER
  | _ => .PF_KERNEL

/-- The tables of a process and its pages are those below the kernel's gigabyte. -/
def InRange : Use → Prop
  | .heap i => i < HEAP_PAGES
  | .table _ k => k < 768
  | .user _ p => p < 768 * 1024

end Use

abbrev Ledger := Use → Option Nat

/-- No frame has two uses, and none is the loader's. -/
structure Sound (F : Ledger) : Prop where
  distinct : Distinct F
  inRange : ∀ u f, F u = some f → u.InRange
  high : ∀ u f, F u = some f → 0x200 ≤ f

/-! ## The pools -/

/-- Where the pools lie. -/
structure PoolsPlaced (m : Memory) : Prop where
  vstart : m.kernelVaddr.vaddrStart = K_HEAP_START
  vsize : m.kernelVaddr.vaddrBitmap.size ≤ 2 ^ 15
  kstart : m.kernelPool.phyAddrStart = USED_MEM
  kend : USED_MEM + PG_SIZE * m.kernelPool.poolBitmap.size ≤ m.userPool.phyAddrStart
  ualigned : m.userPool.phyAddrStart % PG_SIZE = 0
  uend : m.userPool.phyAddrStart + PG_SIZE * m.userPool.poolBitmap.size ≤ 2 ^ 32

/-- Frame `k` of a pool. -/
def Memory.frame (m : Memory) (pf : PoolFlags) (k : Nat) : Nat :=
  (m.pool pf).phyAddrStart / PG_SIZE + k

/-- A frame is taken from its pool when it has a use, and only then. -/
structure Accounts (m : Memory) (F : Ledger) : Prop extends PoolsPlaced m where
  distinct : Distinct F
  inRange : ∀ u f, F u = some f → u.InRange
  frames : ∀ u f, F u = some f → ∃ k < (m.pool u.pool).poolBitmap.size, f = m.frame u.pool k
  marked : ∀ pf, ∀ k < (m.pool pf).poolBitmap.size,
    (m.pool pf).poolBitmap.bit k = true ↔ Taken F (m.frame pf k)

namespace PoolsPlaced

variable {m : Memory}

theorem aligned (h : PoolsPlaced m) (pf : PoolFlags) : (m.pool pf).phyAddrStart % PG_SIZE = 0 := by
  cases pf with
  | PF_KERNEL => exact h.kstart ▸ (by decide)
  | PF_USER => exact h.ualigned

theorem frame_bounds (h : PoolsPlaced m) (pf : PoolFlags) {k : Nat}
    (hk : k < (m.pool pf).poolBitmap.size) : 0x200 ≤ m.frame pf k ∧ m.frame pf k < 2 ^ 20 := by
  have hkend := h.kend
  have huend := h.uend
  have hks := h.kstart
  unfold USED_MEM PG_SIZE at *
  cases pf with
  | PF_KERNEL =>
    unfold Memory.pool at hk
    unfold Memory.frame Memory.pool PG_SIZE
    dsimp only at hk ⊢
    omega
  | PF_USER =>
    unfold Memory.pool at hk
    unfold Memory.frame Memory.pool PG_SIZE
    dsimp only at hk ⊢
    omega

/-- The address `palloc` makes of it. -/
theorem u32_frame (h : PoolsPlaced m) (pf : PoolFlags) {k : Nat}
    (hk : k < (m.pool pf).poolBitmap.size) :
    u32 (k * PG_SIZE + (m.pool pf).phyAddrStart) = m.frame pf k * 4096 := by
  have hb := (h.frame_bounds pf hk).2
  have hal := h.aligned pf
  unfold Memory.frame PG_SIZE at *
  rw [u32_eq (by omega)]
  omega

/-- The pools do not overlap. -/
theorem frame_inj (h : PoolsPlaced m) {pf pf' : PoolFlags} {k k' : Nat}
    (hk : k < (m.pool pf).poolBitmap.size) (hk' : k' < (m.pool pf').poolBitmap.size)
    (he : m.frame pf k = m.frame pf' k') : pf = pf' ∧ k = k' := by
  have hkend := h.kend
  have hks := h.kstart
  unfold USED_MEM PG_SIZE at *
  unfold Memory.frame PG_SIZE at he
  cases pf with
  | PF_KERNEL =>
    cases pf' with
    | PF_KERNEL => exact ⟨rfl, by omega⟩
    | PF_USER =>
      unfold Memory.pool at hk he
      dsimp only at hk he
      omega
  | PF_USER =>
    cases pf' with
    | PF_KERNEL =>
      unfold Memory.pool at hk' he
      dsimp only at hk' he
      omega
    | PF_USER => exact ⟨rfl, by omega⟩

end PoolsPlaced

/-- Where the pools lie, and which of their frames are taken, is as it was. -/
structure SamePools (m m' : Memory) : Prop where
  vstart : m'.kernelVaddr.vaddrStart = m.kernelVaddr.vaddrStart
  vsize : m'.kernelVaddr.vaddrBitmap.size = m.kernelVaddr.vaddrBitmap.size
  start : ∀ pf, (m'.pool pf).phyAddrStart = (m.pool pf).phyAddrStart
  bitmap : ∀ pf, (m'.pool pf).poolBitmap = (m.pool pf).poolBitmap

theorem SamePools.trans {m m' m'' : Memory} (h : SamePools m m') (h' : SamePools m' m'') :
    SamePools m m'' :=
  ⟨h'.vstart.trans h.vstart, h'.vsize.trans h.vsize, fun pf => (h'.start pf).trans (h.start pf),
    fun pf => (h'.bitmap pf).trans (h.bitmap pf)⟩

namespace Accounts

variable {m m' : Memory} {F : Ledger}

theorem sound (h : Accounts m F) : Sound F := by
  refine ⟨h.distinct, h.inRange, fun u f hu => ?_⟩
  obtain ⟨k, hk, rfl⟩ := h.frames u f hu
  exact (h.toPoolsPlaced.frame_bounds _ hk).1

theorem congr (h : Accounts m F) (hs : SamePools m m') : Accounts m' F := by
  have hk : m'.kernelPool.poolBitmap = m.kernelPool.poolBitmap := hs.bitmap .PF_KERNEL
  have hu : m'.userPool.poolBitmap = m.userPool.poolBitmap := hs.bitmap .PF_USER
  have hks : m'.kernelPool.phyAddrStart = m.kernelPool.phyAddrStart := hs.start .PF_KERNEL
  have hus : m'.userPool.phyAddrStart = m.userPool.phyAddrStart := hs.start .PF_USER
  have hframe : ∀ pf k, m'.frame pf k = m.frame pf k := fun pf k => by
    unfold Memory.frame
    rw [hs.start]
  refine ⟨⟨hs.vstart ▸ h.vstart, hs.vsize ▸ h.vsize, hks ▸ h.kstart, ?_, hus ▸ h.ualigned, ?_⟩,
    h.distinct, h.inRange, fun u f hu => ?_, fun pf k hk => ?_⟩
  · rw [hk, hus]
    exact h.kend
  · rw [hu, hus]
    exact h.uend
  · obtain ⟨l, hl, he⟩ := h.frames u f hu
    exact ⟨l, (hs.bitmap _).symm ▸ hl, he.trans (hframe ..).symm⟩
  · rw [hs.bitmap] at hk ⊢
    rw [hframe]
    exact h.marked pf k hk

/-- The bit of a frame is set for a use, or cleared when the use is over. -/
theorem setBit (h : Accounts m F) {pf : PoolFlags} {k : Nat} {v : Bool} {F' : Ledger}
    (hd : Distinct F') (hr : ∀ u f, F' u = some f → u.InRange)
    (hf : ∀ u f, F' u = some f → ∃ l < (m.pool u.pool).poolBitmap.size, f = m.frame u.pool l)
    (hk : k < (m.pool pf).poolBitmap.size)
    (ht : ∀ f, Taken F' f ↔ if f = m.frame pf k then v = true else Taken F f) :
    Accounts (m.setPool { m.pool pf with
      poolBitmap := bitmapSet (m.pool pf).poolBitmap k v } pf) F' := by
  let m' := m.setPool { m.pool pf with poolBitmap := bitmapSet (m.pool pf).poolBitmap k v } pf
  have hstart : ∀ qf, (m'.pool qf).phyAddrStart = (m.pool qf).phyAddrStart := by
    intro qf
    cases pf <;> cases qf <;> rfl
  have hsize : ∀ qf, (m'.pool qf).poolBitmap.size = (m.pool qf).poolBitmap.size := by
    intro qf
    cases pf <;> cases qf <;> rfl
  have hframe : ∀ qf l, m'.frame qf l = m.frame qf l := fun qf l => by
    unfold Memory.frame
    rw [hstart]
  have hbit : ∀ qf l, (m'.pool qf).poolBitmap.bit l =
      if qf = pf ∧ l = k then v else (m.pool qf).poolBitmap.bit l := by
    intro qf l
    by_cases hq : qf = pf
    · subst hq
      simp only [true_and]
      cases qf <;> exact bitmapSet_bit ..
    · rw [if_neg fun hn => hq hn.1]
      cases pf <;> cases qf <;> first | rfl | exact absurd rfl hq
  have hks : m'.kernelPool.poolBitmap.size = m.kernelPool.poolBitmap.size := hsize .PF_KERNEL
  have hus : m'.userPool.poolBitmap.size = m.userPool.poolBitmap.size := hsize .PF_USER
  have hkst : m'.kernelPool.phyAddrStart = m.kernelPool.phyAddrStart := hstart .PF_KERNEL
  have hust : m'.userPool.phyAddrStart = m.userPool.phyAddrStart := hstart .PF_USER
  have hv : m'.kernelVaddr = m.kernelVaddr := by cases pf <;> rfl
  refine ⟨⟨hv ▸ h.vstart, hv ▸ h.vsize, hkst ▸ h.kstart, ?_, hust ▸ h.ualigned, ?_⟩, hd, hr,
    fun u f hu => ?_, fun qf l hl => ?_⟩
  · rw [hks, hust]
    exact h.kend
  · rw [hus, hust]
    exact h.uend
  · obtain ⟨l, hl, he⟩ := hf u f hu
    exact ⟨l, (hsize _).symm ▸ hl, he.trans (hframe ..).symm⟩
  · rw [hsize] at hl
    rw [hbit, hframe, ht]
    by_cases he : qf = pf ∧ l = k
    · obtain ⟨rfl, rfl⟩ := he
      rw [if_pos ⟨rfl, rfl⟩, if_pos rfl]
    · have hne : m.frame qf l ≠ m.frame pf k := fun hn =>
        he (h.toPoolsPlaced.frame_inj hl hk hn)
      rw [if_neg he, if_neg hne]
      exact h.marked qf l hl

/-- What `palloc` returns has no use, and can be given one. -/
theorem palloc (h : Accounts m F) (pf : PoolFlags) {r : Option Nat} {p : Pool}
    (hp : palloc (m.pool pf) = .ok (r, p)) :
    ∃ f, r = some (f * 4096) ∧ 0x200 ≤ f ∧ f < 2 ^ 20 ∧ ¬ Taken F f ∧
      ∀ u, u.pool = pf → u.InRange → F u = none →
        Accounts (m.setPool p pf) (Function.update F u (some f)) := by
  obtain ⟨k, hk, hbit, rfl, rfl⟩ := palloc_ok hp
  have hb := h.toPoolsPlaced.frame_bounds pf hk
  have hnot : ¬ Taken F (m.frame pf k) := fun ht => by
    rw [(h.marked pf k hk).mpr ht] at hbit
    cases hbit
  refine ⟨m.frame pf k, congrArg some (h.toPoolsPlaced.u32_frame pf hk), hb.1, hb.2, hnot,
    fun u hu hr hn => ?_⟩
  refine h.setBit (h.distinct.assign hnot) (fun u' f hf => ?_) (fun u' f hf => ?_) hk fun f => ?_
  · by_cases he : u' = u
    · exact he ▸ hr
    · rw [Function.update_of_ne he] at hf
      exact h.inRange u' f hf
  · by_cases he : u' = u
    · subst he
      rw [Function.update_self] at hf
      cases hf
      exact ⟨k, hu.symm ▸ hk, by rw [hu]⟩
    · rw [Function.update_of_ne he] at hf
      exact h.frames u' f hf
  · rw [taken_assign hn]
    by_cases he : f = m.frame pf k
    · simp [he]
    · simp [he]

/-- A frame goes back to the pool its address says. -/
theorem pfree (h : Accounts m F) {u : Use} {f : Nat} (hu : F u = some f) :
    Accounts (pfree m (f * 4096)) (Function.update F u none) := by
  obtain ⟨k, hk, hf⟩ := h.frames u f hu
  have hb := h.toPoolsPlaced.frame_bounds _ hk
  have hkend := h.kend
  have hal := h.toPoolsPlaced.aligned u.pool
  have hks := h.kstart
  have hpf : (if m.userPool.phyAddrStart ≤ f * 4096 then PoolFlags.PF_USER else .PF_KERNEL) =
      u.pool := by
    unfold Memory.frame at hf
    unfold USED_MEM PG_SIZE at *
    cases hp : u.pool with
    | PF_USER =>
      rw [hp] at hf hal
      unfold Memory.pool at hf hal
      dsimp only at hf hal
      exact if_pos (by omega)
    | PF_KERNEL =>
      rw [hp] at hf hal hk
      unfold Memory.pool at hf hal hk
      dsimp only at hf hal hk
      exact if_neg (by omega)
  have hidx : sub32 (f * 4096) (m.pool u.pool).phyAddrStart / PG_SIZE = k := by
    unfold Memory.frame PG_SIZE at *
    rw [sub32_eq (by omega) (by omega)]
    omega
  have heq : ZhuOS.pfree m (f * 4096) = m.setPool { m.pool u.pool with
      poolBitmap := bitmapSet (m.pool u.pool).poolBitmap k false } u.pool := by
    simp only [ZhuOS.pfree, hpf, hidx]
  rw [heq]
  refine h.setBit h.distinct.release (fun u' g hg => ?_) (fun u' g hg => ?_) hk fun g => ?_
  · have he : u' ≠ u := by rintro rfl; simp at hg
    rw [Function.update_of_ne he] at hg
    exact h.inRange u' g hg
  · have he : u' ≠ u := by rintro rfl; simp at hg
    rw [Function.update_of_ne he] at hg
    exact h.frames u' g hg
  · rw [taken_release h.distinct hu, hf]
    by_cases he : g = m.frame u.pool k
    · simp [he]
    · simp [he]

end Accounts

end ZhuOS
