import ZhuOS.Lib.Bytes
import ZhuOS.Machine

/-!
# `boot/loader.S`: copying the kernel to its place

`kernel_init` runs with paging on, over the image that was read to `KERNEL_BIN_BASE_ADDR`. The
memory is physical. The stack below the loader is kept apart: nothing is copied below
`KERNEL_ENTER_ADDR`, and `mem_cpy` saves `ecx` there.
-/

namespace ZhuOS

open ByteMem

namespace Loader

def KERNEL_BIN_BASE_ADDR : UInt32 := 0x70000
def KERNEL_ENTER_ADDR : UInt32 := 0xc0001500
def PT_NULL : UInt8 := 0

/-- What `setup_page` maps: the low megabyte, at 0 and at 3 GB. The other entries lead to tables
that nobody has filled, or to the tables themselves; an access there is taken as a fault. -/
def phys (a : Nat) : Option Nat :=
  if a < 0x100000 then some a
  else if 0xc0000000 ≤ a ∧ a < 0xc0100000 then some (a - 0xc0000000)
  else none

def load (m : Bytes) (a : UInt32) : Except Fault UInt8 :=
  match phys a.toNat with
  | some p => .ok (m p)
  | none => .error .badAddress

def store (m : Bytes) (a : UInt32) (v : UInt8) : Except Fault Bytes :=
  match phys a.toNat with
  | some p => .ok (Function.update m p v)
  | none => .error .badAddress

def load16 (m : Bytes) (a : UInt32) : Except Fault UInt32 := do
  let b0 ← load m a
  let b1 ← load m (a + 1)
  return .ofNat (b0.toNat + 256 * b1.toNat)

def load32 (m : Bytes) (a : UInt32) : Except Fault UInt32 := do
  let b0 ← load m a
  let b1 ← load m (a + 1)
  let b2 ← load m (a + 2)
  let b3 ← load m (a + 3)
  return .ofNat (b0.toNat + 256 * b1.toNat + 256 ^ 2 * b2.toNat + 256 ^ 3 * b3.toNat)

/-- `rep movsb` -/
def repMovsb : (ecx : Nat) → (esi edi : UInt32) → Bytes → Except Fault Bytes
  | 0, _, _, m => return m
  | ecx + 1, esi, edi, m => do
    let v ← load m esi
    let m ← store m edi v
    repMovsb ecx (esi + 1) (edi + 1) m

/-- `mem_cpy` -/
def memCpy (dst src size : UInt32) (m : Bytes) : Except Fault Bytes :=
  repMovsb size.toNat src dst m

/-- `.each_segment` up to `.PTNULL`; of `p_type` the lowest byte is compared. -/
def segment (ebx : UInt32) (m : Bytes) : Except Fault Bytes := do
  let type ← load m (ebx + 0)
  if type = PT_NULL then return m
  else
    let eax ← load32 m (ebx + 8)
    if eax < KERNEL_ENTER_ADDR then return m
    else
      let size ← load32 m (ebx + 16)
      let eax ← load32 m (ebx + 4)
      let src := eax + KERNEL_BIN_BASE_ADDR
      let dst ← load32 m (ebx + 8)
      memCpy dst src size m

theorem loop_lt {ecx : UInt32} (h : ecx - 1 ≠ 0) : (ecx - 1 - 1).toNat < (ecx - 1).toNat := by
  have hpos : (ecx - 1).toNat ≠ 0 := fun hz => h (UInt32.toNat_inj.mp hz)
  have hone : (1 : UInt32).toNat = 1 := rfl
  rw [UInt32.toNat_sub_of_le _ _ (UInt32.le_iff_toNat_le.mpr (by omega))]
  omega

/-- `.each_segment`, with the headers it visits. `loop` counts down before it looks. -/
def eachSegment (edx ecx ebx : UInt32) (m : Bytes) : Except Fault (Bytes × List UInt32) := do
  let m ← segment ebx m
  if _h : ecx - 1 ≠ 0 then
    let (m, visited) ← eachSegment edx (ecx - 1) (ebx + edx) m
    return (m, ebx :: visited)
  else return (m, [ebx])
termination_by (ecx - 1).toNat
decreasing_by exact loop_lt _h

/-- `kernel_init`: the memory it leaves, and the headers it has visited. -/
def kernelInit (m : Bytes) : Except Fault (Bytes × List UInt32) := do
  let edx ← load16 m (KERNEL_BIN_BASE_ADDR + 42)
  let ebx ← load32 m (KERNEL_BIN_BASE_ADDR + 28)
  let ebx := ebx + KERNEL_BIN_BASE_ADDR
  let ecx ← load16 m (KERNEL_BIN_BASE_ADDR + 44)
  eachSegment edx ecx ebx m

/-! ## Accesses to the low megabyte -/

variable {m m' : Bytes} {p src dst n : Nat} {a esi edi : UInt32}

theorem phys_low (h : p < 0x100000) : phys p = some p := if_pos h

/-- The low megabyte once more, from 3 GB on. -/
theorem phys_high (h : p < 0x100000) : phys (0xc0000000 + p) = some p := by
  rw [phys, if_neg (by omega), if_pos (by omega), Nat.add_sub_cancel_left]

theorem phys_back {a : Nat} (hle : 0xc0000000 ≤ a) (h : phys a = some p) :
    a = 0xc0000000 + p := by
  rw [phys, if_neg (by omega)] at h
  by_cases hlt : a < 0xc0100000
  · rw [if_pos ⟨hle, hlt⟩] at h
    have hval := Option.some.inj h
    omega
  · rw [if_neg fun hboth => hlt hboth.2] at h
    cases h

theorem toNat_low (h : p < 0x100000) : (UInt32.ofNat p).toNat = p :=
  UInt32.toNat_ofNat_of_lt' (by change p < 2 ^ 32; omega)

theorem load_low (h : p < 0x100000) : load m (.ofNat p) = .ok (m p) := by
  rw [load, toNat_low h, phys_low h]

/-- The two bytes at `p`. -/
def half (m : Bytes) (p : Nat) : Nat := (m p).toNat + 256 * (m (p + 1)).toNat

theorem load16_low (h : p + 2 ≤ 0x100000) : load16 m (.ofNat p) = .ok (.ofNat (half m p)) := by
  have hnext : UInt32.ofNat p + 1 = .ofNat (p + 1) := (UInt32.ofNat_add p 1).symm
  simp only [load16, hnext, load_low (by omega : p < 0x100000),
    load_low (by omega : p + 1 < 0x100000), ok_bind]
  rfl

theorem load32_low (h : p + 4 ≤ 0x100000) : load32 m (.ofNat p) = .ok (getWord m p) := by
  have hnext : ∀ k, UInt32.ofNat p + UInt32.ofNat k = .ofNat (p + k) :=
    fun k => (UInt32.ofNat_add p k).symm
  have h1 : UInt32.ofNat p + 1 = .ofNat (p + 1) := hnext 1
  have h2 : UInt32.ofNat p + 2 = .ofNat (p + 2) := hnext 2
  have h3 : UInt32.ofNat p + 3 = .ofNat (p + 3) := hnext 3
  simp only [load32, h1, h2, h3, load_low (by omega : p < 0x100000),
    load_low (by omega : p + 1 < 0x100000), load_low (by omega : p + 2 < 0x100000),
    load_low (by omega : p + 3 < 0x100000), ok_bind]
  rfl

/-- A copy within the low megabyte. Where it overwrites what it reads, the byte must be the one that
is there. -/
theorem repMovsb_blit (n : Nat) (m : Bytes) (hsrc : esi.toNat = src)
    (hdst : edi.toNat = 0xc0000000 + dst) (hlow : src + n ≤ 0x100000)
    (hroom : dst + n ≤ 0x100000)
    (hsame : ∀ k < n, src ≤ dst + k → dst + k < src + n → m (src + k) = m (dst + k)) :
    repMovsb n esi edi m = .ok (blit m dst m src n) := by
  induction n generalizing esi edi src dst m with
  | zero => rw [blit_none]; rfl
  | succ n ih =>
    have hone : (1 : UInt32).toNat = 1 := rfl
    have hload : load m esi = .ok (m src) := by rw [load, hsrc, phys_low (by omega)]
    have hstore : store m edi (m src) = .ok (Function.update m dst (m src)) := by
      rw [store, hdst, phys_high (by omega)]
    have hsrc' : (esi + 1).toNat = src + 1 := by
      rw [UInt32.toNat_add, hsrc, hone]
      omega
    have hdst' : (edi + 1).toNat = 0xc0000000 + (dst + 1) := by
      rw [UInt32.toNat_add, hdst, hone]
      omega
    have hread : ∀ x, src ≤ x → x < src + (n + 1) → Function.update m dst (m src) x = m x := by
      intro x hx hx'
      by_cases hfirst : x = dst
      · subst hfirst
        rw [Function.update_self]
        exact hsame 0 (Nat.zero_lt_succ n) hx hx'
      · exact Function.update_of_ne hfirst ..
    simp only [repMovsb, hload, hstore, ok_bind]
    rw [ih _ hsrc' hdst' (by omega) (by omega) fun k hk hin hin' => ?_]
    · congr 1
      funext x
      by_cases hx : dst + 1 ≤ x ∧ x < dst + 1 + n
      · rw [blit_in hx.1 hx.2, blit_in (by omega) (by omega), hread _ (by omega) (by omega)]
        exact congrArg m (by omega)
      · rw [blit_out (by omega)]
        by_cases hfirst : x = dst
        · subst hfirst
          rw [Function.update_self, blit_in (Nat.le_refl x) (by omega), Nat.sub_self, Nat.add_zero]
        · rw [Function.update_of_ne hfirst, blit_out (by omega)]
    · rw [hread _ (by omega) (by omega), hread _ (by omega) (by omega)]
      have hnow := hsame (k + 1) (by omega) (by omega) (by omega)
      rw [Nat.add_right_comm src, Nat.add_right_comm dst]
      exact hnow

/-- What has been copied without a fault was mapped. -/
theorem repMovsb_mapped (n : Nat) (m : Bytes) (hedi : 0xc0000000 ≤ edi.toNat)
    (hrun : repMovsb n esi edi m = .ok m') : ∀ k < n, edi.toNat + k < 0xc0100000 := by
  induction n generalizing esi edi m with
  | zero => exact fun k hk => absurd hk (Nat.not_lt_zero k)
  | succ n ih =>
    have hone : (1 : UInt32).toNat = 1 := rfl
    obtain ⟨v, -, hrun⟩ := bind_ok.mp hrun
    obtain ⟨m₁, hstore, hrun⟩ := bind_ok.mp hrun
    have hlt : edi.toNat < 0xc0100000 := by
      by_contra hge
      rw [store, phys, if_neg (by omega), if_neg (by omega)] at hstore
      cases hstore
    have hnext : (edi + 1).toNat = edi.toNat + 1 := by
      rw [UInt32.toNat_add, hone]
      omega
    intro k hk
    cases k with
    | zero => exact hlt
    | succ k =>
      have hrest := ih m₁ (by omega) hrun k (by omega)
      omega

/-! ## The loop -/

/-- `loop` goes on while the count is not down to zero. -/
theorem eachSegment_step (r : Nat) (hr : r < 2 ^ 32) (edx ebx : UInt32) (m : Bytes) :
    eachSegment edx (.ofNat (r + 1)) ebx m = segment ebx m >>= fun m =>
      if r = 0 then return (m, [ebx])
      else eachSegment edx (.ofNat r) (ebx + edx) m >>= fun out =>
        return (out.1, ebx :: out.2) := by
  have hleft : UInt32.ofNat (r + 1) - 1 = .ofNat r := by
    rw [UInt32.ofNat_add]
    exact UInt32.add_sub_cancel ..
  have hval : (UInt32.ofNat r).toNat = r := UInt32.toNat_ofNat_of_lt' hr
  rw [eachSegment]
  refine bind_congr fun m => ?_
  by_cases hzero : r = 0
  · have hout : ¬ UInt32.ofNat (r + 1) - 1 ≠ 0 := fun h => h (by rw [hleft, hzero]; rfl)
    rw [if_pos hzero, dif_neg hout]
  · have hne : UInt32.ofNat (r + 1) - 1 ≠ 0 := by
      rw [hleft]
      intro h
      exact hzero (hval ▸ congrArg UInt32.toNat h)
    rw [if_neg hzero, dif_pos hne, hleft]

/-- A header is visited before anything is counted. -/
theorem eachSegment_visits {edx ecx ebx : UInt32} {visited : List UInt32}
    (hrun : eachSegment edx ecx ebx m = .ok (m', visited)) : visited ≠ [] := by
  rw [eachSegment] at hrun
  obtain ⟨m₁, -, hrun⟩ := bind_ok.mp hrun
  by_cases hleft : ecx - 1 ≠ 0
  · rw [dif_pos hleft] at hrun
    obtain ⟨out, -, hrun⟩ := bind_ok.mp hrun
    cases hrun
    exact List.cons_ne_nil _ _
  · rw [dif_neg hleft] at hrun
    cases hrun
    exact List.cons_ne_nil _ _

end Loader

end ZhuOS
