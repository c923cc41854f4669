import ZhuOS.Memory

/-!
# Virtual ranges: index to address and back

`vaddrGet` turns the index of a free run into an address and `vaddrRemove`
turns the address back into an index. The two are inverse on the kernel path.
On the user path the address is the index *plus* the page size, so no address
it returns is the one the index stands for.
-/

namespace ZhuOS

open PackedBits

/-- Allocating `n` pages takes a free run, returns the address of its first page
and releasing that address frees those pages and no others. -/
def RangeRoundTrip (m : Memory) (pf : PoolFlags) (n : Nat) : Prop :=
  let before := (m.vaddrPool pf).vaddrBitmap
  ∃ s a m', vaddrGet m pf n = .ok (some a, m') ∧
    (∀ j, s ≤ j → j < s + n → before.bit j = false) ∧
    (∀ j, (m'.vaddrPool pf).vaddrBitmap.bit j = (before.bit j || decide (s ≤ j ∧ j < s + n))) ∧
    a = u32 ((m.vaddrPool pf).vaddrStart + PG_SIZE * s) ∧
    ∀ j, ((vaddrRemove m' pf a n).vaddrPool pf).vaddrBitmap.bit j = before.bit j

@[simp] theorem setVaddrBitmap_vaddrPool (m : Memory) (b : Bitmap) (pf : PoolFlags) :
    (m.setVaddrBitmap b pf).vaddrPool pf = { m.vaddrPool pf with vaddrBitmap := b } := by
  cases pf <;> rfl

theorem setRun_bit (m : Memory) (pf : PoolFlags) (v : Bool) (n i j : Nat) (b : Bitmap) :
    ((m.setVaddrBitmap (bitmapSetRun v n i b) pf).vaddrPool pf).vaddrBitmap.bit j =
      if i ≤ j ∧ j < i + n then v else b.bit j := by
  rw [setVaddrBitmap_vaddrPool, bitmapSetRun_bit]

/-- Releasing a range by the address of its first page clears its bits. -/
theorem vaddrRemove_bit (m : Memory) (pf : PoolFlags) {s n : Nat}
    (hend : (m.vaddrPool pf).vaddrStart + PG_SIZE * s < 2 ^ 32) (j : Nat) :
    ((vaddrRemove m pf ((m.vaddrPool pf).vaddrStart + PG_SIZE * s) n).vaddrPool
        pf).vaddrBitmap.bit j =
      if s ≤ j ∧ j < s + n then false else (m.vaddrPool pf).vaddrBitmap.bit j := by
  have hidx : sub32 ((m.vaddrPool pf).vaddrStart + PG_SIZE * s) (m.vaddrPool pf).vaddrStart /
      PG_SIZE = s := by
    rw [sub32_eq (Nat.le_add_right _ _) hend, Nat.add_sub_cancel_left]
    exact Nat.mul_div_cancel_left s (by decide)
  simp only [vaddrRemove, hidx, setVaddrBitmap_vaddrPool, bitmapSetRun_bit]

/-- The kernel path is its own inverse wherever the range has 32-bit addresses. -/
theorem kernel_round_trip {m : Memory} {n s : Nat} (hn : 1 ≤ n)
    (hs : LeastRun m.kernelVaddr.vaddrBitmap.bits m.kernelVaddr.vaddrBitmap.size s n)
    (hend : m.kernelVaddr.vaddrStart + PG_SIZE * s < 2 ^ 32) :
    RangeRoundTrip m .PF_KERNEL n := by
  have ha : u32 (m.kernelVaddr.vaddrStart + s * PG_SIZE) =
      m.kernelVaddr.vaddrStart + PG_SIZE * s := by
    rw [Nat.mul_comm]; exact u32_eq hend
  refine ⟨s, _, _, vaddrGet_kernel hn hs, hs.run.clear, ?_, ?_, ?_⟩
  · intro j
    rw [setRun_bit]
    split <;> simp_all [Memory.vaddrPool]
  · rw [Nat.mul_comm]; rfl
  · intro j
    rw [ha]
    have := vaddrRemove_bit (m.setVaddrBitmap
      (bitmapSetRun true n s m.kernelVaddr.vaddrBitmap) .PF_KERNEL) .PF_KERNEL (n := n) hend j
    apply this.trans
    rw [setRun_bit]
    split
    · rename_i hin
      exact (hs.run.clear j hin.1 hin.2).symm
    · rfl

/-- Two bitmaps that differ from one by a run of the same length differ by the
same run, so the index in `RangeRoundTrip` is the index of the first bit set. -/
theorem run_unique {b : Bitmap} {s t n : Nat} (hn : 1 ≤ n)
    (hs : ∀ j, s ≤ j → j < s + n → b.bit j = false) (ht : ∀ j, t ≤ j → j < t + n → b.bit j = false)
    (h : ∀ j, (b.bit j || decide (s ≤ j ∧ j < s + n)) = (b.bit j || decide (t ≤ j ∧ j < t + n))) :
    s = t := by
  have h1 := h s
  have h2 := h t
  simp only [hs s (Nat.le_refl _) (by omega), ht t (Nat.le_refl _) (by omega), Bool.false_or,
    decide_eq_decide] at h1 h2
  omega

/-- A round trip on the user path would need the address of the first run both
ways. -/
theorem user_round_trip_address {m : Memory} {n s : Nat} (hn : 1 ≤ n)
    (hs : LeastRun m.running.userprogVaddr.vaddrBitmap.bits
      m.running.userprogVaddr.vaddrBitmap.size s n)
    (h : RangeRoundTrip m .PF_USER n) :
    u32 (m.running.userprogVaddr.vaddrStart + s + PG_SIZE) =
      u32 (m.running.userprogVaddr.vaddrStart + PG_SIZE * s) := by
  obtain ⟨t, a, m', hget, hclear, hset, haddr, -⟩ := h
  have hr := vaddrGet_user hn hs hget
  simp only [Prod.mk.injEq, Option.some.injEq] at hr
  obtain ⟨ha, rfl⟩ := hr
  have hts : t = s := by
    apply run_unique hn hclear hs.run.clear
    intro j
    rw [← hset j, setRun_bit]
    split <;> simp_all [Memory.vaddrPool]
  rw [← ha, haddr, hts]
  rfl

/-- No page count is allocated right on the user path: `start + index + 4096`
is `start + 4096 * index` for no index below `2 ^ 31`. -/
theorem user_round_trip_never {m : Memory} {n s : Nat} (hn : 1 ≤ n)
    (hs : ClearRun m.running.userprogVaddr.vaddrBitmap.bits
      m.running.userprogVaddr.vaddrBitmap.size s n)
    (hsize : m.running.userprogVaddr.vaddrBitmap.size < 2 ^ 31) :
    ¬ RangeRoundTrip m .PF_USER n := by
  intro h
  obtain ⟨i, hi⟩ := exists_leastRun hs
  have heq := user_round_trip_address hn hi h
  have hin := hi.run.inside
  simp only [u32, PG_SIZE] at heq
  omega

/-- A user process as `create_user_vaddr_bitmap` leaves it. -/
def freshProcess : Memory :=
  let empty : Pool := ⟨⟨0, fun _ => 0⟩, 0, 0, 0⟩
  { mmu := ⟨fun _ _ => 0, 0⟩
    kernelPool := empty
    userPool := empty
    kernelVaddr := ⟨⟨0, fun _ => 0⟩, K_HEAP_START⟩
    running :=
      ⟨some 0xc0200000, ⟨⟨(0xc0000000 - 0x8048000) / PG_SIZE / 8, fun _ => 0⟩, 0x8048000⟩⟩ }

theorem freshProcess_run (n : Nat) (h : n ≤ 753592) :
    ClearRun freshProcess.running.userprogVaddr.vaddrBitmap.bits
      freshProcess.running.userprogVaddr.vaddrBitmap.size 0 n := by
  refine ⟨?_, fun j _ _ => ?_⟩
  · simpa [freshProcess, Bitmap.size, PG_SIZE] using h
  · simp [bit, freshProcess]

theorem user_round_trip_never_fresh : ¬ RangeRoundTrip freshProcess .PF_USER 3 :=
  user_round_trip_never (by decide) (freshProcess_run 3 (by decide)) (by decide)

/-- The first page a fresh process asks for is page 0 of its range, and is
placed at `start + 4096`. -/
theorem user_first_page_misplaced :
    (vaddrGet freshProcess .PF_USER 1).map (·.1) = .ok (some (0x8048000 + 4096)) ∧
    freshProcess.running.userprogVaddr.vaddrStart + PG_SIZE * 0 = 0x8048000 ∧
    ¬ RangeRoundTrip freshProcess .PF_USER 1 := by
  have hrun := freshProcess_run 1 (by decide)
  have hs : LeastRun _ _ 0 1 := ⟨hrun, fun _ _ => Nat.zero_le _⟩
  refine ⟨?_, rfl, fun h => ?_⟩
  · have hscan : bitmapScan (freshProcess.vaddrPool .PF_USER).vaddrBitmap 1 = .ok (some 0) :=
      bitmapScan_least (Nat.le_refl _) hs
    have hbelow : u32 ((freshProcess.vaddrPool .PF_USER).vaddrStart + 0 + PG_SIZE) <
        0xc0000000 - PG_SIZE := by decide
    simp only [vaddrGet, hscan, ok_bind, ASSERT_true hbelow]
    exact congrArg (fun a => Except.ok (some a)) (by decide)
  · have := user_round_trip_address (Nat.le_refl _) hs h
    revert this
    decide

end ZhuOS
