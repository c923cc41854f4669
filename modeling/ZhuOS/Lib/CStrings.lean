import ZhuOS.Lib.Bytes

/-!
# C strings in a memory

A string is the bytes up to the first zero. A field of a record may have no room for the
zero: then the string goes on into what follows.
-/

namespace ByteMem

/-- The string at `off` is `m`. -/
structure CStringAt (b : Bytes) (off : Nat) (m : List UInt8) : Prop where
  bytes : ∀ i (h : i < m.length), b (off + i) = m[i]
  nonzero : ∀ c ∈ m, c ≠ 0
  nul : b (off + m.length) = 0

variable {b : Bytes} {off n : Nat} {c : UInt8} {m m' : List UInt8}

theorem cStringAt_nil : CStringAt b off [] ↔ b off = 0 :=
  ⟨fun h => h.nul, fun h => ⟨by simp, by simp, h⟩⟩

theorem cStringAt_cons :
    CStringAt b off (c :: m) ↔ c ≠ 0 ∧ b off = c ∧ CStringAt b (off + 1) m := by
  have hsum : ∀ i, off + 1 + i = off + (i + 1) := by omega
  constructor
  · intro h
    refine ⟨h.nonzero c (by simp), h.bytes 0 (by simp), ?_, ?_, ?_⟩
    · intro i hi
      rw [hsum]
      exact h.bytes (i + 1) (by simpa using hi)
    · intro x hx
      exact h.nonzero x (by simp [hx])
    · rw [hsum]
      exact h.nul
  · rintro ⟨hc, hb, h⟩
    refine ⟨?_, ?_, ?_⟩
    · intro i hi
      cases i with
      | zero => exact hb
      | succ i =>
        rw [← hsum]
        exact h.bytes i (by simpa using hi)
    · simpa [hc] using h.nonzero
    · have hnul := h.nul
      rwa [hsum] at hnul

/-- Behind bytes that are not zero the string goes on. -/
theorem cStringAt_append {text : List UInt8} (hbytes : ∀ i (h : i < text.length),
    b (off + i) = text[i]) (hnonzero : ∀ c ∈ text, c ≠ 0) :
    CStringAt b off m ↔ ∃ t, m = text ++ t ∧ CStringAt b (off + text.length) t := by
  induction text generalizing off m with
  | nil => simp
  | cons c text ih =>
    have hfirst : b off = c := hbytes 0 (by simp)
    have hc : c ≠ 0 := hnonzero c (by simp)
    have hrest : ∀ i (h : i < text.length), b (off + 1 + i) = text[i] := by
      intro i hi
      rw [Nat.add_assoc, Nat.add_comm 1 i]
      exact hbytes (i + 1) (by simpa using hi)
    have hsum : off + (c :: text).length = off + 1 + text.length := by
      rw [List.length_cons]
      omega
    have ih := fun m => @ih (off + 1) m hrest fun x hx => hnonzero x (by simp [hx])
    rw [hsum]
    constructor
    · intro h
      cases m with
      | nil => exact absurd (hfirst.symm.trans (cStringAt_nil.mp h)) hc
      | cons c' m =>
        obtain ⟨-, hc', h⟩ := cStringAt_cons.mp h
        obtain ⟨t, rfl, ht⟩ := (ih m).mp h
        exact ⟨t, by rw [← hfirst, hc', List.cons_append], ht⟩
    · rintro ⟨t, rfl, ht⟩
      exact cStringAt_cons.mpr ⟨hc, hfirst, (ih _).mpr ⟨t, rfl, ht⟩⟩

/-- A part of the string that goes up to its end is a string. -/
theorem CStringAt.behind {text : List UInt8} (h : CStringAt b off (text ++ m)) :
    CStringAt b (off + text.length) m := by
  induction text generalizing off with
  | nil => exact h
  | cons c text ih =>
    rw [List.cons_append] at h
    obtain ⟨-, -, h⟩ := cStringAt_cons.mp h
    rw [List.length_cons, Nat.add_comm text.length 1, ← Nat.add_assoc]
    exact ih h

/-- The string depends on the bytes from its address on. -/
theorem CStringAt.congr {b' : Bytes} (h : CStringAt b off m) (hsame : ∀ a, off ≤ a → b' a = b a) :
    CStringAt b' off m :=
  ⟨fun i hi => (hsame _ (Nat.le_add_right ..)).trans (h.bytes i hi), h.nonzero,
    (hsame _ (Nat.le_add_right ..)).trans h.nul⟩

/-- A zero byte in it ends the text. -/
theorem cStringAt_takeWhile {text : List UInt8} (hbytes : ∀ i (h : i < text.length),
    b (off + i) = text[i]) (hzero : 0 ∈ text) : CStringAt b off (text.takeWhile (· ≠ 0)) := by
  induction text generalizing off with
  | nil => cases hzero
  | cons c text ih =>
    have hfirst : b off = c := hbytes 0 (by simp)
    by_cases hc : c = 0
    · rw [List.takeWhile_cons_of_neg (by simpa using hc)]
      exact cStringAt_nil.mpr (hfirst.trans hc)
    · rw [List.takeWhile_cons_of_pos (by simpa using hc)]
      refine cStringAt_cons.mpr ⟨hc, hfirst, ih (fun i hi => ?_) ?_⟩
      · rw [Nat.add_assoc, Nat.add_comm 1 i]
        exact hbytes (i + 1) (by simpa using hi)
      · exact (List.mem_cons.mp hzero).resolve_left (Ne.symm hc)

/-- There is one string at an address. -/
theorem CStringAt.unique (h : CStringAt b off m) (h' : CStringAt b off m') : m = m' := by
  induction m generalizing off m' with
  | nil =>
    cases m' with
    | nil => rfl
    | cons c m' =>
      obtain ⟨hc, hb, -⟩ := cStringAt_cons.mp h'
      exact absurd (hb.symm.trans (cStringAt_nil.mp h)) hc
  | cons c m ih =>
    obtain ⟨hc, hb, h⟩ := cStringAt_cons.mp h
    cases m' with
    | nil => exact absurd (hb.symm.trans (cStringAt_nil.mp h')) hc
    | cons c' m' =>
      obtain ⟨-, hb', h'⟩ := cStringAt_cons.mp h'
      rw [← hb, hb', ih h h']

/-- The string as far as it lies in a field of `n` bytes. -/
def field (b : Bytes) (off n : Nat) : List UInt8 :=
  ((List.range' off n).map b).takeWhile (· ≠ 0)

theorem field_succ :
    field b off (n + 1) = if b off = 0 then [] else b off :: field b (off + 1) n := by
  rw [field, List.range'_succ, List.map_cons, List.takeWhile_cons]
  by_cases hz : b off = 0 <;> simp [hz, field]

/-- A larger field shows no more where a zero stands behind the smaller one. -/
theorem field_stop (n k : Nat) (hz : b (off + n) = 0) :
    field b off (n + (k + 1)) = field b off n := by
  induction n generalizing off with
  | zero =>
    rw [Nat.add_zero] at hz
    rw [Nat.zero_add, field_succ, if_pos hz]
    rfl
  | succ n ih =>
    have hz' : b (off + 1 + n) = 0 := by
      rw [show off + 1 + n = off + (n + 1) by omega]
      exact hz
    rw [show n + 1 + (k + 1) = n + (k + 1) + 1 by omega, field_succ, field_succ, ih hz']

theorem field_congr {b' : Bytes} (h : ∀ i < n, b' (off + i) = b (off + i)) :
    field b' off n = field b off n := by
  unfold field
  congr 1
  apply List.map_congr_left
  intro a ha
  obtain ⟨hlo, hhi⟩ := List.mem_range'_1.mp ha
  have hsame := h (a - off) (by omega)
  rwa [Nat.add_sub_cancel' hlo] at hsame

theorem field_length_le : (field b off n).length ≤ n := by
  have hle := (List.takeWhile_sublist (p := (· ≠ 0)) (l := (List.range' off n).map b)).length_le
  rwa [List.length_map, List.length_range'] at hle

/-- A text that fills the field, or has a zero behind it, is what the field shows. -/
theorem field_text {text : List UInt8} (hbytes : ∀ i (h : i < text.length),
    b (off + i) = text[i]) (hnonzero : ∀ c ∈ text, c ≠ 0) (hlen : text.length ≤ n)
    (hend : text.length < n → b (off + text.length) = 0) : field b off n = text := by
  induction text generalizing off n with
  | nil =>
    cases n with
    | zero => rfl
    | succ n =>
      have hzero : b off = 0 := hend (Nat.succ_pos n)
      rw [field_succ, if_pos hzero]
  | cons c text ih =>
    rw [List.length_cons] at hlen
    obtain ⟨n, rfl⟩ := Nat.exists_eq_add_one_of_ne_zero (n := n) (by omega)
    have hfirst : b off = c := hbytes 0 (by simp)
    have hc : c ≠ 0 := hnonzero c (by simp)
    have hsum : ∀ i, off + 1 + i = off + (i + 1) := by omega
    rw [field_succ, hfirst, if_neg hc, ih (fun i hi => ?_) (fun x hx => hnonzero x (by simp [hx]))
      (by omega) fun hlt => ?_]
    · rw [hsum]
      exact hbytes (i + 1) (by simpa using hi)
    · rw [hsum]
      exact hend (by simpa using hlt)

/-- The field is full where no byte of it is zero. -/
theorem field_full : (field b off n).length = n ↔ ∀ i < n, b (off + i) ≠ 0 := by
  induction n generalizing off with
  | zero => simp [field]
  | succ n ih =>
    rw [field_succ]
    by_cases hz : b off = 0
    · rw [if_pos hz]
      exact iff_of_false nofun fun h => h 0 (Nat.succ_pos n) hz
    · rw [if_neg hz, List.length_cons, Nat.add_right_cancel_iff, ih]
      have hsum : ∀ i, off + 1 + i = off + (i + 1) := by omega
      simp only [hsum]
      refine ⟨fun h i hi => ?_, fun h i hi => h (i + 1) (by omega)⟩
      cases i with
      | zero => exact hz
      | succ i => exact h i (by omega)

/-- The field shows the string, but for the zero after a full one. -/
theorem cStringAt_iff_field (h : m.length ≤ n) :
    CStringAt b off m ↔ field b off n = m ∧ (m.length = n → b (off + n) = 0) := by
  induction m generalizing off n with
  | nil =>
    rw [cStringAt_nil]
    cases n with
    | zero => simp [field]
    | succ n => simp [field_succ]
  | cons c m ih =>
    cases n with
    | zero => simp at h
    | succ n =>
      have hsum : off + 1 + n = off + (n + 1) := by omega
      rw [cStringAt_cons, ih (by simpa using h), field_succ, hsum]
      by_cases hz : b off = 0
      · constructor
        · rintro ⟨hc, hb, -⟩
          exact absurd (hb.symm.trans hz) hc
        · rintro ⟨hfield, -⟩
          rw [if_pos hz] at hfield
          cases hfield
      · rw [if_neg hz, List.cons.injEq, List.length_cons, Nat.add_right_cancel_iff, and_assoc]
        constructor
        · rintro ⟨-, hrest⟩
          exact hrest
        · rintro ⟨hb, hrest⟩
          exact ⟨hb ▸ hz, hb, hrest⟩

end ByteMem
