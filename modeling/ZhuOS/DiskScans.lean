import ZhuOS.PartitionScan

/-!
# `device/ide.c`: the scans of `ide_init`

`p_no` and `l_no` are set to zero behind each disk, `ext_lba_base` is not: the second disk that has
an extended partition is scanned with the base of the first one.
-/

namespace ZhuOS

open ByteMem

namespace PartitionScan

/-- The scans of the disks, one behind the other. -/
def scanDisks (depth : Nat) : (no : Nat) → List Disk → (extLbaBase : UInt32) →
    (partitionList : List (Nat × PartPtr)) →
    Except Fault (List Disk × UInt32 × List (Nat × PartPtr))
  | _, [], extLbaBase, partitionList => return ([], extLbaBase, partitionList)
  | no, hd :: rest, extLbaBase, partitionList => do
    let s ← partitionScan depth 0 (.begin no hd extLbaBase partitionList)
    let (rest, extLbaBase, partitionList) ←
      scanDisks depth (no + 1) rest s.extLbaBase s.partitionList
    return (s.hd :: rest, extLbaBase, partitionList)

/-! ## What a disk has -/

/-- Partitions by their start and size, primary and logical ones. -/
abbrev Parts : Type := Bool → List (UInt32 × UInt32)

/-- The logical partitions of the records that the entries of the record `lba` lead to. Links
count from `base` on, the start of the extended partition. -/
inductive Records (disk : Bytes) (base : UInt32) :
    UInt32 → List PartitionTableEntry → List (UInt32 × UInt32) → Prop
  | done {lba : UInt32} : Records disk base lba [] []
  | empty {lba : UInt32} {p : PartitionTableEntry} {rest : List PartitionTableEntry}
      {ps : List (UInt32 × UInt32)} (hp : p.fsType = 0) (h : Records disk base lba rest ps) :
      Records disk base lba (p :: rest) ps
  | logic {lba : UInt32} {p : PartitionTableEntry} {rest : List PartitionTableEntry}
      {ps : List (UInt32 × UInt32)} (hp : p.IsPartition) (h : Records disk base lba rest ps) :
      Records disk base lba (p :: rest) ((lba + p.startLba, p.secCnt) :: ps)
  | link {lba : UInt32} {p : PartitionTableEntry} {rest : List PartitionTableEntry}
      {ps ps' : List (UInt32 × UInt32)} (hp : p.IsLink) (hne : p.startLba + base ≠ 0)
      (hin : (p.startLba + base).toNat ≤ max_lba)
      (h : Records disk base (p.startLba + base) (table disk (p.startLba + base)) ps)
      (h' : Records disk base lba rest ps') : Records disk base lba (p :: rest) (ps ++ ps')

instance (p : PartitionTableEntry) : Decidable p.IsLink := by
  unfold PartitionTableEntry.IsLink
  infer_instance

instance (p : PartitionTableEntry) : Decidable p.IsPartition := by
  unfold PartitionTableEntry.IsPartition
  infer_instance

/-- The entry is an extended partition with these logical ones. -/
structure Extended (disk : Bytes) (p : PartitionTableEntry) (ps : List (UInt32 × UInt32)) :
    Prop where
  start : p.startLba ≠ 0
  inside : p.startLba.toNat ≤ max_lba
  records : Records disk p.startLba p.startLba (table disk p.startLba) ps

/-- The partitions of a table: the primary ones, and those of the extended one. -/
def tableParts (entries : List PartitionTableEntry) (ps : List (UInt32 × UInt32)) : Parts
  | false => (entries.filter (·.IsPartition)).map fun p => (p.startLba, p.secCnt)
  | true => if ∃ p ∈ entries, p.IsLink then ps else []

/-- A boot sector with one extended partition at most, and at most eight logical ones in it. -/
structure Layout (disk : Bytes) (ps : List (UInt32 × UInt32)) : Prop where
  one : ((table disk 0).filter (·.IsLink)).length ≤ 1
  extended : ∀ p ∈ table disk 0, p.IsLink → Extended disk p ps
  eight : ps.length ≤ 8

/-! ## What a scan records -/

def Scan.next (s : Scan) (logic : Bool) : Nat := if logic then s.lNo else s.pNo

/-- The slot is one of those that the partitions fill from the state on. -/
def Fills (s : Scan) (ps : Parts) (place : Nat × PartPtr) : Prop :=
  place.1 = s.no ∧ s.next place.2.logic ≤ place.2.idx ∧
    place.2.idx < s.next place.2.logic + (ps place.2.logic).length

instance (s : Scan) (ps : Parts) (place : Nat × PartPtr) : Decidable (Fills s ps place) := by
  unfold Fills
  infer_instance

/-- Between the two states these partitions have been recorded, each in the next slot of its array
and once in the list. -/
structure Recorded (s : Scan) (ps : Parts) (s' : Scan) : Prop where
  no : s'.no = s.no
  next : ∀ b, s'.next b = s.next b + (ps b).length
  part : ∀ b i (h : i < (ps b).length), ∃ part, s'.hd.part ⟨b, s.next b + i⟩ = .ok part ∧
    (part.startLba, part.secCnt) = (ps b)[i]
  other : ∀ b k, k < s.next b ∨ s.next b + (ps b).length ≤ k →
    s'.hd.part ⟨b, k⟩ = s.hd.part ⟨b, k⟩
  list : ∃ new, s'.partitionList = s.partitionList ++ new ∧
    ∀ place, new.count place = if Fills s ps place then 1 else 0

variable {disk : Bytes} {lba base : UInt32} {s s' s'' : Scan} {ps ps' : Parts}

theorem Recorded.none (hno : s'.no = s.no) (hhd : s'.hd = s.hd) (hp : s'.pNo = s.pNo)
    (hl : s'.lNo = s.lNo) (hlist : s'.partitionList = s.partitionList) :
    Recorded s (fun _ => []) s' where
  no := hno
  next b := by cases b <;> simp [Scan.next, hp, hl]
  part _ _ h := absurd h (Nat.not_lt_zero _)
  other _ _ _ := by rw [hhd]
  list := by
    refine ⟨[], by rw [hlist, List.append_nil], fun place => ?_⟩
    have hnot : ¬ Fills s (fun _ => []) place := by
      rintro ⟨-, hle, hlt⟩
      rw [List.length_nil] at hlt
      omega
    rw [if_neg hnot]
    rfl

theorem Recorded.trans (h : Recorded s ps s') (h' : Recorded s' ps' s'') :
    Recorded s (fun b => ps b ++ ps' b) s'' where
  no := h'.no.trans h.no
  next b := by rw [h'.next, h.next, List.length_append, Nat.add_assoc]
  part b i hi := by
    by_cases hfirst : i < (ps b).length
    · obtain ⟨part, hpart, hval⟩ := h.part b i hfirst
      refine ⟨part, ?_, by rw [hval, List.getElem_append_left hfirst]⟩
      rw [h'.other b _ (.inl (by rw [h.next]; omega)), hpart]
    · rw [List.length_append] at hi
      obtain ⟨part, hpart, hval⟩ := h'.part b (i - (ps b).length) (by omega)
      refine ⟨part, ?_, by rw [hval, List.getElem_append_right (by omega)]⟩
      have hidx : s.next b + (ps b).length + (i - (ps b).length) = s.next b + i := by omega
      rw [← hpart, h.next, hidx]
  other b k hk := by
    rw [List.length_append] at hk
    rw [h'.other b k (by rw [h.next]; omega), h.other b k (by omega)]
  list := by
    obtain ⟨new, hnew, hcount⟩ := h.list
    obtain ⟨new', hnew', hcount'⟩ := h'.list
    refine ⟨new ++ new', by rw [hnew', hnew, List.append_assoc], fun place => ?_⟩
    have hor : Fills s (fun b => ps b ++ ps' b) place ↔ Fills s ps place ∨ Fills s' ps' place := by
      unfold Fills
      rw [h.no, h.next, List.length_append]
      omega
    have hnot : Fills s ps place → ¬ Fills s' ps' place := by
      unfold Fills
      rw [h.next]
      omega
    rw [List.count_append, hcount, hcount']
    by_cases hfirst : Fills s ps place
    · rw [if_pos hfirst, if_neg (hnot hfirst), if_pos (hor.mpr (.inl hfirst))]
    · by_cases hsecond : Fills s' ps' place
      · rw [if_neg hfirst, if_pos hsecond, if_pos (hor.mpr (.inr hsecond))]
      · rw [if_neg hfirst, if_neg hsecond, if_neg fun h => (hor.mp h).elim hfirst hsecond]

/-- One partition of a kind. -/
def one (logic : Bool) (p : UInt32 × UInt32) : Parts := fun b => if b = logic then [p] else []

theorem one_length (logic : Bool) (p : UInt32 × UInt32) (b : Bool) :
    (one logic p b).length = if b = logic then 1 else 0 := by
  unfold one
  split
  · rfl
  · rfl

theorem Recorded.one (s s' : Scan) (logic : Bool) (part : Partition) (hno : s'.no = s.no)
    (hnext : ∀ b, s'.next b = s.next b + if b = logic then 1 else 0)
    (hpart : ∀ b k, s'.hd.part ⟨b, k⟩ =
      if b = logic ∧ k = s.next logic then .ok part else s.hd.part ⟨b, k⟩)
    (hlist : s'.partitionList = s.partitionList ++ [(s.no, ⟨logic, s.next logic⟩)]) :
    Recorded s (PartitionScan.one logic (part.startLba, part.secCnt)) s' where
  no := hno
  next b := by rw [hnext, one_length]
  part b i hi := by
    rw [one_length] at hi
    have hb : b = logic := by
      by_contra hne
      rw [if_neg hne] at hi
      exact Nat.not_lt_zero _ hi
    subst hb
    obtain rfl : i = 0 := by rw [if_pos rfl] at hi; omega
    refine ⟨part, by rw [hpart, if_pos ⟨rfl, rfl⟩], ?_⟩
    simp [PartitionScan.one]
  other b k hk := by
    rw [one_length] at hk
    refine (hpart b k).trans (if_neg ?_)
    rintro ⟨rfl, rfl⟩
    rw [if_pos rfl] at hk
    omega
  list := by
    refine ⟨_, hlist, fun place => ?_⟩
    have hiff : Fills s (PartitionScan.one logic (part.startLba, part.secCnt)) place ↔
        (s.no, ⟨logic, s.next logic⟩) = place := by
      obtain ⟨no, b, k⟩ := place
      unfold Fills
      rw [one_length]
      constructor
      · rintro ⟨rfl, hle, hlt⟩
        by_cases hb : b = logic
        · subst hb
          rw [if_pos rfl] at hlt
          obtain rfl : k = s.next b := by dsimp only at hle hlt; omega
          rfl
        · rw [if_neg hb] at hlt
          omega
      · intro heq
        obtain ⟨rfl, h⟩ := Prod.mk.inj heq
        obtain ⟨rfl, rfl⟩ := PartPtr.mk.inj h
        exact ⟨rfl, le_rfl, by rw [if_pos rfl]; exact Nat.lt_succ_self _⟩
    rw [List.count_singleton]
    by_cases hfills : Fills s (PartitionScan.one logic (part.startLba, part.secCnt)) place
    · rw [if_pos hfills, if_pos (by simpa using hiff.mp hfills)]
    · rw [if_neg hfills, if_neg (by simpa using mt hiff.mpr hfills)]

theorem part_update_prim (hd : Disk) (i : Fin 4) (part : Partition) (b : Bool) (k : Nat) :
    ({ hd with primParts := Function.update hd.primParts i part } : Disk).part ⟨b, k⟩ =
      if b = false ∧ k = i then .ok part else hd.part ⟨b, k⟩ := by
  unfold Disk.part
  cases b with
  | true => rw [if_neg (show ¬ (true = false ∧ k = i) from fun h => nomatch h.1)]; rfl
  | false =>
    simp only [Bool.false_eq_true, if_false, true_and]
    by_cases hk : k = i
    · subst hk
      rw [if_pos rfl, dif_pos i.isLt, Function.update_self]
      rfl
    · rw [if_neg hk]
      split
      · rw [Function.update_of_ne (by rwa [ne_eq, Fin.ext_iff])]
      · rfl

theorem part_update_logic (hd : Disk) (i : Fin 8) (part : Partition) (b : Bool) (k : Nat) :
    ({ hd with logicParts := Function.update hd.logicParts i part } : Disk).part ⟨b, k⟩ =
      if b = true ∧ k = i then .ok part else hd.part ⟨b, k⟩ := by
  unfold Disk.part
  cases b with
  | false => rw [if_neg (show ¬ (false = true ∧ k = i) from fun h => nomatch h.1)]; rfl
  | true =>
    simp only [if_true, true_and]
    by_cases hk : k = i
    · subst hk
      rw [if_pos rfl, dif_pos i.isLt, Function.update_self]
      rfl
    · rw [if_neg hk]
      split
      · rw [Function.update_of_ne (by rwa [ne_eq, Fin.ext_iff])]
      · rfl

theorem addPrim_recorded (s : Scan) (p : PartitionTableEntry) (h : s.pNo < 4) :
    Recorded s (one false (p.startLba, p.secCnt)) (s.addPrim p h) := by
  have hone := Recorded.one s (s.addPrim p h) false
    (s.hd.fill (0 + p.startLba) p.secCnt (s.pNo + 1) (s.hd.primParts ⟨s.pNo, h⟩)) rfl
    (fun b => by cases b <;> rfl) (fun b k => part_update_prim ..) rfl
  rwa [show (s.hd.fill (0 + p.startLba) p.secCnt (s.pNo + 1)
    (s.hd.primParts ⟨s.pNo, h⟩)).startLba = p.startLba from UInt32.zero_add _] at hone

theorem addLogic_recorded (s : Scan) (lba : UInt32) (p : PartitionTableEntry) (h : s.lNo < 8) :
    Recorded s (one true (lba + p.startLba, p.secCnt)) (s.addLogic lba p h) :=
  Recorded.one s (s.addLogic lba p h) true
    (s.hd.fill (lba + p.startLba) p.secCnt (s.lNo + 5) (s.hd.logicParts ⟨s.lNo, h⟩)) rfl
    (fun b => by cases b <;> rfl) (fun b k => part_update_logic ..) rfl

theorem follow_recorded (s : Scan) (p : PartitionTableEntry) :
    Recorded s (fun _ => []) (s.follow p) := .none rfl rfl rfl rfl rfl

def logics (ps : List (UInt32 × UInt32)) : Parts
  | false => []
  | true => ps

theorem logics_append (ps ps' : List (UInt32 × UInt32)) :
    logics (ps ++ ps') = fun b => logics ps b ++ logics ps' b := by
  funext b
  cases b <;> rfl

theorem one_logics (p : UInt32 × UInt32) : one true p = logics [p] := by
  funext b
  cases b <;> rfl

theorem logics_nil : logics [] = fun _ => [] := by
  funext b
  cases b <;> rfl

/-- What a call for an extended boot record has done. -/
structure Collected (disk : Bytes) (s : Scan) (ps : Parts) (s' : Scan) : Prop where
  inside : Inside disk s'
  base : s'.extLbaBase = s.extLbaBase
  recorded : Recorded s ps s'

theorem Collected.trans (h : Collected disk s ps s') (h' : Collected disk s' ps' s'') :
    Collected disk s (fun b => ps b ++ ps' b) s'' :=
  ⟨h'.inside, h'.base.trans h.base, h.recorded.trans h'.recorded⟩

theorem follow_eq {p : PartitionTableEntry} (h : s.extLbaBase ≠ 0) : s.follow p = s := by
  have hbase : s.met.base ≠ 0 := h
  rw [Scan.follow, Met.follow, if_pos hbase]
  rfl

/-- As long as there is room for them the records' partitions are recorded. The induction is on
the records; the call for the one with the eighth partition leaves out what has none. -/
theorem Records.scans {entries : List PartitionTableEntry} {ls : List (UInt32 × UInt32)}
    (h : Records disk base lba entries ls) (hlba : lba ≠ 0) (hbase : base ≠ 0)
    (hs : Inside disk s) (hsbase : s.extLbaBase = base) (hroom : s.lNo + ls.length ≤ 8) :
    ∃ depth s', (∀ d, depth ≤ d → scanEntries (partitionScan d) lba entries s = .ok s') ∧
      Collected disk s (logics ls) s' := by
  induction h generalizing s with
  | done =>
    exact ⟨0, s, fun _ _ => rfl, hs, rfl, logics_nil ▸ .none rfl rfl rfl rfl rfl⟩
  | empty hp _ ih =>
    obtain ⟨depth, s', hrun, hs'⟩ := ih hlba hs hsbase hroom
    exact ⟨depth, s', fun d hd => (scanEntries_empty hp).trans (hrun d hd), hs'⟩
  | @logic lba p rest ls hp _ ih =>
    rw [List.length_cons] at hroom
    have hlt : s.lNo < 8 := by omega
    have hfirst : Collected disk s (logics [(lba + p.startLba, p.secCnt)]) (s.addLogic lba p hlt) :=
      ⟨hs.addLogic lba p hlt, rfl, one_logics _ ▸ addLogic_recorded s lba p hlt⟩
    by_cases hlast : s.lNo < 7
    · obtain ⟨depth, s', hrun, hs'⟩ := ih hlba hfirst.inside hsbase
        (show s.lNo + 1 + ls.length ≤ 8 by omega)
      refine ⟨depth, s', fun d hd => ?_, ?_⟩
      · rw [scanEntries_logic hp hlba hlt, if_pos hlast, hrun d hd]
      · have hboth := hfirst.trans hs'
        rwa [← logics_append] at hboth
    · obtain rfl : ls = [] := List.length_eq_zero_iff.mp (by omega)
      refine ⟨0, _, fun d _ => ?_, hfirst⟩
      rw [scanEntries_logic hp hlba hlt, if_neg hlast]
  | @link lba p rest ls ls' hp hne hin _ _ ih ih' =>
    rw [List.length_append] at hroom
    have hbase' : s.extLbaBase ≠ 0 := hsbase ▸ hbase
    have hto : s.met.link p = p.startLba + base := by
      rw [Met.link, if_pos (show s.met.base ≠ 0 from hbase'), ← hsbase]
      rfl
    obtain ⟨depth, s₁, hrun, hs₁⟩ := ih hne hs hsbase (by omega)
    have hnext : s₁.lNo = s.lNo + ls.length := hs₁.recorded.next true
    obtain ⟨depth', s₂, hrun', hs₂⟩ :=
      ih' hlba hs₁.inside (hs₁.base.trans hsbase) (by omega)
    refine ⟨max (depth + 1) depth', s₂, fun d hd => ?_, logics_append .. ▸ hs₁.trans hs₂⟩
    obtain ⟨d, rfl⟩ : ∃ e, d = e + 1 := ⟨d - 1, by omega⟩
    rw [scanEntries_link hp, follow_eq hbase', hto, partitionScan_in d hs hin, hrun d (by omega),
      ok_bind, hrun' _ (by omega)]

section Table

variable {p : PartitionTableEntry} {entries : List PartitionTableEntry}
  {ls : List (UInt32 × UInt32)}

theorem PartitionTableEntry.IsLink.not_partition (h : p.IsLink) : ¬ p.IsPartition :=
  fun hp => hp.1 h

theorem not_link_of_empty (h : p.fsType = 0) : ¬ p.IsLink := by
  unfold PartitionTableEntry.IsLink
  rw [h]
  decide

theorem tableParts_other (entries : List PartitionTableEntry) (ls : List (UInt32 × UInt32))
    (hlink : ¬ p.IsLink) (hp : ¬ p.IsPartition) :
    tableParts (p :: entries) ls = tableParts entries ls := by
  funext b
  cases b with
  | false => rw [tableParts, List.filter_cons_of_neg (by simpa using hp), tableParts]
  | true => simp [tableParts, hlink]

theorem tableParts_partition (entries : List PartitionTableEntry)
    (ls : List (UInt32 × UInt32)) (hp : p.IsPartition) : tableParts (p :: entries) ls =
    fun b => one false (p.startLba, p.secCnt) b ++ tableParts entries ls b := by
  have hlink : ¬ p.IsLink := hp.1
  funext b
  cases b with
  | false => rw [tableParts, List.filter_cons_of_pos (by simpa using hp)]; rfl
  | true => simp [tableParts, hlink, one]

theorem tableParts_link (hlink : p.IsLink) (hrest : ∀ q ∈ entries, ¬ q.IsLink) :
    tableParts (p :: entries) ls = fun b => logics ls b ++ tableParts entries ls b := by
  have hnone : ¬ ∃ q ∈ entries, q.IsLink := fun ⟨q, hq, h⟩ => hrest q hq h
  funext b
  cases b with
  | false =>
    rw [tableParts, List.filter_cons_of_neg (by simpa using hlink.not_partition)]
    rfl
  | true => simp [tableParts, hlink, hnone, logics]

/-- The table of the first sector is scanned; where it has a link, the base must be zero. -/
theorem table_scans (entries : List PartitionTableEntry) (hs : Inside disk s)
    (hone : (entries.filter (·.IsLink)).length ≤ 1)
    (hext : ∀ p ∈ entries, p.IsLink →
      s.extLbaBase = 0 ∧ s.lNo + ls.length ≤ 8 ∧ Extended disk p ls)
    (hprims : s.pNo + (tableParts entries ls false).length ≤ 3) :
    ∃ depth s', (∀ d, depth ≤ d → scanEntries (partitionScan d) 0 entries s = .ok s') ∧
      Recorded s (tableParts entries ls) s' ∧
      ((∀ p ∈ entries, ¬ p.IsLink) → s'.extLbaBase = s.extLbaBase) := by
  induction entries generalizing s with
  | nil =>
    have hnone : tableParts [] ls = fun _ => [] := by
      funext b
      cases b with
      | false => rfl
      | true => simp [tableParts]
    exact ⟨0, s, fun _ _ => rfl, hnone ▸ .none rfl rfl rfl rfl rfl, fun _ => rfl⟩
  | cons p rest ih =>
    have hrest : ∀ q ∈ rest, q ∈ p :: rest := fun q hq => List.mem_cons_of_mem _ hq
    obtain hp | hp | hp := p.kinds
    · have hlink := not_link_of_empty hp
      have hother := tableParts_other rest ls hlink fun h => h.2 hp
      rw [List.filter_cons_of_neg (by simpa using hlink)] at hone
      rw [hother] at hprims ⊢
      obtain ⟨depth, s', hrun, hs', hbase⟩ := ih hs hone (fun q hq => hext q (hrest q hq)) hprims
      exact ⟨depth, s', fun d hd => (scanEntries_empty hp).trans (hrun d hd), hs',
        fun h => hbase fun q hq => h q (hrest q hq)⟩
    · obtain ⟨hbase, hroom, hextended⟩ := hext p (List.mem_cons_self ..) hp
      rw [List.filter_cons_of_pos (by simpa using hp), List.length_cons] at hone
      have hempty : (rest.filter (·.IsLink)).length = 0 :=
        Nat.le_zero.mp (Nat.le_of_succ_le_succ hone)
      have hnone : ∀ q ∈ rest, ¬ q.IsLink := by
        simpa using List.filter_eq_nil_iff.mp (List.length_eq_zero_iff.mp hempty)
      rw [tableParts_link hp hnone] at hprims ⊢
      have hto : s.met.link p = p.startLba := if_neg (not_not.mpr hbase)
      have hfollow : (s.follow p).extLbaBase = p.startLba := by
        rw [Scan.follow, Met.follow, if_neg (show ¬ s.met.base ≠ 0 from not_not.mpr hbase)]
      obtain ⟨depth, s₁, hrun, hs₁⟩ := hextended.records.scans hextended.start hextended.start
        (hs.follow p) hfollow hroom
      have hnext : s₁.pNo = s.pNo := hs₁.recorded.next false
      obtain ⟨depth', s₂, hrun', hs₂, -⟩ := ih hs₁.inside
        (hempty ▸ Nat.zero_le 1)
        (fun q hq hlink => absurd hlink (hnone q hq)) (hnext ▸ hprims)
      refine ⟨max (depth + 1) depth', s₂, fun d hd => ?_, ?_,
        fun h => absurd hp (h p (List.mem_cons_self ..))⟩
      · obtain ⟨d, rfl⟩ : ∃ e, d = e + 1 := ⟨d - 1, by omega⟩
        rw [scanEntries_link hp, hto, partitionScan_in d (hs.follow p) hextended.inside,
          hrun d (by omega), ok_bind, hrun' _ (by omega)]
      · exact ((follow_recorded s p).trans hs₁.recorded).trans hs₂
    · have hsplit := tableParts_partition rest ls hp
      have hlink : ¬ p.IsLink := hp.1
      rw [List.filter_cons_of_neg (by simpa using hlink)] at hone
      rw [hsplit] at hprims ⊢
      rw [List.length_append, one_length, if_pos rfl] at hprims
      have hlast : s.pNo < 3 := by omega
      obtain ⟨depth, s', hrun, hs', hbase⟩ := ih (hs.addPrim p hlast) hone
        (fun q hq => hext q (hrest q hq))
        (show s.pNo + 1 + (tableParts rest ls false).length ≤ 3 by omega)
      refine ⟨depth, s', fun d hd => ?_, (addPrim_recorded s p hs.prims).trans hs',
        fun h => hbase fun q hq => h q (hrest q hq)⟩
      rw [scanEntries_prim hp hs.prims, if_pos hlast, hrun d hd]

end Table

/-! ## The disks -/

def HasExtended (hd : Disk) : Prop := ∃ p ∈ table hd.bytes 0, p.IsLink

/-- The partitions of the disk, its logical ones being these. -/
def diskParts (hd : Disk) (ls : List (UInt32 × UInt32)) : Parts :=
  tableParts (table hd.bytes 0) ls

theorem disk_scans (no : Nat) {hd : Disk} {ls : List (UInt32 × UInt32)} (h : Layout hd.bytes ls)
    (hfew : (diskParts hd ls false).length ≤ 3) {base : UInt32}
    (hbase : HasExtended hd → base = 0) (list : List (Nat × PartPtr)) :
    ∃ depth s', (∀ d, depth ≤ d → partitionScan d 0 (.begin no hd base list) = .ok s') ∧
      Recorded (.begin no hd base list) (diskParts hd ls) s' ∧
      (¬ HasExtended hd → s'.extLbaBase = base) := by
  have hs : Inside hd.bytes (.begin no hd base list) :=
    ⟨rfl, show 0 < 4 by decide, show 0 ≤ 8 by decide⟩
  obtain ⟨depth, s', hrun, hrecorded, hsame⟩ := table_scans (table hd.bytes 0) hs h.one
    (fun p hp hlink => ⟨hbase ⟨p, hp, hlink⟩, by simpa [Scan.begin] using h.eight,
      h.extended p hp hlink⟩)
    (by simpa [Scan.begin, diskParts] using hfew)
  refine ⟨depth + 1, s', fun d hd => ?_, hrecorded,
    fun hnone => hsame fun p hp hlink => hnone ⟨p, hp, hlink⟩⟩
  obtain ⟨d, rfl⟩ : ∃ e, d = e + 1 := ⟨d - 1, by omega⟩
  rw [partitionScan_in d hs (Nat.zero_le _), hrun d (by omega)]

/-- The partitions are in the first slots of their arrays, the other slots are as they were. -/
structure Filled (hd : Disk) (ps : Parts) (hd' : Disk) : Prop where
  part : ∀ b i (h : i < (ps b).length), ∃ part, hd'.part ⟨b, i⟩ = .ok part ∧
    (part.startLba, part.secCnt) = (ps b)[i]
  other : ∀ b k, (ps b).length ≤ k → hd'.part ⟨b, k⟩ = hd.part ⟨b, k⟩

/-- Each disk has its partitions recorded, and the list has each of them once. -/
structure ScannedRight (disks : List (Disk × List (UInt32 × UInt32))) (disks' : List Disk)
    (list : List (Nat × PartPtr)) : Prop where
  filled : List.Forall₂ (fun x hd' => Filled x.1 (diskParts x.1 x.2) hd') disks disks'
  once : ∀ no x, disks[no]? = some x → ∀ ptr,
    list.count (no, ptr) = if ptr.idx < (diskParts x.1 x.2 ptr.logic).length then 1 else 0
  only : ∀ place ∈ list, place.1 < disks.length

/-- A new scan begins with the first slots. -/
theorem fills_begin (no : Nat) (hd : Disk) (base : UInt32) (list : List (Nat × PartPtr))
    (ps : Parts) (place : Nat × PartPtr) : Fills (.begin no hd base list) ps place ↔
      place.1 = no ∧ place.2.idx < (ps place.2.logic).length := by
  have hzero : ∀ b, (Scan.begin no hd base list).next b = 0 := fun b => by cases b <;> rfl
  unfold Fills
  rw [hzero, Nat.zero_add]
  exact ⟨fun ⟨h, _, h'⟩ => ⟨h, h'⟩, fun ⟨h, h'⟩ => ⟨h, Nat.zero_le _, h'⟩⟩

theorem Recorded.filled {no : Nat} {hd : Disk} {list : List (Nat × PartPtr)}
    (h : Recorded (.begin no hd base list) ps s') : Filled hd ps s'.hd := by
  have hzero : ∀ b, (Scan.begin no hd base list).next b = 0 := fun b => by cases b <;> rfl
  refine ⟨fun b i hi => ?_, fun b k hk => ?_⟩
  · obtain ⟨part, hpart, hval⟩ := h.part b i hi
    rw [hzero, Nat.zero_add] at hpart
    exact ⟨part, hpart, hval⟩
  · exact h.other b k (.inr (by rw [hzero, Nat.zero_add]; exact hk))

/-- The induction is on the disks that are left; if one of them has an extended partition, none
before it had one and the base is still zero. -/
theorem scanDisks_from (disks : List (Disk × List (UInt32 × UInt32)))
    (hlayout : ∀ x ∈ disks, Layout x.1.bytes x.2)
    (hfew : ∀ x ∈ disks, (diskParts x.1 x.2 false).length ≤ 3)
    (hone : disks.Pairwise fun x y => ¬ (HasExtended x.1 ∧ HasExtended y.1)) (no : Nat)
    (base : UInt32) (hbase : ∀ x ∈ disks, HasExtended x.1 → base = 0)
    (list : List (Nat × PartPtr)) :
    ∃ depth disks' base' new, (∀ d, depth ≤ d →
        scanDisks d no (disks.map Prod.fst) base list = .ok (disks', base', list ++ new)) ∧
      List.Forall₂ (fun x hd' => Filled x.1 (diskParts x.1 x.2) hd') disks disks' ∧
      (∀ i x, disks[i]? = some x → ∀ ptr, new.count (no + i, ptr) =
        if ptr.idx < (diskParts x.1 x.2 ptr.logic).length then 1 else 0) ∧
      ∀ place ∈ new, no ≤ place.1 ∧ place.1 < no + disks.length := by
  induction disks generalizing no base list with
  | nil =>
    exact ⟨0, [], base, [], fun _ _ => by rw [List.append_nil]; rfl, .nil,
      fun _ _ h => (nomatch h), fun _ h => (nomatch h)⟩
  | cons x rest ih =>
    have hrest : ∀ y ∈ rest, y ∈ x :: rest := fun y hy => List.mem_cons_of_mem _ hy
    have hx : x ∈ x :: rest := List.mem_cons_self ..
    obtain ⟨hfirst, hpairs⟩ := List.pairwise_cons.mp hone
    obtain ⟨depth, s', hrun, hrecorded, hsame⟩ :=
      disk_scans no (hlayout x hx) (hfew x hx) (hbase x hx) list
    obtain ⟨new, hnew, hcount⟩ := hrecorded.list
    have hbase' : ∀ y ∈ rest, HasExtended y.1 → s'.extLbaBase = 0 := by
      intro y hy hext
      have hnot : ¬ HasExtended x.1 := fun h => hfirst y hy ⟨h, hext⟩
      rw [hsame hnot, hbase y (hrest y hy) hext]
    obtain ⟨depth', disks', base', new', hruns, hfilled, honce, honly⟩ :=
      ih (fun y hy => hlayout y (hrest y hy)) (fun y hy => hfew y (hrest y hy)) hpairs (no + 1)
        s'.extLbaBase hbase' (list ++ new)
    have hmem : ∀ place ∈ new, place.1 = no := by
      intro place hplace
      have hpos : 0 < new.count place := List.count_pos_iff.mpr hplace
      by_contra hne
      rw [hcount, if_neg fun h => hne ((fills_begin ..).mp h).1] at hpos
      exact Nat.lt_irrefl 0 hpos
    refine ⟨max depth depth', s'.hd :: disks', base', new ++ new', fun d hd => ?_,
      .cons hrecorded.filled hfilled, fun i y hy ptr => ?_, fun place hplace => ?_⟩
    · have hnew' : s'.partitionList = list ++ new := hnew
      simp only [List.map_cons, scanDisks, hrun d (by omega), ok_bind, hnew',
        hruns d (by omega)]
      rw [List.append_assoc]
      rfl
    · rw [List.count_append]
      cases i with
      | zero =>
        obtain rfl := Option.some.inj hy
        have hlater : new'.count (no, ptr) = 0 :=
          List.count_eq_zero.mpr fun h => Nat.not_succ_le_self no (honly _ h).1
        rw [Nat.add_zero, hlater, Nat.add_zero, hcount]
        have hfills : Fills (.begin no x.1 base list) (diskParts x.1 x.2) (no, ptr) ↔
            ptr.idx < (diskParts x.1 x.2 ptr.logic).length :=
          (fills_begin ..).trans (and_iff_right rfl)
        by_cases hlt : ptr.idx < (diskParts x.1 x.2 ptr.logic).length
        · rw [if_pos hlt, if_pos (hfills.mpr hlt)]
        · rw [if_neg hlt, if_neg (mt hfills.mp hlt)]
      | succ i =>
        have hearlier : new.count (no + (i + 1), ptr) = 0 :=
          List.count_eq_zero.mpr fun h => absurd (hmem _ h) (by dsimp only; omega)
        rw [hearlier, Nat.zero_add, show no + (i + 1) = no + 1 + i by omega]
        exact honce i y hy ptr
    · rw [List.length_cons]
      obtain hplace | hplace := List.mem_append.mp hplace
      · have := hmem place hplace
        omega
      · have := honly place hplace
        omega

/-- Where no disk has four primary partitions and at most one has an extended one, the scans
return and record what is on the disks. -/
theorem scanDisks_right (disks : List (Disk × List (UInt32 × UInt32)))
    (hlayout : ∀ x ∈ disks, Layout x.1.bytes x.2)
    (hfew : ∀ x ∈ disks, (diskParts x.1 x.2 false).length ≤ 3)
    (hone : disks.Pairwise fun x y => ¬ (HasExtended x.1 ∧ HasExtended y.1)) :
    ∃ depth disks' base list, (∀ d, depth ≤ d →
        scanDisks d 0 (disks.map Prod.fst) 0 [] = .ok (disks', base, list)) ∧
      ScannedRight disks disks' list := by
  obtain ⟨depth, disks', base, list, hrun, hfilled, honce, honly⟩ :=
    scanDisks_from disks hlayout hfew hone 0 0 (fun _ _ _ => rfl) []
  refine ⟨depth, disks', base, list, hrun, hfilled, fun no x hx ptr => ?_, fun place hplace => ?_⟩
  · have hcount := honce no x hx ptr
    rwa [Nat.zero_add] at hcount
  · have hlt := (honly place hplace).2
    rwa [Nat.zero_add] at hlt

/-- A primary partition, and an extended one with a logical partition in each of two records. -/
def chainTables (n i : Nat) : PartitionTableEntry :=
  if n = 0 then if i = 0 then ⟨0x83, 2048, 1000⟩ else if i = 1 then ⟨0x5, 4000, 100⟩ else ⟨0, 0, 0⟩
  else if n = 4000 then
    if i = 0 then ⟨0x83, 10, 20⟩ else if i = 1 then ⟨0x5, 50, 50⟩ else ⟨0, 0, 0⟩
  else if n = 4050 then if i = 0 then ⟨0x83, 10, 20⟩ else ⟨0, 0, 0⟩
  else ⟨0, 0, 0⟩

theorem chain_layout : Layout (image chainTables) [(4010, 20), (4060, 20)] := by
  have hrecords : Records (image chainTables) 4000 4000 (table (image chainTables) 4000)
      [(4010, 20), (4060, 20)] := by
    have hsecond : Records (image chainTables) 4000 4050 (table (image chainTables) 4050)
        [(4060, 20)] := by
      rw [table_image]
      exact .logic (by decide) (.empty rfl (.empty rfl (.empty rfl .done)))
    have hrest : Records (image chainTables) 4000 4000
        [chainTables 4000 2, chainTables 4000 3] [] :=
      .empty rfl (.empty rfl .done)
    have hlinked := Records.link (p := chainTables 4000 1) rfl (by decide) (by decide) hsecond hrest
    rw [table_image]
    exact .logic (by decide) hlinked
  refine ⟨by rw [table_image]; decide, fun p hp hlink => ?_, by decide⟩
  rw [table_image] at hp
  simp only [List.mem_cons, List.not_mem_nil, or_false] at hp
  obtain rfl | rfl | rfl | rfl := hp
  · exact absurd hlink (by decide)
  · exact ⟨by decide, by decide, hrecords⟩
  · exact absurd hlink (by decide)
  · exact absurd hlink (by decide)

theorem scanDisks_right_chain : ∃ depth disks' base list,
    (∀ d, depth ≤ d → scanDisks d 0 [newDisk chainTables] 0 [] = .ok (disks', base, list)) ∧
      ScannedRight [(newDisk chainTables, [(4010, 20), (4060, 20)])] disks' list := by
  refine scanDisks_right [(newDisk chainTables, [(4010, 20), (4060, 20)])] (fun x hx => ?_)
    (fun x hx => ?_) (List.pairwise_singleton ..)
  · obtain rfl := List.mem_singleton.mp hx
    exact chain_layout
  · obtain rfl := List.mem_singleton.mp hx
    change (tableParts (table (image chainTables) 0) _ false).length ≤ 3
    rw [table_image]
    decide

/-- Four primary partitions. -/
def fullTables (n _ : Nat) : PartitionTableEntry := if n = 0 then ⟨0x83, 2048, 1000⟩ else ⟨0, 0, 0⟩

/-- An extended partition at sector 1 with a logical one. -/
def extendedTables (n i : Nat) : PartitionTableEntry :=
  if i ≠ 0 then ⟨0, 0, 0⟩
  else if n = 0 then ⟨0x5, 1, 100⟩
  else if n = 1 then ⟨0x83, 10, 20⟩
  else ⟨0, 0, 0⟩

theorem full_layout : Layout (image fullTables) [] := by
  refine ⟨by rw [table_image]; decide, fun p hp hlink => ?_, by decide⟩
  rw [table_image] at hp
  simp only [List.mem_cons, List.not_mem_nil, or_false] at hp
  obtain rfl | rfl | rfl | rfl := hp <;> exact absurd hlink (by decide)

theorem extended_layout : Layout (image extendedTables) [(11, 20)] := by
  have hrecords : Records (image extendedTables) 1 1 (table (image extendedTables) 1)
      [(11, 20)] := by
    rw [table_image]
    exact .logic (by decide) (.empty rfl (.empty rfl (.empty rfl .done)))
  refine ⟨by rw [table_image]; decide, fun p hp hlink => ?_, by decide⟩
  rw [table_image] at hp
  simp only [List.mem_cons, List.not_mem_nil, or_false] at hp
  obtain rfl | rfl | rfl | rfl := hp
  · exact ⟨by decide, by decide, hrecords⟩
  · exact absurd hlink (by decide)
  · exact absurd hlink (by decide)
  · exact absurd hlink (by decide)

/-- The fourth primary partition fails an `ASSERT`, and of two disks with an extended partition
the second one has its links followed from the start of the first. -/
theorem scanDisks_wrong : (Layout (newDisk fullTables).bytes [] ∧
      ∀ depth, scanDisks (depth + 1) 0 [newDisk fullTables] 0 [] = .error .panic) ∧
    Layout (newDisk extendedTables).bytes [(11, 20)] ∧ ∃ disks' base list,
      scanDisks 3 0 [newDisk extendedTables, newDisk extendedTables] 0 [] =
        .ok (disks', base, list) ∧
      ¬ ScannedRight [(newDisk extendedTables, [(11, 20)]), (newDisk extendedTables, [(11, 20)])]
        disks' list := by
  refine ⟨⟨full_layout, fun depth => rfl⟩, extended_layout, _, _, _, rfl, fun h => ?_⟩
  have hparts : (diskParts (newDisk extendedTables) [(11, 20)] true).length = 1 := by
    change (tableParts (table (image extendedTables) 0) _ true).length = 1
    rw [table_image]
    decide
  have honce := h.once 1 _ rfl ⟨true, 0⟩
  rw [hparts] at honce
  exact absurd honce (by decide)

end PartitionScan

end ZhuOS
