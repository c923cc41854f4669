import ZhuOS.Lib.Numerals
import ZhuOS.Mount

/-!
# `device/ide.c`: `partition_scan`

The links between the boot sectors are followed as they stand on the disk. The buffer of each
sector is taken as given.
-/

namespace ZhuOS

open ByteMem

/-- A pointer into one of the two arrays of a disk. -/
structure PartPtr where
  logic : Bool
  idx : Nat
  deriving DecidableEq

def PartPtr.next (part : PartPtr) : PartPtr := { part with idx := part.idx + 1 }

structure Disk where
  name : List UInt8
  primParts : Fin 4 → Partition
  logicParts : Fin 8 → Partition
  bytes : Bytes

/-- A load from the arrays. -/
def Disk.part (hd : Disk) (ptr : PartPtr) : Except Fault Partition :=
  if ptr.logic then
    if h : ptr.idx < 8 then return hd.logicParts ⟨ptr.idx, h⟩ else .error .outOfBounds
  else if h : ptr.idx < 4 then return hd.primParts ⟨ptr.idx, h⟩ else .error .outOfBounds

/-- A store into the arrays. -/
def Disk.setPart (hd : Disk) (ptr : PartPtr) (part : Partition) : Except Fault Disk :=
  if ptr.logic then
    if h : ptr.idx < 8 then
      return { hd with logicParts := Function.update hd.logicParts ⟨ptr.idx, h⟩ part }
    else .error .outOfBounds
  else if h : ptr.idx < 4 then
    return { hd with primParts := Function.update hd.primParts ⟨ptr.idx, h⟩ part }
  else .error .outOfBounds

/-- The assignments to the fields of a partition. -/
def Disk.fill (hd : Disk) (startLba secCnt : UInt32) (number : Nat) (part : Partition) :
    Partition :=
  { part with startLba, secCnt, name := hd.name ++ Numerals.numeral 10 number }

namespace PartitionScan

/-- What is read of an entry of the table. -/
structure PartitionTableEntry where
  fsType : UInt8
  startLba : UInt32
  secCnt : UInt32
  deriving DecidableEq

def tableEntry (sector : Bytes) (i : Nat) : PartitionTableEntry where
  fsType := sector (446 + i * 16 + 4)
  startLba := getWord sector (446 + i * 16 + 8)
  secCnt := getWord sector (446 + i * 16 + 12)

/-- The four entries of the boot sector. -/
def partitionTable (sector : Bytes) : List PartitionTableEntry :=
  [tableEntry sector 0, tableEntry sector 1, tableEntry sector 2, tableEntry sector 3]

/-- The disk that is scanned, by its number, and the globals of the file. -/
structure Scan where
  no : Nat
  hd : Disk
  extLbaBase : UInt32
  pNo : Nat
  lNo : Nat
  partitionList : List (Nat × PartPtr)

/-- A slot of the arrays gets a partition, and the partition its place in the list. -/
def Scan.record (s : Scan) (ptr : PartPtr) (startLba secCnt : UInt32) (number : Nat) :
    Except Fault Scan := do
  let part ← s.hd.part ptr
  let hd ← s.hd.setPart ptr (s.hd.fill startLba secCnt number part)
  return { s with hd, partitionList := s.partitionList ++ [(s.no, ptr)] }

/-- The loop over the entries of the sector `ext_lba` that are left; `scan` is the function
itself. -/
def scanEntries (scan : UInt32 → Scan → Except Fault Scan) (extLba : UInt32) :
    List PartitionTableEntry → Scan → Except Fault Scan
  | [], s => return s
  | p :: rest, s =>
    if p.fsType = 0x5 then
      if s.extLbaBase ≠ 0 then do
        let s ← scan (p.startLba + s.extLbaBase) s
        scanEntries scan extLba rest s
      else do
        let s ← scan p.startLba { s with extLbaBase := p.startLba }
        scanEntries scan extLba rest s
    else if p.fsType ≠ 0 then
      if extLba = 0 then do
        let s ← s.record ⟨false, s.pNo⟩ (extLba + p.startLba) p.secCnt (s.pNo + 1)
        let s := { s with pNo := s.pNo + 1 }
        ASSERT (s.pNo < 4)
        scanEntries scan extLba rest s
      else do
        let s ← s.record ⟨true, s.lNo⟩ (extLba + p.startLba) p.secCnt (s.lNo + 5)
        let s := { s with lNo := s.lNo + 1 }
        if 8 ≤ s.lNo then return s
        else scanEntries scan extLba rest s
    else scanEntries scan extLba rest s

/-- `partition_scan`, calling itself to a depth. -/
def partitionScan : (depth : Nat) → UInt32 → Scan → Except Fault Scan
  | 0, _, _ => .error .stuck
  | depth + 1, extLba, s => do
    let bs ← ideRead s.hd.bytes extLba.toNat (fun _ => 0) 1
    scanEntries (partitionScan depth) extLba (partitionTable bs) s

/-! ## The walk over the boot sectors -/

/-- The table of the sector. -/
def table (disk : Bytes) (lba : UInt32) : List PartitionTableEntry :=
  partitionTable (blit (fun _ => 0) 0 disk (lba.toNat * 512) 512)

/-- What a walk has met: the base of the links, and how many partitions of each kind. -/
structure Met where
  base : UInt32
  prims : Nat
  logics : Nat

/-- Where a link leads. -/
def Met.link (met : Met) (p : PartitionTableEntry) : UInt32 :=
  if met.base ≠ 0 then p.startLba + met.base else p.startLba

/-- The first link gives the base. -/
def Met.follow (met : Met) (p : PartitionTableEntry) : Met :=
  if met.base ≠ 0 then met else { met with base := p.startLba }

def PartitionTableEntry.IsLink (p : PartitionTableEntry) : Prop := p.fsType = 0x5

def PartitionTableEntry.IsPartition (p : PartitionTableEntry) : Prop :=
  p.fsType ≠ 0x5 ∧ p.fsType ≠ 0

/-- A walk that comes to an end, over the entries that are left in the sector `lba` and all that
they link to. It goes no further in the sector where it meets the eighth logical partition, and
it must not meet another one behind that. At the fourth primary partition and at a link behind
the last sector an `ASSERT` ends it, with `none`. -/
inductive Walk (disk : Bytes) :
    UInt32 → List PartitionTableEntry → Met → Option Met → Prop
  | done {lba : UInt32} {met : Met} : Walk disk lba [] met (some met)
  | empty {lba : UInt32} {p : PartitionTableEntry} {rest : List PartitionTableEntry} {met : Met}
      {out : Option Met} (hp : p.fsType = 0) (h : Walk disk lba rest met out) :
      Walk disk lba (p :: rest) met out
  | prim {p : PartitionTableEntry} {rest : List PartitionTableEntry} {met : Met}
      {out : Option Met} (hp : p.IsPartition) (hmet : met.prims < 3)
      (h : Walk disk 0 rest { met with prims := met.prims + 1 } out) :
      Walk disk 0 (p :: rest) met out
  | fourth {p : PartitionTableEntry} {rest : List PartitionTableEntry} {met : Met}
      (hp : p.IsPartition) (hmet : met.prims = 3) : Walk disk 0 (p :: rest) met none
  | logic {lba : UInt32} {p : PartitionTableEntry} {rest : List PartitionTableEntry} {met : Met}
      {out : Option Met} (hp : p.IsPartition) (hlba : lba ≠ 0) (hmet : met.logics < 7)
      (h : Walk disk lba rest { met with logics := met.logics + 1 } out) :
      Walk disk lba (p :: rest) met out
  | eighth {lba : UInt32} {p : PartitionTableEntry} {rest : List PartitionTableEntry} {met : Met}
      (hp : p.IsPartition) (hlba : lba ≠ 0) (hmet : met.logics = 7) :
      Walk disk lba (p :: rest) met (some { met with logics := 8 })
  | link {lba : UInt32} {p : PartitionTableEntry} {rest : List PartitionTableEntry}
      {met met' : Met} {out : Option Met} (hp : p.IsLink) (hin : (met.link p).toNat ≤ max_lba)
      (h : Walk disk (met.link p) (table disk (met.link p)) (met.follow p) (some met'))
      (h' : Walk disk lba rest met' out) : Walk disk lba (p :: rest) met out
  | stops {lba : UInt32} {p : PartitionTableEntry} {rest : List PartitionTableEntry}
      {met : Met} (hp : p.IsLink) (hin : (met.link p).toNat ≤ max_lba)
      (h : Walk disk (met.link p) (table disk (met.link p)) (met.follow p) none) :
      Walk disk lba (p :: rest) met none
  | far {lba : UInt32} {p : PartitionTableEntry} {rest : List PartitionTableEntry} {met : Met}
      (hp : p.IsLink) (hout : ¬ (met.link p).toNat ≤ max_lba) : Walk disk lba (p :: rest) met none

variable {disk : Bytes} {lba : UInt32} {s : Scan}

def Scan.met (s : Scan) : Met := ⟨s.extLbaBase, s.pNo, s.lNo⟩

/-- How a scan has ended, as a walk. -/
def outcome : Except Fault Scan → Option Met
  | .ok s => some s.met
  | .error _ => none

/-- The counts of a scan of the disk, between two entries. -/
structure Inside (disk : Bytes) (s : Scan) : Prop where
  bytes : s.hd.bytes = disk
  prims : s.pNo < 4
  logics : s.lNo ≤ 8

/-- The store to a slot of `prim_parts`. -/
theorem record_prim (h : s.pNo < 4) (startLba secCnt : UInt32) (number : Nat) :
    s.record ⟨false, s.pNo⟩ startLba secCnt number = .ok { s with
      hd := { s.hd with
        primParts := Function.update s.hd.primParts ⟨s.pNo, h⟩
          (s.hd.fill startLba secCnt number (s.hd.primParts ⟨s.pNo, h⟩)) }
      partitionList := s.partitionList ++ [(s.no, ⟨false, s.pNo⟩)] } := by
  simp only [Scan.record, Disk.part, Disk.setPart, h, dif_pos, if_neg Bool.false_ne_true]
  rfl

/-- The store to a slot of `logic_parts`. -/
theorem record_logic (h : s.lNo < 8) (startLba secCnt : UInt32) (number : Nat) :
    s.record ⟨true, s.lNo⟩ startLba secCnt number = .ok { s with
      hd := { s.hd with
        logicParts := Function.update s.hd.logicParts ⟨s.lNo, h⟩
          (s.hd.fill startLba secCnt number (s.hd.logicParts ⟨s.lNo, h⟩)) }
      partitionList := s.partitionList ++ [(s.no, ⟨true, s.lNo⟩)] } := by
  simp only [Scan.record, Disk.part, Disk.setPart, h, dif_pos, if_pos]
  rfl

theorem record_outside (h : ¬ s.lNo < 8) (startLba secCnt : UInt32) (number : Nat) :
    s.record ⟨true, s.lNo⟩ startLba secCnt number = .error .outOfBounds := by
  simp only [Scan.record, Disk.part, h, if_pos]
  rfl

/-- The state behind a primary partition. -/
def Scan.addPrim (s : Scan) (p : PartitionTableEntry) (h : s.pNo < 4) : Scan := { s with
  hd := { s.hd with
    primParts := Function.update s.hd.primParts ⟨s.pNo, h⟩
      (s.hd.fill (0 + p.startLba) p.secCnt (s.pNo + 1) (s.hd.primParts ⟨s.pNo, h⟩)) }
  partitionList := s.partitionList ++ [(s.no, ⟨false, s.pNo⟩)]
  pNo := s.pNo + 1 }

/-- The state behind a logical partition. -/
def Scan.addLogic (s : Scan) (lba : UInt32) (p : PartitionTableEntry) (h : s.lNo < 8) : Scan :=
  { s with
    hd := { s.hd with
      logicParts := Function.update s.hd.logicParts ⟨s.lNo, h⟩
        (s.hd.fill (lba + p.startLba) p.secCnt (s.lNo + 5) (s.hd.logicParts ⟨s.lNo, h⟩)) }
    partitionList := s.partitionList ++ [(s.no, ⟨true, s.lNo⟩)]
    lNo := s.lNo + 1 }

/-- The state in which a link is followed. -/
def Scan.follow (s : Scan) (p : PartitionTableEntry) : Scan :=
  { s with extLbaBase := (s.met.follow p).base }

theorem Scan.follow_met (s : Scan) (p : PartitionTableEntry) :
    (s.follow p).met = s.met.follow p := by
  unfold Scan.follow Met.follow
  split
  · rfl
  · rfl

section Entry

variable {scan : UInt32 → Scan → Except Fault Scan} {p : PartitionTableEntry}
  {rest : List PartitionTableEntry}

theorem scanEntries_empty (hp : p.fsType = 0) :
    scanEntries scan lba (p :: rest) s = scanEntries scan lba rest s := by
  have hlink : ¬ p.fsType = 0x5 := by rw [hp]; decide
  rw [scanEntries, if_neg hlink, if_neg (not_not.mpr hp)]

theorem scanEntries_link (hp : p.IsLink) : scanEntries scan lba (p :: rest) s =
    scan (s.met.link p) (s.follow p) >>= fun s => scanEntries scan lba rest s := by
  have hlink : p.fsType = 0x5 := hp
  rw [scanEntries, if_pos hlink, Scan.follow, Met.follow, Met.link]
  by_cases hbase : s.extLbaBase ≠ 0
  · have hbase' : s.met.base ≠ 0 := hbase
    rw [if_pos hbase, if_pos hbase', if_pos hbase']
    rfl
  · have hbase' : ¬ s.met.base ≠ 0 := hbase
    rw [if_neg hbase, if_neg hbase', if_neg hbase']

theorem scanEntries_prim (hp : p.IsPartition) (h : s.pNo < 4) :
    scanEntries scan 0 (p :: rest) s =
      if s.pNo < 3 then scanEntries scan 0 rest (s.addPrim p h) else .error .panic := by
  rw [scanEntries, if_neg hp.1, if_pos hp.2, if_pos rfl, record_prim h, ok_bind]
  change (ASSERT (s.pNo + 1 < 4) >>= fun _ => scanEntries scan 0 rest (s.addPrim p h)) = _
  by_cases hlast : s.pNo < 3
  · rw [if_pos hlast, ASSERT_true (show s.pNo + 1 < 4 by omega)]
    rfl
  · rw [if_neg hlast, ASSERT_false (show ¬ s.pNo + 1 < 4 by omega)]
    rfl

theorem scanEntries_logic (hp : p.IsPartition) (hlba : lba ≠ 0) (h : s.lNo < 8) :
    scanEntries scan lba (p :: rest) s =
      if s.lNo < 7 then scanEntries scan lba rest (s.addLogic lba p h)
      else .ok (s.addLogic lba p h) := by
  rw [scanEntries, if_neg hp.1, if_pos hp.2, if_neg hlba, record_logic h, ok_bind]
  by_cases hlast : s.lNo < 7
  · rw [if_pos hlast]
    exact if_neg (show ¬ 8 ≤ s.lNo + 1 by omega)
  · rw [if_neg hlast]
    exact if_pos (show 8 ≤ s.lNo + 1 by omega)

theorem scanEntries_outside (hp : p.IsPartition) (hlba : lba ≠ 0) (h : ¬ s.lNo < 8) :
    scanEntries scan lba (p :: rest) s = .error .outOfBounds := by
  rw [scanEntries, if_neg hp.1, if_pos hp.2, if_neg hlba, record_outside h]
  rfl

end Entry

theorem PartitionTableEntry.kinds (p : PartitionTableEntry) :
    p.fsType = 0 ∨ p.IsLink ∨ p.IsPartition := by
  by_cases hlink : p.fsType = 0x5
  · exact .inr (.inl hlink)
  by_cases hempty : p.fsType = 0
  · exact .inl hempty
  · exact .inr (.inr ⟨hlink, hempty⟩)

theorem Inside.addPrim (h : Inside disk s) (p : PartitionTableEntry) (hlast : s.pNo < 3) :
    Inside disk (s.addPrim p h.prims) :=
  ⟨h.bytes, show s.pNo + 1 < 4 by omega, h.logics⟩

theorem Inside.addLogic (h : Inside disk s) (lba : UInt32) (p : PartitionTableEntry)
    (hlt : s.lNo < 8) : Inside disk (s.addLogic lba p hlt) :=
  ⟨h.bytes, h.prims, show s.lNo + 1 ≤ 8 by omega⟩

theorem Inside.follow (h : Inside disk s) (p : PartitionTableEntry) : Inside disk (s.follow p) :=
  ⟨h.bytes, h.prims, h.logics⟩

/-- It has come to an end, if only at an `ASSERT`, and stored nothing outside the arrays. -/
def Safe (r : Except Fault Scan) : Prop := r ≠ .error .stuck ∧ r ≠ .error .outOfBounds

theorem Safe.bind_left {r : Except Fault Scan} {f : Scan → Except Fault Scan}
    (h : Safe (r >>= f)) : Safe r := by
  cases r with
  | ok s => exact ⟨nofun, nofun⟩
  | error e => exact h

/-- What one call needs of those it makes. -/
structure Walks (disk : Bytes) (scan : UInt32 → Scan → Except Fault Scan) : Prop where
  far : ∀ lba s, ¬ lba.toNat ≤ max_lba → ∃ e, scan lba s = .error e
  walk : ∀ lba s, Inside disk s → lba.toNat ≤ max_lba → Safe (scan lba s) →
    Walk disk lba (table disk lba) s.met (outcome (scan lba s))
  inside : ∀ lba s s', Inside disk s → scan lba s = .ok s' → Inside disk s'

/-- The induction is on the entries that are left. -/
theorem Walks.entries {scan : UInt32 → Scan → Except Fault Scan} (hscan : Walks disk scan)
    (lba : UInt32) (entries : List PartitionTableEntry) (h : Inside disk s)
    (hsafe : Safe (scanEntries scan lba entries s)) :
    Walk disk lba entries s.met (outcome (scanEntries scan lba entries s)) ∧
      ∀ s', scanEntries scan lba entries s = .ok s' → Inside disk s' := by
  induction entries generalizing s with
  | nil => exact ⟨.done, fun s' hs' => Except.ok.inj hs' ▸ h⟩
  | cons p rest ih =>
    obtain hp | hp | hp := p.kinds
    · rw [scanEntries_empty hp] at hsafe ⊢
      exact ⟨.empty hp (ih h hsafe).1, (ih h hsafe).2⟩
    · rw [scanEntries_link hp] at hsafe ⊢
      by_cases hin : (s.met.link p).toNat ≤ max_lba
      · have hwalk := hscan.walk _ _ (h.follow p) hin hsafe.bind_left
        rw [s.follow_met p] at hwalk
        cases hcall : scan (s.met.link p) (s.follow p) with
        | error e =>
          rw [hcall] at hwalk
          exact ⟨.stops hp hin hwalk, fun s' hs' => nomatch hs'⟩
        | ok s₁ =>
          rw [hcall] at hwalk hsafe
          obtain ⟨hrest, hinside⟩ := ih (hscan.inside _ _ _ (h.follow p) hcall) hsafe
          exact ⟨.link hp hin hwalk hrest, hinside⟩
      · obtain ⟨e, he⟩ := hscan.far _ (s.follow p) hin
        rw [he]
        exact ⟨.far hp hin, fun s' hs' => nomatch hs'⟩
    · by_cases hlba : lba = 0
      · subst hlba
        rw [scanEntries_prim hp h.prims] at hsafe ⊢
        by_cases hlast : s.pNo < 3
        · rw [if_pos hlast] at hsafe ⊢
          obtain ⟨hrest, hinside⟩ := ih (h.addPrim p hlast) hsafe
          exact ⟨.prim hp hlast hrest, hinside⟩
        · have hthree : s.pNo = 3 := by have := h.prims; omega
          rw [if_neg hlast]
          exact ⟨.fourth hp hthree, nofun⟩
      · by_cases hroom : s.lNo < 8
        · rw [scanEntries_logic hp hlba hroom] at hsafe ⊢
          by_cases hlast : s.lNo < 7
          · rw [if_pos hlast] at hsafe ⊢
            obtain ⟨hrest, hinside⟩ := ih (h.addLogic lba p hroom) hsafe
            exact ⟨.logic hp hlba hlast hrest, hinside⟩
          · have hseven : s.lNo = 7 := by omega
            have hmet : (s.addLogic lba p hroom).met = { s.met with logics := 8 } := by
              change (⟨s.extLbaBase, s.pNo, s.lNo + 1⟩ : Met) = ⟨s.extLbaBase, s.pNo, 8⟩
              rw [hseven]
            rw [if_neg hlast, outcome, hmet]
            exact ⟨.eighth hp hlba hseven, fun s' hs' => Except.ok.inj hs' ▸ h.addLogic lba p hroom⟩
        · rw [scanEntries_outside hp hlba hroom] at hsafe
          exact absurd rfl hsafe.2

theorem partitionScan_in (depth : Nat) (h : Inside disk s) (hin : lba.toNat ≤ max_lba) :
    partitionScan (depth + 1) lba s =
      scanEntries (partitionScan depth) lba (table disk lba) s := by
  rw [partitionScan, h.bytes, ideRead_one hin]
  rfl

theorem partitionScan_far (depth : Nat) (s : Scan) (hout : ¬ lba.toNat ≤ max_lba) :
    partitionScan (depth + 1) lba s = .error .panic := by
  rw [partitionScan, ideRead, ASSERT_false hout]
  rfl

theorem walks_partitionScan (disk : Bytes) (depth : Nat) :
    Walks disk (partitionScan depth) := by
  induction depth with
  | zero => exact ⟨fun _ _ _ => ⟨_, rfl⟩, fun _ _ _ _ h => absurd rfl h.1, fun _ _ _ _ => nofun⟩
  | succ depth ih =>
    refine ⟨fun lba s hout => ⟨_, partitionScan_far depth s hout⟩, fun lba s h hin hsafe => ?_,
      fun lba s s' h hs' => ?_⟩
    · rw [partitionScan_in depth h hin] at hsafe ⊢
      exact (ih.entries lba _ h hsafe).1
    · by_cases hin : lba.toNat ≤ max_lba
      · rw [partitionScan_in depth h hin] at hs'
        exact (ih.entries lba _ h (hs' ▸ ⟨nofun, nofun⟩)).2 s' hs'
      · rw [partitionScan_far depth s hin] at hs'
        cases hs'

/-- How a scan ends whose walk is known. -/
inductive Ends (disk : Bytes) : Except Fault Scan → Option Met → Prop
  | returns {s : Scan} (h : Inside disk s) : Ends disk (.ok s) (some s.met)
  | panics : Ends disk (.error .panic) none

theorem Ends.safe {r : Except Fault Scan} {out : Option Met} (h : Ends disk r out) : Safe r := by
  cases h with
  | returns => exact ⟨nofun, nofun⟩
  | panics => exact ⟨nofun, nofun⟩

/-- To some depth the code does what the walk says. The induction is on the walk. -/
theorem Walk.scans {entries : List PartitionTableEntry} {met : Met} {out : Option Met}
    (h : Walk disk lba entries met out) (hs : Inside disk s) (hmet : s.met = met) :
    ∃ depth r, Ends disk r out ∧
      ∀ d, depth ≤ d → scanEntries (partitionScan d) lba entries s = r := by
  induction h generalizing s with
  | done =>
    subst hmet
    exact ⟨0, .ok s, .returns hs, fun _ _ => rfl⟩
  | empty hp _ ih =>
    obtain ⟨depth, r, hr, hrun⟩ := ih hs hmet
    exact ⟨depth, r, hr, fun d hd => (scanEntries_empty hp).trans (hrun d hd)⟩
  | @prim p _ _ _ hp hlast _ ih =>
    subst hmet
    obtain ⟨depth, r, hr, hrun⟩ := ih (hs.addPrim p hlast) rfl
    refine ⟨depth, r, hr, fun d hd => ?_⟩
    rw [scanEntries_prim hp hs.prims, if_pos (show s.pNo < 3 from hlast), hrun d hd]
  | fourth hp hthree =>
    subst hmet
    refine ⟨0, _, .panics, fun d _ => ?_⟩
    rw [scanEntries_prim hp hs.prims, if_neg (show ¬ s.pNo < 3 from hthree.not_lt)]
  | @logic lba p _ _ _ hp hlba hlast _ ih =>
    subst hmet
    have hroom : s.lNo < 8 := Nat.lt_succ_of_lt hlast
    obtain ⟨depth, r, hr, hrun⟩ := ih (hs.addLogic lba p hroom) rfl
    refine ⟨depth, r, hr, fun d hd => ?_⟩
    rw [scanEntries_logic hp hlba hroom, if_pos (show s.lNo < 7 from hlast), hrun d hd]
  | @eighth lba p _ _ hp hlba hseven =>
    subst hmet
    replace hseven : s.lNo = 7 := hseven
    have hroom : s.lNo < 8 := by omega
    have hmet : (s.addLogic lba p hroom).met = { s.met with logics := 8 } := by
      change (⟨s.extLbaBase, s.pNo, s.lNo + 1⟩ : Met) = ⟨s.extLbaBase, s.pNo, 8⟩
      rw [hseven]
    have hends : Ends disk (.ok (s.addLogic lba p hroom)) (some { s.met with logics := 8 }) := by
      rw [← hmet]
      exact .returns (hs.addLogic lba p hroom)
    refine ⟨0, _, hends, fun d _ => ?_⟩
    rw [scanEntries_logic hp hlba hroom, if_neg (by omega)]
  | @link lba p rest _ _ _ hp hin _ _ ih ih' =>
    subst hmet
    obtain ⟨depth, r, hr, hrun⟩ := ih (hs.follow p) (s.follow_met p)
    cases hr with
    | @returns s₁ hs₁ =>
      obtain ⟨depth', r', hr', hrun'⟩ := ih' hs₁ rfl
      refine ⟨max (depth + 1) depth', r', hr', fun d hd => ?_⟩
      obtain ⟨d, rfl⟩ : ∃ e, d = e + 1 := ⟨d - 1, by omega⟩
      rw [scanEntries_link hp, partitionScan_in d (hs.follow p) hin, hrun d (by omega), ok_bind,
        hrun' _ (by omega)]
  | @stops lba p _ _ hp hin _ ih =>
    subst hmet
    obtain ⟨depth, r, hr, hrun⟩ := ih (hs.follow p) (s.follow_met p)
    cases hr with
    | panics =>
      refine ⟨depth + 1, _, .panics, fun d hd => ?_⟩
      obtain ⟨d, rfl⟩ : ∃ e, d = e + 1 := ⟨d - 1, by omega⟩
      rw [scanEntries_link hp, partitionScan_in d (hs.follow p) hin, hrun d (by omega)]
      rfl
  | @far lba p _ _ hp hout =>
    subst hmet
    refine ⟨1, _, .panics, fun d hd => ?_⟩
    obtain ⟨d, rfl⟩ : ∃ e, d = e + 1 := ⟨d - 1, by omega⟩
    rw [scanEntries_link hp, partitionScan_far d (s.follow p) hout]
    rfl

/-- The state in which a disk is scanned. -/
def Scan.begin (no : Nat) (hd : Disk) (extLbaBase : UInt32) (list : List (Nat × PartPtr)) : Scan :=
  ⟨no, hd, extLbaBase, 0, 0, list⟩

/-- The scan of a disk comes to its end and stores inside the arrays just when its walk does. -/
theorem partitionScan_safe_iff (no : Nat) (hd : Disk) (base : UInt32)
    (list : List (Nat × PartPtr)) :
    (∃ depth, Safe (partitionScan depth 0 (.begin no hd base list))) ↔
      ∃ out, Walk hd.bytes 0 (table hd.bytes 0) ⟨base, 0, 0⟩ out := by
  have hinside : Inside hd.bytes (.begin no hd base list) :=
    ⟨rfl, show 0 < 4 by decide, show 0 ≤ 8 by decide⟩
  have hin : (0 : UInt32).toNat ≤ max_lba := Nat.zero_le _
  constructor
  · rintro ⟨depth, hsafe⟩
    exact ⟨_, (walks_partitionScan hd.bytes depth).walk 0 _ hinside hin hsafe⟩
  · rintro ⟨out, hwalk⟩
    obtain ⟨depth, r, hr, hrun⟩ := hwalk.scans hinside rfl
    refine ⟨depth + 1, ?_⟩
    rw [partitionScan_in depth hinside hin, hrun depth le_rfl]
    exact hr.safe

/-! ## Disks by their tables -/

/-- The disk with these tables in its sectors. -/
def image (tables : Nat → Nat → PartitionTableEntry) : Bytes := fun a =>
  let off := a % 512
  if off < 446 then 0
  else
    let p := tables (a / 512) ((off - 446) / 16)
    let i := (off - 446) % 16
    if i = 4 then p.fsType
    else if 8 ≤ i ∧ i < 12 then wordByte p.startLba (i - 8)
    else if 12 ≤ i then wordByte p.secCnt (i - 12)
    else 0

variable {tables : Nat → Nat → PartitionTableEntry}

theorem image_apply {n i k : Nat} (hi : i < 4) (hk : k < 16) :
    image tables (n * 512 + (446 + i * 16 + k)) =
      if k = 4 then (tables n i).fsType
      else if 8 ≤ k ∧ k < 12 then wordByte (tables n i).startLba (k - 8)
      else if 12 ≤ k then wordByte (tables n i).secCnt (k - 12) else 0 := by
  have hoff : (n * 512 + (446 + i * 16 + k)) % 512 = 446 + i * 16 + k := by omega
  have hn : (n * 512 + (446 + i * 16 + k)) / 512 = n := by omega
  have hidx : (446 + i * 16 + k - 446) / 16 = i := by omega
  have hbyte : (446 + i * 16 + k - 446) % 16 = k := by omega
  simp only [image, hoff, hn, hidx, hbyte, if_neg (show ¬ 446 + i * 16 + k < 446 by omega)]

theorem tableEntry_image (n : Nat) {i : Nat} (hi : i < 4) :
    tableEntry (blit (fun _ => 0) 0 (image tables) (n * 512) 512) i = tables n i := by
  have hread : ∀ k < 16, blit (fun _ => 0) 0 (image tables) (n * 512) 512 (446 + i * 16 + k) =
      image tables (n * 512 + (446 + i * 16 + k)) := by
    intro k hk
    rw [blit_in (Nat.zero_le _) (by omega), Nat.sub_zero]
  have hstart : getWord (blit (fun _ => 0) 0 (image tables) (n * 512) 512) (446 + i * 16 + 8) =
      (tables n i).startLba := by
    apply getWord_wordByte
    intro j hj
    rw [Nat.add_assoc _ 8 j, hread (8 + j) (by omega), image_apply hi (by omega),
      if_neg (by omega), if_pos (by omega), Nat.add_sub_cancel_left]
  have hcnt : getWord (blit (fun _ => 0) 0 (image tables) (n * 512) 512) (446 + i * 16 + 12) =
      (tables n i).secCnt := by
    apply getWord_wordByte
    intro j hj
    rw [Nat.add_assoc _ 12 j, hread (12 + j) (by omega), image_apply hi (by omega),
      if_neg (by omega), if_neg (by omega), if_pos (by omega), Nat.add_sub_cancel_left]
  rw [tableEntry, hstart, hcnt, hread 4 (by decide), image_apply hi (by decide), if_pos rfl]

theorem table_image (tables : Nat → Nat → PartitionTableEntry) (lba : UInt32) :
    table (image tables) lba =
      [tables lba.toNat 0, tables lba.toNat 1, tables lba.toNat 2, tables lba.toNat 3] := by
  simp only [table, partitionTable, tableEntry_image _ (show 0 < 4 by decide),
    tableEntry_image _ (show 1 < 4 by decide), tableEntry_image _ (show 2 < 4 by decide),
    tableEntry_image _ (show 3 < 4 by decide)]

def noPartition : Partition :=
  { startLba := 0, secCnt := 0, name := [], sb := .ofBytes fun _ => 0
    blockBitmap := ⟨0, fun _ => 0⟩, inodeBitmap := ⟨0, fun _ => 0⟩, openInodes := [] }

/-- The disk `sdb` before its scan. -/
def newDisk (tables : Nat → Nat → PartitionTableEntry) : Disk :=
  ⟨[115, 100, 98], fun _ => noPartition, fun _ => noPartition, image tables⟩

/-- The boot sector of an extended partition at sector 1 that links to itself. -/
def loopTables (n i : Nat) : PartitionTableEntry :=
  if i ≠ 0 then ⟨0, 0, 0⟩
  else if n = 0 then ⟨0x5, 1, 100⟩
  else if n = 1 then ⟨0x5, 0, 100⟩
  else ⟨0, 0, 0⟩

/-- Nine logical partitions in the sectors from 1 on, the link standing before the partition. -/
def nineTables (n i : Nat) : PartitionTableEntry :=
  if n = 0 ∧ i = 0 then ⟨0x5, 1, 100⟩
  else if 1 ≤ n ∧ n < 9 ∧ i = 0 then ⟨0x5, UInt32.ofNat n, 1⟩
  else if 1 ≤ n ∧ n ≤ 9 ∧ i = 1 then ⟨0x83, 10, 1⟩
  else ⟨0, 0, 0⟩

theorem loop_stuck (depth : Nat) {s : Scan} (hs : Inside (image loopTables) s)
    (hbase : s.extLbaBase = 1) : partitionScan depth 1 s = .error .stuck := by
  induction depth generalizing s with
  | zero => rfl
  | succ depth ih =>
    have hin : (1 : UInt32).toNat ≤ max_lba := by decide
    have hlink : (loopTables 1 0).IsLink := rfl
    rw [partitionScan_in depth hs hin, table_image]
    change scanEntries _ _ (loopTables 1 0 :: _) s = _
    have hbase' : s.met.base ≠ 0 := fun h => absurd (hbase.symm.trans h) (by decide)
    have hto : s.met.link (loopTables 1 0) = 1 := by
      rw [Met.link, if_pos hbase']
      change 0 + s.extLbaBase = 1
      rw [hbase]
      rfl
    have hfollow : (s.follow (loopTables 1 0)).extLbaBase = 1 := by
      rw [Scan.follow, Met.follow, if_pos hbase']
      exact hbase
    rw [scanEntries_link hlink, hto, ih (hs.follow _) hfollow]
    rfl

/-- The one scan never ends, the other one stores to `logic_parts[8]`. -/
theorem partitionScan_unsafe :
    (¬ ∃ depth, Safe (partitionScan depth 0 (.begin 0 (newDisk loopTables) 0 []))) ∧
      partitionScan 11 0 (.begin 0 (newDisk nineTables) 0 []) = .error .outOfBounds := by
  refine ⟨fun ⟨depth, hsafe⟩ => ?_, rfl⟩
  have hs : Inside (image loopTables) (.begin 0 (newDisk loopTables) 0 []) :=
    ⟨rfl, show 0 < 4 by decide, show 0 ≤ 8 by decide⟩
  cases depth with
  | zero => exact hsafe.1 rfl
  | succ depth =>
    have hin : (0 : UInt32).toNat ≤ max_lba := by decide
    have hlink : (loopTables 0 0).IsLink := rfl
    rw [partitionScan_in depth hs hin, table_image] at hsafe
    change Safe (scanEntries _ _ (loopTables 0 0 :: _) _) at hsafe
    rw [scanEntries_link hlink] at hsafe
    exact hsafe.bind_left.1 (loop_stuck depth (hs.follow _) rfl)

end PartitionScan

end ZhuOS
