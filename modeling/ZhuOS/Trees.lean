import ZhuOS.DirNames
import ZhuOS.Search

/-!
# Directory trees on a disk

Every directory of a tree has blocks of its own, which the block bitmap marks, and a number
that the inode bitmap marks. What is written elsewhere leaves a directory as it was.
-/

namespace ZhuOS

open ByteMem

set_option maxRecDepth 2000

/-! ## The answer of a search -/

/-- Where a search ends that finds something: at the end of the path, or at the first regular
file on the way. -/
def Answers (fs : Fs) (comps : List (List UInt8)) (x : UInt32 × UInt32) : Prop :=
  ∃ front rest, comps = front ++ rest ∧
    walk fs.disk fs.part (0, FT_DIRECTORY) front = some x ∧ (rest = [] ∨ x.2 = FT_REGULAR)

variable {fs fs' : Fs} {dirs : Nat → Prop} {comps : List (List UInt8)} {x y : UInt32 × UInt32}

/-- Behind a regular file no way leads on. -/
theorem Answers.no_longer {front mid : List (List UInt8)} {n : UInt32}
    (hfile : walk fs.disk fs.part (0, FT_DIRECTORY) front = some (n, FT_REGULAR)) (hne : mid ≠ []) :
    walk fs.disk fs.part (0, FT_DIRECTORY) (front ++ mid) = none := by
  rw [walk_append, hfile]
  exact walk_file _ _ _ hne

theorem Answers.unique (hx : Answers fs comps x) (hy : Answers fs comps y) : x = y := by
  obtain ⟨front, rest, hsplit, hwalk, hend⟩ := hx
  obtain ⟨front', rest', hsplit', hwalk', hend'⟩ := hy
  obtain ⟨n, t⟩ := x
  obtain ⟨n', t'⟩ := y
  obtain ⟨mid, hfront, hrest⟩ | ⟨mid, hfront, hrest⟩ :=
    List.append_eq_append_iff.mp (hsplit.symm.trans hsplit')
  · by_cases hmid : mid = []
    · rw [hmid, List.append_nil] at hfront
      rw [hfront, hwalk] at hwalk'
      exact Option.some.inj hwalk'
    · obtain hnil | hfile := hend
      · rw [hnil] at hrest
        exact absurd (List.append_eq_nil_iff.mp hrest.symm).1 hmid
      · obtain rfl : t = FT_REGULAR := hfile
        rw [hfront, Answers.no_longer hwalk hmid] at hwalk'
        cases hwalk'
  · by_cases hmid : mid = []
    · rw [hmid, List.append_nil] at hfront
      rw [hfront, hwalk'] at hwalk
      exact (Option.some.inj hwalk).symm
    · obtain hnil | hfile := hend'
      · rw [hnil] at hrest
        exact absurd (List.append_eq_nil_iff.mp hrest.symm).1 hmid
      · obtain rfl : t' = FT_REGULAR := hfile
        rw [hfront, Answers.no_longer hwalk' hmid] at hwalk
        cases hwalk

/-- A search that finds something gives the answer. -/
theorem Stop.answers {last : UInt32} {r : UInt32 × PathSearchRecord × Fs}
    (h : Stop fs 0 last [] comps r) (hsome : comps ≠ []) (hfound : r.1 ≠ -1) :
    Answers fs comps (r.1, r.2.1.fileType) := by
  cases h with
  | missing front rest name p dir l nd hsplit hwalk hat hmiss => exact absurd rfl hfound
  | file front rest name p e dir l nd hsplit hwalk hat hlookup htype hsmall =>
    refine ⟨front ++ [name], rest, by rw [hsplit, List.append_assoc]; rfl, ?_, .inr rfl⟩
    rw [walk_snoc hwalk hlookup, htype]
  | directory p parent dir l nd hwalk hsmall hat =>
    rw [if_neg hsome]
    exact ⟨comps, [], by rw [List.append_nil], hwalk, .inl rfl⟩

/-- A search that misses a component has no answer to give. -/
theorem Stop.found {last : UInt32} {r : UInt32 × PathSearchRecord × Fs}
    (h : Stop fs 0 last [] comps r) (hsome : comps ≠ []) (hx : Answers fs comps x) : r.1 ≠ -1 := by
  cases h with
  | missing front rest name p dir l nd hsplit hwalk hat hmiss =>
    obtain ⟨front', rest', hsplit', hwalk', hend⟩ := hx
    have hmissing : MissingAt fs comps front name rest p := ⟨hsplit, hwalk, hmiss⟩
    by_cases hrest : rest' = []
    · rw [hrest, List.append_nil] at hsplit'
      rw [← hsplit', hmissing.walk_none] at hwalk'
      cases hwalk'
    · have hfile := hend.resolve_left hrest
      obtain ⟨n, t⟩ := x
      obtain rfl : t = FT_REGULAR := hfile
      exact absurd ⟨front', rest', n, hsplit ▸ hsplit', hrest, hwalk'⟩
        (missing_not_fileInside hwalk hmiss)
  | file front rest name p e dir l nd hsplit hwalk hat hlookup htype hsmall =>
    exact ne_minusOne hsmall
  | directory p parent dir l nd hwalk hsmall hat =>
    rw [if_neg hsome]
    exact ne_minusOne hsmall

/-- `search_file` gives the answer there is. -/
theorem searchFile_answers (ht : TreeOk fs dirs) (hheap : fs.heap = fun _ => true)
    {path : List UInt8} (hslash : path.head? = some slash) (hlen : path.length < MAX_PATH_LEN)
    (hshort : ∀ c ∈ components path, c.length < MAX_FILE_NAME_LEN)
    (hsome : components path ≠ [])
    (hother : ¬ (path = rootPath ∨ path = rootDotPath ∨ path = rootDotDotPath)) :
    ∃ r, searchFile fs path = .ok r ∧
      (r.1 ≠ -1 → Answers fs (components path) (r.1, r.2.1.fileType)) ∧
      ∀ x, Answers fs (components path) x → r.1 ≠ -1 ∧ (r.1, r.2.1.fileType) = x := by
  obtain ⟨r, hr, hstop⟩ := searchFile_stop ht hheap hslash hlen hshort hother
  refine ⟨r, hr, hstop.answers hsome, ?_⟩
  intro x hx
  have hfound := hstop.found hsome hx
  exact ⟨hfound, (hstop.answers hsome hfound).unique hx⟩

/-- A path that leads somewhere is found. -/
theorem searchFile_walk (ht : TreeOk fs dirs) (hheap : fs.heap = fun _ => true)
    {path : List UInt8} (hslash : path.head? = some slash) (hlen : path.length < MAX_PATH_LEN)
    (hshort : ∀ c ∈ components path, c.length < MAX_FILE_NAME_LEN)
    (hsome : components path ≠ [])
    (hwalk : walk fs.disk fs.part (0, FT_DIRECTORY) (components path) = some x) :
    ∃ r, searchFile fs path = .ok r ∧ r.1 = x.1 ∧ r.2.1.fileType = x.2 := by
  by_cases hknown : path = rootPath ∨ path = rootDotPath ∨ path = rootDotDotPath
  · refine ⟨_, if_pos hknown, ?_⟩
    rw [ht.known_walk hknown] at hwalk
    cases hwalk
    exact ⟨rfl, rfl⟩
  · obtain ⟨r, hr, -, hanswers⟩ := searchFile_answers ht hheap hslash hlen hshort hsome hknown
    obtain ⟨-, hsame⟩ := hanswers x ⟨_, [], by rw [List.append_nil], hwalk, .inl rfl⟩
    obtain ⟨hno, htype⟩ := Prod.mk.inj hsame
    exact ⟨r, hr, hno, htype⟩

/-! ## A tree with more in it -/

/-- Where a name led from a directory it leads still. -/
def StepsKept (fs fs' : Fs) (dirs : Nat → Prop) : Prop :=
  ∀ d : UInt32, dirs d.toNat → ∀ m, FileName m → ∀ x,
    walkStep fs.disk fs.part (d, FT_DIRECTORY) m = some x →
      walkStep fs'.disk fs'.part (d, FT_DIRECTORY) m = some x

/-- The induction is on the components; the way stays in the directories of the tree. -/
theorem StepsKept.walk (h : StepsKept fs fs' dirs) (ht : TreeOk fs dirs) {d : UInt32}
    (hd : dirs d.toNat) (hcomps : ∀ m ∈ comps, FileName m)
    (hwalk : walk fs.disk fs.part (d, FT_DIRECTORY) comps = some x) :
    ZhuOS.walk fs'.disk fs'.part (d, FT_DIRECTORY) comps = some x := by
  induction comps generalizing d with
  | nil =>
    rw [walk_nil] at hwalk ⊢
    exact hwalk
  | cons m comps ih =>
    rw [walk_cons, Option.bind_eq_some_iff] at hwalk ⊢
    obtain ⟨y, hstep, hwalk⟩ := hwalk
    refine ⟨y, h d hd m (hcomps m (.head _)) y hstep, ?_⟩
    rw [walkStep_dir, Option.map_eq_some_iff] at hstep
    obtain ⟨e, he, rfl⟩ := hstep
    obtain ⟨hmem, hname⟩ := lookup_mem he
    obtain ⟨-, hfile | ⟨hdir, hdirs⟩⟩ :=
      ht.listed _ hd e hmem (hname ▸ (hcomps m (.head _)).ne)
    · rw [hfile] at hwalk ⊢
      cases comps with
      | nil =>
        rw [walk_nil] at hwalk ⊢
        exact hwalk
      | cons c comps =>
        rw [walk_file _ _ _ (List.cons_ne_nil _ _)] at hwalk
        cases hwalk
    · rw [hdir] at hwalk ⊢
      exact ih hdirs (fun c hc => hcomps c (.tail _ hc)) hwalk

theorem StepsKept.answers (h : StepsKept fs fs' dirs) (ht : TreeOk fs dirs)
    (hcomps : ∀ m ∈ comps, FileName m) (hx : Answers fs comps x) : Answers fs' comps x := by
  obtain ⟨front, rest, hsplit, hwalk, hend⟩ := hx
  refine ⟨front, rest, hsplit, h.walk ht ht.root (fun m hm => ?_) hwalk, hend⟩
  exact hcomps m (hsplit ▸ List.mem_append_left _ hm)

/-- The way from a directory to a directory stays in the tree. -/
theorem TreeOk.leads (ht : TreeOk fs dirs) {d n : UInt32} (hd : dirs d.toNat)
    (hcomps : ∀ m ∈ comps, m ≠ [])
    (hwalk : ZhuOS.walk fs.disk fs.part (d, FT_DIRECTORY) comps = some (n, FT_DIRECTORY)) :
    dirs n.toNat := by
  induction comps generalizing d with
  | nil =>
    cases hwalk
    exact hd
  | cons m comps ih =>
    rw [walk_cons, Option.bind_eq_some_iff] at hwalk
    obtain ⟨y, hstep, hwalk⟩ := hwalk
    rw [walkStep_dir, Option.map_eq_some_iff] at hstep
    obtain ⟨e, he, rfl⟩ := hstep
    obtain ⟨hmem, hname⟩ := lookup_mem he
    obtain ⟨-, hfile | ⟨hdir, hdirs⟩⟩ := ht.listed _ hd e hmem (hname ▸ hcomps m (.head _))
    · rw [hfile] at hwalk
      cases comps with
      | nil => cases hwalk
      | cons c comps =>
        rw [walk_file _ _ _ (List.cons_ne_nil _ _)] at hwalk
        cases hwalk
    · rw [hdir] at hwalk
      exact ih hdirs (fun c hc => hcomps c (.tail _ hc)) hwalk

/-- Every byte of a component is one of the path. -/
theorem mem_of_component {path c : List UInt8} (hc : c ∈ components path) : ∀ b ∈ c, b ∈ path := by
  have hsplit : ∀ (path : List UInt8), ∀ c ∈ path.splitOn slash, ∀ b ∈ c, b ∈ path := by
    intro path
    induction path with
    | nil => simp
    | cons a path ih =>
      rw [List.splitOn_cons_eq_if_modifyHead]
      by_cases ha : a = slash
      · rw [if_pos (by simpa using ha)]
        intro c hc b hb
        obtain rfl | hc := List.mem_cons.mp hc
        · cases hb
        · exact .tail _ (ih c hc b hb)
      · rw [if_neg (by simpa using ha)]
        cases hs : path.splitOn slash with
        | nil => exact absurd hs (List.splitOn_ne_nil _ _)
        | cons d l =>
          rw [hs] at ih
          intro c hc b hb
          rw [List.modifyHead_cons, List.mem_cons] at hc
          obtain rfl | hc := hc
          · obtain rfl | hb := List.mem_cons.mp hb
            · exact .head _
            · exact .tail _ (ih d (.head _) b hb)
          · exact .tail _ (ih c (.tail _ hc) b hb)
  exact hsplit path c (List.mem_filter.mp hc).1

/-- The components of a C string are file names when they are short. -/
theorem component_fileName {path : List UInt8} (hstring : ∀ b ∈ path, b ≠ 0)
    (hshort : ∀ c ∈ components path, c.length < MAX_FILE_NAME_LEN) :
    ∀ c ∈ components path, FileName c :=
  fun c hc => ⟨mem_components hc, hshort c hc, fun b hb => hstring b (mem_of_component hc b hb)⟩

/-- An absolute path as a C string that fits, its components no longer than a name. -/
structure PathName (path : List UInt8) : Prop where
  absolute : path.head? = some slash
  fits : path.length < MAX_PATH_LEN
  string : ∀ b ∈ path, b ≠ 0
  short : ∀ c ∈ components path, c.length < MAX_FILE_NAME_LEN

theorem PathName.names {path : List UInt8} (h : PathName path) :
    ∀ c ∈ components path, FileName c := component_fileName h.string h.short

/-- The search for a path of which a component is missing stops there. -/
theorem MissingAt.searched (ht : TreeOk fs dirs) (hheap : fs.heap = fun _ => true)
    {path : List UInt8} (hpath : PathName path) {front rest : List (List UInt8)}
    {name : List UInt8} {p : UInt32} (hmiss : MissingAt fs (components path) front name rest p) :
    ∃ record fs₁, searchFile fs path = .ok (-1, record, fs₁) ∧
      Stop fs 0 (junkNo fs) [] (components path) (-1, record, fs₁) ∧
      StopsAt fs path front name rest p (-1, record, fs₁) := by
  have hsome : components path ≠ [] := by
    rw [hmiss.split]
    simp
  obtain ⟨⟨no, record, fs₁⟩, hsearch, hstop⟩ := searchFile_stop ht hheap hpath.absolute hpath.fits
    hpath.short (hmiss.not_known ht)
  have hminus := (hstop.missing_iff hsome).mpr ⟨_, _, _, _, hmiss⟩
  have hstops := hstop.stopsAt (fun c hc => (hpath.short c hc).le) hminus hmiss
  obtain rfl : no = -1 := hstops.result
  exact ⟨record, fs₁, hsearch, hstop, hstops⟩

/-- Every path that was found is found, and leads to the same file. -/
theorem StepsKept.resolves (h : StepsKept fs fs' dirs) (ht : TreeOk fs dirs) {dirs' : Nat → Prop}
    (ht' : TreeOk fs' dirs') (hheap : fs.heap = fun _ => true) (hheap' : fs'.heap = fun _ => true)
    {path : List UInt8} (hpath : PathName path) (hsome : components path ≠ [])
    {r : UInt32 × PathSearchRecord × Fs} (hr : searchFile fs path = .ok r) (hfound : r.1 ≠ -1) :
    ∃ r', searchFile fs' path = .ok r' ∧ r'.1 = r.1 ∧ r'.2.1.fileType = r.2.1.fileType := by
  by_cases hknown : path = rootPath ∨ path = rootDotPath ∨ path = rootDotDotPath
  · rw [searchFile, if_pos hknown] at hr
    cases hr
    exact ⟨_, if_pos hknown, rfl, rfl⟩
  · obtain ⟨r₁, hr₁, hanswers, -⟩ :=
      searchFile_answers ht hheap hpath.absolute hpath.fits hpath.short hsome hknown
    cases Except.ok.inj (hr.symm.trans hr₁)
    obtain ⟨r', hr', -, hanswers'⟩ :=
      searchFile_answers ht' hheap' hpath.absolute hpath.fits hpath.short hsome hknown
    have hkept := h.answers ht hpath.names (hanswers hfound)
    obtain ⟨-, hsame⟩ := hanswers' _ hkept
    obtain ⟨hno, htype⟩ := Prod.mk.inj hsame
    exact ⟨r', hr', hno, htype⟩

/-! ## A directory and what is written elsewhere -/

/-- `lba` is a block of the inode or its table. -/
def HasBlock (disk : Bytes) (nd : Inode) (lba : UInt32) : Prop :=
  lba ≠ 0 ∧ (lba = nd.iSectors 12 ∨ ∃ k < 140, blockAt disk nd k = lba)

/-- The same inode on a disk that has the same in its blocks. -/
structure Moved (disk : Bytes) (nd : Inode) (disk' : Bytes) (nd' : Inode) : Prop where
  sectors : ∀ k < 13, nd'.iSectors k = nd.iSectors k
  same : ∀ lba, HasBlock disk nd lba → Same disk' disk (lba.toNat * 512) 512

namespace Moved

variable {disk disk' disk'' : Bytes} {nd nd' nd'' : Inode} {part part' : Partition}

theorem blockAt (h : Moved disk nd disk' nd') : ZhuOS.blockAt disk' nd' = ZhuOS.blockAt disk nd :=
  blockAt_congr h.sectors fun ht => h.same _ ⟨ht, .inl rfl⟩

theorem entries (h : Moved disk nd disk' nd') : ZhuOS.entries disk' nd' = ZhuOS.entries disk nd :=
  entries_congr (fun k _ => congrFun h.blockAt k) fun k hk hne => h.same _ ⟨hne, .inr ⟨k, hk, rfl⟩⟩

theorem lookup (h : Moved disk nd disk' nd') (m : List UInt8) :
    ZhuOS.lookup disk' nd' m = ZhuOS.lookup disk nd m := by
  rw [ZhuOS.lookup, ZhuOS.lookup, h.entries]

theorem holds (h : Moved disk nd disk' nd') {lba : UInt32} :
    HasBlock disk' nd' lba ↔ HasBlock disk nd lba := by
  rw [HasBlock, HasBlock, h.blockAt, h.sectors 12 (by decide)]

theorem trans (h : Moved disk nd disk' nd') (h' : Moved disk' nd' disk'' nd'') :
    Moved disk nd disk'' nd'' where
  sectors k hk := (h'.sectors k hk).trans (h.sectors k hk)
  same lba hlba := (h'.same lba (h.holds.mpr hlba)).trans (h.same lba hlba)

theorem readable (h : Moved disk nd disk' nd') (hr : Readable disk nd) : Readable disk' nd' where
  table := h.sectors 12 (by decide) ▸ hr.table
  blocks := h.blockAt ▸ hr.blocks

theorem own (h : Moved disk nd disk' nd') (hkeeps : ∀ a, InUse part a → InUse part' a)
    (hown : OwnBlocks disk part nd) : OwnBlocks disk' part' nd' := by
  have hblocks := h.blockAt
  have h12 := h.sectors 12 (by decide)
  constructor
  · rw [hblocks]
    exact fun k hk hne => hkeeps _ (hown.inUse k hk hne)
  · rw [h12]
    exact fun hne => hkeeps _ (hown.table hne)
  · rw [hblocks]
    exact hown.apart
  · rw [hblocks, h12]
    exact hown.tableApart

theorem ok (h : Moved disk nd disk' nd') (hkeeps : ∀ a, InUse part a → InUse part' a)
    (hok : DirOk disk part nd) : DirOk disk' part' nd' where
  toOwnBlocks := h.own hkeeps hok.toOwnBlocks
  unnamed := h.entries ▸ hok.unnamed
  short := h.entries ▸ hok.short
  once := h.entries ▸ hok.once

theorem directFull (h : Moved disk nd disk' nd') {n : Nat} (hn : n ≤ 12) :
    DirectFull disk' nd' n ↔ DirectFull disk nd n := by
  unfold DirectFull SectorFull
  refine forall₂_congr fun k hk => ?_
  rw [h.sectors k (by omega)]
  refine and_congr_right fun hne => ?_
  rw [sectorEntries_congr (h.same _ ⟨hne, .inr ⟨k, by omega, blockAt_direct (by omega)⟩⟩)]

end Moved

/-- What a directory holds is in use. -/
theorem OwnBlocks.holds {disk : Bytes} {part : Partition} {nd : Inode}
    (hown : OwnBlocks disk part nd) {lba : UInt32} (h : HasBlock disk nd lba) : InUse part lba := by
  obtain ⟨hne, rfl | ⟨k, hk, rfl⟩⟩ := h
  · exact hown.table hne
  · exact hown.inUse k hk hne

/-! ## What an insertion leaves alone -/

variable {s s' : NodeState} {de : DirEntry}

/-- An insertion leaves the sectors that are in use alone, but for those of its directory. -/
theorem Inserted.same (hi : Inserted s de s') (hl : DiskLayout s.part) {a : UInt32}
    (ha : InUse s.part a) (hother : ¬ HasBlock s.disk s.inode a) :
    Same s'.disk s.disk (a.toNat * 512) 512 := by
  cases hi with
  | slot k j hk hj hne hbefore hfree =>
    apply slot_same hj
    rintro rfl
    exact hother ⟨hne, .inr ⟨k, by omega, blockAt_direct hk⟩⟩
  | block k lba disk part hk hz hbefore hc => exact hc.same hl ha _
  | table t lba disk disk' part part' hfull ht hc =>
    have hl' := ht.layout hl
    have ha' := ht.keeps ha
    have hclaims := ((hc.outside hl').same hl' ha'.toDataBlock).trans
      ((ht.outside hl).same hl ha.toDataBlock)
    exact (blit_same (sectors_apart (hc.ne ha'))).trans
      ((blit_same (sectors_apart (ht.ne ha))).trans hclaims)

theorem Inserted.keeps (hi : Inserted s de s') {a : UInt32} (ha : InUse s.part a) :
    InUse s'.part a := by
  cases hi with
  | slot => exact ha
  | block k lba disk part hk hz hbefore hc => exact hc.keeps ha
  | table t lba disk disk' part part' hfull ht hc => exact hc.keeps (ht.keeps ha)

/-- The partition but for the block bitmap. -/
theorem Inserted.only (hi : Inserted s de s') : BlocksOnly s.part s'.part := by
  have hclaim : ∀ {lba disk disk'} {part part' : Partition},
      Claimed disk part lba disk' part' → BlocksOnly part part' := by
    intro lba disk disk' part part' hc
    rw [hc.part_eq]
    rfl
  cases hi with
  | slot => exact rfl
  | block k lba disk part hk hz hbefore hc => exact hclaim hc
  | table t lba disk disk' part part' hfull ht hc => exact (hclaim ht).trans (hclaim hc)

/-- Before the data, the disks differ in the block bitmap alone. -/
def SameTables (part : Partition) (disk' disk : Bytes) : Prop :=
  ∀ a, part.sb.inodeBitmapLba.toNat * 512 ≤ a → a < part.sb.dataStartLba.toNat * 512 →
    disk' a = disk a

theorem OutsideBlockMap.tables {part : Partition} {disk disk' : Bytes}
    (h : OutsideBlockMap part disk' disk) : SameTables part disk' disk :=
  fun a hlo _ => h a (.inr hlo)

theorem SameTables.trans {part : Partition} {a b c : Bytes} (h : SameTables part a b)
    (h' : SameTables part b c) : SameTables part a c :=
  fun x hlo hhi => (h x hlo hhi).trans (h' x hlo hhi)

/-- What is written to a block of the data. -/
theorem sameTables_block {part : Partition} {lba : UInt32} (hd : DataBlock part lba)
    (disk src : Bytes) {off len : Nat} (hoff : lba.toNat * 512 ≤ off) :
    SameTables part (blit disk off src 0 len) disk := by
  intro a _ hhi
  have hstart := hd.start
  exact blit_out (by omega)

theorem Claimed.tables {part part' : Partition} {disk disk' : Bytes} {lba : UInt32}
    (hc : Claimed disk part lba disk' part') (hl : DiskLayout part) (src : Bytes) :
    SameTables part (blit disk' (lba.toNat * 512) src 0 512) disk :=
  (sameTables_block hc.block _ _ (Nat.le_refl _)).trans (hc.outside hl).tables

theorem Inserted.tables (hi : Inserted s de s') (hl : DiskLayout s.part)
    (hown : OwnBlocks s.disk s.part s.inode) : SameTables s.part s'.disk s.disk := by
  cases hi with
  | slot k j hk hj hne hbefore hfree =>
    have hused : InUse s.part (s.inode.iSectors k) :=
      hown.holds ⟨hne, .inr ⟨k, by omega, blockAt_direct hk⟩⟩
    exact sameTables_block hused.toDataBlock _ _ (by omega)
  | block k lba disk part hk hz hbefore hc => exact hc.tables hl _
  | table t lba disk disk' part part' hfull ht hc =>
    have hl' := ht.layout hl
    have hsb : part.sb = s.part.sb := ht.sb
    have hclaim : SameTables s.part disk' disk := by
      have := (hc.outside hl').tables
      unfold SameTables at this ⊢
      rwa [hsb] at this
    have hblock : DataBlock s.part lba := by
      refine ⟨hsb ▸ hc.block.start, hc.block.onDisk, ?_⟩
      have hmap := hc.block.inMap
      rw [ht.part_eq] at hmap
      exact hmap
    exact (sameTables_block hblock _ _ (Nat.le_refl _)).trans
      ((sameTables_block ht.block _ _ (Nat.le_refl _)).trans
        (hclaim.trans (ht.outside hl).tables))

/-- The records of the inode table are among the tables. -/
theorem SameTables.record {part : Partition} {disk disk' : Bytes} (h : SameTables part disk' disk)
    (hl : DiskLayout part) {n : Nat} (hn : n < 4096) :
    Same disk' disk (inodeAddr part n) SIZEOF_INODE := by
  have htable := hl.table
  have hmap := hl.inodeMap
  intro a hlo hhi
  unfold inodeAddr SIZEOF_INODE at hlo hhi
  exact h a (by omega) (by omega)

/-! ## Trees with consistent bitmaps -/

/-- A tree whose directories have blocks of their own, which are in use, and numbers below 256
that are marked. -/
structure DiskTree (fs : Fs) (dirs : Nat → Prop) : Prop extends TreeOk fs dirs where
  layout : DiskLayout fs.part
  low : ∀ n, dirs n → n < 256
  ok : ∀ n, dirs n → DirOk fs.disk fs.part (diskInode fs.disk fs.part n)
  apart : ∀ n m, dirs n → dirs m → n ≠ m → ∀ lba,
    HasBlock fs.disk (diskInode fs.disk fs.part n) lba →
      ¬ HasBlock fs.disk (diskInode fs.disk fs.part m) lba
  marked : ∀ n, dirs n → fs.part.inodeBitmap.bit n = true

end ZhuOS
