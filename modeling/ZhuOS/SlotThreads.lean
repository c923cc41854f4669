import ZhuOS.InodeThreads
import ZhuOS.Lib.Assignment
import ZhuOS.OpenFile

/-!
# `fs/file.c`: `file_open` and `file_create` by several threads

`file_open` picks a free entry of the file table before `inode_open`, which may sleep, and
takes it afterwards; `file_create` takes its entry before it sleeps. What goes on at the
disk meanwhile is left open: none of it changes the tables.
-/

namespace ZhuOS

/-- `file_open` from the end of the sleep on. -/
def fileOpenEnd (fs : Fs) (fdIdx : Nat) (flag : UInt8) (r : Reading) :
    Except Fault (Int × Fs) := do
  let (ref, fs) ← inodeOpenEnd fs r
  openEnd fs fdIdx ref flag

/-- With nobody in between, `file_open` is what comes before the sleep and what comes after. -/
theorem fileOpen_eq (fs : Fs) (inodeNo : Nat) (flag : UInt8) : fileOpen fs inodeNo flag =
    match getFreeSlotInGlobal fs.fileTable with
    | none => .ok (-1, fs)
    | some fdIdx =>
      match inodeFind fs inodeNo with
      | some (ref, fs) => openEnd fs fdIdx ref flag
      | none => inodeOpenBegin fs inodeNo >>= fun (r, fs) => fileOpenEnd fs fdIdx flag r := by
  unfold fileOpen
  cases getFreeSlotInGlobal fs.fileTable with
  | none => rfl
  | some fdIdx =>
    simp only [inodeOpen_eq]
    cases inodeFind fs inodeNo with
    | some found => rfl
    | none =>
      cases inodeOpenBegin fs inodeNo with
      | error e => rfl
      | ok begun => rfl

/-- Where a thread is. -/
inductive OpenPlace
  | outside
  /-- asleep in `inode_open`, called by `file_open` -/
  | opening (fdIdx : Nat) (flag : UInt8) (r : Reading)
  /-- behind the entry of the file table in `file_create` -/
  | creating (c : Creating)

/-- The entry of the file table a thread has picked. -/
def OpenPlace.slot : OpenPlace → Option Nat
  | .outside => none
  | .opening fdIdx _ _ => some fdIdx
  | .creating c => some c.fdIdx

/-- The `fd_table` of each thread stands in for the one in `fs`. -/
structure SlotWorld where
  fs : Fs
  fdTables : Nat → Nat → Option Nat
  place : Nat → OpenPlace

inductive SlotCall
  | open (t inodeNo : Nat) (flag : UInt8)
  /-- the thread's `ide_read` is done -/
  | wake (t : Nat)
  | create (t : Nat) (flag : UInt8)
  /-- `sync_dir_entry` and the transfers behind it are done -/
  | finish (t : Nat) (synced : Bool)
  | close (t fd : Nat)
  /-- what is not on the tables changes, by the transfers or by other calls -/
  | transfer (disk : ByteMem.Bytes) (part : Partition) (heap : Nat → Bool)

namespace SlotWorld

/-- The state as a thread sees it. -/
def load (w : SlotWorld) (t : Nat) : Fs := { w.fs with fdTable := w.fdTables t }

/-- The state a thread leaves. -/
def store (w : SlotWorld) (t : Nat) (fs : Fs) (p : OpenPlace) : SlotWorld where
  fs := fs
  fdTables := Function.update w.fdTables t fs.fdTable
  place := Function.update w.place t p

def guard (w : SlotWorld) : SlotCall → Prop
  | .open t _ _ | .create t _ => w.place t = .outside
  | .wake t => ∃ fdIdx flag r, w.place t = .opening fdIdx flag r
  | .finish t _ => ∃ c, w.place t = .creating c
  | .close t fd => w.place t = .outside ∧ 2 < fd
  | .transfer _ _ _ => True

def exec (w : SlotWorld) : SlotCall → Except Fault SlotWorld
  | .open t inodeNo flag =>
    match getFreeSlotInGlobal w.fs.fileTable with
    | none => .ok w
    | some fdIdx =>
      match inodeFind (w.load t) inodeNo with
      | some (ref, fs) => do
        let (_, fs) ← openEnd fs fdIdx ref flag
        return w.store t fs .outside
      | none => do
        let (r, fs) ← inodeOpenBegin (w.load t) inodeNo
        return w.store t fs (.opening fdIdx flag r)
  | .wake t =>
    match w.place t with
    | .opening fdIdx flag r => do
      let (_, fs) ← fileOpenEnd (w.load t) fdIdx flag r
      return w.store t fs .outside
    | _ => .ok w
  | .create t flag => do
    let (begun, fs) ← createBegin (w.load t) flag
    match begun with
    | none => return w.store t fs .outside
    | some c => return w.store t fs (.creating c)
  | .finish t synced =>
    match w.place t with
    | .creating c => .ok (w.store t (createEnd (w.load t) c synced).2 .outside)
    | _ => .ok w
  | .close t fd => do
    let (_, fs) ← sysClose (w.load t) fd
    return w.store t fs .outside
  | .transfer disk part heap => .ok { w with fs := { w.fs with disk, part, heap } }

def system : Guarded.System SlotWorld SlotCall Fault := ⟨guard, exec⟩

/-- Below the entry of every thread that sleeps in `file_open` another one is free. -/
def LowerFree (w : SlotWorld) : Prop :=
  ∀ u fdIdx flag r, w.place u = .opening fdIdx flag r →
    ∃ i, 3 ≤ i ∧ i < fdIdx ∧ (w.fs.fileTable i).fdInode = none

/-- Who picks an entry does not pick that of a thread asleep. -/
def PickElsewhere (w : SlotWorld) : SlotCall → Prop
  | .open _ _ _ | .create _ _ => w.LowerFree
  | _ => True

end SlotWorld

/-- No entry of the file table has two descriptors. -/
def OwnSlots (fdTables : Nat → Nat → Option Nat) : Prop :=
  ∀ t u fd fd' i, 3 ≤ fd → 3 ≤ fd' → fdTables t fd = some i → fdTables u fd' = some i →
    t = u ∧ fd = fd'

/-! ## Who has an entry -/

inductive SlotUser
  | fd (t fd : Nat)
  | call (t : Nat)
  deriving DecidableEq

def SlotWorld.slotOf (w : SlotWorld) : SlotUser → Option Nat
  | .fd t fd => if 3 ≤ fd then w.fdTables t fd else none
  | .call t => (w.place t).slot

/-- An entry is marked, or picked by a thread asleep. -/
inductive HeldSlot (w : SlotWorld) : SlotUser → Nat → Prop
  | marked {o : SlotUser} {i : Nat} (h : (w.fs.fileTable i).fdInode ≠ none) : HeldSlot w o i
  | asleep {t i : Nat} {flag : UInt8} {r : Reading} (h : w.place t = .opening i flag r) :
    HeldSlot w (.call t) i

structure SlotInv (w : SlotWorld) : Prop where
  distinct : Assignment.Distinct w.slotOf
  held : ∀ o i, w.slotOf o = some i → HeldSlot w o i

section
variable {w : SlotWorld} {t k s : Nat} {fs : Fs} {p : OpenPlace} {v : Option Nat}

theorem slotOf_store_call (u : Nat) : (w.store t fs p).slotOf (.call u) =
    Function.update w.slotOf (.call t) p.slot (.call u) := by
  change (Function.update w.place t p u).slot = _
  by_cases hu : u = t
  · subst hu
    rw [Function.update_self, Function.update_self]
  · rw [Function.update_of_ne hu, Function.update_of_ne (by simpa using hu)]
    rfl

/-- The thread moves, and its `fd_table` stays. -/
theorem slotOf_store (h : fs.fdTable = w.fdTables t) :
    (w.store t fs p).slotOf = Function.update w.slotOf (.call t) p.slot := by
  funext o
  cases o with
  | fd u j =>
    rw [Function.update_of_ne SlotUser.noConfusion]
    change (if 3 ≤ j then Function.update w.fdTables t fs.fdTable u j else none) = _
    rw [h, Function.update_eq_self]
    rfl
  | call u =>
    exact slotOf_store_call u

/-- One of its descriptors changes too. -/
theorem slotOf_store_put (h : fs.fdTable = Function.update (w.fdTables t) k v) (hk : 3 ≤ k) :
    (w.store t fs p).slotOf =
      Function.update (Function.update w.slotOf (.call t) p.slot) (.fd t k) v := by
  funext o
  cases o with
  | fd u j =>
    change (if 3 ≤ j then Function.update w.fdTables t fs.fdTable u j else none) = _
    by_cases hu : u = t
    · subst hu
      rw [Function.update_self, h]
      by_cases hj : j = k
      · subst hj
        rw [Function.update_self, Function.update_self, if_pos hk]
      · rw [Function.update_of_ne hj, Function.update_of_ne (by simpa using hj),
          Function.update_of_ne SlotUser.noConfusion]
        rfl
    · rw [Function.update_of_ne hu, Function.update_of_ne (by simp [hu]),
        Function.update_of_ne SlotUser.noConfusion]
      rfl
  | call u =>
    rw [Function.update_of_ne SlotUser.noConfusion]
    exact slotOf_store_call u

namespace SlotInv

/-- Another user's entry that stays as it was. -/
theorem kept (h : SlotInv w) {o : SlotUser} {i : Nat} (ho : w.slotOf o = some i)
    (hot : o ≠ .call t) (hfile : fs.fileTable i = w.fs.fileTable i) :
    HeldSlot (w.store t fs p) o i := by
  cases h.held o i ho with
  | marked hm =>
    apply HeldSlot.marked
    change (fs.fileTable i).fdInode ≠ none
    rw [hfile]
    exact hm
  | @asleep u _ flag r hu =>
    have hne : u ≠ t := fun he => hot (by rw [he])
    have hplace : (w.store t fs p).place u = .opening i flag r := by
      change Function.update w.place t p u = _
      rw [Function.update_of_ne hne, hu]
    exact .asleep hplace

/-- A thread outside has picked an entry nobody has, or none. -/
theorem picked (h : SlotInv w) (hfd : fs.fdTable = w.fdTables t)
    (hp : ∀ i, p.slot = some i →
      ¬ Assignment.Taken w.slotOf i ∧ HeldSlot (w.store t fs p) (.call t) i)
    (hfile : ∀ i, p.slot ≠ some i → fs.fileTable i = w.fs.fileTable i) :
    SlotInv (w.store t fs p) := by
  have hslot := slotOf_store (p := p) hfd
  constructor
  · rw [hslot]
    cases hs : p.slot with
    | none => exact h.distinct.release
    | some i => exact h.distinct.assign (hp i hs).1
  · intro o i ho
    rw [hslot] at ho
    by_cases hot : o = .call t
    · subst hot
      rw [Function.update_self] at ho
      exact (hp i ho).2
    · rw [Function.update_of_ne hot] at ho
      apply h.kept ho hot
      apply hfile
      intro hi
      exact (hp i hi).1 ⟨o, ho⟩

/-- A thread leaves with its entry in the file table, and a descriptor for it or none. -/
theorem landed (h : SlotInv w)
    (hs : ¬ Assignment.Taken (Function.update w.slotOf (.call t) none) s)
    (hfd : fs.fdTable = w.fdTables t ∨ ∃ k, 3 ≤ k ∧ w.fdTables t k = none ∧
      fs.fdTable = Function.update (w.fdTables t) k (some s))
    (hmark : (fs.fileTable s).fdInode ≠ none)
    (hfile : ∀ i, i ≠ s → fs.fileTable i = w.fs.fileTable i) : SlotInv (w.store t fs .outside) := by
  have hkept : ∀ o i, Function.update w.slotOf (.call t) none o = some i →
      HeldSlot (w.store t fs .outside) o i := by
    intro o i ho
    have hot : o ≠ .call t := by
      rintro rfl
      rw [Function.update_self] at ho
      cases ho
    have his : i ≠ s := by
      rintro rfl
      exact hs ⟨o, ho⟩
    rw [Function.update_of_ne hot] at ho
    exact h.kept ho hot (hfile i his)
  rcases hfd with hfd | ⟨k, hk, -, hfd⟩
  · have hslot := slotOf_store (p := .outside) hfd
    constructor
    · rw [hslot]
      exact h.distinct.release
    · intro o i ho
      rw [hslot] at ho
      exact hkept o i ho
  · have hslot := slotOf_store_put (p := .outside) hfd hk
    constructor
    · rw [hslot]
      exact h.distinct.release.assign hs
    · intro o i ho
      rw [hslot] at ho
      by_cases hot : o = .fd t k
      · subst hot
        rw [Function.update_self] at ho
        cases ho
        exact .marked hmark
      · rw [Function.update_of_ne hot] at ho
        exact hkept o i ho

/-- A thread gives its entry up, or a descriptor of it. -/
theorem dropped (h : SlotInv w) {o : SlotUser} (ho : w.slotOf o = some s)
    (hslot : ∀ o' i, (w.store t fs .outside).slotOf o' = some i →
      o' ≠ o ∧ o' ≠ .call t ∧ w.slotOf o' = some i)
    (hfile : ∀ i, i ≠ s → fs.fileTable i = w.fs.fileTable i) : SlotInv (w.store t fs .outside) := by
  constructor
  · intro a b i ha hb
    exact h.distinct a b i (hslot a i ha).2.2 (hslot b i hb).2.2
  · intro o' i ho'
    obtain ⟨hne, hot, hold⟩ := hslot o' i ho'
    apply h.kept hold hot
    apply hfile
    rintro rfl
    exact hne (h.distinct o' o i hold ho)

/-- Nobody has the entry that is picked next. -/
theorem untaken (h : SlotInv w) (hlow : w.LowerFree)
    (hs : getFreeSlotInGlobal w.fs.fileTable = some s) : ¬ Assignment.Taken w.slotOf s := by
  obtain ⟨-, -, hfree, hfirst⟩ := getFreeSlot_some hs
  rintro ⟨o, ho⟩
  cases h.held o s ho with
  | marked hm => exact hm hfree
  | asleep hu =>
    obtain ⟨i, hi, hlt, hnone⟩ := hlow _ _ _ _ hu
    exact hfirst i hi hlt hnone

theorem outside_call (hfree : w.place t = .outside) :
    Function.update w.slotOf (.call t) none = w.slotOf := by
  have hnone : w.slotOf (.call t) = none := by
    change (w.place t).slot = none
    rw [hfree]
    rfl
  rw [← hnone, Function.update_eq_self]

/-- `file_open` without a sleep. -/
theorem open_hit (h : SlotInv w) (hlow : w.LowerFree) (hplace : w.place t = .outside)
    (hs : getFreeSlotInGlobal w.fs.fileTable = some s) {n ref : Nat} {flag : UInt8} {r : Int}
    {fs' : Fs} (hf : inodeFind (w.load t) n = some (ref, fs))
    (he : openEnd fs s ref flag = .ok (r, fs')) : SlotInv (w.store t fs' .outside) := by
  have hopen : inodeOpen (w.load t) n = .ok (ref, fs) := by rw [inodeOpen_eq, hf]
  obtain ⟨hfile, hfd⟩ := inodeOpen_tables hopen
  obtain ⟨hfile', hfd'⟩ := openEnd_tables he
  rw [hfile] at hfile'
  rw [hfd] at hfd'
  apply h.landed (s := s)
  · rw [outside_call hplace]
    exact h.untaken hlow hs
  · rcases hfd' with ⟨-, hfd'⟩ | hinst
    · exact .inl hfd'
    · exact hinst.cases
  · rw [hfile', Function.update_self]
    exact Option.some_ne_none _
  · intro i hi
    rw [hfile', Function.update_of_ne hi]
    rfl

/-- `file_open` goes to sleep. -/
theorem open_miss (h : SlotInv w) (hlow : w.LowerFree)
    (hs : getFreeSlotInGlobal w.fs.fileTable = some s) {n : Nat} {flag : UInt8} {r : Reading}
    (hb : inodeOpenBegin (w.load t) n = .ok (r, fs)) :
    SlotInv (w.store t fs (.opening s flag r)) := by
  obtain ⟨pos, -, hb⟩ := bind_ok.mp hb
  cases hb
  apply h.picked
  · rfl
  · intro i hi
    cases hi
    exact ⟨h.untaken hlow hs, .asleep (Function.update_self ..)⟩
  · intro i _
    rfl

/-- What a thread inside has is nobody else's. -/
theorem own (h : SlotInv w) (hs : w.slotOf (.call t) = some s) :
    ¬ Assignment.Taken (Function.update w.slotOf (.call t) none) s := by
  rw [Assignment.taken_release h.distinct hs]
  rintro ⟨hne, -⟩
  exact hne rfl

/-- It wakes up and goes on. -/
theorem wake (h : SlotInv w) {flag : UInt8} {rd : Reading} {r : Int}
    (hplace : w.place t = .opening s flag rd)
    (he : fileOpenEnd (w.load t) s flag rd = .ok (r, fs)) : SlotInv (w.store t fs .outside) := by
  obtain ⟨⟨ref, fs₁⟩, hend, he⟩ := bind_ok.mp he
  have htables : fs₁.fileTable = w.fs.fileTable ∧ fs₁.fdTable = w.fdTables t := by
    obtain ⟨-, -, hend⟩ := bind_ok.mp hend
    obtain ⟨buf, -, hend⟩ := bind_ok.mp hend
    obtain ⟨-, -, hend⟩ := bind_ok.mp hend
    cases hend
    exact ⟨rfl, rfl⟩
  obtain ⟨hfile, hfd⟩ := openEnd_tables he
  rw [htables.1] at hfile
  rw [htables.2] at hfd
  apply h.landed (s := s)
  · apply h.own
    change (w.place t).slot = some s
    rw [hplace]
    rfl
  · rcases hfd with ⟨-, hfd⟩ | hinst
    · exact .inl hfd
    · exact hinst.cases
  · rw [hfile, Function.update_self]
    exact Option.some_ne_none _
  · intro i hi
    rw [hfile, Function.update_of_ne hi]

/-- `file_create` takes its entry at once. -/
theorem create (h : SlotInv w) (hlow : w.LowerFree) {flag : UInt8} {c : Creating}
    (hb : Begins (w.load t) flag (some c) fs) : SlotInv (w.store t fs (.creating c)) := by
  cases hb with
  | @marked n s heap hin hfree hs =>
    apply h.picked
    · rfl
    · intro i hi
      cases hi
      refine ⟨h.untaken hlow hs, .marked ?_⟩
      change (Function.update w.fs.fileTable s _ s).fdInode ≠ none
      rw [Function.update_self]
      exact Option.some_ne_none _
    · intro i hi
      change Function.update w.fs.fileTable s _ i = _
      rw [Function.update_of_ne]
      rintro rfl
      exact hi rfl

/-- It fails before. -/
theorem create_failed (h : SlotInv w) {flag : UInt8} (hb : Begins (w.load t) flag none fs) :
    SlotInv (w.store t fs .outside) := by
  cases hb with
  | failed heap =>
    apply h.picked
    · rfl
    · exact nofun
    · intro i _
      rfl

/-- The end of `file_create`: the descriptor, or the entry is free again. -/
theorem finish (h : SlotInv w) {c : Creating} (hplace : w.place t = .creating c) (synced : Bool) :
    SlotInv (w.store t (createEnd (w.load t) c synced).2 .outside) := by
  have hs : w.slotOf (.call t) = some c.fdIdx := by
    change (w.place t).slot = _
    rw [hplace]
    rfl
  rcases createEnd_tables (c := c) synced (w.load t) with ⟨-, hfile, hinst⟩ | ⟨-, hfile, hfd⟩
  · apply h.landed (h.own hs) hinst.cases
    · cases h.held _ _ hs with
      | marked hm =>
        rw [hfile]
        exact hm
      | asleep hu =>
        rw [hplace] at hu
        cases hu
    · intro i _
      rw [hfile]
      rfl
  · apply h.dropped hs
    · intro o i ho
      rw [slotOf_store hfd] at ho
      have hot : o ≠ .call t := by
        rintro rfl
        rw [Function.update_self] at ho
        cases ho
      rw [Function.update_of_ne hot] at ho
      exact ⟨hot, hot, ho⟩
    · intro i hi
      rw [hfile, Function.update_of_ne hi]
      rfl

/-- `sys_close`. -/
theorem close (h : SlotInv w) (hplace : w.place t = .outside) (hk : 2 < k) {r : Int}
    (hc : sysClose (w.load t) k = .ok (r, fs)) : SlotInv (w.store t fs .outside) := by
  obtain ⟨i, -, hi, -, hfile, hfd⟩ := sysClose_tables hc hk
  apply h.dropped (o := .fd t k) (s := i)
  · exact (if_pos hk).trans hi
  · intro o j ho
    have hcall : Function.update w.slotOf (.call t) none = w.slotOf := outside_call hplace
    rw [slotOf_store_put hfd hk, OpenPlace.slot, hcall] at ho
    have hne : o ≠ .fd t k := by
      rintro rfl
      rw [Function.update_self] at ho
      cases ho
    rw [Function.update_of_ne hne] at ho
    refine ⟨hne, ?_, ho⟩
    rintro rfl
    rw [← hcall, Function.update_self] at ho
    cases ho
  · intro j hj
    rw [hfile, Function.update_of_ne hj]
    rfl

theorem transfer (h : SlotInv w) (disk : ByteMem.Bytes) (part : Partition) (heap : Nat → Bool) :
    SlotInv { w with fs := { w.fs with disk, part, heap } } := by
  constructor
  · exact h.distinct
  · intro o i ho
    cases h.held o i ho with
    | marked hm => exact .marked hm
    | asleep hu => exact .asleep hu

theorem preserved : Guarded.Preserves (SlotWorld.system.only SlotWorld.PickElsewhere) SlotInv := by
  rintro w e w' h ⟨hg, hp⟩ he
  cases e with
  | «open» t n flag =>
    change w.exec (.open t n flag) = .ok w' at he
    cases hs : getFreeSlotInGlobal w.fs.fileTable with
    | none =>
      simp only [SlotWorld.exec, hs] at he
      cases he
      exact h
    | some s =>
      cases hf : inodeFind (w.load t) n with
      | some found =>
        simp only [SlotWorld.exec, hs, hf] at he
        obtain ⟨⟨r, fs⟩, hend, he⟩ := bind_ok.mp he
        cases he
        exact h.open_hit hp hg hs hf hend
      | none =>
        simp only [SlotWorld.exec, hs, hf] at he
        obtain ⟨⟨r, fs⟩, hb, he⟩ := bind_ok.mp he
        cases he
        exact h.open_miss hp hs hb
  | wake t =>
    obtain ⟨s, flag, r, hplace⟩ := hg
    change w.exec (.wake t) = .ok w' at he
    simp only [SlotWorld.exec, hplace] at he
    obtain ⟨⟨r, fs⟩, hend, he⟩ := bind_ok.mp he
    cases he
    exact h.wake hplace hend
  | create t flag =>
    obtain ⟨⟨begun, fs⟩, hb, he⟩ := bind_ok.mp he
    have hb := createBegin_ok hb
    cases begun with
    | none =>
      cases he
      exact h.create_failed hb
    | some c =>
      cases he
      exact h.create hp hb
  | finish t synced =>
    obtain ⟨c, hplace⟩ := hg
    change w.exec (.finish t synced) = .ok w' at he
    simp only [SlotWorld.exec, hplace] at he
    cases he
    exact h.finish hplace synced
  | close t fd =>
    obtain ⟨hplace, hfd⟩ := hg
    obtain ⟨⟨r, fs⟩, hc, he⟩ := bind_ok.mp he
    cases he
    exact h.close hplace hfd hc
  | transfer disk part heap =>
    cases he
    exact h.transfer disk part heap

theorem ownSlots (h : SlotInv w) : OwnSlots w.fdTables := by
  intro t u fd fd' i hfd hfd' ht hu
  have hsame := h.distinct (.fd t fd) (.fd u fd') i ((if_pos hfd).trans ht) ((if_pos hfd').trans hu)
  cases hsame
  exact ⟨rfl, rfl⟩

end SlotInv

end

/-- Every run in which nobody picks an entry for which another thread is asleep. -/
theorem slots_run {fs : Fs} {fdTables : Nat → Nat → Option Nat} (hown : OwnSlots fdTables)
    (hmark : ∀ t fd i, 3 ≤ fd → fdTables t fd = some i → (fs.fileTable i).fdInode ≠ none)
    {calls : List SlotCall} {w : SlotWorld}
    (hrun : Guarded.Run (SlotWorld.system.only SlotWorld.PickElsewhere)
      ⟨fs, fdTables, fun _ => .outside⟩ calls w) : OwnSlots w.fdTables := by
  have hfd : ∀ (o : SlotUser) (i : Nat), (SlotWorld.mk fs fdTables fun _ => .outside).slotOf o =
      some i → ∃ t fd, o = .fd t fd ∧ 3 ≤ fd ∧ fdTables t fd = some i := by
    intro o i ho
    cases o with
    | fd t fd =>
      by_cases hlo : 3 ≤ fd
      · exact ⟨t, fd, rfl, hlo, (if_pos hlo).symm.trans ho⟩
      · cases (if_neg hlo).symm.trans ho
    | call t => cases ho
  have hstart : SlotInv ⟨fs, fdTables, fun _ => .outside⟩ := by
    constructor
    · intro a b i ha hb
      obtain ⟨t, fd, rfl, hlo, ht⟩ := hfd a i ha
      obtain ⟨u, fd', rfl, hlo', hu⟩ := hfd b i hb
      obtain ⟨rfl, rfl⟩ := hown t u fd fd' i hlo hlo' ht hu
      rfl
    · intro o i ho
      obtain ⟨t, fd, rfl, hlo, ht⟩ := hfd o i ho
      exact .marked (hmark t fd i hlo ht)
  exact (hrun.preserved SlotInv.preserved hstart).ownSlots

/-- No file is open. -/
def closedSlots : SlotWorld := ⟨closedFs, fun _ _ => none, fun _ => .outside⟩

/-- One thread opens inode 0 and another after it. -/
theorem slots_run_after : ∃ w, Guarded.Run (SlotWorld.system.only SlotWorld.PickElsewhere)
    closedSlots [.open 1 0 O_RDONLY, .wake 1, .open 2 0 O_RDONLY] w ∧ OwnSlots w.fdTables := by
  have hidle : ∀ (p : OpenPlace) (u : Nat), Function.update (Function.update
      (fun _ => OpenPlace.outside) 1 p) 1 .outside u = .outside := by
    intro p u
    rw [Function.update_idem]
    exact congrFun (Function.update_eq_self 1 fun _ => OpenPlace.outside) u
  have hlow : ∀ w : SlotWorld, (∀ u, w.place u = .outside) → w.LowerFree := by
    intro w hout u fdIdx flag r hu
    rw [hout u] at hu
    cases hu
  have hrun : Guarded.Run (SlotWorld.system.only SlotWorld.PickElsewhere) closedSlots
      [.open 1 0 O_RDONLY, .wake 1, .open 2 0 O_RDONLY] _ :=
    .cons ⟨rfl, hlow _ fun _ => rfl⟩ rfl <|
    .cons ⟨⟨_, _, _, rfl⟩, trivial⟩ rfl <|
    .cons ⟨rfl, hlow _ (hidle _)⟩ rfl <| .nil _
  refine ⟨_, hrun, slots_run ?_ ?_ hrun⟩
  · intro t u fd fd' i _ _ ht
    cases ht
  · intro t fd i _ ht
    cases ht

/-- Both threads pick entry 3 before either has the inode. -/
theorem slots_run_both : ∃ w, Guarded.Run SlotWorld.system closedSlots
    [.open 1 0 O_RDONLY, .open 2 0 O_RDONLY, .wake 1, .wake 2] w ∧ ¬ OwnSlots w.fdTables := by
  have hrun : Guarded.Run SlotWorld.system closedSlots
      [.open 1 0 O_RDONLY, .open 2 0 O_RDONLY, .wake 1, .wake 2] _ :=
    .cons rfl rfl <| .cons rfl rfl <|
    .cons ⟨_, _, _, rfl⟩ rfl <| .cons ⟨_, _, _, rfl⟩ rfl <| .nil _
  refine ⟨_, hrun, ?_⟩
  intro h
  have hsame : 1 = 2 ∧ 3 = 3 := h 1 2 3 3 3 (by decide) (by decide) rfl rfl
  exact absurd hsame.1 (by decide)

end ZhuOS
