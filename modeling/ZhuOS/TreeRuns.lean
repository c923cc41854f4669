import ZhuOS.Lib.Guarded
import ZhuOS.NameCalls

/-!
# Runs of calls on a tree of names

With room for what comes a run of the calls never faults. Its answers and the names it leaves are
those of the run on the names alone, no number and no block is lost or used twice, and a file is
read back as it was saved.
-/

namespace ZhuOS

open ByteMem Slots

set_option maxRecDepth 2000

/-! ## One path for each number and each block -/

/-- The path that leads to the number `n`. -/
def LeadsTo (fs : Fs) (n : Nat) (ks : List (List UInt8)) : Prop :=
  ∃ x, NameTree.follow (childOf fs) (0, FT_DIRECTORY) ks = some x ∧ x.1.toNat = n

namespace TreeFs

variable {fs : Fs} {dirs files : Nat → Prop} {ks ks' : List (List UInt8)} {n i : Nat}
  (h : TreeFs fs dirs files)
include h

theorem leads_used (hks : LeadsTo fs n ks) : dirs n ∨ files n := by
  obtain ⟨x, hx, rfl⟩ := hks
  exact (h.rooted.inside hx).imp And.right And.right

theorem used_leads (hn : dirs n ∨ files n) : ∃ ks, LeadsTo fs n ks := by
  have hlow := (h.low n hn).1
  have hnat : (UInt32.ofNat n).toNat = n := UInt32.toNat_ofNat_of_lt' (hlow.trans (by decide))
  obtain ⟨t, hlisted⟩ : ∃ t, Listed dirs files (.ofNat n, t) := by
    obtain hdir | hfile := hn
    · exact ⟨FT_DIRECTORY, .inl ⟨rfl, hnat.symm ▸ hdir⟩⟩
    · exact ⟨FT_REGULAR, .inr ⟨rfl, hnat.symm ▸ hfile⟩⟩
  obtain ⟨ks, hks⟩ := h.reached _ hlisted
  exact ⟨ks, _, hks, hnat⟩

theorem leads_once (hks : LeadsTo fs n ks) (hks' : LeadsTo fs n ks') : ks = ks' := by
  obtain ⟨x, hx, hxn⟩ := hks
  obtain ⟨y, hy, hyn⟩ := hks'
  have hno : x.1 = y.1 := UInt32.toNat_inj.mp (hxn.trans hyn.symm)
  have htype : x.2 = y.2 := by
    obtain ⟨hxt, hxd⟩ | ⟨hxt, hxf⟩ := h.rooted.inside hx
    · obtain ⟨hyt, -⟩ | ⟨-, hyf⟩ := h.rooted.inside hy
      · rw [hxt, hyt]
      · exact absurd hyf (h.kinds _ (hno ▸ hxd))
    · obtain ⟨-, hyd⟩ | ⟨hyt, -⟩ := h.rooted.inside hy
      · exact absurd hxf (h.kinds _ (hno.symm ▸ hyd))
      · rw [hxt, hyt]
  obtain rfl : x = y := Prod.ext hno htype
  exact h.rooted.unique hx hy

theorem number_iff (hn : n < fs.part.inodeBitmap.size) :
    fs.part.inodeBitmap.bit n = true ↔ ∃! ks, LeadsTo fs n ks := by
  rw [h.numbers n hn]
  constructor
  · intro hused
    obtain ⟨ks, hks⟩ := h.used_leads hused
    exact ⟨ks, hks, fun ks' hks' => h.leads_once hks' hks⟩
  · rintro ⟨ks, hks, -⟩
    exact h.leads_used hks

end TreeFs

/-! ## Sessions -/

/-- A file system, and what the calls have answered so far. -/
structure Session where
  fs : Fs
  answers : List Answer

namespace Session

def exec (s : Session) (c : NameCall) : Except Fault Session := do
  let (r, fs) ← c.run s.fs
  return ⟨fs, s.answers ++ [r]⟩

/-- The calls come when there is room for what they make. -/
def system : Guarded.System Session NameCall Fault := ⟨fun s c => c.Ready s.fs, exec⟩

/-- The names and the answers. -/
def view (s : Session) : NameMap × List Answer := (names s.fs, s.answers)

/-- A call on the names alone. -/
def onView (v : NameMap × List Answer) (c : NameCall) : NameMap × List Answer :=
  ((c.onNames v.1).2, v.2 ++ [(c.onNames v.1).1])

/-- The file system is a sound tree. -/
def Tree (s : Session) : Prop := ∃ dirs files, TreeFs s.fs dirs files

variable {s t : Session} {c : NameCall} {calls : List NameCall} {path : List UInt8}

theorem Tree.step (h : s.Tree) (hready : c.Ready s.fs) :
    ∃ t, s.exec c = .ok t ∧ t.Tree ∧ t.view = onView s.view c := by
  obtain ⟨dirs, files, htree⟩ := h
  obtain ⟨r, fs', dirs', files', hrun, htree', hnames⟩ := htree.does hready
  have hr : r = (c.onNames (names s.fs)).1 := congrArg Prod.fst hnames
  have hmap : names fs' = (c.onNames (names s.fs)).2 := congrArg Prod.snd hnames
  refine ⟨⟨fs', s.answers ++ [r]⟩, ?_, ⟨dirs', files', htree'⟩, ?_⟩
  · simp only [exec, hrun, ok_bind]
    rfl
  · rw [view, hmap, hr]
    rfl

theorem keeps_tree : Guarded.Keeps system Tree := by
  intro s c hs hready
  obtain ⟨t, hexec, ht, -⟩ := hs.step hready
  exact ⟨t, hexec, ht⟩

def beside : Session := ⟨mappedFs, []⟩

def besideCalls : List NameCall := [.save pathAC [(fun _ => 7, 3)], .stat pathAC]

theorem follow_mapped {ks : List (List UInt8)} {x : UInt32 × UInt32}
    (hks : ∀ k ∈ ks, k ≠ [] ∧ k ≠ dot ∧ k ≠ dotDot)
    (hwalk : walk mappedFs.disk mappedFs.part (0, FT_DIRECTORY) ks = some x) :
    NameTree.follow (childOf mappedFs) (0, FT_DIRECTORY) ks = some x := by
  rw [← walk_follow (fun k hk => (hks k hk).1) fun k hk => (hks k hk).2]
  exact hwalk

theorem mappedFs_tree : TreeFs mappedFs (fun n => n < 3) fun _ => False where
  toSoundFs := mappedFs_sound
  room := ⟨mappedFs_room.slot, mappedFs_room.descriptor⟩
  reached x hx := by
    obtain ⟨htype, hlow⟩ := hx.resolve_right fun hfile => hfile.2
    obtain ⟨p, t⟩ := x
    obtain rfl : t = FT_DIRECTORY := htype
    have hcases : p = 0 ∨ p = 1 ∨ p = 2 := by
      have hlow : p.toNat < 3 := hlow
      simp only [← UInt32.toNat_inj]
      have h0 : (0 : UInt32).toNat = 0 := rfl
      have h1 : (1 : UInt32).toNat = 1 := rfl
      have h2 : (2 : UInt32).toNat = 2 := rfl
      omega
    obtain rfl | rfl | rfl := hcases
    · exact ⟨[], rfl⟩
    · exact ⟨[[97]], follow_mapped (by decide) mappedFs_missing.leads⟩
    · have hcheck : (lookup belowFs.disk (diskInode belowFs.disk belowFs.part 1) [98]).map
          (fun e => (e.iNo, e.fType)) = some (2, FT_DIRECTORY) := by
        decide +kernel
      obtain ⟨e, he, hx⟩ := Option.map_eq_some_iff.mp hcheck
      refine ⟨[[97]] ++ [[98]], follow_mapped (by decide) ?_⟩
      rw [← hx]
      refine walk_snoc mappedFs_missing.leads ?_
      have hone : (1 : UInt32).toNat = 1 := rfl
      rw [hone, mappedFs_inode, (mappedFs_moved (by decide)).lookup]
      exact he

theorem pathAC_plain : PlainPath pathAC where
  toPathName := pathAC_name
  some := by
    rw [components_pathAC]
    decide
  proper := by
    rw [components_pathAC]
    decide

theorem beside_names : names mappedFs [[97], [99]] = none ∧ names mappedFs [[97]] = some .dir := by
  have hsplit : components pathAC = [[97]] ++ [[99]] := components_pathAC
  have hmiss := (names_missing pathAC_plain hsplit).mp ⟨1, mappedFs_missing⟩
  rwa [components_pathAC] at hmiss

theorem beside_tree : beside.Tree := ⟨_, _, mappedFs_tree⟩

theorem beside_ready : (NameCall.save pathAC [(fun _ => 7, 3)]).Ready mappedFs := by
  refine ⟨pathAC_plain, by decide, ?_, fun front name p hmiss => ?_⟩
  · rw [components_pathAC]
    exact beside_names.2
  · obtain ⟨-, -, -, rfl⟩ := hmiss.unique mappedFs_missing
    refine ⟨mappedFs_room.number, fun hfull => ?_, by decide, ?_⟩
    · rw [mappedFs_inode] at hfull
      exact (hfull 1 (by decide)).1 belowFs_oneBlock
    · refine Finset.one_lt_card.mpr ⟨3, ?_, 4, ?_, by decide⟩
      · exact Bitmap.mem_free.mpr (by decide)
      · exact Bitmap.mem_free.mpr (by decide)

theorem beside_run : ∃ t, Guarded.Run system beside besideCalls t := by
  obtain ⟨t, hsave, ht, -⟩ := beside_tree.step beside_ready
  obtain ⟨u, hstat, -, -⟩ := ht.step (c := .stat pathAC) pathAC_plain
  exact ⟨u, .cons beside_ready hsave (.cons pathAC_plain hstat (.nil u))⟩

/-- In every state a run reaches, a number is marked when one path leads to it. -/
theorem run_numbers (h : s.Tree) (hrun : Guarded.Run system s calls t) {n : Nat}
    (hn : n < t.fs.part.inodeBitmap.size) :
    t.fs.part.inodeBitmap.bit n = true ↔ ∃! ks, LeadsTo t.fs n ks := by
  obtain ⟨dirs, files, htree⟩ := hrun.invariant keeps_tree h
  exact htree.number_iff hn

theorem run_numbers_beside : ∃ t, Guarded.Run system beside besideCalls t ∧
    (t.fs.part.inodeBitmap.bit 0 = true ↔ ∃! ks, LeadsTo t.fs 0 ks) := by
  obtain ⟨t, hrun⟩ := beside_run
  obtain ⟨dirs, files, htree⟩ := hrun.invariant keeps_tree beside_tree
  exact ⟨t, hrun, run_numbers beside_tree hrun (htree.low 0 (.inl htree.root)).2⟩

end Session

end ZhuOS
