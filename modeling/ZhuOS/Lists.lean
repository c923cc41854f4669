import ZhuOS.Lib.Chain
import ZhuOS.Threads
import Mathlib.Data.List.NodupEquivFin

/-!
# `lib/kernel/list.c`: doubly linked lists

The nodes lie inside the structures they link, all in one heap; a list is two sentinels,
`head` and behind it `tail`. `Lists` says which sequences the nodes of a heap hold, and
`Acts` what a call does to the sequences.
-/

namespace ZhuOS

open Chain

/-- All `list_elem`s, by address, and the interrupt status. -/
structure ListHeap where
  elem : UInt32 → Node UInt32
  intr : IntrStatus

/-- `&plist->head` -/
def listHead (plist : UInt32) : UInt32 := plist

/-- `&plist->tail`, behind the two pointers of `head` -/
def listTail (plist : UInt32) : UInt32 := plist + 8

namespace ListHeap

def listInit (h : ListHeap) (list : UInt32) : ListHeap :=
  let m := setPrev h.elem (listHead list) 0
  let m := setNext m (listHead list) (listTail list)
  let m := setPrev m (listTail list) (listHead list)
  let m := setNext m (listTail list) 0
  { h with elem := m }

def listInsertBefore (h : ListHeap) (before elem : UInt32) : ListHeap :=
  let oldStatus := h.intr
  let h := { h with intr := .INTR_OFF }
  let m := setNext h.elem (h.elem before).prev elem
  let m := setPrev m elem (m before).prev
  let m := setNext m elem before
  let m := setPrev m before elem
  { elem := m, intr := oldStatus }

def listPush (h : ListHeap) (plist elem : UInt32) : ListHeap :=
  h.listInsertBefore (h.elem (listHead plist)).next elem

def listAppend (h : ListHeap) (plist elem : UInt32) : ListHeap :=
  h.listInsertBefore (listTail plist) elem

def listRemove (h : ListHeap) (pelem : UInt32) : ListHeap :=
  let oldStatus := h.intr
  let h := { h with intr := .INTR_OFF }
  let m := setNext h.elem (h.elem pelem).prev (h.elem pelem).next
  let m := setPrev m (m pelem).next (m pelem).prev
  { elem := m, intr := oldStatus }

def listPop (h : ListHeap) (plist : UInt32) : UInt32 × ListHeap :=
  let elem := (h.elem (listHead plist)).next
  (elem, h.listRemove elem)

def listEmpty (h : ListHeap) (plist : UInt32) : Bool :=
  (h.elem (listHead plist)).next = listTail plist

/-- `while (elem != &plist->tail)`, from the first element on. The links stay as they are,
so that a loop that has gone on for as many rounds as there are addresses is never left. -/
def loop {ρ σ : Type} (h : ListHeap) (plist : UInt32) (body : UInt32 → σ → Except ρ σ) (s : σ) :
    Except Fault (Except ρ σ) :=
  match scan h.elem (listTail plist) body (2 ^ 32) (h.elem (listHead plist)).next s with
  | none => .error .stuck
  | some r => .ok r

def elemFind (h : ListHeap) (plist objElem : UInt32) : Except Fault Bool := do
  match ← h.loop plist (fun elem _ => if elem = objElem then .error true else .ok ()) () with
  | .error found => return found
  | .ok () => return false

/-- A round of `list_traversal`: where the callback says yes, the loop is left. -/
def visit {σ : Type} (func : UInt32 → Int32 → σ → Bool × σ) (arg : Int32) (elem : UInt32)
    (s : σ) : Except (UInt32 × σ) σ :=
  match func elem arg s with
  | (true, s) => .error (elem, s)
  | (false, s) => .ok s

/-- The callback sees `arg` and may change what is not a link: `σ`. -/
def listTraversal {σ : Type} (h : ListHeap) (plist : UInt32)
    (func : UInt32 → Int32 → σ → Bool × σ) (arg : Int32) (s : σ) :
    Except Fault (Option UInt32 × σ) :=
  if h.listEmpty plist then .ok (none, s)
  else do
    match ← h.loop plist (visit func arg) s with
    | .error (elem, s) => return (some elem, s)
    | .ok s => return (none, s)

def listLen (h : ListHeap) (plist : UInt32) : Except Fault UInt32 := do
  match ← h.loop (ρ := Empty) plist (fun _ length => .ok (length + 1)) 0 with
  | .ok length => return length

end ListHeap

/-! ## The sequences -/

/-- The lists there are, and the elements of each. -/
abbrev Seqs := UInt32 → Option (List UInt32)

/-- All nodes of a list, the sentinels among them. -/
def nodes (plist : UInt32) (xs : List UInt32) : List UInt32 :=
  listHead plist :: xs ++ [listTail plist]

/-- In no list. -/
def Seqs.Free (S : Seqs) (elem : UInt32) : Prop := ∀ p xs, S p = some xs → elem ∉ nodes p xs

def Seqs.set (S : Seqs) (p : UInt32) (xs : List UInt32) : Seqs := Function.update S p (some xs)

/-- The nodes hold these sequences. -/
structure Lists (h : ListHeap) (S : Seqs) : Prop where
  path : ∀ p xs, S p = some xs → Path h.elem (nodes p xs)
  ends : ∀ p xs, S p = some xs →
    (h.elem (listHead p)).prev = 0 ∧ (h.elem (listTail p)).next = 0
  apart : ∀ p xs q ys, S p = some xs → S q = some ys → p ≠ q →
    (nodes p xs).Disjoint (nodes q ys)

inductive ListCall
  | init (list : UInt32)
  | insertBefore (before elem : UInt32)
  | push (plist elem : UInt32)
  | append (plist elem : UInt32)
  | remove (pelem : UInt32)
  | pop (plist : UInt32)

/-- The element `list_pop` returns, and the heap. -/
def ListHeap.exec (h : ListHeap) : ListCall → Option UInt32 × ListHeap
  | .init list => (none, h.listInit list)
  | .insertBefore before elem => (none, h.listInsertBefore before elem)
  | .push plist elem => (none, h.listPush plist elem)
  | .append plist elem => (none, h.listAppend plist elem)
  | .remove pelem => (none, h.listRemove pelem)
  | .pop plist => let (elem, h) := h.listPop plist; (some elem, h)

/-- What a call does to list `p`: its elements before and after, and what is returned. -/
inductive Acts (S : Seqs) (p : UInt32) : ListCall → List UInt32 → Option UInt32 → Prop
  | push {xs : List UInt32} {elem : UInt32} (hp : S p = some xs) (he : S.Free elem) :
    Acts S p (.push p elem) (elem :: xs) none
  | append {xs : List UInt32} {elem : UInt32} (hp : S p = some xs) (he : S.Free elem) :
    Acts S p (.append p elem) (xs ++ [elem]) none
  | insertBefore {xs ys : List UInt32} {before elem : UInt32}
    (hp : S p = some (xs ++ before :: ys)) (he : S.Free elem) :
    Acts S p (.insertBefore before elem) (xs ++ elem :: before :: ys) none
  | remove {xs ys : List UInt32} {elem : UInt32} (hp : S p = some (xs ++ elem :: ys)) :
    Acts S p (.remove elem) (xs ++ ys) none
  | pop {elem : UInt32} {xs : List UInt32} (hp : S p = some (elem :: xs)) :
    Acts S p (.pop p) xs (some elem)
  | init (hh : S.Free (listHead p)) (ht : S.Free (listTail p)) : Acts S p (.init p) [] none

/-- The first element the callback says yes to; the callback sees no element behind it. -/
def firstHit {σ : Type} (func : UInt32 → Int32 → σ → Bool × σ) (arg : Int32) :
    List UInt32 → σ → Option UInt32 × σ
  | [], s => (none, s)
  | x :: xs, s =>
    match func x arg s with
    | (true, s) => (some x, s)
    | (false, s) => firstHit func arg xs s

/-- What the four functions that only look say of the list `xs`. -/
structure Looks (h : ListHeap) (p : UInt32) (xs : List UInt32) : Prop where
  find : ∀ objElem, h.elemFind p objElem = .ok (decide (objElem ∈ xs))
  traversal : ∀ {σ : Type} (func : UInt32 → Int32 → σ → Bool × σ) (arg : Int32) (s : σ),
    h.listTraversal p func arg s = .ok (firstHit func arg xs s)
  len : ∃ n, h.listLen p = .ok n ∧ n.toNat = xs.length
  empty : h.listEmpty p = xs.isEmpty

/-- The nodes of the other lists are untouched. -/
structure Elsewhere (S : Seqs) (p : UInt32) (h h' : ListHeap) : Prop where
  intr : h'.intr = h.intr
  elem : ∀ q ys, q ≠ p → S q = some ys → ∀ a ∈ nodes q ys, h'.elem a = h.elem a

/-! ## Changing one list -/

namespace ListHeap

variable (h : ListHeap)

theorem listInsertBefore_elem (before elem : UInt32) :
    (h.listInsertBefore before elem).elem =
      join (join h.elem (h.elem before).prev elem) elem before := by
  simp [listInsertBefore, join]

theorem listRemove_elem (pelem : UInt32) :
    (h.listRemove pelem).elem = join h.elem (h.elem pelem).prev (h.elem pelem).next := by
  simp [listRemove, join]

end ListHeap

theorem listHead_ne_listTail (p : UInt32) : listHead p ≠ listTail p := by
  intro he
  have hz : p + 0 = p + 8 := (UInt32.add_zero p).trans he
  exact absurd (UInt32.add_right_inj p |>.mp hz) (by decide)

/-- A list falls into two pieces behind any node but the tail. -/
theorem nodes_cut (p : UInt32) (xs : List UInt32) : ∃ l a, listHead p :: xs = l ++ [a] := by
  rcases List.eq_nil_or_concat' (listHead p :: xs) with hnil | ⟨l, a, hl⟩
  · cases hnil
  · exact ⟨l, a, hl⟩

theorem nodes_append {p a : UInt32} {xs l : List UInt32} (h : listHead p :: xs = l ++ [a])
    (ys : List UInt32) : nodes p (xs ++ ys) = l ++ a :: (ys ++ [listTail p]) := by
  rw [nodes, ← List.cons_append, h]
  simp

section
variable {h h' : ListHeap} {S : Seqs} {p : UInt32} {xs xs' ys : List UInt32}

theorem Lists.mem_head (p : UInt32) (xs : List UInt32) : listHead p ∈ nodes p xs :=
  List.mem_cons_self

theorem Lists.mem_tail (p : UInt32) (xs : List UInt32) : listTail p ∈ nodes p xs := by
  simp [nodes]

/-- A node of a list is in no other. -/
theorem Lists.own (hl : Lists h S) (hp : S p = some xs) {a : UInt32} (ha : a ∈ nodes p xs)
    {q : UInt32} (hq : q ≠ p) (hys : S q = some ys) : a ∉ nodes q ys :=
  fun hm => hl.apart p xs q ys hp hys (Ne.symm hq) ha hm

/-- What is left to check when list `p` is another. -/
theorem Lists.changed (hl : Lists h S) (hpath : Path h'.elem (nodes p xs'))
    (hends : (h'.elem (listHead p)).prev = 0 ∧ (h'.elem (listTail p)).next = 0)
    (hown : ∀ a ∈ nodes p xs', ∀ q ys, q ≠ p → S q = some ys → a ∉ nodes q ys)
    (helse : Elsewhere S p h h') : Lists h' (S.set p xs') := by
  have hset : ∀ q ys, S.set p xs' q = some ys → q = p ∧ ys = xs' ∨ q ≠ p ∧ S q = some ys := by
    intro q ys hq
    by_cases hqp : q = p
    · subst hqp
      rw [Seqs.set, Function.update_self] at hq
      exact .inl ⟨rfl, (Option.some.inj hq).symm⟩
    · rw [Seqs.set, Function.update_of_ne hqp] at hq
      exact .inr ⟨hqp, hq⟩
  constructor
  · intro q ys hq
    rcases hset q ys hq with ⟨rfl, rfl⟩ | ⟨hqp, hq⟩
    · exact hpath
    · exact (hl.path q ys hq).congr (helse.elem q ys hqp hq)
  · intro q ys hq
    rcases hset q ys hq with ⟨rfl, rfl⟩ | ⟨hqp, hq⟩
    · exact hends
    · rw [helse.elem q ys hqp hq _ (Lists.mem_head q ys),
        helse.elem q ys hqp hq _ (Lists.mem_tail q ys)]
      exact hl.ends q ys hq
  · intro q ys r zs hq hr hne
    rcases hset q ys hq with ⟨hqp, hqs⟩ | ⟨hqp, hqs⟩
    · rcases hset r zs hr with ⟨hrp, -⟩ | ⟨hrp, hrs⟩
      · exact absurd (hqp.trans hrp.symm) hne
      · subst hqp hqs
        exact fun a ha => hown a ha r zs hrp hrs
    · rcases hset r zs hr with ⟨hrp, hrs⟩ | ⟨hrp, hrs⟩
      · subst hrp hrs
        exact fun a ha ha' => hown a ha' q ys hqp hqs ha
      · exact hl.apart q ys r zs hqs hrs hne

/-- `list_insert_before`, before an element or the tail. -/
theorem Lists.insert (hl : Lists h S) (hp : S p = some (xs ++ ys)) {before elem : UInt32}
    {rest : List UInt32} (hb : ys ++ [listTail p] = before :: rest) (he : S.Free elem) :
    Lists (h.listInsertBefore before elem) (S.set p (xs ++ elem :: ys)) ∧
      Elsewhere S p h (h.listInsertBefore before elem) := by
  obtain ⟨l, a, hla⟩ := nodes_cut p xs
  have hold : nodes p (xs ++ ys) = l ++ a :: before :: rest := by
    rw [nodes_append hla, hb]
  have hnew : nodes p (xs ++ elem :: ys) = l ++ a :: elem :: before :: rest := by
    rw [nodes_append hla, List.cons_append, hb]
  have hpath := hold ▸ hl.path p _ hp
  have hfresh : elem ∉ l ++ a :: before :: rest := hold ▸ he p _ hp
  have hprev : (h.elem before).prev = a := hpath.neighbours.2
  have helem := h.listInsertBefore_elem before elem
  rw [hprev] at helem
  have ha : a ∈ nodes p (xs ++ ys) := by simp [hold]
  have hbefore : before ∈ nodes p (xs ++ ys) := by simp [hold]
  have helse : Elsewhere S p h (h.listInsertBefore before elem) := by
    constructor
    · rfl
    · intro q zs hq hzs c hc
      have hce : c ≠ elem := fun hce => he q zs hzs (hce ▸ hc)
      have hca : c ≠ a := fun hca => hl.own hp ha hq hzs (hca ▸ hc)
      have hcb : c ≠ before := fun hcb => hl.own hp hbefore hq hzs (hcb ▸ hc)
      rw [helem, join_other hce hcb, join_other hca hce]
  constructor
  · apply hl.changed _ _ _ helse
    · rw [hnew, helem]
      exact hpath.insert hfresh
    · have hsplit : (l ++ [a]).Disjoint (before :: rest) :=
        (Path.split (u := l ++ [a]) (by simpa using hpath)).2.2
      have hhead : listHead p ∈ l ++ [a] := hla ▸ List.mem_cons_self
      have htail : listTail p ∈ before :: rest := hb ▸ by simp
      have hhb : listHead p ≠ before := fun heq => hsplit hhead (heq ▸ List.mem_cons_self)
      have hta : listTail p ≠ a := fun heq => hsplit (heq ▸ by simp) htail
      have hhe : listHead p ≠ elem := fun heq => he p _ hp (heq ▸ Lists.mem_head p _)
      have hte : listTail p ≠ elem := fun heq => he p _ hp (heq ▸ Lists.mem_tail p _)
      rw [helem, join_prev, join_prev, join_next, join_next, if_neg hhb, if_neg hhe, if_neg hte,
        if_neg hta]
      exact hl.ends p _ hp
    · intro c hc q zs hq hzs
      by_cases hce : c = elem
      · exact hce ▸ he q zs hzs
      · apply hl.own hp _ hq hzs
        rw [hold]
        rw [hnew] at hc
        simp only [List.mem_append, List.mem_cons] at hc ⊢
        tauto
  · exact helse

/-- `list_remove` of any element. -/
theorem Lists.remove (hl : Lists h S) {elem : UInt32} (hp : S p = some (xs ++ elem :: ys)) :
    Lists (h.listRemove elem) (S.set p (xs ++ ys)) ∧ Elsewhere S p h (h.listRemove elem) := by
  obtain ⟨l, a, hla⟩ := nodes_cut p xs
  obtain ⟨b, rest, hb⟩ : ∃ b rest, ys ++ [listTail p] = b :: rest :=
    List.exists_cons_of_ne_nil (by simp)
  have hold : nodes p (xs ++ elem :: ys) = l ++ a :: elem :: b :: rest := by
    rw [nodes_append hla, List.cons_append, hb]
  have hnew : nodes p (xs ++ ys) = l ++ a :: b :: rest := by
    rw [nodes_append hla, hb]
  have hpath := hold ▸ hl.path p _ hp
  have hprev : (h.elem elem).prev = a := hpath.neighbours.2
  have hnext : (h.elem elem).next = b :=
    (Path.neighbours (u := l ++ [a]) (by simpa using hpath)).1
  have helem := h.listRemove_elem elem
  rw [hprev, hnext] at helem
  have ha : a ∈ nodes p (xs ++ elem :: ys) := by simp [hold]
  have hbm : b ∈ nodes p (xs ++ elem :: ys) := by simp [hold]
  have helse : Elsewhere S p h (h.listRemove elem) := by
    constructor
    · rfl
    · intro q zs hq hzs c hc
      have hca : c ≠ a := fun hca => hl.own hp ha hq hzs (hca ▸ hc)
      have hcb : c ≠ b := fun hcb => hl.own hp hbm hq hzs (hcb ▸ hc)
      rw [helem, join_other hca hcb]
  constructor
  · apply hl.changed _ _ _ helse
    · rw [hnew, helem]
      exact hpath.erase
    · have hsplit : (l ++ [a]).Disjoint (elem :: b :: rest) :=
        (Path.split (u := l ++ [a]) (by simpa using hpath)).2.2
      have hhead : listHead p ∈ l ++ [a] := hla ▸ List.mem_cons_self
      have htail : listTail p ∈ b :: rest := hb ▸ by simp
      have hhb : listHead p ≠ b := fun heq => hsplit hhead (heq ▸ by simp)
      have hta : listTail p ≠ a := fun heq =>
        hsplit (heq ▸ by simp) (List.mem_cons_of_mem elem htail)
      rw [helem, join_prev, join_next, if_neg hhb, if_neg hta]
      exact hl.ends p _ hp
    · intro c hc q zs hq hzs
      apply hl.own hp _ hq hzs
      rw [hold]
      rw [hnew] at hc
      simp only [List.mem_append, List.mem_cons] at hc ⊢
      tauto
  · exact helse

/-- `list_init` of a list whose sentinels are in no list. -/
theorem Lists.init (hl : Lists h S) (hh : S.Free (listHead p)) (ht : S.Free (listTail p)) :
    Lists (h.listInit p) (S.set p []) ∧ Elsewhere S p h (h.listInit p) := by
  have hne := listHead_ne_listTail p
  have helse : Elsewhere S p h (h.listInit p) := by
    constructor
    · rfl
    · intro q ys _ hys a ha
      have hah : a ≠ listHead p := fun he => hh q ys hys (he ▸ ha)
      have hat : a ≠ listTail p := fun he => ht q ys hys (he ▸ ha)
      simp only [ListHeap.listInit, setNext, setPrev, Function.update_of_ne hah,
        Function.update_of_ne hat]
  constructor
  · apply hl.changed _ _ _ helse
    · constructor
      · apply List.isChain_pair.mpr
        constructor
        · simp [ListHeap.listInit, hne]
        · simp [ListHeap.listInit]
      · simp [nodes, hne]
    · constructor
      · simp [ListHeap.listInit, hne]
      · simp [ListHeap.listInit]
    · intro a ha q ys _ hys
      rcases List.mem_pair.mp ha with rfl | rfl
      · exact hh q ys hys
      · exact ht q ys hys
  · exact helse

/-- Every call. -/
theorem Lists.exec (hl : Lists h S) {call : ListCall} {r : Option UInt32}
    (ha : Acts S p call xs r) : (h.exec call).1 = r ∧ Lists (h.exec call).2 (S.set p xs) ∧
      Elsewhere S p h (h.exec call).2 := by
  cases ha with
  | @push ys elem hp he =>
    obtain ⟨b, rest, hb⟩ : ∃ b rest, ys ++ [listTail p] = b :: rest :=
      List.exists_cons_of_ne_nil (by simp)
    have hpath := hl.path p _ hp
    rw [nodes, List.cons_append, hb] at hpath
    have hnext : (h.elem (listHead p)).next = b := (hpath.neighbours (u := [])).1
    rw [ListHeap.exec, ListHeap.listPush, hnext]
    have hp' : S p = some ([] ++ _) := hp
    exact ⟨rfl, hl.insert hp' hb he⟩
  | @append ys elem hp he =>
    rw [← List.append_nil ys] at hp
    exact ⟨rfl, hl.insert hp rfl he⟩
  | insertBefore hp he => exact ⟨rfl, hl.insert hp rfl he⟩
  | remove hp => exact ⟨rfl, hl.remove hp⟩
  | @pop elem _ hp =>
    have hnext : (h.elem (listHead p)).next = elem :=
      (Path.neighbours (u := []) (hl.path p _ hp)).1
    rw [ListHeap.exec, ListHeap.listPop, hnext]
    have hp' : S p = some ([] ++ _ :: _) := hp
    exact ⟨rfl, hl.remove hp'⟩
  | init hh ht => exact ⟨rfl, hl.init hh ht⟩

/-! ## Looking -/

/-- No more elements than addresses. -/
theorem Lists.length_lt (hl : Lists h S) (hp : S p = some xs) : xs.length < 2 ^ 32 := by
  have hnodup : ((nodes p xs).map UInt32.toNat).Nodup :=
    (hl.path p xs hp).nodup.map fun _ _ he => UInt32.toNat_inj.mp he
  have hsub : (nodes p xs).map UInt32.toNat ⊆ List.range (2 ^ 32) := by
    intro n hn
    obtain ⟨a, -, rfl⟩ := List.mem_map.mp hn
    exact List.mem_range.mpr a.toNat_lt
  have hle := (List.subperm_of_subset hnodup hsub).length_le
  rw [List.length_map, List.length_range] at hle
  have hlen : (nodes p xs).length = xs.length + 2 := by simp [nodes]
  omega

theorem Lists.loop_eq (hl : Lists h S) (hp : S p = some xs) {ρ σ : Type}
    (body : UInt32 → σ → Except ρ σ) (s : σ) :
    h.loop p body s = .ok (xs.foldlM (fun s a => body a s) s) := by
  rw [ListHeap.loop, scan_eq body (hl.path p xs hp) (hl.length_lt hp)]

theorem Lists.empty_eq (hl : Lists h S) (hp : S p = some xs) : h.listEmpty p = xs.isEmpty := by
  have hpath := hl.path p xs hp
  cases xs with
  | nil =>
    have hnext : (h.elem (listHead p)).next = listTail p := (hpath.neighbours (u := [])).1
    simp [ListHeap.listEmpty, hnext]
  | cons x xs =>
    have hnext : (h.elem (listHead p)).next = x := (Path.neighbours (u := []) hpath).1
    have hne : x ≠ listTail p := by
      rintro rfl
      exact (List.nodup_cons.mp (Path.split (u := [listHead p]) hpath).2.1.nodup).1 (by simp)
    simp [ListHeap.listEmpty, hnext, hne]

theorem Lists.find_eq (hl : Lists h S) (hp : S p = some xs) (objElem : UInt32) :
    h.elemFind p objElem = .ok (decide (objElem ∈ xs)) := by
  have hfold : ∀ ys : List UInt32,
      ys.foldlM (fun (_ : Unit) elem => if elem = objElem then Except.error true else .ok ()) () =
        if objElem ∈ ys then .error true else .ok () := by
    intro ys
    induction ys with
    | nil => rfl
    | cons y ys ih =>
      by_cases hy : y = objElem
      · simp [List.foldlM_cons, hy]
        rfl
      · rw [List.foldlM_cons, if_neg hy]
        simp only [List.mem_cons, Ne.symm hy, false_or]
        exact ih
  rw [ListHeap.elemFind, hl.loop_eq hp, hfold]
  by_cases hm : objElem ∈ xs
  · simp [hm]
    rfl
  · simp [hm]
    rfl

theorem Lists.len_eq (hl : Lists h S) (hp : S p = some xs) :
    ∃ n, h.listLen p = .ok n ∧ n.toNat = xs.length := by
  have hfold : ∀ (ys : List UInt32) (n : UInt32),
      ys.foldlM (fun length _ => (.ok (length + 1) : Except Empty UInt32)) n =
        .ok (n + .ofNat ys.length) := by
    intro ys
    induction ys with
    | nil =>
      intro n
      simp
      rfl
    | cons y ys ih =>
      intro n
      have hadd : n + 1 + UInt32.ofNat ys.length = n + UInt32.ofNat (ys.length + 1) := by
        rw [UInt32.ofNat_add, UInt32.add_assoc, UInt32.add_comm 1]
        rfl
      rw [List.foldlM_cons, List.length_cons, ← hadd]
      exact ih (n + 1)
  rw [ListHeap.listLen, hl.loop_eq hp, hfold]
  refine ⟨_, rfl, ?_⟩
  rw [UInt32.zero_add, UInt32.toNat_ofNat']
  exact Nat.mod_eq_of_lt (hl.length_lt hp)

theorem Lists.traversal_eq (hl : Lists h S) (hp : S p = some xs) {σ : Type}
    (func : UInt32 → Int32 → σ → Bool × σ) (arg : Int32) (s : σ) :
    h.listTraversal p func arg s = .ok (firstHit func arg xs s) := by
  have hfold : ∀ (ys : List UInt32) (s : σ),
      (match ys.foldlM (fun s elem => ListHeap.visit func arg elem s) s with
        | .error (elem, s) => (some elem, s)
        | .ok s => (none, s)) = firstHit func arg ys s := by
    intro ys
    induction ys with
    | nil => exact fun _ => rfl
    | cons y ys ih =>
      intro s
      rw [List.foldlM_cons, firstHit, ListHeap.visit]
      rcases func y arg s with ⟨hit, s'⟩
      cases hit with
      | true => rfl
      | false => exact ih s'
  rw [ListHeap.listTraversal, hl.empty_eq hp]
  cases xs with
  | nil => rfl
  | cons x xs =>
    rw [List.isEmpty_cons, if_neg Bool.false_ne_true, hl.loop_eq hp, ok_bind,
      ← hfold (x :: xs) s]
    cases (x :: xs).foldlM (fun s elem => ListHeap.visit func arg elem s) s with
    | error r => rfl
    | ok s => rfl

theorem Lists.looks (hl : Lists h S) (hp : S p = some xs) : Looks h p xs :=
  ⟨hl.find_eq hp, hl.traversal_eq hp, hl.len_eq hp, hl.empty_eq hp⟩

end

/-! ## Runs -/

/-- Calls, with what each returns, lead from the first sequences to the last. -/
inductive ActsAll : Seqs → List (ListCall × Option UInt32) → Seqs → Prop
  | nil (S : Seqs) : ActsAll S [] S
  | cons {S S' : Seqs} {p : UInt32} {call : ListCall} {xs : List UInt32} {r : Option UInt32}
    {calls : List (ListCall × Option UInt32)} :
    Acts S p call xs r → ActsAll (S.set p xs) calls S' → ActsAll S ((call, r) :: calls) S'

/-- What the calls return, and the heap behind the last. -/
def ListHeap.execAll (h : ListHeap) : List ListCall → List (Option UInt32) × ListHeap
  | [] => ([], h)
  | call :: calls =>
    let (r, h) := h.exec call
    let (rs, h) := h.execAll calls
    (r :: rs, h)

theorem Lists.run {h : ListHeap} {S S' : Seqs} {calls : List (ListCall × Option UInt32)}
    (hl : Lists h S) (ha : ActsAll S calls S') :
    (h.execAll (calls.map Prod.fst)).1 = calls.map Prod.snd ∧
      Lists (h.execAll (calls.map Prod.fst)).2 S' := by
  induction ha generalizing h with
  | nil => exact ⟨rfl, hl⟩
  | cons hact _ ih =>
    obtain ⟨hr, hl', -⟩ := hl.exec hact
    obtain ⟨hrs, hrest⟩ := ih hl'
    constructor
    · exact congrArg₂ _ hr hrs
    · exact hrest

/-- The calls do to the nodes what they do to the sequences. -/
theorem lists_refine {h : ListHeap} {S : Seqs} (hl : Lists h S) :
    (∀ p call xs r, Acts S p call xs r →
      (h.exec call).1 = r ∧ Lists (h.exec call).2 (S.set p xs) ∧ Elsewhere S p h (h.exec call).2) ∧
    ∀ p xs, S p = some xs → Looks h p xs := by
  constructor
  · intro p call xs r ha
    exact hl.exec ha
  · intro p xs hp
    exact hl.looks hp

/-- A heap without lists. -/
def noLists : ListHeap := ⟨fun _ => ⟨0, 0⟩, .INTR_OFF⟩

/-- One list, at `0x1000`. -/
def oneList (xs : List UInt32) : Seqs := Seqs.set (fun _ => none) 0x1000 xs

theorem oneList_set (xs ys : List UInt32) : (oneList xs).set 0x1000 ys = oneList ys :=
  Function.update_idem ..

theorem oneList_self (xs : List UInt32) : oneList xs 0x1000 = some xs := by
  rw [oneList, Seqs.set, Function.update_self]

theorem oneList_free {xs : List UInt32} {e : UInt32} (he : e ∉ nodes 0x1000 xs) :
    (oneList xs).Free e := by
  intro q ys hq
  by_cases hqp : q = 0x1000
  · subst hqp
    rw [oneList_self] at hq
    cases hq
    exact he
  · rw [oneList, Seqs.set, Function.update_of_ne hqp] at hq
    cases hq

/-- A list of two elements, made with one push and one append. -/
theorem lists_refine_two :
    Looks (noLists.execAll [.init 0x1000, .push 0x1000 0x2000, .append 0x1000 0x3000]).2 0x1000
      [0x2000, 0x3000] := by
  have hnone : Lists noLists fun _ => none := 
    ⟨fun _ _ hp => (nomatch hp), fun _ _ hp => (nomatch hp), fun _ _ _ _ hp => (nomatch hp)⟩
  have hacts : ActsAll (fun _ => none) [(.init 0x1000, none), (.push 0x1000 0x2000, none),
      (.append 0x1000 0x3000, none)] (oneList [0x2000, 0x3000]) := by
    have hno : ∀ e, Seqs.Free (fun _ => none) e := fun e p xs hp => nomatch hp
    have hpush : (oneList []).Free 0x2000 := oneList_free (by decide)
    have happend : (oneList [0x2000]).Free 0x3000 := oneList_free (by decide)
    apply ActsAll.cons (.init (hno _) (hno _))
    change ActsAll (oneList []) _ _
    apply ActsAll.cons (.push (oneList_self []) hpush)
    rw [oneList_set]
    apply ActsAll.cons (.append (oneList_self [0x2000]) happend)
    rw [oneList_set]
    exact .nil _
  exact (lists_refine (hnone.run hacts).2).2 0x1000 _ (oneList_self _)

end ZhuOS
