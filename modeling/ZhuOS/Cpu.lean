import ZhuOS.Lib.WordStack

/-!
# `kernel/kernel.S` and `thread/switch.S`: the instructions

The stacks in the kernel are aligned, so the memory is one of words. A register is a number: the
code computes with `esp` alone, which stays within a page. `call` ends a piece of code, and what the
function does is left to the run.
-/

namespace ZhuOS

open WordStack

namespace Context

inductive Reg
  | eax
  | ecx
  | edx
  | ebx
  | ebp
  | esi
  | edi
  deriving DecidableEq, Repr

inductive Seg
  | cs
  | ds
  | es
  | fs
  | gs
  | ss
  deriving DecidableEq, Repr

@[ext] structure Cpu where
  reg : Reg → Nat
  esp : Nat
  seg : Seg → Nat
  eip : Nat
  eflags : Nat
  mem : Nat → Nat

namespace Cpu

def setReg (c : Cpu) (r : Reg) (v : Nat) : Cpu := { c with reg := Function.update c.reg r v }

def setSeg (c : Cpu) (r : Seg) (v : Nat) : Cpu := { c with seg := Function.update c.seg r v }

def push (c : Cpu) (v : Nat) : Cpu :=
  { c with esp := c.esp - 4, mem := Function.update c.mem (c.esp - 4) v }

/-- The word that `pop` takes. -/
def top (c : Cpu) : Nat := c.mem c.esp

def drop (c : Cpu) (n : Nat) : Cpu := { c with esp := c.esp + n }

/-- The privilege level, 0 in the kernel. -/
def cpl (c : Cpu) : Nat := c.seg .cs % 4

end Cpu

inductive Instr
  | pushReg (r : Reg)
  | pushSeg (r : Seg)
  | pushImm (n : Nat)
  | popReg (r : Reg)
  | popSeg (r : Seg)
  | pushad
  | popad
  /-- `mov al, n` -/
  | movAl (n : Nat)
  /-- `out port, al` -/
  | outAl (port : Nat)
  /-- `add esp, n` -/
  | addEsp (n : Nat)
  /-- `mov r, [esp + n]` -/
  | loadStack (r : Reg) (n : Nat)
  /-- `mov [esp + n], r` -/
  | storeStack (n : Nat) (r : Reg)
  /-- `mov [r], esp` -/
  | saveEsp (r : Reg)
  /-- `mov esp, [r]` -/
  | loadEsp (r : Reg)
  | ret
  | iretd

open Instr in
def exec (c : Cpu) : Instr → Cpu
  | pushReg r => c.push (c.reg r)
  | pushSeg r => c.push (c.seg r)
  | pushImm n => c.push n
  | popReg r => (c.setReg r c.top).drop 4
  | popSeg r => (c.setSeg r c.top).drop 4
  | pushad =>
    let c' := (((c.push (c.reg .eax)).push (c.reg .ecx)).push (c.reg .edx)).push (c.reg .ebx)
    (((c'.push c.esp).push (c.reg .ebp)).push (c.reg .esi)).push (c.reg .edi)
  | popad =>
    let c := (c.setReg .edi c.top).drop 4
    let c := (c.setReg .esi c.top).drop 4
    let c := ((c.setReg .ebp c.top).drop 4).drop 4
    let c := (c.setReg .ebx c.top).drop 4
    let c := (c.setReg .edx c.top).drop 4
    let c := (c.setReg .ecx c.top).drop 4
    (c.setReg .eax c.top).drop 4
  | movAl n => c.setReg .eax (c.reg .eax - c.reg .eax % 256 + n)
  | outAl _ => c
  | addEsp n => c.drop n
  | loadStack r n => c.setReg r (c.mem (c.esp + n))
  | storeStack n r => { c with mem := Function.update c.mem (c.esp + n) (c.reg r) }
  | saveEsp r => { c with mem := Function.update c.mem (c.reg r) c.esp }
  | loadEsp r => { c with esp := c.mem (c.reg r) }
  | ret => { c with eip := c.top }.drop 4
  | iretd =>
    let level := c.cpl
    let c := { c with eip := c.top }.drop 4
    let c := (c.setSeg .cs c.top).drop 4
    let c := { c with eflags := c.top }.drop 4
    -- to an outer level it takes the stack pointer too
    if c.cpl = level then c else { c.setSeg .ss (c.mem (c.esp + 4)) with esp := c.top }

def run (c : Cpu) (code : List Instr) : Cpu := code.foldl exec c

/-! ## The code -/

open Instr in
/-- `switch_to(cur, next)` -/
def switchToCode : List Instr :=
  [pushReg .esi, pushReg .edi, pushReg .ebx, pushReg .ebp, loadStack .eax 20, saveEsp .eax,
    loadStack .eax 24, loadEsp .eax, popReg .ebp, popReg .ebx, popReg .edi, popReg .esi, ret]

open Instr in
/-- The registers, as every entry saves them. -/
def saveCode : List Instr := [pushSeg .ds, pushSeg .es, pushSeg .fs, pushSeg .gs, pushad]

open Instr in
/-- `VECTOR`, up to the call of the handler: `zero` where the processor pushes no error code. -/
def vectorCode (zero : Bool) (vec : Nat) : List Instr :=
  (if zero then [pushImm 0] else []) ++ saveCode ++
    [movAl 0x20, outAl 0xa0, outAl 0x20, pushImm vec]

open Instr in
def intrExitCode : List Instr :=
  [addEsp 4, popad, popSeg .gs, popSeg .fs, popSeg .es, popSeg .ds, addEsp 4, iretd]

open Instr in
/-- `syscall_handler`, up to `call [syscall_table + eax*4]` -/
def syscallCode : List Instr :=
  [pushImm 0] ++ saveCode ++ [pushImm 0x80, pushReg .edx, pushReg .ecx, pushReg .ebx]

open Instr in
/-- What follows the call. -/
def syscallReturnCode : List Instr := [addEsp 12, storeStack 32 .eax] ++ intrExitCode

/-! ## The processor's part of an interrupt -/

def SELECTOR_K_CODE : Nat := 8
def SELECTOR_K_STACK : Nat := 16

/-- An interrupt through a gate, with the error code if there is one: from an outer level the stack
is changed to that of the TSS. The gate turns interrupts off. -/
def interrupt (esp0 gate : Nat) (err : Option Nat) (c : Cpu) : Cpu :=
  let c' :=
    if c.cpl = 0 then c
    else (({ c.setSeg .ss SELECTOR_K_STACK with esp := esp0 }.push (c.seg .ss)).push c.esp)
  let c' := ((c'.push c.eflags).push (c.seg .cs)).push c.eip
  let c' := match err with
    | some code => c'.push code
    | none => c'
  { c'.setSeg .cs SELECTOR_K_CODE with
    eip := gate, eflags := c.eflags - c.eflags / 0x200 % 2 * 0x200 }

/-! ## What an interrupt saves -/

/-- `struct intr_stack` -/
structure IntrStack where
  vecNo : Nat
  edi : Nat
  esi : Nat
  ebp : Nat
  espDummy : Nat
  ebx : Nat
  edx : Nat
  ecx : Nat
  eax : Nat
  gs : Nat
  fs : Nat
  es : Nat
  ds : Nat
  errCode : Nat
  eip : Nat
  cs : Nat
  eflags : Nat
  esp : Nat
  ss : Nat

namespace IntrStack

/-- The words on the stack. From the kernel the processor pushes no `esp` and no `ss`. -/
def words (k : IntrStack) : List Nat :=
  [k.vecNo, k.edi, k.esi, k.ebp, k.espDummy, k.ebx, k.edx, k.ecx, k.eax, k.gs, k.fs, k.es, k.ds,
    k.errCode, k.eip, k.cs, k.eflags] ++ if k.cs % 4 = 0 then [] else [k.esp, k.ss]

theorem words_length (k : IntrStack) : k.words.length = if k.cs % 4 = 0 then 17 else 19 := by
  unfold words
  split <;> rfl

/-- The processor that goes on with what was saved. -/
def resume (k : IntrStack) (c : Cpu) : Cpu where
  reg := fun
    | .eax => k.eax
    | .ecx => k.ecx
    | .edx => k.edx
    | .ebx => k.ebx
    | .ebp => k.ebp
    | .esi => k.esi
    | .edi => k.edi
  esp := if k.cs % 4 = 0 then c.esp + 68 else k.esp
  seg := fun
    | .cs => k.cs
    | .ds => k.ds
    | .es => k.es
    | .fs => k.fs
    | .gs => k.gs
    | .ss => if k.cs % 4 = 0 then c.seg .ss else k.ss
  eip := k.eip
  eflags := k.eflags
  mem := c.mem

/-- What is saved of a processor that is interrupted. -/
def save (c : Cpu) (vec err dummy : Nat) : IntrStack where
  vecNo := vec
  edi := c.reg .edi
  esi := c.reg .esi
  ebp := c.reg .ebp
  espDummy := dummy
  ebx := c.reg .ebx
  edx := c.reg .edx
  ecx := c.reg .ecx
  eax := c.reg .eax
  gs := c.seg .gs
  fs := c.seg .fs
  es := c.seg .es
  ds := c.seg .ds
  errCode := err
  eip := c.eip
  cs := c.seg .cs
  eflags := c.eflags
  esp := c.esp
  ss := c.seg .ss

end IntrStack

variable {c c' : Cpu} {k : IntrStack} {esp0 gate vec x : Nat} {err : Option Nat}

theorem run_append (c : Cpu) (code code' : List Instr) :
    run c (code ++ code') = run (run c code) code' := List.foldl_append ..

/-- `intr_exit` goes on with what lies on the stack. -/
theorem intrExit_resumes (hlevel : c.cpl = 0) (h : Lies c.mem c.esp k.words) :
    run c intrExitCode = k.resume c := by
  unfold IntrStack.words at h
  obtain ⟨⟨-, hedi, hesi, hebp, -, hebx, hedx, hecx, heax, hgs, hfs, hes, hds, -, heip, hcs,
    heflags, -⟩, hout⟩ := lies_append.mp h
  simp only [run, intrExitCode, List.foldl_cons, List.foldl_nil, exec, Cpu.drop, Cpu.top,
    Cpu.setReg, Cpu.setSeg, hedi, hesi, hebp, hebx, hedx, hecx, heax, hgs, hfs, hes, hds, heip, hcs,
    heflags, Cpu.cpl, Function.update_self, ne_eq, reduceCtorEq, not_false_eq_true,
    Function.update_of_ne]
  have hlevel' : c.seg .cs % 4 = 0 := hlevel
  rw [hlevel']
  by_cases hin : k.cs % 4 = 0
  · rw [if_pos hin]
    refine Cpu.ext (funext fun r => ?_) ?_ (funext fun r => ?_) rfl rfl rfl
    · cases r <;> simp [IntrStack.resume, Function.update]
    · simp [IntrStack.resume, hin, Nat.add_assoc]
    · cases r <;> simp [IntrStack.resume, hin, Function.update]
  · rw [if_neg hin]
    rw [if_neg hin] at hout
    obtain ⟨hesp, hss, -⟩ := hout
    refine Cpu.ext (funext fun r => ?_) ?_ (funext fun r => ?_) rfl rfl rfl
    · cases r <;> simp [IntrStack.resume, Function.update]
    · simp only [IntrStack.resume, if_neg hin, Nat.add_assoc]
      exact hesp
    · cases r
      case ss =>
        simp only [IntrStack.resume, if_neg hin, Function.update_self, Nat.add_assoc]
        exact hss
      all_goals simp [IntrStack.resume, Function.update]

/-- Whatever lies on the stack is taken for the frame. -/
def IntrStack.found (m : Nat → Nat) (a : Nat) : IntrStack where
  vecNo := m a
  edi := m (a + 4)
  esi := m (a + 8)
  ebp := m (a + 12)
  espDummy := m (a + 16)
  ebx := m (a + 20)
  edx := m (a + 24)
  ecx := m (a + 28)
  eax := m (a + 32)
  gs := m (a + 36)
  fs := m (a + 40)
  es := m (a + 44)
  ds := m (a + 48)
  errCode := m (a + 52)
  eip := m (a + 56)
  cs := m (a + 60)
  eflags := m (a + 64)
  esp := m (a + 68)
  ss := m (a + 72)

theorem IntrStack.found_lies (m : Nat → Nat) (a : Nat) : Lies m a (found m a).words := by
  unfold words
  refine lies_append.mpr ⟨⟨rfl, rfl, rfl, rfl, rfl, rfl, rfl, rfl, rfl, rfl, rfl, rfl, rfl, rfl, rfl,
    rfl, rfl, trivial⟩, ?_⟩
  split
  · trivial
  · exact ⟨rfl, rfl, trivial⟩

theorem intrExit_found (hlevel : c.cpl = 0) :
    run c intrExitCode = (IntrStack.found c.mem c.esp).resume c :=
  intrExit_resumes hlevel (IntrStack.found_lies c.mem c.esp)

/-- Where the stack of an interrupt begins. -/
def stackFrom (esp0 : Nat) (c : Cpu) : Nat := if c.cpl = 0 then c.esp else esp0

/-- What code that was interrupted or has called leaves to the code that goes on. -/
structure Entered (c c' : Cpu) (top : Nat) (words : List Nat) : Prop where
  esp : c'.esp + 4 * words.length = top
  lies : Lies c'.mem c'.esp words
  rest : ∀ x, x < c'.esp ∨ top ≤ x → c'.mem x = c.mem x
  cs : c'.seg .cs = SELECTOR_K_CODE
  ss : c'.seg .ss = if c.cpl = 0 then c.seg .ss else SELECTOR_K_STACK

/-- These words have been pushed on a stack that began there. -/
structure Pushed (c c' : Cpu) (top : Nat) (l : List Nat) : Prop where
  mem : c'.mem = pushes c.mem top l
  esp : c'.esp = top - 4 * l.length

theorem Pushed.trans {c'' : Cpu} {top : Nat} {l l' : List Nat} (h : Pushed c c' top l)
    (h' : Pushed c' c'' c'.esp l') : Pushed c c'' top (l ++ l') := by
  refine ⟨?_, ?_⟩
  · rw [h'.mem, h.mem, h.esp, pushes_append]
  · rw [h'.esp, h.esp, List.length_append]
    omega

theorem Pushed.enters {top : Nat} {words : List Nat} (h : Pushed c c' top words.reverse)
    (hroom : 4 * words.length ≤ top) (hcs : c'.seg .cs = SELECTOR_K_CODE)
    (hss : c'.seg .ss = if c.cpl = 0 then c.seg .ss else SELECTOR_K_STACK) :
    Entered c c' top words := by
  have hlen : words.reverse.length = words.length := List.length_reverse
  have hesp : c'.esp = top - 4 * words.length := hlen ▸ h.esp
  refine ⟨by omega, ?_, fun x hx => ?_, hcs, hss⟩
  · have hlies := pushes_lies c.mem (hlen ▸ hroom : 4 * words.reverse.length ≤ top)
    rwa [List.reverse_reverse, ← h.esp, ← h.mem] at hlies
  · rw [h.mem, pushes_out (by omega) (by omega)]

/-- The words of the processor's own. -/
def hardwareWords (c : Cpu) (err : Option Nat) : List Nat :=
  (if c.cpl = 0 then [] else [c.seg .ss, c.esp]) ++ [c.eflags, c.seg .cs, c.eip] ++ err.toList

theorem interrupt_pushes (esp0 gate : Nat) (err : Option Nat) (c : Cpu) :
    let c' := interrupt esp0 gate err c
    Pushed c c' (stackFrom esp0 c) (hardwareWords c err) ∧ c'.reg = c.reg ∧
      ∀ r, r ≠ .cs → r ≠ .ss → c'.seg r = c.seg r := by
  unfold hardwareWords stackFrom interrupt
  by_cases hin : c.cpl = 0
  · simp only [if_pos hin]
    cases err with
    | none => exact ⟨⟨rfl, rfl⟩, rfl, fun r hcs _ => Function.update_of_ne hcs ..⟩
    | some e => exact ⟨⟨rfl, rfl⟩, rfl, fun r hcs _ => Function.update_of_ne hcs ..⟩
  · simp only [if_neg hin]
    have hseg : ∀ r, r ≠ .cs → r ≠ .ss → Function.update (Function.update c.seg .ss
        SELECTOR_K_STACK) .cs SELECTOR_K_CODE r = c.seg r := by
      intro r hcs hss
      rw [Function.update_of_ne hcs, Function.update_of_ne hss]
    cases err with
    | none => exact ⟨⟨rfl, rfl⟩, rfl, hseg⟩
    | some e => exact ⟨⟨rfl, rfl⟩, rfl, hseg⟩

/-- The words of `saveCode`; `pushad` saves the stack pointer it has found. -/
def savedWords (c : Cpu) : List Nat :=
  [c.seg .ds, c.seg .es, c.seg .fs, c.seg .gs, c.reg .eax, c.reg .ecx, c.reg .edx, c.reg .ebx,
    c.esp - 4 - 4 - 4 - 4, c.reg .ebp, c.reg .esi, c.reg .edi]

theorem saveCode_pushes (c : Cpu) :
    Pushed c (run c saveCode) c.esp (savedWords c) ∧ (run c saveCode).reg = c.reg ∧
      (run c saveCode).seg = c.seg := by
  simp only [run, saveCode, List.foldl_cons, List.foldl_nil, exec, Cpu.push, and_true]
  refine ⟨by simp only [savedWords, pushes], ?_⟩
  simp only [savedWords, List.length_cons, List.length_nil]
  omega

theorem interrupt_cs (esp0 gate : Nat) (err : Option Nat) (c : Cpu) :
    (interrupt esp0 gate err c).seg .cs = SELECTOR_K_CODE := rfl

theorem interrupt_ss (esp0 gate : Nat) (err : Option Nat) (c : Cpu) :
    (interrupt esp0 gate err c).seg .ss = if c.cpl = 0 then c.seg .ss else SELECTOR_K_STACK := by
  unfold interrupt
  by_cases hin : c.cpl = 0
  · simp only [if_pos hin]
    cases err <;> rfl
  · simp only [if_neg hin]
    cases err <;> rfl

/-- What the processor and the code push is the frame. -/
theorem frame_words (c : Cpu) (err : Option Nat) (dummy vec : Nat) :
    hardwareWords c err ++ (if err.isNone then [0] else []) ++
        [c.seg .ds, c.seg .es, c.seg .fs, c.seg .gs, c.reg .eax, c.reg .ecx, c.reg .edx, c.reg .ebx,
          dummy, c.reg .ebp, c.reg .esi, c.reg .edi] ++ [vec] =
      (IntrStack.save c vec (err.getD 0) dummy).words.reverse := by
  unfold hardwareWords IntrStack.words
  by_cases hin : c.cpl = 0
  · rw [if_pos hin, if_pos (show (IntrStack.save c vec (err.getD 0) dummy).cs % 4 = 0 from hin)]
    cases err <;> rfl
  · rw [if_neg hin, if_neg (show ¬ (IntrStack.save c vec (err.getD 0) dummy).cs % 4 = 0 from hin)]
    cases err <;> rfl

/-- The processor's part, a word in the place of the error code if there is none, the registers and
the vector. -/
theorem entry_pushes (esp0 gate : Nat) (err : Option Nat) (vec : Nat) (c : Cpu) {c' c'' : Cpu}
    (hzero : c' = run (interrupt esp0 gate err c) (if err.isNone then [.pushImm 0] else []))
    (hvec : Pushed (run c' saveCode) c'' (run c' saveCode).esp [vec]) :
    ∃ dummy, Pushed c c'' (stackFrom esp0 c) (IntrStack.save c vec (err.getD 0) dummy).words.reverse ∧
      (run c' saveCode).reg = c.reg ∧ (run c' saveCode).seg = (interrupt esp0 gate err c).seg := by
  obtain ⟨hhard, hreg, hseg⟩ := interrupt_pushes esp0 gate err c
  have hone : Pushed (interrupt esp0 gate err c) c' (interrupt esp0 gate err c).esp
      (if err.isNone then [0] else []) ∧ c'.reg = c.reg ∧
        c'.seg = (interrupt esp0 gate err c).seg := by
    subst hzero
    cases err with
    | none => exact ⟨⟨rfl, rfl⟩, hreg, rfl⟩
    | some e => exact ⟨⟨rfl, rfl⟩, hreg, rfl⟩
  obtain ⟨hone, hreg', hseg'⟩ := hone
  obtain ⟨hsave, hreg'', hseg''⟩ := saveCode_pushes c'
  refine ⟨c'.esp - 4 - 4 - 4 - 4, ?_, hreg''.trans hreg', hseg''.trans hseg'⟩
  have hall := ((hhard.trans hone).trans hsave).trans hvec
  have hsaved : savedWords c' = [c.seg .ds, c.seg .es, c.seg .fs, c.seg .gs, c.reg .eax, c.reg .ecx,
      c.reg .edx, c.reg .ebx, c'.esp - 4 - 4 - 4 - 4, c.reg .ebp, c.reg .esi, c.reg .edi] := by
    rw [savedWords, hreg', hseg', hseg .ds (by decide) (by decide), hseg .es (by decide) (by decide),
      hseg .fs (by decide) (by decide), hseg .gs (by decide) (by decide)]
  rwa [hsaved, frame_words] at hall

/-- A device's or the processor's interrupt: the handler finds the vector and the frame. -/
theorem vector_enters (c : Cpu) (gate vec : Nat) (err : Option Nat)
    (hroom : 76 ≤ stackFrom esp0 c) : ∃ dummy,
    Entered c (run (interrupt esp0 gate err c) (vectorCode err.isNone vec)) (stackFrom esp0 c)
      (IntrStack.save c vec (err.getD 0) dummy).words := by
  rw [vectorCode, run_append, run_append]
  generalize hzero : run (interrupt esp0 gate err c) _ = c'
  have hvec : Pushed (run c' saveCode)
      (run (run c' saveCode) [.movAl 0x20, .outAl 0xa0, .outAl 0x20, .pushImm vec])
      (run c' saveCode).esp [vec] := ⟨rfl, rfl⟩
  obtain ⟨dummy, hpush, -, hseg⟩ := entry_pushes esp0 gate err vec c hzero.symm hvec
  refine ⟨dummy, hpush.enters ?_ ?_ ?_⟩
  · rw [IntrStack.words_length]
    split <;> omega
  · exact (congrFun hseg .cs).trans (interrupt_cs ..)
  · exact (congrFun hseg .ss).trans (interrupt_ss ..)

/-- A system call: the function finds `ebx`, `ecx` and `edx` as its arguments, above them the
number of the vector and the frame. -/
theorem syscall_enters (hroom : 88 ≤ stackFrom esp0 c) : ∃ dummy,
    let c' := run (interrupt esp0 gate none c) syscallCode
    Entered c c' (stackFrom esp0 c) ([c.reg .ebx, c.reg .ecx, c.reg .edx] ++
        (IntrStack.save c 0x80 0 dummy).words) ∧
      c'.reg = c.reg := by
  rw [syscallCode, run_append, run_append]
  generalize hzero : run (interrupt esp0 gate none c) _ = c'
  have hvec : Pushed (run c' saveCode) (run (run c' saveCode) [.pushImm 0x80])
      (run c' saveCode).esp [0x80] := ⟨rfl, rfl⟩
  obtain ⟨dummy, hpush, hreg, hseg⟩ := entry_pushes esp0 gate none 0x80 c hzero.symm hvec
  generalize run c' saveCode = c₂ at *
  have hargs : Pushed (run c₂ [.pushImm 0x80])
      (run c₂ [.pushImm 0x80, .pushReg .edx, .pushReg .ecx, .pushReg .ebx])
      (run c₂ [.pushImm 0x80]).esp [c.reg .edx, c.reg .ecx, c.reg .ebx] := by
    rw [← hreg]
    exact ⟨rfl, rfl⟩
  have hwords : (IntrStack.save c 0x80 0 dummy).words.reverse ++
      [c.reg .edx, c.reg .ecx, c.reg .ebx] = ([c.reg .ebx, c.reg .ecx, c.reg .edx] ++
        (IntrStack.save c 0x80 0 dummy).words).reverse := by
    rw [List.reverse_append]
    rfl
  refine ⟨dummy, (hwords ▸ hpush.trans hargs).enters ?_ ?_ ?_, hreg⟩
  · rw [List.length_append, IntrStack.words_length]
    split <;> simp only [List.length_cons, List.length_nil] <;> omega
  · exact (congrFun hseg .cs).trans (interrupt_cs ..)
  · exact (congrFun hseg .ss).trans (interrupt_ss ..)

theorem IntrStack.words_eax (k : IntrStack) (v : Nat) :
    ({ k with eax := v } : IntrStack).words = k.words.set 8 v := by
  unfold IntrStack.words
  split <;> rfl

/-- What the system call returns is in the place of `eax` when `intr_exit` looks there. -/
theorem syscallReturn_resumes {args : List Nat} (hargs : args.length = 3) (hlevel : c.cpl = 0)
    (h : Lies c.mem c.esp (args ++ k.words)) :
    run c syscallReturnCode = ({ k with eax := c.reg .eax } : IntrStack).resume
      { c with esp := c.esp + 12, mem := Function.update c.mem (c.esp + 12 + 32) (c.reg .eax) } := by
  obtain ⟨-, hframe⟩ := lies_append.mp h
  rw [hargs] at hframe
  rw [syscallReturnCode, run_append]
  refine intrExit_resumes hlevel ?_
  rw [IntrStack.words_eax]
  exact hframe.set 8 _

/-! ## The switch -/

/-- What a function must leave as it has found it, and where the caller goes on. -/
structure SavedContext where
  ebp : Nat
  ebx : Nat
  edi : Nat
  esi : Nat
  eip : Nat
  esp : Nat

/-- The context is saved for the thread at this address. -/
structure Saves (m : Nat → Nat) (t : Nat) (k : SavedContext) : Prop where
  lies : Lies m (m t) [k.ebp, k.ebx, k.edi, k.esi, k.eip]
  esp : m t + 20 = k.esp

/-- Whatever lies there is taken for the context. -/
def SavedContext.found (m : Nat → Nat) (t : Nat) : SavedContext :=
  ⟨m (m t), m (m t + 4), m (m t + 8), m (m t + 12), m (m t + 16), m t + 20⟩

theorem SavedContext.found_saves (m : Nat → Nat) (t : Nat) : Saves m t (found m t) :=
  ⟨⟨rfl, rfl, rfl, rfl, rfl, trivial⟩, rfl⟩

/-- The context of code that calls `switch_to` and is to go on at `ret`. -/
def Cpu.context (c : Cpu) (ret : Nat) : SavedContext :=
  ⟨c.reg .ebp, c.reg .ebx, c.reg .edi, c.reg .esi, ret, c.esp - 8⟩

/-- The call and the code of `switch_to`. -/
def switchTo (c : Cpu) (cur next ret : Nat) : Cpu :=
  run (((c.push next).push cur).push ret) switchToCode

/-- The processor goes on in this context. -/
structure Resumed (c : Cpu) (k : SavedContext) : Prop where
  ebp : c.reg .ebp = k.ebp
  ebx : c.reg .ebx = k.ebx
  edi : c.reg .edi = k.edi
  esi : c.reg .esi = k.esi
  eip : c.eip = k.eip
  esp : c.esp = k.esp

/-- `switch_to` writes below the stack pointer and into the first word of the PCB. -/
def switched (c : Cpu) (cur next ret : Nat) : Nat → Nat :=
  Function.update (pushes c.mem c.esp [next, cur, ret, c.reg .esi, c.reg .edi, c.reg .ebx,
    c.reg .ebp]) cur (c.esp - 28)

theorem switched_out {cur next ret : Nat} (hroom : 28 ≤ c.esp) (hcur : x ≠ cur)
    (hx : c.esp ≤ x ∨ x < c.esp - 28) : switched c cur next ret x = c.mem x := by
  rw [switched, Function.update_of_ne hcur]
  exact pushes_out hroom hx

/-- The caller's context is saved. -/
theorem switched_saves {cur : Nat} (next ret : Nat) (hroom : 28 ≤ c.esp)
    (hcur : cur < c.esp - 28 ∨ c.esp ≤ cur) :
    Lies (switched c cur next ret) (c.esp - 28)
      [c.reg .ebp, c.reg .ebx, c.reg .edi, c.reg .esi, ret, cur, next] ∧
    Saves (switched c cur next ret) cur (c.context ret) := by
  have hlies : Lies (switched c cur next ret) (c.esp - 28)
      [c.reg .ebp, c.reg .ebx, c.reg .edi, c.reg .esi, ret, cur, next] := by
    refine (pushes_lies c.mem (l := [next, cur, ret, c.reg .esi, c.reg .edi, c.reg .ebx,
      c.reg .ebp]) hroom).congr fun x hx hx' => ?_
    have hlow : c.esp - 28 ≤ x := hx
    have hhigh : x < c.esp - 28 + 28 := hx'
    exact Function.update_of_ne (by omega) ..
  have hself : switched c cur next ret cur = c.esp - 28 := Function.update_self ..
  obtain ⟨hebp, hebx, hedi, hesi, heip, -⟩ := id hlies
  refine ⟨hlies, ⟨?_, ?_⟩⟩
  · rw [hself]
    exact ⟨hebp, hebx, hedi, hesi, heip, trivial⟩
  · rw [hself]
    change c.esp - 28 + 20 = c.esp - 8
    omega

open Instr in
/-- What `switch_to` does when it has saved the registers. -/
def switchTail : List Instr :=
  [loadStack .eax 20, saveEsp .eax, loadStack .eax 24, loadEsp .eax, popReg .ebp, popReg .ebx,
    popReg .edi, popReg .esi, ret]

theorem switchTo_eq (c : Cpu) (cur next ret : Nat) : switchTo c cur next ret =
    run { c with
      esp := c.esp - 28
      mem := pushes c.mem c.esp
        [next, cur, ret, c.reg .esi, c.reg .edi, c.reg .ebx, c.reg .ebp] } switchTail := by
  have hcode : switchToCode =
      [.pushReg .esi, .pushReg .edi, .pushReg .ebx, .pushReg .ebp] ++ switchTail := rfl
  rw [switchTo, hcode, run_append]
  rfl

/-- The next thread goes on in the context that is saved for it. -/
theorem switchTo_resumes {cur next ret : Nat} (hroom : 28 ≤ c.esp)
    (hcur : cur < c.esp - 28 ∨ c.esp ≤ cur) {k : SavedContext}
    (hk : Saves (switched c cur next ret) next k) :
    let c' := switchTo c cur next ret
    c'.mem = switched c cur next ret ∧ c'.seg = c.seg ∧ c'.eflags = c.eflags ∧ Resumed c' k := by
  have hsaved := (switched_saves next ret hroom hcur).1
  obtain ⟨-, -, -, -, -, -, hnext, -⟩ := hsaved
  have hlies : Lies (pushes c.mem c.esp [next, cur, ret, c.reg .esi, c.reg .edi, c.reg .ebx,
      c.reg .ebp]) (c.esp - 28)
      [c.reg .ebp, c.reg .ebx, c.reg .edi, c.reg .esi, ret, cur, next] := pushes_lies c.mem hroom
  obtain ⟨-, -, -, -, -, hload, -⟩ := hlies
  obtain ⟨⟨hebp, hebx, hedi, hesi, heip, -⟩, hesp⟩ := hk
  rw [switchTo_eq]
  unfold switched at *
  generalize pushes c.mem c.esp _ = m at *
  generalize c.esp - 28 = e at *
  have hload : m (e + 20) = cur := hload
  have hnext : Function.update m cur e (e + 24) = next := hnext
  generalize hm : Function.update m cur e = m' at *
  simp only [run, switchTail, List.foldl_cons, List.foldl_nil, exec, Cpu.drop, Cpu.top, Cpu.setReg,
    Function.update_self, hload, hm, hnext, hebp, hebx, hedi, hesi, heip]
  exact ⟨trivial, trivial, trivial, rfl, rfl, rfl, rfl, rfl, hesp⟩

end Context

end ZhuOS
