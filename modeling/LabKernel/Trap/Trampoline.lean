import LabKernel.Lib.Updates
import LabKernel.Mem.Copies
import LabKernel.Mem.Exec

/-! # The way into the kernel and back

`trampoline.S` instruction by instruction, on a hart whose loads and stores go through the page table in
`satp`, with what the hardware does at a trap and the C code that calls `user_return`. `x0` is left out:
no instruction here names it but the fence. Of the control and status registers there are those that this
code reads or writes.
-/

namespace LabKernel

/-- The general registers, without `x0` -/
inductive Gpr
  | ra | sp | gp | tp | t0 | t1 | t2 | s0 | s1 | a0 | a1 | a2 | a3 | a4 | a5 | a6 | a7
  | s2 | s3 | s4 | s5 | s6 | s7 | s8 | s9 | s10 | s11 | t3 | t4 | t5 | t6
deriving DecidableEq, Repr

inductive Csr
  | satp | sscratch | stvec | sepc | sstatus
deriving DecidableEq, Repr

inductive Instr
  | csrrw (rd : Gpr) (csr : Csr) (rs : Gpr)
  | csrr (rd : Gpr) (csr : Csr)
  | csrw (csr : Csr) (rs : Gpr)
  | sd (rs : Gpr) (offset : ℕ) (base : Gpr)
  | ld (rd : Gpr) (offset : ℕ) (base : Gpr)
  | sfenceVma
  | jr (rs : Gpr)
  | sret
deriving DecidableEq, Repr

/-! ## `trapframe_t` -/

/-- The fields of `trapframe_t`, in their order -/
inductive TrapField
  | userToKernSatp | userToKernSp | userToKernTrapvector | userToKernEpc | userToKernHartid
  | ra | sp | gp | tp | t0 | t1 | t2 | s0 | s1 | a0 | a1 | a2 | a3 | a4 | a5 | a6 | a7
  | s2 | s3 | s4 | s5 | s6 | s7 | s8 | s9 | s10 | s11 | t3 | t4 | t5 | t6
deriving DecidableEq, Repr

/-- `offsetof`; each field is a `uint64`. -/
def TrapField.offset (f : TrapField) : ℕ := 8 * f.ctorIdx

/-- The field of the same name -/
def Gpr.field : Gpr → TrapField
  | ra => .ra | sp => .sp | gp => .gp | tp => .tp
  | t0 => .t0 | t1 => .t1 | t2 => .t2 | s0 => .s0 | s1 => .s1
  | a0 => .a0 | a1 => .a1 | a2 => .a2 | a3 => .a3 | a4 => .a4 | a5 => .a5 | a6 => .a6 | a7 => .a7
  | s2 => .s2 | s3 => .s3 | s4 => .s4 | s5 => .s5 | s6 => .s6 | s7 => .s7 | s8 => .s8 | s9 => .s9
  | s10 => .s10 | s11 => .s11 | t3 => .t3 | t4 => .t4 | t5 => .t5 | t6 => .t6

/-- The fields of a page that begins with a trap frame -/
def trapWords (page : Bytes) (f : TrapField) : U64 := page.u64 f.offset

private theorem TrapField.offset_inj {f g : TrapField} : f.offset = g.offset ↔ f = g := by
  refine ⟨fun same => ?_, fun same => same ▸ rfl⟩
  have index : f.ctorIdx = g.ctorIdx := Nat.eq_of_mul_eq_mul_left (by decide) same
  rw [← TrapField.ofNat_ctorIdx f, index, TrapField.ofNat_ctorIdx]

theorem TrapField.offset_lt (f : TrapField) : f.offset + 8 ≤ pgsize := by
  cases f <;> decide

theorem Gpr.field_place (r : Gpr) : 5 ≤ r.field.ctorIdx := by
  cases r <;> decide

theorem Gpr.field_inj {r r' : Gpr} : r.field = r'.field ↔ r = r' := by
  refine ⟨fun same => ?_, fun same => same ▸ rfl⟩
  have place (r : Gpr) : r.field.ctorIdx = r.ctorIdx + 5 := by cases r <;> rfl
  have index : r.ctorIdx = r'.ctorIdx := Nat.add_right_cancel ((place r).symm.trans (same ▸ place r'))
  rw [← Gpr.ofNat_ctorIdx r, index, Gpr.ofNat_ctorIdx]

/-- The offsets that the C code of `sys_exec` and `trap_user_handler` works with -/
theorem offsets_agree : TrapField.userToKernEpc.offset = tfEpc ∧ TrapField.sp.offset = tfSp ∧
    ∀ n < 8, ∀ r ∈ [Gpr.a0, .a1, .a2, .a3, .a4, .a5, .a6, .a7][n]?, r.field.offset = tfArg n := by
  decide

/-- A field is written. -/
theorem trapWords_setU64 (page : Bytes) (f : TrapField) (v : U64) :
    trapWords (page.setU64 f.offset v) = Function.update (trapWords page) f v := by
  funext g
  rcases eq_or_ne g f with rfl | other
  · rw [trapWords, Bytes.u64_setU64_same, Function.update_self]
  · rw [trapWords, Function.update_of_ne other, Bytes.u64_setU64_other, trapWords]
    have apart : g.ctorIdx ≠ f.ctorIdx := fun same => other (TrapField.offset_inj.mp (congrArg (8 * ·) same))
    simp only [TrapField.offset]
    omega

/-! ## The hart -/

structure Hart where
  x : Gpr → U64
  csr : Csr → U64
  pc : U64
  user : Bool

namespace Hart

def setX (h : Hart) (r : Gpr) (v : U64) : Hart := { h with x := Function.update h.x r v }

def setCsr (h : Hart) (c : Csr) (v : U64) : Hart := { h with csr := Function.update h.csr c v }

@[simp] theorem setX_csr (h : Hart) (r : Gpr) (v : U64) : (h.setX r v).csr = h.csr := rfl
@[simp] theorem setX_pc (h : Hart) (r : Gpr) (v : U64) : (h.setX r v).pc = h.pc := rfl
@[simp] theorem setX_user (h : Hart) (r : Gpr) (v : U64) : (h.setX r v).user = h.user := rfl
@[simp] theorem setCsr_x (h : Hart) (c : Csr) (v : U64) : (h.setCsr c v).x = h.x := rfl
@[simp] theorem setCsr_pc (h : Hart) (c : Csr) (v : U64) : (h.setCsr c v).pc = h.pc := rfl
@[simp] theorem setCsr_user (h : Hart) (c : Csr) (v : U64) : (h.setCsr c v).user = h.user := rfl

@[simp] theorem setX_same (h : Hart) (r : Gpr) (v : U64) : (h.setX r v).x r = v := Function.update_self ..
@[simp] theorem setCsr_same (h : Hart) (c : Csr) (v : U64) : (h.setCsr c v).csr c = v :=
  Function.update_self ..

theorem setX_other {r r' : Gpr} (h : Hart) (v : U64) (other : r' ≠ r) : (h.setX r v).x r' = h.x r' :=
  Function.update_of_ne other ..

theorem setCsr_other {c c' : Csr} (h : Hart) (v : U64) (other : c' ≠ c) :
    (h.setCsr c v).csr c' = h.csr c' := Function.update_of_ne other ..

end Hart

def sstatusSIE : U64 := 1 <<< 1

def sstatusSPIE : U64 := 1 <<< 5

def sstatusSPP : U64 := 1 <<< 8

def satpSv39 : U64 := 8 <<< 60

def makeSatp (pagetable : U64) : U64 := satpSv39 ||| pagetable >>> 12

/-- The root table that `satp` names -/
def satpRoot (satp : U64) : U64 := (satp <<< 20) >>> 8

/-- Where the kernel finds a word: a frame and an offset. The walk is the one of `vm_getpte`; a table at
address 0, where there is no memory, does not stand for the kernel's. Pages of user mode are out of reach, as
`SSTATUS_SUM` is never set, and the bits by which hardware notes accesses are left out. -/
def Hart.wordAt (h : Hart) (need : U64) (va : ℕ) (s : Machine) : Option (U64 × ℕ) :=
  let root := satpRoot (h.csr .satp)
  if h.csr .satp >>> 60 ≠ 8 ∨ root = 0 ∨ va % 8 ≠ 0 then none
  else
    match translate s root va with
    | none => none
    | some (frame, flags) => if PteHas flags need ∧ ¬PteHas flags pteU then some (frame, va % pgsize) else none

def Hart.sret (h : Hart) : Hart :=
  let status := h.csr .sstatus
  let enabled := if PteHas status sstatusSPIE then status ||| sstatusSIE else status &&& ~~~sstatusSIE
  { h.setCsr .sstatus ((enabled ||| sstatusSPIE) &&& ~~~sstatusSPP) with
    pc := h.csr .sepc, user := !decide (PteHas status sstatusSPP) }

/-- What the hardware does at a trap of user mode -/
def Hart.trap (h : Hart) : Hart :=
  let status := h.csr .sstatus
  let previous := if PteHas status sstatusSIE then status ||| sstatusSPIE else status &&& ~~~sstatusSPIE
  { (h.setCsr .sepc h.pc).setCsr .sstatus (previous &&& ~~~sstatusSIE &&& ~~~sstatusSPP) with
    pc := h.csr .stvec, user := false }

namespace Hart

@[simp] theorem sret_x (h : Hart) : h.sret.x = h.x := rfl
@[simp] theorem sret_pc (h : Hart) : h.sret.pc = h.csr .sepc := rfl
@[simp] theorem sret_user (h : Hart) : h.sret.user = !decide (PteHas (h.csr .sstatus) sstatusSPP) := rfl
@[simp] theorem trap_x (h : Hart) : h.trap.x = h.x := rfl

theorem sret_csr {c : Csr} (h : Hart) (other : c ≠ .sstatus) : h.sret.csr c = h.csr c :=
  Function.update_of_ne other ..

theorem trap_csr {c : Csr} (h : Hart) (other : c ≠ .sstatus ∧ c ≠ .sepc) : h.trap.csr c = h.csr c :=
  (setCsr_other _ _ other.1).trans (setCsr_other _ _ other.2)

end Hart

/-- One instruction of the kernel's assembly code; `none` is an exception. The program counter is left to
the instructions that jump. -/
def exec : Instr → Hart × Machine → Option (Hart × Machine)
  | .csrrw rd csr rs, (h, s) => some ((h.setCsr csr (h.x rs)).setX rd (h.csr csr), s)
  | .csrr rd csr, (h, s) => some (h.setX rd (h.csr csr), s)
  | .csrw csr rs, (h, s) => some (h.setCsr csr (h.x rs), s)
  | .sd rs offset base, (h, s) => do
    let (frame, at_) ← h.wordAt pteW (wrap64 ((h.x base).toNat + offset)) s
    return (h, s.setPage frame ((s.pages frame).setU64 at_ (h.x rs)))
  | .ld rd offset base, (h, s) => do
    let (frame, at_) ← h.wordAt pteR (wrap64 ((h.x base).toNat + offset)) s
    return (h.setX rd ((s.pages frame).u64 at_), s)
  | .sfenceVma, t => some t
  | .jr rs, (h, s) => some ({ h with pc := h.x rs }, s)
  | .sret, (h, s) => some (h.sret, s)

/-- A run of instructions one after the other -/
def execAll (code : List Instr) (t : Hart × Machine) : Option (Hart × Machine) :=
  code.foldlM (fun t i => exec i t) t

/-! ## `trampoline.S` -/

def userVector : List Instr :=
  [ .csrrw .a0 .sscratch .a0,
    .sd .ra 40 .a0, .sd .sp 48 .a0, .sd .gp 56 .a0, .sd .tp 64 .a0, .sd .t0 72 .a0, .sd .t1 80 .a0,
    .sd .t2 88 .a0, .sd .s0 96 .a0, .sd .s1 104 .a0, .sd .a1 120 .a0, .sd .a2 128 .a0, .sd .a3 136 .a0,
    .sd .a4 144 .a0, .sd .a5 152 .a0, .sd .a6 160 .a0, .sd .a7 168 .a0, .sd .s2 176 .a0, .sd .s3 184 .a0,
    .sd .s4 192 .a0, .sd .s5 200 .a0, .sd .s6 208 .a0, .sd .s7 216 .a0, .sd .s8 224 .a0, .sd .s9 232 .a0,
    .sd .s10 240 .a0, .sd .s11 248 .a0, .sd .t3 256 .a0, .sd .t4 264 .a0, .sd .t5 272 .a0, .sd .t6 280 .a0,
    .csrr .t0 .sscratch, .sd .t0 112 .a0,
    .ld .sp 8 .a0, .ld .tp 32 .a0, .ld .t0 16 .a0, .ld .t1 0 .a0,
    .csrw .satp .t1, .sfenceVma, .jr .t0 ]

def userReturn : List Instr :=
  [ .csrw .satp .a1, .sfenceVma,
    .ld .t0 112 .a0, .csrw .sscratch .t0,
    .ld .ra 40 .a0, .ld .sp 48 .a0, .ld .gp 56 .a0, .ld .tp 64 .a0, .ld .t0 72 .a0, .ld .t1 80 .a0,
    .ld .t2 88 .a0, .ld .s0 96 .a0, .ld .s1 104 .a0, .ld .a1 120 .a0, .ld .a2 128 .a0, .ld .a3 136 .a0,
    .ld .a4 144 .a0, .ld .a5 152 .a0, .ld .a6 160 .a0, .ld .a7 168 .a0, .ld .s2 176 .a0, .ld .s3 184 .a0,
    .ld .s4 192 .a0, .ld .s5 200 .a0, .ld .s6 208 .a0, .ld .s7 216 .a0, .ld .s8 224 .a0, .ld .s9 232 .a0,
    .ld .s10 240 .a0, .ld .s11 248 .a0, .ld .t3 256 .a0, .ld .t4 264 .a0, .ld .t5 272 .a0, .ld .t6 280 .a0,
    .csrrw .a0 .sscratch .a0,
    .sret ]

/-- Addresses that the linker chooses: `user_vector` in the page at `TRAMPOLINE`, and `trap_user_handler` -/
structure Linked where
  userVector : U64
  trapUserHandler : U64

/-- What `trap_user_return` sets up for the call of `user_return`: the compiler fills `a0` and `a1`, and the
other registers hold anything. -/
def Hart.atUserReturn (h : Hart) (linked : Linked) (epc pgtbl : U64) (junk : Gpr → U64) : Hart :=
  let h := h.setCsr .sstatus (h.csr .sstatus &&& ~~~sstatusSIE)
  let h := h.setCsr .stvec linked.userVector
  let h := h.setCsr .sstatus (h.csr .sstatus &&& ~~~sstatusSPP ||| sstatusSPIE)
  let h := h.setCsr .sepc epc
  ({ h with x := junk }.setX .a0 (BitVec.ofNat 64 trapframe)).setX .a1 (makeSatp pgtbl)

/-- `trap_user_return` of process `p`, whose kernel stack is given, up to the end of `user_return` -/
def trapReturn (p : ℕ) (linked : Linked) (kstack : U64) (junk : Gpr → U64) (t : Hart × Machine) :
    Option (Hart × Machine) :=
  let (h, s) := t
  match trapUserReturn p ⟨h.x .tp, kstack + BitVec.ofNat 64 pgsize, linked.trapUserHandler⟩ s with
  | .error .. => none
  | .ok epc s => do
    let proc ← s.proc p
    execAll userReturn (h.atUserReturn linked epc proc.pgtbl junk, s)

/-- A trap of user mode, up to the end of `user_vector`: the hart fetches from the page at `TRAMPOLINE`,
so the code runs if `stvec` names it. -/
def trapEntry (linked : Linked) (t : Hart × Machine) : Option (Hart × Machine) :=
  if t.1.user = true ∧ t.1.csr .stvec = linked.userVector then execAll userVector (t.1.trap, t.2) else none

end LabKernel
