import LabKernel.Lib.Transition
import LabKernel.Mem.ExecEntry
import LabKernel.Mem.FreeOrder
import LabKernel.Trap.Trampoline

/-! # What user mode finds after a trap

The stores of `user_vector`, the loads of `user_return` and `trapframe_t` agree on the place of each
register, and `a0` and `sscratch` come out of their exchanges right. So whatever the kernel does in
between, user mode has the registers it had, but for the fields that the kernel wrote, and the next trap
begins like this one.
-/

namespace LabKernel

/-- A page table leads `TRAPFRAME` to a frame that the kernel alone may read and write, and that is none of
the tables. -/
structure FrameMapped (s : Machine) (table tf : U64) : Prop where
  nonzero : table ≠ 0
  aligned : table.toNat % pgsize = 0
  small : table.toNat < 2 ^ 56
  leads : ∃ flags, translate s table trapframe = some (tf, flags) ∧ PteHas flags pteR ∧ PteHas flags pteW ∧
    ¬PteHas flags pteU
  data : ∀ q, s.tableAt table q ≠ some tf

/-- The kernel is about to return to process `p`. -/
def FrameOf (p : ℕ) (tf : U64) (s : Machine) : Prop :=
  ∃ proc, s.proc p = some proc ∧ proc.tf = tf ∧ FrameMapped s proc.pgtbl tf

/-- The hart reaches a trap frame. -/
structure AtFrame (h : Hart) (s : Machine) (tf : U64) : Prop where
  base : h.x .a0 = BitVec.ofNat 64 trapframe
  mapped : ∃ table, h.csr .satp = makeSatp table ∧ FrameMapped s table tf

/-- User mode, ready for a trap -/
structure UserMode (linked : Linked) (tf : U64) (t : Hart × Machine) : Prop where
  user : t.1.user = true
  stvec : t.1.csr .stvec = linked.userVector
  sscratch : t.1.csr .sscratch = BitVec.ofNat 64 trapframe
  mapped : ∃ table, t.1.csr .satp = makeSatp table ∧ FrameMapped t.2 table tf

/-- User mode runs to the next trap: the general registers are its own, these others are out of its reach,
and so is the mapping of the trap frame. -/
structure UserRuns (tf : U64) (t u : Hart × Machine) : Prop where
  user : u.1.user = true
  csr : ∀ c ∈ [Csr.satp, .sscratch, .stvec], u.1.csr c = t.1.csr c
  mapped : ∀ table, t.1.csr .satp = makeSatp table → FrameMapped t.2 table tf → FrameMapped u.2 table tf

/-- Kernel activity, from `trap_user_handler` to `trap_user_return`, that leaves the saved registers, but for
the fields that `writes` gives a value. Registers and page tables are free, as long as the process has
its trap frame. -/
structure KernelKeeps (p : ℕ) (tf : U64) (writes : Gpr → Option U64) (s s' : Machine) : Prop where
  frame : FrameOf p tf s'
  saved : ∀ r, trapWords (s'.pages tf) r.field = (writes r).getD (trapWords (s.pages tf) r.field)

/-- What happens between two returns to user mode: the state at the trap, the kernel's writes, and the
state at the call of `trap_user_return` -/
structure Activity where
  user : Hart × Machine
  writes : Gpr → Option U64
  kernel : Hart × Machine
  kstack : U64
  junk : Gpr → U64

/-- From one return to user mode to the next one -/
def Round (p : ℕ) (tf : U64) (linked : Linked) (t : Hart × Machine) (e : Activity) (t' : Hart × Machine) : Prop :=
  UserRuns tf t e.user ∧ ∃ k, trapEntry linked e.user = some k ∧
    KernelKeeps p tf e.writes k.2 e.kernel.2 ∧ trapReturn p linked e.kstack e.junk e.kernel = some t'

/-- The next trap stores each register in the field of its name, and the return gives back the registers
and prepares `sscratch`. -/
def Preserves (p : ℕ) (tf : U64) (linked : Linked) (u : Hart × Machine) : Prop :=
  ∃ k, trapEntry linked u = some k ∧ (∀ r : Gpr, (k.2.pages tf).u64 r.field.offset = u.1.x r) ∧
    ∀ writes kernel kstack junk, KernelKeeps p tf writes k.2 kernel.2 →
      ∃ t, trapReturn p linked kstack junk kernel = some t ∧ t.1.user = true ∧
        (∀ r, t.1.x r = (writes r).getD (u.1.x r)) ∧ t.1.csr .sscratch = BitVec.ofNat 64 trapframe

variable {h : Hart} {s s' : Machine} {t u : Hart × Machine} {table tf : U64} {p : ℕ} {linked : Linked}
  {writes : Gpr → Option U64}

open Machine

/-! ## The page table -/

/-- The number of the root page and the mode are next to each other. -/
theorem makeSatp_toNat (small : table.toNat < 2 ^ 56) :
    (makeSatp table).toNat = 2 ^ 60 * 8 + table.toNat / 4096 := by
  rw [makeSatp, BitVec.toNat_or, BitVec.toNat_ushiftRight, Nat.shiftRight_eq_div_pow,
    show satpSv39.toNat = 2 ^ 60 * 8 by decide, Nat.two_pow_add_eq_or_of_lt (by omega)]

theorem makeSatp_mode (small : table.toNat < 2 ^ 56) : makeSatp table >>> 60 = 8 := by
  refine BitVec.eq_of_toNat_eq ?_
  rw [BitVec.toNat_ushiftRight, Nat.shiftRight_eq_div_pow, makeSatp_toNat small]
  simp only [BitVec.reduceToNat]
  omega

theorem satpRoot_makeSatp (aligned : table.toNat % pgsize = 0) (small : table.toNat < 2 ^ 56) :
    satpRoot (makeSatp table) = table := by
  refine BitVec.eq_of_toNat_eq ?_
  rw [satpRoot, BitVec.toNat_ushiftRight, Nat.shiftRight_eq_div_pow, BitVec.toNat_shiftLeft,
    Nat.shiftLeft_eq, makeSatp_toNat small]
  simp only [pgsize_eq] at aligned
  omega

/-- What the trap frame holds does not change where it is. -/
theorem FrameMapped.setPage (mapped : FrameMapped s table tf) (page : Bytes) :
    FrameMapped (s.setPage tf page) table tf := by
  have root (s : Machine) : s.rootFor table = table := if_neg mapped.nonzero
  obtain ⟨flags, found, has⟩ := mapped.leads
  refine ⟨mapped.nonzero, mapped.aligned, mapped.small,
    ⟨flags, (translate_setPage page (by rw [root]; exact mapped.data) _).trans found, has⟩, fun q => ?_⟩
  rw [tableAt_setPage page mapped.data]
  exact mapped.data q

private theorem AtFrame.setPage (reach : AtFrame h s tf) (page : Bytes) : AtFrame h (s.setPage tf page) tf := by
  obtain ⟨table, satp, mapped⟩ := reach.mapped
  exact ⟨reach.base, table, satp, mapped.setPage page⟩

private theorem AtFrame.setX (reach : AtFrame h s tf) {r : Gpr} (other : r ≠ .a0) (v : U64) :
    AtFrame (h.setX r v) s tf :=
  ⟨(h.setX_other v other.symm).trans reach.base, reach.mapped⟩

private theorem AtFrame.setCsr (reach : AtFrame h s tf) {c : Csr} (other : c ≠ .satp) (v : U64) :
    AtFrame (h.setCsr c v) s tf := by
  obtain ⟨table, satp, mapped⟩ := reach.mapped
  exact ⟨reach.base, table, (h.setCsr_other v other.symm).trans satp, mapped⟩

/-- A field of the trap frame, as the hart finds it -/
theorem AtFrame.wordAt (reach : AtFrame h s tf) {need : U64} (access : need = pteR ∨ need = pteW) (f : TrapField) :
    h.wordAt need (wrap64 ((h.x .a0).toNat + f.offset)) s = some (tf, f.offset) := by
  obtain ⟨table, satp, mapped⟩ := reach.mapped
  obtain ⟨flags, found, readable, writable, kernel⟩ := mapped.leads
  have inside := f.offset_lt
  have word : f.offset % 8 = 0 := Nat.mul_mod_right 8 _
  have place : wrap64 ((h.x .a0).toNat + f.offset) = trapframe + f.offset := by
    rw [reach.base, BitVec.toNat_ofNat]
    simp only [trapframe_eq, pgsize_eq, wrap64] at *
    omega
  have same : translate s table (trapframe + f.offset) = some (tf, flags) := by
    have page : (trapframe + f.offset) / pgsize = trapframe / pgsize := by
      simp only [trapframe_eq, pgsize_eq] at *
      omega
    rw [translate_congr page, found]
  have allowed : PteHas flags need ∧ ¬PteHas flags pteU := by
    rcases access with rfl | rfl
    · exact ⟨readable, kernel⟩
    · exact ⟨writable, kernel⟩
  rw [Hart.wordAt, place, satp, satpRoot_makeSatp mapped.aligned mapped.small, makeSatp_mode mapped.small]
  have checked : ¬((8 : U64) ≠ 8 ∨ table = 0 ∨ (trapframe + f.offset) % 8 ≠ 0) := by
    rintro (mode | root | odd)
    · exact mode rfl
    · exact mapped.nonzero root
    · simp only [trapframe_eq] at odd
      omega
  rw [if_neg checked, same]
  dsimp only
  rw [if_pos allowed]
  simp only [trapframe_eq, pgsize_eq, Option.some.injEq, Prod.mk.injEq, true_and] at *
  omega

/-! ## Stores and loads -/

private theorem exec_sd (reach : AtFrame h s tf) (r : Gpr) (f : TrapField) :
    exec (.sd r f.offset .a0) (h, s) = some (h, s.setPage tf ((s.pages tf).setU64 f.offset (h.x r))) := by
  simp only [exec, reach.wordAt (.inr rfl), Option.bind_eq_bind, Option.bind_some]
  rfl

private theorem exec_ld (reach : AtFrame h s tf) (r : Gpr) (f : TrapField) :
    exec (.ld r f.offset .a0) (h, s) = some (h.setX r (trapWords (s.pages tf) f), s) := by
  simp only [exec, reach.wordAt (.inl rfl), Option.bind_eq_bind, Option.bind_some]
  rfl

@[simp] theorem execAll_nil (t : Hart × Machine) : execAll [] t = some t := rfl

theorem execAll_cons {i : Instr} (code : List Instr) (first : exec i t = some u) :
    execAll (i :: code) t = execAll code u := by
  simp only [execAll, List.foldlM_cons, first, Option.bind_eq_bind, Option.bind_some]

theorem execAll_append {code : List Instr} (rest : List Instr) (first : execAll code t = some u) :
    execAll (code ++ rest) t = execAll rest u := by
  simp only [execAll, List.foldlM_append] at first ⊢
  rw [first]
  rfl

/-- `sd` of several registers, each in its field -/
theorem execAll_stores (reach : AtFrame h s tf) (l : List Gpr) : ∃ page,
    execAll (l.map fun r => .sd r r.field.offset .a0) (h, s) = some (h, s.setPage tf page) ∧
      trapWords page = updates (trapWords (s.pages tf)) (l.map fun r => (r.field, h.x r)) := by
  induction l generalizing s with
  | nil => exact ⟨s.pages tf, by rw [Machine.setPage, Function.update_eq_self]; rfl, rfl⟩
  | cons r l ih =>
    obtain ⟨page, runs, words⟩ := ih (reach.setPage ((s.pages tf).setU64 r.field.offset (h.x r)))
    rw [setPage_same, trapWords_setU64] at words
    refine ⟨page, ?_, ?_⟩
    · rw [List.map_cons, execAll_cons _ (exec_sd reach r r.field), runs, setPage_setPage]
    · rw [words, List.map_cons, updates_cons]

/-- `ld` of several registers, each from its field -/
theorem execAll_loads (reach : AtFrame h s tf) {l : List Gpr} (spares : Gpr.a0 ∉ l) : ∃ x,
    execAll (l.map fun r => .ld r r.field.offset .a0) (h, s) = some ({ h with x := x }, s) ∧
      x = updates h.x (l.map fun r => (r, trapWords (s.pages tf) r.field)) := by
  induction l generalizing h with
  | nil => exact ⟨h.x, rfl, rfl⟩
  | cons r l ih =>
    obtain ⟨other, spares⟩ := not_or.mp (List.mem_cons.not.mp spares)
    obtain ⟨x, runs, loaded⟩ := ih (reach.setX (Ne.symm other) (trapWords (s.pages tf) r.field)) spares
    refine ⟨x, ?_, ?_⟩
    · rw [List.map_cons, execAll_cons _ (exec_ld reach r r.field), runs]
      rfl
    · rw [loaded, List.map_cons, updates_cons]
      rfl

/-- The registers in the order of the code; `a0` has its own turn. -/
def savedRegs : List Gpr :=
  [.ra, .sp, .gp, .tp, .t0, .t1, .t2, .s0, .s1, .a1, .a2, .a3, .a4, .a5, .a6, .a7, .s2, .s3, .s4, .s5, .s6,
    .s7, .s8, .s9, .s10, .s11, .t3, .t4, .t5, .t6]

private theorem savedRegs_nodup : savedRegs.Nodup := by decide

private theorem mem_savedRegs {r : Gpr} : r ∈ savedRegs ↔ r ≠ .a0 := by
  cases r <;> decide

/-- The offsets in the code are those of the fields. -/
theorem userVector_eq : userVector =
    .csrrw .a0 .sscratch .a0 :: (savedRegs.map fun r => .sd r r.field.offset .a0) ++
      [.csrr .t0 .sscratch, .sd .t0 Gpr.a0.field.offset .a0,
        .ld .sp TrapField.userToKernSp.offset .a0, .ld .tp TrapField.userToKernHartid.offset .a0,
        .ld .t0 TrapField.userToKernTrapvector.offset .a0, .ld .t1 TrapField.userToKernSatp.offset .a0,
        .csrw .satp .t1, .sfenceVma, .jr .t0] := rfl

private theorem userReturn_eq : userReturn =
    [.csrw .satp .a1, .sfenceVma, .ld .t0 Gpr.a0.field.offset .a0, .csrw .sscratch .t0] ++
      ((savedRegs.map fun r => .ld r r.field.offset .a0) ++ [.csrrw .a0 .sscratch .a0, .sret]) := rfl

/-! ## The two sequences -/

/-- The state in which the kernel's C code begins -/
structure InKernel (h h' : Hart) (page page' : Bytes) : Prop where
  saved : ∀ r : Gpr, trapWords page' r.field = h.x r
  kept : ∀ f, (∀ r : Gpr, r.field ≠ f) → trapWords page' f = trapWords page f
  pc : h'.pc = trapWords page .userToKernTrapvector
  sp : h'.x .sp = trapWords page .userToKernSp
  tp : h'.x .tp = trapWords page .userToKernHartid
  satp : h'.csr .satp = trapWords page .userToKernSatp

/-- What the kernel left for itself is read after the registers are saved. -/
theorem execAll_enter (reach : AtFrame h s tf) : ∃ h',
    execAll [.ld .sp TrapField.userToKernSp.offset .a0, .ld .tp TrapField.userToKernHartid.offset .a0,
        .ld .t0 TrapField.userToKernTrapvector.offset .a0, .ld .t1 TrapField.userToKernSatp.offset .a0,
        .csrw .satp .t1, .sfenceVma, .jr .t0] (h, s) = some (h', s) ∧
      h'.pc = trapWords (s.pages tf) .userToKernTrapvector ∧ h'.x .sp = trapWords (s.pages tf) .userToKernSp ∧
      h'.x .tp = trapWords (s.pages tf) .userToKernHartid ∧
      h'.csr .satp = trapWords (s.pages tf) .userToKernSatp := by
  have reach₁ := reach.setX (show Gpr.sp ≠ .a0 by decide) (trapWords (s.pages tf) .userToKernSp)
  have reach₂ := reach₁.setX (show Gpr.tp ≠ .a0 by decide) (trapWords (s.pages tf) .userToKernHartid)
  have reach₃ := reach₂.setX (show Gpr.t0 ≠ .a0 by decide) (trapWords (s.pages tf) .userToKernTrapvector)
  rw [execAll_cons _ (exec_ld reach .sp .userToKernSp), execAll_cons _ (exec_ld reach₁ .tp .userToKernHartid),
    execAll_cons _ (exec_ld reach₂ .t0 .userToKernTrapvector),
    execAll_cons _ (exec_ld reach₃ .t1 .userToKernSatp)]
  exact ⟨_, rfl, rfl, rfl, rfl, rfl⟩

/-- `a0` is in `sscratch` while the other registers are saved. -/
theorem userVector_spec (sscratch : h.csr .sscratch = BitVec.ofNat 64 trapframe)
    (satp : h.csr .satp = makeSatp table) (mapped : FrameMapped s table tf) :
    ∃ h' page, execAll userVector (h, s) = some (h', s.setPage tf page) ∧ InKernel h h' (s.pages tf) page := by
  generalize swap : (h.setCsr .sscratch (h.x .a0)).setX .a0 (h.csr .sscratch) = h₁
  have reach : AtFrame h₁ s tf := by
    subst swap
    exact ⟨(Hart.setX_same ..).trans sscratch, table, satp, mapped⟩
  have old : h₁.csr .sscratch = h.x .a0 := by
    subst swap
    exact h.setCsr_same .sscratch (h.x .a0)
  have same {r : Gpr} (other : r ≠ .a0) : h₁.x r = h.x r := by
    subst swap
    exact Hart.setX_other _ _ other
  obtain ⟨page₁, stores, words₁⟩ := execAll_stores reach savedRegs
  have reach₂ := (reach.setPage page₁).setX (show Gpr.t0 ≠ .a0 by decide) (h.x .a0)
  have store := exec_sd reach₂ .t0 Gpr.a0.field
  rw [Hart.setX_same, setPage_same, setPage_setPage] at store
  generalize page₂_eq : page₁.setU64 Gpr.a0.field.offset (h.x .a0) = page₂ at store
  have words₂ : trapWords page₂ = Function.update (trapWords page₁) Gpr.a0.field (h.x .a0) :=
    page₂_eq ▸ trapWords_setU64 page₁ Gpr.a0.field (h.x .a0)
  have saved (r : Gpr) : trapWords page₂ r.field = h.x r := by
    rw [words₂]
    by_cases a0 : r = .a0
    · subst a0
      exact Function.update_self ..
    · have nodup : (savedRegs.map Gpr.field).Nodup :=
        savedRegs_nodup.map fun _ _ => Gpr.field_inj.mp
      rw [Function.update_of_ne (fun field => a0 (Gpr.field_inj.mp field)), words₁,
        updates_mem nodup (mem_savedRegs.mpr a0), same a0]
  have kept (f : TrapField) (apart : ∀ r : Gpr, r.field ≠ f) : trapWords page₂ f = trapWords (s.pages tf) f := by
    rw [words₂, Function.update_of_ne (apart .a0).symm, words₁, updates_other fun r _ => apart r]
  have reach₃ := reach₂.setPage page₂
  rw [setPage_setPage] at reach₃
  obtain ⟨h', enters, pc, sp, tp, satp'⟩ := execAll_enter reach₃
  rw [setPage_same] at pc sp tp satp'
  have own (f : TrapField) (before : f.ctorIdx < 5) : trapWords page₂ f = trapWords (s.pages tf) f := by
    refine kept f fun r same => ?_
    rw [← same] at before
    exact absurd before (Nat.not_lt.mpr r.field_place)
  rw [own _ (by decide)] at pc sp tp satp'
  refine ⟨h', page₂, ?_, saved, kept, pc, sp, tp, satp'⟩
  rw [userVector_eq, List.cons_append, execAll_cons _ (show exec _ _ = some (h₁, s) by rw [← swap]; rfl),
    execAll_append _ stores, execAll_cons _ (show exec _ _ = some (h₁.setX .t0 (h.x .a0), _) by rw [← old]; rfl),
    execAll_cons _ store]
  exact enters

/-- The loads find each register in its field, and `a0` waits in `sscratch`. -/
theorem userReturn_spec (a0 : h.x .a0 = BitVec.ofNat 64 trapframe) (a1 : h.x .a1 = makeSatp table)
    (mapped : FrameMapped s table tf) : ∃ h', execAll userReturn (h, s) = some (h', s) ∧
      (∀ r : Gpr, h'.x r = trapWords (s.pages tf) r.field) ∧ h'.csr .sscratch = BitVec.ofNat 64 trapframe ∧
      h'.csr .satp = makeSatp table ∧ h'.csr .stvec = h.csr .stvec ∧ h'.pc = h.csr .sepc ∧
      h'.user = !decide (PteHas (h.csr .sstatus) sstatusSPP) := by
  generalize switched : h.setCsr .satp (h.x .a1) = h₁
  have reach : AtFrame h₁ s tf := by
    subst switched
    exact ⟨a0, table, (Hart.setCsr_same ..).trans a1, mapped⟩
  generalize waits : (h₁.setX .t0 (trapWords (s.pages tf) Gpr.a0.field)).setCsr .sscratch
    (trapWords (s.pages tf) Gpr.a0.field) = h₂
  have reach₂ : AtFrame h₂ s tf := by
    subst waits
    exact (reach.setX (by decide) _).setCsr (by decide) _
  obtain ⟨x, loads, loaded⟩ := execAll_loads reach₂ (mem_savedRegs.not.mpr (not_not.mpr rfl))
  have place : x .a0 = BitVec.ofNat 64 trapframe := by
    rw [loaded, updates_other fun r member => mem_savedRegs.mp member, reach₂.base]
  have found {r : Gpr} (other : r ≠ .a0) : x r = trapWords (s.pages tf) r.field := by
    have nodup : (savedRegs.map id).Nodup := by
      rw [List.map_id]
      exact savedRegs_nodup
    rw [loaded]
    exact updates_mem nodup (mem_savedRegs.mpr other)
  have waiting : h₂.csr .sscratch = trapWords (s.pages tf) Gpr.a0.field := by
    subst waits
    exact Hart.setCsr_same _ .sscratch _
  have status {c : Csr} (other : c ≠ .satp ∧ c ≠ .sscratch) : h₂.csr c = h.csr c := by
    subst waits switched
    exact (Hart.setCsr_other _ _ other.2).trans (h.setCsr_other _ other.1)
  generalize last : ({ h₂ with x := x } : Hart) = h₃ at loads
  obtain ⟨x_eq, csr_eq⟩ : h₃.x = x ∧ h₃.csr = h₂.csr := by
    subst last
    exact ⟨rfl, rfl⟩
  refine ⟨((h₃.setCsr .sscratch (h₃.x .a0)).setX .a0 (h₃.csr .sscratch)).sret, ?_, fun r => ?_, ?_, ?_, ?_, ?_, ?_⟩
  · rw [userReturn_eq, List.cons_append, List.cons_append, List.cons_append, List.cons_append, List.nil_append,
      execAll_cons _ (show exec _ _ = some (h₁, s) by rw [← switched]; rfl), execAll_cons _ rfl,
      execAll_cons _ (exec_ld reach .t0 Gpr.a0.field),
      execAll_cons _ (show exec _ _ = some (h₂, s) by rw [← waits]; simp only [exec, Hart.setX_same]),
      execAll_append _ loads]
    rfl
  · rw [Hart.sret_x]
    by_cases a0 : r = .a0
    · rw [a0, Hart.setX_same, csr_eq, waiting]
    · rw [Hart.setX_other _ _ a0, Hart.setCsr_x, x_eq, found a0]
  · rw [Hart.sret_csr _ (by decide), Hart.setX_csr, Hart.setCsr_same, x_eq, place]
  · rw [Hart.sret_csr _ (by decide), Hart.setX_csr, Hart.setCsr_other _ _ (by decide), csr_eq]
    subst waits switched
    rw [Hart.setCsr_other _ _ (by decide), Hart.setX_csr, Hart.setCsr_same, a1]
  · rw [Hart.sret_csr _ (by decide), Hart.setX_csr, Hart.setCsr_other _ _ (by decide), csr_eq, status (by decide)]
  · rw [Hart.sret_pc, Hart.setX_csr, Hart.setCsr_other _ _ (by decide), csr_eq, status (by decide)]
  · rw [Hart.sret_user, Hart.setX_csr, Hart.setCsr_other _ _ (by decide), csr_eq, status (by decide)]

/-! ## From the kernel to user mode -/

/-- The C code writes fields of its own. -/
theorem trapUserReturn_frame {proc : ProcMem} (here : s.proc p = some proc) (frame : proc.tf = tf)
    (info : TrapInfo) : ∃ page,
    trapUserReturn p info s = .ok (trapWords page .userToKernEpc) (s.setPage tf page) ∧
      ∀ r : Gpr, trapWords page r.field = trapWords (s.pages tf) r.field := by
  subst frame
  refine ⟨(((s.pages proc.tf).setU64 TrapField.userToKernHartid.offset info.hartid).setU64
    TrapField.userToKernSp.offset info.kstackTop).setU64 TrapField.userToKernTrapvector.offset info.trapvector,
    ?_, fun r => ?_⟩
  · have kept (page : Bytes) : (s.setPage proc.tf page).proc p = some proc := here
    simp only [trapUserReturn, bind, EStateM.bind, setTfField_ok here, setTfField_ok (kept _), tfField_ok (kept _),
      setPage_same, setPage_setPage]
    rfl
  · have own (f : TrapField) (before : f.ctorIdx < 5) : r.field ≠ f := by
      rintro rfl
      exact absurd before (Nat.not_lt.mpr r.field_place)
    rw [trapWords_setU64, trapWords_setU64, trapWords_setU64, Function.update_of_ne (own _ (by decide)),
      Function.update_of_ne (own _ (by decide)), Function.update_of_ne (own _ (by decide))]

section

variable (h : Hart) (linked : Linked) (epc pgtbl : U64) (junk : Gpr → U64)

private theorem atUserReturn_a0 : (h.atUserReturn linked epc pgtbl junk).x .a0 = BitVec.ofNat 64 trapframe := by
  rw [Hart.atUserReturn, Hart.setX_other _ _ (by decide), Hart.setX_same]

private theorem atUserReturn_a1 : (h.atUserReturn linked epc pgtbl junk).x .a1 = makeSatp pgtbl := by
  rw [Hart.atUserReturn, Hart.setX_same]

private theorem atUserReturn_sepc : (h.atUserReturn linked epc pgtbl junk).csr .sepc = epc := by
  rw [Hart.atUserReturn, Hart.setX_csr, Hart.setX_csr, Hart.setCsr_same]

private theorem atUserReturn_stvec : (h.atUserReturn linked epc pgtbl junk).csr .stvec = linked.userVector := by
  rw [Hart.atUserReturn, Hart.setX_csr, Hart.setX_csr, Hart.setCsr_other _ _ (by decide),
    Hart.setCsr_other _ _ (by decide), Hart.setCsr_same]

/-- `sret` will go to user mode. -/
theorem atUserReturn_status : ¬PteHas ((h.atUserReturn linked epc pgtbl junk).csr .sstatus) sstatusSPP := by
  have none (v : U64) : ¬PteHas (v &&& ~~~sstatusSPP ||| sstatusSPIE) sstatusSPP := by
    have zero (v : U64) : v &&& 0 = 0 := BitVec.and_zero
    rw [PteHas, BitVec.and_or_distrib_right, BitVec.and_assoc, BitVec.not_and_self, zero, not_not]
    decide
  rw [Hart.atUserReturn, Hart.setX_csr, Hart.setX_csr, Hart.setCsr_other _ _ (by decide), Hart.setCsr_same]
  exact none _

end

private theorem trapReturn_eq {kstack epc : U64} {junk : Gpr → U64} {proc : ProcMem}
    (returns : trapUserReturn p ⟨h.x .tp, kstack + BitVec.ofNat 64 pgsize, linked.trapUserHandler⟩ s = .ok epc s')
    (here : s'.proc p = some proc) : trapReturn p linked kstack junk (h, s) =
      execAll userReturn (h.atUserReturn linked epc proc.pgtbl junk, s') := by
  rw [trapReturn, returns]
  generalize userReturn = code
  dsimp only
  rw [here, Option.bind_eq_bind, Option.bind_some]

/-- The kernel returns to a user mode that is ready for the next trap. -/
theorem trapReturn_spec (kernel : FrameOf p tf s) (linked : Linked) (kstack : U64) (junk : Gpr → U64) :
    ∃ h' page, trapReturn p linked kstack junk (h, s) = some (h', s.setPage tf page) ∧
      UserMode linked tf (h', s.setPage tf page) ∧ (∀ r : Gpr, h'.x r = trapWords (s.pages tf) r.field) ∧
      h'.pc = trapWords page .userToKernEpc := by
  obtain ⟨proc, here, frame, mapped⟩ := kernel
  obtain ⟨page, written, same⟩ := trapUserReturn_frame here frame
    ⟨h.x .tp, kstack + BitVec.ofNat 64 pgsize, linked.trapUserHandler⟩
  have here' : (s.setPage tf page).proc p = some proc := here
  obtain ⟨h', runs, regs, sscratch, satp, stvec, pc, user⟩ := userReturn_spec
    (atUserReturn_a0 h linked (trapWords page .userToKernEpc) proc.pgtbl junk) (atUserReturn_a1 ..)
    (mapped.setPage page)
  rw [setPage_same] at regs
  refine ⟨h', page, ?_, ⟨?_, stvec.trans (atUserReturn_stvec ..), sscratch, proc.pgtbl, satp,
    mapped.setPage page⟩, fun r => (regs r).trans (same r), pc.trans (atUserReturn_sepc ..)⟩
  · exact (trapReturn_eq written here').trans runs
  · rw [user, decide_eq_false (atUserReturn_status h linked _ _ junk), Bool.not_false]

/-! ## Rounds -/

private theorem UserRuns.mode (runs : UserRuns tf t u) (mode : UserMode linked tf t) : UserMode linked tf u := by
  obtain ⟨table, satp, mapped⟩ := mode.mapped
  exact ⟨runs.user, (runs.csr .stvec (by decide)).trans mode.stvec,
    (runs.csr .sscratch (by decide)).trans mode.sscratch, table, (runs.csr .satp (by decide)).trans satp,
    runs.mapped table satp mapped⟩

/-- The trap saves the registers and nothing else of the frame. -/
theorem trapEntry_spec (mode : UserMode linked tf u) : ∃ h' page,
    trapEntry linked u = some (h', u.2.setPage tf page) ∧ InKernel u.1 h' (u.2.pages tf) page := by
  obtain ⟨table, satp, mapped⟩ := mode.mapped
  rw [trapEntry, if_pos ⟨mode.user, mode.stvec⟩]
  obtain ⟨h', page, runs, saved, kept, pc, sp, tp, satp'⟩ :=
    userVector_spec ((u.1.trap_csr (by decide)).trans mode.sscratch) ((u.1.trap_csr (by decide)).trans satp) mapped
  exact ⟨h', page, runs, fun r => (saved r).trans (congrFun u.1.trap_x r), kept, pc, sp, tp, satp'⟩

private theorem UserMode.preserves (mode : UserMode linked tf u) (p : ℕ) : Preserves p tf linked u := by
  obtain ⟨h', page, entry, kernel⟩ := trapEntry_spec mode
  refine ⟨_, entry, fun r => ?_, fun writes k kstack junk keeps => ?_⟩
  · rw [← kernel.saved r, setPage_same, trapWords]
  · obtain ⟨h'', page', returns, mode', regs, -⟩ := trapReturn_spec keeps.frame linked kstack junk
    refine ⟨_, returns, mode'.user, fun r => ?_, mode'.sscratch⟩
    rw [regs r, keeps.saved r, setPage_same, kernel.saved r]

/-- Each return leaves a user mode that is ready. -/
theorem Round.mode {e : Activity} {t' : Hart × Machine} (round : Round p tf linked t e t') :
    UserMode linked tf t' := by
  obtain ⟨-, k, -, keeps, returns⟩ := round
  obtain ⟨h', page, returns', mode, -⟩ := trapReturn_spec keeps.frame linked e.kstack e.junk
  cases returns.symm.trans returns'
  exact mode

/-! ## What the kernel does in between -/

/-- `proc_pgtbl_init` maps the trap frame. -/
theorem Initialised.frameMapped {ram : Ram} {roots : Set U64} {code : U64}
    (init : Initialised ram roots code tf s table s') (sane : ram.Sane) (aligned : tf.toNat % pgsize = 0)
    (apart : tf ∉ s.kernelUse roots) : FrameMapped s' table tf := by
  have live : table ∈ insert table roots := Set.mem_insert ..
  have nonzero := sane.kernelFrame_ne_zero init.frame
  refine ⟨nonzero, init.frame.aligned, Nat.lt_trans (sane.kernelFrame_lt init.frame) (by decide), ?_, fun q found => ?_⟩
  · rw [translate_eq (by decide), show s'.rootFor table = table from if_neg nonzero, init.leaf live,
      if_pos ⟨rfl, rfl⟩, decode, if_pos (permFlags_valid tf permRW), pteToPa_paToPte aligned (by decide), pteFlags,
      paToPte_or_and tf _ (by decide)]
    exact ⟨_, rfl, by decide, by decide, by decide⟩
  · exact apart (init.use ▸ Or.inr ⟨table, live, q, found⟩)

private theorem FrameOf.setPage (frame : FrameOf p tf s) (page : Bytes) : FrameOf p tf (s.setPage tf page) := by
  obtain ⟨proc, here, same, mapped⟩ := frame
  exact ⟨proc, here, same, mapped.setPage page⟩

/-- One activity after another; the later writes count. -/
theorem KernelKeeps.trans {writes' : Gpr → Option U64} {s'' : Machine} (first : KernelKeeps p tf writes s s')
    (second : KernelKeeps p tf writes' s' s'') :
    KernelKeeps p tf (fun r => (writes' r).or (writes r)) s s'' := by
  refine ⟨second.frame, fun r => ?_⟩
  rw [second.saved r, first.saved r]
  cases writes' r <;> rfl

/-- A write of the C code to a field, such as `a0` for the result of a system call -/
theorem setTfField_keeps (frame : FrameOf p tf s) (f : TrapField) (v : U64) : ∃ s',
    setTfField p f.offset v s = .ok () s' ∧
      KernelKeeps p tf (fun r => if r.field = f then some v else none) s s' := by
  obtain ⟨proc, here, rfl, mapped⟩ := frame
  refine ⟨_, setTfField_ok here f.offset v, (show FrameOf p proc.tf s from ⟨proc, here, rfl, mapped⟩).setPage _,
    fun r => ?_⟩
  rw [setPage_same, trapWords_setU64, Function.update_apply]
  split <;> rfl

/-- A system call writes the program counter twice, and its result. -/
theorem ecall_keeps (frame : FrameOf p tf s) (sepc ret : U64) : ∃ s₁ s₂,
    trapEnter p sepc s = .ok () s₁ ∧ setTfField p (tfArg 0) ret s₁ = .ok () s₂ ∧
      KernelKeeps p tf (fun r => if r = .a0 then some ret else none) s s₂ := by
  obtain ⟨s₀, first, keeps₀⟩ := setTfField_keeps frame .userToKernEpc sepc
  obtain ⟨s₁, second, keeps₁⟩ := setTfField_keeps keeps₀.frame .userToKernEpc (sepc + 4)
  obtain ⟨s₂, third, keeps₂⟩ := setTfField_keeps keeps₁.frame Gpr.a0.field ret
  refine ⟨s₁, s₂, ?_, third, keeps₂.frame, fun r => ?_⟩
  · simp only [trapEnter, bind, EStateM.bind, ← offsets_agree.1, first, second]
  · have own : r.field ≠ .userToKernEpc := by
      intro same
      exact absurd r.field_place (by rw [same]; decide)
    rw [(keeps₀.trans (keeps₁.trans keeps₂)).saved r]
    simp only [Gpr.field_inj, if_neg own, Option.or_none]

/-! ## Any number of traps -/

/-- However often a process traps, from its first return to user mode on, the next trap saves all its
registers in the fields of their names and the return gives them back. -/
theorem traps_preserve {kstack : U64} {junk : Gpr → U64} {events : List Activity} {t' : Hart × Machine}
    (kernel : FrameOf p tf s) (enters : trapReturn p linked kstack junk (h, s) = some t)
    (run : Run (Round p tf linked) t events t') (user : UserRuns tf t' u) : Preserves p tf linked u := by
  obtain ⟨h', page, returns, start, -⟩ := trapReturn_spec kernel linked kstack junk
  cases enters.symm.trans returns
  have mode : UserMode linked tf t' := run.invariant (fun _ _ _ round _ => round.mode) start
  exact (user.mode mode).preserves p

/-- A process whose page table is not built yet -/
def frameMachine : Machine :=
  trapMachine.setProc 0 (some ⟨0x80201000, 0x80208000, 0, 0, [], .running, none, 0⟩)

/-- Such a process with its page table -/
theorem frameMachine_frame : ∃ s, procPgtblInit 0x80001000 0x80208000 frameMachine = .ok 0x80201000 s ∧
    FrameOf 0 0x80208000 s := by
  have tables : frameMachine.Tables ⟨0x80200000⟩ ∅ := trapMachine_tables.of_pages rfl rfl rfl
  have sane : Ram.Sane ⟨0x80200000⟩ := ⟨by decide, by decide, by decide⟩
  have returns : (match procPgtblInit 0x80001000 0x80208000 frameMachine with
      | .ok tbl _ => decide (tbl = 0x80201000)
      | .error .. => false) = true := by decide +kernel
  cases inits : procPgtblInit 0x80001000 0x80208000 frameMachine with
  | error e s =>
    rw [inits] at returns
    cases returns
  | ok tbl s =>
    rw [inits] at returns
    obtain rfl := of_decide_eq_true returns
    have init := (procPgtblInit_shows tables sane (by decide)).returns _ _ inits
    refine ⟨s, rfl, _, congrFun (congrArg View.proc init.shows.view) 0, rfl,
      init.frameMapped sane (by decide) ?_⟩
    rintro (free | ⟨r, none, _⟩)
    · exact absurd free (by decide +kernel)
    · exact none

/-- After a system call that returns 7 -/
theorem traps_preserve_one : ∃ s t e t', FrameOf 0 0x80208000 s ∧
    trapReturn 0 ⟨0x3ffffff000, 0x80000100⟩ 0x3fffffc000 (fun _ => 5) (⟨fun _ => 0, fun _ => 0, 0, false⟩, s) =
      some t ∧ Run (Round 0 0x80208000 ⟨0x3ffffff000, 0x80000100⟩) t [e] t' ∧ t'.1.x .a0 = 7 ∧
    Preserves 0 0x80208000 ⟨0x3ffffff000, 0x80000100⟩ t' := by
  obtain ⟨s, -, kernel⟩ := frameMachine_frame
  obtain ⟨h, page, enters, mode, -⟩ := trapReturn_spec (h := ⟨fun _ => 0, fun _ => 0, 0, false⟩) kernel
    ⟨0x3ffffff000, 0x80000100⟩ 0x3fffffc000 fun _ => 5
  have still (t : Hart × Machine) (mode : UserMode ⟨0x3ffffff000, 0x80000100⟩ 0x80208000 t) :
      UserRuns 0x80208000 t t := ⟨mode.user, fun _ _ => rfl, fun _ _ mapped => mapped⟩
  obtain ⟨k, page', entry, -⟩ := trapEntry_spec mode
  obtain ⟨s₁, s₂, -, -, keeps⟩ := ecall_keeps ((kernel.setPage page).setPage page') 0x1000 7
  obtain ⟨h', page'', returns, mode', regs, -⟩ := trapReturn_spec (h := k) keeps.frame
    ⟨0x3ffffff000, 0x80000100⟩ 0x3fffffc000 fun _ => 5
  have round : Round 0 0x80208000 ⟨0x3ffffff000, 0x80000100⟩ (h, s.setPage 0x80208000 page)
      ⟨(h, s.setPage 0x80208000 page), _, (k, s₂), 0x3fffffc000, fun _ => 5⟩ (h', s₂.setPage 0x80208000 page'') :=
    ⟨still _ mode, _, entry, keeps, returns⟩
  have run : Run (Round 0 0x80208000 ⟨0x3ffffff000, 0x80000100⟩) _ [_] _ := .cons round (.nil _)
  exact ⟨s, _, _, _, kernel, enters, run, (regs .a0).trans (keeps.saved .a0),
    traps_preserve kernel enters run (still _ mode')⟩

end LabKernel
