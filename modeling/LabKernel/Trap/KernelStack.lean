import LabKernel.Mem.Boot
import LabKernel.Trap.Switch

/-! # Interrupts on the kernel's stacks

`kvm_init` maps two pages for the stack of each process, and `kernel_vector` saves the registers on the stack
that is in use. As long as the kernel's page table is that of `kvm_init`, the stores find their words on any
stack with room for them, and reach no other memory.
-/

namespace LabKernel

/-- The tree of a page table is the same in both states. -/
structure SameTables (root : U64) (s t : Machine) : Prop where
  tableAt : ∀ q, t.tableAt root q = s.tableAt root q
  translate : ∀ va, translate t root va = translate s root va

variable {ram : Ram} {root : U64} {ranges : List KernelRange} {s t : Machine} {h : Hart} {image : KernelImage ram}
  {pool : List U64}

open Machine

/-- The root of the kernel's page table is in the kernel's pool. -/
theorem Booted.rooted (booted : Booted ram root ranges s) (sane : ram.Sane) : Rooted root := by
  have frame : ram.KernelFrame root := booted.confined.tables.frame root rfl none root rfl
  have small := sane.kernelFrame_lt frame
  exact ⟨sane.kernelFrame_ne_zero frame, frame.aligned, by omega⟩

private theorem Booted.translate_root (booted : Booted ram root ranges s) (real : root ≠ 0) (va : ℕ) :
    LabKernel.translate s root va = LabKernel.translate s 0 va := by
  have same : s.rootFor root = s.rootFor 0 := (if_neg real).trans booted.kernel.symm
  rcases Nat.lt_or_ge va vaMax with low | high
  · rw [translate_eq low, translate_eq low, same]
  · rw [translate_high high, translate_high high]

/-- Where a word of a stack is -/
def stackWord (pool : List U64) (i va : ℕ) : U64 × ℕ := (pool.getD (2 * i + (va - kstack i) / pgsize) 0, va % pgsize)

/-- A register frame anywhere on a stack is in memory. -/
theorem Booted.stackFrame {i : ℕ} {base : U64} {regs : List Gpr}
    (booted : Booted ram root (kernelRanges image pool nProc) s) (sane : ram.Sane) (nodup : pool.Nodup)
    (users : ∀ a ∈ pool, ram.UserFrame a) (enough : 2 * nProc ≤ pool.length) (same : SameTables root s t)
    (bound : i < nProc) (word : base.toNat % 8 = 0) (low : kstack i ≤ base.toNat)
    (high : base.toNat + 8 * regs.length ≤ kstack i + 2 * pgsize) :
    InMemory regs t root base fun r => stackWord pool i (base.toNat + fieldOffset regs r) := by
  have rooted := booted.rooted sane
  have bottom : kstack i = 274877898752 - (i + 1) * 8192 := by
    simp only [kstack, trapframe_eq, pgsize_eq]
    omega
  simp only [nProc] at bound enough
  simp only [pgsize_eq] at high
  have inside (r : Gpr) (saved : r ∈ regs) : base.toNat + fieldOffset regs r - kstack i < 2 * pgsize := by
    have field := (fieldOffset_bound saved).2
    simp only [pgsize_eq]
    omega
  have index (r : Gpr) (saved : r ∈ regs) :
      2 * i + (base.toNat + fieldOffset regs r - kstack i) / pgsize < pool.length := by
    have here := inside r saved
    simp only [pgsize_eq] at here ⊢
    omega
  have user (r : Gpr) (saved : r ∈ regs) :
      ram.UserFrame (stackWord pool i (base.toNat + fieldOffset regs r)).1 := by
    rw [stackWord, List.getD_eq_getElem _ _ (index r saved)]
    exact users _ (List.getElem_mem _)
  refine ⟨word, by omega, fun r saved => ?_, fun _ _ => rfl, fun r saved q => ?_, fun r saved r' saved' place => ?_⟩
  · obtain ⟨m, here, covers, perm, frame⟩ := @stack_page ram image pool nProc i _ bound (inside r saved)
    have back : kstack i + (base.toNat + fieldOffset regs r - kstack i) = base.toNat + fieldOffset regs r := by
      omega
    rw [back] at covers frame
    have target := (booted.translate (base.toNat + fieldOffset regs r)).1 m here covers
    rw [KernelRange.target, frame, perm] at target
    refine ⟨_, (same.translate _).trans ((booted.translate_root rooted.nonzero _).trans target), ?_, ?_, ?_⟩ <;> decide
  · rw [same.tableAt]
    exact booted.confined.tables.user_apart (user r saved) rfl q
  · obtain ⟨frames, offsets⟩ := Prod.mk.inj place
    rw [List.getD_eq_getElem _ _ (index r saved), List.getD_eq_getElem _ _ (index r' saved')] at frames
    have page := nodup.getElem_inj_iff.mp frames
    simp only [pgsize_eq] at page offsets
    have field : fieldOffset regs r = fieldOffset regs r' := by omega
    exact (List.idxOf_inj saved).mp (Nat.eq_of_mul_eq_mul_left (by decide) field)

/-- After `kvm_init`, as long as the kernel's page table stays as it is, an interrupt of the kernel on the stack of
any process, wherever there is room for the registers, is taken without a fault: `kernel_vector` saves them in the
two pages of this stack, one word each, and writes to no other word. -/
theorem interrupts_stay_on_stack (sane : ram.Sane) (image : KernelImage ram)
    (lists : ∀ k, s.pagePool k = (ram.poolPages k).reverse) (room : 2 * nProc ≤ ram.userFrames) :
    Yields (kvmInit image) s fun _ s' => ∀ t, SameTables s'.kernPagetable s' t → ∀ i < nProc, ∀ h : Hart,
      h.csr .satp = makeSatp s'.kernPagetable → (h.x .sp).toNat % 8 = 0 → kstack i + 256 ≤ (h.x .sp).toNat →
      (h.x .sp).toNat ≤ kstack i + 2 * pgsize → ∃ k, ∃ place : Gpr → U64 × ℕ, kernelVectorEntry (h, t) = some k ∧
        Function.Injective place ∧ (∀ r, (place r).2 % 8 = 0 ∧ (place r).2 + 8 ≤ pgsize) ∧
        (∀ r, k.2.word (place r) = (h.addi .sp .sp (-256)).x r) ∧
        (∀ w, w.2 % 8 = 0 → (∀ r, w ≠ place r) → k.2.word w = t.word w) ∧
        ∀ r, ∃ x < 2 * pgsize, ∃ flags, translate s' 0 (kstack i + x) = some ((place r).1, flags) := by
  obtain ⟨users, nodup, enough⟩ := userPool_spec sane (lists false) room
  apply (kvmInit_booted sane image lists room).mono
  rintro _ s' ⟨⟨root, booted⟩, -⟩ t same i bound h satp word low high
  rw [booted.kernel] at same satp
  have rooted := booted.rooted sane
  have minus : (BitVec.ofInt 64 (-256)).toNat = 2 ^ 64 - 256 := by decide
  have base : (h.x .sp + BitVec.ofInt 64 (-256)).toNat = (h.x .sp).toNat - 256 := by
    have small := (h.x .sp).isLt
    rw [BitVec.toNat_add, minus]
    omega
  have regs : kernelRegs.length = 31 := rfl
  have frame := @Booted.stackFrame _ _ _ t image s.userPool i (h.x .sp + BitVec.ofInt 64 (-256)) kernelRegs booted sane
    nodup users enough same bound (by omega) (by omega) (by omega)
  obtain ⟨t', entry, stored, spared, -⟩ := kernelVectorEntry_saves rooted satp frame
  have injective : Function.Injective
      fun r => stackWord s.userPool i ((h.x .sp + BitVec.ofInt 64 (-256)).toNat + fieldOffset kernelRegs r) :=
    fun r r' => frame.once r (mem_kernelRegs r) r' (mem_kernelRegs r')
  refine ⟨_, _, entry, injective, fun r => ?_, stored, spared, fun r => ?_⟩
  · have aligned := frame.aligned (mem_kernelRegs r)
    refine ⟨aligned, ?_⟩
    simp only [stackWord, pgsize_eq] at aligned ⊢
    omega
  · obtain ⟨flags, leads, -⟩ := frame.leads r (mem_kernelRegs r)
    rw [same.translate, booted.translate_root rooted.nonzero] at leads
    have field := (fieldOffset_bound (mem_kernelRegs r)).2
    refine ⟨(h.x .sp + BitVec.ofInt 64 (-256)).toNat + fieldOffset kernelRegs r - kstack i, ?_, flags, ?_⟩
    · simp only [pgsize_eq] at high ⊢
      omega
    · rw [Nat.add_sub_cancel' (by omega)]
      exact leads

section

attribute [local irreducible] kvmInit kernelRanges bootLists

theorem interrupts_stay_on_stack_small : Yields (kvmInit smallImage) (bootLists ⟨0x80200000⟩) fun _ s' =>
    ∃ k, ∃ place : Gpr → U64 × ℕ,
      kernelVectorEntry
          (⟨fun _ => BitVec.ofNat 64 (kstack 3 + 4352), fun _ => makeSatp s'.kernPagetable, 0, false⟩, s') =
        some k ∧ Function.Injective place ∧ ∀ w, w.2 % 8 = 0 → (∀ r : Gpr, w ≠ place r) → k.2.word w = s'.word w := by
  apply (interrupts_stay_on_stack ⟨by decide, by decide, by decide⟩ smallImage (bootLists_pool _) (by decide)).mono
  intro _ s' all
  have word : (BitVec.ofNat 64 (kstack 3 + 4352)).toNat % 8 = 0 := by decide
  have low : kstack 3 + 256 ≤ (BitVec.ofNat 64 (kstack 3 + 4352)).toNat := by decide
  have high : (BitVec.ofNat 64 (kstack 3 + 4352)).toNat ≤ kstack 3 + 2 * pgsize := by decide
  obtain ⟨k, place, entry, once, -, -, spared, -⟩ := all s' ⟨fun _ => rfl, fun _ => rfl⟩ 3 (by decide)
    ⟨fun _ => BitVec.ofNat 64 (kstack 3 + 4352), fun _ => makeSatp s'.kernPagetable, 0, false⟩ rfl word low high
  exact ⟨k, place, entry, once, spared⟩

end

end LabKernel
