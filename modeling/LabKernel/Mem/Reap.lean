import LabKernel.Mem.Copies
import LabKernel.Mem.Fork

/-! # Page tables of reaped processes

`proc_free` returns the trap frame, the root table and the user pages of a process. The tables between
the root and the pages, which `vm_getpte` attaches, stay taken, where `uvm_destroy_pgtbl` returns them:
each child that is reaped leaves the kernel's pool short of them.
-/

namespace LabKernel

/-- The loop of `proc_free` over the list of regions -/
def freeMmap (ram : Ram) (pgtbl : U64) : List Region → MemM Unit
  | [] => return ()
  | m :: next => do
    vmUnmappages ram pgtbl m.begin (lenOf m.npages) true
    mmapRegionFree m.node
    freeMmap ram pgtbl next

/-- The part of `proc_free` for the page table -/
def freePgtbl (ram : Ram) (p : ProcMem) : MemM Unit := do
  vmUnmappages ram p.pgtbl userBase pgsize true
  if userBase + pgsize < p.heapTop then
    vmUnmappages ram p.pgtbl (userBase + pgsize) (p.heapTop - (userBase + pgsize)) true
  if 0 < p.ustackNpage then
    vmUnmappages ram p.pgtbl (stackBase p.ustackNpage) (wrap64 (p.ustackNpage * pgsize)) true
  freeMmap ram p.pgtbl p.mmap
  vmUnmappages ram p.pgtbl trampoline pgsize false
  vmUnmappages ram p.pgtbl trapframe pgsize false
  pmemFree ram p.pgtbl true

/-- `proc_free`, its memory part -/
def procFree (ram : Ram) (c : ℕ) : MemM Unit := do
  let p ← myproc c
  if p.tf ≠ 0 then pmemFree ram p.tf true
  if p.pgtbl ≠ 0 then freePgtbl ram p
  let regions := if p.pgtbl ≠ 0 then [] else p.mmap
  setMyproc c { p with tf := 0, pgtbl := 0, mmap := regions, parent := none, state := .unused }

/-- `proc_exit` up to the scheduler; the first process is at place 0. -/
def procExit (c : ℕ) (code : U32) : MemM Unit := do
  if c = 0 then throw (.panic "init process exiting")
  modify fun s => { s with
    proc := fun i => (s.proc i).map fun p =>
      if p.parent = some c then { p with parent := some 0 } else p }
  let curr ← myproc c
  setMyproc c { curr with exitCode := code, state := .zombie }

/-- `proc_wait`: the child that was reaped. A process whose children all run waits for one to exit. -/
def procWait (ram : Ram) (k : ℕ) (addr : U64) : MemM (Option ℕ) := do
  let curr ← myproc k
  let s ← get
  match (List.range nProc).find? fun i =>
    (s.proc i).any fun p => p.parent = some k ∧ p.state = .zombie with
  | some c =>
    let p ← myproc c
    procFree ram c
    if addr ≠ 0 then uvmCopyout curr.pgtbl addr.toNat (Bytes.leBytes p.exitCode.toNat) 4
    return some c
  | none =>
    if (List.range nProc).any fun i => (s.proc i).any fun p => p.parent = some k then throw .hang
    return none

/-! ## The kernel's pool -/

variable {ram : Ram} {roots : Set U64} {s s' : Machine}

open Machine

/-- Nothing is taken from the kernel's pool or given to it, and the descriptors stay. -/
structure PoolKept (s s' : Machine) : Prop where
  pool : s'.kernelPool = s.kernelPool
  proc : s'.proc = s.proc

private theorem PoolKept.refl (s : Machine) : PoolKept s s := ⟨rfl, rfl⟩

private theorem PoolKept.trans {s'' : Machine} (first : PoolKept s s') (second : PoolKept s' s'') :
    PoolKept s s'' := ⟨second.pool.trans first.pool, second.proc.trans first.proc⟩

private theorem walk_kept (va level : ℕ) (table : U64) :
    Returns (walk va false level table) s (fun _ s' => s' = s) := by
  induction level generalizing table with
  | zero => exact Returns.pure_iff.mpr rfl
  | succ level ih =>
    rw [walk, Returns.bind_iff, Returns.get_iff]
    refine .ite (fun _ => ?_) fun _ => .ite (fun _ => ?_) fun _ => ih _
    · exact Returns.pure_iff.mpr rfl
    · exact Returns.pure_iff.mpr rfl

theorem vmGetpte_kept (table : U64) (va : ℕ) :
    Returns (vmGetpte table va false) s (fun _ s' => s' = s) := by
  rw [vmGetpte, Returns.bind_iff, Returns.get_iff]
  refine .ite (fun _ => Returns.pure_iff.mpr rfl) fun _ => ?_
  rw [Returns.bind_iff]
  refine (walk_kept va 2 _).mono ?_
  rintro (_ | _) _ rfl <;> exact Returns.pure_iff.mpr rfl

private theorem pmemFree_kept (a : U64) : Returns (pmemFree ram a false) s fun _ s' => PoolKept s s' := by
  rw [pmemFree]
  refine .ite (fun _ => by simp) fun _ => ?_
  simp only [Bool.false_eq_true, if_false]
  refine .ite (fun _ => by simp) fun _ => ?_
  rw [Returns.modify_iff]
  exact ⟨rfl, rfl⟩

/-- A page that goes back to the kernel's pool -/
theorem pmemFree_gives (a : U64) : Returns (pmemFree ram a true) s fun _ s' =>
    s'.kernelPool = a :: s.kernelPool ∧ s'.proc = s.proc := by
  rw [pmemFree]
  refine .ite (fun _ => by simp) fun _ => ?_
  simp only [if_true]
  refine .ite (fun _ => by simp) fun _ => ?_
  rw [Returns.modify_iff]
  exact ⟨rfl, rfl⟩

private theorem unmapPage_kept (table : U64) (doFree : Bool) (va : ℕ) :
    Returns (unmapPage ram table doFree va) s fun _ s' => PoolKept s s' := by
  rw [unmapPage, Returns.bind_iff]
  refine (vmGetpte_kept table va).mono ?_
  rintro (_ | ⟨t, i⟩) _ rfl
  · exact Returns.pure_iff.mpr (.refl _)
  · simp only [Returns.bind_iff, Returns.get_iff]
    refine .ite (fun _ => .ite (fun _ => ?_) fun _ => ?_) fun _ => Returns.pure_iff.mpr (.refl _)
    · rw [Returns.bind_iff]
      exact (pmemFree_kept _).mono fun _ s₁ kept => Returns.modify_iff.mpr ⟨kept.pool, kept.proc⟩
    · exact Returns.modify_iff.mpr ⟨rfl, rfl⟩

private theorem unmapLoop_kept (table : U64) (doFree : Bool) (stop fuel va : ℕ) :
    Returns (unmapLoop ram table doFree stop fuel va) s fun _ s' => PoolKept s s' := by
  induction fuel generalizing s va with
  | zero => exact Returns.throw_iff.mpr trivial
  | succ fuel ih =>
    rw [unmapLoop]
    refine .ite (fun _ => ?_) fun _ => Returns.pure_iff.mpr (.refl _)
    rw [Returns.bind_iff]
    exact (unmapPage_kept table doFree va).mono fun _ s₁ first => (ih _).mono fun _ s' rest =>
      first.trans rest

private theorem vmUnmappages_kept (table : U64) (va len : ℕ) (doFree : Bool) :
    Returns (vmUnmappages ram table va len doFree) s fun _ s' => PoolKept s s' := by
  rw [vmUnmappages]
  exact .ite (fun _ => by simp) fun _ => .ite (fun _ => by simp) fun _ => unmapLoop_kept _ _ _ _ _

private theorem freeMmap_kept (table : U64) (regions : List Region) :
    Returns (freeMmap ram table regions) s fun _ s' => PoolKept s s' := by
  induction regions generalizing s with
  | nil => exact Returns.pure_iff.mpr (.refl s)
  | cons m next ih =>
    rw [freeMmap, Returns.bind_iff]
    refine (vmUnmappages_kept table _ _ true).mono fun _ s₁ first => ?_
    rw [mmapRegionFree, Returns.bind_iff, Returns.modify_iff]
    exact ih.mono fun _ s' rest => ⟨rest.pool.trans first.pool, rest.proc.trans first.proc⟩

/-- Of a page table only the root goes back to the kernel's pool. -/
theorem freePgtbl_gives (p : ProcMem) : Returns (freePgtbl ram p) s fun _ s' =>
    s'.kernelPool = p.pgtbl :: s.kernelPool ∧ s'.proc = s.proc := by
  have last {s₁ : Machine} (before : PoolKept s s₁) : Returns (do
      freeMmap ram p.pgtbl p.mmap
      vmUnmappages ram p.pgtbl trampoline pgsize false
      vmUnmappages ram p.pgtbl trapframe pgsize false
      pmemFree ram p.pgtbl true) s₁ fun _ s' =>
        s'.kernelPool = p.pgtbl :: s.kernelPool ∧ s'.proc = s.proc := by
    rw [Returns.bind_iff]
    refine (freeMmap_kept _ _).mono fun _ s₂ second => ?_
    rw [Returns.bind_iff]
    refine (vmUnmappages_kept _ _ _ _).mono fun _ s₃ third => ?_
    rw [Returns.bind_iff]
    refine (vmUnmappages_kept _ _ _ _).mono fun _ s₄ fourth => (pmemFree_gives p.pgtbl).mono fun _ s' after => ?_
    have kept := ((before.trans second).trans third).trans fourth
    exact ⟨after.1.trans (congrArg (p.pgtbl :: ·) kept.pool), after.2.trans kept.proc⟩
  have stack {s₁ : Machine} (before : PoolKept s s₁) : Returns (do
      if 0 < p.ustackNpage then
        vmUnmappages ram p.pgtbl (stackBase p.ustackNpage) (wrap64 (p.ustackNpage * pgsize)) true
      freeMmap ram p.pgtbl p.mmap
      vmUnmappages ram p.pgtbl trampoline pgsize false
      vmUnmappages ram p.pgtbl trapframe pgsize false
      pmemFree ram p.pgtbl true) s₁ fun _ s' =>
        s'.kernelPool = p.pgtbl :: s.kernelPool ∧ s'.proc = s.proc := by
    refine .ite (fun _ => ?_) fun _ => last before
    rw [Returns.bind_iff]
    exact (vmUnmappages_kept _ _ _ _).mono fun _ s₂ second => last (before.trans second)
  rw [freePgtbl, Returns.bind_iff]
  refine (vmUnmappages_kept _ _ _ _).mono fun _ s₁ first => .ite (fun _ => ?_) fun _ => stack first
  rw [Returns.bind_iff]
  exact (vmUnmappages_kept _ _ _ _).mono fun _ s₂ second => stack (first.trans second)

private theorem procFree_gives {c : ℕ} {p : ProcMem} (proc : s.proc c = some p) (table : p.pgtbl ≠ 0)
    (trap : p.tf ≠ 0) : Returns (procFree ram c) s fun _ s' =>
      s'.kernelPool = p.pgtbl :: p.tf :: s.kernelPool := by
  rw [procFree, Returns.bind_iff]
  refine (myproc_ends proc (E := fun _ => False)).returns.mono ?_
  rintro _ _ ⟨rfl, rfl⟩
  simp only [trap, table, ne_eq, not_false_eq_true, if_true, Returns.bind_iff]
  refine (pmemFree_gives _).mono fun _ s₁ first => (freePgtbl_gives _).mono fun _ s₂ second => ?_
  rw [setMyproc, Returns.modify_iff]
  exact second.1.trans (congrArg (_ :: ·) first.1)

private theorem copyoutLoop_kept (table : U64) (dst : ℕ) (src : Bytes) (len fuel copied : ℕ) :
    Returns (copyoutLoop table dst src len fuel copied) s fun _ s' => PoolKept s s' := by
  induction fuel generalizing s copied with
  | zero => exact Returns.throw_iff.mpr trivial
  | succ fuel ih =>
    rw [copyoutLoop]
    refine .ite (fun _ => ?_) fun _ => Returns.pure_iff.mpr (.refl s)
    rw [Returns.bind_iff]
    refine (vmGetpte_kept table _).mono ?_
    rintro (_ | ⟨t, i⟩) _ rfl
    · exact Returns.throw_iff.mpr trivial
    · simp only [Returns.bind_iff, Returns.get_iff]
      refine .ite (fun _ => by simp) fun _ => ?_
      simp only [Returns.bind_iff, Returns.modify_iff]
      exact (ih _).mono fun _ s' kept => ⟨kept.pool, kept.proc⟩

private theorem uvmCopyout_kept (table : U64) (dst : ℕ) (src : Bytes) (len : ℕ) :
    Returns (uvmCopyout table dst src len) s fun _ s' => PoolKept s s' :=
  copyoutLoop_kept _ _ _ _ _ _

/-- A process that exits keeps its table and its trap frame. -/
theorem procExit_keeps {c : ℕ} {p : ProcMem} {code : U32} (proc : s.proc c = some p) :
    Returns (procExit c code) s fun _ s' => s'.kernelPool = s.kernelPool ∧
      ∃ p', s'.proc c = some p' ∧ p'.pgtbl = p.pgtbl ∧ p'.tf = p.tf := by
  rw [procExit]
  refine .ite (fun _ => by simp) fun _ => ?_
  rw [Returns.bind_iff, Returns.modify_iff, Returns.bind_iff]
  refine (myproc_ends (congrArg (Option.map _) proc) (E := fun _ => False)).returns.mono ?_
  rintro curr _ ⟨rfl, rfl⟩
  rw [setMyproc, Returns.modify_iff]
  refine ⟨rfl, _, Function.update_self .., ?_, ?_⟩
  · simp only
    split <;> rfl
  · simp only
    split <;> rfl

/-- Of a child that is reaped the trap frame and the root table go back. -/
theorem procWait_gives {k c : ℕ} {p : ProcMem} {addr : U64} (proc : s.proc c = some p)
    (table : p.pgtbl ≠ 0) (trap : p.tf ≠ 0) : Returns (procWait ram k addr) s fun r s' =>
      r = some c → s'.kernelPool = p.pgtbl :: p.tf :: s.kernelPool := by
  have tail (pgtbl : U64) {s₁ : Machine} (i : ℕ) (code : U32)
      (freed : i = c → s₁.kernelPool = p.pgtbl :: p.tf :: s.kernelPool) : Returns (do
        if addr ≠ 0 then uvmCopyout pgtbl addr.toNat (Bytes.leBytes code.toNat) 4
        return some i) s₁ fun r s' => r = some c → s'.kernelPool = p.pgtbl :: p.tf :: s.kernelPool := by
    refine .ite (fun _ => ?_) fun _ => ?_
    · rw [Returns.bind_iff]
      refine (uvmCopyout_kept _ _ _ _).mono fun _ s' kept => Returns.pure_iff.mpr ?_
      exact fun same => kept.pool.trans (freed (Option.some.inj same))
    · exact Returns.pure_iff.mpr fun same => freed (Option.some.inj same)
  rw [procWait, Returns.bind_iff]
  cases parent : s.proc k with
  | none => simp [myproc, parent]
  | some curr =>
    refine (myproc_ends parent (E := fun _ => False)).returns.mono ?_
    rintro _ _ ⟨rfl, rfl⟩
    rw [Returns.bind_iff, Returns.get_iff]
    split
    case h_1 i found =>
      have test := List.find?_some found
      obtain ⟨q, here, -⟩ := (Option.any_eq_true ..).mp test
      rw [Returns.bind_iff]
      refine (myproc_ends here (E := fun _ => False)).returns.mono ?_
      rintro _ _ ⟨rfl, rfl⟩
      rw [Returns.bind_iff]
      by_cases same : i = c
      · subst same
        obtain rfl := Option.some.inj (proc.symm.trans here)
        exact (procFree_gives proc table trap).mono fun _ s₁ freed => tail _ i _ fun _ => freed
      · exact fun _ s₁ _ => tail _ i _ fun one => absurd one same
    case h_2 => exact .ite (fun _ => by simp) fun _ => Returns.pure_iff.mpr (by simp)

/-- Both pools hold the free pages that they held before, each once. -/
def Restored (s t : Machine) : Prop :=
  t.kernelPool.Perm s.kernelPool ∧ t.userPool.Perm s.userPool

/-- A child that is forked, exits and is reaped leaves the kernel's pool short of the tables between its
root table and its pages. -/
theorem reaped_child_leaks {k c : ℕ} {p : ProcMem} {code : U64} {exitCode : U32} {addr : U64}
    {s₁ s₂ s₃ : Machine} (space : AddressSpace ram roots s k p) (sane : ram.Sane)
    (fork : procFork code k s = .ok (some c) s₁) (exit : procExit c exitCode s₁ = .ok () s₂)
    (wait : procWait ram k addr s₂ = .ok (some c) s₃) :
    ¬Restored s s₃ ∧ ∃ lost, lost ≠ [] ∧ s.kernelPool.Perm (lost ++ s₃.kernelPool) := by
  obtain ⟨q, forked⟩ := (procFork_ends space sane code).returns _ _ fork
  obtain ⟨pool, q', proc, table, trap⟩ := procExit_keeps forked.child.proc _ _ exit
  have given := procWait_gives proc (table ▸ sane.kernelFrame_ne_zero forked.frames.1)
    (trap ▸ sane.kernelFrame_ne_zero forked.frames.2) _ _ wait rfl
  obtain ⟨lost, some, taken⟩ := forked.taken
  have perm : s.kernelPool.Perm (lost ++ s₃.kernelPool) := by
    rw [given, table, trap, pool, taken]
    refine (List.Perm.swap ..).trans ?_
    exact (List.perm_middle.trans (List.perm_middle.cons _)).symm
  refine ⟨fun restored => some ?_, lost, some, perm⟩
  have lengths := (restored.1.trans perm).length_eq
  rw [List.length_append] at lengths
  exact List.length_eq_zero_iff.mp (by omega)

set_option maxRecDepth 30000 in
private theorem forkMachine_reaped : ∃ s s₁ s₂ s₃,
    AddressSpace ⟨0x80200000⟩ {0x80200000} s 0 forkProc ∧
    procFork 0x80000000 0 s = .ok (some 1) s₁ ∧ procExit 1 0 s₁ = .ok () s₂ ∧
    procWait ⟨0x80200000⟩ 0 0 s₂ = .ok (some 1) s₃ ∧
    s₃.kernelPool.length < s.kernelPool.length := by
  obtain ⟨s, mapped, space⟩ := forkMachine_space
  have returns : returnsWith forkSetup forkMachine (fun _ s =>
      returnsWith (procFork 0x80000000 0) s fun r s₁ =>
        returnsWith (procExit 1 0) s₁ fun _ s₂ =>
          returnsWith (procWait ⟨0x80200000⟩ 0 0) s₂ fun r' s₃ =>
            decide (r = some 1 ∧ r' = some 1 ∧ s₃.kernelPool.length < s.kernelPool.length)) = true := by
    decide +kernel
  rw [returnsWith, mapped] at returns
  obtain ⟨r, s₁, fork, returns⟩ := ok_of_returnsWith returns
  obtain ⟨u, s₂, exit, returns⟩ := ok_of_returnsWith returns
  obtain ⟨r', s₃, wait, returns⟩ := ok_of_returnsWith returns
  obtain ⟨rfl, rfl, less⟩ := of_decide_eq_true returns
  exact ⟨s, s₁, s₂, s₃, space, fork, exit, wait, less⟩

theorem reaped_child_leaks_two : ∃ s s₁ s₂ s₃,
    AddressSpace ⟨0x80200000⟩ {0x80200000} s 0 forkProc ∧
    procFork 0x80000000 0 s = .ok (some 1) s₁ ∧ procExit 1 0 s₁ = .ok () s₂ ∧
    procWait ⟨0x80200000⟩ 0 0 s₂ = .ok (some 1) s₃ ∧ ¬Restored s s₃ := by
  obtain ⟨s, s₁, s₂, s₃, space, fork, exit, wait, -⟩ := forkMachine_reaped
  exact ⟨s, s₁, s₂, s₃, space, fork, exit, wait,
    (reaped_child_leaks space ⟨by decide, by decide, by decide⟩ fork exit wait).1⟩

theorem reaping_restores_fails : ¬∀ (ram : Ram) (roots : Set U64) (s s₁ s₂ s₃ : Machine) (k c : ℕ)
    (p : ProcMem) (code : U64) (exitCode : U32) (addr : U64), AddressSpace ram roots s k p → ram.Sane →
      procFork code k s = .ok (some c) s₁ → procExit c exitCode s₁ = .ok () s₂ →
      procWait ram k addr s₂ = .ok (some c) s₃ → Restored s s₃ := by
  intro restores
  obtain ⟨s, s₁, s₂, s₃, space, fork, exit, wait, less⟩ := forkMachine_reaped
  have restored := restores _ _ s s₁ s₂ s₃ _ _ _ _ _ _ space ⟨by decide, by decide, by decide⟩ fork exit wait
  exact absurd restored.1.length_eq (Nat.ne_of_lt less)

end LabKernel
