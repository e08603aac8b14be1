import LabKernel.Trap.Registers

/-! # Switching between contexts

`swtch.S` instruction by instruction: it saves the registers that a call preserves in one context and takes
them from another. A thread that calls it goes on when some other thread calls it with its context, and then
finds its registers as they were, whatever ran in between, as long as nobody wrote to its context.
`kernel_vector` in `trap.S` does the same with all registers on the stack of the thread that is interrupted.
-/

namespace LabKernel

/-- The registers of `context_t`, in their order -/
def contextRegs : List Gpr := [.ra, .sp, .s0, .s1, .s2, .s3, .s4, .s5, .s6, .s7, .s8, .s9, .s10, .s11]

/-- The offset of a register where some are saved in this order -/
def fieldOffset (regs : List Gpr) (r : Gpr) : ℕ := 8 * regs.idxOf r

def swtch : List Instr :=
  [ .sd .ra 0 .a0, .sd .sp 8 .a0, .sd .s0 16 .a0, .sd .s1 24 .a0, .sd .s2 32 .a0, .sd .s3 40 .a0,
    .sd .s4 48 .a0, .sd .s5 56 .a0, .sd .s6 64 .a0, .sd .s7 72 .a0, .sd .s8 80 .a0, .sd .s9 88 .a0,
    .sd .s10 96 .a0, .sd .s11 104 .a0,
    .ld .ra 0 .a1, .ld .sp 8 .a1, .ld .s0 16 .a1, .ld .s1 24 .a1, .ld .s2 32 .a1, .ld .s3 40 .a1,
    .ld .s4 48 .a1, .ld .s5 56 .a1, .ld .s6 64 .a1, .ld .s7 72 .a1, .ld .s8 80 .a1, .ld .s9 88 .a1,
    .ld .s10 96 .a1, .ld .s11 104 .a1,
    .jr .ra ]

/-- The offsets in the code are those of the fields. -/
theorem swtch_eq : swtch = (contextRegs.map fun r => .sd r (fieldOffset contextRegs r) .a0) ++
    ((contextRegs.map fun r => .ld r (fieldOffset contextRegs r) .a1) ++ [.jr .ra]) := rfl

theorem fieldOffset_bound {regs : List Gpr} {r : Gpr} (saved : r ∈ regs) :
    fieldOffset regs r % 8 = 0 ∧ fieldOffset regs r + 8 ≤ 8 * regs.length := by
  have index := List.idxOf_lt_length_of_mem saved
  rw [fieldOffset]
  omega

/-! ## Words of memory -/

namespace Machine

def word (s : Machine) (w : U64 × ℕ) : U64 := (s.pages w.1).u64 w.2

def setWord (s : Machine) (w : U64 × ℕ) (v : U64) : Machine := s.setPage w.1 ((s.pages w.1).setU64 w.2 v)

variable {s : Machine} {w w' : U64 × ℕ}

@[simp] theorem word_setWord_same (v : U64) : (s.setWord w v).word w = v := by
  rw [word, setWord, setPage_same, Bytes.u64_setU64_same]

private theorem word_setWord_other (v : U64) (aligned : w.2 % 8 = 0) (aligned' : w'.2 % 8 = 0) (other : w' ≠ w) :
    (s.setWord w v).word w' = s.word w' := by
  rw [word, word, setWord]
  by_cases frame : w'.1 = w.1
  · have offset : w'.2 ≠ w.2 := fun same => other (Prod.ext frame same)
    rw [frame, setPage_same, Bytes.u64_setU64_other _ (by omega)]
  · rw [setPage_other _ frame]

end Machine

open Machine

/-! ## Registers in memory -/

/-- The registers of a list have their words, apart from each other, in pages that the kernel may read and
write and that hold no tables. -/
structure InMemory (regs : List Gpr) (s : Machine) (table base : U64) (place : Gpr → U64 × ℕ) : Prop where
  word : base.toNat % 8 = 0
  low : base.toNat + 8 * regs.length ≤ 2 ^ 64
  leads : ∀ r ∈ regs, ∃ flags, translate s table (base.toNat + fieldOffset regs r) = some ((place r).1, flags) ∧
    PteHas flags pteR ∧ PteHas flags pteW ∧ ¬PteHas flags pteU
  offset : ∀ r ∈ regs, (place r).2 = (base.toNat + fieldOffset regs r) % pgsize
  data : ∀ r ∈ regs, ∀ q, s.tableAt table q ≠ some (place r).1
  once : ∀ r ∈ regs, ∀ r' ∈ regs, place r = place r' → r = r'

/-- A page table that `satp` can name -/
structure Rooted (table : U64) : Prop where
  nonzero : table ≠ 0
  aligned : table.toNat % pgsize = 0
  small : table.toNat < 2 ^ 56

variable {regs regs' : List Gpr} {h : Hart} {s s' : Machine} {table base base' : U64}
  {place place' : Gpr → U64 × ℕ} {r b : Gpr}

theorem InMemory.aligned (here : InMemory regs s table base place) (saved : r ∈ regs) : (place r).2 % 8 = 0 := by
  have word := here.word
  have field := (fieldOffset_bound saved).1
  rw [here.offset r saved, pgsize_eq]
  omega

/-- What is saved does not change where it is. -/
theorem InMemory.setWord (here : InMemory regs s table base place) (rooted : Rooted table)
    (there : InMemory regs' s table base' place') (saved : r ∈ regs') (v : U64) :
    InMemory regs (s.setWord (place' r) v) table base place := by
  have root : s.rootFor table = table := if_neg rooted.nonzero
  have data := there.data r saved
  refine ⟨here.word, here.low, fun r' saved' => ?_, here.offset, fun r' saved' q => ?_, here.once⟩
  · rw [Machine.setWord, translate_setPage _ (by rw [root]; exact data)]
    exact here.leads r' saved'
  · rw [Machine.setWord, tableAt_setPage _ data]
    exact here.data r' saved' q

private theorem InMemory.wordAt (here : InMemory regs s table base place) (rooted : Rooted table)
    (satp : h.csr .satp = makeSatp table) (register : h.x b = base) (saved : r ∈ regs) {need : U64}
    (access : need = pteR ∨ need = pteW) :
    h.wordAt need (wrap64 ((h.x b).toNat + fieldOffset regs r)) s = some (place r) := by
  obtain ⟨flags, found, readable, writable, kernel⟩ := here.leads r saved
  obtain ⟨field, bound⟩ := fieldOffset_bound saved
  have word := here.word
  have low := here.low
  have same : wrap64 ((h.x b).toNat + fieldOffset regs r) = base.toNat + fieldOffset regs r := by
    rw [register]
    apply wrap64_of_lt
    omega
  have allowed : PteHas flags need ∧ ¬PteHas flags pteU := by
    rcases access with rfl | rfl
    · exact ⟨readable, kernel⟩
    · exact ⟨writable, kernel⟩
  rw [Hart.wordAt, same, satp, satpRoot_makeSatp rooted.aligned rooted.small, makeSatp_mode rooted.small]
  have checked : ¬((8 : U64) ≠ 8 ∨ table = 0 ∨ (base.toNat + fieldOffset regs r) % 8 ≠ 0) := by
    rintro (mode | root | odd)
    · exact mode rfl
    · exact rooted.nonzero root
    · omega
  rw [if_neg checked, found]
  dsimp only
  rw [if_pos allowed, ← here.offset r saved]

/-- Stores of several registers -/
theorem execAll_saves (rooted : Rooted table) (satp : h.csr .satp = makeSatp table) (register : h.x b = base)
    (here : InMemory regs s table base place) {l : List Gpr} (within : l ⊆ regs) (nodup : l.Nodup) : ∃ s',
    execAll (l.map fun r => .sd r (fieldOffset regs r) b) (h, s) = some (h, s') ∧
      (∀ r ∈ l, s'.word (place r) = h.x r) ∧
      (∀ w, w.2 % 8 = 0 → (∀ r ∈ l, w ≠ place r) → s'.word w = s.word w) ∧
      ∀ regs' base' place', InMemory regs' s table base' place' → InMemory regs' s' table base' place' := by
  induction l generalizing s with
  | nil => exact ⟨s, rfl, fun r none => absurd none List.not_mem_nil, fun _ _ _ => rfl, fun _ _ _ there => there⟩
  | cons r l ih =>
    obtain ⟨saved, within⟩ := List.cons_subset.mp within
    obtain ⟨fresh, nodup⟩ := List.nodup_cons.mp nodup
    have first : exec (.sd r (fieldOffset regs r) b) (h, s) = some (h, s.setWord (place r) (h.x r)) := by
      simp only [exec, here.wordAt rooted satp register saved (.inr rfl), Option.bind_eq_bind, Option.bind_some]
      rfl
    obtain ⟨s', runs, stored, other, still⟩ := ih (here.setWord rooted here saved (h.x r)) within nodup
    have aligned := here.aligned saved
    refine ⟨s', ?_, ?_, fun w word apart => ?_, fun regs' base' place' there => ?_⟩
    · rw [List.map_cons, execAll_cons _ first, runs]
    · rw [List.forall_mem_cons]
      refine ⟨?_, stored⟩
      have kept := other (place r) aligned fun r' later same =>
        fresh (here.once r saved r' (within later) same ▸ later)
      rw [kept, word_setWord_same]
    · obtain ⟨differ, apart⟩ := List.forall_mem_cons.mp apart
      rw [other w word apart, word_setWord_other _ aligned word differ]
    · exact still regs' base' place' (there.setWord rooted here saved _)

/-- Loads of several registers; if the one that the code counts from is among them, its word is its value. -/
theorem execAll_restores (rooted : Rooted table) (satp : h.csr .satp = makeSatp table) (register : h.x b = base)
    (here : InMemory regs s table base place) {l : List Gpr} (within : l ⊆ regs)
    (own : b ∈ l → s.word (place b) = base) : ∃ x,
    execAll (l.map fun r => .ld r (fieldOffset regs r) b) (h, s) = some ({ h with x := x }, s) ∧
      (∀ r ∈ l, x r = s.word (place r)) ∧ ∀ r ∉ l, x r = h.x r := by
  induction l generalizing h with
  | nil => exact ⟨h.x, rfl, fun r none => absurd none List.not_mem_nil, fun _ _ => rfl⟩
  | cons r l ih =>
    obtain ⟨saved, within⟩ := List.cons_subset.mp within
    have first : exec (.ld r (fieldOffset regs r) b) (h, s) = some (h.setX r (s.word (place r)), s) := by
      simp only [exec, here.wordAt rooted satp register saved (.inl rfl), Option.bind_eq_bind, Option.bind_some]
      rfl
    have still : (h.setX r (s.word (place r))).x b = base := by
      by_cases same : b = r
      · subst same
        rw [Hart.setX_same]
        exact own List.mem_cons_self
      · rw [Hart.setX_other _ _ same, register]
    obtain ⟨x, runs, loaded, other⟩ := @ih (h.setX r (s.word (place r))) satp still within
      fun later => own (List.mem_cons_of_mem r later)
    refine ⟨x, ?_, ?_, fun r' outside => ?_⟩
    · rw [List.map_cons, execAll_cons _ first, runs]
      rfl
    · rw [List.forall_mem_cons]
      refine ⟨?_, loaded⟩
      by_cases again : r ∈ l
      · exact loaded r again
      · rw [other r again, Hart.setX_same]
    · obtain ⟨differ, outside⟩ := not_or.mp (List.mem_cons.not.mp outside)
      rw [other r' outside, Hart.setX_other _ _ differ]

/-- One call: the registers are in the old context and come from the new one. -/
theorem swtch_spec (rooted : Rooted table) (satp : h.csr .satp = makeSatp table) (old : h.x .a0 = base)
    (new : h.x .a1 = base') (here : InMemory contextRegs s table base place)
    (there : InMemory contextRegs s table base' place') :
    ∃ h' s', execAll swtch (h, s) = some (h', s') ∧
      (∀ r ∈ contextRegs, s'.word (place r) = h.x r) ∧
      (∀ w, w.2 % 8 = 0 → (∀ r ∈ contextRegs, w ≠ place r) → s'.word w = s.word w) ∧
      (∀ r ∈ contextRegs, h'.x r = s'.word (place' r)) ∧ (∀ r ∉ contextRegs, h'.x r = h.x r) ∧
      h'.pc = h'.x .ra ∧ h'.csr = h.csr ∧
      ∀ base place, InMemory contextRegs s table base place → InMemory contextRegs s' table base place := by
  have nodup : contextRegs.Nodup := by decide
  obtain ⟨s', saves, stored, other, still⟩ :=
    execAll_saves rooted satp old here (List.Subset.refl contextRegs) nodup
  obtain ⟨x, loads, loaded, kept⟩ :=
    execAll_restores rooted satp new (still _ base' place' there) (List.Subset.refl contextRegs)
      fun argument => absurd argument (by decide)
  refine ⟨{ h with x := x, pc := x .ra }, s', ?_, stored, other, loaded, kept, rfl, rfl, still contextRegs⟩
  rw [swtch_eq, execAll_append _ saves, execAll_append _ loads]
  rfl

/-! ## Threads -/

/-- The contexts of the scheduler and the processes, each in its own place -/
structure Contexts (κ : Type*) where
  table : U64
  base : κ → U64
  place : κ → Gpr → U64 × ℕ
  rooted : Rooted table
  apart : ∀ k k', ∀ r ∈ contextRegs, ∀ r' ∈ contextRegs, place k r = place k' r' → k = k'

/-- A hart with the memory, the thread that runs on it, and a history: the registers of each thread at its
last call of `swtch` -/
structure Threads (κ : Type*) where
  hart : Hart
  mem : Machine
  running : κ
  left : κ → Gpr → U64

inductive ThreadEvent (κ : Type*)
  | work (hart : Hart) (mem : Machine)
  | switch (next : κ)

variable {κ : Type*} [DecidableEq κ]

/-- The registers at the last call of `swtch`, the one that is about to be made included -/
def Threads.leaving (u : Threads κ) : κ → Gpr → U64 := Function.update u.left u.running u.hart.x

/-- The arguments of `swtch` are the contexts of the running thread and of another, or the same. -/
structure Threads.Calls (c : Contexts κ) (u : Threads κ) (next : κ) : Prop where
  old : u.hart.x .a0 = c.base u.running
  new : u.hart.x .a1 = c.base next

/-- The hart uses the kernel's page table, the contexts are in memory, and that of each thread that does not
run holds the registers of its last call. -/
structure Threads.Parked (c : Contexts κ) (u : Threads κ) : Prop where
  satp : u.hart.csr .satp = makeSatp c.table
  inMemory : ∀ k, InMemory contextRegs u.mem c.table (c.base k) (c.place k)
  saved : ∀ k, k ≠ u.running → ∀ r ∈ contextRegs, u.mem.word (c.place k r) = u.left k r

/-- The running thread does anything but write to the contexts of the others or take the contexts away, or
it calls `swtch`. -/
def threadStep (c : Contexts κ) (u : Threads κ) : ThreadEvent κ → Threads κ → Prop
  | .work hart mem, u' => u' = { u with hart := hart, mem := mem } ∧ hart.csr .satp = u.hart.csr .satp ∧
      (∀ k, InMemory contextRegs mem c.table (c.base k) (c.place k)) ∧
      ∀ k, k ≠ u.running → ∀ r ∈ contextRegs, mem.word (c.place k r) = u.mem.word (c.place k r)
  | .switch next, u' => u.Calls c next ∧ execAll swtch (u.hart, u.mem) = some (u'.hart, u'.mem) ∧
      u'.running = next ∧ u'.left = u.leaving

variable {c : Contexts κ} {u u' : Threads κ} {next : κ}

/-- A call of `swtch` does not fault, and the next thread goes on with the registers of its last call. -/
theorem Threads.Parked.resumes (parked : u.Parked c) (call : u.Calls c next) : ∃ h' s',
    execAll swtch (u.hart, u.mem) = some (h', s') ∧ (∀ r ∈ contextRegs, h'.x r = u.leaving next r) ∧
      (∀ r ∉ contextRegs, h'.x r = u.hart.x r) ∧ h'.pc = u.leaving next .ra ∧ h'.csr = u.hart.csr ∧
      (∀ k, InMemory contextRegs s' c.table (c.base k) (c.place k)) ∧
      ∀ k, ∀ r ∈ contextRegs, s'.word (c.place k r) = u.leaving k r := by
  obtain ⟨h', s', runs, stored, other, loaded, kept, pc, csr, still⟩ := swtch_spec c.rooted parked.satp call.old
    call.new (parked.inMemory u.running) (parked.inMemory next)
  have words (k : κ) (r : Gpr) (saved : r ∈ contextRegs) : s'.word (c.place k r) = u.leaving k r := by
    rw [leaving]
    by_cases same : k = u.running
    · subst same
      rw [Function.update_self]
      exact stored r saved
    · rw [Function.update_of_ne same, ← parked.saved k same r saved]
      apply other _ ((parked.inMemory k).aligned saved)
      intro r' saved' place
      exact same (c.apart k u.running r saved r' saved' place)
  have resumed (r : Gpr) (saved : r ∈ contextRegs) : h'.x r = u.leaving next r :=
    (loaded r saved).trans (words next r saved)
  refine ⟨h', s', runs, resumed, kept, pc.trans (resumed .ra (by decide)), csr, fun k => ?_, words⟩
  exact still _ _ (parked.inMemory k)

private theorem Threads.Parked.step {e : ThreadEvent κ} (parked : u.Parked c) (step : threadStep c u e u') :
    u'.Parked c := by
  cases e with
  | work hart mem =>
    obtain ⟨rfl, satp, inMemory, same⟩ := step
    refine ⟨satp.trans parked.satp, inMemory, fun k other r saved => ?_⟩
    exact (same k other r saved).trans (parked.saved k other r saved)
  | switch next =>
    obtain ⟨call, runs, running, left⟩ := step
    obtain ⟨h', s', runs', -, -, -, csr, inMemory, words⟩ := parked.resumes call
    obtain ⟨hart, mem⟩ := Prod.mk.inj (Option.some.inj (runs.symm.trans runs'))
    refine ⟨?_, ?_, fun k other r saved => ?_⟩
    · rw [hart, csr]
      exact parked.satp
    · rw [mem]
      exact inMemory
    · rw [mem, left]
      exact words k r saved

/-- In every run, a thread that is switched to goes on where it called `swtch` last, with the stack pointer and
the saved registers it had there. -/
theorem switches_resume {events : List (ThreadEvent κ)} (parked : u.Parked c) (run : Run (threadStep c) u events u')
    (call : u'.Calls c next) : ∃ h' s', execAll swtch (u'.hart, u'.mem) = some (h', s') ∧
      h'.pc = u'.leaving next .ra ∧ (∀ r ∈ contextRegs, h'.x r = u'.leaving next r) ∧
      (∀ r ∉ contextRegs, h'.x r = u'.hart.x r) ∧ h'.csr = u'.hart.csr := by
  have still := run.invariant (fun _ _ _ step before => before.step step) parked
  obtain ⟨h', s', runs, resumed, kept, pc, csr, -⟩ := still.resumes call
  exact ⟨h', s', runs, pc, resumed, kept, csr⟩

/-- Registers in the page of a trap frame -/
theorem FrameMapped.inMemory {tf : U64} {off : ℕ} (mapped : FrameMapped s table tf) (word : off % 8 = 0)
    (inside : off + 8 * regs.length ≤ pgsize) :
    InMemory regs s table (BitVec.ofNat 64 (trapframe + off)) fun r => (tf, off + fieldOffset regs r) := by
  obtain ⟨flags, found, has⟩ := mapped.leads
  simp only [pgsize_eq] at inside
  have value : (BitVec.ofNat 64 (trapframe + off)).toNat = 274877898752 + off := by
    rw [BitVec.toNat_ofNat, trapframe_eq]
    omega
  refine ⟨?_, ?_, fun r saved => ?_, fun r saved => ?_, fun r saved => mapped.data, fun r saved r' saved' same => ?_⟩
  · rw [value]
    omega
  · rw [value]
    omega
  · have bound := (fieldOffset_bound saved).2
    have page : (274877898752 + off + fieldOffset regs r) / pgsize = trapframe / pgsize := by
      simp only [trapframe_eq, pgsize_eq]
      omega
    refine ⟨flags, ?_, has⟩
    rw [value, translate_congr page, found]
  · have bound := (fieldOffset_bound saved).2
    simp only [value, pgsize_eq]
    omega
  · have offset : fieldOffset regs r = fieldOffset regs r' := Nat.add_left_cancel (Prod.mk.inj same).2
    have index : regs.idxOf r = regs.idxOf r' := Nat.eq_of_mul_eq_mul_left (by decide) offset
    exact (List.idxOf_inj saved).mp index

/-- Where the second of two contexts in one page starts -/
def pairOffset (second : Bool) : ℕ := if second then 128 else 0

def pairPlace (tf : U64) (second : Bool) (r : Gpr) : U64 × ℕ := (tf, pairOffset second + fieldOffset contextRegs r)

private theorem pairPlace_apart (tf : U64) (k k' : Bool) (r : Gpr) (saved : r ∈ contextRegs) (r' : Gpr)
    (saved' : r' ∈ contextRegs) (same : pairPlace tf k r = pairPlace tf k' r') : k = k' := by
  have bound : fieldOffset contextRegs r + 8 ≤ 112 := (fieldOffset_bound saved).2
  have bound' : fieldOffset contextRegs r' + 8 ≤ 112 := (fieldOffset_bound saved').2
  have offset := (Prod.mk.inj same).2
  cases k <;> cases k' <;> simp only [pairOffset, if_true, Bool.false_eq_true, if_false] at offset <;>
    first | rfl | omega

/-- Two contexts in the page of a trap frame -/
def pairContexts (rooted : Rooted table) (tf : U64) : Contexts Bool where
  table := table
  base second := BitVec.ofNat 64 (trapframe + pairOffset second)
  place := pairPlace tf
  rooted := rooted
  apart := pairPlace_apart tf

/-- A hart about to switch between two contexts -/
def pairHart (table : U64) (x : Gpr → U64) (second : Bool) : Hart where
  x := Function.update (Function.update x .a0 (BitVec.ofNat 64 (trapframe + pairOffset second))) .a1
    (BitVec.ofNat 64 (trapframe + pairOffset !second))
  csr _ := makeSatp table
  pc := 0
  user := false

/-- The first of two threads runs. -/
def pairThreads (table tf : U64) (s : Machine) : Threads Bool where
  hart := pairHart table (fun _ => 1) false
  mem := s
  running := false
  left k r := s.word (pairPlace tf k r)

/-- The first thread calls `swtch`, the second one changes a register and the first goes on with its own. -/
theorem switches_resume_back : ∃ (c : Contexts Bool) (u u' : Threads Bool) (events : List (ThreadEvent Bool))
    (h' : Hart) (s' : Machine), Run (threadStep c) u events u' ∧ u'.hart.x .s0 ≠ u.hart.x .s0 ∧
      execAll swtch (u'.hart, u'.mem) = some (h', s') ∧ h'.pc = u.hart.x .ra ∧ h'.x .sp = u.hart.x .sp ∧
      h'.x .s0 = u.hart.x .s0 := by
  obtain ⟨s, -, proc, -, -, mapped⟩ := frameMachine_frame
  have rooted : Rooted proc.pgtbl := ⟨mapped.nonzero, mapped.aligned, mapped.small⟩
  let c := pairContexts rooted 0x80208000
  let u := pairThreads proc.pgtbl 0x80208000 s
  have parked : u.Parked c := by
    refine ⟨rfl, fun k => ?_, fun _ _ _ _ => rfl⟩
    cases k
    · exact mapped.inMemory (by decide) (by decide)
    · exact mapped.inMemory (by decide) (by decide)
  obtain ⟨h₁, s₁, runs, -, -, -, csr, inMemory, -⟩ := @Threads.Parked.resumes _ _ c u true parked ⟨rfl, rfl⟩
  let u₁ : Threads Bool := ⟨h₁, s₁, true, u.leaving⟩
  have switched : threadStep c u (.switch true) u₁ := ⟨⟨rfl, rfl⟩, runs, rfl, rfl⟩
  let h₂ : Hart := pairHart proc.pgtbl (fun _ => 2) true
  let u₂ : Threads Bool := { u₁ with hart := h₂ }
  have worked : threadStep c u₁ (.work h₂ s₁) u₂ := ⟨rfl, congrFun csr.symm .satp, inMemory, fun _ _ _ _ => rfl⟩
  have run : Run (threadStep c) u [.switch true, .work h₂ s₁] u₂ := .cons switched (.cons worked (.nil u₂))
  obtain ⟨h', s', back, pc, resumed, -⟩ := @switches_resume Bool _ c u u₂ false _ parked run ⟨rfl, rfl⟩
  have changed : u₂.hart.x .s0 ≠ u.hart.x .s0 := show (2 : U64) ≠ 1 by decide
  exact ⟨c, u, u₂, _, h', s', run, changed, back, pc, resumed .sp (by decide), resumed .s0 (by decide)⟩

/-! ## Interrupts of the kernel -/

/-- The registers in the order of `kernel_vector` -/
def kernelRegs : List Gpr :=
  [.ra, .sp, .gp, .tp, .t0, .t1, .t2, .s0, .s1, .a0, .a1, .a2, .a3, .a4, .a5, .a6, .a7, .s2, .s3, .s4, .s5, .s6,
    .s7, .s8, .s9, .s10, .s11, .t3, .t4, .t5, .t6]

/-- The stores of `kernel_vector` -/
def kernelSave : List Instr :=
  [ .sd .ra 0 .sp, .sd .sp 8 .sp, .sd .gp 16 .sp, .sd .tp 24 .sp, .sd .t0 32 .sp, .sd .t1 40 .sp,
    .sd .t2 48 .sp, .sd .s0 56 .sp, .sd .s1 64 .sp, .sd .a0 72 .sp, .sd .a1 80 .sp, .sd .a2 88 .sp,
    .sd .a3 96 .sp, .sd .a4 104 .sp, .sd .a5 112 .sp, .sd .a6 120 .sp, .sd .a7 128 .sp, .sd .s2 136 .sp,
    .sd .s3 144 .sp, .sd .s4 152 .sp, .sd .s5 160 .sp, .sd .s6 168 .sp, .sd .s7 176 .sp, .sd .s8 184 .sp,
    .sd .s9 192 .sp, .sd .s10 200 .sp, .sd .s11 208 .sp, .sd .t3 216 .sp, .sd .t4 224 .sp, .sd .t5 232 .sp,
    .sd .t6 240 .sp ]

/-- The loads of `kernel_vector`, which leave out `tp` -/
def kernelRestore : List Instr :=
  [ .ld .ra 0 .sp, .ld .sp 8 .sp, .ld .gp 16 .sp, .ld .t0 32 .sp, .ld .t1 40 .sp,
    .ld .t2 48 .sp, .ld .s0 56 .sp, .ld .s1 64 .sp, .ld .a0 72 .sp, .ld .a1 80 .sp, .ld .a2 88 .sp,
    .ld .a3 96 .sp, .ld .a4 104 .sp, .ld .a5 112 .sp, .ld .a6 120 .sp, .ld .a7 128 .sp, .ld .s2 136 .sp,
    .ld .s3 144 .sp, .ld .s4 152 .sp, .ld .s5 160 .sp, .ld .s6 168 .sp, .ld .s7 176 .sp, .ld .s8 184 .sp,
    .ld .s9 192 .sp, .ld .s10 200 .sp, .ld .s11 208 .sp, .ld .t3 216 .sp, .ld .t4 224 .sp, .ld .t5 232 .sp,
    .ld .t6 240 .sp ]

private theorem kernelSave_eq : kernelSave = kernelRegs.map fun r => .sd r (fieldOffset kernelRegs r) .sp := rfl

private theorem kernelRestore_eq : kernelRestore =
    (kernelRegs.filter (· ≠ .tp)).map fun r => .ld r (fieldOffset kernelRegs r) .sp := rfl

def Hart.addi (h : Hart) (rd rs : Gpr) (imm : ℤ) : Hart := h.setX rd (h.x rs + BitVec.ofInt 64 imm)

/-- `kernel_vector` up to the call of `trap_kernel_handler` -/
def kernelVectorEntry (t : Hart × Machine) : Option (Hart × Machine) :=
  execAll kernelSave (t.1.addi .sp .sp (-256), t.2)

/-- `kernel_vector` behind the call -/
def kernelVectorReturn (t : Hart × Machine) : Option (Hart × Machine) := do
  let (h, s) ← execAll kernelRestore t
  return ((h.addi .sp .sp 256).sret, s)

/-- What the handler does to the thread that is interrupted: as any C function it returns with the stack pointer
of its call, and nobody writes to the saved registers. Other threads may run meanwhile, and the thread may go on
at another hart. -/
structure HandlerKeeps (table : U64) (place : Gpr → U64 × ℕ) (t u : Hart × Machine) : Prop where
  sp : u.1.x .sp = t.1.x .sp
  satp : u.1.csr .satp = makeSatp table
  inMemory : InMemory kernelRegs u.2 table (t.1.x .sp) place
  saved : ∀ r ∈ kernelRegs, u.2.word (place r) = t.2.word (place r)

theorem mem_kernelRegs (r : Gpr) : r ∈ kernelRegs := by
  cases r <;> decide

/-- The entry of `kernel_vector` saves each register in its slot and writes to no other word. -/
theorem kernelVectorEntry_saves (rooted : Rooted table) (satp : h.csr .satp = makeSatp table)
    (stack : InMemory kernelRegs s table (h.x .sp + BitVec.ofInt 64 (-256)) place) : ∃ s',
    kernelVectorEntry (h, s) = some (h.addi .sp .sp (-256), s') ∧
      (∀ r, s'.word (place r) = (h.addi .sp .sp (-256)).x r) ∧
      (∀ w, w.2 % 8 = 0 → (∀ r, w ≠ place r) → s'.word w = s.word w) ∧
      ∀ regs' base' place', InMemory regs' s table base' place' → InMemory regs' s' table base' place' := by
  have nodup : kernelRegs.Nodup := by decide
  have low : (h.addi .sp .sp (-256)).x .sp = h.x .sp + BitVec.ofInt 64 (-256) := Hart.setX_same ..
  obtain ⟨s', saves, stored, spared, still⟩ :=
    execAll_saves (h := h.addi .sp .sp (-256)) rooted satp low stack (List.Subset.refl kernelRegs) nodup
  rw [← kernelSave_eq] at saves
  exact ⟨s', saves, fun r => stored r (mem_kernelRegs r), fun w word apart => spared w word fun r _ => apart r, still⟩

/-- `kernel_vector` writes to its part of the stack only, and the kernel goes on where it was interrupted, with
all its registers but `tp`, which is that of the hart. -/
theorem kernelVector_restores (rooted : Rooted table) (satp : h.csr .satp = makeSatp table)
    (stack : InMemory kernelRegs s table (h.x .sp + BitVec.ofInt 64 (-256)) place) : ∃ k,
    kernelVectorEntry (h, s) = some k ∧ k.1 = h.addi .sp .sp (-256) ∧
      (∀ w, w.2 % 8 = 0 → (∀ r, w ≠ place r) → k.2.word w = s.word w) ∧
      (∀ regs' base' place', InMemory regs' s table base' place' → InMemory regs' k.2 table base' place') ∧
      ∀ u, HandlerKeeps table place k u → ∃ t, kernelVectorReturn u = some t ∧ (∀ r ≠ .tp, t.1.x r = h.x r) ∧
        t.1.x .tp = u.1.x .tp ∧ t.1.pc = u.1.csr .sepc ∧ t.2 = u.2 := by
  have low : (h.addi .sp .sp (-256)).x .sp = h.x .sp + BitVec.ofInt 64 (-256) := Hart.setX_same ..
  have same {r : Gpr} (other : r ≠ .sp) : (h.addi .sp .sp (-256)).x r = h.x r := Hart.setX_other _ _ other
  obtain ⟨s', entry, stored, spared, still⟩ := kernelVectorEntry_saves rooted satp stack
  refine ⟨_, entry, rfl, spared, still, ?_⟩
  rintro ⟨h₂, s₂⟩ keeps
  have kept (r : Gpr) : s₂.word (place r) = (h.addi .sp .sp (-256)).x r :=
    (keeps.saved r (mem_kernelRegs r)).trans (stored r)
  obtain ⟨x, loads, loaded, other⟩ := execAll_restores rooted keeps.satp keeps.sp keeps.inMemory
    (@List.filter_sublist _ (· ≠ Gpr.tp) kernelRegs).subset fun _ => kept .sp
  rw [← kernelRestore_eq] at loads
  have found {r : Gpr} (differ : r ≠ .tp) : x r = (h.addi .sp .sp (-256)).x r := by
    rw [loaded r (List.mem_filter.mpr ⟨mem_kernelRegs r, decide_eq_true differ⟩)]
    exact kept r
  refine ⟨((({ h₂ with x := x } : Hart).addi .sp .sp 256).sret, s₂), ?_, fun r differ => ?_, ?_, rfl, rfl⟩
  · rw [kernelVectorReturn, loads]
    rfl
  · rw [Hart.sret_x, Hart.addi]
    by_cases top : r = .sp
    · rw [top, Hart.setX_same]
      change x .sp + _ = _
      rw [found (by decide), low, BitVec.add_assoc]
      exact BitVec.add_zero _
    · rw [Hart.setX_other _ _ top]
      exact (found differ).trans (same top)
  · rw [Hart.sret_x, Hart.addi, Hart.setX_other _ _ (by decide)]
    apply other
    decide

/-- The registers and the hart behind a handler that another thread has run in -/
def handledHart (h : Hart) : Hart :=
  { h with x := Function.update (fun _ => 7) .sp (h.x .sp) }

/-- A handler that changes all other registers and writes to the stack below the saved ones, and that returns at
another hart -/
theorem kernelVector_restores_moved : ∃ (h : Hart) (s : Machine) (k u t : Hart × Machine),
    kernelVectorEntry (h, s) = some k ∧ u.1.x .tp ≠ h.x .tp ∧ u.1.x .a0 ≠ h.x .a0 ∧
      u.2.word (0x80208000, 0) ≠ k.2.word (0x80208000, 0) ∧ kernelVectorReturn u = some t ∧
      (∀ r ≠ .tp, t.1.x r = h.x r) ∧ t.1.x .tp = u.1.x .tp := by
  obtain ⟨s, -, proc, -, -, mapped⟩ := frameMachine_frame
  have rooted : Rooted proc.pgtbl := ⟨mapped.nonzero, mapped.aligned, mapped.small⟩
  let h : Hart := ⟨fun _ => 0x3FFFFFE180, fun _ => makeSatp proc.pgtbl, 0, false⟩
  have low : (0x3FFFFFE180 : U64) + BitVec.ofInt 64 (-256) = BitVec.ofNat 64 (trapframe + 128) := by decide
  have stack : InMemory kernelRegs s proc.pgtbl (h.x .sp + BitVec.ofInt 64 (-256)) _ :=
    low ▸ mapped.inMemory rfl (by decide)
  obtain ⟨k, entry, hart, -, still, returns⟩ := @kernelVector_restores h s _ _ rooted rfl stack
  have top : k.1.x .sp = h.x .sp + BitVec.ofInt 64 (-256) := by
    rw [hart]
    exact Hart.setX_same ..
  have satp : k.1.csr .satp = makeSatp proc.pgtbl := by
    rw [hart]
    rfl
  have below : InMemory [.ra] s proc.pgtbl (BitVec.ofNat 64 (trapframe + 0)) _ := mapped.inMemory rfl (by decide)
  let pushed := k.2.word (0x80208000, 0) + 1
  let u : Hart × Machine := (handledHart k.1, k.2.setWord (0x80208000, 0) pushed)
  have written : u.2.word (0x80208000, 0) = pushed := word_setWord_same _
  have keeps : HandlerKeeps proc.pgtbl (fun r => (0x80208000, 128 + fieldOffset kernelRegs r)) k u := by
    refine ⟨rfl, satp, top ▸ ?_, fun r saved => ?_⟩
    · exact (still _ _ _ stack).setWord rooted (still _ _ _ below) (r := .ra) List.mem_cons_self pushed
    · exact word_setWord_other _ rfl (stack.aligned saved) (by simp)
  obtain ⟨t, back, regs, tp, -⟩ := returns u keeps
  have changed : (7 : U64) ≠ 0x3FFFFFE180 := by decide
  have other : u.2.word (0x80208000, 0) ≠ k.2.word (0x80208000, 0) := by
    rw [written]
    simp [pushed]
  exact ⟨h, s, k, u, t, entry, changed, changed, other, back, regs, tp⟩

end LabKernel
