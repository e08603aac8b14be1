import LabKernel.Proc.Steps

/-! # Which thread runs where

A process runs on one CPU at a time. Its lock is held, with interrupts off, whenever its state is
tested or changed, and from the moment it gives up its CPU until the scheduler has its own context
back.
-/

namespace LabKernel.Sched

variable {n : ℕ}

/-- The process whose lock protects what the operation tests or changes. -/
def Op.under : Op → Option Proc
  | .markRunnable p | .markSleeping p _ | .schedulerCheck p | .wakeupCheck _ p | .exitCheck p
  | .exitMark p _ | .waitCheck _ p | .allocCheck _ p => some p
  | _ => none

/-- The process whose lock the code has to hold; `proc_sleep` releases another lock before it marks
the process. -/
def under : List Op → Option Proc
  | .release _ :: .markSleeping p _ :: _ => some p
  | op :: _ => op.under
  | [] => none

/-- Code with a process locked starts where the lock has been taken. -/
def Leads (op : Op) (rest : List Op) : Prop :=
  ∀ p, under rest = some p →
    op = .panic ∨ op = .acquire (.proc p) ∨
      ∃ l, op = .release l ∧ l ≠ .proc p ∧ under (op :: rest) = some p

/-- The thread that an operation belongs to. -/
def Op.BelongsTo (w : Option Proc) : Op → Prop
  | .procScheduler _ | .schedulerCheck _ => w = none
  | .markRunnable p | .markSleeping p _ | .clearSleep p | .exitChildren p _ _ | .exitMark p _
  | .exitWakeup p | .revived p | .waitChildren p _ _ | .waitCheck p _ | .allocScan p _
  | .allocCheck p _ | .procEntryPoint p | .memory p | .user p => w = some p
  | .freed _ | .returned _ _ => w ≠ none
  | _ => True

/-- The child that `proc_wait` is about to test or free. -/
def Op.reaps : Op → Option Proc
  | .waitCheck _ child | .freed child => some child
  | _ => none

/-- No child is being tested or freed. -/
def NoReap (code : List Op) : Prop := ∀ op ∈ code, op.reaps = none

/-- The operations that never run inside `proc_wait`. -/
def Op.outside : Op → Bool
  | .kernel | .memory _ | .user _ | .trapUserReturn | .loadProc .fork _ | .loadProc (.exit _) _
  | .loadProc .userReturn _ | .loadProc .memory _ | .exitChildren _ _ _ | .exitMark _ _ | .waitChildren _ _ _
  | .waitCheck _ _ | .freed _ | .procEntryPoint _ => true
  | _ => false

/-- The operations after which a thread gives up its CPU. -/
def Op.yields : Op → Bool
  | .markRunnable _ | .markSleeping _ _ => true
  | _ => false

@[simp] theorem noReap_cons {op : Op} {rest : List Op} :
    NoReap (op :: rest) ↔ op.reaps = none ∧ NoReap rest := List.forall_mem_cons ..

private theorem belongs_lasting :
    Lasting (fun w op _ => op.BelongsTo w) (fun _ _ _ => True) fun _ => True where
  expand {w op body rest} e _ here after := by
    cases e <;>
      simp_all [Op.BelongsTo, procSleep, sleeplockAcquire, sleeplockRelease, sleeplockHolding,
        driver, procExit, procWait, timerUpdate, yield]
  irq := by
    intro w k code _ typed
    cases k <;> simp_all [Op.BelongsTo, trapKernelHandler]
  panic := trivial
  entry := rfl
  start := by simp [Op.BelongsTo]

private theorem outside_lasting :
    Lasting (fun _ op rest => op.outside = true → NoReap rest) (fun _ _ _ => True)
      fun _ => True where
  expand {w op body rest} e _ here after := by
    cases e <;>
      simp_all [Op.outside, Op.reaps, procSleep, sleeplockAcquire, sleeplockRelease,
        sleeplockHolding, driver, procExit, procWait, timerUpdate, yield]
  irq := by
    intro w k code _ typed
    cases k <;> simp_all [Op.outside, trapKernelHandler]
  panic := by simp [Op.outside]
  entry := by simp [NoReap]
  start := by simp [Op.outside]

/-- The code gives up the CPU and does not return to user mode at once when it goes on. -/
def Yields (code : List Op) : Prop :=
  ∃ after, code = .procSched :: after ∧ after.head? ≠ some .trapUserReturn

/-- What follows an operation after which a thread gives up its CPU: to come back into the kernel, or behind a
fatal fault. -/
def GivesUp (op : Op) (rest : List Op) : Prop :=
  (op.yields = true → Yields rest) ∧ (op = .fatal → rest.head? = some .trapUserReturn)

private theorem givesUp_lasting : Lasting (fun _ => GivesUp) (fun _ _ _ => True) fun _ => True where
  expand {w op body rest} e _ here after := by
    cases e <;>
      simp_all [GivesUp, Op.yields, Yields, procSleep, sleeplockAcquire, sleeplockRelease, sleeplockHolding,
        driver, procExit, procWait, timerUpdate, yield]
  irq := by
    intro w k code _ typed
    cases k <;> simp_all [GivesUp, Op.yields, trapKernelHandler]
  panic := by simp [GivesUp, Op.yields]
  entry := by simp [GivesUp, Op.yields]
  start := by simp [GivesUp, Op.yields]

@[simp] theorem under_cons {op : Op} {rest : List Op} (kept : ∀ l, op ≠ .release l) :
    under (op :: rest) = op.under := by
  cases op <;> first | rfl | exact absurd rfl (kept _)

@[simp] theorem under_release_markSleeping {l : Lock} {p : Proc} {chan : Chan} {rest : List Op} :
    under (.release l :: .markSleeping p chan :: rest) = some p := rfl

@[simp] theorem under_release_cons {l : Lock} {op : Op} {rest : List Op}
    (other : ∀ p chan, op ≠ .markSleeping p chan) : under (.release l :: op :: rest) = none := by
  cases op <;> first | rfl | exact absurd rfl (other _ _)

@[simp] theorem leads_of_free {op : Op} {rest : List Op} (free : under rest = none) :
    Leads op rest := by
  intro p lock
  rw [free] at lock
  cases lock

@[simp] theorem leads_acquire {p : Proc} {rest : List Op} (locked : under rest = some p) :
    Leads (.acquire (.proc p)) rest := by
  intro q lock
  obtain rfl : p = q := Option.some.inj (locked.symm.trans lock)
  exact .inr (.inl rfl)

@[simp] theorem leads_acquire_sleep {l : Lock} {p : Proc} {chan : Chan} {rest : List Op} :
    Leads (.acquire (.proc p)) (.release l :: .markSleeping p chan :: rest) := leads_acquire rfl

@[simp] theorem leads_release_sleep {l : Lock} {p : Proc} {chan : Chan} {rest : List Op}
    (other : l ≠ .proc p) : Leads (.release l) (.markSleeping p chan :: rest) := by
  intro q lock
  obtain rfl : p = q := Option.some.inj lock
  exact .inr (.inr ⟨l, rfl, other, rfl⟩)

@[simp] theorem leads_panic {code : List Op} : Leads .panic code := fun _ _ => .inl rfl

private theorem under_release {l : Lock} {rest : List Op} (free : under rest = none) :
    under (.release l :: rest) = none := by
  rcases rest with _ | ⟨op, rest⟩
  · rfl
  · cases op <;> first | rfl | simp [under, Op.under] at free

/-- Operations that neither take nor release a lock and that go on. -/
def Op.plain : Op → Bool
  | .acquire _ | .release _ | .panic => false
  | _ => true

theorem Leads.free {op : Op} {rest : List Op} (leads : Leads op rest) (plain : op.plain = true) :
    under rest = none := by
  rcases lock : under rest with _ | p
  · rfl
  · obtain rfl | rfl | ⟨l, rfl, -⟩ := leads p lock <;> cases plain

private theorem leads_lasting :
    Lasting (fun _ op rest => Leads op rest) (fun _ _ _ => True) fun code => under code = none where
  expand {w op body rest} e _ here after := by
    cases e
    case nil => exact after
    all_goals
      have free : under rest = none := here.free rfl
      have freeRelease : ∀ l, under (.release l :: rest) = none := fun _ => under_release free
      simp [Op.under, free, freeRelease, after, procSleep, sleeplockAcquire, sleeplockRelease,
        sleeplockHolding, driver, procExit, procWait, timerUpdate, yield]
  irq := by
    intro w k code quiet typed
    cases k <;> simp [Op.under, quiet, typed, trapKernelHandler]
  panic := leads_panic
  entry := leads_of_free rfl
  start := ⟨leads_of_free rfl, leads_of_free rfl, trivial⟩

theorem next_plain {s : Sys n} {c : Fin n} {pick : Pick} {op : Op} {body : List Op}
    (follows : next s c pick op = some body) : op.plain = true := by
  cases op <;> first | rfl | cases follows

/-- An expansion starts with no process locked. -/
theorem next_under {s : Sys n} {c : Fin n} {pick : Pick} {op : Op} {body rest : List Op}
    (follows : next s c pick op = some body) (own : Own s c op) (leads : Leads op rest) :
    under (body ++ rest) = none := by
  have free : under rest = none := leads.free (next_plain follows)
  cases expands follows own <;>
    simp [Op.under, free, procSleep, sleeplockAcquire, sleeplockRelease, sleeplockHolding, driver,
      procExit, procWait, timerUpdate, yield]

/-- How an operation of a thread is followed. -/
def Proper (w : Option Proc) (op : Op) (rest : List Op) : Prop :=
  (op.BelongsTo w ∧ (op.outside = true → NoReap rest)) ∧
    GivesUp op rest ∧ Leads op rest

private theorem proper_lasting :
    Lasting Proper (fun _ _ _ => True) fun code => (True ∧ True) ∧ True ∧ under code = none :=
  (belongs_lasting.and outside_lasting).and (givesUp_lasting.and leads_lasting)

/-! ## Holding locks -/

/-- What holds in every state of every run. -/
structure Base (s : Sys n) : Prop where
  proper : Contexts Proper s
  /-- A CPU has pushed at least as often as it holds locks. -/
  depth : ∀ c (held : Finset Lock), (∀ l ∈ held, s.locks l = some c) →
    held.card ≤ (s.cpus c).noff
  locked : ∀ c p, under (s.cpus c).code = some p →
    (s.cpus c).intr = false ∧ s.locks (.proc p) = some c
  ctx : ∀ c, under (s.cpus c).ctx = none
  saved : ∀ p, under (s.procs p).ctx = none

namespace Base

variable {s s' : Sys n} {a : Fin n × Input}

theorem head (base : Base s) {c : Fin n} {op : Op} {rest : List Op}
    (code : (s.cpus c).code = op :: rest) : Proper (s.myproc c) op rest :=
  (code ▸ base.proper.running c).1

private theorem depth_step (base : Base s) (result : Step s a s') (c : Fin n) (held : Finset Lock)
    (mine : ∀ l ∈ held, s'.locks l = some c) : held.card ≤ (s'.cpus c).noff := by
  obtain ⟨d, input⟩ := a
  rcases eq_or_ne c d with rfl | other
  · cases result.stepped with
    | @acquire pick l rest head free =>
      have before := base.depth c (held.erase l) fun k member => by
        obtain ⟨different, member⟩ := Finset.mem_erase.mp member
        simpa [Function.update_of_ne different] using mine k member
      have := Finset.pred_card_le_card_erase (s := held) (a := l)
      simp only [Sys.setCpu_cpus_self, CpuState.pushOff]
      omega
    | recursive head here =>
      have before := base.depth c held mine
      simp only [Sys.setCpu_cpus_self, CpuState.pushOff]
      omega
    | @release pick l rest head here off pushed =>
      have absent : l ∉ held := fun member => by simpa using mine l member
      have before := base.depth c (insert l held) fun k member => by
        rcases Finset.mem_insert.mp member with rfl | member
        · exact here
        · have different : k ≠ l := fun same => absent (same ▸ member)
          simpa [Function.update_of_ne different] using mine k member
      rw [Finset.card_insert_of_notMem absent] at before
      simp only [Sys.setCpu_cpus_self]
      omega
    | call =>
      rw [Sys.setCode_eq, Sys.setCpu_locks, write_locks] at mine
      rw [Sys.setCode_eq, Sys.setCpu_cpus_self, write_cpus]
      exact base.depth c held mine
    | _ =>
      first
      | rw [Sys.setCpu_cpus_self]; exact base.depth c held mine
      | rw [Sys.setCode_eq, Sys.setCpu_cpus_self]; exact base.depth c held mine
      | rw [toScheduler, Sys.setCpu_cpus_self]; exact base.depth c held mine
      | rw [toProcess, Sys.setCpu_cpus_self]; exact base.depth c held mine
  · rw [result.other other]
    exact base.depth c held fun l member => (result.locks_other other l).mp (mine l member)

/-- A section whose lock is a second one does not turn interrupts on when it ends. -/
theorem two_le_noff (base : Base s) {c : Fin n} {l k : Lock} (different : l ≠ k)
    (first : s.locks l = some c) (second : s.locks k = some c) : 2 ≤ (s.cpus c).noff := by
  have := base.depth c {l, k} (by simp [first, second])
  rwa [Finset.card_pair different] at this

private theorem locked_step (base : Base s) (stays : current s a = true) (result : Step s a s') (c : Fin n) (p : Proc)
    (front : under (s'.cpus c).code = some p) :
    (s'.cpus c).intr = false ∧ s'.locks (.proc p) = some c := by
  obtain ⟨d, input⟩ := a
  rcases eq_or_ne c d with rfl | other
  · cases result.stepped with
    | irq k on => cases k <;> simp [trapKernelHandler, Op.under] at front
    | @acquire pick l rest head free =>
      rw [Sys.setCpu_cpus_self] at front ⊢
      obtain h | h | ⟨_, h, -⟩ := (base.head head).2.2 p front <;> cases h
      exact ⟨rfl, by simp⟩
    | recursive head held => simp [Op.under] at front
    | @release pick l rest head held off pushed =>
      rw [Sys.setCpu_cpus_self] at front ⊢
      obtain h | h | ⟨_, h, different, still⟩ := (base.head head).2.2 p front <;> cases h
      have here := (base.locked c p (head ▸ still)).2
      have deep : 2 ≤ (s.cpus c).noff := base.two_le_noff different held here
      have several : ((s.cpus c).noff == 1) = false := by
        rw [beq_eq_false_iff_ne]
        omega
      refine ⟨?_, by simp [Function.update_of_ne (Ne.symm different), here]⟩
      rw [several, Bool.false_and]
    | stray head wrong => simp [Op.under] at front
    | intrOn head =>
      rw [Sys.setCpu_cpus_self, (base.head head).2.2.free rfl] at front
      cases front
    | intrOff head =>
      rw [Sys.setCpu_cpus_self, (base.head head).2.2.free rfl] at front
      cases front
    | sret head =>
      rw [Sys.setCpu_cpus_self, (base.head head).2.2.free rfl] at front
      cases front
    | sched head mine =>
      rw [toScheduler, Sys.setCpu_cpus_self, base.ctx c] at front
      cases front
    | @dispatch pick q rest head ready =>
      rw [toProcess, Sys.setCpu_cpus_self, base.saved q] at front
      cases front
    | skip head unready =>
      rw [Sys.setCode_eq, Sys.setCpu_cpus_self, (base.head head).2.2.free rfl] at front
      cases front
    | call head follows =>
      have own := own_of_current stays rfl head
      rw [Sys.setCode_eq, Sys.setCpu_cpus_self, next_under follows own (base.head head).2.2] at front
      cases front
  · rw [result.other other] at front ⊢
    exact ⟨(base.locked c p front).1, (result.locks_other other _).mpr (base.locked c p front).2⟩

private theorem ctx_step (base : Base s) (result : Step s a s') (c : Fin n) :
    under (s'.cpus c).ctx = none := by
  rcases result.ctx c with same | ⟨p, rest, head, same⟩
  · rw [same]
    exact base.ctx c
  · rw [same]
    exact (base.head head).2.2.free rfl

private theorem saved_step (base : Base s) (result : Step s a s') (p : Proc) :
    under (s'.procs p).ctx = none := by
  rcases result.saved p with same | fresh | ⟨rest, head, same⟩
  · rw [same]
    exact base.saved p
  · rw [fresh]
    rfl
  · rw [same]
    exact (base.head head).2.2.free rfl

theorem step (base : Base s) (stays : current s a = true) (result : Step s a s') : Base s' where
  proper := proper_lasting.step base.proper
    (fun c p rest code => (base.head code).1.1)
    (fun c on => ⟨⟨trivial, trivial⟩, trivial, by
      rcases front : under (s.cpus c).code with _ | p
      · rfl
      · rw [(base.locked c p front).1] at on
        cases on⟩)
    (fun _ _ _ _ _ _ _ => trivial) stays result
  depth := base.depth_step result
  locked := base.locked_step stays result
  ctx := base.ctx_step result
  saved := base.saved_step result

theorem boot : Base (boot : Sys n) where
  proper := proper_lasting.boot
  depth c held mine := by
    rcases held.eq_empty_or_nonempty with rfl | ⟨l, member⟩
    · simp
    · cases mine l member
  locked c p front := by cases front
  ctx c := rfl
  saved p := by
    rcases eq_or_ne p initProcess with first | other
    · simp [Sched.boot, first, Op.under]
    · simp [Sched.boot, other, under]

end Base

end LabKernel.Sched
