import LabKernel.Proc.Threads

/-! # Slots in use

A process that runs on a CPU is running, about to give the CPU up with its lock held, or dead and on
its way out. As long as `proc_wait` only takes a zombie that has left its CPU, a slot is freed and
filled again while no CPU uses it.
-/

namespace LabKernel.Sched

variable {n : ℕ}

/-- The operation after the last `swtch` of a process. -/
def Op.isRevived : Op → Bool
  | .revived _ => true
  | _ => false

/-- The operations that change a process's own state, so that it is no longer running. -/
def Op.leaves : Op → Bool
  | .fatal | .markRunnable _ | .markSleeping _ _ | .exitMark _ _ => true
  | _ => false

/-- Code of a running process: it gives up its CPU only after it has changed its state. -/
structure Live (code : List Op) : Prop where
  noRevived : ∀ op ∈ code, op.isRevived = false
  paired : Every (fun op rest => rest.head? = some .procSched → op.yields = true) code
  head : code.head? ≠ some .procSched

/-- Operations that a dead process can still run. -/
def Op.settled : Op → Bool
  | .acquire _ | .release _ | .sret | .panic | .leafs _ | .device _ false | .timerInterrupt
  | .externalInterrupt | .preempt | .procWakeup _ _ | .wakeupCheck _ _ | .exitWakeup _ => true
  | _ => false

/-- The last `proc_sched` of a dead process is ahead, that of `proc_exit` or that behind a fatal fault. -/
def lastSched : List Op → Bool
  | [] => false
  | .procSched :: .revived _ :: _ | .procSched :: .trapUserReturn :: _ => true
  | _ :: rest => lastSched rest

private theorem lastSched_cons {op : Op} {rest : List Op} (ahead : lastSched rest = true) :
    lastSched (op :: rest) = true := by
  rw [lastSched.eq_def]
  split
  · contradiction
  · rfl
  · rfl
  · rename_i same
    obtain ⟨-, rfl⟩ := List.cons.inj same
    exact ahead

private theorem lastSched_tail {op : Op} {rest : List Op} (behind : lastSched (op :: rest) = false) :
    lastSched rest = false := by
  rcases ahead : lastSched rest with _ | _
  · rfl
  · rw [lastSched_cons ahead] at behind
    cases behind

private theorem lastSched_append {front rest : List Op} (ahead : lastSched rest = true) :
    lastSched (front ++ rest) = true := by
  induction front with
  | nil => exact ahead
  | cons op front ih => exact lastSched_cons ih

/-- An operation that does not give up the CPU is not the last one. -/
@[simp] theorem lastSched_other {op : Op} {rest : List Op} (other : op ≠ .procSched) :
    lastSched (op :: rest) = lastSched rest := by
  cases op <;> first | rfl | exact absurd rfl other

/-- Code of a dead process up to its last `swtch`. -/
def Dying (code : List Op) : Prop :=
  ∃ front rest, code = front ++ .procSched :: rest ∧ (∀ op ∈ front, op.settled = true) ∧
    lastSched (.procSched :: rest) = true

namespace Live

variable {op : Op} {rest : List Op}

private theorem tail (live : Live (op :: rest)) (stays : op.yields = false) : Live rest where
  noRevived := (List.forall_mem_cons.mp live.noRevived).2
  paired := live.paired.2
  head sched := by
    rw [live.paired.1 sched] at stays
    cases stays

private theorem cons (live : Live rest) (stays : op ≠ .procSched) (plain : op.isRevived = false) :
    Live (op :: rest) where
  noRevived := List.forall_mem_cons.mpr ⟨plain, live.noRevived⟩
  paired := ⟨fun sched => absurd sched live.head, live.paired⟩
  head := by simpa using stays

/-- After a process has marked itself, `swtch` is next. -/
theorem yielded (live : Live (op :: .procSched :: rest)) : Live rest := by
  refine ⟨?_, live.paired.2.2, fun sched => ?_⟩
  · exact (List.forall_mem_cons.mp (List.forall_mem_cons.mp live.noRevived).2).2
  · exact absurd (live.paired.2.1 sched) (by simp [Op.yields])

private theorem expand {w : Option Proc} {body : List Op} (live : Live (op :: rest)) (e : Expands w op body)
    (stays : op.leaves = false) : Live (body ++ rest) := by
  have quiet : op.yields = false := by
    cases op <;> first | rfl | cases stays
  have after := live.tail quiet
  have fresh := after.noRevived
  have paired := after.paired
  have head := after.head
  cases e
  case fatal => cases stays
  case exitMark => cases stays
  case nil => exact after
  all_goals
    constructor
    · simpa [Op.isRevived, procSleep, sleeplockAcquire, sleeplockRelease, sleeplockHolding, driver,
        procExit, procWait, timerUpdate, yield] using fresh
    · simpa [Op.yields, head, procSleep, sleeplockAcquire, sleeplockRelease, sleeplockHolding,
        driver, procExit, procWait, timerUpdate, yield] using paired
    · simp [procSleep, sleeplockAcquire, sleeplockRelease, sleeplockHolding, driver, procExit,
        procWait, timerUpdate, yield]

end Live

namespace Dying

variable {op : Op} {rest : List Op}

private theorem settled (dying : Dying (op :: rest)) (other : op ≠ .procSched) : op.settled = true := by
  obtain ⟨_ | ⟨first, front⟩, after, split, settled, -⟩ := dying
  · exact absurd (List.cons.inj split).1 other
  · obtain ⟨rfl, -⟩ := List.cons.inj split
    exact settled _ List.mem_cons_self

private theorem tail (dying : Dying (op :: rest)) (other : op ≠ .procSched) : Dying rest := by
  obtain ⟨_ | ⟨first, front⟩, after, split, settled, last⟩ := dying
  · exact absurd (List.cons.inj split).1 other
  · exact ⟨front, after, (List.cons.inj split).2, fun o member =>
      settled o (List.mem_cons_of_mem _ member), last⟩

private theorem append {more code : List Op} (dying : Dying code) (calm : ∀ op ∈ more, op.settled = true) :
    Dying (more ++ code) := by
  obtain ⟨front, after, rfl, settled, last⟩ := dying
  refine ⟨more ++ front, after, (List.append_assoc ..).symm, fun op member => ?_, last⟩
  rcases List.mem_append.mp member with member | member
  · exact calm op member
  · exact settled op member

private theorem expand {w : Option Proc} {body : List Op} (dying : Dying (op :: rest))
    (e : Expands w op body) (other : op ≠ .procSched) (unpreempted : op ≠ .preempt) :
    Dying (body ++ rest) := by
  have calm := dying.settled other
  refine (dying.tail other).append ?_
  cases e
  case preempt => exact absurd rfl unpreempted
  all_goals simp_all [Op.settled, driver, timerUpdate]

private theorem lastSched {code : List Op} (dying : Dying code) : lastSched code = true := by
  obtain ⟨front, after, rfl, -, last⟩ := dying
  exact lastSched_append last

end Dying

/-! ## Where the processes are -/

/-- What a CPU runs for a process fits the process's state. -/
def Fits (s : Sys n) (c : Fin n) (p : Proc) : ProcState → Prop
  | .running => Live (s.cpus c).code
  | .runnable | .sleeping =>
    (∃ rest, (s.cpus c).code = .procSched :: rest ∧ Live rest ∧ rest.head? ≠ some .trapUserReturn) ∧
      (s.cpus c).intr = false ∧ s.locks (.proc p) = some c
  | .zombie => Dying (s.cpus c).code
  | .unused => False

/-- The code of a process that runs or that can be scheduled. -/
def Thread (s : Sys n) (p : Proc) (code : List Op) : Prop :=
  (∃ c, s.myproc c = some p ∧ (s.cpus c).code = code) ∨
    (∀ c, s.myproc c ≠ some p) ∧ (s.state p = .runnable ∨ s.state p = .sleeping) ∧
      (s.procs p).ctx = code

/-- A process only reaps children of its own, and only frees those that have left their CPU. -/
def Reaps (s : Sys n) (p : Proc) (op : Op) : Prop :=
  ∀ child, op.reaps = some child → (s.procs child).parent = some p ∧
    (op = .freed child → s.state child = .zombie ∧ ∀ c, s.myproc c ≠ some child)

/-- Where the processes run and who frees them. -/
structure Placed (s : Sys n) : Prop where
  unique : ∀ c d p, s.myproc c = some p → s.myproc d = some p → c = d
  fits : ∀ c p, s.myproc c = some p → Fits s c p (s.state p)
  saved : ∀ p, (∀ c, s.myproc c ≠ some p) → s.state p = .runnable ∨ s.state p = .sleeping →
    Live (s.procs p).ctx
  orphan : ∀ p, s.state p = .unused → (s.procs p).parent = none
  reaping : ∀ p code, Thread s p code → ∀ op ∈ code, Reaps s p op

/-- Where `proc_wait` is about to test a child, a CPU that runs the child is not on its way to the child's last
`swtch`. -/
def Tested (s : Sys n) : Prop :=
  ∀ c q child rest, (s.cpus c).code = .waitCheck q child :: rest → ∀ d, s.myproc d = some child →
    lastSched (s.cpus d).code = false

/-- A zombie that `proc_wait` is about to test has left its CPU. -/
def Departed (s : Sys n) : Prop :=
  ∀ c q child rest, (s.cpus c).code = .waitCheck q child :: rest → s.state child = .zombie →
    ∀ d, s.myproc d ≠ some child

private theorem Placed.departed {s : Sys n} (placed : Placed s) (tested : Tested s) : Departed s := by
  intro c q child rest head zombie d here
  have fits := placed.fits d child here
  rw [zombie] at fits
  have last : lastSched (s.cpus d).code = true := Dying.lastSched fits
  rw [tested c q child rest head d here] at last
  cases last

private theorem Reaps.keep {s s' : Sys n} {p : Proc} {op : Op} (reaps : Reaps s p op)
    (stays : ∀ child, op.reaps = some child → (s.procs child).parent = some p →
      (s'.procs child).parent = some p ∧ (s.state child = .zombie → s'.state child = .zombie))
    (mine : ∀ c, s'.myproc c = s.myproc c) : Reaps s' p op := by
  intro child reaped
  obtain ⟨parent, gone⟩ := reaps child reaped
  obtain ⟨parent', zombie⟩ := stays child reaped parent
  refine ⟨parent', fun freed => ⟨zombie (gone freed).1, fun c => ?_⟩⟩
  rw [mine]
  exact (gone freed).2 c

private theorem reaps_of_none {s : Sys n} {p : Proc} {op : Op} (none : op.reaps = none) :
    Reaps s p op := by
  intro child reaped
  rw [none] at reaped
  cases reaped

namespace Placed

variable {s s' : Sys n} {c : Fin n}

/-- A process in a state to be scheduled that runs on a CPU is about to leave it. -/
theorem leaving (placed : Placed s) {p : Proc} (mine : s.myproc c = some p)
    (ready : s.state p = .runnable ∨ s.state p = .sleeping) :
    (∃ rest, (s.cpus c).code = .procSched :: rest ∧ Live rest ∧ rest.head? ≠ some .trapUserReturn) ∧
      (s.cpus c).intr = false ∧ s.locks (.proc p) = some c := by
  have fits := placed.fits c p mine
  rcases ready with ready | ready <;> rwa [ready] at fits

/-- Where a process's lock is held, its state to be scheduled means that it does not run. -/
theorem absent (placed : Placed s) (base : Base s) {p : Proc} {op : Op} {rest : List Op}
    (head : (s.cpus c).code = op :: rest) (locked : op.under = some p) (other : op ≠ .procSched)
    (kept : ∀ l, op ≠ .release l) (ready : s.state p = .runnable ∨ s.state p = .sleeping)
    (d : Fin n) : s.myproc d ≠ some p := by
  intro mine
  obtain ⟨⟨_, code, -⟩, -, here⟩ := placed.leaving mine ready
  have there := (base.locked c p (by rw [head, under_cons kept, locked])).2
  obtain rfl : c = d := Option.some.inj (there.symm.trans here)
  rw [head] at code
  exact other (List.cons.inj code).1

/-- A step after which every CPU has the process it had. -/
private theorem stay (placed : Placed s) (mine : ∀ d, s'.myproc d = s.myproc d)
    (cpus : ∀ d, d ≠ c → s'.cpus d = s.cpus d)
    (locks : ∀ d, d ≠ c → ∀ l, s.locks l = some d → s'.locks l = some d)
    (fits : ∀ p, s.myproc c = some p → Fits s' c p (s'.state p))
    (elsewhere : ∀ d p, d ≠ c → s.myproc d = some p → s'.state p = s.state p)
    (saved : ∀ p, (∀ d, s.myproc d ≠ some p) → s'.state p = .runnable ∨ s'.state p = .sleeping →
      Live (s'.procs p).ctx)
    (orphan : ∀ p, s'.state p = .unused → (s'.procs p).parent = none)
    (reaping : ∀ p code, Thread s' p code → ∀ op ∈ code, Reaps s' p op) : Placed s' where
  unique d e p here there := placed.unique d e p (mine d ▸ here) (mine e ▸ there)
  fits d p here := by
    rw [mine] at here
    rcases eq_or_ne d c with rfl | other
    · exact fits p here
    · have before := placed.fits d p here
      rw [elsewhere d p other here]
      cases state : s.state p <;> rw [state] at before <;>
        simp only [Fits, cpus d other] at before ⊢
      case running => exact before
      case zombie => exact before
      case runnable => exact ⟨before.1, before.2.1, locks d other _ before.2.2⟩
      case sleeping => exact ⟨before.1, before.2.1, locks d other _ before.2.2⟩
  saved p away := saved p fun d => mine d ▸ away d
  orphan := orphan
  reaping := reaping

/-- A step that only changes what one CPU is running. -/
private theorem recode (placed : Placed s) (mine : ∀ d, s'.myproc d = s.myproc d)
    (cpus : ∀ d, d ≠ c → s'.cpus d = s.cpus d)
    (locks : ∀ d, d ≠ c → ∀ l, s.locks l = some d → s'.locks l = some d)
    (procs : s'.procs = s.procs)
    (fits : ∀ p, s.myproc c = some p → Fits s' c p (s.state p))
    (reaps : ∀ p, s.myproc c = some p → ∀ op ∈ (s'.cpus c).code, Reaps s p op) : Placed s' := by
  have state : ∀ p, s'.state p = s.state p := fun p => by rw [Sys.state, procs, Sys.state]
  refine placed.stay mine cpus locks (fun p here => by rw [state]; exact fits p here)
    (fun _ p _ _ => state p) ?_ ?_ ?_
  · intro p away ready
    rw [procs]
    rw [state] at ready
    exact placed.saved p away ready
  · intro p unused
    rw [procs]
    rw [state] at unused
    exact placed.orphan p unused
  · intro p code thread op member
    refine Reaps.keep (s := s) ?_ (fun child _ parent => ⟨by rwa [procs], fun zombie => by
      rwa [state]⟩) mine
    rcases thread with ⟨d, here, rfl⟩ | ⟨away, ready, rfl⟩
    · rw [mine] at here
      rcases eq_or_ne d c with rfl | other
      · exact reaps p here op member
      · rw [cpus d other] at member
        exact placed.reaping p _ (.inl ⟨d, here, rfl⟩) op member
    · rw [procs] at member
      rw [state] at ready
      exact placed.reaping p _ (.inr ⟨fun d => mine d ▸ away d, ready, rfl⟩) op member

/-- An operation of the machine is done. -/
private theorem advance (placed : Placed s) {op : Op} {rest : List Op}
    (mine : ∀ d, s'.myproc d = s.myproc d)
    (cpus : ∀ d, d ≠ c → s'.cpus d = s.cpus d)
    (locks : ∀ d, d ≠ c → ∀ l, s.locks l = some d → s'.locks l = some d)
    (procs : s'.procs = s.procs) (head : (s.cpus c).code = op :: rest)
    (code : (s'.cpus c).code = rest) (other : op ≠ .procSched) (stays : op.yields = false) :
    Placed s' := by
  refine placed.recode mine cpus locks procs (fun p here => ?_) fun p here o member => ?_
  · have before := placed.fits c p here
    cases state : s.state p <;> rw [state] at before <;> simp only [Fits, head, code] at before ⊢
    case running => exact before.tail stays
    case zombie => exact before.tail other
    case runnable =>
      obtain ⟨⟨_, sched, -⟩, -⟩ := before
      exact absurd (List.cons.inj sched).1 other
    case sleeping =>
      obtain ⟨⟨_, sched, -⟩, -⟩ := before
      exact absurd (List.cons.inj sched).1 other
  · refine placed.reaping p _ (.inl ⟨c, here, rfl⟩) o ?_
    rw [head, ← code]
    exact List.mem_cons_of_mem _ member

/-- A CPU runs something else first. -/
private theorem push (placed : Placed s) (more : List Op) (mine : ∀ d, s'.myproc d = s.myproc d)
    (cpus : ∀ d, d ≠ c → s'.cpus d = s.cpus d)
    (locks : ∀ d, d ≠ c → ∀ l, s.locks l = some d → s'.locks l = some d)
    (procs : s'.procs = s.procs) (code : (s'.cpus c).code = more ++ (s.cpus c).code)
    (busy : ∀ rest, (s.cpus c).code = .procSched :: rest → (s.cpus c).intr = true)
    (settled : ∀ op ∈ more, op.settled = true) : Placed s' := by
  have plain : ∀ op ∈ more, op.isRevived = false ∧ op ≠ .procSched ∧ op.reaps = none := by
    intro op member
    have calm := settled op member
    refine ⟨?_, ?_, ?_⟩
    · cases op <;> first | rfl | cases calm
    · rintro rfl
      cases calm
    · cases op <;> first | rfl | cases calm
  have live : Live (s.cpus c).code → Live (more ++ (s.cpus c).code) := by
    intro live
    clear code settled
    induction more with
    | nil => exact live
    | cons op more ih =>
      obtain ⟨first, others⟩ := List.forall_mem_cons.mp plain
      exact (ih others).cons first.2.1 first.1
  refine placed.recode mine cpus locks procs (fun p here => ?_) fun p here o member => ?_
  · have before := placed.fits c p here
    cases state : s.state p <;> rw [state] at before <;> simp only [Fits, code] at before ⊢
    case running => exact live before
    case zombie => exact before.append settled
    case runnable =>
      obtain ⟨⟨_, sched, -⟩, off, -⟩ := before
      rw [busy _ sched] at off
      cases off
    case sleeping =>
      obtain ⟨⟨_, sched, -⟩, off, -⟩ := before
      rw [busy _ sched] at off
      cases off
  · rw [code] at member
    rcases List.mem_append.mp member with member | member
    · exact reaps_of_none (plain o member).2.2
    · exact placed.reaping p _ (.inl ⟨c, here, rfl⟩) o member

/-- `swtch` from a thread to the scheduler. -/
private theorem toScheduler (placed : Placed s) {p : Proc} {rest : List Op}
    (head : (s.cpus c).code = .procSched :: rest) (mine : s.myproc c = some p) :
    Placed (toScheduler s c p rest) := by
  set t := Sched.toScheduler s c p rest with def_t
  have gone : t.myproc c = none := by simp [def_t, Sched.toScheduler, Sys.myproc]
  have same : ∀ d, d ≠ c → t.cpus d = s.cpus d := fun d other => Sys.setCpu_cpus_ne other
  have from_s : ∀ d q, t.myproc d = some q → d ≠ c ∧ s.myproc d = some q := by
    intro d q here
    rcases eq_or_ne d c with rfl | other
    · rw [gone] at here
      cases here
    · exact ⟨other, by rwa [Sys.myproc, same d other] at here⟩
  have state : ∀ q, t.state q = s.state q := by
    intro q
    simp only [def_t, Sched.toScheduler, Sys.state, Sys.setCpu_procs, Sys.setProc_procs]
    split <;> simp_all
  have parent : ∀ q, (t.procs q).parent = (s.procs q).parent := by
    intro q
    simp only [def_t, Sched.toScheduler, Sys.setCpu_procs, Sys.setProc_procs]
    split <;> simp_all
  have ctx : ∀ q, q ≠ p → (t.procs q).ctx = (s.procs q).ctx := by
    intro q other
    simp [def_t, Sched.toScheduler, Sys.setProc_procs, other]
  have left : (t.procs p).ctx = rest := by
    simp [def_t, Sched.toScheduler, Sys.setProc_procs]
  have away : ∀ q, q ≠ p → (∀ d, t.myproc d ≠ some q) → ∀ d, s.myproc d ≠ some q := by
    intro q other away d here
    rcases eq_or_ne d c with rfl | elsewhere
    · exact other (Option.some.inj (here.symm.trans mine))
    · exact away d (by rwa [Sys.myproc, same d elsewhere])
  refine ⟨?_, ?_, ?_, ?_, ?_⟩
  · intro d e q here there
    exact placed.unique d e q (from_s d q here).2 (from_s e q there).2
  · intro d q here
    obtain ⟨other, here⟩ := from_s d q here
    have before := placed.fits d q here
    have locks : t.locks = s.locks := rfl
    rw [state]
    cases status : s.state q <;> rw [status] at before <;>
      simp only [Fits, same d other, locks] at before ⊢ <;> exact before
  · intro q gone ready
    rw [state] at ready
    rcases eq_or_ne q p with rfl | other
    · obtain ⟨⟨after, code, live, -⟩, -⟩ := placed.leaving mine ready
      rw [left]
      rwa [(List.cons.inj (head.symm.trans code)).2]
    · rw [ctx q other]
      exact placed.saved q (away q other gone) ready
  · intro q unused
    rw [state] at unused
    rw [parent]
    exact placed.orphan q unused
  · intro q code thread op member child reaped
    have before : Reaps s q op := by
      rcases thread with ⟨d, here, rfl⟩ | ⟨gone, ready, rfl⟩
      · obtain ⟨other, here⟩ := from_s d q here
        rw [same d other] at member
        exact placed.reaping q _ (.inl ⟨d, here, rfl⟩) op member
      · rw [state] at ready
        rcases eq_or_ne q p with rfl | other
        · rw [left] at member
          exact placed.reaping q _ (.inl ⟨c, mine, rfl⟩) op
            (head ▸ List.mem_cons_of_mem _ member)
        · rw [ctx q other] at member
          exact placed.reaping q _ (.inr ⟨away q other gone, ready, rfl⟩) op member
    obtain ⟨parents, freed⟩ := before child reaped
    rw [parent, state]
    exact ⟨parents, fun now => ⟨(freed now).1, fun d here =>
      (freed now).2 d (from_s d child here).2⟩⟩

/-- `swtch` from the scheduler to a process. -/
private theorem toProcess (placed : Placed s) (base : Base s) {p : Proc} {rest : List Op}
    (head : (s.cpus c).code = .schedulerCheck p :: rest) (ready : s.state p = .runnable) :
    Placed (toProcess s c p rest) := by
  have idle : s.myproc c = none := (base.head head).1.1
  have absent := placed.absent base head rfl (by simp) (by simp) (.inl ready)
  set t := Sched.toProcess s c p rest with def_t
  have here : t.myproc c = some p := by simp [def_t, Sched.toProcess, Sys.myproc]
  have code : (t.cpus c).code = (s.procs p).ctx := by simp [def_t, Sched.toProcess]
  have same : ∀ d, d ≠ c → t.cpus d = s.cpus d := fun d other => Sys.setCpu_cpus_ne other
  have locks : t.locks = s.locks := rfl
  have before : ∀ d q, t.myproc d = some q → d = c ∧ q = p ∨ d ≠ c ∧ s.myproc d = some q := by
    intro d q mine
    rcases eq_or_ne d c with rfl | other
    · rw [here] at mine
      exact .inl ⟨rfl, (Option.some.inj mine).symm⟩
    · exact .inr ⟨other, by rwa [Sys.myproc, same d other] at mine⟩
  have started : t.state p = .running := by
    simp [def_t, Sched.toProcess, Sys.state, Sys.setProc_procs]
  have procs : ∀ q, q ≠ p → t.procs q = s.procs q := by
    intro q other
    simp [def_t, Sched.toProcess, Sys.setProc_procs, other]
  have parent : ∀ q, (t.procs q).parent = (s.procs q).parent := by
    intro q
    simp only [def_t, Sched.toProcess, Sys.setCpu_procs, Sys.setProc_procs]
    split <;> simp_all
  have away : ∀ q, q ≠ p → (∀ d, t.myproc d ≠ some q) → ∀ d, s.myproc d ≠ some q := by
    intro q other away d mine
    rcases eq_or_ne d c with rfl | elsewhere
    · rw [idle] at mine
      cases mine
    · exact away d (by rwa [Sys.myproc, same d elsewhere])
  refine ⟨?_, ?_, ?_, ?_, ?_⟩
  · intro d e q mine yours
    rcases before d q mine with ⟨rfl, rfl⟩ | ⟨-, was⟩
    · rcases before e q yours with ⟨rfl, -⟩ | ⟨-, was⟩
      · rfl
      · exact absurd was (absent e)
    · rcases before e q yours with ⟨rfl, rfl⟩ | ⟨-, too⟩
      · exact absurd was (absent d)
      · exact placed.unique d e q was too
  · intro d q mine
    obtain ⟨rfl, rfl⟩ | ⟨other, mine⟩ := before d q mine
    · rw [started]
      rw [Fits, code]
      exact placed.saved q absent (.inl ready)
    · have different : q ≠ p := fun same => absent d (same ▸ mine)
      have fits := placed.fits d q mine
      rw [Sys.state, procs q different, ← Sys.state]
      cases status : s.state q <;> rw [status] at fits <;>
        simp only [Fits, same d other, locks] at fits ⊢ <;> exact fits
  · intro q gone waiting
    rcases eq_or_ne q p with rfl | other
    · exact absurd here (gone c)
    · rw [Sys.state, procs q other, ← Sys.state] at waiting
      rw [procs q other]
      exact placed.saved q (away q other gone) waiting
  · intro q unused
    rcases eq_or_ne q p with rfl | other
    · rw [started] at unused
      cases unused
    · rw [Sys.state, procs q other, ← Sys.state] at unused
      rw [procs q other]
      exact placed.orphan q unused
  · intro q code' thread op member child reaped
    have reaps : Reaps s q op := by
      rcases thread with ⟨d, mine, rfl⟩ | ⟨gone, waiting, rfl⟩
      · obtain ⟨rfl, rfl⟩ | ⟨other, mine⟩ := before d q mine
        · rw [code] at member
          exact placed.reaping q _ (.inr ⟨absent, .inl ready, rfl⟩) op member
        · rw [same d other] at member
          exact placed.reaping q _ (.inl ⟨d, mine, rfl⟩) op member
      · rcases eq_or_ne q p with rfl | other
        · exact absurd here (gone c)
        · rw [Sys.state, procs q other, ← Sys.state] at waiting
          rw [procs q other] at member
          exact placed.reaping q _ (.inr ⟨away q other gone, waiting, rfl⟩) op member
    obtain ⟨parents, freed⟩ := reaps child reaped
    rw [parent]
    refine ⟨parents, fun now => ?_⟩
    obtain ⟨zombie, gone⟩ := freed now
    have different : child ≠ p := by
      rintro rfl
      rw [ready] at zombie
      cases zombie
    rw [Sys.state, procs child different, ← Sys.state]
    refine ⟨zombie, fun d mine => ?_⟩
    obtain ⟨-, same⟩ | ⟨-, mine⟩ := before d child mine
    · exact different same
    · exact gone d mine

/-- A process changes its own slot. -/
private theorem own (placed : Placed s) {p : Proc} {slot : Slot} (here : s.myproc c = some p)
    (mine : ∀ d, s'.myproc d = s.myproc d)
    (cpus : ∀ d, d ≠ c → s'.cpus d = s.cpus d)
    (locks : ∀ d, d ≠ c → ∀ l, s.locks l = some d → s'.locks l = some d)
    (procs : s'.procs = Function.update s.procs p slot)
    (parent : slot.parent = (s.procs p).parent) (used : slot.state ≠ .unused)
    (fits : Fits s' c p slot.state)
    (reaps : ∀ op ∈ (s'.cpus c).code, Reaps s p op) : Placed s' := by
  have now : s'.procs p = slot := by rw [procs, Function.update_self]
  have others : ∀ q, q ≠ p → s'.procs q = s.procs q := fun q other => by
    rw [procs, Function.update_of_ne other]
  have others_state : ∀ q, q ≠ p → s'.state q = s.state q := fun q other => by
    rw [Sys.state, others q other, Sys.state]
  refine placed.stay mine cpus locks ?_ ?_ ?_ ?_ ?_
  · intro q too
    obtain rfl : p = q := Option.some.inj (here.symm.trans too)
    rw [Sys.state, now]
    exact fits
  · intro d q other too
    refine others_state q fun same => other ?_
    exact placed.unique d c p (same ▸ too) here
  · intro q away ready
    have other : q ≠ p := fun same => away c (same ▸ here)
    rw [others_state q other] at ready
    rw [others q other]
    exact placed.saved q away ready
  · intro q unused
    rcases eq_or_ne q p with rfl | other
    · rw [Sys.state, now] at unused
      exact absurd unused used
    · rw [others_state q other] at unused
      rw [others q other]
      exact placed.orphan q unused
  · intro q code thread op member
    have before : Reaps s q op := by
      rcases thread with ⟨d, there, rfl⟩ | ⟨away, ready, rfl⟩
      · rw [mine] at there
        rcases eq_or_ne d c with rfl | other
        · obtain rfl : p = q := Option.some.inj (here.symm.trans there)
          exact reaps op member
        · rw [cpus d other] at member
          exact placed.reaping q _ (.inl ⟨d, there, rfl⟩) op member
      · have away' : ∀ d, s.myproc d ≠ some q := fun d => mine d ▸ away d
        have other : q ≠ p := fun same => away' c (same ▸ here)
        rw [others_state q other] at ready
        rw [others q other] at member
        exact placed.reaping q _ (.inr ⟨away', ready, rfl⟩) op member
    intro child reaped
    obtain ⟨parents, freed⟩ := before child reaped
    refine ⟨?_, fun now => ?_⟩
    · rcases eq_or_ne child p with rfl | other
      · rw [now, parent]
        exact parents
      · rw [others child other]
        exact parents
    · obtain ⟨zombie, gone⟩ := freed now
      have other : child ≠ p := fun same => gone c (same ▸ here)
      rw [others_state child other]
      exact ⟨zombie, fun d => mine d ▸ gone d⟩

/-- The slot of a process that does not run is changed. -/
private theorem foreign (placed : Placed s) {q : Proc} {slot : Slot}
    (away : ∀ d, s.myproc d ≠ some q)
    (mine : ∀ d, s'.myproc d = s.myproc d)
    (cpus : ∀ d, d ≠ c → s'.cpus d = s.cpus d)
    (locks : ∀ d, d ≠ c → ∀ l, s.locks l = some d → s'.locks l = some d)
    (procs : s'.procs = Function.update s.procs q slot)
    (saved : slot.state = .runnable ∨ slot.state = .sleeping →
      Live slot.ctx ∧ ∀ op ∈ slot.ctx, Reaps s q op)
    (orphan : slot.state = .unused → slot.parent = none)
    (reaped : ∀ p, (s.procs q).parent = some p → (s.myproc c = some p ∧
      ∀ op ∈ (s'.cpus c).code, op.reaps ≠ some q) ∨
      slot.parent = some p ∧ (s.state q = .zombie → slot.state = .zombie))
    (fits : ∀ p, s.myproc c = some p → Fits s' c p (s.state p))
    (reaps : ∀ p, s.myproc c = some p → ∀ op ∈ (s'.cpus c).code, Reaps s p op) : Placed s' := by
  have now : s'.procs q = slot := by rw [procs, Function.update_self]
  have others : ∀ r, r ≠ q → s'.procs r = s.procs r := fun r other => by
    rw [procs, Function.update_of_ne other]
  have others_state : ∀ r, r ≠ q → s'.state r = s.state r := fun r other => by
    rw [Sys.state, others r other, Sys.state]
  have running : ∀ d r, s.myproc d = some r → r ≠ q := fun d r here same =>
    away d (same ▸ here)
  refine placed.stay mine cpus locks ?_ ?_ ?_ ?_ ?_
  · intro p here
    rw [others_state p (running c p here)]
    exact fits p here
  · intro d p _ here
    exact others_state p (running d p here)
  · intro p gone ready
    rcases eq_or_ne p q with rfl | other
    · rw [Sys.state, now] at ready
      rw [now]
      exact (saved ready).1
    · rw [others_state p other] at ready
      rw [others p other]
      exact placed.saved p gone ready
  · intro p unused
    rcases eq_or_ne p q with rfl | other
    · rw [Sys.state, now] at unused
      rw [now]
      exact orphan unused
    · rw [others_state p other] at unused
      rw [others p other]
      exact placed.orphan p unused
  · intro p code thread op member
    have before : Reaps s p op := by
      rcases thread with ⟨d, there, rfl⟩ | ⟨gone, ready, rfl⟩
      · rw [mine] at there
        rcases eq_or_ne d c with rfl | other
        · exact reaps p there op member
        · rw [cpus d other] at member
          exact placed.reaping p _ (.inl ⟨d, there, rfl⟩) op member
      · have gone' : ∀ d, s.myproc d ≠ some p := fun d => mine d ▸ gone d
        rcases eq_or_ne p q with rfl | other
        · rw [Sys.state, now] at ready
          rw [now] at member
          exact (saved ready).2 op member
        · rw [others_state p other] at ready
          rw [others p other] at member
          exact placed.reaping p _ (.inr ⟨gone', ready, rfl⟩) op member
    refine before.keep (fun child reaping parent => ?_) mine
    rcases eq_or_ne child q with rfl | other
    · rcases reaped p parent with ⟨here, not⟩ | ⟨parent', zombie'⟩
      · exfalso
        rcases thread with ⟨d, there, rfl⟩ | ⟨gone, -⟩
        · rw [mine] at there
          obtain rfl := placed.unique d c p there here
          exact not op member reaping
        · exact gone c (mine c ▸ here)
      · refine ⟨by rw [now]; exact parent', fun zombie => ?_⟩
        rw [Sys.state, now]
        exact zombie' zombie
    · rw [others child other, others_state child other]
      exact ⟨parent, id⟩

/-- What an operation is replaced by reaps what `proc_wait` has found. -/
private theorem body_reaps (placed : Placed s) (base : Base s) {pick : Pick} {op : Op}
    {rest body : List Op} (gone : Departed s)
    (head : (s.cpus c).code = op :: rest) (follows : next s c pick op = some body) (owned : Own s c op) (p : Proc)
    (here : s.myproc c = some p) : ∀ o ∈ body ++ rest, Reaps s p o := by
  have old : ∀ o ∈ op :: rest, Reaps s p o := fun o member =>
    placed.reaping p _ (.inl ⟨c, here, rfl⟩) o (head ▸ member)
  intro o both
  rcases List.mem_append.mp both with member | member <;> clear both
  · have belongs := (base.head head).1.1
    cases op
    case waitChildren q i haveKids =>
      obtain rfl : p = q := Option.some.inj (here.symm.trans belongs)
      simp only [next] at follows
      split at follows
      case isTrue h =>
        split at follows <;> rename_i parent <;> cases follows
        case isTrue =>
          rcases List.mem_pair.mp member with rfl | rfl
          · exact reaps_of_none rfl
          · intro child reaped
            obtain rfl := Option.some.inj reaped
            exact ⟨parent, fun freed => by cases freed⟩
        case isFalse =>
          obtain rfl := List.mem_singleton.mp member
          exact reaps_of_none rfl
      case isFalse =>
        split at follows <;> cases follows
        · refine reaps_of_none ?_
          simp only [procSleep, List.cons_append, List.nil_append, List.mem_cons,
            List.not_mem_nil, or_false] at member
          rcases member with rfl | rfl | rfl | rfl | rfl | rfl | rfl | rfl | rfl <;> rfl
        · cases member
    case waitCheck q child =>
      simp only [next] at follows
      split at follows <;> rename_i zombie <;> cases follows
      case isTrue =>
        simp only [List.mem_cons, List.not_mem_nil, or_false] at member
        rcases member with rfl | rfl | rfl | rfl
        · exact reaps_of_none rfl
        · exact reaps_of_none rfl
        · intro child' reaped
          obtain rfl := Option.some.inj reaped
          refine ⟨(old _ List.mem_cons_self child rfl).1, fun _ => ⟨zombie, ?_⟩⟩
          exact gone c q child rest head zombie
        · exact reaps_of_none rfl
      case isFalse =>
        rcases List.mem_pair.mp member with rfl | rfl <;> exact reaps_of_none rfl
    all_goals
      refine reaps_of_none ?_
      revert o
      cases expands follows owned <;>
        simp [Op.reaps, procSleep, sleeplockAcquire, sleeplockRelease, sleeplockHolding, driver,
          procExit, procWait, timerUpdate, yield]
  · exact old o (List.mem_cons_of_mem _ member)

/-- The code that replaces an operation fits the process that runs it. -/
private theorem body_fits (placed : Placed s) {pick : Pick} {op : Op} {rest body : List Op}
    (head : (s.cpus c).code = op :: rest) (follows : next s c pick op = some body) (owned : Own s c op)
    (code : (s'.cpus c).code = body ++ rest) (stays : op.leaves = false) (p : Proc)
    (here : s.myproc c = some p) : Fits s' c p (s.state p) := by
  have before := placed.fits c p here
  have unscheduled : op ≠ .procSched := by
    rintro rfl
    cases follows
  cases state : s.state p <;> rw [state] at before <;> simp only [Fits, head, code] at before ⊢
  case running => exact before.expand (expands follows owned) stays
  case zombie =>
    rcases eq_or_ne op .preempt with rfl | other
    · have nothing : body = [] := by
        simp only [next, here, state] at follows
        exact (Option.some.inj follows).symm
      rw [nothing]
      exact before.tail unscheduled
    · exact before.expand (expands follows owned) unscheduled other
  case runnable =>
    obtain ⟨⟨_, sched, -⟩, -⟩ := before
    exact absurd (List.cons.inj sched).1 unscheduled
  case sleeping =>
    obtain ⟨⟨_, sched, -⟩, -⟩ := before
    exact absurd (List.cons.inj sched).1 unscheduled

/-- A running process that marks itself is about to leave its CPU. -/
private theorem marked (placed : Placed s) (base : Base s) {op : Op} {rest : List Op} {p : Proc}
    (head : (s.cpus c).code = op :: rest) (marks : op.yields = true) (under : op.under = some p)
    (here : s.myproc c = some p) :
    (∃ after, rest = .procSched :: after ∧ Live after ∧ after.head? ≠ some .trapUserReturn) ∧
      (s.cpus c).intr = false ∧ s.locks (.proc p) = some c := by
  have unscheduled : op ≠ .procSched := by
    rintro rfl
    cases marks
  have locked := base.locked c p (by
    rw [head, under_cons (by rintro l rfl; cases marks), under])
  have before := placed.fits c p here
  refine ⟨?_, locked⟩
  cases state : s.state p <;> rw [state] at before <;> simp only [Fits, head] at before
  case running =>
    obtain ⟨after, rfl, resumes⟩ := (base.head head).2.1.1 marks
    exact ⟨after, rfl, before.yielded, resumes⟩
  case zombie =>
    have calm := before.settled unscheduled
    cases op <;> simp [Op.settled, Op.yields] at calm marks
  case runnable =>
    obtain ⟨⟨_, sched, -⟩, -⟩ := before
    exact absurd (List.cons.inj sched).1 unscheduled
  case sleeping =>
    obtain ⟨⟨_, sched, -⟩, -⟩ := before
    exact absurd (List.cons.inj sched).1 unscheduled

/-- An exiting process hands a child to `init_process`, and frees nobody any more. -/
private theorem reparented (placed : Placed s) {p child : Proc} (belongs : s.myproc c = some p)
    (child_of : (s.procs child).parent = some p) (mine : ∀ d, s'.myproc d = s.myproc d)
    (cpus : ∀ d, d ≠ c → s'.cpus d = s.cpus d)
    (locks : ∀ d, d ≠ c → ∀ l, s.locks l = some d → s'.locks l = some d)
    (written : s'.procs = Function.update s.procs child { s.procs child with parent := some initProcess })
    (fits : ∀ q, s.myproc c = some q → Fits s' c q (s.state q))
    (nothing : ∀ op ∈ (s'.cpus c).code, op.reaps = none) : Placed s' := by
  have others : ∀ r, r ≠ child → s'.procs r = s.procs r := fun r other => by
    rw [written, Function.update_of_ne other]
  have now : s'.procs child = { s.procs child with parent := some initProcess } := by
    rw [written, Function.update_self]
  have state : ∀ r, s'.state r = s.state r := by
    intro r
    rcases eq_or_ne r child with rfl | other
    · rw [Sys.state, now, Sys.state]
    · rw [Sys.state, others r other, Sys.state]
  have ctx : ∀ r, (s'.procs r).ctx = (s.procs r).ctx := by
    intro r
    rcases eq_or_ne r child with rfl | other
    · rw [now]
    · rw [others r other]
  apply placed.stay mine cpus locks (fun q here => state q ▸ fits q here) fun _ q _ _ => state q
  · intro q away ready
    rw [ctx]
    exact placed.saved q away (state q ▸ ready)
  · intro q unused
    rw [state] at unused
    rcases eq_or_ne q child with rfl | other
    · rw [placed.orphan q unused] at child_of
      cases child_of
    · rw [others q other]
      exact placed.orphan q unused
  · intro q code thread op member
    -- only its parent reaps the child, and the parent is exiting
    have keep : Reaps s q op → p ≠ q → Reaps s' q op := fun before other =>
      before.keep (fun child' _ parent => by
        have apart : child' ≠ child := by
          rintro rfl
          exact other (Option.some.inj (child_of.symm.trans parent))
        rw [others child' apart, state]
        exact ⟨parent, id⟩) mine
    rcases thread with ⟨d, there, rfl⟩ | ⟨away, ready, rfl⟩
    · rw [mine] at there
      rcases eq_or_ne d c with rfl | other
      · exact reaps_of_none (nothing op member)
      · rw [cpus d other] at member
        refine keep (placed.reaping q _ (.inl ⟨d, there, rfl⟩) op member) ?_
        rintro rfl
        exact other (placed.unique d c p there belongs)
    · rw [state] at ready
      rw [ctx] at member
      refine keep (placed.reaping q _ (.inr ⟨fun d => mine d ▸ away d, ready, rfl⟩) op member) ?_
      rintro rfl
      exact away c (mine c ▸ belongs)

private theorem call (placed : Placed s) (base : Base s) {pick : Pick} {op : Op}
    {rest body : List Op} (gone : Departed s)
    (head : (s.cpus c).code = op :: rest) (follows : next s c pick op = some body) (owned : Own s c op) :
    Placed ((write s c op).setCode c (body ++ rest)) := by
  have wrote := wrote follows
  set t := (write s c op).setCode c (body ++ rest) with def_t
  have code : (t.cpus c).code = body ++ rest := by simp [def_t]
  have cpus : ∀ d, d ≠ c → t.cpus d = s.cpus d := fun d other => by
    rw [def_t, Sys.setCode_eq, Sys.setCpu_cpus_ne other, write_cpus]
  have mine : ∀ d, t.myproc d = s.myproc d := by
    intro d
    rcases eq_or_ne d c with rfl | other
    · simp [def_t, Sys.myproc]
    · rw [Sys.myproc, cpus d other, Sys.myproc]
  have keeps : t.locks = s.locks := by simp [def_t]
  have off : (t.cpus c).intr = (s.cpus c).intr := by simp [def_t]
  have locks : ∀ d, d ≠ c → ∀ l, s.locks l = some d → t.locks l = some d :=
    fun _ _ _ held => keeps ▸ held
  have procs : t.procs = (write s c op).procs := rfl
  have reaps : ∀ p, s.myproc c = some p → ∀ o ∈ (t.cpus c).code, Reaps s p o := fun p here =>
    code ▸ placed.body_reaps base gone head follows owned p here
  have belongs := (base.head head).1.1
  have outside := (base.head head).1.2
  clear_value t
  rw [← procs] at wrote
  generalize written : t.procs = slots at wrote
  cases wrote with
  | none quiet =>
    refine placed.recode mine cpus locks written (fun p here => ?_) reaps
    refine placed.body_fits head follows owned code ?_ p here
    cases op <;> first | rfl | cases quiet
  | @fatal p here =>
    refine placed.own here mine cpus locks written rfl (by simp) ?_ (reaps p here)
    obtain rfl : body = [.procSched] := by
      simpa [next, here] using follows.symm
    obtain ⟨after, rfl⟩ := List.head?_eq_some_iff.mp ((base.head head).2.1.2 rfl)
    exact ⟨[], _, code, by simp, rfl⟩
  | @markRunnable p =>
    refine placed.own belongs mine cpus locks written rfl (by simp) ?_ (reaps p belongs)
    obtain rfl : body = [] := (Option.some.inj follows).symm
    simp only [Fits, code, off, keeps]
    exact placed.marked base head rfl rfl belongs
  | @markSleeping p chan =>
    refine placed.own belongs mine cpus locks written rfl (by simp) ?_ (reaps p belongs)
    obtain rfl : body = [] := (Option.some.inj follows).symm
    simp only [Fits, code, off, keeps]
    exact placed.marked base head rfl rfl belongs
  | @clearSleep p =>
    have fits := placed.body_fits head follows owned code rfl p belongs
    have used : s.state p ≠ .unused := fun unused => by
      rw [unused] at fits
      exact fits
    exact placed.own belongs mine cpus locks written rfl used fits (reaps p belongs)
  | @wakeup chan q asleep there =>
    have away := placed.absent base head rfl (by simp) (by simp) (.inr asleep)
    refine placed.foreign away mine cpus locks written (fun _ => ⟨?_, ?_⟩) (by simp) ?_ ?_ reaps
    · exact placed.saved q away (.inr asleep)
    · exact fun o member => placed.reaping q _ (.inr ⟨away, .inr asleep, rfl⟩) o member
    · exact fun p parent => .inr ⟨parent, fun zombie => by
        rw [asleep] at zombie
        cases zombie⟩
    · exact fun p here => placed.body_fits head follows owned code rfl p here
  | @reparent p code' i child h eq child_of =>
    apply placed.reparented belongs child_of mine cpus locks written
    · exact fun q here => placed.body_fits head follows owned code rfl q here
    · intro o member
      rw [code] at member
      rcases List.mem_append.mp member with inside | after
      · clear member
        revert o
        cases expands follows owned <;> simp [Op.reaps]
      · exact outside rfl o after
  | @exitMark p code' =>
    refine placed.own belongs mine cpus locks written rfl (by simp) ?_ (reaps p belongs)
    obtain rfl := Option.some.inj follows
    refine ⟨[.exitWakeup p, .release (.proc p), .release .lifecycle, .acquire (.proc p)],
      .revived p :: rest, code, ?_, rfl⟩
    simp [Op.settled]
  | @freed q =>
    obtain rfl : body = [] := (Option.some.inj follows).symm
    obtain ⟨p, here⟩ := Option.ne_none_iff_exists'.mp belongs
    obtain ⟨parent, gone⟩ := placed.reaping p _ (.inl ⟨c, here, rfl⟩) (.freed q)
      (head ▸ List.mem_cons_self) q rfl
    refine placed.foreign (gone rfl).2 mine cpus locks written ?_ (fun _ => rfl) ?_ ?_ reaps
    · rintro (ready | ready) <;> cases ready
    · intro r parent'
      obtain rfl : p = r := Option.some.inj (parent.symm.trans parent')
      refine .inl ⟨here, fun o member reaped => ?_⟩
      rw [outside rfl o (by simpa [code] using member)] at reaped
      cases reaped
    · exact fun r there => placed.body_fits head follows owned code rfl r there
  | @fork p q unused =>
    have away : ∀ d, s.myproc d ≠ some q := fun d here => by
      have fits := placed.fits d q here
      rw [unused] at fits
      exact fits
    refine placed.foreign away mine cpus locks written (fun _ => ⟨⟨?_, ?_, ?_⟩, ?_⟩) (by simp) ?_ ?_
      reaps
    · simp [Op.isRevived]
    · simp
    · simp
    · intro o member
      obtain rfl := List.mem_singleton.mp member
      exact reaps_of_none rfl
    · intro r parent
      rw [placed.orphan q unused] at parent
      cases parent
    · exact fun r here => placed.body_fits head follows owned code rfl r here

private theorem step (placed : Placed s) (base : Base s) {a : Fin n × Input} (gone : Departed s)
    (stays : current s a = true) (result : Step s a s') : Placed s' := by
  obtain ⟨c, input⟩ := a
  have cpus : ∀ d, d ≠ c → s'.cpus d = s.cpus d := fun _ other => result.other other
  have locks : ∀ d, d ≠ c → ∀ l, s.locks l = some d → s'.locks l = some d :=
    fun _ other l => (result.locks_other other l).mpr
  have mine : (s'.cpus c).proc = (s.cpus c).proc → ∀ d, s'.myproc d = s.myproc d := by
    intro same d
    rcases eq_or_ne d c with rfl | other
    · exact same
    · rw [Sys.myproc, cpus d other, Sys.myproc]
  have sameProc : ∀ {t : Sys n} {x : CpuState}, x.proc = (s.cpus c).proc →
      ((t.setCpu c x).cpus c).proc = (s.cpus c).proc := by
    intro t x same
    rwa [Sys.setCpu_cpus_self]
  cases result.stepped with
  | irq k on =>
    refine placed.push _ (mine (sameProc rfl)) cpus locks rfl (by rw [Sys.setCpu_cpus_self])
      (fun _ _ => on) ?_
    cases k <;> simp [trapKernelHandler, Op.settled]
  | acquire head free =>
    exact placed.advance (mine (sameProc rfl)) cpus locks rfl head (by rw [Sys.setCpu_cpus_self])
      (by simp) rfl
  | recursive head held =>
    refine placed.push [.panic] (mine (sameProc rfl)) cpus locks rfl
      (by rw [Sys.setCpu_cpus_self]; rfl) (fun _ sched => ?_) (by simp [Op.settled])
    rw [head] at sched
    cases sched
  | release head held off pushed =>
    exact placed.advance (mine (sameProc rfl)) cpus locks rfl head (by rw [Sys.setCpu_cpus_self])
      (by simp) rfl
  | stray head wrong =>
    refine placed.push [.panic] (mine (sameProc rfl)) cpus locks rfl
      (by rw [Sys.setCode_eq, Sys.setCpu_cpus_self]; rfl) (fun _ sched => ?_)
      (by simp [Op.settled])
    rw [head] at sched
    cases sched
  | intrOn head =>
    exact placed.advance (mine (sameProc rfl)) cpus locks rfl head (by rw [Sys.setCpu_cpus_self])
      (by simp) rfl
  | intrOff head =>
    exact placed.advance (mine (sameProc rfl)) cpus locks rfl head (by rw [Sys.setCpu_cpus_self])
      (by simp) rfl
  | sret head =>
    exact placed.advance (mine (sameProc rfl)) cpus locks rfl head (by rw [Sys.setCpu_cpus_self])
      (by simp) rfl
  | sched head here => exact placed.toScheduler head here
  | dispatch head ready => exact placed.toProcess base head ready
  | skip head unready =>
    exact placed.advance (mine (sameProc rfl)) cpus locks rfl head
      (by rw [Sys.setCode_eq, Sys.setCpu_cpus_self]) (by simp) rfl
  | call head follows => exact placed.call base gone head follows (own_of_current stays rfl head)

private theorem boot : Placed (boot : Sys n) where
  unique c d p here := by cases here
  fits c p here := by cases here
  saved p _ ready := by
    rcases eq_or_ne p initProcess with rfl | other
    · constructor <;> simp [Sched.boot, Op.isRevived]
    · simp [Sys.state, Sched.boot, other] at ready
  orphan p _ := by
    rcases eq_or_ne p initProcess with rfl | other
    · rfl
    · simp [Sched.boot, other]
  reaping p code thread op member := by
    rcases thread with ⟨c, here, -⟩ | ⟨-, ready, rfl⟩
    · cases here
    · rcases eq_or_ne p initProcess with rfl | other
      · obtain rfl : op = .procEntryPoint initProcess := by simpa [Sched.boot] using member
        exact reaps_of_none rfl
      · simp [Sys.state, Sched.boot, other] at ready

end Placed

/-! ## Children that are tested -/

/-- The child that the CPU is about to test in `proc_wait`. -/
def testing (code : List Op) : Option Proc :=
  match code with
  | .waitCheck _ child :: _ => some child
  | _ => none

/-- `proc_wait` does not take the lock of a child between the two times that the child's `proc_exit` takes it,
or behind a fatal fault of the child; and no fault kills a process that `proc_wait` is about to test. -/
def apart (s : Sys n) (a : Fin n × Input) : Bool :=
  match (s.cpus a.1).code, a.2 with
  | .acquire _ :: .waitCheck _ child :: _, .go _ =>
    decide (∀ c, s.myproc c = some child → lastSched (s.cpus c).code = false)
  | .fatal :: _, .go _ => decide (∀ c p, s.myproc a.1 = some p → testing (s.cpus c).code ≠ some p)
  | _, _ => true

/-- What replaces an operation has the last `swtch` ahead only if the operation kills its process. -/
private theorem lastSched_expand {w : Option Proc} {op : Op} {body rest : List Op} (e : Expands w op body)
    (alive : lastSched (op :: rest) = false) (unhurt : op ≠ .fatal) (stays : ∀ p code, op ≠ .exitMark p code) :
    lastSched (body ++ rest) = false := by
  have after := lastSched_tail alive
  cases e
  case fatal => exact absurd rfl unhurt
  case exitMark p code => exact absurd rfl (stays p code)
  case nil => exact after
  all_goals
    simp [after, lastSched, procSleep, sleeplockAcquire, sleeplockRelease, sleeplockHolding, driver, procExit,
      procWait, timerUpdate, yield]

/-- A CPU tests a child only behind the acquisition of the child's lock. -/
private theorem testing_own {s s' : Sys n} {c : Fin n} {input : Input} (base : Base s)
    (stays : current s (c, input) = true) (result : Step s (c, input) s') {q child : Proc} {rest : List Op}
    (front : (s'.cpus c).code = .waitCheck q child :: rest) :
    ∃ pick l, input = .go pick ∧ (s.cpus c).code = .acquire l :: .waitCheck q child :: rest ∧
      s'.cpus c = { (s.cpus c).pushOff with code := .waitCheck q child :: rest } := by
  have locked : under (s'.cpus c).code = some child := by
    rw [front]
    rfl
  cases result.stepped with
  | irq k on => cases k <;> simp [trapKernelHandler] at front
  | @acquire pick l rest' head free =>
    rw [Sys.setCpu_cpus_self] at front ⊢
    obtain rfl : rest' = .waitCheck q child :: rest := front
    exact ⟨pick, l, rfl, head, rfl⟩
  | recursive head held => simp at front
  | @release pick l rest' head held off pushed =>
    rw [Sys.setCpu_cpus_self] at front
    obtain rfl : rest' = .waitCheck q child :: rest := front
    obtain h | h | ⟨_, -, -, still⟩ := (base.head head).2.2 child rfl
    · cases h
    · cases h
    · cases still
  | stray head wrong => simp at front
  | intrOn head =>
    rw [Sys.setCpu_cpus_self, (base.head head).2.2.free rfl] at locked
    cases locked
  | intrOff head =>
    rw [Sys.setCpu_cpus_self, (base.head head).2.2.free rfl] at locked
    cases locked
  | sret head =>
    rw [Sys.setCpu_cpus_self, (base.head head).2.2.free rfl] at locked
    cases locked
  | sched head mine =>
    rw [Sched.toScheduler, Sys.setCpu_cpus_self, base.ctx c] at locked
    cases locked
  | @dispatch pick p rest' head ready =>
    rw [Sched.toProcess, Sys.setCpu_cpus_self, base.saved p] at locked
    cases locked
  | skip head unready =>
    rw [Sys.setCode_eq, Sys.setCpu_cpus_self, (base.head head).2.2.free rfl] at locked
    cases locked
  | call head follows =>
    have owned := own_of_current stays rfl head
    rw [Sys.setCode_eq, Sys.setCpu_cpus_self, next_under follows owned (base.head head).2.2] at locked
    cases locked

/-- A process does not come to its last `swtch` while another CPU has its lock. -/
private theorem lastSched_step {s s' : Sys n} {c : Fin n} {input : Input} (base : Base s)
    (stays : current s (c, input) = true) (result : Step s (c, input) s') {child : Proc}
    (locked : s.locks (.proc child) ≠ some c) (here : s'.myproc c = some child)
    (unhurt : ∀ pick rest, input = .go pick → (s.cpus c).code = .fatal :: rest → s.myproc c ≠ some child)
    (alive : s.myproc c = some child → lastSched (s.cpus c).code = false) : lastSched (s'.cpus c).code = false := by
  have behind : ∀ op rest, (s.cpus c).code = op :: rest → s.myproc c = some child → lastSched rest = false := by
    intro op rest head mine
    exact lastSched_tail (head ▸ alive mine)
  cases result.stepped with
  | irq k on =>
    have before := alive (by simpa [Sys.myproc] using here)
    rw [Sys.setCpu_cpus_self]
    cases k <;> simpa [trapKernelHandler] using before
  | acquire head free =>
    rw [Sys.setCpu_cpus_self]
    exact behind _ _ head (by simpa [Sys.myproc, CpuState.pushOff] using here)
  | recursive head held =>
    have before := alive (by simpa [Sys.myproc, CpuState.pushOff] using here)
    simpa using before
  | release head held off pushed =>
    rw [Sys.setCpu_cpus_self]
    exact behind _ _ head (by simpa [Sys.myproc] using here)
  | stray head wrong =>
    have before := alive (by simpa [Sys.myproc] using here)
    simpa using before
  | intrOn head =>
    rw [Sys.setCpu_cpus_self]
    exact behind _ _ head (by simpa [Sys.myproc] using here)
  | intrOff head =>
    rw [Sys.setCpu_cpus_self]
    exact behind _ _ head (by simpa [Sys.myproc] using here)
  | sret head =>
    rw [Sys.setCpu_cpus_self]
    exact behind _ _ head (by simpa [Sys.myproc] using here)
  | sched head mine => simp [Sched.toScheduler, Sys.myproc] at here
  | @dispatch pick p rest head ready =>
    obtain rfl : p = child := by simpa [Sched.toProcess, Sys.myproc] using here
    exact absurd (base.locked c p (by rw [head]; rfl)).2 locked
  | skip head unready =>
    rw [Sys.setCode_eq, Sys.setCpu_cpus_self]
    exact behind _ _ head (by simpa [Sys.myproc] using here)
  | @call pick op rest body head follows =>
    have mine : s.myproc c = some child := by simpa [Sys.myproc] using here
    have before := alive mine
    rw [head] at before
    rw [Sys.setCode_eq, Sys.setCpu_cpus_self]
    refine lastSched_expand (expands follows (own_of_current stays rfl head)) before ?_ ?_
    · rintro rfl
      exact unhurt pick rest rfl head mine
    · rintro p code rfl
      obtain rfl : p = child := Option.some.inj ((base.head head).1.1.symm.trans mine)
      exact locked (base.locked c p (by rw [head]; rfl)).2

private theorem Tested.step {s s' : Sys n} {a : Fin n × Input} (tested : Tested s) (base : Base s)
    (separate : apart s a = true) (stays : current s a = true) (result : Step s a s') : Tested s' := by
  obtain ⟨c, input⟩ := a
  intro e q child rest front d here
  rcases eq_or_ne e c with rfl | elsewhere
  · -- the lock of the child has just been taken
    obtain ⟨pick, l, rfl, head, cpu⟩ := testing_own base stays result front
    rw [apart, head] at separate
    have free := of_decide_eq_true separate
    rcases eq_or_ne d e with rfl | other
    · have before := free d (by simpa [Sys.myproc, cpu, CpuState.pushOff] using here)
      rw [head] at before
      rw [front]
      exact lastSched_tail before
    · rw [Sys.myproc, result.other other] at here
      rw [result.other other]
      exact free d here
  · rw [result.other elsewhere] at front
    have locked := (base.locked e child (by rw [front]; rfl)).2
    rcases eq_or_ne d c with rfl | other
    · refine lastSched_step base stays result ?_ here ?_ fun mine => tested e q child rest front d mine
      · rw [locked]
        exact fun same => elsewhere (Option.some.inj same)
      · rintro pick after rfl head mine
        rw [apart, head] at separate
        exact of_decide_eq_true separate e child mine (by rw [front]; rfl)
    · rw [Sys.myproc, result.other other] at here
      rw [result.other other]
      exact tested e q child rest front d here

private theorem Tested.boot : Tested (boot : Sys n) := by
  intro c q child rest front
  cases front

/-- `proc_wait` and faults keep apart, and `myproc()` gives a thread its own process. -/
def timely (s : Sys n) (a : Fin n × Input) : Bool := apart s a && current s a

/-- The steps of all CPUs as long as `proc_wait` takes no zombie that a CPU still runs. -/
def Timely : Sys n → Fin n × Input → Sys n → Prop := Guarded (fun s a => timely s a = true) Step

/-- What holds of processes along every such run. -/
structure Settled (s : Sys n) : Prop where
  base : Base s
  placed : Placed s
  tested : Tested s

theorem Settled.step {s s' : Sys n} {a : Fin n × Input} (settled : Settled s) (fits : timely s a = true)
    (result : Step s a s') : Settled s' := by
  obtain ⟨separate, stays⟩ := (Bool.and_eq_true ..).mp fits
  have gone := settled.placed.departed settled.tested
  exact ⟨settled.base.step stays result, settled.placed.step settled.base gone stays result,
    settled.tested.step settled.base separate stays result⟩

theorem Settled.boot : Settled (boot : Sys n) := ⟨.boot, .boot, .boot⟩

/-- The invariants hold along every run in which zombies leave their CPUs in time. -/
theorem run_settled {inputs : List (Fin n × Input)} {s : Sys n} (run : Run Timely boot inputs s) : Settled s :=
  run.invariant (P := Settled) (fun _ _ _ step settled => settled.step step.1 step.2) .boot

/-! ## Freed slots -/

/-- The process whose page table, trap frame or open files an operation uses. -/
def Op.works : Op → Option Proc
  | .memory p | .user p => some p
  | _ => none

/-- The first process forks on CPU 0, and its child runs on CPU 1 until it has released its lock in
`proc_exit`. -/
def lateExit : List (Fin nCpu × Input) :=
  goOn 0 10 ++ choose 0 .syscall ++ goOn 0 1 ++ choose 0 .fork ++ goOn 0 12 ++
    goOn 1 13 ++ choose 1 .syscall ++ goOn 1 1 ++ choose 1 (.exit 0) ++ goOn 1 166

end LabKernel.Sched
