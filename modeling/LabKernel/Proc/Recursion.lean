import LabKernel.Proc.Handoff

/-! # Taking spinlocks

A CPU never takes a lock that it holds, unless an exiting process has a dead child or `proc_free`
deletes an inode. In both cases `proc_wakeup`, which goes through all process locks, runs while the
lock of a child is held.
-/

namespace LabKernel.Sched

variable {n : ℕ}

/-- What follows an operation so that none of the locks it takes is held. -/
def Takes (w : Option Proc) (op : Op) (rest : List Op) : Prop :=
  match op with
  | .acquire l => owed (some l) rest = 1
  | .leafs rank => ∀ k : Leaf, k.rank < rank → owed (some (.leaf k)) rest = 0
  | .device d sleeps => Owes (.device d) rest ∧ (sleeps = true → freeing rest = false)
  | .sleeplockLoop k => Owes (.sleep k) rest ∧ freeing rest = false
  | .sleeplockClear k => Owes (.sleep k) rest
  | .files =>
    Flat rest ∧ freeing rest = false ∨
      freeing rest = true ∧ ∀ k : Leaf, owed (some (.leaf k)) rest = 0
  | .kernel | .memory _ | .loadProc .fork _ | .loadProc .memory _ | .trapUserReturn | .loadProc .userReturn _
  | .user _ | .procEntryPoint _ => Flat rest ∧ freeing rest = false
  | .timerInterrupt | .externalInterrupt | .preempt | .procYield | .loadProc _ _ | .procScheduler _
  | .allocScan _ _ | .allocCheck _ _ => Flat rest
  | .procWakeup _ _ => ∀ q, w ≠ some q → owed (some (.proc q)) rest = 0
  | .exitWakeup p => w = some p ∧ ∀ q, p ≠ q → owed (some (.proc q)) rest = 0
  | .exitChildren p _ _ | .exitMark p _ => w = some p ∧ Flat rest
  | .waitChildren p _ _ | .waitCheck p _ => w = some p ∧ Owes .lifecycle rest
  | _ => True

/-- Expansions with no dead child of an exiting process and nothing but leaf sections in
`proc_free`. -/
def Undeleted (op : Op) (body rest : List Op) : Prop :=
  (∀ child, op = .exitCheck child → body = []) ∧
    (op = .files → freeing rest = true → body = [] ∨ body = [.leafs 8, .files])

private theorem takes_lasting : Lasting Takes Undeleted Flat where
  expand {w op body rest} e undeleted here after := by
    cases e
    case nil => exact after
    case leafs k rank below =>
      have lower : ∀ j : Leaf, j.rank < k.rank → owed (some (.leaf j)) rest = 0 := fun j less =>
        here j (less.trans below)
      have self : owed (some (.leaf k)) rest = 0 := here k below
      have other : ∀ j : Leaf, j.rank < k.rank → j ≠ k := fun j less same =>
        absurd less (by rw [same]; exact lt_irrefl _)
      simp +contextual [Takes, Op.owes, counts_some, lower, self, other, after]
      exact here
    case filesLeafs =>
      have free : ∀ k : Leaf, owed (some (.leaf k)) rest = 0 := by
        rcases here with ⟨flat, -⟩ | ⟨-, free⟩
        · exact fun k => flat _
        · exact free
      simp only [List.cons_append, List.nil_append, every_cons]
      refine ⟨fun k _ => ?_, here, after⟩
      simp [Op.owes, free]
    all_goals
      simp_all [Takes, Undeleted, Op.isFreed, Owes, Flat, Op.owes, counts_some, procSleep,
        sleeplockAcquire, sleeplockRelease, sleeplockHolding, driver, procExit, procWait,
        timerUpdate, yield] <;>
      exact fun q different same => different same.symm
  irq := by
    intro w k code quiet typed
    cases k <;> simp_all [Takes, Flat, Op.owes, trapKernelHandler]
  panic := by simp [Takes]
  entry := by simp [Takes, Flat, freeing]
  start := by simp [Takes, Flat]

/-! ## Runs -/

/-- An exiting process finds that a child of its own is dead. -/
def orphansZombie (s : Sys n) (a : Fin n × Input) : Bool :=
  match (s.cpus a.1).code with
  | .exitCheck child :: _ => s.state child == .zombie
  | _ => false

/-- `proc_free` goes on to delete an inode, with sleeplocks and the disk. -/
def deletesFreeing (s : Sys n) (a : Fin n × Input) : Bool :=
  match (s.cpus a.1).code, a.2 with
  | .files :: _, .go .done | .files :: _, .go (.leaf _) => false
  | .files :: rest, .go _ => freeing rest
  | _, _ => false

/-- Processes keep apart from `proc_wait` while they die and get themselves from `myproc()`, no exiting process
has a dead child, and `proc_free` deletes no inode. -/
def flatly (s : Sys n) (a : Fin n × Input) : Bool :=
  timely s a && !orphansZombie s a && !deletesFreeing s a

/-- No CPU is about to take a lock that it holds. -/
def NonRecursive (s : Sys n) : Prop :=
  ∀ c l rest, (s.cpus c).code = .acquire l :: rest → s.locks l ≠ some c

private theorem undeleted_of {s : Sys n} {a : Fin n × Input} (alive : orphansZombie s a = false)
    (kept : deletesFreeing s a = false) (pick : Pick) (op : Op) (rest body : List Op)
    (input : a.2 = .go pick) (head : (s.cpus a.1).code = op :: rest)
    (follows : next s a.1 pick op = some body) : Undeleted op body rest := by
  constructor
  · rintro child rfl
    have living : s.state child ≠ .zombie := by simpa [orphansZombie, head] using alive
    simp only [next, if_neg living] at follows
    exact (Option.some.inj follows).symm
  · rintro rfl under_way
    cases pick with
    | done => exact .inl (Option.some.inj follows).symm
    | leaf k => exact .inr (Option.some.inj follows).symm
    | _ => simp [deletesFreeing, head, input, under_way] at kept

/-- Where nothing is deleted in `proc_free`, it does not sleep. -/
theorem wakeful_of_takes {s : Sys n} {c : Fin n} (typed : Contexts Takes s) {pick : Pick} {op : Op}
    {rest body : List Op} (head : (s.cpus c).code = op :: rest)
    (follows : next s c pick op = some body) (owned : Own s c op) : Wakeful True op body rest := by
  refine ⟨fun _ => trivial, fun waits sched => ?_⟩
  have here := typed.running c
  rw [head] at here
  cases op with
  | device d sleeps =>
    refine here.1.2 ?_
    cases expands follows owned <;> first | rfl | simp at sched
  | sleeplockLoop k => exact here.1.2
  | _ => cases waits

private theorem run_takes {inputs : List (Fin n × Input)} {s : Sys n}
    (run : Run (Guarded (fun s a => flatly s a = true) Step) boot inputs s) :
    (Settled s ∧ Held True s) ∧ Contexts Takes s := by
  refine run.invariant (P := fun s => (Settled s ∧ Held True s) ∧ Contexts Takes s) ?_
    ⟨⟨.boot, .boot⟩, takes_lasting.boot⟩
  rintro s a s' ⟨order, step⟩ ⟨⟨settled, held⟩, takes⟩
  simp only [flatly, Bool.and_eq_true, Bool.not_eq_true'] at order
  obtain ⟨⟨fits, orphaned⟩, kept⟩ := order
  have stays : current s a = true := ((Bool.and_eq_true ..).mp fits).2
  have base := settled.base
  refine ⟨⟨settled.step fits step, held.step base settled.placed ?_ stays step⟩, ?_⟩
  · intro pick op rest body input head follows
    exact wakeful_of_takes takes head follows (own_of_current stays input head)
  · exact takes_lasting.step takes (fun c p rest code => (base.head code).1.1)
      (fun c on => held.flat base on) (undeleted_of orphaned kept) stays step

/-- No CPU takes a spinlock twice. -/
theorem locks_nonRecursive {inputs : List (Fin n × Input)} {s : Sys n}
    (run : Run (Guarded (fun s a => flatly s a = true) Step) boot inputs s) : NonRecursive s := by
  obtain ⟨⟨-, held⟩, takes⟩ := run_takes run
  intro c l rest head mine
  have typed := takes.running c
  rw [head] at typed
  have once : owed (some l) rest = 1 := typed.1
  have count := held.lawful head nofun nofun (some l)
  simp [Op.owes, counts_some, once, holds, mine] at count

/-- A child that exits wakes its parent and is about to take its own lock again. -/
theorem locks_nonRecursive_exit : ∃ s : Sys nCpu,
    NonRecursive s ∧ (s.cpus 1).code.head? = some (.acquire (.proc 1)) := by
  obtain ⟨s, run, found⟩ := Run.exists_guarded flatly (fun (s : Sys nCpu) a => step s a.1 a.2)
    boot lateExit (fun s => (s.cpus 1).code.head? == some (.acquire (.proc 1))) (by decide +kernel)
  exact ⟨s, locks_nonRecursive run, by simpa using found⟩

/-- The first process forks a child on CPU 0, which forks another one on CPU 1 that dies on CPU 0;
then the middle one exits. -/
def deadGrandchild : List (Fin nCpu × Input) :=
  goOn 0 10 ++ choose 0 .syscall ++ goOn 0 1 ++ choose 0 .fork ++ goOn 0 12 ++
    goOn 1 13 ++ choose 1 .syscall ++ goOn 1 1 ++ choose 1 .fork ++ goOn 1 16 ++
    choose 0 .yield ++ goOn 0 18 ++ choose 0 .syscall ++ goOn 0 1 ++ choose 0 (.exit 0) ++
    goOn 0 169 ++ choose 1 (.exit 0) ++ goOn 1 13

/-- `proc_wakeup` takes the lock of the dead child that `proc_exit` already holds. -/
theorem locks_recursive : ¬ ∀ inputs (s : Sys nCpu), Run Step boot inputs s → NonRecursive s := by
  intro all
  obtain ⟨s, run, found⟩ := Run.exists_of_test (fun (s : Sys nCpu) a => step s a.1 a.2) boot
    deadGrandchild
    (fun s => (s.cpus 1).code.head? == some (.acquire (.proc 2)) && s.locks (.proc 2) == some 1)
    (by decide +kernel)
  have both : (s.cpus 1).code.head? = some (.acquire (.proc 2)) ∧ s.locks (.proc 2) = some 1 := by
    simpa using found
  obtain ⟨rest, head⟩ := List.head?_eq_some_iff.mp both.1
  exact all _ s run 1 _ rest head both.2

end LabKernel.Sched
