import LabKernel.Lib.Code
import LabKernel.Proc.Kernel

/-! # What a step can do

`Stepped` lists the steps of a CPU, and `Expands` the code that can replace an operation whatever
the state is. A property of code that the expansions keep holds of everything that is running or
saved (`Contexts`).
-/

namespace LabKernel.Sched

variable {n : ℕ}

/-! ## Fields of updated states -/

namespace Sys

variable {s : Sys n} {c d : Fin n} {x : CpuState} {code : List Op} {l : Lock}
  {owner : Option (Fin n)} {p q : Proc} {slot : Slot}

theorem setCpu_cpus : (s.setCpu c x).cpus d = if d = c then x else s.cpus d :=
  Function.update_apply ..

@[simp] theorem setCpu_cpus_self : (s.setCpu c x).cpus c = x := Function.update_self ..

theorem setCpu_cpus_ne (other : d ≠ c) : (s.setCpu c x).cpus d = s.cpus d :=
  Function.update_of_ne other ..

@[simp] theorem setCpu_locks : (s.setCpu c x).locks = s.locks := rfl

@[simp] theorem setCpu_procs : (s.setCpu c x).procs = s.procs := rfl

@[simp] theorem setCode_eq :
    s.setCode c code = s.setCpu c { s.cpus c with code := code } := rfl

@[simp] theorem setLock_cpus : (s.setLock l owner).cpus = s.cpus := rfl

@[simp] theorem setLock_locks :
    (s.setLock l owner).locks = Function.update s.locks l owner := rfl

@[simp] theorem setLock_procs : (s.setLock l owner).procs = s.procs := rfl

@[simp] theorem setProc_cpus : (s.setProc p slot).cpus = s.cpus := rfl

@[simp] theorem setProc_locks : (s.setProc p slot).locks = s.locks := rfl

theorem setProc_procs : (s.setProc p slot).procs q = if q = p then slot else s.procs q :=
  Function.update_apply ..

end Sys

@[simp] theorem write_cpus (s : Sys n) (c : Fin n) (op : Op) : (write s c op).cpus = s.cpus := by
  cases op <;> simp only [write] <;> (repeat' split) <;> rfl

@[simp] theorem write_locks (s : Sys n) (c : Fin n) (op : Op) :
    (write s c op).locks = s.locks := by
  cases op <;> simp only [write] <;> (repeat' split) <;> rfl

/-- Operations that always write a slot of the process table. -/
def Op.writes : Op → Bool
  | .fatal | .markRunnable _ | .markSleeping _ _ | .clearSleep _ | .exitMark _ _ | .freed _ => true
  | _ => false

/-- What an operation does to the process table. -/
inductive Wrote (s : Sys n) (c : Fin n) : Op → (Proc → Slot) → Prop
  | none {op} (quiet : op.writes = false) : Wrote s c op s.procs
  | fatal {p} (mine : s.myproc c = some p) :
      Wrote s c .fatal
        (Function.update s.procs p { s.procs p with state := .zombie, exitCode := -1 })
  | markRunnable {p} :
      Wrote s c (.markRunnable p)
        (Function.update s.procs p { s.procs p with state := .runnable })
  | markSleeping {p chan} :
      Wrote s c (.markSleeping p chan)
        (Function.update s.procs p { s.procs p with sleepSpace := some chan, state := .sleeping })
  | clearSleep {p} :
      Wrote s c (.clearSleep p)
        (Function.update s.procs p { s.procs p with sleepSpace := Option.none })
  | wakeup {chan p} (asleep : s.state p = .sleeping) (there : (s.procs p).sleepSpace = chan) :
      Wrote s c (.wakeupCheck chan p)
        (Function.update s.procs p { s.procs p with state := .runnable })
  | reparent {p code i child} (h : i < nProc) (here : child = ⟨i, h⟩)
      (child_of : (s.procs child).parent = some p) :
      Wrote s c (.exitChildren p code i)
        (Function.update s.procs child { s.procs child with parent := some initProcess })
  | exitMark {p code} :
      Wrote s c (.exitMark p code)
        (Function.update s.procs p { s.procs p with exitCode := code, state := .zombie })
  | freed {child} :
      Wrote s c (.freed child)
        (Function.update s.procs child
          { s.procs child with pid := 0, parent := Option.none, state := .unused })
  | fork {p child} (unused : s.state child = .unused) :
      Wrote s c (.allocCheck p child)
        (Function.update s.procs child
          { pid := s.nextPid, state := .runnable, parent := some p, exitCode := 0,
            sleepSpace := Option.none, ctx := [.procEntryPoint child], left := (1, Option.none) })

theorem wrote {s : Sys n} {c : Fin n} {pick : Pick} {op : Op} {body : List Op}
    (follows : next s c pick op = some body) : Wrote s c op (write s c op).procs := by
  cases op
  case fatal =>
    obtain ⟨p, mine, -⟩ := Option.map_eq_some_iff.mp follows
    simp only [write, mine]
    exact .fatal mine
  case markRunnable => exact .markRunnable
  case markSleeping => exact .markSleeping
  case clearSleep => exact .clearSleep
  case wakeupCheck =>
    simp only [write]
    split
    case isTrue asleep => exact .wakeup asleep.1 asleep.2
    case isFalse => exact .none rfl
  case exitChildren =>
    simp only [write]
    split
    case isTrue h =>
      split
      case isTrue child_of => exact .reparent h rfl child_of
      case isFalse => exact .none rfl
    case isFalse => exact .none rfl
  case exitMark => exact .exitMark
  case freed => exact .freed
  case allocCheck =>
    simp only [write]
    split
    case isTrue unused => exact .fork unused
    case isFalse => exact .none rfl
  case sleeplockLoop k =>
    have same : (write s c (.sleeplockLoop k)).procs = s.procs := by
      simp only [write]
      split <;> rfl
    rw [same]
    exact .none rfl
  all_goals exact .none rfl

/-! ## The kinds of steps -/

/-- One step, by the operation in front. -/
inductive Stepped (s : Sys n) (c : Fin n) : Input → Sys n → Prop
  | irq (k : Irq) (on : (s.cpus c).intr = true) :
      Stepped s c (.irq k) (s.setCpu c
        { s.cpus c with intr := false, code := trapKernelHandler k ++ (s.cpus c).code })
  | acquire {pick l rest} (head : (s.cpus c).code = .acquire l :: rest) (free : s.locks l = none) :
      Stepped s c (.go pick)
        ((s.setLock l (some c)).setCpu c { (s.cpus c).pushOff with code := rest })
  | recursive {pick l rest} (head : (s.cpus c).code = .acquire l :: rest)
      (held : s.locks l = some c) :
      Stepped s c (.go pick)
        (s.setCpu c { (s.cpus c).pushOff with code := .panic :: (s.cpus c).code })
  | release {pick l rest} (head : (s.cpus c).code = .release l :: rest)
      (held : s.locks l = some c) (off : (s.cpus c).intr = false) (pushed : 1 ≤ (s.cpus c).noff) :
      Stepped s c (.go pick) ((s.setLock l none).setCpu c
        { s.cpus c with
          noff := (s.cpus c).noff - 1
          intr := (s.cpus c).noff == 1 && (s.cpus c).origin
          code := rest })
  | stray {pick l rest} (head : (s.cpus c).code = .release l :: rest)
      (wrong : s.locks l = some c → (s.cpus c).intr = false → (s.cpus c).noff = 0) :
      Stepped s c (.go pick) (s.setCode c (.panic :: (s.cpus c).code))
  | intrOn {pick rest} (head : (s.cpus c).code = .intrOn :: rest) :
      Stepped s c (.go pick) (s.setCpu c { s.cpus c with intr := true, code := rest })
  | intrOff {pick rest} (head : (s.cpus c).code = .intrOff :: rest) :
      Stepped s c (.go pick) (s.setCpu c { s.cpus c with intr := false, code := rest })
  | sret {pick rest} (head : (s.cpus c).code = .sret :: rest) :
      Stepped s c (.go pick) (s.setCpu c { s.cpus c with intr := true, code := rest })
  | sched {pick p rest} (head : (s.cpus c).code = .procSched :: rest) (mine : s.myproc c = some p) :
      Stepped s c (.go pick) (toScheduler s c p rest)
  | dispatch {pick p rest} (head : (s.cpus c).code = .schedulerCheck p :: rest)
      (ready : s.state p = .runnable) : Stepped s c (.go pick) (toProcess s c p rest)
  | skip {pick p rest} (head : (s.cpus c).code = .schedulerCheck p :: rest)
      (unready : s.state p ≠ .runnable) : Stepped s c (.go pick) (s.setCode c rest)
  | call {pick op rest body} (head : (s.cpus c).code = op :: rest)
      (follows : next s c pick op = some body) :
      Stepped s c (.go pick) ((write s c op).setCode c (body ++ rest))

private theorem acquire_stepped {s s' : Sys n} {c : Fin n} {pick : Pick} {l : Lock} {rest : List Op}
    (head : (s.cpus c).code = .acquire l :: rest)
    (result : spinlockAcquire s c l rest = some s') : Stepped s c (.go pick) s' := by
  simp only [spinlockAcquire] at result
  split at result
  case h_1 free =>
    obtain rfl := Option.some.inj result
    exact .acquire head free
  case h_2 owner held =>
    split at result
    case isTrue mine =>
      obtain rfl := Option.some.inj result
      exact .recursive head (mine ▸ held)
    case isFalse => cases result

private theorem release_stepped {s : Sys n} {c : Fin n} {pick : Pick} {l : Lock} {rest : List Op}
    (head : (s.cpus c).code = .release l :: rest) :
    Stepped s c (.go pick) (spinlockRelease s c l rest) := by
  rw [spinlockRelease]
  split
  case isFalse stranger => exact .stray head fun held => absurd held stranger
  case isTrue held =>
    rw [CpuState.popOff]
    rcases em ((s.cpus c).intr = false ∧ 1 ≤ (s.cpus c).noff) with fits | misfit
    · rw [if_pos fits]
      exact .release head held fits.1 fits.2
    · rw [if_neg misfit]
      exact .stray head fun _ off => by
        have empty : ¬ 1 ≤ (s.cpus c).noff := fun pushed => misfit ⟨off, pushed⟩
        omega

theorem Step.stepped {s s' : Sys n} {c : Fin n} {input : Input} (result : Step s (c, input) s') :
    Stepped s c input s' := by
  rw [Step] at result
  cases input with
  | irq k =>
    simp only [step] at result
    split at result
    case isTrue on =>
      obtain rfl := Option.some.inj result
      exact .irq k on
    case isFalse => cases result
  | go pick =>
    simp only [step] at result
    split at result
    case h_1 => cases result
    case h_2 op rest head =>
      split at result
      case h_1 => exact acquire_stepped head result
      case h_2 =>
        obtain rfl := Option.some.inj result
        exact release_stepped head
      case h_3 =>
        obtain rfl := Option.some.inj result
        exact .intrOn head
      case h_4 =>
        obtain rfl := Option.some.inj result
        exact .intrOff head
      case h_5 =>
        obtain rfl := Option.some.inj result
        exact .sret head
      case h_6 =>
        obtain ⟨p, mine, rfl⟩ := Option.map_eq_some_iff.mp result
        exact .sched head mine
      case h_7 p =>
        obtain rfl := Option.some.inj result
        split
        case isTrue ready => exact .dispatch head ready
        case isFalse unready => exact .skip head unready
      case h_8 =>
        obtain ⟨body, follows, rfl⟩ := Option.map_eq_some_iff.mp result
        exact .call head follows

/-- A step of one CPU leaves the others alone. -/
theorem Step.other {s s' : Sys n} {a : Fin n × Input} (result : Step s a s') {d : Fin n}
    (other : d ≠ a.1) : s'.cpus d = s.cpus d := by
  obtain ⟨c, input⟩ := a
  cases result.stepped with
  | call => rw [Sys.setCode_eq, Sys.setCpu_cpus_ne other, write_cpus]
  | _ => exact Sys.setCpu_cpus_ne other

/-- A CPU only takes free locks and only releases its own. -/
theorem Step.locks_other {s s' : Sys n} {a : Fin n × Input} (result : Step s a s') {d : Fin n}
    (other : d ≠ a.1) (l : Lock) : s'.locks l = some d ↔ s.locks l = some d := by
  obtain ⟨c, input⟩ := a
  cases result.stepped with
  | @acquire _ k _ _ free =>
    rcases eq_or_ne l k with rfl | different
    · simp [free, Ne.symm other]
    · simp [Function.update_of_ne different]
  | @release _ k _ _ held =>
    rcases eq_or_ne l k with rfl | different
    · simp [held, Ne.symm other]
    · simp [Function.update_of_ne different]
  | call => rw [Sys.setCode_eq, Sys.setCpu_locks, write_locks]
  | _ => exact Iff.rfl

/-- Beside the operations of kernel code, a step changes no parent and no channel, and only a
dispatch changes a state. -/
theorem Step.table {s s' : Sys n} {a : Fin n × Input} (result : Step s a s') :
    (∀ p, (s'.procs p).parent = (s.procs p).parent ∧
      (s'.procs p).sleepSpace = (s.procs p).sleepSpace ∧
      (s'.state p = s.state p ∨ s'.state p = .running)) ∨
    ∃ pick op rest body, (s.cpus a.1).code = op :: rest ∧ next s a.1 pick op = some body ∧
      s' = (write s a.1 op).setCode a.1 (body ++ rest) := by
  obtain ⟨c, input⟩ := a
  cases result.stepped with
  | sched head mine =>
    refine .inl fun p => ?_
    rw [Sys.state, toScheduler, Sys.setCpu_procs, Sys.setProc_procs]
    split
    case isTrue same => exact same ▸ ⟨rfl, rfl, .inl rfl⟩
    case isFalse => exact ⟨rfl, rfl, .inl rfl⟩
  | dispatch head ready =>
    refine .inl fun p => ?_
    rw [Sys.state, toProcess, Sys.setCpu_procs, Sys.setProc_procs]
    split
    case isTrue same => exact same ▸ ⟨rfl, rfl, .inr rfl⟩
    case isFalse => exact ⟨rfl, rfl, .inl rfl⟩
  | call head follows => exact .inr ⟨_, _, _, _, head, follows, rfl⟩
  | _ => exact .inl fun p => ⟨rfl, rfl, .inl rfl⟩

/-- A scheduler's context is what follows its last dispatch. -/
theorem Step.ctx {s s' : Sys n} {a : Fin n × Input} (result : Step s a s') (d : Fin n) :
    (s'.cpus d).ctx = (s.cpus d).ctx ∨
      ∃ p rest, (s.cpus d).code = .schedulerCheck p :: rest ∧ (s'.cpus d).ctx = rest := by
  obtain ⟨c, input⟩ := a
  rcases eq_or_ne d c with rfl | other
  · cases result.stepped with
    | dispatch head ready => exact .inr ⟨_, _, head, by rw [toProcess, Sys.setCpu_cpus_self]⟩
    | call head follows => exact .inl (by rw [Sys.setCode_eq, Sys.setCpu_cpus_self, write_cpus])
    | _ => exact .inl (by simp [CpuState.pushOff, toScheduler])
  · exact .inl (by rw [result.other other])

/-- A process's context is what follows its last `proc_sched`, or that of a new process. -/
theorem Step.saved {s s' : Sys n} {a : Fin n × Input} (result : Step s a s') (p : Proc) :
    (s'.procs p).ctx = (s.procs p).ctx ∨ (s'.procs p).ctx = [.procEntryPoint p] ∨
      ∃ rest, (s.cpus a.1).code = .procSched :: rest ∧ (s'.procs p).ctx = rest := by
  obtain ⟨c, input⟩ := a
  cases result.stepped with
  | @sched _ q rest head mine =>
    rw [toScheduler, Sys.setCpu_procs, Sys.setProc_procs]
    split
    case isTrue => exact .inr (.inr ⟨rest, head, rfl⟩)
    case isFalse => exact .inl rfl
  | @dispatch _ q rest head ready =>
    rw [toProcess, Sys.setCpu_procs, Sys.setProc_procs]
    split
    case isTrue same => exact .inl (by rw [same])
    case isFalse => exact .inl rfl
  | call head follows =>
    rw [Sys.setCode_eq, Sys.setCpu_procs]
    have wrote := wrote follows
    generalize (write s c _).procs = procs at wrote
    cases wrote with
    | none => exact .inl rfl
    | fork =>
      rw [Function.update_apply]
      split
      case isTrue same => exact .inr (.inl (by rw [same]))
      case isFalse => exact .inl rfl
    | _ =>
      rw [Function.update_apply]
      split
      case isTrue same => exact .inl (by rw [same])
      case isFalse => exact .inl rfl
  | _ => exact .inl rfl

/-! ## Expansions -/

/-- What a lock adds to the count of a lock, or of all of them. -/
def Lock.counts (l : Lock) (k : Option Lock) : ℤ := if k = none ∨ k = some l then 1 else 0

/-- The releases that an operation makes beyond what it acquires, of one lock or of all. -/
def Op.owes (k : Option Lock) : Op → ℤ
  | .acquire l => -l.counts k
  | .release l => l.counts k
  | .revived p => (Lock.proc p).counts k
  | .exitChildren _ _ _ => Lock.lifecycle.counts k
  | .exitMark p _ => Lock.lifecycle.counts k + (Lock.proc p).counts k
  | .waitCheck _ child => (Lock.proc child).counts k
  | .allocCheck _ child => (Lock.proc child).counts k
  | .procEntryPoint p => (Lock.proc p).counts k
  | _ => 0

/-- The operations after which the code may go on at once. -/
def Op.ends : Op → Bool
  | .leafs _ | .device _ _ | .sleeplockLoop _ | .files | .kernel | .memory _ | .timerInterrupt
  | .externalInterrupt | .preempt | .markRunnable _ | .markSleeping _ _ | .clearSleep _
  | .returned _ _ | .procWakeup _ _ | .wakeupCheck _ _ | .exitCheck _ | .waitChildren _ _ _
  | .freed _ | .allocScan _ _ => true
  | _ => false

/-- The code that can replace an operation of a thread in some state. -/
inductive Expands (w : Option Proc) : Op → List Op → Prop
  | nil {op} (neutral : ∀ k, op.owes k = 0) (ends : op.ends = true) : Expands w op []
  | leafs {k : Leaf} {rank} (below : k.rank < rank) :
      Expands w (.leafs rank) [.acquire (.leaf k), .leafs k.rank, .release (.leaf k), .leafs rank]
  | devicePrint {d sleeps} : Expands w (.device d sleeps) [.leafs 1, .device d sleeps]
  | deviceWake {d sleeps event} :
      Expands w (.device d sleeps) [.procWakeup (some (.device d event)) 0, .device d sleeps]
  | deviceSleep {d p event base bit} (mine : w = some p) :
      Expands w (.device d true)
        (procSleep p (.device d event) (.device d) base bit ++ [.device d true])
  | sleeplockLoop {k p base bit} (mine : w = some p) :
      Expands w (.sleeplockLoop k)
        (procSleep p (.sleeplock k) (.sleep k) base bit ++ [.sleeplockLoop k])
  | sleeplockClear {k} : Expands w (.sleeplockClear k) [.procWakeup (some (.sleeplock k)) 0]
  | filesLeafs : Expands w .files [.leafs 8, .files]
  | filesLock {k} : Expands w .files (sleeplockAcquire k ++ [.files])
  | filesUnlock {k} : Expands w .files (sleeplockRelease k ++ [.files])
  | filesHolding {k} : Expands w .files (sleeplockHolding k ++ [.files])
  | filesDisk : Expands w .files (driver .disk true ++ [.files])
  | kernelFiles : Expands w .kernel [.files, .kernel]
  | kernelDriver {d} : Expands w .kernel (driver d true ++ [.kernel])
  | kernelYield : Expands w .kernel [.procYield, .kernel]
  | kernelFork {hart} : Expands w .kernel [.loadProc .fork hart, .kernel]
  | kernelExit {code hart} : Expands w .kernel [.loadProc (.exit code) hart]
  | kernelMemory {hart} : Expands w .kernel [.loadProc .memory hart, .kernel]
  | kernelWait {p} (mine : w = some p) : Expands w .kernel (procWait p ++ [.kernel])
  | memoryFiles {p} : Expands w (.memory p) [.files, .memory p]
  | memoryDriver {p d} : Expands w (.memory p) (driver d true ++ [.memory p])
  | loadYield {p base bit hart} (mine : w = some p) :
      Expands w (.loadProc (.yield base bit) hart) (yield p base bit)
  | loadFork {p hart} (mine : w = some p) : Expands w (.loadProc .fork hart) [.allocScan p 0]
  | loadPanic {code hart} : Expands w (.loadProc (.exit code) hart) [.panic]
  | loadExit {p code hart} (mine : w = some p) (other : p ≠ initProcess) :
      Expands w (.loadProc (.exit code) hart) (procExit p code)
  | loadReturn {p hart} (mine : w = some p) :
      Expands w (.loadProc .userReturn hart) [.intrOff, .user p]
  | loadMemory {p hart} (mine : w = some p) : Expands w (.loadProc .memory hart) [.memory p]
  | trapUserReturn {hart} : Expands w .trapUserReturn [.loadProc .userReturn hart]
  | userSyscall {p} : Expands w (.user p) [.intrOn, .kernel, .intrOff, .trapUserReturn]
  | userTimer {p} : Expands w (.user p) [.timerInterrupt, .procYield, .trapUserReturn]
  | userExternal {p} : Expands w (.user p) [.externalInterrupt, .trapUserReturn]
  | userGrow {p} : Expands w (.user p) [.leafs 8, .trapUserReturn]
  | userFatal {p} : Expands w (.user p) [.leafs 1, .fatal, .trapUserReturn]
  | fatal : Expands w .fatal [.procSched]
  | timerInterrupt : Expands w .timerInterrupt timerUpdate
  | externalPrint : Expands w .externalInterrupt [.leafs 1, .externalInterrupt]
  | externalDriver {d} : Expands w .externalInterrupt (driver d false ++ [.externalInterrupt])
  | preempt {p} (mine : w = some p) : Expands w .preempt [.procYield]
  | procYield {base bit hart} : Expands w .procYield [.loadProc (.yield base bit) hart]
  | scan {i} (h : i < nProc) :
      Expands w (.procScheduler i) [.acquire (.proc ⟨i, h⟩), .schedulerCheck ⟨i, h⟩,
        .release (.proc ⟨i, h⟩), .procScheduler (i + 1)]
  | rescan {i} : Expands w (.procScheduler i) [.intrOn, .procScheduler 0]
  | wakeupSkip {chan i} : Expands w (.procWakeup chan i) [.procWakeup chan (i + 1)]
  | wakeup {chan i} (h : i < nProc) (other : w ≠ some ⟨i, h⟩) :
      Expands w (.procWakeup chan i) [.acquire (.proc ⟨i, h⟩), .wakeupCheck chan ⟨i, h⟩,
        .release (.proc ⟨i, h⟩), .procWakeup chan (i + 1)]
  | exitSkip {p code i} : Expands w (.exitChildren p code i) [.exitChildren p code (i + 1)]
  | exitChild {p code i} (h : i < nProc) :
      Expands w (.exitChildren p code i) [.acquire (.proc ⟨i, h⟩), .exitCheck ⟨i, h⟩,
        .release (.proc ⟨i, h⟩), .exitChildren p code (i + 1)]
  | exitLast {p code i} : Expands w (.exitChildren p code i) [.acquire (.proc p), .exitMark p code]
  | exitCheck {child} :
      Expands w (.exitCheck child) [.procWakeup (some (.proc initProcess)) 0]
  | exitMark {p code} :
      Expands w (.exitMark p code) [.exitWakeup p, .release (.proc p), .release .lifecycle,
        .acquire (.proc p), .procSched, .revived p]
  | exitWakeup {p chan} : Expands w (.exitWakeup p) [.procWakeup chan 0]
  | waitSkip {p i haveKids} :
      Expands w (.waitChildren p i haveKids) [.waitChildren p (i + 1) haveKids]
  | waitChild {p i haveKids} (h : i < nProc) :
      Expands w (.waitChildren p i haveKids) [.acquire (.proc ⟨i, h⟩), .waitCheck p ⟨i, h⟩]
  | waitSleep {p i haveKids base bit} :
      Expands w (.waitChildren p i haveKids)
        (procSleep p (.proc p) .lifecycle base bit ++ [.waitChildren p 0 false])
  | waitFree {p child} :
      Expands w (.waitCheck p child) [.leafs 1, .files, .freed child, .release (.proc child)]
  | waitNext {p child} :
      Expands w (.waitCheck p child) [.release (.proc child), .waitChildren p (child + 1) true]
  | allocTry {p i} (h : i < nProc) :
      Expands w (.allocScan p i) [.acquire (.proc ⟨i, h⟩), .allocCheck p ⟨i, h⟩]
  | allocFound {p child} :
      Expands w (.allocCheck p child)
        [.acquire (.leaf .pid), .release (.leaf .pid), .leafs 7, .release (.proc child)]
  | allocNext {p child} :
      Expands w (.allocCheck p child) [.release (.proc child), .allocScan p (child + 1)]
  | entryFirst {p} :
      Expands w (.procEntryPoint p) ([.release (.proc p)] ++ [.files] ++ [.trapUserReturn])
  | entry {p} : Expands w (.procEntryPoint p) ([.release (.proc p)] ++ [] ++ [.trapUserReturn])

/-- Where `myproc()` goes on with the CPU's number that it has read, this still leads to the process that
the CPU runs. -/
def current (s : Sys n) (a : Fin n × Input) : Bool :=
  match (s.cpus a.1).code, a.2 with
  | .loadProc _ hart :: _, .go _ => s.procOf hart == s.myproc a.1
  | _, _ => true

/-- What `current` says of an operation that is replaced -/
def Own (s : Sys n) (c : Fin n) (op : Op) : Prop :=
  ∀ use hart, op = .loadProc use hart → s.procOf hart = s.myproc c

theorem own_of_current {s : Sys n} {a : Fin n × Input} {pick : Pick} {op : Op} {rest : List Op}
    (stays : current s a = true) (input : a.2 = .go pick) (head : (s.cpus a.1).code = op :: rest) :
    Own s a.1 op := by
  rintro use hart rfl
  rw [current, head, input] at stays
  simpa using stays

/-- What follows a `myproc()` that has given the thread's own process -/
private theorem load_expands {w : Option Proc} {p : Proc} {hart : ℕ} (use : Use) (mine : w = some p) :
    Expands w (.loadProc use hart) (use.body p) := by
  cases use with
  | yield base bit => exact .loadYield mine
  | fork => exact .loadFork mine
  | exit code =>
    rw [Use.body]
    split
    case isTrue => exact .loadPanic
    case isFalse other => exact .loadExit mine other
  | userReturn => exact .loadReturn mine
  | memory => exact .loadMemory mine

section
variable {s : Sys n} {c : Fin n} {pick : Pick} {body : List Op}

private theorem device_expands {d : Device} {sleeps : Bool}
    (follows : next s c pick (.device d sleeps) = some body) : Expands (s.myproc c) (.device d sleeps) body := by
  cases pick with
  | done => cases follows; exact .nil (fun _ => rfl) rfl
  | leaf k => cases follows; exact .devicePrint
  | wake event => cases follows; exact .deviceWake
  | block event =>
    cases sleeps with
    | false => cases follows
    | true =>
      obtain ⟨p, mine, rfl⟩ := Option.map_eq_some_iff.mp follows
      exact .deviceSleep mine
  | _ => cases follows

private theorem files_expands (follows : next s c pick .files = some body) :
    Expands (s.myproc c) .files body := by
  cases pick with
  | done => cases follows; exact .nil (fun _ => rfl) rfl
  | leaf k => cases follows; exact .filesLeafs
  | lock k => cases follows; exact .filesLock
  | unlock k => cases follows; exact .filesUnlock
  | holding k => cases follows; exact .filesHolding
  | driver d =>
    cases d with
    | disk => cases follows; exact .filesDisk
    | _ => cases follows
  | _ => cases follows

private theorem kernel_expands (follows : next s c pick .kernel = some body) :
    Expands (s.myproc c) .kernel body := by
  cases pick with
  | done => cases follows; exact .nil (fun _ => rfl) rfl
  | files => cases follows; exact .kernelFiles
  | driver d => cases follows; exact .kernelDriver
  | yield => cases follows; exact .kernelYield
  | fork => cases follows; exact .kernelFork
  | exit code => cases follows; exact .kernelExit
  | memory => cases follows; exact .kernelMemory
  | wait =>
    obtain ⟨p, mine, rfl⟩ := Option.map_eq_some_iff.mp follows
    exact .kernelWait mine
  | _ => cases follows

private theorem user_expands {p : Proc} (follows : next s c pick (.user p) = some body) :
    Expands (s.myproc c) (.user p) body := by
  simp only [next] at follows
  split at follows
  case isTrue =>
    split at follows <;> cases follows
    · exact .userSyscall
    · exact .userTimer
    · exact .userExternal
    · exact .userGrow
    · exact .userFatal
  case isFalse => cases follows

private theorem waitChildren_expands {p : Proc} {i : ℕ} {haveKids : Bool}
    (follows : next s c pick (.waitChildren p i haveKids) = some body) :
    Expands (s.myproc c) (.waitChildren p i haveKids) body := by
  simp only [next] at follows
  split at follows
  case isTrue =>
    split at follows <;> cases follows
    · exact .waitChild _
    · exact .waitSkip
  case isFalse =>
    split at follows <;> cases follows
    · exact .waitSleep
    · exact .nil (fun _ => rfl) rfl

/-- The code that replaces an operation is one of its expansions. -/
theorem expands {op : Op} (follows : next s c pick op = some body) (own : Own s c op) :
    Expands (s.myproc c) op body := by
  cases op
  case device => exact device_expands follows
  case files => exact files_expands follows
  case kernel => exact kernel_expands follows
  case user => exact user_expands follows
  case waitChildren => exact waitChildren_expands follows
  all_goals simp only [next, reduceCtorEq] at follows
  case leafs =>
    split at follows
    case h_1 => cases follows; exact .nil (fun _ => rfl) rfl
    case h_2 =>
      split at follows
      case isTrue below => cases follows; exact .leafs below
      case isFalse => cases follows
    case h_3 => cases follows
  case sleeplockLoop =>
    obtain ⟨p, mine, rfl⟩ := Option.map_eq_some_iff.mp follows
    split
    case isTrue => exact .sleeplockLoop mine
    case isFalse => exact .nil (fun _ => rfl) rfl
  case sleeplockClear => cases follows; exact .sleeplockClear
  case memory =>
    split at follows <;> cases follows
    · exact .nil (fun _ => rfl) rfl
    · exact .memoryFiles
    · exact .memoryDriver
  case loadProc use hart =>
    obtain ⟨p, loaded, rfl⟩ := Option.map_eq_some_iff.mp follows
    exact load_expands use ((own use hart rfl).symm.trans loaded)
  case trapUserReturn => cases follows; exact .trapUserReturn
  case fatal =>
    obtain ⟨p, mine, rfl⟩ := Option.map_eq_some_iff.mp follows
    exact .fatal
  case timerInterrupt =>
    cases follows
    split
    case isTrue => exact .timerInterrupt
    case isFalse => exact .nil (fun _ => rfl) rfl
  case externalInterrupt =>
    split at follows <;> cases follows
    · exact .nil (fun _ => rfl) rfl
    · exact .externalPrint
    · exact .externalDriver
  case preempt =>
    split at follows <;> cases follows
    case h_1 => exact .nil (fun _ => rfl) rfl
    case h_2 p mine =>
      split
      case isTrue => exact .preempt mine
      case isFalse => exact .nil (fun _ => rfl) rfl
  case procYield => cases follows; exact .procYield
  case markRunnable => cases follows; exact .nil (fun _ => rfl) rfl
  case markSleeping => cases follows; exact .nil (fun _ => rfl) rfl
  case clearSleep => cases follows; exact .nil (fun _ => rfl) rfl
  case returned => cases follows; exact .nil (fun _ => rfl) rfl
  case procScheduler =>
    split at follows <;> cases follows
    · exact .scan _
    · exact .rescan
  case procWakeup =>
    split at follows
    case isTrue =>
      split at follows <;> cases follows
      · exact .wakeupSkip
      case isFalse other => exact .wakeup _ other
    case isFalse => cases follows; exact .nil (fun _ => rfl) rfl
  case wakeupCheck => cases follows; exact .nil (fun _ => rfl) rfl
  case exitChildren =>
    split at follows
    case isTrue =>
      split at follows <;> cases follows
      · exact .exitChild _
      · exact .exitSkip
    case isFalse => cases follows; exact .exitLast
  case exitCheck =>
    cases follows
    split
    case isTrue => exact .exitCheck
    case isFalse => exact .nil (fun _ => rfl) rfl
  case exitMark => cases follows; exact .exitMark
  case exitWakeup => cases follows; exact .exitWakeup
  case waitCheck =>
    split at follows <;> cases follows
    · exact .waitFree
    · exact .waitNext
  case freed => cases follows; exact .nil (fun _ => rfl) rfl
  case allocScan =>
    split at follows <;> cases follows
    · exact .allocTry _
    · exact .nil (fun _ => rfl) rfl
  case allocCheck =>
    split at follows <;> cases follows
    · exact .allocFound
    · exact .allocNext
  case procEntryPoint =>
    cases follows
    split
    case isTrue => exact .entryFirst
    case isFalse => exact .entry

end

/-! ## Properties of code -/

/-- A property of all code that is running or saved, by the thread that it belongs to. -/
structure Contexts (P : Option Proc → Op → List Op → Prop) (s : Sys n) : Prop where
  running : ∀ c, Every (P (s.myproc c)) (s.cpus c).code
  scheduler : ∀ c, Every (P none) (s.cpus c).ctx
  saved : ∀ p, Every (P (some p)) (s.procs p).ctx

/-- What makes a property of code last: expansions of the allowed kind keep it, and so do interrupts
where code meets a condition. -/
structure Lasting (P : Option Proc → Op → List Op → Prop) (allowed : Op → List Op → List Op → Prop)
    (open' : List Op → Prop) : Prop where
  expand : ∀ {w op body rest}, Expands w op body → allowed op body rest → P w op rest →
    Every (P w) rest → Every (P w) (body ++ rest)
  irq : ∀ {w k code}, open' code → Every (P w) code → Every (P w) (trapKernelHandler k ++ code)
  panic : ∀ {w code}, P w .panic code
  entry : ∀ {p}, P (some p) (.procEntryPoint p) []
  start : Every (P none) [.intrOn, .procScheduler 0]

section

variable {P : Option Proc → Op → List Op → Prop} {allowed : Op → List Op → List Op → Prop}
  {open' : List Op → Prop} {s s' : Sys n} {a : Fin n × Input}

/-- Two lasting properties together. -/
theorem Lasting.and {Q : Option Proc → Op → List Op → Prop} {also : List Op → Prop}
    (left : Lasting P allowed open') (right : Lasting Q allowed also) :
    Lasting (fun w op rest => P w op rest ∧ Q w op rest) allowed
      fun code => open' code ∧ also code where
  expand e fits here after := every_and.mpr
    ⟨left.expand e fits here.1 (every_and.mp after).1,
      right.expand e fits here.2 (every_and.mp after).2⟩
  irq quiet typed := every_and.mpr
    ⟨left.irq quiet.1 (every_and.mp typed).1, right.irq quiet.2 (every_and.mp typed).2⟩
  panic := ⟨left.panic, right.panic⟩
  entry := ⟨left.entry, right.entry⟩
  start := every_and.mpr ⟨left.start, right.start⟩

theorem Lasting.boot (lasting : Lasting P allowed open') : Contexts P (boot : Sys n) where
  running _ := lasting.start
  scheduler _ := trivial
  saved p := by
    simp only [Sched.boot]
    split
    case isTrue => exact ⟨lasting.entry, trivial⟩
    case isFalse => trivial

/-- Changing one CPU's code. -/
private theorem Contexts.setCpu {t : Sys n} {c : Fin n} {x : CpuState} (typed : Contexts P t)
    (code : Every (P x.proc) x.code) (ctx : Every (P none) x.ctx) :
    Contexts P (t.setCpu c x) where
  running d := by
    rw [Sys.myproc, Sys.setCpu_cpus]
    split
    case isTrue => exact code
    case isFalse => exact typed.running d
  scheduler d := by
    rw [Sys.setCpu_cpus]
    split
    case isTrue => exact ctx
    case isFalse => exact typed.scheduler d
  saved p := typed.saved p

private theorem Contexts.setProc {t : Sys n} {p : Proc} {slot : Slot} (typed : Contexts P t)
    (ctx : Every (P (some p)) slot.ctx) : Contexts P (t.setProc p slot) where
  running d := typed.running d
  scheduler d := typed.scheduler d
  saved q := by
    rw [Sys.setProc_procs]
    split
    case isTrue here => exact here ▸ ctx
    case isFalse => exact typed.saved q

private theorem Contexts.write (lasting : Lasting P allowed open') (typed : Contexts P s)
    (c : Fin n) (op : Op) : Contexts P (write s c op) := by
  have same : ∀ slks pid, Contexts P { s with slks := slks, nextPid := pid } := fun _ _ =>
    ⟨typed.running, typed.scheduler, typed.saved⟩
  cases op <;> simp only [Sched.write] <;> (repeat' split) <;>
    first
    | exact typed
    | exact same _ _
    | exact typed.setProc (typed.saved _)
    | exact (same s.slks _).setProc ⟨lasting.entry, trivial⟩

/-- A lasting property holds of all code after a step. -/
theorem Lasting.step (lasting : Lasting P allowed open') (typed : Contexts P s)
    (scheduling : ∀ c p rest, (s.cpus c).code = .schedulerCheck p :: rest → s.myproc c = none)
    (quiet : ∀ c, (s.cpus c).intr = true → open' (s.cpus c).code)
    (fits : ∀ pick op rest body, a.2 = .go pick → (s.cpus a.1).code = op :: rest →
      next s a.1 pick op = some body → allowed op body rest)
    (stays : current s a = true) (result : Step s a s') : Contexts P s' := by
  obtain ⟨c, input⟩ := a
  have code := typed.running c
  have ctx := typed.scheduler c
  have after : ∀ op rest, (s.cpus c).code = op :: rest → Every (P (s.myproc c)) rest := by
    intro op rest head
    rw [head] at code
    exact code.2
  cases result.stepped with
  | irq k on => exact typed.setCpu (lasting.irq (quiet c on) code) ctx
  | acquire head free =>
    exact Contexts.setCpu (t := s.setLock _ _) ⟨typed.running, typed.scheduler, typed.saved⟩
      (after _ _ head) ctx
  | recursive head held => exact typed.setCpu ⟨lasting.panic, code⟩ ctx
  | release head held off pushed =>
    exact Contexts.setCpu (t := s.setLock _ _) ⟨typed.running, typed.scheduler, typed.saved⟩
      (after _ _ head) ctx
  | stray head wrong => exact typed.setCpu ⟨lasting.panic, code⟩ ctx
  | intrOn head => exact typed.setCpu (after _ _ head) ctx
  | intrOff head => exact typed.setCpu (after _ _ head) ctx
  | sret head => exact typed.setCpu (after _ _ head) ctx
  | @sched pick p rest head mine =>
    have saved : Every (P (some p)) rest := mine ▸ after _ _ head
    exact (typed.setProc saved).setCpu ctx ctx
  | @dispatch pick p rest head ready =>
    have back : Every (P none) rest := scheduling c p rest head ▸ after _ _ head
    rw [toProcess]
    refine Contexts.setCpu (typed.setProc ?_) ?_ ?_
    · exact typed.saved p
    · exact typed.saved p
    · exact back
  | skip head unready => exact typed.setCpu (after _ _ head) ctx
  | @call pick op rest body head follows =>
    have opens : P (s.myproc c) op rest := by
      rw [head] at code
      exact code.1
    have own : Own s c op := own_of_current stays rfl head
    have expanded := lasting.expand (expands follows own) (fits pick op rest body rfl head follows)
      opens (after _ _ head)
    exact (typed.write lasting c op).setCpu (by rw [write_cpus]; exact expanded)
      (by rw [write_cpus]; exact ctx)

end

end LabKernel.Sched
