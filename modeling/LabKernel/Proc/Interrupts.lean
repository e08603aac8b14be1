import LabKernel.Proc.Handoff

/-! # The interrupt bit of a thread

The depth of pushes and the interrupt bit below them belong to the CPU, and a thread that goes on
finds those that the scheduler left there. Where they are the ones it left itself, and `myproc()`
gives each thread its own process, every call of `proc_yield` and `proc_sleep` returns with the
interrupt bit of the call.
-/

namespace LabKernel.Sched

variable {n : ℕ}

/-- The pops that the code makes beyond what it pushes. -/
def depth (code : List Op) : ℤ := owed none code

@[simp] theorem depth_nil : depth [] = 0 := rfl

@[simp] theorem depth_cons {op : Op} {rest : List Op} :
    depth (op :: rest) = op.owes none + depth rest := owed_cons

@[simp] theorem depth_append {front rest : List Op} :
    depth (front ++ rest) = depth front + depth rest := owed_append

/-- The bits of the call of `proc_yield` or `proc_sleep` that an operation goes back to -/
def Op.bits : Op → Option (Bool × Bool)
  | .returned base bit | .loadProc (.yield base bit) _ => some (base, bit)
  | _ => none

/-- The code goes on well from the given interrupt bit, below all pushes: its calls return with the
bits they were made with. -/
def Based : Bool → List Op → Prop
  | _, [] => True
  | b, .returned base bit :: rest | b, .loadProc (.yield base bit) _ :: rest =>
    base = b ∧ bit = (if depth rest = 0 then b else false) ∧ Based b rest
  | _, .intrOn :: rest => depth rest = 0 ∧ Based true rest
  | _, .intrOff :: rest | _, .trapUserReturn :: rest | _, .loadProc .userReturn _ :: rest
  | _, .user _ :: rest | _, .procEntryPoint _ :: rest => depth rest = 0 ∧ Based false rest
  | b, .sret :: rest => b = false ∧ depth rest = 0 ∧ Based true rest
  | b, _ :: rest => Based b rest

/-- The calls that the code makes return with the given bits. -/
def Stamped (base bit : Bool) (body : List Op) : Prop :=
  ∀ op ∈ body, op.bits = none ∨ op.bits = some (base, bit)

private theorem next_stamped {s : Sys n} {c : Fin n} {pick : Pick} {op : Op} {body : List Op}
    (follows : next s c pick op = some body) (own : Own s c op) (called : op.bits = none) :
    Stamped (s.cpus c).base (s.cpus c).intr body := by
  have e := expands follows own
  cases op
  case device d sleeps =>
    cases pick with
    | block event =>
      cases sleeps with
      | false => cases follows
      | true =>
        obtain ⟨p, -, rfl⟩ := Option.map_eq_some_iff.mp follows
        simp [Stamped, Op.bits, procSleep]
    | done => cases follows; simp [Stamped]
    | leaf k => cases follows; simp [Stamped, Op.bits]
    | wake event => cases follows; simp [Stamped, Op.bits]
    | _ => cases follows
  case sleeplockLoop k =>
    obtain ⟨p, -, rfl⟩ := Option.map_eq_some_iff.mp follows
    split <;> simp [Stamped, Op.bits, procSleep]
  case procYield =>
    cases follows
    simp [Stamped, Op.bits]
  case waitChildren p i haveKids =>
    simp only [next] at follows
    split at follows <;> split at follows <;> cases follows <;> simp [Stamped, Op.bits, procSleep]
  all_goals
    clear follows
    cases e <;>
      simp_all [Stamped, Op.bits, sleeplockAcquire, sleeplockRelease, sleeplockHolding, driver,
        procExit, procWait, timerUpdate]

/-- What replaces an operation goes on well where the operation did. -/
theorem Based.expand {w : Option Proc} {op : Op} {body rest : List Op} {b bit : Bool}
    (based : Based b (op :: rest)) (e : Expands w op body) (thread : w ≠ none)
    (belongs : op.BelongsTo w) (stamped : op.bits = none → Stamped b bit body)
    (now : bit = if depth (op :: rest) = 0 then b else false) : Based b (body ++ rest) := by
  cases e
  case nil neutral ends =>
    cases op <;> first | exact based | exact based.2.2 | cases ends
  case rescan => exact absurd belongs thread
  all_goals
    simp_all [Based, Stamped, Op.bits, Op.owes, procSleep, sleeplockAcquire, sleeplockRelease,
      sleeplockHolding, driver, procExit, procWait, timerUpdate, yield]

/-! ## Runs -/

/-- A CPU has the depth and the interrupt bit that its thread's code goes on from. -/
def OnBase (s : Sys n) (c : Fin n) : Prop :=
  Based (s.cpus c).base (s.cpus c).code ∧ ((s.cpus c).noff : ℤ) = depth (s.cpus c).code ∧
    (0 < (s.cpus c).noff → (s.cpus c).intr = false)

/-- A CPU has failed a check of a spinlock. -/
def Stopped (s : Sys n) (c : Fin n) : Prop :=
  (s.cpus c).intr = false ∧ ∃ rest, (s.cpus c).code = .panic :: rest

/-- The threads go on well on their CPUs, and from what they left when they gave them up. -/
structure Bits (s : Sys n) : Prop where
  thread : ∀ c, s.myproc c ≠ none → OnBase s c ∨ Stopped s c
  saved : ∀ p, 1 ≤ (s.procs p).left.1 → depth (s.procs p).ctx = (s.procs p).left.1 ∧
    ∀ b, (s.procs p).left.2 = none ∨ (s.procs p).left.2 = some b → Based b (s.procs p).ctx

/-- A process is dispatched at the depth and with the saved interrupt bit that it left. -/
def matched (s : Sys n) (a : Fin n × Input) : Bool :=
  match (s.cpus a.1).code with
  | .schedulerCheck p :: _ =>
    s.state p != .runnable || (s.cpus a.1).noff == (s.procs p).left.1 &&
      ((s.procs p).left.2 == none || (s.procs p).left.2 == some (s.cpus a.1).origin)
  | _ => true

private theorem matched_spec {s : Sys n} {a : Fin n × Input} (fits : matched s a = true) {p : Proc}
    {rest : List Op} (head : (s.cpus a.1).code = .schedulerCheck p :: rest)
    (ready : s.state p = .runnable) : (s.cpus a.1).noff = (s.procs p).left.1 ∧
      ((s.procs p).left.2 = none ∨ (s.procs p).left.2 = some (s.cpus a.1).origin) := by
  rw [matched, head] at fits
  simpa [ready] using fits

namespace Bits

variable {s s' : Sys n} {c : Fin n}

/-- A thread that does not stop is on its base. -/
theorem onBase (bits : Bits s) (thread : s.myproc c ≠ none) {op : Op} {rest : List Op}
    (head : (s.cpus c).code = op :: rest) (goesOn : op ≠ .panic) : OnBase s c := by
  rcases bits.thread c thread with on | ⟨-, _, stopped⟩
  · exact on
  · exact absurd (List.cons.inj (head.symm.trans stopped)).1 goesOn

end Bits

/-! ### One step of a thread -/

section

variable {s t : Sys n} {c : Fin n} {op : Op} {rest body : List Op}

private theorem base_of_pushed {x : CpuState} (pushed : 1 ≤ x.noff) : x.base = x.origin := by
  rw [CpuState.base, if_neg (by omega)]

private theorem onBase_setCpu {x : CpuState} (based : Based x.base x.code)
    (pushes : (x.noff : ℤ) = depth x.code) (quiet : 0 < x.noff → x.intr = false) :
    OnBase (t.setCpu c x) c := by
  rw [OnBase, Sys.setCpu_cpus_self]
  exact ⟨based, pushes, quiet⟩

/-- Where nothing is pushed, an instruction that sets the interrupt bit sets the base. -/
private theorem onBase_flat (zero : (s.cpus c).noff = 0) {bit : Bool} (flat : depth rest = 0)
    (based : Based bit rest) : OnBase (t.setCpu c { s.cpus c with intr := bit, code := rest }) c := by
  apply onBase_setCpu
  · rw [CpuState.base, if_pos zero]
    exact based
  · simp [zero, flat]
  · intro pushed
    simp [zero] at pushed

/-- An interrupt comes where nothing is pushed, and the handler goes back with `sret`. -/
private theorem onBase_irq (on : OnBase s c) (k : Irq) (enabled : (s.cpus c).intr = true) :
    OnBase (t.setCpu c
      { s.cpus c with intr := false, code := trapKernelHandler k ++ (s.cpus c).code }) c := by
  obtain ⟨based, pushes, quiet⟩ := on
  have zero : (s.cpus c).noff = 0 := by
    by_contra pushed
    rw [quiet (Nat.pos_of_ne_zero pushed)] at enabled
    cases enabled
  have flat : depth (s.cpus c).code = 0 := by
    rw [← pushes, zero]
    rfl
  rw [CpuState.base, if_pos zero, enabled] at based
  apply onBase_setCpu
  · cases k <;> simp [Based, CpuState.base, zero, trapKernelHandler, flat, based]
  · cases k <;> simp [zero, trapKernelHandler, flat, Op.owes]
  · exact fun _ => rfl

private theorem onBase_acquire (on : OnBase s c) {l : Lock} (head : (s.cpus c).code = .acquire l :: rest) :
    OnBase (t.setCpu c { (s.cpus c).pushOff with code := rest }) c := by
  obtain ⟨based, pushes, -⟩ := on
  rw [head] at based pushes
  apply onBase_setCpu
  · rw [← CpuState.pushOff_base] at based
    exact based
  · simp only [depth_cons, Op.owes, counts_none] at pushes
    simp only [CpuState.pushOff]
    push_cast
    omega
  · exact fun _ => rfl

private theorem onBase_release (on : OnBase s c) {l : Lock} (head : (s.cpus c).code = .release l :: rest)
    (pushed : 1 ≤ (s.cpus c).noff) :
    OnBase (t.setCpu c
      { s.cpus c with
        noff := (s.cpus c).noff - 1
        intr := (s.cpus c).noff == 1 && (s.cpus c).origin
        code := rest }) c := by
  obtain ⟨based, pushes, -⟩ := on
  rw [head] at based pushes
  apply onBase_setCpu
  · rw [base_of_pushed pushed] at based
    have after : Based (s.cpus c).origin rest := based
    rcases eq_or_ne (s.cpus c).noff 1 with one | more
    · simpa [CpuState.base, one] using after
    · have left : (s.cpus c).noff - 1 ≠ 0 := by omega
      simpa [CpuState.base, left] using after
  · simp only [depth_cons, Op.owes, counts_none] at pushes
    push_cast [pushed]
    omega
  · intro more
    have several : ((s.cpus c).noff == 1) = false := by
      rw [beq_eq_false_iff_ne]
      simp only at more
      omega
    simp only [several, Bool.false_and]

private theorem onBase_call (on : OnBase s c) (base : Base s) (thread : s.myproc c ≠ none)
    (head : (s.cpus c).code = op :: rest) {pick : Pick} (follows : next s c pick op = some body)
    (own : Own s c op) : OnBase ((write s c op).setCode c (body ++ rest)) c := by
  obtain ⟨based, pushes, quiet⟩ := on
  rw [head] at based pushes
  have now : (s.cpus c).intr = if depth (op :: rest) = 0 then (s.cpus c).base else false := by
    rw [← pushes]
    rcases Nat.eq_zero_or_pos (s.cpus c).noff with zero | pushed
    · simp [zero, CpuState.base]
    · rw [quiet pushed, if_neg (by omega)]
  have e := expands follows own
  rw [Sys.setCode_eq]
  apply onBase_setCpu <;> rw [write_cpus]
  · exact based.expand e thread (base.head head).1.1 (next_stamped follows own) now
  · have same : depth body = op.owes none := e.owed none
    rw [pushes, depth_append, depth_cons, same]
  · exact quiet

end

namespace Bits

variable {s s' : Sys n} {c : Fin n}

private theorem thread_step (bits : Bits s) (base : Base s) {input : Input}
    (fits : matched s (c, input) = true) (stays : current s (c, input) = true) (result : Step s (c, input) s')
    (thread : s'.myproc c ≠ none) : OnBase s' c ∨ Stopped s' c := by
  cases result.stepped with
  | irq k enabled =>
    have thread' : s.myproc c ≠ none := by simpa [Sys.myproc] using thread
    rcases bits.thread c thread' with on | ⟨off, -⟩
    · exact .inl (onBase_irq on k enabled)
    · rw [off] at enabled
      cases enabled
  | acquire head free =>
    have thread' : s.myproc c ≠ none := by simpa [Sys.myproc, CpuState.pushOff] using thread
    exact .inl (onBase_acquire (bits.onBase thread' head (by simp)) head)
  | recursive head mine =>
    exact .inr ⟨by rw [Sys.setCpu_cpus_self]; rfl, _, by rw [Sys.setCpu_cpus_self]⟩
  | release head mine off pushed =>
    have thread' : s.myproc c ≠ none := by simpa [Sys.myproc] using thread
    exact .inl (onBase_release (bits.onBase thread' head (by simp)) head pushed)
  | stray head wrong =>
    have thread' : s.myproc c ≠ none := by simpa [Sys.myproc] using thread
    obtain ⟨based, depth, quiet⟩ := bits.onBase thread' head (by simp)
    rw [OnBase, Sys.setCode_eq, Sys.setCpu_cpus_self]
    exact .inl ⟨based, by simpa [Op.owes] using depth, quiet⟩
  | intrOn head =>
    have thread' : s.myproc c ≠ none := by simpa [Sys.myproc] using thread
    obtain ⟨based, depth, -⟩ := bits.onBase thread' head (by simp)
    rw [head] at based depth
    exact .inl (onBase_flat (by simpa [Op.owes, based.1] using depth) based.1 based.2)
  | intrOff head =>
    have thread' : s.myproc c ≠ none := by simpa [Sys.myproc] using thread
    obtain ⟨based, depth, -⟩ := bits.onBase thread' head (by simp)
    rw [head] at based depth
    exact .inl (onBase_flat (by simpa [Op.owes, based.1] using depth) based.1 based.2)
  | sret head =>
    have thread' : s.myproc c ≠ none := by simpa [Sys.myproc] using thread
    obtain ⟨based, depth, -⟩ := bits.onBase thread' head (by simp)
    rw [head] at based depth
    exact .inl (onBase_flat (by simpa [Op.owes, based.2.1] using depth) based.2.1 based.2.2)
  | sched head mine =>
    rw [Sys.myproc, toScheduler, Sys.setCpu_cpus_self] at thread
    exact absurd rfl thread
  | @dispatch _ p rest head ready =>
    -- the thread goes on from what it left, and `matched` says that this is what the scheduler has
    obtain ⟨noff, origin⟩ := matched_spec fits head ready
    obtain ⟨off, locked⟩ := base.locked c p (by rw [head]; rfl)
    have pushed : 1 ≤ (s.cpus c).noff := base.depth c {.proc p} (by simpa using locked)
    obtain ⟨depth, based⟩ := bits.saved p (by rw [← noff]; exact pushed)
    left
    apply onBase_setCpu
    · have same : CpuState.base { s.cpus c with
          proc := some p, ctx := rest, code := (s.procs p).ctx } = (s.cpus c).origin :=
        base_of_pushed pushed
      rw [same]
      exact based _ origin
    · rw [depth, noff]
    · exact fun _ => off
  | skip head unready =>
    have thread' : s.myproc c ≠ none := by simpa [Sys.myproc] using thread
    exact absurd (base.head head).1.1 thread'
  | @call _ op rest body head follows =>
    have thread' : s.myproc c ≠ none := by simpa [Sys.myproc] using thread
    have goesOn : op ≠ .panic := by
      rintro rfl
      cases follows
    exact .inl (onBase_call (bits.onBase thread' head goesOn) base thread' head follows
      (own_of_current stays rfl head))

private theorem saved_step (bits : Bits s) {input : Input} (result : Step s (c, input) s')
    (p : Proc) (left : 1 ≤ (s'.procs p).left.1) :
    depth (s'.procs p).ctx = (s'.procs p).left.1 ∧
      ∀ b, (s'.procs p).left.2 = none ∨ (s'.procs p).left.2 = some b →
        Based b (s'.procs p).ctx := by
  cases result.stepped with
  | @sched _ q rest head mine =>
    have thread : s.myproc c ≠ none := by rw [mine]; exact Option.some_ne_none q
    obtain ⟨based, depth, -⟩ := bits.onBase thread head nofun
    rw [head] at based depth
    rw [toScheduler, Sys.setCpu_procs, Sys.setProc_procs] at left ⊢
    split at left
    case isTrue same =>
      rw [if_pos same]
      refine ⟨by simpa [Op.owes] using depth.symm, fun b origin => ?_⟩
      obtain rfl : (s.cpus c).origin = b := by simpa using origin
      rw [base_of_pushed left] at based
      exact based
    case isFalse other =>
      rw [if_neg other]
      exact bits.saved p left
  | dispatch head ready =>
    rw [toProcess, Sys.setCpu_procs, Sys.setProc_procs] at left ⊢
    split at left
    case isTrue same =>
      subst same
      rw [if_pos rfl]
      exact bits.saved p left
    case isFalse other =>
      rw [if_neg other]
      exact bits.saved p left
  | call head follows =>
    rw [Sys.setCode_eq, Sys.setCpu_procs] at left ⊢
    have wrote := wrote follows
    generalize (write s c _).procs = procs at wrote left ⊢
    cases wrote with
    | none => exact bits.saved p left
    | @fork q child unused =>
      rcases eq_or_ne p child with rfl | other
      · rw [Function.update_self]
        simp [Op.owes, Based]
      · rw [Function.update_of_ne other] at left ⊢
        exact bits.saved p left
    | _ =>
      rw [Function.update_apply] at left ⊢
      split at left
      case isTrue same =>
        subst same
        rw [if_pos rfl]
        exact bits.saved p left
      case isFalse other =>
        rw [if_neg other]
        exact bits.saved p left
  | _ => exact bits.saved p left

private theorem step (bits : Bits s) (base : Base s) {a : Fin n × Input} (fits : matched s a = true)
    (stays : current s a = true) (result : Step s a s') : Bits s' := by
  obtain ⟨c, input⟩ := a
  refine ⟨fun d thread => ?_, bits.saved_step result⟩
  rcases eq_or_ne d c with rfl | other
  · exact bits.thread_step base fits stays result thread
  · have cpu := result.other other
    rw [Sys.myproc, cpu] at thread
    rw [OnBase, Stopped, cpu]
    exact bits.thread d thread

private theorem boot : Bits (boot : Sys n) where
  thread c thread := absurd rfl thread
  saved p left := by
    rcases eq_or_ne p initProcess with rfl | other
    · simp [Sched.boot, Op.owes, Based]
    · simp [Sched.boot, other] at left

end Bits

/-- The interrupt bit is a thread's own. -/
structure PrivateBits (s : Sys n) : Prop where
  /-- `proc_yield` and `proc_sleep` return with the bit of the call, and so does the release of all
  locks. -/
  returned : ∀ c base bit rest, (s.cpus c).code = .returned base bit :: rest →
    (s.cpus c).base = base ∧ (s.cpus c).intr = bit
  /-- `trap_kernel_handler` has interrupts off until it restores `sepc` and `sstatus`. -/
  restores : ∀ c p rest, s.myproc c = some p → (s.cpus c).code = .sret :: rest →
    (s.cpus c).intr = false

private theorem Bits.privateBits {s : Sys n} (bits : Bits s) (base : Base s) : PrivateBits s where
  returned c b i rest head := by
    have thread : s.myproc c ≠ none := (base.head head).1.1
    obtain ⟨based, depth, quiet⟩ := bits.onBase thread head (by simp)
    rw [head] at based depth
    obtain ⟨rfl, rfl, -⟩ := based
    refine ⟨rfl, ?_⟩
    have deep : Sched.depth rest = (s.cpus c).noff := by simpa [Op.owes] using depth.symm
    rw [deep]
    rcases Nat.eq_zero_or_pos (s.cpus c).noff with zero | pushed
    · simp [zero, CpuState.base]
    · rw [quiet pushed, if_neg (by omega)]
  restores c p rest here head := by
    have thread : s.myproc c ≠ none := by
      rw [here]
      exact Option.some_ne_none p
    obtain ⟨based, depth, -⟩ := bits.onBase thread head (by simp)
    rw [head] at based depth
    have zero : (s.cpus c).noff = 0 := by simpa [Op.owes, based.2.1] using depth
    have off := based.1
    rwa [CpuState.base, if_pos zero] at off

/-- No process is dispatched at another depth or with another bit, and `myproc()` stays on its CPU. -/
def kept (s : Sys n) (a : Fin n × Input) : Bool := matched s a && current s a

/-- As long as each process is dispatched at the depth and with the bit that it left, and `myproc()`
gives each thread its own process, its calls return with the interrupt bit that they were made with. -/
theorem bits_private {inputs : List (Fin n × Input)} {s : Sys n}
    (run : Run (Guarded (fun s a => kept s a = true) Step) boot inputs s) : PrivateBits s := by
  have kept : Base s ∧ Bits s := run.invariant (P := fun s => Base s ∧ Bits s)
    (fun s a s' step inv => by
      obtain ⟨fits, stays⟩ := Bool.and_eq_true_iff.mp step.1
      exact ⟨inv.1.step stays step.2, inv.2.step inv.1 fits stays step.2⟩)
    ⟨Base.boot, Bits.boot⟩
  exact kept.2.privateBits kept.1

/-- The first process yields in a system call on CPU 0 and goes on on CPU 1. -/
theorem bits_private_yield : ∃ s : Sys nCpu,
    PrivateBits s ∧ (s.cpus 1).code.head? = some (.returned true true) := by
  obtain ⟨s, run, found⟩ := Run.exists_guarded kept (fun (s : Sys nCpu) a => step s a.1 a.2)
    boot
    (goOn 0 10 ++ choose 0 .syscall ++ goOn 0 1 ++ choose 0 .yield ++ goOn 0 6 ++ goOn 1 5)
    (fun s => (s.cpus 1).code.head? == some (.returned true true)) (by decide +kernel)
  exact ⟨s, bits_private run, by simpa using found⟩

/-- The timer interrupts a system call of the first process on CPU 0, and CPU 1 dispatches the
process in the middle of `trap_kernel_handler`. -/
def preempted : List (Fin nCpu × Input) :=
  goOn 0 10 ++ choose 0 .syscall ++ goOn 0 1 ++ [(0, .irq .timer)] ++ goOn 0 136 ++ goOn 1 6

/-- The handler goes on with interrupts on, since the scheduler of CPU 1 had them on. -/
theorem bits_notPrivate : ¬ ∀ inputs (s : Sys nCpu), Run Step boot inputs s → PrivateBits s := by
  intro all
  obtain ⟨s, run, found⟩ := Run.exists_of_test (fun (s : Sys nCpu) a => step s a.1 a.2) boot
    preempted
    (fun s => s.myproc 1 == some 0 && (s.cpus 1).code.head? == some .sret && (s.cpus 1).intr)
    (by decide +kernel)
  have facts : (s.myproc 1 = some 0 ∧ (s.cpus 1).code.head? = some .sret) ∧
      (s.cpus 1).intr = true := by simpa using found
  obtain ⟨⟨here, first⟩, on⟩ := facts
  obtain ⟨rest, head⟩ := List.head?_eq_some_iff.mp first
  have off := (all _ s run).restores 1 0 rest here head
  rw [on] at off
  cases off

end LabKernel.Sched
