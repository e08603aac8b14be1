import LabKernel.Proc.Placement

/-! # Locks held at a context switch

A thread's code still has to release what its CPU holds, lock by lock and in number. `proc_sched`
can therefore be judged by what follows it: as long as no user fault kills a process and `proc_free`
does not sleep, a CPU that switches holds the lock of its process and nothing else, and that is the
lock its scheduler releases.
-/

namespace LabKernel.Sched

variable {n : ℕ}

/-! ## What code owes -/

/-- The releases of a lock, or of all locks, that the code makes beyond what it acquires. -/
def owed (k : Option Lock) (code : List Op) : ℤ := balance (Op.owes k) code

@[simp] theorem owed_nil {k : Option Lock} : owed k [] = 0 := rfl

@[simp] theorem owed_cons {k : Option Lock} {op : Op} {rest : List Op} :
    owed k (op :: rest) = op.owes k + owed k rest := balance_cons ..

@[simp] theorem owed_append {k : Option Lock} {front rest : List Op} :
    owed k (front ++ rest) = owed k front + owed k rest := balance_append ..

def Owes (l : Lock) (code : List Op) : Prop := ∀ k, owed k code = l.counts k

def Flat (code : List Op) : Prop := ∀ k, owed k code = 0

/-- What replaces an operation owes what it did. -/
theorem Expands.owed {w : Option Proc} {op : Op} {body : List Op} (e : Expands w op body)
    (k : Option Lock) : owed k body = op.owes k := by
  cases e
  case nil neutral _ => simp [neutral k]
  all_goals
    simp [Op.owes, procSleep, sleeplockAcquire, sleeplockRelease, sleeplockHolding, driver,
      procExit, procWait, timerUpdate, yield]
  all_goals ring

@[simp] theorem counts_none (l : Lock) : l.counts none = 1 := by simp [Lock.counts]

theorem counts_some (l k : Lock) : l.counts (some k) = if k = l then 1 else 0 := by
  simp [Lock.counts]

/-! ## Interrupts around a fatal fault -/

/-- The code reaches user mode or a fatal fault before interrupts are turned on or off. -/
def dark : List Op → Bool
  | [] => false
  | .user _ :: _ | .fatal :: _ => true
  | .intrOn :: _ | .intrOff :: _ | .sret :: _ | .procSched :: _ | .trapUserReturn :: _
  | .loadProc .userReturn _ :: _ => false
  | _ :: rest => dark rest

/-- The operations that may give up the CPU or that turn interrupts on. -/
def Op.reschedules : Op → Bool
  | .device _ sleeps => sleeps
  | .loadProc .userReturn _ => false
  | .procSched | .procYield | .preempt | .loadProc _ _ | .sleeplockLoop _ | .files | .kernel | .memory _
  | .waitChildren _ _ _
  | .waitCheck _ _ | .exitChildren _ _ _ | .exitMark _ _ | .schedulerCheck _ | .procScheduler _
  | .fatal | .intrOn | .sret => true
  | _ => false

/-- The operations that `proc_sched` can follow. -/
def Op.precedes : Op → Bool
  | .markRunnable _ | .markSleeping _ _ | .acquire _ | .panic => true
  | _ => false

/-- Interrupts are off at `proc_sched` and where a thread enters user mode. -/
def Paced (op : Op) (rest : List Op) : Prop :=
  (op.reschedules = true → dark rest = false) ∧
    (rest.head? = some .procSched → op.precedes = true)

private theorem paced_lasting :
    Lasting (fun _ => Paced) (fun _ _ _ => True)
      fun code => dark code = false ∧ code.head? ≠ some .procSched where
  expand {w op body rest} e _ here after := by
    cases e
    case nil => exact after
    all_goals
      have calm : rest.head? ≠ some .procSched := fun sched => by cases here.2 sched
      have steady := here.1
      simp only [Op.reschedules, forall_const] at steady
      simp [Paced, Op.reschedules, Op.precedes, dark, calm, steady, after, procSleep,
        sleeplockAcquire, sleeplockRelease, sleeplockHolding, driver, procExit, procWait,
        timerUpdate, yield] <;>
      exact steady
  irq := by
    intro w k code quiet typed
    cases k <;> simp [Paced, Op.reschedules, Op.precedes, dark, quiet, typed, trapKernelHandler]
  panic := by simp [Paced, Op.reschedules, Op.precedes]
  entry := by simp [Paced, Op.reschedules]
  start := by simp [Paced, dark]

/-- An expansion only enters user mode where the operation did. -/
theorem dark_expand {w : Option Proc} {op : Op} {body rest : List Op} (e : Expands w op body)
    (paced : Paced op rest) (front : dark (body ++ rest) = true) : dark (op :: rest) = true := by
  have steady := paced.1
  cases e
  case nil neutral ends =>
    cases op <;> first | exact front | cases ends
  all_goals
    simp_all [Op.reschedules, dark, procSleep, sleeplockAcquire, sleeplockRelease,
      sleeplockHolding, driver, procExit, procWait, timerUpdate, yield]

/-! ## Which code may give up its CPU -/

/-- The end of `proc_free` under way. -/
def Op.isFreed : Op → Bool
  | .freed _ => true
  | _ => false

def freeing (code : List Op) : Bool := code.any Op.isFreed

@[simp] theorem freeing_cons {op : Op} {rest : List Op} :
    freeing (op :: rest) = (op.isFreed || freeing rest) := rfl

@[simp] theorem freeing_append {front rest : List Op} :
    freeing (front ++ rest) = (freeing front || freeing rest) := List.any_append ..

/-- What follows an operation so that `proc_sched` is only reached with the lock of the process, or
with none where a user fault has killed the process. -/
def Handed (fatal : Prop) (w : Option Proc) (op : Op) (rest : List Op) : Prop :=
  match op with
  | .procSched =>
    (∃ p, w = some p ∧ Owes (.proc p) rest) ∨
      fatal ∧ Flat rest ∧ rest.head? = some .trapUserReturn
  | .device d true => Owes (.device d) rest ∨ freeing rest = true
  | .sleeplockLoop k => Owes (.sleep k) rest ∨ freeing rest = true
  | .files => Flat rest ∨ freeing rest = true
  | .waitChildren p _ _ | .waitCheck p _ => w = some p ∧ Owes .lifecycle rest
  | .schedulerCheck p => Owes (.proc p) rest ∧ ∃ after, rest = .release (.proc p) :: after
  | .fatal => Flat rest ∧ rest.head? = some .trapUserReturn
  | .exitChildren p _ _ | .exitMark p _ => w = some p ∧ Flat rest
  | .kernel | .memory _ | .loadProc _ _ | .trapUserReturn | .user _ | .procYield | .preempt | .intrOn
  | .intrOff | .sret | .procEntryPoint _
  | .procScheduler _ => Flat rest
  | _ => True

/-- The operations that call `proc_sleep` where they have to wait. -/
def Op.waits : Op → Bool
  | .device _ _ | .sleeplockLoop _ => true
  | _ => false

/-- Expansions without a fatal fault, unless they are admitted, and without sleep in
`proc_free`. -/
def Wakeful (fatal : Prop) (op : Op) (body rest : List Op) : Prop :=
  (op = .fatal → fatal) ∧ (op.waits = true → .procSched ∈ body → freeing rest = false)

private theorem handed_lasting (fatal : Prop) : Lasting (Handed fatal) (Wakeful fatal) Flat where
  expand {w op body rest} e wakeful here after := by
    cases e
    case nil => exact after
    all_goals
      simp_all [Handed, Wakeful, Op.waits, Op.isFreed, Owes, Flat, Op.owes, procSleep,
        sleeplockAcquire, sleeplockRelease, sleeplockHolding, driver, procExit, procWait,
        timerUpdate, yield]
  irq := by
    intro w k code quiet typed
    cases k <;> simp_all [Handed, Flat, Op.owes, trapKernelHandler]
  panic := by simp [Handed]
  entry := by simp [Handed, Flat]
  start := by simp [Handed, Flat, Op.owes]

/-! ## What the CPUs hold -/

/-- How often a CPU has pushed, and whether a lock is its own. -/
def holds (s : Sys n) (c : Fin n) : Option Lock → ℤ
  | none => (s.cpus c).noff
  | some l => if s.locks l = some c then 1 else 0

private theorem holds_congr {s t : Sys n} {c : Fin n} (locks : t.locks = s.locks)
    (noff : (t.cpus c).noff = (s.cpus c).noff) (k : Option Lock) : holds t c k = holds s c k := by
  cases k with
  | none => rw [holds, holds, noff]
  | some l => rw [holds, holds, locks]

/-- A CPU's code releases what the CPU holds. -/
def Lawful (s : Sys n) (c : Fin n) : Prop := ∀ k, owed k (s.cpus c).code = holds s c k

/-- The CPU has failed a check of a spinlock, or it will, since a killed process did not hold its
lock. -/
def Lost (fatal : Prop) (s : Sys n) (c : Fin n) : Prop :=
  (s.cpus c).intr = false ∧ ((∃ rest, (s.cpus c).code = .panic :: rest) ∨
    fatal ∧ ∃ l rest, (s.cpus c).code = .release l :: rest ∧ s.locks l ≠ some c)

theorem CpuState.pushOff_base (x : CpuState) : x.pushOff.base = x.base := by
  simp [CpuState.base, CpuState.pushOff]

/-- Only a fatal fault goes straight to `proc_sched`. -/
theorem Expands.sched_head {w : Option Proc} {op : Op} {body : List Op}
    (e : Expands w op (.procSched :: body)) : op = .fatal := by
  cases e
  rfl

/-- What the CPUs hold, and what the saved contexts expect them to hold. -/
structure Held (fatal : Prop) (s : Sys n) : Prop where
  paced : Contexts (fun _ => Paced) s
  handed : Contexts (Handed fatal) s
  law : ∀ c, Lawful s c ∨ Lost fatal s c
  quiet : ∀ c, (s.cpus c).intr = true → (s.cpus c).noff = 0
  dark : ∀ c, dark (s.cpus c).code = true → (s.cpus c).base = false
  sched : ∀ c, (s.cpus c).code.head? = some .procSched → (s.cpus c).intr = false
  ctx : ∀ c, Sched.dark (s.cpus c).ctx = false ∧ (s.cpus c).ctx.head? ≠ some .procSched
  back : ∀ c p, s.myproc c = some p →
    Owes (.proc p) (s.cpus c).ctx ∧ ∃ after, (s.cpus c).ctx = .release (.proc p) :: after
  entry : ∀ p, Sched.dark (s.procs p).ctx = false ∧ (s.procs p).ctx.head? ≠ some .procSched
  saved : ∀ p, (∀ c, s.myproc c ≠ some p) → s.state p = .runnable ∨ s.state p = .sleeping →
    Owes (.proc p) (s.procs p).ctx

namespace Held

variable {fatal : Prop} {s s' : Sys n} {c : Fin n}

private theorem head (held : Held fatal s) {op : Op} {rest : List Op}
    (code : (s.cpus c).code = op :: rest) : Handed fatal (s.myproc c) op rest :=
  (code ▸ held.handed.running c).1

private theorem pace (held : Held fatal s) {op : Op} {rest : List Op}
    (code : (s.cpus c).code = op :: rest) : Paced op rest :=
  (code ▸ held.paced.running c).1

/-- A CPU whose next operation can go on lawfully is not lost. -/
theorem lawful (held : Held fatal s) {op : Op} {rest : List Op}
    (code : (s.cpus c).code = op :: rest) (goesOn : op ≠ .panic) (kept : ∀ l, op ≠ .release l) :
    ∀ k, op.owes k + owed k rest = holds s c k := by
  intro k
  rw [← owed_cons, ← code]
  rcases held.law c with law | ⟨-, ⟨_, stopped⟩ | ⟨-, l, _, stopped, -⟩⟩
  · exact law k
  · exact absurd (List.cons.inj (code.symm.trans stopped)).1 goesOn
  · exact absurd (List.cons.inj (code.symm.trans stopped)).1 (kept l)

/-- With interrupts on a CPU holds nothing. -/
theorem flat (held : Held fatal s) (base : Base s) (on : (s.cpus c).intr = true) :
    Flat (s.cpus c).code := by
  have none_pushed := held.quiet c on
  rcases held.law c with law | ⟨off, -⟩
  · intro k
    rw [law k]
    cases k with
    | none => simp [holds, none_pushed]
    | some l =>
      simp only [holds]
      split
      case isTrue mine =>
        have := base.depth c {l} (by simpa using mine)
        simp [none_pushed] at this
      case isFalse => rfl
  · rw [on] at off
    cases off

/-- Nothing that one CPU does changes what another one holds. -/
private theorem law_other {a : Fin n × Input} (held : Held fatal s) (result : Step s a s')
    (other : c ≠ a.1) : Lawful s' c ∨ Lost fatal s' c := by
  have cpu := result.other other
  have lock := result.locks_other other
  rcases held.law c with law | ⟨off, stopped⟩
  · refine .inl fun k => ?_
    rw [cpu, law k]
    cases k with
    | none => simp [holds, cpu]
    | some l => simp [holds, lock l]
  · refine .inr ⟨by rw [cpu]; exact off, ?_⟩
    rw [cpu]
    rcases stopped with stopped | ⟨dead, l, rest, stopped, lost⟩
    · exact .inl stopped
    · exact .inr ⟨dead, l, rest, stopped, fun mine => lost ((lock l).mp mine)⟩

/-- The acting CPU does nothing with locks. -/
private theorem lawful_of (law : ∀ k, owed k (s.cpus c).code = holds s c k)
    (locks : s'.locks = s.locks) (noff : (s'.cpus c).noff = (s.cpus c).noff)
    (code : ∀ k, owed k (s'.cpus c).code = owed k (s.cpus c).code) : Lawful s' c := by
  intro k
  rw [holds_congr locks noff, code, law]

/-- An operation that does nothing with locks is done. -/
private theorem law_done {op : Op} {rest : List Op} (law : ∀ k, op.owes k + owed k rest = holds s c k)
    (head : (s.cpus c).code = op :: rest) (neutral : ∀ k, op.owes k = 0) (locks : s'.locks = s.locks)
    (noff : (s'.cpus c).noff = (s.cpus c).noff) (code : (s'.cpus c).code = rest) : Lawful s' c := by
  apply lawful_of (s := s) (fun k => by rw [head, owed_cons, law]) locks noff
  intro k
  rw [code, head, owed_cons, neutral, zero_add]

private theorem law_acquire {l : Lock} {rest : List Op}
    (law : ∀ k, (Op.acquire l).owes k + owed k rest = holds s c k) (free : s.locks l = none) :
    Lawful ((s.setLock l (some c)).setCpu c { (s.cpus c).pushOff with code := rest }) c := by
  intro k
  rw [Sys.setCpu_cpus_self]
  have before := law k
  cases k with
  | none =>
    simp only [Op.owes, counts_none, holds, Sys.setCpu_cpus_self, CpuState.pushOff] at before ⊢
    push_cast
    omega
  | some k =>
    simp only [Op.owes, counts_some, holds, Sys.setCpu_locks, Sys.setLock_locks,
      Function.update_apply] at before ⊢
    rcases eq_or_ne k l with rfl | other
    · simp [free] at before ⊢
      omega
    · simpa [other] using before

private theorem law_release {l : Lock} {rest : List Op} {bit : Bool}
    (law : ∀ k, (Op.release l).owes k + owed k rest = holds s c k) (mine : s.locks l = some c)
    (pushed : 1 ≤ (s.cpus c).noff) :
    Lawful ((s.setLock l none).setCpu c
      { s.cpus c with noff := (s.cpus c).noff - 1, intr := bit, code := rest }) c := by
  intro k
  rw [Sys.setCpu_cpus_self]
  have before := law k
  cases k with
  | none =>
    simp only [Op.owes, counts_none, holds, Sys.setCpu_cpus_self] at before ⊢
    push_cast [pushed]
    omega
  | some k =>
    simp only [Op.owes, counts_some, holds, Sys.setCpu_locks, Sys.setLock_locks,
      Function.update_apply] at before ⊢
    rcases eq_or_ne k l with rfl | other
    · simp [mine] at before ⊢
      omega
    · simpa [other] using before

/-- The scheduler goes on with the locks that the process hands over; behind a fatal fault there are none. -/
private theorem law_sched (held : Held fatal s) {p : Proc} {rest : List Op}
    (head : (s.cpus c).code = .procSched :: rest) (mine : s.myproc c = some p) :
    Lawful (toScheduler s c p rest) c ∨ Lost fatal (toScheduler s c p rest) c := by
  have law := held.lawful head (by simp) (by simp)
  obtain ⟨owes, after, back⟩ := held.back c p mine
  have same : ∀ k, holds (toScheduler s c p rest) c k = holds s c k :=
    holds_congr rfl (by rw [toScheduler, Sys.setCpu_cpus_self])
  have code : ((toScheduler s c p rest).cpus c).code = (s.cpus c).ctx := by
    rw [toScheduler, Sys.setCpu_cpus_self]
  rcases held.head head with ⟨q, here, hand⟩ | ⟨dead, nothing, -⟩
  · obtain rfl : p = q := Option.some.inj (mine.symm.trans here)
    refine .inl fun k => ?_
    rw [same, code, owes k, ← hand k, ← law k]
    simp [Op.owes]
  · refine .inr ⟨?_, .inr ⟨dead, .proc p, after, code.trans back, fun locked => ?_⟩⟩
    · rw [toScheduler, Sys.setCpu_cpus_self]
      exact held.sched c (by rw [head]; rfl)
    · have zero := law (some (.proc p))
      have mine' : s.locks (.proc p) = some c := locked
      rw [nothing, holds, if_pos mine'] at zero
      simp [Op.owes] at zero

private theorem law_step (held : Held fatal s) (base : Base s) (placed : Placed s) {input : Input}
    (stays : current s (c, input) = true) (result : Step s (c, input) s') : Lawful s' c ∨ Lost fatal s' c := by
  cases result.stepped with
  | irq k on =>
    have law : ∀ k, owed k (s.cpus c).code = holds s c k := by
      rcases held.law c with law | ⟨off, -⟩
      · exact law
      · exact absurd on (by rw [off]; exact Bool.false_ne_true)
    refine .inl (lawful_of law rfl (by rw [Sys.setCpu_cpus_self]) fun l => ?_)
    have neutral : owed l (trapKernelHandler k) = 0 := by
      cases k <;> simp [trapKernelHandler, Op.owes]
    rw [Sys.setCpu_cpus_self, owed_append, neutral, zero_add]
  | acquire head free => exact .inl (law_acquire (held.lawful head (by simp) (by simp)) free)
  | recursive head mine =>
    exact .inr ⟨by rw [Sys.setCpu_cpus_self]; rfl, .inl ⟨_, by rw [Sys.setCpu_cpus_self]⟩⟩
  | @release _ l rest head mine off pushed =>
    refine .inl (law_release (fun k => ?_) mine pushed)
    rcases held.law c with law | ⟨-, ⟨_, stopped⟩ | ⟨-, _, _, stopped, lost⟩⟩
    · rw [← law k, head, owed_cons]
    · exact absurd (head.symm.trans stopped) (by simp)
    · obtain ⟨same, -⟩ := List.cons.inj (head.symm.trans stopped)
      cases same
      exact absurd mine lost
  | @stray _ l rest head wrong =>
    rcases held.law c with law | ⟨off, -⟩
    · refine .inl (lawful_of law rfl (by rw [Sys.setCode_eq, Sys.setCpu_cpus_self]) fun k => ?_)
      simp [Op.owes]
    · exact .inr ⟨by rw [Sys.setCode_eq, Sys.setCpu_cpus_self]; exact off,
        .inl ⟨_, by rw [Sys.setCode_eq, Sys.setCpu_cpus_self]⟩⟩
  | intrOn head =>
    exact .inl (law_done (held.lawful head (by simp) (by simp)) head (fun _ => rfl) rfl
      (by rw [Sys.setCpu_cpus_self]) (by rw [Sys.setCpu_cpus_self]))
  | intrOff head =>
    exact .inl (law_done (held.lawful head (by simp) (by simp)) head (fun _ => rfl) rfl
      (by rw [Sys.setCpu_cpus_self]) (by rw [Sys.setCpu_cpus_self]))
  | sret head =>
    exact .inl (law_done (held.lawful head (by simp) (by simp)) head (fun _ => rfl) rfl
      (by rw [Sys.setCpu_cpus_self]) (by rw [Sys.setCpu_cpus_self]))
  | sched head mine => exact held.law_sched head mine
  | @dispatch _ p rest head ready =>
    have law := held.lawful head (by simp) (by simp)
    have away := placed.absent base head rfl (by simp) (by simp) (.inl ready)
    have same : ∀ k, holds (toProcess s c p rest) c k = holds s c k :=
      holds_congr rfl (by rw [toProcess, Sys.setCpu_cpus_self])
    have code : ((toProcess s c p rest).cpus c).code = (s.procs p).ctx := by
      rw [toProcess, Sys.setCpu_cpus_self]
    refine .inl fun k => ?_
    rw [same, code, held.saved p away (.inl ready) k, ← (held.head head).1 k, ← law k]
    simp [Op.owes]
  | skip head unready =>
    exact .inl (law_done (held.lawful head (by simp) (by simp)) head (fun _ => rfl) rfl
      (by rw [Sys.setCode_eq, Sys.setCpu_cpus_self]) (by rw [Sys.setCode_eq, Sys.setCpu_cpus_self]))
  | call head follows =>
    have calls := next_plain follows
    have owned := own_of_current stays rfl head
    have law := held.lawful head (by rintro rfl; cases calls) (by rintro l rfl; cases calls)
    refine .inl (lawful_of (s := s) (fun k => by rw [head, owed_cons, law]) (by simp) (by simp) fun k => ?_)
    rw [Sys.setCode_eq, Sys.setCpu_cpus_self, head]
    simp [(expands follows owned).owed k]

private theorem quiet_step (held : Held fatal s) {input : Input}
    (result : Step s (c, input) s') (on : (s'.cpus c).intr = true) : (s'.cpus c).noff = 0 := by
  cases result.stepped with
  | irq k _ => simp at on
  | acquire head free => simp [CpuState.pushOff] at on
  | recursive head mine => simp [CpuState.pushOff] at on
  | release head mine off pushed =>
    rw [Sys.setCpu_cpus_self] at on ⊢
    simp only [Bool.and_eq_true, beq_iff_eq] at on
    simp [on.1]
  | @intrOn _ rest head =>
    have law := held.lawful head (by simp) (by simp) none
    have flat : owed none rest = 0 := held.head head none
    simp only [Op.owes, flat, holds] at law
    rw [Sys.setCpu_cpus_self]
    simpa using law.symm
  | intrOff head => simp at on
  | @sret _ rest head =>
    have law := held.lawful head (by simp) (by simp) none
    have flat : owed none rest = 0 := held.head head none
    simp only [Op.owes, flat, holds] at law
    rw [Sys.setCpu_cpus_self]
    simpa using law.symm
  | call head follows =>
    rw [Sys.setCode_eq, Sys.setCpu_cpus_self, write_cpus] at on ⊢
    exact held.quiet c on
  | _ =>
    simp only [Sys.setCode_eq, toScheduler, toProcess, Sys.setCpu_cpus_self] at on ⊢
    exact held.quiet c on

private theorem dark_step (held : Held fatal s) {input : Input} (stays : current s (c, input) = true)
    (result : Step s (c, input) s') (front : Sched.dark (s'.cpus c).code = true) : (s'.cpus c).base = false := by
  cases result.stepped with
  | irq k _ =>
    rw [Sys.setCpu_cpus_self] at front
    cases k <;> cases front
  | acquire head free =>
    rw [Sys.setCpu_cpus_self] at front ⊢
    have before := held.dark c (by rw [head]; exact front)
    rwa [← CpuState.pushOff_base] at before
  | recursive head mine =>
    rw [Sys.setCpu_cpus_self] at front ⊢
    have before := held.dark c front
    rwa [← CpuState.pushOff_base] at before
  | release head mine off pushed =>
    rw [Sys.setCpu_cpus_self] at front ⊢
    have before := held.dark c (by rw [head]; exact front)
    have nonzero : (s.cpus c).noff ≠ 0 := by omega
    rw [CpuState.base, if_neg nonzero] at before
    simp only [CpuState.base, before, Bool.and_false, ite_self]
  | stray head wrong =>
    rw [Sys.setCode_eq, Sys.setCpu_cpus_self] at front ⊢
    exact held.dark c front
  | intrOn head =>
    rw [Sys.setCpu_cpus_self, (held.pace head).1 rfl] at front
    cases front
  | @intrOff _ rest head =>
    have law := held.lawful head nofun nofun none
    have flat : owed none rest = 0 := held.head head none
    simp only [Op.owes, flat, holds] at law
    have zero : (s.cpus c).noff = 0 := by simpa using law.symm
    rw [Sys.setCpu_cpus_self, CpuState.base, if_pos zero]
  | sret head =>
    rw [Sys.setCpu_cpus_self, (held.pace head).1 rfl] at front
    cases front
  | sched head mine =>
    rw [toScheduler, Sys.setCpu_cpus_self, (held.ctx c).1] at front
    cases front
  | @dispatch _ p rest head ready =>
    rw [toProcess, Sys.setCpu_cpus_self, (held.entry p).1] at front
    cases front
  | skip head unready =>
    rw [Sys.setCode_eq, Sys.setCpu_cpus_self, (held.pace head).1 rfl] at front
    cases front
  | call head follows =>
    rw [Sys.setCode_eq, Sys.setCpu_cpus_self] at front
    have owned := own_of_current stays rfl head
    have before := held.dark c (by rw [head]; exact dark_expand (expands follows owned) (held.pace head) front)
    rw [Sys.setCode_eq, Sys.setCpu_cpus_self, write_cpus]
    exact before

/-- Interrupts are off at a fatal fault. -/
theorem fatal_off (held : Held fatal s) {rest : List Op}
    (head : (s.cpus c).code = .fatal :: rest) : (s.cpus c).intr = false := by
  have base := held.dark c (by rw [head]; rfl)
  have law := held.lawful head nofun nofun none
  have flat : owed none rest = 0 := (held.head head).1 none
  simp only [Op.owes, flat, holds] at law
  have zero : (s.cpus c).noff = 0 := by simpa using law.symm
  rwa [CpuState.base, if_pos zero] at base

private theorem sched_step (held : Held fatal s) (base : Base s) {input : Input}
    (stays : current s (c, input) = true) (result : Step s (c, input) s')
    (front : (s'.cpus c).code.head? = some .procSched) :
    (s'.cpus c).intr = false := by
  cases result.stepped with
  | irq k _ => rw [Sys.setCpu_cpus_self]
  | acquire head free => rw [Sys.setCpu_cpus_self]; rfl
  | recursive head mine => rw [Sys.setCpu_cpus_self]; rfl
  | release head mine off pushed =>
    rw [Sys.setCpu_cpus_self] at front
    cases (held.pace head).2 front
  | stray head wrong => simp at front
  | intrOn head =>
    rw [Sys.setCpu_cpus_self] at front
    cases (held.pace head).2 front
  | intrOff head => rw [Sys.setCpu_cpus_self]
  | sret head =>
    rw [Sys.setCpu_cpus_self] at front
    cases (held.pace head).2 front
  | sched head mine =>
    rw [toScheduler, Sys.setCpu_cpus_self] at front
    exact absurd front (held.ctx c).2
  | @dispatch _ p rest head ready =>
    rw [toProcess, Sys.setCpu_cpus_self] at front
    exact absurd front (held.entry p).2
  | skip head unready =>
    rw [Sys.setCode_eq, Sys.setCpu_cpus_self] at front
    cases (held.pace head).2 front
  | @call _ op rest body head follows =>
    rw [Sys.setCode_eq, Sys.setCpu_cpus_self] at front ⊢
    rw [write_cpus]
    have calls := next_plain follows
    have owned := own_of_current stays rfl head
    rcases body with _ | ⟨first, body⟩
    · have marks := (held.pace head).2 front
      cases op with
      | markRunnable p => exact (base.locked c p (by rw [head]; rfl)).1
      | markSleeping p chan => exact (base.locked c p (by rw [head]; rfl)).1
      | acquire => cases calls
      | panic => cases calls
      | _ => cases marks
    · obtain rfl : first = .procSched := Option.some.inj front
      obtain rfl := (expands follows owned).sched_head
      exact held.fatal_off head

private theorem ctx_step (held : Held fatal s) {input : Input} (result : Step s (c, input) s') :
    Sched.dark (s'.cpus c).ctx = false ∧ (s'.cpus c).ctx.head? ≠ some .procSched := by
  cases result.stepped with
  | dispatch head ready =>
    rw [toProcess, Sys.setCpu_cpus_self]
    exact ⟨(held.pace head).1 rfl, fun sched => by cases (held.pace head).2 sched⟩
  | call =>
    rw [Sys.setCode_eq, Sys.setCpu_cpus_self, write_cpus]
    exact held.ctx c
  | _ =>
    simp only [Sys.setCode_eq, toScheduler, Sys.setCpu_cpus_self]
    exact held.ctx c

private theorem back_step (held : Held fatal s) {input : Input} (result : Step s (c, input) s')
    (p : Proc) (here : s'.myproc c = some p) :
    Owes (.proc p) (s'.cpus c).ctx ∧ ∃ after, (s'.cpus c).ctx = .release (.proc p) :: after := by
  cases result.stepped with
  | sched head mine =>
    rw [Sys.myproc, toScheduler, Sys.setCpu_cpus_self] at here
    cases here
  | @dispatch _ q rest head ready =>
    rw [Sys.myproc, toProcess, Sys.setCpu_cpus_self] at here
    obtain rfl : q = p := Option.some.inj here
    rw [toProcess, Sys.setCpu_cpus_self]
    exact held.head head
  | call =>
    rw [Sys.myproc, Sys.setCode_eq, Sys.setCpu_cpus_self, write_cpus] at here
    rw [Sys.setCode_eq, Sys.setCpu_cpus_self, write_cpus]
    exact held.back c p here
  | _ =>
    simp only [Sys.myproc, Sys.setCode_eq, Sys.setCpu_cpus_self] at here ⊢
    exact held.back c p here

private theorem entry_step (held : Held fatal s) {input : Input} (result : Step s (c, input) s')
    (p : Proc) :
    Sched.dark (s'.procs p).ctx = false ∧ (s'.procs p).ctx.head? ≠ some .procSched := by
  cases result.stepped with
  | sched head mine =>
    rw [toScheduler, Sys.setCpu_procs, Sys.setProc_procs]
    split
    case isTrue => exact ⟨(held.pace head).1 rfl, fun sched => by cases (held.pace head).2 sched⟩
    case isFalse => exact held.entry p
  | dispatch head ready =>
    rw [toProcess, Sys.setCpu_procs, Sys.setProc_procs]
    split
    case isTrue => exact held.entry _
    case isFalse => exact held.entry p
  | call head follows =>
    rw [Sys.setCode_eq, Sys.setCpu_procs]
    have wrote := wrote follows
    generalize (write s c _).procs = procs at wrote
    cases wrote with
    | none => exact held.entry p
    | fork =>
      rw [Function.update_apply]
      split
      case isTrue => exact ⟨rfl, (by simp)⟩
      case isFalse => exact held.entry p
    | _ =>
      rw [Function.update_apply]
      split
      case isTrue => exact held.entry _
      case isFalse => exact held.entry p
  | _ => exact held.entry p

/-- What a process writes to the slots leaves the locks that a process away from its CPU is to be handed. -/
private theorem saved_call (held : Held fatal s) (base : Base s) {pick : Pick} {op : Op} {rest body : List Op}
    (head : (s.cpus c).code = op :: rest) (follows : next s c pick op = some body) (q : Proc)
    (gone : ∀ d, s.myproc d ≠ some q)
    (ready : ((write s c op).procs q).state = .runnable ∨ ((write s c op).procs q).state = .sleeping) :
    Owes (.proc q) ((write s c op).procs q).ctx := by
  have belongs := (base.head head).1.1
  have wrote := wrote follows
  generalize (write s c op).procs = slots at wrote ready ⊢
  have own : ∀ p slot, s.myproc c = some p → slots = Function.update s.procs p slot →
      slots q = s.procs q := by
    rintro p slot here rfl
    exact Function.update_of_ne (fun same : q = p => gone c (by rw [same]; exact here)) ..
  cases wrote with
  | none => exact held.saved q gone ready
  | fatal here =>
    rw [own _ _ here rfl] at ready ⊢
    exact held.saved q gone ready
  | markRunnable =>
    rw [own _ _ belongs rfl] at ready ⊢
    exact held.saved q gone ready
  | markSleeping =>
    rw [own _ _ belongs rfl] at ready ⊢
    exact held.saved q gone ready
  | clearSleep =>
    rw [own _ _ belongs rfl] at ready ⊢
    exact held.saved q gone ready
  | exitMark =>
    rw [own _ _ belongs rfl] at ready ⊢
    exact held.saved q gone ready
  | @wakeup chan p asleep =>
    rcases eq_or_ne q p with rfl | other
    · rw [Function.update_self]
      exact held.saved q gone (.inr asleep)
    · rw [Function.update_of_ne other] at ready ⊢
      exact held.saved q gone ready
  | @reparent p code i child =>
    rcases eq_or_ne q child with rfl | other
    · rw [Function.update_self] at ready ⊢
      exact held.saved q gone ready
    · rw [Function.update_of_ne other] at ready ⊢
      exact held.saved q gone ready
  | @freed child =>
    rcases eq_or_ne q child with rfl | other
    · rw [Function.update_self] at ready
      rcases ready with ready | ready <;> cases ready
    · rw [Function.update_of_ne other] at ready ⊢
      exact held.saved q gone ready
  | @fork p child =>
    rcases eq_or_ne q child with rfl | other
    · rw [Function.update_self]
      intro k
      simp [Op.owes]
    · rw [Function.update_of_ne other] at ready ⊢
      exact held.saved q gone ready

private theorem saved_step (held : Held fatal s) (base : Base s) (placed : Placed s) {input : Input}
    (result : Step s (c, input) s') (q : Proc) (away : ∀ d, s'.myproc d ≠ some q)
    (ready : s'.state q = .runnable ∨ s'.state q = .sleeping) :
    Owes (.proc q) (s'.procs q).ctx := by
  have elsewhere : (∀ p, s.myproc c = some p → p = q → s'.myproc c = some p) →
      ∀ d, s.myproc d ≠ some q := by
    intro still d here
    rcases eq_or_ne d c with rfl | other
    · exact away d (still q here rfl)
    · refine away d ?_
      rw [Sys.myproc, result.other other]
      exact here
  cases result.stepped with
  | @sched _ p rest head mine =>
    have status : (toScheduler s c p rest).state q = s.state q := by
      simp only [toScheduler, Sys.state, Sys.setCpu_procs, Sys.setProc_procs]
      split <;> simp_all
    rw [status] at ready
    rw [toScheduler, Sys.setCpu_procs, Sys.setProc_procs]
    split
    case isTrue same =>
      subst same
      obtain ⟨⟨after, code, -, resumes⟩, -⟩ := placed.leaving mine ready
      obtain rfl : rest = after := (List.cons.inj (head.symm.trans code)).2
      rcases held.head head with ⟨r, here, owes⟩ | ⟨-, -, back⟩
      · obtain rfl : q = r := Option.some.inj (mine.symm.trans here)
        exact owes
      · exact absurd back resumes
    case isFalse other =>
      refine held.saved q (elsewhere fun r here same => ?_) ready
      exact absurd (same ▸ Option.some.inj (here.symm.trans mine)) other
  | @dispatch _ p rest head ready' =>
    have here : (toProcess s c p rest).myproc c = some p := by simp [toProcess, Sys.myproc]
    have other : q ≠ p := by
      rintro rfl
      exact away c here
    have procs : (toProcess s c p rest).procs q = s.procs q := by
      simp [toProcess, Sys.setProc_procs, other]
    rw [Sys.state, procs] at ready
    rw [procs]
    have idle : s.myproc c = none := (base.head head).1.1
    exact held.saved q (elsewhere fun r mine _ => by cases idle.symm.trans mine) ready
  | call head follows =>
    exact held.saved_call base head follows q (elsewhere fun r here _ => by
      simpa [Sys.myproc] using here) ready
  | _ =>
    refine held.saved q (elsewhere fun r here _ => ?_) ready
    simpa [Sys.myproc, CpuState.pushOff] using here

/-- A step of all CPUs: nothing else about the others changes. -/
theorem step (held : Held fatal s) (base : Base s) (placed : Placed s) {a : Fin n × Input}
    (wakeful : ∀ pick op rest body, a.2 = .go pick → (s.cpus a.1).code = op :: rest →
      next s a.1 pick op = some body → Wakeful fatal op body rest)
    (stays : current s a = true) (result : Step s a s') : Held fatal s' := by
  obtain ⟨c, input⟩ := a
  have on : ∀ c, (s.cpus c).intr = true → Sched.dark (s.cpus c).code = false ∧
      (s.cpus c).code.head? ≠ some .procSched := by
    intro c on
    refine ⟨?_, fun sched => ?_⟩
    · rcases front : Sched.dark (s.cpus c).code with _ | _
      · rfl
      · have off := held.dark c front
        rw [CpuState.base, if_pos (held.quiet c on), on] at off
        cases off
    · rw [held.sched c sched] at on
      cases on
  exact
    { paced := paced_lasting.step held.paced (fun c p rest code => (base.head code).1.1) on
        (fun _ _ _ _ _ _ _ => trivial) stays result
      handed := (handed_lasting fatal).step held.handed (fun c p rest code => (base.head code).1.1)
        (fun c on => held.flat base on) wakeful stays result
      law := fun d => by
        rcases eq_or_ne d c with rfl | other
        · exact held.law_step base placed stays result
        · exact held.law_other result other
      quiet := fun d => by
        rcases eq_or_ne d c with rfl | other
        · exact held.quiet_step result
        · rw [result.other other]
          exact held.quiet d
      dark := fun d => by
        rcases eq_or_ne d c with rfl | other
        · exact held.dark_step stays result
        · rw [result.other other]
          exact held.dark d
      sched := fun d => by
        rcases eq_or_ne d c with rfl | other
        · exact held.sched_step base stays result
        · rw [result.other other]
          exact held.sched d
      ctx := fun d => by
        rcases eq_or_ne d c with rfl | other
        · exact held.ctx_step result
        · rw [result.other other]
          exact held.ctx d
      back := fun d => by
        rcases eq_or_ne d c with rfl | other
        · exact held.back_step result
        · rw [Sys.myproc, result.other other]
          exact held.back d
      entry := held.entry_step result
      saved := held.saved_step base placed result }

theorem boot : Held fatal (boot : Sys n) where
  paced := paced_lasting.boot
  handed := (handed_lasting fatal).boot
  law c := .inl fun k => by cases k <;> simp [Sched.boot, holds, Op.owes]
  quiet c on := by cases on
  dark c front := by cases front
  sched c front := by cases front
  ctx c := ⟨rfl, fun here => by cases here⟩
  back c p here := by cases here
  entry p := by
    rcases eq_or_ne p initProcess with rfl | other
    · exact ⟨rfl, fun here => by cases here⟩
    · simp [Sched.boot, other, Sched.dark]
  saved p _ ready := by
    rcases eq_or_ne p initProcess with rfl | other
    · intro k
      simp [Sched.boot, Op.owes]
    · simp [Sys.state, Sched.boot, other] at ready

end Held

/-! ## Calls of `proc_sched` -/

/-- The step makes its thread wait for a sleeplock or a device. -/
def sleeps (s : Sys n) (a : Fin n × Input) : Bool :=
  match (s.cpus a.1).code, a.2 with
  | .sleeplockLoop k :: _, .go _ => (s.slks k).isSome
  | .device _ _ :: _, .go (.block _) => true
  | _, _ => false

/-- The step kills a process because of a user fault. -/
def faults (s : Sys n) (a : Fin n × Input) : Bool :=
  match (s.cpus a.1).code with
  | .fatal :: _ => true
  | _ => false

/-- The step makes its thread sleep inside `proc_free`. -/
def sleepsFreeing (s : Sys n) (a : Fin n × Input) : Bool :=
  sleeps s a && freeing (s.cpus a.1).code

/-- Processes keep apart from `proc_wait` while they die and get themselves from `myproc()`, no user fault kills
a process, and `proc_free` does not sleep. -/
def orderly (s : Sys n) (a : Fin n × Input) : Bool :=
  timely s a && !faults s a && !sleepsFreeing s a

/-- A step that does not sleep inside `proc_free` expands code in the admitted way. -/
theorem wakeful_of {fatal : Prop} {s : Sys n} {a : Fin n × Input}
    (killed : faults s a = true → fatal) (awake : sleepsFreeing s a = false) (pick : Pick) (op : Op)
    (rest body : List Op) (input : a.2 = .go pick) (head : (s.cpus a.1).code = op :: rest)
    (follows : next s a.1 pick op = some body) : Wakeful fatal op body rest := by
  refine ⟨?_, fun waits sched => ?_⟩
  · rintro rfl
    exact killed (by rw [faults, head])
  · rcases under_way : freeing rest with _ | _
    · rfl
    · have asleep : sleeps s a = false := by
        simpa [sleepsFreeing, head, under_way] using awake
      cases op with
      | device d sleeps =>
        cases pick with
        | block event => simp [Sched.sleeps, head, input] at asleep
        | done => cases follows; cases sched
        | leaf k => cases follows; simp at sched
        | wake event => cases follows; simp at sched
        | _ => cases follows
      | sleeplockLoop k =>
        obtain ⟨p, here, rfl⟩ := Option.map_eq_some_iff.mp follows
        rcases taken : s.slks k with _ | pid
        · simp [taken] at sched
        · simp [Sched.sleeps, head, input, taken] at asleep
      | _ => cases waits

/-- How CPUs are handed over. -/
structure HandedOver (s : Sys n) : Prop where
  /-- A thread that calls `proc_sched` holds its own lock and no other, and is not running. -/
  sched : ∀ c rest, (s.cpus c).code = .procSched :: rest → ∃ p, s.myproc c = some p ∧
    (∀ l, s.locks l = some c ↔ l = .proc p) ∧ (s.cpus c).noff = 1 ∧ s.state p ≠ .running
  /-- The lock that `proc_scheduler` releases is held. -/
  release : ∀ c p i rest, (s.cpus c).code = .release (.proc p) :: .procScheduler i :: rest →
    s.locks (.proc p) = some c ∧ (s.cpus c).intr = false ∧ (s.cpus c).noff = 1

private theorem Held.handedOver {s : Sys n} (held : Held False s) (placed : Placed s) :
    HandedOver s where
  sched c rest head := by
    have law := held.lawful head nofun nofun
    rcases held.head head with ⟨p, here, owes⟩ | ⟨no, -⟩
    · refine ⟨p, here, fun l => ?_, ?_, fun running => ?_⟩
      · have count := law (some l)
        rw [owes, counts_some, holds] at count
        simp only [Op.owes, zero_add] at count
        rcases eq_or_ne l (.proc p) with rfl | other
        · simpa using count
        · simpa [other] using count
      · have count := law none
        rw [owes, counts_none, holds] at count
        simp only [Op.owes, zero_add] at count
        exact_mod_cast count.symm
      · have fits := placed.fits c p here
        rw [running] at fits
        exact fits.head (by rw [head]; rfl)
    · exact no.elim
  release c p i rest head := by
    have law : ∀ k, owed k (s.cpus c).code = holds s c k := by
      rcases held.law c with law | ⟨-, ⟨_, stopped⟩ | ⟨no, -⟩⟩
      · exact law
      · exact absurd (head.symm.trans stopped) nofun
      · exact no.elim
    have typed := held.handed.running c
    rw [head] at typed
    have flat : ∀ k, owed k rest = 0 := typed.2.1
    have locked := law (some (.proc p))
    have pushed := law none
    simp only [head, owed_cons, Op.owes, flat, counts_some, counts_none, holds] at locked pushed
    have one : (s.cpus c).noff = 1 := by
      have : ((s.cpus c).noff : ℤ) = 1 := by simpa using pushed.symm
      exact_mod_cast this
    refine ⟨by simpa using locked, ?_, one⟩
    rcases on : (s.cpus c).intr with _ | _
    · rfl
    · rw [held.quiet c on] at one
      cases one

private theorem run_held {inputs : List (Fin n × Input)} {s : Sys n}
    (run : Run (Guarded (fun s a => orderly s a = true) Step) boot inputs s) : Settled s ∧ Held False s := by
  refine run.invariant (P := fun s => Settled s ∧ Held False s) ?_ ⟨.boot, .boot⟩
  rintro s a s' ⟨order, step⟩ ⟨settled, held⟩
  simp only [orderly, Bool.and_eq_true, Bool.not_eq_true'] at order
  obtain ⟨⟨fits, unhurt⟩, awake⟩ := order
  have stays : current s a = true := ((Bool.and_eq_true ..).mp fits).2
  have killed : faults s a = true → False := fun killed => by rw [unhurt] at killed; cases killed
  exact ⟨settled.step fits step, held.step settled.base settled.placed (wakeful_of killed awake) stays step⟩

/-- Every hand-over of a CPU is made with the process's own lock alone, and its scheduler finds that
lock held. -/
theorem cpus_handedOver {inputs : List (Fin n × Input)} {s : Sys n}
    (run : Run (Guarded (fun s a => orderly s a = true) Step) boot inputs s) : HandedOver s :=
  (run_held run).2.handedOver (run_held run).1.placed

/-- The first process gives up CPU 0 in a timer interrupt. -/
theorem cpus_handedOver_yield : ∃ s : Sys nCpu,
    HandedOver s ∧ s.myproc 0 = none ∧ (s.cpus 0).code.head? = some (.release (.proc 0)) := by
  obtain ⟨s, run, found⟩ := Run.exists_guarded orderly (fun (s : Sys nCpu) a => step s a.1 a.2)
    boot (goOn 0 10 ++ choose 0 (.interrupt .timer) ++ goOn 0 134)
    (fun s => s.myproc 0 == none && (s.cpus 0).code.head? == some (.release (.proc 0)))
    (by decide +kernel)
  exact ⟨s, cpus_handedOver run, by simpa using found⟩

/-- A fatal page fault of the first process reaches `proc_sched` with no lock held. -/
theorem cpus_lost : ¬ ∀ inputs (s : Sys nCpu), Run Step boot inputs s → HandedOver s := by
  intro all
  obtain ⟨s, run, found⟩ := Run.exists_of_test (fun (s : Sys nCpu) a => step s a.1 a.2) boot
    (goOn 0 10 ++ choose 0 .fatal ++ goOn 0 2)
    (fun s => (s.cpus 0).noff == 0 && (s.cpus 0).code == [.procSched, .trapUserReturn])
    (by decide +kernel)
  have both : (s.cpus 0).noff = 0 ∧ (s.cpus 0).code = [.procSched, .trapUserReturn] := by
    simpa using found
  obtain ⟨p, -, -, one, -⟩ := (all _ s run).sched 0 _ both.2
  cases both.1.symm.trans one

end LabKernel.Sched
