import LabKernel.Proc.Threads

/-! # Parents that wait

`proc_wait` searches the children and goes to sleep in one section of `lifecycle_lock`, and
`proc_exit` makes its process a zombie and wakes the parent in another. So no parent sleeps over a
dead child while that lock is free, unless a user fault has killed the child outside any section
after its parent had passed it, or `myproc()` has given a thread another's process.
-/

namespace LabKernel.Sched

variable {n : ℕ}

/-! ## Sections of `lifecycle_lock` -/

/-- The operations that a section performs between those of `Op.seen`. -/
def Op.inner : Op → Bool
  | .acquire (.proc _) | .release (.proc _) | .panic | .procWakeup _ _ | .wakeupCheck _ _
  | .exitCheck _ | .returned _ _ => true
  | _ => false

/-- The process that a section belongs to and the number of slots that it has seen without a dead
child; `proc_exit` looks for none. -/
def Op.seen : Op → Option (Proc × ℕ)
  | .exitChildren p _ _ | .exitMark p _ => some (p, 0)
  | .waitChildren p i _ => some (p, i)
  | .waitCheck p child => some (p, child)
  | _ => none

/-- The process that is marked as sleeping, with all slots seen. -/
def Op.sleeper : Op → Option (Proc × ℕ)
  | .markSleeping p _ => some (p, nProc)
  | _ => none

/-- What the section has seen that the code goes on with. -/
def seen : List Op → Option (Proc × ℕ)
  | [] => none
  | op :: rest =>
    if op.inner then seen rest
    else if op = .release .lifecycle then rest.head?.bind Op.sleeper
    else op.seen

/-- Code inside a section starts where the lock has been taken, and `proc_wait` marks its process
where it releases the lock. -/
def Enters (op : Op) (rest : List Op) : Prop :=
  (∀ p i, seen rest = some (p, i) → op.inner = true ∨ op = .acquire .lifecycle ∧ i = 0) ∧
    ∀ p, rest.head? = some (.markSleeping p (.proc p)) → op = .panic ∨ op = .release .lifecycle

@[simp] theorem seen_nil : seen [] = none := rfl

@[simp] theorem seen_cons {op : Op} {rest : List Op} : seen (op :: rest) =
    if op.inner then seen rest
    else if op = .release .lifecycle then rest.head?.bind Op.sleeper
    else op.seen := rfl

private theorem seen_inner {op : Op} {rest : List Op} (inner : op.inner = true) :
    seen (op :: rest) = seen rest := if_pos inner

private theorem Enters.free {op : Op} {rest : List Op} (enters : Enters op rest)
    (outer : op.inner = false) (other : op ≠ .acquire .lifecycle) : seen rest = none := by
  rcases under_way : seen rest with _ | ⟨p, i⟩
  · rfl
  · rcases enters.1 p i under_way with inner | ⟨entry, -⟩
    · rw [outer] at inner
      cases inner
    · exact absurd entry other

private theorem under_of_marks {code : List Op} {p : Proc} {chan : Chan}
    (marks : code.head? = some (.markSleeping p chan)) : under code = some p := by
  obtain ⟨rest, rfl⟩ := List.head?_eq_some_iff.mp marks
  rfl

/-- The process that leaves its children. -/
def Op.exits : Op → Option Proc
  | .exitChildren p _ _ => some p
  | _ => none

private theorem enters_lasting :
    Lasting (fun _ op rest => Enters op rest) (fun _ _ _ => True)
      fun code => seen code = none ∧ under code = none where
  expand {w op body rest} e _ here after := by
    cases e
    case nil => exact after
    all_goals
      simp_all [Enters, Op.inner, Op.seen, Op.sleeper, procSleep, sleeplockAcquire,
        sleeplockRelease, sleeplockHolding, driver, procExit, procWait,
        timerUpdate, yield]
  irq := by
    intro w k code quiet typed
    have calm : ∀ p, code.head? ≠ some (.markSleeping p (.proc p)) := fun p marks => by
      rw [under_of_marks marks] at quiet
      cases quiet.2
    cases k <;> simp_all [Enters, Op.inner, Op.seen, trapKernelHandler]
  panic := ⟨fun _ _ _ => .inl rfl, fun _ _ => .inl rfl⟩
  entry := by simp [Enters]
  start := by simp [Enters, Op.inner, Op.seen]

private theorem exits_lasting :
    Lasting (fun _ op _ => op.exits ≠ some initProcess) (fun _ _ _ => True) fun _ => True where
  expand {w op body rest} e _ here after := by
    cases e <;>
      simp_all [Op.exits, procSleep, sleeplockAcquire, sleeplockRelease, sleeplockHolding,
        driver, procExit, procWait, timerUpdate, yield]
  irq := by
    intro w k code _ typed
    cases k <;> simp_all [Op.exits, trapKernelHandler]
  panic := by simp [Op.exits]
  entry := by simp [Op.exits]
  start := by simp [Op.exits]

/-- Outside a section, what replaces an operation is outside. -/
theorem next_seen {s : Sys n} {c : Fin n} {pick : Pick} {op : Op} {rest body : List Op}
    (follows : next s c pick op = some body) (own : Own s c op) (enters : Enters op rest)
    (outer : op.inner = false) (unseen : op.seen = none) : seen (body ++ rest) = none := by
  have plain := next_plain follows
  have free : seen rest = none := enters.free outer (by
    rintro rfl
    cases plain)
  have e := expands follows own
  clear follows
  cases e <;>
    simp_all [Op.inner, Op.seen, procSleep, sleeplockAcquire, sleeplockRelease, sleeplockHolding,
      driver, procExit, procWait, timerUpdate, yield]

/-! ## Parents and dead children -/

/-- A process sleeps in `proc_wait`. -/
def Asleep (s : Sys n) (q : Proc) : Prop :=
  s.state q = .sleeping ∧ (s.procs q).sleepSpace = some (.proc q)

/-- A process sleeps in `proc_wait` or is about to mark itself so. -/
def Waiting (s : Sys n) (q : Proc) : Prop :=
  Asleep s q ∨ ∃ c, (s.cpus c).code.head? = some (.markSleeping q (.proc q))

/-- A process is dead and has not been freed by its parent. -/
def DeadChild (s : Sys n) (q k : Proc) : Prop :=
  (s.procs k).parent = some q ∧ s.state k = .zombie

instance (s : Sys n) (q : Proc) : Decidable (Waiting s q) :=
  inferInstanceAs (Decidable ((_ ∧ _) ∨ _))

private theorem Waiting.locked {s : Sys n} {q : Proc} (waiting : Waiting s q) (base : Base s) :
    Asleep s q ∨ ∃ c, (s.cpus c).code.head? = some (.markSleeping q (.proc q)) ∧
      s.locks (.proc q) = some c :=
  waiting.imp_right fun ⟨c, marks⟩ => ⟨c, marks, (base.locked c q (under_of_marks marks)).2⟩

/-- How a process can become a dead child of another. -/
def Dies (s : Sys n) (c : Fin n) (q k : Proc) (op : Op) : Prop :=
  (op = .fatal ∧ s.myproc c = some k ∨ ∃ code, op = .exitMark k code) ∧
      (s.procs k).parent = some q ∨
    q = initProcess ∧ ∃ p code, op = .exitChildren p code k ∧ (s.procs k).parent = some p

private theorem Wrote.deadChild {s : Sys n} {c : Fin n} {op : Op} {procs : Proc → Slot}
    (wrote : Wrote s c op procs) {q k : Proc} (parent : (procs k).parent = some q)
    (zombie : (procs k).state = .zombie) : DeadChild s q k ∨ Dies s c q k op := by
  cases wrote with
  | none => exact .inl ⟨parent, zombie⟩
  | @fatal p mine =>
    rw [Function.update_apply] at parent zombie
    split at parent
    case isTrue same => exact .inr (.inl ⟨.inl ⟨rfl, same ▸ mine⟩, same ▸ parent⟩)
    case isFalse other => exact .inl ⟨parent, by rwa [if_neg other] at zombie⟩
  | @exitMark p code =>
    rw [Function.update_apply] at parent zombie
    split at parent
    case isTrue same => exact .inr (.inl ⟨.inr ⟨code, by rw [same]⟩, same ▸ parent⟩)
    case isFalse other => exact .inl ⟨parent, by rwa [if_neg other] at zombie⟩
  | @reparent p code i child h here child_of =>
    rw [Function.update_apply] at parent zombie
    split at parent
    case isTrue same =>
      subst same here
      exact .inr (.inr ⟨(Option.some.inj parent).symm, p, code, rfl, child_of⟩)
    case isFalse other => exact .inl ⟨parent, by rwa [if_neg other] at zombie⟩
  | _ =>
    rw [Function.update_apply] at parent zombie
    split at parent
    case isTrue same =>
      rw [if_pos same] at zombie
      first
      | cases zombie
      | exact .inl ⟨same ▸ parent, same ▸ zombie⟩
    case isFalse other => exact .inl ⟨parent, by rwa [if_neg other] at zombie⟩

private theorem Wrote.asleep {s : Sys n} {c : Fin n} {op : Op} {procs : Proc → Slot}
    (wrote : Wrote s c op procs) {q : Proc} (state : (procs q).state = .sleeping)
    (chan : (procs q).sleepSpace = some (.proc q)) :
    Asleep s q ∨ op = .markSleeping q (.proc q) := by
  cases wrote with
  | none => exact .inl ⟨state, chan⟩
  | @markSleeping p there =>
    rw [Function.update_apply] at state chan
    split at chan
    case isTrue same => exact .inr (by rw [same, Option.some.inj chan, same])
    case isFalse other => exact .inl ⟨by rwa [if_neg other] at state, chan⟩
  | _ =>
    rw [Function.update_apply] at state chan
    split at chan
    case isTrue same =>
      rw [if_pos same] at state
      first
      | cases state
      | cases chan
      | exact .inl ⟨same ▸ state, same ▸ chan⟩
    case isFalse other => exact .inl ⟨by rwa [if_neg other] at state, chan⟩

/-- How an operation of a thread is followed. -/
def Follows (_ : Option Proc) (op : Op) (rest : List Op) : Prop :=
  Enters op rest ∧ op.exits ≠ some initProcess

private theorem follows_lasting : Lasting Follows (fun _ _ _ => True)
    fun code => (seen code = none ∧ under code = none) ∧ True :=
  enters_lasting.and exits_lasting

section

variable {s s' : Sys n} {c : Fin n} {input : Input} {q k : Proc}

private theorem Step.deadChild (result : Step s (c, input) s') (dead : DeadChild s' q k) :
    DeadChild s q k ∨ ∃ pick op rest body, (s.cpus c).code = op :: rest ∧
      next s c pick op = some body ∧ s' = (write s c op).setCode c (body ++ rest) ∧
      Dies s c q k op := by
  rcases result.table with same | ⟨pick, op, rest, body, head, follows, rfl⟩
  · obtain ⟨parent, -, state⟩ := same k
    rw [DeadChild, parent] at dead
    rcases state with state | state <;> rw [state] at dead
    · exact .inl dead
    · cases dead.2
  · rcases (wrote follows).deadChild dead.1 dead.2 with before | dies
    · exact .inl before
    · exact .inr ⟨pick, op, rest, body, head, follows, rfl, dies⟩

private theorem Step.asleep (result : Step s (c, input) s') (asleep : Asleep s' q) : Waiting s q := by
  rcases result.table with same | ⟨pick, op, rest, body, head, follows, rfl⟩
  · obtain ⟨-, chan, state⟩ := same q
    rw [Asleep, chan] at asleep
    rcases state with state | state <;> rw [state] at asleep
    · exact .inl asleep
    · cases asleep.1
  · rcases (wrote follows).asleep asleep.1 asleep.2 with before | rfl
    · exact .inl before
    · exact .inr ⟨c, by rw [head, List.head?_cons]⟩

/-- A process is about to sleep in `proc_wait` only after it has released `lifecycle_lock`. -/
theorem Step.waiting (result : Step s (c, input) s') (stays : current s (c, input) = true)
    (base : Base s) (typed : Contexts Follows s) (waiting : Waiting s' q) : Waiting s q ∨ s.locks .lifecycle = some c ∧
      ∃ rest, (s.cpus c).code = .release .lifecycle :: .markSleeping q (.proc q) :: rest ∧
        s'.procs = s.procs := by
  rcases waiting with asleep | ⟨d, marks⟩
  · exact .inl (result.asleep asleep)
  · rcases eq_or_ne d c with rfl | other
    case inr => exact .inl (.inr ⟨d, by rwa [result.other other] at marks⟩)
    have locked := under_of_marks marks
    have enters : ∀ op rest, (s.cpus d).code = op :: rest → Follows (s.myproc d) op rest :=
      fun op rest head => (head ▸ typed.running d).1
    cases result.stepped with
    | irq k on => cases k <;> simp [trapKernelHandler] at marks
    | acquire head free =>
      rw [Sys.setCpu_cpus_self] at marks
      rcases (enters _ _ head).1.2 q marks with h | h <;> cases h
    | recursive head held => simp at marks
    | @release _ l rest head held =>
      rw [Sys.setCpu_cpus_self] at marks
      rcases (enters _ _ head).1.2 q marks with h | h
      · cases h
      · obtain rfl : l = .lifecycle := by simpa using h
        obtain ⟨after, rfl⟩ := List.head?_eq_some_iff.mp marks
        exact .inr ⟨held, after, head, rfl⟩
    | stray head wrong => simp at marks
    | sched head mine =>
      rw [toScheduler, Sys.setCpu_cpus_self, base.ctx] at locked
      cases locked
    | @dispatch _ p rest head ready =>
      rw [toProcess, Sys.setCpu_cpus_self, base.saved p] at locked
      cases locked
    | call head follows =>
      have own : Own s d _ := own_of_current stays rfl head
      rw [Sys.setCode_eq, Sys.setCpu_cpus_self, next_under follows own (base.head head).2.2] at locked
      cases locked
    | intrOn head =>
      rw [Sys.setCpu_cpus_self, (base.head head).2.2.free rfl] at locked
      cases locked
    | intrOff head =>
      rw [Sys.setCpu_cpus_self, (base.head head).2.2.free rfl] at locked
      cases locked
    | sret head =>
      rw [Sys.setCpu_cpus_self, (base.head head).2.2.free rfl] at locked
      cases locked
    | skip head unready =>
      rw [Sys.setCode_eq, Sys.setCpu_cpus_self, (base.head head).2.2.free rfl] at locked
      cases locked

end

/-! ## Pending wakeups -/

/-- Code that tests a process for a wakeup before its section ends, because of a child that it has
left dead. -/
inductive Wakes (w : Option Proc) (q k : Proc) : List Op → Prop
  | panic {rest} : Wakes w q k (.panic :: rest)
  | exitWakeup {rest} : Wakes w q k (.exitWakeup k :: rest)
  | procWakeup {i : ℕ} {rest} (before : i ≤ q.val) :
      Wakes w q k (.procWakeup (some (.proc q)) i :: rest)
  | locking {j : Proc} {rest} (before : j.val ≤ q.val) (other : w ≠ some j) :
      Wakes w q k (.acquire (.proc j) :: .wakeupCheck (some (.proc q)) j :: .release (.proc j) ::
        .procWakeup (some (.proc q)) (j + 1) :: rest)
  | check {j : Proc} {rest} (before : j.val ≤ q.val) (other : w ≠ some j) :
      Wakes w q k (.wakeupCheck (some (.proc q)) j :: .release (.proc j) ::
        .procWakeup (some (.proc q)) (j + 1) :: rest)
  | unlocking {j : Proc} {rest} (before : j.val < q.val) (other : w ≠ some j) :
      Wakes w q k (.release (.proc j) :: .procWakeup (some (.proc q)) (j + 1) :: rest)
  | orphan {rest} (first : q = initProcess) :
      Wakes w q k (.acquire (.proc k) :: .exitCheck k :: rest)
  | orphanCheck {rest} (first : q = initProcess) : Wakes w q k (.exitCheck k :: rest)

/-- A CPU is about to wake a process because of a dead child: the child itself or a process that
has left the child to the first one. -/
structure Pending (s : Sys n) (c : Fin n) (q k : Proc) : Prop where
  held : s.locks .lifecycle = some c
  off : (s.cpus c).intr = false
  wakes : Wakes (s.myproc c) q k (s.cpus c).code
  other : s.myproc c = some k ∧ s.locks (.proc k) = some c ∨
    q = initProcess ∧ s.myproc c ≠ some initProcess

namespace Pending

variable {s s' : Sys n} {c d : Fin n} {input : Input} {q k : Proc}

private theorem elsewhere (pending : Pending s d q k) (result : Step s (c, input) s') (other : d ≠ c) :
    Pending s' d q k := by
  have cpu := result.other other
  refine ⟨(result.locks_other other _).mpr pending.held, ?_, ?_, ?_⟩
  · rw [cpu]
    exact pending.off
  · rw [Sys.myproc, cpu]
    exact pending.wakes
  · rw [Sys.myproc, cpu, result.locks_other other]
    exact pending.other

/-- The process to be woken is not the one that wakes it. -/
theorem notSelf (pending : Pending s c q k) (base : Base s) (waiting : Waiting s q)
    (dead : DeadChild s q k) (unmarked : (s.cpus c).code.head? ≠ some (.markSleeping q (.proc q))) :
    s.myproc c ≠ some q := by
  intro here
  rcases pending.other with ⟨mine, locked⟩ | ⟨rfl, other⟩
  · obtain rfl : k = q := Option.some.inj (mine.symm.trans here)
    rcases waiting.locked base with asleep | ⟨d, marks, there⟩
    · cases asleep.1.symm.trans dead.2
    · obtain rfl : c = d := Option.some.inj (locked.symm.trans there)
      exact unmarked marks
  · exact other here

/-- After its test for a wakeup, a process no longer waits. -/
theorem woken (base : Base s) {op : Op} {rest : List Op}
    (head : (s.cpus c).code = .wakeupCheck (some (.proc q)) q :: op :: rest)
    (unmarked : op ≠ .markSleeping q (.proc q)) :
    ¬ Waiting ((write s c (.wakeupCheck (some (.proc q)) q)).setCode c (op :: rest)) q := by
  have here := (base.locked c q (by rw [head]; rfl)).2
  rintro (asleep | ⟨d, marks⟩)
  · rw [Asleep, Sys.state, Sys.setCode_eq, Sys.setCpu_procs, write] at asleep
    split at asleep
    case isTrue => simp [Sys.setProc_procs] at asleep
    case isFalse awake => exact awake asleep
  · rw [Sys.setCode_eq, Sys.setCpu_cpus, write_cpus] at marks
    split at marks
    case isTrue => exact unmarked (Option.some.inj marks)
    case isFalse other =>
      have there := (base.locked d q (under_of_marks marks)).2
      exact other (Option.some.inj (there.symm.trans here))

/-- The walk of `proc_wakeup` comes to the process that is to be woken and does not pass it. -/
private theorem wakes_call (pending : Pending s c q k) (base : Base s) (waiting : Waiting s q)
    (dead : DeadChild s q k) {pick : Pick} {op : Op} {rest body : List Op}
    (head : (s.cpus c).code = op :: rest) (follows : next s c pick op = some body)
    (still : Waiting ((write s c op).setCode c (body ++ rest)) q) :
    Wakes (s.myproc c) q k (body ++ rest) := by
  have self := pending.notSelf base waiting dead
  have wakes := pending.wakes
  rw [head] at wakes self
  cases wakes with
  | panic => cases follows
  | exitWakeup =>
    rw [next, dead.1] at follows
    cases follows
    exact .procWakeup (Nat.zero_le _)
  | @procWakeup i _ before =>
    have bound : i < nProc := before.trans_lt q.isLt
    rw [next, dif_pos bound] at follows
    split at follows
    case isTrue mine =>
      cases follows
      refine .procWakeup (Nat.lt_of_le_of_ne before ?_)
      rintro rfl
      exact self (by simp) mine
    case isFalse different =>
      cases follows
      exact .locking before different
  | @check j after before different =>
    cases follows
    refine .unlocking (Nat.lt_of_le_of_ne before ?_) different
    intro same
    obtain rfl : j = q := Fin.ext same
    exact woken base head (by simp) still
  | orphanCheck first =>
    rw [next, if_pos dead.2] at follows
    cases follows
    rw [first]
    exact .procWakeup (Nat.zero_le _)
  | locking => cases follows
  | unlocking => cases follows
  | orphan => cases follows

private theorem step (pending : Pending s c q k) (base : Base s) (waiting : Waiting s q)
    (dead : DeadChild s q k) (result : Step s (c, input) s') (still : Waiting s' q) :
    Pending s' c q k := by
  obtain ⟨held, off, wakes, other⟩ := id pending
  cases result.stepped with
  | irq kind on =>
    rw [off] at on
    cases on
  | @acquire _ l rest head free =>
    have apart : Lock.lifecycle ≠ l := by
      rintro rfl
      rw [held] at free
      cases free
    refine ⟨?_, by rw [Sys.setCpu_cpus_self]; rfl, ?_, ?_⟩
    · simpa [Function.update_of_ne apart] using held
    · rw [Sys.myproc, Sys.setCpu_cpus_self]
      rw [head] at wakes
      cases wakes with
      | locking before different => exact .check before different
      | orphan first => exact .orphanCheck first
    · rw [Sys.myproc, Sys.setCpu_cpus_self]
      refine other.imp_left fun result => ?_
      obtain ⟨mine, locked⟩ := result
      refine ⟨mine, ?_⟩
      rw [Sys.setCpu_locks, Sys.setLock_locks, Function.update_apply]
      split
      case isTrue => rfl
      case isFalse => exact locked
  | recursive head mine =>
    refine ⟨held, by rw [Sys.setCpu_cpus_self]; rfl, ?_, ?_⟩
    · rw [Sys.setCpu_cpus_self]
      exact .panic
    · rw [Sys.myproc, Sys.setCpu_cpus_self]
      exact other
  | @release _ l rest head mine =>
    rw [head] at wakes
    cases wakes with
    | @unlocking j after before different =>
      have deep : 2 ≤ (s.cpus c).noff := base.two_le_noff (by simp) held mine
      have several : ((s.cpus c).noff == 1) = false := by
        rw [beq_eq_false_iff_ne]
        omega
      refine ⟨by simpa using held, ?_, ?_, ?_⟩
      · rw [Sys.setCpu_cpus_self, several, Bool.false_and]
      · rw [Sys.setCpu_cpus_self]
        exact .procWakeup before
      · rw [Sys.myproc, Sys.setCpu_cpus_self]
        refine other.imp_left fun result => ?_
        obtain ⟨here, locked⟩ := result
        refine ⟨here, ?_⟩
        have apart : Lock.proc k ≠ .proc j := by
          rintro ⟨⟩
          exact different here
        simpa [Function.update_of_ne apart] using locked
  | stray head wrong =>
    refine ⟨held, ?_, ?_, ?_⟩
    · rw [Sys.setCode_eq, Sys.setCpu_cpus_self]
      exact off
    · rw [Sys.setCode_eq, Sys.setCpu_cpus_self]
      exact .panic
    · rw [Sys.myproc, Sys.setCode_eq, Sys.setCpu_cpus_self]
      exact other
  | call head follows =>
    refine ⟨by simpa using held, by simpa using off, ?_, by simpa [Sys.myproc] using other⟩
    rw [Sys.myproc, Sys.setCode_eq, Sys.setCpu_cpus_self, write_cpus]
    exact pending.wakes_call base waiting dead head follows still
  | sched head mine => rw [head] at wakes; cases wakes
  | dispatch head ready => rw [head] at wakes; cases wakes
  | skip head unready => rw [head] at wakes; cases wakes
  | intrOn head => rw [head] at wakes; cases wakes
  | intrOff head => rw [head] at wakes; cases wakes
  | sret head => rw [head] at wakes; cases wakes

end Pending

/-! ## Runs -/

/-- No user fault kills a process whose parent sleeps in `proc_wait` or has passed it there. -/
def heard (s : Sys n) (a : Fin n × Input) : Bool :=
  match (s.cpus a.1).code, s.myproc a.1 with
  | .fatal :: _, some k => (s.procs k).parent.all fun q =>
      !decide (Waiting s q) &&
        decide (∀ d, (seen (s.cpus d).code).all fun (p, i) => p != q || decide (i ≤ k.val))
  | _, _ => true

private theorem heard_spec {s : Sys n} {c : Fin n} {input : Input} (hears : heard s (c, input) = true)
    {k q : Proc} {rest : List Op} (head : (s.cpus c).code = .fatal :: rest)
    (mine : s.myproc c = some k) (parent : (s.procs k).parent = some q) :
    ¬ Waiting s q ∧ ∀ d i, seen (s.cpus d).code = some (q, i) → i ≤ k := by
  simp only [heard, head, mine, parent, Option.all_some, Bool.and_eq_true, Bool.not_eq_true',
    decide_eq_false_iff_not, decide_eq_true_eq] at hears
  refine ⟨hears.1, fun d i under_way => ?_⟩
  have passed := hears.2 d
  rw [under_way] at passed
  simpa using passed

/-- Sections hold their lock and have seen no dead child, and whoever waits for a child that is dead
is about to be woken. -/
structure Watched (s : Sys n) : Prop where
  follows : Contexts Follows s
  ctx : ∀ c, seen (s.cpus c).ctx = none
  saved : ∀ p, seen (s.procs p).ctx = none
  sections : ∀ c p i, seen (s.cpus c).code = some (p, i) → s.locks .lifecycle = some c ∧
    (s.cpus c).intr = false ∧ ∀ k : Proc, k.val < i → ¬ DeadChild s p k
  woken : ∀ q k, Waiting s q → DeadChild s q k → ∃ c, Pending s c q k

private theorem seen_append {body rest : List Op} (inner : ∀ op ∈ body, op.inner = true) :
    seen (body ++ rest) = seen rest := by
  induction body with
  | nil => rfl
  | cons op body ih =>
    obtain ⟨first, others⟩ := List.forall_mem_cons.mp inner
    rw [List.cons_append, seen_inner first]
    exact ih others

private theorem Expands.inner {w : Option Proc} {op : Op} {body : List Op} (e : Expands w op body)
    (inner : op.inner = true) : ∀ o ∈ body, o.inner = true := by
  cases e <;> simp_all [Op.inner]

namespace Watched

variable {s s' : Sys n} {c : Fin n} {input : Input}

private theorem head (watched : Watched s) {op : Op} {rest : List Op}
    (code : (s.cpus c).code = op :: rest) : Follows (s.myproc c) op rest :=
  (code ▸ watched.follows.running c).1

/-- An operation of a section leaves no one dead, and the slots that it adds to those seen belong to
no dead child; or the section starts again. -/
private def Advances (s : Sys n) (c : Fin n) (op : Op) (p : Proc) (j i : ℕ) : Prop :=
  i = 0 ∨ (∀ q k, ¬ Dies s c q k op) ∧ ∀ k : Proc, j ≤ k.val → k.val < i → ¬ DeadChild s p k

private theorem waitChildren_advances {p q : Proc} {i j : ℕ} {haveKids : Bool} {pick : Pick}
    {rest body : List Op} (follows : next s c pick (.waitChildren q j haveKids) = some body)
    (free : seen rest = none) (under_way : seen (body ++ rest) = some (p, i)) :
    q = p ∧ Advances s c (.waitChildren q j haveKids) p j i := by
  have lives : ∀ r k, ¬ Dies s c r k (.waitChildren q j haveKids) := by simp [Dies]
  simp only [next] at follows
  split at follows
  case isTrue bound =>
    split at follows <;> cases follows
    case isTrue =>
      obtain ⟨rfl, rfl⟩ : q = p ∧ j = i := by simpa [Op.inner, Op.seen] using under_way
      exact ⟨rfl, .inr ⟨lives, fun k above below => by omega⟩⟩
    case isFalse stranger =>
      obtain ⟨rfl, rfl⟩ : q = p ∧ j + 1 = i := by simpa [Op.inner, Op.seen] using under_way
      refine ⟨rfl, .inr ⟨lives, fun k above below dead => ?_⟩⟩
      obtain rfl : k = ⟨j, bound⟩ := Fin.ext (by simp only; omega)
      exact stranger dead.1
  case isFalse last =>
    split at follows <;> cases follows
    case isTrue =>
      obtain ⟨rfl, rfl⟩ : q = p ∧ nProc = i := by
        simpa [Op.inner, Op.sleeper, procSleep] using under_way
      exact ⟨rfl, .inr ⟨lives, fun k above below => by omega⟩⟩
    case isFalse =>
      rw [List.nil_append, free] at under_way
      cases under_way

private theorem waitCheck_advances {p q child : Proc} {i : ℕ} {pick : Pick} {rest body : List Op}
    (follows : next s c pick (.waitCheck q child) = some body)
    (under_way : seen (body ++ rest) = some (p, i)) :
    q = p ∧ Advances s c (.waitCheck q child) p child i := by
  simp only [next] at follows
  split at follows <;> cases follows
  case isTrue => simp [Op.inner, Op.seen] at under_way
  case isFalse alive =>
    obtain ⟨rfl, rfl⟩ : q = p ∧ child + 1 = i := by simpa [Op.inner, Op.seen] using under_way
    refine ⟨rfl, .inr ⟨by simp [Dies], fun k above below dead => ?_⟩⟩
    obtain rfl : k = child := Fin.ext (by omega)
    exact alive dead.2

private theorem exitChildren_advances {p q : Proc} {code : ℤ} {i j : ℕ} {pick : Pick}
    {rest body : List Op} (follows : next s c pick (.exitChildren q code j) = some body)
    (under_way : seen (body ++ rest) = some (p, i)) :
    q = p ∧ Advances s c (.exitChildren q code j) p 0 i := by
  have restarts : q = p ∧ 0 = i := by
    simp only [next] at follows
    split at follows
    case isTrue =>
      split at follows <;> cases follows
      · simpa [Op.inner, Op.seen] using under_way
      · simpa [Op.inner, Op.seen] using under_way
    case isFalse =>
      cases follows
      simpa [Op.inner, Op.seen] using under_way
  exact ⟨restarts.1, .inl restarts.2.symm⟩

/-- A section goes on with what it has seen and what it has just found alive. -/
private theorem seen_call (watched : Watched s) {pick : Pick} {op : Op} {rest body : List Op}
    (head : (s.cpus c).code = op :: rest) (follows : next s c pick op = some body)
    (own : Own s c op) {p : Proc} {i : ℕ} (under_way : seen (body ++ rest) = some (p, i)) :
    ∃ j, seen (s.cpus c).code = some (p, j) ∧ Advances s c op p j i := by
  have enters := (watched.head head).1
  rw [head]
  rcases inner : op.inner with _ | _
  · rcases started : op.seen with _ | ⟨q, j⟩
    · rw [next_seen follows own enters inner started] at under_way
      cases under_way
    · have free : seen rest = none := enters.free inner (by rintro rfl; cases started)
      cases op with
      | exitChildren q code j =>
        obtain ⟨rfl, advances⟩ := exitChildren_advances follows under_way
        exact ⟨0, rfl, advances⟩
      | exitMark q code =>
        cases follows
        simp [Op.inner, Op.seen] at under_way
      | waitChildren q j haveKids =>
        obtain ⟨rfl, advances⟩ := waitChildren_advances follows free under_way
        exact ⟨j, rfl, advances⟩
      | waitCheck q child =>
        obtain ⟨rfl, advances⟩ := waitCheck_advances follows under_way
        exact ⟨child, rfl, advances⟩
      | _ => cases started
  · rw [seen_append ((expands follows own).inner inner)] at under_way
    refine ⟨i, by rw [seen_inner inner, under_way], .inr ⟨?_, fun k above below => by omega⟩⟩
    rintro q k (⟨⟨rfl, -⟩ | ⟨code, rfl⟩, -⟩ | ⟨-, p, code, rfl, -⟩) <;> cases inner

/-- What a CPU's own step does to its section. -/
private theorem sections_own (watched : Watched s) (base : Base s)
    (stays : current s (c, input) = true) (result : Step s (c, input) s') {p : Proc} {i : ℕ}
    (under_way : seen (s'.cpus c).code = some (p, i)) : s'.locks .lifecycle = some c ∧
      (s'.cpus c).intr = false ∧ ∀ k : Proc, k.val < i → ¬ DeadChild s' p k := by
  have outside : ∀ {op rest}, (s.cpus c).code = op :: rest → op.inner = false →
      op ≠ .acquire .lifecycle → seen rest = none := fun code => (watched.head code).1.free
  cases result.stepped with
  | irq k on =>
    rw [Sys.setCpu_cpus_self] at under_way
    cases k <;> simp [trapKernelHandler, Op.inner, Op.seen] at under_way
  | @acquire _ l rest head free =>
    rw [Sys.setCpu_cpus_self] at under_way ⊢
    rw [Sys.setCpu_locks, Sys.setLock_locks, Function.update_apply]
    rcases (watched.head head).1.1 p i under_way with inner | ⟨entry, rfl⟩
    · obtain ⟨held, -, alive⟩ := watched.sections c p i (by rw [head, seen_inner inner, under_way])
      refine ⟨?_, rfl, alive⟩
      split
      case isTrue => rfl
      case isFalse => exact held
    · obtain rfl : l = .lifecycle := by simpa using entry
      exact ⟨if_pos rfl, rfl, fun k below => absurd below (Nat.not_lt_zero _)⟩
  | recursive head mine =>
    rw [Sys.setCpu_cpus_self] at under_way ⊢
    obtain ⟨held, -, alive⟩ := watched.sections c p i (by simpa [Op.inner] using under_way)
    exact ⟨held, rfl, alive⟩
  | @release _ l rest head mine =>
    rw [Sys.setCpu_cpus_self] at under_way ⊢
    have inner : (Op.release l).inner = true := by
      rcases (watched.head head).1.1 p i under_way with inner | ⟨entry, -⟩
      · exact inner
      · cases entry
    obtain ⟨held, off, alive⟩ := watched.sections c p i (by rw [head, seen_inner inner, under_way])
    have apart : Lock.lifecycle ≠ l := by
      rintro rfl
      cases inner
    have deep : 2 ≤ (s.cpus c).noff := base.two_le_noff apart held mine
    have several : ((s.cpus c).noff == 1) = false := by
      rw [beq_eq_false_iff_ne]
      omega
    refine ⟨by simpa [Function.update_of_ne apart] using held, ?_, alive⟩
    rw [several, Bool.false_and]
  | stray head wrong =>
    rw [Sys.setCode_eq, Sys.setCpu_cpus_self] at under_way ⊢
    exact watched.sections c p i (by simpa [Op.inner] using under_way)
  | @call pick op rest body head follows =>
    rw [Sys.setCode_eq, Sys.setCpu_cpus_self] at under_way
    obtain ⟨j, before, advances⟩ :=
      watched.seen_call head follows (own_of_current stays rfl head) under_way
    obtain ⟨held, off, alive⟩ := watched.sections c p j before
    refine ⟨by simpa using held, by simpa using off, fun k below dead => ?_⟩
    rcases advances with rfl | ⟨lives, found⟩
    · exact Nat.not_lt_zero _ below
    · rcases (wrote follows).deadChild dead.1 dead.2 with dead | dies
      · rcases lt_or_ge k.val j with less | above
        · exact alive k less dead
        · exact found k above below dead
      · exact lives p k dies
  | sched head mine =>
    rw [toScheduler, Sys.setCpu_cpus_self, watched.ctx] at under_way
    cases under_way
  | @dispatch _ q rest head ready =>
    rw [toProcess, Sys.setCpu_cpus_self, watched.saved q] at under_way
    cases under_way
  | skip head unready =>
    rw [Sys.setCode_eq, Sys.setCpu_cpus_self, outside head rfl (by simp)] at under_way
    cases under_way
  | intrOn head =>
    rw [Sys.setCpu_cpus_self, outside head rfl (by simp)] at under_way
    cases under_way
  | intrOff head =>
    rw [Sys.setCpu_cpus_self, outside head rfl (by simp)] at under_way
    cases under_way
  | sret head =>
    rw [Sys.setCpu_cpus_self, outside head rfl (by simp)] at under_way
    cases under_way

/-- While a section runs, no other CPU leaves a dead child behind its back. -/
private theorem sections_other (watched : Watched s) (hears : heard s (c, input) = true)
    (result : Step s (c, input) s') {d : Fin n} (other : d ≠ c) {p : Proc} {i : ℕ}
    (under_way : seen (s.cpus d).code = some (p, i)) (k : Proc) (below : k.val < i) :
    ¬ DeadChild s' p k := by
  obtain ⟨held, -, alive⟩ := watched.sections d p i under_way
  have alone : ∀ q j, seen (s.cpus c).code ≠ some (q, j) := fun q j here =>
    other (Option.some.inj (held.symm.trans (watched.sections c q j here).1))
  intro dead
  rcases result.deadChild dead with before | ⟨pick, op, rest, body, head, follows, -, dies⟩
  · exact alive k below before
  · obtain ⟨⟨rfl, mine⟩ | ⟨code, rfl⟩, parent⟩ | ⟨-, q, code, rfl, -⟩ := dies
    · have := (heard_spec hears head mine parent).2 d i under_way
      omega
    · exact alone k 0 (by rw [head]; rfl)
    · exact alone q 0 (by rw [head]; rfl)

/-- A process that becomes a dead child is about to wake its parent, or the first process is about
to be woken. -/
private theorem pending_of_dies (watched : Watched s) (base : Base s)
    (hears : heard s (c, input) = true) {pick : Pick} {op : Op} {rest body : List Op} {q k : Proc}
    (head : (s.cpus c).code = op :: rest) (follows : next s c pick op = some body)
    (dies : Dies s c q k op) (waiting : Waiting s q) :
    Pending ((write s c op).setCode c (body ++ rest)) c q k := by
  obtain ⟨⟨rfl, mine⟩ | ⟨code, rfl⟩, parent⟩ | ⟨rfl, p, code, rfl, child⟩ := dies
  · exact absurd waiting (heard_spec hears head mine parent).1
  · obtain ⟨held, off, -⟩ := watched.sections c k 0 (by rw [head]; rfl)
    have mine : s.myproc c = some k := (base.head head).1.1
    have locked := (base.locked c k (by rw [head]; rfl)).2
    cases follows
    refine ⟨by simpa using held, by simpa using off, ?_, .inl ⟨by simpa [Sys.myproc] using mine, ?_⟩⟩
    · rw [Sys.setCode_eq, Sys.setCpu_cpus_self]
      exact .exitWakeup
    · simpa using locked
  · obtain ⟨held, off, -⟩ := watched.sections c p 0 (by rw [head]; rfl)
    have mine : s.myproc c = some p := (base.head head).1.1
    have mortal := (watched.head head).2
    rw [next, dif_pos k.isLt, if_pos child] at follows
    cases follows
    refine ⟨by simpa using held, by simpa using off, ?_, .inr ⟨rfl, ?_⟩⟩
    · rw [Sys.setCode_eq, Sys.setCpu_cpus_self]
      exact .orphan rfl
    · simpa [Sys.myproc, show (s.cpus c).proc = some p from mine, Op.exits] using mortal

private theorem step (watched : Watched s) (base : Base s) {a : Fin n × Input} (hears : heard s a = true)
    (stays : current s a = true) (result : Step s a s') : Watched s' := by
  obtain ⟨c, input⟩ := a
  refine ⟨?_, fun d => ?_, fun p => ?_, fun d p i under_way => ?_, fun q k waiting dead => ?_⟩
  · refine follows_lasting.step watched.follows (fun c p rest code => (base.head code).1.1)
      (fun d on => ⟨⟨?_, ?_⟩, trivial⟩) (fun _ _ _ _ _ _ _ => trivial) stays result
    · rcases under_way : seen (s.cpus d).code with _ | ⟨p, i⟩
      · rfl
      · rw [(watched.sections d p i under_way).2.1] at on
        cases on
    · rcases locked : under (s.cpus d).code with _ | p
      · rfl
      · rw [(base.locked d p locked).1] at on
        cases on
  · rcases result.ctx d with same | ⟨p, rest, head, same⟩
    · rw [same]
      exact watched.ctx d
    · rw [same]
      exact (watched.head head).1.free rfl (by simp)
  · rcases result.saved p with same | fresh | ⟨rest, head, same⟩
    · rw [same]
      exact watched.saved p
    · rw [fresh]
      rfl
    · rw [same]
      exact (watched.head head).1.free rfl (by simp)
  · rcases eq_or_ne d c with rfl | other
    · exact watched.sections_own base stays result under_way
    · rw [result.other other] at under_way ⊢
      obtain ⟨held, off, -⟩ := watched.sections d p i under_way
      exact ⟨(result.locks_other other _).mpr held, off,
        watched.sections_other hears result other under_way⟩
  · rcases result.waiting stays base watched.follows waiting with before | ⟨-, rest, head, same⟩
    · rcases result.deadChild dead with gone | ⟨pick, op, rest, body, head, follows, rfl, dies⟩
      · obtain ⟨d, pending⟩ := watched.woken q k before gone
        rcases eq_or_ne d c with rfl | other
        · exact ⟨d, pending.step base before gone result waiting⟩
        · exact ⟨d, pending.elsewhere result other⟩
      · exact ⟨c, watched.pending_of_dies base hears head follows dies before⟩
    · rw [DeadChild, Sys.state, same] at dead
      exact absurd dead ((watched.sections c q nProc (by rw [head]; rfl)).2.2 k k.isLt)

private theorem boot : Watched (boot : Sys n) where
  follows := follows_lasting.boot
  ctx c := rfl
  saved p := by
    simp only [Sched.boot]
    split <;> rfl
  sections c p i under_way := by simp [Sched.boot, Op.inner, Op.seen] at under_way
  woken q k _ dead := by
    have zombie := dead.2
    simp only [Sys.state, Sched.boot] at zombie
    split at zombie <;> cases zombie

end Watched

/-- While `lifecycle_lock` is free, no process sleeps in `proc_wait` with a dead child. -/
def NoLostDeath (s : Sys n) : Prop :=
  s.locks .lifecycle = none → ∀ q k, Asleep s q → ¬ DeadChild s q k

private theorem Watched.noLostDeath {s : Sys n} (watched : Watched s) : NoLostDeath s := by
  intro free q k asleep dead
  obtain ⟨c, pending⟩ := watched.woken q k (.inl asleep) dead
  cases free.symm.trans pending.held

/-- No user fault comes too late, and `myproc()` stays on its CPU. -/
def noticed (s : Sys n) (a : Fin n × Input) : Bool := heard s a && current s a

/-- No child's death is lost unless a user fault kills the child after its parent has passed it, or
`myproc()` has given a thread another's process. -/
theorem deaths_noticed {inputs : List (Fin n × Input)} {s : Sys n}
    (run : Run (Guarded (fun s a => noticed s a = true) Step) boot inputs s) : NoLostDeath s := by
  have kept : Base s ∧ Watched s := run.invariant (P := fun s => Base s ∧ Watched s)
    (fun s a s' step inv => by
      obtain ⟨hears, stays⟩ := Bool.and_eq_true_iff.mp step.1
      exact ⟨inv.1.step stays step.2, inv.2.step inv.1 hears stays step.2⟩)
    ⟨Base.boot, Watched.boot⟩
  exact kept.2.noLostDeath

/-- The first process forks and waits, and its child goes on on the same CPU. -/
def forkAndWait : List (Fin nCpu × Input) :=
  goOn 0 10 ++ choose 0 .syscall ++ goOn 0 1 ++ choose 0 .fork ++ goOn 0 12 ++ choose 0 .wait ++
    goOn 0 50

/-- The child exits, and its parent no longer sleeps. -/
theorem deaths_noticed_exit : ∃ s : Sys nCpu,
    NoLostDeath s ∧ s.locks .lifecycle = none ∧ DeadChild s 0 1 := by
  obtain ⟨s, run, found⟩ := Run.exists_guarded noticed (fun (s : Sys nCpu) a => step s a.1 a.2) boot
    (forkAndWait ++ choose 0 .syscall ++ goOn 0 1 ++ choose 0 (.exit 0) ++ goOn 0 209)
    (fun s => s.locks .lifecycle == none && ((s.procs 1).parent == some 0 && s.state 1 == .zombie))
    (by decide +kernel)
  exact ⟨s, deaths_noticed run, by simpa [DeadChild] using found⟩

/-- A user fault kills the child, and its parent sleeps on. -/
theorem deaths_lost : ¬ ∀ inputs (s : Sys nCpu), Run Step boot inputs s → NoLostDeath s := by
  intro all
  obtain ⟨s, run, found⟩ := Run.exists_of_test (fun (s : Sys nCpu) a => step s a.1 a.2) boot
    (forkAndWait ++ choose 0 .fatal ++ goOn 0 2)
    (fun s => s.locks .lifecycle == none &&
      (s.state 0 == .sleeping && (s.procs 0).sleepSpace == some (.proc 0)) &&
      ((s.procs 1).parent == some 0 && s.state 1 == .zombie))
    (by decide +kernel)
  have facts : (s.locks .lifecycle = none ∧ Asleep s 0) ∧ DeadChild s 0 1 := by
    simpa [Asleep, DeadChild] using found
  exact all _ s run facts.1.1 0 1 facts.1.2 facts.2

end LabKernel.Sched
