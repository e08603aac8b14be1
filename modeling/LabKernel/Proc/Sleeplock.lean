import LabKernel.Proc.Kernel

/-! # Sleeplocks

Any number of processes take and release sleeplocks. Spinlocks are atomic and everything else that
`sleeplock_acquire`, `sleeplock_release`, `proc_sleep` and `proc_wakeup` do is a step of its own, as
are the steps of the schedulers. A process can be preempted wherever it holds no spinlock. A history
variable records who is between a returned acquire and its release.
-/

namespace LabKernel.Sleeplock

/-- Where a process holds no spinlock: outside, before it takes `slk->lock` in `sleeplock_acquire`
or at the end of `proc_sleep`, and before it takes it in `sleeplock_release`. -/
inductive Entry (κ : Type*) where
  | outside
  | acquire (k : κ)
  | release (k : κ)
deriving DecidableEq

/-- What a process does next. -/
inductive Point (N : ℕ) (κ : Type*) where
  | free (entry : Entry κ)
  | acqTest (k : κ)
  | acqMark (k : κ)
  | acqPid (k : κ)
  | acqUnlock (k : κ)
  | sleepLock (k : κ)
  | sleepUnlock (k : κ)
  | sleepSpace (k : κ)
  | sleepMark (k : κ)
  | sleepSwitch (k : κ)
  | sleeping (k : κ)
  | wokenClear (k : κ)
  | wokenUnlock (k : κ)
  | relClear (k : κ)
  | relPid (k : κ)
  | relWake (k : κ) (i : ℕ)
  | relCheck (k : κ) (i : Fin N)
  | relNext (k : κ) (i : Fin N)
  | relUnlock (k : κ)
  | yieldLock (entry : Entry κ)
  | yieldMark (entry : Entry κ)
  | yieldSwitch (entry : Entry κ)
  | off (entry : Entry κ)
  | yieldUnlock (entry : Entry κ)
deriving DecidableEq

/-- Who holds `p->lk`: a process, a scheduler that looks at the state, or a scheduler that the
process has switched back to. -/
inductive Owner (N : ℕ) where
  | proc (p : Fin N)
  | check
  | back
deriving DecidableEq

/-- The fields of the processes and of the sleeplocks. -/
structure Sys (N : ℕ) (κ : Type*) where
  procPid : Fin N → ℕ
  state : Fin N → Sched.ProcState
  sleepSpace : Fin N → Option κ
  lk : Fin N → Option (Owner N)
  point : Fin N → Point N κ
  lock : κ → Option (Fin N)
  locked : κ → Bool
  pid : κ → ℕ
  /-- Who is between a returned acquire and its release. -/
  holds : Fin N → κ → Bool

variable {N : ℕ} {κ : Type*}

/-- Every process has been made and not yet run, and no sleeplock is taken. -/
def init (procPid : Fin N → ℕ) : Sys N κ where
  procPid := procPid
  state _ := .runnable
  sleepSpace _ := none
  lk _ := none
  point _ := .off .outside
  lock _ := none
  locked _ := false
  pid _ := 0
  holds _ _ := false

namespace Sys

abbrev goTo (s : Sys N κ) (p : Fin N) (point : Point N κ) : Sys N κ :=
  { s with point := Function.update s.point p point }

abbrev setLk (s : Sys N κ) (p : Fin N) (owner : Option (Owner N)) : Sys N κ :=
  { s with lk := Function.update s.lk p owner }

abbrev setState (s : Sys N κ) (p : Fin N) (state : Sched.ProcState) : Sys N κ :=
  { s with state := Function.update s.state p state }

abbrev setSpace (s : Sys N κ) (p : Fin N) (space : Option κ) : Sys N κ :=
  { s with sleepSpace := Function.update s.sleepSpace p space }

variable [DecidableEq κ]

abbrev setLock (s : Sys N κ) (k : κ) (owner : Option (Fin N)) : Sys N κ :=
  { s with lock := Function.update s.lock k owner }

abbrev setLocked (s : Sys N κ) (k : κ) (locked : Bool) : Sys N κ :=
  { s with locked := Function.update s.locked k locked }

abbrev setPid (s : Sys N κ) (k : κ) (pid : ℕ) : Sys N κ :=
  { s with pid := Function.update s.pid k pid }

abbrev setHolds (s : Sys N κ) (p : Fin N) (k : κ) (holds : Bool) : Sys N κ :=
  { s with holds := fun q l => if q = p ∧ l = k then holds else s.holds q l }

end Sys

/-- `spinlock_acquire(&p->lk)` -/
def takeLk (s : Sys N κ) (p q : Fin N) (next : Point N κ) : Option (Sys N κ) :=
  if s.lk q = none then some ((s.setLk q (some (.proc p))).goTo p next) else none

variable [DecidableEq κ]

/-- `spinlock_acquire(&slk->lock)` -/
def takeLock (s : Sys N κ) (p : Fin N) (k : κ) (next : Point N κ) : Option (Sys N κ) :=
  if s.lock k = none then some ((s.setLock k (some p)).goTo p next) else none

/-- The next step of a process that runs, unless it has to wait for a spinlock. -/
def go (s : Sys N κ) (p : Fin N) : Option (Sys N κ) :=
  match s.point p with
  -- `sleeplock_acquire`
  | .free (.acquire k) => takeLock s p k (.acqTest k)
  | .acqTest k => some (s.goTo p (if s.locked k then .sleepLock k else .acqMark k))
  | .acqMark k => some ((s.setLocked k true).goTo p (.acqPid k))
  | .acqPid k => some ((s.setPid k (s.procPid p)).goTo p (.acqUnlock k))
  | .acqUnlock k => some (((s.setLock k none).setHolds p k true).goTo p (.free .outside))
  -- `proc_sleep`
  | .sleepLock k => takeLk s p p (.sleepUnlock k)
  | .sleepUnlock k => some ((s.setLock k none).goTo p (.sleepSpace k))
  | .sleepSpace k => some ((s.setSpace p (some k)).goTo p (.sleepMark k))
  | .sleepMark k => some ((s.setState p .sleeping).goTo p (.sleepSwitch k))
  | .sleepSwitch k => some ((s.setLk p (some .back)).goTo p (.sleeping k))
  | .wokenClear k => some ((s.setSpace p none).goTo p (.wokenUnlock k))
  | .wokenUnlock k => some ((s.setLk p none).goTo p (.free (.acquire k)))
  -- `sleeplock_release`
  | .free (.release k) => takeLock s p k (.relClear k)
  | .relClear k => some ((s.setLocked k false).goTo p (.relPid k))
  | .relPid k => some ((s.setPid k 0).goTo p (.relWake k 0))
  -- `proc_wakeup`
  | .relWake k i =>
    if h : i < N then
      if ⟨i, h⟩ = p then some (s.goTo p (.relWake k (i + 1)))
      else takeLk s p ⟨i, h⟩ (.relCheck k ⟨i, h⟩)
    else some (s.goTo p (.relUnlock k))
  | .relCheck k q =>
    if s.state q = .sleeping ∧ s.sleepSpace q = some k then
      some ((s.setState q .runnable).goTo p (.relNext k q))
    else some (s.goTo p (.relNext k q))
  | .relNext k q => some ((s.setLk q none).goTo p (.relWake k (q + 1)))
  | .relUnlock k => some ((s.setLock k none).goTo p (.free .outside))
  -- `proc_yield`
  | .yieldLock e => takeLk s p p (.yieldMark e)
  | .yieldMark e => some ((s.setState p .runnable).goTo p (.yieldSwitch e))
  | .yieldSwitch e => some ((s.setLk p (some .back)).goTo p (.off e))
  | .yieldUnlock e => some ((s.setLk p none).goTo p (.free e))
  | .free .outside | .sleeping _ | .off _ => none

/-- Where a process goes on once a scheduler has switched to it. -/
def Point.resumed : Point N κ → Option (Point N κ)
  | .sleeping k => some (.wokenClear k)
  | .off e => some (.yieldUnlock e)
  | _ => none

inductive Action (N : ℕ) (κ : Type*) where
  | acquire (p : Fin N) (k : κ)
  | release (p : Fin N) (k : κ)
  | preempt (p : Fin N)
  | go (p : Fin N)
  /-- A scheduler takes `p->lk`. -/
  | look (p : Fin N)
  /-- The scheduler that has taken it finds `p` runnable. -/
  | dispatch (p : Fin N)
  /-- A scheduler releases `p->lk`. -/
  | pass (p : Fin N)

/-- One step, unless it is not possible now. Only a holder calls `sleeplock_release`. -/
def step (s : Sys N κ) : Action N κ → Option (Sys N κ)
  | .acquire p k =>
    if s.point p = .free .outside then some (s.goTo p (.free (.acquire k))) else none
  | .release p k =>
    if s.point p = .free .outside ∧ s.holds p k then
      some ((s.setHolds p k false).goTo p (.free (.release k)))
    else none
  | .preempt p =>
    match s.point p with
    | .free e => some (s.goTo p (.yieldLock e))
    | _ => none
  | .go p => go s p
  | .look p => if s.lk p = none then some (s.setLk p (some .check)) else none
  | .dispatch p =>
    if s.lk p = some .check ∧ s.state p = .runnable then
      (s.point p).resumed.map fun next =>
        ((s.setState p .running).setLk p (some (.proc p))).goTo p next
    else none
  | .pass p =>
    if s.lk p = some .back ∨ s.lk p = some .check ∧ s.state p ≠ .runnable then some (s.setLk p none)
    else none

def Step (s : Sys N κ) (a : Action N κ) (s' : Sys N κ) : Prop := step s a = some s'

/-! ## What a point stands for -/

/-- The sleeplock that the process gives back next. -/
def Entry.gives : Entry κ → Option κ
  | .release k => some k
  | _ => none

namespace Point

/-- The sleeplock whose spinlock the process holds. -/
def spins : Point N κ → Option κ
  | .acqTest k | .acqMark k | .acqPid k | .acqUnlock k | .sleepLock k | .sleepUnlock k
  | .relClear k | .relPid k | .relWake k _ | .relCheck k _ | .relNext k _ | .relUnlock k => some k
  | _ => none

/-- The process whose `lk` a process holds. -/
def locks (p : Fin N) : Point N κ → Option (Fin N)
  | .sleepUnlock _ | .sleepSpace _ | .sleepMark _ | .sleepSwitch _ | .wokenClear _ | .wokenUnlock _
  | .yieldMark _ | .yieldSwitch _ | .yieldUnlock _ => some p
  | .relCheck _ q | .relNext _ q => some q
  | _ => none

/-- The sleeplock that a process has taken without having returned, or has yet to give back. -/
def owns : Point N κ → Option κ
  | .acqPid k | .acqUnlock k | .relClear k => some k
  | .free e | .yieldLock e | .yieldMark e | .yieldSwitch e | .off e | .yieldUnlock e => e.gives
  | _ => none

/-- The sleeplock that has the process's `pid`. -/
def signs : Point N κ → Option κ
  | .acqPid _ => none
  | point => point.owns

/-- What a process knows of a sleeplock's flag, whose spinlock it holds. -/
def finds : Point N κ → Option (κ × Bool)
  | .sleepLock k | .sleepUnlock k => some (k, true)
  | .acqMark k | .relPid k => some (k, false)
  | _ => none

/-- The sleeplock that a process is about to sleep on, with the spinlock released. -/
def dozes : Point N κ → Option κ
  | .sleepSpace k | .sleepMark k => some k
  | _ => none

/-- The scan of `proc_wakeup` has yet to come to a process. -/
def scans (k : κ) (p : Fin N) : Point N κ → Prop
  | .relPid k' => k' = k
  | .relWake k' i => k' = k ∧ i ≤ p
  | .relCheck k' q => k' = k ∧ q ≤ p
  | .relNext k' q => k' = k ∧ q < p
  | _ => False

end Point

/-- How the fields of a process fit the point that it is at. -/
def Placed (point : Point N κ) (state : Sched.ProcState) (space : Option κ) : Prop :=
  match point with
  | .sleepMark k => state = .running ∧ space = some k
  | .sleepSwitch k => state = .sleeping ∧ space = some k
  | .sleeping k => (state = .sleeping ∨ state = .runnable) ∧ space = some k
  | .yieldSwitch _ | .off _ => state = .runnable
  | _ => state = .running

/-- The sleeplock is the process's from the mark to the clear. -/
abbrev Owns (s : Sys N κ) (p : Fin N) (k : κ) : Prop := s.holds p k = true ∨ (s.point p).owns = some k

/-- A process sleeps on a sleeplock or is about to. -/
abbrev Dozes (s : Sys N κ) (p : Fin N) (k : κ) : Prop :=
  (s.point p).dozes = some k ∨ s.state p = .sleeping ∧ s.sleepSpace p = some k

structure Inv (s : Sys N κ) : Prop where
  spins : ∀ p k, s.lock k = some p ↔ (s.point p).spins = some k
  locks : ∀ p q, s.lk q = some (.proc p) ↔ (s.point p).locks p = some q
  placed : ∀ p, Placed (s.point p) (s.state p) (s.sleepSpace p)
  taken : ∀ p k, Owns s p k → s.locked k = true
  unique : ∀ p q k, Owns s p k → Owns s q k → p = q
  once : ∀ p k, s.holds p k = true → (s.point p).owns ≠ some k
  signed : ∀ p k, s.holds p k = true ∨ (s.point p).signs = some k → s.pid k = s.procPid p
  found : ∀ p k b, (s.point p).finds = some (k, b) → s.locked k = b
  watched : ∀ p k, Dozes s p k → s.locked k = true ∨ ∃ q, (s.point q).scans k p

/-! ## What the steps do -/

variable {s s' : Sys N κ} {p : Fin N}

/-- The steps of a process and of the schedulers for it, with the field that each one writes. -/
inductive Effect (s : Sys N κ) (p : Fin N) : Sys N κ → Prop
  | call (k : κ) (at_p : s.point p = .free .outside) : Effect s p (s.goTo p (.free (.acquire k)))
  | giveBack {k} (at_p : s.point p = .free .outside) (holds : s.holds p k = true) :
    Effect s p ((s.setHolds p k false).goTo p (.free (.release k)))
  | preempt {e} (at_p : s.point p = .free e) : Effect s p (s.goTo p (.yieldLock e))
  | acqLock {k} (at_p : s.point p = .free (.acquire k)) (free : s.lock k = none) :
    Effect s p ((s.setLock k (some p)).goTo p (.acqTest k))
  | acqTaken {k} (at_p : s.point p = .acqTest k) (locked : s.locked k = true) :
    Effect s p (s.goTo p (.sleepLock k))
  | acqFree {k} (at_p : s.point p = .acqTest k) (locked : s.locked k = false) :
    Effect s p (s.goTo p (.acqMark k))
  | acqMark {k} (at_p : s.point p = .acqMark k) :
    Effect s p ((s.setLocked k true).goTo p (.acqPid k))
  | acqPid {k} (at_p : s.point p = .acqPid k) :
    Effect s p ((s.setPid k (s.procPid p)).goTo p (.acqUnlock k))
  | acqUnlock {k} (at_p : s.point p = .acqUnlock k) :
    Effect s p (((s.setLock k none).setHolds p k true).goTo p (.free .outside))
  | sleepLock {k} (at_p : s.point p = .sleepLock k) (free : s.lk p = none) :
    Effect s p ((s.setLk p (some (.proc p))).goTo p (.sleepUnlock k))
  | sleepUnlock {k} (at_p : s.point p = .sleepUnlock k) :
    Effect s p ((s.setLock k none).goTo p (.sleepSpace k))
  | sleepSpace {k} (at_p : s.point p = .sleepSpace k) :
    Effect s p ((s.setSpace p (some k)).goTo p (.sleepMark k))
  | sleepMark {k} (at_p : s.point p = .sleepMark k) :
    Effect s p ((s.setState p .sleeping).goTo p (.sleepSwitch k))
  | sleepSwitch {k} (at_p : s.point p = .sleepSwitch k) :
    Effect s p ((s.setLk p (some .back)).goTo p (.sleeping k))
  | wokenClear {k} (at_p : s.point p = .wokenClear k) :
    Effect s p ((s.setSpace p none).goTo p (.wokenUnlock k))
  | wokenUnlock {k} (at_p : s.point p = .wokenUnlock k) :
    Effect s p ((s.setLk p none).goTo p (.free (.acquire k)))
  | relLock {k} (at_p : s.point p = .free (.release k)) (free : s.lock k = none) :
    Effect s p ((s.setLock k (some p)).goTo p (.relClear k))
  | relClear {k} (at_p : s.point p = .relClear k) :
    Effect s p ((s.setLocked k false).goTo p (.relPid k))
  | relPid {k} (at_p : s.point p = .relPid k) :
    Effect s p ((s.setPid k 0).goTo p (.relWake k 0))
  | wakeSelf {k} (at_p : s.point p = .relWake k p) :
    Effect s p (s.goTo p (.relWake k (p + 1)))
  | wakeLock {q : Fin N} {k} (at_p : s.point p = .relWake k q) (other : q ≠ p) (free : s.lk q = none) :
    Effect s p ((s.setLk q (some (.proc p))).goTo p (.relCheck k q))
  | wakeEnd {k i} (at_p : s.point p = .relWake k i) (all : N ≤ i) :
    Effect s p (s.goTo p (.relUnlock k))
  | wake {q : Fin N} {k} (at_p : s.point p = .relCheck k q) (sleeps : s.state q = .sleeping)
    (space : s.sleepSpace q = some k) : Effect s p ((s.setState q .runnable).goTo p (.relNext k q))
  | wakeNot {q : Fin N} {k} (at_p : s.point p = .relCheck k q)
    (not : ¬(s.state q = .sleeping ∧ s.sleepSpace q = some k)) : Effect s p (s.goTo p (.relNext k q))
  | wakeNext {q : Fin N} {k} (at_p : s.point p = .relNext k q) :
    Effect s p ((s.setLk q none).goTo p (.relWake k (q + 1)))
  | relUnlock {k} (at_p : s.point p = .relUnlock k) :
    Effect s p ((s.setLock k none).goTo p (.free .outside))
  | yieldLock {e} (at_p : s.point p = .yieldLock e) (free : s.lk p = none) :
    Effect s p ((s.setLk p (some (.proc p))).goTo p (.yieldMark e))
  | yieldMark {e} (at_p : s.point p = .yieldMark e) :
    Effect s p ((s.setState p .runnable).goTo p (.yieldSwitch e))
  | yieldSwitch {e} (at_p : s.point p = .yieldSwitch e) :
    Effect s p ((s.setLk p (some .back)).goTo p (.off e))
  | yieldUnlock {e} (at_p : s.point p = .yieldUnlock e) :
    Effect s p ((s.setLk p none).goTo p (.free e))
  | look (free : s.lk p = none) : Effect s p (s.setLk p (some .check))
  | dispatchWoken {k} (at_p : s.point p = .sleeping k) (held : s.lk p = some .check)
    (ready : s.state p = .runnable) :
    Effect s p (((s.setState p .running).setLk p (some (.proc p))).goTo p (.wokenClear k))
  | dispatchOff {e} (at_p : s.point p = .off e) (held : s.lk p = some .check)
    (ready : s.state p = .runnable) :
    Effect s p (((s.setState p .running).setLk p (some (.proc p))).goTo p (.yieldUnlock e))
  | pass (held : s.lk p = some .back ∨ s.lk p = some .check) : Effect s p (s.setLk p none)

private theorem effect_go (goes : go s p = some s') : Effect s p s' := by
  cases at_p : s.point p <;>
    simp only [go, at_p, takeLock, takeLk, Option.ite_none_right_eq_some, Option.some.injEq,
      reduceCtorEq] at goes
  case free e =>
    cases e <;> simp only [Option.ite_none_right_eq_some, Option.some.injEq, reduceCtorEq] at goes
    case acquire => exact goes.2 ▸ .acqLock at_p goes.1
    case release => exact goes.2 ▸ .relLock at_p goes.1
  case acqTest k =>
    rcases locked : s.locked k with _ | _ <;> simp only [locked] at goes
    · exact goes ▸ .acqFree at_p locked
    · exact goes ▸ .acqTaken at_p locked
  case relWake k i =>
    split at goes
    case isTrue less =>
      split at goes
      case isTrue same =>
        cases goes
        subst same
        exact .wakeSelf at_p
      case isFalse other =>
        obtain ⟨free, same⟩ := Option.ite_none_right_eq_some.mp goes
        cases same
        exact .wakeLock (q := ⟨i, less⟩) at_p other free
    case isFalse all =>
      cases goes
      exact .wakeEnd at_p (by omega)
  case relCheck k q =>
    split at goes
    case isTrue sleeps =>
      cases goes
      exact .wake at_p sleeps.1 sleeps.2
    case isFalse not =>
      cases goes
      exact .wakeNot at_p not
  case acqMark => exact goes ▸ .acqMark at_p
  case acqPid => exact goes ▸ .acqPid at_p
  case acqUnlock => exact goes ▸ .acqUnlock at_p
  case sleepLock => exact goes.2 ▸ .sleepLock at_p goes.1
  case sleepUnlock => exact goes ▸ .sleepUnlock at_p
  case sleepSpace => exact goes ▸ .sleepSpace at_p
  case sleepMark => exact goes ▸ .sleepMark at_p
  case sleepSwitch => exact goes ▸ .sleepSwitch at_p
  case wokenClear => exact goes ▸ .wokenClear at_p
  case wokenUnlock => exact goes ▸ .wokenUnlock at_p
  case relClear => exact goes ▸ .relClear at_p
  case relPid => exact goes ▸ .relPid at_p
  case relNext => exact goes ▸ .wakeNext at_p
  case relUnlock => exact goes ▸ .relUnlock at_p
  case yieldLock => exact goes.2 ▸ .yieldLock at_p goes.1
  case yieldMark => exact goes ▸ .yieldMark at_p
  case yieldSwitch => exact goes ▸ .yieldSwitch at_p
  case yieldUnlock => exact goes ▸ .yieldUnlock at_p

private theorem exists_effect {a : Action N κ} (steps : Step s a s') : ∃ p, Effect s p s' := by
  cases a with
  | acquire p k =>
    obtain ⟨at_p, same⟩ := Option.ite_none_right_eq_some.mp steps
    exact ⟨p, Option.some.inj same ▸ .call k at_p⟩
  | release p k =>
    obtain ⟨⟨at_p, holds⟩, same⟩ := Option.ite_none_right_eq_some.mp steps
    exact ⟨p, Option.some.inj same ▸ .giveBack at_p holds⟩
  | preempt p =>
    simp only [Step, step] at steps
    split at steps
    case h_1 e at_p => exact ⟨p, Option.some.inj steps ▸ .preempt at_p⟩
    case h_2 => cases steps
  | go p => exact ⟨p, effect_go steps⟩
  | look p =>
    obtain ⟨free, same⟩ := Option.ite_none_right_eq_some.mp steps
    exact ⟨p, Option.some.inj same ▸ .look free⟩
  | dispatch p =>
    obtain ⟨⟨held, ready⟩, switches⟩ := Option.ite_none_right_eq_some.mp steps
    obtain ⟨next, resumed, rfl⟩ := Option.map_eq_some_iff.mp switches
    cases at_p : s.point p <;> simp only [at_p, Point.resumed, Option.some.injEq, reduceCtorEq] at resumed
    case sleeping k => exact ⟨p, resumed ▸ .dispatchWoken at_p held ready⟩
    case off e => exact ⟨p, resumed ▸ .dispatchOff at_p held ready⟩
  | pass p =>
    obtain ⟨held, same⟩ := Option.ite_none_right_eq_some.mp steps
    exact ⟨p, Option.some.inj same ▸ .pass (held.imp_right And.left)⟩

/-! ## The invariant is kept -/

omit [DecidableEq κ] in
private theorem Point.owns_of_signs {point : Point N κ} {k : κ} (signs : point.signs = some k) :
    point.owns = some k := by
  cases point <;> simp_all [Point.signs, Point.owns]

omit [DecidableEq κ] in
private theorem Point.locks_of_dozes {p : Fin N} {point : Point N κ} {k : κ} (dozes : point.dozes = some k) :
    point.locks p = some p := by
  cases point <;> simp_all [Point.dozes, Point.locks]

omit [DecidableEq κ] in
private theorem Point.spins_of_scans {q : Fin N} {point : Point N κ} {k : κ} (scans : point.scans k q) :
    point.spins = some k := by
  cases point <;> simp_all [Point.scans, Point.spins]

omit [DecidableEq κ] in
private theorem Point.spins_of_finds {point : Point N κ} {k : κ} {b : Bool}
    (finds : point.finds = some (k, b)) : point.spins = some k := by
  cases point <;> simp_all [Point.finds, Point.spins]

attribute [local grind =] Function.update_apply
attribute [local grind] Placed Entry.gives Point.owns Point.signs Point.finds Point.spins Point.dozes
  Point.locks
attribute [local grind →] Point.spins_of_finds Point.owns_of_signs

omit [DecidableEq κ] in
/-- The flag of the sleeplock whose spinlock a process holds, where the next step depends on it. -/
theorem Inv.flag (inv : Inv s) (p : Fin N) (k : κ) :
    (s.point p = .acqMark k → s.locked k = false) ∧ (s.point p = .relPid k → s.locked k = false) ∧
      (s.point p = .sleepUnlock k → s.locked k = true) :=
  ⟨fun at_p => inv.found p k false (by rw [at_p]; rfl),
    fun at_p => inv.found p k false (by rw [at_p]; rfl),
    fun at_p => inv.found p k true (by rw [at_p]; rfl)⟩

namespace Inv

private theorem spins_effect (inv : Inv s) (effect : Effect s p s') (q : Fin N) (k : κ) :
    s'.lock k = some q ↔ (s'.point q).spins = some k := by
  have spins := inv.spins q k
  have mine := inv.spins p
  cases effect <;> grind -linarith

private theorem locks_effect (inv : Inv s) (effect : Effect s p s') (q r : Fin N) :
    s'.lk r = some (.proc q) ↔ (s'.point q).locks q = some r := by
  have locks := inv.locks q r
  have mine := inv.locks p
  cases effect <;> grind -linarith

omit [DecidableEq κ] in
/-- A process that another one finds asleep has given up its CPU. -/
theorem sleeping_of_held (inv : Inv s) {q : Fin N} {k : κ} (held : s.lk q = some (.proc p))
    (other : q ≠ p) (sleeps : s.state q = .sleeping) (space : s.sleepSpace q = some k) :
    s.point q = .sleeping k := by
  have placed := inv.placed q
  have notOwn := inv.locks q q
  cases at_q : s.point q <;> simp_all [Placed, Point.locks]

private theorem placed_effect (inv : Inv s) (effect : Effect s p s') (q : Fin N) :
    Placed (s'.point q) (s'.state q) (s'.sleepSpace q) := by
  have placed := inv.placed q
  have mine := inv.placed p
  cases effect
  case wake r k at_p sleeps space =>
    have other : r ≠ p := by
      rintro rfl
      simp [at_p, Placed, sleeps] at mine
    have asleep := inv.sleeping_of_held ((inv.locks p r).mpr (by simp [at_p, Point.locks])) other
      sleeps space
    grind -linarith
  all_goals grind -linarith

private theorem taken_effect (inv : Inv s) (effect : Effect s p s') (q : Fin N) (k : κ)
    (owns : Owns s' q k) : s'.locked k = true := by
  have taken := inv.taken q k
  have mine := inv.taken p
  have unique := inv.unique p q k
  have once := inv.once p k
  cases effect <;> grind -linarith

private theorem found_effect (inv : Inv s) (effect : Effect s p s') (q : Fin N) (k : κ) (b : Bool)
    (finds : (s'.point q).finds = some (k, b)) : s'.locked k = b := by
  have found := inv.found q k b
  have mine := inv.spins p
  have other := inv.spins q k
  have holder := @Point.spins_of_finds _ _ (s.point q) k b
  cases effect <;> grind -linarith

private theorem unique_effect (inv : Inv s) (effect : Effect s p s') (q r : Fin N) (k : κ)
    (left : Owns s' q k) (right : Owns s' r k) : q = r := by
  have unique := inv.unique q r k
  have takenQ := inv.taken q k
  have takenR := inv.taken r k
  have flag := inv.flag p
  cases effect <;> grind -linarith

private theorem once_effect (inv : Inv s) (effect : Effect s p s') (q : Fin N) (k : κ)
    (holds : s'.holds q k = true) : (s'.point q).owns ≠ some k := by
  have once := inv.once q k
  have taken := inv.taken q k
  have flag := inv.flag p
  cases effect <;> grind -linarith

private theorem signed_effect (inv : Inv s) (effect : Effect s p s') (q : Fin N) (k : κ)
    (signs : s'.holds q k = true ∨ (s'.point q).signs = some k) : s'.pid k = s'.procPid q := by
  have signed := inv.signed q k
  have owner := @Point.owns_of_signs _ _ (s.point q) k
  have unique := inv.unique p q k
  have taken := inv.taken q k
  have flag := inv.flag p
  cases effect <;> grind -linarith


private theorem dozes_new (inv : Inv s) (effect : Effect s p s') {q : Fin N} {k : κ} (dozes : Dozes s' q k)
    (new : ¬Dozes s q k) : s'.locked k = true := by
  have flag := inv.flag p
  have placed := inv.placed q
  cases effect <;> grind -linarith

private theorem scans_effect (inv : Inv s) (effect : Effect s p s') {q : Fin N} {k : κ}
    (scans : (s.point p).scans k q) (dozes : Dozes s' q k) : (s'.point p).scans k q := by
  have own := inv.locks q q
  have dozer := @Point.locks_of_dozes _ _ q (s.point q) k
  have held := inv.locks p
  have mine := inv.placed p
  have placed := inv.placed q
  cases effect
  case wake r k' at_p sleeps space =>
    have other : r ≠ p := by
      rintro rfl
      simp [at_p, Placed, sleeps] at mine
    have asleep := inv.sleeping_of_held ((held r).mpr (by simp [at_p, Point.locks])) other
      sleeps space
    grind -linarith [Point.scans]
  all_goals grind -linarith [Point.scans]

private theorem watched_effect (inv : Inv s) (effect : Effect s p s') (q : Fin N) (k : κ)
    (dozes : Dozes s' q k) : s'.locked k = true ∨ ∃ r, (s'.point r).scans k q := by
  by_cases was : Dozes s q k
  case neg => exact .inl (inv.dozes_new effect dozes was)
  rcases inv.watched q k was with locked | ⟨r, scans⟩
  · rcases still : s'.locked k with _ | _
    · exact .inr ⟨p, by cases effect <;> grind -linarith [Point.scans]⟩
    · exact .inl rfl
  · rcases eq_or_ne r p with rfl | other
    · exact .inr ⟨r, inv.scans_effect effect scans dozes⟩
    · refine .inr ⟨r, ?_⟩
      have same : s'.point r = s.point r := by cases effect <;> grind -linarith
      rwa [same]

private theorem step (inv : Inv s) {a : Action N κ} (steps : Step s a s') : Inv s' := by
  obtain ⟨p, effect⟩ := exists_effect steps
  exact {
    spins := inv.spins_effect effect
    locks := inv.locks_effect effect
    placed := inv.placed_effect effect
    taken := inv.taken_effect effect
    unique := inv.unique_effect effect
    once := inv.once_effect effect
    signed := inv.signed_effect effect
    found := inv.found_effect effect
    watched := inv.watched_effect effect }

omit [DecidableEq κ] in
private theorem init (procPid : Fin N → ℕ) : Inv (init procPid : Sys N κ) := by
  constructor <;>
    simp [Sleeplock.init, Point.spins, Point.locks, Placed, Owns, Dozes, Point.owns, Point.signs,
      Point.finds, Point.dozes, Entry.gives]

end Inv

/-! ## Runs -/

private theorem step_procPid {a : Action N κ} (steps : Step s a s') : s'.procPid = s.procPid := by
  obtain ⟨p, effect⟩ := exists_effect steps
  cases effect <;> rfl

/-- Only one process holds a sleeplock at a time, the sleeplock has its pid, and nobody sleeps on a
sleeplock that is not taken once its spinlock is free. -/
theorem sleeplock_safe {procPid : Fin N → ℕ} {actions : List (Action N κ)}
    (run : Run Step (init procPid) actions s) :
    (∀ k p q, s.holds p k = true → s.holds q k = true → p = q) ∧
      (∀ k p, s.holds p k = true → s.locked k = true ∧ s.pid k = procPid p) ∧
      ∀ k p, s.lock k = none → s.state p = .sleeping → s.sleepSpace p = some k →
        s.locked k = true := by
  have ⟨inv, same⟩ : Inv s ∧ s.procPid = procPid :=
    run.invariant (P := fun s => Inv s ∧ s.procPid = procPid)
      (fun _ _ _ steps kept => ⟨kept.1.step steps, (step_procPid steps).trans kept.2⟩)
      ⟨Inv.init procPid, rfl⟩
  refine ⟨fun k p q left right => inv.unique p q k (.inl left) (.inl right), fun k p holds => ?_,
    fun k p free sleeps space => ?_⟩
  · exact ⟨inv.taken p k (.inl holds), by rw [inv.signed p k (.inl holds), same]⟩
  · rcases inv.watched p k (.inr ⟨sleeps, space⟩) with locked | ⟨q, scans⟩
    · exact locked
    · have held := (inv.spins q k).mpr (Point.spins_of_scans scans)
      rw [free] at held
      cases held

/-- One process holds the sleeplock and another one sleeps on it. -/
theorem sleeplock_safe_two : ∃ s : Sys 2 Unit,
    Run Step (init fun p => p.val + 1) (.look 0 :: .dispatch 0 :: .go 0 :: .acquire 0 () ::
      List.replicate 5 (.go 0) ++ .look 1 :: .dispatch 1 :: .go 1 :: .acquire 1 () ::
      List.replicate 7 (.go 1)) s ∧
      s.holds 0 () = true ∧ s.lock () = none ∧ s.state 1 = .sleeping ∧ s.sleepSpace 1 = some () ∧
        s.pid () = 1 ∧ s.locked () = true := by
  obtain ⟨s, run, test⟩ := Run.exists_of_test step (init fun p : Fin 2 => p.val + 1)
    (.look 0 :: .dispatch 0 :: .go 0 :: .acquire 0 () :: List.replicate 5 (.go 0) ++
      .look 1 :: .dispatch 1 :: .go 1 :: .acquire 1 () :: List.replicate 7 (.go 1))
    (fun s => s.holds 0 () ∧ s.lock () = none ∧ s.state 1 = .sleeping ∧ s.sleepSpace 1 = some ())
    (by decide +kernel)
  obtain ⟨holds, free, sleeps, space⟩ := of_decide_eq_true test
  have safe := sleeplock_safe run
  exact ⟨s, run, holds, free, sleeps, space, (safe.2.1 () 0 holds).2, safe.2.2 () 1 free sleeps space⟩

end LabKernel.Sleeplock
