import LabKernel.Fs.State
import LabKernel.Lib.Transition

/-! # Kernel threads on several CPUs

What a CPU runs is the list of operations that its thread has still to perform; `swtch` exchanges
such lists. Taking and releasing a spinlock, changing the interrupt bit and switching threads are
steps of their own, and so is what the code does between them, since no CPU can see the middle of a
section that a lock protects. Interrupts arrive whenever the bit is set. Code that holds no lock of
interest here (the file system, the memory pools, the console) may take any of its locks in any
order that its nesting permits.

`myproc()` reads the CPU's number and then `proc` of the CPU with that number. Where interrupts can be
on these are two steps, and a thread that changes its CPU between them gets the process of the CPU it
left. Where a lock is held, or in an interrupt handler, nothing comes between the two and they are one.
-/

namespace LabKernel.Sched

def nCpu : ℕ := 2

instance : NeZero nCpu := ⟨by decide⟩

/-- A slot of `proc_pool`. -/
abbrev Proc := Fin nProc

def initProcess : Proc := 0

inductive ProcState where
  | unused
  | runnable
  | running
  | sleeping
  | zombie
deriving DecidableEq, Repr

/-- Where a thread can sleep with a device's lock held: `vdisk_lock`, `cons.lk` and
`time_keeper.lock`. -/
inductive Device where
  | disk
  | console
  | clock
deriving DecidableEq, Repr

/-- The locks of short sections that never sleep. -/
inductive Leaf where
  | print
  | kernelPool
  | userPool
  | mmapPool
  | bufCache
  | inodeCache
  | fileTable
  | pid
deriving DecidableEq, Repr

/-- A section of a leaf lock only enters sections of lower rank. -/
def Leaf.rank : Leaf → ℕ
  | .print => 0
  | .kernelPool => 1
  | .userPool => 2
  | .mmapPool => 3
  | .bufCache => 4
  | .inodeCache => 5
  | .fileTable => 6
  | .pid => 7

inductive Lock where
  | proc (p : Proc)
  | lifecycle
  /-- The spinlock inside a sleeplock. -/
  | sleep (k : ℕ)
  | device (d : Device)
  | leaf (k : Leaf)
deriving DecidableEq, Repr

/-- The addresses that `sleep_space` can hold. -/
inductive Chan where
  | proc (p : Proc)
  | sleeplock (k : ℕ)
  | device (d : Device) (n : ℕ)
deriving DecidableEq, Repr

/-- What a call of `myproc()` with interrupts on is for. `proc_yield` returns to a caller that had these
interrupt bits: the one to restore when all locks are released, and the current one. -/
inductive Use where
  | yield (base bit : Bool)
  | fork
  | exit (code : ℤ)
  | userReturn
  /-- A system call works with the process's page table, open files or trap frame. -/
  | memory
deriving DecidableEq, Repr

/-- One operation of kernel code. Most stand for what one function still has to do. -/
inductive Op where
  | acquire (l : Lock)
  | release (l : Lock)
  | intrOn
  | intrOff
  /-- The end of `trap_kernel_handler` and of `kernel_vector`. -/
  | sret
  | panic
  /-- Any sections of leaf locks below the rank. -/
  | leafs (rank : ℕ)
  /-- Code of a device driver with its lock held, that may sleep if the flag says so. -/
  | device (d : Device) (sleeps : Bool)
  | sleeplockLoop (k : ℕ)
  | sleeplockClear (k : ℕ)
  /-- File-system and memory code that holds no spinlock. -/
  | files
  /-- The body of a system call. -/
  | kernel
  /-- A system call between its use of what `myproc()` gave it and its end. -/
  | memory (p : Proc)
  /-- `myproc()` behind the read of the CPU's number -/
  | loadProc (use : Use) (hart : ℕ)
  | trapUserReturn
  /-- User mode on the page table and the trap frame of a process. -/
  | user (p : Proc)
  | fatal
  | timerInterrupt
  | externalInterrupt
  | preempt
  | procYield
  | markRunnable (p : Proc)
  | markSleeping (p : Proc) (chan : Chan)
  | clearSleep (p : Proc)
  /-- `proc_yield` or `proc_sleep` returns to a caller that had these interrupt bits: the one to
  restore when all locks are released, and the current one. -/
  | returned (base bit : Bool)
  | procSched
  | procScheduler (i : ℕ)
  | schedulerCheck (p : Proc)
  | procWakeup (chan : Option Chan) (i : ℕ)
  | wakeupCheck (chan : Option Chan) (p : Proc)
  | exitChildren (p : Proc) (code : ℤ) (i : ℕ)
  | exitCheck (child : Proc)
  | exitMark (p : Proc) (code : ℤ)
  | exitWakeup (p : Proc)
  | revived (p : Proc)
  | waitChildren (p : Proc) (i : ℕ) (haveKids : Bool)
  | waitCheck (p child : Proc)
  | freed (child : Proc)
  | allocScan (p : Proc) (i : ℕ)
  | allocCheck (p child : Proc)
  | procEntryPoint (p : Proc)
deriving DecidableEq, Repr

/-- `proc_t`; `ctx` is what the saved context still has to run. The history variable `left` is the
lock depth and the interrupt bit to restore that the thread had when it last gave up its CPU; a new
process only expects a depth. -/
structure Slot where
  pid : ℕ
  state : ProcState
  parent : Option Proc
  exitCode : ℤ
  sleepSpace : Option Chan
  ctx : List Op
  left : ℕ × Option Bool

/-- `cpu_t` with the interrupt bit of `sstatus` and what the CPU is running. -/
structure CpuState where
  noff : ℕ
  origin : Bool
  intr : Bool
  proc : Option Proc
  ctx : List Op
  code : List Op

/-- The kernel's memory and the CPUs that run it. -/
structure Sys (n : ℕ) where
  cpus : Fin n → CpuState
  locks : Lock → Option (Fin n)
  procs : Proc → Slot
  slks : ℕ → Option ℕ
  nextPid : ℕ

/-- The interrupt bit that holds once every spinlock is released. -/
def CpuState.base (x : CpuState) : Bool := if x.noff = 0 then x.intr else x.origin

variable {n : ℕ}

namespace Sys

def setCpu (s : Sys n) (c : Fin n) (x : CpuState) : Sys n :=
  { s with cpus := Function.update s.cpus c x }

def setCode (s : Sys n) (c : Fin n) (code : List Op) : Sys n :=
  s.setCpu c { s.cpus c with code := code }

def setLock (s : Sys n) (l : Lock) (owner : Option (Fin n)) : Sys n :=
  { s with locks := Function.update s.locks l owner }

def setProc (s : Sys n) (p : Proc) (slot : Slot) : Sys n :=
  { s with procs := Function.update s.procs p slot }

/-- `myproc()` -/
def myproc (s : Sys n) (c : Fin n) : Option Proc := (s.cpus c).proc

/-- `cpus[hartid].proc` -/
def procOf (s : Sys n) (hart : ℕ) : Option Proc :=
  if h : hart < n then (s.cpus ⟨hart, h⟩).proc else none

def state (s : Sys n) (p : Proc) : ProcState := (s.procs p).state

end Sys

def CpuState.pushOff (x : CpuState) : CpuState :=
  { x with
    origin := if x.noff = 0 then x.intr else x.origin
    intr := false
    noff := x.noff + 1 }

/-- `pop_off`, which fails an assertion when interrupts are on or nothing was pushed. -/
def CpuState.popOff (x : CpuState) : Option CpuState :=
  if x.intr = false ∧ 1 ≤ x.noff then
    some { x with noff := x.noff - 1, intr := x.noff == 1 && x.origin }
  else none

/-- `spinlock_acquire`; the CPU waits while another one holds the lock. -/
def spinlockAcquire (s : Sys n) (c : Fin n) (l : Lock) (rest : List Op) : Option (Sys n) :=
  let x := (s.cpus c).pushOff
  match s.locks l with
  | none => some ((s.setLock l (some c)).setCpu c { x with code := rest })
  | some owner =>
    if owner = c then some (s.setCpu c { x with code := .panic :: x.code }) else none

def spinlockRelease (s : Sys n) (c : Fin n) (l : Lock) (rest : List Op) : Sys n :=
  if s.locks l = some c then
    match (s.cpus c).popOff with
    | some x => (s.setLock l none).setCpu c { x with code := rest }
    | none => s.setCode c (.panic :: (s.cpus c).code)
  else s.setCode c (.panic :: (s.cpus c).code)

/-! ## Functions as the operations they perform -/

/-- `proc_yield` -/
def yield (p : Proc) (base bit : Bool) : List Op :=
  [.acquire (.proc p), .markRunnable p, .procSched, .release (.proc p), .returned base bit]

def procSleep (p : Proc) (chan : Chan) (lk : Lock) (base bit : Bool) : List Op :=
  [.acquire (.proc p), .release lk, .markSleeping p chan, .procSched, .clearSleep p,
    .release (.proc p), .acquire lk, .returned base bit]

def sleeplockAcquire (k : ℕ) : List Op :=
  [.acquire (.sleep k), .sleeplockLoop k, .release (.sleep k)]

def sleeplockRelease (k : ℕ) : List Op :=
  [.acquire (.sleep k), .sleeplockClear k, .release (.sleep k)]

def sleeplockHolding (k : ℕ) : List Op := [.acquire (.sleep k), .release (.sleep k)]

/-- `virtio_disk_rw`, `cons_read`, `cons_write`, `timer_get_ticks` and `timer_wait`, and without
sleeping `cons_edit` and `virtio_disk_intr`. -/
def driver (d : Device) (sleeps : Bool) : List Op :=
  [.acquire (.device d), .device d sleeps, .release (.device d)]

def timerUpdate : List Op :=
  [.acquire (.device .clock), .release (.device .clock), .procWakeup (some (.device .clock 0)) 0]

/-- `proc_exit` after its check for `init` -/
def procExit (p : Proc) (code : ℤ) : List Op := [.acquire .lifecycle, .exitChildren p code 0]

/-- `proc_wait`; its two ways out both release the lock. -/
def procWait (p : Proc) : List Op :=
  [.acquire .lifecycle, .waitChildren p 0 false, .release .lifecycle]

/-- What follows `myproc()`: in `proc_yield`, `proc_fork`, `proc_exit`, `trap_user_return` and in other
system calls. -/
def Use.body (p : Proc) : Use → List Op
  | .yield base bit => Sched.yield p base bit
  | .fork => [.allocScan p 0]
  | .exit code => if p = initProcess then [.panic] else procExit p code
  | .userReturn => [.intrOff, .user p]
  | .memory => [.memory p]

/-- The interrupts that `sie` enables. -/
inductive Irq where
  | timer
  | external
deriving DecidableEq, Repr

def trapKernelHandler : Irq → List Op
  | .timer => [.timerInterrupt, .preempt, .sret]
  | .external => [.externalInterrupt, .sret]

/-! ## Operations -/

/-- What decides how code goes on whose data the model leaves out. -/
inductive Pick where
  | done
  | leaf (k : Leaf)
  | lock (k : ℕ)
  | unlock (k : ℕ)
  | holding (k : ℕ)
  | driver (d : Device)
  | wake (event : ℕ)
  | block (event : ℕ)
  | files
  | yield
  | fork
  | exit (code : ℤ)
  | wait
  | memory
  | syscall
  | interrupt (k : Irq)
  | grow
  | fatal
deriving DecidableEq, Repr

/-- The code that replaces an operation. None where the thread stops for good, follows a null
pointer or cannot go on in the given way. -/
def next (s : Sys n) (c : Fin n) (pick : Pick) : Op → Option (List Op)
  | .leafs rank =>
    match pick with
    | .done => some []
    | .leaf k =>
      if k.rank < rank then
        some [.acquire (.leaf k), .leafs k.rank, .release (.leaf k), .leafs rank]
      else none
    | _ => none
  | .device d sleeps =>
    match pick with
    | .done => some []
    -- only `printf` is called under these locks
    | .leaf _ => some [.leafs 1, .device d sleeps]
    | .wake event => some [.procWakeup (some (.device d event)) 0, .device d sleeps]
    | .block event =>
      if sleeps then
        (s.myproc c).map fun p =>
          procSleep p (.device d event) (.device d) (s.cpus c).base (s.cpus c).intr ++
            [.device d sleeps]
      else none
    | _ => none
  | .sleeplockLoop k =>
    (s.myproc c).map fun p =>
      if (s.slks k).isSome then
        procSleep p (.sleeplock k) (.sleep k) (s.cpus c).base (s.cpus c).intr ++ [.sleeplockLoop k]
      else []
  | .sleeplockClear k => some [.procWakeup (some (.sleeplock k)) 0]
  | .files =>
    match pick with
    | .done => some []
    | .leaf _ => some [.leafs 8, .files]
    | .lock k => some (sleeplockAcquire k ++ [.files])
    | .unlock k => some (sleeplockRelease k ++ [.files])
    | .holding k => some (sleeplockHolding k ++ [.files])
    | .driver .disk => some (driver .disk true ++ [.files])
    | _ => none
  | .kernel =>
    match pick with
    | .done => some []
    | .files => some [.files, .kernel]
    | .driver d => some (driver d true ++ [.kernel])
    | .yield => some [.procYield, .kernel]
    | .fork => some [.loadProc .fork c, .kernel]
    | .exit code => some [.loadProc (.exit code) c]
    | .memory => some [.loadProc .memory c, .kernel]
    | .wait => (s.myproc c).map fun p => procWait p ++ [.kernel]
    | _ => none
  | .memory p =>
    match pick with
    | .done => some []
    | .files => some [.files, .memory p]
    | .driver d => some (driver d true ++ [.memory p])
    | _ => none
  | .loadProc use hart => (s.procOf hart).map use.body
  | .trapUserReturn => some [.loadProc .userReturn c]
  | .user p =>
    -- two threads on one trap frame and one kernel stack are not followed
    if s.myproc c = some p then
      match pick with
      | .syscall => some [.intrOn, .kernel, .intrOff, .trapUserReturn]
      | .interrupt .timer => some [.timerInterrupt, .procYield, .trapUserReturn]
      | .interrupt .external => some [.externalInterrupt, .trapUserReturn]
      -- `uvm_ustack_grow` succeeds
      | .grow => some [.leafs 8, .trapUserReturn]
      -- an access that cannot be repaired or an exception with no handler
      | .fatal => some [.leafs 1, .fatal, .trapUserReturn]
      | _ => none
    else none
  | .fatal => (s.myproc c).map fun _ => [.procSched]
  | .timerInterrupt => some (if c.val = 0 then timerUpdate else [])
  | .externalInterrupt =>
    match pick with
    | .done => some []
    | .leaf _ => some [.leafs 1, .externalInterrupt]
    | .driver d => some (driver d false ++ [.externalInterrupt])
    | _ => none
  | .preempt =>
    match s.myproc c with
    | none => some []
    | some p => some (if s.state p = .running then [.procYield] else [])
  | .procYield => some [.loadProc (.yield (s.cpus c).base (s.cpus c).intr) c]
  | .markRunnable _ | .markSleeping _ _ | .clearSleep _ | .returned _ _ => some []
  | .procScheduler i =>
    if h : i < nProc then
      some [.acquire (.proc ⟨i, h⟩), .schedulerCheck ⟨i, h⟩, .release (.proc ⟨i, h⟩),
        .procScheduler (i + 1)]
    else some [.intrOn, .procScheduler 0]
  | .procWakeup chan i =>
    if h : i < nProc then
      if s.myproc c = some ⟨i, h⟩ then some [.procWakeup chan (i + 1)]
      else some [.acquire (.proc ⟨i, h⟩), .wakeupCheck chan ⟨i, h⟩, .release (.proc ⟨i, h⟩),
        .procWakeup chan (i + 1)]
    else some []
  | .wakeupCheck _ _ => some []
  | .exitChildren p code i =>
    if h : i < nProc then
      if (s.procs ⟨i, h⟩).parent = some p then
        some [.acquire (.proc ⟨i, h⟩), .exitCheck ⟨i, h⟩, .release (.proc ⟨i, h⟩),
          .exitChildren p code (i + 1)]
      else some [.exitChildren p code (i + 1)]
    else some [.acquire (.proc p), .exitMark p code]
  | .exitCheck child =>
    some (if s.state child = .zombie then [.procWakeup (some (.proc initProcess)) 0] else [])
  | .exitMark p _ =>
    some [.exitWakeup p, .release (.proc p), .release .lifecycle, .acquire (.proc p), .procSched,
      .revived p]
  | .exitWakeup p => some [.procWakeup ((s.procs p).parent.map .proc) 0]
  | .waitChildren p i haveKids =>
    if h : i < nProc then
      if (s.procs ⟨i, h⟩).parent = some p then some [.acquire (.proc ⟨i, h⟩), .waitCheck p ⟨i, h⟩]
      else some [.waitChildren p (i + 1) haveKids]
    else if haveKids then
      some (procSleep p (.proc p) .lifecycle (s.cpus c).base (s.cpus c).intr ++
        [.waitChildren p 0 false])
    else some []
  | .waitCheck p child =>
    -- `printf`, then `proc_free` up to the reset of the slot
    if s.state child = .zombie then
      some [.leafs 1, .files, .freed child, .release (.proc child)]
    else some [.release (.proc child), .waitChildren p (child + 1) true]
  | .freed _ => some []
  | .allocScan p i =>
    if h : i < nProc then some [.acquire (.proc ⟨i, h⟩), .allocCheck p ⟨i, h⟩] else some []
  | .allocCheck p child =>
    if s.state child = .unused then
      some [.acquire (.leaf .pid), .release (.leaf .pid), .leafs 7, .release (.proc child)]
    else some [.release (.proc child), .allocScan p (child + 1)]
  -- the first process initializes the file system and opens its standard streams
  | .procEntryPoint p =>
    some ([.release (.proc p)] ++ (if (s.procs p).pid = 1 then [.files] else []) ++ [.trapUserReturn])
  | _ => none

/-- `proc_alloc` and what `proc_fork` adds to the slot before it releases its lock. -/
def procFork (s : Sys n) (p child : Proc) : Sys n :=
  { s with nextPid := s.nextPid + 1 }.setProc child
    { pid := s.nextPid, state := .runnable, parent := some p, exitCode := 0, sleepSpace := none,
      ctx := [.procEntryPoint child], left := (1, none) }

/-- What an operation writes to the memory that the threads share. -/
def write (s : Sys n) (c : Fin n) : Op → Sys n
  | .sleeplockLoop k =>
    match s.slks k, s.myproc c with
    | none, some p => { s with slks := Function.update s.slks k (some (s.procs p).pid) }
    | _, _ => s
  | .sleeplockClear k => { s with slks := Function.update s.slks k none }
  | .fatal =>
    match s.myproc c with
    | some p => s.setProc p { s.procs p with state := .zombie, exitCode := -1 }
    | none => s
  | .markRunnable p => s.setProc p { s.procs p with state := .runnable }
  | .markSleeping p chan =>
    s.setProc p { s.procs p with sleepSpace := some chan, state := .sleeping }
  | .clearSleep p => s.setProc p { s.procs p with sleepSpace := none }
  | .wakeupCheck chan p =>
    if s.state p = .sleeping ∧ (s.procs p).sleepSpace = chan then
      s.setProc p { s.procs p with state := .runnable }
    else s
  | .exitChildren p _ i =>
    if h : i < nProc then
      if (s.procs ⟨i, h⟩).parent = some p then
        s.setProc ⟨i, h⟩ { s.procs ⟨i, h⟩ with parent := some initProcess }
      else s
    else s
  | .exitMark p code => s.setProc p { s.procs p with exitCode := code, state := .zombie }
  | .freed child =>
    s.setProc child { s.procs child with pid := 0, parent := none, state := .unused }
  | .allocCheck p child => if s.state child = .unused then procFork s p child else s
  | _ => s

/-! ## Steps -/

/-- `swtch` from a thread, after which `proc_scheduler` clears `c->proc`. -/
def toScheduler (s : Sys n) (c : Fin n) (p : Proc) (rest : List Op) : Sys n :=
  (s.setProc p
    { s.procs p with
      ctx := rest
      left := ((s.cpus c).noff, some (s.cpus c).origin) }).setCpu c
    { s.cpus c with proc := none, code := (s.cpus c).ctx }

/-- `proc_scheduler` marks the process and switches to it. -/
def toProcess (s : Sys n) (c : Fin n) (p : Proc) (rest : List Op) : Sys n :=
  (s.setProc p { s.procs p with state := .running }).setCpu c
    { s.cpus c with proc := some p, ctx := rest, code := (s.procs p).ctx }

/-- A CPU takes an interrupt, or goes on with its code. -/
inductive Input where
  | irq (k : Irq)
  | go (pick : Pick)
deriving DecidableEq, Repr

def step (s : Sys n) (c : Fin n) : Input → Option (Sys n)
  | .irq k =>
    let x := s.cpus c
    if x.intr then some (s.setCpu c { x with intr := false, code := trapKernelHandler k ++ x.code })
    else none
  | .go pick =>
    let x := s.cpus c
    match x.code with
    | [] => none
    | op :: rest =>
      match op with
      | .acquire l => spinlockAcquire s c l rest
      | .release l => some (spinlockRelease s c l rest)
      | .intrOn => some (s.setCpu c { x with intr := true, code := rest })
      | .intrOff => some (s.setCpu c { x with intr := false, code := rest })
      | .sret => some (s.setCpu c { x with intr := true, code := rest })
      | .procSched => (s.myproc c).map fun p => toScheduler s c p rest
      | .schedulerCheck p =>
        some (if s.state p = .runnable then toProcess s c p rest else s.setCode c rest)
      | op => (next s c pick op).map fun body => (write s c op).setCode c (body ++ rest)

def Step (s : Sys n) (a : Fin n × Input) (s' : Sys n) : Prop := step s a.1 a.2 = some s'

/-- A CPU goes on as often as given. -/
def goOn (c : Fin n) (count : ℕ) : List (Fin n × Input) := List.replicate count (c, .go .done)

/-- A CPU goes on in one way. -/
def choose (c : Fin n) (pick : Pick) : List (Fin n × Input) := [(c, .go pick)]

/-- The state that `main` leaves to the schedulers: `proc_make_first` has filled the first slot. -/
def boot : Sys n where
  cpus _ :=
    { noff := 0, origin := false, intr := false, proc := none, ctx := [],
      code := [.intrOn, .procScheduler 0] }
  locks _ := none
  procs p :=
    if p = initProcess then
      { pid := 1, state := .runnable, parent := none, exitCode := 0, sleepSpace := none,
        ctx := [.procEntryPoint p], left := (1, none) }
    else
      { pid := 0, state := .unused, parent := none, exitCode := 0, sleepSpace := none,
        ctx := [], left := (0, none) }
  slks _ := none
  nextPid := 2

end LabKernel.Sched
