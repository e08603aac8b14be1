import LabKernel.Fs.Syscall
import LabKernel.Mem.Destroy
import LabKernel.Mem.Reap

/-! # Running a program

`kernel/proc/exec.c` with `sys_exec`, `syscall` and the system-call branch of the trap handler: what
they do to the file system, to memory and to the names of processes. The trap frame is a page of
memory; the offsets of its fields are those of `trapframe_t`.
-/

namespace LabKernel

/-! ## The two parts of the kernel -/

/-- What `proc_exec` works on. -/
structure Kernel where
  fs : FsState
  mem : Machine
  name : ℕ → Bytes

abbrev KernelM := EStateM Fault Kernel

def Kernel.setName (s : Kernel) (p : ℕ) (name : Bytes) : Kernel :=
  { s with name := Function.update s.name p name }

def onFs {α : Type} (x : FsM α) : KernelM α := fun s =>
  match x s.fs with
  | .ok a fs => .ok a { s with fs := fs }
  | .error e fs => .error e { s with fs := fs }

def onMem {α : Type} (x : MemM α) : KernelM α := fun s =>
  match x s.mem with
  | .ok a mem => .ok a { s with mem := mem }
  | .error e mem => .error e { s with mem := mem }

/-! ## Strings -/

/-- The string in a buffer of a size. -/
def cstring (size : ℕ) (buf : Bytes) : List U8 := ((List.range size).map buf).takeWhile (· != 0)

/-! ## The trap frame -/

/-- `user_to_kern_epc` -/
def tfEpc : ℕ := 24

/-- `sp` -/
def tfSp : ℕ := 48

/-- `a0`, `a1`, … -/
def tfArg (n : ℕ) : ℕ := 112 + 8 * n

def tfField (p : ℕ) (off : ℕ) : MemM U64 := do
  let proc ← myproc p
  return ((← get).pages proc.tf).u64 off

def setTfField (p : ℕ) (off : ℕ) (v : U64) : MemM Unit := do
  let proc ← myproc p
  modify fun s => s.setPage proc.tf ((s.pages proc.tf).setU64 off v)

/-! ## Loading a program -/

/-- `uvm_alloc`; `pmem_alloc` panics where there is no page. -/
def uvmAlloc (pgtbl : U64) (start stop : ℕ) (perm : U32) : MemM Unit :=
  growLoop pgtbl perm (alignUp stop) (alignUp stop / pgsize + 2) (alignDown start)

/-- `perm` of a segment -/
def segmentPerm (flags : U32) : U32 :=
  let perm : U32 := 0x12
  let perm := if flags &&& 2 ≠ 0 then perm ||| 4 else perm
  if flags &&& 1 ≠ 0 then perm ||| 8 else perm

/-- The loop of `load_segment`. What it reads of the file goes to the begin of the page. -/
def loadSegmentLoop (cfg : FsConfig) (pgtbl : U64) (va : ℕ) (ip : ℕ) (offset : U32) (sz : ℕ) :
    (fuel i : ℕ) → KernelM Bool
  | 0, _ => throw .hang
  | fuel + 1, i =>
    if i < sz then do
      match ← onMem (vmGetpte pgtbl (wrap64 (va + i)) false) with
      | none => return false
      | some (t, k) =>
        let pte := (← get).mem.pte t k
        if ¬PteHas pte pteV then return false
        let pa := pteToPa pte
        let n := min (pgsize - wrap64 (va + i) % pgsize) (sz - i)
        let r ← onFs (Fs.inodeReadData cfg ip (offset + BitVec.ofNat 32 i) (BitVec.ofNat 32 n)
          ((← get).mem.pages pa))
        onMem (modify fun s => s.setPage pa r.2)
        if r.1 ≠ BitVec.ofNat 32 n then return false
        loadSegmentLoop cfg pgtbl va ip offset sz fuel (i + n)
    else return true

/-- `load_segment`; its parameters `offset` and `sz` have 32 bits. -/
def loadSegment (cfg : FsConfig) (pgtbl : U64) (va : ℕ) (ip : ℕ) (offset sz : U32) : KernelM Bool :=
  loadSegmentLoop cfg pgtbl va ip offset sz.toNat (sz.toNat + 1) 0

/-- The end of a segment, to a page -/
def segmentEnd (ph : Proghdr) : ℕ := alignUp (wrap64 (ph.vaddr.toNat + ph.memsz.toNat))

/-- One round of the segment loop: `none` where it gives up, else the new `sz`. -/
def loadHeader (cfg : FsConfig) (pgtbl : U64) (ip : ℕ) (off : U32) (sz : ℕ) : KernelM (Option ℕ) := do
  let r ← onFs (Fs.inodeReadData cfg ip off proghdrSize fun _ => 0)
  let ph := Proghdr.decode r.2
  if r.1 ≠ proghdrSize then return none
  if ph.type ≠ elfProgLoad then return some sz
  if ph.memsz < ph.filesz then return none
  if ph.vaddr + ph.memsz < ph.vaddr then return none
  onMem (uvmAlloc pgtbl ph.vaddr.toNat (wrap64 (ph.vaddr.toNat + ph.memsz.toNat)) (segmentPerm ph.flags))
  if ← loadSegment cfg pgtbl ph.vaddr.toNat ip (ph.off.setWidth 32) (ph.filesz.setWidth 32) then
    return some (max sz (segmentEnd ph))
  else return none

/-- The segment loop of `proc_exec`, `count` headers to go. -/
def loadHeaders (cfg : FsConfig) (pgtbl : U64) (ip : ℕ) :
    (count : ℕ) → (off : U32) → (sz : ℕ) → KernelM (Option ℕ)
  | 0, _, sz => return some sz
  | count + 1, off, sz => do
    match ← loadHeader cfg pgtbl ip off sz with
    | none => return none
    | some sz => loadHeaders cfg pgtbl ip count (off + proghdrSize) sz

/-! ## The new stack -/

/-- `sp -= n; sp -= sp % 16` -/
def pushDown (sp n : ℕ) : ℕ :=
  let sp := wrap64 (sp + 2 ^ 64 - n)
  sp - sp % 16

/-- The first loop of `prepare_stack`: the stack pointer and the addresses of the strings, or nothing
where they do not fit. Behind 32 arguments it reads past the end of `argv`. -/
def pushStrings (pgtbl : U64) (base : ℕ) :
    List U64 → (argc sp : ℕ) → List ℕ → MemM (Option (ℕ × List ℕ))
  | [], argc, sp, stack => if 32 ≤ argc then throw .wildPointer else return some (sp, stack)
  | arg :: rest, argc, sp, stack => do
    if 32 ≤ argc then return none
    let text := (← get).pages arg
    let len := (cstring pgsize text).length
    let sp := pushDown sp (len + 1)
    if sp < base then return none
    uvmCopyout pgtbl sp text (len + 1)
    pushStrings pgtbl base rest (argc + 1) sp (stack ++ [sp])

/-- An array of 64-bit words in memory -/
def wordBytes (words : List ℕ) : Bytes := fun x => Bytes.leBytes (words.getD (x / 8) 0) (x % 8)

/-- `prepare_stack`: the address of the `argv` array, 0 where the arguments do not fit. -/
def prepareStack (pgtbl : U64) (top : ℕ) (argv : List U64) : MemM ℕ := do
  let base := wrap64 (top + 2 ^ 64 - pgsize)
  match ← pushStrings pgtbl base argv 0 top [] with
  | none => return 0
  | some (sp, stack) =>
    let sp := pushDown sp (8 * (stack.length + 1))
    if sp < base then return 0
    uvmCopyout pgtbl sp (wordBytes (stack ++ [0])) (8 * (stack.length + 1))
    return sp

/-! ## `proc_exec` -/

/-- The label `bad` of `proc_exec`: what there is of a page table and an inode is given up. -/
def execBad (ram : Ram) (cfg : FsConfig) (pgtbl : Option U64) (ip : Option ℕ) : KernelM ℤ := do
  match pgtbl with
  | some pgtbl => onMem (uvmDestroyPgtbl ram pgtbl)
  | none => pure ()
  match ip with
  | some ip =>
    onFs (Fs.sleeplockRelease ip)
    onFs (Fs.inodePut cfg ip)
  | none => pure ()
  return -1

/-- The last part of a path, where `p->name` is copied from. -/
def lastPart (path : Bytes) : ℕ :=
  let text := cstring 128 path
  text.length - (text.reverse.takeWhile (· != slash)).length

/-- The steps of `proc_exec` that cannot fail any more. -/
def execCommit (ram : Ram) (p : ℕ) (path : Bytes) (pgtbl : U64) (top sp : ℕ) (entry : U64)
    (argc : ℕ) : KernelM ℤ := do
  let proc ← onMem (myproc p)
  onMem (setMyproc p { proc with pgtbl := pgtbl, heapTop := top, ustackNpage := 1 })
  onMem (setTfField p tfEpc entry)
  onMem (setTfField p tfSp (BitVec.ofNat 64 sp))
  onMem (setTfField p (tfArg 0) (BitVec.ofNat 64 argc))
  onMem (setTfField p (tfArg 1) (BitVec.ofNat 64 sp))
  modify fun s => s.setName p fun i => if i < 16 then path (lastPart path + i) else s.name p i
  onMem (uvmDestroyPgtbl ram proc.pgtbl)
  return 0

/-- The steps of `proc_exec` behind the segment loop. -/
def execStack (ram : Ram) (cfg : FsConfig) (p : ℕ) (path : Bytes) (argv : List U64) (pgtbl : U64)
    (sz : ℕ) (entry : U64) : KernelM ℤ := do
  let base := alignUp sz
  let top := wrap64 (base + pgsize)
  onMem (uvmAlloc pgtbl base top 0x16)
  let sp ← onMem (prepareStack pgtbl top argv)
  if sp = 0 then execBad ram cfg (some pgtbl) none
  else execCommit ram p path pgtbl top sp entry argv.length

/-- The steps of `proc_exec` with the inode of the file locked. -/
def execLoad (ram : Ram) (cfg : FsConfig) (code : U64) (p : ℕ) (path : Bytes) (argv : List U64)
    (ip : ℕ) : KernelM ℤ := do
  let r ← onFs (Fs.inodeReadData cfg ip 0 elfhdrSize fun _ => 0)
  let elf := Elfhdr.decode r.2
  if r.1 ≠ elfhdrSize ∨ elf.magic ≠ elfMagic then execBad ram cfg none (some ip)
  else
    let proc ← onMem (myproc p)
    let pgtbl ← onMem (procPgtblInit code proc.tf)
    match ← loadHeaders cfg pgtbl ip elf.phnum.toNat (elf.phoff.setWidth 32) 0 with
    | none => execBad ram cfg (some pgtbl) (some ip)
    | some sz =>
      onFs (Fs.sleeplockRelease ip)
      onFs (Fs.inodePut cfg ip)
      execStack ram cfg p path argv pgtbl sz elf.entry

/-- `proc_exec`; `argv` are the pages that hold the arguments, `code` is the trampoline. -/
def execFile (ram : Ram) (cfg : FsConfig) (code : U64) (p : ℕ) (path : Bytes) (argv : List U64) :
    KernelM ℤ := do
  match ← onFs (Fs.pathToInode cfg p (cstring 128 path)) with
  | none => return -1
  | some ip =>
    onFs (Fs.sleeplockAcquire ip)
    execLoad ram cfg code p path argv ip

/-! ## The system call -/

/-- The first loop of `sys_exec`, `n` arguments to go. -/
def readArgv (pgtbl : U64) (argvPtr : ℕ) : (n i : ℕ) → MemM (List U64)
  | 0, _ => return []
  | n + 1, i => do
    let word ← uvmCopyin pgtbl (wrap64 (argvPtr + 8 * i)) 8
    if word.u64 0 = 0 then return []
    let page ← pmemAlloc false
    let text ← uvmCopyinStr pgtbl (word.u64 0).toNat pgsize ((← get).pages page)
    modify fun s => s.setPage page text
    return page :: (← readArgv pgtbl argvPtr n (i + 1))

/-- The path and the arguments of `sys_exec`; `junk` is what its path buffer holds before. -/
def execArgs (p : ℕ) (junk : Bytes) : MemM (Bytes × List U64) := do
  let proc ← myproc p
  let path ← uvmCopyinStr proc.pgtbl (← tfField p (tfArg 0)).toNat 128 junk
  let argvPtr ← tfField p (tfArg 1)
  return (path, ← readArgv proc.pgtbl argvPtr.toNat 32 0)

/-- The last loop of `sys_exec` -/
def freeArgv (ram : Ram) : List U64 → MemM Unit
  | [] => return ()
  | page :: rest => do
    pmemFree ram page false
    freeArgv ram rest

def sysExec (ram : Ram) (cfg : FsConfig) (code : U64) (p : ℕ) (junk : Bytes) : KernelM U64 := do
  let (path, argv) ← onMem (execArgs p junk)
  let ret ← execFile ram cfg code p path argv
  onMem (freeArgv ram argv)
  return BitVec.ofInt 64 ret

def sysExecNum : ℤ := 35

/-- `syscall`, for a table of system calls -/
def syscall (syscalls : ℤ → Option (KernelM U64)) (p : ℕ) : KernelM Unit := do
  let sysNum := (← onMem (tfField p (tfArg 7))).setWidth 32 |>.toInt
  match syscalls sysNum with
  | none => throw (.panic "syscall")
  | some service =>
    let ret ← service
    onMem (setTfField p (tfArg 0) ret)

/-- What `trap_user_return` writes for the next trap. -/
structure TrapInfo where
  hartid : U64
  kstackTop : U64
  trapvector : U64

/-- `trap_user_return`: it writes the trap frame and goes to the address it returns. -/
def trapUserReturn (p : ℕ) (info : TrapInfo) : MemM U64 := do
  setTfField p 32 info.hartid
  setTfField p 8 info.kstackTop
  setTfField p 16 info.trapvector
  tfField p tfEpc

/-- What `trap_user_handler` writes before a system call that was asked for at `sepc`. -/
def trapEnter (p : ℕ) (sepc : U64) : MemM Unit := do
  setTfField p tfEpc sepc
  setTfField p tfEpc (sepc + 4)

/-- `trap_user_handler`, for an `ecall` at `sepc` -/
def trapUserEcall (syscalls : ℤ → Option (KernelM U64)) (p : ℕ) (sepc : U64) (info : TrapInfo) :
    KernelM U64 := do
  onMem (trapEnter p sepc)
  syscall syscalls p
  onMem (trapUserReturn p info)

end LabKernel
