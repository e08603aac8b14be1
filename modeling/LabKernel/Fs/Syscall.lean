import LabKernel.Fs.File
import LabKernel.Lib.Transition

/-! # File-system calls

The file-system part of `kernel/syscall/sysfunc.c`, `kernel/proc/proc.c` and `kernel/proc/exec.c`,
and the transition system of all processes: each step is one call of one process that returns. What
a call moves to and from user memory is an input or an output of it; a call that stops in a panic or
never returns ends the run.
-/

namespace LabKernel

def elfhdrSize : U32 := 72

def proghdrSize : U32 := 56

def elfMagic : U32 := 0x464C457F

def pgSize : ℕ := 4096

/-- The fields of `struct elfhdr` that `proc_exec` reads. -/
structure Elfhdr where
  magic : U32
  entry : U64
  phoff : U64
  phnum : U16
deriving DecidableEq, Repr

def Elfhdr.decode (b : Bytes) : Elfhdr := ⟨b.u32 0, b.u64 24, b.u64 32, b.u16 60⟩

/-- The fields of `struct proghdr` that `proc_exec` reads. -/
structure Proghdr where
  type : U32
  flags : U32
  off : U64
  vaddr : U64
  filesz : U64
  memsz : U64
deriving DecidableEq, Repr

def Proghdr.decode (b : Bytes) : Proghdr := ⟨b.u32 0, b.u32 4, b.u64 8, b.u64 16, b.u64 32, b.u64 40⟩

def elfProgLoad : U32 := 1

/-- What the loader of `proc_exec` finds in a file. -/
structure ElfImage where
  header : Elfhdr
  segments : List (Proghdr × Bytes)

namespace Fs

variable (cfg : FsConfig)

def getProc (p : ℕ) : FsM Proc := do
  let s ← get
  pure (s.procPool p)

def updateProc (p : ℕ) (f : Proc → Proc) : FsM Unit :=
  modify fun s => s.setProc p (f (s.procPool p))

/-- Write a place of the open-file table of a process. -/
def setOpenFile (p fd : ℕ) (f : Option ℕ) : FsM Unit :=
  updateProc p fun proc => { proc with openFile := Function.update proc.openFile fd f }

def freeDescriptor (proc : Proc) : Option ℕ :=
  (List.range nOpenFile).find? fun fd => proc.openFile fd == none

/-- A descriptor argument that is in range and open, as `sys_read` and its like check it. -/
def openedFile (proc : Proc) (fd : ℤ) : Option ℕ :=
  if fd < 0 ∨ nOpenFile ≤ fd then none else proc.openFile fd.toNat

def sysOpen (p : ℕ) (path : List U8) (mode : U32) (junk : Bytes) : FsM ℤ := do
  match ← fileOpen cfg p path mode junk with
  | none => pure (-1)
  | some f =>
    let proc ← getProc p
    match freeDescriptor proc with
    | some fd =>
      setOpenFile p fd (some f)
      pure fd
    | none =>
      fileClose cfg f
      pure (-1)

def sysClose (p : ℕ) (fd : ℤ) : FsM ℤ := do
  let proc ← getProc p
  match openedFile proc fd with
  | none => pure (-1)
  | some f =>
    fileClose cfg f
    setOpenFile p fd.toNat none
    pure 0

def sysRead (p : ℕ) (fd : ℤ) (len : U32) (typed : List U8) : FsM U32 := do
  let proc ← getProc p
  match openedFile proc fd with
  | none => pure minusOne
  | some f =>
    let r ← fileRead cfg f len typed
    pure r.1

def sysWrite (p : ℕ) (fd : ℤ) (len : U32) (src : Bytes) : FsM U32 := do
  let proc ← getProc p
  match openedFile proc fd with
  | none => pure minusOne
  | some f => fileWrite cfg f len src

def sysLseek (p : ℕ) (fd : ℤ) (offset : U32) (flag : ℕ) : FsM U32 := do
  let proc ← getProc p
  match openedFile proc fd with
  | none => pure minusOne
  | some f => fileLseek f offset (LseekFlag.decode flag)

def sysDup (p : ℕ) (fd : ℤ) : FsM ℤ := do
  let proc ← getProc p
  match openedFile proc fd with
  | none => pure (-1)
  | some f =>
    match freeDescriptor proc with
    | none => pure (-1)
    | some new =>
      let f ← fileDup f
      setOpenFile p new (some f)
      pure new

def sysFstat (p : ℕ) (fd : ℤ) : FsM (Option FileStat) := do
  let proc ← getProc p
  match openedFile proc fd with
  | none => pure none
  | some f =>
    let stat ← fileGetStat f
    pure (some stat)

/-- `dentry_transmit`: the entries copied out; a read that fails leaves the last entry in place. -/
def dentryTransmitFrom (i : ℕ) (len : U32) :
    (fuel : ℕ) → (off : U32) → (de : Bytes) → (out : List Dentry) → FsM (List Dentry)
  | 0, _, _, _ => throw .hang
  | fuel + 1, off, de, out => do
    let info ← diskInfo i
    if off < info.size ∧ 64 * out.length + 64 ≤ len.toNat then
      let r ← inodeReadData cfg i off dentrySize de
      let entry := Dentry.decode r.2 0
      dentryTransmitFrom i len fuel (off + dentrySize) r.2
        (if entry.inodeNum ≠ 0 then out ++ [entry] else out)
    else pure out

/-- `sys_get_dentries`; the descriptor is not checked against the size of the table. -/
def sysGetDentries (p : ℕ) (fd : ℤ) (len : U32) : FsM (Option (List Dentry)) := do
  let proc ← getProc p
  if fd < 0 ∨ nOpenFile ≤ fd then throw .wildPointer
  else
    match proc.openFile fd.toNat with
    | none => pure none
    | some f =>
      let s ← get
      let ip ← fileInode (s.fileTable f)
      note .sysGetDentries ip
      let info ← diskInfo ip
      if info.type ≠ inodeTypeDir then pure none
      else
        let out ← dentryTransmitFrom cfg ip len scanFuel 0 (fun _ => 0) []
        pure (some out)

def sysMkdir (p : ℕ) (path : List U8) (junk : Bytes) : FsM ℤ := do
  match ← pathCreateInode cfg p path inodeTypeDir 0 0 junk with
  | none => pure (-1)
  | some ip =>
    inodePut cfg ip
    pure 0

def sysChdir (p : ℕ) (path : List U8) : FsM ℤ := do
  match ← pathToInode cfg p path with
  | none => pure (-1)
  | some ip =>
    note .sysChdir ip
    let info ← diskInfo ip
    if info.type ≠ inodeTypeDir then
      inodePut cfg ip
      pure (-1)
    else
      let proc ← getProc p
      match proc.cwd with
      | none => throw .wildPointer
      | some old =>
        inodePut cfg old
        updateProc p fun proc => { proc with cwd := some ip }
        pure 0

/-- `dentry_search_2`: the name of the first entry with a number, else the name buffer as it was. -/
def dentrySearch2From (i : ℕ) (inodeNum : U32) (name : Bytes) : (fuel : ℕ) → (off : U32) → FsM Bytes
  | 0, _ => throw .hang
  | fuel + 1, off => do
    let info ← diskInfo i
    if off < info.size then
      match ← readDentry cfg i off with
      | none => pure name
      | some de =>
        if de.inodeNum = inodeNum then pure de.name
        else dentrySearch2From i inodeNum name fuel (off + dentrySize)
    else pure name

/-- `strlen` of a name buffer, `none` if it has no end. -/
def nameLen (name : Bytes) : Option ℕ := (List.range maxlenFilename).find? fun i => name i == 0

/-- The loop of `inode_to_path`: every round puts a slash and a name in front of the path, which has
127 bytes of room. -/
def inodeToPathFrom (p : ℕ) (junk : Bytes) : (fuel curr : ℕ) → List U8 → FsM (Option (ℕ × List U8))
  | 0, _, _ => throw .wildPointer
  | fuel + 1, curr, text => do
    let s ← get
    if (s.inodeCache curr).inodeNum = rootInode then pure (some (curr, text))
    else
      match ← pathToInode cfg p [0x2E, 0x2E] with
      | none =>
        inodePut cfg curr
        pure none
      | some parent =>
        let name ← dentrySearch2From cfg parent (s.inodeCache curr).inodeNum junk scanFuel 0
        match nameLen name with
        | none => throw .wildPointer
        | some len =>
          if 127 < text.length + len + 1 then throw .wildPointer
          else
            inodePut cfg curr
            inodeToPathFrom p junk fuel parent (slash :: ((List.range len).map fun i => name i) ++ text)

/-- `sys_print_cwd`: the path found, if any. -/
def sysPrintCwd (p : ℕ) (junk : Bytes) : FsM (Option (List U8)) := do
  let proc ← getProc p
  match proc.cwd with
  | none => throw .wildPointer
  | some cwd =>
    let info ← diskInfo cwd
    if info.type ≠ inodeTypeDir then pure none
    else
      let curr ← inodeDup cwd
      match ← inodeToPathFrom cfg p junk 128 curr [] with
      | none => pure none
      | some (curr, text) =>
        inodePut cfg curr
        pure (some (if text = [] then [slash] else text))

def sysLink (p : ℕ) (oldPath newPath : List U8) (junk : Bytes) : FsM U32 :=
  pathLink cfg p oldPath newPath junk

def sysUnlink (p : ℕ) (path : List U8) (junk : Bytes) : FsM U32 := pathUnlink cfg p path junk

/-- The reads of `load_segment`: each ends at a page boundary of the address space. -/
def loadSegmentFrom (i : ℕ) (va : U64) (offset sz : ℕ) :
    (fuel done : ℕ) → (image : Bytes) → FsM (Option Bytes)
  | 0, _, image => pure (some image)
  | fuel + 1, done, image => do
    if done < sz then
      let n := min (pgSize - (va.toNat + done) % pgSize) (sz - done)
      let r ← inodeReadData cfg i (BitVec.ofNat 32 (offset + done)) (BitVec.ofNat 32 n) (fun _ => 0)
      if r.1 ≠ BitVec.ofNat 32 n then pure none
      else loadSegmentFrom i va offset sz fuel (done + n) (image.blit done r.2 n)
    else pure (some image)

/-- The segment loop of `proc_exec`, `count` headers to go; `none` where it gives up. -/
def loadSegments (i : ℕ) :
    (count : ℕ) → (off : U32) → List (Proghdr × Bytes) → FsM (Option (List (Proghdr × Bytes)))
  | 0, _, loaded => pure (some loaded)
  | count + 1, off, loaded => do
    let r ← inodeReadData cfg i off proghdrSize (fun _ => 0)
    let ph := Proghdr.decode r.2
    if r.1 ≠ proghdrSize then pure none
    else if ph.type ≠ elfProgLoad then loadSegments i count (off + proghdrSize) loaded
    else if ph.memsz < ph.filesz ∨ ph.vaddr + ph.memsz < ph.vaddr then pure none
    else
      let sz := ph.filesz.toNat % 2 ^ 32
      match ← loadSegmentFrom cfg i ph.vaddr (ph.off.toNat % 2 ^ 32) sz sz 0 (fun _ => 0) with
      | none => pure none
      | some image => loadSegments i count (off + proghdrSize) (loaded ++ [(ph, image)])

/-- What `proc_exec` does to the file system while memory suffices: the file is found, locked, read
and put. -/
def procExec (p : ℕ) (path : List U8) : FsM (Option ElfImage) := do
  match ← pathToInode cfg p path with
  | none => pure none
  | some ip =>
    sleeplockAcquire ip
    note .procExec ip
    let r ← inodeReadData cfg ip 0 elfhdrSize (fun _ => 0)
    let elf := Elfhdr.decode r.2
    if r.1 ≠ elfhdrSize ∨ elf.magic ≠ elfMagic then
      sleeplockRelease ip
      inodePut cfg ip
      pure none
    else
      let segments ← loadSegments cfg ip elf.phnum.toNat (BitVec.ofNat 32 elf.phoff.toNat) []
      sleeplockRelease ip
      inodePut cfg ip
      pure (segments.map fun list => ⟨elf, list⟩)

/-- Hand a copy of each open descriptor from `fd` on to a child. -/
def forkFiles (p child : ℕ) : (n fd : ℕ) → FsM Unit
  | 0, _ => pure ()
  | n + 1, fd => do
    let proc ← getProc p
    match proc.openFile fd with
    | none => forkFiles p child n (fd + 1)
    | some f =>
      let f ← fileDup f
      setOpenFile child fd (some f)
      forkFiles p child n (fd + 1)

/-- `proc_fork`, its file part. -/
def procFork (p : ℕ) : FsM (Option ℕ) := do
  let s ← get
  match (List.range nProc).find? fun q => (s.procPool q).state == .unused with
  | none => pure none
  | some child =>
    updateProc child fun _ => ⟨.unused, none, none, fun _ => none⟩
    match (s.procPool p).cwd with
    | none =>
      forkFiles p child nOpenFile 0
    | some i =>
      let i ← inodeDup i
      updateProc child fun proc => { proc with cwd := some i }
      forkFiles p child nOpenFile 0
    updateProc child fun proc => { proc with state := .running, parent := some p }
    pure (some child)

/-- `proc_exit`: files and directory stay open until the parent has waited. -/
def procExit (p : ℕ) : FsM Unit :=
  if p = 0 then throw (.panic "init process exiting")
  else modify fun s =>
    { s with procPool := fun q =>
        let proc := s.procPool q
        let proc := if proc.parent = some p then { proc with parent := some 0 } else proc
        if q = p then { proc with state := .zombie } else proc }

/-- Close every open descriptor of a process from `fd` on. -/
def closeFiles (q : ℕ) : (n fd : ℕ) → FsM Unit
  | 0, _ => pure ()
  | n + 1, fd => do
    let proc ← getProc q
    match proc.openFile fd with
    | none => closeFiles q n (fd + 1)
    | some f =>
      fileClose cfg f
      setOpenFile q fd none
      closeFiles q n (fd + 1)

/-- `proc_free`, its file part. -/
def procFree (q : ℕ) : FsM Unit := do
  let proc ← getProc q
  match proc.cwd with
  | none => pure ()
  | some i =>
    inodePut cfg i
    updateProc q fun proc => { proc with cwd := none }
  closeFiles cfg q nOpenFile 0
  updateProc q fun proc => { proc with state := .unused, parent := none }

/-- `proc_wait`; a process whose children all run waits for one to exit. -/
def procWait (p : ℕ) : FsM (Option ℕ) := do
  let s ← get
  match (List.range nProc).find? fun q =>
    (s.procPool q).parent == some p && (s.procPool q).state == .zombie with
  | some q =>
    procFree cfg q
    pure (some q)
  | none =>
    if (List.range nProc).any fun q => (s.procPool q).parent == some p then throw .hang
    else pure none

/-- A path as text. -/
def devPath (name : List U8) : List U8 := [0x2F, 0x64, 0x65, 0x76, 0x2F] ++ name

/-- The working directory of the first process. -/
def enterRoot : FsM Unit := do
  let root ← inodeGet cfg rootInode
  updateProc 0 fun proc => { proc with cwd := some root }

/-- A standard file of the first process: `p->open_file[fd] = file_open(..)`. -/
def openStandard (fd : ℕ) (name : List U8) (mode : U32) (junk : Bytes) : FsM Unit := do
  let f ← fileOpen cfg 0 (devPath name) mode junk
  setOpenFile 0 fd f

def stdinName : List U8 := [0x73, 0x74, 0x64, 0x69, 0x6E]

def stdoutName : List U8 := [0x73, 0x74, 0x64, 0x6F, 0x75, 0x74]

def stderrName : List U8 := [0x73, 0x74, 0x64, 0x65, 0x72, 0x72]

/-- The file-system part of `proc_entry_point` for the first process. -/
def procEntryPoint (junk : Bytes) : FsM Unit := do
  enterRoot cfg
  openStandard cfg 0 stdinName openRead junk
  openStandard cfg 1 stdoutName openWrite junk
  openStandard cfg 2 stderrName openWrite junk

end Fs

/-! ## The transition system -/

/-- A file-system call with its inputs; `junk` is what an uninitialised name buffer holds. -/
inductive Call where
  | entryPoint (junk : Bytes)
  | fork
  | exit
  | wait
  | exec (path : List U8)
  | open (path : List U8) (mode : U32) (junk : Bytes)
  | close (fd : ℤ)
  | read (fd : ℤ) (len : U32) (typed : List U8)
  | write (fd : ℤ) (len : U32) (src : Bytes)
  | lseek (fd : ℤ) (offset : U32) (flag : ℕ)
  | dup (fd : ℤ)
  | fstat (fd : ℤ)
  | getDentries (fd : ℤ) (len : U32)
  | mkdir (path : List U8) (junk : Bytes)
  | chdir (path : List U8)
  | printCwd (junk : Bytes)
  | link (oldPath newPath : List U8) (junk : Bytes)
  | unlink (path : List U8) (junk : Bytes)

def Call.run (cfg : FsConfig) (p : ℕ) : Call → FsM Unit
  | .entryPoint junk => Fs.procEntryPoint cfg junk
  | .fork => discard (Fs.procFork p)
  | .exit => Fs.procExit p
  | .wait => discard (Fs.procWait cfg p)
  | .exec path => discard (Fs.procExec cfg p path)
  | .open path mode junk => discard (Fs.sysOpen cfg p path mode junk)
  | .close fd => discard (Fs.sysClose cfg p fd)
  | .read fd len typed => discard (Fs.sysRead cfg p fd len typed)
  | .write fd len src => discard (Fs.sysWrite cfg p fd len src)
  | .lseek fd offset flag => discard (Fs.sysLseek p fd offset flag)
  | .dup fd => discard (Fs.sysDup p fd)
  | .fstat fd => discard (Fs.sysFstat p fd)
  | .getDentries fd len => discard (Fs.sysGetDentries cfg p fd len)
  | .mkdir path junk => discard (Fs.sysMkdir cfg p path junk)
  | .chdir path => discard (Fs.sysChdir cfg p path)
  | .printCwd junk => discard (Fs.sysPrintCwd cfg p junk)
  | .link oldPath newPath junk => discard (Fs.sysLink cfg p oldPath newPath junk)
  | .unlink path junk => discard (Fs.sysUnlink cfg p path junk)

/-- One call of a running process that returns. -/
def FsStep (cfg : FsConfig) (s : FsState) (call : ℕ × Call) (s' : FsState) : Prop :=
  (s.procPool call.1).state = .running ∧ call.2.run cfg call.1 s = .ok ⟨⟩ s'

/-- The state behind a call of a running process that returns. -/
def fsNext (cfg : FsConfig) (s : FsState) (call : ℕ × Call) : Option FsState :=
  if (s.procPool call.1).state = .running then returnOf (call.2.run cfg call.1) s ⟨⟩ else none

private theorem fsNext_eq_some {cfg : FsConfig} {s s' : FsState} {call : ℕ × Call} :
    fsNext cfg s call = some s' ↔ FsStep cfg s call s' := by
  rw [fsNext, FsStep]
  split
  · rename_i running
    rw [returnOf_eq_some, and_iff_right running]
  · rename_i stopped
    exact iff_of_false nofun fun step => stopped step.1

/-- Run calls one after another, if each returns. -/
def execute (cfg : FsConfig) (calls : List (ℕ × Call)) (s : FsState) : Option FsState :=
  calls.foldlM (fsNext cfg) s

/-- Calls that return lead to a state, and what is computed of it holds of it. -/
theorem exists_run (cfg : FsConfig) (calls : List (ℕ × Call)) (s : FsState) (test : FsState → Bool)
    (passes : (execute cfg calls s).any test = true) :
    ∃ t, Run (FsStep cfg) s calls t ∧ test t = true := by
  have runs := Run.exists_of_test (fsNext cfg) s calls test passes
  simpa only [fsNext_eq_some] using runs

end LabKernel
