import LabKernel.Fs.Dentry

/-! # Open files and devices

`kernel/fs/fs.c` and `kernel/fs/device.c`. The bytes that a device or a file moves between a buffer
and its user are an input of a write and an output of a read. Console input is the text typed so
far, as far as it has not been read.
-/

namespace LabKernel

/-- `FILE_OPEN_READ`, also `O_RDONLY` -/
def openRead : U32 := 1

/-- `FILE_OPEN_WRITE`, also `O_WRONLY` -/
def openWrite : U32 := 2

/-- `FILE_OPEN_CREATE` -/
def openCreate : U32 := 4

/-- `O_RDWR` -/
def openReadWrite : U32 := openRead ||| openWrite

/-- `O_APPEND` -/
def openAppend : U32 := 8

def nDevice : ℕ := 10

def majorStdin : U16 := 0
def majorStdout : U16 := 1
def majorStderr : U16 := 2
def majorZero : U16 := 3
def majorNull : U16 := 4
def majorGpt0 : U16 := 5

/-- `LSEEK_SET`, `LSEEK_CUR`, `LSEEK_END` -/
inductive LseekFlag where
  | set
  | cur
  | fromEnd
deriving DecidableEq, Repr

/-- The flag as `file_lseek` reads it. -/
def LseekFlag.decode : ℕ → Option LseekFlag
  | 0 => some .set
  | 1 => some .cur
  | 2 => some .fromEnd
  | _ => none

def deviceOpenCheck (major : U16) (openMode : U32) : Bool :=
  if nDevice ≤ major.toNat then false
  else if major = majorStdin then openMode == openRead
  else if major = majorStdout ∨ major = majorStderr ∨ major = majorGpt0 then openMode == openWrite
  else if major = majorZero then openMode == openRead
  else major == majorNull

/-- `cons_read`: bytes up to the end of a line or of the request; `none` while they are not typed. -/
def consRead : ℕ → List U8 → Option ℕ
  | 0, _ => some 0
  | _ + 1, [] => none
  | len + 1, c :: typed => if c = 0x0A then some 1 else (consRead len typed).map (· + 1)

structure FileStat where
  type : U16
  nlink : U16
  size : U32
  inodeNum : U32
  offset : U32
deriving DecidableEq, Repr

namespace Fs

/-- `device_read_data`: the number of bytes read, 0 for a device without read function. -/
def deviceReadData (major : U16) (len : U32) (typed : List U8) : FsM U32 :=
  if major = majorStdin then
    match consRead len.toNat typed with
    | some n => pure (BitVec.ofNat 32 n)
    | none => throw .hang
  else if major = majorZero then pure len
  else pure 0

/-- `device_write_data`: every device that can be written takes all bytes. -/
def deviceWriteData (major : U16) (len : U32) : FsM U32 :=
  if major = majorStdout ∨ major = majorStderr ∨ major = majorNull ∨ major = majorGpt0 then pure len
  else pure 0

def fileAlloc : FsM (Option ℕ) := do
  let s ← get
  match (List.range nFile).find? fun i => (s.fileTable i).ref == 0 with
  | none => pure none
  | some i =>
    modify fun s => s.setFile i ⟨none, false, false, 0, 1, 0, false⟩
    pure (some i)

def fileDup (i : ℕ) : FsM ℕ := do
  let s ← get
  if (s.fileTable i).ref < 1 then throw (.panic "file_dup")
  else
    modify fun s => s.setFile i { s.fileTable i with ref := (s.fileTable i).ref + 1 }
    pure i

variable (cfg : FsConfig)

def fileClose (i : ℕ) : FsM Unit := do
  let s ← get
  let f := s.fileTable i
  if f.ref < 1 then throw (.panic "file_close")
  else if 0 < f.ref - 1 then set (s.setFile i { f with ref := f.ref - 1 })
  else
    set (s.setFile i { f with ref := 0, ip := none })
    match f.ip with
    | none => pure ()
    | some ip => inodePut cfg ip

/-- `file_open` with the inode found and its sleeplock taken: the checks and the new file. -/
def openInode (ip : ℕ) (openMode : U32) : FsM (Option ℕ) := do
  let info ← diskInfo ip
  if info.type = inodeTypeDir ∧ openMode ≠ openRead then
    sleeplockRelease ip
    inodePut cfg ip
    pure none
  else if info.type = inodeTypeDevice ∧ deviceOpenCheck info.major openMode = false then
    sleeplockRelease ip
    inodePut cfg ip
    pure none
  else
    match ← fileAlloc with
    | none =>
      sleeplockRelease ip
      inodePut cfg ip
      pure none
    | some f =>
      modify fun s => s.setFile f
        { s.fileTable f with
          ip := some ip
          readable := if openMode &&& openWrite ≠ 0 then false else true
          writable := decide (openMode &&& openWrite ≠ 0) || decide (openMode &&& openReadWrite ≠ 0)
          offset := if openMode &&& openAppend ≠ 0 ∧ info.type = inodeTypeData then info.size else 0
          mode := openMode
          loaded := (s.inodeCache ip).validInfo }
      sleeplockRelease ip
      pure (some f)

/-- The inode that `file_open` opens; `junk` is an uninitialised name buffer. -/
def openedInode (p : ℕ) (path : List U8) (openMode : U32) (junk : Bytes) : FsM (Option ℕ) :=
  if openMode &&& openCreate ≠ 0 then pathCreateInode cfg p path inodeTypeData 0 0 junk
  else pathToInode cfg p path

def fileOpen (p : ℕ) (path : List U8) (openMode : U32) (junk : Bytes) : FsM (Option ℕ) := do
  match ← openedInode cfg p path openMode junk with
  | none => pure none
  | some ip =>
    sleeplockAcquire ip
    note .fileOpen ip
    openInode cfg ip openMode

def fileInode (f : File) : FsM ℕ :=
  match f.ip with
  | none => throw .wildPointer
  | some ip => pure ip

/-- `file_read`: the result and the bytes read. -/
def fileRead (i : ℕ) (len : U32) (typed : List U8) : FsM (U32 × Bytes) := do
  let s ← get
  let f := s.fileTable i
  if f.readable = false then pure (minusOne, fun _ => 0)
  else
    let ip ← fileInode f
    note .fileRead ip
    let info ← diskInfo ip
    if info.type = inodeTypeDevice then
      let n ← deviceReadData info.major len typed
      pure (n, fun i => typed.getD i 0)
    else
      sleeplockAcquire ip
      let r ← inodeReadData cfg ip f.offset len (fun _ => 0)
      modify fun s => s.setFile i { s.fileTable i with offset := f.offset + r.1 }
      sleeplockRelease ip
      pure r

def fileWrite (i : ℕ) (len : U32) (src : Bytes) : FsM U32 := do
  let s ← get
  let f := s.fileTable i
  if f.writable = false then pure minusOne
  else
    let ip ← fileInode f
    note .fileWrite ip
    let info ← diskInfo ip
    if info.type = inodeTypeDevice then deviceWriteData info.major len
    else
      sleeplockAcquire ip
      let n ← inodeWriteData cfg ip f.offset len src
      modify fun s => s.setFile i { s.fileTable i with offset := f.offset + n }
      sleeplockRelease ip
      pure n

def fileLseek (i : ℕ) (lseekOffset : U32) (flag : Option LseekFlag) : FsM U32 := do
  let s ← get
  let f := s.fileTable i
  let ip ← fileInode f
  sleeplockAcquire ip
  let info ← diskInfo ip
  match flag with
  | none =>
    sleeplockRelease ip
    pure minusOne
  | some flag =>
    let newOff := match flag with
      | .set => lseekOffset
      | .cur => f.offset + lseekOffset
      | .fromEnd => info.size + lseekOffset
    modify fun s => s.setFile i { s.fileTable i with offset := newOff }
    sleeplockRelease ip
    pure newOff

def fileGetStat (i : ℕ) : FsM FileStat := do
  let s ← get
  let f := s.fileTable i
  let ip ← fileInode f
  sleeplockAcquire ip
  let s ← get
  let r := s.inodeCache ip
  sleeplockRelease ip
  pure ⟨r.diskInfo.type, r.diskInfo.nlink, r.diskInfo.size, r.inodeNum, f.offset⟩

end Fs

end LabKernel
