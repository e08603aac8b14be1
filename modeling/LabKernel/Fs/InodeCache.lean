import LabKernel.Fs.State

/-! # The inode cache

The part of `kernel/fs/inode.c` that works on cached inodes. Functions that take an `inode_t *` take
the slot here. Spinlocks are taken and released within each function, so calls that run one at a
time never see them held; sleeplocks stay held across functions, and a call that takes one it
already holds never returns.
-/

namespace LabKernel

/-- A slot after a write of data with this record and disk: `inode_rw` has written the record of a file that
grew. -/
def Inode.written (sb : SuperBlock) (ip : Inode) (info : InodeDisk) (d : Disk) : Inode :=
  { ip with
    diskInfo := info
    source := if info.size = ip.diskInfo.size then ip.source else some (ip.inodeNum, inodeRead sb ip.inodeNum d) }

section

variable (sb : SuperBlock) (ip : Inode) (info : InodeDisk) (d : Disk)

@[simp] theorem Inode.written_diskInfo : (ip.written sb info d).diskInfo = info := rfl
@[simp] theorem Inode.written_validInfo : (ip.written sb info d).validInfo = ip.validInfo := rfl
@[simp] theorem Inode.written_inodeNum : (ip.written sb info d).inodeNum = ip.inodeNum := rfl
@[simp] theorem Inode.written_ref : (ip.written sb info d).ref = ip.ref := rfl
@[simp] theorem Inode.written_slk : (ip.written sb info d).slk = ip.slk := rfl

/-- A write that leaves the record as it is leaves the slot as it is. -/
@[simp] theorem Inode.written_self : ip.written sb ip.diskInfo d = ip := by
  rw [written, if_pos rfl]

end

namespace Fs

def updateInode (i : ℕ) (f : Inode → Inode) : FsM Unit :=
  modify fun s => s.setInode i (f (s.inodeCache i))

/-- `sleeplock_acquire(&ip->slk)` -/
def sleeplockAcquire (i : ℕ) : FsM Unit := do
  let s ← get
  if (s.inodeCache i).slk then throw .hang
  else updateInode i fun ip => { ip with slk := true }

/-- `sleeplock_release(&ip->slk)` -/
def sleeplockRelease (i : ℕ) : FsM Unit := updateInode i fun ip => { ip with slk := false }

variable (cfg : FsConfig)

/-- `inode_rw(ip, true)` -/
def inodeRwWrite (i : ℕ) : FsM Unit := modify fun s =>
  let ip := s.inodeCache i
  let d := inodeWrite cfg.sb ip.inodeNum ip.diskInfo s.disk
  (s.setDisk d).setInode i { ip with source := some (ip.inodeNum, inodeRead cfg.sb ip.inodeNum d) }

/-- `inode_rw(ip, false)` -/
def inodeRwRead (i : ℕ) : FsM Unit := modify fun s =>
  let ip := s.inodeCache i
  let info := inodeRead cfg.sb ip.inodeNum s.disk
  s.setInode i { ip with diskInfo := info, validInfo := true, source := some (ip.inodeNum, info) }

def inodeLock (i : ℕ) : FsM Unit := do
  let s ← get
  if (s.inodeCache i).ref < 1 then throw (.panic "inode_lock")
  else
    sleeplockAcquire i
    let s ← get
    if (s.inodeCache i).validInfo = false then inodeRwRead cfg i
    else pure ()

def inodeUnlock (i : ℕ) : FsM Unit := do
  let s ← get
  if (s.inodeCache i).slk = false ∨ (s.inodeCache i).ref < 1 then throw (.panic "inode_unlock")
  else sleeplockRelease i

/-- The cached inode with a number, as `inode_get` looks for it. -/
def cachedSlot (s : FsState) (inodeNum : U32) : Option ℕ :=
  (List.range nInode).find? fun i =>
    (s.inodeCache i).inodeNum == inodeNum && (s.inodeCache i).validInfo

def freeSlot (s : FsState) : Option ℕ :=
  (List.range nInode).find? fun i => (s.inodeCache i).ref == 0

def inodeGet (inodeNum : U32) : FsM ℕ := do
  let s ← get
  match cachedSlot s inodeNum with
  | some i =>
    updateInode i fun ip => { ip with ref := ip.ref + 1 }
    pure i
  | none =>
    match freeSlot s with
    | none => throw (.panic "inode_get: no inodes")
    | some i =>
      updateInode i fun ip => { ip with inodeNum := inodeNum, ref := 1, validInfo := false }
      if cfg.eager then
        inodeLock cfg i
        inodeUnlock i
        pure i
      else pure i

def inodeDup (i : ℕ) : FsM ℕ := do
  updateInode i fun ip => { ip with ref := ip.ref + 1 }
  pure i

def inodeCreate (type major minor : U16) : FsM (Option ℕ) := do
  let s ← get
  let r := bitmapAllocInode cfg.sb s.disk
  set (s.setDisk r.2)
  if r.1 = minusOne then pure none
  else
    let i ← inodeGet cfg r.1
    inodeLock cfg i
    updateInode i fun ip => { ip with diskInfo := newInode type major minor }
    inodeRwWrite cfg i
    inodeUnlock i
    pure (some i)

def inodeDelete (i : ℕ) : FsM Unit := modify fun s =>
  let ip := s.inodeCache i
  let r := LabKernel.inodeDelete cfg.sb ip.inodeNum ip.diskInfo s.disk
  (s.setDisk r.2).setInode i
    { ip with diskInfo := r.1, source := some (ip.inodeNum, inodeRead cfg.sb ip.inodeNum r.2) }

def inodePut (i : ℕ) : FsM Unit := do
  let s ← get
  let ip := s.inodeCache i
  if ip.ref = 1 ∧ ip.validInfo = true ∧ ip.diskInfo.nlink = 0 then
    inodeLock cfg i
    inodeDelete cfg i
    updateInode i fun ip => { ip with validInfo := false }
    inodeUnlock i
    updateInode i fun ip => { ip with ref := ip.ref - 1 }
  else updateInode i fun ip => { ip with ref := ip.ref - 1 }

/-- `inode_read_data` into a kernel buffer: the byte count and the buffer. -/
def inodeReadData (i : ℕ) (offset len : U32) (dst : Bytes) : FsM (U32 × Bytes) := do
  let s ← get
  let ip := s.inodeCache i
  let r := LabKernel.inodeReadData cfg.sb ip.diskInfo offset len dst s.disk
  set ((s.setDisk r.2.2.2).setInode i { ip with diskInfo := r.2.1 })
  pure (r.1, r.2.2.1)

/-- `inode_write_data` from a kernel buffer: the byte count. -/
def inodeWriteData (i : ℕ) (offset len : U32) (src : Bytes) : FsM U32 := do
  let s ← get
  let ip := s.inodeCache i
  let r := LabKernel.inodeWriteData cfg.sb ip.inodeNum ip.diskInfo offset len src s.disk
  set ((s.setDisk r.2.2).setInode i (ip.written cfg.sb r.2.1 r.2.2))
  pure r.1

end Fs

end LabKernel
