import LabKernel.Fs.Inode
import LabKernel.Lib.Program

/-! # File-system state

What the file-system calls of all processes share: the disk, the inode cache, the file table and the
file fields of each process. One call runs at a time. Some fields are history variables that no code
reads: `Inode.source` remembers which record of which inode `inode_rw` last saw on the disk,
`File.mode` the mode a file was opened with and `File.loaded` whether its inode was loaded then.
`uses` records the cached records that the upper layers look at.
-/

namespace LabKernel

def nInode : ℕ := 64

def nFile : ℕ := 128

def nOpenFile : ℕ := 16

def nProc : ℕ := 32

instance : NeZero nProc := ⟨by decide⟩

/-- How a call can fail to return. -/
inductive Fault where
  | panic (message : String)
  /-- It waits for a sleeplock that it holds itself, for input that never comes, or loops. -/
  | hang
  /-- It uses a null pointer or an index outside an array. -/
  | wildPointer
deriving DecidableEq, Repr

structure Inode where
  diskInfo : InodeDisk
  validInfo : Bool
  inodeNum : U32
  ref : ℕ
  slk : Bool
  source : Option (U32 × InodeDisk)

/-- `file_t`; `ip` is a slot of the inode cache. -/
structure File where
  ip : Option ℕ
  readable : Bool
  writable : Bool
  offset : U32
  ref : ℕ
  mode : U32
  loaded : Bool

/-- `enum proc_state`, as far as the file system sees it. -/
inductive ProcState where
  | unused
  | running
  | zombie
deriving DecidableEq, Repr

/-- The fields of `proc_t` that concern files; `openFile` holds places in the file table. -/
structure Proc where
  state : ProcState
  parent : Option ℕ
  cwd : Option ℕ
  openFile : ℕ → Option ℕ

/-- The functions whose use of cached records is recorded. -/
inductive UseSite where
  | fileOpen
  | fileRead
  | fileWrite
  | procExec
  | pathLink
  | sysChdir
  | sysGetDentries
deriving DecidableEq, Repr

structure FsState where
  disk : Disk
  inodeCache : ℕ → Inode
  fileTable : ℕ → File
  procPool : ℕ → Proc
  uses : List (UseSite × Inode)

abbrev FsM := EStateM Fault FsState

/-- The super block, and whether every inode is loaded right after `inode_get`. The code as it is
has `eager = false`. -/
structure FsConfig where
  sb : SuperBlock
  eager : Bool

namespace FsState

def setInode (s : FsState) (i : ℕ) (ip : Inode) : FsState :=
  { s with inodeCache := Function.update s.inodeCache i ip }

def setFile (s : FsState) (i : ℕ) (f : File) : FsState :=
  { s with fileTable := Function.update s.fileTable i f }

def setProc (s : FsState) (p : ℕ) (proc : Proc) : FsState :=
  { s with procPool := Function.update s.procPool p proc }

def setDisk (s : FsState) (d : Disk) : FsState := { s with disk := d }

section

variable (s : FsState) (i : ℕ) (ip : Inode) (f : File) (proc : Proc) (d : Disk)

@[simp] theorem setInode_same : (s.setInode i ip).inodeCache i = ip := Function.update_self ..

theorem setInode_other {j : ℕ} (other : j ≠ i) :
    (s.setInode i ip).inodeCache j = s.inodeCache j := Function.update_of_ne other ..

@[simp] theorem setInode_self : s.setInode i (s.inodeCache i) = s := by
  rw [setInode, Function.update_eq_self]

@[simp] theorem setInode_setInode (ip' : Inode) :
    (s.setInode i ip).setInode i ip' = s.setInode i ip' := by
  simp only [setInode, Function.update_idem]

@[simp] theorem setInode_disk : (s.setInode i ip).disk = s.disk := rfl
@[simp] theorem setInode_fileTable : (s.setInode i ip).fileTable = s.fileTable := rfl
@[simp] theorem setInode_procPool : (s.setInode i ip).procPool = s.procPool := rfl
@[simp] theorem setInode_uses : (s.setInode i ip).uses = s.uses := rfl

@[simp] theorem setFile_same : (s.setFile i f).fileTable i = f := Function.update_self ..

theorem setFile_other {j : ℕ} (other : j ≠ i) :
    (s.setFile i f).fileTable j = s.fileTable j := Function.update_of_ne other ..

@[simp] theorem setFile_setFile (f' : File) : (s.setFile i f).setFile i f' = s.setFile i f' := by
  simp only [setFile, Function.update_idem]

@[simp] theorem setFile_disk : (s.setFile i f).disk = s.disk := rfl
@[simp] theorem setFile_inodeCache : (s.setFile i f).inodeCache = s.inodeCache := rfl
@[simp] theorem setFile_procPool : (s.setFile i f).procPool = s.procPool := rfl
@[simp] theorem setFile_uses : (s.setFile i f).uses = s.uses := rfl

@[simp] theorem setProc_same : (s.setProc i proc).procPool i = proc := Function.update_self ..

theorem setProc_other {j : ℕ} (other : j ≠ i) :
    (s.setProc i proc).procPool j = s.procPool j := Function.update_of_ne other ..

@[simp] theorem setProc_setProc (proc' : Proc) :
    (s.setProc i proc).setProc i proc' = s.setProc i proc' := by
  simp only [setProc, Function.update_idem]

@[simp] theorem setProc_disk : (s.setProc i proc).disk = s.disk := rfl
@[simp] theorem setProc_inodeCache : (s.setProc i proc).inodeCache = s.inodeCache := rfl
@[simp] theorem setProc_fileTable : (s.setProc i proc).fileTable = s.fileTable := rfl
@[simp] theorem setProc_uses : (s.setProc i proc).uses = s.uses := rfl

@[simp] theorem setInode_setDisk : (s.setInode i ip).setDisk d = (s.setDisk d).setInode i ip := rfl
@[simp] theorem setDisk_setDisk (d' : Disk) : (s.setDisk d).setDisk d' = s.setDisk d' := rfl
@[simp] theorem setDisk_self : s.setDisk s.disk = s := rfl

@[simp] theorem setDisk_disk : (s.setDisk d).disk = d := rfl
@[simp] theorem setDisk_inodeCache : (s.setDisk d).inodeCache = s.inodeCache := rfl
@[simp] theorem setDisk_fileTable : (s.setDisk d).fileTable = s.fileTable := rfl
@[simp] theorem setDisk_procPool : (s.setDisk d).procPool = s.procPool := rfl
@[simp] theorem setDisk_uses : (s.setDisk d).uses = s.uses := rfl

end

end FsState

/-- The state in which `fs_init` leaves the file system on a disk: nothing cached, nothing open. -/
def FsState.init (d : Disk) : FsState where
  disk := d
  inodeCache := fun _ => ⟨⟨0, 0, 0, 0, 0, Index.empty⟩, false, 0, 0, false, none⟩
  fileTable := fun _ => ⟨none, false, false, 0, 0, 0, false⟩
  procPool := fun p => ⟨if p = 0 then .running else .unused, none, none, fun _ => none⟩
  uses := []

/-- Record a use of a cached record. -/
def note (site : UseSite) (i : ℕ) : FsM Unit :=
  modify fun s => { s with uses := (site, s.inodeCache i) :: s.uses }

end LabKernel
