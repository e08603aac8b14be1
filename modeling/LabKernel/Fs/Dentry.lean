import LabKernel.Fs.InodeCache

/-! # Directories and paths

`kernel/fs/dentry.c`. A path is the list of its bytes before the terminating 0; a name is a 60-byte
buffer, of which a shorter name fills the front and ends in a 0. The `uint32` offset of a directory
scan wraps, so a scan that does not end before it wraps never ends.
-/

namespace LabKernel

def slash : U8 := 0x2F

def strncmpFrom (p q : Bytes) : (n i : ℕ) → ℤ
  | 0, _ => 0
  | n + 1, i =>
    if p i ≠ 0 ∧ p i = q i then strncmpFrom p q n (i + 1) else (p i).toNat - (q i).toNat

def strncmp (p q : Bytes) (n : ℕ) : ℤ := strncmpFrom p q n 0

/-- The first part of `get_element`: the bytes of the next path element and the rest of the path,
unless only slashes are left. -/
def getElement (path : List U8) : Option (List U8 × List U8) :=
  match path.dropWhile (· == slash) with
  | [] => none
  | rest => some (rest.takeWhile (· != slash), (rest.dropWhile (· != slash)).dropWhile (· == slash))

/-- The second part of `get_element`: the element, cut to 59 bytes, and a 0 are copied to the name
buffer. -/
def setName (name : Bytes) (element : List U8) : Bytes :=
  let len := min element.length (maxlenFilename - 1)
  fun i => if i < len then element.getD i 0 else if i = len then 0 else name i

def elementsFrom : ℕ → List U8 → List (List U8)
  | 0, _ => []
  | fuel + 1, path =>
    match getElement path with
    | none => []
    | some (element, rest) => element :: elementsFrom fuel rest

/-- The elements that repeated calls of `get_element` find; each takes at least one byte. -/
def elements (path : List U8) : List (List U8) := elementsFrom path.length path

/-- A name given in the source. -/
def nameOf (text : List U8) : Bytes := fun i => text.getD i 0

def dot : Bytes := nameOf [0x2E]

def dotDot : Bytes := nameOf [0x2E, 0x2E]

/-- The entry that `dentry_create` writes. -/
def newDentry (name : Bytes) (inodeNum : U32) : Dentry :=
  ⟨fun i => if i < maxlenFilename - 1 then name i else 0, inodeNum⟩

def dentrySize : U32 := 64

/-- More rounds than an offset that grows by 64 has before it wraps. -/
def scanFuel : ℕ := 2 ^ 26

namespace Fs

variable (cfg : FsConfig)

def diskInfo (i : ℕ) : FsM InodeDisk := do
  let s ← get
  pure (s.inodeCache i).diskInfo

/-- Read the directory entry at an offset, `none` where fewer bytes come back. -/
def readDentry (i : ℕ) (off : U32) : FsM (Option Dentry) := do
  let r ← inodeReadData cfg i off dentrySize (fun _ => 0)
  pure (if r.1 = dentrySize then some (Dentry.decode r.2 0) else none)

def dentrySearchFrom (i : ℕ) (name : Bytes) : (fuel : ℕ) → (off : U32) → FsM U32
  | 0, _ => throw .hang
  | fuel + 1, off => do
    let info ← diskInfo i
    if off < info.size then
      match ← readDentry cfg i off with
      | none => pure minusOne
      | some de =>
        if de.name 0 ≠ 0 ∧ strncmp de.name name maxlenFilename = 0 then pure de.inodeNum
        else dentrySearchFrom i name fuel (off + dentrySize)
    else pure minusOne

def dentrySearch (i : ℕ) (name : Bytes) : FsM U32 := do
  let info ← diskInfo i
  if info.type ≠ inodeTypeDir then pure minusOne
  else dentrySearchFrom cfg i name scanFuel 0

/-- The scan of `dentry_create`: `none` if the name exists, else the first empty place or `-1`. -/
def dentryCreateScan (i : ℕ) (name : Bytes) :
    (fuel : ℕ) → (off emptyOff : U32) → FsM (Option U32)
  | 0, _, _ => throw .hang
  | fuel + 1, off, emptyOff => do
    let info ← diskInfo i
    if off < info.size then
      match ← readDentry cfg i off with
      | none => pure (some emptyOff)
      | some de =>
        if de.name 0 = 0 then
          dentryCreateScan i name fuel (off + dentrySize)
            (if emptyOff = minusOne then off else emptyOff)
        else if strncmp de.name name maxlenFilename = 0 then pure none
        else dentryCreateScan i name fuel (off + dentrySize) emptyOff
    else pure (some emptyOff)

def dentryCreate (i : ℕ) (inodeNum : U32) (name : Bytes) : FsM U32 := do
  let info ← diskInfo i
  if info.type ≠ inodeTypeDir then pure minusOne
  else
    match ← dentryCreateScan cfg i name scanFuel 0 minusOne with
    | none => pure minusOne
    | some emptyOff =>
      let info ← diskInfo i
      let writeOff := if emptyOff ≠ minusOne then emptyOff else info.size
      let n ← inodeWriteData cfg i writeOff dentrySize (newDentry name inodeNum).encode
      pure (if n = dentrySize then writeOff else minusOne)

def dentryDeleteFrom (i : ℕ) (name : Bytes) : (fuel : ℕ) → (off : U32) → FsM U32
  | 0, _ => throw .hang
  | fuel + 1, off => do
    let info ← diskInfo i
    if off < info.size then
      match ← readDentry cfg i off with
      | none => pure minusOne
      | some de =>
        if de.name 0 ≠ 0 ∧ strncmp de.name name maxlenFilename = 0 then
          let n ← inodeWriteData cfg i off dentrySize (fun _ => 0)
          pure (if n = dentrySize then de.inodeNum else minusOne)
        else dentryDeleteFrom i name fuel (off + dentrySize)
    else pure minusOne

def dentryDelete (i : ℕ) (name : Bytes) : FsM U32 := do
  let info ← diskInfo i
  if info.type ≠ inodeTypeDir then pure minusOne
  else dentryDeleteFrom cfg i name scanFuel 0

/-! ## Paths -/

/-- Where path resolution starts: the root, or the working directory of process `p`. -/
def pathStart (p : ℕ) (path : List U8) : FsM ℕ := do
  if path.head? = some slash then inodeGet cfg rootInode
  else
    let s ← get
    match (s.procPool p).cwd with
    | none => throw .wildPointer
    | some i => inodeDup i

/-- One step down from a directory: the inode its entry names, or `none` with the directory put. -/
def pathDown (i : ℕ) (name : Bytes) : FsM (Option ℕ) := do
  inodeLock cfg i
  let info ← diskInfo i
  if info.type ≠ inodeTypeDir then
    inodeUnlock i
    inodePut cfg i
    pure none
  else
    let nextInum ← dentrySearch cfg i name
    inodeUnlock i
    if nextInum = minusOne then
      inodePut cfg i
      pure none
    else
      let next ← inodeGet cfg nextInum
      inodePut cfg i
      pure (some next)

/-- The loop of `path_to_inode`. -/
def pathWalk : List (List U8) → ℕ → FsM (Option ℕ)
  | [], i => pure (some i)
  | element :: rest, i => do
    match ← pathDown cfg i (setName (fun _ => 0) element) with
    | none => pure none
    | some next => pathWalk rest next

def pathToInode (p : ℕ) (path : List U8) : FsM (Option ℕ) := do
  let i ← pathStart cfg p path
  pathWalk cfg (elements path) i

/-- The loop of `path_to_parent_inode`: `name` holds the element to look up if another follows. -/
def parentWalk : List (List U8) → ℕ → Bytes → FsM (Option (ℕ × Bytes))
  | [], i, name => pure (some (i, name))
  | element :: rest, i, name => do
    match ← pathDown cfg i name with
    | none => pure none
    | some next => parentWalk rest next (setName name element)

/-- `path_to_parent_inode`: the parent and the name buffer, which starts as `name`. -/
def pathToParentInode (p : ℕ) (path : List U8) (name : Bytes) : FsM (Option (ℕ × Bytes)) := do
  let i ← pathStart cfg p path
  match elements path with
  | [] => pure (some (i, name))
  | element :: rest => parentWalk cfg rest i (setName name element)

/-- A change of `ip->disk_info.nlink`, written back with `inode_rw(ip, true)`. -/
def updateNlink (i : ℕ) (f : U16 → U16) : FsM Unit := do
  updateInode i fun r => { r with diskInfo := { r.diskInfo with nlink := f r.diskInfo.nlink } }
  inodeRwWrite cfg i

/-- `path_create_inode` behind `inode_create`: the new inode gets its link count, its own entries and
its entry in the parent. -/
def enterInode (dp ip : ℕ) (type : U16) (name : Bytes) : FsM Unit := do
  inodeLock cfg ip
  updateNlink cfg ip fun _ => 1
  let s ← get
  if type = inodeTypeDir then
    let _ ← dentryCreate cfg ip (s.inodeCache ip).inodeNum dot
    let _ ← dentryCreate cfg ip (s.inodeCache dp).inodeNum dotDot
    updateNlink cfg ip (· + 1)
  let _ ← dentryCreate cfg dp (s.inodeCache ip).inodeNum name
  inodeUnlock ip
  inodeUnlock dp
  inodePut cfg dp

/-- `path_create_inode`; `junk` is the uninitialised name buffer. -/
def pathCreateInode (p : ℕ) (path : List U8) (type major minor : U16) (junk : Bytes) :
    FsM (Option ℕ) := do
  match ← pathToParentInode cfg p path junk with
  | none => pure none
  | some (dp, name) =>
    inodeLock cfg dp
    let found ← dentrySearch cfg dp name
    if found ≠ minusOne then
      inodeUnlock dp
      inodePut cfg dp
      pure none
    else
      match ← inodeCreate cfg type major minor with
      | none =>
        inodeUnlock dp
        inodePut cfg dp
        pure none
      | some ip =>
        enterInode cfg dp ip type name
        pure (some ip)

def pathLink (p : ℕ) (oldPath newPath : List U8) (junk : Bytes) : FsM U32 := do
  match ← pathToInode cfg p oldPath with
  | none => pure minusOne
  | some ip =>
    note .pathLink ip
    let info ← diskInfo ip
    if info.type = inodeTypeDir then
      inodePut cfg ip
      pure minusOne
    else
      match ← pathToParentInode cfg p newPath junk with
      | none =>
        inodePut cfg ip
        pure minusOne
      | some (dp, name) =>
        inodeLock cfg dp
        let found ← dentrySearch cfg dp name
        if found ≠ minusOne then
          inodeUnlock dp
          inodePut cfg dp
          inodePut cfg ip
          pure minusOne
        else
          let s ← get
          let _ ← dentryCreate cfg dp (s.inodeCache ip).inodeNum name
          inodeLock cfg ip
          note .pathLink ip
          updateNlink cfg ip (· + 1)
          inodeUnlock ip
          inodeUnlock dp
          inodePut cfg dp
          inodePut cfg ip
          pure 0

/-- The link counts in `path_unlink`; `nlink` is a signed field. -/
def dropLink (dp ip : ℕ) : FsM Unit := do
  let info ← diskInfo ip
  if (0 : U16).slt info.nlink then
    updateNlink cfg ip (· - 1)
    if info.type = inodeTypeDir then updateNlink cfg dp (· - 1)

def pathUnlink (p : ℕ) (path : List U8) (junk : Bytes) : FsM U32 := do
  match ← pathToParentInode cfg p path junk with
  | none => pure minusOne
  | some (dp, name) =>
    inodeLock cfg dp
    if strncmp name dot maxlenFilename = 0 ∨ strncmp name dotDot maxlenFilename = 0 then
      inodeUnlock dp
      inodePut cfg dp
      pure minusOne
    else
      let inum ← dentryDelete cfg dp name
      if inum = minusOne then
        inodeUnlock dp
        inodePut cfg dp
        pure minusOne
      else
        let ip ← inodeGet cfg inum
        inodeLock cfg ip
        dropLink cfg dp ip
        inodeUnlock ip
        inodePut cfg ip
        inodeUnlock dp
        inodePut cfg dp
        pure 0

end Fs

end LabKernel
