import LabKernel.Fs.DirGraph
import LabKernel.Lib.Scratch
import LabKernel.Lib.Updates

/-! # Building an image

The functions of `mkfs/mkfs.c` that put inodes and file data on a new disk, as a program can call them in
any order. Every data block is written from `data_buf`, which keeps its contents from one write to the next:
`Lib/Scratch` says what that leaves behind the end of a file.
-/

namespace LabKernel

open BlockTrees

namespace Mkfs

/-- The disk file, the static variables, and the arrays `inode_num` and `inode` of `main` -/
structure State where
  disk : Disk
  dataBuf : Bytes
  globalInodeNum : ℕ
  globalBlockNum : ℕ
  inodes : List (U32 × InodeDisk)

/-- Every block is zeroed first. -/
def State.init : State := ⟨fun _ _ => 0, fun _ => 0, 0, 0, []⟩

def blockAlloc (s : State) : U32 × State :=
  (BitVec.ofNat 32 (mkfsSuperBlock.dataFirstblock + s.globalBlockNum),
    { s with
      disk := s.disk.setBitAt mkfsSuperBlock.dataBitmapFirstblock s.globalBlockNum
      globalBlockNum := s.globalBlockNum + 1 })

def inodeAlloc (s : State) : U32 × State :=
  (BitVec.ofNat 32 s.globalInodeNum,
    { s with
      disk := s.disk.setBitAt mkfsSuperBlock.inodeBitmapFirstblock s.globalInodeNum
      globalInodeNum := s.globalInodeNum + 1 })

def inodeInit (type major minor : U16) : InodeDisk := ⟨type, major, minor, 1, 0, Index.empty⟩

/-- `COUNT_BLOCKS` of an `unsigned int` -/
def blocksOf (n : U32) : ℕ := (n + 4095).toNat / blockSize

/-- The loop of `inode_append` that allocates blocks from index entry `i` on -/
def allocBlocks : (n i : ℕ) → Index → State → Index × State
  | 0, _, index, s => (index, s)
  | n + 1, i, index, s =>
    let (block, s) := blockAlloc s
    allocBlocks n (i + 1) (index.set i block) s

/-- The loop of `inode_append` that writes: `len` bytes are left, the next one is `pos`. Only the first
block is read before it is written. -/
def appendLoop (ip : InodeDisk) (data : Bytes) : (fuel tmp pos len : ℕ) → State → State
  | 0, _, _, _, s => s
  | fuel + 1, tmp, pos, len, s =>
    if len = 0 then s
    else
      let block := (ip.index.get tmp).toNat
      let first := tmp = ip.size.toNat / blockSize
      let offset := if first then ip.size.toNat % blockSize else 0
      let cutLen := min (blockSize - offset) len
      let dataBuf := if first then s.disk block else s.dataBuf
      let dataBuf := dataBuf.blit offset (fun i => data (pos + i)) cutLen
      appendLoop ip data fuel (tmp + 1) (pos + cutLen) (len - cutLen)
        { s with disk := s.disk.write block dataBuf, dataBuf := dataBuf }

def inodeAppend (ip : InodeDisk) (data : Bytes) (len : U32) (s : State) : InodeDisk × State :=
  let oldBlocks := blocksOf ip.size
  let newBlocks := blocksOf (ip.size + len)
  if oldBlocks < newBlocks ∧ inodeIndex1 < newBlocks then (ip, s)
  else
    let (index, s) := allocBlocks (newBlocks - oldBlocks) oldBlocks ip.index s
    let ip := { ip with index := index }
    ({ ip with size := ip.size + len },
      appendLoop ip data len.toNat (ip.size.toNat / blockSize) 0 len.toNat s)

/-- What a program does between the first step of `main` and the last one -/
inductive Call
  | create (type major minor : U16)
  | append (i : ℕ) (data : Bytes) (len : U32)

def step (s : State) : Call → State
  | .create type major minor =>
    let (inodeNum, s) := inodeAlloc s
    { s with inodes := s.inodes ++ [(inodeNum, inodeInit type major minor)] }
  | .append i data len =>
    match s.inodes[i]? with
    | none => s
    | some (inodeNum, ip) =>
      let (ip, s) := inodeAppend ip data len s
      { s with inodes := s.inodes.set i (inodeNum, ip) }

def superBlockBytes (sb : SuperBlock) : Bytes := fun i =>
  Bytes.leBytes ([sb.magicNum, sb.blockSize, sb.totalBlocks, sb.totalInodes, sb.inodeBitmapFirstblock,
    sb.inodeBitmapBlocks, sb.inodeFirstblock, sb.inodeBlocks, sb.dataBitmapFirstblock, sb.dataBitmapBlocks,
    sb.dataFirstblock, sb.dataBlocks].getD (i / 4) 0) (i % 4)

/-- The last step of `main`: the super block and all records -/
def finish (s : State) : Disk :=
  s.inodes.foldl (fun d x => inodeWrite mkfsSuperBlock x.1 x.2 d)
    (s.disk.write 0 (s.dataBuf.blit 0 (superBlockBytes mkfsSuperBlock) 48))

/-- A call that finds an inode, a file of at most ten blocks, and room in the areas of the disk. Only the
second is checked by the program. -/
def Fits (s : State) : Call → Prop
  | .create .. => s.globalInodeNum < mkfsSuperBlock.totalInodes
  | .append i _ len => ∃ x, s.inodes[i]? = some x ∧ x.2.size.toNat + len.toNat ≤ inodeIndex1 * blockSize ∧
    s.globalBlockNum + (blocksOf (x.2.size + len) - blocksOf x.2.size) ≤ mkfsSuperBlock.dataBlocks

/-- The data that a call appends to inode `i` -/
def appended (i : ℕ) : Call → List (List U8)
  | .append j data len => if j = i then [Bytes.take data len.toNat] else []
  | .create .. => []

/-- The logical blocks of a file with direct blocks only, zero where there is none -/
def fileBlocks (d : Disk) (index : Index) (j : ℕ) : Bytes :=
  if index.get j = 0 then fun _ => 0 else d (index.get j).toNat

variable {s : State} {ip : InodeDisk} {data : Bytes}

/-! ## Allocation -/

theorem blocksOf_eq {n : U32} (small : n.toNat ≤ inodeIndex1 * blockSize) :
    blocksOf n = (n.toNat + 4095) / blockSize := by
  simp only [inodeIndex1, blockSize] at small
  rw [blocksOf, BitVec.toNat_add, show (4095 : U32).toNat = 4095 from rfl, Nat.mod_eq_of_lt (by omega)]

/-- What the allocation of `n` blocks for the index entries from `i` on does -/
structure Allocated (n i : ℕ) (index : Index) (s : State) (index' : Index) (s' : State) : Prop where
  rest : s' = { s with disk := s'.disk, globalBlockNum := s.globalBlockNum + n }
  entry : ∀ j, index'.get j =
    if i ≤ j ∧ j < i + n then dataBlock mkfsSuperBlock (s.globalBlockNum + (j - i)) else index.get j
  other : ∀ b ≠ mkfsSuperBlock.dataBitmapFirstblock, s'.disk b = s.disk b
  used : ∀ k, s'.disk.used mkfsSuperBlock k =
    (decide (s.globalBlockNum ≤ k ∧ k < s.globalBlockNum + n) || s.disk.used mkfsSuperBlock k)

private theorem allocBlocks_spec {n i : ℕ} (index : Index) (s : State) (entries : i + n ≤ 13)
    (room : s.globalBlockNum + n ≤ mkfsSuperBlock.dataBlocks) :
    Allocated n i index s (allocBlocks n i index s).1 (allocBlocks n i index s).2 := by
  induction n generalizing i index s with
  | zero =>
    refine ⟨rfl, fun j => ?_, fun _ _ => rfl, fun k => ?_⟩
    · rw [allocBlocks, if_neg (by omega)]
    · rw [allocBlocks, decide_eq_false (by omega), Bool.false_or]
  | succ n ih =>
    have later := ih (i := i + 1) (index.set i (blockAlloc s).1) (blockAlloc s).2 (by omega)
      (show s.globalBlockNum + 1 + n ≤ _ by omega)
    rw [allocBlocks]
    dsimp only
    have small : s.globalBlockNum / bitPerBlock = 0 := Nat.div_eq_of_lt (by
      change _ ≤ 32768 at room
      simp only [bitPerBlock]
      omega)
    refine ⟨?_, fun j => ?_, fun b other => ?_, fun k => ?_⟩
    · rw [later.rest]
      simp only [blockAlloc, Nat.add_assoc, Nat.add_comm 1]
    · rw [later.entry, Index.get_set (by omega)]
      change (if _ then dataBlock mkfsSuperBlock (s.globalBlockNum + 1 + (j - (i + 1))) else _) = _
      rcases Nat.lt_trichotomy j i with low | rfl | high
      · rw [if_neg (by omega), if_neg (by omega), if_neg (by omega)]
      · rw [if_neg (by omega), if_pos rfl, if_pos (by omega), Nat.sub_self]
        rfl
      · by_cases last : j < i + (n + 1)
        · rw [if_pos (by omega), if_pos (by omega),
            show s.globalBlockNum + 1 + (j - (i + 1)) = s.globalBlockNum + (j - i) by omega]
        · rw [if_neg (by omega), if_neg (by omega), if_neg (by omega)]
    · rw [later.other b other]
      refine Disk.setBitAt_other ?_
      rwa [small, Nat.add_zero]
    · rw [later.used]
      change (_ || (s.disk.setBitAt _ _).bitAt _ k) = _
      rw [Disk.bitAt_setBitAt, ← Bool.or_assoc]
      congr 1
      rw [← Bool.decide_or, decide_eq_decide]
      change s.globalBlockNum + 1 ≤ k ∧ k < s.globalBlockNum + 1 + n ∨ k = s.globalBlockNum ↔ _
      omega

/-! ## Writing -/

section

variable {top : ℕ} (once : ∀ i < top, ∀ j < top, (ip.index.get i).toNat = (ip.index.get j).toNat → i = j)
include once

/-- Behind the first block, the loop pours the data through `data_buf`. -/
theorem appendLoop_pour {tmp len : ℕ} (fuel pos : ℕ) {blocks : ℕ → Bytes}
    (behind : ip.size.toNat / blockSize < tmp) (within : tmp * blockSize + len ≤ top * blockSize)
    (view : ∀ j < top, s.disk (ip.index.get j).toNat = blocks j) :
    let r := appendLoop ip data fuel tmp pos len s
    r = { s with disk := r.disk, dataBuf := r.dataBuf } ∧
      (∀ j < top, r.disk (ip.index.get j).toNat =
        Scratch.pour blockSize data fuel tmp pos len s.dataBuf blocks j) ∧
      ∀ b, (∀ j < top, b ≠ (ip.index.get j).toNat) → r.disk b = s.disk b := by
  induction fuel generalizing tmp pos len s blocks with
  | zero => exact ⟨rfl, view, fun _ _ => rfl⟩
  | succ fuel ih =>
    rw [appendLoop, Scratch.pour]
    by_cases none : len = 0
    · rw [if_pos none, if_pos none]
      exact ⟨rfl, view, fun _ _ => rfl⟩
    · have inside : tmp < top := by
        by_contra outside
        have := Nat.mul_le_mul_right blockSize (Nat.not_lt.mp outside)
        omega
      have room : (tmp + 1) * blockSize ≤ top * blockSize := Nat.mul_le_mul_right blockSize inside
      rw [if_neg none, if_neg none]
      dsimp only
      rw [if_neg behind.ne', if_neg behind.ne', Nat.sub_zero]
      have step : s.dataBuf.blit 0 (fun i => data (pos + i)) (min blockSize len) =
        Scratch.patch s.dataBuf 0 (min blockSize len) data pos := rfl
      rw [step]
      generalize Scratch.patch s.dataBuf 0 (min blockSize len) data pos = block
      have view' : ∀ j < top, s.disk.write (ip.index.get tmp).toNat block (ip.index.get j).toNat =
          Function.update blocks tmp block j := fun j less => by
        by_cases same : j = tmp
        · rw [same, Disk.write_same, Function.update_self]
        · rw [Disk.write_other fun here => same (once j less tmp inside here), view j less,
            Function.update_of_ne same]
      have short : (tmp + 1) * blockSize + (len - min blockSize len) ≤ top * blockSize := by
        rw [Nat.succ_mul] at room ⊢
        omega
      obtain ⟨rest, blocks', other⟩ := ih
        (s := { s with disk := s.disk.write (ip.index.get tmp).toNat block, dataBuf := block })
        (pos + min blockSize len) (Nat.lt_succ_of_lt behind) short view'
      refine ⟨rest, blocks', fun b apart => ?_⟩
      rw [other b apart]
      exact Disk.write_other (apart tmp inside) ..

/-- The whole loop is an append to the blocks. -/
theorem appendLoop_append {len : ℕ} {blocks : ℕ → Bytes} (within : ip.size.toNat + len ≤ top * blockSize)
    (view : ∀ j < top, s.disk (ip.index.get j).toNat = blocks j) :
    let r := appendLoop ip data len (ip.size.toNat / blockSize) 0 len s
    r = { s with disk := r.disk, dataBuf := r.dataBuf } ∧
      (∀ j < top, r.disk (ip.index.get j).toNat =
        Scratch.append blockSize data ip.size.toNat len blocks j) ∧
      ∀ b, (∀ j < top, b ≠ (ip.index.get j).toNat) → r.disk b = s.disk b := by
  cases len with
  | zero => exact ⟨rfl, view, fun _ _ => rfl⟩
  | succ len =>
    have inside : ip.size.toNat / blockSize < top := by
      rw [Nat.div_lt_iff_lt_mul (by decide)]
      omega
    rw [appendLoop, Scratch.append, if_neg (Nat.succ_ne_zero len), if_neg (Nat.succ_ne_zero len)]
    dsimp only
    rw [if_pos rfl, if_pos rfl, view _ inside, Nat.succ_sub_one, Nat.zero_add]
    have step (off n : ℕ) (block : Bytes) : block.blit off (fun i => data (0 + i)) n =
      Scratch.patch block off n data 0 := rfl
    rw [step]
    generalize cut_eq : min (blockSize - ip.size.toNat % blockSize) (len + 1) = cut
    generalize Scratch.patch (blocks (ip.size.toNat / blockSize)) (ip.size.toNat % blockSize) cut data 0 = block
    have view' : ∀ j < top, s.disk.write (ip.index.get (ip.size.toNat / blockSize)).toNat block
        (ip.index.get j).toNat = Function.update blocks (ip.size.toNat / blockSize) block j := fun j less => by
      by_cases same : j = ip.size.toNat / blockSize
      · rw [same, Disk.write_same, Function.update_self]
      · rw [Disk.write_other fun here => same (once j less _ inside here), view j less, Function.update_of_ne same]
    have small := Nat.mod_lt ip.size.toNat (show 0 < blockSize by decide)
    have whole := Nat.div_add_mod ip.size.toNat blockSize
    have room : (ip.size.toNat / blockSize + 1) * blockSize ≤ top * blockSize := Nat.mul_le_mul_right blockSize inside
    have short : (ip.size.toNat / blockSize + 1) * blockSize + (len + 1 - cut) ≤ top * blockSize := by
      rw [Nat.succ_mul] at room ⊢
      rw [Nat.mul_comm] at whole
      omega
    obtain ⟨rest, blocks', other⟩ := appendLoop_pour once
      (s := { s with disk := s.disk.write (ip.index.get (ip.size.toNat / blockSize)).toNat block,
                     dataBuf := block })
      len cut (Nat.lt_succ_self _) short view'
    refine ⟨rest, blocks', fun b apart => ?_⟩
    rw [other b apart]
    exact Disk.write_other (apart _ inside) ..

end

/-! ## Appends -/

theorem dataBlock_nat {k : ℕ} (inside : k < mkfsSuperBlock.dataBlocks) :
    (dataBlock mkfsSuperBlock k).toNat = mkfsSuperBlock.dataFirstblock + k :=
  dataBlock_toNat mkfsSuperBlock_sane inside

/-- The index table of a file of the right size, with blocks that were allocated before `g` -/
structure Table (g : ℕ) (ip : InodeDisk) : Prop where
  short : ip.size.toNat ≤ inodeIndex1 * blockSize
  filled : ∀ j, ip.index.get j ≠ 0 ↔ j < blocksOf ip.size
  stored : ∀ j, ip.index.get j ≠ 0 → ∃ k < g, ip.index.get j = dataBlock mkfsSuperBlock k
  once : ∀ i j, ip.index.get i = ip.index.get j → ip.index.get i ≠ 0 → i = j

/-- The effect of an append: new blocks at the end of the table, and writes to blocks of the file only -/
structure Appends (chunks : List (List U8)) (ip : InodeDisk) (data : Bytes) (len : U32) (s : State)
    (ip' : InodeDisk) (s' : State) : Prop where
  record : ip' = { ip with size := ip.size + len, index := ip'.index }
  entry : ∀ j, ip'.index.get j = if blocksOf ip.size ≤ j ∧ j < blocksOf (ip.size + len) then
    dataBlock mkfsSuperBlock (s.globalBlockNum + (j - blocksOf ip.size)) else ip.index.get j
  rest : s' = { s with disk := s'.disk, dataBuf := s'.dataBuf,
                       globalBlockNum := s.globalBlockNum + (blocksOf (ip.size + len) - blocksOf ip.size) }
  used : ∀ k < mkfsSuperBlock.dataBlocks, s'.disk.used mkfsSuperBlock k =
    (decide (s.globalBlockNum ≤ k ∧ k < s'.globalBlockNum) || s.disk.used mkfsSuperBlock k)
  other : ∀ b ≠ mkfsSuperBlock.dataBitmapFirstblock, (∀ j, ip'.index.get j ≠ 0 → b ≠ (ip'.index.get j).toNat) →
    s'.disk b = s.disk b
  bytes : ∀ x, Scratch.flat blockSize (fileBlocks s'.disk ip'.index) x =
    Scratch.written blockSize (chunks ++ [Bytes.take data len.toNat]) x

theorem Table.number {g : ℕ} (table : Table g ip) (room : g ≤ mkfsSuperBlock.dataBlocks) {j : ℕ}
    (filled : ip.index.get j ≠ 0) :
    ∃ k < g, (ip.index.get j).toNat = mkfsSuperBlock.dataFirstblock + k := by
  obtain ⟨k, less, same⟩ := table.stored j filled
  exact ⟨k, less, same ▸ dataBlock_nat (Nat.lt_of_lt_of_le less room)⟩

/-- The new blocks follow those allocated before. -/
theorem Table.extend {g new : ℕ} {size : U32} {index : Index} (table : Table g ip)
    (short : size.toNat ≤ inodeIndex1 * blockSize) (new_eq : blocksOf size = new) (grows : blocksOf ip.size ≤ new)
    (room : g + (new - blocksOf ip.size) ≤ mkfsSuperBlock.dataBlocks)
    (entry : ∀ j, index.get j = if blocksOf ip.size ≤ j ∧ j < new then
      dataBlock mkfsSuperBlock (g + (j - blocksOf ip.size)) else ip.index.get j) :
    Table (g + (new - blocksOf ip.size)) { ip with size := size, index := index } := by
  have number {j : ℕ} (high : blocksOf ip.size ≤ j) (low : j < new) :
      (dataBlock mkfsSuperBlock (g + (j - blocksOf ip.size))).toNat =
        mkfsSuperBlock.dataFirstblock + (g + (j - blocksOf ip.size)) := dataBlock_nat (by omega)
  refine ⟨short, fun j => ?_, fun j filled => ?_, fun i j same filled => ?_⟩
  · dsimp only
    rw [entry, new_eq]
    split_ifs with added
    · exact iff_of_true (dataBlock_ne_zero mkfsSuperBlock_sane (by omega)) added.2
    · rw [table.filled]
      omega
  · dsimp only at filled ⊢
    rw [entry] at filled ⊢
    split_ifs at filled ⊢ with added
    · exact ⟨_, by omega, rfl⟩
    · obtain ⟨k, less, same⟩ := table.stored j filled
      exact ⟨k, by omega, same⟩
  · dsimp only at same filled
    rw [entry] at filled
    rw [entry, entry] at same
    split_ifs at same filled with first second second
    · have place := congrArg BitVec.toNat same
      rw [number first.1 first.2, number second.1 second.2] at place
      omega
    · obtain ⟨k, less, place⟩ := table.number (by omega) (same ▸ filled)
      rw [← same, number first.1 first.2] at place
      omega
    · obtain ⟨k, less, place⟩ := table.number (by omega) filled
      rw [same, number second.1 second.2] at place
      omega
    · exact table.once i j same filled

theorem inodeAppend_spec {chunks : List (List U8)} (data : Bytes) {len : U32} (table : Table s.globalBlockNum ip)
    (size : ip.size.toNat = chunks.flatten.length)
    (fits : ip.size.toNat + len.toNat ≤ inodeIndex1 * blockSize)
    (room : s.globalBlockNum + (blocksOf (ip.size + len) - blocksOf ip.size) ≤ mkfsSuperBlock.dataBlocks)
    (fresh : ∀ k, s.globalBlockNum ≤ k → k < mkfsSuperBlock.dataBlocks →
      s.disk (mkfsSuperBlock.dataFirstblock + k) = fun _ => 0)
    (bytes : ∀ x, Scratch.flat blockSize (fileBlocks s.disk ip.index) x = Scratch.written blockSize chunks x) :
    Appends chunks ip data len s (inodeAppend ip data len s).1 (inodeAppend ip data len s).2 ∧
      Table (inodeAppend ip data len s).2.globalBlockNum (inodeAppend ip data len s).1 := by
  have total : (ip.size + len).toNat = ip.size.toNat + len.toNat := by
    simp only [inodeIndex1, blockSize] at fits
    rw [BitVec.toNat_add, Nat.mod_eq_of_lt (by omega)]
  have old := blocksOf_eq table.short
  have new : blocksOf (ip.size + len) = (ip.size.toNat + len.toNat + 4095) / blockSize := by
    rw [blocksOf_eq (by rwa [total]), total]
  have few : blocksOf (ip.size + len) ≤ inodeIndex1 := by
    simp only [inodeIndex1, blockSize] at *
    omega
  have grows : blocksOf ip.size ≤ blocksOf (ip.size + len) := by
    rw [old, new]
    exact Nat.div_le_div_right (by omega)
  rw [inodeAppend]
  dsimp only
  rw [if_neg fun full => absurd full.2 (Nat.not_lt.mpr few)]
  have allocated := allocBlocks_spec ip.index s
    (show blocksOf ip.size + (blocksOf (ip.size + len) - blocksOf ip.size) ≤ 13 by
      simp only [inodeIndex1] at few
      omega) room
  generalize allocBlocks (blocksOf (ip.size + len) - blocksOf ip.size) (blocksOf ip.size) ip.index s = a at *
  obtain ⟨index, s₁⟩ := a
  dsimp only at allocated ⊢
  have entry := allocated.entry
  rw [Nat.add_sub_cancel' grows] at entry
  have table' := table.extend (by rwa [total]) rfl grows room entry
  have stored (j : ℕ) (filled : index.get j ≠ 0) : mkfsSuperBlock.dataFirstblock ≤ (index.get j).toNat := by
    obtain ⟨k, -, place⟩ := table'.number room filled
    exact Nat.le.intro place.symm
  have filled (j : ℕ) : index.get j ≠ 0 ↔ j < blocksOf (ip.size + len) := table'.filled j
  have view : ∀ j < blocksOf (ip.size + len),
      s₁.disk (index.get j).toNat = fileBlocks s.disk ip.index j := fun j less => by
    have place := stored j ((filled j).mpr less)
    rw [allocated.other _ (Nat.ne_of_gt (Nat.lt_of_lt_of_le (by decide) place)), fileBlocks, entry]
    rcases Nat.lt_or_ge j (blocksOf ip.size) with low | high
    · rw [if_neg (by omega), if_neg ((table.filled j).mpr low)]
    · rw [if_pos ⟨high, less⟩, if_pos (not_not.mp (mt (table.filled j).mp (Nat.not_lt.mpr high))),
        dataBlock_nat (by omega)]
      exact fresh _ (Nat.le_add_right ..) (by omega)
  have once : ∀ i < blocksOf (ip.size + len), ∀ j < blocksOf (ip.size + len),
      (index.get i).toNat = (index.get j).toNat → i = j := fun i less j _ same =>
    table'.once i j (BitVec.eq_of_toNat_eq same) ((filled i).mpr less)
  have within : ip.size.toNat + len.toNat ≤ blocksOf (ip.size + len) * blockSize := by
    simp only [new, blockSize]
    omega
  obtain ⟨rest, blocks, other⟩ := @appendLoop_append s₁ { ip with index := index } data _ once _ _
    within view
  dsimp only at rest blocks other
  generalize appendLoop _ data _ _ _ _ s₁ = r at rest blocks other ⊢
  have number : r.globalBlockNum = s.globalBlockNum + (blocksOf (ip.size + len) - blocksOf ip.size) := by
    rw [rest, allocated.rest]
  refine ⟨⟨rfl, entry, ?_, fun k inside => ?_, fun b bitmap apart => ?_, fun x => ?_⟩, ?_⟩
  · rw [rest, allocated.rest]
  · rw [number, ← allocated.used]
    refine Disk.bitAt_congr (other _ fun j less same => ?_)
    have place := stored j ((filled j).mpr less)
    have before := (bitmap_before_data mkfsSuperBlock_sane inside).2
    omega
  · rw [other b fun j less => apart j ((filled j).mpr less), allocated.other b bitmap]
  · rcases Nat.lt_or_ge (x / blockSize) (blocksOf (ip.size + len)) with low | high
    · have chunk : (Bytes.take data len.toNat).length = len.toNat := Bytes.length_take ..
      rw [← Scratch.flat_append_written (by decide) (fun i less => ?_) bytes x, Scratch.flat, fileBlocks,
        if_neg ((filled _).mpr low), blocks _ low, ← size, chunk]
      · rfl
      · rw [Bytes.getD_take, if_pos (by rwa [chunk] at less)]
    · rw [Scratch.flat, fileBlocks, if_pos (not_not.mp (mt (filled _).mp (Nat.not_lt.mpr high))),
        Scratch.written_past]
      have whole := Nat.mul_le_mul_right blockSize high
      rw [List.flatten_append, List.flatten_singleton, List.length_append, Bytes.length_take, ← size]
      omega
  · rwa [number]

end Mkfs

end LabKernel
