import LabKernel.Fs.Append

/-! # Built images

What holds of the disk and of the inodes after any sequence of calls that fits the disk: the bitmaps have
the bits of what was allocated, no block is entered twice, and a file has the bytes that its appends wrote.
The last step writes the records, so the file system that a kernel finds on the image has these inodes.
-/

namespace LabKernel

open BlockTrees

namespace Mkfs

/-- The record of inode `i`, an empty one if there is none -/
def State.row (s : State) (i : ℕ) : InodeDisk :=
  ((s.inodes[i]?).map Prod.snd).getD ⟨0, 0, 0, 0, 0, Index.empty⟩

/-- What holds between the calls, with the data appended to each inode -/
structure Built (chunks : ℕ → List (List U8)) (s : State) : Prop where
  numbers : s.inodes.map Prod.fst = (List.range s.globalInodeNum).map (BitVec.ofNat 32)
  inodes : s.globalInodeNum ≤ mkfsSuperBlock.totalInodes
  blocks : s.globalBlockNum ≤ mkfsSuperBlock.dataBlocks
  allocated : ∀ k < mkfsSuperBlock.totalInodes,
    s.disk.bitAt mkfsSuperBlock.inodeBitmapFirstblock k = decide (k < s.globalInodeNum)
  used : ∀ k < mkfsSuperBlock.dataBlocks, s.disk.used mkfsSuperBlock k = decide (k < s.globalBlockNum)
  fresh : ∀ k, s.globalBlockNum ≤ k → k < mkfsSuperBlock.dataBlocks →
    s.disk (mkfsSuperBlock.dataFirstblock + k) = fun _ => 0
  table : ∀ i, Table s.globalBlockNum (s.row i)
  once : ∀ i j a b, (s.row i).index.get a = (s.row j).index.get b → (s.row i).index.get a ≠ 0 → i = j
  size : ∀ i, (s.row i).size.toNat = (chunks i).flatten.length
  bytes : ∀ i x, Scratch.flat blockSize (fileBlocks s.disk (s.row i).index) x =
    Scratch.written blockSize (chunks i) x

variable {s : State} {chunks : ℕ → List (List U8)}

/-! ## Records and blocks -/

private theorem Table.mono {g g' : ℕ} {ip : InodeDisk} (table : Table g ip) (more : g ≤ g') : Table g' ip :=
  { table with
    stored := fun j filled => by
      obtain ⟨k, less, same⟩ := table.stored j filled
      exact ⟨k, Nat.lt_of_lt_of_le less more, same⟩ }

private theorem Table.congr {g : ℕ} {ip ip' : InodeDisk} (table : Table g ip) (size : ip'.size = ip.size)
    (index : ip'.index = ip.index) : Table g ip' := by
  constructor
  · rw [size]
    exact table.short
  · rw [size, index]
    exact table.filled
  · rw [index]
    exact table.stored
  · rw [index]
    exact table.once

private theorem fileBlocks_congr {d d' : Disk} {index : Index}
    (same : ∀ j, index.get j ≠ 0 → d' (index.get j).toNat = d (index.get j).toNat) :
    fileBlocks d' index = fileBlocks d index := by
  funext j
  rw [fileBlocks, fileBlocks]
  split_ifs with empty
  · rfl
  · exact same j empty

private theorem row_of_some {i : ℕ} {x : U32 × InodeDisk} (there : s.inodes[i]? = some x) : s.row i = x.2 := by
  rw [State.row, there]
  rfl

/-- A new inode has no bytes, as it had before. -/
theorem row_create {s' : State} {x : U32 × InodeDisk} (inodes : s'.inodes = s.inodes ++ [x])
    (size : x.2.size = 0) (index : x.2.index = Index.empty) (i : ℕ) :
    (s'.row i).size = (s.row i).size ∧ (s'.row i).index = (s.row i).index := by
  simp only [State.row, inodes, List.getElem?_append]
  rcases Nat.lt_trichotomy i s.inodes.length with low | rfl | high
  · rw [if_pos low]
    exact ⟨rfl, rfl⟩
  · rw [if_neg (Nat.lt_irrefl _), Nat.sub_self, List.getElem?_eq_none (Nat.le_refl _)]
    exact ⟨size, index⟩
  · have behind : [x].length ≤ i - s.inodes.length := by
      rw [List.length_singleton]
      omega
    rw [if_neg (by omega), List.getElem?_eq_none behind, List.getElem?_eq_none (by omega)]
    exact ⟨rfl, rfl⟩

private theorem row_set {s' : State} {i : ℕ} {x : U32 × InodeDisk} (inodes : s'.inodes = s.inodes.set i x)
    (inside : i < s.inodes.length) (j : ℕ) : s'.row j = if j = i then x.2 else s.row j := by
  simp only [State.row, inodes, List.getElem?_set]
  split_ifs with same same' same'
  · rfl
  · exact absurd same.symm same'
  · exact absurd same'.symm same
  · rfl

namespace Built

private theorem length (built : Built chunks s) : s.inodes.length = s.globalInodeNum := by
  have same := congrArg List.length built.numbers
  rwa [List.length_map, List.length_map, List.length_range] at same

private theorem init : Built (fun _ => []) State.init where
  numbers := rfl
  inodes := Nat.zero_le _
  blocks := Nat.zero_le _
  allocated k _ := by simp [State.init, Disk.bitAt, Bytes.bit]
  used k _ := by simp [State.init, Disk.used, Disk.bitAt, Bytes.bit]
  fresh _ _ _ := rfl
  table i := by
    have none : State.init.row i = ⟨0, 0, 0, 0, 0, Index.empty⟩ := rfl
    refine ⟨?_, fun j => ?_, fun j filled => ?_, fun a b _ filled => ?_⟩
    · rw [none]
      exact Nat.zero_le _
    · rw [none]
      exact iff_of_false (fun filled => filled (Index.get_empty j)) (Nat.not_lt_zero j)
    · exact absurd (Index.get_empty j) filled
    · exact absurd (Index.get_empty a) filled
  once i j a b _ filled := absurd (Index.get_empty a) filled
  size _ := rfl
  bytes i x := by
    have none : fileBlocks State.init.disk (State.init.row i).index = fun _ _ => 0 := by
      funext j
      exact if_pos (Index.get_empty j)
    rw [none, Scratch.written_past (Nat.zero_le _)]
    rfl

/-- A new inode sets a bit, and no inode has other bytes. -/
theorem create (built : Built chunks s) (room : s.globalInodeNum < mkfsSuperBlock.totalInodes)
    (type major minor : U16) : Built chunks (step s (.create type major minor)) := by
  have few : s.globalInodeNum / bitPerBlock < 2 := by
    change _ < 65536 at room
    simp only [bitPerBlock]
    omega
  have other {b : ℕ} (high : 3 ≤ b) : (step s (.create type major minor)).disk b = s.disk b := by
    refine Disk.setBitAt_other (k := s.globalInodeNum) ?_
    change b ≠ 1 + s.globalInodeNum / bitPerBlock
    omega
  have same (i : ℕ) : ((step s (.create type major minor)).row i).size = (s.row i).size ∧
      ((step s (.create type major minor)).row i).index = (s.row i).index := row_create rfl rfl rfl i
  have blocks (i : ℕ) : fileBlocks (step s (.create type major minor)).disk
      ((step s (.create type major minor)).row i).index = fileBlocks s.disk (s.row i).index := by
    rw [(same i).2]
    refine fileBlocks_congr fun j filled => other ?_
    obtain ⟨k, -, place⟩ := (built.table i).number built.blocks filled
    rw [place]
    exact Nat.le_trans (by decide) (Nat.le_add_right ..)
  constructor
  · change (s.inodes ++ [_]).map Prod.fst = (List.range (s.globalInodeNum + 1)).map _
    rw [List.map_append, built.numbers, List.range_succ, List.map_append]
    rfl
  · exact room
  · exact built.blocks
  · intro k inside
    change (s.disk.setBitAt _ _).bitAt _ k = decide (k < s.globalInodeNum + 1)
    rw [Disk.bitAt_setBitAt, built.allocated k inside, ← Bool.decide_or, decide_eq_decide]
    omega
  · intro k inside
    rw [Disk.used, Disk.bitAt_congr (other ?_)]
    · exact built.used k inside
    · exact Nat.le_trans (by decide) (Nat.le_add_right ..)
  · intro k new inside
    rw [other (Nat.le_trans (by decide) (Nat.le_add_right ..))]
    exact built.fresh k new inside
  · exact fun i => (built.table i).congr (same i).1 (same i).2
  · intro i j a b equal filled
    rw [(same i).2] at equal filled
    rw [(same j).2] at equal
    exact built.once i j a b equal filled
  · intro i
    rw [(same i).1]
    exact built.size i
  · intro i x
    rw [blocks]
    exact built.bytes i x

/-- An append changes its own file only. -/
theorem append (built : Built chunks s) {i : ℕ} {data : Bytes} {len : U32} (fits : Fits s (.append i data len)) :
    Built (fun j => chunks j ++ appended j (.append i data len)) (step s (.append i data len)) := by
  obtain ⟨x, there, short, room⟩ := fits
  have own : s.row i = x.2 := row_of_some there
  have inside : i < s.inodes.length := (List.getElem?_eq_some_iff.mp there).1
  have size := own ▸ built.size i
  have table := own ▸ built.table i
  obtain ⟨append, table'⟩ := inodeAppend_spec data table size short room built.fresh (own ▸ built.bytes i)
  have step_eq : step s (.append i data len) =
      { (inodeAppend x.2 data len s).2 with
        inodes := (inodeAppend x.2 data len s).2.inodes.set i (x.1, (inodeAppend x.2 data len s).1) } := by
    rw [step, there]
  rw [step_eq]
  generalize inodeAppend x.2 data len s = r at append table' ⊢
  obtain ⟨ip, s'⟩ := r
  dsimp only at append table' ⊢
  have total : ip.size.toNat = x.2.size.toNat + len.toNat := by
    rw [append.record]
    simp only [inodeIndex1, blockSize] at short
    rw [BitVec.toNat_add, Nat.mod_eq_of_lt (by omega)]
  have inodes : s'.inodes = s.inodes := by rw [append.rest]
  have inodeNum : s'.globalInodeNum = s.globalInodeNum := by rw [append.rest]
  have blockNum : s'.globalBlockNum = s.globalBlockNum + (blocksOf (x.2.size + len) - blocksOf x.2.size) := by
    rw [append.rest]
  have row (j : ℕ) : State.row { s' with inodes := s'.inodes.set i (x.1, ip) } j =
      if j = i then ip else s.row j := row_set (x := (x.1, ip)) (congrArg (List.set · i _) inodes) inside j
  have more : s.globalBlockNum ≤ s'.globalBlockNum := by omega
  have few : s'.globalBlockNum ≤ mkfsSuperBlock.dataBlocks := by omega
  -- blocks in front of the data area and of other files
  have low {b : ℕ} (below : b < mkfsSuperBlock.dataFirstblock) (bitmap : b ≠ mkfsSuperBlock.dataBitmapFirstblock) :
      s'.disk b = s.disk b := by
    refine append.other b bitmap fun j filled same => ?_
    obtain ⟨k, -, place⟩ := table'.number few filled
    omega
  have apart {j a b : ℕ} (other : j ≠ i) (filled : ip.index.get a ≠ 0) :
      ip.index.get a ≠ (s.row j).index.get b := by
    intro same
    rw [append.entry] at same filled
    split_ifs at same filled with added
    · obtain ⟨k, less, place⟩ := (built.table j).number built.blocks (same ▸ filled)
      rw [← same, dataBlock_nat (by omega)] at place
      omega
    · exact other (built.once i j a b (by rw [own, same]) (by rwa [own])).symm
  have blocks {j : ℕ} (other : j ≠ i) : fileBlocks s'.disk (s.row j).index = fileBlocks s.disk (s.row j).index := by
    refine fileBlocks_congr fun b filled => append.other _ ?_ fun a filled' same => ?_
    · obtain ⟨k, -, place⟩ := (built.table j).number built.blocks filled
      rw [place]
      exact Nat.ne_of_gt (Nat.lt_of_lt_of_le (by decide) (Nat.le_add_right ..))
    · exact apart other filled' (BitVec.eq_of_toNat_eq same.symm)
  constructor
  · change (s'.inodes.set i (x.1, ip)).map Prod.fst = (List.range s'.globalInodeNum).map _
    have bound : i < (s.inodes.map Prod.fst).length := by rwa [List.length_map]
    have first : (s.inodes.map Prod.fst)[i] = x.1 := by
      rw [List.getElem_map, (List.getElem?_eq_some_iff.mp there).2]
    rw [inodes, inodeNum, ← built.numbers, List.map_set, ← first, List.set_getElem_self]
  · change s'.globalInodeNum ≤ _
    rw [inodeNum]
    exact built.inodes
  · exact few
  · intro k inside
    change s'.disk.bitAt _ k = decide (k < s'.globalInodeNum)
    rw [inodeNum, ← built.allocated k inside]
    have bitmap : mkfsSuperBlock.inodeBitmapFirstblock + k / bitPerBlock < mkfsSuperBlock.inodeFirstblock :=
      Store.inodeBitmap_before mkfsSuperBlock_sane inside
    exact Disk.bitAt_congr (low (Nat.lt_trans bitmap (by decide)) (Nat.ne_of_lt (Nat.lt_trans bitmap (by decide))))
  · intro k inside
    change s'.disk.used _ k = decide (k < s'.globalBlockNum)
    rw [append.used k inside, built.used k inside, ← Bool.decide_or, decide_eq_decide]
    omega
  · intro k new inside
    change s'.disk _ = _
    rw [append.other _ ?_ fun j filled same => ?_]
    · exact built.fresh k (Nat.le_trans more new) inside
    · exact Nat.ne_of_gt (Nat.lt_of_lt_of_le (by decide) (Nat.le_add_right ..))
    · obtain ⟨m, less, place⟩ := table'.number few filled
      change s'.globalBlockNum ≤ k at new
      omega
  · intro j
    rw [row]
    split_ifs
    · exact table'
    · exact (built.table j).mono more
  · intro j m a b same filled
    rw [row] at same filled
    rw [row] at same
    split_ifs at same filled with first second second
    · rw [first, second]
    · exact absurd same (apart second filled)
    · exact absurd same.symm (apart first (same ▸ filled))
    · exact built.once j m a b same filled
  · intro j
    rw [row, List.flatten_append, List.length_append]
    split_ifs with same
    · rw [same, total, size, appended, if_pos rfl, List.flatten_singleton, Bytes.length_take]
    · rw [built.size j, appended, if_neg (Ne.symm same)]
      rfl
  · intro j y
    change Scratch.flat blockSize (fileBlocks s'.disk _) y = _
    rw [row]
    split_ifs with same
    · rw [append.bytes, same, appended, if_pos rfl]
    · rw [blocks same, built.bytes, appended, if_neg (Ne.symm same), List.append_nil]

private theorem step (built : Built chunks s) {c : Call} (fits : Fits s c) :
    Built (fun j => chunks j ++ appended j c) (step s c) := by
  cases c with
  | create type major minor =>
    have same : (fun j => chunks j ++ appended j (.create type major minor)) = chunks :=
      funext fun _ => List.append_nil _
    rw [same]
    exact built.create fits type major minor
  | append i data len => exact built.append fits

private theorem run {calls : List Call} {s' : State} (built : Built chunks s)
    (run : Run (Guarded Fits fun s c s' => s' = Mkfs.step s c) s calls s') :
    Built (fun j => chunks j ++ calls.flatMap (appended j)) s' := by
  induction run generalizing chunks with
  | nil =>
    simpa only [List.flatMap_nil, List.append_nil] using built
  | cons first _ ih =>
    obtain ⟨fits, rfl⟩ := first
    simpa only [List.flatMap_cons, List.append_assoc] using ih (built.step fits)

end Built

/-- Any sequence of calls that fits the disk -/
theorem built_of_run {calls : List Call} (run : Run (Guarded Fits fun s c s' => s' = step s c) .init calls s) :
    Built (fun j => calls.flatMap (appended j)) s := Built.init.run run

/-! ## The image -/

private theorem inodeRead_foldl (rows : List (U32 × InodeDisk)) (d : Disk) (sb : SuperBlock) :
    (fun t => inodeRead sb t (rows.foldl (fun d x => inodeWrite sb x.1 x.2 d) d)) =
      updates (fun t => inodeRead sb t d) rows := by
  induction rows generalizing d with
  | nil => rfl
  | cons x rows ih =>
    rw [List.foldl_cons, ih, updates_cons]
    congr 1
    funext t
    rcases eq_or_ne t x.1 with rfl | other
    · rw [inodeRead_inodeWrite, Function.update_self]
    · rw [inodeRead_inodeWrite_other sb other, Function.update_of_ne other]

private theorem foldl_inodeWrite_other {rows : List (U32 × InodeDisk)} {sb : SuperBlock} {b : ℕ}
    (other : ∀ x ∈ rows, b ≠ inodeBlock sb x.1) (d : Disk) :
    rows.foldl (fun d x => inodeWrite sb x.1 x.2 d) d b = d b := by
  induction rows generalizing d with
  | nil => rfl
  | cons x rows ih =>
    obtain ⟨first, rest⟩ := List.forall_mem_cons.mp other
    rw [List.foldl_cons, ih rest, inodeWrite_other first]

namespace Built

/-- The numbers of the inodes are their places. -/
theorem number (built : Built chunks s) {i : ℕ} {x : U32 × InodeDisk} (there : s.inodes[i]? = some x) :
    x.1 = BitVec.ofNat 32 i ∧ i < s.globalInodeNum := by
  have same := congrArg (·[i]?) built.numbers
  have inside := (List.getElem?_eq_some_iff.mp there).1
  rw [built.length] at inside
  rw [List.getElem?_map, there, List.getElem?_map, List.getElem?_range inside] at same
  exact ⟨Option.some.inj same, inside⟩

private theorem number_toNat (built : Built chunks s) {i : ℕ} (inside : i < s.globalInodeNum) :
    (BitVec.ofNat 32 i).toNat = i := by
  have few : i < 65536 := Nat.lt_of_lt_of_le inside built.inodes
  rw [BitVec.toNat_ofNat, Nat.mod_eq_of_lt (by omega)]

private theorem nodup (built : Built chunks s) : (s.inodes.map Prod.fst).Nodup := by
  rw [built.numbers]
  refine List.Nodup.map_on (fun i left j right same => ?_) List.nodup_range
  rw [← built.number_toNat (List.mem_range.mp left), same, built.number_toNat (List.mem_range.mp right)]

/-- The last step writes block 0 and the inode area. -/
theorem finish_other (built : Built chunks s) {b : ℕ} (positive : b ≠ 0)
    (outside : b < mkfsSuperBlock.inodeFirstblock ∨ mkfsSuperBlock.dataBitmapFirstblock ≤ b) :
    finish s b = s.disk b := by
  rw [finish, foldl_inodeWrite_other, Disk.write_other positive]
  intro x member same
  obtain ⟨i, there⟩ := List.mem_iff_getElem?.mp member
  obtain ⟨number, inside⟩ := built.number there
  have few : x.1.toNat < mkfsSuperBlock.totalInodes := by
    rw [number, built.number_toNat inside]
    exact Nat.lt_of_lt_of_le inside built.inodes
  have low := inodeBlock_low mkfsSuperBlock_sane few
  have high := inodeBlock_high mkfsSuperBlock x.1
  omega

private theorem inodeRead_finish (built : Built chunks s) {t : U32} (inside : t.toNat < s.globalInodeNum) :
    inodeRead mkfsSuperBlock t (finish s) = s.row t.toNat := by
  have bound : t.toNat < s.inodes.length := by rwa [built.length]
  have there : s.inodes[t.toNat]? = some s.inodes[t.toNat] := List.getElem?_eq_getElem bound
  obtain ⟨number, -⟩ := built.number there
  have self : s.inodes = s.inodes.map fun x => (x.1, x.2) := (List.map_id' _).symm
  have read := congrFun (inodeRead_foldl s.inodes (s.disk.write 0
    (s.dataBuf.blit 0 (superBlockBytes mkfsSuperBlock) 48)) mkfsSuperBlock) s.inodes[t.toNat].1
  have written := @updates_mem _ _ _ _ (fun t => inodeRead mkfsSuperBlock t (s.disk.write 0
    (s.dataBuf.blit 0 (superBlockBytes mkfsSuperBlock) 48))) Prod.fst Prod.snd s.inodes built.nodup _
    (List.getElem_mem bound)
  rw [← self] at written
  rw [row_of_some there, ← written, ← read, number, BitVec.ofNat_toNat, BitVec.setWidth_eq]
  rfl

private theorem allocated_finish (built : Built chunks s) {t : U32} (inside : t.toNat < mkfsSuperBlock.totalInodes) :
    Store.allocated mkfsSuperBlock (finish s) t = decide (t.toNat < s.globalInodeNum) := by
  have bitmap := Store.inodeBitmap_before mkfsSuperBlock_sane inside
  rw [Store.allocated, Disk.bitAt_congr (built.finish_other ?_ (.inl bitmap))]
  · exact built.allocated _ inside
  · exact Nat.ne_of_gt (Nat.lt_of_lt_of_le (by decide) (Nat.le_add_right ..))

/-- The kernel finds the inodes that were created, with their records. -/
theorem image (built : Built chunks s) (t : U32) : (diskStore mkfsSuperBlock (finish s)).image t =
    if t.toNat < s.globalInodeNum then some (s.row t.toNat) else none := by
  by_cases inside : t.toNat < s.globalInodeNum
  · have few := Nat.lt_of_lt_of_le inside built.inodes
    rw [if_pos inside, ← built.inodeRead_finish inside]
    exact if_pos ⟨few, by rw [built.allocated_finish few, decide_eq_true inside]⟩
  · rw [if_neg inside]
    refine if_neg fun there => inside ?_
    rw [built.allocated_finish there.1, decide_eq_true_eq] at there
    exact there.2

private theorem index (built : Built chunks s) (t : U32) :
    (diskStore mkfsSuperBlock (finish s)).trees.index t = (s.row t.toNat).index := by
  rcases Nat.lt_or_ge t.toNat s.globalInodeNum with inside | outside
  · exact Store.trees_index ((built.image t).trans (if_pos inside))
  · have none := (built.image t).trans (if_neg (Nat.not_lt.mpr outside))
    have absent : s.inodes[t.toNat]? = Option.none := List.getElem?_eq_none (by rwa [built.length])
    simp only [Store.trees, State.row, none, absent]
    rfl

private theorem direct (built : Built chunks s) (i : ℕ) {j : ℕ} (far : 10 ≤ j) : (s.row i).index.get j = 0 := by
  have table := built.table i
  by_contra filled
  have inside := (table.filled j).mp filled
  have short := table.short
  rw [blocksOf_eq short] at inside
  simp only [inodeIndex1, blockSize] at *
  omega

/-- The image is sound: no block is entered twice, and the bits of all blocks entered are set. -/
theorem sound (built : Built chunks s) : Store.Sound mkfsSuperBlock (diskStore mkfsSuperBlock (finish s)) := by
  refine ⟨diskStore_imaged _ _, owned_of_direct (fun t j far => ?_) (fun t j _ filled => ?_)
    fun t j _ u m _ same filled => ?_⟩
  · rw [built.index]
    exact built.direct _ far
  · rw [built.index] at filled ⊢
    obtain ⟨k, less, place⟩ := (built.table _).number built.blocks filled
    have inside := Nat.lt_of_lt_of_le less built.blocks
    refine ⟨k, inside, place, ?_⟩
    have bitmap := bitmap_before_data mkfsSuperBlock_sane inside
    change (finish s).used mkfsSuperBlock k = true
    rw [Disk.used, Disk.bitAt_congr (built.finish_other ?_ (.inr bitmap.1))]
    · rw [← Disk.used, built.used k inside, decide_eq_true less]
    · exact Nat.ne_of_gt (Nat.lt_of_lt_of_le (by decide) bitmap.1)
  · rw [built.index] at same filled
    rw [built.index] at same
    have equal := built.once _ _ _ _ same filled
    rw [← equal] at same
    exact ⟨BitVec.eq_of_toNat_eq equal, (built.table _).once j m same filled⟩

/-- The bytes of a file on the image, also those behind its end -/
theorem fileByte (built : Built chunks s) (t : U32) {x : ℕ} (bound : x < 2 ^ 32) :
    (diskStore mkfsSuperBlock (finish s)).trees.fileByte t x = Scratch.written blockSize (chunks t.toNat) x := by
  have direct (j : ℕ) (far : 10 ≤ j) : ((diskStore mkfsSuperBlock (finish s)).trees.index t).get j = 0 := by
    rw [built.index]
    exact built.direct _ far
  have valid := leafPlace_valid (block_bound (Nat.le_refl _) bound)
  rw [← built.bytes, Scratch.flat, fileBlocks, BlockTrees.fileByte, content]
  rcases Nat.lt_or_ge (x / blockSize) 10 with near | far
  · rw [leafPlace_direct near, block_root, built.index]
    split_ifs with empty
    · rfl
    · obtain ⟨k, -, place⟩ := (built.table t.toNat).number built.blocks empty
      change finish s _ _ = _
      rw [built.finish_other]
      · exact Nat.ne_of_gt (Nat.lt_of_lt_of_le (by decide) (Nat.le.intro place.symm))
      · exact .inr (Nat.le_trans (by decide) (Nat.le.intro place.symm))
  · rw [if_pos (built.direct _ far), if_pos]
    by_contra filled
    obtain ⟨j, near, place⟩ := block_direct direct valid filled
    rw [← leafPlace_direct near] at place
    have := leafPlace_injective place
    omega

end Built

end Mkfs

end LabKernel
