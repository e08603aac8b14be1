import LabKernel.Fs.DirMap
import LabKernel.Fs.Durability
import LabKernel.Fs.Reclaim

/-! # The directories on a disk

The entries of the directories on a disk are the edges of a graph whose nodes are the allocated
inodes. The kernel changes it in few ways: it writes a directory entry, it writes the record of an
inode, it deletes an inode. Each of them leaves the other nodes untouched.
-/

namespace LabKernel

open BlockTrees

variable {sb : SuperBlock}

/-- The records on a disk, one for each allocated inode. -/
def diskStore (sb : SuperBlock) (d : Disk) : Store where
  disk := d
  image t := if t.toNat < sb.totalInodes ∧ Store.allocated sb d t = true then some (inodeRead sb t d) else none

/-- The inode that a name leads to: the entries of a directory are its edges. -/
def entry (sb : SuperBlock) (d : Disk) (t : U32) (name : List U8) : Option U32 :=
  if (inodeRead sb t d).type = inodeTypeDir then
    dirMap (diskStore sb d).trees t (inodeRead sb t d) name
  else none

/-- An inode of the graph: allocated, linked, and without holes or double names if it is a directory. -/
structure Node (sb : SuperBlock) (d : Disk) (t : U32) : Prop where
  inside : t.toNat < sb.totalInodes
  allocated : Store.allocated sb d t = true
  linked : (inodeRead sb t d).nlink ≠ 0
  dir : (inodeRead sb t d).type = inodeTypeDir →
    Directory (diskStore sb d).trees t (inodeRead sb t d)

theorem diskStore_image {d : Disk} {t : U32} (node : Node sb d t) :
    (diskStore sb d).image t = some (inodeRead sb t d) := if_pos ⟨node.inside, node.allocated⟩

theorem Node.ne_minusOne (sane : sb.Sane) {d : Disk} {t : U32} (node : Node sb d t) : t ≠ minusOne := by
  rintro rfl
  have few := sane.inodeNums
  have inside := node.inside
  change 2 ^ 32 - 1 < sb.totalInodes at inside
  omega


/-! ## What the graph depends on -/

namespace BlockTrees

variable {s s' : BlockTrees} {u : U32}

/-- The blocks of an inode depend on its table and on the data area. -/
theorem block_data (owned : Owned sb s) (index : s'.index u = s.index u)
    (data : ∀ b, sb.dataFirstblock ≤ b → s'.disk b = s.disk b) {p : Place} (valid : p.Valid) :
    s'.block u p = s.block u p := by
  refine Forest.entry_congr (fun _ _ => Place.Inner.parent) (fun i => ?_) ?_ valid.within
  · exact congrArg (Index.get · i) index
  · intro q a j inner points
    obtain ⟨filled, rfl⟩ := blockOf_eq_some points
    obtain ⟨k, -, number, -⟩ := owned.stored u q inner.1 filled
    have area : sb.dataFirstblock ≤ (s.block u q).toNat := by omega
    exact congrArg (Bytes.u32 · (4 * j)) (data _ area)

theorem fileByte_data (owned : Owned sb s) (index : s'.index u = s.index u)
    (data : ∀ b, sb.dataFirstblock ≤ b → s'.disk b = s.disk b) {x : ℕ} (bound : x < 2 ^ 32) :
    s'.fileByte u x = s.fileByte u x := by
  have valid := leafPlace_valid (block_bound (Nat.le_refl _) bound)
  rw [fileByte, fileByte, content, content, block_data owned index data valid]
  by_cases empty : s.block u (leafPlace (x / blockSize)) = 0
  · rw [if_pos empty, if_pos empty]
  · obtain ⟨k, -, number, -⟩ := owned.stored u _ valid empty
    rw [if_neg empty, if_neg empty, data _ (by omega)]

end BlockTrees

/-- An inode has the same blocks with the same bytes on two disks. -/
structure SameTree (sb : SuperBlock) (d d' : Disk) (t : U32) : Prop where
  block : ∀ p, Place.Valid p → (diskStore sb d').trees.block t p = (diskStore sb d).trees.block t p
  bytes : ∀ x < 2 ^ 32, (diskStore sb d').trees.fileByte t x = (diskStore sb d).trees.fileByte t x

/-- An inode is the same on two disks. -/
structure Untouched (sb : SuperBlock) (d d' : Disk) (t : U32) : Prop where
  record : inodeRead sb t d' = inodeRead sb t d
  allocated : Store.allocated sb d' t = Store.allocated sb d t
  tree : SameTree sb d d' t

private theorem SameTree.trans {d d' d'' : Disk} {t : U32} (first : SameTree sb d d' t)
    (second : SameTree sb d' d'' t) : SameTree sb d d'' t :=
  ⟨fun p valid => (second.block p valid).trans (first.block p valid),
    fun x bound => (second.bytes x bound).trans (first.bytes x bound)⟩

theorem Untouched.trans {d d' d'' : Disk} {t : U32} (first : Untouched sb d d' t)
    (second : Untouched sb d' d'' t) : Untouched sb d d'' t :=
  ⟨second.record.trans first.record, second.allocated.trans first.allocated,
    first.tree.trans second.tree⟩

/-- The entries depend on the bytes up to the size. -/
theorem dirTable_congr {s s' : BlockTrees} {t size : U32}
    (bytes : ∀ x < size.toNat, s'.fileByte t x = s.fileByte t x) :
    dirTable s' t size = dirTable s t size := by
  refine SlotTable.ext rfl ?_
  funext k
  simp only [dirTable]
  split
  · rw [dirEntry, dirEntry]
    congr 2
    refine Bytes.blit_congr fun x bound => ?_
    rw [bytes _ (by omega)]
  · rfl

namespace SameTree

variable {d d' : Disk} {t : U32}

theorem entry (same : SameTree sb d d' t) (type : (inodeRead sb t d').type = (inodeRead sb t d).type)
    (size : (inodeRead sb t d').size = (inodeRead sb t d).size) :
    LabKernel.entry sb d' t = LabKernel.entry sb d t := by
  funext name
  rw [LabKernel.entry, LabKernel.entry, type, dirMap, dirMap, size,
    dirTable_congr fun x inside => same.bytes x (Nat.lt_trans inside (BitVec.isLt _))]

private theorem directory (same : SameTree sb d d' t)
    (type : (inodeRead sb t d').type = (inodeRead sb t d).type)
    (size : (inodeRead sb t d').size = (inodeRead sb t d).size)
    (dir : Directory (diskStore sb d).trees t (inodeRead sb t d)) :
    Directory (diskStore sb d').trees t (inodeRead sb t d') where
  type := type.trans dir.type
  size := by rw [size, dir.size]
  whole n inside := by
    rw [size] at inside
    have small := (inodeRead sb t d).size.isLt
    have valid := leafPlace_valid (block_bound (x := n * blockSize) (Nat.le_refl _) (by omega))
    rw [Nat.mul_div_cancel n (by decide)] at valid
    rw [same.block _ valid]
    exact dir.whole n inside
  distinct := by
    rw [size, dirTable_congr fun x inside => same.bytes x (Nat.lt_trans inside (BitVec.isLt _))]
    exact dir.distinct

end SameTree

theorem Untouched.entry {d d' : Disk} {t : U32} (same : Untouched sb d d' t) :
    LabKernel.entry sb d' t = LabKernel.entry sb d t :=
  same.tree.entry (congrArg _ same.record) (congrArg _ same.record)

theorem Untouched.node {d d' : Disk} {t : U32} (same : Untouched sb d d' t) (node : Node sb d t) :
    Node sb d' t where
  inside := node.inside
  allocated := same.allocated.trans node.allocated
  linked := by rw [same.record]; exact node.linked
  dir type := by
    rw [same.record] at type
    exact same.tree.directory (congrArg _ same.record) (congrArg _ same.record) (node.dir type)

/-! ## The store on a disk -/

theorem diskStore_imaged (sb : SuperBlock) (d : Disk) : Store.Imaged sb (diskStore sb d) := by
  intro t
  simp only [diskStore]
  split
  · exact iff_of_true rfl ‹_›
  · exact iff_of_false Bool.false_ne_true ‹_›

/-- A store all of whose records are written through is the store on its disk. -/
theorem diskStore_eq {st : Store} (imaged : Store.Imaged sb st)
    (through : ∀ t info, st.image t = some info → inodeRead sb t st.disk = info) :
    diskStore sb st.disk = st := by
  have image : (diskStore sb st.disk).image = st.image := by
    funext t
    simp only [diskStore]
    cases record : st.image t with
    | none =>
      rw [if_neg]
      intro there
      have some := (imaged t).mpr there
      rw [record] at some
      cases some
    | some info =>
      rw [if_pos ((imaged t).mp (by rw [record]; rfl)), through t info record]
  cases st
  exact congrArg (Store.mk _) image

/-- Equal tables over equal data areas are equal trees. -/
theorem sameTree_of {d d' : Disk} {s : BlockTrees} (owned : Owned sb s) {t : U32}
    (before : (diskStore sb d).trees.index t = s.index t)
    (after : (diskStore sb d').trees.index t = s.index t) (disk : s.disk = d)
    (data : ∀ b, sb.dataFirstblock ≤ b → d' b = d b) : SameTree sb d d' t where
  block p valid := (block_data owned after (by rw [disk]; exact data) valid).trans
    (block_data owned before (fun _ _ => by rw [disk]; rfl) valid).symm
  bytes x bound := (fileByte_data owned after (by rw [disk]; exact data) bound).trans
    (fileByte_data owned before (fun _ _ => by rw [disk]; rfl) bound).symm

/-- A cached record fits a disk if its blocks, too, are owned by the inode alone. -/
def Fits (sb : SuperBlock) (d : Disk) (t : U32) (cached : InodeDisk) : Prop :=
  Store.Sound sb ⟨d, Function.update (diskStore sb d).image t (some cached)⟩

/-- The record on disk fits. -/
theorem fits_inodeRead {d : Disk} {t : U32} (sound : Store.Sound sb (diskStore sb d))
    (inside : t.toNat < sb.totalInodes) (there : Store.allocated sb d t = true) :
    Fits sb d t (inodeRead sb t d) := by
  have image : (diskStore sb d).image t = some (inodeRead sb t d) := if_pos ⟨inside, there⟩
  rw [Fits, ← image, Function.update_eq_self]
  exact sound

/-- A cached record that stands for the one on disk. That of a directory is the one on disk; a file may
have blocks that its record on disk does not know yet. -/
structure Stands (sb : SuperBlock) (d : Disk) (t : U32) (cached : InodeDisk) : Prop where
  type : cached.type = (inodeRead sb t d).type
  nlink : cached.nlink = (inodeRead sb t d).nlink
  dir : (inodeRead sb t d).type = inodeTypeDir → cached = inodeRead sb t d
  fits : Fits sb d t cached

/-- The record on disk stands for itself. -/
theorem Node.stands {d : Disk} {t : U32} (node : Node sb d t)
    (sound : Store.Sound sb (diskStore sb d)) : Stands sb d t (inodeRead sb t d) :=
  ⟨rfl, rfl, fun _ => rfl, fits_inodeRead sound node.inside node.allocated⟩

/-! ## Writing a record -/

/-- What writing the record `r'` of inode `t` does to the graph. -/
structure Recorded (sb : SuperBlock) (d d' : Disk) (t : U32) (r r' : InodeDisk) : Prop where
  sound : Store.Sound sb (diskStore sb d')
  record : inodeRead sb t d' = r'
  allocated : ∀ u, u.toNat < sb.totalInodes → Store.allocated sb d' u = Store.allocated sb d u
  others : ∀ u, u.toNat < sb.totalInodes → u ≠ t → Untouched sb d d' u
  tree : r.index = (inodeRead sb t d).index → SameTree sb d d' t

/-- Writing the record of an inode whose cached record is `r`, with the table of `r`. -/
theorem inodeWrite_recorded (sane : sb.Sane) {d : Disk} {t : U32} {r r' : InodeDisk}
    (sound : Fits sb d t r) (index : r'.index = r.index) : Recorded sb d (inodeWrite sb t r' d) t r r' := by
  have there := (sound.imaged t).mp (by simp)
  have low := inodeBlock_low sane there.1
  have bitmaps := sane.inodeEnd
  have area := sane.dataBitmapEnd
  have allocated (u : U32) (inside : u.toNat < sb.totalInodes) :
      Store.allocated sb (inodeWrite sb t r' d) u = Store.allocated sb d u :=
    Store.allocated_congr sane inside fun b before => Store.inodeWrite_before before ..
  have store : diskStore sb (inodeWrite sb t r' d) =
      ⟨inodeWrite sb t r' d, Function.update (diskStore sb d).image t (some r')⟩ := by
    refine congrArg (Store.mk _) (funext fun u => ?_)
    by_cases here : u = t
    · rw [here, Function.update_self, inodeRead_inodeWrite, allocated t there.1, if_pos there]
    · rw [Function.update_of_ne here, inodeRead_inodeWrite_other sb here]
      refine if_congr (and_congr_right fun inside => ?_) rfl rfl
      rw [allocated u inside]
  have owned := sound.owned
  rw [Store.trees_update] at owned
  have data (b : ℕ) (inside : sb.dataFirstblock ≤ b) : inodeWrite sb t r' d b = d b :=
    inodeWrite_other (by omega) r' d
  have trees : (diskStore sb (inodeWrite sb t r' d)).trees =
      (diskStore sb d).trees.put t r.index (inodeWrite sb t r' d) := by
    rw [store, Store.trees_update, index]
  constructor
  · refine ⟨diskStore_imaged sb _, ?_⟩
    rw [trees]
    exact (kept_writeLow sane owned low _).owned owned
  · exact inodeRead_inodeWrite ..
  · exact allocated
  · intro u inside other
    refine ⟨inodeRead_inodeWrite_other sb other .., allocated u inside, sameTree_of owned ?_ ?_ rfl data⟩
    · rw [put_index_other _ other]
    · rw [trees, put_index_other _ other, put_index_other _ other]
  · intro same
    refine sameTree_of owned ?_ ?_ rfl data
    · rw [put_index, same]
      exact Store.trees_index (if_pos ⟨there.1, there.2⟩)
    · rw [trees, put_index, put_index]

/-! ## Deleting an inode -/

/-- What deleting inode `t` does to the graph. -/
structure Deleted (sb : SuperBlock) (d d' : Disk) (t : U32) : Prop where
  sound : Store.Sound sb (diskStore sb d')
  others : ∀ u, u.toNat < sb.totalInodes → u ≠ t → Untouched sb d d' u
  freed : Store.allocated sb d' t = false
  entry : ∀ name, entry sb d' t name = none

theorem inodeDelete_deleted (sane : sb.Sane) {d : Disk} {t : U32}
    (sound : Store.Sound sb (diskStore sb d)) (inside : t.toNat < sb.totalInodes)
    (there : Store.allocated sb d t = true) :
    Deleted sb d (inodeDelete sb t (inodeRead sb t d) d).2 t := by
  have image : (diskStore sb d).image t = some (inodeRead sb t d) := if_pos ⟨inside, there⟩
  have freed := freeDataBlocks_freed sane sound.owned t
  rw [Store.trees_index image] at freed
  change Freed sb _ d (freeDataBlocks sb (inodeRead sb t d).index d).2 at freed
  have step := Store.step_delete sane sound t
  simp only [Store.step, image] at step
  have allocated (u : U32) (inside : u.toNat < sb.totalInodes) :=
    Store.inodeDelete_allocated (t := t) sane inside (inodeRead sb t d) fun b low => freed.other b (Or.inl low)
  have bit := Store.inodeBitmap_before sane inside
  have low := inodeBlock_low sane inside
  have areas := sane.inodeEnd
  have area := sane.dataBitmapEnd
  -- the bit of the inode lies before its record, and the record before the data
  have behind (b : ℕ) (inodes : sb.inodeFirstblock ≤ b) (other : b ≠ inodeBlock sb t) :
      (inodeDelete sb t (inodeRead sb t d) d).2 b = (freeDataBlocks sb (inodeRead sb t d).index d).2 b :=
    (Disk.clearBitAt_other (show b ≠ sb.inodeBitmapFirstblock + t.toNat / bitPerBlock by omega)).trans
      (inodeWrite_other other ..)
  have data (b : ℕ) (inside : sb.dataFirstblock ≤ b) :
      (inodeDelete sb t (inodeRead sb t d) d).2 b = d b :=
    (behind b (by omega) (by omega)).trans (freed.other b (Or.inr inside))
  have stored (u : U32) : inodeRead sb u (inodeDelete sb t (inodeRead sb t d) d).2 =
      inodeRead sb u (inodeWrite sb t (inodeDelete sb t (inodeRead sb t d) d).1
        (freeDataBlocks sb (inodeRead sb t d).index d).2) := by
    have high := inodeBlock_high sb u
    exact inodeRead_congr (Disk.clearBitAt_other (by omega))
  have record (u : U32) (within : u.toNat < sb.totalInodes) (other : u ≠ t) :
      inodeRead sb u (inodeDelete sb t (inodeRead sb t d) d).2 = inodeRead sb u d := by
    rw [stored, inodeRead_inodeWrite_other sb other]
    exact inodeRead_congr (freed.other _ (Or.inl (inodeBlock_low sane within)))
  have store : diskStore sb (inodeDelete sb t (inodeRead sb t d) d).2 =
      ⟨(inodeDelete sb t (inodeRead sb t d) d).2, Function.update (diskStore sb d).image t none⟩ := by
    refine diskStore_eq step.imaged fun u info some => ?_
    dsimp only at some ⊢
    have other : u ≠ t := by
      rintro rfl
      rw [Function.update_self] at some
      cases some
    rw [Function.update_of_ne other] at some
    simp only [diskStore] at some
    split at some
    · rename_i there
      exact (record u there.1 other).trans (Option.some.inj some)
    · cases some
  have trees : (diskStore sb (inodeDelete sb t (inodeRead sb t d) d).2).trees =
      (diskStore sb d).trees.put t Index.empty (inodeDelete sb t (inodeRead sb t d) d).2 := by
    rw [store, Store.trees_remove]
  constructor
  · rw [store]
    exact step
  · intro u within other
    refine ⟨record u within other, ?_, sameTree_of sound.owned rfl ?_ rfl data⟩
    · rw [allocated u within, decide_eq_false other, Bool.not_false, Bool.and_true]
    · rw [trees, put_index_other _ other]
  · rw [allocated t inside, decide_eq_true rfl, Bool.not_true, Bool.and_false]
  · intro name
    rw [LabKernel.entry, stored, inodeRead_inodeWrite]
    split
    · rw [dirMap, SlotTable.lookup_eq_none]
      intro k inside
      change k < 0 / 64 at inside
      omega
    · rfl

/-! ## Writing an entry -/

private theorem root_mem_path (p : Place) : Place.root p.top ∈ p.path := by
  obtain ⟨rest, path, -⟩ := p.path_eq
  rw [path]
  exact List.mem_cons_self ..

/-- What writing entry `k` of directory `t` does to the graph. -/
structure Entered (sb : SuperBlock) (d d' : Disk) (t : U32) (k : ℕ) (src : Bytes) : Prop where
  sound : Store.Sound sb (diskStore sb d')
  allocated : ∀ u, u.toNat < sb.totalInodes → Store.allocated sb d' u = Store.allocated sb d u
  others : ∀ u, u.toNat < sb.totalInodes → u ≠ t → Untouched sb d d' u
  nlink : (inodeRead sb t d').nlink = (inodeRead sb t d).nlink
  type : (inodeRead sb t d').type = inodeTypeDir
  size : (inodeRead sb t d').size.toNat % 64 = 0
  whole : ∀ n, n * blockSize < (inodeRead sb t d').size.toNat →
    (diskStore sb d').trees.block t (leafPlace n) ≠ 0
  table : dirTable (diskStore sb d').trees t (inodeRead sb t d').size =
    Store.entered (dirTable (diskStore sb d).trees t (inodeRead sb t d).size) k
      (Dentry.decode (Bytes.blit (fun _ => 0) 0 src 64) 0).slot

section

variable {d : Disk} {t : U32} {offset len : U32} {src : Bytes}

/-- A write leaves the other inodes' records and the inode bitmap. -/
private theorem inodeWriteData_low (sane : sb.Sane) (sound : Store.Sound sb (diskStore sb d))
    (inside : t.toNat < sb.totalInodes) (there : Store.allocated sb d t = true) :
    let w := inodeWriteData sb t (inodeRead sb t d) offset len src d
    (∀ u : U32, u.toNat < sb.totalInodes → u ≠ t → inodeRead sb u w.2.2 = inodeRead sb u d) ∧
      ∀ u : U32, u.toNat < sb.totalInodes → Store.allocated sb w.2.2 u = Store.allocated sb d u := by
  intro w
  have image : (diskStore sb d).image t = some (inodeRead sb t d) := if_pos ⟨inside, there⟩
  have limit : (offset + len).toNat ≤ 2 ^ 32 := Nat.le_of_lt (offset + len).isLt
  obtain ⟨m, s₁, passes, -, -, disk⟩ := inodeWriteData_spec sane sound.owned
    (Store.trees_index image).symm offset len src
  obtain ⟨-, -, -, low⟩ := passes.kept sane limit (handles_writing sane t src offset.toNat limit) sound.owned
  change w.2.2 = _ at disk
  constructor
  · intro u within different
    have stored : inodeRead sb u s₁.disk = inodeRead sb u d :=
      inodeRead_congr (low _ (inodeBlock_low sane within))
    rw [disk]
    split
    · rw [inodeRead_inodeWrite_other sb different, stored]
    · exact stored
  · intro u within
    apply Store.allocated_congr sane within
    intro b before
    have areas := sane.inodeEnd
    rw [disk]
    split
    · rw [Store.inodeWrite_before before]
      exact low b (by omega)
    · exact low b (by omega)

/-- Where the record on disk is the one that a write leaves, the store on disk is the store's step. -/
private theorem diskStore_written (sane : sb.Sane) (sound : Store.Sound sb (diskStore sb d))
    (inside : t.toNat < sb.totalInodes) (there : Store.allocated sb d t = true) :
    let w := inodeWriteData sb t (inodeRead sb t d) offset len src d
    inodeRead sb t w.2.2 = w.2.1 →
      diskStore sb w.2.2 = (diskStore sb d).step sb (.write t offset len src) ∧
        diskStore sb w.2.2 = ⟨w.2.2, Function.update (diskStore sb d).image t (some w.2.1)⟩ := by
  intro w own
  have image : (diskStore sb d).image t = some (inodeRead sb t d) := if_pos ⟨inside, there⟩
  have others := (@inodeWriteData_low sb d t offset len src sane sound inside there).1
  have step : (diskStore sb d).step sb (.write t offset len src) =
      ⟨w.2.2, Function.update (diskStore sb d).image t (some w.2.1)⟩ := by
    simp only [Store.step, image]
    rfl
  have stepSound := Store.step_write sane sound t offset len src
  rw [step] at stepSound
  have store : diskStore sb w.2.2 = ⟨w.2.2, Function.update (diskStore sb d).image t (some w.2.1)⟩ := by
    refine diskStore_eq stepSound.imaged fun u info some => ?_
    dsimp only at some ⊢
    rcases eq_or_ne u t with rfl | here
    · rw [Function.update_self] at some
      exact own.trans (Option.some.inj some)
    · rw [Function.update_of_ne here] at some
      simp only [diskStore] at some
      split at some
      · rename_i there
        exact (others u there.1 here).trans (Option.some.inj some)
      · cases some
  exact ⟨store.trans step.symm, store⟩

/-- The blocks of a directory below its size are there, so a write behind the size writes its record, and a
write below it does not change the record. -/
private theorem inodeRead_written (sane : sb.Sane) (sound : Store.Sound sb (diskStore sb d))
    (inside : t.toNat < sb.totalInodes) (there : Store.allocated sb d t = true)
    (dir : Directory (diskStore sb d).trees t (inodeRead sb t d)) (short : offset.toNat + len.toNat < 2 ^ 32)
    (some : 0 < len.toNat) (written : (inodeWriteData sb t (inodeRead sb t d) offset len src d).1 = len) :
    let w := inodeWriteData sb t (inodeRead sb t d) offset len src d
    inodeRead sb t w.2.2 = w.2.1 := by
  intro w
  have image : (diskStore sb d).image t = Option.some (inodeRead sb t d) := if_pos ⟨inside, there⟩
  have total : (offset + len).toNat = offset.toNat + len.toNat := by
    rw [BitVec.toNat_add, Nat.mod_eq_of_lt short]
  have limit : (offset + len).toNat ≤ 2 ^ 32 := Nat.le_of_lt (offset + len).isLt
  have handles := handles_writing sane t src offset.toNat limit
  obtain ⟨m, s₁, passes, count, record, disk⟩ := inodeWriteData_spec sane sound.owned
    (Store.trees_index image).symm offset len src
  obtain ⟨-, -, -, low⟩ := passes.kept sane limit handles sound.owned
  change w.1.toNat = m at count
  change w.2.1 = _ at record
  change w.2.2 = _ at disk
  obtain rfl : m = len.toNat := by rw [← count, written]
  rcases Classical.em (0 < len.toNat ∧ (inodeRead sb t d).size.toNat < offset.toNat + len.toNat) with
    grow | fits
  · rw [disk, if_pos grow, inodeRead_inodeWrite]
    rfl
  · have stored : inodeRead sb t s₁.disk = inodeRead sb t d :=
      inodeRead_congr (low _ (inodeBlock_low sane inside))
    have table : s₁.index t = (diskStore sb d).trees.index t := by
      refine (passes.index_iff sane limit handles sound.owned).mpr fun n touch => Or.inl ?_
      obtain ⟨-, -, high⟩ := mem_touched.mp touch
      refine block_path (root_mem_path (leafPlace n)) (dir.whole n ?_)
      simp only [blockSize] at *
      omega
    rw [disk, if_neg fits, stored, record, grownRecord, if_neg fits, table, Store.trees_index image]

end

/-- A write of an entry that moves all its bytes, into the directory or right behind it. -/
theorem inodeWriteData_entered (sane : sb.Sane) {d : Disk} {t : U32}
    (sound : Store.Sound sb (diskStore sb d)) (inside : t.toNat < sb.totalInodes)
    (there : Store.allocated sb d t = true) (dir : Directory (diskStore sb d).trees t (inodeRead sb t d))
    {k : ℕ} (bound : k ≤ (inodeRead sb t d).size.toNat / 64) (fits : 64 * k + 64 < 2 ^ 32) {src : Bytes}
    (written : (inodeWriteData sb t (inodeRead sb t d) (BitVec.ofNat 32 (64 * k)) dentrySize src d).1 =
      dentrySize) :
    let w := inodeWriteData sb t (inodeRead sb t d) (BitVec.ofNat 32 (64 * k)) dentrySize src d
    Entered sb d w.2.2 t k src ∧ inodeRead sb t w.2.2 = w.2.1 ∧
      diskStore sb w.2.2 = ⟨w.2.2, Function.update (diskStore sb d).image t (some w.2.1)⟩ := by
  intro w
  have image : (diskStore sb d).image t = some (inodeRead sb t d) := if_pos ⟨inside, there⟩
  have length : dentrySize.toNat = 64 := rfl
  have offset : (BitVec.ofNat 32 (64 * k)).toNat = 64 * k := by
    rw [BitVec.toNat_ofNat, Nat.mod_eq_of_lt (by omega)]
  have limit : (BitVec.ofNat 32 (64 * k) + dentrySize).toNat ≤ 2 ^ 32 :=
    Nat.le_of_lt (BitVec.ofNat 32 (64 * k) + dentrySize).isLt
  have own : inodeRead sb t w.2.2 = w.2.1 :=
    inodeRead_written sane sound inside there dir (by omega) (by omega) written
  obtain ⟨others, allocated⟩ : _ ∧ _ := inodeWriteData_low sane sound inside there
  obtain ⟨step, store⟩ := diskStore_written sane sound inside there own
  have handles := handles_writing sane t src (BitVec.ofNat 32 (64 * k)).toNat limit
  obtain ⟨m, s₁, passes, -, record, disk⟩ := inodeWriteData_spec sane sound.owned
    (Store.trees_index image).symm (BitVec.ofNat 32 (64 * k)) dentrySize src
  obtain ⟨-, other, content, -⟩ := passes.kept sane limit handles sound.owned
  have owned := passes.owned sane limit handles sound.owned
  change w.2.1 = _ at record
  change w.2.2 = _ at disk
  have trees : (diskStore sb w.2.2).trees = ⟨s₁.index, w.2.2⟩ := by
    rw [store, Store.trees_update, record]
    exact Store.put_of_other other _
  have block (u : U32) (p : Place) (valid : p.Valid) :
      (diskStore sb w.2.2).trees.block u p = s₁.block u p := by
    rw [trees, disk]
    split
    · exact (kept_writeLow sane owned (inodeBlock_low sane inside) _).block u p valid
    · rfl
  have byte (u : U32) (x : ℕ) (small : x < 2 ^ 32) :
      (diskStore sb w.2.2).trees.fileByte u x = s₁.fileByte u x := by
    rw [trees, disk]
    split
    · exact Store.fileByte_inodeWrite sane owned inside _ u small
    · rfl
  obtain ⟨outcome, type, size, whole⟩ := Store.write_entry sane sound image dir bound fits src
  rw [← step] at outcome whole
  change (_ ∧ w.1 = dentrySize ∧ dirTable _ t w.2.1.size = _ ∨ _ ∧ w.1 ≠ dentrySize ∧ _) at outcome
  change w.2.1.type = _ at type
  change w.2.1.size.toNat % 64 = 0 at size
  rw [← own] at outcome type size
  obtain ⟨-, -, table⟩ := outcome.resolve_right fun failed => failed.2.1 written
  refine ⟨⟨?_, allocated, fun u within different => ⟨others u within different, allocated u within, ?_, ?_⟩,
    ?_, type, size, fun n present => ?_, table⟩, own, store⟩
  · rw [step]
    exact Store.step_write sane sound t _ _ src
  · exact fun p valid =>
      (block u p valid).trans (passes.block_other sane limit handles sound.owned different valid)
  · intro x small
    rw [byte u x small, fileByte, fileByte, content u different _ (block_bound (Nat.le_refl _) small)]
  · rw [own, record]
    rfl
  · exact whole n (own ▸ present)

/-- Cached records of other inodes fit as before. -/
theorem fits_entered (sane : sb.Sane) {d : Disk} {t u : U32} (inside : t.toNat < sb.totalInodes)
    (there : Store.allocated sb d t = true) {offset len : U32} {src : Bytes}
    (store : let w := inodeWriteData sb t (inodeRead sb t d) offset len src d
      diskStore sb w.2.2 = ⟨w.2.2, Function.update (diskStore sb d).image t (some w.2.1)⟩)
    {cached : InodeDisk} (other : u ≠ t) (fits : Fits sb d u cached) :
    Fits sb (inodeWriteData sb t (inodeRead sb t d) offset len src d).2.2 u cached := by
  have image : (Function.update (diskStore sb d).image u (some cached)) t = some (inodeRead sb t d) :=
    (Function.update_of_ne other.symm ..).trans (if_pos ⟨inside, there⟩)
  have step := Store.step_write sane fits t offset len src
  simp only [Store.step, image] at step
  dsimp only at store
  rw [Fits, store]
  dsimp only
  rw [Function.update_comm other.symm]
  exact step

end LabKernel
