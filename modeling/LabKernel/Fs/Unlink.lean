import LabKernel.Fs.ParentLookup

/-! # Removing entries

`path_unlink` removes one entry and drops one link of the inode it named; for a directory it drops a
link of the parent too, for the `..` that is thought to go. It does not look whether the directory is
empty, and `path_create_inode` never counted that `..`. So the call can cut off what is below the
entry, or reclaim the parent with all that is in it.
-/

namespace LabKernel

open BlockTrees

variable {sb : SuperBlock} {cfg : FsConfig}

/-! ## Steps on a held inode -/

/-- Slot `k` holds inode `t` with a loaded record. -/
structure Holds (s : FsState) (k : ℕ) (t : U32) (ref : ℕ) (info : InodeDisk) (slk : Bool) : Prop where
  number : (s.inodeCache k).inodeNum = t
  valid : (s.inodeCache k).validInfo = true
  ref : (s.inodeCache k).ref = ref
  record : (s.inodeCache k).diskInfo = info
  slk : (s.inodeCache k).slk = slk

private theorem Holds.congr {s s' : FsState} {k : ℕ} {t : U32} {ref : ℕ} {info : InodeDisk} {slk : Bool}
    (holds : Holds s k t ref info slk) (same : s'.inodeCache k = s.inodeCache k) :
    Holds s' k t ref info slk := by
  obtain ⟨number, valid, count, record, locked⟩ := holds
  exact ⟨by rwa [same], by rwa [same], by rwa [same], by rwa [same], by rwa [same]⟩

namespace Fs

variable {s : FsState} {k : ℕ} {t : U32} {ref : ℕ} {info : InodeDisk}

/-- Changing the link count of a held inode writes its record. -/
theorem updateNlink_yields {slk : Bool} (holds : Holds s k t ref info slk) (f : U16 → U16) :
    Yields (updateNlink cfg k f) s fun _ s' =>
      s'.disk = inodeWrite cfg.sb t { info with nlink := f info.nlink } s.disk ∧
      Holds s' k t ref { info with nlink := f info.nlink } slk ∧
      ∀ m ≠ k, s'.inodeCache m = s.inodeCache m := by
  obtain ⟨rfl, valid, rfl, rfl, rfl⟩ := holds
  simp only [updateNlink, updateInode, inodeRwWrite, Ends.bind_iff, Ends.modify_iff, FsState.setInode_same,
    FsState.setInode_disk, FsState.setInode_setDisk, FsState.setInode_setInode]
  refine ⟨rfl, ⟨by simp, by simpa using valid, by simp, by simp, by simp⟩, fun m other => ?_⟩
  rw [FsState.setInode_other _ _ _ other]
  rfl

private theorem inodeUnlock_holds (holds : Holds s k t ref info true) (held : 0 < ref) :
    Yields (inodeUnlock k) s fun _ s' => s'.disk = s.disk ∧ Holds s' k t ref info false ∧
      ∀ m ≠ k, s'.inodeCache m = s.inodeCache m := by
  obtain ⟨rfl, valid, rfl, rfl, locked⟩ := holds
  refine (inodeUnlock_yields held locked).mono ?_
  rintro _ _ rfl
  exact ⟨rfl, ⟨by simp, by simpa using valid, by simp, by simp, by simp⟩,
    fun m other => FsState.setInode_other _ _ _ other⟩

/-- Putting a held inode deletes it when the last reference goes and no link is left. -/
theorem inodePut_holds (holds : Holds s k t ref info false) (held : 0 < ref) :
    Yields (inodePut cfg k) s fun _ s' =>
      s'.disk = (if ref = 1 ∧ info.nlink = 0 then (LabKernel.inodeDelete cfg.sb t info s.disk).2
        else s.disk) ∧
      ∀ m ≠ k, s'.inodeCache m = s.inodeCache m := by
  obtain ⟨rfl, valid, rfl, rfl, unlocked⟩ := holds
  by_cases last : (s.inodeCache k).ref = 1 ∧ (s.inodeCache k).diskInfo.nlink = 0
  · have all : (s.inodeCache k).ref = 1 ∧ (s.inodeCache k).validInfo = true ∧
        (s.inodeCache k).diskInfo.nlink = 0 := ⟨last.1, valid, last.2⟩
    simp only [inodePut, Ends.bind_iff, Ends.get_iff, if_pos all, if_pos last]
    refine (inodeLock_yields held unlocked).mono ?_
    rintro _ _ rfl
    simp only [inodeDelete, updateInode, inodeUnlock, sleeplockRelease, Ends.bind_iff, Ends.modify_iff,
      Ends.get_iff, FsState.setInode_same, FsState.setInode_setDisk, FsState.setInode_setInode,
      Inode.loaded, if_pos valid]
    refine Ends.ite (fun bad => ?_) fun _ => ⟨?_, fun m other => ?_⟩
    · rcases bad with free | none
      · cases free
      · omega
    · simp
    · simp only [FsState.setInode_setInode, FsState.setInode_other _ _ _ other]
      rfl
  · rw [if_neg last]
    refine (inodePut_yields fun all => last ⟨all.1, all.2.2⟩).mono ?_
    rintro _ _ rfl
    exact ⟨rfl, fun m other => FsState.setInode_other _ _ _ other⟩

end Fs

/-! ## Entries -/

/-- Entry `name` of directory `t` is gone, and nothing else changed. -/
structure EntryCleared (sb : SuperBlock) (d d' : Disk) (t : U32) (name : List U8) : Prop where
  sound : Store.Sound sb (diskStore sb d')
  allocated : ∀ w, w.toNat < sb.totalInodes → Store.allocated sb d' w = Store.allocated sb d w
  others : ∀ w, w.toNat < sb.totalInodes → w ≠ t → Untouched sb d d' w
  entry : entry sb d' t = Function.update (entry sb d t) name none
  nlink : (inodeRead sb t d').nlink = (inodeRead sb t d).nlink
  fits : ∀ w cached, w ≠ t → Fits sb d w cached → Fits sb d' w cached

namespace Fs

variable {s : FsState} {i : ℕ} {t : U32} {ref : ℕ}

/-- `dentry_delete` on a held inode of the graph clears the entry of the name. -/
theorem dentryDelete_cleared (sane : cfg.sb.Sane) (sound : Store.Sound cfg.sb (diskStore cfg.sb s.disk))
    (node : Node cfg.sb s.disk t) (holds : Holds s i t ref (inodeRead cfg.sb t s.disk) true)
    (name : Bytes) :
    Yields (dentryDelete cfg i name) s fun r s' =>
      match entry cfg.sb s.disk t (nameText name) with
      | none => r = minusOne ∧ s' = s
      | some u => r = u ∧ EntryCleared cfg.sb s.disk s'.disk t (nameText name) ∧
          Holds s' i t ref (inodeRead cfg.sb t s'.disk) true ∧
          ∀ m ≠ i, s'.inodeCache m = s.inodeCache m := by
  obtain ⟨number, valid, count, record, locked⟩ := holds
  by_cases directory : (inodeRead cfg.sb t s.disk).type = inodeTypeDir
  · have dir := node.dir directory
    have image := diskStore_image node
    have shows : Caches s i (diskStore cfg.sb s.disk) t := ⟨rfl, number, by rw [record, image]⟩
    refine (dentryDelete_yields sane sound shows (record ▸ dir) name).mono ?_
    rintro r s' spec
    have found := lookup_find (diskStore cfg.sb s.disk).trees t (inodeRead cfg.sb t s.disk).size
      (nameText name)
    rw [entry, if_pos directory, dirMap, ← found]
    rw [record] at spec
    cases place : (dirTable (diskStore cfg.sb s.disk).trees t (inodeRead cfg.sb t s.disk).size).find
        (SlotTable.holds (nameText name)) with
    | none =>
      rw [place] at spec
      exact spec
    | some k =>
      rw [place] at spec
      obtain ⟨inside, held, -⟩ := SlotTable.find_eq_some place
      obtain ⟨v, slot⟩ := SlotTable.holds_iff.mp held
      change k < (inodeRead cfg.sb t s.disk).size.toNat / 64 at inside
      have small := (inodeRead cfg.sb t s.disk).size.isLt
      have room : Store.Room cfg.sb (diskStore cfg.sb s.disk) t (64 * k / blockSize) := by
        refine Store.room_of_present (dir.whole _ ?_)
        simp only [blockSize]
        omega
      obtain ⟨outcome, -, -, -⟩ := Store.write_entry sane sound image dir inside.le (by omega) fun _ => 0
      have written := (outcome.resolve_right fun failed => failed.1 room).2.1
      obtain ⟨entered, own, store⟩ := inodeWriteData_entered sane sound node.inside node.allocated dir
        inside.le (by omega) written
      have fits (w : U32) (cached : InodeDisk) (other : w ≠ t) :=
        @fits_entered _ sane _ _ w node.inside node.allocated _ _ _ store cached other
      simp only [writeEntry, number, record] at spec
      change (LabKernel.inodeWriteData _ _ _ _ _ _ s.disk).1 = _ at written
      generalize LabKernel.inodeWriteData cfg.sb t (inodeRead cfg.sb t s.disk) (BitVec.ofNat 32 (64 * k))
        dentrySize (fun _ => 0) s.disk = w at written entered own fits spec
      obtain ⟨rfl, rfl⟩ := spec
      have cleared : Store.entered (dirTable (diskStore cfg.sb s.disk).trees t
          (inodeRead cfg.sb t s.disk).size) k
          (Dentry.decode (Bytes.blit (fun _ => 0) 0 (fun _ => 0) 64) 0).slot =
          (dirTable (diskStore cfg.sb s.disk).trees t (inodeRead cfg.sb t s.disk).size).clear k := by
        rw [Dentry.slot_zero]
        exact SlotTable.ext (Nat.max_eq_left inside) rfl
      have edges : entry cfg.sb w.2.2 t =
          Function.update (entry cfg.sb s.disk t) (nameText name) none := by
        funext n
        rw [entry, if_pos entered.type, dirMap, entered.table, cleared,
          SlotTable.lookup_clear dir.distinct inside slot, Function.update_apply, entry, if_pos directory]
        rfl
      rw [Option.map_some, if_pos written]
      refine ⟨rfl, ⟨entered.sound, entered.allocated, entered.others, edges, entered.nlink, fits⟩,
        ⟨by simpa using number, by simpa using valid, by simpa using count, ?_, by simpa using locked⟩,
        fun m other => FsState.setInode_other _ _ _ other⟩
      rw [FsState.setInode_same]
      exact own.symm
  · have file : entry cfg.sb s.disk t (nameText name) = none := if_neg directory
    rw [file]
    simp only [dentryDelete, diskInfo, Ends.bind_iff, Ends.get_iff, Ends.pure_iff, record]
    rw [if_pos directory]
    exact ⟨rfl, rfl⟩

end Fs

/-! ## Links -/

/-- The entries of all inodes and the inode bitmap are as before, but some link counts may differ. -/
structure SameGraph (sb : SuperBlock) (d d' : Disk) : Prop where
  sound : Store.Sound sb (diskStore sb d')
  allocated : ∀ w, w.toNat < sb.totalInodes → Store.allocated sb d' w = Store.allocated sb d w
  entry : ∀ w, w.toNat < sb.totalInodes → entry sb d' w = entry sb d w
  type : ∀ w, w.toNat < sb.totalInodes → (inodeRead sb w d').type = (inodeRead sb w d).type

private theorem SameGraph.refl {d : Disk} (sound : Store.Sound sb (diskStore sb d)) : SameGraph sb d d :=
  ⟨sound, fun _ _ => rfl, fun _ _ => rfl, fun _ _ => rfl⟩

private theorem SameGraph.trans {d d' d'' : Disk} (first : SameGraph sb d d') (second : SameGraph sb d' d'') :
    SameGraph sb d d'' :=
  ⟨second.sound, fun w inside => (second.allocated w inside).trans (first.allocated w inside),
    fun w inside => (second.entry w inside).trans (first.entry w inside),
    fun w inside => (second.type w inside).trans (first.type w inside)⟩

/-- A record with another link count. -/
def InodeDisk.relink (f : U16 → U16) (info : InodeDisk) : InodeDisk := { info with nlink := f info.nlink }

/-- Writing the record of an inode with another link count keeps the graph. -/
theorem relink_graph (sane : sb.Sane) {d : Disk} {t : U32} {r : InodeDisk} (stands : Stands sb d t r)
    (f : U16 → U16) :
    Recorded sb d (inodeWrite sb t (r.relink f) d) t r (r.relink f) ∧
      SameGraph sb d (inodeWrite sb t (r.relink f) d) := by
  have recorded := @inodeWrite_recorded _ sane _ _ _ (r.relink f) stands.fits rfl
  have type : (inodeRead sb t (inodeWrite sb t (r.relink f) d)).type = (inodeRead sb t d).type := by
    rw [recorded.record]
    exact stands.type
  refine ⟨recorded, recorded.sound, recorded.allocated, fun w inside => ?_, fun w inside => ?_⟩
  · by_cases here : w = t
    · rw [here]
      by_cases directory : (inodeRead sb t d).type = inodeTypeDir
      · have same := stands.dir directory
        refine (recorded.tree (congrArg _ same)).entry type ?_
        rw [recorded.record, ← same]
        rfl
      · funext name
        rw [entry, entry, type, if_neg directory, if_neg directory]
    · exact (recorded.others w inside here).entry
  · by_cases here : w = t
    · rw [here, type]
    · rw [(recorded.others w inside here).record]

namespace Fs

variable {s : FsState} {i j : ℕ} {t u : U32} {refI refJ : ℕ} {r : InodeDisk}

/-- `path_unlink` drops a link of the target if it has any, and then one of the parent if the target
is a directory. -/
theorem dropLink_yields (sane : cfg.sb.Sane) (sound : Store.Sound cfg.sb (diskStore cfg.sb s.disk))
    (inside : t.toNat < cfg.sb.totalInodes) (there : Store.allocated cfg.sb s.disk t = true)
    (stands : Stands cfg.sb s.disk u r) (apart : i ≠ j) (different : t ≠ u)
    (parent : Holds s i t refI (inodeRead cfg.sb t s.disk) true) (target : Holds s j u refJ r true) :
    Yields (dropLink cfg i j) s fun _ s' => SameGraph cfg.sb s.disk s'.disk ∧
      Holds s' i t refI (inodeRead cfg.sb t s'.disk) true ∧
      (inodeRead cfg.sb t s'.disk).nlink = (if (0 : U16).slt r.nlink ∧ r.type = inodeTypeDir then
        (inodeRead cfg.sb t s.disk).nlink - 1 else (inodeRead cfg.sb t s.disk).nlink) ∧
      if (0 : U16).slt r.nlink then
        Holds s' j u refJ (r.relink (· - 1)) true ∧ inodeRead cfg.sb u s'.disk = r.relink (· - 1)
      else Holds s' j u refJ r true := by
  simp only [dropLink, diskInfo, Ends.bind_iff, Ends.get_iff, Ends.pure_iff, target.record]
  refine Ends.ite (fun drops => ?_) fun keeps => ?_
  · simp only [drops, ↓reduceIte, true_and]
    refine Ends.bind_iff.mpr ((updateNlink_yields target (· - 1)).mono ?_)
    rintro _ s₁ ⟨disk₁, target₁, others₁⟩
    obtain ⟨recorded, graph⟩ := relink_graph sane stands (· - 1)
    change s₁.disk = inodeWrite cfg.sb u (r.relink (· - 1)) s.disk at disk₁
    rw [← disk₁] at recorded graph
    have parent₁ := parent.congr (others₁ i apart)
    have record : inodeRead cfg.sb t s₁.disk = inodeRead cfg.sb t s.disk :=
      (recorded.others t inside different).record
    rw [← record] at parent₁
    refine Ends.ite (fun directory => ?_) fun file => ?_
    · have fits := fits_inodeRead graph.sound inside ((graph.allocated t inside).trans there)
      have standsParent : Stands cfg.sb s₁.disk t (inodeRead cfg.sb t s₁.disk) := ⟨rfl, rfl, fun _ => rfl, fits⟩
      refine (updateNlink_yields parent₁ (· - 1)).mono ?_
      rintro _ s₂ ⟨disk₂, parent₂, others₂⟩
      obtain ⟨recorded₂, graph₂⟩ := relink_graph sane standsParent (· - 1)
      change s₂.disk = inodeWrite cfg.sb t ((inodeRead cfg.sb t s₁.disk).relink (· - 1)) s₁.disk at disk₂
      rw [← disk₂] at recorded₂ graph₂
      change Holds s₂ i t refI ((inodeRead cfg.sb t s₁.disk).relink (· - 1)) true at parent₂
      rw [← recorded₂.record] at parent₂
      refine ⟨graph.trans graph₂, parent₂, ?_, target₁.congr (others₂ j apart.symm), ?_⟩
      · rw [recorded₂.record, record, if_pos directory]
        rfl
      · have within := ((stands.fits.imaged u).mp (by simp)).1
        rw [(recorded₂.others u within different.symm).record, recorded.record]
    · simp only [file, ↓reduceIte]
      exact ⟨graph, parent₁, congrArg _ record, target₁, recorded.record⟩
  · simp only [keeps, Bool.false_eq_true, false_and, ↓reduceIte]
    exact ⟨.refl sound, parent, rfl, target⟩

end Fs

/-! ## Deletions -/

/-- The inodes in `gone` are deleted, and nothing else changed. -/
structure Lost (sb : SuperBlock) (d d' : Disk) (gone : U32 → Prop) : Prop where
  sound : Store.Sound sb (diskStore sb d')
  freed : ∀ w, w.toNat < sb.totalInodes → gone w → Store.allocated sb d' w = false
  entry : ∀ w name, w.toNat < sb.totalInodes → gone w → entry sb d' w name = none
  others : ∀ w, w.toNat < sb.totalInodes → ¬gone w → Untouched sb d d' w

/-- A deletion under a condition. -/
theorem lost_if (sane : sb.Sane) {d : Disk} {t : U32} (sound : Store.Sound sb (diskStore sb d))
    (inside : t.toNat < sb.totalInodes) (there : Store.allocated sb d t = true) (c : Prop) [Decidable c] :
    Lost sb d (if c then (inodeDelete sb t (inodeRead sb t d) d).2 else d) fun w => w = t ∧ c := by
  split
  · rename_i goes
    have deleted := inodeDelete_deleted sane sound inside there
    refine ⟨deleted.sound, ?_, ?_, fun w within other => deleted.others w within fun same => other ⟨same, goes⟩⟩
    · rintro w - ⟨rfl, -⟩
      exact deleted.freed
    · rintro w name - ⟨rfl, -⟩
      exact deleted.entry name
  · rename_i stays
    exact ⟨sound, fun _ _ both => absurd both.2 stays, fun _ _ _ both => absurd both.2 stays,
      fun _ _ _ => ⟨rfl, rfl, fun _ _ => rfl, fun _ _ => rfl⟩⟩

private theorem Lost.trans {d d' d'' : Disk} {gone gone' : U32 → Prop} (first : Lost sb d d' gone)
    (second : Lost sb d' d'' gone') : Lost sb d d'' fun w => gone w ∨ gone' w where
  sound := second.sound
  freed w inside either := by
    by_cases later : gone' w
    · exact second.freed w inside later
    · rw [(second.others w inside later).allocated]
      exact first.freed w inside (either.resolve_right later)
  entry w name inside either := by
    by_cases later : gone' w
    · exact second.entry w name inside later
    · rw [(second.others w inside later).entry]
      exact first.entry w name inside (either.resolve_right later)
  others w inside neither := by
    obtain ⟨early, late⟩ := not_or.mp neither
    exact (first.others w inside early).trans (second.others w inside late)

private theorem Lost.congr {d d' : Disk} {gone gone' : U32 → Prop} (lost : Lost sb d d' gone)
    (same : ∀ w, gone w ↔ gone' w) : Lost sb d d' gone' := by
  rwa [← funext fun w => propext (same w)]

/-! ## The call -/

/-- What a path names for removal: a directory, a name in it and the inode there. -/
structure Target where
  parent : U32
  name : List U8
  inode : U32
deriving DecidableEq

/-- The entry that `path_unlink` is to remove; `.` and `..` are refused. -/
def unlinkTarget (sb : SuperBlock) (d : Disk) (start : U32) (path : List U8) (junk : Bytes) :
    Option Target :=
  if lastName junk path = nameText dot ∨ lastName junk path = nameText dotDot then none
  else (resolveParent sb d start path).bind fun t =>
    (entry sb d t (lastName junk path)).map fun u => ⟨t, lastName junk path, u⟩

/-- Removing the entry of a target, with the inodes in `gone` deleted. -/
structure Unlinked (sb : SuperBlock) (d d' : Disk) (target : Target) (gone : U32 → Prop) : Prop where
  removed : ∀ w name, w.toNat < sb.totalInodes → (w = target.parent ∧ name = target.name) ∨ gone w →
    entry sb d' w name = none
  kept : ∀ w name, w.toNat < sb.totalInodes → ¬((w = target.parent ∧ name = target.name) ∨ gone w) →
    entry sb d' w name = entry sb d w name
  allocated : ∀ w, w.toNat < sb.totalInodes →
    (Store.allocated sb d' w = true ↔ Store.allocated sb d w = true ∧ ¬gone w)

/-- The inodes that `path_unlink` deletes: the target, if it has one link and no reference in the
cache, and the parent of a directory, if it has one link and the lookup holds the only reference. -/
def Reclaims (sb : SuperBlock) (s : FsState) (p : ℕ) (path : List U8) (junk : Bytes) (target : Target)
    (w : U32) : Prop :=
  ∃ dp name s₁, Fs.pathToParentInode ⟨sb, false⟩ p path junk s = .ok (some (dp, name)) s₁ ∧
    (0 : U16).slt (inodeRead sb target.inode s.disk).nlink ∧
    (w = target.inode ∧ (inodeRead sb target.inode s.disk).nlink = 1 ∧
        (∀ j, Fs.cachedSlot s₁ target.inode = some j → (s₁.inodeCache j).ref = 0) ∨
      w = target.parent ∧ (inodeRead sb target.inode s.disk).type = inodeTypeDir ∧
        (inodeRead sb target.parent s.disk).nlink = 1 ∧ (s₁.inodeCache dp).ref = 1)

namespace Fs

variable {s : FsState} {i j : ℕ} {t u : U32} {ref refI refJ : ℕ} {r : InodeDisk}

/-- Unlocking and putting both inodes deletes those without links and references. -/
theorem release_yields (sane : cfg.sb.Sane) (sound : Store.Sound cfg.sb (diskStore cfg.sb s.disk))
    (insideT : t.toNat < cfg.sb.totalInodes) (thereT : Store.allocated cfg.sb s.disk t = true)
    (insideU : u.toNat < cfg.sb.totalInodes) (thereU : Store.allocated cfg.sb s.disk u = true)
    (apart : i ≠ j) (different : t ≠ u) (heldI : 0 < refI) (heldJ : 0 < refJ)
    (parent : Holds s i t refI (inodeRead cfg.sb t s.disk) true) (target : Holds s j u refJ r true)
    (written : r.nlink = 0 → r = inodeRead cfg.sb u s.disk) :
    Yields (do
      inodeUnlock j
      inodePut cfg j
      inodeUnlock i
      inodePut cfg i
      pure (0 : U32)) s fun result s' => result = 0 ∧ Lost cfg.sb s.disk s'.disk fun w =>
        (w = u ∧ refJ = 1 ∧ r.nlink = 0) ∨
          (w = t ∧ refI = 1 ∧ (inodeRead cfg.sb t s.disk).nlink = 0) := by
  refine Ends.bind_iff.mpr ((inodeUnlock_holds target heldJ).mono ?_)
  rintro _ s₁ ⟨disk₁, target₁, others₁⟩
  refine Ends.bind_iff.mpr ((inodePut_holds target₁ heldJ).mono ?_)
  rintro _ s₂ ⟨disk₂, others₂⟩
  have parent₂ := (parent.congr (others₁ i apart)).congr (others₂ i apart)
  refine Ends.bind_iff.mpr ((inodeUnlock_holds parent₂ heldI).mono ?_)
  rintro _ s₃ ⟨disk₃, parent₃, -⟩
  refine Ends.bind_iff.mpr ((inodePut_holds parent₃ heldI).mono ?_)
  rintro _ s₄ ⟨disk₄, -⟩
  have first : Lost cfg.sb s.disk s₂.disk fun w => w = u ∧ refJ = 1 ∧ r.nlink = 0 := by
    rw [disk₁] at disk₂
    by_cases last : refJ = 1 ∧ r.nlink = 0
    · have lost := lost_if sane sound insideU thereU (refJ = 1 ∧ r.nlink = 0)
      rwa [← written last.2, ← disk₂] at lost
    · have lost := lost_if sane sound insideU thereU (refJ = 1 ∧ r.nlink = 0)
      rw [if_neg last] at disk₂ lost
      rwa [disk₂]
  have stays := first.others t insideT fun both => different both.1
  have second := lost_if sane first.sound insideT (stays.allocated.trans thereT)
    (refI = 1 ∧ (inodeRead cfg.sb t s.disk).nlink = 0)
  rw [stays.record, ← disk₃, ← disk₄, disk₃] at second
  exact ⟨rfl, first.trans second⟩

/-- Getting and locking another inode while one is held locked. -/
theorem acquire_yields (lazy : cfg.eager = false) (free : ∃ k < nInode, (s.inodeCache k).ref = 0)
    (parent : Holds s i t ref (inodeRead cfg.sb t s.disk) true) (held : 0 < ref) (different : t ≠ u)
    (unlocked : ∀ k < nInode, k ≠ i → (s.inodeCache k).slk = false)
    (cached : ∀ k < nInode, k ≠ i → (s.inodeCache k).validInfo = true → (s.inodeCache k).inodeNum = u →
      Stands cfg.sb s.disk u (s.inodeCache k).diskInfo)
    (stands : Stands cfg.sb s.disk u (inodeRead cfg.sb u s.disk)) :
    Yields (inodeGet cfg u) s fun j s₁ => Yields (inodeLock cfg j) s₁ fun _ s' =>
      i ≠ j ∧ s'.disk = s.disk ∧ Holds s' i t ref (inodeRead cfg.sb t s.disk) true ∧
        ∃ refJ r, 0 < refJ ∧ Holds s' j u refJ r true ∧ Stands cfg.sb s.disk u r ∧
          (refJ = 1 ↔ ∀ k, cachedSlot s u = some k → (s.inodeCache k).ref = 0) := by
  refine (inodeGet_yields lazy free u).mono ?_
  rintro j s₁ ⟨inside, found⟩
  have apart : j ≠ i := by
    rintro rfl
    rcases found with ⟨found, -⟩ | ⟨-, empty, -⟩
    · exact different (parent.number.symm.trans (cachedSlot_spec found).1)
    · rw [parent.ref] at empty
      omega
  have open' := unlocked j inside apart
  rcases found with ⟨found, rfl⟩ | ⟨missed, empty, rfl⟩
  · obtain ⟨number, valid⟩ := cachedSlot_spec found
    refine (inodeLock_yields (by simp) (by simpa using open')).mono ?_
    rintro _ _ rfl
    refine ⟨apart.symm, rfl, parent.congr ?_, (s.inodeCache j).ref + 1, (s.inodeCache j).diskInfo,
      Nat.succ_pos _, ⟨by simpa [Inode.loaded, valid] using number, by simp [Inode.loaded, valid],
        by simp [Inode.loaded, valid], by simp [Inode.loaded, valid], by simp⟩,
      cached j inside apart valid number, ?_⟩
    · rw [FsState.setInode_setInode, FsState.setInode_other _ _ _ apart.symm]
    · rw [found]
      simp
  · refine (inodeLock_yields (by simp) (by simpa using open')).mono ?_
    rintro _ _ rfl
    refine ⟨apart.symm, rfl, parent.congr ?_, 1, inodeRead cfg.sb u s.disk, Nat.one_pos,
      ⟨by simp [Inode.loaded], by simp [Inode.loaded], by simp [Inode.loaded], by simp [Inode.loaded],
        by simp⟩, stands, ?_⟩
    · rw [FsState.setInode_setInode, FsState.setInode_other _ _ _ apart.symm]
    · rw [missed]
      exact iff_of_true rfl (by simp)

/-- The part of `path_unlink` behind `dentry_delete`: links are dropped, and inodes without links and
references are deleted. -/
theorem unlinkFound_yields (sane : cfg.sb.Sane) (lazy : cfg.eager = false)
    (sound : Store.Sound cfg.sb (diskStore cfg.sb s.disk))
    (free : ∃ k < nInode, (s.inodeCache k).ref = 0)
    (parent : Holds s i t ref (inodeRead cfg.sb t s.disk) true) (held : 0 < ref) (different : t ≠ u)
    (unlocked : ∀ k < nInode, k ≠ i → (s.inodeCache k).slk = false)
    (cached : ∀ k < nInode, k ≠ i → (s.inodeCache k).validInfo = true → (s.inodeCache k).inodeNum = u →
      Stands cfg.sb s.disk u (s.inodeCache k).diskInfo)
    (insideT : t.toNat < cfg.sb.totalInodes) (thereT : Store.allocated cfg.sb s.disk t = true)
    (linkedT : (inodeRead cfg.sb t s.disk).nlink ≠ 0) (node : Node cfg.sb s.disk u) :
    Yields (do
      let ip ← inodeGet cfg u
      inodeLock cfg ip
      dropLink cfg i ip
      inodeUnlock ip
      inodePut cfg ip
      inodeUnlock i
      inodePut cfg i
      pure (0 : U32)) s fun result s' => result = 0 ∧ ∃ d, SameGraph cfg.sb s.disk d ∧
        Lost cfg.sb d s'.disk fun w => (0 : U16).slt (inodeRead cfg.sb u s.disk).nlink ∧
          (w = u ∧ (inodeRead cfg.sb u s.disk).nlink = 1 ∧
              (∀ k, cachedSlot s u = some k → (s.inodeCache k).ref = 0) ∨
            w = t ∧ (inodeRead cfg.sb u s.disk).type = inodeTypeDir ∧
              (inodeRead cfg.sb t s.disk).nlink = 1 ∧ ref = 1) := by
  refine Ends.bind_iff.mpr ((acquire_yields lazy free parent held different unlocked cached
    (node.stands sound)).mono ?_)
  rintro j s₁ locked
  refine Ends.bind_iff.mpr (locked.mono ?_)
  rintro _ s₂ ⟨apart, disk, parent₂, refJ, r, heldJ, target₂, stands, sole⟩
  rw [← disk] at sound thereT stands parent₂
  refine Ends.bind_iff.mpr ((dropLink_yields sane sound insideT thereT stands apart different parent₂
    target₂).mono ?_)
  rintro _ s₃ ⟨graph, parent₃, links, target₃⟩
  have thereT₃ := (graph.allocated t insideT).trans thereT
  have thereU₃ := (graph.allocated u node.inside).trans (disk ▸ node.allocated)
  have one (n : U16) : n - 1 = 0 ↔ n = 1 := by bv_omega
  rw [← disk]
  rw [← disk] at linkedT node
  by_cases drops : (0 : U16).slt r.nlink
  · rw [if_pos drops] at target₃
    obtain ⟨target₃, record⟩ := target₃
    refine (release_yields sane graph.sound insideT thereT₃ node.inside thereU₃ apart different held heldJ
      parent₃ target₃ fun _ => record.symm).mono ?_
    rintro _ s' ⟨rfl, lost⟩
    refine ⟨rfl, s₃.disk, graph, lost.congr fun w => ?_⟩
    rw [links, ← stands.type, ← stands.nlink]
    refine Iff.trans ?_ (and_iff_right drops).symm
    refine or_congr (and_congr_right fun _ => ?_) (and_congr_right fun _ => ?_)
    · rw [sole, and_comm]
      exact and_congr_left fun _ => one _
    · by_cases directory : r.type = inodeTypeDir
      · rw [if_pos ⟨drops, directory⟩, one, and_iff_right directory, and_comm]
      · rw [if_neg fun both => directory both.2]
        exact iff_of_false (fun both => linkedT both.2) fun both => directory both.1
  · rw [if_neg drops] at target₃
    have linked : r.nlink ≠ 0 := stands.nlink ▸ node.linked
    refine (release_yields sane graph.sound insideT thereT₃ node.inside thereU₃ apart different held heldJ
      parent₃ target₃ fun none => absurd none linked).mono ?_
    rintro _ s' ⟨rfl, lost⟩
    refine ⟨rfl, s₃.disk, graph, lost.congr fun w => ?_⟩
    rw [if_neg fun both => drops both.1] at links
    rw [links]
    refine iff_of_false ?_ fun both => drops (stands.nlink ▸ both.1)
    rintro (⟨-, -, none⟩ | ⟨-, -, none⟩)
    · exact linked none
    · exact linkedT none

/-- Unlocking and putting a locked inode of the graph. -/
theorem giveUp_yields {live : U32 → Prop} (consistent : Consistent cfg live s) (inside : i < nInode)
    (held : 0 < (s.inodeCache i).ref) (alive : live (s.inodeCache i).inodeNum) :
    Yields (do
      inodeUnlock i
      inodePut cfg i
      pure minusOne) (s.setInode i { (s.inodeCache i).loaded cfg.sb s.disk with slk := true })
      fun r s' => r = minusOne ∧ s'.disk = s.disk := by
  refine Ends.bind_iff.mpr ((release_live consistent inside held alive).mono ?_)
  rintro _ s₁ put
  exact Ends.bind_iff.mpr (put.mono fun _ _ ⟨disk, _, _⟩ => ⟨rfl, disk⟩)

end Fs

/-- Clearing an entry leaves a record that stands for another inode standing. -/
theorem EntryCleared.stands {d d' : Disk} {t u : U32} {name : List U8} (cleared : EntryCleared sb d d' t name)
    (inside : u.toNat < sb.totalInodes) (other : u ≠ t) {r : InodeDisk} (stands : Stands sb d u r) :
    Stands sb d' u r := by
  have record := (cleared.others u inside other).record
  exact ⟨by rw [record, stands.type], by rw [record, stands.nlink], by rw [record]; exact stands.dir,
    cleared.fits u r other stands.fits⟩

/-- Clearing an entry, dropping links and deleting inodes together. -/
theorem unlinked_of {d d₁ d₂ d' : Disk} {target : Target} {gone : U32 → Prop}
    (cleared : EntryCleared sb d d₁ target.parent target.name) (graph : SameGraph sb d₁ d₂)
    (lost : Lost sb d₂ d' gone) : Unlinked sb d d' target gone := by
  have edges (w : U32) (inside : w.toNat < sb.totalInodes) (name : List U8) : entry sb d₂ w name =
      if w = target.parent ∧ name = target.name then none else entry sb d w name := by
    rw [graph.entry w inside]
    by_cases here : w = target.parent
    · rw [here, cleared.entry, Function.update_apply]
      simp only [true_and]
    · rw [(cleared.others w inside here).entry, if_neg fun both => here both.1]
  constructor
  · intro w name inside either
    by_cases dead : gone w
    · exact lost.entry w name inside dead
    · rw [(lost.others w inside dead).entry, edges w inside, if_pos (either.resolve_right dead)]
  · intro w name inside neither
    obtain ⟨other, alive⟩ := not_or.mp neither
    rw [(lost.others w inside alive).entry, edges w inside, if_neg other]
  · intro w inside
    by_cases dead : gone w
    · rw [lost.freed w inside dead]
      exact iff_of_false Bool.false_ne_true fun both => both.2 dead
    · rw [(lost.others w inside dead).allocated, graph.allocated w inside, cleared.allocated w inside]
      exact (and_iff_left dead).symm

namespace Fs

variable {live : U32 → Prop} {s s' : FsState} {i : ℕ} {t u : U32} {ref : ℕ} {name : List U8}

private theorem cachedSlot_other (others : ∀ k, k ≠ i → s'.inodeCache k = s.inodeCache k)
    (here : (s.inodeCache i).inodeNum ≠ u) (there : (s'.inodeCache i).inodeNum ≠ u) :
    cachedSlot s' u = cachedSlot s u := by
  apply congrArg (List.find? · _) (funext fun k => ?_)
  rcases eq_or_ne k i with rfl | other
  · rw [beq_false_of_ne here, beq_false_of_ne there, Bool.false_and, Bool.false_and]
  · rw [others k other]

/-- `dentry_delete` behind `inode_lock`, on whatever the path led to -/
private theorem lockedDelete_yields (sane : sb.Sane) (consistent : Consistent ⟨sb, false⟩ live s)
    (inside : i < nInode) (number : (s.inodeCache i).inodeNum = t) (alive : live t) (name : Bytes) :
    Yields (dentryDelete ⟨sb, false⟩ i name)
      (s.setInode i { (s.inodeCache i).loaded sb s.disk with slk := true }) fun r s' =>
        match entry sb s.disk t (nameText name) with
        | none => r = minusOne ∧ s' = s.setInode i { (s.inodeCache i).loaded sb s.disk with slk := true }
        | some u => r = u ∧ EntryCleared sb s.disk s'.disk t (nameText name) ∧
            Holds s' i t (s.inodeCache i).ref (inodeRead sb t s'.disk) true ∧
            ∀ k, k ≠ i → s'.inodeCache k = s.inodeCache k := by
  have stands := consistent.stands inside (number.symm ▸ alive)
  rw [number] at stands
  by_cases directory : (inodeRead sb t s.disk).type = inodeTypeDir
  · have parent : Holds (s.setInode i { (s.inodeCache i).loaded sb s.disk with slk := true }) i t
        (s.inodeCache i).ref (inodeRead sb t s.disk) true := by
      constructor <;> rw [FsState.setInode_same]
      · simpa using number
      · exact Inode.loaded_validInfo ..
      · simp
      · exact stands.dir directory
    refine (@dentryDelete_cleared ⟨sb, false⟩ (s.setInode i _) _ _ _ sane consistent.sound
      (consistent.node t alive) parent name).mono ?_
    intro r s' spec
    rw [FsState.setInode_disk] at spec
    cases edge : entry sb s.disk t (nameText name) with
    | none => rwa [edge] at spec
    | some u =>
      rw [edge] at spec
      obtain ⟨rfl, cleared, held, others⟩ := spec
      exact ⟨rfl, cleared, held, fun k other => (others k other).trans (FsState.setInode_other _ _ _ other)⟩
  · have file : ((s.setInode i { (s.inodeCache i).loaded sb s.disk with slk := true }).inodeCache
        i).diskInfo.type ≠ inodeTypeDir := by
      rw [FsState.setInode_same]
      exact stands.type.trans_ne directory
    rw [entry, if_neg directory]
    simp only [dentryDelete, diskInfo, Ends.bind_iff, Ends.get_iff, Ends.pure_iff]
    rw [if_pos file]
    exact ⟨rfl, rfl⟩

/-- What an unlinked entry takes along: its inode, with one link and no reference, and the directory of a
directory, with one link and this reference. -/
private theorem dropEntry_yields (sane : sb.Sane) (consistent : Consistent ⟨sb, false⟩ live s)
    (number : (s.inodeCache i).inodeNum = t) (held : 0 < ref)
    (free : ∃ k < nInode, k ≠ i ∧ (s.inodeCache k).ref = 0) (alive : live t)
    (edge : entry sb s.disk t name = some u) (different : t ≠ u)
    (cleared : EntryCleared sb s.disk s'.disk t name)
    (parent : Holds s' i t ref (inodeRead sb t s'.disk) true)
    (others : ∀ k, k ≠ i → s'.inodeCache k = s.inodeCache k) :
    Yields (do
      let ip ← inodeGet ⟨sb, false⟩ u
      inodeLock ⟨sb, false⟩ ip
      dropLink ⟨sb, false⟩ i ip
      inodeUnlock ip
      inodePut ⟨sb, false⟩ ip
      inodeUnlock i
      inodePut ⟨sb, false⟩ i
      pure (0 : U32)) s' fun r s'' => r = 0 ∧ Unlinked sb s.disk s''.disk ⟨t, name, u⟩ fun w =>
        (0 : U16).slt (inodeRead sb u s.disk).nlink ∧
          (w = u ∧ (inodeRead sb u s.disk).nlink = 1 ∧
              (∀ k, cachedSlot s u = some k → (s.inodeCache k).ref = 0) ∨
            w = t ∧ (inodeRead sb u s.disk).type = inodeTypeDir ∧
              (inodeRead sb t s.disk).nlink = 1 ∧ ref = 1) := by
  have node := consistent.node t alive
  have aliveU := consistent.closed t _ u alive edge
  have nodeU := consistent.node u aliveU
  have untouched := cleared.others u nodeU.inside different.symm
  have vacant : ∃ k < nInode, (s'.inodeCache k).ref = 0 := by
    obtain ⟨k, bound, other, empty⟩ := free
    exact ⟨k, bound, by rw [others k other, empty]⟩
  have unlocked : ∀ k < nInode, k ≠ i → (s'.inodeCache k).slk = false := fun k bound other => by
    rw [others k other]
    exact consistent.unlocked k bound
  have cached : ∀ k < nInode, k ≠ i → (s'.inodeCache k).validInfo = true →
      (s'.inodeCache k).inodeNum = u → Stands sb s'.disk u (s'.inodeCache k).diskInfo := by
    intro k bound other valid same
    rw [others k other] at valid same ⊢
    have stands := consistent.cached k bound valid (same.symm ▸ aliveU)
    rw [same] at stands
    exact cleared.stands nodeU.inside different.symm stands
  have slot : cachedSlot s' u = cachedSlot s u :=
    cachedSlot_other others (number ▸ different) (parent.number ▸ different)
  have sole : (∀ k, cachedSlot s u = some k → (s'.inodeCache k).ref = 0) ↔
      ∀ k, cachedSlot s u = some k → (s.inodeCache k).ref = 0 := by
    refine forall₂_congr fun k found => ?_
    have other : k ≠ i := by
      rintro rfl
      exact different (number.symm.trans (cachedSlot_spec found).1)
    rw [others k other]
  have unlink := @unlinkFound_yields ⟨sb, false⟩ _ _ _ _ _ sane rfl cleared.sound vacant parent held different
    unlocked cached node.inside ((cleared.allocated t node.inside).trans node.allocated)
    (cleared.nlink.symm ▸ node.linked) (untouched.node nodeU)
  refine unlink.mono ?_
  rintro result s'' ⟨rfl, d, graph, lost⟩
  rw [untouched.record, cleared.nlink, slot] at lost
  simp only [sole] at lost
  exact ⟨rfl, unlinked_of cleared graph lost⟩

end Fs

open Fs in
/-- `path_unlink` fails without a change, or removes one entry and deletes what lost its last link and
reference. -/
theorem pathUnlink_yields (sane : sb.Sane) {live : U32 → Prop} {s : FsState}
    (consistent : Consistent ⟨sb, false⟩ live s) (spare : 2 ≤ (spareSlots s).card)
    (proper : ∀ t name, live t → entry sb s.disk t name = some t →
      name = nameText dot ∨ name = nameText dotDot) {p : ℕ} {path : List U8}
    (text : ∀ b ∈ path, b ≠ 0) {start : U32} (starts : StartsAt s p path start) (alive : live start)
    (junk : Bytes) :
    Yields (pathUnlink ⟨sb, false⟩ p path junk) s fun r s' =>
      match unlinkTarget sb s.disk start path junk with
      | none => r = minusOne ∧ s'.disk = s.disk
      | some target => r = 0 ∧ live target.parent ∧ target.parent ≠ target.inode ∧
          entry sb s.disk target.parent target.name = some target.inode ∧
          Unlinked sb s.disk s'.disk target (Reclaims sb s p path junk target) := by
  obtain ⟨found, s₁, result, walked, lookup⟩ :=
    (pathToParentInode_yields sane rfl consistent spare text starts alive junk).result
  refine Ends.bind_of_ok result ?_
  rw [FoundParent] at lookup
  rw [unlinkTarget]
  cases parent : resolveParent sb s.disk start path with
  | none =>
    rw [parent] at lookup
    obtain rfl := lookup
    rw [Option.bind_none, ite_self]
    exact ⟨rfl, walked.disk⟩
  | some t =>
    rw [parent] at lookup
    obtain ⟨aliveT, i, inside, name, rfl, number, last, -⟩ := lookup
    have exchange : Exchange s [] s₁ [i] := walked.exchange
    have held := exchange.held
    have aliveI : live (s₁.inodeCache i).inodeNum := number.symm ▸ aliveT
    rw [← walked.disk]
    have giveUp := giveUp_yields walked.consistent inside held aliveI
    refine Ends.bind_iff.mpr ((inodeLock_yields held (walked.consistent.unlocked i inside)).mono ?_)
    rintro _ _ rfl
    have dots : strncmp name dot maxlenFilename = 0 ∨ strncmp name dotDot maxlenFilename = 0 ↔
        lastName junk path = nameText dot ∨ lastName junk path = nameText dotDot := by
      rw [strncmp_eq_zero, strncmp_eq_zero, last]
    refine Ends.ite (fun refused => ?_) fun allowed => ?_
    · simp only [if_pos (dots.mp refused)]
      exact giveUp
    · rw [if_neg (fun refused => allowed (dots.mpr refused)), Option.bind_some]
      refine Ends.bind_iff.mpr
        ((lockedDelete_yields sane walked.consistent inside number aliveT name).mono ?_)
      intro r s₂ spec
      rw [last] at spec
      cases edge : entry sb s₁.disk t (lastName junk path) with
      | none =>
        rw [edge] at spec
        obtain ⟨rfl, rfl⟩ := spec
        rw [if_pos rfl]
        exact giveUp
      | some u =>
        rw [edge] at spec
        obtain ⟨rfl, cleared, parentHeld, others⟩ := spec
        have different : t ≠ r := by
          rintro rfl
          exact allowed (dots.mpr (proper t _ aliveT (walked.disk ▸ edge)))
        have node := walked.consistent.node r (walked.consistent.closed t _ r aliveT edge)
        rw [if_neg (node.ne_minusOne sane)]
        have free : ∃ k < nInode, k ≠ i ∧ (s₁.inodeCache k).ref = 0 := by
          obtain ⟨k, bound, empty⟩ := exchange.free (Nat.lt_of_lt_of_le Nat.one_lt_two spare)
          refine ⟨k, bound, ?_, empty⟩
          rintro rfl
          omega
        refine (dropEntry_yields sane walked.consistent number held free aliveT edge different cleared
          parentHeld others).mono ?_
        rintro result s' ⟨rfl, unlinked⟩
        refine ⟨rfl, aliveT, different, edge, ?_⟩
        convert unlinked using 2 with w
        rw [walked.disk]
        constructor
        · rintro ⟨dp, name', s', result', gone⟩
          cases result.symm.trans result'
          exact gone
        · exact fun gone => ⟨i, name, s₁, result, gone⟩

end LabKernel
