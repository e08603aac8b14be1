import LabKernel.Fs.DirTree

/-! # The slot of the parent

`inode_get` takes a slot for the parent of the working directory without loading its record. What is read there
afterwards is the record that the slot happens to hold.
-/

namespace LabKernel

variable {sb : SuperBlock} {cfg : FsConfig}

/-! ## Slots -/

/-- A slot behind `inode_get`: the inode is there with its record loaded, or the slot is taken for it. -/
def Inode.got (ip : Inode) (inodeNum : U32) : Inode :=
  if ip.inodeNum = inodeNum ∧ ip.validInfo = true then { ip with ref := ip.ref + 1 }
  else { ip with inodeNum := inodeNum, ref := 1, validInfo := false }

@[simp] theorem Inode.got_diskInfo (ip : Inode) (inodeNum : U32) : (ip.got inodeNum).diskInfo = ip.diskInfo := by
  rw [got]
  split <;> rfl

@[simp] theorem Inode.got_slk (ip : Inode) (inodeNum : U32) : (ip.got inodeNum).slk = ip.slk := by
  rw [got]
  split <;> rfl

@[simp] theorem Inode.got_inodeNum (ip : Inode) (inodeNum : U32) : (ip.got inodeNum).inodeNum = inodeNum := by
  rw [got]
  split
  · rename_i same
    exact same.1
  · rfl

/-- A slot that is loaded behind `inode_get` was loaded before. -/
theorem Inode.got_validInfo {ip : Inode} {inodeNum : U32} (valid : (ip.got inodeNum).validInfo = true) :
    ip.inodeNum = inodeNum ∧ ip.validInfo = true := by
  rw [got] at valid
  split at valid
  · assumption
  · cases valid

theorem Inode.got_ref (ip : Inode) (inodeNum : U32) :
    (ip.got inodeNum).ref = ip.ref + 1 ∨ (ip.got inodeNum).ref = 1 := by
  rw [got]
  split
  · exact Or.inl rfl
  · exact Or.inr rfl

namespace Fs

variable {s s' : FsState} {i j c p : ℕ} {live : U32 → Prop} {t u : U32}

def takenSlot (s : FsState) (inodeNum : U32) : Option ℕ := (cachedSlot s inodeNum).or (freeSlot s)

theorem takenSlot_lt {inodeNum : U32} (taken : takenSlot s inodeNum = some j) : j < nInode := by
  rw [takenSlot, Option.or_eq_some_iff] at taken
  rcases taken with found | ⟨-, free⟩
  · exact List.mem_range.mp (List.mem_of_find?_eq_some found)
  · exact List.mem_range.mp (List.mem_of_find?_eq_some free)

/-- A slot is taken that holds the inode loaded, or that nobody refers to. -/
theorem takenSlot_cases {inodeNum : U32} (taken : takenSlot s inodeNum = some j) :
    (s.inodeCache j).inodeNum = inodeNum ∧ (s.inodeCache j).validInfo = true ∨ (s.inodeCache j).ref = 0 := by
  rw [takenSlot, Option.or_eq_some_iff] at taken
  rcases taken with found | ⟨-, free⟩
  · exact Or.inl (cachedSlot_spec found)
  · exact Or.inr (freeSlot_spec free)

/-- The entries of a record are read without an allocation. -/
def Still (sb : SuperBlock) (info : InodeDisk) (d : Disk) : Prop :=
  ∀ off : U32, off.toNat % 64 = 0 → off < info.size →
    let r := LabKernel.inodeReadData sb info off dentrySize (fun _ => 0) d
    r.2.1 = info ∧ r.2.2.2 = d

/-- A directory is read without an allocation. -/
theorem still_directory (sane : cfg.sb.Sane) (sound : Store.Sound cfg.sb (diskStore cfg.sb s.disk))
    (node : Node cfg.sb s.disk t) (directory : (inodeRead cfg.sb t s.disk).type = inodeTypeDir) :
    Still cfg.sb (inodeRead cfg.sb t s.disk) s.disk := by
  intro off aligned more
  have dir := node.dir directory
  have inside : off.toNat / 64 < (inodeRead cfg.sb t s.disk).size.toNat / 64 := by
    have := dir.size
    rw [BitVec.lt_def] at more
    omega
  have read := (diskStore cfg.sb s.disk).read_dentry sane sound (diskStore_image node) dir inside fun _ => 0
  have here : BitVec.ofNat 32 (64 * (off.toNat / 64)) = off := by
    rw [Nat.mul_div_cancel' (Nat.dvd_of_mod_eq_zero aligned), BitVec.ofNat_toNat, BitVec.setWidth_eq]
  rw [here] at read
  change _ = _ ∧ _ = _
  rw [show (diskStore cfg.sb s.disk).disk = s.disk from rfl] at read
  rw [read]
  exact ⟨rfl, rfl⟩

/-- Slot `c`, with directory `t`, is the working directory of `p`, and `u` is the parent. -/
structure WorksIn (cfg : FsConfig) (live : U32 → Prop) (s : FsState) (p c : ℕ) (t u : U32) : Prop where
  consistent : Consistent cfg live s
  cwd : (s.procPool p).cwd = some c
  inside : c < nInode
  held : 0 < (s.inodeCache c).ref
  number : (s.inodeCache c).inodeNum = t
  alive : live t
  up : entry cfg.sb s.disk t (nameText dotDot) = some u

def loadedIn (cfg : FsConfig) (s : FsState) (c : ℕ) : FsState :=
  s.setInode c ((s.inodeCache c).loaded cfg.sb s.disk)

/-- The state behind `path_to_inode("..")`: the working directory is loaded, and slot `j` has the parent. -/
def upFrom (cfg : FsConfig) (s : FsState) (c j : ℕ) (u : U32) : FsState :=
  (loadedIn cfg s c).setInode j ((s.inodeCache j).got u)

/-- References do not matter. -/
theorem WorksIn.setRef (works : WorksIn cfg live s p c t u) {k : ℕ} (inside : k < nInode) {r : ℕ}
    (held : k = c → 0 < r) : WorksIn cfg live (s.setInode k { s.inodeCache k with ref := r }) p c t u := by
  refine ⟨works.consistent.setInode (works.consistent.unlocked k inside) (works.consistent.cached k inside),
    works.cwd, works.inside, ?_, ?_, works.alive, works.up⟩
  · by_cases here : c = k
    · rw [here, FsState.setInode_same]
      exact held here.symm
    · rw [FsState.setInode_other _ _ _ here]
      exact works.held
  · by_cases here : c = k
    · rw [here, FsState.setInode_same, ← here]
      exact works.number
    · rw [FsState.setInode_other _ _ _ here]
      exact works.number

/-- Loading the working directory and getting the parent keeps what is said of them. -/
theorem WorksIn.up_from (works : WorksIn cfg live s p c t u) (inside : j < nInode) (other : j ≠ c) :
    WorksIn cfg live (upFrom cfg s c j u) p c t u := by
  have alive := works.number.symm ▸ works.alive
  have loaded : Consistent cfg live (loadedIn cfg s c) := by
    refine works.consistent.setInode ?_ fun _ _ => ?_
    · rw [Inode.loaded_slk]
      exact works.consistent.unlocked c works.inside
    · rw [Inode.loaded_inodeNum]
      exact works.consistent.stands works.inside alive
  have same : (loadedIn cfg s c).inodeCache j = s.inodeCache j := FsState.setInode_other _ _ _ other
  have slot : (upFrom cfg s c j u).inodeCache c = (s.inodeCache c).loaded cfg.sb s.disk :=
    (FsState.setInode_other _ _ _ other.symm).trans (FsState.setInode_same ..)
  refine ⟨loaded.setInode ?_ fun valid live => ?_, works.cwd, works.inside, ?_, ?_, works.alive, works.up⟩
  · rw [Inode.got_slk]
    exact works.consistent.unlocked j inside
  · obtain ⟨number, valid⟩ := Inode.got_validInfo valid
    rw [Inode.got_inodeNum] at live ⊢
    rw [Inode.got_diskInfo]
    exact number ▸ works.consistent.cached j inside valid (number.symm ▸ live)
  · rw [slot, Inode.loaded_ref]
    exact works.held
  · rw [slot, Inode.loaded_inodeNum]
    exact works.number

/-- The slot of the working directory between its lock and its `inode_put` -/
def climbing (cfg : FsConfig) (s : FsState) (c : ℕ) : Inode :=
  { (s.inodeCache c).loaded cfg.sb s.disk with ref := (s.inodeCache c).ref + 1 }

/-- Unlocking the working directory leaves its slot loaded. -/
theorem WorksIn.unlock (works : WorksIn cfg live s p c t u) :
    Yields (inodeUnlock c) (lockedIn cfg (s.setInode c { s.inodeCache c with ref := (s.inodeCache c).ref + 1 }) c)
      fun _ s' => s' = s.setInode c (climbing cfg s c) := by
  have loaded : ({ s.inodeCache c with ref := (s.inodeCache c).ref + 1 } : Inode).loaded cfg.sb s.disk =
      climbing cfg s c := by
    rw [climbing, Inode.loaded, Inode.loaded]
    split <;> rfl
  have unlocked : (climbing cfg s c).slk = false := by
    rw [climbing, Inode.loaded_slk]
    exact works.consistent.unlocked c works.inside
  refine (inodeUnlock_yields (by simp) (by simp)).mono ?_
  rintro _ _ rfl
  rw [lockedIn, FsState.setInode_setInode, FsState.setInode_setInode, FsState.setInode_same, FsState.setInode_same,
    FsState.setInode_disk, loaded]
  refine congrArg (s.setInode c) ?_
  rw [← unlocked]

end Fs

end LabKernel
