import LabKernel.Fs.PathWalk

/-! # The two walkers agree

`path_to_parent_inode` is a loop of its own: it keeps the component that it read last in the caller's
name buffer and looks ahead for another one. Looking its name up in its directory leads to the inode that
`path_to_inode` returns, and to none where that fails.
-/

namespace LabKernel

variable {sb : SuperBlock} {cfg : FsConfig}

/-! ## Searching a held directory -/

namespace Fs

variable {s : FsState} {i : ℕ} {live : U32 → Prop}

/-- The state with the inode in a slot locked and loaded. -/
def lockedIn (cfg : FsConfig) (s : FsState) (i : ℕ) : FsState :=
  s.setInode i { (s.inodeCache i).loaded cfg.sb s.disk with slk := true }

@[simp] theorem lockedIn_disk : (lockedIn cfg s i).disk = s.disk := rfl

@[simp] theorem lockedIn_slot : (lockedIn cfg s i).inodeCache i =
    { (s.inodeCache i).loaded cfg.sb s.disk with slk := true } := FsState.setInode_same ..

/-- The record of a locked inode of the graph has the type that is on disk. -/
theorem lockedIn_type (consistent : Consistent cfg live s) (inside : i < nInode)
    (alive : live (s.inodeCache i).inodeNum) :
    ((lockedIn cfg s i).inodeCache i).diskInfo.type =
      (inodeRead cfg.sb (s.inodeCache i).inodeNum s.disk).type := by
  rw [lockedIn_slot]
  exact (consistent.stands inside alive).type

/-- `dentry_search` in a locked inode of the graph follows an edge; in a file it finds nothing. -/
theorem dentrySearch_locked (sane : cfg.sb.Sane) (consistent : Consistent cfg live s) (inside : i < nInode)
    (alive : live (s.inodeCache i).inodeNum) (name : Bytes) :
    Yields (dentrySearch cfg i name) (lockedIn cfg s i) fun r s' => s' = lockedIn cfg s i ∧
      r = (entry cfg.sb s.disk (s.inodeCache i).inodeNum (nameText name)).getD minusOne := by
  have type := lockedIn_type consistent inside alive
  have stands := consistent.stands inside alive
  have node := consistent.node _ alive
  by_cases directory : (inodeRead cfg.sb (s.inodeCache i).inodeNum s.disk).type = inodeTypeDir
  · have record : ((lockedIn cfg s i).inodeCache i).diskInfo =
        inodeRead cfg.sb (s.inodeCache i).inodeNum s.disk := by
      rw [lockedIn_slot]
      exact stands.dir directory
    have shows : Caches (lockedIn cfg s i) i (diskStore cfg.sb s.disk) (s.inodeCache i).inodeNum :=
      ⟨rfl, by simp, by rw [record, diskStore_image node]⟩
    refine (dentrySearch_yields sane consistent.sound shows (record ▸ node.dir directory) name).mono ?_
    rintro r _ ⟨rfl, rfl⟩
    rw [record, entry, if_pos directory]
    exact ⟨rfl, rfl⟩
  · rw [entry, if_neg directory]
    simp only [dentrySearch, diskInfo, Ends.bind_iff, Ends.get_iff, Ends.pure_iff]
    refine Ends.ite (fun _ => ⟨rfl, rfl⟩) fun dir => absurd (type.symm.trans (not_not.mp dir)) directory

/-- Unlocking and putting a locked inode of the graph. -/
theorem release_live (consistent : Consistent cfg live s) (inside : i < nInode)
    (held : 0 < (s.inodeCache i).ref) (alive : live (s.inodeCache i).inodeNum) :
    Yields (inodeUnlock i) (lockedIn cfg s i) fun _ s₁ => Yields (inodePut cfg i) s₁ fun _ s' =>
      s'.disk = s.disk ∧ Consistent cfg live s' ∧
        ∀ j, (s'.inodeCache j).inodeNum = (s.inodeCache j).inodeNum := by
  have after : Consistent cfg live
      (s.setInode i { (s.inodeCache i).loaded cfg.sb s.disk with slk := false }) := by
    refine consistent.setInode rfl fun _ _ => ?_
    have stands := consistent.stands inside alive
    dsimp only
    rwa [Inode.loaded_inodeNum]
  refine (inodeUnlock_yields (by simpa using held) (by simp)).mono ?_
  rintro _ _ rfl
  rw [lockedIn, FsState.setInode_setInode, FsState.setInode_same]
  refine (inodePut_live after inside (by simpa using alive)).mono ?_
  rintro _ s' ⟨disk, consistent', numbers⟩
  refine ⟨disk, consistent', fun j => (numbers j).trans ?_⟩
  by_cases here : j = i
  · rw [here, FsState.setInode_same]
    exact Inode.loaded_inodeNum ..
  · rw [FsState.setInode_other _ _ _ here]

/-- `path_to_parent_inode` as its callers use it: the parent is locked and searched for the name. -/
def parentSearch (cfg : FsConfig) (p : ℕ) (path : List U8) (junk : Bytes) :
    FsM (Option (ℕ × Bytes × U32)) := do
  match ← pathToParentInode cfg p path junk with
  | none => pure none
  | some (dp, name) =>
    inodeLock cfg dp
    let found ← dentrySearch cfg dp name
    pure (some (dp, name, found))

/-- What a search of the parent finds. -/
theorem parentSearch_ends (sane : cfg.sb.Sane) (lazy : cfg.eager = false)
    (consistent : Consistent cfg live s) {p : ℕ} {path : List U8} (text : ∀ b ∈ path, b ≠ 0) {start : U32}
    (starts : StartsAt s p path start) (alive : live start) (junk : Bytes) :
    Ends (parentSearch cfg p path junk) s (fun r s' =>
      match resolveParent cfg.sb s.disk start path with
      | none => r = none
      | some t => live t ∧ ∃ dp name, nameText name = lastName junk path ∧
          (s'.inodeCache dp).diskInfo.type = (inodeRead cfg.sb t s.disk).type ∧
          r = some (dp, name, (entry cfg.sb s.disk t (lastName junk path)).getD minusOne))
      (Crowded s) := by
  refine Ends.bind_iff.mpr ((pathToParentInode_ends sane lazy consistent text starts alive junk).mono ?_)
  rintro r s₁ ⟨walked, found⟩
  rw [FoundParent] at found
  cases parent : resolveParent cfg.sb s.disk start path with
  | none =>
    rw [parent] at found
    obtain rfl := found
    rfl
  | some t =>
    rw [parent] at found
    obtain ⟨aliveT, i, inside, name, rfl, rfl, last, -⟩ := found
    have held := Exchange.held walked.exchange
    have lock := @inodeLock_yields cfg _ _ held (walked.consistent.unlocked i inside)
    refine Ends.bind_iff.mpr ((Ends.of_yields lock).mono ?_)
    rintro _ _ rfl
    have search := dentrySearch_locked sane walked.consistent inside aliveT name
    refine Ends.bind_iff.mpr ((Ends.of_yields search).mono ?_)
    rintro r _ ⟨rfl, rfl⟩
    have type := lockedIn_type walked.consistent inside aliveT
    rw [walked.disk] at type
    rw [last, walked.disk]
    exact ⟨aliveT, i, name, last, type, rfl⟩

end Fs

/-! ## Agreement -/

/-- The last component is looked up where the others lead to. -/
theorem resolve_parent (d : Disk) (start : U32) {path : List U8} (some : components path ≠ []) (junk : Bytes) :
    resolve sb d start path =
      (resolveParent sb d start path).bind fun t => entry sb d t (lastName junk path) := by
  have split := List.dropLast_append_getLast some
  rw [resolve, resolveParent, lastName, List.getLast?_eq_some_getLast some]
  conv_lhs => rw [← split, List.map_append, List.foldlM_append]
  rw [List.map_singleton, Option.map_some, Option.getD_some]
  cases ((components path).dropLast.map cutName).foldlM (entry sb d) start with
  | none => rfl
  | some t =>
    change List.foldlM (entry sb d) t [_] = entry sb d t _
    rw [List.foldlM_cons]
    simp

/-- An edge leads out of a directory to a number that is not the invalid one. -/
theorem Consistent.edge (sane : cfg.sb.Sane) {live : U32 → Prop} {s : FsState}
    (consistent : Consistent cfg live s) {t u : U32} {name : List U8} (alive : live t)
    (edge : entry cfg.sb s.disk t name = some u) :
    (inodeRead cfg.sb t s.disk).type = inodeTypeDir ∧ u ≠ minusOne := by
  refine ⟨?_, (consistent.node u (consistent.closed t name u alive edge)).ne_minusOne sane⟩
  by_contra file
  rw [entry, if_neg file] at edge
  cases edge

/-- `path_to_inode` returns the inode with number `n` exactly when `path_to_parent_inode` returns a
directory and the last component, cut to 59 bytes, and the name leads from that directory to `n`. Either
walker stops in a panic only for want of slots in the inode cache. -/
theorem parent_lookup_agrees (sane : sb.Sane) {live : U32 → Prop} {s : FsState}
    (consistent : Consistent ⟨sb, false⟩ live s) {p : ℕ} {path : List U8} (text : ∀ b ∈ path, b ≠ 0)
    (some : components path ≠ []) {start : U32} (starts : StartsAt s p path start) (alive : live start)
    (junk : Bytes) :
    (∀ e s₁, Fs.pathToInode ⟨sb, false⟩ p path s = .error e s₁ → Crowded s e) ∧
    (∀ e s₂, Fs.parentSearch ⟨sb, false⟩ p path junk s = .error e s₂ → Crowded s e) ∧
    ∀ r s₁ q s₂, Fs.pathToInode ⟨sb, false⟩ p path s = .ok r s₁ →
      Fs.parentSearch ⟨sb, false⟩ p path junk s = .ok q s₂ → ∀ n ≠ minusOne,
      ((∃ i < nInode, r = Option.some i ∧ (s₁.inodeCache i).inodeNum = n) ↔
        ∃ dp name, q = Option.some (dp, name, n) ∧ (s₂.inodeCache dp).diskInfo.type = inodeTypeDir ∧
          (components path).getLast?.map cutName = Option.some (nameText name)) := by
  have full := Fs.pathToInode_ends sane rfl consistent text starts alive
  have parent := Fs.parentSearch_ends sane rfl consistent text starts alive junk
  refine ⟨fun _ _ => full.error, fun _ _ => parent.error, ?_⟩
  intro r s₁ q s₂ one two n valid
  obtain ⟨-, left⟩ := full.returns r s₁ one
  have right := parent.returns q s₂ two
  have last : (components path).getLast?.map cutName = Option.some (lastName junk path) := by
    rw [lastName, List.getLast?_eq_some_getLast some]
    rfl
  -- both sides say that the path leads to `n`
  have leftIff : (∃ i < nInode, r = Option.some i ∧ (s₁.inodeCache i).inodeNum = n) ↔
      resolve sb s.disk start path = Option.some n := by
    cases target : resolve sb s.disk start path with
    | none =>
      rw [target] at left
      simp [left]
    | some t =>
      rw [target] at left
      obtain ⟨-, i, inside, rfl, rfl⟩ := left
      simp [inside]
  rw [leftIff, resolve_parent s.disk start some junk, last]
  cases up : resolveParent sb s.disk start path with
  | none =>
    rw [up] at right
    simp [right]
  | some t =>
    rw [up] at right
    obtain ⟨aliveT, dp, name, text', type, rfl⟩ := right
    rw [Option.bind_some]
    constructor
    · intro edge
      refine ⟨dp, name, ?_, ?_, ?_⟩
      · rw [edge]
        rfl
      · rw [type]
        exact (consistent.edge sane aliveT edge).1
      · rw [text']
    · rintro ⟨dp', name', same, -, -⟩
      obtain ⟨-, -, found⟩ : dp = dp' ∧ name = name' ∧ _ = n := by simpa using same
      cases edge : entry sb s.disk t (lastName junk path) with
      | none =>
        rw [edge] at found
        exact absurd found.symm valid
      | some u =>
        rw [edge] at found
        exact congrArg _ found

/-- On the image of `mkfs`, both walkers lead to inode 2 from `/dev//stdin`. -/
theorem parent_lookup_agrees_stdin : ∃ r s₁ q s₂,
    Fs.pathToInode ⟨mkfsSuperBlock, false⟩ 0 stdinPath (FsState.init Mkfs.disk) = .ok r s₁ ∧
    Fs.parentSearch ⟨mkfsSuperBlock, false⟩ 0 stdinPath (fun _ => 0) (FsState.init Mkfs.disk) = .ok q s₂ ∧
    ((∃ i < nInode, r = some i ∧ (s₁.inodeCache i).inodeNum = 2) ↔
      ∃ dp name, q = some (dp, name, 2) ∧ (s₂.inodeCache dp).diskInfo.type = inodeTypeDir ∧
        (components stdinPath).getLast?.map cutName = some (nameText name)) := by
  have spare : 2 ≤ (spareSlots (FsState.init Mkfs.disk)).card := by
    rw [spareSlots_init]
    decide
  have text : ∀ b ∈ stdinPath, b ≠ 0 := by decide
  have component : components stdinPath ≠ [] := by decide +kernel
  have starts : StartsAt (FsState.init Mkfs.disk) 0 stdinPath rootInode := rfl
  have agree :=
    parent_lookup_agrees mkfsSuperBlock_sane mkfs_consistent text component starts (by decide) fun _ => 0
  generalize Fs.pathToInode ⟨mkfsSuperBlock, false⟩ 0 stdinPath (FsState.init Mkfs.disk) = full at agree ⊢
  generalize Fs.parentSearch ⟨mkfsSuperBlock, false⟩ 0 stdinPath (fun _ => 0) (FsState.init Mkfs.disk) = parent
    at agree ⊢
  obtain ⟨fullEnds, parentEnds, agree⟩ := agree
  cases full with
  | error e s₁ => exact absurd (fullEnds e s₁ rfl) (not_crowded spare)
  | ok r s₁ =>
    cases parent with
    | error e s₂ => exact absurd (parentEnds e s₂ rfl) (not_crowded spare)
    | ok q s₂ => exact ⟨r, s₁, q, s₂, rfl, rfl, agree r s₁ q s₂ rfl rfl 2 (by decide)⟩

end LabKernel
