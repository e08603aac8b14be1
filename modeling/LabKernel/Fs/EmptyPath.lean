import LabKernel.Fs.Unlink

/-! # Paths without a component

On a path of slashes only, `path_to_parent_inode` returns the inode it starts at and leaves the name
buffer of its caller as it is. The caller then searches for whatever the buffer held: `path_create_inode`
and `path_link` fail only if this name exists already, `path_unlink` only if it does not.
-/

namespace LabKernel

variable {sb : SuperBlock} {cfg : FsConfig} {α : Type}

/-- The call fails and leaves the disk, with all directories, link counts and bitmaps, as it is. -/
def Rejects (x : FsM α) (s : FsState) (failure : α) : Prop :=
  ∃ s', x s = .ok failure s' ∧ s'.disk = s.disk

private theorem rejects_iff {x : FsM α} {s : FsState} {failure : α} {C : Prop}
    (rejects : C → Yields x s fun r s' => r = failure ∧ s'.disk = s.disk)
    (accepts : ¬C → Returns x s fun r _ => r ≠ failure) : Rejects x s failure ↔ C := by
  constructor
  · rintro ⟨s', result, -⟩
    by_contra other
    exact accepts other _ _ result rfl
  · intro holds
    obtain ⟨_, s', result, rfl, same⟩ := (rejects holds).result
    exact ⟨s', result, same⟩

/-! ## The start of a lookup -/

private theorem components_eq_nil {path : List U8} (slashes : ∀ b ∈ path, b = slash) : components path = [] := by
  have skipped : path.dropWhile (· == slash) = [] := by
    rw [List.dropWhile_eq_nil_iff]
    exact fun b member => by simpa using slashes b member
  rw [← components_dropWhile, skipped, components_nil]

namespace Fs

variable {s : FsState} {i : ℕ} {live : U32 → Prop} {p : ℕ} {path : List U8} {start : U32}

private theorem inodeGet_available (inodeNum : U32) :
    Returns (inodeGet cfg inodeNum) s fun _ _ => cachedSlot s inodeNum ≠ none ∨ freeSlot s ≠ none := by
  simp only [inodeGet, Returns.bind_iff, Returns.get_iff]
  split
  · rename_i found
    exact fun _ _ _ => Or.inl (by simp [found])
  · split
    · exact Returns.throw_iff.mpr trivial
    · rename_i found
      exact fun _ _ _ => Or.inr (by simp [found])

private theorem pathStart_startable : Returns (pathStart cfg p path) s fun _ _ => Startable s path := by
  rw [pathStart]
  refine Returns.ite (fun _ => ?_) fun relative => ?_
  · exact (inodeGet_available rootInode).mono fun _ _ available _ => available
  · exact fun _ _ _ absolute => absurd absolute relative

/-- The lookup of a parent stays at its start and leaves the name buffer alone. -/
theorem pathToParentInode_slashes (slashes : ∀ b ∈ path, b = slash) (junk : Bytes) :
    pathToParentInode cfg p path junk = pathStart cfg p path >>= fun i => pure (some (i, junk)) := by
  rw [pathToParentInode, elements_eq, components_eq_nil slashes]

private theorem pathStart_yields (lazy : cfg.eager = false) (consistent : Consistent cfg live s)
    (starts : StartsAt s p path start) (startable : Startable s path) :
    Yields (pathStart cfg p path) s fun i s' => i < nInode ∧ Walked cfg live s s' [i] ∧
      (s'.inodeCache i).inodeNum = start :=
  (pathStart_ends lazy consistent starts).yields fun _ failed => failed.2 startable

/-! ## The three calls -/

/-- `inode_create` fails without a change if no inode is free. -/
theorem inodeCreate_full (sane : cfg.sb.Sane) (full : NoInode cfg.sb s.disk) (type major minor : U16) :
    Yields (inodeCreate cfg type major minor) s fun r s' => r = none ∧ s' = s := by
  have none := (noInode_iff sane s.disk).mp full
  obtain ⟨t, -, -, valid, alloc⟩ | alloc := bitmapAllocInode_spec sane s.disk
  · rw [alloc] at none
    exact absurd none valid
  · simp only [inodeCreate, Ends.bind_iff, Ends.get_iff, Ends.set_iff, alloc, ↓reduceIte, Ends.pure_iff,
      FsState.setDisk_self, and_self]

private theorem inodeCreate_free (sane : cfg.sb.Sane) (free : ¬NoInode cfg.sb s.disk) (type major minor : U16) :
    Returns (inodeCreate cfg type major minor) s fun r _ => r ≠ none := by
  simp only [inodeCreate, Returns.bind_iff, Returns.get_iff, Returns.set_iff]
  refine Returns.ite (fun none => absurd ((noInode_iff sane s.disk).mpr none) free) fun _ => ?_
  simp only [Returns.bind_iff, Returns.pure_iff, ne_eq, reduceCtorEq, not_false_eq_true, Returns.trivial_iff]

/-- `path_create_inode` fails on slashes if the name in the buffer exists, or no inode is free. -/
theorem pathCreateInode_slashes (sane : cfg.sb.Sane) (lazy : cfg.eager = false)
    (consistent : Consistent cfg live s) (slashes : ∀ b ∈ path, b = slash) (starts : StartsAt s p path start)
    (alive : live start) (type major minor : U16) (junk : Bytes) :
    Rejects (pathCreateInode cfg p path type major minor junk) s none ↔ Startable s path ∧
      (entry cfg.sb s.disk start (nameText junk) ≠ none ∨ NoInode cfg.sb s.disk) := by
  rw [pathCreateInode, pathToParentInode_slashes slashes]
  refine rejects_iff ?_ fun other => ?_
  · rintro ⟨startable, cause⟩
    refine Ends.bind_iff.mpr (Ends.bind_iff.mpr
      ((pathStart_yields lazy consistent starts startable).mono ?_))
    rintro i s₁ ⟨inside, walked, rfl⟩
    have held := Exchange.held walked.exchange
    have release := release_live walked.consistent inside held alive
    refine Ends.bind_iff.mpr ((inodeLock_yields held (walked.consistent.unlocked i inside)).mono ?_)
    rintro _ _ rfl
    refine Ends.bind_iff.mpr ((dentrySearch_locked sane walked.consistent inside alive junk).mono ?_)
    rintro _ _ ⟨rfl, rfl⟩
    have failed : Yields (do
        inodeUnlock i
        inodePut cfg i
        pure (none : Option ℕ)) (lockedIn cfg s₁ i) fun r s' => r = none ∧ s'.disk = s.disk := by
      refine Ends.bind_iff.mpr (release.mono ?_)
      rintro _ s₂ put
      exact Ends.bind_iff.mpr (put.mono fun _ _ kept => ⟨rfl, kept.1.trans walked.disk⟩)
    refine Ends.ite (fun _ => failed) fun missing => ?_
    have full : NoInode cfg.sb (lockedIn cfg s₁ i).disk := by
      rw [lockedIn_disk, walked.disk]
      refine cause.resolve_left fun found => missing ?_
      obtain ⟨u, edge⟩ := Option.ne_none_iff_exists'.mp found
      rw [walked.disk, edge]
      exact (consistent.edge sane alive edge).2
    refine Ends.bind_iff.mpr ((inodeCreate_full sane full type major minor).mono ?_)
    rintro _ _ ⟨rfl, rfl⟩
    exact failed
  · refine Returns.bind_iff.mpr (Returns.bind_iff.mpr
      ((pathStart_startable.and (pathStart_ends lazy consistent starts).returns).mono ?_))
    rintro i s₁ ⟨startable, inside, walked, rfl⟩
    obtain ⟨missing, free⟩ := not_or.mp fun cause => other ⟨startable, cause⟩
    have held := Exchange.held walked.exchange
    rw [Returns.pure_iff]
    refine Returns.bind_iff.mpr
      ((inodeLock_yields held (walked.consistent.unlocked i inside)).returns.mono ?_)
    rintro _ _ rfl
    refine Returns.bind_iff.mpr
      ((dentrySearch_locked sane walked.consistent inside alive junk).returns.mono ?_)
    rintro _ _ ⟨rfl, rfl⟩
    rw [walked.disk, not_not.mp missing]
    refine Returns.ite (fun found => absurd rfl found) fun _ => ?_
    have free₁ : ¬NoInode cfg.sb (lockedIn cfg s₁ i).disk := by
      rwa [lockedIn_disk, walked.disk]
    refine Returns.bind_iff.mpr ((inodeCreate_free sane free₁ type major minor).mono ?_)
    intro r s₂ some
    cases r with
    | none => exact absurd rfl some
    | some ip => exact Returns.bind_iff.mpr fun _ _ _ => Returns.pure_iff.mpr (by simp)

/-- `dentry_delete` in a locked inode of the graph finds the name, or changes nothing. -/
theorem dentryDelete_locked (sane : cfg.sb.Sane) (consistent : Consistent cfg live s) (inside : i < nInode)
    (alive : live (s.inodeCache i).inodeNum) (name : Bytes) :
    Yields (dentryDelete cfg i name) (lockedIn cfg s i) fun r s' =>
      match entry cfg.sb s.disk (s.inodeCache i).inodeNum (nameText name) with
      | none => r = minusOne ∧ s' = lockedIn cfg s i
      | some u => r = u := by
  have type := lockedIn_type consistent inside alive
  by_cases directory : (inodeRead cfg.sb (s.inodeCache i).inodeNum s.disk).type = inodeTypeDir
  · have record : ((s.inodeCache i).loaded cfg.sb s.disk).diskInfo =
        inodeRead cfg.sb (s.inodeCache i).inodeNum s.disk := (consistent.stands inside alive).dir directory
    have holds : Holds (lockedIn cfg s i) i (s.inodeCache i).inodeNum (s.inodeCache i).ref
        (inodeRead cfg.sb (s.inodeCache i).inodeNum (lockedIn cfg s i).disk) true := by
      refine ⟨?_, ?_, ?_, ?_, ?_⟩ <;> rw [lockedIn_slot]
      · exact Inode.loaded_inodeNum ..
      · exact Inode.loaded_validInfo ..
      · exact Inode.loaded_ref ..
      · exact record
    have delete := @dentryDelete_cleared _ (lockedIn cfg s i) _ _ _ sane consistent.sound
      (consistent.node _ alive) holds name
    refine delete.mono ?_
    intro r s' spec
    rw [lockedIn_disk] at spec
    cases edge : entry cfg.sb s.disk (s.inodeCache i).inodeNum (nameText name) with
    | none =>
      rw [edge] at spec
      exact spec
    | some u =>
      rw [edge] at spec
      exact spec.1
  · rw [entry, if_neg directory]
    simp only [dentryDelete, diskInfo, Ends.bind_iff, Ends.get_iff, Ends.pure_iff]
    refine Ends.ite (fun _ => ⟨rfl, rfl⟩) fun dir => absurd (type.symm.trans (not_not.mp dir)) directory

/-- `path_unlink` fails on slashes if the buffer holds `.` or `..` or a name that does not exist. -/
theorem pathUnlink_slashes (sane : cfg.sb.Sane) (lazy : cfg.eager = false)
    (consistent : Consistent cfg live s) (slashes : ∀ b ∈ path, b = slash) (starts : StartsAt s p path start)
    (alive : live start) (junk : Bytes) :
    Rejects (pathUnlink cfg p path junk) s minusOne ↔ Startable s path ∧
      (nameText junk = nameText dot ∨ nameText junk = nameText dotDot ∨
        entry cfg.sb s.disk start (nameText junk) = none) := by
  have dots : strncmp junk dot maxlenFilename = 0 ∨ strncmp junk dotDot maxlenFilename = 0 ↔
      nameText junk = nameText dot ∨ nameText junk = nameText dotDot := by
    rw [strncmp_eq_zero, strncmp_eq_zero]
  rw [pathUnlink, pathToParentInode_slashes slashes]
  refine rejects_iff ?_ fun other => ?_
  · rintro ⟨startable, cause⟩
    refine Ends.bind_iff.mpr (Ends.bind_iff.mpr
      ((pathStart_yields lazy consistent starts startable).mono ?_))
    rintro i s₁ ⟨inside, walked, rfl⟩
    have held := Exchange.held walked.exchange
    have failed := (giveUp_yields walked.consistent inside held alive).mono
      fun r s' both => And.intro both.1 (both.2.trans walked.disk)
    refine Ends.bind_iff.mpr ((inodeLock_yields held (walked.consistent.unlocked i inside)).mono ?_)
    rintro _ _ rfl
    refine Ends.ite (fun _ => failed) fun named => ?_
    have missing : entry cfg.sb s₁.disk (s₁.inodeCache i).inodeNum (nameText junk) = none := by
      rw [walked.disk]
      exact (or_assoc.mpr cause).resolve_left fun refused => named (dots.mpr refused)
    refine Ends.bind_iff.mpr ((dentryDelete_locked sane walked.consistent inside alive junk).mono ?_)
    intro r s₂ spec
    rw [missing] at spec
    obtain ⟨rfl, rfl⟩ := spec
    exact Ends.ite (fun _ => failed) fun valid => absurd rfl valid
  · refine Returns.bind_iff.mpr (Returns.bind_iff.mpr
      ((pathStart_startable.and (pathStart_ends lazy consistent starts).returns).mono ?_))
    rintro i s₁ ⟨startable, inside, walked, rfl⟩
    have allowed := fun cause => other ⟨startable, cause⟩
    have held := Exchange.held walked.exchange
    rw [Returns.pure_iff]
    refine Returns.bind_iff.mpr
      ((inodeLock_yields held (walked.consistent.unlocked i inside)).returns.mono ?_)
    rintro _ _ rfl
    refine Returns.ite (fun refused => absurd (or_assoc.mp (Or.inl (dots.mp refused))) allowed) fun _ => ?_
    obtain ⟨u, edge⟩ := Option.ne_none_iff_exists'.mp fun missing => allowed (Or.inr (Or.inr missing))
    refine Returns.bind_iff.mpr
      ((dentryDelete_locked sane walked.consistent inside alive junk).returns.mono ?_)
    intro r s₂ spec
    rw [walked.disk, edge] at spec
    obtain rfl := spec
    refine Returns.ite (fun none => absurd none (consistent.edge sane alive edge).2) fun _ => ?_
    have done : (0 : U32) ≠ minusOne := by decide
    simp only [Returns.bind_iff, Returns.pure_iff, ne_eq, done, not_false_eq_true, Returns.trivial_iff]

/-- `path_link` on slashes fails for the sake of the old path, or if the name in the buffer exists. -/
def LinkRefused (cfg : FsConfig) (s : FsState) (p : ℕ) (oldPath path : List U8) (start : U32) (junk : Bytes) :
    Prop :=
  match pathToInode cfg p oldPath s with
  | .ok none _ => True
  | .ok (some ip) s₁ => (s₁.inodeCache ip).diskInfo.type = inodeTypeDir ∨
      Startable s₁ path ∧ entry cfg.sb s.disk start (nameText junk) ≠ none
  | .error _ _ => False

private theorem pathLink_slashes (sane : cfg.sb.Sane) (lazy : cfg.eager = false)
    (consistent : Consistent cfg live s) {oldPath : List U8} (text : ∀ b ∈ oldPath, b ≠ 0) {oldStart : U32}
    (oldStarts : StartsAt s p oldPath oldStart) (oldAlive : live oldStart)
    (slashes : ∀ b ∈ path, b = slash) (starts : StartsAt s p path start)
    (counted : ∀ c, (s.procPool p).cwd = some c → 0 < (s.inodeCache c).ref)
    (alive : live start) (junk : Bytes) :
    Rejects (pathLink cfg p oldPath path junk) s minusOne ↔ LinkRefused cfg s p oldPath path start junk := by
  have lookup := (pathToInode_ends sane lazy consistent text oldStarts oldAlive).returns
  rw [pathLink, LinkRefused]
  cases result : pathToInode cfg p oldPath s with
  | error e s₁ =>
    refine rejects_iff False.elim fun _ => Returns.bind_iff.mpr fun r s' other => ?_
    rw [result] at other
    cases other
  | ok r s₁ =>
    obtain ⟨walked, found⟩ := lookup r s₁ result
    cases r with
    | none => exact rejects_iff (fun _ => Ends.bind_of_ok result ⟨rfl, walked.disk⟩) fun no => absurd trivial no
    | some ip =>
      obtain ⟨aliveIp, insideIp⟩ : live (s₁.inodeCache ip).inodeNum ∧ ip < nInode := by
        split at found
        · cases found
        · obtain ⟨alive', i, inside, same, rfl⟩ := found
          obtain rfl := Option.some.inj same
          exact ⟨alive', inside⟩
      -- a use is recorded before the type is looked at
      let s₂ : FsState := { s₁ with uses := (.pathLink, s₁.inodeCache ip) :: s₁.uses }
      have consistent₂ : Consistent cfg live s₂ := ⟨walked.consistent.sound, walked.consistent.node,
        walked.consistent.closed, walked.consistent.cached, walked.consistent.unlocked⟩
      have disk₂ : s₂.disk = s.disk := walked.disk
      have starts₂ : StartsAt s₂ p path start := by
        rw [StartsAt] at starts ⊢
        split
        · rename_i absolute
          rwa [if_pos absolute] at starts
        · rename_i relative
          rw [if_neg relative] at starts
          obtain ⟨c, inside, cwd, number⟩ := starts
          refine ⟨c, inside, ?_, ?_⟩
          · exact (congrArg (fun pool => (pool p).cwd) walked.exchange.procPool).trans cwd
          · exact (walked.exchange.kept c (counted c cwd)).1.trans number
      dsimp only
      refine rejects_iff (fun cause => Ends.bind_of_ok result ?_) fun other => Returns.bind_of_ok result ?_
      · simp only [note, diskInfo, Ends.bind_iff, Ends.get_iff, Ends.modify_iff, Ends.pure_iff]
        change Ends _ s₂ _ _
        refine Ends.ite (fun directory => ?_) fun file => ?_
        · refine Ends.bind_iff.mpr ((inodePut_live consistent₂ insideIp aliveIp).mono ?_)
          rintro _ s' ⟨disk, -, -⟩
          exact ⟨rfl, disk.trans disk₂⟩
        · obtain ⟨startable, named⟩ := cause.resolve_left file
          rw [pathToParentInode_slashes slashes]
          refine Ends.bind_iff.mpr (Ends.bind_iff.mpr
            ((pathStart_yields lazy consistent₂ starts₂ startable).mono ?_))
          rintro i s₃ ⟨inside, walked₃, rfl⟩
          have held := Exchange.held walked₃.exchange
          refine Ends.bind_iff.mpr ((inodeLock_yields held (walked₃.consistent.unlocked i inside)).mono ?_)
          rintro _ _ rfl
          refine Ends.bind_iff.mpr ((dentrySearch_locked sane walked₃.consistent inside alive junk).mono ?_)
          rintro _ _ ⟨rfl, rfl⟩
          obtain ⟨u, edge⟩ := Option.ne_none_iff_exists'.mp named
          have valid := (consistent.edge sane alive edge).2
          rw [walked₃.disk, disk₂, edge]
          refine Ends.ite (fun _ => ?_) fun missing => absurd valid missing
          refine Ends.bind_iff.mpr ((release_live walked₃.consistent inside held alive).mono ?_)
          rintro _ s₄ put
          refine Ends.bind_iff.mpr (put.mono ?_)
          rintro _ s₅ ⟨disk₅, consistent₅, numbers⟩
          have aliveIp₅ : live (s₅.inodeCache ip).inodeNum := by
            have exchange : Exchange s [] s₁ [ip] := walked.exchange
            have used : 0 < (s₂.inodeCache ip).ref := exchange.held
            rw [numbers, (walked₃.exchange.kept ip used).1]
            exact aliveIp
          refine Ends.bind_iff.mpr ((inodePut_live consistent₅ insideIp aliveIp₅).mono ?_)
          rintro _ s' ⟨disk', -, -⟩
          exact ⟨rfl, disk'.trans (disk₅.trans (walked₃.disk.trans disk₂))⟩
      · obtain ⟨file, missing⟩ := not_or.mp other
        simp only [note, diskInfo, Returns.bind_iff, Returns.get_iff, Returns.modify_iff, Returns.pure_iff]
        change Returns _ s₂ _
        refine Returns.ite (fun directory => absurd directory file) fun _ => ?_
        rw [pathToParentInode_slashes slashes]
        refine Returns.bind_iff.mpr (Returns.bind_iff.mpr
          ((pathStart_startable.and (pathStart_ends lazy consistent₂ starts₂).returns).mono ?_))
        rintro i s₃ ⟨startable, inside, walked₃, rfl⟩
        have held := Exchange.held walked₃.exchange
        rw [Returns.pure_iff]
        refine Returns.bind_iff.mpr
          ((inodeLock_yields held (walked₃.consistent.unlocked i inside)).returns.mono ?_)
        rintro _ _ rfl
        refine Returns.bind_iff.mpr
          ((dentrySearch_locked sane walked₃.consistent inside alive junk).returns.mono ?_)
        rintro _ _ ⟨rfl, rfl⟩
        have none : entry cfg.sb s.disk (s₃.inodeCache i).inodeNum (nameText junk) = none := by
          by_contra named
          exact missing ⟨startable, named⟩
        rw [walked₃.disk, disk₂, none]
        refine Returns.ite (fun found => absurd rfl found) fun _ => ?_
        have done : (0 : U32) ≠ minusOne := by decide
        simp only [Returns.bind_iff, Returns.pure_iff, ne_eq, done, not_false_eq_true, Returns.trivial_iff]

end Fs

/-! ## The outcome depends on the buffer -/

/-- When the three calls fail and change nothing on a path of slashes: it is up to the bytes that their name
buffers happen to hold. -/
theorem slashes_rejected_iff (sane : sb.Sane) {live : U32 → Prop} {s : FsState}
    (consistent : Consistent ⟨sb, false⟩ live s) {p : ℕ} {path : List U8} (slashes : ∀ b ∈ path, b = slash)
    {start : U32} (starts : StartsAt s p path start) (alive : live start)
    (counted : ∀ c, (s.procPool p).cwd = some c → 0 < (s.inodeCache c).ref) {oldPath : List U8}
    (text : ∀ b ∈ oldPath, b ≠ 0) {oldStart : U32} (oldStarts : StartsAt s p oldPath oldStart)
    (oldAlive : live oldStart) (type major minor : U16) (junk : Bytes) :
    (Rejects (Fs.pathCreateInode ⟨sb, false⟩ p path type major minor junk) s none ↔ Startable s path ∧
      (entry sb s.disk start (nameText junk) ≠ none ∨ NoInode sb s.disk)) ∧
    (Rejects (Fs.pathLink ⟨sb, false⟩ p oldPath path junk) s minusOne ↔
      Fs.LinkRefused ⟨sb, false⟩ s p oldPath path start junk) ∧
    (Rejects (Fs.pathUnlink ⟨sb, false⟩ p path junk) s minusOne ↔ Startable s path ∧
      (nameText junk = nameText dot ∨ nameText junk = nameText dotDot ∨
        entry sb s.disk start (nameText junk) = none)) :=
  ⟨Fs.pathCreateInode_slashes sane rfl consistent slashes starts alive type major minor junk,
    Fs.pathLink_slashes sane rfl consistent text oldStarts oldAlive slashes starts counted alive junk,
    Fs.pathUnlink_slashes sane rfl consistent slashes starts alive junk⟩

private theorem startable_init : Startable (FsState.init Mkfs.disk) [slash] := fun _ => Or.inr (by decide)

private theorem starts_init : StartsAt (FsState.init Mkfs.disk) 0 [slash] rootInode := rfl

private theorem only_slash : ∀ b ∈ [slash], b = slash := by decide

/-- With `.` in the buffer, a creation of `/` and a removal of `/` fail on the image of `mkfs`. -/
theorem slashes_rejected_dot :
    Rejects (Fs.pathCreateInode ⟨mkfsSuperBlock, false⟩ 0 [slash] inodeTypeData 0 0 dot)
        (FsState.init Mkfs.disk) none ∧
      Rejects (Fs.pathUnlink ⟨mkfsSuperBlock, false⟩ 0 [slash] dot) (FsState.init Mkfs.disk) minusOne := by
  have iff := slashes_rejected_iff mkfsSuperBlock_sane mkfs_consistent only_slash starts_init (by decide) nofun
    (by decide) starts_init (by decide) inodeTypeData 0 0 dot
  have found : entry mkfsSuperBlock Mkfs.disk rootInode (nameText dot) = some rootInode :=
    (Mkfs.entry_disk (by decide)).mpr (by decide)
  exact ⟨iff.1.mpr ⟨startable_init, Or.inl (by rw [FsState.init, found]; nofun)⟩,
    iff.2.2.mpr ⟨startable_init, Or.inl rfl⟩⟩

/-- With `x` in the buffer, `/` is created. -/
theorem slashes_created :
    ¬Rejects (Fs.pathCreateInode ⟨mkfsSuperBlock, false⟩ 0 [slash] inodeTypeData 0 0 (nameOf [0x78]))
      (FsState.init Mkfs.disk) none := by
  rw [Fs.pathCreateInode_slashes mkfsSuperBlock_sane rfl mkfs_consistent only_slash starts_init (by decide)]
  rintro ⟨-, found | full⟩
  · obtain ⟨u, edge⟩ := Option.ne_none_iff_exists'.mp found
    have absent : ∀ e ∈ Mkfs.entries rootInode, e.1 ≠ nameText (nameOf [0x78]) := by decide
    exact absurd rfl (absent _ ((Mkfs.entry_disk (by decide)).mp edge))
  · exact absurd ((Mkfs.allocated_disk (by decide)).mp (full 7 (by decide))) (by decide)

end LabKernel
