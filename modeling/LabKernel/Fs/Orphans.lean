import LabKernel.Fs.Unlink

/-! # What an unlink cuts off

An inode is reachable if live entries lead to it from the root. `path_unlink` is to take away the
target alone. It does so when the target has no entries besides `.` and `..`, when these lead to
inodes that other entries lead to as well, and when the parent is not reclaimed on the way.
-/

namespace LabKernel

open Relation (ReflTransGen)

variable {sb : SuperBlock}

/-- Live entries lead from an inode to another. -/
def Reaches (sb : SuperBlock) (d : Disk) : U32 → U32 → Prop :=
  ReflTransGen fun t u => ∃ name, entry sb d t name = some u

/-- An inode that exists and that live entries lead to from the root. -/
structure Reachable (sb : SuperBlock) (d : Disk) (t : U32) : Prop where
  inside : t.toNat < sb.totalInodes
  allocated : Store.allocated sb d t = true
  reaches : Reaches sb d rootInode t

/-- All entries of an inode are named `.` or `..`. -/
def OnlyDots (sb : SuperBlock) (d : Disk) (t : U32) : Prop :=
  ∀ name u, entry sb d t name = some u → name = nameText dot ∨ name = nameText dotDot

/-- What an unlink with result `r` should be like: all inodes but the target stay reachable, and for a
directory with entries besides `.` and `..` it fails and leaves all entries as they are. -/
structure OrphansNothing (sb : SuperBlock) (d d' : Disk) (target : Option Target) (r : U32) : Prop where
  reachable : ∀ t, (∀ x, target = some x → t ≠ x.inode) → Reachable sb d t → Reachable sb d' t
  nonempty : ∀ x, target = some x → ¬OnlyDots sb d x.inode →
    r ≠ 0 ∧ ∀ t, t.toNat < sb.totalInodes → entry sb d' t = entry sb d t

/-- An entry that is there still when the one of the target and those of the inodes in `gone` are
removed. -/
def Leads (sb : SuperBlock) (d : Disk) (target : Target) (gone : U32 → Prop) (t u : U32) : Prop :=
  ∃ name, entry sb d t name = some u ∧ ¬((t = target.parent ∧ name = target.name) ∨ gone t)

/-- A target that can be removed without cutting anything off. -/
structure Removable (sb : SuperBlock) (d : Disk) (target : Target) (gone : U32 → Prop) : Prop where
  dots : OnlyDots sb d target.inode
  elsewhere : Reaches sb d rootInode target.inode → ∀ name u, entry sb d target.inode name = some u →
    u = target.inode ∨ ReflTransGen (Leads sb d target gone) rootInode u
  parent : Reaches sb d rootInode target.parent → ¬gone target.parent

/-- From an inode of a closed graph only inodes of the graph are reached. -/
theorem Consistent.reaches {cfg : FsConfig} {live : U32 → Prop} {s : FsState}
    (consistent : Consistent cfg live s) {t u : U32} (alive : live t)
    (path : Reaches cfg.sb s.disk t u) : live u := by
  induction path with
  | refl => exact alive
  | tail _ edge ih =>
    obtain ⟨name, edge⟩ := edge
    exact consistent.closed _ name _ ih edge

/-- The entries behind an unlink are those that are there still. -/
theorem Unlinked.reaches_iff {d d' : Disk} {x : Target} {gone : U32 → Prop}
    (unlinked : Unlinked sb d d' x gone) {live : U32 → Prop}
    (inside : ∀ t, live t → t.toNat < sb.totalInodes)
    (closed : ∀ t name u, live t → entry sb d t name = some u → live u) {t u : U32} (alive : live t) :
    Reaches sb d' t u ↔ ReflTransGen (Leads sb d x gone) t u := by
  have edge (w v : U32) (alive : live w) :
      (∃ name, entry sb d' w name = some v) ↔ Leads sb d x gone w v := by
    refine exists_congr fun name => ?_
    by_cases removed : (w = x.parent ∧ name = x.name) ∨ gone w
    · rw [unlinked.removed w name (inside w alive) removed]
      exact iff_of_false nofun fun both => both.2 removed
    · rw [unlinked.kept w name (inside w alive) removed]
      exact (and_iff_left removed).symm
  have stays {w : U32} (path : ReflTransGen (Leads sb d x gone) t w) : live w := by
    induction path with
    | refl => exact alive
    | tail _ step ih =>
      obtain ⟨name, found, -⟩ := step
      exact closed _ name _ ih found
  constructor
  · intro path
    induction path with
    | refl => exact .refl
    | tail _ step ih => exact ih.tail ((edge _ _ (stays ih)).mp step)
  · intro path
    induction path with
    | refl => exact .refl
    | tail before step ih => exact ih.tail ((edge _ _ (stays before)).mpr step)

/-- With a removable target, every inode that was reached is the target or is reached still: a path
leaves the target for inodes reached elsewhere, and no other entry is lost. -/
theorem Removable.reached {d : Disk} {x : Target} {gone : U32 → Prop} (removable : Removable sb d x gone)
    (edge : entry sb d x.parent x.name = some x.inode)
    (few : ∀ w, gone w → w = x.inode ∨ w = x.parent) {t : U32} (path : Reaches sb d rootInode t) :
    t = x.inode ∨ ReflTransGen (Leads sb d x gone) rootInode t := by
  induction path with
  | refl => exact Or.inr .refl
  | @tail w u before step ih =>
    obtain ⟨name, found⟩ := step
    by_cases target : w = x.inode
    · rw [target] at before found
      exact removable.elsewhere before name u found
    · by_cases removed : w = x.parent ∧ name = x.name
      · rw [removed.1, removed.2, edge] at found
        exact Or.inl (Option.some.inj found).symm
      · have reached := ih.resolve_left target
        refine Or.inr (reached.tail ⟨name, found, not_or.mpr ⟨removed, fun dead => ?_⟩⟩)
        obtain rfl := (few w dead).resolve_left target
        exact removable.parent before dead

/-- An unlink of a target cuts nothing off exactly when the target is removable. -/
theorem Unlinked.orphansNothing_iff {cfg : FsConfig} {live : U32 → Prop} {s : FsState} {d' : Disk}
    {x : Target} {gone : U32 → Prop} (consistent : Consistent cfg live s) (root : live rootInode)
    (apart : x.parent ≠ x.inode) (edge : entry cfg.sb s.disk x.parent x.name = some x.inode)
    (unlinked : Unlinked cfg.sb s.disk d' x gone) (few : ∀ w, gone w → w = x.inode ∨ w = x.parent) :
    OrphansNothing cfg.sb s.disk d' (some x) 0 ↔ Removable cfg.sb s.disk x gone := by
  have behind {t : U32} := unlinked.reaches_iff (u := t) (fun t alive => (consistent.node t alive).inside)
    consistent.closed root
  have exists' {t : U32} (path : Reaches cfg.sb s.disk rootInode t) : Reachable cfg.sb s.disk t :=
    have node := consistent.node t (consistent.reaches root path)
    ⟨node.inside, node.allocated, path⟩
  constructor
  · rintro ⟨reachable, nonempty⟩
    have other {t : U32} (different : t ≠ x.inode) (y : Target) (same : some x = some y) : t ≠ y.inode := by
      cases same
      exact different
    constructor
    · by_contra more
      exact (nonempty x rfl more).1 rfl
    · intro path name u found
      refine or_iff_not_imp_left.mpr fun different => behind.mp ?_
      exact (reachable u (other different) (exists' (path.tail ⟨name, found⟩))).reaches
    · intro path dead
      have stays := reachable x.parent (other apart) (exists' path)
      exact ((unlinked.allocated _ stays.inside).mp stays.allocated).2 dead
  · intro removable
    constructor
    · rintro t other ⟨inside, there, path⟩
      have different := other x rfl
      refine ⟨inside, (unlinked.allocated t inside).mpr ⟨there, fun dead => ?_⟩,
        behind.mpr ((removable.reached edge few path).resolve_left different)⟩
      obtain rfl := (few t dead).resolve_left different
      exact removable.parent path dead
    · rintro y same more
      cases same
      exact absurd removable.dots more

/-- `path_unlink` keeps all inodes but the target reachable exactly when it fails before it removes an
entry or its target is removable. -/
theorem unlink_orphans (sane : sb.Sane) {live : U32 → Prop} {s : FsState}
    (consistent : Consistent ⟨sb, false⟩ live s) (root : live rootInode)
    (spare : 2 ≤ (spareSlots s).card)
    (proper : ∀ t name, live t → entry sb s.disk t name = some t →
      name = nameText dot ∨ name = nameText dotDot) {p : ℕ} {path : List U8}
    (text : ∀ b ∈ path, b ≠ 0) {start : U32} (starts : StartsAt s p path start) (alive : live start)
    (junk : Bytes) :
    ∃ r s', Fs.pathUnlink ⟨sb, false⟩ p path junk s = .ok r s' ∧
      (OrphansNothing sb s.disk s'.disk (unlinkTarget sb s.disk start path junk) r ↔
        ∀ x, unlinkTarget sb s.disk start path junk = some x →
          Removable sb s.disk x (Reclaims sb s p path junk x)) := by
  obtain ⟨r, s', result, spec⟩ :=
    (pathUnlink_yields sane consistent spare proper text starts alive junk).result
  refine ⟨r, s', result, ?_⟩
  cases found : unlinkTarget sb s.disk start path junk with
  | none =>
    rw [found] at spec
    rw [spec.2]
    exact iff_of_true ⟨fun _ _ => id, nofun⟩ nofun
  | some x =>
    rw [found] at spec
    obtain ⟨rfl, -, apart, edge, unlinked⟩ := spec
    refine (unlinked.orphansNothing_iff consistent root apart edge ?_).trans ?_
    · rintro w ⟨-, -, -, -, -, ⟨rfl, -⟩ | ⟨rfl, -⟩⟩
      · exact Or.inl rfl
      · exact Or.inr rfl
    · refine ⟨?_, fun each => each x rfl⟩
      rintro removable y same
      cases same
      exact removable

def textPath : List U8 := [0x2F, 0x41, 0x42, 0x43, 0x44, 0x2E, 0x74, 0x78, 0x74]

/-- Removing a file from the image of `mkfs` cuts nothing off. -/
theorem unlink_orphans_file :
    ∃ r s' target, unlinkTarget mkfsSuperBlock Mkfs.disk rootInode textPath (fun _ => 0) = some target ∧
      Fs.pathUnlink ⟨mkfsSuperBlock, false⟩ 0 textPath (fun _ => 0) (FsState.init Mkfs.disk) = .ok r s' ∧
      OrphansNothing mkfsSuperBlock Mkfs.disk s'.disk (some target) r := by
  have spare : 2 ≤ (spareSlots (FsState.init Mkfs.disk)).card := by
    rw [spareSlots_init]
    decide
  have text : ∀ b ∈ textPath, b ≠ 0 := by decide
  have starts : StartsAt (FsState.init Mkfs.disk) 0 textPath rootInode := rfl
  obtain ⟨r, s', result, iff⟩ := unlink_orphans mkfsSuperBlock_sane mkfs_consistent (by decide) spare
    (fun t name alive found => (Mkfs.closed_disk alive found).2 rfl) text starts (by decide) fun _ => 0
  have target : unlinkTarget mkfsSuperBlock Mkfs.disk rootInode textPath (fun _ => 0) =
      some ⟨0, [0x41, 0x42, 0x43, 0x44, 0x2E, 0x74, 0x78, 0x74], 5⟩ := by decide +kernel
  have file : Mkfs.entries 5 = [] := rfl
  have entryless (name : List U8) (u : U32) : entry mkfsSuperBlock Mkfs.disk 5 name ≠ some u := by
    rw [Ne, Mkfs.entry_disk (by decide), file]
    exact List.not_mem_nil
  have data : (inodeRead mkfsSuperBlock 5 Mkfs.disk).type ≠ inodeTypeDir := by decide +kernel
  refine ⟨r, s', _, target, result, target ▸ iff.mpr ?_⟩
  rintro x same
  cases same.symm.trans target
  refine ⟨fun name u found => absurd found (entryless name u),
    fun _ name u found => absurd found (entryless name u), ?_⟩
  rintro - ⟨-, -, -, -, -, ⟨same, -⟩ | ⟨-, directory, -⟩⟩
  · cases same
  · exact data directory

def devDirPath : List U8 := [0x2F, 0x64, 0x65, 0x76]

/-- The first thing a program does is to remove `/dev`, which has entries. The call succeeds: it leaves
inode 2, `/dev/stdin`, unreachable, and with the last link of the root it deletes the root. -/
theorem unlink_cuts : ∃ s s' target,
    Run (FsStep ⟨mkfsSuperBlock, false⟩) (FsState.init Mkfs.disk) [(0, .entryPoint fun _ => 0)] s ∧
    Fs.pathUnlink ⟨mkfsSuperBlock, false⟩ 0 devDirPath (fun _ => 0) s = .ok 0 s' ∧
    unlinkTarget mkfsSuperBlock s.disk rootInode devDirPath (fun _ => 0) = some target ∧
    ¬OnlyDots mkfsSuperBlock s.disk target.inode ∧
    Reachable mkfsSuperBlock s.disk 2 ∧ ¬Reachable mkfsSuperBlock s'.disk 2 ∧
    ¬OrphansNothing mkfsSuperBlock s.disk s'.disk (some target) 0 := by
  let test (s : FsState) : Bool :=
    match Fs.pathUnlink ⟨mkfsSuperBlock, false⟩ 0 devDirPath (fun _ => 0) s with
    | .ok r s' => decide (r = 0 ∧
        unlinkTarget mkfsSuperBlock s.disk rootInode devDirPath (fun _ => 0) =
          some ⟨0, [0x64, 0x65, 0x76], 1⟩ ∧
        entry mkfsSuperBlock s.disk 0 [0x64, 0x65, 0x76] = some 1 ∧
        entry mkfsSuperBlock s.disk 1 Fs.stdinName = some 2 ∧
        Store.allocated mkfsSuperBlock s.disk 2 = true ∧
        (inodeRead mkfsSuperBlock 0 s'.disk).size = 0)
    | .error _ _ => false
  obtain ⟨s, run, passes⟩ := exists_run ⟨mkfsSuperBlock, false⟩ [(0, .entryPoint fun _ => 0)]
    (FsState.init Mkfs.disk) test (by decide +kernel)
  simp only [test] at passes
  split at passes
  · rename_i r s' result
    obtain ⟨rfl, target, dev, stdin, there, deleted⟩ := of_decide_eq_true passes
    have some : ¬OnlyDots mkfsSuperBlock s.disk 1 := fun dots => by
      have names : ∀ name, name = nameText dot ∨ name = nameText dotDot → name ≠ Fs.stdinName := by
        rintro name (rfl | rfl) <;> decide
      exact names _ (dots _ _ stdin) rfl
    have before : Reachable mkfsSuperBlock s.disk 2 :=
      ⟨by decide, there, .tail (.single ⟨_, dev⟩) ⟨_, stdin⟩⟩
    have after : ¬Reachable mkfsSuperBlock s'.disk 2 := by
      rintro ⟨-, -, path⟩
      rcases path.cases_head with same | ⟨u, ⟨name, found⟩, -⟩
      · cases same
      · have none : entry mkfsSuperBlock s'.disk rootInode name = none := by
          rw [entry, rootInode, dirMap, deleted,
            SlotTable.lookup_eq_none.mpr fun _ inside => absurd inside (Nat.not_lt_zero _), ite_self]
        rw [none] at found
        cases found
    refine ⟨s, s', _, run, result, target, some, before, after, fun orphans => after ?_⟩
    refine orphans.reachable 2 (fun x same => ?_) before
    cases same
    decide
  · cases passes

end LabKernel
