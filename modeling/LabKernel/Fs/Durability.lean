import LabKernel.Fs.Ownership

/-! # Write-through of the inode cache

`inode_write_data` writes the record back when the file grows and at no other time, while
`locate_or_add_block` enters new blocks in the cached table on both data paths. So the cached record
and the record on disk agree after a call exactly when the call enters no block in the inode's own
table or makes the file grow. A sparse file read or filled below its size breaks the agreement.
-/

namespace LabKernel

open BlockTrees

variable {sb : SuperBlock}

inductive DataOp where
  | write (offset len : U32) (src : Bytes)
  | read (offset len : U32) (dst : Bytes)

def DataOp.on (t : U32) : DataOp → InodeOp
  | .write offset len src => .write t offset len src
  | .read offset len dst => .read t offset len dst

namespace Store

/-- The cached record of an inode equals its record on disk. -/
def WrittenThrough (sb : SuperBlock) (s : Store) (t : U32) : Prop :=
  s.image t = some (inodeRead sb t s.disk)

/-- No block from byte `cur` to byte `stop` is new in the inode's own table: its entry there is set,
or the free blocks run out before it is due. -/
def TableKept (sb : SuperBlock) (s : Store) (t : U32) (cur stop : ℕ) : Prop :=
  ∀ n ∈ touched cur stop, s.trees.block t (.root (leafPlace n).top) ≠ 0 ∨
    freeCount sb s.trees ≤ s.trees.missing t (places cur (n * blockSize))

/-- A write makes the file grow: it ends behind the file, and the free blocks suffice for the places
up to the first byte behind the file. -/
def Grows (sb : SuperBlock) (s : Store) (t : U32) (info : InodeDisk) (offset stop : ℕ) : Prop :=
  max offset info.size.toNat < stop ∧
    s.trees.missing t (places offset (max offset info.size.toNat + 1)) ≤ freeCount sb s.trees

/-- When a request leaves the cached record and the record on disk equal. -/
def Durable (sb : SuperBlock) (s : Store) (t : U32) (op : DataOp) : Prop :=
  ∀ info, s.image t = some info →
    match op with
    | .write offset len _ =>
      TableKept sb s t offset.toNat (offset + len).toNat ∨
        Grows sb s t info offset.toNat (offset + len).toNat
    | .read offset len _ => TableKept sb s t offset.toNat (readStop info offset len)

/-- Drop the cached record and load it again. -/
def reload (sb : SuperBlock) (s : Store) (t : U32) : Store :=
  { s with image := Function.update s.image t (some (inodeRead sb t s.disk)) }

/-- A record that is written through survives being dropped. -/
theorem reload_eq {s : Store} {t : U32} (through : WrittenThrough sb s t) : reload sb s t = s := by
  rw [reload, ← (show s.image t = some (inodeRead sb t s.disk) from through),
    Function.update_eq_self]

private theorem read_durable_iff (sane : sb.Sane) {s : Store} (sound : Sound sb s) {t : U32}
    {info : InodeDisk} (image : s.image t = some info) (loaded : inodeRead sb t s.disk = info)
    (offset len : U32) (dst : Bytes) :
    WrittenThrough sb (s.step sb (.read t offset len dst)) t ↔
      TableKept sb s t offset.toNat (readStop info offset len) := by
  have limit := readStop_le info offset len
  have handles : Handles sb t (readStop info offset len) reading := handles_reading t _
  obtain ⟨m, passes, -, record, -⟩ := inodeReadData_spec sane sound.owned (trees_index image).symm
    offset len dst
  obtain ⟨-, -, -, low⟩ := passes.kept sane limit handles sound.owned
  have table := passes.index_iff sane limit handles sound.owned
  rw [put_index, trees_index image] at table
  unfold TableKept
  rw [← table, WrittenThrough]
  have block := inodeBlock_low sane ((sound.imaged t).mp (by rw [image]; rfl)).1
  simp only [step, image, Function.update_self]
  have stored : inodeRead sb t (inodeReadData sb info offset len dst s.disk).2.2.2 = info :=
    (inodeRead_congr (low _ block)).trans loaded
  rw [stored, Option.some_inj]
  constructor
  · intro same
    exact congrArg InodeDisk.index same
  · intro same
    exact record.trans (by rw [same])

private theorem write_durable_iff (sane : sb.Sane) {s : Store} (sound : Sound sb s) {t : U32}
    {info : InodeDisk} (image : s.image t = some info) (loaded : inodeRead sb t s.disk = info)
    (offset len : U32) (src : Bytes) :
    WrittenThrough sb (s.step sb (.write t offset len src)) t ↔
      TableKept sb s t offset.toNat (offset + len).toNat ∨
        Grows sb s t info offset.toNat (offset + len).toNat := by
  have limit : (offset + len).toNat ≤ 2 ^ 32 := Nat.le_of_lt (offset + len).isLt
  have handles := handles_writing sane t src offset.toNat limit
  obtain ⟨m, s₁, passes, -, record, disk⟩ := inodeWriteData_spec sane sound.owned
    (trees_index image).symm offset len src
  obtain ⟨-, -, -, low⟩ := passes.kept sane limit handles sound.owned
  have table := passes.index_iff sane limit handles sound.owned
  rw [trees_index image] at table
  unfold TableKept
  rw [← table, WrittenThrough]
  have block := inodeBlock_low sane ((sound.imaged t).mp (by rw [image]; rfl)).1
  simp only [step, image, Function.update_self]
  change (inodeWriteData sb t info offset len src s.disk).2.1 = _ at record
  change (inodeWriteData sb t info offset len src s.disk).2.2 = _ at disk
  have grows : 0 < m ∧ info.size.toNat < offset.toNat + m ↔
      Grows sb s t info offset.toNat (offset + len).toNat := by
    have behind : 0 < m ∧ info.size.toNat < offset.toNat + m ↔
        max offset.toNat info.size.toNat < offset.toNat + m := by omega
    have bounded := passes.count_le
    rw [behind, Grows]
    by_cases inside : max offset.toNat info.size.toNat < (offset + len).toNat
    · rw [passes.reach sane limit handles sound.owned (Nat.le_max_left ..) inside]
      exact (and_iff_right inside).symm
    · exact iff_of_false (by omega) fun both => inside both.1
  rw [← grows]
  by_cases grow : 0 < m ∧ info.size.toNat < offset.toNat + m
  · rw [if_pos grow] at disk
    rw [disk, inodeRead_inodeWrite]
    exact iff_of_true rfl (Or.inr grow)
  · rw [if_neg grow] at disk
    have stored : inodeRead sb t s₁.disk = info := (inodeRead_congr (low _ block)).trans loaded
    rw [disk, stored, record, grownRecord, if_neg grow, Option.some_inj, or_iff_left grow]
    constructor
    · intro same
      exact congrArg InodeDisk.index same
    · intro same
      rw [same]

/-- One request: agreement before is agreement after exactly when the request is durable. -/
theorem writtenThrough_iff (sane : sb.Sane) {s : Store} (sound : Sound sb s) {t : U32}
    (through : WrittenThrough sb s t) (op : DataOp) :
    WrittenThrough sb (s.step sb (op.on t)) t ↔ Durable sb s t op := by
  unfold Durable
  rw [show s.image t = some (inodeRead sb t s.disk) from through]
  cases op with
  | write offset len src =>
    rw [DataOp.on, write_durable_iff sane sound through rfl]
    simp only [Option.some.injEq, forall_eq']
  | read offset len dst =>
    rw [DataOp.on, read_durable_iff sane sound through rfl]
    simp only [Option.some.injEq, forall_eq']

/-- The data requests of one inode as a transition relation. -/
def dataStep (sb : SuperBlock) (t : U32) : Store → DataOp → Store → Prop :=
  fun s op s' => s' = s.step sb (op.on t)

private theorem dataStep_sound (sane : sb.Sane) {t : U32} {s s' : Store} {op : DataOp}
    (step : dataStep sb t s op s') (sound : Sound sb s) : Sound sb s' := by
  rw [show s' = s.step sb (op.on t) from step]
  exact step_sound sane sound _

/-- The agreement of an inode in every state of a run, with what it means for a dropped record: the
file keeps its size and its bytes. -/
def AlwaysThrough (sb : SuperBlock) (t : U32) (s : Store) (ops : List DataOp) : Prop :=
  ∀ before after s₁, ops = before ++ after → Run (dataStep sb t) s before s₁ →
    WrittenThrough sb s₁ t ∧ (reload sb s₁ t).image t = s₁.image t ∧
      ∀ x, (reload sb s₁ t).trees.fileByte t x = s₁.trees.fileByte t x

/-- Every request of a run is durable where it is made. -/
def AlwaysDurable (sb : SuperBlock) (t : U32) (s : Store) (ops : List DataOp) : Prop :=
  ∀ before op after s₁, ops = before ++ op :: after → Run (dataStep sb t) s before s₁ →
    Durable sb s₁ t op

private theorem run_dataStep_sound (sane : sb.Sane) {t : U32} {s s' : Store} (sound : Sound sb s)
    {ops : List DataOp} (run : Run (dataStep sb t) s ops s') : Sound sb s' :=
  run.invariant (fun _ _ _ step => dataStep_sound sane step) sound

private theorem through_of_durable (sane : sb.Sane) {t : U32} {s : Store} (sound : Sound sb s)
    (loaded : WrittenThrough sb s t) {ops : List DataOp} (durable : AlwaysDurable sb t s ops)
    (before : List DataOp) {after : List DataOp} (split : ops = before ++ after) {s₁ : Store}
    (run : Run (dataStep sb t) s before s₁) : WrittenThrough sb s₁ t := by
  induction before using List.reverseRecOn generalizing after s₁ with
  | nil =>
    cases run with
    | nil => exact loaded
  | append_singleton before op ih =>
    obtain ⟨s₀, earlier, last⟩ := run.split
    have split : ops = before ++ op :: after := by rw [split, List.append_assoc, List.singleton_append]
    rw [show s₁ = s₀.step sb (op.on t) from last.single]
    exact (writtenThrough_iff sane (run_dataStep_sound sane sound earlier) (ih split earlier) op).mpr
      (durable before op after s₀ split earlier)

/-- From a loaded record, the cached record equals the record on disk after every request, and a
dropped record loads back unchanged, exactly when every request is durable. -/
theorem alwaysThrough_iff (sane : sb.Sane) {t : U32} {s : Store} (sound : Sound sb s)
    (loaded : WrittenThrough sb s t) (ops : List DataOp) :
    AlwaysThrough sb t s ops ↔ AlwaysDurable sb t s ops := by
  constructor
  · intro through before op after s₁ split run
    have now := (through before (op :: after) s₁ split run).1
    have next := (through (before ++ [op]) after _ (by rw [split, List.append_assoc,
      List.singleton_append]) (run.snoc rfl)).1
    exact (writtenThrough_iff sane (run_dataStep_sound sane sound run) now op).mp next
  · intro durable before after s₁ split run
    have through := through_of_durable sane sound loaded durable before split run
    exact ⟨through, by rw [reload_eq through], fun x => by rw [reload_eq through]⟩

/-- A store with one new file. -/
def oneFile : Store := run mkfsSuperBlock blank [.create inodeTypeData 0 0]

theorem oneFile_sound : Sound mkfsSuperBlock oneFile :=
  run_sound mkfsSuperBlock_sane ⟨blank_imaged _, (blocksOwned_iff _).mp fun _ _ _ image => nomatch image⟩ _

private theorem oneFile_writtenThrough : WrittenThrough mkfsSuperBlock oneFile 0 := by
  have number : (bitmapAllocInode mkfsSuperBlock blank.disk).1 = 0 := by decide +kernel
  have valid : (0 : U32) ≠ minusOne := by decide
  simp only [oneFile, run, List.foldl_cons, List.foldl_nil, step, number, if_neg valid, WrittenThrough,
    Function.update_self, inodeRead_inodeWrite]

/-- A byte written behind the first block makes a hole there; the next request is not durable. -/
theorem alwaysThrough_iff_oneFile :
    AlwaysThrough mkfsSuperBlock 0 oneFile [.write 4096 1 fun _ => 7] ↔
      AlwaysDurable mkfsSuperBlock 0 oneFile [.write 4096 1 fun _ => 7] :=
  alwaysThrough_iff mkfsSuperBlock_sane oneFile_sound oneFile_writtenThrough _

/-- Writing one byte at 4096 and reading byte 0 of a new file leaves a block in the cached record
that the record on disk does not have. -/
theorem sparse_read_lost : Sound mkfsSuperBlock oneFile ∧ WrittenThrough mkfsSuperBlock oneFile 0 ∧
    ¬AlwaysThrough mkfsSuperBlock 0 oneFile [.write 4096 1 fun _ => 7, .read 0 1 fun _ => 0] := by
  refine ⟨oneFile_sound, oneFile_writtenThrough, fun through => ?_⟩
  have agreed := (through _ [] _ (List.append_nil _).symm (Run.of_foldl _ _ _)).1
  have entries := congrArg (Option.map fun r => r.index.get 0) agreed
  revert entries
  decide +kernel

end Store

end LabKernel
