import LabKernel.Fs.Processes

/-! # Permissions of open files

`file_open` turns the mode into two permissions that every copy of the descriptor shares. The mask
that it tests for the write permission is `O_RDWR`, which contains the read bit, and the read
permission is withheld whenever the write bit is set. So a file opened for reading can be written,
and one opened for both cannot be read; the permissions follow the mode for files opened write-only
and for no others.
-/

namespace LabKernel

/-! ## Transfers move at most what was asked for -/

private theorem chunkLen_le (cur stop : ℕ) : chunkLen cur stop ≤ stop - cur := min_le_right ..

private theorem readLoop_count_le (sb : SuperBlock) (stop : ℕ) : ∀ fuel cur (t : Transfer),
    (readLoop sb stop fuel cur t).count ≤ t.count + (stop - cur) := by
  intro fuel
  induction fuel with
  | zero => exact fun _ _ => Nat.le_add_right ..
  | succ fuel ih =>
    intro cur t
    unfold readLoop
    split
    · dsimp only
      split
      · exact Nat.le_add_right ..
      · refine (ih _ _).trans ?_
        have := chunkLen_le cur stop
        dsimp only
        omega
    · exact Nat.le_add_right ..

private theorem writeLoop_count_le (sb : SuperBlock) (src : Bytes) (stop : ℕ) : ∀ fuel cur (t : Transfer),
    (writeLoop sb src stop fuel cur t).count ≤ t.count + (stop - cur) := by
  intro fuel
  induction fuel with
  | zero => exact fun _ _ => Nat.le_add_right ..
  | succ fuel ih =>
    intro cur t
    unfold writeLoop
    split
    · dsimp only
      split
      · exact Nat.le_add_right ..
      · refine (ih _ _).trans ?_
        have := chunkLen_le cur stop
        dsimp only
        omega
    · exact Nat.le_add_right ..

private theorem span_le (offset len : U32) : (offset + len).toNat - offset.toNat ≤ len.toNat := by
  rw [BitVec.toNat_add]
  have := Nat.mod_le (offset.toNat + len.toNat) (2 ^ 32)
  omega

private theorem inodeReadData_count_le (sb : SuperBlock) (info : InodeDisk) (offset len : U32) (dst : Bytes)
    (d : Disk) : (inodeReadData sb info offset len dst d).1.toNat ≤ len.toNat := by
  unfold inodeReadData
  dsimp only
  split
  · exact Nat.zero_le _
  · have span := span_le offset len
    have count := readLoop_count_le sb (min (offset + len).toNat info.size.toNat)
      (min (offset + len).toNat info.size.toNat - offset.toNat) offset.toNat ⟨0, info.index, dst, d⟩
    dsimp only at count ⊢
    rw [BitVec.toNat_ofNat]
    refine (Nat.mod_le _ _).trans (count.trans ?_)
    omega

private theorem inodeWriteData_count_le (sb : SuperBlock) (inodeNum : U32) (info : InodeDisk)
    (offset len : U32) (src : Bytes) (d : Disk) :
    (inodeWriteData sb inodeNum info offset len src d).1.toNat ≤ len.toNat := by
  have count := writeLoop_count_le sb src (offset + len).toNat
    ((offset + len).toNat - offset.toNat) offset.toNat ⟨0, info.index, src, d⟩
  have span := span_le offset len
  have le : ∀ n : ℕ, n ≤ 0 + ((offset + len).toNat - offset.toNat) →
      (BitVec.ofNat 32 n).toNat ≤ len.toNat := by
    intro n bound
    rw [BitVec.toNat_ofNat]
    refine (Nat.mod_le _ _).trans ?_
    omega
  unfold inodeWriteData
  dsimp only
  split <;> exact le _ count

private theorem consRead_le : ∀ len typed n, consRead len typed = some n → n ≤ len := by
  intro len
  induction len with
  | zero =>
    rintro typed n ⟨⟩
    exact le_refl 0
  | succ len ih =>
    intro typed n result
    cases typed with
    | nil => cases result
    | cons c typed =>
      rw [consRead] at result
      split at result
      · cases result
        omega
      · obtain ⟨m, rest, rfl⟩ := Option.map_eq_some_iff.mp result
        exact Nat.succ_le_succ (ih typed m rest)

/-- A count within a length other than -1 is not -1. -/
theorem ne_minusOne_of_le {n len : U32} (le : n.toNat ≤ len.toNat) (other : len ≠ minusOne) :
    n ≠ minusOne := by
  rintro rfl
  refine other (BitVec.eq_of_toNat_eq ?_)
  have bound := len.isLt
  have top : (minusOne : U32).toNat = 2 ^ 32 - 1 := rfl
  omega

/-! ## What a file permits -/

variable (cfg : FsConfig)

/-- No write through the file is refused. -/
def WriteAllowed (s : FsState) (f : ℕ) : Prop :=
  ∀ len src, len ≠ minusOne → Returns (Fs.fileWrite cfg f len src) s fun n _ => n ≠ minusOne

/-- No read through the file is refused. -/
def ReadAllowed (s : FsState) (f : ℕ) : Prop :=
  ∀ len typed, len ≠ minusOne → Returns (Fs.fileRead cfg f len typed) s fun r _ => r.1 ≠ minusOne

private theorem writeAllowed_iff (s : FsState) (f : ℕ) :
    WriteAllowed cfg s f ↔ (s.fileTable f).writable = true := by
  constructor
  · intro allowed
    by_contra refused
    rw [Bool.not_eq_true] at refused
    have zero := allowed 0 (fun _ => 0) (by decide)
    simp [Fs.fileWrite, refused] at zero
  · intro writable len src other
    rw [Fs.fileWrite, Returns.bind_iff, Returns.get_iff]
    dsimp only
    rw [if_neg (by simp [writable]), Returns.bind_iff]
    intro ip s1 _
    simp only [Fs.diskInfo, Returns.bind_iff, Returns.get_iff, Returns.pure_iff]
    intro _ s2 _
    refine .ite (fun _ => ?_) fun _ => ?_
    · unfold Fs.deviceWriteData
      refine .ite (fun _ => ?_) fun _ => ?_
      · rw [Returns.pure_iff]
        exact other
      · rw [Returns.pure_iff]
        decide
    · simp only [Returns.bind_iff]
      intro _ s3 _
      simp only [Fs.inodeWriteData, Returns.bind_iff, Returns.get_iff, Returns.set_iff, Returns.pure_iff,
        Returns.modify_iff]
      intro _ _ _
      exact ne_minusOne_of_le (inodeWriteData_count_le ..) other

private theorem readAllowed_iff (s : FsState) (f : ℕ) :
    ReadAllowed cfg s f ↔ (s.fileTable f).readable = true := by
  constructor
  · intro allowed
    by_contra refused
    rw [Bool.not_eq_true] at refused
    have zero := allowed 0 [] (by decide)
    simp [Fs.fileRead, refused] at zero
  · intro readable len typed other
    rw [Fs.fileRead, Returns.bind_iff, Returns.get_iff]
    dsimp only
    rw [if_neg (by simp [readable]), Returns.bind_iff]
    intro ip s1 _
    simp only [Fs.diskInfo, Returns.bind_iff, Returns.get_iff, Returns.pure_iff]
    intro _ s2 _
    refine .ite (fun _ => ?_) fun _ => ?_
    · unfold Fs.deviceReadData
      rw [Returns.bind_iff]
      refine .ite (fun _ => ?_) fun _ => .ite (fun _ => ?_) fun _ => ?_
      · split
        · rename_i n result
          simp only [Returns.pure_iff]
          have le := consRead_le _ _ _ result
          refine ne_minusOne_of_le ?_ other
          rw [BitVec.toNat_ofNat]
          exact (Nat.mod_le _ _).trans le
        · simp
      · simpa using other
      · simp only [Returns.pure_iff]
        decide
    · simp only [Returns.bind_iff]
      intro _ s3 _
      simp only [Fs.inodeReadData, Returns.bind_iff, Returns.get_iff, Returns.set_iff, Returns.pure_iff,
        Returns.modify_iff]
      intro _ _ _
      exact ne_minusOne_of_le (inodeReadData_count_le ..) other

/-- Writing is allowed if the mode has the write bit, and reading if it has the read bit, and
otherwise not. -/
def ObeysMode (s : FsState) (f : ℕ) : Prop :=
  (WriteAllowed cfg s f ↔ (s.fileTable f).mode &&& openWrite ≠ 0) ∧
    (ReadAllowed cfg s f ↔ (s.fileTable f).mode &&& openRead ≠ 0)

/-- The two masks of `file_open` pick the bits of the mode when only the write bit is set. -/
theorem masks_iff (mode : U32) : ((mode &&& openReadWrite ≠ 0 ↔ mode &&& openWrite ≠ 0) ∧
    (mode &&& openWrite = 0 ↔ mode &&& openRead ≠ 0)) ↔ mode &&& openReadWrite = openWrite := by
  have write : mode &&& openWrite = mode &&& openReadWrite &&& openWrite := by
    rw [BitVec.and_assoc]
    rfl
  have read : mode &&& openRead = mode &&& openReadWrite &&& openRead := by
    rw [BitVec.and_assoc]
    rfl
  have few : ∃ n < 4, mode &&& openReadWrite = BitVec.ofNat 32 n := by
    refine ⟨(mode &&& openReadWrite).toNat, ?_, (BitVec.ofNat_toNat ..).symm ▸ by simp⟩
    have low : (mode &&& openReadWrite).toNat ≤ openReadWrite.toNat := by
      rw [BitVec.toNat_and]
      exact Nat.and_le_right
    exact Nat.lt_succ_of_le low
  obtain ⟨n, bound, bits⟩ := few
  rw [write, read, bits]
  interval_cases n <;> decide

private theorem obeysMode_iff_of_moded {s : FsState} {f : ℕ} (moded : (s.fileTable f).Moded) :
    ObeysMode cfg s f ↔ (s.fileTable f).mode &&& openReadWrite = openWrite := by
  rw [ObeysMode, writeAllowed_iff, readAllowed_iff, moded.1, moded.2, decide_eq_true_eq,
    decide_eq_true_eq, masks_iff]

/-- In every state that calls of all processes reach, a file behind a descriptor obeys the mode it was
opened with exactly if that mode has the write bit and not the read bit. -/
theorem obeysMode_iff {cfg : FsConfig} {disk : Disk} {calls : List (ℕ × Call)} {s : FsState}
    (run : Run (FsStep cfg) (FsState.init disk) calls s) {p fd f : ℕ}
    (opened : (s.procPool p).openFile fd = some f) :
    ObeysMode cfg s f ↔ (s.fileTable f).mode &&& openReadWrite = openWrite :=
  obeysMode_iff_of_moded cfg ((run_settled run).opened p fd f opened).2

/-- A file created and opened for writing only obeys its mode. -/
theorem obeysMode_writeOnly : ∃ t f, Run (FsStep ⟨mkfsSuperBlock, false⟩) (FsState.init Mkfs.disk)
      [(0, .open [0x2F, 0x78] (openCreate ||| openWrite) fun _ => 0)] t ∧
    (t.procPool 0).openFile 0 = some f ∧ (ObeysMode ⟨mkfsSuperBlock, false⟩ t f ↔
      (t.fileTable f).mode &&& openReadWrite = openWrite) ∧
    (t.fileTable f).mode &&& openReadWrite = openWrite := by
  obtain ⟨t, run, passes⟩ := exists_run ⟨mkfsSuperBlock, false⟩
    [(0, .open [0x2F, 0x78] (openCreate ||| openWrite) fun _ => 0)] (FsState.init Mkfs.disk)
    (fun t => ((t.procPool 0).openFile 0).any fun f =>
      (t.fileTable f).mode &&& openReadWrite == openWrite) (by decide +kernel)
  obtain ⟨f, opened, mode⟩ := (Option.any_eq_true ..).mp passes
  exact ⟨t, f, run, opened, obeysMode_iff run opened, by simpa using mode⟩

/-- A file that was opened read-only takes a byte. -/
theorem readOnly_written : ∃ t t' f, Run (FsStep ⟨mkfsSuperBlock, false⟩) (FsState.init Mkfs.disk)
      [(0, .open [0x2F, 0x78] (openCreate ||| openWrite) fun _ => 0),
        (0, .open [0x2F, 0x78] openRead fun _ => 0)] t ∧
    (t.procPool 0).openFile 1 = some f ∧ (t.fileTable f).mode = openRead ∧
    Fs.fileWrite ⟨mkfsSuperBlock, false⟩ f 1 (fun _ => 0x41) t = .ok 1 t' ∧
    ¬ObeysMode ⟨mkfsSuperBlock, false⟩ t f := by
  obtain ⟨t, run, passes⟩ := exists_run ⟨mkfsSuperBlock, false⟩
    [(0, .open [0x2F, 0x78] (openCreate ||| openWrite) fun _ => 0),
      (0, .open [0x2F, 0x78] openRead fun _ => 0)] (FsState.init Mkfs.disk)
    (fun t => ((t.procPool 0).openFile 1).any fun f => (t.fileTable f).mode == openRead &&
      (t.fileTable f).writable &&
      match Fs.fileWrite ⟨mkfsSuperBlock, false⟩ f 1 (fun _ => 0x41) t with
      | .ok n _ => n == 1
      | .error _ _ => false) (by decide +kernel)
  obtain ⟨f, opened, tested⟩ := (Option.any_eq_true ..).mp passes
  simp only [Bool.and_eq_true, beq_iff_eq] at tested
  obtain ⟨⟨mode, writable⟩, wrote⟩ := tested
  split at wrote
  · rename_i n t' result
    obtain rfl : n = 1 := by simpa using wrote
    refine ⟨t, t', f, run, opened, mode, result, fun obeys => ?_⟩
    have write := obeys.1.mp ((writeAllowed_iff _ t f).mpr writable)
    rw [mode] at write
    exact absurd write (by decide)
  · cases wrote

end LabKernel
