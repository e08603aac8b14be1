import LabKernel.Fs.Built

/-! # Sparse writes

A write behind the end of a file makes the bytes up to its offset a part of the file without writing them.
No request of the kernel changes these bytes before, so on a file from the image they are what `mkfs` left
there. They are zero but for the last block, where an append that entered this block from the one before it
left bytes of that one.
-/

namespace LabKernel

open BlockTrees

variable {sb : SuperBlock}

namespace Store

/-- The file of inode `t` has at least `size` bytes, and behind its end there is `tail`. -/
structure Behind (sb : SuperBlock) (t : U32) (size : ℕ) (tail : ℕ → U8) (s : Store) : Prop where
  sound : Sound sb s
  bytes : ∃ info, s.image t = some info ∧ size ≤ info.size.toNat ∧
    ∀ x < 2 ^ 32, info.size.toNat ≤ x → s.trees.fileByte t x = tail x

/-- Reads of inode `t` return zero for the bytes from `low` to `high`. -/
def ReadsZero (sb : SuperBlock) (s : Store) (t : U32) (low high : ℕ) : Prop :=
  ∀ info, s.image t = some info → ∀ offset len dst,
    let r := inodeReadData sb info offset len dst s.disk
    ∀ i < r.1.toNat, low ≤ offset.toNat + i → offset.toNat + i < high → r.2.2.1 i = 0

/-! ## Requests on other inodes -/

private theorem create_kept (sane : sb.Sane) {s : Store} (sound : Sound sb s) {t : U32} {info : InodeDisk}
    (image : s.image t = some info) (type major minor : U16) :
    (s.step sb (.create type major minor)).image t = some info ∧
      ∀ x < 2 ^ 32, (s.step sb (.create type major minor)).trees.fileByte t x = s.trees.fileByte t x := by
  obtain ⟨u, inside, free, valid, alloc⟩ | full := bitmapAllocInode_spec sane s.disk
  · have other : t ≠ u := by
      rintro rfl
      have taken := ((sound.imaged t).mp (by rw [image]; rfl)).2
      rw [free] at taken
      cases taken
    have step : s.step sb (.create type major minor) =
        ⟨inodeWrite sb u (newInode type major minor) (s.disk.setBitAt sb.inodeBitmapFirstblock u.toNat),
          Function.update s.image u (some (newInode type major minor))⟩ := by
      simp only [Store.step, alloc, if_neg valid]
    have image' : (s.step sb (.create type major minor)).image t = some info := by
      rw [step]
      exact (Function.update_of_ne other ..).trans image
    refine ⟨image', fun x bound => fileByte_data sound.owned ?_ (fun b data => ?_) bound⟩
    · rw [trees_index image', trees_index image]
    · have bit := inodeBitmap_low sane inside
      have record := inodeBlock_low sane inside
      have area := sane.dataBitmapEnd
      rw [step]
      exact (inodeWrite_other (by omega) ..).trans (Disk.setBitAt_other (by omega))
  · have step : s.step sb (.create type major minor) = s := by
      simp only [Store.step, full, if_true]
    rw [step]
    exact ⟨image, fun _ _ => rfl⟩

private theorem delete_kept (sane : sb.Sane) {s : Store} (sound : Sound sb s) {t u : U32} {info : InodeDisk}
    (image : s.image t = some info) (other : t ≠ u) :
    (s.step sb (.delete u)).image t = some info ∧
      ∀ x < 2 ^ 32, (s.step sb (.delete u)).trees.fileByte t x = s.trees.fileByte t x := by
  cases gone : s.image u with
  | none =>
    have step : s.step sb (.delete u) = s := by simp only [Store.step, gone]
    rw [step]
    exact ⟨image, fun _ _ => rfl⟩
  | some info' =>
    have inside := inside_of_image sound gone
    have freed := freeDataBlocks_freed sane sound.owned u
    rw [trees_index gone] at freed
    have step : s.step sb (.delete u) =
        ⟨(inodeDelete sb u info' s.disk).2, Function.update s.image u none⟩ := by
      simp only [Store.step, gone]
    have image' : (s.step sb (.delete u)).image t = some info := by
      rw [step]
      exact (Function.update_of_ne other ..).trans image
    refine ⟨image', fun x bound => fileByte_data sound.owned ?_ (fun b data => ?_) bound⟩
    · rw [trees_index image', trees_index image]
    · have bit := inodeBitmap_low sane inside
      have record := inodeBlock_low sane inside
      have area := sane.dataBitmapEnd
      have bitmap : b ≠ sb.inodeBitmapFirstblock + u.toNat / bitPerBlock := by omega
      rw [step]
      exact ((Disk.clearBitAt_other bitmap).trans (inodeWrite_other (by omega) ..)).trans
        (freed.other b (.inr data))

/-! ## Bytes behind the end of a file -/

/-- A read changes no byte and no size. -/
theorem read_kept (sane : sb.Sane) {s : Store} (sound : Sound sb s) {t u : U32} {info : InodeDisk}
    (image : s.image t = some info) (offset len : U32) (dst : Bytes) :
    (∃ info', (s.step sb (.read u offset len dst)).image t = some info' ∧ info'.size = info.size) ∧
      ∀ x < 2 ^ 32, (s.step sb (.read u offset len dst)).trees.fileByte t x = s.trees.fileByte t x := by
  cases there : s.image u with
  | none =>
    have step : s.step sb (.read u offset len dst) = s := by simp only [Store.step, there]
    rw [step]
    exact ⟨⟨info, image, rfl⟩, fun _ _ => rfl⟩
  | some info₁ =>
    obtain ⟨m, passes, -, record, -⟩ := inodeReadData_spec sane sound.owned (trees_index there).symm offset len dst
    rw [trees_disk] at passes record
    have trees : (s.step sb (.read u offset len dst)).trees = s.trees.put u
        (inodeReadData sb info₁ offset len dst s.disk).2.1.index
        (inodeReadData sb info₁ offset len dst s.disk).2.2.2 := by
      simp only [Store.step, there, trees_update]
    constructor
    · simp only [Store.step, there]
      rcases eq_or_ne t u with rfl | other
      · obtain rfl : info₁ = info := Option.some.inj (there.symm.trans image)
        exact ⟨_, Function.update_self .., by rw [record]⟩
      · exact ⟨info, (Function.update_of_ne other ..).trans image, rfl⟩
    · intro x bound
      rw [trees, fileByte, fileByte, passes.content_reading sane t (block_bound (Nat.le_refl _) bound)]

namespace Behind

variable {t : U32} {size : ℕ} {tail : ℕ → U8} {s : Store}

/-- No request changes what is behind the end of a file, but for its deletion. -/
theorem step (sane : sb.Sane) (behind : Behind sb t size tail s) {op : InodeOp} (kept : op ≠ .delete t) :
    Behind sb t size tail (s.step sb op) := by
  refine ⟨step_sound sane behind.sound op, ?_⟩
  obtain ⟨info, image, grown, bytes⟩ := behind.bytes
  cases op with
  | create type major minor =>
    obtain ⟨image', same⟩ := create_kept sane behind.sound image type major minor
    exact ⟨info, image', grown, fun x bound past => (same x bound).trans (bytes x bound past)⟩
  | delete u =>
    have other : t ≠ u := fun same => kept (same ▸ rfl)
    obtain ⟨image', same⟩ := delete_kept sane behind.sound image other
    exact ⟨info, image', grown, fun x bound past => (same x bound).trans (bytes x bound past)⟩
  | read u offset len dst =>
    obtain ⟨⟨info', image', equal⟩, same⟩ := read_kept (u := u) sane behind.sound image offset len dst
    refine ⟨info', image', by rwa [equal], fun x bound past => ?_⟩
    rw [equal] at past
    exact (same x bound).trans (bytes x bound past)
  | write u offset len src =>
    cases there : s.image u with
    | none =>
      simp only [Store.step, there]
      exact ⟨info, image, grown, bytes⟩
    | some info₁ =>
      obtain ⟨k, -, -, info', images, length, written⟩ :=
        write_bytes sane behind.sound there offset len src
      rcases eq_or_ne t u with rfl | other
      · obtain rfl : info₁ = info := Option.some.inj (there.symm.trans image)
        have longer : info₁.size.toNat ≤ info'.size.toNat := by
          rw [length]
          split_ifs <;> omega
        refine ⟨info', by rw [images, Function.update_self], grown.trans longer, fun x bound past => ?_⟩
        rw [written t x bound, if_neg]
        · exact bytes x bound (longer.trans past)
        · rintro ⟨-, low, high⟩
          rw [length, if_pos (by omega)] at past
          omega
      · refine ⟨info, by rw [images, Function.update_of_ne other, image], grown, fun x bound past => ?_⟩
        rw [written t x bound, if_neg fun both => other both.1]
        exact bytes x bound past

private theorem run (sane : sb.Sane) (behind : Behind sb t size tail s) {ops : List InodeOp}
    (kept : .delete t ∉ ops) : Behind sb t size tail (run sb s ops) := by
  induction ops generalizing s with
  | nil => exact behind
  | cons op ops ih =>
    obtain ⟨first, rest⟩ := not_or.mp (List.mem_cons.not.mp kept)
    exact ih (behind.step sane (Ne.symm first)) rest

end Behind

/-! ## What reads return -/

/-- A block that is there needs no free block. -/
theorem missing_path {s : BlockTrees} {t : U32} {q : Place} (filled : s.block t q ≠ 0) :
    s.missing t q.path = 0 := by
  rw [missing, Finset.card_eq_zero, Finset.filter_eq_empty_iff]
  exact fun p member => block_path (List.mem_toFinset.mp member) filled

private theorem readsZero_iff (sane : sb.Sane) {s : Store} (sound : Sound sb s) {t : U32} {info : InodeDisk}
    (image : s.image t = some info) (low high : ℕ) :
    ReadsZero sb s t low high ↔ info.type ≠ inodeTypeData ∧ info.type ≠ inodeTypeDir ∨
      ∀ x, low ≤ x → x < high → x < info.size.toNat → s.trees.fileByte t x = 0 := by
  constructor
  · intro zero
    by_cases device : info.type ≠ inodeTypeData ∧ info.type ≠ inodeTypeDir
    · exact .inl device
    refine .inr fun x above below inside => ?_
    by_contra byte
    have small := info.size.isLt
    have number : (BitVec.ofNat 32 x).toNat = x := by
      rw [BitVec.toNat_ofNat, Nat.mod_eq_of_lt (by omega)]
    -- a byte that is not zero is read alone, since its block is there
    obtain ⟨m, passes, count, -, buffer⟩ := inodeReadData_spec sane sound.owned (trees_index image).symm
      (BitVec.ofNat 32 x) 1 fun _ => 0
    rw [trees_disk] at count buffer
    have stop : readStop info (BitVec.ofNat 32 x) 1 = x + 1 := by
      rw [readStop, if_neg device, BitVec.toNat_add, number, show (1 : U32).toNat = 1 from rfl,
        Nat.mod_eq_of_lt (by omega), Nat.min_eq_left (by omega)]
    rw [stop, number] at passes
    rw [number] at buffer
    have filled : s.trees.block t (leafPlace (x / blockSize)) ≠ 0 := by
      intro empty
      rw [fileByte, BlockTrees.content, if_pos empty] at byte
      exact byte rfl
    have reached : 0 < m := by
      have reach := (passes.reach sane (by omega) (handles_reading t _) sound.owned (Nat.le_refl x)
        (Nat.lt_succ_self x)).mpr
      have one : x + 1 ≤ x + (blockSize - x % blockSize) := by
        simp only [blockSize]
        omega
      rw [places_one (Nat.lt_succ_self x) one, missing_path filled] at reach
      have := reach (Nat.zero_le _)
      omega
    have read := zero info image (BitVec.ofNat 32 x) 1 (fun _ => 0) 0 (by rwa [count]) (by rwa [number])
      (by rwa [number])
    rw [buffer, Bytes.blit_inside (Nat.le_refl _) (by rwa [Nat.zero_add])] at read
    exact byte read
  · intro zero info' image' offset len dst r i inside above below
    obtain rfl : info = info' := Option.some.inj (image.symm.trans image')
    obtain ⟨m, passes, count, -, buffer⟩ := inodeReadData_spec sane sound.owned (trees_index image).symm
      offset len dst
    rw [trees_disk] at count buffer
    have short := passes.count_le
    change i < (inodeReadData sb info offset len dst s.disk).1.toNat at inside
    rw [count] at inside
    change (inodeReadData sb info offset len dst s.disk).2.2.1 i = 0
    rw [buffer, Bytes.blit_inside (Nat.zero_le i) (by omega), Nat.sub_zero]
    rw [readStop] at short
    split_ifs at short with device
    · omega
    · exact zero.resolve_left device _ above below (by omega)

/-- Behind the end of a file, a write that moves a byte makes it grow. -/
theorem write_some_iff (sane : sb.Sane) {s : Store} (sound : Sound sb s) {t : U32} {info : InodeDisk}
    (image : s.image t = some info) {offset : U32} (len : U32) (src : Bytes)
    (beyond : info.size.toNat < offset.toNat) :
    0 < (inodeWriteData sb t info offset len src s.disk).1.toNat ↔
      Grows sb s t info offset.toNat (offset + len).toNat := by
  have limit : (offset + len).toNat ≤ 2 ^ 32 := Nat.le_of_lt (offset + len).isLt
  have handles := handles_writing sane t src offset.toNat limit
  obtain ⟨m, s₁, passes, count, -, -⟩ := inodeWriteData_spec sane sound.owned (trees_index image).symm
    offset len src
  rw [trees_disk] at count
  rw [count, Grows, Nat.max_eq_left (Nat.le_of_lt beyond)]
  have short := passes.count_le
  by_cases more : offset.toNat < (offset + len).toNat
  · rw [← passes.reach sane limit handles sound.owned (Nat.le_refl _) more]
    omega
  · exact iff_of_false (by omega) fun both => more both.1

/-- After a write behind the end of a file, the bytes in between are those that were behind its end. -/
theorem readsZero_write_iff (sane : sb.Sane) {s : Store} {t : U32} {size : ℕ} {tail : ℕ → U8}
    (behind : Behind sb t size tail s) {info : InodeDisk} (image : s.image t = some info) {offset : U32}
    (len : U32) (src : Bytes) (beyond : info.size.toNat < offset.toNat) :
    ReadsZero sb (s.step sb (.write t offset len src)) t info.size.toNat offset.toNat ↔
      (info.type ≠ inodeTypeData ∧ info.type ≠ inodeTypeDir) ∨
        ¬Grows sb s t info offset.toNat (offset + len).toNat ∨
        ∀ x, info.size.toNat ≤ x → x < offset.toNat → tail x = 0 := by
  have sound := behind.sound
  obtain ⟨info₁, image₁, -, bytes⟩ := behind.bytes
  obtain rfl : info₁ = info := Option.some.inj (image₁.symm.trans image)
  have moves := write_some_iff sane sound image len src beyond
  obtain ⟨k, -, count, info', images, length, written⟩ := write_bytes sane sound image offset len src
  have own : (s.step sb (.write t offset len src)).image t = some info' := by
    rw [images, Function.update_self]
  have type : info'.type = info₁.type := by
    obtain ⟨m, s₁, -, -, record, -⟩ := inodeWriteData_spec sane sound.owned (trees_index image).symm
      offset len src
    rw [trees_disk] at record
    simp only [Store.step, image, Function.update_self, Option.some.injEq] at own
    rw [← own, record, grownRecord]
  have small := offset.isLt
  rw [readsZero_iff sane (step_sound sane sound _) own, type]
  refine or_congr_right ?_
  rw [count] at moves
  by_cases grows : 0 < k
  · rw [if_pos grows] at length
    rw [or_iff_right (not_not.mpr (moves.mp grows))]
    refine forall₃_congr fun x above below => ?_
    rw [written t x (by omega), if_neg (by omega), bytes x (by omega) above]
    exact ⟨fun zero => zero (by omega), fun zero _ => zero⟩
  · rw [if_neg grows] at length
    refine iff_of_true (fun x above _ inside => ?_) (.inl (moves.not.mp grows))
    omega

end Store

namespace Mkfs

/-- Byte `x` behind the end of a built file is zero: it lies behind the last block, or an append began
where this block begins, or the byte one block before is zero. -/
def Clean (chunks : List (List U8)) (x : ℕ) : Prop :=
  let text := chunks.flatten
  let last := (text.length - 1) / blockSize
  x / blockSize = last → last * blockSize ∈ Scratch.begins chunks ∨ text.getD (x - blockSize) 0 = 0

/-- What `mkfs` left behind the end of a file is there as long as the file is. -/
theorem Built.behind {s : State} {chunks : ℕ → List (List U8)} (built : Built chunks s) {t : U32}
    (created : t.toNat < s.globalInodeNum) {ops : List InodeOp} (kept : .delete t ∉ ops) :
    Store.Behind mkfsSuperBlock t (chunks t.toNat).flatten.length (Scratch.written blockSize (chunks t.toNat))
      (Store.run mkfsSuperBlock (diskStore mkfsSuperBlock (finish s)) ops) := by
  refine Store.Behind.run mkfsSuperBlock_sane ⟨built.sound, _, (built.image t).trans (if_pos created), ?_, ?_⟩ kept
  · rw [built.size]
  · exact fun x bound _ => built.fileByte t bound

/-- On any image, after any requests of the kernel other than the deletion of inode `t`, a write to it behind
its end leaves zeros before its offset exactly when the inode is a device, the write moves no byte, or all
these bytes are clean. -/
theorem sparse_zero_iff {calls : List Call} {s : State}
    (build : Run (Guarded Fits fun s c s' => s' = step s c) .init calls s) {t : U32}
    (created : t.toNat < s.globalInodeNum) {ops : List InodeOp} (kept : .delete t ∉ ops) {st : Store}
    (reached : Store.run mkfsSuperBlock (diskStore mkfsSuperBlock (finish s)) ops = st) {info : InodeDisk}
    (image : st.image t = some info) (offset len : U32) (src : Bytes)
    (beyond : info.size.toNat < offset.toNat) :
    Store.ReadsZero mkfsSuperBlock (st.step mkfsSuperBlock (.write t offset len src)) t info.size.toNat
        offset.toNat ↔
      (info.type ≠ inodeTypeData ∧ info.type ≠ inodeTypeDir) ∨
        ¬Store.Grows mkfsSuperBlock st t info offset.toNat (offset + len).toNat ∨
        ∀ x, info.size.toNat ≤ x → x < offset.toNat → Clean (calls.flatMap (appended t.toNat)) x := by
  have behind := (built_of_run build).behind created kept
  rw [reached] at behind
  obtain ⟨info₁, image₁, grown, -⟩ := behind.bytes
  obtain rfl : info₁ = info := Option.some.inj (image₁.symm.trans image)
  rw [Store.readsZero_write_iff mkfsSuperBlock_sane behind image len src beyond]
  refine or_congr_right (or_congr_right (forall₃_congr fun x above _ => ?_))
  exact Scratch.written_eq_zero_iff (grown.trans above)

/-- A file of 5000 letters, in one append -/
def letters : List Call := [.create inodeTypeData 1 1, .append 0 (fun _ => 0x61) 5000]

private theorem letters_run : Run (Guarded Fits fun s c s' => s' = step s c) .init letters (letters.foldl step .init) :=
  .cons ⟨show 0 < 65536 by decide, rfl⟩ (.cons ⟨⟨_, rfl, by decide, by decide⟩, rfl⟩ (.nil _))

/-- A byte written at 5001 -/
theorem sparse_zero_iff_letters :
    let s := letters.foldl step .init
    let st := diskStore mkfsSuperBlock (finish s)
    Store.ReadsZero mkfsSuperBlock (st.step mkfsSuperBlock (.write 0 5001 1 fun _ => 0x62)) 0 5000 5001 ↔
      ((s.row 0).type ≠ inodeTypeData ∧ (s.row 0).type ≠ inodeTypeDir) ∨
        ¬Store.Grows mkfsSuperBlock st 0 (s.row 0) 5001 5002 ∨
        ∀ x, 5000 ≤ x → x < 5001 → Clean (letters.flatMap (appended 0)) x :=
  @sparse_zero_iff letters _ letters_run 0 (by decide) [] List.not_mem_nil _ rfl _
    (((built_of_run letters_run).image 0).trans (if_pos (by decide))) 5001 1 (fun _ => 0x62) (by decide)

/-- The byte before it is a letter. -/
theorem sparse_not_zero :
    let st := diskStore mkfsSuperBlock (finish (letters.foldl step .init))
    ¬Store.ReadsZero mkfsSuperBlock (st.step mkfsSuperBlock (.write 0 5001 1 fun _ => 0x62)) 0 5000 5001 := by
  intro st zero
  have read : ((st.step mkfsSuperBlock (.write 0 5001 1 fun _ => 0x62)).image 0).map (fun info =>
      let r := inodeReadData mkfsSuperBlock info 5000 1 (fun _ => 0)
        (st.step mkfsSuperBlock (.write 0 5001 1 fun _ => 0x62)).disk
      (r.1, r.2.2.1 0)) = some (1, 0x61) := by decide +kernel
  obtain ⟨info, image, result⟩ := Option.map_eq_some_iff.mp read
  obtain ⟨count, byte⟩ := Prod.mk.inj result
  have none := zero info image 5000 1 (fun _ => 0) 0 (by rw [count]; decide) (by decide) (by decide)
  rw [byte] at none
  exact absurd none (by decide)

end Mkfs

end LabKernel
