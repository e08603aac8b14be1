import LabKernel.Fs.Durability

/-! # Files as byte strings

What the two data requests mean to a user of a file. The content of an inode is the string of its
first `size` bytes, where a hole reads as zeros. A write overlays it with the bytes it accepted and
leaves every other file alone; a read returns a part of it and changes no file.
-/

namespace LabKernel

open BlockTrees

/-- `old` with `data` written from `offset` on; a gap before `offset` is filled with zeros. -/
def overlay (old : List U8) (offset : ℕ) (data : List U8) : List U8 :=
  if data = [] then old
  else (List.range (max old.length (offset + data.length))).map fun x =>
    if offset ≤ x ∧ x < offset + data.length then data.getD (x - offset) 0 else old.getD x 0

def Bytes.take (b : Bytes) (n : ℕ) : List U8 := (List.range n).map b

@[simp] theorem Bytes.length_take (b : Bytes) (n : ℕ) : (b.take n).length = n := by
  simp [Bytes.take]

theorem Bytes.getD_take (b : Bytes) (n x : ℕ) : (b.take n).getD x 0 = if x < n then b x else 0 := by
  simp only [Bytes.take, List.getD_eq_getElem?_getD, List.getElem?_map]
  split
  · rw [List.getElem?_range ‹_›]
    rfl
  · rw [List.getElem?_eq_none (by simpa using ‹¬x < n›)]
    rfl

private theorem Bytes.take_congr {b c : Bytes} {n : ℕ} (same : ∀ x < n, b x = c x) : b.take n = c.take n :=
  List.map_congr_left fun x member => same x (List.mem_range.mp member)

private theorem Bytes.take_overlay {b c src : Bytes} {size offset k : ℕ} (some : 0 < k)
    (written : ∀ x < max size (offset + k), c x =
      if offset ≤ x ∧ x < offset + k then src (x - offset) else if x < size then b x else 0) :
    c.take (max size (offset + k)) = overlay (b.take size) offset (src.take k) := by
  have filled : src.take k ≠ [] := by
    rw [← List.length_pos_iff]
    simpa using some
  rw [overlay, if_neg filled, Bytes.length_take, Bytes.length_take]
  refine List.map_congr_left fun x member => ?_
  rw [written x (List.mem_range.mp member), Bytes.getD_take, Bytes.getD_take]
  split
  · rw [if_pos (by omega)]
  · rfl

namespace Store

variable {sb : SuperBlock}

/-- The content of an inode with a record. -/
def content (s : Store) (t : U32) : Option (List U8) :=
  (s.image t).map fun info => Bytes.take (s.trees.fileByte t) info.size.toNat

/-- Bytes of blocks past the end of a file are zero. -/
def CleanTails (s : Store) : Prop :=
  ∀ t info, s.image t = some info → ∀ x < 2 ^ 32, info.size.toNat ≤ x → s.trees.fileByte t x = 0

private theorem content_image {s : Store} {t : U32} {info : InodeDisk} (image : s.image t = some info) :
    s.content t = some (Bytes.take (s.trees.fileByte t) info.size.toNat) := by
  simp [content, image]

/-- Bytes that agree give the same content and keep the tails clean. -/
theorem content_congr {s s' : Store} {t : U32} (image : s'.image t = s.image t)
    (bytes : ∀ x < 2 ^ 32, s'.trees.fileByte t x = s.trees.fileByte t x) :
    s'.content t = s.content t := by
  rw [content, content, image]
  cases s.image t with
  | none => rfl
  | some info =>
    have bound := info.size.isLt
    exact congrArg some (Bytes.take_congr fun x inside => bytes x (by omega))

/-- The record write at the end of a growing write changes no byte of a file. -/
theorem fileByte_inodeWrite (sane : sb.Sane) {s : BlockTrees} (owned : Owned sb s) {t : U32}
    (inside : t.toNat < sb.totalInodes) (info : InodeDisk) (u : U32) {x : ℕ} (bound : x < 2 ^ 32) :
    fileByte ⟨s.index, inodeWrite sb t info s.disk⟩ u x = s.fileByte u x :=
  congrFun (content_writeLow sane owned (inodeBlock_low sane inside) _ u
    (block_bound (Nat.le_refl _) bound)) _

/-- What a write does to the bytes of all files and to the size of its own. -/
theorem write_bytes (sane : sb.Sane) {s : Store} (sound : Sound sb s) {t : U32} {info : InodeDisk}
    (image : s.image t = some info) (offset len : U32) (src : Bytes) :
    ∃ k ≤ len.toNat, (inodeWriteData sb t info offset len src s.disk).1.toNat = k ∧
      ∃ info', (s.step sb (.write t offset len src)).image = Function.update s.image t (some info') ∧
        info'.size.toNat = (if 0 < k then max info.size.toNat (offset.toNat + k)
          else info.size.toNat) ∧
        ∀ u, ∀ x < 2 ^ 32, (s.step sb (.write t offset len src)).trees.fileByte u x =
          if u = t ∧ offset.toNat ≤ x ∧ x < offset.toNat + k then src (x - offset.toNat)
          else s.trees.fileByte u x := by
  have total := BitVec.toNat_add offset len
  have limit : (offset + len).toNat ≤ 2 ^ 32 := Nat.le_of_lt (offset + len).isLt
  have handles := handles_writing sane t src offset.toNat limit
  obtain ⟨k, s₁, passes, count, record, disk⟩ := inodeWriteData_spec sane sound.owned
    (trees_index image).symm offset len src
  rw [trees_disk] at record disk
  obtain ⟨-, other, contents, -⟩ := passes.kept sane limit handles sound.owned
  have owned := passes.owned sane limit handles sound.owned
  -- a sum that wraps around ends the pass before it begins
  have short := passes.count_le
  have inside := ((sound.imaged t).mp (by rw [image]; rfl)).1
  refine ⟨k, by omega, count, (inodeWriteData sb t info offset len src s.disk).2.1, ?_, ?_, ?_⟩
  · simp only [step, image]
  · rw [record, grownRecord]
    dsimp only
    split
    · rw [BitVec.toNat_ofNat, Nat.mod_eq_of_lt (by omega), if_pos (by omega)]
      omega
    · split <;> omega
  · intro u x bound
    have trees : (s.step sb (.write t offset len src)).trees =
        ⟨s₁.index, (inodeWriteData sb t info offset len src s.disk).2.2⟩ := by
      simp only [step, image, trees_update]
      rw [congrArg InodeDisk.index record]
      exact put_of_other other _
    have bytes : (s.step sb (.write t offset len src)).trees.fileByte u x = s₁.fileByte u x := by
      rw [trees, disk]
      split
      · exact fileByte_inodeWrite sane owned inside _ u bound
      · rfl
    rw [bytes]
    rcases eq_or_ne u t with rfl | apart
    · rw [passes.fileByte_writing sane limit sound.owned (Nat.le_refl _) bound]
      simp only [true_and]
    · rw [if_neg (fun both => apart both.1), fileByte, fileByte,
        contents u apart _ (block_bound (Nat.le_refl _) bound)]

/-- The first `k` bytes that a write accepted overlay the content; no other content changes. -/
theorem write_content (sane : sb.Sane) {s : Store} (sound : Sound sb s) (clean : s.CleanTails)
    {t : U32} {info : InodeDisk} (image : s.image t = some info) (offset len : U32) (src : Bytes)
    (fits : offset.toNat + len.toNat < 2 ^ 32) :
    let k := (inodeWriteData sb t info offset len src s.disk).1.toNat
    let s' := s.step sb (.write t offset len src)
    k ≤ len.toNat ∧
      s'.content t = (s.content t).map (overlay · offset.toNat (src.take k)) ∧
      (∀ u ≠ t, s'.content u = s.content u) ∧ s'.CleanTails := by
  obtain ⟨k, short, count, info', image', size, bytes⟩ :=
    write_bytes sane sound image offset len src
  have own : (s.step sb (.write t offset len src)).image t = some info' := by
    rw [image', Function.update_self]
  have other (u : U32) (apart : u ≠ t) :
      (s.step sb (.write t offset len src)).image u = s.image u := by
    rw [image', Function.update_of_ne apart]
  dsimp only
  rw [count]
  refine ⟨short, ?_, fun u apart => ?_, fun u info₁ image₁ x bound past => ?_⟩
  · rw [content_image own, content_image image, Option.map_some, size]
    rcases Nat.eq_zero_or_pos k with rfl | some
    · rw [if_neg (Nat.lt_irrefl 0)]
      have unwritten : src.take 0 = [] := rfl
      rw [unwritten, overlay, if_pos rfl]
      have small := info.size.isLt
      refine congrArg Option.some (Bytes.take_congr fun x inside => ?_)
      rw [bytes t x (by omega), if_neg (by omega)]
    · rw [if_pos some]
      have small := info.size.isLt
      refine congrArg Option.some (Bytes.take_overlay some fun x inside => ?_)
      rw [bytes t x (by omega)]
      simp only [true_and]
      split
      · rfl
      · split
        · rfl
        · exact clean t info image x (by omega) (by omega)
  · refine content_congr (other u apart) fun x bound => ?_
    rw [bytes u x bound, if_neg (fun both => apart both.1)]
  · rcases eq_or_ne u t with rfl | apart
    · obtain rfl : info' = info₁ := Option.some.inj (own.symm.trans image₁)
      rw [size] at past
      rw [bytes u x bound]
      split at past
      · rw [if_neg (by omega)]
        exact clean u info image x bound (by omega)
      · rw [if_neg (by omega)]
        exact clean u info image x bound (by omega)
    · rw [other u apart] at image₁
      rw [bytes u x bound, if_neg (fun both => apart both.1)]
      exact clean u info₁ image₁ x bound past

/-- A read returns the bytes of the content from `offset` on; it stops early only where the free
blocks do not suffice for the hole it meets. It changes no content. -/
theorem read_content (sane : sb.Sane) {s : Store} (sound : Sound sb s) (clean : s.CleanTails)
    {t : U32} {info : InodeDisk} (image : s.image t = some info)
    (readable : info.type = inodeTypeData ∨ info.type = inodeTypeDir) (offset len : U32)
    (dst : Bytes) (fits : offset.toNat + len.toNat < 2 ^ 32) :
    let r := inodeReadData sb info offset len dst s.disk
    let full := min len.toNat (info.size.toNat - offset.toNat)
    let s' := s.step sb (.read t offset len dst)
    r.1.toNat ≤ full ∧
      some (Bytes.take r.2.2.1 r.1.toNat) =
        (s.content t).map (fun c => (c.drop offset.toNat).take r.1.toNat) ∧
      (∀ x, r.1.toNat ≤ x → r.2.2.1 x = dst x) ∧
      (r.1.toNat < full → freeCount sb s.trees <
        s.trees.missing t (places offset.toNat (offset.toNat + r.1.toNat + 1))) ∧
      (∀ u, s'.content u = s.content u) ∧ s'.CleanTails := by
  have total : (offset + len).toNat = offset.toNat + len.toNat := by
    rw [BitVec.toNat_add, Nat.mod_eq_of_lt fits]
  have limit := readStop_le info offset len
  have handles : Handles sb t (readStop info offset len) reading := handles_reading t _
  obtain ⟨m, passes, count, record, buffer⟩ := inodeReadData_spec sane sound.owned
    (trees_index image).symm offset len dst
  rw [trees_disk] at passes count record buffer
  have stop : readStop info offset len = min (offset.toNat + len.toNat) info.size.toNat := by
    rw [readStop, if_neg (by tauto), total]
  have small := info.size.isLt
  have short := passes.count_le
  have bytes (u : U32) (x : ℕ) (bound : x < 2 ^ 32) :
      (s.step sb (.read t offset len dst)).trees.fileByte u x = s.trees.fileByte u x := by
    have trees : (s.step sb (.read t offset len dst)).trees = s.trees.put t
        (inodeReadData sb info offset len dst s.disk).2.1.index
        (inodeReadData sb info offset len dst s.disk).2.2.2 := by
      simp only [step, image, trees_update]
    rw [trees, fileByte, fileByte,
      passes.content_reading sane u (block_bound (Nat.le_refl _) bound)]
  have sizes (u : U32) : ((s.step sb (.read t offset len dst)).image u).map InodeDisk.size =
      (s.image u).map InodeDisk.size := by
    simp only [step, image]
    rcases eq_or_ne u t with rfl | apart
    · rw [Function.update_self, image, record]
      rfl
    · rw [Function.update_of_ne apart]
  dsimp only
  rw [count, buffer]
  refine ⟨by omega, ?_, fun x past => Bytes.blit_outside (by omega), fun early => ?_, fun u => ?_,
    fun u info' image' x bound past => ?_⟩
  · rw [content_image image, Option.map_some]
    refine congrArg Option.some (List.ext_getElem ?_ fun i inside _ => ?_)
    · simp
      omega
    · rw [Bytes.length_take] at inside
      simp only [Bytes.take, List.getElem_map, List.getElem_range, List.getElem_take,
        List.getElem_drop]
      rw [Bytes.blit_inside (Nat.zero_le _) (by omega), Nat.sub_zero]
  · have reached := passes.reach sane limit handles sound.owned
      (g := offset.toNat + m) (Nat.le_add_right ..) (by omega)
    omega
  · have size := sizes u
    rw [content, content]
    cases after : (s.step sb (.read t offset len dst)).image u with
    | none =>
      cases before : s.image u with
      | none => rfl
      | some info₀ => simp [after, before] at size
    | some info' =>
      cases before : s.image u with
      | none => simp [after, before] at size
      | some info₀ =>
        simp only [after, before, Option.map_some, Option.some.injEq] at size
        have small := info₀.size.isLt
        rw [Option.map_some, Option.map_some, size]
        exact congrArg Option.some (Bytes.take_congr fun x inside => bytes u x (by omega))
  · have size := sizes u
    rw [image'] at size
    rw [bytes u x bound]
    cases before : s.image u with
    | none => simp [before] at size
    | some info₀ =>
      simp only [before, Option.map_some, Option.some.injEq] at size
      rw [size] at past
      exact clean u info₀ before x bound past

/-- The law of file reads and writes. A write of which `k` bytes were accepted overlays the content
of its inode with them and leaves the others alone. A read returns the bytes of the content from the
offset on, as many as the request and the size allow; only where the free blocks do not suffice for
a hole it returns fewer, and it changes no content. -/
theorem file_law (sane : sb.Sane) {s : Store} (sound : Sound sb s) (clean : s.CleanTails)
    {t : U32} {info : InodeDisk} (image : s.image t = some info)
    (readable : info.type = inodeTypeData ∨ info.type = inodeTypeDir) (offset len : U32)
    (fits : offset.toNat + len.toNat < 2 ^ 32) :
    (∀ src,
      let k := (inodeWriteData sb t info offset len src s.disk).1.toNat
      let s' := s.step sb (.write t offset len src)
      k ≤ len.toNat ∧
        s'.content t = (s.content t).map (overlay · offset.toNat (src.take k)) ∧
        (∀ u ≠ t, s'.content u = s.content u) ∧ s'.CleanTails) ∧
    ∀ dst,
      let r := inodeReadData sb info offset len dst s.disk
      let full := min len.toNat (info.size.toNat - offset.toNat)
      let s' := s.step sb (.read t offset len dst)
      r.1.toNat ≤ full ∧
        some (Bytes.take r.2.2.1 r.1.toNat) =
          (s.content t).map (fun c => (c.drop offset.toNat).take r.1.toNat) ∧
        (∀ x, r.1.toNat ≤ x → r.2.2.1 x = dst x) ∧
        (r.1.toNat < full → freeCount sb s.trees <
          s.trees.missing t (places offset.toNat (offset.toNat + r.1.toNat + 1))) ∧
        (∀ u, s'.content u = s.content u) ∧ s'.CleanTails :=
  ⟨fun src => write_content sane sound clean image offset len src fits,
    fun dst => read_content sane sound clean image readable offset len dst fits⟩

/-- Inodes without blocks have clean tails. -/
theorem cleanTails_of_empty {s : Store}
    (empty : ∀ t info, s.image t = some info → info.index = Index.empty) : s.CleanTails := by
  intro t info image x _ _
  have none : s.trees.index t = Index.empty := (trees_index image).trans (empty t info image)
  have unset := block_empty s.trees t s.disk (leafPlace (x / blockSize))
  rw [← none, put_same] at unset
  rw [fileByte, BlockTrees.content]
  exact congrFun (if_pos unset) _

/-- Two bytes at 4095 of a new file cross a block boundary. -/
theorem file_law_oneFile :
    let k := (inodeWriteData mkfsSuperBlock 0 (newInode inodeTypeData 0 0) 4095 2 (fun _ => 7)
      oneFile.disk).1.toNat
    (oneFile.step mkfsSuperBlock (.write 0 4095 2 fun _ => 7)).content 0 =
      (oneFile.content 0).map (overlay · 4095 (Bytes.take (fun _ => 7) k)) := by
  have number : (bitmapAllocInode mkfsSuperBlock blank.disk).1 = 0 := by decide +kernel
  have valid : (0 : U32) ≠ minusOne := by decide
  have images : oneFile.image = Function.update blank.image 0 (some (newInode inodeTypeData 0 0)) := by
    simp only [oneFile, run, List.foldl_cons, List.foldl_nil, step, number, if_neg valid]
  have clean : oneFile.CleanTails := by
    refine cleanTails_of_empty fun t info image => ?_
    rw [images] at image
    rcases eq_or_ne t 0 with rfl | other
    · rw [Function.update_self] at image
      obtain rfl := Option.some.inj image
      rfl
    · rw [Function.update_of_ne other] at image
      cases image
  have image : oneFile.image 0 = some (newInode inodeTypeData 0 0) := by
    rw [images, Function.update_self]
  exact ((file_law mkfsSuperBlock_sane oneFile_sound clean image (Or.inl rfl) 4095 2
    (by decide)).1 fun _ => 7).2.1

end Store

end LabKernel
