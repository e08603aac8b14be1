import LabKernel.Fs.Dentry
import LabKernel.Fs.Mapping
import LabKernel.Fs.FileContent
import LabKernel.Lib.SlotTable

/-! # Directories as finite maps

The entries of a directory are a slot table from names to inode numbers, where a name is the text of
a name buffer. On a directory without holes the three directory operations are the operations of this
table: a search looks up, a creation fills the first free slot or the one behind the last, a deletion
clears the slot of the name.
-/

namespace LabKernel

open BlockTrees

variable {sb : SuperBlock}

/-! ## Names -/

/-- The text of a name buffer: its bytes up to the first 0, at most 60. -/
def nameText (name : Bytes) : List U8 := ((List.range' 0 maxlenFilename).map name).takeWhile (· != 0)

private theorem strncmpFrom_eq_zero (p q : Bytes) (n i : ℕ) :
    strncmpFrom p q n i = 0 ↔ ((List.range' i n).map p).takeWhile (· != 0) =
      ((List.range' i n).map q).takeWhile (· != 0) := by
  induction n generalizing i with
  | zero => simp [strncmpFrom]
  | succ n ih =>
    rw [strncmpFrom, List.range'_succ, List.map_cons, List.map_cons]
    by_cases stop : p i = 0
    · rw [if_neg (fun both => both.1 stop), stop, List.takeWhile_cons_of_neg (by simp)]
      by_cases same : q i = 0
      · simp [same]
      · have positive : (q i).toNat ≠ 0 := fun zero => same (BitVec.eq_of_toNat_eq zero)
        rw [List.takeWhile_cons_of_pos (by simpa using same)]
        refine iff_of_false ?_ (by simp)
        simp
        omega
    · rw [List.takeWhile_cons_of_pos (by simpa using stop)]
      by_cases same : p i = q i
      · rw [if_pos ⟨stop, same⟩, ih, ← same, List.takeWhile_cons_of_pos (by simpa using stop),
          List.cons_inj_right]
      · rw [if_neg (fun both => same both.2)]
        refine iff_of_false (fun zero => same (BitVec.eq_of_toNat_eq (by omega))) fun equal => same ?_
        by_cases stop' : q i = 0
        · rw [stop', List.takeWhile_cons_of_neg (by simp)] at equal
          cases equal
        · rw [List.takeWhile_cons_of_pos (by simpa using stop')] at equal
          exact (List.cons.inj equal).1

/-- `strncmp` over a whole name buffer compares the texts. -/
theorem strncmp_eq_zero (p q : Bytes) : strncmp p q maxlenFilename = 0 ↔ nameText p = nameText q :=
  strncmpFrom_eq_zero p q maxlenFilename 0

private theorem nameText_congr {p q : Bytes} (same : ∀ i < maxlenFilename, p i = q i) :
    nameText p = nameText q := by
  rw [nameText, nameText]
  congr 1
  refine List.map_congr_left fun i member => same i ?_
  simpa using List.mem_range'_1.mp member

/-! ## Entries -/

/-- Entry `k` of a directory, as reading its 64 bytes into an empty buffer gives it. -/
def dirEntry (s : BlockTrees) (t : U32) (k : ℕ) : Dentry :=
  Dentry.decode (Bytes.blit (fun _ => 0) 0 (fun x => s.fileByte t (64 * k + x)) 64) 0

/-- An entry as a slot: one whose name is empty is free. -/
def Dentry.slot (de : Dentry) : Option (List U8 × U32) :=
  if de.name 0 = 0 then none else some (nameText de.name, de.inodeNum)

/-- The entries of a directory of a given size. -/
def dirTable (s : BlockTrees) (t : U32) (size : U32) : SlotTable (List U8) U32 :=
  ⟨size.toNat / 64, fun k => if k < size.toNat / 64 then (dirEntry s t k).slot else none⟩

/-- A directory without holes whose size is a multiple of the entry size and whose names differ. -/
structure Directory (s : BlockTrees) (t : U32) (info : InodeDisk) : Prop where
  type : info.type = inodeTypeDir
  size : info.size.toNat % 64 = 0
  whole : ∀ n, n * blockSize < info.size.toNat → s.block t (leafPlace n) ≠ 0
  distinct : (dirTable s t info.size).Distinct

/-- The finite map that a directory represents. -/
def dirMap (s : BlockTrees) (t : U32) (info : InodeDisk) : List U8 → Option U32 :=
  (dirTable s t info.size).lookup

theorem Dentry.slot_of_live {de : Dentry} (live : de.name 0 ≠ 0) :
    de.slot = some (nameText de.name, de.inodeNum) := if_neg live

private theorem Dentry.slot_isNone (de : Dentry) : de.slot.isNone = true ↔ de.name 0 = 0 := by
  rw [slot]
  split <;> simp_all

/-- The test of the scans: the entry is live and has the name. -/
theorem Dentry.slot_holds (de : Dentry) (name : Bytes) :
    SlotTable.holds (nameText name) de.slot = true ↔
      de.name 0 ≠ 0 ∧ strncmp de.name name maxlenFilename = 0 := by
  rw [SlotTable.holds_iff, strncmp_eq_zero, slot]
  split
  · rename_i empty
    exact iff_of_false (fun ⟨_, same⟩ => nomatch same) fun both => both.1 empty
  · rename_i live
    constructor
    · rintro ⟨v, same⟩
      exact ⟨live, (Prod.mk.inj (Option.some.inj same)).1⟩
    · rintro ⟨-, same⟩
      exact ⟨de.inodeNum, by rw [same]⟩

theorem dirTable_slot (s : BlockTrees) (t : U32) {size : U32} {k : ℕ} (inside : k < size.toNat / 64) :
    (dirTable s t size).slot k = (dirEntry s t k).slot := if_pos inside

private theorem dirTable_holds (s : BlockTrees) (t : U32) {size : U32} {k : ℕ}
    (inside : k < size.toNat / 64) (name : Bytes) :
    SlotTable.holds (nameText name) ((dirTable s t size).slot k) = true ↔
      (dirEntry s t k).name 0 ≠ 0 ∧ strncmp (dirEntry s t k).name name maxlenFilename = 0 := by
  rw [dirTable_slot s t inside, Dentry.slot_holds]

private theorem dirTable_free (s : BlockTrees) (t : U32) {size : U32} {k : ℕ}
    (inside : k < size.toNat / 64) :
    ((dirTable s t size).slot k).isNone = true ↔ (dirEntry s t k).name 0 = 0 := by
  rw [dirTable_slot s t inside, Dentry.slot_isNone]

/-- Reading an entry of a directory without holes moves nothing. -/
theorem Store.read_dentry (sane : sb.Sane) {s : Store} (sound : Store.Sound sb s) {t : U32}
    {info : InodeDisk} (image : s.image t = some info) (dir : Directory s.trees t info) {k : ℕ}
    (inside : k < info.size.toNat / 64) (dst : Bytes) :
    inodeReadData sb info (BitVec.ofNat 32 (64 * k)) dentrySize dst s.disk =
      (dentrySize, info, dst.blit 0 (fun x => s.trees.fileByte t (64 * k + x)) 64, s.disk) := by
  have small := info.size.isLt
  have size := dir.size
  have offset : (BitVec.ofNat 32 (64 * k)).toNat = 64 * k := by
    rw [BitVec.toNat_ofNat, Nat.mod_eq_of_lt (by omega)]
  have stop : readStop info (BitVec.ofNat 32 (64 * k)) dentrySize = 64 * k + 64 := by
    have total : (BitVec.ofNat 32 (64 * k) + dentrySize).toNat = 64 * k + 64 := by
      rw [BitVec.toNat_add, offset, show dentrySize.toNat = 64 from rfl, Nat.mod_eq_of_lt (by omega)]
    rw [readStop, if_neg (fun both => both.2 dir.type), total]
    omega
  have loaded := trees_index image
  obtain ⟨m, passes, count, record, buffer⟩ := inodeReadData_spec sane sound.owned loaded.symm
    (BitVec.ofNat 32 (64 * k)) dentrySize dst
  rw [trees_disk] at passes count record buffer
  rw [stop, offset] at passes
  obtain ⟨same, all⟩ := passes.of_mapped fun n touch => dir.whole n (by
    obtain ⟨-, -, high⟩ := mem_touched.mp touch
    simp only [blockSize] at *
    omega)
  have length : m = 64 := by omega
  rw [length] at count buffer
  rw [offset] at buffer
  have table := congrArg (BlockTrees.index · t) same
  simp only [put_index, loaded] at table
  rw [table] at record
  exact Prod.ext (BitVec.eq_of_toNat_eq count)
    (Prod.ext record (Prod.ext buffer (congrArg BlockTrees.disk same)))

/-! ## Writes within one block -/

/-- A range within one block needs the places of this block. -/
theorem places_one {cur g : ℕ} (more : cur < g) (block : g ≤ cur + (blockSize - cur % blockSize)) :
    places cur g = (leafPlace (cur / blockSize)).path := by
  have only : (g - 1) / blockSize = cur / blockSize := by
    simp only [blockSize] at *
    omega
  rw [places, touched, if_pos more, only, Nat.add_sub_cancel_left]
  exact List.append_nil _

/-- A pass that moved a byte has its first block. -/
theorem BlockTrees.Passes.first_filled (sane : sb.Sane) {t : U32} {stop : ℕ} (limit : stop ≤ 2 ^ 32)
    {handle : ℕ → BlockTrees → BlockTrees → Prop} (handles : Handles sb t stop handle) {cur m : ℕ}
    {s s' : BlockTrees} (passes : Passes sb t stop handle cur s m s') (owned : Owned sb s)
    (moved : 0 < m) : s'.block t (leafPlace (cur / blockSize)) ≠ 0 := by
  cases passes with
  | done => omega
  | full => omega
  | @block _ _ s₁ s₂ _ _ more walk step rest =>
    have valid := leafPlace_valid (block_bound limit more)
    have after := walk.owned sane owned
    have filled := walk.block_filled sane valid (leafPlace_mem_path _)
    have kept := (handles _ _ _ after more filled step).1
    rw [← kept.block t _ valid] at filled
    rwa [(rest.kept sane limit handles (kept.owned after)).1 t _ valid filled]

namespace Store

/-- The free blocks suffice for a logical block of an inode. -/
def Room (sb : SuperBlock) (s : Store) (t : U32) (n : ℕ) : Prop :=
  s.trees.missing t (leafPlace n).path ≤ freeCount sb s.trees

/-- A write within one block: it moves all its bytes if there is room for the block and none
otherwise; no entered block is lost. -/
theorem write_chunk (sane : sb.Sane) {s : Store} (sound : Sound sb s) {t : U32} {info : InodeDisk}
    (image : s.image t = some info) {offset len : U32} (src : Bytes) (some : 0 < len.toNat)
    (block : offset.toNat % blockSize + len.toNat ≤ blockSize)
    (fits : offset.toNat + len.toNat < 2 ^ 32) :
    let r := inodeWriteData sb t info offset len src s.disk
    let s' := s.step sb (.write t offset len src)
    ∃ m index, (m = len.toNat ∧ Room sb s t (offset.toNat / blockSize) ∧
        s'.trees.block t (leafPlace (offset.toNat / blockSize)) ≠ 0 ∨
        m = 0 ∧ ¬Room sb s t (offset.toNat / blockSize)) ∧
      r.1.toNat = m ∧
      s'.disk = r.2.2 ∧ s'.image = Function.update s.image t (Option.some r.2.1) ∧
      r.2.1 = grownRecord info index offset m ∧
      (∀ u, ∀ x < 2 ^ 32, s'.trees.fileByte u x =
        if u = t ∧ offset.toNat ≤ x ∧ x < offset.toNat + m then src (x - offset.toNat)
        else s.trees.fileByte u x) ∧
      ∀ u p, p.Valid → s.trees.block u p ≠ 0 → s'.trees.block u p = s.trees.block u p := by
  intro r s'
  have total : (offset + len).toNat = offset.toNat + len.toNat := by
    rw [BitVec.toNat_add, Nat.mod_eq_of_lt fits]
  have limit : (offset + len).toNat ≤ 2 ^ 32 := Nat.le_of_lt (offset + len).isLt
  have handles := handles_writing sane t src offset.toNat limit
  obtain ⟨m, s₁, passes, count, record, disk⟩ := inodeWriteData_spec sane sound.owned
    (trees_index image).symm offset len src
  rw [trees_disk] at count record disk
  change r.1.toNat = m at count
  change r.2.1 = _ at record
  change r.2.2 = _ at disk
  obtain ⟨kept, other, -, -⟩ := passes.kept sane limit handles sound.owned
  have owned := passes.owned sane limit handles sound.owned
  have short := passes.length (by omega)
  have inside := inside_of_image sound image
  have first := passes.reach sane limit handles sound.owned (g := offset.toNat) (Nat.le_refl _)
    (by omega)
  have last := passes.reach sane limit handles sound.owned (g := offset.toNat + len.toNat - 1)
    (by omega) (by omega)
  rw [places_one (by omega) (by simp only [blockSize] at *; omega)] at first
  rw [Nat.sub_add_cancel (by omega), places_one (by omega) (by omega)] at last
  have step : s' = ⟨r.2.2, Function.update s.image t (Option.some r.2.1)⟩ := by
    simp only [s', r, Store.step, image]
  have trees : s'.trees = ⟨s₁.index, r.2.2⟩ := by
    rw [step, trees_update, congrArg InodeDisk.index record]
    exact put_of_other other _
  have blocks (u : U32) (p : Place) (valid : p.Valid) : s'.trees.block u p = s₁.block u p := by
    rw [trees, disk]
    split
    · exact (kept_writeLow sane owned (inodeBlock_low sane inside) _).block u p valid
    · rfl
  obtain ⟨k, -, count', -, -, -, bytes⟩ := write_bytes sane sound image offset len src
  obtain rfl : m = k := count.symm.trans count'
  have leaf := leafPlace_valid (block_bound limit (show offset.toNat < (offset + len).toNat by omega))
  refine ⟨m, s₁.index t, ?_, count, congrArg Store.disk step, congrArg Store.image step, record, bytes,
    fun u p valid filled => (blocks u p valid).trans (kept u p valid filled)⟩
  by_cases room : Room sb s t (offset.toNat / blockSize)
  · have all := last.mpr room
    have moved : 0 < m := by omega
    refine Or.inl ⟨by omega, room, ?_⟩
    rw [blocks t _ leaf]
    exact passes.first_filled sane limit handles sound.owned moved
  · have none := first.not.mpr room
    exact Or.inr ⟨by omega, room⟩

end Store

/-! ## The table after a write -/

/-- A name that `dentry_create` can enter: 1 to 59 bytes and a 0 in a name buffer. -/
def IsName (name : Bytes) : Prop := name 0 ≠ 0 ∧ ∃ n < maxlenFilename, name n = 0

private theorem takeWhile_congr_zero {p q : Bytes} {n : ℕ} (zero : p n = 0) (m i : ℕ) (low : i ≤ n)
    (high : n < i + m) (same : ∀ j, i ≤ j → j ≤ n → p j = q j) :
    ((List.range' i m).map p).takeWhile (· != 0) = ((List.range' i m).map q).takeWhile (· != 0) := by
  induction m generalizing i with
  | zero => omega
  | succ m ih =>
    rw [List.range'_succ, List.map_cons, List.map_cons, List.takeWhile_cons, List.takeWhile_cons,
      same i (Nat.le_refl i) low]
    split
    · rename_i more
      have before : i < n := by
        rcases Nat.eq_or_lt_of_le low with rfl | before
        · rw [← same i (Nat.le_refl i) (Nat.le_refl i), zero] at more
          cases more
        · exact before
      rw [ih (i + 1) before (by omega) fun j above below => same j (by omega) below]
    · rfl

/-- The entry that `dentry_create` writes is live and has the name and the number. -/
theorem newDentry_slot {name : Bytes} (isName : IsName name) (inodeNum : U32) :
    (newDentry name inodeNum).slot = some (nameText name, inodeNum) := by
  obtain ⟨live, n, short, zero⟩ := isName
  have byte (j : ℕ) (below : j ≤ n) : (newDentry name inodeNum).name j = name j := by
    change (if j < maxlenFilename - 1 then name j else 0) = name j
    split
    · rfl
    · have last : j = n := by omega
      rw [last, zero]
  have text : nameText (newDentry name inodeNum).name = nameText name :=
    takeWhile_congr_zero ((byte n (Nat.le_refl n)).trans zero) maxlenFilename 0 (Nat.zero_le n)
      (by omega) fun j _ below => byte j below
  rw [Dentry.slot_of_live (by rwa [byte 0 (Nat.zero_le n)]), text]
  rfl

/-- Writing an entry and reading it back. -/
theorem Dentry.slot_encode (de : Dentry) :
    (Dentry.decode (Bytes.blit (fun _ => 0) 0 de.encode 64) 0).slot = de.slot := by
  have byte (i : ℕ) (inside : i < 64) : Bytes.blit (fun _ => 0) 0 de.encode 64 (0 + i) = de.encode i := by
    rw [Nat.zero_add, Bytes.blit_inside (Nat.zero_le i) (by omega), Nat.sub_zero]
  have name (i : ℕ) (inside : i < maxlenFilename) :
      (Dentry.decode (Bytes.blit (fun _ => 0) 0 de.encode 64) 0).name i = de.name i := by
    have small : i < 60 := inside
    refine (byte i (by omega)).trans ?_
    rw [encode, if_pos inside]
  have number : (Dentry.decode (Bytes.blit (fun _ => 0) 0 de.encode 64) 0).inodeNum = de.inodeNum := by
    change Bytes.u32 _ (0 + maxlenFilename) = _
    rw [Bytes.u32_congr (c := Bytes.leBytes de.inodeNum.toNat) (q := 0) fun i small => ?_,
      Bytes.u32_leBytes]
    have place : 0 + maxlenFilename + i = 0 + (maxlenFilename + i) := by omega
    have behind : maxlenFilename + i < 64 := by
      simp only [maxlenFilename]
      omega
    rw [place, byte _ behind, encode, if_neg (by omega), Nat.add_sub_cancel_left, Nat.zero_add]
  rw [slot, slot, name 0 (by decide), nameText_congr name, number]

/-- An entry of zeros is free. -/
theorem Dentry.slot_zero : (Dentry.decode (Bytes.blit (fun _ => 0) 0 (fun _ => 0) 64) 0).slot = none := by
  rw [slot, if_pos]
  rfl

/-- What a write of one entry does to the table: other entries stay, the entry is the one written. -/
theorem dirEntry_write {s s' : BlockTrees} {t : U32} {k : ℕ} {src : Bytes} (inside : 64 * k + 64 < 2 ^ 32)
    (bytes : ∀ x < 2 ^ 32, s'.fileByte t x =
      if 64 * k ≤ x ∧ x < 64 * k + 64 then src (x - 64 * k) else s.fileByte t x) {j : ℕ}
    (small : 64 * j + 64 ≤ 2 ^ 32) :
    dirEntry s' t j = if j = k then Dentry.decode (Bytes.blit (fun _ => 0) 0 src 64) 0
      else dirEntry s t j := by
  split
  · rename_i here
    rw [dirEntry, here]
    congr 1
    refine Bytes.blit_congr fun x bound => ?_
    rw [bytes _ (by omega), if_pos (by omega), Nat.add_sub_cancel_left]
  · rename_i other
    rw [dirEntry, dirEntry]
    congr 1
    refine Bytes.blit_congr fun x bound => ?_
    rw [bytes _ (by omega), if_neg (by omega)]

namespace Store

/-- The entries after a write of entry `k`. -/
def entered (table : SlotTable (List U8) U32) (k : ℕ) (entry : Option (List U8 × U32)) :
    SlotTable (List U8) U32 :=
  ⟨max table.size (k + 1), Function.update table.slot k entry⟩

/-- Writing one entry of a directory, or the entry behind the last one: with room for its block the
table changes at the entry, without room it stays. -/
theorem write_entry (sane : sb.Sane) {s : Store} (sound : Sound sb s) {t : U32} {info : InodeDisk}
    (image : s.image t = some info) (dir : Directory s.trees t info) {k : ℕ}
    (bound : k ≤ info.size.toNat / 64) (fits : 64 * k + 64 < 2 ^ 32) (src : Bytes) :
    let r := inodeWriteData sb t info (BitVec.ofNat 32 (64 * k)) dentrySize src s.disk
    let s' := s.step sb (.write t (BitVec.ofNat 32 (64 * k)) dentrySize src)
    ((Room sb s t (64 * k / blockSize) ∧ r.1 = dentrySize ∧
        dirTable s'.trees t r.2.1.size = entered (dirTable s.trees t info.size) k
          (Dentry.decode (Bytes.blit (fun _ => 0) 0 src 64) 0).slot) ∨
      (¬Room sb s t (64 * k / blockSize) ∧ r.1 ≠ dentrySize ∧
        dirTable s'.trees t r.2.1.size = dirTable s.trees t info.size)) ∧
    r.2.1.type = inodeTypeDir ∧ r.2.1.size.toNat % 64 = 0 ∧
      ∀ n, n * blockSize < r.2.1.size.toNat → s'.trees.block t (leafPlace n) ≠ 0 := by
  intro r s'
  have small := info.size.isLt
  have aligned := dir.size
  have offset : (BitVec.ofNat 32 (64 * k)).toNat = 64 * k := by
    rw [BitVec.toNat_ofNat, Nat.mod_eq_of_lt (by omega)]
  have length : dentrySize.toNat = 64 := rfl
  have block : (BitVec.ofNat 32 (64 * k)).toNat % blockSize + dentrySize.toNat ≤ blockSize := by
    rw [offset, length]
    simp only [blockSize]
    omega
  have limit : (BitVec.ofNat 32 (64 * k)).toNat + dentrySize.toNat < 2 ^ 32 := by
    rw [offset, length]
    exact fits
  obtain ⟨m, index, outcome, count, -, -, record, bytes, kept⟩ :=
    write_chunk sane sound image src (by decide) block limit
  rw [offset] at outcome bytes
  change r.1.toNat = m at count
  change r.2.1 = _ at record
  have type : r.2.1.type = inodeTypeDir := by rw [record]; exact dir.type
  rcases outcome with ⟨all, room, filled⟩ | ⟨none, full⟩
  · rw [length] at all
    have size : r.2.1.size.toNat = max info.size.toNat (64 * k + 64) := by
      rw [record, grownRecord, offset]
      dsimp only
      split
      · rw [BitVec.toNat_ofNat, Nat.mod_eq_of_lt (by omega)]
        omega
      · omega
    refine ⟨Or.inl ⟨room, BitVec.eq_of_toNat_eq (count.trans all), ?_⟩, type, by omega, fun n inside => ?_⟩
    · have entry := @dirEntry_write s.trees s'.trees t k src fits fun x bound => by
        rw [bytes t x bound, all]
        simp only [true_and]
      refine SlotTable.ext (by simp only [dirTable, entered, size]; omega) ?_
      funext j
      simp only [dirTable, entered, size]
      by_cases here : j = k
      · rw [if_pos (by omega), entry (by omega), if_pos here, here, Function.update_self]
      · rw [Function.update_of_ne here]
        split
        · rw [if_pos (by omega), entry (by omega), if_neg here]
        · rw [if_neg (by omega)]
    · rcases Nat.lt_or_ge (n * blockSize) info.size.toNat with old | new
      · have present := dir.whole n old
        have valid := leafPlace_valid (block_bound (x := n * blockSize) (Nat.le_refl _) (by omega))
        rw [Nat.mul_div_cancel n (by decide)] at valid
        rw [kept t _ valid present]
        exact present
      · have last : n = 64 * k / blockSize := by
          simp only [blockSize] at *
          omega
        rw [last]
        exact filled
  · have size : r.2.1.size = info.size := by
      rw [record, grownRecord, none]
      simp only [Nat.lt_irrefl, false_and, ↓reduceIte]
    have same (j : ℕ) (inside : 64 * j + 64 ≤ 2 ^ 32) : dirEntry s'.trees t j = dirEntry s.trees t j := by
      rw [dirEntry, dirEntry]
      congr 1
      refine Bytes.blit_congr fun x bound => ?_
      rw [bytes t _ (by omega), if_neg (by omega)]
    refine ⟨Or.inr ⟨full, ?_, ?_⟩, type, by rw [size]; exact aligned, fun n inside => ?_⟩
    · intro all
      rw [all, length] at count
      omega
    · rw [size]
      refine SlotTable.ext rfl ?_
      funext j
      simp only [dirTable]
      split
      · rw [same j (by omega)]
      · rfl
    · rw [size] at inside
      have present := dir.whole n inside
      have valid := leafPlace_valid (block_bound (x := n * blockSize) (Nat.le_refl _) (by omega))
      rw [Nat.mul_div_cancel n (by decide)] at valid
      rw [kept t _ valid present]
      exact present

/-- There is room for a block that is there. -/
theorem room_of_present {s : Store} {t : U32} {n : ℕ} (present : s.trees.block t (leafPlace n) ≠ 0) :
    Room sb s t n := by
  have none : s.trees.missing t (leafPlace n).path = 0 := by
    rw [missing, Finset.card_eq_zero, Finset.filter_eq_empty_iff]
    intro p on
    exact block_path (List.mem_toFinset.mp on) present
  rw [Room, none]
  exact Nat.zero_le _

/-- A write that would end behind the last offset writes nothing. -/
theorem write_wrapped {s : Store} {t : U32} {info : InodeDisk} {offset len : U32}
    (wraps : offset + len = 0) (src : Bytes) :
    inodeWriteData sb t info offset len src s.disk = (0, info, s.disk) := by
  unfold inodeWriteData
  have stop : (0 : U32).toNat = 0 := rfl
  simp only [wraps, stop, Nat.zero_sub, writeLoop]
  rw [if_neg fun both => absurd both.1 (by decide)]
  rfl

end Store

/-! ## The operations -/

/-- Slot `i` of the inode cache holds the record that a store has of inode `t`, over the same disk. -/
structure Caches (s : FsState) (i : ℕ) (st : Store) (t : U32) : Prop where
  disk : s.disk = st.disk
  number : (s.inodeCache i).inodeNum = t
  record : st.image t = some (s.inodeCache i).diskInfo

namespace Fs

variable {cfg : FsConfig} {s : FsState} {i : ℕ} {st : Store} {t : U32}

/-- The offset of a slot, `-1` where there is none. -/
def offsetOf (slot : Option ℕ) : U32 := (slot.map fun k => BitVec.ofNat 32 (64 * k)).getD minusOne

private theorem readDentry_yields (sane : cfg.sb.Sane) (sound : Store.Sound cfg.sb st) (shows : Caches s i st t)
    (dir : Directory st.trees t (s.inodeCache i).diskInfo) {k : ℕ}
    (inside : k < (s.inodeCache i).diskInfo.size.toNat / 64) :
    Yields (readDentry cfg i (BitVec.ofNat 32 (64 * k))) s fun r s' =>
      r = some (dirEntry st.trees t k) ∧ s' = s := by
  have read := st.read_dentry sane sound shows.record dir inside fun _ => 0
  simp only [readDentry, Fs.inodeReadData, Ends.bind_iff, Ends.get_iff, Ends.set_iff, Ends.pure_iff,
    shows.disk, read, ↓reduceIte]
  refine ⟨rfl, ?_⟩
  rw [← shows.disk]
  exact (FsState.setInode_self s i)

/-- The next round of a scan over a directory that is left as it is. -/
theorem next_offset (k : ℕ) :
    BitVec.ofNat 32 (64 * k) + dentrySize = BitVec.ofNat 32 (64 * (k + 1)) := by
  apply BitVec.eq_of_toNat_eq
  rw [BitVec.toNat_add, BitVec.toNat_ofNat, BitVec.toNat_ofNat, show dentrySize.toNat = 64 from rfl]
  omega

theorem offset_lt {size : U32} {k : ℕ} (bound : k ≤ size.toNat / 64)
    (aligned : size.toNat % 64 = 0) : BitVec.ofNat 32 (64 * k) < size ↔ k < size.toNat / 64 := by
  have small := size.isLt
  rw [BitVec.lt_def, BitVec.toNat_ofNat, Nat.mod_eq_of_lt (by omega)]
  omega

theorem offset_ne_minusOne (k : ℕ) : BitVec.ofNat 32 (64 * k) ≠ minusOne := by
  intro same
  have number := congrArg BitVec.toNat same
  rw [BitVec.toNat_ofNat, minusOne, BitVec.toNat_ofNat] at number
  omega

/-- The scan of `dentry_search`. -/
private theorem dentrySearchFrom_yields (sane : cfg.sb.Sane) (sound : Store.Sound cfg.sb st)
    (shows : Caches s i st t) (dir : Directory st.trees t (s.inodeCache i).diskInfo) (name : Bytes)
    (fuel : ℕ) {k : ℕ} (bound : k ≤ (s.inodeCache i).diskInfo.size.toNat / 64)
    (enough : (s.inodeCache i).diskInfo.size.toNat / 64 - k < fuel) :
    Yields (dentrySearchFrom cfg i name fuel (BitVec.ofNat 32 (64 * k))) s fun r s' =>
      s' = s ∧ r = (((dirTable st.trees t (s.inodeCache i).diskInfo.size).findFrom
        (SlotTable.holds (nameText name)) k).map fun j => (dirEntry st.trees t j).inodeNum).getD
          minusOne := by
  induction fuel generalizing k with
  | zero => omega
  | succ fuel ih =>
    rw [dentrySearchFrom]
    simp only [diskInfo, Ends.bind_iff, Ends.get_iff, Ends.pure_iff]
    refine Ends.ite (fun more => ?_) fun past => ?_
    · have inside := (offset_lt bound dir.size).mp more
      have test := dirTable_holds st.trees t inside name
      rw [SlotTable.findFrom_step _ inside, Ends.bind_iff]
      refine (readDentry_yields sane sound shows dir inside).mono ?_
      rintro _ _ ⟨rfl, rfl⟩
      refine Ends.ite (fun same => ?_) fun differs => ?_
      · rw [if_pos (test.mpr same)]
        exact ⟨rfl, rfl⟩
      · rw [if_neg (fun held => differs (test.mp held)), next_offset]
        exact ih (by omega) (by omega)
    · have past := (offset_lt bound dir.size).not.mp past
      rw [SlotTable.findFrom_end _ (Nat.le_of_not_lt past)]
      exact ⟨rfl, rfl⟩

theorem scanFuel_enough (size : U32) : size.toNat / 64 - 0 < scanFuel := by
  have small := size.isLt
  rw [scanFuel]
  omega

theorem lookup_find (s : BlockTrees) (t : U32) (size : U32) (a : List U8) :
    (((dirTable s t size).find (SlotTable.holds a)).map fun j => (dirEntry s t j).inodeNum) =
      (dirTable s t size).lookup a := by
  rw [SlotTable.lookup]
  cases found : (dirTable s t size).find (SlotTable.holds a) with
  | none => rfl
  | some j =>
    obtain ⟨inside, held, -⟩ := SlotTable.find_eq_some found
    obtain ⟨v, entry⟩ := SlotTable.holds_iff.mp held
    have live : (dirEntry s t j).name 0 ≠ 0 := by
      intro empty
      have none := (dirTable_free s t inside).mpr empty
      rw [entry] at none
      cases none
    rw [Option.map_some, Option.bind_some, dirTable_slot s t inside, Dentry.slot_of_live live,
      Option.map_some]

/-- `dentry_search` looks the name up and changes nothing. -/
theorem dentrySearch_yields (sane : cfg.sb.Sane) (sound : Store.Sound cfg.sb st)
    (shows : Caches s i st t) (dir : Directory st.trees t (s.inodeCache i).diskInfo) (name : Bytes) :
    Yields (dentrySearch cfg i name) s fun r s' =>
      s' = s ∧ r = (dirMap st.trees t (s.inodeCache i).diskInfo (nameText name)).getD minusOne := by
  simp only [dentrySearch, diskInfo, Ends.bind_iff, Ends.get_iff, Ends.pure_iff]
  refine Ends.ite (fun file => absurd dir.type file) fun _ => ?_
  have scan := dentrySearchFrom_yields sane sound shows dir name scanFuel (Nat.zero_le _)
    (scanFuel_enough _)
  rw [dirMap, ← lookup_find]
  exact scan

/-- The scan of `dentry_create`. -/
theorem dentryCreateScan_yields (sane : cfg.sb.Sane) (sound : Store.Sound cfg.sb st)
    (shows : Caches s i st t) (dir : Directory st.trees t (s.inodeCache i).diskInfo) (name : Bytes)
    (fuel : ℕ) {k : ℕ} (bound : k ≤ (s.inodeCache i).diskInfo.size.toNat / 64)
    (enough : (s.inodeCache i).diskInfo.size.toNat / 64 - k < fuel) (emptyOff : U32) :
    Yields (dentryCreateScan cfg i name fuel (BitVec.ofNat 32 (64 * k)) emptyOff) s fun r s' =>
      s' = s ∧ r = if ((dirTable st.trees t (s.inodeCache i).diskInfo.size).findFrom
          (SlotTable.holds (nameText name)) k).isSome then none
        else some (if emptyOff = minusOne then
          offsetOf ((dirTable st.trees t (s.inodeCache i).diskInfo.size).findFrom Option.isNone k)
          else emptyOff) := by
  induction fuel generalizing k emptyOff with
  | zero => omega
  | succ fuel ih =>
    rw [dentryCreateScan]
    simp only [diskInfo, Ends.bind_iff, Ends.get_iff, Ends.pure_iff]
    refine Ends.ite (fun more => ?_) fun past => ?_
    · have inside := (offset_lt bound dir.size).mp more
      have test := dirTable_holds st.trees t inside name
      have free := dirTable_free st.trees t inside
      rw [SlotTable.findFrom_step (SlotTable.holds (nameText name)) inside,
        SlotTable.findFrom_step Option.isNone inside, Ends.bind_iff]
      refine (readDentry_yields sane sound shows dir inside).mono ?_
      rintro _ _ ⟨rfl, rfl⟩
      refine Ends.ite (fun empty => ?_) fun live => ?_
      · rw [if_neg (fun held => (test.mp held).1 empty), next_offset,
          if_pos (free.mpr empty)]
        refine (ih (by omega) (by omega) _).mono ?_
        rintro _ _ ⟨rfl, rfl⟩
        refine ⟨rfl, ?_⟩
        by_cases first : emptyOff = minusOne
        · rw [if_pos first, if_neg (offset_ne_minusOne k), if_pos first]
          rfl
        · rw [if_neg first]
          simp only [first, ↓reduceIte]
      · refine Ends.ite (fun same => ?_) fun differs => ?_
        · rw [if_pos (test.mpr ⟨live, same⟩)]
          exact ⟨rfl, rfl⟩
        · rw [if_neg (fun held => differs (test.mp held).2), next_offset,
            if_neg (fun none => live (free.mp none))]
          exact ih (by omega) (by omega) _
    · have past := (offset_lt bound dir.size).not.mp past
      rw [SlotTable.findFrom_end (SlotTable.holds (nameText name)) (Nat.le_of_not_lt past),
        SlotTable.findFrom_end Option.isNone (Nat.le_of_not_lt past)]
      refine ⟨rfl, ?_⟩
      by_cases first : emptyOff = minusOne
      · simp [first, offsetOf]
      · simp [first]

/-- What writing entry `k` of the directory in slot `i` returns and leaves. -/
def writeEntry (cfg : FsConfig) (s : FsState) (i k : ℕ) (src : Bytes) : U32 × FsState :=
  let ip := s.inodeCache i
  let w := LabKernel.inodeWriteData cfg.sb ip.inodeNum ip.diskInfo (BitVec.ofNat 32 (64 * k)) dentrySize
    src s.disk
  (w.1, (s.setDisk w.2.2).setInode i (ip.written cfg.sb w.2.1 w.2.2))

/-- `dentry_create` fails on a name that is there; otherwise it writes the first free entry or the one
behind the last. -/
theorem dentryCreate_yields (sane : cfg.sb.Sane) (sound : Store.Sound cfg.sb st)
    (shows : Caches s i st t) (dir : Directory st.trees t (s.inodeCache i).diskInfo) (inodeNum : U32)
    (name : Bytes) :
    let table := dirTable st.trees t (s.inodeCache i).diskInfo.size
    let k := table.firstFree.getD table.size
    let w := writeEntry cfg s i k (newDentry name inodeNum).encode
    Yields (dentryCreate cfg i inodeNum name) s fun r s' =>
      if table.lookup (nameText name) = none then
        r = (if w.1 = dentrySize then BitVec.ofNat 32 (64 * k) else minusOne) ∧ s' = w.2
      else r = minusOne ∧ s' = s := by
  intro table k w
  have scan : Yields (dentryCreateScan cfg i name scanFuel 0 minusOne) s fun r s' => s' = s ∧
      r = if (table.find (SlotTable.holds (nameText name))).isSome then none
        else some (if minusOne = minusOne then offsetOf table.firstFree else minusOne) :=
    dentryCreateScan_yields sane sound shows dir name scanFuel (Nat.zero_le _) (scanFuel_enough _) minusOne
  have present : table.lookup (nameText name) = none ↔
      (table.find (SlotTable.holds (nameText name))).isSome = false := by
    rw [← lookup_find, Option.map_eq_none_iff, Option.isSome_eq_false_iff, Option.isNone_iff_eq_none]
  simp only [dentryCreate, diskInfo, Ends.bind_iff, Ends.get_iff, Ends.pure_iff]
  refine Ends.ite (fun file => absurd dir.type file) fun _ => ?_
  rw [Ends.bind_iff]
  refine scan.mono ?_
  rintro _ s₁ ⟨same, rfl⟩
  rw [same]
  by_cases there : (table.find (SlotTable.holds (nameText name))).isSome = true
  · have found : ¬table.lookup (nameText name) = none := fun none =>
      Bool.false_ne_true ((present.mp none).symm.trans there)
    simp only [if_pos there, if_neg found]
    exact ⟨rfl, rfl⟩
  · have absent := present.mpr (Bool.eq_false_iff.mpr there)
    simp only [if_neg there, if_pos absent, ↓reduceIte]
    have place : (if offsetOf table.firstFree ≠ minusOne then offsetOf table.firstFree
        else (s.inodeCache i).diskInfo.size) = BitVec.ofNat 32 (64 * k) := by
      cases free : table.firstFree with
      | some j =>
        have number : k = j := by simp only [k, free, Option.getD_some]
        rw [number]
        exact if_pos (offset_ne_minusOne j)
      | none =>
        have number : k = table.size := by simp only [k, free, Option.getD_none]
        change k = (s.inodeCache i).diskInfo.size.toNat / 64 at number
        have aligned := dir.size
        have small := (s.inodeCache i).diskInfo.size.isLt
        rw [number, if_neg (by simp [offsetOf])]
        apply BitVec.eq_of_toNat_eq
        rw [BitVec.toNat_ofNat, Nat.mod_eq_of_lt (by omega)]
        omega
    simp only [Fs.inodeWriteData, Ends.bind_iff, Ends.get_iff, Ends.set_iff, Ends.pure_iff]
    rw [place]
    exact ⟨rfl, rfl⟩

/-- The scan of `dentry_delete`. -/
private theorem dentryDeleteFrom_yields (sane : cfg.sb.Sane) (sound : Store.Sound cfg.sb st)
    (shows : Caches s i st t) (dir : Directory st.trees t (s.inodeCache i).diskInfo) (name : Bytes)
    (fuel : ℕ) {k : ℕ} (bound : k ≤ (s.inodeCache i).diskInfo.size.toNat / 64)
    (enough : (s.inodeCache i).diskInfo.size.toNat / 64 - k < fuel) :
    Yields (dentryDeleteFrom cfg i name fuel (BitVec.ofNat 32 (64 * k))) s fun r s' =>
      match (dirTable st.trees t (s.inodeCache i).diskInfo.size).findFrom
        (SlotTable.holds (nameText name)) k with
      | none => r = minusOne ∧ s' = s
      | some j =>
        let w := writeEntry cfg s i j fun _ => 0
        r = (if w.1 = dentrySize then (dirEntry st.trees t j).inodeNum else minusOne) ∧ s' = w.2 := by
  induction fuel generalizing k with
  | zero => omega
  | succ fuel ih =>
    rw [dentryDeleteFrom]
    simp only [diskInfo, Ends.bind_iff, Ends.get_iff, Ends.pure_iff]
    refine Ends.ite (fun more => ?_) fun past => ?_
    · have inside := (offset_lt bound dir.size).mp more
      have test := dirTable_holds st.trees t inside name
      rw [SlotTable.findFrom_step _ inside, Ends.bind_iff]
      refine (readDentry_yields sane sound shows dir inside).mono ?_
      rintro _ _ ⟨rfl, rfl⟩
      refine Ends.ite (fun same => ?_) fun differs => ?_
      · rw [if_pos (test.mpr same)]
        simp only [Fs.inodeWriteData, Ends.bind_iff, Ends.get_iff, Ends.set_iff, Ends.pure_iff]
        exact ⟨rfl, rfl⟩
      · rw [if_neg (fun held => differs (test.mp held)), next_offset]
        exact ih (by omega) (by omega)
    · have past := (offset_lt bound dir.size).not.mp past
      rw [SlotTable.findFrom_end _ (Nat.le_of_not_lt past)]
      exact ⟨rfl, rfl⟩

/-- `dentry_delete` clears the entry of the name, if there is one. -/
theorem dentryDelete_yields (sane : cfg.sb.Sane) (sound : Store.Sound cfg.sb st)
    (shows : Caches s i st t) (dir : Directory st.trees t (s.inodeCache i).diskInfo) (name : Bytes) :
    Yields (dentryDelete cfg i name) s fun r s' =>
      match (dirTable st.trees t (s.inodeCache i).diskInfo.size).find
        (SlotTable.holds (nameText name)) with
      | none => r = minusOne ∧ s' = s
      | some j =>
        let w := writeEntry cfg s i j fun _ => 0
        r = (if w.1 = dentrySize then (dirEntry st.trees t j).inodeNum else minusOne) ∧ s' = w.2 := by
  simp only [dentryDelete, diskInfo, Ends.bind_iff, Ends.get_iff, Ends.pure_iff]
  refine Ends.ite (fun file => absurd dir.type file) fun _ => ?_
  exact dentryDeleteFrom_yields sane sound shows dir name scanFuel (Nat.zero_le _) (scanFuel_enough _)

end Fs

end LabKernel
