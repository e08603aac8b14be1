import LabKernel.Fs.Ownership

/-! # The translation of logical blocks

`locate_or_add_block` is a stable and injective map from the logical blocks of each inode to data
blocks: it extends the map at one place and moves nothing. A read goes through the same translation,
so it leaves the file system alone exactly when the range it reads has no hole.
-/

namespace LabKernel

open BlockTrees

variable {sb : SuperBlock}

/-! ## Walks without and with gaps -/

namespace BlockTrees.Filled

variable {t : U32} {ps : List Place} {s s' : BlockTrees} {ok : Bool}

/-- A walk over filled places changes nothing. -/
theorem of_present (walk : Filled sb t ps s ok s') (present : ∀ p ∈ ps, s.block t p ≠ 0) :
    ok = true ∧ s' = s := by
  induction walk with
  | done => exact ⟨rfl, rfl⟩
  | present _ _ ih => exact ih fun p on => present p (List.mem_cons_of_mem _ on)
  | attach step _ _ => exact absurd step.empty (present _ (List.mem_cons_self ..))
  | full _ empty _ => exact absurd empty (present _ (List.mem_cons_self ..))

/-- What a walk enters at an empty place was free before. -/
theorem block_fresh (walk : Filled sb t ps s ok s') {p : Place} (valid : p.Valid)
    (empty : s.block t p = 0) (filled : s'.block t p ≠ 0) :
    ∃ k < sb.dataBlocks, s.disk.used sb k = false ∧ s'.block t p = dataBlock sb k := by
  induction walk with
  | done | full => exact absurd empty filled
  | present _ _ ih => exact ih empty filled
  | @attach q ps k s s₁ ok s' step rest ih =>
    by_cases here : s₁.block t p = 0
    · obtain ⟨j, inside, free, entered⟩ := ih here filled
      rw [step.used j inside, Bool.or_eq_false_iff] at free
      exact ⟨j, inside, free.2, entered⟩
    · have same := rest.block_kept valid here
      rw [step.block_eq t valid] at here same
      by_cases new : t = t ∧ p = q
      · rw [if_pos new] at same
        exact ⟨k, step.inside, step.free, same⟩
      · rw [if_neg new] at here
        exact absurd empty here

/-- A walk that fails does not come to its last place. -/
theorem last_kept {p : Place} (walk : Filled sb t (ps ++ [p]) s false s') (valid : p.Valid)
    (once : p ∉ ps) : s'.block t p = s.block t p := by
  induction ps generalizing s with
  | nil =>
    cases walk with
    | present _ rest => cases rest
    | attach _ rest => cases rest
    | full => rfl
  | cons q ps ih =>
    have later : p ∉ ps := fun on => once (List.mem_cons_of_mem _ on)
    cases walk with
    | present _ rest => exact ih rest later
    | attach step rest =>
      rw [ih rest later, step.block_eq t valid, if_neg]
      rintro ⟨-, rfl⟩
      exact once (List.mem_cons_self ..)
    | full => rfl

end BlockTrees.Filled

/-- Above a place, every place of its path names an index block. -/
theorem path_above {p q : Place} (valid : q.Valid) (on : p ∈ q.path) (other : p ≠ q) :
    0 < p.level := by
  rcases Place.path_split.mp on with same | ⟨j, deeper⟩
  · exact absurd same other
  · exact (path_valid valid deeper).2.1

/-- The walk to a logical block passes no other one. -/
theorem leafPlace_path {n m : ℕ} (bound : n < maxBlocks) (on : leafPlace m ∈ (leafPlace n).path) :
    m = n := by
  by_contra other
  have above := path_above (leafPlace_valid bound) on fun same => other (leafPlace_injective same)
  rw [leafPlace_level] at above
  exact absurd above (Nat.lt_irrefl 0)

private theorem path_size {p q : Place} (on : p ∈ q.path) : sizeOf p ≤ sizeOf q := by
  induction q with
  | root i => rw [List.mem_singleton.mp on]
  | sub q j ih =>
    rcases List.mem_append.mp on with above | here
    · have := ih above
      simp only [Place.sub.sizeOf_spec]
      omega
    · rw [List.mem_singleton.mp here]

/-- A place is the last of its path and occurs there once. -/
theorem Place.path_last (p : Place) : ∃ rest, p.path = rest ++ [p] ∧ p ∉ rest := by
  cases p with
  | root i => exact ⟨[], rfl, List.not_mem_nil⟩
  | sub q j =>
    refine ⟨q.path, rfl, fun on => ?_⟩
    have small := path_size on
    simp only [Place.sub.sizeOf_spec] at small
    omega

/-! ## The translation -/

/-- What a call of `locate_or_add_block` with a block as its result guarantees: the block is mapped
to logical block `n` of inode `t`, the other mappings are as before, an existing mapping stays, and a
new block was free, is entered nowhere else and reads as zero. -/
structure Located (sb : SuperBlock) (s : BlockTrees) (t : U32) (n : ℕ) (b : U32) (s' : BlockTrees) :
    Prop where
  mapped : s'.block t (leafPlace n) = b
  others : ∀ u, ∀ m < maxBlocks, u ≠ t ∨ m ≠ n → s'.block u (leafPlace m) = s.block u (leafPlace m)
  stable : s.block t (leafPlace n) ≠ 0 → b = s.block t (leafPlace n)
  fresh : s.block t (leafPlace n) = 0 →
    (∃ k < sb.dataBlocks, s.disk.used sb k = false ∧ b = dataBlock sb k) ∧
    (∀ u p, p.Valid → s.block u p ≠ b) ∧ s'.disk b.toNat = fun _ => 0
  injective : ∀ u p, p.Valid → s'.block u p = b → u = t ∧ p = leafPlace n

/-- A walk to a logical block moves no mapping but its own. -/
private theorem mapping_other {s s' : BlockTrees} {t : U32} {n : ℕ} {ok : Bool} (bound : n < maxBlocks)
    (walk : Filled sb t (leafPlace n).path s ok s') (u : U32) {m : ℕ} (small : m < maxBlocks)
    (other : u ≠ t ∨ m ≠ n) : s'.block u (leafPlace m) = s.block u (leafPlace m) :=
  walk.block_off (leafPlace_valid small)
    (other.imp_right fun different on => different (leafPlace_path bound on))

/-- A walk that fails moves no mapping at all. -/
private theorem mapping_failed {s s' : BlockTrees} {t : U32} {n : ℕ} (bound : n < maxBlocks)
    (walk : Filled sb t (leafPlace n).path s false s') (u : U32) {m : ℕ} (small : m < maxBlocks) :
    s'.block u (leafPlace m) = s.block u (leafPlace m) := by
  by_cases here : u = t ∧ m = n
  · obtain ⟨rfl, rfl⟩ := here
    obtain ⟨rest, path, once⟩ := (leafPlace m).path_last
    rw [path] at walk
    exact walk.last_kept (leafPlace_valid bound) once
  · exact mapping_other bound walk u small (not_and_or.mp here)

private theorem located_of_walk (sane : sb.Sane) {s s' : BlockTrees} (owned : Owned sb s) {t : U32}
    {n : ℕ} (bound : n < maxBlocks) {b : U32} (walk : Filled sb t (leafPlace n).path s true s')
    (mapped : s'.block t (leafPlace n) = b) : Located sb s t n b s' := by
  have valid := leafPlace_valid bound
  have after := walk.owned sane owned
  have filled : b ≠ 0 := mapped ▸ walk.block_filled sane valid (leafPlace_mem_path n)
  refine ⟨mapped, fun u m => mapping_other bound walk u, fun present => ?_, fun empty => ?_,
    fun u p other same => ?_⟩
  · rw [← mapped, walk.block_kept valid present]
  · obtain ⟨k, inside, free, entered⟩ := walk.block_fresh valid empty (mapped ▸ filled)
    rw [mapped] at entered
    refine ⟨⟨k, inside, free, entered⟩, fun u p other same => ?_, ?_⟩
    · obtain ⟨j, -, number, taken⟩ := owned.stored u p other (same ▸ filled)
      rw [same, entered, dataBlock_toNat sane inside] at number
      obtain rfl : k = j := by omega
      rw [free] at taken
      cases taken
    · have zeros := walk.content_eq sane t bound
      rwa [content, content, if_pos empty, mapped, if_neg filled] at zeros
  · exact after.once u p t _ other valid (same.trans mapped.symm) (same ▸ filled)

/-- `locate_or_add_block` is a stable injective translation: a block that it returns is mapped to the
logical block, a second call finds it again and changes nothing, and no other mapping moves; where it
returns `-1` no mapping moved, and beyond the last logical block nothing changes. -/
theorem locate_stable (sane : sb.Sane) {s : BlockTrees} (owned : Owned sb s) (t : U32) (n : ℕ) :
    let r := locateOrAddBlock sb (s.index t) n s.disk
    let s' := s.put t r.2.1 r.2.2
    if n < maxBlocks then
      if r.1 = minusOne then ∀ u, ∀ m < maxBlocks, s'.block u (leafPlace m) = s.block u (leafPlace m)
      else Located sb s t n r.1 s' ∧ locateOrAddBlock sb r.2.1 n r.2.2 = r
    else r = (minusOne, s.index t, s.disk) := by
  intro r s'
  by_cases bound : n < maxBlocks
  · obtain ⟨walk, mapped⟩ := locateOrAddBlock_walk sane owned t bound
    change Filled sb t (leafPlace n).path s (decide (r.1 ≠ minusOne)) s' at walk
    rw [if_pos bound]
    by_cases failed : r.1 = minusOne
    · rw [if_pos failed]
      rw [decide_eq_false (fun found => found failed)] at walk
      exact fun u m => mapping_failed bound walk u
    · rw [if_neg failed]
      rw [decide_eq_true failed] at walk
      have located := located_of_walk sane owned bound walk (mapped failed)
      refine ⟨located, ?_⟩
      have after := walk.owned sane owned
      have present := walk.block_filled sane (leafPlace_valid bound) (leafPlace_mem_path n)
      obtain ⟨again, mapped'⟩ := locateOrAddBlock_walk sane after t bound
      obtain ⟨found, same⟩ := again.of_present fun p on => block_path on present
      have mapped' := mapped' (of_decide_eq_true found)
      rw [same, located.mapped] at mapped'
      have index : s'.index t = r.2.1 := put_index ..
      have disk : s'.disk = r.2.2 := rfl
      rw [index, disk] at same mapped'
      refine Prod.ext mapped'.symm (Prod.ext ?_ (congrArg BlockTrees.disk same))
      have table := congrArg (BlockTrees.index · t) same
      simpa only [put_index, index] using table
  · rw [if_neg bound]
    have far : maxBlocks = 10 + 2 * 1024 + 1024 * 1024 := rfl
    change locateOrAddBlock sb (s.index t) n s.disk = _
    unfold locateOrAddBlock
    rw [if_neg (show ¬n < inodeIndex1 by simp only [inodeIndex1]; omega)]
    dsimp only
    rw [if_neg (show ¬n - inodeIndex1 < 2 * 1024 by simp only [inodeIndex1]; omega),
      if_neg (show ¬n - inodeIndex1 - 2 * 1024 < 1024 * 1024 by simp only [inodeIndex1]; omega)]

/-- In a fresh file, block 10 is entered below a new index block. -/
theorem locate_stable_blank :
    let s : BlockTrees := ⟨fun _ => Index.empty, fun _ _ => 0⟩
    let r := locateOrAddBlock mkfsSuperBlock (s.index 0) 10 s.disk
    r.1 = 1029 ∧ locateOrAddBlock mkfsSuperBlock r.2.1 10 r.2.2 = r := by
  intro s r
  have owned : Owned mkfsSuperBlock s := by
    have empty (t : U32) (p : Place) : s.block t p = 0 := by
      have none := block_empty s t s.disk p
      rwa [show Index.empty = s.index t from rfl, put_same] at none
    exact ⟨fun t p _ filled => absurd (empty t p) filled, fun t p _ _ _ _ _ filled =>
      absurd (empty t p) filled⟩
  have stable := locate_stable mkfsSuperBlock_sane owned 0 10
  have block : r.1 = 1029 := by decide +kernel
  dsimp only at stable
  change if 10 < maxBlocks then if r.1 = minusOne then _ else _ ∧ _ = r else _ at stable
  rw [if_pos (by decide), block, if_neg (by decide)] at stable
  exact ⟨block, stable.2⟩

/-! ## Reading -/

namespace BlockTrees.Passes

variable {t : U32} {stop cur m : ℕ} {s s' : BlockTrees}

/-- A reading pass over mapped blocks comes to its end and changes nothing. -/
theorem of_mapped (passes : Passes sb t stop reading cur s m s')
    (mapped : ∀ n ∈ touched cur stop, s.block t (leafPlace n) ≠ 0) : s' = s ∧ m = stop - cur := by
  induction passes with
  | done past => exact ⟨rfl, by omega⟩
  | full more walk =>
    rw [touched_step more (Nat.le_refl _), List.forall_mem_cons] at mapped
    have first := mapped.1
    have stuck := (walk.of_present fun p on => block_path on first).1
    cases stuck
  | block more walk step _ ih =>
    rw [touched_step more (Nat.le_refl _), List.forall_mem_cons] at mapped
    have first := mapped.1
    obtain ⟨-, rfl⟩ := walk.of_present fun p on => block_path on first
    cases step
    obtain ⟨rfl, rest⟩ := ih mapped.2
    have := chunkLen_spec more
    exact ⟨rfl, by omega⟩

/-- A reading pass that comes to its end has mapped all blocks of its range. -/
theorem mapped_of_end (sane : sb.Sane) (limit : stop ≤ 2 ^ 32)
    (passes : Passes sb t stop reading cur s m s') (owned : Owned sb s) (all : stop ≤ cur + m) :
    ∀ n ∈ touched cur stop, s'.block t (leafPlace n) ≠ 0 := by
  induction passes with
  | done past =>
    rw [touched_past past]
    exact fun _ on => absurd on List.not_mem_nil
  | full more walk => omega
  | @block cur s s₁ s₂ m s' more walk step rest ih =>
    cases step
    rw [touched_step more (Nat.le_refl _), List.forall_mem_cons]
    have after := walk.owned sane owned
    refine ⟨?_, ih after (by omega)⟩
    have valid := leafPlace_valid (block_bound limit more)
    have filled := walk.block_filled sane valid (leafPlace_mem_path _)
    rwa [(rest.kept sane limit (handles_reading t stop) after).1 t _ valid filled]

end BlockTrees.Passes

namespace Store

/-- A read leaves the disk and the cached record alone and comes to its end. -/
structure ReadPure (sb : SuperBlock) (s : Store) (info : InodeDisk) (offset len : U32)
    (dst : Bytes) : Prop where
  disk : (inodeReadData sb info offset len dst s.disk).2.2.2 = s.disk
  record : (inodeReadData sb info offset len dst s.disk).2.1 = info
  count : (inodeReadData sb info offset len dst s.disk).1.toNat =
    readStop info offset len - offset.toNat

/-- A read changes nothing exactly when every block of the range that it reads is there. -/
theorem readPure_iff (sane : sb.Sane) {s : Store} (sound : Sound sb s) {t : U32} {info : InodeDisk}
    (image : s.image t = some info) (offset len : U32) (dst : Bytes) :
    ReadPure sb s info offset len dst ↔
      ∀ n ∈ touched offset.toNat (readStop info offset len), s.trees.block t (leafPlace n) ≠ 0 := by
  have limit := readStop_le info offset len
  have loaded := trees_index image
  obtain ⟨m, passes, count, record, -⟩ := inodeReadData_spec sane sound.owned loaded.symm offset len dst
  rw [trees_disk] at passes count record
  constructor
  · rintro ⟨disk, same, all⟩
    rw [disk, same, ← loaded, put_same] at passes
    exact passes.mapped_of_end sane limit sound.owned (by omega)
  · intro mapped
    obtain ⟨same, all⟩ := passes.of_mapped mapped
    refine ⟨congrArg BlockTrees.disk same, ?_, count.trans all⟩
    have table := congrArg (BlockTrees.index · t) same
    simp only [put_index, loaded] at table
    rw [record, table]

/-- A file of one block reads as it is. -/
theorem readPure_oneBlock :
    let s := run mkfsSuperBlock blank [.create inodeTypeData 0 0, .write 0 0 100 fun _ => 7]
    ∃ info, s.image 0 = some info ∧ (ReadPure mkfsSuperBlock s info 10 50 (fun _ => 0) ↔
      ∀ n ∈ touched 10 (readStop info 10 50), s.trees.block 0 (leafPlace n) ≠ 0) := by
  intro s
  have sound : Sound mkfsSuperBlock s := run_sound mkfsSuperBlock_sane
    ⟨blank_imaged _, (blocksOwned_iff _).mp fun _ _ _ image => nomatch image⟩ _
  have some : (s.image 0).isSome = true := by decide +kernel
  obtain ⟨info, image⟩ := Option.isSome_iff_exists.mp some
  exact ⟨info, image, readPure_iff mkfsSuperBlock_sane sound image 10 50 _⟩

/-- Reading one byte of a hole allocates a block: bit 1 of the data bitmap was clear and is set. -/
theorem readPure_hole :
    let s := run mkfsSuperBlock blank [.create inodeTypeData 0 0, .write 0 4096 1 fun _ => 7]
    ∃ info, s.image 0 = some info ∧ ¬ReadPure mkfsSuperBlock s info 0 1 fun _ => 0 := by
  intro s
  have after : (s.image 0).map (fun info => (s.disk.used mkfsSuperBlock 1,
      (inodeReadData mkfsSuperBlock info 0 1 (fun _ => 0) s.disk).2.2.2.used mkfsSuperBlock 1)) =
      some (false, true) := by decide +kernel
  obtain ⟨info, image, bits⟩ := Option.map_eq_some_iff.mp after
  refine ⟨info, image, fun pure => ?_⟩
  rw [pure.disk, Prod.mk.injEq] at bits
  exact Bool.false_ne_true (bits.1.symm.trans bits.2)

/-- Every block of a file is there. -/
def HoleFree (s : Store) (t : U32) (info : InodeDisk) : Prop :=
  ∀ n, n * blockSize < info.size.toNat → s.trees.block t (leafPlace n) ≠ 0

/-- The bytes of a file between an offset and the end of a request. -/
def readLength (info : InodeDisk) (offset len : U32) : ℕ :=
  if offset ≤ info.size then min len.toNat (info.size.toNat - offset.toNat) else 0

/-- A read without holes on its way moves all bytes of its range. -/
theorem read_count (sane : sb.Sane) {s : Store} (sound : Sound sb s) {t : U32} {info : InodeDisk}
    (image : s.image t = some info) (whole : HoleFree s t info) (offset len : U32) (dst : Bytes) :
    (inodeReadData sb info offset len dst s.disk).1.toNat =
      readStop info offset len - offset.toNat := by
  refine ((readPure_iff sane sound image offset len dst).mpr fun n touch => whole n ?_).count
  obtain ⟨more, -, high⟩ := mem_touched.mp touch
  have stop : readStop info offset len ≤ info.size.toNat := by
    unfold readStop
    split
    · exact Nat.zero_le _
    · exact Nat.min_le_right ..
  simp only [blockSize] at *
  omega

/-- A file without holes reads to the end of the request or of the file exactly when the end of the
request does not wrap, or the request starts behind the file. -/
theorem read_length_iff (sane : sb.Sane) {s : Store} (sound : Sound sb s) {t : U32} {info : InodeDisk}
    (image : s.image t = some info) (data : info.type = inodeTypeData) (whole : HoleFree s t info)
    (offset len : U32) (dst : Bytes) :
    (inodeReadData sb info offset len dst s.disk).1.toNat = readLength info offset len ↔
      offset.toNat + len.toNat < 2 ^ 32 ∨ info.size ≤ offset := by
  have small := info.size.isLt
  have length := len.isLt
  rw [read_count sane sound image whole, readStop, if_neg (fun both => both.1 data), readLength,
    BitVec.toNat_add]
  simp only [BitVec.le_def]
  by_cases wraps : offset.toNat + len.toNat < 2 ^ 32
  · rw [Nat.mod_eq_of_lt wraps]
    refine iff_of_true ?_ (Or.inl wraps)
    split <;> omega
  · have total : (offset.toNat + len.toNat) % 2 ^ 32 = offset.toNat + len.toNat - 2 ^ 32 := by omega
    rw [total]
    by_cases past : info.size.toNat ≤ offset.toNat
    · refine iff_of_true ?_ (Or.inr past)
      split <;> omega
    · refine iff_of_false ?_ (by omega)
      rw [if_pos (by omega)]
      omega

/-- A file of 100 bytes in one block. -/
private theorem oneBlock_file :
    let s := run mkfsSuperBlock blank [.create inodeTypeData 0 0, .write 0 0 100 fun _ => 7]
    ∃ info, s.image 0 = some info ∧ info.type = inodeTypeData ∧ info.size = 100 ∧
      HoleFree s 0 info := by
  intro s
  have after : (s.image 0).map (fun info => (info.type, info.size, info.index.get 0)) =
      some (inodeTypeData, 100, 1028) := by decide +kernel
  obtain ⟨info, image, fields⟩ := Option.map_eq_some_iff.mp after
  obtain ⟨type, size, first⟩ : info.type = inodeTypeData ∧ info.size = 100 ∧
      info.index.get 0 = 1028 := by simpa only [Prod.mk.injEq] using fields
  refine ⟨info, image, type, size, fun n inside => ?_⟩
  obtain rfl : n = 0 := by
    rw [size] at inside
    simp only [blockSize] at inside
    have : (100 : U32).toNat = 100 := rfl
    omega
  change (s.trees.index 0).get 0 ≠ 0
  rw [trees_index image, first]
  decide

/-- A read of 50 bytes at offset 10 of that file. -/
theorem read_length_oneBlock :
    let s := run mkfsSuperBlock blank [.create inodeTypeData 0 0, .write 0 0 100 fun _ => 7]
    ∃ info, s.image 0 = some info ∧
      ((inodeReadData mkfsSuperBlock info 10 50 (fun _ => 0) s.disk).1.toNat = readLength info 10 50 ↔
        (10 : U32).toNat + (50 : U32).toNat < 2 ^ 32 ∨ info.size ≤ 10) := by
  intro s
  obtain ⟨info, image, type, -, whole⟩ := oneBlock_file
  have sound : Sound mkfsSuperBlock s := run_sound mkfsSuperBlock_sane
    ⟨blank_imaged _, (blocksOwned_iff _).mp fun _ _ _ image => nomatch image⟩ _
  exact ⟨info, image, read_length_iff mkfsSuperBlock_sane sound image type whole 10 50 _⟩

/-- A read of `-1` bytes at offset 10 of that file returns nothing, though 90 bytes follow. -/
theorem read_length_wraps :
    let s := run mkfsSuperBlock blank [.create inodeTypeData 0 0, .write 0 0 100 fun _ => 7]
    ∃ info, s.image 0 = some info ∧ info.type = inodeTypeData ∧ HoleFree s 0 info ∧
      readLength info 10 minusOne = 90 ∧
      (inodeReadData mkfsSuperBlock info 10 minusOne (fun _ => 0) s.disk).1 = 0 := by
  intro s
  obtain ⟨info, image, type, size, whole⟩ := oneBlock_file
  have sound : Sound mkfsSuperBlock s := run_sound mkfsSuperBlock_sane
    ⟨blank_imaged _, (blocksOwned_iff _).mp fun _ _ _ image => nomatch image⟩ _
  refine ⟨info, image, type, whole, ?_, BitVec.eq_of_toNat_eq ?_⟩
  · rw [readLength, size]
    decide
  · rw [read_count mkfsSuperBlock_sane sound image whole, readStop, size,
      if_neg (fun both => both.1 type)]
    decide

end Store

end LabKernel
