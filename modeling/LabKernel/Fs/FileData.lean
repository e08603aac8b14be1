import LabKernel.Fs.Locate

/-! # Reading and writing file data

Both data loops pass over the blocks of a range of bytes. `Passes` is such a run, with the effect on
one located block left open; what the loops do to trees, free blocks and index tables is proved of
it once. `fileByte` is a file as its user sees it: reading returns its bytes, writing changes the
bytes written, and neither touches another file.
-/

namespace LabKernel

namespace BlockTrees

variable {sb : SuperBlock}

/-! ## Changes off the trees -/

/-- A change that leaves every entry and the data bitmap alone. -/
structure Kept (sb : SuperBlock) (s s' : BlockTrees) : Prop where
  index : s'.index = s.index
  block : ∀ u q, q.Valid → s'.block u q = s.block u q
  used : ∀ k < sb.dataBlocks, s'.disk.used sb k = s.disk.used sb k

namespace Kept

variable {s s' : BlockTrees}

private theorem refl (s : BlockTrees) : Kept sb s s := ⟨rfl, fun _ _ _ => rfl, fun _ _ => rfl⟩

theorem owned (kept : Kept sb s s') (before : Owned sb s) : Owned sb s' := by
  constructor
  · intro u q valid filled
    rw [kept.block u q valid] at filled ⊢
    obtain ⟨k, inside, number, taken⟩ := before.stored u q valid filled
    exact ⟨k, inside, number, by rw [kept.used k inside, taken]⟩
  · intro u q v r validQ validR same filled
    rw [kept.block u q validQ, kept.block v r validR] at same
    rw [kept.block u q validQ] at filled
    exact before.once u q v r validQ validR same filled

private theorem freeCount (kept : Kept sb s s') : freeCount sb s' = freeCount sb s := by
  refine congrArg Finset.card (Finset.filter_congr fun k member => ?_)
  rw [kept.used k (Finset.mem_range.mp member)]

private theorem missing (kept : Kept sb s s') {t : U32} {ps : List Place} (valid : ∀ q ∈ ps, q.Valid) :
    s'.missing t ps = s.missing t ps := by
  refine congrArg Finset.card (Finset.filter_congr fun q member => ?_)
  rw [kept.block t q (valid q (List.mem_toFinset.mp member))]

end Kept

/-- Block writes that miss every index block and the data bitmap. -/
private theorem kept_write {s : BlockTrees} {b : ℕ} (block : Bytes)
    (table : ∀ u q, q.Inner → s.block u q ≠ 0 → (s.block u q).toNat ≠ b)
    (map : ∀ k < sb.dataBlocks, sb.dataBitmapFirstblock + k / bitPerBlock ≠ b) :
    Kept sb s (s.store b block) := by
  refine ⟨rfl, fun u q valid => ?_, fun k inside => ?_⟩
  · change (s.store b block).forest.entry blockOf 0 u q = s.forest.entry blockOf 0 u q
    refine Forest.entry_congr (fun _ _ => Place.Inner.parent) ?_ ?_ valid.within
    · intro _
      rfl
    · intro q a j inner points
      obtain ⟨filled, rfl⟩ := blockOf_eq_some points
      exact congrArg (Bytes.u32 · (4 * j)) (Disk.write_other (table u q inner filled) ..)
  · exact Disk.bitAt_congr (Disk.write_other (map k inside) ..)

private theorem kept_writeLeaf (sane : sb.Sane) {s : BlockTrees} (owned : Owned sb s) {t : U32} {n : ℕ}
    (bound : n < maxBlocks) (filled : s.block t (leafPlace n) ≠ 0) (block : Bytes) :
    Kept sb s (s.store (s.block t (leafPlace n)).toNat block) := by
  have valid := leafPlace_valid bound
  refine kept_write block (fun u q inner present same => ?_) (fun k inside same => ?_)
  · obtain ⟨-, rfl⟩ := owned.once u q t _ inner.1 valid (BitVec.eq_of_toNat_eq same) present
    have := inner.2
    rw [leafPlace_level] at this
    omega
  · obtain ⟨m, -, number, -⟩ := owned.stored t _ valid filled
    have := bitmap_before_data sane inside
    omega

theorem kept_writeLow (sane : sb.Sane) {s : BlockTrees} (owned : Owned sb s) {b : ℕ}
    (low : b < sb.dataBitmapFirstblock) (block : Bytes) :
    Kept sb s (s.store b block) := by
  refine kept_write block (fun u q inner present same => ?_) (fun k inside same => ?_)
  · obtain ⟨m, -, number, -⟩ := owned.stored u q inner.1 present
    have := sane.dataBitmapEnd
    omega
  · have := bitmap_before_data sane inside
    omega

/-- Writing a located block changes the contents of that block of that file only. -/
theorem content_writeLeaf (sane : sb.Sane) {s : BlockTrees} (owned : Owned sb s) {t : U32} {n : ℕ}
    (bound : n < maxBlocks) (filled : s.block t (leafPlace n) ≠ 0) (block : Bytes) (u : U32) {m : ℕ}
    (small : m < maxBlocks) :
    (s.store (s.block t (leafPlace n)).toNat block).content u m =
      if u = t ∧ m = n then block else s.content u m := by
  have kept := kept_writeLeaf sane owned bound filled block
  unfold content
  rw [kept.block u _ (leafPlace_valid small)]
  by_cases here : u = t ∧ m = n
  · obtain ⟨rfl, rfl⟩ := here
    rw [if_neg filled, if_pos ⟨rfl, rfl⟩, store_disk, Disk.write_same]
  · rw [if_neg here]
    by_cases empty : s.block u (leafPlace m) = 0
    · rw [if_pos empty, if_pos empty]
    · rw [if_neg empty, if_neg empty, store_disk, Disk.write_other]
      intro same
      obtain ⟨rfl, place⟩ := owned.once u _ t _ (leafPlace_valid small) (leafPlace_valid bound)
        (BitVec.eq_of_toNat_eq same) empty
      exact here ⟨rfl, leafPlace_injective place⟩

theorem content_writeLow (sane : sb.Sane) {s : BlockTrees} (owned : Owned sb s) {b : ℕ}
    (low : b < sb.dataBitmapFirstblock) (block : Bytes) (u : U32) {m : ℕ} (small : m < maxBlocks) :
    (s.store b block).content u m = s.content u m := by
  have kept := kept_writeLow sane owned low block
  unfold content
  rw [kept.block u _ (leafPlace_valid small)]
  by_cases empty : s.block u (leafPlace m) = 0
  · rw [if_pos empty, if_pos empty]
  · obtain ⟨k, -, number, -⟩ := owned.stored u _ (leafPlace_valid small) empty
    have := sane.dataBitmapEnd
    rw [if_neg empty, if_neg empty, store_disk, Disk.write_other (by omega)]

/-! ## Files as bytes -/

/-- Byte `x` of a file; bytes of blocks that are not there read as 0. -/
def fileByte (s : BlockTrees) (t : U32) (x : ℕ) : U8 := s.content t (x / blockSize) (x % blockSize)

theorem chunkLen_spec {cur stop : ℕ} (more : cur < stop) :
    0 < chunkLen cur stop ∧ cur + chunkLen cur stop ≤ stop ∧
      cur % blockSize + chunkLen cur stop ≤ blockSize ∧
      (cur + chunkLen cur stop = stop ∨
        cur % blockSize + chunkLen cur stop = blockSize) := by
  have small : cur % blockSize < blockSize := Nat.mod_lt _ (by decide)
  unfold chunkLen
  omega

/-- The bytes of a pass lie in one block. -/
theorem chunk_block {cur stop x : ℕ} (more : cur < stop) (low : cur ≤ x)
    (high : x < cur + chunkLen cur stop) :
    x / blockSize = cur / blockSize ∧ x % blockSize = cur % blockSize + (x - cur) := by
  obtain ⟨-, -, fits, -⟩ := chunkLen_spec more
  simp only [blockSize] at *
  omega

theorem block_bound {x stop : ℕ} (limit : stop ≤ 2 ^ 32) (more : x < stop) :
    x / blockSize < maxBlocks := by
  have small : x / blockSize < 2 ^ 20 := by
    simp only [blockSize]
    omega
  exact Nat.lt_of_lt_of_le small (by decide)

/-! ## Passes over a range -/

/-- A pass over the blocks of the bytes from `cur` to `stop`: each block is located and then handled
as `handle` says; the first failure ends it. The number counts the bytes passed. -/
inductive Passes (sb : SuperBlock) (t : U32) (stop : ℕ)
    (handle : ℕ → BlockTrees → BlockTrees → Prop) : ℕ → BlockTrees → ℕ → BlockTrees → Prop
  | done {cur s} (past : stop ≤ cur) : Passes sb t stop handle cur s 0 s
  | full {cur s s'} (more : cur < stop)
      (walk : Filled sb t (leafPlace (cur / blockSize)).path s false s') :
      Passes sb t stop handle cur s 0 s'
  | block {cur s s₁ s₂ m s'} (more : cur < stop)
      (walk : Filled sb t (leafPlace (cur / blockSize)).path s true s₁)
      (step : handle cur s₁ s₂)
      (rest : Passes sb t stop handle (cur + chunkLen cur stop) s₂ m s') :
      Passes sb t stop handle cur s (chunkLen cur stop + m) s'

/-- The step of `inode_read_data` leaves the trees as they are. -/
def reading : ℕ → BlockTrees → BlockTrees → Prop := fun _ s s' => s' = s

/-- The step of `inode_write_data`: part of the located block is replaced. -/
def writing (t : U32) (src : Bytes) (offset stop : ℕ) : ℕ → BlockTrees → BlockTrees → Prop :=
  fun cur s s' =>
    let b := (s.block t (leafPlace (cur / blockSize))).toNat
    s' = s.store b
      ((s.disk b).blit (cur % blockSize) (fun i => src (cur - offset + i)) (chunkLen cur stop))

/-- The logical blocks that a pass from `cur` to `stop` goes through. -/
def touched (cur stop : ℕ) : List ℕ :=
  if cur < stop then
    List.range' (cur / blockSize) ((stop - 1) / blockSize + 1 - cur / blockSize)
  else []

/-- The places that must be filled for a pass from `cur` to `stop`. -/
def places (cur stop : ℕ) : List Place := (touched cur stop).flatMap fun n => (leafPlace n).path

theorem mem_touched {cur stop n : ℕ} :
    n ∈ touched cur stop ↔ cur < stop ∧ cur / blockSize ≤ n ∧ n ≤ (stop - 1) / blockSize := by
  unfold touched
  split
  · simp only [List.mem_range'_1, ‹cur < stop›, true_and]
    have : cur / blockSize ≤ (stop - 1) / blockSize := Nat.div_le_div_right (by omega)
    omega
  · simp only [List.not_mem_nil, false_iff]
    omega

theorem touched_past {cur stop : ℕ} (past : stop ≤ cur) : touched cur stop = [] :=
  if_neg (Nat.not_lt.mpr past)

/-- A pass touches its first block and then what the rest of it touches. -/
theorem touched_step {cur stop g : ℕ} (more : cur < g) (limit : g ≤ stop) :
    touched cur g = cur / blockSize :: touched (cur + chunkLen cur stop) g := by
  obtain ⟨positive, inside, fits, last⟩ := chunkLen_spec (Nat.lt_of_lt_of_le more limit)
  unfold touched
  rw [if_pos more]
  by_cases next : cur + chunkLen cur stop < g
  · rw [if_pos next]
    have full := last.resolve_left (by omega)
    have block : (cur + chunkLen cur stop) / blockSize = cur / blockSize + 1 := by
      simp only [blockSize] at *
      omega
    have later : cur / blockSize + 1 ≤ (g - 1) / blockSize := by
      rw [← block]
      exact Nat.div_le_div_right (by omega)
    rw [block, ← List.range'_succ]
    congr 1
    omega
  · rw [if_neg next]
    have only : (g - 1) / blockSize = cur / blockSize := by
      simp only [blockSize] at *
      omega
    rw [only, Nat.add_sub_cancel_left]
    rfl

private theorem places_step {cur stop g : ℕ} (more : cur < g) (limit : g ≤ stop) :
    places cur g = (leafPlace (cur / blockSize)).path ++ places (cur + chunkLen cur stop) g := by
  rw [places, touched_step more limit, List.flatMap_cons, places]

theorem path_valid {p q : Place} (valid : p.Valid) (on : q ∈ p.path) : q.Valid := by
  induction p with
  | root i =>
    rw [List.mem_singleton.mp on]
    exact valid
  | sub r j ih =>
    rcases List.mem_append.mp on with above | here
    · exact ih valid.1 above
    · rw [List.mem_singleton.mp here]
      exact valid

private theorem places_valid {cur stop : ℕ} (limit : stop ≤ 2 ^ 32) {q : Place}
    (on : q ∈ places cur stop) : q.Valid := by
  obtain ⟨n, touch, on⟩ := List.mem_flatMap.mp on
  obtain ⟨more, -, high⟩ := mem_touched.mp touch
  refine path_valid (leafPlace_valid ?_) on
  exact Nat.lt_of_le_of_lt high (block_bound limit (by omega))

theorem leafPlace_mem_path (n : ℕ) : leafPlace n ∈ (leafPlace n).path := by
  cases leafPlace n with
  | root i => exact List.mem_singleton_self _
  | sub q j => exact List.mem_append_right _ (List.mem_singleton_self _)

/-- What handling a located block may do. -/
def Handles (sb : SuperBlock) (t : U32) (stop : ℕ) (handle : ℕ → BlockTrees → BlockTrees → Prop) :
    Prop :=
  ∀ cur s s', Owned sb s → cur < stop → s.block t (leafPlace (cur / blockSize)) ≠ 0 →
    handle cur s s' → Kept sb s s' ∧
      (∀ u ≠ t, ∀ n < maxBlocks, s'.content u n = s.content u n) ∧
      ∀ b < sb.dataBitmapFirstblock, s'.disk b = s.disk b

theorem handles_reading (t : U32) (stop : ℕ) : Handles sb t stop reading := by
  rintro cur s _ - - - rfl
  exact ⟨.refl _, fun _ _ _ _ => rfl, fun _ _ => rfl⟩

theorem handles_writing (sane : sb.Sane) (t : U32) (src : Bytes) (offset : ℕ) {stop : ℕ}
    (limit : stop ≤ 2 ^ 32) : Handles sb t stop (writing t src offset stop) := by
  rintro cur s _ owned more filled rfl
  have bound := block_bound limit more
  refine ⟨kept_writeLeaf sane owned bound filled _, fun u other n small => ?_, fun b low => ?_⟩
  · rw [content_writeLeaf sane owned bound filled _ u small, if_neg (fun both => other both.1)]
  · obtain ⟨k, -, number, -⟩ := owned.stored t _ (leafPlace_valid bound) filled
    have := sane.dataBitmapEnd
    exact Disk.write_other (by omega) ..

namespace Passes

variable {t : U32} {stop : ℕ} {handle : ℕ → BlockTrees → BlockTrees → Prop} {cur m : ℕ}
  {s s' : BlockTrees}

/-- The located block of a pass, ready for its handling. -/
private theorem located (sane : sb.Sane) (limit : stop ≤ 2 ^ 32) {s₁ : BlockTrees}
    (more : cur < stop) (walk : Filled sb t (leafPlace (cur / blockSize)).path s true s₁) :
    s₁.block t (leafPlace (cur / blockSize)) ≠ 0 :=
  walk.block_filled sane (leafPlace_valid (block_bound limit more)) (leafPlace_mem_path _)

theorem owned (sane : sb.Sane) (limit : stop ≤ 2 ^ 32) (handles : Handles sb t stop handle)
    (passes : Passes sb t stop handle cur s m s') (before : Owned sb s) : Owned sb s' := by
  induction passes with
  | done => exact before
  | full _ walk => exact walk.owned sane before
  | block more walk step _ ih =>
    have owned := walk.owned sane before
    exact ih ((handles _ _ _ owned more (located sane limit more walk) step).1.owned owned)

/-- Nothing entered is lost, other files and the blocks before the data bitmap keep their bytes. -/
theorem kept (sane : sb.Sane) (limit : stop ≤ 2 ^ 32) (handles : Handles sb t stop handle)
    (passes : Passes sb t stop handle cur s m s') (before : Owned sb s) :
    (∀ u q, q.Valid → s.block u q ≠ 0 → s'.block u q = s.block u q) ∧
    (∀ u ≠ t, s'.index u = s.index u) ∧
    (∀ u ≠ t, ∀ n < maxBlocks, s'.content u n = s.content u n) ∧
    ∀ b < sb.dataBitmapFirstblock, s'.disk b = s.disk b := by
  induction passes with
  | done => exact ⟨fun _ _ _ _ => rfl, fun _ _ => rfl, fun _ _ _ _ => rfl, fun _ _ => rfl⟩
  | full _ walk =>
    exact ⟨fun _ _ valid filled => walk.block_kept valid filled, fun _ other => walk.index_other other,
      fun u _ _ bound => walk.content_eq sane u bound, fun _ low => walk.low low⟩
  | block more walk step _ ih =>
    have owned := walk.owned sane before
    obtain ⟨kept, content, low⟩ := handles _ _ _ owned more (located sane limit more walk) step
    obtain ⟨restBlock, restIndex, restContent, restLow⟩ := ih (kept.owned owned)
    refine ⟨fun u q valid filled => ?_, fun u other => ?_, fun u other n bound => ?_,
      fun b bound => ?_⟩
    · have same := (kept.block u q valid).trans (walk.block_kept valid filled)
      rw [restBlock u q valid (by rwa [same]), same]
    · rw [restIndex u other, kept.index, walk.index_other other]
    · rw [restContent u other n bound, content u other n bound, walk.content_eq sane u bound]
    · rw [restLow b bound, low b bound, walk.low bound]

/-- The trees of other inodes keep their shape. -/
theorem block_other (sane : sb.Sane) (limit : stop ≤ 2 ^ 32) (handles : Handles sb t stop handle)
    (passes : Passes sb t stop handle cur s m s') (before : Owned sb s) {u : U32} (other : u ≠ t)
    {q : Place} (valid : q.Valid) : s'.block u q = s.block u q := by
  induction passes with
  | done => rfl
  | full _ walk => exact walk.block_off valid (Or.inl other)
  | block more walk step _ ih =>
    have owned := walk.owned sane before
    obtain ⟨kept, -, -⟩ := handles _ _ _ owned more (located sane limit more walk) step
    rw [ih (kept.owned owned), kept.block u q valid, walk.block_off valid (Or.inl other)]

theorem length (passes : Passes sb t stop handle cur s m s') (start : cur ≤ stop) :
    cur + m ≤ stop := by
  induction passes with
  | done => omega
  | full => omega
  | block more _ _ _ ih =>
    have := ih (chunkLen_spec more).2.1
    omega

/-- A byte is reached exactly when the free blocks suffice up to its block. -/
theorem reach (sane : sb.Sane) (limit : stop ≤ 2 ^ 32) (handles : Handles sb t stop handle)
    (passes : Passes sb t stop handle cur s m s') (before : Owned sb s) {g : ℕ} (low : cur ≤ g)
    (high : g < stop) : g < cur + m ↔ s.missing t (places cur (g + 1)) ≤ freeCount sb s := by
  have pathValid {n : ℕ} (more : n < stop) : ∀ q ∈ (leafPlace (n / blockSize)).path, q.Valid :=
    fun _ on => path_valid (leafPlace_valid (block_bound limit more)) on
  induction passes with
  | done past => omega
  | @full cur s s' more walk =>
    have short := (walk.ok_iff sane (pathValid more)).not.mp Bool.false_ne_true
    rw [places_step (show cur < g + 1 by omega) (show g + 1 ≤ stop by omega)]
    have := s.missing_le_append t (leafPlace (cur / blockSize)).path
      (places (cur + chunkLen cur stop) (g + 1))
    omega
  | @block cur s s₁ s₂ m s' more walk step rest ih =>
    have owned := walk.owned sane before
    obtain ⟨kept, -, -⟩ := handles _ _ _ owned more (located sane limit more walk) step
    have count := walk.count sane (pathValid more)
    rw [if_pos rfl] at count
    have allValid : ∀ q ∈ places cur (g + 1), q.Valid := fun _ => places_valid (by omega)
    have split := places_step (show cur < g + 1 by omega) (show g + 1 ≤ stop by omega)
    rw [split] at allValid
    rw [split, walk.missing_append sane allValid]
    by_cases here : g < cur + chunkLen cur stop
    · have none : places (cur + chunkLen cur stop) (g + 1) = [] := by
        rw [places, touched_past (by omega), List.flatMap_nil]
      have zero : s₁.missing t [] = 0 := by simp [missing]
      rw [none, zero]
      omega
    · have later := ih (kept.owned owned) (by omega)
      rw [kept.missing (fun q on => allValid q (List.mem_append_right _ on)), kept.freeCount] at later
      omega

end Passes

/-! ## When the table of the inode changes -/

/-- A walk off the inode's own table leaves it alone. -/
theorem Filled.index_below {t : U32} {ps : List Place} {s s' : BlockTrees} {ok : Bool}
    (walk : Filled sb t ps s ok s') (below : ∀ i, Place.root i ∉ ps) : s'.index t = s.index t :=
  Index.ext_get fun i bound => walk.block_off (q := .root i) bound (Or.inr (below i))

private theorem Filled.index_iff (sane : sb.Sane) {t : U32} {p : Place} {s s' : BlockTrees} {ok : Bool}
    (walk : Filled sb t p.path s ok s') :
    s'.index t = s.index t ↔ s.block t (.root p.top) ≠ 0 ∨ freeCount sb s = 0 := by
  obtain ⟨rest, path, below⟩ := p.path_eq
  rw [path] at walk
  cases walk with
  | present filled later => exact iff_of_true (later.index_below below) (Or.inl filled)
  | attach step later =>
    have some := step.freeCount
    have new : s'.block t (.root p.top) ≠ 0 := by
      have new := dataBlock_ne_zero sane step.inside
      rw [← step.block_new] at new
      rwa [later.block_kept step.valid new]
    refine iff_of_false (fun same => new ?_) ?_
    · have root : s'.block t (.root p.top) = s.block t (.root p.top) := by
        rw [block_root, block_root, same]
      rw [root, step.empty]
    · rintro (filled | none)
      · exact filled step.empty
      · omega
  | full _ empty full => exact iff_of_true rfl (Or.inr (freeCount_full full))

private theorem index_eq_split {t : U32} {a b c : BlockTrees}
    (first : ∀ q, q.Valid → a.block t q ≠ 0 → b.block t q = a.block t q)
    (second : ∀ q, q.Valid → b.block t q ≠ 0 → c.block t q = b.block t q) :
    c.index t = a.index t ↔ b.index t = a.index t ∧ c.index t = b.index t := by
  refine ⟨fun same => ?_, fun both => both.2.trans both.1⟩
  have middle : b.index t = a.index t := by
    refine Index.ext_get fun i bound => ?_
    by_cases filled : a.block t (.root i) = 0
    · by_contra changed
      have present : b.block t (.root i) ≠ 0 := fun zero => changed (zero.trans filled.symm)
      have kept : (c.index t).get i = (b.index t).get i := second (.root i) bound present
      rw [same] at kept
      exact changed kept.symm
    · exact first (.root i) bound filled
  exact ⟨middle, same.trans middle.symm⟩

/-- The inode's own table stays as it is exactly when each block passed has its entry there, or no
free block is left by the time it is due. -/
theorem Passes.index_iff (sane : sb.Sane) {t : U32} {stop : ℕ}
    {handle : ℕ → BlockTrees → BlockTrees → Prop} {cur m : ℕ} {s s' : BlockTrees}
    (limit : stop ≤ 2 ^ 32) (handles : Handles sb t stop handle)
    (passes : Passes sb t stop handle cur s m s') (before : Owned sb s) :
    s'.index t = s.index t ↔ ∀ n ∈ touched cur stop,
      s.block t (.root (leafPlace n).top) ≠ 0 ∨
        freeCount sb s ≤ s.missing t (places cur (n * blockSize)) := by
  have pathValid {n : ℕ} (more : n < stop) : ∀ q ∈ (leafPlace (n / blockSize)).path, q.Valid :=
    fun _ on => path_valid (leafPlace_valid (block_bound limit more)) on
  have firstPlaces (cur : ℕ) : places cur (cur / blockSize * blockSize) = [] := by
    rw [places, touched_past (Nat.div_mul_le_self ..), List.flatMap_nil]
  have noneMissing (s : BlockTrees) : s.missing t [] = 0 := by simp [missing]
  have laterPlaces {cur n : ℕ} (more : cur < stop)
      (later : n ∈ touched (cur + chunkLen cur stop) stop) :
      places cur (n * blockSize) = (leafPlace (cur / blockSize)).path ++
        places (cur + chunkLen cur stop) (n * blockSize) := by
    obtain ⟨inside, low, high⟩ := mem_touched.mp later
    obtain ⟨-, -, -, last⟩ := chunkLen_spec more
    have full := last.resolve_left (by omega)
    refine places_step ?_ ?_
    · simp only [blockSize] at *
      omega
    · simp only [blockSize] at *
      omega
  induction passes with
  | done past => simp [touched_past past]
  | @full cur s s' more walk =>
    have short := (walk.ok_iff sane (pathValid more)).not.mp Bool.false_ne_true
    rw [walk.index_iff sane, touched_step more (Nat.le_refl stop), List.forall_mem_cons,
      firstPlaces, noneMissing, Nat.le_zero]
    refine (and_iff_left fun n later => Or.inr ?_).symm
    have := s.missing_le_append t (leafPlace (cur / blockSize)).path
      (places (cur + chunkLen cur stop) (n * blockSize))
    rw [laterPlaces more later]
    omega
  | @block cur s s₁ s₂ m s' more walk step rest ih =>
    have owned := walk.owned sane before
    obtain ⟨kept, -, -⟩ := handles _ _ _ owned more (Passes.located sane limit more walk) step
    have count := walk.count sane (pathValid more)
    rw [if_pos rfl] at count
    have later (q : Place) (valid : q.Valid) (filled : s₁.block t q ≠ 0) :
        s'.block t q = s₁.block t q := by
      rw [← kept.block t q valid] at filled ⊢
      exact (rest.kept sane limit handles (kept.owned owned)).1 t q valid filled
    rw [index_eq_split (fun q valid => walk.block_kept valid) later,
      touched_step more (Nat.le_refl stop), List.forall_mem_cons, firstPlaces, noneMissing,
      Nat.le_zero, walk.index_iff sane, ← kept.index]
    refine and_congr_right fun first => (ih (kept.owned owned)).trans ?_
    refine forall₂_congr fun n touch => ?_
    have same : s₁.index t = s.index t := (walk.index_iff sane).mpr first
    have allValid : ∀ q ∈ places cur (n * blockSize), q.Valid := by
      obtain ⟨inside, low, high⟩ := mem_touched.mp touch
      refine fun _ => places_valid ?_
      simp only [blockSize] at *
      omega
    rw [laterPlaces more touch] at allValid ⊢
    rw [walk.missing_append sane allValid, block_root, block_root, kept.index, same, kept.freeCount,
      kept.missing fun q on => allValid q (List.mem_append_right _ on)]
    refine or_congr_right ?_
    omega

/-! ## The two loops -/

/-- A reading pass changes no byte of any file. -/
theorem Passes.content_reading (sane : sb.Sane) {t : U32} {stop cur m : ℕ} {s s' : BlockTrees}
    (passes : Passes sb t stop reading cur s m s') (u : U32) {n : ℕ} (bound : n < maxBlocks) :
    s'.content u n = s.content u n := by
  induction passes with
  | done => rfl
  | full _ walk => exact walk.content_eq sane u bound
  | block _ walk step _ ih => rw [ih, step, walk.content_eq sane u bound]

/-- A writing pass changes the bytes passed and no others. -/
theorem Passes.fileByte_writing (sane : sb.Sane) {t : U32} {src : Bytes} {offset stop cur m : ℕ}
    {s s' : BlockTrees} (limit : stop ≤ 2 ^ 32)
    (passes : Passes sb t stop (writing t src offset stop) cur s m s') (before : Owned sb s)
    (start : offset ≤ cur) {x : ℕ} (bound : x < 2 ^ 32) :
    s'.fileByte t x = if cur ≤ x ∧ x < cur + m then src (x - offset) else s.fileByte t x := by
  have small : x / blockSize < maxBlocks := block_bound (Nat.le_refl _) bound
  induction passes with
  | done => rw [if_neg (by omega)]
  | full _ walk => rw [if_neg (by omega), fileByte, fileByte, walk.content_eq sane t small]
  | @block cur s s₁ s₂ m s' more walk step rest ih =>
    have owned := walk.owned sane before
    have present := Passes.located sane limit more walk
    have inside := block_bound limit more
    obtain ⟨kept, -, -⟩ := handles_writing sane t src offset limit _ _ _ owned more present step
    rw [ih (kept.owned owned) (by omega), fileByte, fileByte, ← walk.content_eq sane t small]
    obtain rfl := step
    rw [content_writeLeaf sane owned inside present _ t small]
    by_cases here : cur ≤ x ∧ x < cur + chunkLen cur stop
    · obtain ⟨block, position⟩ := chunk_block more here.1 here.2
      rw [if_neg (by omega), if_pos ⟨rfl, block⟩, if_pos (by omega),
        Bytes.blit_inside (by omega) (by omega),
        show cur - offset + (x % blockSize - cur % blockSize) = x - offset by omega]
    · have unwritten : (if t = t ∧ x / blockSize = cur / blockSize then
          (s₁.disk (s₁.block t (leafPlace (cur / blockSize))).toNat).blit (cur % blockSize)
            (fun i => src (cur - offset + i)) (chunkLen cur stop)
          else s₁.content t (x / blockSize)) (x % blockSize) =
          s₁.content t (x / blockSize) (x % blockSize) := by
        by_cases block : x / blockSize = cur / blockSize
        · obtain ⟨-, -, fits, -⟩ := chunkLen_spec more
          rw [if_pos ⟨rfl, block⟩, content, block, if_neg present, Bytes.blit_outside]
          simp only [blockSize] at *
          omega
        · rw [if_neg (fun both => block both.2)]
      rw [unwritten]
      by_cases later : cur + chunkLen cur stop ≤ x ∧ x < cur + chunkLen cur stop + m
      · rw [if_pos later, if_pos (by omega)]
      · rw [if_neg later, if_neg (by omega)]

/-- The loop of `inode_read_data` is a reading pass; it copies the bytes of the file. -/
theorem readLoop_passes (sane : sb.Sane) {t : U32} {stop : ℕ} (limit : stop ≤ 2 ^ 32)
    (fuel cur : ℕ) (enough : stop - cur ≤ fuel) {s : BlockTrees} (owned : Owned sb s) (tr : Transfer)
    (index : tr.index = s.index t) (disk : tr.disk = s.disk) :
    let r := readLoop sb stop fuel cur tr
    ∃ m, Passes sb t stop reading cur s m (s.put t r.index r.disk) ∧ r.count = tr.count + m ∧
      r.buffer = tr.buffer.blit tr.count (fun i => s.fileByte t (cur + i)) m := by
  induction fuel generalizing cur s tr with
  | zero =>
    refine ⟨0, ?_, rfl, (Bytes.blit_zero ..).symm⟩
    rw [readLoop, index, disk, put_same]
    exact .done (by omega)
  | succ fuel ih =>
    by_cases more : cur < stop
    · have bound := block_bound limit more
      have walk := locateOrAddBlock_walk sane owned t bound
      rw [readLoop, if_pos more, index, disk]
      dsimp only at walk ⊢
      generalize locateOrAddBlock sb (s.index t) (cur / blockSize) s.disk = r at walk ⊢
      obtain ⟨physBlk, index', d⟩ := r
      dsimp only at walk ⊢
      by_cases failed : physBlk = minusOne
      · rw [if_pos failed]
        refine ⟨0, ?_, rfl, (Bytes.blit_zero ..).symm⟩
        refine .full more ?_
        simpa only [failed, ne_eq, not_true_eq_false, decide_false] using walk.1
      · rw [if_neg failed]
        have found := walk.1
        rw [decide_eq_true failed] at found
        obtain ⟨positive, inside, fits, -⟩ := chunkLen_spec more
        obtain ⟨m, passes, count, buffer⟩ := ih (cur + chunkLen cur stop) (by omega)
          (found.owned sane owned) ⟨tr.count + chunkLen cur stop, index', tr.buffer.blit tr.count
            (fun i => d physBlk.toNat (cur % blockSize + i)) (chunkLen cur stop), d⟩
          (put_index ..).symm rfl
        refine ⟨chunkLen cur stop + m, ?_, ?_, ?_⟩
        · refine .block more found rfl ?_
          simpa only [put_put] using passes
        · rw [count, Nat.add_assoc]
        · have entered := walk.2 failed
          have filled := found.block_filled sane (leafPlace_valid bound) (leafPlace_mem_path _)
          have chunk (i : ℕ) (small : i < chunkLen cur stop) :
              d physBlk.toNat (cur % blockSize + i) = s.fileByte t (cur + i) := by
            obtain ⟨block, position⟩ := chunk_block more (Nat.le_add_right cur i) (by omega)
            rw [fileByte, block, position, ← found.content_eq sane t bound, content, if_neg filled,
              entered, Nat.add_sub_cancel_left]
            rfl
          have rest (i : ℕ) (small : i < m) : (s.put t index' d).fileByte t
              (cur + chunkLen cur stop + i) = s.fileByte t (cur + (chunkLen cur stop + i)) := by
            have length := passes.length inside
            rw [fileByte, found.content_eq sane t (block_bound limit (by omega)), fileByte,
              Nat.add_assoc]
          rw [buffer, ← Bytes.blit_append, Bytes.blit_congr chunk, Bytes.blit_congr rest]
    · refine ⟨0, ?_, ?_, ?_⟩
      · rw [readLoop, if_neg more, index, disk, put_same]
        exact .done (by omega)
      · rw [readLoop, if_neg more, Nat.add_zero]
      · rw [readLoop, if_neg more, Bytes.blit_zero]

/-- The loop of `inode_write_data` is a writing pass. -/
theorem writeLoop_passes (sane : sb.Sane) {t : U32} {stop : ℕ} (limit : stop ≤ 2 ^ 32) (src : Bytes)
    (offset fuel cur : ℕ) (enough : stop - cur ≤ fuel) {s : BlockTrees} (owned : Owned sb s)
    (tr : Transfer) (index : tr.index = s.index t) (disk : tr.disk = s.disk)
    (count : cur = offset + tr.count) :
    let r := writeLoop sb src stop fuel cur tr
    ∃ m, Passes sb t stop (writing t src offset stop) cur s m (s.put t r.index r.disk) ∧
      r.count = tr.count + m := by
  induction fuel generalizing cur s tr with
  | zero =>
    refine ⟨0, ?_, rfl⟩
    rw [writeLoop, index, disk, put_same]
    exact .done (by omega)
  | succ fuel ih =>
    by_cases more : cur < stop
    · have walk := locateOrAddBlock_walk sane owned t (block_bound limit more)
      rw [writeLoop, if_pos more, index, disk]
      dsimp only at walk ⊢
      generalize locateOrAddBlock sb (s.index t) (cur / blockSize) s.disk = r at walk ⊢
      obtain ⟨physBlk, index', d⟩ := r
      dsimp only at walk ⊢
      by_cases failed : physBlk = minusOne
      · rw [if_pos failed]
        refine ⟨0, .full more ?_, rfl⟩
        simpa only [failed, ne_eq, not_true_eq_false, decide_false] using walk.1
      · rw [if_neg failed]
        have found := walk.1
        have entered := walk.2 failed
        rw [decide_eq_true failed] at found
        have step : writing t src offset stop cur (s.put t index' d) ((s.put t index' d).store
            physBlk.toNat ((d physBlk.toNat).blit (cur % blockSize)
              (fun i => src (tr.count + i)) (chunkLen cur stop))) := by
          unfold writing
          rw [entered, put_disk, show cur - offset = tr.count by omega]
        have owned' := found.owned sane owned
        have present := Passes.located sane limit more found
        obtain ⟨kept, -, -⟩ :=
          handles_writing sane t src offset limit _ _ _ owned' more present step
        obtain ⟨m, passes, count'⟩ := ih (cur + chunkLen cur stop)
          (by have := chunkLen_spec more; omega) (kept.owned owned')
          ⟨tr.count + chunkLen cur stop, index', tr.buffer, d.write physBlk.toNat
            ((d physBlk.toNat).blit (cur % blockSize) (fun i => src (tr.count + i))
              (chunkLen cur stop))⟩
          (put_index ..).symm rfl (by dsimp only; omega)
        refine ⟨chunkLen cur stop + m, .block more found step ?_, by rw [count', Nat.add_assoc]⟩
        simpa only [store, put, Function.update_idem] using passes
    · refine ⟨0, ?_, ?_⟩
      · rw [writeLoop, if_neg more, index, disk, put_same]
        exact .done (by omega)
      · rw [writeLoop, if_neg more, Nat.add_zero]

end BlockTrees

end LabKernel
