import LabKernel.Fs.Directory

/-! # Directory operations in sequence

A slot of the inode cache that shows a directory keeps doing so under any sequence of searches,
creations and deletions, and the sequence acts on the finite map of the directory: insertion of an
absent name, removal, lookup. A creation fails exactly when the name is there or no entry can be
placed.
-/

namespace LabKernel

open BlockTrees

variable {cfg : FsConfig}

/-- Slot `i` shows the directory with number `t` of a sound store. -/
structure DirView (cfg : FsConfig) (s : FsState) (i : ℕ) (st : Store) (t : U32) : Prop where
  sound : Store.Sound cfg.sb st
  shows : Caches s i st t
  dir : Directory st.trees t (s.inodeCache i).diskInfo

inductive DirOp where
  | search (name : Bytes)
  | create (inodeNum : U32) (name : Bytes)
  | delete (name : Bytes)

namespace DirOp

/-- The name is one that fits an entry. -/
def Valid : DirOp → Prop
  | search name => IsName name
  | create _ name => IsName name
  | delete name => IsName name

def run (cfg : FsConfig) (i : ℕ) : DirOp → FsM U32
  | search name => Fs.dentrySearch cfg i name
  | create inodeNum name => Fs.dentryCreate cfg i inodeNum name
  | delete name => Fs.dentryDelete cfg i name

/-- The operation on a map from names to inode numbers; a creation may fail. -/
def MapStep (m : List U8 → Option U32) (e : DirOp × U32) (m' : List U8 → Option U32) : Prop :=
  match e.1 with
  | search name => e.2 = (m (nameText name)).getD minusOne ∧ m' = m
  | create inodeNum name =>
    if e.2 = minusOne then m' = m
    else m (nameText name) = none ∧ m' = Function.update m (nameText name) (some inodeNum)
  | delete name =>
    e.2 = (m (nameText name)).getD minusOne ∧ m' = Function.update m (nameText name) none

end DirOp

/-- Where a new entry goes: in the first free slot, else behind the last one, if its offset stays in
range and there is room for its block. -/
def NewPlace (sb : SuperBlock) (st : Store) (t : U32) (info : InodeDisk) (off : U32) : Prop :=
  match (dirTable st.trees t info.size).firstFree with
  | some k => off = BitVec.ofNat 32 (64 * k)
  | none => off = info.size ∧ info.size.toNat + 64 < 2 ^ 32 ∧
      Store.Room sb st t (info.size.toNat / blockSize)

/-- A creation succeeds exactly when the name is absent and there is a place, and it uses this place. -/
def Creates (sb : SuperBlock) (st : Store) (t : U32) (info info' : InodeDisk) (name : Bytes)
    (r : U32) : Prop :=
  if r = minusOne then
    dirMap st.trees t info (nameText name) ≠ none ∨ ∀ off, ¬NewPlace sb st t info off
  else dirMap st.trees t info (nameText name) = none ∧ NewPlace sb st t info r ∧
    info'.size.toNat = max info.size.toNat (r.toNat + 64)

namespace DirView

variable {s : FsState} {i : ℕ} {st : Store} {t : U32}

/-- A write of one entry leaves a sound store that the slot shows. -/
private theorem write (sane : cfg.sb.Sane) (view : DirView cfg s i st t) (k : ℕ) (src : Bytes) :
    let w := Fs.writeEntry cfg s i k src
    let st' := st.step cfg.sb (.write t (BitVec.ofNat 32 (64 * k)) dentrySize src)
    Store.Sound cfg.sb st' ∧ Caches w.2 i st' t ∧
      w.1 = (inodeWriteData cfg.sb t (s.inodeCache i).diskInfo (BitVec.ofNat 32 (64 * k)) dentrySize src
        st.disk).1 ∧
      (w.2.inodeCache i).diskInfo = (inodeWriteData cfg.sb t (s.inodeCache i).diskInfo
        (BitVec.ofNat 32 (64 * k)) dentrySize src st.disk).2.1 := by
  intro w st'
  obtain ⟨disk, number, record⟩ := view.shows
  have sound := Store.step_sound sane view.sound (.write t (BitVec.ofNat 32 (64 * k)) dentrySize src)
  have info : (w.2.inodeCache i).diskInfo = (inodeWriteData cfg.sb t (s.inodeCache i).diskInfo
      (BitVec.ofNat 32 (64 * k)) dentrySize src st.disk).2.1 := by
    simp only [w, Fs.writeEntry, FsState.setInode_same, Inode.written_diskInfo, number, disk]
  refine ⟨sound, ⟨?_, ?_, ?_⟩, ?_, info⟩
  · simp only [w, st', Fs.writeEntry, FsState.setInode_disk, FsState.setDisk_disk, number, disk,
      Store.step, record]
  · simp only [w, Fs.writeEntry, FsState.setInode_same, Inode.written_inodeNum, number]
  · simp only [st', Store.step, record, Function.update_self, info]
  · simp only [w, Fs.writeEntry, number, disk]

/-- A search looks the name up. -/
theorem search (sane : cfg.sb.Sane) (view : DirView cfg s i st t) (name : Bytes) :
    ∃ r, Fs.dentrySearch cfg i name s = .ok r s ∧
      r = (dirMap st.trees t (s.inodeCache i).diskInfo (nameText name)).getD minusOne := by
  obtain ⟨r, s', result, rfl, value⟩ :=
    (Fs.dentrySearch_yields sane view.sound view.shows view.dir name).result
  exact ⟨r, result, value⟩

/-- Writing an entry for which there is room, seen as a slot of the table. -/
private theorem entered (sane : cfg.sb.Sane) (view : DirView cfg s i st t) {k : ℕ}
    (bound : k ≤ (s.inodeCache i).diskInfo.size.toNat / 64) (fits : 64 * k + 64 < 2 ^ 32) (src : Bytes)
    (distinct : (Store.entered (dirTable st.trees t (s.inodeCache i).diskInfo.size) k
      (Dentry.decode (Bytes.blit (fun _ => 0) 0 src 64) 0).slot).Distinct) :
    let w := Fs.writeEntry cfg s i k src
    ∃ st', DirView cfg w.2 i st' t ∧
      (Store.Room cfg.sb st t (64 * k / blockSize) ∧ w.1 = dentrySize ∧
          dirTable st'.trees t (w.2.inodeCache i).diskInfo.size =
            Store.entered (dirTable st.trees t (s.inodeCache i).diskInfo.size) k
              (Dentry.decode (Bytes.blit (fun _ => 0) 0 src 64) 0).slot ∨
        ¬Store.Room cfg.sb st t (64 * k / blockSize) ∧ w.1 ≠ dentrySize ∧
          dirTable st'.trees t (w.2.inodeCache i).diskInfo.size =
            dirTable st.trees t (s.inodeCache i).diskInfo.size) := by
  intro w
  obtain ⟨sound, shows, count, info⟩ := view.write sane k src
  obtain ⟨outcome, type, aligned, whole⟩ := Store.write_entry sane view.sound view.shows.record view.dir
    bound fits src
  rw [← info] at outcome type aligned whole
  rw [← count] at outcome
  refine ⟨_, ⟨sound, shows, type, aligned, whole, ?_⟩, outcome⟩
  rcases outcome with ⟨-, -, table⟩ | ⟨-, -, table⟩
  · rw [table]
    exact distinct
  · rw [table]
    exact view.dir.distinct

/-- There is room for the block of an entry that is there. -/
private theorem room (view : DirView cfg s i st t) {k : ℕ}
    (inside : k < (s.inodeCache i).diskInfo.size.toNat / 64) :
    Store.Room cfg.sb st t (64 * k / blockSize) := by
  refine Store.room_of_present (view.dir.whole _ ?_)
  simp only [blockSize]
  omega

/-- The creation of an absent name in a vacant slot. -/
private theorem create_at (sane : cfg.sb.Sane) (view : DirView cfg s i st t) (inodeNum : U32)
    {name : Bytes} (isName : IsName name)
    (absent : dirMap st.trees t (s.inodeCache i).diskInfo (nameText name) = none) {k : ℕ}
    (vacant : (dirTable st.trees t (s.inodeCache i).diskInfo.size).Vacant k)
    (fits : 64 * k + 64 < 2 ^ 32)
    (place : ∀ off, NewPlace cfg.sb st t (s.inodeCache i).diskInfo off ↔
      off = BitVec.ofNat 32 (64 * k) ∧ Store.Room cfg.sb st t (64 * k / blockSize)) :
    let w := Fs.writeEntry cfg s i k (newDentry name inodeNum).encode
    let r := if w.1 = dentrySize then BitVec.ofNat 32 (64 * k) else minusOne
    ∃ st', DirView cfg w.2 i st' t ∧
      Creates cfg.sb st t (s.inodeCache i).diskInfo (w.2.inodeCache i).diskInfo name r ∧
      dirMap st'.trees t (w.2.inodeCache i).diskInfo =
        if r = minusOne then dirMap st.trees t (s.inodeCache i).diskInfo
        else Function.update (dirMap st.trees t (s.inodeCache i).diskInfo) (nameText name)
          (some inodeNum) := by
  intro w r
  have distinct := view.dir.distinct
  have new : Store.entered (dirTable st.trees t (s.inodeCache i).diskInfo.size) k
      (Dentry.decode (Bytes.blit (fun _ => 0) 0 (newDentry name inodeNum).encode 64) 0).slot =
      (dirTable st.trees t (s.inodeCache i).diskInfo.size).put k (nameText name) inodeNum := by
    rw [Dentry.slot_encode, newDentry_slot isName]
    rfl
  have bound : k ≤ (s.inodeCache i).diskInfo.size.toNat / 64 := by
    rcases vacant with last | ⟨inside, -⟩
    · exact last.le
    · exact inside.le
  obtain ⟨st', after, outcome⟩ := view.entered sane bound fits (newDentry name inodeNum).encode (by
    rw [new]
    exact distinct.put absent vacant inodeNum)
  refine ⟨st', after, ?_⟩
  rcases outcome with ⟨room, written, table⟩ | ⟨full, failed, table⟩
  · have offset : r = BitVec.ofNat 32 (64 * k) := if_pos written
    have valid : r ≠ minusOne := offset ▸ Fs.offset_ne_minusOne k
    rw [new] at table
    rw [Creates, if_neg valid, if_neg valid]
    refine ⟨⟨absent, (place r).mpr ⟨offset, room⟩, ?_⟩, ?_⟩
    · have size := congrArg SlotTable.size table
      have aligned := view.dir.size
      have aligned' := after.dir.size
      change (w.2.inodeCache i).diskInfo.size.toNat / 64 =
        max ((s.inodeCache i).diskInfo.size.toNat / 64) (k + 1) at size
      change (w.2.inodeCache i).diskInfo.size.toNat % 64 = 0 at aligned'
      rw [offset, BitVec.toNat_ofNat, Nat.mod_eq_of_lt (by omega)]
      omega
    · funext text
      rw [dirMap, table, SlotTable.lookup_put distinct absent vacant, Function.update_apply]
      rfl
  · have value : r = minusOne := if_neg failed
    rw [Creates, if_pos value, if_pos value]
    exact ⟨Or.inr fun off where' => full ((place off).mp where').2, congrArg SlotTable.lookup table⟩

/-- A creation inserts an absent name, or fails for lack of a place. -/
theorem create (sane : cfg.sb.Sane) (view : DirView cfg s i st t) (inodeNum : U32) {name : Bytes}
    (isName : IsName name) :
    ∃ r s' st', Fs.dentryCreate cfg i inodeNum name s = .ok r s' ∧ DirView cfg s' i st' t ∧
      Creates cfg.sb st t (s.inodeCache i).diskInfo (s'.inodeCache i).diskInfo name r ∧
      dirMap st'.trees t (s'.inodeCache i).diskInfo =
        if r = minusOne then dirMap st.trees t (s.inodeCache i).diskInfo
        else Function.update (dirMap st.trees t (s.inodeCache i).diskInfo) (nameText name)
          (some inodeNum) := by
  have small := (s.inodeCache i).diskInfo.size.isLt
  have aligned := view.dir.size
  have yields := Fs.dentryCreate_yields sane view.sound view.shows view.dir inodeNum name
  dsimp only at yields
  obtain ⟨r, s', result, spec⟩ := yields.result
  have length : (dirTable st.trees t (s.inodeCache i).diskInfo.size).size =
      (s.inodeCache i).diskInfo.size.toNat / 64 := rfl
  by_cases absent : (dirTable st.trees t (s.inodeCache i).diskInfo.size).lookup (nameText name) = none
  · rw [if_pos absent] at spec
    obtain ⟨rfl, rfl⟩ := spec
    cases free : (dirTable st.trees t (s.inodeCache i).diskInfo.size).firstFree with
    | some k =>
      obtain ⟨inside, empty, -⟩ := SlotTable.find_eq_some free
      have vacant : (dirTable st.trees t (s.inodeCache i).diskInfo.size).Vacant k :=
        Or.inr ⟨inside, Option.isNone_iff_eq_none.mp empty⟩
      obtain ⟨st', after⟩ := view.create_at sane inodeNum isName absent vacant (by omega) fun off => by
        rw [NewPlace, free]
        exact (and_iff_left (view.room inside)).symm
      exact ⟨_, _, st', result, by rw [free]; exact after⟩
    | none =>
      have last : BitVec.ofNat 32 (64 * ((s.inodeCache i).diskInfo.size.toNat / 64)) =
          (s.inodeCache i).diskInfo.size := by
        apply BitVec.eq_of_toNat_eq
        rw [BitVec.toNat_ofNat, Nat.mod_eq_of_lt (by omega)]
        omega
      have behind : 64 * ((s.inodeCache i).diskInfo.size.toNat / 64) =
          (s.inodeCache i).diskInfo.size.toNat := by omega
      by_cases fits : (s.inodeCache i).diskInfo.size.toNat + 64 < 2 ^ 32
      · obtain ⟨st', after⟩ := view.create_at sane inodeNum isName absent (Or.inl rfl)
          (by rw [length]; omega) fun off => by
            rw [NewPlace, free, length, last, behind]
            exact and_congr_right fun _ => and_iff_right fits
        exact ⟨_, _, st', result, by rw [free]; exact after⟩
      · have wraps : (s.inodeCache i).diskInfo.size + dentrySize = 0 := by
          apply BitVec.eq_of_toNat_eq
          rw [BitVec.toNat_add, show dentrySize.toNat = 64 from rfl]
          change _ = 0
          omega
        have nothing : Fs.writeEntry cfg s i ((s.inodeCache i).diskInfo.size.toNat / 64)
            (newDentry name inodeNum).encode = (0, s) := by
          have none := @Store.write_wrapped cfg.sb ⟨s.disk, st.image⟩ (s.inodeCache i).inodeNum
            (s.inodeCache i).diskInfo _ _ wraps (newDentry name inodeNum).encode
          simp only [Fs.writeEntry, last, none, Inode.written_self]
          exact Prod.ext rfl (FsState.setInode_self s i)
        rw [free, Option.getD_none, length, nothing] at result
        rw [if_neg (show ¬(0 : U32) = dentrySize by decide)] at result
        refine ⟨_, _, st, result, view, ?_, (if_pos rfl).symm⟩
        rw [Creates, if_pos rfl]
        refine Or.inr fun off place => ?_
        rw [NewPlace, free] at place
        exact fits place.2.1
  · rw [if_neg absent] at spec
    obtain ⟨rfl, rfl⟩ := spec
    refine ⟨_, _, st, result, view, ?_, (if_pos rfl).symm⟩
    rw [Creates, if_pos rfl]
    exact Or.inl absent

/-- A deletion removes the name and returns its number. -/
theorem delete (sane : cfg.sb.Sane) (view : DirView cfg s i st t) (name : Bytes) :
    ∃ r s' st', Fs.dentryDelete cfg i name s = .ok r s' ∧ DirView cfg s' i st' t ∧
      r = (dirMap st.trees t (s.inodeCache i).diskInfo (nameText name)).getD minusOne ∧
      dirMap st'.trees t (s'.inodeCache i).diskInfo =
        Function.update (dirMap st.trees t (s.inodeCache i).diskInfo) (nameText name) none := by
  have distinct := view.dir.distinct
  obtain ⟨r, s', result, spec⟩ :=
    (Fs.dentryDelete_yields sane view.sound view.shows view.dir name).result
  have found := Fs.lookup_find st.trees t (s.inodeCache i).diskInfo.size (nameText name)
  split at spec
  · rename_i none
    obtain ⟨rfl, rfl⟩ := spec
    rw [none, Option.map_none] at found
    have absent : dirMap st.trees t (s'.inodeCache i).diskInfo (nameText name) = Option.none := found.symm
    refine ⟨_, _, st, result, view, by rw [absent]; rfl, ?_⟩
    rw [← absent, Function.update_eq_self]
  · rename_i k some
    dsimp only at spec
    obtain ⟨inside, held, -⟩ := SlotTable.find_eq_some some
    obtain ⟨v, entry⟩ := SlotTable.holds_iff.mp held
    rw [some, Option.map_some] at found
    have small := (s.inodeCache i).diskInfo.size.isLt
    have inside : k < (s.inodeCache i).diskInfo.size.toNat / 64 := inside
    have cleared : Store.entered (dirTable st.trees t (s.inodeCache i).diskInfo.size) k
        (Dentry.decode (Bytes.blit (fun _ => 0) 0 (fun _ => 0) 64) 0).slot =
        (dirTable st.trees t (s.inodeCache i).diskInfo.size).clear k := by
      rw [Dentry.slot_zero]
      exact SlotTable.ext (Nat.max_eq_left inside) rfl
    obtain ⟨st', after, outcome⟩ := view.entered sane inside.le (by omega) (fun _ => 0) (by
      rw [cleared]
      exact distinct.clear k)
    rcases outcome with ⟨-, written, table⟩ | ⟨full, -, -⟩
    · rw [written, if_pos rfl] at spec
      obtain ⟨rfl, rfl⟩ := spec
      refine ⟨_, _, st', result, after, by rw [dirMap, ← found]; rfl, ?_⟩
      funext text
      rw [dirMap, table, cleared, SlotTable.lookup_clear distinct inside entry, Function.update_apply]
      rfl
    · exact absurd (view.room inside) full

end DirView

/-! ## Sequences -/

/-- One operation on slot `i` and what it returns. -/
def dirStep (cfg : FsConfig) (i : ℕ) (s : FsState) (e : DirOp × U32) (s' : FsState) : Prop :=
  e.1.run cfg i s = .ok e.2 s'

/-- What one operation does: it returns, the slot goes on showing a directory, the operation acts on
its map, and a creation that fails had to. -/
theorem DirView.step (sane : cfg.sb.Sane) {s : FsState} {i : ℕ} {st : Store} {t : U32}
    (view : DirView cfg s i st t) (op : DirOp) (valid : op.Valid) :
    ∃ r s' st', op.run cfg i s = .ok r s' ∧ DirView cfg s' i st' t ∧
      DirOp.MapStep (dirMap st.trees t (s.inodeCache i).diskInfo) (op, r)
        (dirMap st'.trees t (s'.inodeCache i).diskInfo) ∧
      ∀ inodeNum name, op = .create inodeNum name →
        Creates cfg.sb st t (s.inodeCache i).diskInfo (s'.inodeCache i).diskInfo name r := by
  cases op with
  | search name =>
    obtain ⟨r, result, value⟩ := view.search sane name
    exact ⟨r, s, st, result, view, ⟨value, rfl⟩, fun _ _ other => nomatch other⟩
  | create inodeNum name =>
    obtain ⟨r, s', st', result, after, creates, map⟩ := view.create sane inodeNum valid
    refine ⟨r, s', st', result, after, ?_, ?_⟩
    · change if r = minusOne then _ else _
      split
      · rw [map, if_pos ‹_›]
      · rw [Creates, if_neg ‹_›] at creates
        rw [map, if_neg ‹_›]
        exact ⟨creates.1, rfl⟩
    · rintro _ _ ⟨⟩
      exact creates
  | delete name =>
    obtain ⟨r, s', st', result, after, value, map⟩ := view.delete sane name
    exact ⟨r, s', st', result, after, ⟨value, map⟩, fun _ _ other => nomatch other⟩

/-- The blocks of a directory without holes bound its size. -/
theorem DirView.size_lt {s : FsState} {i : ℕ} {st : Store} {t : U32}
    (view : DirView cfg s i st t) (few : cfg.sb.dataBlocks < 2 ^ 20) :
    (s.inodeCache i).diskInfo.size.toNat + 64 < 2 ^ 32 := by
  by_contra large
  have there (n : ℕ) (inside : n < 2 ^ 20) : st.trees.block t (leafPlace n) ≠ 0 := by
    refine view.dir.whole n ?_
    simp only [blockSize]
    omega
  have valid (n : ℕ) (inside : n < 2 ^ 20) : (leafPlace n).Valid :=
    leafPlace_valid (Nat.lt_of_lt_of_le inside (by decide))
  have owned := view.sound.owned
  refine absurd few (Nat.not_lt.mpr ?_)
  have count := Finset.card_le_card_of_injOn (s := Finset.range (2 ^ 20))
    (t := Finset.range cfg.sb.dataBlocks)
    (fun n => (st.trees.block t (leafPlace n)).toNat - cfg.sb.dataFirstblock) ?_ ?_
  · rwa [Finset.card_range, Finset.card_range] at count
  · intro n inside
    have inside := Finset.mem_range.mp inside
    obtain ⟨k, bound, number, -⟩ := owned.stored t _ (valid n inside) (there n inside)
    refine Finset.mem_coe.mpr (Finset.mem_range.mpr ?_)
    change (st.trees.block t (leafPlace n)).toNat - cfg.sb.dataFirstblock < cfg.sb.dataBlocks
    omega
  · intro n insideN m insideM same
    have insideN := Finset.mem_range.mp insideN
    have insideM := Finset.mem_range.mp insideM
    obtain ⟨k, -, numberK, -⟩ := owned.stored t _ (valid n insideN) (there n insideN)
    obtain ⟨j, -, numberJ, -⟩ := owned.stored t _ (valid m insideM) (there m insideM)
    dsimp only at same
    refine leafPlace_injective (owned.once t _ t _ (valid n insideN) (valid m insideM)
      (BitVec.eq_of_toNat_eq ?_) (there n insideN)).2
    omega

/-- A directory is a finite map. From a slot that shows a directory, every sequence of operations acts
on the map of the directory as insertion if absent, removal and lookup, and the slot goes on showing a
directory. In every state reached each operation returns; a creation fails exactly when the name is
there or no entry can be placed, which on a disk below 4 GiB means that no entry is free and the block
behind the last one cannot be allocated. -/
theorem directory_map (sane : cfg.sb.Sane) {s s' : FsState} {i : ℕ} {st : Store} {t : U32}
    (view : DirView cfg s i st t) {ops : List (DirOp × U32)} (valid : ∀ e ∈ ops, e.1.Valid)
    (run : Run (dirStep cfg i) s ops s') :
    ∃ st', DirView cfg s' i st' t ∧
      Run DirOp.MapStep (dirMap st.trees t (s.inodeCache i).diskInfo) ops
        (dirMap st'.trees t (s'.inodeCache i).diskInfo) ∧
      (cfg.sb.dataBlocks < 2 ^ 20 → (s'.inodeCache i).diskInfo.size.toNat + 64 < 2 ^ 32) ∧
      ∀ op : DirOp, op.Valid → ∃ r s'' st'', op.run cfg i s' = .ok r s'' ∧ DirView cfg s'' i st'' t ∧
        DirOp.MapStep (dirMap st'.trees t (s'.inodeCache i).diskInfo) (op, r)
          (dirMap st''.trees t (s''.inodeCache i).diskInfo) ∧
        ∀ inodeNum name, op = .create inodeNum name →
          Creates cfg.sb st' t (s'.inodeCache i).diskInfo (s''.inodeCache i).diskInfo name r := by
  induction run generalizing st with
  | nil s => exact ⟨st, view, .nil _, view.size_lt, view.step sane⟩
  | @cons s e s₁ ops s' first _ ih =>
    obtain ⟨head, tail⟩ := List.forall_mem_cons.mp valid
    obtain ⟨r, s₂, st₂, result, after, mapStep, -⟩ := view.step sane e.1 head
    obtain ⟨rfl, rfl⟩ := EStateM.Result.ok.inj (result.symm.trans first)
    obtain ⟨st', end', rest, sized, each⟩ := ih after tail
    exact ⟨st', end', .cons mapStep rest, sized, each⟩

def abName : Bytes := nameOf [0x61, 0x62]

/-- A new directory with number 0, shown by slot 0. -/
def newDirectory : FsState :=
  (FsState.init (Store.run mkfsSuperBlock Store.blank [.create inodeTypeDir 0 0]).disk).setInode 0
    ⟨newInode inodeTypeDir 0 0, true, 0, 1, false, none⟩

theorem newDirectory_view : DirView ⟨mkfsSuperBlock, false⟩ newDirectory 0
    (Store.run mkfsSuperBlock Store.blank [.create inodeTypeDir 0 0]) 0 := by
  have number : (bitmapAllocInode mkfsSuperBlock Store.blank.disk).1 = 0 := by decide +kernel
  have valid : (0 : U32) ≠ minusOne := by decide
  have image : (Store.run mkfsSuperBlock Store.blank [.create inodeTypeDir 0 0]).image 0 =
      some (newInode inodeTypeDir 0 0) := by
    simp only [Store.run, List.foldl_cons, List.foldl_nil, Store.step, number, if_neg valid,
      Function.update_self]
  refine ⟨Store.run_sound mkfsSuperBlock_sane ⟨Store.blank_imaged _,
    (Store.blocksOwned_iff _).mp fun _ _ _ image => by cases image⟩ _, ⟨rfl, rfl, image⟩,
    ⟨rfl, rfl, fun n inside => absurd inside (Nat.not_lt_zero _),
      fun j inside => absurd inside (Nat.not_lt_zero _)⟩⟩

/-- `dirStep` as a function. -/
def dirNext (cfg : FsConfig) (i : ℕ) (s : FsState) (e : DirOp × U32) : Option FsState :=
  returnOf (e.1.run cfg i) s e.2

/-- A run of directory operations can be found by evaluation. -/
theorem dirRun_exists (cfg : FsConfig) (i : ℕ) (s : FsState) (ops : List (DirOp × U32)) (test : FsState → Bool)
    (passes : (ops.foldlM (dirNext cfg i) s).any test = true) :
    ∃ s', Run (dirStep cfg i) s ops s' ∧ test s' = true := by
  obtain ⟨s', run, passed⟩ := Run.exists_of_test (dirNext cfg i) s ops test passes
  refine ⟨s', run.refine (P := fun _ => True) trivial fun s e s' _ step => ⟨?_, trivial⟩, passed⟩
  exact returnOf_eq_some.mp step

theorem abName_isName : IsName abName := ⟨by decide, 2, by decide, by decide⟩

theorem directory_map_two : ∃ s',
    Run (dirStep ⟨mkfsSuperBlock, false⟩ 0) newDirectory
      [(.create 5 abName, 0), (.search abName, 5)] s' ∧
    ∃ st', DirView ⟨mkfsSuperBlock, false⟩ s' 0 st' 0 := by
  obtain ⟨s', run, -⟩ := dirRun_exists ⟨mkfsSuperBlock, false⟩ 0 newDirectory
    [(.create 5 abName, 0), (.search abName, 5)] (fun _ => true) (by decide +kernel)
  obtain ⟨st', view, -⟩ := directory_map mkfsSuperBlock_sane newDirectory_view
    (fun e member => by
      rcases List.mem_cons.mp member with rfl | later
      · exact abName_isName
      · rw [List.mem_singleton.mp later]
        exact abName_isName) run
  exact ⟨s', run, st', view⟩

end LabKernel
