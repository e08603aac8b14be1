import LabKernel.Fs.Bitmap
import LabKernel.Lib.Transition

/-! # Allocators shared by processes

Allocations and frees of several processes interleave at the brackets `buffer_get` … `buffer_put`:
one search of one bitmap block and one clearing of a bit are steps, and an allocation is under way
between its searches. `held` records who was handed which number and has not given it back. In every
run the numbers held are distinct, in range, and exactly those whose bits are set.
-/

namespace LabKernel

/-- The two bitmaps do not overlap, each covers what it describes, the numbers are `uint32` values, and the
blocks of the bitmaps have sectors of their own. -/
structure SuperBlock.BitmapsApart (sb : SuperBlock) : Prop where
  apart : sb.inodeBitmapFirstblock + sb.inodeBitmapBlocks ≤ sb.dataBitmapFirstblock ∨
    sb.dataBitmapFirstblock + sb.dataBitmapBlocks ≤ sb.inodeBitmapFirstblock
  inodeBits : sb.totalInodes ≤ sb.inodeBitmapBlocks * bitPerBlock
  dataBits : sb.dataBlocks ≤ sb.dataBitmapBlocks * bitPerBlock
  inodeNums : sb.totalInodes < 2 ^ 32
  blockNums : sb.dataFirstblock + sb.dataBlocks < 2 ^ 32
  inodeSectors : sb.inodeBitmapFirstblock + sb.inodeBitmapBlocks ≤ sectorBlocks
  dataSectors : sb.dataBitmapFirstblock + sb.dataBitmapBlocks ≤ sectorBlocks

/-- What a bitmap describes. -/
inductive Area where
  | inode
  | block
deriving DecidableEq, Repr

namespace Area

def first (sb : SuperBlock) : Area → ℕ
  | inode => sb.inodeBitmapFirstblock
  | block => sb.dataBitmapFirstblock

def blocks (sb : SuperBlock) : Area → ℕ
  | inode => sb.inodeBitmapBlocks
  | block => sb.dataBitmapBlocks

/-- The number of bits in use. -/
def count (sb : SuperBlock) : Area → ℕ
  | inode => sb.totalInodes
  | block => sb.dataBlocks

/-- The number that bit 0 stands for. -/
def base (sb : SuperBlock) : Area → ℕ
  | inode => 0
  | block => sb.dataFirstblock

/-- `bitmap_alloc_inode` or `bitmap_alloc_block` -/
def alloc (sb : SuperBlock) : Area → Disk → U32 × Disk
  | inode => bitmapAllocInode sb
  | block => bitmapAllocBlock sb

/-- `bitmap_free_inode` or `bitmap_free_block` -/
def free (sb : SuperBlock) : Area → U32 → Disk → Disk
  | inode => bitmapFreeInode sb
  | block => bitmapFreeBlock sb

variable {sb : SuperBlock}

private theorem alloc_eq (sb : SuperBlock) (a : Area) (d : Disk) :
    a.alloc sb d = bitmapAllocFrom (a.first sb) (a.base sb) (a.blocks sb) 0 (a.count sb) d := by
  cases a <;> rfl

theorem enough (layout : sb.BitmapsApart) (a : Area) : a.count sb ≤ a.blocks sb * bitPerBlock := by
  cases a
  · exact layout.inodeBits
  · exact layout.dataBits

theorem numbers (layout : sb.BitmapsApart) (a : Area) : a.base sb + a.count sb < 2 ^ 32 := by
  cases a
  · have := layout.inodeNums
    simp only [base, count]
    omega
  · exact layout.blockNums

/-- The number that bit `k` stands for. -/
def number (sb : SuperBlock) (a : Area) (k : ℕ) : U32 := BitVec.ofNat 32 (a.base sb + k)

private theorem number_toNat (layout : sb.BitmapsApart) (a : Area) {k : ℕ} (inside : k < a.count sb) :
    (a.number sb k).toNat = a.base sb + k := by
  have := a.numbers layout
  rw [number, BitVec.toNat_ofNat, Nat.mod_eq_of_lt (by omega)]

private theorem number_injective (layout : sb.BitmapsApart) {a : Area} {j k : ℕ} (left : j < a.count sb)
    (right : k < a.count sb) (same : a.number sb j = a.number sb k) : j = k := by
  have same := congrArg BitVec.toNat same
  rw [a.number_toNat layout left, a.number_toNat layout right] at same
  omega

/-- A block of one bitmap is not a block of the other one. -/
theorem first_ne (layout : sb.BitmapsApart) {a c : Area} (other : c ≠ a) {i j : ℕ}
    (left : i < a.blocks sb) (right : j < c.blocks sb) : c.first sb + j ≠ a.first sb + i := by
  have := layout.apart
  cases a <;> cases c <;> simp only [first, blocks] at * <;> first | omega | exact absurd rfl other

/-- Freeing the number of a bit clears this bit: the division of `bitmap_free_block` inverts the
numbering of the allocator. -/
theorem free_number (layout : sb.BitmapsApart) (a : Area) {k : ℕ} (inside : k < a.count sb)
    (d : Disk) : a.free sb (a.number sb k) d = d.clearBitAt (a.first sb) k := by
  have number := a.number_toNat layout inside
  cases a with
  | inode =>
    simp only [base, Nat.zero_add] at number
    simp only [free, bitmapFreeInode, number]
    rfl
  | block =>
    have limit := layout.blockNums
    simp only [base, count] at number inside
    have offset : (block.number sb k - BitVec.ofNat 32 sb.dataFirstblock).toNat = k := by
      rw [BitVec.toNat_sub, BitVec.toNat_ofNat, number,
        Nat.mod_eq_of_lt (by omega : sb.dataFirstblock < 2 ^ 32)]
      omega
    simp only [free, bitmapFreeBlock, offset]
    rfl

end Area

/-! ## Processes -/

/-- An allocation under way: `left` bitmap blocks are still to search, the next one is block `i` of
the bitmap, with `count` bits from there on. -/
structure Search where
  area : Area
  left : ℕ
  i : ℕ
  count : ℕ
deriving DecidableEq, Repr

structure AllocState where
  disk : Disk
  /-- The allocation a process is in. -/
  search : ℕ → Option Search
  /-- What the last allocation of a process returned. -/
  returned : ℕ → U32
  /-- The processes that were handed a number, and the number. -/
  held : Area → List (ℕ × U32)

inductive AllocStep where
  | call (p : ℕ) (a : Area)
  | search (p : ℕ)
  | free (a : Area) (holder : ℕ) (b : U32)
deriving DecidableEq, Repr

namespace AllocState

/-- One step: an allocator is entered; one bitmap block is searched, or there is no more and the
allocator returns `-1`; a number that somebody holds is freed. -/
def step (sb : SuperBlock) (s : AllocState) : AllocStep → Option AllocState
  | .call p a =>
    match s.search p with
    | none =>
      some { s with search := Function.update s.search p (some ⟨a, a.blocks sb, 0, a.count sb⟩) }
    | some _ => none
  | .search p =>
    match s.search p with
    | none => none
    | some ⟨_, 0, _, _⟩ =>
      some { s with
        search := Function.update s.search p none
        returned := Function.update s.returned p minusOne }
    | some ⟨a, left + 1, i, count⟩ =>
      let searchLen := if count > bitPerBlock then bitPerBlock else count
      let r := bitmapSearchAndSet (a.first sb + i) searchLen s.disk
      if r.1 ≠ minusOne then
        let number : U32 := BitVec.ofNat 32 (a.base sb + i * bitPerBlock + r.1.toNat)
        some
          { disk := r.2
            search := Function.update s.search p none
            returned := Function.update s.returned p number
            held := Function.update s.held a ((p, number) :: s.held a) }
      else
        some { s with
          disk := r.2
          search := Function.update s.search p (some ⟨a, left, i + 1, count - searchLen⟩) }
  | .free a holder b =>
    if (holder, b) ∈ s.held a then
      some { s with
        disk := a.free sb b s.disk
        held := Function.update s.held a ((s.held a).erase (holder, b)) }
    else none

def bit (sb : SuperBlock) (s : AllocState) (a : Area) (k : ℕ) : Bool := s.disk.bitAt (a.first sb) k

/-- Somebody holds the number of bit `k`. -/
def Held (sb : SuperBlock) (s : AllocState) (a : Area) (k : ℕ) : Prop :=
  k < a.count sb ∧ ∃ p, (p, a.number sb k) ∈ s.held a

/-- The bitmap and the numbers held agree: no number is held twice, all of them are in range, and in
the blocks of the bitmap the bits of the numbers held are set and no others. -/
structure Exact (sb : SuperBlock) (s : AllocState) (a : Area) : Prop where
  once : ((s.held a).map Prod.snd).Nodup
  range : ∀ p b, (p, b) ∈ s.held a → a.base sb ≤ b.toNat ∧ b.toNat < a.base sb + a.count sb
  bits : ∀ k < a.blocks sb * bitPerBlock, s.bit sb a k = true ↔ s.Held sb a k

/-- A search has looked at the blocks before `i` and has the rest before it. -/
structure Fits (sb : SuperBlock) (r : Search) : Prop where
  blocks : r.i + r.left = r.area.blocks sb
  bits : r.count = r.area.count sb - r.i * bitPerBlock

structure Sound (sb : SuperBlock) (s : AllocState) : Prop where
  exact : ∀ a, Exact sb s a
  fits : ∀ p r, s.search p = some r → Fits sb r

variable {sb : SuperBlock} {s t : AllocState} {a : Area}

/-! ## What a step keeps -/

private theorem Exact.number_of (layout : sb.BitmapsApart) (exact : Exact sb s a) {p : ℕ} {b : U32}
    (held : (p, b) ∈ s.held a) : ∃ k < a.count sb, b = a.number sb k := by
  obtain ⟨low, high⟩ := exact.range p b held
  refine ⟨b.toNat - a.base sb, by omega, BitVec.eq_of_toNat_eq ?_⟩
  rw [a.number_toNat layout (by omega)]
  omega

/-- A write to one bitmap leaves the other one exact. -/
private theorem Exact.other (layout : sb.BitmapsApart) {c : Area} (exact : Exact sb s c) (other : c ≠ a)
    {i : ℕ} (inside : i < a.blocks sb) (held : t.held c = s.held c)
    (same : ∀ b, b ≠ a.first sb + i → t.disk b = s.disk b) : Exact sb t c := by
  refine ⟨held ▸ exact.once, fun p b here => exact.range p b (held ▸ here), fun k bound => ?_⟩
  have block : k / bitPerBlock < c.blocks sb :=
    Nat.div_lt_of_lt_mul (by rwa [Nat.mul_comm] at bound)
  have bits : t.bit sb c k = s.bit sb c k :=
    Disk.bitAt_congr (same _ (Area.first_ne layout other inside block))
  rw [bits, exact.bits k bound, Held, Held, held]

/-- Setting a clear bit and handing out its number keeps the bitmap exact. -/
private theorem Exact.take (layout : sb.BitmapsApart) (exact : Exact sb s a) {k p : ℕ}
    (inside : k < a.count sb) (clear : s.bit sb a k = false)
    (held : t.held a = (p, a.number sb k) :: s.held a)
    (disk : t.disk = s.disk.setBitAt (a.first sb) k) : Exact sb t a := by
  have enough := a.enough layout
  have unheld : ∀ q, (q, a.number sb k) ∉ s.held a := by
    intro q member
    have taken := (exact.bits k (by omega)).mpr ⟨inside, q, member⟩
    rw [clear] at taken
    cases taken
  constructor
  · rw [held, List.map_cons, List.nodup_cons]
    refine ⟨fun member => ?_, exact.once⟩
    obtain ⟨⟨q, b⟩, member, same⟩ := List.mem_map.mp member
    obtain rfl : b = a.number sb k := same
    exact unheld q member
  · intro q b member
    rw [held] at member
    rcases List.mem_cons.mp member with new | old
    · obtain ⟨-, rfl⟩ := Prod.mk.inj new
      rw [a.number_toNat layout inside]
      omega
    · exact exact.range q b old
  · intro j bound
    have bit : t.bit sb a j = (decide (j = k) || s.bit sb a j) := by
      rw [AllocState.bit, disk, Disk.bitAt_setBitAt]
      rfl
    rw [bit, Bool.or_eq_true, decide_eq_true_eq, exact.bits j bound, Held, Held, held]
    constructor
    · rintro (rfl | ⟨small, q, member⟩)
      · exact ⟨inside, p, List.mem_cons_self ..⟩
      · exact ⟨small, q, List.mem_cons_of_mem _ member⟩
    · rintro ⟨small, q, member⟩
      rcases List.mem_cons.mp member with new | old
      · exact Or.inl (Area.number_injective layout small inside (Prod.mk.inj new).2)
      · exact Or.inr ⟨small, q, old⟩

/-- Clearing the bit of a number that is given back keeps the bitmap exact. -/
private theorem Exact.release (layout : sb.BitmapsApart) (exact : Exact sb s a) {k p : ℕ}
    (inside : k < a.count sb) (member : (p, a.number sb k) ∈ s.held a)
    (held : t.held a = (s.held a).erase (p, a.number sb k))
    (disk : t.disk = s.disk.clearBitAt (a.first sb) k) : Exact sb t a := by
  have nodup : (s.held a).Nodup := exact.once.of_map
  constructor
  · rw [held]
    exact exact.once.sublist (List.erase_sublist.map _)
  · intro q b left
    exact exact.range q b (List.mem_of_mem_erase (held ▸ left))
  · intro j bound
    have bit : t.bit sb a j = (s.bit sb a j && !decide (j = k)) := by
      rw [AllocState.bit, disk, Disk.bitAt_clearBitAt]
      rfl
    rw [bit, Bool.and_eq_true, Bool.not_eq_true', decide_eq_false_iff_not, exact.bits j bound, Held,
      Held, held]
    constructor
    · rintro ⟨⟨small, q, old⟩, other⟩
      refine ⟨small, q, (List.mem_erase_of_ne fun same => other ?_).mpr old⟩
      exact Area.number_injective layout small inside (Prod.mk.inj same).2
    · rintro ⟨small, q, left⟩
      obtain ⟨different, old⟩ := nodup.mem_erase_iff.mp left
      refine ⟨⟨small, q, old⟩, ?_⟩
      rintro rfl
      exact different (List.inj_on_of_nodup_map exact.once old member rfl)

private theorem fits_update (sound : Sound sb s) {p : ℕ} {r : Option Search}
    (new : ∀ x, r = some x → Fits sb x) (q : ℕ) (x : Search)
    (search : Function.update s.search p r q = some x) : Fits sb x := by
  by_cases same : q = p
  · rw [same, Function.update_self] at search
    exact new x search
  · rw [Function.update_of_ne same] at search
    exact sound.fits q x search

/-- A search of one block that finds a clear bit hands out its number. -/
private theorem search_found (layout : sb.BitmapsApart) (sound : Sound sb s) {p i k : ℕ}
    (block : i < a.blocks sb) (small : k < bitPerBlock) (inside : i * bitPerBlock + k < a.count sb)
    (clear : (s.disk (a.first sb + i)).bit k = false) {returned : ℕ → U32} :
    Sound sb
      { disk := s.disk.write (a.first sb + i) ((s.disk (a.first sb + i)).setBit k)
        search := Function.update s.search p none
        returned := returned
        held := Function.update s.held a ((p, a.number sb (i * bitPerBlock + k)) :: s.held a) } := by
  refine ⟨fun c => ?_, fits_update sound nofun⟩
  by_cases same : c = a
  · rw [same]
    refine (sound.exact a).take layout inside ?_ (Function.update_self ..)
      (s.disk.setBitAt_block (a.first sb) i small).symm
    rw [bit, Disk.bitAt_block _ _ _ small, clear]
  · exact (sound.exact c).other layout same block (Function.update_of_ne same ..)
      fun b other => Disk.write_other other ..

/-- Every step keeps the bitmaps exact. -/
theorem step_sound (layout : sb.BitmapsApart) {e : AllocStep} (step : s.step sb e = some t)
    (sound : Sound sb s) : Sound sb t := by
  cases e with
  | call p a =>
    simp only [AllocState.step] at step
    split at step
    · cases step
      refine ⟨fun c => ⟨(sound.exact c).once, (sound.exact c).range, (sound.exact c).bits⟩,
        fits_update sound fun x some => ?_⟩
      cases some
      exact ⟨Nat.zero_add _, by simp⟩
    · cases step
  | search p =>
    cases search : s.search p with
    | none => simp [AllocState.step, search] at step
    | some r =>
      obtain ⟨a, left, i, count⟩ := r
      obtain ⟨blocks, bits⟩ := sound.fits p _ search
      dsimp only at blocks bits
      cases left with
      | zero =>
        simp only [AllocState.step, search] at step
        cases step
        exact ⟨fun c => ⟨(sound.exact c).once, (sound.exact c).range, (sound.exact c).bits⟩,
          fits_update sound nofun⟩
      | succ left =>
        simp only [AllocState.step, search] at step
        generalize len : (if count > bitPerBlock then bitPerBlock else count) = searchLen at step
        have fits : searchLen ≤ bitPerBlock := by rw [← len]; split <;> omega
        have within : searchLen ≤ count := by rw [← len]; split <;> omega
        obtain ⟨k, bound, clear, -, result⟩ | ⟨-, result⟩ :=
          @bitmapSearchAndSet_spec (a.first sb + i) searchLen s.disk
        · have small : k < bitPerBlock := by omega
          have index : (BitVec.ofNat 32 k).toNat = k := by
            simp only [BitVec.toNat_ofNat, bitPerBlock] at *
            omega
          simp only [result, minusOne_ne_small small, ne_eq, not_false_eq_true, ↓reduceIte, index,
            Nat.add_assoc, Option.some.injEq] at step
          rw [← step]
          exact search_found layout sound (by omega) small (by omega) clear
        · simp only [result, ne_eq, not_true_eq_false, ↓reduceIte, Option.some.injEq] at step
          rw [← step]
          refine ⟨fun c => ⟨(sound.exact c).once, (sound.exact c).range, (sound.exact c).bits⟩,
            fits_update sound fun x some => ?_⟩
          cases some
          have next : (i + 1) * bitPerBlock = i * bitPerBlock + bitPerBlock := Nat.succ_mul ..
          refine ⟨by dsimp only; omega, ?_⟩
          dsimp only
          rw [← len]
          split <;> omega
  | free a p b =>
    simp only [AllocState.step] at step
    split at step
    · rename_i member
      cases step
      obtain ⟨k, inside, rfl⟩ := (sound.exact a).number_of layout member
      have cleared := a.free_number layout inside s.disk
      refine ⟨fun c => ?_, sound.fits⟩
      by_cases same : c = a
      · rw [same]
        exact (sound.exact a).release layout inside member (Function.update_self ..) cleared
      · have block : k / bitPerBlock < a.blocks sb :=
          Nat.div_lt_of_lt_mul (by
            rw [Nat.mul_comm]
            exact Nat.lt_of_lt_of_le inside (a.enough layout))
        refine (sound.exact c).other layout same block (Function.update_of_ne same ..) fun b other => ?_
        dsimp only
        rw [cleared, Disk.clearBitAt_other other]
    · cases step

/-! ## An allocation on its own -/

/-- Without other steps in between, the searches of a process are the loop of the allocator. -/
private theorem search_alone (sb : SuperBlock) (p : ℕ) (left i count : ℕ)
    (search : s.search p = some ⟨a, left, i, count⟩) :
    ∃ n t, Run (fun s e t => s.step sb e = some t) s (List.replicate n (.search p)) t ∧
      t.search p = none ∧
      (t.returned p, t.disk) = bitmapAllocFrom (a.first sb) (a.base sb) left i count s.disk := by
  induction left generalizing s i count with
  | zero =>
    refine ⟨1, _, .cons (by simp only [AllocState.step, search]; rfl) (.nil _), ?_, ?_⟩
    · exact Function.update_self ..
    · simp only [Function.update_self]
      rfl
  | succ left ih =>
    unfold bitmapAllocFrom
    dsimp only
    generalize len : (if count > bitPerBlock then bitPerBlock else count) = searchLen
    generalize result : bitmapSearchAndSet (a.first sb + i) searchLen s.disk = r
    by_cases found : r.1 ≠ minusOne
    · rw [if_pos found]
      refine ⟨1, _,
        .cons (by simp only [AllocState.step, search, len, result, if_pos found]; rfl) (.nil _), ?_, ?_⟩
      · exact Function.update_self ..
      · simp only [Function.update_self]
    · rw [if_neg found]
      obtain ⟨n, t, run, idle, returned⟩ := ih (s := { s with
        disk := r.2
        search := Function.update s.search p (some ⟨a, left, i + 1, count - searchLen⟩) })
        (i + 1) (count - searchLen) (Function.update_self ..)
      refine ⟨n + 1, t, .cons ?_ run, idle, returned⟩
      simp only [AllocState.step, search, len, result, if_neg found]

/-- What an allocation that runs alone returns: the lowest free number, or `-1` where none is free. -/
def Lowest (sb : SuperBlock) (s : AllocState) (a : Area) (b : U32) : Prop :=
  (∃ k < a.count sb, ¬s.Held sb a k ∧ (∀ j < k, s.Held sb a j) ∧ b = a.number sb k ∧ b ≠ minusOne) ∨
    (∀ k < a.count sb, s.Held sb a k) ∧ b = minusOne

private theorem alloc_lowest (layout : sb.BitmapsApart) (exact : Exact sb s a) :
    Lowest sb s a (a.alloc sb s.disk).1 := by
  have enough := a.enough layout
  have limit := a.numbers layout
  have spec := @bitmapAlloc_spec (a.first sb) (a.blocks sb) (a.count sb) (a.base sb) s.disk enough
  rw [bitmapAlloc, ← a.alloc_eq] at spec
  have held {k : ℕ} (inside : k < a.count sb) : s.disk.bitAt (a.first sb) k = true ↔ s.Held sb a k :=
    exact.bits k (by omega)
  generalize a.alloc sb s.disk = r at spec ⊢
  cases spec with
  | found k inside clear lowest =>
    refine Or.inl ⟨k, inside, ?_, fun j before => (held (by omega)).mp (lowest j before), rfl, ?_⟩
    · rw [← held inside, clear]
      exact Bool.false_ne_true
    · intro last
      have number := a.number_toNat layout inside
      rw [Area.number, show BitVec.ofNat 32 (a.base sb + k) = minusOne from last, minusOne,
        BitVec.toNat_ofNat] at number
      omega
  | full all => exact Or.inr ⟨fun k inside => (held inside).mp (all k inside), rfl⟩

/-- Over every run from a state with exact bitmaps and no allocation under way, the bitmaps stay
exact; and in each state reached, an allocation that a process runs without interruption returns what
the allocator computes, which is the lowest free number or, exactly where none is free, `-1`. -/
theorem allocators_exact (layout : sb.BitmapsApart) (exact : ∀ a, Exact sb s a)
    (idle : ∀ p, s.search p = none) {steps : List AllocStep}
    (run : Run (fun s e t => s.step sb e = some t) s steps t) :
    (∀ a, Exact sb t a) ∧
    ∀ p a, t.search p = none → ∃ n u,
      Run (fun s e t => s.step sb e = some t) t (.call p a :: List.replicate n (.search p)) u ∧
      u.search p = none ∧ (u.returned p, u.disk) = a.alloc sb t.disk ∧ Lowest sb t a (u.returned p) := by
  have sound : Sound sb t := run.invariant (fun _ _ _ => step_sound layout)
    ⟨exact, fun p r some => absurd some (by rw [idle p]; exact nofun)⟩
  refine ⟨sound.exact, fun p a free => ?_⟩
  obtain ⟨n, u, run, done, result⟩ := search_alone sb p (a.blocks sb) 0 (a.count sb)
    (s := { t with search := Function.update t.search p (some ⟨a, a.blocks sb, 0, a.count sb⟩) })
    (Function.update_self ..)
  rw [← a.alloc_eq] at result
  have lowest := alloc_lowest layout (sound.exact a)
  rw [← result] at lowest
  refine ⟨n, u, .cons ?_ run, done, result, lowest⟩
  simp only [AllocState.step, free]

/-- Two processes allocate blocks at the same time and one of them frees. -/
theorem allocators_exact_two : ∃ t,
    Run (fun s e t => s.step mkfsSuperBlock e = some t)
      ⟨fun _ _ => 0, fun _ => none, fun _ => 0, fun _ => []⟩
      [.call 0 .block, .call 1 .block, .search 1, .search 0, .free .block 1 1028] t ∧
      (∀ a, Exact mkfsSuperBlock t a) ∧ t.held .block = [(0, 1029)] := by
  have layout : mkfsSuperBlock.BitmapsApart := ⟨Or.inl (by decide), by decide, by decide, by decide, by decide,
    by decide, by decide⟩
  obtain ⟨t, run, held⟩ := Run.exists_of_test (AllocState.step mkfsSuperBlock)
    ⟨fun _ _ => 0, fun _ => none, fun _ => 0, fun _ => []⟩
    [.call 0 .block, .call 1 .block, .search 1, .search 0, .free .block 1 1028]
    (fun t => decide (t.held .block = [(0, 1029)])) (by decide +kernel)
  have clear (a : Area) : Exact mkfsSuperBlock
      ⟨fun _ _ => 0, fun _ => none, fun _ => 0, fun _ => []⟩ a := by
    refine ⟨List.nodup_nil, fun p b member => absurd member List.not_mem_nil, fun k _ => ?_⟩
    refine iff_of_false ?_ fun held => absurd held.2.choose_spec List.not_mem_nil
    simp [bit, Disk.bitAt, Bytes.bit]
  exact ⟨t, run, (allocators_exact layout clear (fun _ => rfl) run).1, of_decide_eq_true held⟩

end AllocState

end LabKernel
