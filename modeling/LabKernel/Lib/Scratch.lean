import Mathlib

/-! # Appending through a scratch block

A file is a sequence of blocks of `size` elements. An append fills up the block in which the file ends and
then writes one block after the other, each of them as a whole from one scratch block. The first block is
read into the scratch block before; the others find there what the block before them had. So an append
that enters a new block behind its first one leaves elements of the block before behind the end of the
file, and `written` says what is there after any sequence of appends.
-/

namespace LabKernel.Scratch

variable {α : Type*} (size : ℕ)

/-- Blocks read one after another -/
def flat (blocks : ℕ → ℕ → α) (x : ℕ) : α := blocks (x / size) (x % size)

/-- A block with elements of `data`, `start` the first of them, from `off` on -/
def patch (block : ℕ → α) (off n : ℕ) (data : ℕ → α) (start : ℕ) : ℕ → α :=
  fun i => if off ≤ i ∧ i < off + n then data (start + (i - off)) else block i

/-- The blocks behind the first one, from block `k` and element `pos` of the data on -/
def pour (data : ℕ → α) : (fuel k pos len : ℕ) → (scratch : ℕ → α) → (ℕ → ℕ → α) → ℕ → ℕ → α
  | 0, _, _, _, _, blocks => blocks
  | fuel + 1, k, pos, len, scratch, blocks =>
    if len = 0 then blocks
    else
      let block := patch scratch 0 (min size len) data pos
      pour data fuel (k + 1) (pos + min size len) (len - min size len) block (Function.update blocks k block)

/-- An append of `len` elements to a file of `n` -/
def append (data : ℕ → α) (n len : ℕ) (blocks : ℕ → ℕ → α) : ℕ → ℕ → α :=
  if len = 0 then blocks
  else
    let cut := min (size - n % size) len
    let block := patch (blocks (n / size)) (n % size) cut data 0
    pour size data (len - 1) (n / size + 1) cut (len - cut) block (Function.update blocks (n / size) block)

/-- Where the appends began, and where the last one ended -/
def begins (chunks : List (List α)) : List ℕ := chunks.inits.map fun before => before.flatten.length

/-- What the blocks hold after a sequence of appends: the elements appended; behind them, in the last
block, nothing if an append began with this block, and otherwise what is one block before. -/
def written [Zero α] (chunks : List (List α)) (x : ℕ) : α :=
  let text := chunks.flatten
  let last := (text.length - 1) / size
  if x < text.length then text.getD x 0
  else if x / size = last ∧ last * size ∉ begins chunks then text.getD (x - size) 0
  else 0

variable {size} {data scratch : ℕ → α} {blocks : ℕ → ℕ → α}

/-! ## Where appends begin -/

theorem mem_begins {chunks : List (List α)} {n : ℕ} :
    n ∈ begins chunks ↔ ∃ before, before <+: chunks ∧ before.flatten.length = n := by
  simp only [begins, List.mem_map, List.mem_inits]

theorem zero_mem_begins (chunks : List (List α)) : 0 ∈ begins chunks :=
  mem_begins.mpr ⟨[], List.nil_prefix, rfl⟩

theorem length_mem_begins (chunks : List (List α)) : chunks.flatten.length ∈ begins chunks :=
  mem_begins.mpr ⟨chunks, List.prefix_rfl, rfl⟩

theorem begins_le {chunks : List (List α)} {n : ℕ} (member : n ∈ begins chunks) :
    n ≤ chunks.flatten.length := by
  obtain ⟨before, ⟨rest, rfl⟩, rfl⟩ := mem_begins.mp member
  rw [List.flatten_append, List.length_append]
  exact Nat.le_add_right ..

/-- One more append -/
theorem mem_begins_concat {chunks : List (List α)} {chunk : List α} {n : ℕ} :
    n ∈ begins (chunks ++ [chunk]) ↔ n ∈ begins chunks ∨ n = chunks.flatten.length + chunk.length := by
  have whole : (chunks ++ [chunk]).flatten.length = chunks.flatten.length + chunk.length := by
    rw [List.flatten_append, List.length_append, List.flatten_singleton]
  simp only [mem_begins, List.prefix_concat_iff]
  constructor
  · rintro ⟨before, rfl | early, rfl⟩
    · exact .inr whole
    · exact .inl ⟨before, early, rfl⟩
  · rintro (⟨before, early, rfl⟩ | rfl)
    · exact ⟨before, .inr early, rfl⟩
    · exact ⟨_, .inl rfl, whole⟩

/-! ## Elements and blocks -/

theorem block_iff (positive : 0 < size) {x k : ℕ} : x / size = k ↔ k * size ≤ x ∧ x < k * size + size := by
  rw [Nat.div_eq_iff positive]
  omega

theorem flat_block (positive : 0 < size) {x k : ℕ} (low : k * size ≤ x) (high : x < k * size + size) :
    flat size blocks x = blocks k (x - k * size) := by
  have here := (block_iff positive).mpr ⟨low, high⟩
  have whole := Nat.div_add_mod x size
  rw [here, Nat.mul_comm] at whole
  rw [flat, here, show x % size = x - k * size by omega]

theorem flat_update_other (positive : 0 < size) {k x : ℕ} (block : ℕ → α)
    (outside : x < k * size ∨ k * size + size ≤ x) :
    flat size (Function.update blocks k block) x = flat size blocks x := by
  rw [flat, flat, Function.update_of_ne]
  intro here
  have := (block_iff positive).mp here
  omega

/-! ## The blocks behind the first one -/

/-- What is behind the data in the last block was one block before when that was written. -/
theorem flat_pour (positive : 0 < size) {fuel k pos len : ℕ} (enough : len ≤ fuel)
    (scratch_eq : blocks k = scratch) (x : ℕ) :
    flat size (pour size data fuel (k + 1) pos len scratch blocks) x =
      if x < k * size + size then flat size blocks x
      else if x < k * size + size + len then data (pos + (x - (k * size + size)))
      else if 0 < len ∧ x / size = (k * size + size + len - 1) / size then
        flat size (pour size data fuel (k + 1) pos len scratch blocks) (x - size)
      else flat size blocks x := by
  induction fuel generalizing k pos len scratch blocks x with
  | zero =>
    obtain rfl : len = 0 := Nat.le_zero.mp enough
    rw [pour]
    split_ifs with low high last
    · rfl
    · omega
    · exact absurd last.1 (Nat.lt_irrefl 0)
    · rfl
  | succ fuel ih =>
    rw [pour]
    by_cases none : len = 0
    · subst none
      rw [if_pos rfl]
      split_ifs with low high last
      · rfl
      · omega
      · exact absurd last.1 (Nat.lt_irrefl 0)
      · rfl
    · rw [if_neg none]
      dsimp only
      generalize cut_eq : min size len = cut
      generalize block_eq : patch scratch 0 cut data pos = block
      have rest (x : ℕ) : flat size (pour size data fuel (k + 1 + 1) (pos + cut) (len - cut) block
          (Function.update blocks (k + 1) block)) x = _ := ih (by omega) (Function.update_self ..) x
      generalize pour size data fuel (k + 1 + 1) (pos + cut) (len - cut) block
        (Function.update blocks (k + 1) block) = r at rest ⊢
      have next : (k + 1) * size = k * size + size := Nat.succ_mul ..
      rw [next] at rest
      generalize base_eq : k * size = base at rest next ⊢
      have earlier {x : ℕ} (low : x < base + size) :
          flat size (Function.update blocks (k + 1) block) x = flat size blocks x :=
        flat_update_other positive block (.inl (by omega))
      rcases Nat.lt_or_ge x (base + size) with low | low
      · rw [if_pos low, rest, if_pos (by omega), earlier low]
      rcases Nat.lt_or_ge x (base + size + size) with high | high
      · have own : flat size (Function.update blocks (k + 1) block) x = block (x - (base + size)) := by
          rw [flat_block positive (k := k + 1) (by omega) (by omega), Function.update_self, next]
        rw [if_neg (by omega), rest, if_pos high, own, ← block_eq, patch]
        rcases Nat.lt_or_ge x (base + size + len) with inside | past
        · rw [if_pos inside, if_pos (by omega), Nat.sub_zero]
        · -- the data end in this block
          have here : x / size = k + 1 := (block_iff positive).mpr (by omega)
          have last : (base + size + len - 1) / size = k + 1 := (block_iff positive).mpr (by omega)
          have before : flat size (Function.update blocks (k + 1) block) (x - size) = scratch (x - size - base) := by
            rw [earlier (by omega), flat_block positive (k := k) (by omega) (by omega), scratch_eq, base_eq]
          rw [if_neg (by omega), if_neg (by omega), if_pos ⟨by omega, here.trans last.symm⟩, rest,
            if_pos (by omega), before]
          congr 1
          omega
      · have other : flat size (Function.update blocks (k + 1) block) x = flat size blocks x :=
          flat_update_other positive block (.inr (by omega))
        have behind : x / size ≠ k + 1 := fun here => by
          have := (block_iff positive).mp here
          omega
        rw [if_neg (by omega), rest, if_neg (by omega), other]
        rcases Nat.lt_or_ge size len with more | done
        · rw [show base + size + size + (len - cut) = base + size + len by omega,
            show pos + cut + (x - (base + size + size)) = pos + (x - (base + size)) by omega]
          simp only [show 0 < len - cut by omega, show 0 < len by omega, true_and]
        · have last : (base + size + len - 1) / size = k + 1 := (block_iff positive).mpr (by omega)
          rw [if_neg (by omega), if_neg (by omega), if_neg (by omega), if_neg (by omega)]

/-! ## Appends -/

/-- An append changes the elements appended and, where it enters a block behind its first one, what is
behind them in the last block. -/
theorem flat_append (positive : 0 < size) (n len x : ℕ) :
    flat size (append size data n len blocks) x =
      if x < n then flat size blocks x
      else if x < n + len then data (x - n)
      else if n / size < (n + len - 1) / size ∧ x / size = (n + len - 1) / size then
        flat size (append size data n len blocks) (x - size)
      else flat size blocks x := by
  rw [append]
  by_cases none : len = 0
  · subst none
    have below : (n - 1) / size ≤ n / size := Nat.div_le_div_right (by omega)
    rw [if_pos rfl]
    split_ifs with low high last
    · rfl
    · omega
    · exact absurd last.1 (by rw [Nat.add_zero]; omega)
    · rfl
  · rw [if_neg none]
    dsimp only
    have whole : n / size * size + n % size = n := by
      rw [Nat.mul_comm]
      exact Nat.div_add_mod n size
    have small := Nat.mod_lt n positive
    generalize n / size = q at whole ⊢
    generalize n % size = off at whole small ⊢
    generalize cut_eq : min (size - off) len = cut
    generalize block_eq : patch (blocks q) off cut data 0 = block
    have rest (x : ℕ) : flat size (pour size data (len - 1) (q + 1) cut (len - cut) block
        (Function.update blocks q block)) x = _ := flat_pour positive (by omega) (Function.update_self ..) x
    generalize pour size data (len - 1) (q + 1) cut (len - cut) block (Function.update blocks q block) = r
      at rest ⊢
    have other {x : ℕ} (outside : x < q * size ∨ q * size + size ≤ x) :
        flat size (Function.update blocks q block) x = flat size blocks x :=
      flat_update_other positive block outside
    generalize base_eq : q * size = base at whole rest other
    rcases Nat.lt_or_ge x base with low | low
    · rw [rest, if_pos (by omega), other (.inl low), if_pos (by omega)]
    rcases Nat.lt_or_ge x (base + size) with high | high
    · have own : flat size (Function.update blocks q block) x = block (x - base) := by
        rw [flat_block positive (k := q) (by omega) (by omega), Function.update_self, base_eq]
      have old : flat size blocks x = blocks q (x - base) := by
        rw [flat_block positive (k := q) (by omega) (by omega), base_eq]
      rw [rest, if_pos high, own, ← block_eq, patch, old]
      rcases Nat.lt_or_ge x n with before | inside
      · rw [if_neg (by omega), if_pos before]
      rcases Nat.lt_or_ge x (n + len) with inside | past
      · rw [if_pos (by omega), if_neg (by omega), if_pos inside]
        congr 1
        omega
      · have last : (n + len - 1) / size = q := (block_iff positive).mpr (by omega)
        rw [if_neg (by omega), if_neg (by omega), if_neg (by omega), if_neg (by omega)]
    · rw [rest x, if_neg (by omega), if_neg (show ¬x < n by omega), other (.inr high)]
      rcases Nat.lt_or_ge cut len with more | done
      · have reach : q < (n + len - 1) / size := by
          rw [Nat.lt_iff_add_one_le, Nat.le_div_iff_mul_le positive, Nat.succ_mul]
          omega
        rw [show base + size + (len - cut) = n + len by omega,
          show cut + (x - (base + size)) = x - n by omega]
        simp only [show 0 < len - cut by omega, reach, true_and]
      · have last : (n + len - 1) / size = q := (block_iff positive).mpr (by omega)
        rw [if_neg (by omega), if_neg (by omega), if_neg (by omega), if_neg (by omega)]

/-- Behind the elements and the last block there is nothing. -/
theorem written_other [Zero α] {chunks : List (List α)} {x : ℕ} (past : chunks.flatten.length ≤ x)
    (block : x / size ≠ (chunks.flatten.length - 1) / size) : written size chunks x = 0 := by
  rw [written, if_neg (Nat.not_lt.mpr past), if_neg fun last => block last.1]

/-- A block that begins behind the elements has nothing. -/
theorem written_past [Zero α] {chunks : List (List α)} {x : ℕ}
    (past : chunks.flatten.length ≤ x / size * size) : written size chunks x = 0 := by
  have high : chunks.flatten.length ≤ x := past.trans (Nat.div_mul_le_self ..)
  rw [written, if_neg (Nat.not_lt.mpr high), if_neg]
  rintro ⟨block, dirty⟩
  have last := Nat.div_mul_le_self (chunks.flatten.length - 1) size
  have empty : (chunks.flatten.length - 1) / size * size = 0 := by
    rw [block] at past
    omega
  exact dirty (empty ▸ zero_mem_begins chunks)

/-- What is behind the elements is zero but for the last block, if the appends entered it from the one before. -/
theorem written_eq_zero_iff [Zero α] {chunks : List (List α)} {x : ℕ} (past : chunks.flatten.length ≤ x) :
    written size chunks x = 0 ↔ (x / size = (chunks.flatten.length - 1) / size →
      (chunks.flatten.length - 1) / size * size ∈ begins chunks ∨ chunks.flatten.getD (x - size) 0 = 0) := by
  rw [written, if_neg (Nat.not_lt.mpr past)]
  split_ifs with dirty
  · exact ⟨fun zero _ => .inr zero, fun zero => (zero dirty.1).resolve_left dirty.2⟩
  · refine iff_of_true rfl fun last => .inl ?_
    by_contra inner
    exact dirty ⟨last, inner⟩

/-- An append that ends in the block where it begins leaves what is behind it in this block. -/
theorem written_same [Zero α] (positive : 0 < size) {chunks : List (List α)} {chunk : List α} {x : ℕ}
    (past : chunks.flatten.length + chunk.length ≤ x)
    (block : x / size = (chunks.flatten.length + chunk.length - 1) / size)
    (one : (chunks.flatten.length + chunk.length - 1) / size ≤ chunks.flatten.length / size) :
    written size (chunks ++ [chunk]) x = written size chunks x := by
  have whole : (chunks ++ [chunk]).flatten = chunks.flatten ++ chunk := by
    rw [List.flatten_append, List.flatten_singleton]
  have place := (block_iff positive).mp block
  have start : (chunks.flatten.length + chunk.length - 1) / size * size ≤ chunks.flatten.length :=
    (Nat.mul_le_mul_right size one).trans (Nat.div_mul_le_self ..)
  have begun : (chunks.flatten.length + chunk.length - 1) / size * size ∈ begins (chunks ++ [chunk]) ↔
      (chunks.flatten.length + chunk.length - 1) / size * size ∈ begins chunks := by
    rw [mem_begins_concat, or_iff_left_of_imp]
    intro last
    rw [show (chunks.flatten.length + chunk.length - 1) / size * size = chunks.flatten.length by omega]
    exact length_mem_begins chunks
  rw [written, written, whole, List.length_append, if_neg (Nat.not_lt.mpr past),
    if_neg (show ¬x < chunks.flatten.length by omega)]
  have below : (chunks.flatten.length - 1) / size ≤ (chunks.flatten.length + chunk.length - 1) / size :=
    Nat.div_le_div_right (by omega)
  generalize (chunks.flatten.length + chunk.length - 1) / size = l at *
  by_cases clear : l * size ∈ begins chunks
  · rw [if_neg fun both => both.2 (begun.mpr clear), if_neg]
    rintro ⟨same, dirty⟩
    rw [← same, block] at dirty
    exact dirty clear
  · -- the last block is older than the append
    have inner : l * size ≠ chunks.flatten.length := fun same => clear (same ▸ length_mem_begins chunks)
    have first : l * size ≠ 0 := fun same => clear (same ▸ zero_mem_begins chunks)
    have last : (chunks.flatten.length - 1) / size = l :=
      Nat.le_antisymm below ((Nat.le_div_iff_mul_le positive).mpr (by omega))
    rw [last, if_pos ⟨block, fun again => clear (begun.mp again)⟩, if_pos ⟨block, clear⟩,
      List.getD_append _ _ _ _ (by omega)]

/-- The elements of a file after one more append -/
theorem flat_append_written [Zero α] (positive : 0 < size) {chunks : List (List α)} {chunk : List α}
    (same : ∀ i < chunk.length, data i = chunk.getD i 0)
    (before : ∀ x, flat size blocks x = written size chunks x) (x : ℕ) :
    flat size (append size data chunks.flatten.length chunk.length blocks) x =
      written size (chunks ++ [chunk]) x := by
  have appended (x : ℕ) : flat size (append size data chunks.flatten.length chunk.length blocks) x = _ :=
    flat_append positive _ _ x
  generalize append size data chunks.flatten.length chunk.length blocks = r at appended ⊢
  have whole : (chunks ++ [chunk]).flatten = chunks.flatten ++ chunk := by
    rw [List.flatten_append, List.flatten_singleton]
  have text {x : ℕ} (inside : x < chunks.flatten.length + chunk.length) :
      flat size r x = (chunks.flatten ++ chunk).getD x 0 := by
    rw [appended]
    rcases Nat.lt_or_ge x chunks.flatten.length with low | high
    · rw [if_pos low, before, written, List.getD_append _ _ _ _ low]
      exact if_pos low
    · rw [if_neg (Nat.not_lt.mpr high), if_pos inside, List.getD_append_right _ _ _ _ high,
        same _ (by omega)]
  rcases Nat.lt_or_ge x (chunks.flatten.length + chunk.length) with inside | past
  · rw [text inside, written, whole]
    exact (if_pos (by rwa [List.length_append])).symm
  by_cases block : x / size = (chunks.flatten.length + chunk.length - 1) / size
  · rw [appended, if_neg (by omega), if_neg (by omega)]
    rcases Nat.lt_or_ge (chunks.flatten.length / size) ((chunks.flatten.length + chunk.length - 1) / size) with
      more | one
    · have place := (block_iff positive).mp block
      have enters : chunks.flatten.length < (chunks.flatten.length + chunk.length - 1) / size * size := by
        rw [← Nat.div_lt_iff_lt_mul positive]
        exact more
      have ends : (chunks.flatten.length + chunk.length - 1) / size * size ≤
          chunks.flatten.length + chunk.length - 1 := Nat.div_mul_le_self ..
      have inner : (chunks.flatten.length + chunk.length - 1) / size * size ∉ begins (chunks ++ [chunk]) := by
        rw [mem_begins_concat]
        rintro (early | last)
        · have := begins_le early
          omega
        · omega
      rw [if_pos ⟨more, block⟩, text (by omega), written, whole, List.length_append, if_neg (by omega),
        if_pos ⟨block, inner⟩]
    · rw [if_neg fun both => absurd both.1 (Nat.not_lt.mpr one), before, written_same positive past block one]
  · have outside : x / size ≠ (chunks.flatten.length - 1) / size := by
      intro same
      have low : (chunks.flatten.length - 1) / size ≤ (chunks.flatten.length + chunk.length - 1) / size :=
        Nat.div_le_div_right (by omega)
      have high : (chunks.flatten.length + chunk.length - 1) / size ≤ x / size := Nat.div_le_div_right (by omega)
      omega
    rw [appended, if_neg (by omega), if_neg (by omega), if_neg fun both => block both.2, before,
      written_other (by omega) outside, written_other (by rw [whole, List.length_append]; omega)
        (by rwa [whole, List.length_append])]

end LabKernel.Scratch
