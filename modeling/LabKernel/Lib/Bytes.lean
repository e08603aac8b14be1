import Mathlib

/-! # Byte buffers and little-endian fields

A buffer is a function from offsets to bytes, as a C pointer is used: it has no length of its own,
and each copy states how many bytes it moves. Numbers are stored little-endian; the generic pair
`leNat`/`leBytes` covers every width, and `u16`, `u32`, `u64` are its fixed-width readings.
-/

namespace LabKernel

abbrev U8 := BitVec 8
abbrev U16 := BitVec 16
abbrev U32 := BitVec 32
abbrev U64 := BitVec 64

/-- Bytes addressed by offset. -/
abbrev Bytes := ℕ → U8

namespace Bytes

/-- Copy `n` bytes of `src` to offset `off` of `dst`. -/
def blit (dst : Bytes) (off : ℕ) (src : Bytes) (n : ℕ) : Bytes :=
  fun i => if off ≤ i ∧ i < off + n then src (i - off) else dst i

theorem blit_inside {dst src : Bytes} {off n i : ℕ} (low : off ≤ i) (high : i < off + n) :
    dst.blit off src n i = src (i - off) := if_pos ⟨low, high⟩

theorem blit_outside {dst src : Bytes} {off n i : ℕ} (outside : i < off ∨ off + n ≤ i) :
    dst.blit off src n i = dst i := if_neg (by omega)

@[simp] theorem blit_zero (dst src : Bytes) (off : ℕ) : dst.blit off src 0 = dst := by
  funext i
  exact blit_outside (by omega)

/-- A copy only reads the bytes it copies. -/
theorem blit_congr {dst src src' : Bytes} {off n : ℕ} (same : ∀ i < n, src i = src' i) :
    dst.blit off src n = dst.blit off src' n := by
  funext i
  by_cases inside : off ≤ i ∧ i < off + n
  · rw [blit_inside inside.1 inside.2, blit_inside inside.1 inside.2, same _ (by omega)]
  · rw [blit_outside (by omega), blit_outside (by omega)]

/-- Two adjacent copies from one source are one longer copy. -/
theorem blit_append (dst src : Bytes) (off m n : ℕ) :
    (dst.blit off src m).blit (off + m) (fun i => src (m + i)) n = dst.blit off src (m + n) := by
  funext i
  simp only [blit]
  by_cases first : off ≤ i ∧ i < off + m
  · rw [if_neg (by omega), if_pos first, if_pos (by omega)]
  · by_cases second : off + m ≤ i ∧ i < off + m + n
    · rw [if_pos second, if_pos (by omega)]
      congr 1
      omega
    · rw [if_neg second, if_neg first, if_neg (by omega)]

/-- The number spelled little-endian by `n` bytes from offset `off`. -/
def leNat (b : Bytes) (off : ℕ) : ℕ → ℕ
  | 0 => 0
  | n + 1 => (b off).toNat + 256 * leNat b (off + 1) n

/-- The little-endian bytes of a number. -/
def leBytes (v : ℕ) : Bytes := fun i => BitVec.ofNat 8 (v / 256 ^ i)

theorem leNat_congr {b c : Bytes} {p q : ℕ} (n : ℕ) (same : ∀ i < n, b (p + i) = c (q + i)) :
    b.leNat p n = c.leNat q n := by
  induction n generalizing p q with
  | zero => rfl
  | succ n ih =>
    have head : b p = c q := same 0 (by omega)
    have tail : b.leNat (p + 1) n = c.leNat (q + 1) n := ih fun i bound => by
      have := same (i + 1) (by omega)
      rwa [show p + (i + 1) = p + 1 + i by omega, show q + (i + 1) = q + 1 + i by omega] at this
    rw [leNat, leNat, head, tail]

private theorem leNat_leBytes_from (v k n : ℕ) :
    (leBytes v).leNat k n = v / 256 ^ k % 256 ^ n := by
  induction n generalizing k with
  | zero => simp [leNat, Nat.mod_one]
  | succ n ih =>
    rw [leNat, ih (k + 1)]
    have digit : (leBytes v k).toNat = v / 256 ^ k % 256 := by simp [leBytes]
    have shift : v / 256 ^ (k + 1) = v / 256 ^ k / 256 := by
      rw [Nat.pow_succ, ← Nat.div_div_eq_div_mul]
    have width : 256 ^ (n + 1) = 256 * 256 ^ n := Nat.pow_succ'
    rw [digit, shift, width, Nat.mod_mul]

/-- Reading back the bytes of a number gives it modulo the width. -/
theorem leNat_leBytes (v n : ℕ) : (leBytes v).leNat 0 n = v % 256 ^ n := by
  simpa using leNat_leBytes_from v 0 n

def u16 (b : Bytes) (off : ℕ) : U16 := BitVec.ofNat 16 (b.leNat off 2)

def u32 (b : Bytes) (off : ℕ) : U32 := BitVec.ofNat 32 (b.leNat off 4)

def u64 (b : Bytes) (off : ℕ) : U64 := BitVec.ofNat 64 (b.leNat off 8)

theorem u16_congr {b c : Bytes} {p q : ℕ} (same : ∀ i < 2, b (p + i) = c (q + i)) :
    b.u16 p = c.u16 q := by
  rw [u16, u16, leNat_congr 2 same]

theorem u32_congr {b c : Bytes} {p q : ℕ} (same : ∀ i < 4, b (p + i) = c (q + i)) :
    b.u32 p = c.u32 q := by
  rw [u32, u32, leNat_congr 4 same]

theorem u64_congr {b c : Bytes} {p q : ℕ} (same : ∀ i < 8, b (p + i) = c (q + i)) :
    b.u64 p = c.u64 q := by
  rw [u64, u64, leNat_congr 8 same]

@[simp] theorem u16_leBytes (v : U16) : (leBytes v.toNat).u16 0 = v := by
  apply BitVec.eq_of_toNat_eq
  rw [u16, leNat_leBytes, BitVec.toNat_ofNat]
  omega

@[simp] theorem u32_leBytes (v : U32) : (leBytes v.toNat).u32 0 = v := by
  apply BitVec.eq_of_toNat_eq
  rw [u32, leNat_leBytes, BitVec.toNat_ofNat]
  omega

@[simp] theorem u64_leBytes (v : U64) : (leBytes v.toNat).u64 0 = v := by
  apply BitVec.eq_of_toNat_eq
  rw [u64, leNat_leBytes, BitVec.toNat_ofNat]
  omega

@[simp] theorem u64_zero (off : ℕ) : Bytes.u64 (fun _ => 0) off = 0 := by
  simp [u64, leNat]

@[simp] theorem u32_zero (off : ℕ) : Bytes.u32 (fun _ => 0) off = 0 := by
  simp [u32, leNat]

/-- A copy leaves a 32-bit field outside the copied range alone. -/
theorem u32_blit_outside {dst src : Bytes} {off n p : ℕ} (outside : p + 4 ≤ off ∨ off + n ≤ p) :
    (dst.blit off src n).u32 p = dst.u32 p :=
  u32_congr fun i bound => blit_outside (by omega)

/-- A copy that covers a 32-bit field replaces it by the source's field. -/
theorem u32_blit_inside {dst src : Bytes} {off n p : ℕ} (low : off ≤ p) (high : p + 4 ≤ off + n) :
    (dst.blit off src n).u32 p = src.u32 (p - off) :=
  u32_congr fun i bound => by
    rw [blit_inside (by omega) (by omega)]
    congr 1
    omega

def setU32 (b : Bytes) (off : ℕ) (v : U32) : Bytes := b.blit off (leBytes v.toNat) 4

theorem u32_setU32_same (b : Bytes) (off : ℕ) (v : U32) : (b.setU32 off v).u32 off = v := by
  rw [setU32, u32_blit_inside (Nat.le_refl _) (Nat.le_refl _), Nat.sub_self, u32_leBytes]

theorem u32_setU32_other {b : Bytes} {off p : ℕ} (v : U32) (apart : p + 4 ≤ off ∨ off + 4 ≤ p) :
    (b.setU32 off v).u32 p = b.u32 p := u32_blit_outside apart

def setU64 (b : Bytes) (off : ℕ) (v : U64) : Bytes := b.blit off (leBytes v.toNat) 8

theorem u64_setU64_same (b : Bytes) (off : ℕ) (v : U64) : (b.setU64 off v).u64 off = v := by
  have copied : (b.setU64 off v).u64 off = (leBytes v.toNat).u64 0 := u64_congr fun i bound => by
    rw [setU64, blit_inside (by omega) (by omega)]
    congr 1
    omega
  rw [copied, u64_leBytes]

theorem u64_setU64_other {b : Bytes} {off p : ℕ} (v : U64) (apart : p + 8 ≤ off ∨ off + 8 ≤ p) :
    (b.setU64 off v).u64 p = b.u64 p :=
  u64_congr fun i bound => blit_outside (by omega)

/-- Bit `i` of a buffer: `data[i / 8] & (1 << (i % 8))`. -/
def bit (b : Bytes) (i : ℕ) : Bool := b (i / 8) &&& (1#8 <<< (i % 8)) != 0

/-- `data[i / 8] |= (1 << (i % 8))` -/
def setBit (b : Bytes) (i : ℕ) : Bytes :=
  fun k => if k = i / 8 then b k ||| (1#8 <<< (i % 8)) else b k

/-- `data[i / 8] &= ~(1 << (i % 8))` -/
def clearBit (b : Bytes) (i : ℕ) : Bytes :=
  fun k => if k = i / 8 then b k &&& ~~~(1#8 <<< (i % 8)) else b k

private theorem byte_bit (x : U8) (i : Fin 8) : (x &&& (1#8 <<< i.val) != 0) = x.getLsbD i.val := by
  revert x i
  decide +kernel

theorem bit_eq_getLsbD (b : Bytes) (i : ℕ) : b.bit i = (b (i / 8)).getLsbD (i % 8) :=
  byte_bit _ ⟨i % 8, Nat.mod_lt _ (by decide)⟩

private theorem mask_bit (i j : Fin 8) : (1#8 <<< i.val).getLsbD j.val = decide (j = i) := by
  revert i j
  decide +kernel

private theorem mask_getLsbD (i j : ℕ) :
    (1#8 <<< (i % 8)).getLsbD (j % 8) = decide (j % 8 = i % 8) := by
  have split := mask_bit ⟨i % 8, Nat.mod_lt _ (by decide)⟩ ⟨j % 8, Nat.mod_lt _ (by decide)⟩
  rw [split]
  exact decide_eq_decide.mpr Fin.ext_iff

theorem bit_setBit (b : Bytes) (i j : ℕ) : (b.setBit i).bit j = (decide (j = i) || b.bit j) := by
  rw [bit_eq_getLsbD, bit_eq_getLsbD, setBit]
  by_cases byte : j / 8 = i / 8
  · have same : (j % 8 = i % 8) ↔ j = i := by omega
    rw [if_pos byte, BitVec.getLsbD_or, mask_getLsbD, Bool.or_comm, decide_eq_decide.mpr same]
  · rw [if_neg byte, decide_eq_false (show ¬j = i by omega), Bool.false_or]

theorem bit_clearBit (b : Bytes) (i j : ℕ) :
    (b.clearBit i).bit j = (b.bit j && !decide (j = i)) := by
  rw [bit_eq_getLsbD, bit_eq_getLsbD, clearBit]
  by_cases byte : j / 8 = i / 8
  · have same : (j % 8 = i % 8) ↔ j = i := by omega
    have inside : j % 8 < 8 := Nat.mod_lt _ (by decide)
    rw [if_pos byte, BitVec.getLsbD_and, BitVec.getLsbD_not, mask_getLsbD,
      decide_eq_decide.mpr same, decide_eq_true inside, Bool.true_and]
  · rw [if_neg byte, decide_eq_false (show ¬j = i by omega), Bool.not_false, Bool.and_true]

end Bytes

end LabKernel
