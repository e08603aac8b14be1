import LabKernel.Mem.HeapTop

/-! # Copies between the kernel and user memory

`uvm_copyout`, `uvm_copyin` and `uvm_copyin_str` cut a range of user addresses at the ends of pages and
go through the frames one page at a time. On the level of bytes each of them is one copy: byte `j` of
the kernel's buffer belongs to the place in memory that address `j` of the range leads to.
-/

namespace LabKernel

/-- The loop of `uvm_copyout` -/
def copyoutLoop (pgtbl : U64) (dst : ℕ) (src : Bytes) (len : ℕ) : (fuel copied : ℕ) → MemM Unit
  | 0, _ => throw .hang
  | fuel + 1, copied =>
    if copied < len then do
      let va := wrap64 (dst + copied)
      match ← vmGetpte pgtbl va false with
      | none => throw (.panic "uvm_copyout: access violation or unmapped addr")
      | some (t, i) =>
        let pte := (← get).pte t i
        if ¬PteHas pte pteV ∨ ¬PteHas pte pteW ∨ ¬PteHas pte pteU then
          throw (.panic "uvm_copyout: access violation or unmapped addr")
        let n := min (pgsize - va % pgsize) (len - copied)
        modify fun s => s.setPage (pteToPa pte)
          ((s.pages (pteToPa pte)).blit (va % pgsize) (fun j => src (copied + j)) n)
        copyoutLoop pgtbl dst src len fuel (copied + n)
    else return ()

/-- `uvm_copyout`; each round copies a byte at least. -/
def uvmCopyout (pgtbl : U64) (dst : ℕ) (src : Bytes) (len : ℕ) : MemM Unit :=
  copyoutLoop pgtbl dst src len (len + 1) 0

/-- The loop of `uvm_copyin` -/
def copyinLoop (pgtbl : U64) (src : ℕ) (len : ℕ) : (fuel copied : ℕ) → (dst : Bytes) → MemM Bytes
  | 0, _, _ => throw .hang
  | fuel + 1, copied, dst =>
    if copied < len then do
      let va := wrap64 (src + copied)
      match ← vmGetpte pgtbl va false with
      | none => throw (.panic "uvm_copyin: access violation or unmapped addr")
      | some (t, i) =>
        let s ← get
        let pte := s.pte t i
        if ¬PteHas pte pteV ∨ ¬PteHas pte pteR ∨ ¬PteHas pte pteU then
          throw (.panic "uvm_copyin: access violation or unmapped addr")
        let n := min (pgsize - va % pgsize) (len - copied)
        copyinLoop pgtbl src len fuel (copied + n)
          (dst.blit copied (fun j => s.pages (pteToPa pte) (va % pgsize + j)) n)
    else return dst

/-- `uvm_copyin`; each round copies a byte at least. -/
def uvmCopyin (pgtbl : U64) (src : ℕ) (len : ℕ) : MemM Bytes :=
  copyinLoop pgtbl src len (len + 1) 0 fun _ => 0

/-- The inner loop of `uvm_copyin_str`: whether it met the end of the string, and how far it came. -/
def copyStrPage (page : Bytes) (maxlen : ℕ) :
    (fuel offset n : ℕ) → (dst : Bytes) → Bool × ℕ × Bytes
  | 0, _, n, dst => (false, n, dst)
  | fuel + 1, offset, n, dst =>
    if n < maxlen then
      let dst := Function.update dst n (page offset)
      if page offset = 0 then (true, n, dst)
      else copyStrPage page maxlen fuel (offset + 1) (n + 1) dst
    else (false, n, dst)

/-- The loop of `uvm_copyin_str` -/
def copyinStrLoop (pgtbl : U64) (src : ℕ) (maxlen : ℕ) :
    (fuel n : ℕ) → (dst : Bytes) → MemM Bytes
  | 0, _, _ => throw .hang
  | fuel + 1, n, dst =>
    if n < maxlen then do
      let va := wrap64 (src + n)
      match ← vmGetpte pgtbl va false with
      | none => throw (.panic "uvm_copyin_str: invalid user string ptr")
      | some (t, i) =>
        let s ← get
        let pte := s.pte t i
        if ¬PteHas pte pteV ∨ ¬PteHas pte pteR ∨ ¬PteHas pte pteU then
          throw (.panic "uvm_copyin_str: invalid user string ptr")
        let r := copyStrPage (s.pages (pteToPa pte)) maxlen (pgsize - va % pgsize) (va % pgsize) n dst
        if r.1 then return r.2.2
        else copyinStrLoop pgtbl src maxlen fuel r.2.1 r.2.2
    else return Function.update dst (maxlen - 1) 0

/-- `uvm_copyin_str` to a buffer; each round copies a byte at least. -/
def uvmCopyinStr (pgtbl : U64) (src : ℕ) (maxlen : ℕ) (dst : Bytes) : MemM Bytes :=
  copyinStrLoop pgtbl src maxlen (maxlen + 1) 0 dst

/-! ## What a copy means -/

/-- The frame that an address leads to, and the offset in it. -/
def imageOf (s : Machine) (table : U64) (va : ℕ) : Option (U64 × ℕ) :=
  (translate s table va).map fun (frame, _) => (frame, va % pgsize)

/-- The page of an address is there for the user, with a permission. -/
def Allows (s : Machine) (table need : U64) (va : ℕ) : Prop :=
  ∃ frame flags, translate s table va = some (frame, flags) ∧ PteHas flags need ∧ PteHas flags pteU

/-- Of the given pages, those that the user may access have frames of their own, and none of these frames
holds a table of the tree. -/
structure UserMap (s : Machine) (table : U64) (pages : Set ℕ) : Prop where
  once : ∀ v ∈ pages, ∀ w ∈ pages, ∀ frame flags flags', translate s table (v * pgsize) = some (frame, flags) →
    translate s table (w * pgsize) = some (frame, flags') → PteHas flags pteU → PteHas flags' pteU → v = w
  data : ∀ v ∈ pages, ∀ frame flags, translate s table (v * pgsize) = some (frame, flags) →
    PteHas flags pteU → ∀ q, s.tableAt (s.rootFor table) q ≠ some frame

/-- The first `n` bytes of a buffer were copied to user memory, and nothing else changed. -/
structure CopiedOut (s : Machine) (table : U64) (dst : ℕ) (src : Bytes) (n : ℕ) (s' : Machine) : Prop where
  allowed : ∀ j < n, Allows s table pteW (wrap64 (dst + j))
  bytes : ∀ j < n, ∀ a x, imageOf s table (wrap64 (dst + j)) = some (a, x) → s'.pages a x = src j
  rest : ∀ a x, (∀ j < n, imageOf s table (wrap64 (dst + j)) ≠ some (a, x)) → s'.pages a x = s.pages a x
  only : s' = { s with pages := s'.pages }

/-- The first `n` bytes of a buffer were copied from user memory. -/
structure CopiedIn (s : Machine) (table : U64) (src : ℕ) (n : ℕ) (dst : Bytes) : Prop where
  allowed : ∀ j < n, Allows s table pteR (wrap64 (src + j))
  bytes : ∀ j < n, readByte s table (wrap64 (src + j)) = some (dst j)

/-- A string was copied from user memory: up to its end if that comes early enough, else cut off. -/
def CopiedStr (s : Machine) (table : U64) (src maxlen : ℕ) (dst : Bytes) : Prop :=
  (∃ n < maxlen, CopiedIn s table src (n + 1) dst ∧ (∀ j < n, dst j ≠ 0) ∧ dst n = 0) ∨
  (∀ j < maxlen, ∃ b ≠ 0, readByte s table (wrap64 (src + j)) = some b) ∧
    CopiedIn s table src (maxlen - 1) dst ∧ dst (maxlen - 1) = 0

/-- The bytes of a string before its end were copied from user memory. -/
structure Unfinished (s : Machine) (table : U64) (src n : ℕ) (dst : Bytes) : Prop where
  copied : CopiedIn s table src n dst
  before : ∀ j < n, dst j ≠ 0

/-- A failed check of `uvm_copyout`: a page of the range is not writable for the user. -/
def OutDenied (s : Machine) (table : U64) (addr : ℕ) (len : ℕ) (f : Fault) : Prop :=
  f = .panic "uvm_copyout: access violation or unmapped addr" ∧
    ∃ j < len, ¬Allows s table pteW (wrap64 (addr + j))

/-- A failed check of `uvm_copyin`: a page of the range is not readable for the user. -/
def InDenied (s : Machine) (table : U64) (addr : ℕ) (len : ℕ) (f : Fault) : Prop :=
  f = .panic "uvm_copyin: access violation or unmapped addr" ∧
    ∃ j < len, ¬Allows s table pteR (wrap64 (addr + j))

/-- A failed check of `uvm_copyin_str`: a page that the string reaches is not readable for the user. -/
def StrDenied (s : Machine) (table : U64) (addr : ℕ) (maxlen : ℕ) (f : Fault) : Prop :=
  f = .panic "uvm_copyin_str: invalid user string ptr" ∧
    ∃ n < maxlen, ¬Allows s table pteR (wrap64 (addr + n)) ∧
      ∀ j < n, ∃ b ≠ 0, readByte s table (wrap64 (addr + j)) = some b

variable {s s' : Machine} {table need : U64} {va va' : ℕ} {pages : Set ℕ}

open Machine

/-! ## One page -/

/-- Addresses of one page are found in one entry. -/
theorem translate_congr (page : va / pgsize = va' / pgsize) : translate s table va = translate s table va' := by
  simp only [pgsize_eq] at page
  rcases Nat.lt_or_ge va vaMax with low | high
  · have low' : va' < vaMax := by
      simp only [vaMax_eq] at low ⊢
      omega
    rw [translate_eq low, translate_eq low', pgsize_eq, page]
  · have high' : vaMax ≤ va' := by
      simp only [vaMax_eq] at high ⊢
      omega
    rw [translate_high high, translate_high high']

private theorem translate_base (va : ℕ) : translate s table va = translate s table (va / pgsize * pgsize) :=
  translate_congr (Nat.mul_div_cancel _ (by decide)).symm

theorem setPage_setPage (s : Machine) (a : U64) (p q : Bytes) : (s.setPage a p).setPage a q = s.setPage a q := by
  simp only [Machine.setPage, Function.update_idem]

/-- A page that holds no table of the tree can change without a change of the mapping. -/
theorem translate_setPage {frame : U64} (pg : Bytes) (data : ∀ q, s.tableAt (s.rootFor table) q ≠ some frame)
    (va : ℕ) : translate (s.setPage frame pg) table va = translate s table va := by
  rcases Nat.lt_or_ge va vaMax with low | high
  · rw [translate_eq low, translate_eq low]
    exact congrArg decode (leaf_congr (fun p depth => setPage_entry pg data depth) _)
  · rw [translate_high high, translate_high high]

theorem tableAt_setPage {root frame : U64} (pg : Bytes) (data : ∀ q, s.tableAt root q ≠ some frame)
    (q : Option Place) : (s.setPage frame pg).tableAt root q = s.tableAt root q :=
  tableAt_of_entry fun _ depth => setPage_entry pg data depth

/-- The addresses from `x` to the end of its page -/
theorem wrap64_page {x j : ℕ} (inside : wrap64 x % pgsize + j < pgsize) :
    wrap64 (x + j) = wrap64 x + j ∧ (wrap64 x + j) / pgsize = wrap64 x / pgsize ∧
      (wrap64 x + j) % pgsize = wrap64 x % pgsize + j := by
  simp only [wrap64, pgsize_eq] at inside ⊢
  omega

private theorem wrap64_inj {x i j : ℕ} (low : i < 2 ^ 64) (low' : j < 2 ^ 64) (same : wrap64 (x + i) = wrap64 (x + j)) :
    i = j := by
  simp only [wrap64] at same
  omega

/-- What the check of an address finds, which the three functions share. -/
theorem access (s : Machine) (table need : U64) (va : ℕ) (kept : need &&& 0x3FF = need) :
    (∃ t i, vmGetpte table va false s = .ok (some (t, i)) s ∧ Allows s table need va ∧
      ¬(¬PteHas (s.pte t i) pteV ∨ ¬PteHas (s.pte t i) need ∨ ¬PteHas (s.pte t i) pteU) ∧
      translate s table va = some (pteToPa (s.pte t i), pteFlags (s.pte t i))) ∨
    ¬Allows s table need va ∧ (vmGetpte table va false s = .ok none s ∨
      ∃ t i, vmGetpte table va false s = .ok (some (t, i)) s ∧
        (¬PteHas (s.pte t i) pteV ∨ ¬PteHas (s.pte t i) need ∨ ¬PteHas (s.pte t i) pteU)) := by
  obtain ⟨r, read⟩ : ∃ r, vmGetpte table va false s = .ok r s := by
    rcases Nat.lt_or_ge va vaMax with low | high
    · exact ⟨_, vmGetpte_read low⟩
    · refine ⟨none, ?_⟩
      simp only [vmGetpte, bind, EStateM.bind, get, getThe, MonadStateOf.get, EStateM.get, if_pos high]
      rfl
  rcases r with _ | ⟨t, i⟩
  · refine .inr ⟨?_, .inl read⟩
    rintro ⟨frame, flags, found, -⟩
    simp only [translate, read, reduceCtorEq] at found
  · have found : translate s table va = decode (s.pte t i) := by simp only [translate, read]
    by_cases bad : ¬PteHas (s.pte t i) pteV ∨ ¬PteHas (s.pte t i) need ∨ ¬PteHas (s.pte t i) pteU
    · refine .inr ⟨?_, .inr ⟨t, i, read, bad⟩⟩
      rintro ⟨frame, flags, here, has, user⟩
      rw [found, decode] at here
      split at here
      case isTrue valid =>
        cases here
        rw [pteHas_pteFlags _ kept] at has
        rw [pteHas_pteFlags _ (by decide)] at user
        exact bad.elim (· valid) (·.elim (· has) (· user))
      case isFalse => cases here
    · obtain ⟨valid, has, user⟩ := not_or.mp bad |>.imp not_not.mp fun both =>
        (not_or.mp both).imp not_not.mp not_not.mp
      rw [decode, if_pos valid] at found
      exact .inl ⟨t, i, read, ⟨_, _, found, (pteHas_pteFlags _ kept).mpr has,
        (pteHas_pteFlags _ (by decide)).mpr user⟩, bad, found⟩

/-- The bytes of a page from an address on -/
theorem page_run {frame flags : U64} {x j : ℕ} (found : translate s table (wrap64 x) = some (frame, flags))
    (inside : wrap64 x % pgsize + j < pgsize) :
    translate s table (wrap64 (x + j)) = some (frame, flags) ∧
      imageOf s table (wrap64 (x + j)) = some (frame, wrap64 x % pgsize + j) := by
  obtain ⟨next, page, off⟩ := wrap64_page inside
  have same : translate s table (wrap64 (x + j)) = some (frame, flags) := by
    rw [next, translate_congr page, found]
  exact ⟨same, by rw [imageOf, same, Option.map_some, next, off]⟩

private theorem readByte_imageOf (s : Machine) (table : U64) (va : ℕ) :
    readByte s table va = (imageOf s table va).map fun (a, x) => s.pages a x := by
  rw [readByte, imageOf, Option.map_map]
  rfl

/-! ## From user memory -/

variable {src dst len : ℕ}

/-- A page more of a copy from user memory -/
theorem CopiedIn.page {buf : Bytes} {copied n : ℕ} {frame flags : U64} (before : CopiedIn s table src copied buf)
    (found : translate s table (wrap64 (src + copied)) = some (frame, flags)) (has : PteHas flags pteR)
    (user : PteHas flags pteU) (inside : wrap64 (src + copied) % pgsize + n ≤ pgsize) :
    CopiedIn s table src (copied + n)
      (buf.blit copied (fun j => s.pages frame (wrap64 (src + copied) % pgsize + j)) n) := by
  have here {j : ℕ} (new : ¬j < copied) (less : j < copied + n) :=
    page_run (j := j - copied) found (by omega)
  have number {j : ℕ} (new : ¬j < copied) : src + copied + (j - copied) = src + j := by omega
  constructor
  · intro j less
    by_cases old : j < copied
    · exact before.allowed j old
    · have at_j := (here old less).1
      rw [number old] at at_j
      exact ⟨frame, flags, at_j, has, user⟩
  · intro j less
    by_cases old : j < copied
    · rw [Bytes.blit_outside (.inl old)]
      exact before.bytes j old
    · have at_j := (here old less).2
      rw [number old] at at_j
      rw [Bytes.blit_inside (Nat.le_of_not_lt old) less, readByte_imageOf, at_j]
      rfl

private theorem copyinLoop_ends {fuel copied : ℕ} {buf : Bytes} (enough : len - copied < fuel) (upto : copied ≤ len)
    (before : CopiedIn s table src copied buf) :
    Ends (copyinLoop table src len fuel copied buf) s (fun got s' => s' = s ∧ CopiedIn s table src len got)
      (InDenied s table src len) := by
  induction fuel generalizing copied buf with
  | zero => omega
  | succ fuel ih =>
    rw [copyinLoop]
    refine Ends.ite (fun more => ?_) fun done => ?_
    · dsimp only
      rcases access s table pteR (wrap64 (src + copied)) (by decide) with
        ⟨t, i, read, allowed, good, found⟩ | ⟨denied, missing | ⟨t, i, read, bad⟩⟩
      · refine Ends.bind_of_ok read ?_
        simp only [Ends.bind_iff, Ends.get_iff]
        rw [if_neg good]
        obtain ⟨frame, flags, same, has, user⟩ := allowed
        obtain ⟨rfl, rfl⟩ := Prod.mk.inj (Option.some.inj (found.symm.trans same))
        have room := Nat.mod_lt (wrap64 (src + copied)) (show 0 < pgsize by decide)
        exact ih (by omega) (by omega) (before.page found has user (by omega))
      · exact Ends.bind_of_ok missing (Ends.throw_iff.mpr ⟨rfl, copied, more, denied⟩)
      · refine Ends.bind_of_ok read ?_
        simp only [Ends.bind_iff, Ends.get_iff]
        rw [if_pos bad]
        exact Ends.bind_iff.mpr (Ends.throw_iff.mpr ⟨rfl, copied, more, denied⟩)
    · obtain rfl : copied = len := by omega
      exact Ends.pure_iff.mpr ⟨rfl, before⟩

/-- `uvm_copyin` copies the range, or panics where a page of it is not readable for the user. -/
theorem uvmCopyin_ends (s : Machine) (table : U64) (src len : ℕ) :
    Ends (uvmCopyin table src len) s (fun got s' => s' = s ∧ CopiedIn s table src len got)
      (InDenied s table src len) :=
  copyinLoop_ends (by omega) (Nat.zero_le _)
    ⟨fun _ less => absurd less (Nat.not_lt_zero _), fun _ less => absurd less (Nat.not_lt_zero _)⟩

/-! ## Strings from user memory -/

/-- A byte more -/
theorem CopiedIn.byte {buf : Bytes} {n off : ℕ} {frame flags : U64} (before : CopiedIn s table src n buf)
    (found : translate s table (wrap64 (src + n)) = some (frame, flags))
    (image : imageOf s table (wrap64 (src + n)) = some (frame, off)) (has : PteHas flags pteR)
    (user : PteHas flags pteU) :
    CopiedIn s table src (n + 1) (Function.update buf n (s.pages frame off)) := by
  constructor
  · intro j less
    rcases Nat.lt_succ_iff_lt_or_eq.mp less with old | rfl
    · exact before.allowed j old
    · exact ⟨frame, flags, found, has, user⟩
  · intro j less
    rcases Nat.lt_succ_iff_lt_or_eq.mp less with old | rfl
    · rw [Function.update_of_ne (Nat.ne_of_lt old)]
      exact before.bytes j old
    · rw [Function.update_self, readByte_imageOf, image]
      rfl

/-- The inner loop meets the end of the string, or comes to the end of the page or of the buffer. -/
theorem copyStrPage_spec {maxlen fuel off n : ℕ} {buf : Bytes} {frame flags : U64} (upto : n ≤ maxlen)
    (before : Unfinished s table src n buf) (has : PteHas flags pteR) (user : PteHas flags pteU)
    (here : ∀ j < fuel, translate s table (wrap64 (src + (n + j))) = some (frame, flags) ∧
      imageOf s table (wrap64 (src + (n + j))) = some (frame, off + j)) :
    match copyStrPage (s.pages frame) maxlen fuel off n buf with
    | (true, m, got) => m < maxlen ∧ CopiedIn s table src (m + 1) got ∧ (∀ j < m, got j ≠ 0) ∧ got m = 0
    | (false, m, got) => m ≤ maxlen ∧ (m = maxlen ∨ m = n + fuel) ∧ Unfinished s table src m got := by
  induction fuel generalizing off n buf with
  | zero => exact ⟨upto, .inr rfl, before⟩
  | succ fuel ih =>
    rw [copyStrPage]
    by_cases more : n < maxlen
    · rw [if_pos more]
      obtain ⟨found, image⟩ := here 0 (Nat.succ_pos fuel)
      have next := before.copied.byte found image has user
      have earlier (j : ℕ) (less : j < n) : Function.update buf n (s.pages frame off) j ≠ 0 := by
        rw [Function.update_of_ne (Nat.ne_of_lt less)]
        exact before.before j less
      by_cases last : s.pages frame off = 0
      · rw [if_pos last]
        exact ⟨more, next, earlier, (Function.update_self ..).trans last⟩
      · rw [if_neg last]
        have unfinished : Unfinished s table src (n + 1) (Function.update buf n (s.pages frame off)) := by
          refine ⟨next, fun j less => ?_⟩
          rcases Nat.lt_succ_iff_lt_or_eq.mp less with old | rfl
          · exact earlier j old
          · rw [Function.update_self]
            exact last
        have later (j : ℕ) (less : j < fuel) : translate s table (wrap64 (src + (n + 1 + j))) = some (frame, flags) ∧
            imageOf s table (wrap64 (src + (n + 1 + j))) = some (frame, off + 1 + j) := by
          rw [show n + 1 + j = n + (j + 1) by omega, show off + 1 + j = off + (j + 1) by omega]
          exact here (j + 1) (by omega)
        have rest := ih more unfinished later
        rwa [show n + 1 + fuel = n + (fuel + 1) by omega] at rest
    · rw [if_neg more]
      exact ⟨upto, .inl (by omega), before⟩

private theorem copyinStrLoop_ends {maxlen fuel n : ℕ} {buf : Bytes} (pos : 0 < maxlen) (enough : maxlen - n < fuel)
    (upto : n ≤ maxlen) (before : Unfinished s table src n buf) :
    Ends (copyinStrLoop table src maxlen fuel n buf) s
      (fun got s' => s' = s ∧ CopiedStr s table src maxlen got)
      (StrDenied s table src maxlen) := by
  induction fuel generalizing n buf with
  | zero => omega
  | succ fuel ih =>
    have text (j : ℕ) (less : j < n) : ∃ b ≠ 0, readByte s table (wrap64 (src + j)) = some b :=
      ⟨buf j, before.before j less, before.copied.bytes j less⟩
    rw [copyinStrLoop]
    refine Ends.ite (fun more => ?_) fun done => ?_
    · dsimp only
      rcases access s table pteR (wrap64 (src + n)) (by decide) with
        ⟨t, i, read, allowed, good, found⟩ | ⟨denied, missing | ⟨t, i, read, bad⟩⟩
      · refine Ends.bind_of_ok read ?_
        simp only [Ends.bind_iff, Ends.get_iff]
        rw [if_neg good]
        obtain ⟨frame, flags, same, has, user⟩ := allowed
        obtain ⟨rfl, rfl⟩ := Prod.mk.inj (Option.some.inj (found.symm.trans same))
        have room := Nat.mod_lt (wrap64 (src + n)) (show 0 < pgsize by decide)
        have here (j : ℕ) (less : j < pgsize - wrap64 (src + n) % pgsize) :=
          page_run found (show wrap64 (src + n) % pgsize + j < pgsize by omega)
        simp only [Nat.add_assoc src n] at here
        have page := copyStrPage_spec upto before has user here
        revert page
        rcases copyStrPage _ _ _ _ _ _ with ⟨_ | _, m, got⟩
        · rintro ⟨within, far, unfinished⟩
          exact ih (show maxlen - m < fuel by omega) within unfinished
        · rintro ⟨less, copied, earlier, last⟩
          exact ⟨rfl, .inl ⟨m, less, copied, earlier, last⟩⟩
      · exact Ends.bind_of_ok missing (Ends.throw_iff.mpr ⟨rfl, n, more, denied, text⟩)
      · refine Ends.bind_of_ok read ?_
        simp only [Ends.bind_iff, Ends.get_iff]
        rw [if_pos bad]
        exact Ends.bind_iff.mpr (Ends.throw_iff.mpr ⟨rfl, n, more, denied, text⟩)
    · obtain rfl : n = maxlen := by omega
      refine Ends.pure_iff.mpr ⟨rfl, .inr ⟨fun j less => ?_, ⟨fun j less => ?_, fun j less => ?_⟩, ?_⟩⟩
      · exact text j less
      · exact before.copied.allowed j (by omega)
      · rw [Function.update_of_ne (by omega)]
        exact before.copied.bytes j (by omega)
      · exact Function.update_self ..

/-- `uvm_copyin_str` copies the string, cut off where the buffer ends. -/
theorem uvmCopyinStr_ends (s : Machine) (table : U64) (src : ℕ) {maxlen : ℕ} (pos : 0 < maxlen) (buf : Bytes) :
    Ends (uvmCopyinStr table src maxlen buf) s (fun got s' => s' = s ∧ CopiedStr s table src maxlen got)
      (StrDenied s table src maxlen) :=
  copyinStrLoop_ends pos (by omega) (Nat.zero_le _)
    ⟨⟨fun _ less => absurd less (Nat.not_lt_zero _), fun _ less => absurd less (Nat.not_lt_zero _)⟩,
      fun _ less => absurd less (Nat.not_lt_zero _)⟩

/-! ## To user memory -/

/-- Two addresses of user pages with one image are the same. -/
theorem UserMap.inj {pages : Set ℕ} (map : UserMap s table pages) {i : U64 × ℕ} (mem : va / pgsize ∈ pages)
    (mem' : va' / pgsize ∈ pages) (allowed : Allows s table need va) (allowed' : Allows s table need va')
    (image : imageOf s table va = some i) (image' : imageOf s table va' = some i) : va = va' := by
  obtain ⟨frame, flags, found, -, user⟩ := allowed
  obtain ⟨frame', flags', found', -, user'⟩ := allowed'
  rw [imageOf, found] at image
  rw [imageOf, found'] at image'
  obtain ⟨rfl, off⟩ := Prod.mk.inj (Option.some.inj (image.trans image'.symm))
  rw [translate_base] at found found'
  have page := map.once _ mem _ mem' frame flags flags' found found' user user'
  rw [← Nat.div_add_mod va pgsize, ← Nat.div_add_mod va' pgsize, page, off]

/-- The tables of the tree are none of the bytes that were written. -/
theorem CopiedOut.entry {src : Bytes} {n : ℕ} (map : UserMap s table pages)
    (range : ∀ j < n, wrap64 (dst + j) / pgsize ∈ pages) (copied : CopiedOut s table dst src n s') {p : Place}
    (depth : p.depth ≤ 2) : s'.entry (s.rootFor table) p = s.entry (s.rootFor table) p := by
  refine entry_of_apart (fun q a found j => ?_) depth
  have same : s'.pages a = s.pages a := by
    funext x
    refine copied.rest a x fun j less image => ?_
    obtain ⟨frame, flags, here, -, user⟩ := copied.allowed j less
    rw [imageOf, here] at image
    obtain ⟨rfl, -⟩ := Prod.mk.inj (Option.some.inj image)
    rw [translate_base] at here
    exact map.data _ (range j less) frame flags here user q found
  rw [pte, pte, same]

private theorem CopiedOut.rootFor {src : Bytes} {n : ℕ} (copied : CopiedOut s table dst src n s') :
    s'.rootFor table = s.rootFor table := by
  rw [copied.only]
  rfl

/-- All addresses lead where they led. -/
theorem CopiedOut.translate {src : Bytes} {n : ℕ} (map : UserMap s table pages)
    (range : ∀ j < n, wrap64 (dst + j) / pgsize ∈ pages) (copied : CopiedOut s table dst src n s') (va : ℕ) :
    translate s' table va = LabKernel.translate s table va := by
  rcases Nat.lt_or_ge va vaMax with low | high
  · rw [translate_eq low, translate_eq low, copied.rootFor,
      leaf_congr (fun _ depth => copied.entry map range depth)]
  · rw [translate_high high, translate_high high]

private theorem CopiedOut.imageOf {src : Bytes} {n : ℕ} (map : UserMap s table pages)
    (range : ∀ j < n, wrap64 (dst + j) / pgsize ∈ pages) (copied : CopiedOut s table dst src n s') (va : ℕ) :
    imageOf s' table va = LabKernel.imageOf s table va := by
  rw [LabKernel.imageOf, LabKernel.imageOf, copied.translate map range]

/-- The bytes of the buffer are read back. -/
theorem CopiedOut.readByte {src : Bytes} {n : ℕ} (map : UserMap s table pages)
    (range : ∀ j < n, wrap64 (dst + j) / pgsize ∈ pages) (copied : CopiedOut s table dst src n s') {j : ℕ}
    (less : j < n) : readByte s' table (wrap64 (dst + j)) = some (src j) := by
  obtain ⟨frame, flags, found, -⟩ := copied.allowed j less
  have image : LabKernel.imageOf s table (wrap64 (dst + j)) = some (frame, wrap64 (dst + j) % pgsize) := by
    rw [LabKernel.imageOf, found]
    rfl
  rw [readByte_imageOf, copied.imageOf map range, image]
  exact congrArg some (copied.bytes j less _ _ image)

/-- A page more of a copy to user memory -/
theorem CopiedOut.page {src : Bytes} {copied n : ℕ} {frame flags : U64} (map : UserMap s table pages)
    (range : ∀ j < copied + n, wrap64 (dst + j) / pgsize ∈ pages) (word : copied + n ≤ 2 ^ 64)
    (before : CopiedOut s table dst src copied s')
    (found : LabKernel.translate s table (wrap64 (dst + copied)) = some (frame, flags)) (has : PteHas flags pteW)
    (user : PteHas flags pteU) (inside : wrap64 (dst + copied) % pgsize + n ≤ pgsize) :
    CopiedOut s table dst src (copied + n) (s'.setPage frame ((s'.pages frame).blit
      (wrap64 (dst + copied) % pgsize) (fun j => src (copied + j)) n)) := by
  have here {j : ℕ} (new : ¬j < copied) (less : j < copied + n) :
      LabKernel.translate s table (wrap64 (dst + j)) = some (frame, flags) ∧
        LabKernel.imageOf s table (wrap64 (dst + j)) =
          some (frame, wrap64 (dst + copied) % pgsize + (j - copied)) := by
    have at_j := page_run (j := j - copied) found (by omega)
    rwa [show dst + copied + (j - copied) = dst + j by omega] at at_j
  have allowed (j : ℕ) (less : j < copied + n) : Allows s table pteW (wrap64 (dst + j)) := by
    by_cases old : j < copied
    · exact before.allowed j old
    · exact ⟨frame, flags, (here old less).1, has, user⟩
  have byte (x : ℕ) (low : wrap64 (dst + copied) % pgsize ≤ x) (high : x < wrap64 (dst + copied) % pgsize + n) :
      copied + (x - wrap64 (dst + copied) % pgsize) < copied + n ∧ LabKernel.imageOf s table
        (wrap64 (dst + (copied + (x - wrap64 (dst + copied) % pgsize)))) = some (frame, x) := by
    have less : copied + (x - wrap64 (dst + copied) % pgsize) < copied + n := by omega
    have image := (here (by omega) less).2
    rw [image]
    refine ⟨less, ?_⟩
    congr 2
    omega
  refine ⟨allowed, fun j less a x image => ?_, fun a x apart => ?_, ?_⟩
  · by_cases written : a = frame ∧ wrap64 (dst + copied) % pgsize ≤ x ∧ x < wrap64 (dst + copied) % pgsize + n
    · obtain ⟨rfl, low, high⟩ := written
      obtain ⟨within, image'⟩ := byte x low high
      have same := map.inj (range _ less) (range _ within) (allowed _ less) (allowed _ within) image image'
      rw [setPage_same, Bytes.blit_inside low high]
      exact congrArg src (wrap64_inj (by omega) (by omega) same).symm
    · have old : j < copied := by
        by_contra new
        have image' := (here new less).2
        obtain ⟨rfl, rfl⟩ := Prod.mk.inj (Option.some.inj (image.symm.trans image'))
        exact written ⟨rfl, by omega, by omega⟩
      have value := before.bytes j old a x image
      rcases eq_or_ne a frame with rfl | apart
      · rw [setPage_same, Bytes.blit_outside, value]
        by_contra inside'
        exact written ⟨rfl, by omega, by omega⟩
      · rw [setPage_other _ apart, value]
  · have kept := before.rest a x fun j less => apart j (by omega)
    rcases eq_or_ne a frame with rfl | other
    · rw [setPage_same, Bytes.blit_outside, kept]
      by_contra inside'
      obtain ⟨within, image⟩ := byte x (by omega) (by omega)
      exact apart _ within image
    · rw [setPage_other _ other, kept]
  · have only := before.only
    generalize s'.pages = mem at only ⊢
    subst only
    rfl

private theorem copyoutLoop_ends {src : Bytes} {fuel copied : ℕ} {t : Machine} (map : UserMap s table pages)
    (range : ∀ j < len, wrap64 (dst + j) / pgsize ∈ pages) (word : len ≤ 2 ^ 64) (enough : len - copied < fuel)
    (upto : copied ≤ len) (before : CopiedOut s table dst src copied t) :
    Ends (copyoutLoop table dst src len fuel copied) t (fun _ s' => CopiedOut s table dst src len s')
      (OutDenied s table dst len) := by
  induction fuel generalizing copied t with
  | zero => omega
  | succ fuel ih =>
    have leads := before.translate map fun j less => range j (by omega)
    have same (need : U64) (va : ℕ) : Allows t table need va ↔ Allows s table need va := by
      simp only [Allows, leads]
    rw [copyoutLoop]
    refine Ends.ite (fun more => ?_) fun done => ?_
    · dsimp only
      rcases access t table pteW (wrap64 (dst + copied)) (by decide) with
        ⟨u, i, read, allowed, good, found⟩ | ⟨denied, missing | ⟨u, i, read, bad⟩⟩
      · refine Ends.bind_of_ok read ?_
        simp only [Ends.bind_iff, Ends.get_iff]
        rw [if_neg good]
        obtain ⟨frame, flags, here, has, user⟩ := (same ..).mp allowed
        rw [leads] at found
        obtain ⟨rfl, rfl⟩ := Prod.mk.inj (Option.some.inj (found.symm.trans here))
        have room := Nat.mod_lt (wrap64 (dst + copied)) (show 0 < pgsize by decide)
        rw [Ends.bind_iff, Ends.modify_iff]
        exact ih (by omega) (by omega) (before.page map (fun j less => range j (by omega)) (by omega) found has
          user (by omega))
      · exact Ends.bind_of_ok missing (Ends.throw_iff.mpr ⟨rfl, copied, more, mt (same ..).mpr denied⟩)
      · refine Ends.bind_of_ok read ?_
        simp only [Ends.bind_iff, Ends.get_iff]
        rw [if_pos bad]
        exact Ends.bind_iff.mpr (Ends.throw_iff.mpr ⟨rfl, copied, more, mt (same ..).mpr denied⟩)
    · obtain rfl : copied = len := by omega
      exact Ends.pure_iff.mpr before

/-- `uvm_copyout` copies the range, or panics where a page of it is not writable for the user. -/
theorem uvmCopyout_ends {src : Bytes} (map : UserMap s table pages)
    (range : ∀ j < len, wrap64 (dst + j) / pgsize ∈ pages) (word : len ≤ 2 ^ 64) :
    Ends (uvmCopyout table dst src len) s (fun _ s' => CopiedOut s table dst src len s')
      (OutDenied s table dst len) :=
  copyoutLoop_ends map range word (by omega) (Nat.zero_le _)
    ⟨fun _ less => absurd less (Nat.not_lt_zero _), fun _ less => absurd less (Nat.not_lt_zero _),
      fun _ _ _ => rfl, rfl⟩

/-! ## The three functions -/

/-- Copies between the kernel and user memory are exact. What `uvm_copyout` writes is what `uvm_copyin`
reads back, it writes nothing else, both panic where a page of the range lacks a permission and only
there, and `uvm_copyin_str` copies a string up to its end or cuts it off. -/
theorem user_copies_exact (map : UserMap s table Set.univ) (src : Bytes) (addr : U64) (len : U32) :
    Ends (uvmCopyout table addr.toNat src len.toNat) s
      (fun _ s' => CopiedOut s table addr.toNat src len.toNat s' ∧
        Ends (uvmCopyin table addr.toNat len.toNat) s'
          (fun got s'' => s'' = s' ∧ (∀ j < len.toNat, Allows s table pteR (wrap64 (addr.toNat + j))) ∧
            ∀ j < len.toNat, got j = src j)
          (InDenied s table addr.toNat len.toNat))
      (OutDenied s table addr.toNat len.toNat) ∧
    Ends (uvmCopyin table addr.toNat len.toNat) s
      (fun got s' => s' = s ∧ CopiedIn s table addr.toNat len.toNat got)
      (InDenied s table addr.toNat len.toNat) ∧
    ∀ (maxlen : U32) (buf : Bytes), 0 < maxlen.toNat →
      Ends (uvmCopyinStr table addr.toNat maxlen.toNat buf) s
        (fun got s' => s' = s ∧ CopiedStr s table addr.toNat maxlen.toNat got)
        (StrDenied s table addr.toNat maxlen.toNat) := by
  have range (n j : ℕ) (_ : j < n) : wrap64 (addr.toNat + j) / pgsize ∈ (Set.univ : Set ℕ) := trivial
  have word := len.isLt
  refine ⟨?_, uvmCopyin_ends .., fun maxlen buf pos => uvmCopyinStr_ends s table _ pos buf⟩
  refine (uvmCopyout_ends map (range _) (by omega)).mono fun _ s' copied => ⟨copied, ?_⟩
  have same (va : ℕ) : Allows s' table pteR va ↔ Allows s table pteR va := by
    simp only [Allows, copied.translate map (range _)]
  refine ((uvmCopyin_ends s' table addr.toNat len.toNat).mono ?_).fails ?_
  · rintro got s'' ⟨rfl, back⟩
    refine ⟨rfl, fun j less => (same _).mp (back.allowed j less), fun j less => ?_⟩
    have read := copied.readByte map (range _) less
    exact Option.some.inj ((back.bytes j less).symm.trans read)
  · rintro f ⟨panic, j, less, denied⟩
    exact ⟨panic, j, less, mt (same _).mpr denied⟩

/-- Two pages at `0x3000` -/
theorem twoPages_map : ∃ s, vmMappages 0x80200000 0x3000 0x87000000 0x1800 0x16 bareMachine = .ok () s ∧
    s.Tables ⟨0x80200000⟩ {0x80200000} ∧ UserMap s 0x80200000 Set.univ ∧
    ∀ v, v = 3 ∨ v = 4 → translate s 0x80200000 (v * pgsize) =
      some (0x87000000 + BitVec.ofNat 64 (v * pgsize - 0x3000), 0x17) := by
  have maps := (@vm_finite_map ⟨0x80200000⟩ {0x80200000} bareMachine 0x80200000 0x3000 bareMachine_tables
    (by decide +kernel) 0x87000000 0x1800 0x16 false (by decide) (by decide) (by decide) (by decide) (by decide)).1
  obtain ⟨_, s, result, -⟩ := ok_of_returnsWith (x := vmMappages 0x80200000 0x3000 0x87000000 0x1800 0x16)
    (s := bareMachine) (b := fun _ _ => true) (by decide +kernel)
  simp only [Ends, result] at maps
  obtain ⟨tables', leads, -⟩ := maps
  have empty (v : ℕ) : translate bareMachine 0x80200000 (v * pgsize) = none := by
    rcases Nat.lt_or_ge (v * pgsize) vaMax with low | high
    · rw [translate_page low, Machine.leaf, entry_zero rfl]
      rfl
    · exact translate_high high
  have found {v : ℕ} {frame flags : U64} (here : translate s 0x80200000 (v * pgsize) = some (frame, flags)) :
      (0x3000 ≤ v * pgsize ∧ v * pgsize < 0x3000 + 0x1800) ∧
        frame = 0x87000000 + BitVec.ofNat 64 (v * pgsize - 0x3000) := by
    rw [leads, empty] at here
    split at here
    case isTrue inside =>
      exact ⟨inside, (Prod.mk.inj (Option.some.inj here)).1.symm⟩
    case isFalse => cases here
  have two {v : ℕ} (inside : 0x3000 ≤ v * pgsize ∧ v * pgsize < 0x3000 + 0x1800) : v = 3 ∨ v = 4 := by
    simp only [pgsize_eq] at inside
    omega
  refine ⟨s, result, tables', ⟨?_, ?_⟩, fun v which => ?_⟩
  · rintro v - w - frame flags flags' here here' - -
    obtain ⟨in_v, at_v⟩ := found here
    obtain ⟨in_w, at_w⟩ := found here'
    rcases two in_v with rfl | rfl <;> rcases two in_w with rfl | rfl
    · rfl
    · exact absurd (at_v.symm.trans at_w) (by decide)
    · exact absurd (at_v.symm.trans at_w) (by decide)
    · rfl
  · rintro v - frame flags here - q
    obtain ⟨inside, rfl⟩ := found here
    have user : (⟨0x80200000⟩ : Ram).UserFrame (0x87000000 + BitVec.ofNat 64 (v * pgsize - 0x3000)) := by
      rcases two inside with rfl | rfl <;> decide +kernel
    exact tables'.user_apart user rfl q
  · rw [leads, if_pos]
    · rfl
    · simp only [pgsize_eq]
      omega

theorem user_copies_exact_two : ∃ s s' got text,
    vmMappages 0x80200000 0x3000 0x87000000 0x1800 0x16 bareMachine = .ok () s ∧
    uvmCopyout 0x80200000 0x3ffe (Bytes.leBytes 0x6948) 4 s = .ok () s' ∧
    uvmCopyin 0x80200000 0x3ffe 4 s' = .ok got s' ∧ (∀ j < 4, got j = Bytes.leBytes 0x6948 j) ∧
    uvmCopyinStr 0x80200000 0x3ffe 2 (fun _ => 0) s = .ok text s ∧ CopiedStr s 0x80200000 0x3ffe 2 text := by
  obtain ⟨s, mapped, -, map, leads⟩ := twoPages_map
  have copies := user_copies_exact map (Bytes.leBytes 0x6948) 0x3ffe 4
  have allowed (need : U64) (has : PteHas 0x17 need) (j : ℕ) (less : j < 4) :
      Allows s 0x80200000 need (wrap64 (0x3ffe + j)) := by
    have page : wrap64 (0x3ffe + j) / pgsize = 3 ∨ wrap64 (0x3ffe + j) / pgsize = 4 := by
      simp only [wrap64, pgsize_eq]
      omega
    have found := leads _ page
    rw [← translate_base] at found
    exact ⟨_, 0x17, found, has, by decide⟩
  obtain ⟨out, -, str⟩ := copies
  have str := str 2 (fun _ => 0) (by decide)
  cases write : uvmCopyout 0x80200000 0x3ffe (Bytes.leBytes 0x6948) 4 s with
  | error f t =>
    obtain ⟨-, j, less, denied⟩ := out.error write
    exact absurd (allowed pteW (by decide) j less) denied
  | ok u s' =>
    obtain ⟨-, back⟩ := out.returns _ _ write
    cases read : uvmCopyin 0x80200000 0x3ffe 4 s' with
    | error f t =>
      obtain ⟨-, j, less, denied⟩ := back.error read
      exact absurd (allowed pteR (by decide) j less) denied
    | ok got t =>
      obtain ⟨rfl, -, same⟩ := back.returns _ _ read
      cases text : uvmCopyinStr 0x80200000 0x3ffe 2 (fun _ => 0) s with
      | error f t =>
        obtain ⟨-, j, less, denied, -⟩ := str.error text
        exact absurd (allowed pteR (by decide) j (Nat.lt_trans less (by decide))) denied
      | ok buf t =>
        obtain ⟨rfl, copied⟩ := str.returns _ _ text
        exact ⟨_, _, got, buf, mapped, write, read, same, text, copied⟩

end LabKernel
