import LabKernel.Mem.Copies
import LabKernel.Mem.Exec

/-! # The stack of a new program

`prepare_stack` works down from the top of one page: it copies the strings of `argv`, each to an address
that is a multiple of 16, and below them the array of their addresses. All that it writes goes through one
frame, so a run of it is a sequence of contents of that page.
-/

namespace LabKernel

def strlen (page : Bytes) : ℕ := (cstring pgsize page).length

/-- A page that the user may write is mapped to a frame, which holds no table of the tree. -/
structure WritablePage (s : Machine) (table : U64) (base : ℕ) (frame : U64) : Prop where
  leads : ∃ flags, translate s table base = some (frame, flags) ∧ PteHas flags pteW ∧ PteHas flags pteU
  data : ∀ q, s.tableAt (s.rootFor table) q ≠ some frame

/-- Two ranges, given by their begins and lengths, have no address in common. -/
def Apart (a b : ℕ × ℕ) : Prop := a.1 + a.2 ≤ b.1 ∨ b.1 + b.2 ≤ a.1

/-- What the copy of a string takes: the address of the copy and the page of the string are given. -/
def extent (s : Machine) (x : ℕ × U64) : ℕ × ℕ := (x.1, strlen (s.pages x.2) + 1)

def ReadsWord (s : Machine) (table : U64) (va : ℕ) (w : U64) : Prop :=
  ∀ j < 8, readByte s table (va + j) = some (Bytes.leBytes w.toNat j)

/-- In `s'` an address begins an exact copy of a string of `s`, with its `NUL`. -/
def HoldsString (s s' : Machine) (table : U64) (x : ℕ × U64) : Prop :=
  (∀ j < strlen (s.pages x.2), s.pages x.2 j ≠ 0 ∧ readByte s' table (x.1 + j) = some (s.pages x.2 j)) ∧
    readByte s' table (x.1 + strlen (s.pages x.2)) = some 0

/-- Nothing but the images of the addresses from `base` to `top` was written. -/
def WritesWithin (s : Machine) (table : U64) (base top : ℕ) (s' : Machine) : Prop :=
  (∀ a x, (∀ va, base ≤ va → va < top → imageOf s table va ≠ some (a, x)) → s'.pages a x = s.pages a x) ∧
    s' = { s with pages := s'.pages }

/-- The stack that `prepare_stack` lays out below `top`: at `sp` the addresses of the strings and a 0, and
above them the strings, all apart from one another. -/
structure StackLaid (s : Machine) (table : U64) (top : ℕ) (argv : List U64) (sp : ℕ) (s' : Machine) : Prop where
  aligned : sp % 16 = 0
  low : top - pgsize ≤ sp
  high : sp < top
  strings : ∃ placed : List (ℕ × U64), placed.map Prod.snd = argv ∧
    (∀ i (bound : i < placed.length), ReadsWord s' table (sp + 8 * i) (BitVec.ofNat 64 placed[i].1)) ∧
    ReadsWord s' table (sp + 8 * argv.length) 0 ∧
    (∀ x ∈ placed, HoldsString s s' table x) ∧
    ((sp, 8 * (argv.length + 1)) :: placed.map (extent s)).Pairwise Apart ∧
    ∀ e ∈ (sp, 8 * (argv.length + 1)) :: placed.map (extent s), sp ≤ e.1 ∧ e.1 + e.2 ≤ top

variable {s s' : Machine} {table frame : U64} {base sp n : ℕ} {pg : Bytes} {placed : List (ℕ × U64)}

open Machine

/-! ## Strings and addresses -/

/-- The bytes before the first `NUL` from an offset on -/
theorem takeWhile_spec (page : Bytes) (k m : ℕ) (ends : ∃ n < m, page (k + n) = 0) :
    let len := (((List.range' k m).map page).takeWhile (· != 0)).length
    len < m ∧ page (k + len) = 0 ∧ ∀ j < len, page (k + j) ≠ 0 := by
  induction m generalizing k with
  | zero =>
    obtain ⟨n, less, -⟩ := ends
    exact absurd less (Nat.not_lt_zero n)
  | succ m ih =>
    rw [List.range'_succ, List.map_cons, List.takeWhile_cons]
    by_cases first : page k = 0
    · rw [if_neg (by simp [first])]
      exact ⟨Nat.succ_pos m, first, fun j less => absurd less (Nat.not_lt_zero j)⟩
    · obtain ⟨n, less, last⟩ := ends
      obtain ⟨n, rfl⟩ := Nat.exists_eq_succ_of_ne_zero (show n ≠ 0 by
        rintro rfl
        exact first last)
      obtain ⟨short, nul, before⟩ := ih (k + 1) ⟨n, Nat.lt_of_succ_lt_succ less, by
        rwa [show k + 1 + n = k + n.succ by omega]⟩
      rw [if_pos (bne_iff_ne.mpr first)]
      refine ⟨Nat.succ_lt_succ short, ?_, fun j less => ?_⟩
      · rwa [List.length_cons, show ∀ l, k + (l + 1) = k + 1 + l by omega]
      · cases j with
        | zero => exact first
        | succ j =>
          rw [show k + (j + 1) = k + 1 + j by omega]
          exact before j (Nat.lt_of_succ_lt_succ less)

/-- The length of a string that ends in its page -/
theorem strlen_spec {page : Bytes} (ends : ∃ n < pgsize, page n = 0) :
    strlen page < pgsize ∧ page (strlen page) = 0 ∧ ∀ j < strlen page, page j ≠ 0 := by
  have spec := takeWhile_spec page 0 pgsize (by simpa only [Nat.zero_add] using ends)
  simp only [Nat.zero_add, ← List.range_eq_range'] at spec
  exact spec

private theorem pushDown_spec (room : n ≤ sp) (word : sp < 2 ^ 64) :
    pushDown sp n + n ≤ sp ∧ pushDown sp n % 16 = 0 := by
  have next : wrap64 (sp + 2 ^ 64 - n) = sp - n := by
    simp only [wrap64]
    omega
  rw [pushDown, next]
  omega

/-! ## The page -/

private theorem WritablePage.write {a : U64} (page : WritablePage s table base frame) (pg : Bytes)
    (data : ∀ q, s.tableAt (s.rootFor table) q ≠ some a) : WritablePage (s.setPage a pg) table base frame := by
  obtain ⟨flags, found, has⟩ := page.leads
  refine ⟨⟨flags, (translate_setPage pg data base).trans found, has⟩, fun q => ?_⟩
  rw [show (s.setPage a pg).rootFor table = s.rootFor table from rfl, tableAt_setPage pg data]
  exact page.data q

private theorem WritablePage.setPage (page : WritablePage s table base frame) (pg : Bytes) :
    WritablePage (s.setPage frame pg) table base frame := page.write pg page.data

/-- A copy into the page -/
theorem uvmCopyout_page {src : Bytes} {va : ℕ} (page : WritablePage s table base frame)
    (aligned : base % pgsize = 0) (word : base + pgsize ≤ 2 ^ 64) (low : base ≤ va)
    (high : va + n ≤ base + pgsize) (some : 0 < n) :
    Yields (uvmCopyout table va src n) s fun _ s' =>
      s' = s.setPage frame ((s.pages frame).blit (va - base) src n) := by
  obtain ⟨flags, found, has, user⟩ := page.leads
  simp only [pgsize_eq] at aligned word high
  have here : wrap64 (va + 0) = va := wrap64_of_lt (by omega)
  have off : va % pgsize = va - base := by
    simp only [pgsize_eq]
    omega
  have leads : translate s table va = .some (frame, flags) := by
    rw [← found]
    exact translate_congr (by simp only [pgsize_eq]; omega)
  have count : min (pgsize - (va - base)) (n - 0) = n := by
    simp only [pgsize_eq]
    omega
  obtain ⟨m, rfl⟩ := Nat.exists_eq_succ_of_ne_zero (Nat.ne_of_gt some)
  rw [uvmCopyout, copyoutLoop, if_pos some, here]
  dsimp only
  rw [off]
  rcases access s table pteW va (by decide) with ⟨t, i, read, -, good, same⟩ | ⟨denied, -⟩
  · refine Ends.bind_of_ok read ?_
    obtain ⟨rfl, rfl⟩ := Prod.mk.inj (Option.some.inj (leads.symm.trans same))
    refine Ends.bind_iff.mpr (Ends.get_iff.mpr ?_)
    rw [if_neg good, count]
    refine Ends.bind_iff.mpr (Ends.modify_iff.mpr ?_)
    rw [Nat.zero_add, copyoutLoop, if_neg (Nat.lt_irrefl _), Ends.pure_iff]
    simp only [Nat.zero_add]
  · exact absurd ⟨frame, flags, leads, has, user⟩ denied

/-- The contents of the page when strings were pushed down to `sp` -/
structure Pushed (s : Machine) (frame : U64) (base : ℕ) (placed : List (ℕ × U64)) (sp : ℕ) (pg : Bytes) :
    Prop where
  low : base ≤ sp
  high : sp ≤ base + pgsize
  within : ∀ x ∈ placed, sp ≤ x.1 ∧ x.1 + (strlen (s.pages x.2) + 1) ≤ base + pgsize
  copied : ∀ x ∈ placed, ∀ j ≤ strlen (s.pages x.2), pg (x.1 - base + j) = s.pages x.2 j
  apart : (placed.map (extent s)).Pairwise Apart
  rest : ∀ x, pgsize ≤ x → pg x = s.pages frame x

/-- What is written below `sp` leaves the strings alone. -/
theorem Pushed.below {sp' : ℕ} (pushed : Pushed s frame base placed sp pg) (src : Bytes) (low : base ≤ sp')
    (room : sp' + n ≤ sp) : Pushed s frame base placed sp' (pg.blit (sp' - base) src n) := by
  have high := pushed.high
  refine ⟨low, by omega, fun x member => ?_, fun x member j less => ?_, pushed.apart, fun x outside => ?_⟩
  · obtain ⟨above, below⟩ := pushed.within x member
    exact ⟨by omega, below⟩
  · obtain ⟨above, below⟩ := pushed.within x member
    rw [Bytes.blit_outside (by omega)]
    exact pushed.copied x member j less
  · rw [Bytes.blit_outside (by omega)]
    exact pushed.rest x outside

/-- A string more -/
theorem Pushed.push {sp' : ℕ} (pushed : Pushed s frame base placed sp pg) (arg : U64) (low : base ≤ sp')
    (room : sp' + (strlen (s.pages arg) + 1) ≤ sp) : Pushed s frame base (placed ++ [(sp', arg)]) sp'
      (pg.blit (sp' - base) (s.pages arg) (strlen (s.pages arg) + 1)) := by
  have high := pushed.high
  have old := pushed.below (s.pages arg) low room
  refine ⟨low, old.high, fun x member => ?_, fun x member j less => ?_, ?_, old.rest⟩
  · rcases List.mem_append.mp member with before | new
    · exact old.within x before
    · obtain rfl := List.mem_singleton.mp new
      exact ⟨Nat.le_refl _, Nat.le_trans room high⟩
  · rcases List.mem_append.mp member with before | new
    · exact old.copied x before j less
    · obtain rfl := List.mem_singleton.mp new
      dsimp only at less ⊢
      rw [Bytes.blit_inside (by omega) (by omega), Nat.add_sub_cancel_left]
  · rw [List.map_append, List.pairwise_append]
    refine ⟨pushed.apart, List.pairwise_singleton _ _, fun e before e' new => ?_⟩
    obtain ⟨x, member, rfl⟩ := List.mem_map.mp before
    obtain rfl := List.mem_singleton.mp new
    obtain ⟨above, -⟩ := pushed.within x member
    exact .inr (Nat.le_trans room above)

section

variable (page : WritablePage s table base frame) (aligned : base % pgsize = 0)
include page aligned

/-- The first loop of `prepare_stack` -/
theorem pushStrings_ends (above : pgsize ≤ base) (word : base + pgsize < 2 ^ 64) {argv : List U64} {argc : ℕ}
    (args : ∀ a ∈ argv, a ≠ frame ∧ ∃ n < pgsize, s.pages a n = 0) (few : argc + argv.length ≤ 31)
    (pushed : Pushed s frame base placed sp pg) :
    Yields (pushStrings table base argv argc sp (placed.map Prod.fst)) (s.setPage frame pg) fun r s' =>
      ∃ pg', s' = s.setPage frame pg' ∧ (∀ x, pgsize ≤ x → pg' x = s.pages frame x) ∧
        ∀ sp' stack, r = some (sp', stack) → ∃ all, all.map Prod.snd = placed.map Prod.snd ++ argv ∧
          stack = all.map Prod.fst ∧ Pushed s frame base all sp' pg' := by
  induction argv generalizing placed argc sp pg with
  | nil =>
    rw [pushStrings, if_neg (by omega)]
    refine Ends.pure_iff.mpr ⟨pg, rfl, pushed.rest, fun sp' stack found => ?_⟩
    cases found
    exact ⟨placed, (List.append_nil _).symm, rfl, pushed⟩
  | cons arg rest ih =>
    obtain ⟨other, ends⟩ := args arg List.mem_cons_self
    have short := (strlen_spec ends).1
    have low := pushed.low
    have high := pushed.high
    have text : (s.setPage frame pg).pages arg = s.pages arg := setPage_other pg other
    rw [List.length_cons] at few
    rw [pushStrings, if_neg (by omega)]
    refine Ends.bind_iff.mpr (Ends.get_iff.mpr ?_)
    dsimp only
    rw [text, show (cstring pgsize (s.pages arg)).length = strlen (s.pages arg) from rfl]
    obtain ⟨room, -⟩ := pushDown_spec (show strlen (s.pages arg) + 1 ≤ sp by omega) (by omega)
    refine Ends.ite (fun _ => ?_) fun fits => ?_
    · exact Ends.pure_iff.mpr ⟨pg, rfl, pushed.rest, nofun⟩
    · have next := pushed.push arg (Nat.not_lt.mp fits) room
      refine Ends.bind_iff.mpr ?_
      have some : 0 < strlen (s.pages arg) + 1 := Nat.succ_pos _
      generalize strlen (s.pages arg) + 1 = size at *
      have copy : Yields (uvmCopyout table (pushDown sp size) (s.pages arg) size) (s.setPage frame pg) _ :=
        uvmCopyout_page (page.setPage pg) aligned (Nat.le_of_lt word) (Nat.not_lt.mp fits)
          (Nat.le_trans room high) some
      refine copy.mono ?_
      · rintro _ s' rfl
        rw [setPage_same, setPage_setPage]
        have loop := ih (fun a member => args a (List.mem_cons_of_mem arg member))
          (show argc + 1 + rest.length ≤ 31 by omega) next
        rw [List.map_append, List.map_append, List.append_assoc] at loop
        exact loop

/-- What an address of the page holds -/
theorem readByte_page (pg : Bytes) {va : ℕ} (low : base ≤ va) (high : va < base + pgsize) :
    readByte (s.setPage frame pg) table va = some (pg (va - base)) := by
  obtain ⟨flags, found, -⟩ := (page.setPage pg).leads
  simp only [pgsize_eq] at aligned high
  have off : va % pgsize = va - base := by
    simp only [pgsize_eq]
    omega
  have leads : translate (s.setPage frame pg) table va = some (frame, flags) := by
    rw [← found]
    exact translate_congr (by simp only [pgsize_eq]; omega)
  rw [readByte, leads, Option.map_some, off]
  dsimp only
  rw [setPage_same]

/-- What lies outside of the page stays. -/
theorem writesWithin (rest : ∀ x, pgsize ≤ x → pg x = s.pages frame x) :
    WritesWithin s table base (base + pgsize) (s.setPage frame pg) := by
  refine ⟨fun a x apart => ?_, rfl⟩
  rcases eq_or_ne a frame with rfl | other
  · rw [setPage_same]
    refine rest x (Nat.not_lt.mp fun inside => ?_)
    obtain ⟨flags, found, -⟩ := page.leads
    refine apart (base + x) (Nat.le_add_right ..) (Nat.add_lt_add_left inside base) ?_
    simp only [pgsize_eq] at aligned inside
    have leads : translate s table (base + x) = some (a, flags) := by
      rw [← found]
      exact translate_congr (by simp only [pgsize_eq]; omega)
    rw [imageOf, leads, Option.map_some]
    simp only [pgsize_eq, Option.some.injEq, Prod.mk.injEq, true_and]
    omega
  · rw [setPage_other _ other]

/-- The strings that were pushed are found at their addresses. -/
theorem Pushed.holds (pushed : Pushed s frame base placed sp pg) {x : ℕ × U64} (member : x ∈ placed)
    (ends : ∃ n < pgsize, s.pages x.2 n = 0) : HoldsString s (s.setPage frame pg) table x := by
  obtain ⟨-, nul, before⟩ := strlen_spec ends
  obtain ⟨above', below⟩ := pushed.within x member
  have low := pushed.low
  have byte (j : ℕ) (less : j ≤ strlen (s.pages x.2)) :
      readByte (s.setPage frame pg) table (x.1 + j) = some (s.pages x.2 j) := by
    rw [readByte_page page aligned pg (by omega) (by omega),
      show x.1 + j - base = x.1 - base + j by omega, pushed.copied x member j less]
  refine ⟨fun j less => ⟨before j less, byte j (Nat.le_of_lt less)⟩, ?_⟩
  rw [byte _ (Nat.le_refl _), nul]

/-- The array below the strings -/
theorem readsWord_array {words : List ℕ} {pg : Bytes} (low : base ≤ sp) (high : sp + 8 * words.length ≤ base + pgsize)
    {i v : ℕ} (found : words[i]? = some v) (small : v < 2 ^ 64) :
    ReadsWord (s.setPage frame (pg.blit (sp - base) (wordBytes words) (8 * words.length))) table (sp + 8 * i)
      (BitVec.ofNat 64 v) := by
  intro j less
  have bound := (List.getElem?_eq_some_iff.mp found).1
  have index : (8 * i + j) / 8 = i ∧ (8 * i + j) % 8 = j := by omega
  rw [readByte_page page aligned _ (by omega) (by omega), Bytes.blit_inside (by omega) (by omega),
    show sp + 8 * i + j - base - (sp - base) = 8 * i + j by omega, wordBytes, index.1, index.2,
    List.getD_eq_getElem?_getD, found, Option.getD_some, BitVec.toNat_ofNat, Nat.mod_eq_of_lt small]

end

private theorem Pushed.start (s : Machine) (frame : U64) (base : ℕ) :
    Pushed s frame base [] (base + pgsize) (s.pages frame) :=
  ⟨Nat.le_add_right .., Nat.le_refl _, List.forall_mem_nil _, List.forall_mem_nil _, .nil, fun _ _ => rfl⟩

/-- `prepare_stack` writes nothing outside of the page below `top`, and where it returns an address it has
laid out the stack there. -/
theorem prepareStack_layout {top : U64} {argv : List U64} (aligned : top.toNat % pgsize = 0)
    (above : 2 * pgsize ≤ top.toNat) (page : WritablePage s table (top.toNat - pgsize) frame)
    (few : argv.length ≤ 31) (args : ∀ a ∈ argv, a ≠ frame ∧ ∃ n < pgsize, s.pages a n = 0) :
    Yields (prepareStack table top.toNat argv) s fun sp s' =>
      WritesWithin s table (top.toNat - pgsize) top.toNat s' ∧
        (sp = 0 ∨ StackLaid s table top.toNat argv sp s') := by
  have small := top.isLt
  generalize top.toNat = top at *
  obtain ⟨base, rfl⟩ : ∃ base, top = base + pgsize := ⟨top - pgsize, by simp only [pgsize_eq] at *; omega⟩
  rw [Nat.add_sub_cancel] at page ⊢
  have low : pgsize ≤ base := by omega
  have whole : base % pgsize = 0 := by rwa [Nat.add_mod_right] at aligned
  have bottom : wrap64 (base + pgsize + 2 ^ 64 - pgsize) = base := by
    rw [show base + pgsize + 2 ^ 64 - pgsize = base + 2 ^ 64 by omega, wrap64, Nat.add_mod_right]
    exact Nat.mod_eq_of_lt (by omega)
  have same : s = s.setPage frame (s.pages frame) := by
    simp only [Machine.setPage, Function.update_eq_self]
  rw [prepareStack, bottom]
  dsimp only
  refine Ends.bind_iff.mpr ?_
  have strings := pushStrings_ends page whole low small args (by rwa [Nat.zero_add]) (Pushed.start s frame base)
  rw [← same] at strings
  refine strings.mono ?_
  rintro r s₁ ⟨pg, rfl, rest, result⟩
  rcases r with _ | ⟨sp, stack⟩
  · exact Ends.pure_iff.mpr ⟨writesWithin page whole rest, .inl rfl⟩
  obtain ⟨all, argv_eq, rfl, pushed⟩ := result sp stack rfl
  rw [List.map_nil, List.nil_append] at argv_eq
  have count : all.length = argv.length := by rw [← argv_eq, List.length_map]
  have high := pushed.high
  have first := pushed.low
  dsimp only
  rw [List.length_map, count]
  obtain ⟨room, mod⟩ := pushDown_spec (show 8 * (argv.length + 1) ≤ sp by simp only [pgsize_eq] at low; omega)
    (by omega)
  generalize pushDown sp (8 * (argv.length + 1)) = bottom at room mod ⊢
  refine Ends.ite (fun _ => ?_) fun fits => ?_
  · exact Ends.pure_iff.mpr ⟨writesWithin page whole rest, .inl rfl⟩
  have words : (all.map Prod.fst ++ [0]).length = argv.length + 1 := by
    rw [List.length_append, List.length_map, count]
    rfl
  refine Ends.bind_iff.mpr ?_
  refine (uvmCopyout_page (page.setPage pg) whole (Nat.le_of_lt small) (Nat.not_lt.mp fits)
    (Nat.le_trans room high) (by omega)).mono ?_
  rintro _ s' rfl
  rw [setPage_same, setPage_setPage, Ends.pure_iff]
  have laid := pushed.below (wordBytes (all.map Prod.fst ++ [0])) (Nat.not_lt.mp fits) room
  refine ⟨writesWithin page whole laid.rest, .inr ⟨mod, ?_, by omega, all, argv_eq, fun i bound => ?_, ?_,
    fun x member => ?_, ?_, fun e member => ?_⟩⟩
  · rw [Nat.add_sub_cancel]
    exact Nat.not_lt.mp fits
  · rw [← words]
    refine readsWord_array page whole (Nat.not_lt.mp fits) (by omega) ?_ ?_
    · rw [List.getElem?_append_left (by rwa [List.length_map]), List.getElem?_map, List.getElem?_eq_getElem bound]
      rfl
    · have below := (pushed.within _ (List.getElem_mem bound)).2
      omega
  · rw [← words]
    refine readsWord_array page whole (Nat.not_lt.mp fits) (by omega) ?_ (by decide)
    rw [← count, List.getElem?_append_right (by rw [List.length_map]), List.length_map, Nat.sub_self]
    rfl
  · refine laid.holds page whole member (args _ ?_).2
    rw [← argv_eq]
    exact List.mem_map_of_mem member
  · refine List.pairwise_cons.mpr ⟨fun e member => ?_, laid.apart⟩
    obtain ⟨x, at_x, rfl⟩ := List.mem_map.mp member
    exact .inl (Nat.le_trans room (pushed.within x at_x).1)
  · rcases List.mem_cons.mp member with rfl | placed
    · exact ⟨Nat.le_refl _, Nat.le_trans room high⟩
    · obtain ⟨x, at_x, rfl⟩ := List.mem_map.mp placed
      exact laid.within x at_x

/-- The strings `ls` and `-l`, each in a page -/
def argPages (s : Machine) : Machine :=
  (s.setPage 0x87002000 fun i => [0x6c, 0x73].getD i 0).setPage 0x87003000 fun i => [0x2d, 0x6c].getD i 0

set_option maxRecDepth 10000 in
theorem prepareStack_layout_two : ∃ s sp s', vmMappages 0x80200000 0x3000 0x87000000 0x1800 0x16 bareMachine =
    .ok () s ∧ prepareStack 0x80200000 (0x5000 : U64).toNat [0x87002000, 0x87003000] (argPages s) = .ok sp s' ∧
    StackLaid (argPages s) 0x80200000 (0x5000 : U64).toNat [0x87002000, 0x87003000] sp s' := by
  obtain ⟨s, mapped, tables, map, leads⟩ := twoPages_map
  have at_four := leads 4 (.inr rfl)
  have other (a : U64) (user : Ram.UserFrame ⟨0x80200000⟩ a) (q) : s.tableAt 0x80200000 q ≠ some a :=
    tables.user_apart user rfl q
  have page : WritablePage s 0x80200000 ((0x5000 : U64).toNat - pgsize) 0x87001000 := by
    rw [show (0x5000 : U64).toNat - pgsize = 4 * pgsize by decide]
    exact ⟨⟨0x17, at_four, by decide, by decide⟩, map.data 4 trivial 0x87001000 0x17 at_four (by decide)⟩
  have page : WritablePage (argPages s) 0x80200000 ((0x5000 : U64).toNat - pgsize) 0x87001000 := by
    refine (page.write _ (other _ (by decide +kernel))).write _ fun q => ?_
    exact (tableAt_setPage _ (other _ (by decide +kernel)) q).trans_ne (other _ (by decide +kernel) q)
  have facts : returnsWith (vmMappages 0x80200000 0x3000 0x87000000 0x1800 0x16) bareMachine (fun _ s =>
      returnsWith (prepareStack 0x80200000 (0x5000 : U64).toNat [0x87002000, 0x87003000]) (argPages s)
        fun sp _ => decide (sp ≠ 0)) = true := by decide +kernel
  rw [returnsWith, mapped] at facts
  obtain ⟨sp, s', run, nonzero⟩ := ok_of_returnsWith facts
  have args : ∀ a ∈ [(0x87002000 : U64), 0x87003000], a ≠ 0x87001000 ∧ ∃ n < pgsize, (argPages s).pages a n = 0 :=
    List.forall_mem_cons.mpr ⟨⟨by decide, 2, by decide, rfl⟩,
      List.forall_mem_singleton.mpr ⟨by decide, 2, by decide, rfl⟩⟩
  have aligned : (0x5000 : U64).toNat % pgsize = 0 := by decide
  have above : 2 * pgsize ≤ (0x5000 : U64).toNat := by decide
  have few : [(0x87002000 : U64), 0x87003000].length ≤ 31 := by decide
  have layout := prepareStack_layout aligned above page few args
  exact ⟨s, sp, s', mapped, run, (layout.returns sp s' run).2.resolve_left (of_decide_eq_true nonzero)⟩

end LabKernel
