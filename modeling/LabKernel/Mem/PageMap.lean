import LabKernel.Mem.Vm

/-! # Page tables as finite maps

`vm_mappages` and `vm_unmappages` on views: the first sets a range of entries of one map, the second
clears them and gives the pages that they hold to the user's pool.
-/

namespace LabKernel

namespace View

/-- `n` pages from `v` on are sent to consecutive frames. -/
def mapRange (w : View) (root : U64) (v n : ℕ) (pa flags : U64) : View :=
  { w with leaf := fun r v' =>
      if r = root ∧ v ≤ v' ∧ v' < v + n then
        paToPte (pa + BitVec.ofNat 64 ((v' - v) * pgsize)) ||| flags
      else w.leaf r v' }

/-- A valid entry is cleared and its page is freed. -/
def clear (w : View) (root : U64) (doFree : Bool) (v : ℕ) : View :=
  let e := w.leaf root v
  if PteHas e pteV then
    { w.setLeaf root v 0 with
      userPool := if doFree ∧ pteToPa e ≠ 0 then pteToPa e :: w.userPool else w.userPool }
  else w

/-- `n` pages from `v` on are cleared. -/
def clearRange (w : View) (root : U64) (doFree : Bool) (v : ℕ) : ℕ → View
  | 0 => w
  | n + 1 => (w.clear root doFree v).clearRange root doFree (v + 1) n

/-- The frame that a valid entry holds. -/
def frameOf (e : U64) : Option U64 := if PteHas e pteV ∧ pteToPa e ≠ 0 then some (pteToPa e) else none

/-- The frames of `n` pages from `v` on. -/
def frames (w : View) (root : U64) (v n : ℕ) : List U64 :=
  (List.range' v n).filterMap fun v => frameOf (w.leaf root v)

variable {w : View} {root r : U64} {doFree : Bool} {v n : ℕ}

private theorem mapRange_succ (pa flags : U64) :
    (w.setLeaf root v (paToPte pa ||| flags)).mapRange root (v + 1) n
      (pa + BitVec.ofNat 64 pgsize) flags = w.mapRange root v (n + 1) pa flags := by
  simp only [mapRange, setLeaf, mk.injEq, and_true]
  funext r v'
  by_cases tree : r = root
  case neg => simp only [tree, false_and, if_false]
  rcases Nat.lt_trichotomy v' v with before | rfl | behind
  · rw [if_neg (by omega), if_neg (by omega), if_neg (by omega)]
  · rw [if_neg (by omega), if_pos ⟨tree, rfl⟩, if_pos ⟨tree, Nat.le_refl _, by omega⟩]
    simp
  · by_cases inside : v' < v + (n + 1)
    · rw [if_pos ⟨tree, behind, by omega⟩, if_pos ⟨tree, by omega, inside⟩, BitVec.add_assoc,
        ← BitVec.ofNat_add, show pgsize + (v' - (v + 1)) * pgsize = (v' - v) * pgsize by
          simp only [pgsize_eq]; omega]
    · rw [if_neg (by omega), if_neg (by omega), if_neg (by omega)]

theorem mapRange_one (pa flags : U64) :
    w.mapRange root v 1 pa flags = w.setLeaf root v (paToPte pa ||| flags) := by
  rw [← mapRange_succ]
  simp only [mapRange, setLeaf, mk.injEq, and_true]
  funext r v'
  rw [if_neg (by omega)]

private theorem clear_leaf (w : View) (root : U64) (doFree : Bool) (v : ℕ) (r : U64) (v' : ℕ) :
    (w.clear root doFree v).leaf r v' =
      if r = root ∧ v' = v ∧ PteHas (w.leaf r v') pteV then 0 else w.leaf r v' := by
  by_cases here : r = root ∧ v' = v
  · obtain ⟨rfl, rfl⟩ := here
    by_cases valid : PteHas (w.leaf r v') pteV
    · rw [if_pos ⟨rfl, rfl, valid⟩, clear, if_pos valid]
      exact if_pos ⟨rfl, rfl⟩
    · rw [if_neg (fun all => valid all.2.2), clear, if_neg valid]
  · rw [if_neg (fun all => here ⟨all.1, all.2.1⟩), clear]
    split
    · exact if_neg here
    · rfl

theorem clear_page (w : View) (root : U64) (doFree : Bool) (v : ℕ) :
    (w.clear root doFree v).page = w.page ∧ (w.clear root doFree v).freeRegions = w.freeRegions ∧
      (w.clear root doFree v).kernPagetable = w.kernPagetable ∧
      (w.clear root doFree v).proc = w.proc := by
  rw [clear]
  split <;> exact ⟨rfl, rfl, rfl, rfl⟩

private theorem clear_userPool (w : View) (root : U64) (doFree : Bool) (v : ℕ) :
    (w.clear root doFree v).userPool =
      (if doFree then (frameOf (w.leaf root v)).toList else []) ++ w.userPool := by
  rw [clear, frameOf]
  by_cases valid : PteHas (w.leaf root v) pteV
  · rw [if_pos valid]
    by_cases held : pteToPa (w.leaf root v) ≠ 0
    · rw [if_pos (⟨valid, held⟩ : _ ∧ _)]
      cases doFree with
      | false => rfl
      | true => exact if_pos ⟨rfl, held⟩
    · have none : ∀ c : Prop, ¬(c ∧ pteToPa (w.leaf root v) ≠ 0) := fun _ both => held both.2
      rw [if_neg (none _), if_neg (none _)]
      cases doFree <;> rfl
  · have none : ¬(PteHas (w.leaf root v) pteV ∧ pteToPa (w.leaf root v) ≠ 0) := fun both => valid both.1
    rw [if_neg valid, if_neg none]
    cases doFree <;> rfl

theorem clearRange_leaf (w : View) (root : U64) (doFree : Bool) (v n : ℕ) (r : U64) (v' : ℕ) :
    (w.clearRange root doFree v n).leaf r v' =
      if r = root ∧ (v ≤ v' ∧ v' < v + n) ∧ PteHas (w.leaf r v') pteV then 0 else w.leaf r v' := by
  induction n generalizing w v with
  | zero => exact (if_neg (by omega)).symm
  | succ n ih =>
    rw [clearRange, ih, clear_leaf]
    by_cases first : r = root ∧ v' = v
    · obtain ⟨rfl, rfl⟩ := first
      rw [if_neg (by omega)]
      simp
    · have other : ¬(r = root ∧ v' = v ∧ PteHas (w.leaf r v') pteV) := fun all =>
        first ⟨all.1, all.2.1⟩
      rw [if_neg other]
      by_cases tree : r = root
      · have differ : v' ≠ v := fun same => first ⟨tree, same⟩
        have range : (v + 1 ≤ v' ∧ v' < v + 1 + n) ↔ (v ≤ v' ∧ v' < v + (n + 1)) := by omega
        simp only [range]
      · simp only [tree, false_and]

theorem clearRange_page (w : View) (root : U64) (doFree : Bool) (v n : ℕ) :
    (w.clearRange root doFree v n).page = w.page ∧
      (w.clearRange root doFree v n).freeRegions = w.freeRegions ∧
      (w.clearRange root doFree v n).kernPagetable = w.kernPagetable ∧
      (w.clearRange root doFree v n).proc = w.proc := by
  induction n generalizing w v with
  | zero => exact ⟨rfl, rfl, rfl, rfl⟩
  | succ n ih =>
    obtain ⟨page, regions, kernel, proc⟩ := clear_page w root doFree v
    obtain ⟨page', regions', kernel', proc'⟩ := ih (w.clear root doFree v) (v + 1)
    exact ⟨page'.trans page, regions'.trans regions, kernel'.trans kernel, proc'.trans proc⟩

private theorem frames_succ (w : View) (root : U64) (v n : ℕ) :
    w.frames root v (n + 1) = (frameOf (w.leaf root v)).toList ++ w.frames root (v + 1) n := by
  rw [frames, List.range'_succ, List.filterMap_cons, frames]
  cases frameOf (w.leaf root v) <;> rfl

private theorem frames_clear (w : View) (root : U64) (doFree : Bool) {v v' n : ℕ} (before : v < v') :
    (w.clear root doFree v).frames root v' n = w.frames root v' n := by
  refine List.filterMap_congr fun i within => ?_
  have behind := List.mem_range'_1.mp within
  rw [clear_leaf, if_neg (by omega)]

/-- The freed pages are pushed in the order of the range. -/
theorem clearRange_userPool (w : View) (root : U64) (doFree : Bool) (v n : ℕ) :
    (w.clearRange root doFree v n).userPool =
      (if doFree then w.frames root v n else []).reverse ++ w.userPool := by
  induction n generalizing w v with
  | zero => cases doFree <;> rfl
  | succ n ih =>
    rw [clearRange, ih, clear_userPool, frames_clear _ _ _ (Nat.lt_succ_self v), frames_succ]
    cases doFree with
    | false => rfl
    | true => cases frameOf (w.leaf root v) <;> simp

end View

variable {ram : Ram} {roots : Set U64} {s : Machine} {table : U64} {va : ℕ}

open Machine

/-! ## The loops -/

/-- One round of the loop of `vm_mappages`. -/
theorem mapPage_ends (tables : s.Tables ram roots) (live : s.rootFor table ∈ roots)
    (low : va < vaMax) (e : U64) :
    Ends (vmGetpte table va true) s (fun r s' => ∃ t, r = some (t, vaToVpn va 0) ∧
      Shows ram roots s ((s.view ram roots).setLeaf (s.rootFor table) (va / pgsize) e)
        (s'.setPte t (vaToVpn va 0) e)) KernelExhausted := by
  refine (vmGetpte_alloc tables live low).mono ?_
  rintro r s' ⟨t, rfl, found, shows, -⟩
  refine ⟨t, rfl, ?_⟩
  have write := shows.tables.setLeaf live found (vaToVpn_lt va 0) (pagePlace_div low) e
  rw [shows.view] at write
  exact shows.trans write

/-- The write of `vm_mappages` and the walk before it attach tables to one tree. -/
theorem mapPage_attaches (tables : s.Tables ram roots) (live : s.rootFor table ∈ roots)
    (low : va < vaMax) (e : U64) :
    Ends (vmGetpte table va true) s (fun r s' => ∃ t, r = some (t, vaToVpn va 0) ∧
      Attaches ram roots (s.rootFor table) s (s'.setPte t (vaToVpn va 0) e)) KernelExhausted := by
  refine (vmGetpte_alloc tables live low).mono ?_
  rintro r s' ⟨t, rfl, found, shows, attaches⟩
  have tableAt {r : U64} (other : r ∈ roots) (q : Option Place) :=
    shows.tables.setLeaf_tableAt live found (vaToVpn_lt va 0) rfl e other q
  refine ⟨t, rfl, attaches.trans ⟨kernelUse_congr rfl fun r other => tableAt other,
    fun r other _ => tableAt other, fun c _ apart => setPage_other _ ?_⟩⟩
  rintro rfl
  exact apart (.inr ⟨_, live, _, found⟩)

theorem Machine.Shows.rootFor {s' : Machine} {w : View} (shows : Shows ram roots s w s')
    (same : w.kernPagetable = s.kernPagetable) (table : U64) : s'.rootFor table = s.rootFor table := by
  have kernel : s'.kernPagetable = s.kernPagetable :=
    (congrArg View.kernPagetable shows.view).trans same
  rw [Machine.rootFor, Machine.rootFor, kernel]

private theorem mapLoop_ends (tables : s.Tables ram roots) (live : s.rootFor table ∈ roots) {perm : U32}
    {first last fuel n : ℕ} {pa : U64} (page : va % pgsize = 0) (low : last < vaMax)
    (final : alignDown last = va + n * pgsize) (above : first ≤ va) (enough : n < fuel) :
    Ends (mapLoop table perm first last fuel va pa) s (fun _ s' => Shows ram roots s
      ((s.view ram roots).mapRange (s.rootFor table) (va / pgsize) (n + 1) pa
        (perm.signExtend 64 ||| pteV)) s') KernelExhausted := by
  have below : va + n * pgsize < vaMax := by
    rw [← final]
    exact Nat.lt_of_le_of_lt (Nat.div_mul_le_self ..) low
  induction n generalizing s va pa fuel with
  | zero =>
    obtain ⟨fuel, rfl⟩ := Nat.exists_eq_succ_of_ne_zero (show fuel ≠ 0 by omega)
    rw [mapLoop, Ends.bind_iff]
    refine (mapPage_ends tables live (by omega) (paToPte pa ||| perm.signExtend 64 ||| pteV)).mono ?_
    rintro r s' ⟨t, rfl, shows⟩
    simp only [Ends.bind_iff, Ends.modify_iff]
    rw [if_pos (by omega), Ends.pure_iff, View.mapRange_one, ← BitVec.or_assoc]
    exact shows
  | succ n ih =>
    obtain ⟨fuel, rfl⟩ := Nat.exists_eq_succ_of_ne_zero (show fuel ≠ 0 by omega)
    simp only [vaMax_eq, pgsize_eq] at below page
    have next : wrap64 (va + pgsize) = va + pgsize := wrap64_of_lt (by simp only [pgsize_eq]; omega)
    have number : (va + pgsize) / pgsize = va / pgsize + 1 := Nat.add_div_right va (by decide)
    rw [mapLoop, Ends.bind_iff]
    refine (mapPage_ends tables live (by simp only [vaMax_eq]; omega)
      (paToPte pa ||| perm.signExtend 64 ||| pteV)).mono ?_
    rintro r s' ⟨t, rfl, shows⟩
    simp only [Ends.bind_iff, Ends.modify_iff]
    rw [if_neg (by rw [final, pgsize_eq]; omega)]
    simp only [next]
    rw [if_neg (by omega)]
    have same := shows.rootFor rfl table
    have rest := @ih _ (va + pgsize) shows.tables (same ▸ live) fuel (pa + BitVec.ofNat 64 pgsize)
      (by simp only [pgsize_eq]; omega)
      (by rw [final]; simp only [pgsize_eq]; omega) (by omega) (by omega)
      (by simp only [vaMax_eq, pgsize_eq]; omega)
    refine rest.mono fun _ s'' after => ?_
    rw [shows.view, same, number, BitVec.or_assoc, View.mapRange_succ] at after
    rw [BitVec.or_assoc] at shows
    exact shows.trans after

/-- How many pages a length takes. -/
def pagesOf (len : ℕ) : ℕ := (len + pgsize - 1) / pgsize

theorem pagesOf_spec {len : ℕ} (some : 0 < len) :
    0 < pagesOf len ∧ (pagesOf len - 1) * pgsize < len ∧ len ≤ pagesOf len * pgsize := by
  simp only [pagesOf, pgsize_eq]
  omega

theorem pagesOf_mul (n : ℕ) : pagesOf (n * pgsize) = n := by
  simp only [pagesOf, pgsize_eq]
  omega

/-- `vm_mappages` sets the entries of a range. -/
theorem vmMappages_ends (tables : s.Tables ram roots) (live : s.rootFor table ∈ roots) {pa : U64}
    {len : ℕ} {perm : U32} (page : va % pgsize = 0) (frame : pa.toNat % pgsize = 0)
    (some : 0 < len) (low : va + len ≤ vaMax) :
    Ends (vmMappages table va pa len perm) s (fun _ s' => Shows ram roots s
      ((s.view ram roots).mapRange (s.rootFor table) (va / pgsize) (pagesOf len) pa
        (perm.signExtend 64 ||| pteV)) s') KernelExhausted := by
  obtain ⟨pos, under, reach⟩ := pagesOf_spec some
  simp only [vaMax_eq] at low
  simp only [pgsize_eq] at under reach
  have last : wrap64 (va + len - 1) = va + len - 1 := wrap64_of_lt (by omega)
  rw [vmMappages]
  rw [if_neg (not_not.mpr page), if_neg (not_not.mpr frame), if_neg (Nat.ne_of_gt some), last,
    if_neg (by simp only [vaMax_eq]; omega)]
  have final : alignDown (va + len - 1) = va + (pagesOf len - 1) * pgsize := by
    simp only [alignDown, pgsize_eq] at page ⊢
    omega
  have enough : pagesOf len - 1 < vaMax / pgsize + 1 := by
    simp only [vaMax_eq, pgsize_eq]
    omega
  have ends := @mapLoop_ends ram roots s table va tables live perm va _ _ _ pa page
    (by simp only [vaMax_eq]; omega) final (Nat.le_refl va) enough
  rwa [Nat.sub_add_cancel pos] at ends

theorem pmemFree_ends {a : U64} (aligned : a.toNat % pgsize = 0) :
    Ends (pmemFree ram a false) s
      (fun _ s' => ram.UserFrame a ∧ s' = { s with userPool := a :: s.userPool })
      fun f => ¬ram.UserFrame a ∧ f = .panic "pmem_free: address out of range" := by
  rw [pmemFree, if_neg (not_not.mpr aligned)]
  refine Ends.ite (fun outside => ?_) fun inside => ?_
  · rw [Ends.bind_iff, Ends.throw_iff]
    refine ⟨fun user => ?_, rfl⟩
    have low := user.low_le
    have high := user.lt_high
    omega
  · exact ⟨⟨aligned, by omega, by omega⟩, rfl⟩

/-- A page that is freed is not one of the user's pool. -/
def BadFree (ram : Ram) (frames : List U64) (f : Fault) : Prop :=
  (∃ a ∈ frames, ¬ram.UserFrame a) ∧ f = .panic "pmem_free: address out of range"

/-- One round of the loop of `vm_unmappages`. -/
theorem unmapPage_ends (tables : s.Tables ram roots) (live : s.rootFor table ∈ roots)
    (low : va < vaMax) (doFree : Bool) :
    Ends (unmapPage ram table doFree va) s (fun _ s' => Shows ram roots s
      ((s.view ram roots).clear (s.rootFor table) doFree (va / pgsize)) s')
      (BadFree ram (if doFree then
        ((s.view ram roots).frames (s.rootFor table) (va / pgsize) 1) else [])) := by
  have seen := @view_leaf s ram roots _ live (va / pgsize)
  rw [unmapPage, Ends.bind_iff, Ends, vmGetpte_read low]
  cases found : s.tableAt (s.rootFor table) (upperPlace va 0) with
  | none =>
    rw [View.clear, seen, leaf_of_missing low found, if_neg (not_pteHas_zero pteV)]
    exact .refl tables
  | some t =>
    have entry := leaf_of_table low found
    simp only [Option.map_some, Ends.bind_iff, Ends.get_iff, entry]
    by_cases valid : PteHas (s.leaf (s.rootFor table) (va / pgsize)) pteV
    · rw [if_pos valid]
      have write (s' : Machine) (same : ∀ q, s'.tableAt (s.rootFor table) q = s.tableAt (s.rootFor table) q)
          (tables : s'.Tables ram roots) :=
        tables.setLeaf live ((same _).trans found) (vaToVpn_lt va 0) (pagePlace_div low) 0
      refine Ends.ite (fun frees => ?_) fun keeps => ?_
      · have listed : View.frameOf (s.leaf (s.rootFor table) (va / pgsize)) =
            some (pteToPa (s.leaf (s.rootFor table) (va / pgsize))) := if_pos ⟨valid, frees.2⟩
        rw [Ends.bind_iff]
        refine ((pmemFree_ends (pteToPa_aligned _)).fails ?_).mono ?_
        · rintro f ⟨bad, rfl⟩
          refine ⟨⟨_, ?_, bad⟩, rfl⟩
          rw [if_pos frees.1, View.frames_succ, seen, listed]
          exact List.mem_cons_self
        · rintro _ s' ⟨user, rfl⟩
          have given := tables.giveUser user
          let s₁ : Machine :=
            { s with userPool := pteToPa (s.leaf (s.rootFor table) (va / pgsize)) :: s.userPool }
          have cleared := write s₁ (fun _ => rfl) given.tables
          rw [given.view] at cleared
          rw [Ends.modify_iff]
          refine ⟨cleared.tables, cleared.view.trans ?_, cleared.pool⟩
          rw [View.clear, seen, if_pos valid, if_pos frees]
          rfl
      · rw [Ends.modify_iff, View.clear, seen, if_pos valid, if_neg keeps]
        exact write s (fun _ => rfl) tables
    · rw [if_neg valid, View.clear, seen, if_neg valid]
      exact .refl tables

private theorem unmapLoop_ends (tables : s.Tables ram roots) (live : s.rootFor table ∈ roots) {doFree : Bool}
    {stop fuel n : ℕ} (low : stop ≤ vaMax) (reach : stop ≤ va + n * pgsize)
    (under : ∀ i < n, va + i * pgsize < stop) (enough : n < fuel) :
    Ends (unmapLoop ram table doFree stop fuel va) s (fun _ s' => Shows ram roots s
      ((s.view ram roots).clearRange (s.rootFor table) doFree (va / pgsize) n) s')
      (BadFree ram (if doFree then
        ((s.view ram roots).frames (s.rootFor table) (va / pgsize) n) else [])) := by
  induction n generalizing s va fuel with
  | zero =>
    obtain ⟨fuel, rfl⟩ := Nat.exists_eq_succ_of_ne_zero (show fuel ≠ 0 by omega)
    rw [unmapLoop, if_neg (by omega), Ends.pure_iff]
    exact .refl tables
  | succ n ih =>
    obtain ⟨fuel, rfl⟩ := Nat.exists_eq_succ_of_ne_zero (show fuel ≠ 0 by omega)
    have first := under 0 (Nat.succ_pos n)
    simp only [vaMax_eq, pgsize_eq] at low first reach
    have next : wrap64 (va + pgsize) = va + pgsize := wrap64_of_lt (by simp only [pgsize_eq]; omega)
    have number : (va + pgsize) / pgsize = va / pgsize + 1 := Nat.add_div_right va (by decide)
    rw [unmapLoop, if_pos (by omega), Ends.bind_iff, next]
    refine ((unmapPage_ends tables live (by simp only [vaMax_eq]; omega) doFree).fails ?_).mono ?_
    · rintro f ⟨⟨a, within, bad⟩, fault⟩
      refine ⟨⟨a, ?_, bad⟩, fault⟩
      cases doFree with
      | false => cases within
      | true =>
        rw [if_pos rfl, View.frames_succ] at within ⊢
        exact List.mem_append_left _ (by simpa [View.frames] using within)
    · intro _ s' shows
      have same := shows.rootFor (View.clear_page ..).2.2.1 table
      have rest := @ih s' (va + pgsize) shows.tables (same ▸ live) fuel
        (by simp only [pgsize_eq]; omega)
        (fun i less => by
          have later := under (i + 1) (by omega)
          simp only [pgsize_eq] at later ⊢
          omega) (by omega)
      rw [shows.view, same, number] at rest
      refine (rest.fails ?_).mono fun _ s'' after => ?_
      · rintro f ⟨⟨a, within, bad⟩, fault⟩
        refine ⟨⟨a, ?_, bad⟩, fault⟩
        cases doFree with
        | false => cases within
        | true =>
          rw [if_pos rfl, View.frames_clear _ _ _ (Nat.lt_succ_self _)] at within
          rw [if_pos rfl, View.frames_succ]
          exact List.mem_append_right _ within
      · exact shows.trans after

/-- `vm_unmappages` clears a range. -/
theorem vmUnmappages_ends (tables : s.Tables ram roots) (live : s.rootFor table ∈ roots) {len : ℕ}
    (doFree : Bool) (page : va % pgsize = 0) (some : 0 < len) (low : va + len ≤ vaMax) :
    Ends (vmUnmappages ram table va len doFree) s (fun _ s' => Shows ram roots s
      ((s.view ram roots).clearRange (s.rootFor table) doFree (va / pgsize) (pagesOf len)) s')
      (BadFree ram (if doFree then
        ((s.view ram roots).frames (s.rootFor table) (va / pgsize) (pagesOf len)) else [])) := by
  have stop : wrap64 (va + len) = va + len := wrap64_of_lt (by simp only [vaMax_eq] at low; omega)
  rw [vmUnmappages, if_neg (not_not.mpr page), if_neg (Nat.ne_of_gt some), stop]
  refine unmapLoop_ends tables live low ?_ (fun i less => ?_) ?_
  · simp only [pagesOf, pgsize_eq]
    omega
  · simp only [pagesOf, pgsize_eq] at less ⊢
    omega
  · simp only [pagesOf, pgsize_eq]
    omega

/-! ## The finite map -/

/-- The frames that `vm_getpte` finds on the pages of a range. -/
def mappedFrames (s : Machine) (table : U64) (va len : ℕ) : List U64 :=
  (List.range' (va / pgsize) (pagesOf len)).filterMap fun v =>
    (translate s table (v * pgsize)).bind fun (frame, _) => if frame = 0 then none else some frame

theorem translate_page {v : ℕ} (low : v * pgsize < vaMax) :
    translate s table (v * pgsize) = decode (s.leaf (s.rootFor table) v) := by
  rw [translate_eq low, Nat.mul_div_cancel v (by decide)]

theorem pteFlags_low {a flags : U64} (low : flags.toNat < 1024) :
    pteFlags (paToPte a ||| flags) = flags := by
  rw [pteFlags, paToPte_or_and a flags (by decide)]
  have mask : (0x3FF : U64).toNat = 2 ^ 10 - 1 := rfl
  apply BitVec.eq_of_toNat_eq
  rw [BitVec.toNat_and, mask, Nat.and_two_pow_sub_one_eq_mod]
  exact Nat.mod_eq_of_lt low

theorem decode_mapped {pa : U64} {perm : U32} (frame : pa.toNat % pgsize = 0)
    (small : perm.toNat < 1024) :
    decode (paToPte pa ||| (perm.signExtend 64 ||| pteV)) = some (pa, perm.setWidth 64 ||| pteV) := by
  have positive : perm.msb = false := by
    rw [BitVec.msb_eq_decide, decide_eq_false_iff_not]
    omega
  have flags : (perm.setWidth 64 ||| pteV).toNat < 1024 := by
    rw [BitVec.toNat_or, BitVec.toNat_setWidth]
    exact Nat.or_lt_two_pow (n := 10) (Nat.lt_of_le_of_lt (Nat.mod_le _ _) small) (by decide)
  have valid : PteHas (perm.setWidth 64 ||| pteV) pteV := by
    rw [PteHas, BitVec.and_or_distrib_right]
    intro zero
    have bit := congrArg (BitVec.getLsbD · 0) zero
    simp [pteV] at bit
  rw [BitVec.signExtend_eq_setWidth_of_msb_false positive, decode,
    if_pos ((pteHas_paToPte_or pa _ (by decide)).mpr valid), pteToPa_paToPte frame flags,
    pteFlags_low flags]

theorem Machine.Shows.leaf {s' : Machine} {w : View} (shows : Shows ram roots s w s') {root : U64}
    (live : root ∈ roots) (v : ℕ) : s'.leaf root v = w.leaf root v := by
  rw [← shows.view, view_leaf live]

/-- A page table is a finite map: mapping a range replaces its pages and keeps all others, and
unmapping it removes its pages, whose frames go to the user's pool once for each page. -/
theorem vm_finite_map (tables : s.Tables ram roots) (live : s.rootFor table ∈ roots) {pa : U64}
    {len : ℕ} {perm : U32} (doFree : Bool) (page : va % pgsize = 0) (frame : pa.toNat % pgsize = 0)
    (some : 0 < len) (low : va + len ≤ vaMax) (small : perm.toNat < 1024) :
    Ends (vmMappages table va pa len perm) s (fun _ s' => s'.Tables ram roots ∧
      (∀ v, translate s' table (v * pgsize) =
        if va ≤ v * pgsize ∧ v * pgsize < va + len then
          .some (pa + BitVec.ofNat 64 (v * pgsize - va), perm.setWidth 64 ||| pteV)
        else translate s table (v * pgsize)) ∧
      ∀ other, s.rootFor other ∈ roots → s.rootFor other ≠ s.rootFor table →
        ∀ v, translate s' other (v * pgsize) = translate s other (v * pgsize)) KernelExhausted ∧
    Ends (vmUnmappages ram table va len doFree) s (fun _ s' => s'.Tables ram roots ∧
      (∀ v, translate s' table (v * pgsize) =
        if va ≤ v * pgsize ∧ v * pgsize < va + len then none else translate s table (v * pgsize)) ∧
      (∀ other, s.rootFor other ∈ roots → s.rootFor other ≠ s.rootFor table →
        ∀ v, translate s' other (v * pgsize) = translate s other (v * pgsize)) ∧
      s'.userPool = (if doFree then mappedFrames s table va len else []).reverse ++ s.userPool)
      (BadFree ram (if doFree then mappedFrames s table va len else [])) := by
  have inside (v : ℕ) : (va / pgsize ≤ v ∧ v < va / pgsize + pagesOf len) ↔
      va ≤ v * pgsize ∧ v * pgsize < va + len := by
    simp only [pagesOf, pgsize_eq] at page ⊢
    omega
  have elsewhere {s' : Machine} {w : View} (shows : Shows ram roots s w s')
      (same : w.kernPagetable = s.kernPagetable)
      (leaf : ∀ r v, r ≠ s.rootFor table → w.leaf r v = (s.view ram roots).leaf r v) (other : U64)
      (alive : s.rootFor other ∈ roots) (apart : s.rootFor other ≠ s.rootFor table) (v : ℕ) :
      translate s' other (v * pgsize) = translate s other (v * pgsize) := by
    rcases Nat.lt_or_ge (v * pgsize) vaMax with below | above
    · rw [translate_page below, translate_page below, shows.rootFor same, shows.leaf alive,
        leaf _ v apart, view_leaf alive]
    · rw [translate_high above, translate_high above]
  constructor
  · refine (vmMappages_ends tables live page frame some low).mono fun _ s' shows => ?_
    refine ⟨shows.tables, fun v => ?_, elsewhere shows rfl fun r v apart => if_neg fun all => apart all.1⟩
    rcases Nat.lt_or_ge (v * pgsize) vaMax with below | above
    · rw [translate_page below, translate_page below, shows.rootFor rfl, shows.leaf live, View.mapRange]
      simp only [true_and, inside, view_leaf live]
      split
      case isTrue within =>
        have start : (v - va / pgsize) * pgsize = v * pgsize - va := by
          simp only [pgsize_eq] at page within ⊢
          omega
        rw [start]
        refine decode_mapped ?_ small
        simp only [BitVec.toNat_add, BitVec.toNat_ofNat, pgsize_eq] at page frame ⊢
        omega
      case isFalse => rfl
    · rw [translate_high above, translate_high above, if_neg (by omega)]
  · have listed : (s.view ram roots).frames (s.rootFor table) (va / pgsize) (pagesOf len) =
        mappedFrames s table va len := by
      refine List.filterMap_congr fun v within => ?_
      have range := (inside v).mp (List.mem_range'_1.mp within)
      rw [view_leaf live, translate_page (by omega), View.frameOf, decode]
      by_cases valid : PteHas (s.leaf (s.rootFor table) v) pteV
      · rw [if_pos valid]
        by_cases null : pteToPa (s.leaf (s.rootFor table) v) = 0
        · rw [if_neg (fun both => both.2 null)]
          exact (if_pos null).symm
        · rw [if_pos ⟨valid, null⟩]
          exact (if_neg null).symm
      · rw [if_neg valid, if_neg (fun both => valid both.1)]
        rfl
    rw [← listed]
    refine (vmUnmappages_ends tables live doFree page some low).mono fun _ s' shows => ?_
    have kernel := (View.clearRange_page (s.view ram roots) (s.rootFor table) doFree (va / pgsize)
      (pagesOf len)).2.2.1
    refine ⟨shows.tables, fun v => ?_, elsewhere shows kernel fun r v apart => ?_, ?_⟩
    · rcases Nat.lt_or_ge (v * pgsize) vaMax with below | above
      · rw [translate_page below, translate_page below, shows.rootFor kernel, shows.leaf live,
          View.clearRange_leaf, view_leaf live]
        simp only [true_and, inside]
        by_cases within : va ≤ v * pgsize ∧ v * pgsize < va + len
        · rw [if_pos within, decode]
          split
          case isTrue => exact if_neg (not_pteHas_zero pteV)
          case isFalse not => exact if_neg fun valid => not ⟨within, valid⟩
        · rw [if_neg (fun both => within both.1), if_neg within]
      · rw [translate_high above, translate_high above, if_neg (by omega)]
    · rw [View.clearRange_leaf, if_neg fun all => apart all.1]
    · exact (congrArg View.userPool shows.view).trans (View.clearRange_userPool ..)

theorem entry_zero {s : Machine} (zero : s.pages = fun _ _ => 0) (root : U64) (p : Place) :
    s.entry root p = 0 := by
  have ptes (a : U64) (i : ℕ) : s.pte a i = 0 := by
    rw [Machine.pte, zero]
    exact Bytes.u64_zero _
  induction p with
  | root i => simp [Machine.entry, Forest.entry, Machine.forest, ptes]
  | sub q j ih => exact entry_below (by rw [ih, tableOf_zero]) j

/-- An empty page table. -/
theorem tables_zero {s : Machine} (zero : s.pages = fun _ _ => 0) {root : U64}
    (users : ∀ a ∈ s.userPool, ram.UserFrame a) (kernel : ∀ a ∈ s.kernelPool, ram.KernelFrame a)
    (nodup : s.kernelPool.Nodup) (frame : ram.KernelFrame root) (busy : root ∉ s.kernelPool) :
    s.Tables ram {root} := by
  have only (q : Option Place) (a : U64) (found : s.tableAt root q = some a) : q = none ∧ a = root := by
    cases q with
    | none => exact ⟨rfl, (Option.some.inj found).symm⟩
    | some p => simp only [tableAt, entry_zero zero, tableOf_zero, ite_self, reduceCtorEq] at found
  refine ⟨users, kernel, nodup, ?_, ?_, ?_, ?_⟩
  · rintro r rfl q a found
    exact (only q a found).2 ▸ frame
  · rintro r rfl q a found
    exact (only q a found).2 ▸ busy
  · rintro r rfl r' rfl q q' a first second
    exact ⟨rfl, (only q a first).1.trans (only q' a second).1.symm⟩
  · rintro r rfl q bound valid
    rw [entry_zero zero] at valid
    exact absurd valid (not_pteHas_zero pteV)

/-- An empty table and two pages that it can be extended with. -/
def bareMachine : Machine where
  pages _ _ := 0
  kernelPool := [0x80201000, 0x80202000]
  userPool := []
  freeRegions := []
  kernPagetable := 0x80200000
  proc _ := none

theorem bareMachine_tables : bareMachine.Tables ⟨0x80200000⟩ {0x80200000} :=
  tables_zero rfl (List.forall_mem_nil _)
    (List.forall_mem_cons.mpr ⟨by decide +kernel, List.forall_mem_singleton.mpr (by decide +kernel)⟩)
    (by decide +kernel) (by decide +kernel) (by decide +kernel)

theorem vm_finite_map_bare : ∃ s', vmMappages 0x80200000 0x3000 0x87000000 0x1800 0x16 bareMachine =
      .ok () s' ∧ translate s' 0x80200000 (4 * pgsize) = some (0x87001000, 0x17) ∧
      translate s' 0x80200000 (5 * pgsize) = none := by
  have map := (@vm_finite_map ⟨0x80200000⟩ {0x80200000} bareMachine 0x80200000 0x3000 bareMachine_tables
    (by decide +kernel) 0x87000000 0x1800 0x16 false (by decide) (by decide) (by decide) (by decide) (by decide)).1
  have returns : (match vmMappages 0x80200000 0x3000 0x87000000 0x1800 0x16 bareMachine with
      | .ok .. => true
      | .error .. => false) = true := by decide +kernel
  cases result : vmMappages 0x80200000 0x3000 0x87000000 0x1800 0x16 bareMachine with
  | error e s' =>
    rw [result] at returns
    cases returns
  | ok u s' =>
    simp only [Ends, result] at map
    refine ⟨s', rfl, ?_, ?_⟩
    · rw [map.2.1]
      decide +kernel
    · rw [map.2.1]
      decide +kernel

end LabKernel
