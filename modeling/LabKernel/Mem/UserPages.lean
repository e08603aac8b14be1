import LabKernel.Mem.PageMap

/-! # Fresh user pages

The heap, the mmap regions, the stack and a new program all grow by a page in the same way: a page is
taken from the user's pool, cleared, and mapped at one address.
-/

namespace LabKernel

/-- A memory action fails by a panic of the kernel. -/
def Panics (f : Fault) : Prop := ∃ message, f = .panic message

def Exhausted (f : Fault) : Prop := UserExhausted f ∨ KernelExhausted f

theorem Exhausted.panics {f : Fault} (exhausted : Exhausted f) : Panics f :=
  exhausted.elim (⟨_, ·⟩) (⟨_, ·⟩)

theorem BadFree.panics {ram : Ram} {frames : List U64} {f : Fault} (bad : BadFree ram frames f) :
    Panics f := ⟨_, bad.2⟩

theorem u64_lawfulBEq : LawfulBEq U64 := inferInstance

/-- A cleared page of the user's pool is mapped. -/
def View.mapFresh (w : View) (root : U64) (v : ℕ) (a flags : U64) (rest : List U64) : View :=
  ({ w with userPool := rest }.setPage a fun _ => 0).setLeaf root v (paToPte a ||| flags)

/-- The first `n` pages of the user's pool are cleared and mapped from a page on. -/
def View.allocRange (w : View) (root : U64) (v n : ℕ) (flags : U64) : View :=
  { w with
    leaf := fun r v' =>
      if r = root ∧ v ≤ v' ∧ v' < v + n then
        paToPte ((w.userPool.take n).getD (v' - v) 0) ||| flags
      else w.leaf r v'
    page := fun a => if a ∈ w.userPool.take n then fun _ => 0 else w.page a
    userPool := w.userPool.drop n }

theorem View.allocRange_zero (w : View) (root : U64) (v : ℕ) (flags : U64) :
    w.allocRange root v 0 flags = w := by
  simp only [allocRange, List.take_zero, List.not_mem_nil, if_false, List.drop_zero]
  congr
  funext r v'
  rw [if_neg (by omega)]

theorem View.allocRange_succ {w : View} {root a : U64} {v n : ℕ} {flags : U64} {rest : List U64}
    (pool : w.userPool = a :: rest) : (w.mapFresh root v a flags rest).allocRange root (v + 1) n flags =
      w.allocRange root v (n + 1) flags := by
  simp only [allocRange, mapFresh, setLeaf, setPage, pool, List.take_succ_cons, List.drop_succ_cons,
    mk.injEq, and_true]
  refine ⟨?_, ?_⟩
  · funext r v'
    by_cases tree : r = root
    case neg => simp only [tree, false_and, if_false]
    rcases Nat.lt_trichotomy v' v with before | rfl | behind
    · rw [if_neg (by omega), if_neg (by omega), if_neg (by omega)]
    · rw [if_neg (by omega), if_pos ⟨tree, rfl⟩, if_pos ⟨tree, Nat.le_refl _, by omega⟩, Nat.sub_self]
      rfl
    · by_cases inside : v' < v + (n + 1)
      · rw [if_pos ⟨tree, behind, by omega⟩, if_pos ⟨tree, by omega, inside⟩,
          show v' - v = v' - (v + 1) + 1 by omega, List.getD_cons_succ]
      · rw [if_neg (by omega), if_neg (by omega), if_neg (by omega)]
  · funext b
    simp only [List.mem_cons, Function.update_apply]
    by_cases later : b ∈ rest.take n
    · rw [if_pos later, if_pos (.inr later)]
    · rw [if_neg later]
      simp only [later, or_false]

/-- The flags of an entry that `vm_mappages` writes -/
def permFlags (perm : U32) : U64 := perm.signExtend 64 ||| pteV

theorem permFlags_valid (a : U64) (perm : U32) : PteHas (paToPte a ||| permFlags perm) pteV := by
  rw [pteHas_paToPte_or a _ (by decide), permFlags, PteHas, BitVec.and_or_distrib_right]
  intro zero
  have bit := congrArg (BitVec.getLsbD · 0) zero
  simp [pteV] at bit

variable {ram : Ram} {roots : Set U64} {s : Machine} {table a : U64} {va : ℕ} {perm : U32}

open Machine

theorem myproc_ends {k : ℕ} {p : ProcMem} (proc : s.proc k = some p) {E : Fault → Prop} :
    Ends (myproc k) s (fun q s' => q = p ∧ s' = s) E := by
  rw [myproc, Ends.bind_iff, Ends.get_iff, proc]
  exact ⟨rfl, rfl⟩

theorem pmemAlloc_ends (tables : s.Tables ram roots) :
    Ends (pmemAlloc false) s (fun a s' => ∃ rest, s.userPool = a :: rest ∧ ram.UserFrame a ∧
      Shows ram roots s ({ s.view ram roots with userPool := rest }.setPage a fun _ => 0) s')
      UserExhausted := by
  rw [pmemAlloc, Ends.bind_iff, Ends.get_iff, if_neg Bool.false_ne_true]
  cases pool : s.userPool with
  | nil => exact Ends.throw_iff.mpr rfl
  | cons a rest =>
    simp only [Ends.bind_iff, Ends.set_iff, Ends.pure_iff]
    exact ⟨rest, rfl, tables.userPool a (pool ▸ List.mem_cons_self), tables.takeUser pool⟩

/-- `vm_mappages` for one page -/
theorem vmMappages_page (tables : s.Tables ram roots) (live : s.rootFor table ∈ roots)
    (page : va % pgsize = 0) (frame : a.toNat % pgsize = 0) (low : va + pgsize ≤ vaMax) :
    Ends (vmMappages table va a pgsize perm) s (fun _ s' => Shows ram roots s
      ((s.view ram roots).setLeaf (s.rootFor table) (va / pgsize) (paToPte a ||| permFlags perm)) s')
      KernelExhausted := by
  have ends := @vmMappages_ends ram roots s table va tables live a pgsize perm page frame (by decide) low
  rwa [show pagesOf pgsize = 1 by decide, View.mapRange_one] at ends

/-- `vm_mappages` for one page attaches tables to one tree. -/
theorem vmMappages_attaches (tables : s.Tables ram roots) (live : s.rootFor table ∈ roots)
    (page : va % pgsize = 0) (low : va + pgsize ≤ vaMax) :
    Returns (vmMappages table va a pgsize perm) s fun _ s' => Attaches ram roots (s.rootFor table) s s' := by
  simp only [vaMax_eq, pgsize_eq] at page low
  have last : wrap64 (va + pgsize - 1) = va + pgsize - 1 :=
    wrap64_of_lt (by simp only [pgsize_eq]; omega)
  have final : va = alignDown (va + pgsize - 1) := by
    simp only [alignDown, pgsize_eq]
    omega
  rw [vmMappages]
  refine .ite (fun _ => by simp) fun _ => .ite (fun _ => by simp) fun _ => .ite (fun _ => by simp)
    fun _ => .ite (fun _ => by simp) fun _ => ?_
  rw [last, mapLoop, Returns.bind_iff]
  refine (mapPage_attaches tables live (by simp only [vaMax_eq]; omega)
    (paToPte a ||| perm.signExtend 64 ||| pteV)).returns.mono ?_
  rintro r s' ⟨t, rfl, attaches⟩
  rw [Returns.bind_iff, Returns.modify_iff, if_pos final, Returns.pure_iff]
  exact attaches

/-- Above the last page `vm_mappages` panics. -/
theorem vmMappages_high (word : va < 2 ^ 64) (page : va % pgsize = 0) (high : vaMax < va + pgsize)
    {Q : Unit → Machine → Prop} : Ends (vmMappages table va a pgsize perm) s Q Panics := by
  have last : wrap64 (va + pgsize - 1) = va + pgsize - 1 :=
    wrap64_of_lt (by simp only [pgsize_eq] at page ⊢; omega)
  simp only [vaMax_eq, pgsize_eq] at high
  rw [vmMappages, if_neg (not_not.mpr page)]
  refine Ends.ite (fun _ => ⟨_, rfl⟩) fun _ => ?_
  rw [if_neg (by decide), last, if_pos (by simp only [vaMax_eq, pgsize_eq]; omega)]
  exact ⟨_, rfl⟩

/-- The entries after a page was mapped -/
theorem fresh_leaf {s' : Machine} {root r flags : U64} {v : ℕ} {rest : List U64}
    (fresh : Shows ram roots s ((s.view ram roots).mapFresh root v a flags rest) s')
    (live : r ∈ roots) (v' : ℕ) :
    s'.leaf r v' = if r = root ∧ v' = v then paToPte a ||| flags else s.leaf r v' := by
  rw [fresh.leaf live, ← @view_leaf s ram roots r live]
  rfl

/-- The rule for a page that is allocated, cleared and mapped. -/
theorem freshPage_ends (tables : s.Tables ram roots) (live : s.rootFor table ∈ roots)
    (page : va % pgsize = 0) (low : va + pgsize ≤ vaMax) {α : Type} {f : U64 → MemM α}
    {Q : α → Machine → Prop} {E : Fault → Prop} (exhausted : ∀ f, Exhausted f → E f)
    (next : ∀ a rest s', s.userPool = a :: rest → ram.UserFrame a → Shows ram roots s
      ((s.view ram roots).mapFresh (s.rootFor table) (va / pgsize) a (permFlags perm) rest) s' →
      Ends (f a) s' Q E) :
    Ends (do
      let a ← pmemAlloc false
      vmMappages table va a pgsize perm
      f a) s Q E := by
  rw [Ends.bind_iff]
  refine ((pmemAlloc_ends tables).fails fun f user => exhausted f (.inl user)).mono ?_
  rintro a s₁ ⟨rest, pool, user, taken⟩
  have same : s₁.rootFor table = s.rootFor table := taken.rootFor rfl table
  rw [Ends.bind_iff]
  refine ((vmMappages_page taken.tables (same ▸ live) page user.aligned low).fails
    fun f kernel => exhausted f (.inr kernel)).mono ?_
  rintro _ s₂ mapped
  refine next a rest s₂ pool user ?_
  rw [taken.view, same] at mapped
  exact taken.trans mapped

/-- The loop that `uvm_heap_grow` and `uvm_alloc` share: fresh pages from `a` up to `stop`. A page that
lies too high makes `vm_mappages` panic, so the counter does not wrap around. -/
def growLoop (table : U64) (perm : U32) (stop : ℕ) : (fuel a : ℕ) → MemM Unit
  | 0, _ => throw .hang
  | fuel + 1, a =>
    if a < stop then do
      -- the page comes cleared
      let mem ← pmemAlloc false
      vmMappages table a mem pgsize perm
      growLoop table perm stop fuel (wrap64 (a + pgsize))
    else return ()

theorem growLoop_ends (tables : s.Tables ram roots) (live : s.rootFor table ∈ roots)
    {stop fuel n : ℕ} (page : va % pgsize = 0) (low : va + n * pgsize ≤ vaMax)
    (reach : stop ≤ va + n * pgsize) (under : ∀ i < n, va + i * pgsize < stop) (enough : n < fuel) :
    Ends (growLoop table perm stop fuel va) s (fun _ s' => n ≤ s.userPool.length ∧ Shows ram roots s
      ((s.view ram roots).allocRange (s.rootFor table) (va / pgsize) n (permFlags perm)) s')
      Exhausted := by
  induction n generalizing s va fuel with
  | zero =>
    obtain ⟨fuel, rfl⟩ := Nat.exists_eq_succ_of_ne_zero (show fuel ≠ 0 by omega)
    rw [growLoop, if_neg (by omega), Ends.pure_iff, View.allocRange_zero]
    exact ⟨Nat.zero_le _, .refl tables⟩
  | succ n ih =>
    obtain ⟨fuel, rfl⟩ := Nat.exists_eq_succ_of_ne_zero (show fuel ≠ 0 by omega)
    have first := under 0 (Nat.succ_pos n)
    simp only [vaMax_eq, pgsize_eq] at low first reach
    have next : wrap64 (va + pgsize) = va + pgsize := wrap64_of_lt (by simp only [pgsize_eq]; omega)
    have number : (va + pgsize) / pgsize = va / pgsize + 1 := Nat.add_div_right va (by decide)
    rw [growLoop, if_pos (by omega), next]
    refine freshPage_ends tables live page (by simp only [vaMax_eq, pgsize_eq]; omega) (fun _ => id)
      fun a rest s₁ pool user fresh => ?_
    have same : s₁.rootFor table = s.rootFor table := fresh.rootFor rfl table
    have left : s₁.userPool = rest := congrArg View.userPool fresh.view
    have loop := @ih s₁ (va + pgsize) fresh.tables (same ▸ live) fuel
      (by simp only [pgsize_eq] at page ⊢; omega) (by simp only [vaMax_eq, pgsize_eq]; omega)
      (by simp only [pgsize_eq]; omega)
      (fun i less => by
        have later := under (i + 1) (by omega)
        simp only [pgsize_eq] at later ⊢
        omega) (by omega)
    refine loop.mono ?_
    rintro _ s' ⟨space, shows⟩
    rw [fresh.view, same, number, View.allocRange_succ pool] at shows
    rw [pool, List.length_cons]
    exact ⟨by rw [left] at space; omega, fresh.trans shows⟩

/-! ## Who has a page -/

def pageRange (v n : ℕ) : Set ℕ := {i | v ≤ i ∧ i < v + n}

theorem mem_pageRange {v n i : ℕ} : i ∈ pageRange v n ↔ v ≤ i ∧ i < v + n := Iff.rfl

instance (v n i : ℕ) : Decidable (i ∈ pageRange v n) := decidable_of_iff _ mem_pageRange.symm

/-- Within a window of page numbers, a table tree maps exactly the pages of a domain, each to a page of
the user's pool that is in use and that no other page of the domain has. -/
structure Space (ram : Ram) (s : Machine) (root : U64) (window domain : Set ℕ) : Prop where
  within : domain ⊆ window
  mapped : ∀ v ∈ window, PteHas (s.leaf root v) pteV ↔ v ∈ domain
  user : ∀ v ∈ domain, PteHas (s.leaf root v) pteU
  frame : ∀ v ∈ domain, ram.UserFrame (pteToPa (s.leaf root v))
  busy : ∀ v ∈ domain, pteToPa (s.leaf root v) ∉ s.userPool
  once : Set.InjOn (fun v => pteToPa (s.leaf root v)) domain
  nodup : s.userPool.Nodup

theorem Ram.UserFrame.ne_zero (user : ram.UserFrame a) : a ≠ 0 := by
  rintro rfl
  have low := user.low_le
  simp [Ram.kernelPoolEnd, kernPages] at low

section

variable {s' : Machine} {root flags : U64} {v n : ℕ} {window domain : Set ℕ}

theorem alloc_leaf (shows : Shows ram roots s ((s.view ram roots).allocRange root v n flags) s')
    {r : U64} (live : r ∈ roots) (v' : ℕ) : s'.leaf r v' = if r = root ∧ v ≤ v' ∧ v' < v + n then
      paToPte ((s.userPool.take n).getD (v' - v) 0) ||| flags else s.leaf r v' := by
  rw [shows.leaf live, ← @view_leaf s ram roots r live]
  rfl

theorem alloc_page (shows : Shows ram roots s ((s.view ram roots).allocRange root v n flags) s')
    (user : ram.UserFrame a) :
    s'.pages a = if a ∈ s.userPool.take n then fun _ => 0 else s.pages a := by
  rw [← @view_page s' ram roots a user, shows.view, ← @view_page s ram roots a user]
  rfl

theorem alloc_pool (shows : Shows ram roots s ((s.view ram roots).allocRange root v n flags) s') :
    s'.userPool = s.userPool.drop n := congrArg View.userPool shows.view

/-- The frame of a page that was allocated -/
theorem alloc_frame (tables : s.Tables ram roots) (live : root ∈ roots)
    (shows : Shows ram roots s ((s.view ram roots).allocRange root v n flags) s')
    (enough : n ≤ s.userPool.length) (low : flags.toNat < 1024) {v' : ℕ} (new : v' ∈ pageRange v n) :
    ∃ bound : v' - v < s.userPool.length, pteToPa (s'.leaf root v') = s.userPool[v' - v] ∧
      s.userPool[v' - v] ∈ s.userPool.take n := by
  have index : v' - v < n := by
    have low := new.1
    have high := new.2
    omega
  have bound : v' - v < s.userPool.length := Nat.lt_of_lt_of_le index enough
  have short : v' - v < (s.userPool.take n).length := by
    rw [List.length_take]
    omega
  have taken : (s.userPool.take n).getD (v' - v) 0 = s.userPool[v' - v] := by
    rw [List.getD_eq_getElem?_getD, List.getElem?_eq_getElem short, Option.getD_some, List.getElem_take]
  have user := tables.userPool _ (List.getElem_mem bound)
  refine ⟨bound, ?_, ?_⟩
  · rw [alloc_leaf shows live, if_pos ⟨rfl, new⟩, taken, pteToPa_paToPte user.aligned low]
  · exact List.mem_take_iff_getElem.mpr ⟨v' - v, by rwa [← List.length_take], rfl⟩

/-- The contents of a page that was allocated -/
theorem alloc_zero (tables : s.Tables ram roots) (live : root ∈ roots)
    (shows : Shows ram roots s ((s.view ram roots).allocRange root v n flags) s')
    (enough : n ≤ s.userPool.length) (low : flags.toNat < 1024) {v' : ℕ} (new : v' ∈ pageRange v n) :
    s'.pages (pteToPa (s'.leaf root v')) = fun _ => 0 := by
  obtain ⟨bound, frame, taken⟩ := alloc_frame tables live shows enough low new
  rw [frame, alloc_page shows (tables.userPool _ (List.getElem_mem bound)), if_pos taken]

/-- The pages that were mapped before keep their frames and contents. -/
theorem Space.alloc_kept (space : Space ram s root window domain) (live : root ∈ roots)
    (shows : Shows ram roots s ((s.view ram roots).allocRange root v n flags) s') {v' : ℕ}
    (old : v' ∈ domain) (other : v' ∉ pageRange v n) : s'.leaf root v' = s.leaf root v' ∧
      s'.pages (pteToPa (s.leaf root v')) = s.pages (pteToPa (s.leaf root v')) := by
  refine ⟨?_, ?_⟩
  · rw [alloc_leaf shows live, if_neg fun all => other all.2]
  · rw [alloc_page shows (space.frame v' old),
      if_neg fun taken => space.busy v' old (List.mem_of_mem_take taken)]

theorem Space.alloc (space : Space ram s root window domain) (tables : s.Tables ram roots)
    (live : root ∈ roots) (shows : Shows ram roots s ((s.view ram roots).allocRange root v n flags) s')
    (enough : n ≤ s.userPool.length) (low : flags.toNat < 1024) (valid : PteHas flags pteV)
    (user : PteHas flags pteU) (inside : pageRange v n ⊆ window)
    (fresh : ∀ i ∈ pageRange v n, i ∉ domain) :
    Space ram s' root window (domain ∪ pageRange v n) := by
  have old {i : ℕ} (other : i ∉ pageRange v n) : s'.leaf root i = s.leaf root i := by
    rw [alloc_leaf shows live, if_neg fun all => other all.2]
  have kept {i : ℕ} (inside : i ∈ domain) : s'.leaf root i = s.leaf root i :=
    old fun new => fresh i new inside
  have bits {i : ℕ} (new : i ∈ pageRange v n) {bit : U64} (low : bit.toNat < 1024) :
      PteHas (s'.leaf root i) bit ↔ PteHas flags bit := by
    rw [alloc_leaf shows live, if_pos ⟨rfl, new⟩, pteHas_paToPte_or _ _ low]
  have new {i : ℕ} := @alloc_frame ram roots s s' root flags v n tables live shows enough low i
  have split : s.userPool.take n ++ s.userPool.drop n = s.userPool := List.take_append_drop ..
  have apart := List.disjoint_of_nodup_append (split ▸ space.nodup)
  have pool := alloc_pool shows
  refine ⟨Set.union_subset space.within inside, fun i within => ?_, ?_, ?_, ?_, ?_, ?_⟩
  · by_cases here : i ∈ pageRange v n
    · exact iff_of_true ((bits here (by decide)).mpr valid) (.inr here)
    · rw [old here, space.mapped i within, Set.mem_union, or_iff_left here]
  · rintro i (inside | here)
    · rw [kept inside]
      exact space.user i inside
    · exact (bits here (by decide)).mpr user
  · rintro i (inside | here)
    · rw [kept inside]
      exact space.frame i inside
    · obtain ⟨bound, frame, -⟩ := new here
      rw [frame]
      exact tables.userPool _ (List.getElem_mem bound)
  · rintro i (inside | here)
    · rw [kept inside, pool]
      exact fun free => space.busy i inside (List.mem_of_mem_drop free)
    · obtain ⟨bound, frame, taken⟩ := new here
      rw [frame, pool]
      exact apart taken
  · rintro i (inside | here) j (inside' | here') same
    · simp only [kept inside, kept inside'] at same
      exact space.once inside inside' same
    · obtain ⟨bound, frame, -⟩ := new here'
      simp only [kept inside, frame] at same
      exact absurd (same ▸ List.getElem_mem bound) (space.busy i inside)
    · obtain ⟨bound, frame, -⟩ := new here
      simp only [kept inside', frame] at same
      exact absurd (same ▸ List.getElem_mem bound) (space.busy j inside')
    · obtain ⟨bound, frame, -⟩ := new here
      obtain ⟨bound', frame', -⟩ := new here'
      simp only [frame, frame'] at same
      have index := (List.Nodup.getElem_inj_iff space.nodup).mp same
      have first := here.1
      have second := here'.1
      omega
  · rw [pool]
    exact space.nodup.sublist (List.drop_sublist ..)

theorem leaf_of_pages (pages : s'.pages = s.pages) (root : U64) (v : ℕ) :
    s'.leaf root v = s.leaf root v := entry_of_pages pages root (pagePlace v)

/-- Descriptors and regions do not matter. -/
theorem Space.of_pages (space : Space ram s root window domain) (pages : s'.pages = s.pages)
    (pool : s'.userPool = s.userPool) : Space ram s' root window domain where
  within := space.within
  mapped v within := by
    rw [leaf_of_pages pages]
    exact space.mapped v within
  user v inside := by
    rw [leaf_of_pages pages]
    exact space.user v inside
  frame v inside := by
    rw [leaf_of_pages pages]
    exact space.frame v inside
  busy v inside := by
    rw [leaf_of_pages pages, pool]
    exact space.busy v inside
  once v inside v' inside' same := by
    simp only [leaf_of_pages pages] at same
    exact space.once inside inside' same
  nodup := pool ▸ space.nodup

/-- The frames that a mapped range gives back -/
theorem Space.frames (space : Space ram s root window domain) (live : root ∈ roots)
    (inside : pageRange v n ⊆ domain) : (s.view ram roots).frames root v n =
      (List.range' v n).map fun i => pteToPa (s.leaf root i) := by
  rw [← List.filterMap_eq_map]
  refine List.filterMap_congr fun i within => ?_
  have here : i ∈ domain := inside (List.mem_range'_1.mp within)
  rw [view_leaf live, View.frameOf, if_pos]
  · rfl
  · exact ⟨(space.mapped i (space.within here)).mpr here, (space.frame i here).ne_zero⟩

theorem Space.freed (space : Space ram s root window domain) (live : root ∈ roots)
    (shows : Shows ram roots s ((s.view ram roots).clearRange root true v n) s')
    (inside : pageRange v n ⊆ domain) : s'.userPool =
      ((List.range' v n).map fun i => pteToPa (s.leaf root i)).reverse ++ s.userPool := by
  rw [← space.frames live inside]
  exact (congrArg View.userPool shows.view).trans (View.clearRange_userPool ..)

/-- Unmapping a range clears entries and nothing else. -/
theorem clear_leaf (live : root ∈ roots)
    (shows : Shows ram roots s ((s.view ram roots).clearRange root true v n) s') (v' : ℕ) :
    s'.leaf root v' =
      if v' ∈ pageRange v n ∧ PteHas (s.leaf root v') pteV then 0 else s.leaf root v' := by
  rw [shows.leaf live, View.clearRange_leaf, view_leaf live]
  simp only [true_and, mem_pageRange]

theorem clear_page (shows : Shows ram roots s ((s.view ram roots).clearRange root true v n) s')
    (user : ram.UserFrame a) : s'.pages a = s.pages a := by
  rw [← @view_page s' ram roots a user, shows.view, (View.clearRange_page ..).1, view_page user]

theorem Space.clear (space : Space ram s root window domain) (live : root ∈ roots)
    (shows : Shows ram roots s ((s.view ram roots).clearRange root true v n) s')
    (inside : pageRange v n ⊆ domain) : Space ram s' root window (domain \ pageRange v n) := by
  have pool := space.freed live shows inside
  have listed {i : ℕ} (within : i ∈ List.range' v n) : i ∈ domain :=
    inside (List.mem_range'_1.mp within)
  have kept {i : ℕ} (other : i ∉ pageRange v n) : s'.leaf root i = s.leaf root i := by
    rw [clear_leaf live shows, if_neg fun all => other all.1]
  refine ⟨fun i both => space.within both.1, fun i within => ?_, ?_, ?_, ?_, ?_, ?_⟩
  · by_cases here : i ∈ pageRange v n
    · have valid := (space.mapped i within).mpr (inside here)
      rw [clear_leaf live shows, if_pos ⟨here, valid⟩]
      exact iff_of_false (not_pteHas_zero pteV) fun both => both.2 here
    · rw [kept here, space.mapped i within, Set.mem_sdiff, and_iff_left here]
  · rintro i ⟨old, other⟩
    rw [kept other]
    exact space.user i old
  · rintro i ⟨old, other⟩
    rw [kept other]
    exact space.frame i old
  · rintro i ⟨old, other⟩ free
    rw [kept other, pool, List.mem_append, List.mem_reverse, List.mem_map] at free
    rcases free with ⟨j, within, same⟩ | free
    · exact other (space.once (listed within) old same ▸ List.mem_range'_1.mp within)
    · exact space.busy i old free
  · rintro i ⟨old, other⟩ j ⟨old', other'⟩ same
    simp only [kept other, kept other'] at same
    exact space.once old old' same
  · rw [pool, List.nodup_append]
    refine ⟨List.nodup_reverse.mpr ?_, space.nodup, ?_⟩
    · exact (List.nodup_range' 1 Nat.one_pos).map_on fun i within j within' same =>
        space.once (listed within) (listed within') same
    · intro a freed b free same
      obtain ⟨i, within, rfl⟩ := List.mem_map.mp (List.mem_reverse.mp freed)
      exact space.busy i (listed within) (same ▸ free)

end

end LabKernel
