import LabKernel.Mem.Mmap

/-! # What `sys_mmap` reports

`sys_mmap` rounds its length up to pages in 32-bit arithmetic, lets `uvm_mmap` place and map them, and
returns its own argument. Nothing more is assumed about the list of regions than its order, so it may
have empty nodes, and the page table need not agree with it.
-/

namespace LabKernel

/-- `(len + PGSIZE - 1) / PGSIZE`, in `uint32` -/
def pagesFor (len : U32) : U32 := (len + BitVec.ofNat 32 pgsize - 1) / BitVec.ofNat 32 pgsize

/-- `sys_mmap`; nothing uses the flags. -/
def sysMmap (k : ℕ) (addr : U64) (len prot : U32) : MemM U64 := do
  uvmMmap k addr (pagesFor len) prot
  return addr

def sysMunmap (ram : Ram) (k : ℕ) (addr : U64) (len : U32) : MemM U64 := do
  uvmMunmap ram k addr (pagesFor len)
  return 0

private theorem pagesFor_toNat (len : U32) : (pagesFor len).toNat = (len.toNat + 4095) % 2 ^ 32 / 4096 := by
  have word := len.isLt
  have less : len + BitVec.ofNat 32 pgsize - 1 = len + 4095#32 := by
    rw [BitVec.sub_eq_add_neg, BitVec.add_assoc]
    rfl
  rw [pagesFor, less, BitVec.toNat_udiv, BitVec.toNat_add]
  rfl

/-- Lengths up to `2 ^ 32 - PGSIZE` are rounded up. -/
theorem pagesFor_small {len : U32} (small : len.toNat ≤ 2 ^ 32 - pgsize) :
    (pagesFor len).toNat = pagesOf len.toNat := by
  rw [pagesFor_toNat, pagesOf]
  simp only [pgsize_eq] at small ⊢
  omega

variable {ram : Ram} {roots : Set U64} {s s' : Machine} {k : ℕ} {p : ProcMem} {table : U64} {perm : U32}

open Machine

/-! ## Merging -/

/-- Two parts that meet are one. -/
theorem inside_split {x y z v : ℕ} (first : x ≤ y) (second : y ≤ z) :
    Inside x z v ↔ Inside x y v ∨ Inside y z v := by
  simp only [Inside]
  omega

private theorem mergeNext_covers {node : Region} {after : List Region} (low : mmapBegin ≤ node.begin)
    (high : node.finish ≤ mmapEnd) (ordered : Ordered after)
    (front : ∀ r ∈ after, node.finish ≤ r.begin) :
    Returns (mergeNext node after) s fun merged s' => NodesOnly s s' ∧ merged.1.begin = node.begin ∧
      merged.1.finish ≤ mmapEnd ∧ ∀ v, Covers (merged.1 :: merged.2) v ↔ Covers (node :: after) v := by
  cases after with
  | nil => exact Returns.pure_iff.mpr ⟨⟨_, rfl⟩, rfl, high, fun v => Iff.rfl⟩
  | cons next rest =>
    have stop : node.stop = node.finish :=
      Ordered.stop ⟨List.forall_mem_singleton.mpr low, List.forall_mem_singleton.mpr high,
        List.pairwise_singleton ..⟩ (List.mem_singleton_self node)
    rw [mergeNext, stop]
    refine Returns.ite (fun meets => ?_) fun apart => ?_
    · have limit := ordered.high next List.mem_cons_self
      have count : (node.npages + next.npages) % 2 ^ 32 = node.npages + next.npages := by
        simp only [Region.finish, mmapEnd_eq, pgsize_eq] at high limit
        omega
      have finish : (⟨node.node, node.begin, (node.npages + next.npages) % 2 ^ 32⟩ : Region).finish =
          next.finish := by
        simp only [Region.finish, count] at meets ⊢
        rw [Nat.add_mul]
        omega
      rw [Returns.bind_iff, mmapRegionFree, Returns.modify_iff, Returns.pure_iff]
      refine ⟨⟨_, rfl⟩, rfl, finish ▸ limit, fun v => ?_⟩
      have joined : Inside node.begin next.finish v ↔
          Inside node.begin node.finish v ∨ Inside next.begin next.finish v := by
        rw [← meets]
        exact inside_split (Nat.le_add_right ..) (meets ▸ Nat.le_add_right ..)
      rw [covers_cons, covers_cons, covers_cons, finish, ← or_assoc]
      exact or_congr joined Iff.rfl
    · exact Returns.pure_iff.mpr ⟨⟨_, rfl⟩, rfl, high, fun v => Iff.rfl⟩

private theorem mergePrev_covers {node : Region} {rest before : List Region} (high : node.finish ≤ mmapEnd)
    (ordered : Ordered before.reverse) (behind : ∀ r ∈ before, r.finish ≤ node.begin) :
    Returns (mergePrev node rest before) s fun merged s' => NodesOnly s s' ∧
      ∀ v, Covers merged v ↔ Covers before.reverse v ∨ Covers (node :: rest) v := by
  cases before with
  | nil => exact Returns.pure_iff.mpr ⟨⟨_, rfl⟩, fun v => by simp⟩
  | cons prev before =>
    have member : prev ∈ (prev :: before).reverse := List.mem_reverse.mpr List.mem_cons_self
    rw [mergePrev, ordered.stop member]
    refine Returns.ite (fun meets => ?_) fun apart => ?_
    · have count : (prev.npages + node.npages) % 2 ^ 32 = prev.npages + node.npages := by
        have low := ordered.low prev member
        simp only [Region.finish, mmapEnd_eq, pgsize_eq] at high meets
        omega
      have finish : (⟨prev.node, prev.begin, (prev.npages + node.npages) % 2 ^ 32⟩ : Region).finish =
          node.finish := by
        simp only [Region.finish, count] at meets ⊢
        rw [Nat.add_mul]
        omega
      rw [Returns.bind_iff, mmapRegionFree, Returns.modify_iff, Returns.pure_iff]
      refine ⟨⟨_, rfl⟩, fun v => ?_⟩
      have joined : Inside prev.begin node.finish v ↔
          Inside prev.begin prev.finish v ∨ Inside node.begin node.finish v := by
        rw [← meets]
        exact inside_split (Nat.le_add_right ..) (meets ▸ Nat.le_add_right ..)
      simp only [List.reverse_cons, covers_append, covers_cons, covers_nil, or_false, finish, or_assoc]
      rw [← or_assoc (a := _ ∧ _) (b := _ ∧ _)]
      exact or_congr Iff.rfl (or_congr joined Iff.rfl)
    · exact Returns.pure_iff.mpr ⟨⟨_, rfl⟩, fun v => covers_append ..⟩

/-! ## Mapping -/

/-- The last loop of `uvm_mmap` takes a page of the pool for each page that it maps. -/
theorem mmapPages_alloc {count va : ℕ} (tables : s.Tables ram roots) (live : s.rootFor table ∈ roots)
    (page : va % pgsize = 0) (low : va + count * pgsize ≤ vaMax) :
    Ends (mmapPages table perm count va) s (fun _ s' => count ≤ s.userPool.length ∧ Shows ram roots s
      ((s.view ram roots).allocRange (s.rootFor table) (va / pgsize) count (permFlags perm)) s')
      Exhausted := by
  induction count generalizing s va with
  | zero =>
    rw [mmapPages, Ends.pure_iff, View.allocRange_zero]
    exact ⟨Nat.zero_le _, .refl tables⟩
  | succ count ih =>
    rw [Nat.succ_mul] at low
    refine freshPage_ends tables live page (by omega) (fun _ => id) fun a rest s₁ pool user fresh => ?_
    have word : wrap64 (va + pgsize) = va + pgsize :=
      wrap64_of_lt (by simp only [pgsize_eq, vaMax_eq] at low ⊢; omega)
    have same : s₁.rootFor table = s.rootFor table := fresh.rootFor rfl table
    have left : s₁.userPool = rest := congrArg View.userPool fresh.view
    have number : (va + pgsize) / pgsize = va / pgsize + 1 := Nat.add_div_right va (by decide)
    rw [word]
    have next := @ih s₁ (va + pgsize) fresh.tables (same ▸ live)
      (by simp only [pgsize_eq] at page ⊢; omega) (by omega)
    refine next.mono ?_
    rintro _ s' ⟨space, shows⟩
    rw [fresh.view, same, number, View.allocRange_succ pool] at shows
    rw [pool, List.length_cons]
    exact ⟨by rw [left] at space; omega, fresh.trans shows⟩

/-- A call that returns mapped whole pages below the last address. -/
theorem mmapPages_within {count va : ℕ} (tables : s.Tables ram roots) (live : s.rootFor table ∈ roots)
    (word : va < 2 ^ 64) (some : 0 < count) : Returns (mmapPages table perm count va) s fun _ _ =>
      va % pgsize = 0 ∧ va + count * pgsize ≤ vaMax := by
  by_cases page : va % pgsize = 0
  · by_cases low : va + count * pgsize ≤ vaMax
    · exact fun _ _ _ => ⟨page, low⟩
    · exact (mmapPages_high tables live page word some (by omega)).returns
  · obtain ⟨count, rfl⟩ := Nat.exists_eq_succ_of_ne_zero (Nat.ne_of_gt some)
    rw [mmapPages, Returns.bind_iff]
    refine fun a s₁ _ => Returns.bind_iff.mpr ?_
    rw [vmMappages, if_pos page]
    exact Returns.bind_iff.mpr (Returns.throw_iff.mpr trivial)

/-! ## The call -/

/-- A process and its list of regions -/
structure MmapReady (ram : Ram) (roots : Set U64) (s : Machine) (k : ℕ) (p : ProcMem) : Prop where
  proc : s.proc k = some p
  tables : s.Tables ram roots
  live : s.rootFor p.pgtbl ∈ roots
  ordered : Ordered p.mmap

/-- `n` pages from `r` on are new in the list, and were mapped to pages of the pool that hold zeros; the
page table has a leaf for each. -/
structure Mapping (s : Machine) (k : ℕ) (p : ProcMem) (r n : ℕ) (perm : U32) (s' : Machine) : Prop where
  aligned : r % pgsize = 0
  low : mmapBegin ≤ r
  high : r + n * pgsize ≤ mmapEnd
  fresh : ∀ v, Inside r (r + n * pgsize) v → ¬Covers p.mmap v
  covered : ∃ p', s'.proc k = some p' ∧ ∀ v, Inside r (r + n * pgsize) v → Covers p'.mmap v
  root : s'.rootFor p.pgtbl = s.rootFor p.pgtbl
  leaves : ∀ i < n, ∃ a, s.userPool[i]? = some a ∧ a.toNat % pgsize = 0 ∧ (s'.pages a = fun _ => 0) ∧
    s'.leaf (s.rootFor p.pgtbl) (r / pgsize + i) = paToPte a ||| permFlags perm

/-- The list is cut at a given address with space before the next region. -/
theorem choosePlace_given {regions : List Region} (ordered : Ordered regions) {start npages : ℕ}
    (given : start ≠ 0) : Returns (choosePlace regions start npages) s fun place s' => s' = s ∧
      place.1 = start ∧ place.2.1.reverse ++ place.2.2 = regions ∧ mmapBegin ≤ start ∧
      wrap64 (start + lenOf npages) ≤ mmapEnd ∧ (∀ r ∈ place.2.1, r.finish ≤ start) ∧
      ∀ r ∈ place.2.2, wrap64 (start + lenOf npages) ≤ r.begin := by
  rw [choosePlace, if_neg given]
  refine Returns.ite (fun outside => ?_) fun inside => ?_
  · exact Returns.bind_iff.mpr (Returns.throw_iff.mpr trivial)
  · rw [Returns.bind_iff]
    refine (@findPlace_ordered start s [] regions ordered (List.forall_mem_nil _)).returns.mono ?_
    rintro ⟨before, after⟩ s' ⟨same, cut, behind, front⟩
    replace cut : before.reverse ++ after = regions := cut
    refine Returns.ite (fun overlaps => ?_) fun apart => ?_
    · exact Returns.bind_iff.mpr (Returns.throw_iff.mpr trivial)
    · refine Returns.pure_iff.mpr ⟨same, rfl, cut, by omega, by omega, behind, ?_⟩
      cases after with
      | nil => exact List.forall_mem_nil _
      | cons next rest =>
        have space : wrap64 (start + lenOf npages) ≤ next.begin := by simpa using apart
        refine List.forall_mem_cons.mpr ⟨space, fun r within => ?_⟩
        have order := (List.pairwise_cons.mp
          (List.pairwise_append.mp (cut ▸ ordered.apart)).2.1).1 r within
        simp only [Region.finish] at order
        omega

private theorem Ordered.append {l m : List Region} (ordered : Ordered (l ++ m)) : Ordered l ∧ Ordered m := by
  obtain ⟨low, high, apart⟩ := ordered
  obtain ⟨left, right, -⟩ := List.pairwise_append.mp apart
  exact ⟨⟨fun r within => low r (List.mem_append_left _ within),
      fun r within => high r (List.mem_append_left _ within), left⟩,
    ⟨fun r within => low r (List.mem_append_right _ within),
      fun r within => high r (List.mem_append_right _ within), right⟩⟩

/-- The merges keep what the list covers, and the pages are mapped. -/
theorem mergeAndMap_maps (ready : MmapReady ram roots s k p) {node start n : ℕ}
    {before after : List Region} {free : List ℕ} (cut : before.reverse ++ after = p.mmap) (some : 0 < n)
    (low : mmapBegin ≤ start) (high : start + n * pgsize ≤ mmapEnd)
    (behind : ∀ r ∈ before, r.finish ≤ start) (front : ∀ r ∈ after, start + n * pgsize ≤ r.begin) :
    Returns (do
      let (node, rest) ← mergeNext ⟨node, start, n⟩ after
      let regions ← mergePrev node rest before
      setMyproc k { p with mmap := regions }
      mmapPages p.pgtbl perm n start) { s with freeRegions := free } fun _ s' =>
        Mapping s k p start n perm s' := by
  obtain ⟨fore, hind⟩ := (cut ▸ ready.ordered : Ordered (_ ++ _)).append
  rw [Returns.bind_iff]
  refine (@mergeNext_covers _ ⟨node, start, n⟩ after low high hind front).mono ?_
  rintro ⟨m, rest⟩ s₁ ⟨only, begins, limit, covers₁⟩
  rw [Returns.bind_iff]
  refine (mergePrev_covers limit fore fun r within => ?_).mono ?_
  · exact Nat.le_trans (behind r within) (Nat.le_of_eq begins.symm)
  rintro regions s₂ ⟨only', covers₂⟩
  obtain ⟨f, rfl⟩ := only.trans only'
  rw [Returns.bind_iff, setMyproc, Returns.modify_iff]
  let s₃ := ({ s with freeRegions := f } : Machine).setProc k (Option.some { p with mmap := regions })
  have tables₃ : s₃.Tables ram roots := ready.tables.of_pages rfl rfl rfl
  have whole : start + n * pgsize ≤ vaMax := Nat.le_trans high (by decide)
  have word : start < 2 ^ 64 := by
    simp only [vaMax_eq] at whole
    omega
  intro u s' result
  obtain ⟨page, -⟩ := mmapPages_within tables₃ ready.live word some u s' result
  obtain ⟨enough, shows⟩ := (mmapPages_alloc tables₃ ready.live page whole).returns u s' result
  have proc : s'.proc = s₃.proc := congrArg View.proc shows.view
  refine ⟨page, low, high, fun v inside => ?_, ⟨{ p with mmap := regions }, ?_, fun v inside => ?_⟩, ?_,
    fun i less => ?_⟩
  · exact cut ▸ Slot.uncovered behind front inside.1 inside.2
  · rw [proc]
    exact Function.update_self ..
  · rw [covers₂, covers₁, covers_cons]
    exact Or.inr (Or.inl inside)
  · rw [rootFor, rootFor, show s'.kernPagetable = s.kernPagetable from
      congrArg View.kernPagetable shows.view]
  · have enough : n ≤ s.userPool.length := enough
    have bound : i < s.userPool.length := by omega
    have user := ready.tables.userPool _ (List.getElem_mem bound)
    have taken : (s.userPool.take n).getD i 0 = s.userPool[i] := by
      rw [List.getD_eq_getElem?_getD, List.getElem?_take_of_lt less, List.getElem?_eq_getElem bound,
        Option.getD_some]
    refine ⟨s.userPool[i], List.getElem?_eq_getElem bound, user.aligned, ?_, ?_⟩
    · rw [alloc_page shows user, if_pos]
      exact List.mem_take_iff_getElem.mpr ⟨i, by omega, rfl⟩
    · have leaf := alloc_leaf shows ready.live (start / pgsize + i)
      rw [if_pos ⟨rfl, Nat.le_add_right .., by omega⟩, Nat.add_sub_cancel_left] at leaf
      rw [← taken]
      exact leaf

private theorem uvmMmap_maps (ready : MmapReady ram roots s k p) {start : U64} (given : start ≠ 0) {npages : U32}
    (some : 0 < npages.toNat) (small : npages.toNat * pgsize < 2 ^ 32) :
    Returns (uvmMmap k start npages perm) s fun _ s' =>
      Mapping s k p start.toNat npages.toNat perm s' := by
  rw [uvmMmap, Returns.bind_iff]
  refine (myproc_ends ready.proc (E := fun _ => True)).returns.mono ?_
  rintro q t ⟨found, same⟩
  rw [found, same, Returns.bind_iff]
  have nonzero : start.toNat ≠ 0 := fun zero => given (BitVec.eq_of_toNat_eq zero)
  refine (choosePlace_given ready.ordered nonzero).mono ?_
  rintro ⟨addr, before, after⟩ t ⟨same, place, cut, low, high, behind, front⟩
  simp only at place cut behind front
  rw [same, place, Returns.bind_iff]
  rw [lenOf_eq small] at high front
  refine (mmapRegionAlloc_ends).returns.mono ?_
  rintro node t ⟨free, pool, same⟩
  rw [same]
  rcases Nat.lt_or_ge (start.toNat + npages.toNat * pgsize) (2 ^ 64) with fits | wraps
  · rw [wrap64_of_lt fits] at high front
    exact mergeAndMap_maps ready cut some low high behind front
  · rw [Returns.bind_iff]
    refine (mergeNext_nodes ..).returns.mono ?_
    rintro ⟨m, rest⟩ s₁ only
    rw [Returns.bind_iff]
    refine (mergePrev_nodes ..).returns.mono ?_
    rintro regions s₂ only'
    obtain ⟨f, rfl⟩ := only.trans only'
    rw [Returns.bind_iff, setMyproc, Returns.modify_iff]
    refine (@mmapPages_within ram roots _ _ _ _ _ ?_ ?_ start.isLt some).mono ?_
    · exact ready.tables.of_pages rfl rfl rfl
    · exact ready.live
    · rintro _ s' ⟨-, within⟩
      simp only [vaMax_eq] at within
      omega

/-! ## What it returns -/

/-- The returned address is where whole zero-filled pages are mapped now, which no region covered. -/
structure Reported (s : Machine) (k : ℕ) (p : ProcMem) (r n : ℕ) (s' : Machine) : Prop where
  aligned : r % pgsize = 0
  low : mmapBegin ≤ r
  high : r + n * pgsize ≤ mmapEnd
  fresh : ∀ v, Inside r (r + n * pgsize) v → ¬Covers p.mmap v
  covered : ∃ p', s'.proc k = some p' ∧ ∀ v, Inside r (r + n * pgsize) v → Covers p'.mmap v
  zero : ∀ i < n, ∃ a flags, s.userPool[i]? = some a ∧
    translate s' p.pgtbl (r + i * pgsize) = some (a, flags) ∧ s'.pages a = fun _ => 0

/-- A page below the end of the window is found where its entry says. -/
theorem Mapping.translate_eq {r n : ℕ} (mapping : Mapping s k p r n perm s') {i : ℕ} (less : i < n) :
    ∃ a, s.userPool[i]? = some a ∧ (s'.pages a = fun _ => 0) ∧ translate s' p.pgtbl (r + i * pgsize) =
      some (a ||| pteToPa (permFlags perm), pteFlags (paToPte a ||| permFlags perm)) := by
  obtain ⟨a, taken, whole, zero, leaf⟩ := mapping.leaves i less
  have high := mapping.high
  have number : (r + i * pgsize) / pgsize = r / pgsize + i := Nat.add_mul_div_right _ _ (by decide)
  have low : r + i * pgsize < vaMax := by
    simp only [mmapEnd_eq, pgsize_eq, vaMax_eq] at high ⊢
    omega
  refine ⟨a, taken, zero, ?_⟩
  rw [LabKernel.translate_eq low, mapping.root, number, leaf, decode,
    if_pos (permFlags_valid a perm), pteToPa_paToPte_or whole]

/-- The pages are mapped to the ones that were cleared exactly if the high bits of the permissions leave
their addresses alone. -/
theorem Mapping.reported_iff {r n : ℕ} (mapping : Mapping s k p r n perm s') :
    Reported s k p r n s' ↔ ∀ a ∈ s.userPool.take n, a ||| pteToPa (permFlags perm) = a := by
  constructor
  · intro reported a member
    obtain ⟨i, bound, rfl⟩ := List.mem_take_iff_getElem.mp member
    obtain ⟨b, flags, first, found, -⟩ := reported.zero i (by omega)
    obtain ⟨c, second, -, leads⟩ := mapping.translate_eq (show i < n by omega)
    rw [List.getElem?_eq_getElem (by omega), Option.some.injEq] at first second
    rw [leads, Option.some.injEq, Prod.mk.injEq] at found
    rw [second, found.1, ← first, second]
  · intro whole
    refine ⟨mapping.aligned, mapping.low, mapping.high, mapping.fresh, mapping.covered,
      fun i less => ?_⟩
    obtain ⟨a, taken, zero, leads⟩ := mapping.translate_eq less
    have member : a ∈ s.userPool.take n := by
      obtain ⟨bound, rfl⟩ := List.getElem?_eq_some_iff.mp taken
      exact List.mem_take_iff_getElem.mpr ⟨i, by omega, rfl⟩
    exact ⟨a, _, taken, whole a member ▸ leads, zero⟩

/-- A call of `sys_mmap` for at least one byte that returns reports where it mapped exactly if it was
given an address, the length is not rounded to nothing, and the permissions fit into an entry. -/
theorem sysMmap_reports_iff (ready : MmapReady ram roots s k p) {addr r : U64} {len prot : U32}
    (some : 0 < len.toNat) (run : sysMmap k addr len prot s = .ok r s') :
    Reported s k p r.toNat (pagesOf len.toNat) s' ↔ addr ≠ 0 ∧ len.toNat ≤ 2 ^ 32 - pgsize ∧
      ∀ a ∈ s.userPool.take (pagesOf len.toNat), a ||| pteToPa (permFlags prot) = a := by
  obtain ⟨_, t, called, done⟩ := bind_eq_ok.mp run
  obtain ⟨rfl, rfl⟩ : addr = r ∧ t = s' := by
    cases done
    exact ⟨rfl, rfl⟩
  have maps (given : addr ≠ 0) (small : len.toNat ≤ 2 ^ 32 - pgsize) :
      Mapping s k p addr.toNat (pagesOf len.toNat) prot t := by
    have count := pagesFor_small small
    have enough : 0 < pagesOf len.toNat ∧ pagesOf len.toNat * pgsize < 2 ^ 32 := by
      simp only [pagesOf, pgsize_eq] at small ⊢
      omega
    rw [← count] at enough ⊢
    exact uvmMmap_maps ready given enough.1 enough.2 _ _ called
  constructor
  · intro reported
    have low := reported.low
    have high := reported.high
    have given : addr ≠ 0 := by
      rintro rfl
      simp [mmapBegin_eq] at low
    have small : len.toNat ≤ 2 ^ 32 - pgsize := by
      simp only [pagesOf, pgsize_eq, mmapEnd_eq, mmapBegin_eq] at low high ⊢
      omega
    exact ⟨given, small, (maps given small).reported_iff.mp reported⟩
  · rintro ⟨given, small, whole⟩
    exact (maps given small).reported_iff.mpr whole

/-- Permissions below the page number of an entry change no address. -/
theorem permFlags_keep {prot : U32} (low : (permFlags prot).toNat < 1024) (a : U64) :
    a ||| pteToPa (permFlags prot) = a := by
  rw [pteToPa_low low]
  exact BitVec.or_zero

private theorem MmapState.ready (state : MmapState ram roots s k p) : MmapReady ram roots s k p :=
  ⟨state.proc, state.tables, state.live, state.set.ordered⟩

theorem sysMmap_reports_iff_first : ∃ s', sysMmap 0 0x3ffaffe000 0xfff 0x16 mmapMachine =
      .ok 0x3ffaffe000 s' ∧
    Reported mmapMachine 0 ⟨0x80200000, 0, 0, 0, [], .running, none, 0⟩ 0x3ffaffe000 1 s' := by
  have returns : (match sysMmap 0 0x3ffaffe000 0xfff 0x16 mmapMachine with
      | .ok r _ => decide (r = 0x3ffaffe000)
      | .error .. => false) = true := by decide +kernel
  cases run : sysMmap 0 0x3ffaffe000 0xfff 0x16 mmapMachine with
  | error e s' =>
    rw [run] at returns
    cases returns
  | ok r s' =>
    rw [run] at returns
    obtain rfl := of_decide_eq_true returns
    have reported := (sysMmap_reports_iff mmapMachine_state.ready (by decide) run).mpr
      ⟨by decide, by decide, fun a _ => permFlags_keep (by decide) a⟩
    exact ⟨s', rfl, reported⟩

/-- Asked to choose the address, `sys_mmap` maps a page and returns 0. -/
theorem sysMmap_hides : ∃ s', sysMmap 0 0 0xfff 0x16 mmapMachine = .ok 0 s' ∧
    ¬Reported mmapMachine 0 ⟨0x80200000, 0, 0, 0, [], .running, none, 0⟩ 0 1 s' := by
  have returns : (match sysMmap 0 0 0xfff 0x16 mmapMachine with
      | .ok r _ => decide (r = 0)
      | .error .. => false) = true := by decide +kernel
  cases run : sysMmap 0 0 0xfff 0x16 mmapMachine with
  | error e s' =>
    rw [run] at returns
    cases returns
  | ok r s' =>
    rw [run] at returns
    obtain rfl := of_decide_eq_true returns
    exact ⟨s', rfl, fun reported => absurd reported.low (by decide)⟩

end LabKernel
