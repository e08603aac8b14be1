import LabKernel.Lib.Transition
import LabKernel.Mem.Mmap

/-! # Copies of address spaces

`proc_fork` builds a page table, copies the code page, the heap, the stack and the mapped regions page
by page into frames of their own, and copies the list of regions into nodes of their own.
-/

namespace LabKernel

def kstack (procid : ℕ) : ℕ := trapframe - (procid + 1) * 2 * pgsize

def permRX : U32 := 0xA

def permRW : U32 := 0x6

/-- `proc_pgtbl_init`; the trampoline is a page of the kernel's code. -/
def procPgtblInit (code tf : U64) : MemM U64 := do
  let tbl ← pmemAlloc true
  vmMappages tbl trampoline code pgsize permRX
  vmMappages tbl trapframe tf pgsize permRW
  return tbl

/-- `proc_alloc`: the place in the pool -/
def procAlloc (code : U64) : MemM (Option (ℕ × ProcMem)) := do
  let s ← get
  match (List.range nProc).find? fun i => (s.proc i).any fun p => p.state = .unused with
  | none => return none
  | some i =>
    let tf ← pmemAlloc true
    let pgtbl ← procPgtblInit code tf
    let p : ProcMem := ⟨pgtbl, tf, 0, 0, [], .unused, none, 0⟩
    setMyproc i p
    return some (i, p)

/-- The body of the loop of `copy_virt_range` -/
def copyVirtPage (srcTbl dstTbl : U64) (va : ℕ) : MemM Unit := do
  match ← vmGetpte srcTbl va false with
  | none => throw (.panic "uvm_copy: source pte missing")
  | some (t, i) =>
    let srcPte := (← get).pte t i
    if ¬PteHas srcPte pteV then throw (.panic "uvm_copy: source pte missing")
    let dstPa ← pmemAlloc false
    copyPage dstPa (pteToPa srcPte)
    vmMappages dstTbl va dstPa pgsize ((pteFlags srcPte).setWidth 32)

/-- The loop of `copy_virt_range` -/
def copyVirtLoop (srcTbl dstTbl : U64) (stop : ℕ) : (fuel va : ℕ) → MemM Unit
  | 0, _ => throw .hang
  | fuel + 1, va =>
    if va < stop then do
      copyVirtPage srcTbl dstTbl va
      copyVirtLoop srcTbl dstTbl stop fuel (wrap64 (va + pgsize))
    else return ()

def copyVirtRange (srcTbl dstTbl : U64) (start stop : ℕ) : MemM Unit :=
  copyVirtLoop srcTbl dstTbl stop (stop / pgsize + 2) start

/-- `TRAPFRAME - ustack_pages * PGSIZE` -/
def stackBase (ustackPages : ℕ) : ℕ := wrap64 (trapframe + 2 ^ 64 - wrap64 (ustackPages * pgsize))

/-- The last loop of `uvm_copy_pgtbl` -/
def copyRegions (oldTbl newTbl : U64) : List Region → MemM Unit
  | [] => return ()
  | walker :: rest => do
    copyVirtRange oldTbl newTbl walker.begin walker.stop
    copyRegions oldTbl newTbl rest

def uvmCopyPgtbl (oldTbl newTbl : U64) (heapTop ustackPages : ℕ) (mmapHead : List Region) :
    MemM Unit := do
  copyVirtRange oldTbl newTbl userBase (userBase + pgsize)
  if userBase + pgsize < heapTop then
    copyVirtRange oldTbl newTbl (userBase + pgsize) (alignUp heapTop)
  if 0 < ustackPages then copyVirtRange oldTbl newTbl (stackBase ustackPages) trapframe
  copyRegions oldTbl newTbl mmapHead

/-- The loop of `proc_fork` over the list of regions -/
def copyMmap : List Region → MemM (List Region)
  | [] => return []
  | src :: rest => do
    let newNode ← mmapRegionAlloc
    return ⟨newNode, src.begin, src.npages⟩ :: (← copyMmap rest)

def Region.extent (r : Region) : ℕ × ℕ := (r.begin, r.npages)

/-- The child's trap frame: the parent's one with `a0` and `user_to_kern_sp` of its own -/
def copyTrapframe (dst src : U64) (child : ℕ) : MemM Unit := modify fun s =>
  let tf := ((s.pages dst).blit 0 (s.pages src) 288).setU64 112 0
  s.setPage dst (tf.setU64 8 (BitVec.ofNat 64 (kstack child + pgsize)))

/-- `proc_fork`: the child's place in the pool. The files are not part of memory. -/
def procFork (code : U64) (k : ℕ) : MemM (Option ℕ) := do
  let curr ← myproc k
  match ← procAlloc code with
  | none => return none
  | some (c, child) =>
    uvmCopyPgtbl curr.pgtbl child.pgtbl curr.heapTop curr.ustackNpage curr.mmap
    let regions ← copyMmap curr.mmap
    copyTrapframe child.tf curr.tf c
    setMyproc c { child with
      heapTop := curr.heapTop, ustackNpage := curr.ustackNpage, mmap := regions,
      parent := some k, state := .running }
    return some c

/-! ## One page -/

private theorem pteFlags_lt (e : U64) : (pteFlags e).toNat < 1024 := by
  have mask : (0x3FF : U64).toNat = 2 ^ 10 - 1 := rfl
  rw [pteFlags, BitVec.toNat_and, mask, Nat.and_two_pow_sub_one_eq_mod]
  exact Nat.mod_lt _ (by decide)

/-- The flags of a valid entry survive the way through an `int`. -/
theorem permFlags_pteFlags {e : U64} (valid : PteHas e pteV) :
    permFlags ((pteFlags e).setWidth 32) = pteFlags e := by
  have bound := pteFlags_lt e
  have positive : ((pteFlags e).setWidth 32).msb = false := by
    rw [BitVec.msb_eq_decide, decide_eq_false_iff_not, BitVec.toNat_setWidth]
    omega
  have back : ((pteFlags e).setWidth 32).setWidth 64 = pteFlags e := by
    apply BitVec.eq_of_toNat_eq
    rw [BitVec.toNat_setWidth, BitVec.toNat_setWidth]
    omega
  rw [permFlags, BitVec.signExtend_eq_setWidth_of_msb_false positive, back]
  apply BitVec.eq_of_getLsbD_eq
  intro i _
  have bit : i = 0 → (pteFlags e).getLsbD i = true := by
    rintro rfl
    by_contra clear
    refine (pteHas_pteFlags e (by decide)).mpr valid (BitVec.eq_of_getLsbD_eq fun j _ => ?_)
    rcases Nat.eq_zero_or_pos j with rfl | later
    · rw [BitVec.getLsbD_and, Bool.eq_false_of_not_eq_true clear, Bool.false_and]
      rfl
    · simp [pteV, Nat.pos_iff_ne_zero.mp later]
  rcases Nat.eq_zero_or_pos i with rfl | later
  · simp [bit rfl]
  · simp [pteV, Nat.pos_iff_ne_zero.mp later]

/-- What a step does not touch while it builds the tree at `dst`: the other trees, and all user pages
that are in use. -/
structure Spares (ram : Ram) (roots : Set U64) (dst : U64) (s s' : Machine) : Prop where
  kernel : s'.kernPagetable = s.kernPagetable
  leaf : ∀ r ∈ roots, r ≠ dst → ∀ v, s'.leaf r v = s.leaf r v
  page : ∀ a, ram.UserFrame a → a ∉ s.userPool → s'.pages a = s.pages a
  pool : s'.userPool <:+ s.userPool
  kernelPool : s'.kernelPool <:+ s.kernelPool

/-- A step that builds the tree at `dst` and changes no descriptor -/
structure Builds (ram : Ram) (roots : Set U64) (dst : U64) (s s' : Machine) : Prop
    extends Spares ram roots dst s s' where
  proc : s'.proc = s.proc
  regions : s'.freeRegions = s.freeRegions

/-- The tree at `dst` holds a copy of the pages in `done` of the tree at `src`, in frames from a pool. -/
structure Copied (ram : Ram) (pool : List U64) (s : Machine) (src dst : U64) (window domain done : Set ℕ) : Prop where
  source : Space ram s src window domain
  target : Space ram s dst window done
  sub : done ⊆ domain
  flags : ∀ v ∈ done, pteFlags (s.leaf dst v) = pteFlags (s.leaf src v)
  contents : ∀ v ∈ done, s.pages (pteToPa (s.leaf dst v)) = s.pages (pteToPa (s.leaf src v))
  apart : ∀ v ∈ done, ∀ v' ∈ domain, pteToPa (s.leaf dst v) ≠ pteToPa (s.leaf src v')
  outer : ∀ v ∉ window, ¬PteHas (s.leaf dst v) pteU
  left : s.userPool <:+ pool
  fresh : ∀ v ∈ done, pteToPa (s.leaf dst v) ∈ pool

variable {ram : Ram} {roots : Set U64} {pool : List U64} {s s' s'' : Machine} {src dst : U64}
  {window domain done : Set ℕ} {v n : ℕ}

open Machine

/-- A step that changes descriptors only -/
theorem Spares.of_pages (pages : s'.pages = s.pages) (kernel : s'.kernPagetable = s.kernPagetable)
    (pool : s'.userPool = s.userPool) (kernelPool : s'.kernelPool = s.kernelPool) :
    Spares ram roots dst s s' where
  kernel := kernel
  leaf r _ _ v := entry_of_pages pages r (pagePlace v)
  page a _ _ := by rw [pages]
  pool := pool ▸ List.suffix_rfl
  kernelPool := kernelPool ▸ List.suffix_rfl

private theorem Spares.trans (first : Spares ram roots dst s s') (second : Spares ram roots dst s' s'') :
    Spares ram roots dst s s'' where
  kernel := second.kernel.trans first.kernel
  leaf r live other v := (second.leaf r live other v).trans (first.leaf r live other v)
  page a user busy :=
    (second.page a user fun free => busy (first.pool.subset free)).trans (first.page a user busy)
  pool := second.pool.trans first.pool
  kernelPool := second.kernelPool.trans first.kernelPool

private theorem Spares.mono {roots' : Set U64} (spares : Spares ram roots dst s s') (sub : roots' ⊆ roots) :
    Spares ram roots' dst s s' :=
  ⟨spares.kernel, fun r live => spares.leaf r (sub live), spares.page, spares.pool, spares.kernelPool⟩

private theorem Builds.refl (s : Machine) : Builds ram roots dst s s :=
  ⟨.of_pages rfl rfl rfl rfl, rfl, rfl⟩

theorem Builds.trans (first : Builds ram roots dst s s') (second : Builds ram roots dst s' s'') :
    Builds ram roots dst s s'' :=
  ⟨first.toSpares.trans second.toSpares, second.proc.trans first.proc,
    second.regions.trans first.regions⟩

private theorem Spares.rootFor (spares : Spares ram roots dst s s') (table : U64) :
    s'.rootFor table = s.rootFor table := by rw [Machine.rootFor, Machine.rootFor, spares.kernel]

/-- A tree that is not built keeps its pages. -/
theorem Space.spared (space : Space ram s src window domain) (live : src ∈ roots) (other : src ≠ dst)
    (spares : Spares ram roots dst s s') : Space ram s' src window domain := by
  have leaf := spares.leaf src live other
  refine ⟨space.within, ?_, ?_, ?_, ?_, ?_, space.nodup.sublist spares.pool.sublist⟩
  · simpa only [leaf] using space.mapped
  · simpa only [leaf] using space.user
  · simpa only [leaf] using space.frame
  · intro v inside free
    rw [leaf] at free
    exact space.busy v inside (spares.pool.subset free)
  · simpa only [leaf] using space.once

/-- One page was copied into a frame of its own. -/
structure PageCopied (ram : Ram) (roots : Set U64) (src dst : U64) (v : ℕ) (s : Machine) (a : U64)
    (s' : Machine) : Prop where
  tables : s'.Tables ram roots
  user : ram.UserFrame a
  pool : s.userPool = a :: s'.userPool
  kernelPool : s'.kernelPool <:+ s.kernelPool
  kernel : s'.kernPagetable = s.kernPagetable
  proc : s'.proc = s.proc
  regions : s'.freeRegions = s.freeRegions
  leaf : ∀ r ∈ roots, ∀ v', s'.leaf r v' =
    if r = dst ∧ v' = v then paToPte a ||| pteFlags (s.leaf src v) else s.leaf r v'
  page : ∀ b, ram.UserFrame b →
    s'.pages b = if b = a then s.pages (pteToPa (s.leaf src v)) else s.pages b

private theorem copyVirtPage_ends {srcTbl dstTbl : U64} (tables : s.Tables ram roots)
    (dstLive : s.rootFor dstTbl ∈ roots) (low : v * pgsize + pgsize ≤ vaMax)
    (valid : PteHas (s.leaf (s.rootFor srcTbl) v) pteV)
    (frame : ram.UserFrame (pteToPa (s.leaf (s.rootFor srcTbl) v)))
    (busy : pteToPa (s.leaf (s.rootFor srcTbl) v) ∉ s.userPool) :
    Ends (copyVirtPage srcTbl dstTbl (v * pgsize)) s (fun _ s' =>
      ∃ a, PageCopied ram roots (s.rootFor srcTbl) (s.rootFor dstTbl) v s a s') Panics := by
  have under : v * pgsize < vaMax := by
    simp only [pgsize_eq] at low ⊢
    omega
  have number : v * pgsize / pgsize = v := Nat.mul_div_cancel v (by decide)
  rw [copyVirtPage, Ends.bind_iff, Ends, vmGetpte_read under]
  cases found : s.tableAt (s.rootFor srcTbl) (upperPlace (v * pgsize) 0) with
  | none =>
    have zero := leaf_of_missing under found
    rw [number] at zero
    rw [zero] at valid
    exact absurd valid (not_pteHas_zero pteV)
  | some t =>
    have entry := leaf_of_table under found
    rw [number] at entry
    simp only [Option.map_some, Ends.bind_iff, Ends.get_iff, entry]
    rw [if_neg (not_not.mpr valid)]
    simp only [Ends.bind_iff]
    refine ((pmemAlloc_ends tables).fails fun _ user => Exhausted.panics (.inl user)).mono ?_
    rintro a s₁ ⟨rest, pool, user, taken⟩
    have differ : pteToPa (s.leaf (s.rootFor srcTbl) v) ≠ a := fun same =>
      busy (same ▸ pool ▸ List.mem_cons_self)
    have source : s₁.pages (pteToPa (s.leaf (s.rootFor srcTbl) v)) =
        s.pages (pteToPa (s.leaf (s.rootFor srcTbl) v)) := by
      rw [← @view_page s₁ ram roots _ frame, taken.view, ← @view_page s ram roots _ frame]
      exact Function.update_of_ne differ ..
    rw [copyPage, Ends.modify_iff]
    have filled := taken.tables.setPage user (s₁.pages (pteToPa (s.leaf (s.rootFor srcTbl) v)))
    rw [taken.view, source] at filled
    have same : s₁.rootFor dstTbl = s.rootFor dstTbl := taken.rootFor rfl dstTbl
    rw [source]
    have frame₂ : (s₁.setPage a (s.pages (pteToPa (s.leaf (s.rootFor srcTbl) v)))).rootFor dstTbl =
        s.rootFor dstTbl := same
    refine ((vmMappages_page filled.tables (frame₂ ▸ dstLive) (Nat.mul_mod_left ..) user.aligned low).fails
      fun _ kernel => Exhausted.panics (.inr kernel)).mono ?_
    rintro _ s' mapped
    rw [filled.view, frame₂, number, permFlags_pteFlags valid] at mapped
    refine ⟨a, mapped.tables, user, ?_, mapped.pool.trans taken.pool, congrArg View.kernPagetable mapped.view,
      congrArg View.proc mapped.view, congrArg View.freeRegions mapped.view, fun r live v' => ?_,
      fun b other => ?_⟩
    · rw [pool]
      exact congrArg (a :: ·) (congrArg View.userPool mapped.view).symm
    · rw [mapped.leaf live, ← @view_leaf s ram roots r live]
      rfl
    · rw [← @view_page s' ram roots b other, mapped.view, ← @view_page s ram roots b other]
      simp only [View.setLeaf, View.setPage, Function.update_apply]
      split <;> rfl

private theorem PageCopied.builds {a : U64} (page : PageCopied ram roots src dst v s a s') :
    Builds ram roots dst s s' where
  kernel := page.kernel
  proc := page.proc
  regions := page.regions
  kernelPool := page.kernelPool
  leaf r live other v' := by rw [page.leaf r live, if_neg fun both => other both.1]
  page b user busy := by
    rw [page.page b user, if_neg]
    rintro rfl
    exact busy (page.pool ▸ List.mem_cons_self)
  pool := page.pool ▸ List.suffix_cons ..

/-- A page more is copied. -/
theorem Copied.insert {a : U64} (copied : Copied ram pool s src dst window domain done)
    (srcLive : src ∈ roots) (dstLive : dst ∈ roots) (other : src ≠ dst) (here : v ∈ domain)
    (page : PageCopied ram roots src dst v s a s') :
    Copied ram pool s' src dst window domain (insert v done) := by
  have valid := (copied.source.mapped v (copied.source.within here)).mpr here
  have source : Space ram s' src window domain := copied.source.spared srcLive other page.builds.toSpares
  have srcLeaf (v' : ℕ) : s'.leaf src v' = s.leaf src v' := page.builds.toSpares.leaf src srcLive other v'
  have new : s'.leaf dst v = paToPte a ||| pteFlags (s.leaf src v) := by
    rw [page.leaf dst dstLive, if_pos ⟨rfl, rfl⟩]
  have old {v' : ℕ} (differ : v' ≠ v) : s'.leaf dst v' = s.leaf dst v' := by
    rw [page.leaf dst dstLive, if_neg fun both => differ both.2]
  have bits {bit : U64} (low : bit &&& 0x3FF = bit) (small : bit.toNat < 1024) :
      PteHas (s'.leaf dst v) bit ↔ PteHas (s.leaf src v) bit := by
    rw [new, pteHas_paToPte_or _ _ small, pteHas_pteFlags _ low]
  have frame : pteToPa (s'.leaf dst v) = a := by
    rw [new, pteToPa_paToPte page.user.aligned (pteFlags_lt _)]
  have free : a ∈ s.userPool := page.pool ▸ List.mem_cons_self
  have fresh : a ∉ s'.userPool := (List.nodup_cons.mp (page.pool ▸ copied.source.nodup)).1
  have busy {v' : ℕ} (done : v' ∈ done) : pteToPa (s.leaf dst v') ≠ a := fun same =>
    copied.target.busy v' done (same ▸ free)
  have kept {w : ℕ} (inside : w ∈ domain) :
      s'.pages (pteToPa (s.leaf src w)) = s.pages (pteToPa (s.leaf src w)) :=
    page.builds.toSpares.page _ (copied.source.frame w inside) (copied.source.busy w inside)
  refine ⟨source, ⟨?_, ?_, ?_, ?_, ?_, ?_, source.nodup⟩, ?_, ?_, ?_, ?_, ?_,
    page.builds.pool.trans copied.left, ?_⟩
  · exact Set.insert_subset (source.within here) copied.target.within
  · intro v' within
    rcases eq_or_ne v' v with rfl | differ
    · exact iff_of_true ((bits (by decide) (by decide)).mpr valid) (.inl rfl)
    · rw [old differ, copied.target.mapped v' within, Set.mem_insert_iff, or_iff_right differ]
  · intro v' inside
    rcases eq_or_ne v' v with rfl | differ
    · exact (bits (by decide) (by decide)).mpr (copied.source.user v' here)
    · rw [old differ]
      exact copied.target.user v' (inside.resolve_left differ)
  · intro v' inside
    rcases eq_or_ne v' v with rfl | differ
    · rw [frame]
      exact page.user
    · rw [old differ]
      exact copied.target.frame v' (inside.resolve_left differ)
  · intro v' inside
    rcases eq_or_ne v' v with rfl | differ
    · rw [frame]
      exact fresh
    · rw [old differ]
      exact fun left => copied.target.busy v' (inside.resolve_left differ) (page.builds.toSpares.pool.subset left)
  · intro v' inside w inside' same
    rcases eq_or_ne v' v with one | differ <;> rcases eq_or_ne w v with two | differ'
    · exact one.trans two.symm
    · simp only [one, frame, old differ'] at same
      exact absurd same.symm (busy (inside'.resolve_left differ'))
    · simp only [two, frame, old differ] at same
      exact absurd same (busy (inside.resolve_left differ))
    · simp only [old differ, old differ'] at same
      exact copied.target.once (inside.resolve_left differ) (inside'.resolve_left differ') same
  · exact Set.insert_subset here copied.sub
  · intro v' inside
    rw [srcLeaf]
    rcases eq_or_ne v' v with rfl | differ
    · rw [new, pteFlags_low (pteFlags_lt _)]
    · rw [old differ]
      exact copied.flags v' (inside.resolve_left differ)
  · intro v' inside
    have from_domain : v' ∈ domain := Set.insert_subset here copied.sub inside
    rw [srcLeaf, kept from_domain]
    rcases eq_or_ne v' v with rfl | differ
    · rw [frame, page.page a page.user, if_pos rfl]
    · have done := inside.resolve_left differ
      rw [old differ, page.page _ (copied.target.frame v' done), if_neg (busy done)]
      exact copied.contents v' done
  · intro v' inside w within
    rw [srcLeaf]
    rcases eq_or_ne v' v with rfl | differ
    · rw [frame]
      rintro rfl
      exact copied.source.busy w within free
    · rw [old differ]
      exact copied.apart v' (inside.resolve_left differ) w within
  · intro v' outside
    rw [old (by rintro rfl; exact outside (source.within here))]
    exact copied.outer v' outside
  · intro v' inside
    rcases eq_or_ne v' v with rfl | differ
    · rw [frame]
      exact copied.left.subset free
    · rw [old differ]
      exact copied.fresh v' (inside.resolve_left differ)

/-- Both trees are kept by what builds another one. -/
theorem Copied.spared (copied : Copied ram pool s src dst window domain done) (srcLive : src ∈ roots)
    (dstLive : dst ∈ roots) {x : U64} (srcOther : src ≠ x) (dstOther : dst ≠ x)
    (spares : Spares ram roots x s s') : Copied ram pool s' src dst window domain done := by
  have source (v : ℕ) := spares.leaf src srcLive srcOther v
  have target (v : ℕ) := spares.leaf dst dstLive dstOther v
  refine ⟨copied.source.spared srcLive srcOther spares, copied.target.spared dstLive dstOther spares,
    copied.sub, ?_, ?_, ?_, ?_, spares.pool.trans copied.left, ?_⟩
  · simpa only [source, target] using copied.flags
  · intro v inside
    have within := copied.sub inside
    rw [source, target, spares.page _ (copied.target.frame v inside) (copied.target.busy v inside),
      spares.page _ (copied.source.frame v within) (copied.source.busy v within)]
    exact copied.contents v inside
  · simpa only [source, target] using copied.apart
  · simpa only [target] using copied.outer
  · simpa only [target] using copied.fresh

/-- The pages of a range of addresses -/
def pagesIn (start stop : ℕ) : Set ℕ := {v | start ≤ v * pgsize ∧ v * pgsize < stop}

private theorem mem_pagesIn {start stop v : ℕ} :
    v ∈ pagesIn start stop ↔ start ≤ v * pgsize ∧ v * pgsize < stop := Iff.rfl

/-- The state while the tree that an argument stands for is built -/
structure Building (ram : Ram) (roots : Set U64) (pool : List U64) (srcTbl dstTbl : U64) (window domain done : Set ℕ)
    (s : Machine) : Prop where
  tables : s.Tables ram roots
  srcLive : s.rootFor srcTbl ∈ roots
  dstLive : s.rootFor dstTbl ∈ roots
  other : s.rootFor srcTbl ≠ s.rootFor dstTbl
  copied : Copied ram pool s (s.rootFor srcTbl) (s.rootFor dstTbl) window domain done

private theorem copyVirtLoop_ends {srcTbl dstTbl : U64} {stop fuel : ℕ}
    (building : Building ram roots pool srcTbl dstTbl window domain done s)
    (inside : pageRange v n ⊆ domain) (low : ∀ v ∈ window, v * pgsize + pgsize ≤ vaMax)
    (reach : stop ≤ (v + n) * pgsize) (under : ∀ i < n, (v + i) * pgsize < stop) (enough : n < fuel) :
    Ends (copyVirtLoop srcTbl dstTbl stop fuel (v * pgsize)) s (fun _ s' =>
      Building ram roots pool srcTbl dstTbl window domain (done ∪ pageRange v n) s' ∧
        Builds ram roots (s.rootFor dstTbl) s s') Panics := by
  induction n generalizing s v done fuel with
  | zero =>
    obtain ⟨fuel, rfl⟩ := Nat.exists_eq_succ_of_ne_zero (show fuel ≠ 0 by omega)
    have none : done ∪ pageRange v 0 = done := by
      ext i
      rw [Set.mem_union, mem_pageRange, or_iff_left (by omega)]
    rw [copyVirtLoop, if_neg (by rwa [Nat.add_zero, ← Nat.not_lt] at reach), Ends.pure_iff, none]
    exact ⟨building, .refl s⟩
  | succ n ih =>
    obtain ⟨fuel, rfl⟩ := Nat.exists_eq_succ_of_ne_zero (show fuel ≠ 0 by omega)
    have here : v ∈ domain := inside ⟨Nat.le_refl v, by omega⟩
    have first : v * pgsize < stop := under 0 (Nat.succ_pos n)
    have copied := building.copied
    have fits := low v (copied.source.within here)
    have next : wrap64 (v * pgsize + pgsize) = (v + 1) * pgsize := by
      rw [wrap64_of_lt (by simp only [vaMax_eq] at fits; omega), Nat.succ_mul]
    rw [copyVirtLoop, if_pos first, Ends.bind_iff, next]
    refine (copyVirtPage_ends building.tables building.dstLive fits
      ((copied.source.mapped v (copied.source.within here)).mpr here) (copied.source.frame v here)
      (copied.source.busy v here)).mono ?_
    rintro _ s₁ ⟨a, page⟩
    have src := page.builds.rootFor srcTbl
    have dst := page.builds.rootFor dstTbl
    have more : Building ram roots pool srcTbl dstTbl window domain (insert v done) s₁ := by
      refine ⟨page.tables, src ▸ building.srcLive, dst ▸ building.dstLive, ?_, ?_⟩
      · rw [src, dst]
        exact building.other
      · rw [src, dst]
        exact copied.insert building.srcLive building.dstLive building.other here page
    have rest := @ih s₁ (insert v done) (v + 1) fuel more
      (fun i later => inside ⟨by have := later.1; omega, by have := later.2; omega⟩)
      (by rwa [show v + 1 + n = v + (n + 1) by omega])
      (fun i less => by rw [show v + 1 + i = v + (i + 1) by omega]; exact under (i + 1) (by omega))
      (by omega)
    have union : insert v done ∪ pageRange (v + 1) n = done ∪ pageRange v (n + 1) := by
      ext i
      simp only [Set.mem_union, Set.mem_insert_iff, mem_pageRange]
      by_cases old : i ∈ done <;> simp only [old, or_true, true_or, or_false, false_or]
      omega
    rw [union, dst] at rest
    exact rest.mono fun _ s' after => ⟨after.1, page.builds.trans after.2⟩

private theorem copyVirtRange_ends {srcTbl dstTbl : U64} {start stop : ℕ}
    (building : Building ram roots pool srcTbl dstTbl window domain done s)
    (low : ∀ v ∈ window, v * pgsize + pgsize ≤ vaMax) (page : start % pgsize = 0)
    (inside : pagesIn start stop ⊆ domain) :
    Ends (copyVirtRange srcTbl dstTbl start stop) s (fun _ s' =>
      Building ram roots pool srcTbl dstTbl window domain (done ∪ pagesIn start stop) s' ∧
        Builds ram roots (s.rootFor dstTbl) s s') Panics := by
  have range : pageRange (start / pgsize) (pagesOf (stop - start)) = pagesIn start stop := by
    ext v
    rw [mem_pageRange, mem_pagesIn]
    simp only [pagesOf, pgsize_eq] at page ⊢
    omega
  have whole : start / pgsize * pgsize = start := Nat.div_mul_cancel (Nat.dvd_of_mod_eq_zero page)
  rw [← range] at inside ⊢
  rw [copyVirtRange]
  nth_rewrite 1 [← whole]
  refine copyVirtLoop_ends building inside low ?_ (fun i less => ?_) ?_
  · simp only [pagesOf, pgsize_eq] at page ⊢
    omega
  · simp only [pagesOf, pgsize_eq] at page less ⊢
    omega
  · simp only [pagesOf, pgsize_eq]
    omega

/-! ## The address space -/

/-- The pages of the code, the heap, the stack and the mapped regions -/
def userPages (p : ProcMem) : Set ℕ :=
  pagesIn userBase (userBase + pgsize) ∪ pagesIn (userBase + pgsize) (alignUp p.heapTop) ∪
    pagesIn (trapframe - p.ustackNpage * pgsize) trapframe ∪ {v | Covers p.mmap v}

/-- The pages below the trap frame -/
def userWindow : Set ℕ := {v | v * pgsize < trapframe}

private theorem pagesIn_empty {start stop : ℕ} (less : stop ≤ start) : pagesIn start stop = ∅ := by
  ext v
  rw [mem_pagesIn, Set.mem_empty_iff_false, iff_false]
  omega

private theorem userWindow_low (v : ℕ) (within : v ∈ userWindow) : v * pgsize + pgsize ≤ vaMax := by
  have bound : v * pgsize < trapframe := within
  simp only [trapframe_eq, pgsize_eq, vaMax_eq] at bound ⊢
  omega

private theorem alignUp_le {x : ℕ} (small : x ≤ userBase + pgsize) : alignUp x ≤ userBase + pgsize := by
  simp only [userBase_eq, pgsize_eq] at small
  rw [alignUp, wrap64_of_lt (by simp only [pgsize_eq]; omega)]
  simp only [userBase_eq, pgsize_eq]
  omega

theorem stackBase_eq {n : ℕ} (fits : n * pgsize ≤ trapframe) :
    stackBase n = trapframe - n * pgsize := by
  simp only [trapframe_eq] at fits
  rw [stackBase, wrap64_of_lt (show n * pgsize < 2 ^ 64 by omega), trapframe_eq,
    show 274877898752 + 2 ^ 64 - n * pgsize = 274877898752 - n * pgsize + 2 ^ 64 by omega, wrap64,
    Nat.add_mod_right, Nat.mod_eq_of_lt (by omega)]

private theorem copyRegions_ends {srcTbl dstTbl : U64} {l : List Region}
    (building : Building ram roots pool srcTbl dstTbl userWindow domain done s)
    (placed : ∀ r ∈ l, r.Placed) (inside : {v | Covers l v} ⊆ domain) :
    Ends (copyRegions srcTbl dstTbl l) s (fun _ s' =>
      Building ram roots pool srcTbl dstTbl userWindow domain (done ∪ {v | Covers l v}) s' ∧
        Builds ram roots (s.rootFor dstTbl) s s') Panics := by
  induction l generalizing s done with
  | nil =>
    have none : {v | Covers [] v} = ∅ := Set.eq_empty_of_forall_notMem covers_nil
    rw [none, Set.union_empty]
    exact ⟨building, .refl s⟩
  | cons r l ih =>
    obtain ⟨first, rest⟩ := List.forall_mem_cons.mp placed
    have union : {v | Covers (r :: l) v} = pagesIn r.begin r.finish ∪ {v | Covers l v} :=
      Set.ext (covers_cons r l)
    rw [union] at inside ⊢
    rw [copyRegions, first.stop, Ends.bind_iff]
    refine (copyVirtRange_ends building userWindow_low first.aligned
      (Set.subset_union_left.trans inside)).mono ?_
    rintro _ s₁ ⟨more, spares⟩
    refine (ih more rest (Set.subset_union_right.trans inside)).mono ?_
    rintro _ s' ⟨all, spares'⟩
    rw [Set.union_assoc] at all
    rw [spares.rootFor] at spares'
    exact ⟨all, spares.trans spares'⟩

/-- One stage after another -/
theorem Building.next {srcTbl dstTbl : U64} {x y : Set ℕ} {act : MemM Unit}
    (first : Building ram roots pool srcTbl dstTbl userWindow domain (done ∪ x) s' ∧
      Builds ram roots (s.rootFor dstTbl) s s')
    (second : Building ram roots pool srcTbl dstTbl userWindow domain (done ∪ x) s' →
      Ends act s' (fun _ s'' => Building ram roots pool srcTbl dstTbl userWindow domain (done ∪ x ∪ y) s'' ∧
        Builds ram roots (s'.rootFor dstTbl) s' s'') Panics) :
    Ends act s' (fun _ s'' => Building ram roots pool srcTbl dstTbl userWindow domain (done ∪ (x ∪ y)) s'' ∧
      Builds ram roots (s.rootFor dstTbl) s s'') Panics := by
  refine (second first.1).mono ?_
  rintro _ s'' ⟨all, spares⟩
  rw [Set.union_assoc] at all
  rw [first.2.rootFor] at spares
  exact ⟨all, first.2.trans spares⟩

/-- The last two stages of `uvm_copy_pgtbl` -/
theorem copyStack_ends {srcTbl dstTbl : U64} {p : ProcMem}
    (building : Building ram roots pool srcTbl dstTbl userWindow (userPages p) done s)
    (fits : p.ustackNpage * pgsize ≤ trapframe) (placed : ∀ r ∈ p.mmap, r.Placed) :
    Ends (do
      if 0 < p.ustackNpage then copyVirtRange srcTbl dstTbl (stackBase p.ustackNpage) trapframe
      copyRegions srcTbl dstTbl p.mmap) s (fun _ s' =>
        Building ram roots pool srcTbl dstTbl userWindow (userPages p) (done ∪
          (pagesIn (trapframe - p.ustackNpage * pgsize) trapframe ∪ {v | Covers p.mmap v})) s' ∧
        Builds ram roots (s.rootFor dstTbl) s s') Panics := by
  have inside : pagesIn (trapframe - p.ustackNpage * pgsize) trapframe ⊆ userPages p := fun v within =>
    .inl (.inr within)
  have page : (trapframe - p.ustackNpage * pgsize) % pgsize = 0 := by
    simp only [trapframe_eq, pgsize_eq]
    omega
  have regions {s' : Machine} {done : Set ℕ}
      (building : Building ram roots pool srcTbl dstTbl userWindow (userPages p) done s') :=
    copyRegions_ends building placed fun v covered => .inr covered
  refine Ends.ite (fun some => ?_) fun none => ?_
  · rw [Ends.bind_iff, stackBase_eq fits]
    exact (copyVirtRange_ends building userWindow_low page inside).mono fun _ s' after =>
      Building.next after regions
  · have empty : pagesIn (trapframe - p.ustackNpage * pgsize) trapframe = ∅ :=
      pagesIn_empty (by simp [Nat.eq_zero_of_not_pos none])
    rw [empty, Set.empty_union]
    exact regions building

/-- `uvm_copy_pgtbl` copies all pages of an address space. -/
theorem uvmCopyPgtbl_ends {srcTbl dstTbl : U64} {p : ProcMem}
    (building : Building ram roots pool srcTbl dstTbl userWindow (userPages p) ∅ s)
    (fits : p.ustackNpage * pgsize ≤ trapframe) (placed : ∀ r ∈ p.mmap, r.Placed) :
    Ends (uvmCopyPgtbl srcTbl dstTbl p.heapTop p.ustackNpage p.mmap) s (fun _ s' =>
      Building ram roots pool srcTbl dstTbl userWindow (userPages p) (userPages p) s' ∧
        Builds ram roots (s.rootFor dstTbl) s s') Panics := by
  have heap : alignUp p.heapTop % pgsize = 0 := Nat.mul_mod_left ..
  have parts : ∅ ∪ (pagesIn userBase (userBase + pgsize) ∪
      (pagesIn (userBase + pgsize) (alignUp p.heapTop) ∪
        (pagesIn (trapframe - p.ustackNpage * pgsize) trapframe ∪ {v | Covers p.mmap v}))) =
      userPages p := by
    rw [Set.empty_union, userPages, Set.union_assoc, Set.union_assoc]
  have whole : Ends (uvmCopyPgtbl srcTbl dstTbl p.heapTop p.ustackNpage p.mmap) s (fun _ s' =>
      Building ram roots pool srcTbl dstTbl userWindow (userPages p)
        (∅ ∪ (pagesIn userBase (userBase + pgsize) ∪
          (pagesIn (userBase + pgsize) (alignUp p.heapTop) ∪
            (pagesIn (trapframe - p.ustackNpage * pgsize) trapframe ∪ {v | Covers p.mmap v})))) s' ∧
        Builds ram roots (s.rootFor dstTbl) s s') Panics := by
    rw [uvmCopyPgtbl, Ends.bind_iff]
    refine (copyVirtRange_ends building userWindow_low (by decide) fun v within =>
      .inl (.inl (.inl within))).mono fun _ s₁ first => ?_
    refine Building.next first fun code => Ends.ite (fun some => ?_) fun none => ?_
    · rw [Ends.bind_iff]
      refine (copyVirtRange_ends code userWindow_low (by decide) fun v within =>
        .inl (.inl (.inr within))).mono fun _ s₂ second => ?_
      exact Building.next second fun heap => copyStack_ends heap fits placed
    · rw [pagesIn_empty (alignUp_le (Nat.le_of_not_lt none)), Set.empty_union (_ ∪ {v | Covers _ v})]
      exact copyStack_ends code fits placed
  rwa [parts] at whole

/-! ## The child -/

/-- What a view shows of the trees and pages that were there -/
theorem Spares.of_shows {w : View} {roots' : Set U64} (shows : Shows ram roots' s w s')
    (sub : roots ⊆ roots') (kernel : w.kernPagetable = s.kernPagetable)
    (leaf : ∀ r ∈ roots, r ≠ dst → ∀ v, w.leaf r v = s.leaf r v)
    (page : ∀ a, ram.UserFrame a → w.page a = s.pages a) (pool : w.userPool = s.userPool) :
    Spares ram roots dst s s' where
  kernel := (congrArg View.kernPagetable shows.view).trans kernel
  leaf r live other v := (shows.leaf (sub live) v).trans (leaf r live other v)
  page a user _ := by
    rw [← @view_page s' ram roots' a user, shows.view]
    exact page a user
  pool := ((congrArg View.userPool shows.view).trans pool) ▸ List.suffix_rfl
  kernelPool := shows.pool

private theorem kernelPage_ends (tables : s.Tables ram roots) :
    Ends (pmemAlloc true) s (fun a s' => (s.kernelPool = a :: s'.kernelPool ∧ s' = s.taken a s'.kernelPool) ∧
      (∀ i, s'.pte a i = 0) ∧ a ∉ roots ∧ ram.KernelFrame a ∧
      Shows ram (insert a roots) s (s.view ram roots) s') KernelExhausted := by
  rw [pmemAlloc, Ends.bind_iff, Ends.get_iff, if_pos rfl]
  cases pool : s.kernelPool with
  | nil => exact Ends.throw_iff.mpr rfl
  | cons a rest =>
    simp only [Ends.bind_iff, Ends.set_iff, Ends.pure_iff]
    obtain ⟨shows, fresh, frame⟩ := tables.takeKernel pool
    exact ⟨⟨rfl, rfl⟩, setPage_pte_zero _ a, fresh, frame, shows⟩

/-! A walk through an empty root table takes a page from the kernel's pool. -/

private theorem pmemAlloc_takes : Returns (pmemAlloc true) s fun _ s' =>
    s'.kernelPool.length < s.kernelPool.length := by
  rw [pmemAlloc, Returns.bind_iff, Returns.get_iff, if_pos rfl]
  cases pool : s.kernelPool with
  | nil => exact Returns.throw_iff.mpr trivial
  | cons a rest =>
    simp only [Returns.bind_iff, Returns.set_iff, Returns.pure_iff]
    exact Nat.lt_succ_self _

private theorem walk_shrinks (va level : ℕ) (table : U64) : Returns (walk va true level table) s fun _ s' =>
    s'.kernelPool.length ≤ s.kernelPool.length := by
  induction level generalizing s table with
  | zero => exact Returns.pure_iff.mpr (Nat.le_refl _)
  | succ level ih =>
    rw [walk, Returns.bind_iff, Returns.get_iff]
    refine .ite (fun _ => ?_) fun _ => .ite (fun _ => Returns.pure_iff.mpr (Nat.le_refl _)) fun _ => ih _
    simp only [Bool.not_true, Bool.false_eq_true, if_false, Returns.bind_iff, Returns.modify_iff]
    refine pmemAlloc_takes.mono fun a s₁ less => (ih _).mono fun _ s' less' => ?_
    exact Nat.le_of_lt (Nat.lt_of_le_of_lt less' less)

private theorem vmGetpte_takes {table : U64} {va : ℕ} (low : va < vaMax)
    (missing : ¬PteHas (s.pte (s.rootFor table) (vaToVpn va 2)) pteV) :
    Returns (vmGetpte table va true) s fun _ s' => s'.kernelPool.length < s.kernelPool.length := by
  rw [vmGetpte, Returns.bind_iff, Returns.get_iff]
  simp only [if_neg (Nat.not_le.mpr low), Returns.bind_iff]
  rw [walk, Returns.bind_iff, Returns.get_iff]
  simp only [missing, not_false_eq_true, if_true, Bool.not_true, Bool.false_eq_true, if_false,
    Returns.bind_iff, Returns.modify_iff]
  refine pmemAlloc_takes.mono fun a s₁ less => (walk_shrinks va 1 _).mono fun r s' less' => ?_
  cases r <;> exact Returns.pure_iff.mpr (Nat.lt_of_le_of_lt less' less)

private theorem vmMappages_takes {table pa : U64} {va : ℕ} {perm : U32} (page : va % pgsize = 0)
    (low : va + pgsize ≤ vaMax) (missing : ¬PteHas (s.pte (s.rootFor table) (vaToVpn va 2)) pteV) :
    Returns (vmMappages table va pa pgsize perm) s fun _ s' =>
      s'.kernelPool.length < s.kernelPool.length := by
  simp only [vaMax_eq, pgsize_eq] at page low
  have last : wrap64 (va + pgsize - 1) = va + pgsize - 1 :=
    wrap64_of_lt (by simp only [pgsize_eq]; omega)
  have final : va = alignDown (va + pgsize - 1) := by
    simp only [alignDown, pgsize_eq]
    omega
  rw [vmMappages]
  refine .ite (fun _ => by simp) fun _ => .ite (fun _ => by simp) fun _ => .ite (fun _ => by simp)
    fun _ => .ite (fun _ => by simp) fun _ => ?_
  rw [last, mapLoop, Returns.bind_iff]
  refine (vmGetpte_takes (by simp only [vaMax_eq]; omega) missing).mono fun r s' less => ?_
  cases r with
  | none => exact Returns.throw_iff.mpr trivial
  | some entry =>
    rw [Returns.bind_iff, Returns.modify_iff, if_pos final, Returns.pure_iff]
    exact less

/-- A page table of a new process, with nothing on the pages of user mode -/
structure Blank (ram : Ram) (roots : Set U64) (s : Machine) (tbl : U64) (s' : Machine) : Prop where
  tables : s'.Tables ram (insert tbl roots)
  frame : ram.KernelFrame tbl
  fresh : tbl ∉ roots
  empty : ∀ v ∈ userWindow, s'.leaf tbl v = 0
  outer : ∀ v ∉ userWindow, ¬PteHas (s'.leaf tbl v) pteU
  builds : Builds ram roots tbl s s'
  taken : ∃ lost, lost ≠ [] ∧ s.kernelPool = tbl :: (lost ++ s'.kernelPool)

theorem Ram.Sane.kernelFrame_ne_zero (sane : ram.Sane) {a : U64} (frame : ram.KernelFrame a) :
    a ≠ 0 := by
  rintro rfl
  have low := frame.low_le
  have base := sane.behindKernel
  simp [kernelBase] at base low
  omega

/-- The tree of a new process: the trampoline and the trap frame, which user mode cannot reach -/
def View.trapMapped (w : View) (tbl code tf : U64) : View :=
  (w.setLeaf tbl (trampoline / pgsize) (paToPte code ||| permFlags permRX)).setLeaf tbl (trapframe / pgsize)
    (paToPte tf ||| permFlags permRW)

/-- `proc_pgtbl_init` takes a root table, and at least one table below it. -/
structure Initialised (ram : Ram) (roots : Set U64) (code tf : U64) (s : Machine) (tbl : U64)
    (s' : Machine) : Prop where
  frame : ram.KernelFrame tbl
  fresh : tbl ∉ roots
  shows : Shows ram (insert tbl roots) s ((s.view ram roots).trapMapped tbl code tf) s'
  taken : ∃ lost, lost ≠ [] ∧ s.kernelPool = tbl :: (lost ++ s'.kernelPool)
  use : s'.kernelUse (insert tbl roots) = s.kernelUse roots
  other : ∀ r ∈ roots, ∀ q, s'.tableAt r q = s.tableAt r q
  spared : ∀ a, ¬ram.UserFrame a → a ∉ s.kernelUse roots → s'.pages a = s.pages a
  whole : code.toNat % pgsize = 0

theorem procPgtblInit_shows (tables : s.Tables ram roots) (sane : ram.Sane) {code tf : U64}
    (page : tf.toNat % pgsize = 0) :
    Ends (procPgtblInit code tf) s (fun tbl s' => Initialised ram roots code tf s tbl s') Panics := by
  rw [procPgtblInit, Ends.bind_iff]
  refine ((kernelPage_ends tables).fails fun _ kernel => Exhausted.panics (.inr kernel)).mono ?_
  rintro tbl s₁ ⟨⟨pool, new⟩, zero, fresh, frame, taken⟩
  have self (s : Machine) : s.rootFor tbl = tbl := if_neg (sane.kernelFrame_ne_zero frame)
  rw [Ends.bind_iff]
  by_cases whole : code.toNat % pgsize = 0
  · have empty : ¬PteHas (s₁.pte (s₁.rootFor tbl) (vaToVpn trampoline 2)) pteV := by
      rw [self, zero]
      exact not_pteHas_zero pteV
    have live : tbl ∈ insert tbl roots := Set.mem_insert tbl roots
    refine ((((vmMappages_page taken.tables (by rwa [self]) (by decide) whole (by decide)).fails
      fun _ kernel => Exhausted.panics (.inr kernel)).and
        (vmMappages_takes (by decide) (by decide) empty)).and
        (vmMappages_attaches taken.tables (by rwa [self]) (by decide) (by decide))).mono ?_
    rintro _ s₂ ⟨⟨first, less⟩, attaches⟩
    rw [Ends.bind_iff]
    refine (((vmMappages_page first.tables (by rwa [self]) (by decide) page (by decide)).fails
      fun _ kernel => Exhausted.panics (.inr kernel)).and
        (vmMappages_attaches first.tables (by rwa [self]) (by decide) (by decide))).mono ?_
    rintro _ s₃ ⟨second, attaches'⟩
    rw [self] at first second attaches attaches'
    rw [first.view, taken.view] at second
    have both := attaches.trans attaches'
    refine ⟨frame, fresh, ⟨second.tables, second.view, second.pool.trans (first.pool.trans taken.pool)⟩,
      ?_, ?_, fun r other q => ?_, fun a user apart => ?_, whole⟩
    · obtain ⟨lost, rest⟩ := second.pool.trans first.pool
      refine ⟨lost, ?_, by rw [pool, rest]⟩
      rintro rfl
      have more := second.pool.length_le
      rw [← rest, List.nil_append] at less
      omega
    · rw [both.use, new]
      exact taken_use tables pool
    · have differ : r ≠ tbl := fun same => fresh (same ▸ other)
      rw [both.other r (.inr other) differ, new]
      exact taken_tableAt tables pool other q
    · have use : s₁.kernelUse (insert tbl roots) = s.kernelUse roots := by
        rw [new]
        exact taken_use tables pool
      rw [both.spared a user (use ▸ apart), new]
      refine setPage_other _ ?_
      rintro rfl
      exact apart (.inl (pool ▸ List.mem_cons_self))
  · rw [vmMappages, if_neg (by decide), if_pos whole]
    exact ⟨_, rfl⟩

theorem Initialised.leaf {code tf tbl : U64} (init : Initialised ram roots code tf s tbl s')
    {r : U64} (live : r ∈ insert tbl roots) (v : ℕ) : s'.leaf r v =
      if r = tbl ∧ v = trapframe / pgsize then paToPte tf ||| permFlags permRW
      else if r = tbl ∧ v = trampoline / pgsize then paToPte code ||| permFlags permRX
      else (s.view ram roots).leaf r v := init.shows.leaf live v

theorem Initialised.builds {code tf tbl : U64} (init : Initialised ram roots code tf s tbl s') :
    Builds ram roots tbl s s' := by
  refine ⟨.of_shows init.shows (Set.subset_insert ..) rfl ?_ ?_ rfl, ?_, ?_⟩
  · intro r live other v
    rw [← @view_leaf s ram roots r live v]
    simp only [View.trapMapped, View.setLeaf, other, false_and, if_false]
  · exact fun a user => @view_page s ram roots a user
  · exact congrArg View.proc init.shows.view
  · exact congrArg View.freeRegions init.shows.view

private theorem procPgtblInit_ends (tables : s.Tables ram roots) (sane : ram.Sane) {code tf : U64}
    (page : tf.toNat % pgsize = 0) :
    Ends (procPgtblInit code tf) s (fun tbl s' => Blank ram roots s tbl s') Panics := by
  refine (procPgtblInit_shows tables sane page).mono ?_
  rintro tbl s' init
  have here : tbl ∈ insert tbl roots := Set.mem_insert tbl roots
  have none (v : ℕ) : (s.view ram roots).leaf tbl v = 0 := if_neg init.fresh
  refine ⟨init.shows.tables, init.frame, init.fresh, fun v within => ?_, fun v outside => ?_,
    init.builds, init.taken⟩
  · have low : v * pgsize < trapframe := within
    have below : v < trapframe / pgsize := by
      simp only [trapframe_eq, pgsize_eq] at low ⊢
      omega
    have apart : v ≠ trampoline / pgsize := by
      simp only [trapframe_eq, trampoline_eq, pgsize_eq] at below ⊢
      omega
    rw [init.leaf here, if_neg fun both => Nat.ne_of_lt below both.2, if_neg fun both => apart both.2,
      none]
  · rw [init.leaf here]
    split
    · rw [pteHas_paToPte_or _ _ (by decide)]
      decide
    · split
      · rw [pteHas_paToPte_or _ _ (by decide)]
        decide
      · rw [none]
        exact not_pteHas_zero pteU

/-- A new process at a place of the pool that was not in use -/
structure Allocated (ram : Ram) (roots : Set U64) (s : Machine) (c : ℕ) (q : ProcMem) (s' : Machine) :
    Prop where
  unused : ∃ p, s.proc c = some p ∧ p.state = .unused
  blank : q = ⟨q.pgtbl, q.tf, 0, 0, [], .unused, none, 0⟩
  tables : s'.Tables ram (insert q.tf (insert q.pgtbl roots))
  frame : ram.KernelFrame q.pgtbl
  fresh : q.pgtbl ∉ roots
  trap : q.tf ∉ insert q.pgtbl roots
  empty : ∀ v ∈ userWindow, s'.leaf q.pgtbl v = 0
  outer : ∀ v ∉ userWindow, ¬PteHas (s'.leaf q.pgtbl v) pteU
  spares : Spares ram roots q.pgtbl s s'
  regions : s'.freeRegions = s.freeRegions
  proc : s'.proc = Function.update s.proc c (some q)
  trapFrame : ram.KernelFrame q.tf
  taken : ∃ lost, lost ≠ [] ∧ s.kernelPool = q.tf :: q.pgtbl :: (lost ++ s'.kernelPool)

private theorem procAlloc_ends (tables : s.Tables ram roots) (sane : ram.Sane) (code : U64) :
    Ends (procAlloc code) s (fun r s' => match r with
      | none => s' = s
      | some (c, q) => Allocated ram roots s c q s') Panics := by
  rw [procAlloc, Ends.bind_iff, Ends.get_iff]
  cases found : (List.range nProc).find? fun i => (s.proc i).any fun p => p.state = .unused with
  | none => exact rfl
  | some c =>
    have test := List.find?_some found
    obtain ⟨p, here, unused⟩ := (Option.any_eq_true ..).mp test
    simp only [Ends.bind_iff]
    refine ((kernelPage_ends tables).fails fun _ kernel => Exhausted.panics (.inr kernel)).mono ?_
    rintro tf s₁ ⟨⟨pool, -⟩, -, other, frame, taken⟩
    refine (procPgtblInit_ends taken.tables sane frame.aligned).mono ?_
    rintro tbl s₂ blank
    rw [setMyproc, Ends.modify_iff, Ends.pure_iff]
    have apart : tf ≠ tbl := fun same => blank.fresh (same ▸ Set.mem_insert tf roots)
    have first : Spares ram roots tbl s s₁ := .of_shows taken (Set.subset_insert ..) rfl
      (fun r live _ v => @view_leaf s ram roots r live v) (fun a user => @view_page s ram roots a user) rfl
    have second := blank.builds.toSpares.mono (Set.subset_insert tf roots)
    refine ⟨⟨p, here, of_decide_eq_true unused⟩, rfl, ?_, blank.frame,
      fun live => blank.fresh (.inr live), ?_, blank.empty, blank.outer, ?_, ?_, ?_, frame, ?_⟩
    · rw [Set.insert_comm]
      exact blank.tables.of_pages rfl rfl rfl
    · rintro (same | live)
      · exact apart same
      · exact other live
    · exact (first.trans second).trans (.of_pages rfl rfl rfl rfl)
    · exact blank.builds.regions.trans (congrArg View.freeRegions taken.view)
    · have same : s₂.proc = s.proc := blank.builds.proc.trans (congrArg View.proc taken.view)
      exact same ▸ rfl
    · obtain ⟨lost, some, rest⟩ := blank.taken
      exact ⟨lost, some, pool.trans (congrArg (tf :: ·) rest)⟩

private theorem copyMmap_ends (l : List Region) :
    Ends (copyMmap l) s (fun regions s' =>
      s.freeRegions = regions.map Region.node ++ s'.freeRegions ∧ NodesOnly s s' ∧
        regions.map Region.extent = l.map Region.extent) Panics := by
  induction l generalizing s with
  | nil => exact ⟨rfl, ⟨s.freeRegions, rfl⟩, rfl⟩
  | cons r l ih =>
    rw [copyMmap, Ends.bind_iff]
    refine mmapRegionAlloc_ends.mono ?_
    rintro node _ ⟨free, pool, rfl⟩
    simp only [Ends.bind_iff, Ends.pure_iff]
    refine ih.mono ?_
    rintro regions s' ⟨nodes, only, extents⟩
    refine ⟨?_, NodesOnly.trans ⟨free, rfl⟩ only, ?_⟩
    · rw [pool, List.map_cons, List.cons_append, ← nodes]
    · rw [List.map_cons, List.map_cons, extents]
      rfl

/-! ## Equal and independent -/

/-- The descriptor of a process is in step with its page table: user mode reaches exactly the pages that
it names, each in a frame of its own. -/
structure AddressSpace (ram : Ram) (roots : Set U64) (s : Machine) (k : ℕ) (p : ProcMem) : Prop where
  proc : s.proc k = some p
  used : p.state ≠ .unused
  tables : s.Tables ram roots
  live : s.rootFor p.pgtbl ∈ roots
  space : Space ram s (s.rootFor p.pgtbl) userWindow (userPages p)
  outer : ∀ v ∉ userWindow, ¬PteHas (s.leaf (s.rootFor p.pgtbl) v) pteU
  fits : p.ustackNpage * pgsize ≤ trapframe
  regions : IntervalSet p.mmap
  nodes : (nodes p.mmap s).Nodup

/-- The byte that a process finds at an address in user mode -/
def userRead (s : Machine) (table : U64) (va : ℕ) : Option U8 :=
  (translate s table va).bind fun (frame, flags) =>
    if PteHas flags pteU then some (s.pages frame (va % pgsize)) else none

/-- A store of a process in user mode -/
def userWrite (table : U64) (va : ℕ) (b : U8) (s : Machine) : Option Machine :=
  (translate s table va).bind fun (frame, flags) =>
    if PteHas flags pteU ∧ PteHas flags pteW then
      some (s.setPage frame (Function.update (s.pages frame) (va % pgsize) b))
    else none

/-- What a fork leaves behind: a child of equal memory in frames of its own -/
structure Forked (ram : Ram) (roots : Set U64) (s : Machine) (k : ℕ) (p : ProcMem) (c : ℕ) (q : ProcMem)
    (s' : Machine) : Prop where
  parent : AddressSpace ram (insert q.pgtbl roots) s' k p
  child : AddressSpace ram (insert q.pgtbl roots) s' c q
  fresh : q.pgtbl ∉ roots
  others : ∀ i ≠ c, s'.proc i = s.proc i
  leaf : ∀ r ∈ roots, ∀ v, s'.leaf r v = s.leaf r v
  page : ∀ a, ram.UserFrame a → a ∉ s.userPool → s'.pages a = s.pages a
  heapTop : q.heapTop = p.heapTop
  ustackNpage : q.ustackNpage = p.ustackNpage
  extents : q.mmap.map Region.extent = p.mmap.map Region.extent
  nodes : (p.mmap.map Region.node).Disjoint (q.mmap.map Region.node)
  copies : ∀ v ∈ userPages p, ∃ frame frame' flags, translate s' p.pgtbl (v * pgsize) = some (frame, flags) ∧
    translate s' q.pgtbl (v * pgsize) = some (frame', flags) ∧ frame' ∈ s.userPool ∧
      s'.pages frame' = s'.pages frame
  apart : ∀ v ∈ userPages p, ∀ v' ∈ userPages p,
    pteToPa (s'.leaf (s'.rootFor q.pgtbl) v) ≠ pteToPa (s'.leaf (s'.rootFor p.pgtbl) v')
  frames : ram.KernelFrame q.pgtbl ∧ ram.KernelFrame q.tf
  taken : ∃ lost, lost ≠ [] ∧ s.kernelPool = q.tf :: q.pgtbl :: (lost ++ s'.kernelPool)

variable {k c : ℕ} {p q child : ProcMem}

/-- The copy starts with nothing in the child's table. -/
theorem Allocated.building (new : Allocated ram roots s c child s') (sane : ram.Sane)
    (space : AddressSpace ram roots s k p) :
    Building ram (insert child.tf (insert child.pgtbl roots)) s.userPool p.pgtbl child.pgtbl userWindow
      (userPages p) ∅ s' := by
  have src : s'.rootFor p.pgtbl = s.rootFor p.pgtbl := new.spares.rootFor p.pgtbl
  have dst : s'.rootFor child.pgtbl = child.pgtbl := if_neg (sane.kernelFrame_ne_zero new.frame)
  have other : s.rootFor p.pgtbl ≠ child.pgtbl := fun same => new.fresh (same ▸ space.live)
  have source := space.space.spared space.live other new.spares
  refine ⟨new.tables, src ▸ .inr (.inr space.live), ?_, by rwa [src, dst], ?_⟩
  · rw [dst]
    exact .inr (.inl rfl)
  rw [src, dst]
  refine ⟨source, ⟨Set.empty_subset _, fun v within => ?_, ?_, ?_, ?_, ?_, source.nodup⟩,
    Set.empty_subset _, ?_, ?_, ?_, new.outer, new.spares.pool, ?_⟩
  · rw [new.empty v within]
    exact iff_of_false (not_pteHas_zero pteV) (Set.notMem_empty v)
  all_goals exact fun v inside => absurd inside (Set.notMem_empty v)

/-- The trap frame and the descriptor of the child are written last. -/
theorem finish_spares (tables : s.Tables ram (insert child.tf roots)) (other : child.tf ∉ roots)
    (only : NodesOnly s s') (page : Bytes) (q : ProcMem) :
    Spares ram roots child.tf s ((s'.setPage child.tf page).setProc c (some q)) ∧
      ((s'.setPage child.tf page).setProc c (some q)).Tables ram roots := by
  obtain ⟨free, rfl⟩ := only
  have before : ({ s with freeRegions := free } : Machine).Tables ram (insert child.tf roots) :=
    tables.of_pages rfl rfl rfl
  have shows := before.forget other page
  refine ⟨?_, shows.tables.of_pages rfl rfl rfl⟩
  have first : Spares ram roots child.tf s { s with freeRegions := free } := .of_pages rfl rfl rfl rfl
  have second : Spares ram roots child.tf { s with freeRegions := free }
      (({ s with freeRegions := free } : Machine).setPage child.tf page) :=
    .of_shows shows (Set.Subset.refl _) rfl (fun r live _ v => @view_leaf _ ram roots r live v)
      (fun a user => @view_page _ ram roots a user) rfl
  exact (first.trans second).trans (.of_pages rfl rfl rfl rfl)

private theorem Region.placed_of_extent {a b : Region} (same : a.extent = b.extent) (placed : b.Placed) :
    a.Placed := by
  obtain ⟨begin, npages⟩ := Prod.mk.inj same
  obtain ⟨aligned, some, low, high⟩ := placed
  refine ⟨begin ▸ aligned, npages ▸ some, begin ▸ low, ?_⟩
  rwa [finish, begin, npages]

/-- Where regions lie does not depend on their nodes. -/
theorem extents_same {l m : List Region} (same : l.map Region.extent = m.map Region.extent) :
    (∀ v, Covers l v ↔ Covers m v) ∧ (IntervalSet m → IntervalSet l) := by
  have covers (l : List Region) (v : ℕ) : Covers l v ↔ ∃ e ∈ l.map Region.extent,
      e.1 ≤ v * pgsize ∧ v * pgsize < e.1 + e.2 * pgsize := by
    simp only [List.mem_map, exists_exists_and_eq_and]
    exact Iff.rfl
  have pairs (l : List Region) : (l.Pairwise fun a b => a.finish < b.begin) ↔
      (l.map Region.extent).Pairwise fun a b => a.1 + a.2 * pgsize < b.1 := by
    rw [List.pairwise_map]
    exact Iff.rfl
  refine ⟨fun v => by rw [covers, covers, same], fun set => ⟨fun r within => ?_, ?_⟩⟩
  · have listed : r.extent ∈ m.map Region.extent := same ▸ List.mem_map_of_mem within
    obtain ⟨r', within', extent⟩ := List.mem_map.mp listed
    exact Region.placed_of_extent extent.symm (set.placed r' within')
  · rw [pairs, same, ← pairs]
    exact set.apart

/-- What the stages of a fork add up to -/
theorem forked {s₁ s₂ s₃ : Machine} {page : Bytes} {regions : List Region} (sane : ram.Sane)
    (space : AddressSpace ram roots s k p) (new : Allocated ram roots s c child s₁)
    (building : Building ram (insert child.tf (insert child.pgtbl roots)) s.userPool p.pgtbl child.pgtbl
      userWindow (userPages p) (userPages p) s₂)
    (builds : Builds ram (insert child.tf (insert child.pgtbl roots)) (s₁.rootFor child.pgtbl) s₁ s₂)
    (nodes₂ : s₂.freeRegions = regions.map Region.node ++ s₃.freeRegions) (only : NodesOnly s₂ s₃)
    (extents : regions.map Region.extent = p.mmap.map Region.extent) :
    let q := { child with
      heapTop := p.heapTop, ustackNpage := p.ustackNpage, mmap := regions, parent := some k,
      state := .running }
    Forked ram roots s k p c q ((s₃.setPage child.tf page).setProc c (some q)) := by
  intro q
  obtain ⟨last, tables⟩ := @finish_spares ram (insert child.pgtbl roots) s₂ s₃ c child building.tables
    new.trap only page q
  set s' := (s₃.setPage child.tf page).setProc c (some q)
  have src : s'.rootFor p.pgtbl = s.rootFor p.pgtbl :=
    (last.rootFor p.pgtbl).trans ((builds.toSpares.rootFor p.pgtbl).trans (new.spares.rootFor p.pgtbl))
  have src₂ : s₂.rootFor p.pgtbl = s.rootFor p.pgtbl :=
    (builds.toSpares.rootFor p.pgtbl).trans (new.spares.rootFor p.pgtbl)
  have self (s : Machine) : s.rootFor child.pgtbl = child.pgtbl :=
    if_neg (sane.kernelFrame_ne_zero new.frame)
  have srcLive : s.rootFor p.pgtbl ∈ insert child.pgtbl roots := .inr space.live
  have dstLive : child.pgtbl ∈ insert child.pgtbl roots := .inl rfl
  have differ {r : U64} (live : r ∈ insert child.pgtbl roots) : r ≠ child.tf := fun same =>
    new.trap (same ▸ live)
  have copied := building.copied
  rw [src₂, self] at copied
  have copied := copied.spared srcLive dstLive (differ srcLive) (differ dstLive) last
  have all : Spares ram roots child.pgtbl s s' := by
    have second : Spares ram roots child.pgtbl s₁ s₂ := self s₁ ▸ builds.toSpares.mono
      ((Set.subset_insert _ roots).trans (Set.subset_insert ..))
    have third : Spares ram roots child.pgtbl s₂ s' :=
      ⟨last.kernel, fun r live _ => last.leaf r (.inr live) (differ (.inr live)), last.page, last.pool,
        last.kernelPool⟩
    exact (new.spares.trans second).trans third
  have leaf (r : U64) (live : r ∈ roots) : ∀ v, s'.leaf r v = s.leaf r v :=
    all.leaf r live fun same => new.fresh (same ▸ live)
  have apart : k ≠ c := by
    rintro rfl
    obtain ⟨p', here, unused⟩ := new.unused
    obtain rfl := Option.some.inj (space.proc.symm.trans here)
    exact space.used unused
  obtain ⟨free, freed⟩ := only
  have proc₃ : s₃.proc = Function.update s.proc c (some child) := by
    rw [freed, ← new.proc]
    exact builds.proc
  have others (i : ℕ) (other : i ≠ c) : s'.proc i = s.proc i := by
    have kept : s'.proc i = s₃.proc i := Function.update_of_ne other ..
    rw [kept, proc₃, Function.update_of_ne other]
  have pool : s.freeRegions = regions.map Region.node ++ s'.freeRegions := by
    rw [← new.regions, ← builds.regions, nodes₂]
    rfl
  have distinct : (p.mmap.map Region.node ++ (regions.map Region.node ++ s'.freeRegions)).Nodup :=
    pool ▸ space.nodes
  obtain ⟨covers, set⟩ := extents_same extents
  have pages : userPages q = userPages p := by
    have regions : {v | Covers q.mmap v} = {v | Covers p.mmap v} := Set.ext covers
    rw [userPages, regions]
    rfl
  refine ⟨⟨(others k apart).trans space.proc, space.used, tables, src ▸ srcLive, src ▸ copied.source, ?_,
    space.fits, space.regions, ?_⟩, ⟨Function.update_self .., nofun, tables, (self s').symm ▸ dstLive,
    ?_, (self s').symm ▸ copied.outer, space.fits, set space.regions, distinct.of_append_right⟩,
    new.fresh, others, leaf, all.page, rfl, rfl, extents, ?_, fun v inside => ?_, ?_,
    ⟨new.frame, new.trapFrame⟩, ?_⟩
  · simpa only [src, leaf _ space.live] using space.outer
  · exact distinct.sublist ((List.sublist_append_right ..).append_left _)
  · rw [self, pages]
    exact copied.target
  · exact List.disjoint_of_disjoint_append_right_left (List.disjoint_of_nodup_append distinct)
  · have within := copied.source.within inside
    have low : v * pgsize < vaMax := by
      have fits := userWindow_low v within
      simp only [pgsize_eq] at fits ⊢
      omega
    rw [translate_page low, translate_page low, src, self, decode, decode,
      if_pos ((copied.source.mapped v within).mpr inside),
      if_pos ((copied.target.mapped v within).mpr inside), copied.flags v inside]
    exact ⟨_, _, _, rfl, rfl, copied.fresh v inside, copied.contents v inside⟩
  · rw [src, self]
    exact copied.apart
  · obtain ⟨lost, some, pool⟩ := new.taken
    obtain ⟨more, rest⟩ := last.kernelPool.trans builds.kernelPool
    refine ⟨lost ++ more, List.append_ne_nil_of_left_ne_nil some more, ?_⟩
    rw [pool, ← rest, List.append_assoc]

theorem procFork_ends (space : AddressSpace ram roots s k p) (sane : ram.Sane) (code : U64) :
    Ends (procFork code k) s (fun r s' => match r with
      | none => s' = s
      | some c => ∃ q, Forked ram roots s k p c q s') Panics := by
  rw [procFork, Ends.bind_iff]
  refine (myproc_ends space.proc).mono ?_
  rintro _ _ ⟨rfl, rfl⟩
  rw [Ends.bind_iff]
  refine (procAlloc_ends space.tables sane code).mono ?_
  rintro (_ | ⟨c, child⟩) s₁ new
  · exact new
  · have building := Allocated.building new sane space
    rw [Ends.bind_iff]
    refine (uvmCopyPgtbl_ends building space.fits space.regions.placed).mono ?_
    rintro _ s₂ ⟨built, builds⟩
    rw [Ends.bind_iff]
    refine (copyMmap_ends _).mono ?_
    rintro regions s₃ ⟨nodes, only, extents⟩
    simp only [Ends.bind_iff, copyTrapframe, Ends.modify_iff, setMyproc, Ends.pure_iff]
    exact ⟨_, forked sane space new built builds nodes only extents⟩

/-- Trees and free pages stay as they are. -/
structure Unmoved (ram : Ram) (roots : Set U64) (s t : Machine) : Prop where
  tables : t.Tables ram roots
  kernel : t.kernPagetable = s.kernPagetable
  leaf : ∀ r ∈ roots, ∀ v, t.leaf r v = s.leaf r v

/-- A store of the parent or of the child -/
def FamilyWrite (p q : ProcMem) (s : Machine) (w : U64 × ℕ × U8) (s' : Machine) : Prop :=
  (w.1 = p.pgtbl ∨ w.1 = q.pgtbl) ∧ userWrite w.1 w.2.1 w.2.2 s = some s'

section

variable {t u : Machine} {va : ℕ} {b : U8}

/-- User mode reaches the frames of its own pages only. -/
theorem AddressSpace.reached (space : AddressSpace ram roots s k p) (same : Unmoved ram roots s t)
    {frame flags : U64} (found : translate t p.pgtbl va = some (frame, flags)) (user : PteHas flags pteU) :
    va / pgsize ∈ userPages p ∧ frame = pteToPa (s.leaf (s.rootFor p.pgtbl) (va / pgsize)) := by
  have root : t.rootFor p.pgtbl = s.rootFor p.pgtbl := by
    rw [Machine.rootFor, Machine.rootFor, same.kernel]
  by_cases low : va < vaMax
  · rw [translate_eq low, root, same.leaf _ space.live, decode] at found
    split at found
    case isTrue valid =>
      obtain ⟨rfl, rfl⟩ := Prod.mk.inj (Option.some.inj found)
      rw [pteHas_pteFlags _ (by decide)] at user
      have within : va / pgsize ∈ userWindow := by_contra fun outside => space.outer _ outside user
      exact ⟨(space.space.mapped _ within).mp valid, rfl⟩
    case isFalse => cases found
  · rw [translate_high (Nat.le_of_not_lt low)] at found
    cases found

private theorem AddressSpace.write (space : AddressSpace ram roots s k p) (same : Unmoved ram roots s t)
    (write : userWrite p.pgtbl va b t = some u) : Unmoved ram roots s u ∧
      ∃ v ∈ userPages p, ∃ page, u = t.setPage (pteToPa (s.leaf (s.rootFor p.pgtbl) v)) page := by
  obtain ⟨⟨frame, flags⟩, found, stored⟩ := Option.bind_eq_some_iff.mp write
  simp only at stored
  split at stored
  case isTrue bits =>
    obtain rfl := Option.some.inj stored
    obtain ⟨inside, rfl⟩ := space.reached same found bits.1
    refine ⟨?_, _, inside, _, rfl⟩
    have shows := same.tables.setPage (space.space.frame _ inside)
      (Function.update (t.pages (pteToPa (s.leaf (s.rootFor p.pgtbl) (va / pgsize)))) (va % pgsize) b)
    refine ⟨shows.tables, same.kernel, fun r live v => ?_⟩
    rw [shows.leaf live, ← same.leaf r live, ← @view_leaf t ram roots r live]
    rfl
  case isFalse => cases stored

/-- What one process writes another one does not see. -/
theorem AddressSpace.unseen (writer : AddressSpace ram roots s k p)
    (reader : AddressSpace ram roots s c q) (apart : ∀ v ∈ userPages p, ∀ v' ∈ userPages q,
      pteToPa (s.leaf (s.rootFor p.pgtbl) v) ≠ pteToPa (s.leaf (s.rootFor q.pgtbl) v'))
    (same : Unmoved ram roots s t) (write : userWrite p.pgtbl va b t = some u) (x : ℕ) :
    userRead u q.pgtbl x = userRead t q.pgtbl x := by
  obtain ⟨same', v, inside, page, rfl⟩ := writer.write same write
  have root : t.rootFor q.pgtbl = s.rootFor q.pgtbl := by
    rw [Machine.rootFor, Machine.rootFor, same.kernel]
  have equal : translate (t.setPage (pteToPa (s.leaf (s.rootFor p.pgtbl) v)) page) q.pgtbl x =
      translate t q.pgtbl x := by
    by_cases low : x < vaMax
    · rw [translate_eq low, translate_eq low, same.leaf _ (root ▸ reader.live)]
      exact congrArg decode (root ▸ same'.leaf _ (root ▸ reader.live) _)
    · rw [translate_high (Nat.le_of_not_lt low), translate_high (Nat.le_of_not_lt low)]
  rw [userRead, userRead, equal]
  cases found : translate t q.pgtbl x with
  | none => rfl
  | some entry =>
    obtain ⟨frame, flags⟩ := entry
    simp only [Option.bind_some]
    split
    case isTrue user =>
      obtain ⟨inside', rfl⟩ := reader.reached same found user
      have other := Function.update_of_ne (apart v inside _ inside').symm page t.pages
      exact congrArg (fun stored : Bytes => some (stored (x % pgsize))) other
    case isFalse => rfl

end

/-- A fork gives an equal address space in frames and nodes of its own, and after any stores of both
processes, no store of one changes what the other one reads. -/
theorem fork_independent (space : AddressSpace ram roots s k p) (sane : ram.Sane) (code : U64) :
    Ends (procFork code k) s (fun r s' => match r with
      | none => s' = s
      | some c => ∃ q, Forked ram roots s k p c q s' ∧ ∀ writes t, Run (FamilyWrite p q) s' writes t →
        ∀ va b u x, (userWrite p.pgtbl va b t = some u → userRead u q.pgtbl x = userRead t q.pgtbl x) ∧
          (userWrite q.pgtbl va b t = some u → userRead u p.pgtbl x = userRead t p.pgtbl x)) Panics := by
  refine (procFork_ends space sane code).mono ?_
  rintro (_ | c) s' after
  · exact after
  · obtain ⟨q, fork⟩ := after
    have pages : userPages q = userPages p := by
      have regions : {v | Covers q.mmap v} = {v | Covers p.mmap v} :=
        Set.ext (extents_same fork.extents).1
      rw [userPages, userPages, regions, fork.heapTop, fork.ustackNpage]
    refine ⟨q, fork, fun writes t run va b u x => ?_⟩
    have same : Unmoved ram (insert q.pgtbl roots) s' t := by
      refine run.invariant (P := Unmoved ram (insert q.pgtbl roots) s') ?_
        ⟨fork.parent.tables, rfl, fun _ _ _ => rfl⟩
      rintro t ⟨table, va, b⟩ u ⟨one, stored⟩ before
      rcases one with one | one <;> simp only at one stored <;> subst one
      · exact (fork.parent.write before stored).1
      · exact (fork.child.write before stored).1
    refine ⟨fun write => fork.parent.unseen fork.child (fun v inside v' inside' => ?_) same write x,
      fun write => fork.child.unseen fork.parent (fun v inside v' inside' => ?_) same write x⟩
    · exact (fork.apart v' (pages ▸ inside') v inside).symm
    · exact fork.apart v (pages ▸ inside) v' inside'

/-- A process with a page of code, one of heap and a mapped one -/
def forkProc : ProcMem := ⟨0x80200000, 0, 0x3000, 0, [⟨0, 0x3ffb000000, 1⟩], .running, none, 0⟩

/-- The process, whose pages are yet to be mapped, and a free place for a child -/
def forkMachine : Machine where
  pages _ _ := 0
  kernelPool := [0x80201000, 0x80202000, 0x80203000, 0x80204000, 0x80205000, 0x80206000, 0x80207000,
    0x80208000, 0x80209000, 0x8020a000, 0x8020b000, 0x8020c000]
  userPool := [0x87003000, 0x87004000, 0x87005000]
  freeRegions := [1]
  kernPagetable := 0x80200000
  proc i := if i = 0 then some forkProc else some ⟨0, 0, 0, 0, [], .unused, none, 0⟩

def forkSetup : MemM Unit := do
  vmMappages 0x80200000 0x1000 0x87000000 pgsize 0x1e
  vmMappages 0x80200000 0x2000 0x87001000 pgsize 0x1e
  vmMappages 0x80200000 0x3ffb000000 0x87002000 pgsize 0x1e

/-- The pages of the process after the setup -/
structure ForkReady (s : Machine) : Prop where
  tables : s.Tables ⟨0x80200000⟩ {0x80200000}
  leaf : ∀ v, s.leaf 0x80200000 v =
    if v = 0x3ffb000 then paToPte 0x87002000 ||| permFlags 0x1e
    else if v = 2 then paToPte 0x87001000 ||| permFlags 0x1e
    else if v = 1 then paToPte 0x87000000 ||| permFlags 0x1e else 0
  userPool : s.userPool = [0x87003000, 0x87004000, 0x87005000]
  freeRegions : s.freeRegions = [1]
  proc : s.proc 0 = some forkProc

private theorem forkMachine_tables : forkMachine.Tables ⟨0x80200000⟩ {0x80200000} := by
  refine tables_zero rfl ?_ ?_ (by decide +kernel) (by decide +kernel) (by decide +kernel)
  · simp only [forkMachine, List.forall_mem_cons]
    exact ⟨by decide +kernel, by decide +kernel, by decide +kernel, List.forall_mem_nil _⟩
  · simp only [forkMachine, List.forall_mem_cons]
    exact ⟨by decide +kernel, by decide +kernel, by decide +kernel, by decide +kernel, by decide +kernel,
      by decide +kernel, by decide +kernel, by decide +kernel, by decide +kernel, by decide +kernel,
      by decide +kernel, by decide +kernel, List.forall_mem_nil _⟩

private theorem forkSetup_ends : Ends forkSetup forkMachine (fun _ s => ForkReady s) KernelExhausted := by
  have live : (0x80200000 : U64) ∈ ({0x80200000} : Set U64) := rfl
  have root (s : Machine) : s.rootFor 0x80200000 = 0x80200000 := if_neg (by decide)
  have empty (v : ℕ) : forkMachine.leaf 0x80200000 v = 0 := entry_zero rfl ..
  rw [forkSetup, Ends.bind_iff]
  refine (vmMappages_page forkMachine_tables (by rw [root]; exact live) (by decide) (by decide) (by decide)).mono ?_
  rintro _ s₁ one
  rw [Ends.bind_iff]
  refine (vmMappages_page one.tables (by rw [root]; exact live) (by decide) (by decide) (by decide)).mono ?_
  rintro _ s₂ two
  refine (vmMappages_page two.tables (by rw [root]; exact live) (by decide) (by decide) (by decide)).mono ?_
  rintro _ s₃ three
  rw [root] at one two three
  refine ⟨three.tables, fun v => ?_, ?_, ?_, ?_⟩
  · simp only [three.leaf live, two.leaf live, one.leaf live, View.setLeaf, view_leaf live, empty, pgsize_eq,
      Nat.reduceDiv, true_and]
  · exact (congrArg View.userPool three.view).trans
      ((congrArg View.userPool two.view).trans (congrArg View.userPool one.view))
  · exact (congrArg View.freeRegions three.view).trans
      ((congrArg View.freeRegions two.view).trans (congrArg View.freeRegions one.view))
  · exact (congrFun (congrArg View.proc three.view) 0).trans
      ((congrFun (congrArg View.proc two.view) 0).trans (congrFun (congrArg View.proc one.view) 0))

private theorem forkProc_pages : userPages forkProc = {1, 2, 0x3ffb000} := by
  ext v
  have heap : alignUp 0x3000 = 0x3000 := by decide +kernel
  have covers : Covers forkProc.mmap v ↔ v = 0x3ffb000 := by
    simp only [Covers, forkProc, List.mem_singleton, exists_eq_left, Region.finish, pgsize_eq]
    omega
  simp only [userPages, forkProc] at covers ⊢
  simp only [heap, Set.mem_union, mem_pagesIn, Set.mem_ofPred_eq, covers, Set.mem_insert_iff,
    Set.mem_singleton_iff, userBase_eq, trapframe_eq, pgsize_eq]
  omega

theorem forkMachine_space : ∃ s, forkSetup forkMachine = .ok () s ∧
    AddressSpace ⟨0x80200000⟩ {0x80200000} s 0 forkProc := by
  obtain ⟨_, s, result, -⟩ := ok_of_returnsWith (x := forkSetup) (s := forkMachine) (b := fun _ _ => true)
    (by decide +kernel)
  have ready := forkSetup_ends
  simp only [Ends, result] at ready
  have live : (0x80200000 : U64) ∈ ({0x80200000} : Set U64) := rfl
  have root : s.rootFor forkProc.pgtbl = 0x80200000 := if_neg (by decide)
  have three {P : ℕ → Prop} : (∀ v ∈ ({1, 2, 0x3ffb000} : Set ℕ), P v) ↔ P 1 ∧ P 2 ∧ P 0x3ffb000 := by simp
  refine ⟨s, result, ready.proc, by decide, ready.tables, root.symm ▸ live, ?_, fun v outside => ?_, by decide, ?_, ?_⟩
  · rw [root, forkProc_pages]
    refine ⟨three.mpr ⟨?_, ?_, ?_⟩, fun v _ => ?_, three.mpr ?_, three.mpr ?_, three.mpr ?_, ?_, ?_⟩
    · exact show 1 * pgsize < trapframe by decide
    · exact show 2 * pgsize < trapframe by decide
    · exact show 0x3ffb000 * pgsize < trapframe by decide
    · rw [ready.leaf]
      split_ifs with region heap code
      · exact iff_of_true (permFlags_valid _ _) (by simp [region])
      · exact iff_of_true (permFlags_valid _ _) (by simp [heap])
      · exact iff_of_true (permFlags_valid _ _) (by simp [code])
      · exact iff_of_false (not_pteHas_zero pteV) (by simp [region, heap, code])
    · simp only [ready.leaf]
      decide
    · simp only [ready.leaf]
      decide +kernel
    · simp only [ready.leaf, ready.userPool]
      decide
    · intro v inside w inside'
      simp only [Set.mem_insert_iff, Set.mem_singleton_iff] at inside inside'
      simp only [ready.leaf]
      rcases inside with rfl | rfl | rfl <;> rcases inside' with rfl | rfl | rfl <;> decide
    · rw [ready.userPool]
      decide
  · have low : v ≠ 1 ∧ v ≠ 2 ∧ v ≠ 0x3ffb000 := by
      simp only [userWindow, Set.mem_ofPred_eq, trapframe_eq, pgsize_eq] at outside
      omega
    rw [root, ready.leaf, if_neg low.2.2, if_neg low.2.1, if_neg low.1]
    exact not_pteHas_zero pteU
  · exact intervalSet_cons.mpr ⟨⟨by decide, by decide, by decide, by decide⟩, List.forall_mem_nil _, intervalSet_nil⟩
  · rw [nodes, ready.freeRegions]
    decide

set_option maxRecDepth 30000 in
/-- The child has a copy of every page, and what it writes to the mapped page the parent does not see. -/
theorem fork_independent_pages : ∃ s q s' t u, AddressSpace ⟨0x80200000⟩ {0x80200000} s 0 forkProc ∧
    procFork 0x80000000 0 s = .ok (some 1) s' ∧ Forked ⟨0x80200000⟩ {0x80200000} s 0 forkProc 1 q s' ∧
    userWrite forkProc.pgtbl 0x3ffb000000 7 s' = some t ∧ userWrite q.pgtbl 0x3ffb000000 9 t = some u ∧
    userRead u forkProc.pgtbl 0x3ffb000000 = some 7 := by
  obtain ⟨s, mapped, space⟩ := forkMachine_space
  have returns : returnsWith forkSetup forkMachine (fun _ s => returnsWith (procFork 0x80000000 0) s fun r s' =>
      decide (r = some 1) && (s'.proc 1).any fun q : ProcMem => (userWrite forkProc.pgtbl 0x3ffb000000 7 s').any
        fun t => decide (userRead t forkProc.pgtbl 0x3ffb000000 = some 7) &&
          (userWrite q.pgtbl 0x3ffb000000 9 t).isSome) = true := by decide +kernel
  rw [returnsWith, mapped] at returns
  obtain ⟨r, s', result, returns⟩ := ok_of_returnsWith returns
  obtain ⟨child, returns⟩ := Bool.and_eq_true_iff.mp returns
  obtain rfl := of_decide_eq_true child
  obtain ⟨q', proc, returns⟩ := (Option.any_eq_true ..).mp returns
  obtain ⟨t, first, returns⟩ := (Option.any_eq_true ..).mp returns
  obtain ⟨read, writes⟩ := Bool.and_eq_true_iff.mp returns
  obtain ⟨u, second⟩ := Option.isSome_iff_exists.mp writes
  have ends := fork_independent space ⟨by decide, by decide, by decide⟩ 0x80000000
  simp only [Ends, result] at ends
  obtain ⟨q, fork, apart⟩ := ends
  obtain rfl : q' = q := Option.some.inj (proc.symm.trans fork.child.proc)
  have wrote : FamilyWrite forkProc q' s' (forkProc.pgtbl, 0x3ffb000000, 7) t := ⟨.inl rfl, first⟩
  have unseen := (apart _ t (.cons wrote (.nil t)) 0x3ffb000000 9 u 0x3ffb000000).2 second
  exact ⟨s, q', s', t, u, space, result, fork, first, second, unseen.trans (of_decide_eq_true read)⟩

end LabKernel
