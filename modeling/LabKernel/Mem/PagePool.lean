import LabKernel.Lib.FreeList
import LabKernel.Lib.Transition
import LabKernel.Mem.Vm

/-! # The two pools of pages

`pmem.c` as it is in memory: the pages that are free are chained through their first word, and each pool
counts them. Whoever holds a page may write to it. `Mem/Machine` has the same functions on lists of free
pages, without the words of the chain and the counters.
-/

namespace LabKernel

/-- `alloc_region_t`, without its lock; `next` is that of `list_head`. -/
structure AllocRegion where
  begin : ℕ
  stop : ℕ
  allocable : U32
  next : U64

/-- Memory by pages, `kernel_pool` and `user_pool` -/
structure PagePools where
  pages : U64 → Bytes
  kernelPool : AllocRegion
  userPool : AllocRegion

abbrev PoolM := EStateM Fault PagePools

namespace PagePools

def pool (s : PagePools) : (inKernel : Bool) → AllocRegion
  | true => s.kernelPool
  | false => s.userPool

def setPool (s : PagePools) (r : AllocRegion) : (inKernel : Bool) → PagePools
  | true => { s with kernelPool := r }
  | false => { s with userPool := r }

def setPage (s : PagePools) (a : U64) (page : Bytes) : PagePools :=
  { s with pages := Function.update s.pages a page }

/-- A page is put in front of the chain. -/
def pushNode (s : PagePools) (inKernel : Bool) (node : U64) : PagePools :=
  (s.setPage node ((s.pages node).setU64 0 (s.pool inKernel).next)).setPool
    { s.pool inKernel with next := node, allocable := (s.pool inKernel).allocable + 1 } inKernel

/-- The loop of `init_pool` -/
def initPoolLoop (inKernel : Bool) (stop : ℕ) : (fuel addr : ℕ) → PoolM Unit
  | 0, _ => throw .hang
  | fuel + 1, addr =>
    if addr < stop then do
      modify (·.pushNode inKernel (BitVec.ofNat 64 addr))
      initPoolLoop inKernel stop fuel (wrap64 (addr + pgsize))
    else return ()

def initPool (inKernel : Bool) (start stop : ℕ) : PoolM Unit := do
  modify (·.setPool ⟨start, stop, 0, 0⟩ inKernel)
  initPoolLoop inKernel stop (stop / pgsize + 2) start

def pmemInit (ram : Ram) : PoolM Unit := do
  if ram.allocBegin % pgsize ≠ 0 ∨ Ram.allocEnd % pgsize ≠ 0 then
    throw (.panic "pmem_init: memory address not aligned")
  if Ram.allocEnd < ram.kernelPoolEnd then throw (.panic "pmem_init: not enough memory")
  initPool true ram.allocBegin ram.kernelPoolEnd
  initPool false ram.kernelPoolEnd Ram.allocEnd

def pmemAlloc (inKernel : Bool) : PoolM U64 := do
  let s ← get
  let pool := s.pool inKernel
  let node := pool.next
  if node ≠ 0 then
    let rest := { pool with next := (s.pages node).u64 0, allocable := pool.allocable - 1 }
    set ((s.setPool rest inKernel).setPage node fun _ => 0)
    return node
  else
    throw (.panic (if inKernel then "pmem_alloc: kernel memory exhausted" else "pmem_alloc: user memory exhausted"))

def pmemFree (page : U64) (inKernel : Bool) : PoolM Unit := do
  let pool := (← get).pool inKernel
  if page.toNat % pgsize ≠ 0 then throw (.panic "pmem_free: address not page aligned")
  if page.toNat < pool.begin ∨ pool.stop ≤ page.toNat then throw (.panic "pmem_free: address out of range")
  modify (·.pushNode inKernel page)

/-- `pmem_stat`, with places for both results -/
def pmemStat : PoolM (U32 × U32) := do
  let s ← get
  return (s.kernelPool.allocable, s.userPool.allocable)

def chain (s : PagePools) (inKernel : Bool) : FreeList U64 :=
  ⟨(s.pool inKernel).next, fun a => (s.pages a).u64 0⟩

variable (s : PagePools) (r : AllocRegion) (k : Bool) (a : U64) (page : Bytes)

@[simp] theorem setPage_pool : (s.setPage a page).pool k = s.pool k := by cases k <;> rfl
@[simp] theorem setPool_same : (s.setPool r k).pool k = r := by cases k <;> rfl
@[simp] theorem setPool_pages : (s.setPool r k).pages = s.pages := by cases k <;> rfl
@[simp] theorem setPage_pages : (s.setPage a page).pages = Function.update s.pages a page := rfl

private theorem setPool_other {k' : Bool} (other : k' ≠ k) : (s.setPool r k).pool k' = s.pool k' := by
  cases k <;> cases k' <;> first | rfl | exact absurd rfl other

/-- A page that is put in front becomes the head, and its first word the link. -/
theorem pushNode_chain : (s.pushNode k a).chain k = (s.chain k).push a := by
  simp only [pushNode, chain, setPool_same, setPool_pages, setPage_pages, FreeList.push, FreeList.mk.injEq,
    true_and]
  funext b
  by_cases here : b = a
  · rw [here, Function.update_self, Function.update_self, Bytes.u64_setU64_same]
  · rw [Function.update_of_ne here, Function.update_of_ne here]

end PagePools

/-! ## The pages of a pool -/

namespace Ram

def poolBegin (ram : Ram) : (inKernel : Bool) → ℕ
  | true => ram.allocBegin
  | false => ram.kernelPoolEnd

def poolStop (ram : Ram) : (inKernel : Bool) → ℕ
  | true => ram.kernelPoolEnd
  | false => allocEnd

/-- `n` pages from an address on -/
def pagesFrom (addr n : ℕ) : List U64 := (List.range n).map fun i => BitVec.ofNat 64 (addr + i * pgsize)

private theorem pagesFrom_succ (addr n : ℕ) :
    pagesFrom addr (n + 1) = BitVec.ofNat 64 addr :: pagesFrom (addr + pgsize) n := by
  simp only [pagesFrom, List.range_succ_eq_map, List.map_cons, List.map_map, Nat.zero_mul, Nat.add_zero]
  congr 1
  apply List.map_congr_left
  intro i _
  simp only [Function.comp_apply, Nat.succ_eq_add_one, Nat.add_mul, Nat.one_mul]
  congr 1
  omega

/-- The pages of a pool in the order of `init_pool` -/
def poolPages (ram : Ram) (inKernel : Bool) : List U64 :=
  pagesFrom (ram.poolBegin inKernel) ((ram.poolStop inKernel - ram.poolBegin inKernel) / pgsize)

variable {ram : Ram} {a : U64} {k : Bool}

theorem Sane.pool_aligned (sane : ram.Sane) (k : Bool) :
    ram.poolBegin k % pgsize = 0 ∧ ram.poolStop k % pgsize = 0 := by
  have aligned := sane.aligned
  have between : ram.kernelPoolEnd % pgsize = 0 := by
    simp only [kernelPoolEnd, kernPages, pgsize_eq] at aligned ⊢
    omega
  have top : allocEnd % pgsize = 0 := by decide
  cases k
  · exact ⟨between, top⟩
  · exact ⟨aligned, between⟩

theorem Sane.pool_bounds (sane : ram.Sane) (k : Bool) :
    kernelBase ≤ ram.poolBegin k ∧ ram.poolBegin k ≤ ram.poolStop k ∧ ram.poolStop k ≤ allocEnd := by
  have low := sane.behindKernel
  have high := sane.enough
  cases k <;> simp only [poolBegin, poolStop] <;> simp only [kernelPoolEnd] at high ⊢ <;> omega

theorem Sane.mem_poolPages (sane : ram.Sane) :
    a ∈ ram.poolPages k ↔ PageIn (ram.poolBegin k) (ram.poolStop k) a := by
  obtain ⟨begin_, stop⟩ := sane.pool_aligned k
  obtain ⟨-, order, high⟩ := sane.pool_bounds k
  rw [allocEnd_eq] at high
  simp only [poolPages, pagesFrom, List.mem_map, List.mem_range]
  constructor
  · rintro ⟨i, bound, rfl⟩
    have value : (BitVec.ofNat 64 (ram.poolBegin k + i * pgsize)).toNat = ram.poolBegin k + i * pgsize := by
      rw [BitVec.toNat_ofNat]
      simp only [pgsize_eq] at bound ⊢
      omega
    constructor <;> rw [value] <;> simp only [pgsize_eq] at * <;> omega
  · intro frame
    have aligned := frame.aligned
    have low := frame.low_le
    have below := frame.lt_high
    refine ⟨(a.toNat - ram.poolBegin k) / pgsize, ?_, ?_⟩
    · simp only [pgsize_eq] at *
      omega
    · apply BitVec.eq_of_toNat_eq
      rw [BitVec.toNat_ofNat]
      simp only [pgsize_eq] at *
      omega

theorem Sane.poolPages_nodup (sane : ram.Sane) (k : Bool) : (ram.poolPages k).Nodup := by
  obtain ⟨-, order, high⟩ := sane.pool_bounds k
  rw [allocEnd_eq] at high
  apply List.Nodup.map_on _ List.nodup_range
  intro i bound j bound' same
  have number := congrArg BitVec.toNat same
  rw [List.mem_range] at bound bound'
  simp only [BitVec.toNat_ofNat, pgsize_eq] at number bound bound'
  omega

private theorem Sane.poolPages_length (sane : ram.Sane) (k : Bool) : (ram.poolPages k).length < 2 ^ 16 := by
  obtain ⟨low, -, high⟩ := sane.pool_bounds k
  rw [allocEnd_eq] at high
  simp only [kernelBase] at low
  simp only [poolPages, pagesFrom, List.length_map, List.length_range, pgsize_eq]
  omega

/-- There is no page at address 0. -/
theorem Sane.null_notMem (sane : ram.Sane) (k : Bool) : (0 : U64) ∉ ram.poolPages k := by
  intro within
  have low := (sane.mem_poolPages.mp within).low_le
  have base := (sane.pool_bounds k).1
  rw [show (0 : U64).toNat = 0 from rfl] at low
  simp only [kernelBase] at base
  omega

/-- The pools have no page in common. -/
theorem Sane.pools_apart (sane : ram.Sane) {k' : Bool} (within : a ∈ ram.poolPages k)
    (within' : a ∈ ram.poolPages k') : k = k' := by
  have first := sane.mem_poolPages.mp within
  have second := sane.mem_poolPages.mp within'
  have low := first.low_le
  have high := first.lt_high
  have low' := second.low_le
  have high' := second.lt_high
  cases k <;> cases k' <;> simp only [poolBegin, poolStop] at low high low' high' <;> first | rfl | omega

end Ram

/-! ## Sound pools -/

namespace PagePools

variable {ram : Ram} {s s' : PagePools} {held : List U64} {a : U64} {k : Bool}

/-- The chain and the pages that are held are the pages of the pool, and the chain is counted. -/
structure Sound (ram : Ram) (s : PagePools) (k : Bool) (held : List U64) : Prop where
  begin : (s.pool k).begin = ram.poolBegin k
  stop : (s.pool k).stop = ram.poolStop k
  exact : (s.chain k).Exact 0 held (ram.poolPages k)
  count : (s.pool k).allocable.toNat + held.length = (ram.poolPages k).length

/-- The steps of the other pool, and writes to pages in use, keep a pool sound. -/
theorem Sound.keep (sound : s.Sound ram k held) (sane : ram.Sane) (pool : s'.pool k = s.pool k)
    (same : ∀ b ∈ ram.poolPages k, b ∉ held → s'.pages b = s.pages b) : s'.Sound ram k held := by
  refine ⟨by rw [pool, sound.begin], by rw [pool, sound.stop], ?_, by rw [pool, sound.count]⟩
  rw [chain, pool]
  apply sound.exact.write (sane.poolPages_nodup k)
  intro b within free
  simp only [chain, same b within free]

/-! ### At the start -/

/-- The loop of `init_pool` pushes its pages one after another. -/
theorem initPoolLoop_ends {stop n fuel addr : ℕ} (reach : stop = addr + n * pgsize) (small : stop < 2 ^ 63)
    (enough : n < fuel) :
    Yields (initPoolLoop k stop fuel addr) s fun _ s' =>
      s'.chain k = (Ram.pagesFrom addr n).foldl FreeList.push (s.chain k) ∧
      (s'.pool k).begin = (s.pool k).begin ∧ (s'.pool k).stop = (s.pool k).stop ∧
      (s'.pool k).allocable = (s.pool k).allocable + BitVec.ofNat 32 n ∧
      (∀ k' ≠ k, s'.pool k' = s.pool k') ∧ ∀ b ∉ Ram.pagesFrom addr n, s'.pages b = s.pages b := by
  induction n generalizing s fuel addr with
  | zero =>
    obtain ⟨fuel, rfl⟩ := Nat.exists_eq_succ_of_ne_zero (Nat.ne_of_gt enough)
    rw [initPoolLoop, if_neg (by omega)]
    exact ⟨rfl, rfl, rfl, (BitVec.add_zero _).symm, fun _ _ => rfl, fun _ _ => rfl⟩
  | succ n ih =>
    obtain ⟨fuel, rfl⟩ := Nat.exists_eq_succ_of_ne_zero (Nat.ne_of_gt (Nat.zero_lt_of_lt enough))
    rw [initPoolLoop, if_pos (by simp only [pgsize_eq] at reach; omega)]
    apply Ends.bind_iff.mpr
    apply Ends.modify_iff.mpr
    have next : wrap64 (addr + pgsize) = addr + pgsize := by
      apply wrap64_of_lt
      simp only [pgsize_eq] at reach ⊢
      omega
    rw [next]
    apply (ih (by rw [reach, Nat.add_mul]; omega) (by omega)).mono
    rintro _ s' ⟨chained, begin_, stop, count, pools, pages⟩
    rw [pushNode_chain] at chained
    simp only [pushNode, setPool_same] at begin_ stop count
    rw [Ram.pagesFrom_succ]
    refine ⟨chained, begin_, stop, ?_, fun k' other => ?_, fun b apart => ?_⟩
    · rw [count, BitVec.add_assoc, show n + 1 = 1 + n from Nat.add_comm n 1, BitVec.ofNat_add]
      rfl
    · rw [pools k' other, pushNode, setPool_other _ _ _ other, setPage_pool]
    · obtain ⟨differ, apart⟩ := not_or.mp (List.mem_cons.not.mp apart)
      rw [pages b apart, pushNode, setPool_pages, setPage_pages, Function.update_of_ne differ]

/-- `init_pool` leaves all pages of the pool in its chain, the last one in front. -/
theorem initPool_ends (sane : ram.Sane) :
    Yields (initPool k (ram.poolBegin k) (ram.poolStop k)) s fun _ s' =>
      FreeList.Chained (s'.chain k).link 0 (s'.chain k).head (ram.poolPages k).reverse ∧ s'.Sound ram k [] ∧
      (∀ k' ≠ k, s'.pool k' = s.pool k') ∧ ∀ b ∉ ram.poolPages k, s'.pages b = s.pages b := by
  obtain ⟨aligned, aligned'⟩ := sane.pool_aligned k
  obtain ⟨-, order, high⟩ := sane.pool_bounds k
  rw [Ram.allocEnd_eq] at high
  rw [initPool]
  apply Ends.bind_iff.mpr
  apply Ends.modify_iff.mpr
  have loop := @initPoolLoop_ends (s.setPool ⟨ram.poolBegin k, ram.poolStop k, 0, 0⟩ k) k (ram.poolStop k)
    ((ram.poolStop k - ram.poolBegin k) / pgsize) (ram.poolStop k / pgsize + 2) (ram.poolBegin k)
    (by simp only [pgsize_eq] at *; omega) (by omega) (by simp only [pgsize_eq]; omega)
  apply loop.mono
  rintro _ s' ⟨chained, begin_, stop, count, pools, pages⟩
  rw [setPool_same] at begin_ stop count
  have start : FreeList.Chained ((s.setPool ⟨ram.poolBegin k, ram.poolStop k, 0, 0⟩ k).chain k).link 0
      ((s.setPool ⟨ram.poolBegin k, ram.poolStop k, 0, 0⟩ k).chain k).head [] := by
    rw [chain, setPool_same]
    rfl
  have nodup : (ram.poolPages k ++ []).Nodup := (List.append_nil _).symm ▸ sane.poolPages_nodup k
  have full := start.pushes nodup (sane.null_notMem k)
  rw [List.append_nil, Ram.poolPages, ← chained] at full
  refine ⟨full, ⟨begin_, stop, ⟨_, full, ?_⟩, ?_⟩, fun k' other => ?_, fun b apart => ?_⟩
  · rw [List.append_nil]
    exact List.reverse_perm _
  · have small := sane.poolPages_length k
    simp only [Ram.poolPages, Ram.pagesFrom, List.length_map, List.length_range] at small ⊢
    rw [count, BitVec.toNat_add, BitVec.toNat_ofNat, List.length_nil]
    generalize (ram.poolStop k - ram.poolBegin k) / pgsize = n at small ⊢
    change (0 + n % 2 ^ 32) % 2 ^ 32 + 0 = n
    omega
  · rw [pools k' other, setPool_other _ _ _ other]
  · rw [pages b apart, setPool_pages]

-- its fuel is a numeral for the user's pool
attribute [local irreducible] initPoolLoop

/-- `pmem_init` leaves all pages of both pools in their chains. -/
theorem pmemInit_ends (sane : ram.Sane) : Yields (pmemInit ram) s fun _ s' =>
    (∀ k, FreeList.Chained (s'.chain k).link 0 (s'.chain k).head (ram.poolPages k).reverse ∧ s'.Sound ram k []) ∧
      ∀ b, (∀ k, b ∉ ram.poolPages k) → s'.pages b = s.pages b := by
  have low := sane.aligned
  have top : Ram.allocEnd % pgsize = 0 := (sane.pool_aligned false).2
  rw [pmemInit, if_neg (not_or.mpr ⟨not_not.mpr low, not_not.mpr top⟩), if_neg (Nat.not_lt.mpr sane.enough)]
  apply Ends.bind_iff.mpr
  apply (initPool_ends (k := true) sane).mono
  rintro _ s₁ ⟨kernel, sound, -, before⟩
  apply (initPool_ends (k := false) sane).mono
  rintro _ s₂ ⟨user, sound', pools, pages⟩
  have same : s₂.pool true = s₁.pool true := pools true (by decide)
  have spared (b : U64) (within : b ∈ ram.poolPages true) : s₂.pages b = s₁.pages b :=
    pages b fun other => Bool.noConfusion (sane.pools_apart within other)
  refine ⟨fun k => ?_, fun b apart => (pages b (apart false)).trans (before b (apart true))⟩
  cases k
  · exact ⟨user, sound'⟩
  · refine ⟨?_, sound.keep sane same fun b within _ => spared b within⟩
    rw [chain, same]
    apply FreeList.chained_congr _ kernel
    intro b within
    simp only [chain, spared b (List.mem_reverse.mp within)]

/-! ### Steps -/

/-- A page that is given out -/
structure Given (ram : Ram) (s : PagePools) (k : Bool) (held : List U64) (a : U64) (s' : PagePools) : Prop where
  page : a ∈ ram.poolPages k
  fresh : a ∉ held
  zero : s'.pages a = fun _ => 0
  other : ∀ b ≠ a, s'.pages b = s.pages b
  pools : ∀ k' ≠ k, s'.pool k' = s.pool k'
  sound : s'.Sound ram k (a :: held)

/-- The panic of `pmem_alloc` -/
def Exhausts : (inKernel : Bool) → Fault → Prop
  | true => KernelExhausted
  | false => UserExhausted

/-- `pmem_alloc` gives a page that nobody holds, and fails only when all are held. -/
theorem Sound.pmemAlloc (sound : s.Sound ram k held) (sane : ram.Sane) :
    Ends (pmemAlloc k) s (fun a s' => Given ram s k held a s')
      fun f => held.length = (ram.poolPages k).length ∧ Exhausts k f := by
  rw [PagePools.pmemAlloc, Ends.bind_iff, Ends.get_iff]
  apply Ends.ite
  · intro some
    obtain ⟨within, fresh, rest⟩ := sound.exact.pop (sane.poolPages_nodup k) some
    have room : held.length < (ram.poolPages k).length := by
      have count := sound.count
      have free := sound.exact.null_iff.not.mp some
      omega
    rw [Ends.bind_iff, Ends.set_iff, Ends.pure_iff]
    refine ⟨within, fresh, Function.update_self .., fun b other => ?_, fun k' other => ?_, ?_⟩
    · rw [setPage_pages, setPool_pages, Function.update_of_ne other]
    · rw [setPage_pool, setPool_other _ _ _ other]
    · constructor
      · rw [setPage_pool, setPool_same, sound.begin]
      · rw [setPage_pool, setPool_same, sound.stop]
      · rw [chain, setPage_pool, setPool_same]
        apply rest.write (sane.poolPages_nodup k)
        intro b _ free
        have other : b ≠ (s.pool k).next := fun same => free (same ▸ List.mem_cons_self)
        rw [setPage_pages, setPool_pages, Function.update_of_ne other]
        rfl
      · have count := sound.count
        rw [setPage_pool, setPool_same, List.length_cons]
        simp only [BitVec.toNat_sub]
        have := (s.pool k).allocable.isLt
        rw [show (1 : U32).toNat = 1 from rfl]
        omega
  · intro none
    rw [Ends.throw_iff]
    refine ⟨sound.exact.null_iff.mp (not_not.mp none), ?_⟩
    cases k <;> rfl

/-- The checks of `pmem_free` let the pages of the pool pass. -/
theorem Sound.free_eq (sound : s.Sound ram k held) (sane : ram.Sane) (within : a ∈ ram.poolPages k) :
    pmemFree a k s = .ok () (s.pushNode k a) := by
  have frame := sane.mem_poolPages.mp within
  have inside : ¬(a.toNat < (s.pool k).begin ∨ (s.pool k).stop ≤ a.toNat) := by
    rw [sound.begin, sound.stop]
    exact not_or.mpr ⟨Nat.not_lt.mpr frame.low_le, Nat.not_le.mpr frame.lt_high⟩
  simp only [pmemFree, bind, EStateM.bind, get, getThe, MonadStateOf.get, EStateM.get,
    if_neg (not_not.mpr frame.aligned), if_neg inside]
  rfl

/-- A page that is held can be given back. -/
theorem Sound.pmemFree (sound : s.Sound ram k held) (sane : ram.Sane) (holds : a ∈ held) :
    Yields (pmemFree a k) s fun _ s' => (∀ b ≠ a, s'.pages b = s.pages b) ∧
      (∀ k' ≠ k, s'.pool k' = s.pool k') ∧ s'.Sound ram k (held.erase a) := by
  rw [Yields, Ends, sound.free_eq sane (sound.exact.held_subset holds)]
  refine ⟨fun b other => ?_, fun k' other => ?_, ?_⟩
  · rw [pushNode, setPool_pages, setPage_pages, Function.update_of_ne other]
  · rw [pushNode, setPool_other _ _ _ other, setPage_pool]
  · constructor
    · rw [pushNode, setPool_same, sound.begin]
    · rw [pushNode, setPool_same, sound.stop]
    · rw [pushNode_chain]
      exact sound.exact.push (sane.poolPages_nodup k) (sane.null_notMem k) holds
    · have count := sound.count
      have some := List.length_pos_of_mem holds
      have small := sane.poolPages_length k
      rw [pushNode, setPool_same, List.length_erase_of_mem holds]
      simp only [BitVec.toNat_add]
      rw [show (1 : U32).toNat = 1 from rfl]
      omega

end PagePools

/-! ## Runs -/

attribute [local irreducible] PagePools.pmemInit

/-- The pools, and the pages of each that the rest of the kernel holds -/
structure PageUse where
  mem : PagePools
  held : Bool → List U64

/-- A call that returns, or a write of whoever holds a page -/
inductive PageEvent
  | alloc (inKernel : Bool) (page : U64)
  | free (inKernel : Bool) (page : U64)
  | write (page : U64) (contents : Bytes)

/-- Pages are given back by their holders, and only they write to them. -/
def pageStep (u : PageUse) : PageEvent → PageUse → Prop
  | .alloc k a, u' => PagePools.pmemAlloc k u.mem = .ok a u'.mem ∧
      u'.held = Function.update u.held k (a :: u.held k)
  | .free k a, u' => a ∈ u.held k ∧ PagePools.pmemFree a k u.mem = .ok () u'.mem ∧
      u'.held = Function.update u.held k ((u.held k).erase a)
  | .write a page, u' => (∃ k, a ∈ u.held k) ∧ u' = { u with mem := u.mem.setPage a page }

/-- The next request for a page is met as long as one is left, by a cleared page of the right pool that
nobody holds, and leaves the others alone; what is held can be given back; and the counters are right. -/
structure PageUse.Exact (ram : Ram) (u : PageUse) : Prop where
  alloc : ∀ k, Ends (PagePools.pmemAlloc k) u.mem (fun a m => a ∈ ram.poolPages k ∧ (∀ k', a ∉ u.held k') ∧
    m.pages a = (fun _ => 0) ∧ ∀ b ≠ a, m.pages b = u.mem.pages b)
    fun f => (u.held k).length = (ram.poolPages k).length ∧ PagePools.Exhausts k f
  free : ∀ k, ∀ a ∈ u.held k, Yields (PagePools.pmemFree a k) u.mem fun _ m =>
    ∀ b ≠ a, m.pages b = u.mem.pages b
  stat : Yields PagePools.pmemStat u.mem fun r _ =>
    r.1.toNat + (u.held true).length = (ram.poolPages true).length ∧
    r.2.toNat + (u.held false).length = (ram.poolPages false).length

variable {ram : Ram} {u u' : PageUse}

/-- Both pools are sound. -/
def PageUse.Sound (ram : Ram) (u : PageUse) : Prop := ∀ k, u.mem.Sound ram k (u.held k)

private theorem PageUse.Sound.exact (sound : u.Sound ram) (sane : ram.Sane) : u.Exact ram := by
  constructor
  · intro k
    apply ((sound k).pmemAlloc sane).mono
    intro a m given
    refine ⟨given.page, fun k' holds => ?_, given.zero, given.other⟩
    obtain rfl := sane.pools_apart given.page ((sound k').exact.held_subset holds)
    exact given.fresh holds
  · intro k a holds
    apply ((sound k).pmemFree sane holds).mono
    rintro _ m ⟨pages, -⟩
    exact pages
  · exact ⟨(sound true).count, (sound false).count⟩

private theorem PageUse.Sound.step (sound : u.Sound ram) (sane : ram.Sane) {e : PageEvent} (step : pageStep u e u') :
    u'.Sound ram := by
  intro k'
  cases e with
  | alloc k a =>
    obtain ⟨run, held⟩ := step
    have given := ((sound k).pmemAlloc sane).returns _ _ run
    rw [held]
    by_cases here : k' = k
    · subst here
      rw [Function.update_self]
      exact given.sound
    · rw [Function.update_of_ne here]
      apply (sound k').keep sane (given.pools k' here)
      intro b within _
      apply given.other
      rintro rfl
      exact here (sane.pools_apart within given.page)
  | free k a =>
    obtain ⟨holds, run, held⟩ := step
    obtain ⟨pages, pools, sound'⟩ := ((sound k).pmemFree sane holds).returns _ _ run
    rw [held]
    by_cases here : k' = k
    · subst here
      rw [Function.update_self]
      exact sound'
    · rw [Function.update_of_ne here]
      apply (sound k').keep sane (pools k' here)
      intro b within _
      apply pages
      rintro rfl
      exact here (sane.pools_apart within ((sound k).exact.held_subset holds))
  | write a page =>
    obtain ⟨⟨k, holds⟩, rfl⟩ := step
    apply (sound k').keep sane (PagePools.setPage_pool ..)
    intro b within free
    apply Function.update_of_ne
    rintro rfl
    obtain rfl := sane.pools_apart within ((sound k).exact.held_subset holds)
    exact free holds

/-- From `pmem_init` on, however pages are taken, written to and given back, the pools neither lose a page
nor give one out twice. -/
theorem pages_exact (sane : ram.Sane) (m : PagePools) : ∃ s, PagePools.pmemInit ram m = .ok () s ∧
    ∀ events u, Run pageStep ⟨s, fun _ => []⟩ events u → u.Exact ram := by
  obtain ⟨_, s, init, sound, -⟩ := (PagePools.pmemInit_ends (s := m) sane).result
  refine ⟨s, init, fun events u run => ?_⟩
  have start : PageUse.Sound ram ⟨s, fun _ => []⟩ := fun k => (sound k).2
  exact (run.invariant (fun _ _ _ step before => before.step sane step) start).exact sane

/-- The kernel ends 2 MiB behind its begin. -/
theorem pages_exact_two : ∃ s, PagePools.pmemInit ⟨0x80200000⟩ ⟨fun _ _ => 0, ⟨0, 0, 0, 0⟩, ⟨0, 0, 0, 0⟩⟩ = .ok () s ∧
    ∀ events u, Run pageStep ⟨s, fun _ => []⟩ events u → u.Exact ⟨0x80200000⟩ :=
  pages_exact ⟨by decide, by decide, by decide⟩ _

/-! ## The lists of `Mem/Machine` -/

/-- The free list of a pool -/
def Machine.pagePool (m : Machine) : (inKernel : Bool) → List U64
  | true => m.kernelPool
  | false => m.userPool

/-- The same step on lists -/
def listStep (ram : Ram) (m : Machine) : PageEvent → Machine → Prop
  | .alloc k a, m' => pmemAlloc k m = .ok a m'
  | .free k a, m' => pmemFree ram a k m = .ok () m'
  | .write a page, m' => m' = m.setPage a page

/-- The chains run through the lists, and other pages are the same. -/
structure PagePools.Stands (s : PagePools) (m : Machine) : Prop where
  chained : ∀ k, FreeList.Chained (s.chain k).link 0 (s.chain k).head (m.pagePool k)
  pages : ∀ a, (∀ k, a ∉ m.pagePool k) → s.pages a = m.pages a

namespace PagePools

variable {s s' : PagePools} {m : Machine} {a : U64} {k : Bool}

private theorem chained_keep {l : List U64} (chained : FreeList.Chained (s.chain k).link 0 (s.chain k).head l)
    (pool : s'.pool k = s.pool k) (same : ∀ b ∈ l, s'.pages b = s.pages b) :
    FreeList.Chained (s'.chain k).link 0 (s'.chain k).head l := by
  rw [chain, pool]
  apply FreeList.chained_congr _ chained
  intro b within
  simp only [chain, same b within]

private theorem pmemAlloc_ok (some : (s.pool k).next ≠ 0) : pmemAlloc k s = .ok (s.pool k).next
    ((s.setPool ⟨(s.pool k).begin, (s.pool k).stop, (s.pool k).allocable - 1, (s.pages (s.pool k).next).u64 0⟩
      k).setPage (s.pool k).next fun _ => 0) := by
  simp only [pmemAlloc, bind, EStateM.bind, get, getThe, MonadStateOf.get, EStateM.get, if_pos some]
  rfl

private theorem pmemAlloc_null (none : (s.pool k).next = 0) : pmemAlloc k s = .error (.panic (if k then
    "pmem_alloc: kernel memory exhausted" else "pmem_alloc: user memory exhausted")) s := by
  simp only [pmemAlloc, bind, EStateM.bind, get, getThe, MonadStateOf.get, EStateM.get,
    if_neg (not_not.mpr none)]
  rfl

/-- The list of the pool that a page is taken from -/
def taken (m : Machine) (k : Bool) (a : U64) (rest : List U64) : Machine :=
  match k with
  | true => ({ m with kernelPool := rest } : Machine).setPage a fun _ => 0
  | false => ({ m with userPool := rest } : Machine).setPage a fun _ => 0

private theorem alloc_list {rest : List U64} (pool : m.pagePool k = a :: rest) :
    LabKernel.pmemAlloc k m = .ok a (taken m k a rest) := by
  cases k <;> simp only [Machine.pagePool] at pool <;>
    simp only [LabKernel.pmemAlloc, bind, EStateM.bind, get, getThe, MonadStateOf.get, EStateM.get, pool] <;> rfl

private theorem alloc_empty (pool : m.pagePool k = []) : LabKernel.pmemAlloc k m = .error (.panic (if k then
    "pmem_alloc: kernel memory exhausted" else "pmem_alloc: user memory exhausted")) m := by
  cases k <;> simp only [Machine.pagePool] at pool <;>
    simp only [LabKernel.pmemAlloc, bind, EStateM.bind, get, getThe, MonadStateOf.get, EStateM.get, pool] <;> rfl

private theorem taken_pool {rest : List U64} (k' : Bool) :
    (taken m k a rest).pagePool k' = if k' = k then rest else m.pagePool k' := by
  cases k <;> cases k' <;> rfl

private theorem taken_pages {rest : List U64} : (taken m k a rest).pages = Function.update m.pages a fun _ => 0 := by
  cases k <;> rfl

/-- The list of the pool that a page is given to -/
def given (m : Machine) (k : Bool) (a : U64) : Machine :=
  match k with
  | true => { m with kernelPool := a :: m.kernelPool }
  | false => { m with userPool := a :: m.userPool }

private theorem free_list (sane : ram.Sane) (within : a ∈ ram.poolPages k) (m : Machine) :
    LabKernel.pmemFree ram a k m = .ok () (given m k a) := by
  have frame := sane.mem_poolPages.mp within
  have inside : ¬(a.toNat < ram.poolBegin k ∨ ram.poolStop k ≤ a.toNat) :=
    not_or.mpr ⟨Nat.not_lt.mpr frame.low_le, Nat.not_le.mpr frame.lt_high⟩
  rw [LabKernel.pmemFree, if_neg (not_not.mpr frame.aligned)]
  cases k <;> simp only [Ram.poolBegin, Ram.poolStop] at inside <;>
    simp only [Bool.false_eq_true, if_false, if_true] <;> rw [if_neg inside] <;> rfl

private theorem given_pool (k' : Bool) :
    (given m k a).pagePool k' = if k' = k then a :: m.pagePool k' else m.pagePool k' := by
  cases k <;> cases k' <;> rfl

private theorem given_pages : (given m k a).pages = m.pages := by
  cases k <;> rfl

/-- `pmem_alloc` fails on the chain if it does on the list, and with the same message. -/
theorem Stands.exhausted (stands : s.Stands m) (k : Bool) :
    ((∃ f t, pmemAlloc k s = .error f t) ↔ ∃ f t, LabKernel.pmemAlloc k m = .error f t) ∧
      ∀ f t f' t', pmemAlloc k s = .error f t → LabKernel.pmemAlloc k m = .error f' t' → f = f' := by
  have empty := FreeList.chained_null (stands.chained k)
  cases pool : m.pagePool k with
  | nil =>
    have null := pmemAlloc_null (empty.mpr pool)
    have list := alloc_empty pool
    refine ⟨iff_of_true ⟨_, _, null⟩ ⟨_, _, list⟩, fun f t f' t' failed failed' => ?_⟩
    cases null.symm.trans failed
    cases list.symm.trans failed'
    rfl
  | cons a rest =>
    have some : (s.pool k).next ≠ 0 := fun null => by
      cases (empty.mp null).symm.trans pool
    refine ⟨iff_of_false ?_ ?_, fun f t f' t' failed => ?_⟩
    · rintro ⟨f, t, failed⟩
      cases (pmemAlloc_ok some).symm.trans failed
    · rintro ⟨f, t, failed⟩
      cases (alloc_list pool).symm.trans failed
    · cases (pmemAlloc_ok some).symm.trans failed

end PagePools

variable {m : Machine}

section

variable (sound : u.Sound ram) (sane : ram.Sane) (stands : u.mem.Stands m)
include sound sane stands

omit sane in
private theorem PageUse.Sound.free_mem {k : Bool} {b : U64} (free : b ∈ m.pagePool k) : b ∈ ram.poolPages k :=
  ((sound k).exact.perm (stands.chained k)).subset (List.mem_append_left _ free)

/-- A page of a list is held by nobody. -/
theorem PageUse.Sound.free_apart {k k' : Bool} {b : U64} (free : b ∈ m.pagePool k) (holds : b ∈ u.held k') :
    False := by
  have perm := (sound k).exact.perm (stands.chained k)
  obtain rfl := sane.pools_apart (sound.free_mem stands free) ((sound k').exact.held_subset holds)
  exact List.disjoint_of_nodup_append (perm.nodup_iff.mpr (sane.poolPages_nodup k)) free holds

private theorem PageUse.Sound.stands_alloc {k : Bool} {a : U64} (step : pageStep u (.alloc k a) u') :
    ∃ m', listStep ram m (.alloc k a) m' ∧ u'.mem.Stands m' := by
  obtain ⟨run, -⟩ := step
  have given := ((sound k).pmemAlloc sane).returns _ _ run
  have chained := stands.chained k
  cases pool : m.pagePool k with
  | nil =>
    have null := PagePools.pmemAlloc_null ((FreeList.chained_null chained).mpr pool)
    cases null.symm.trans run
  | cons b rest =>
    rw [pool] at chained
    obtain ⟨head, chained'⟩ := chained.pop
    have some : (u.mem.pool k).next ≠ 0 := fun null => chained.2.1 (head.symm.trans null)
    obtain ⟨result, after⟩ := EStateM.Result.ok.inj (run.symm.trans (PagePools.pmemAlloc_ok some))
    obtain rfl : a = b := result.trans head
    have nodup : (a :: rest).Nodup := by
      rw [← pool]
      have perm := (sound k).exact.perm (stands.chained k)
      exact (perm.nodup_iff.mpr (sane.poolPages_nodup k)).of_append_left
    refine ⟨_, PagePools.alloc_list pool, fun k' => ?_, fun b spared => ?_⟩
    · rw [PagePools.taken_pool]
      split
      case isTrue here =>
        subst here
        rw [after, PagePools.chain, PagePools.setPage_pool, PagePools.setPool_same]
        apply FreeList.chained_congr _ chained'
        intro b within
        have other : b ≠ (u.mem.pool k').next := by
          rintro rfl
          exact (List.nodup_cons.mp nodup).1 (head ▸ within)
        rw [PagePools.setPage_pages, PagePools.setPool_pages]
        dsimp only
        rw [Function.update_of_ne other]
        rfl
      case isFalse other =>
        apply PagePools.chained_keep (stands.chained k') (given.pools k' other)
        intro b free
        apply given.other
        rintro rfl
        exact other (sane.pools_apart (sound.free_mem stands free) given.page)
    · rw [PagePools.taken_pages]
      by_cases here : b = a
      · rw [here, Function.update_self, given.zero]
      · rw [Function.update_of_ne here, given.other b here]
        apply stands.pages
        intro k' free
        apply spared k'
        rw [PagePools.taken_pool]
        split
        case isTrue same =>
          subst same
          rw [pool] at free
          exact (List.mem_cons.mp free).resolve_left here
        case isFalse => exact free

private theorem PageUse.Sound.stands_free {k : Bool} {a : U64} (step : pageStep u (.free k a) u') :
    ∃ m', listStep ram m (.free k a) m' ∧ u'.mem.Stands m' := by
  obtain ⟨holds, run, -⟩ := step
  have frame := (sound k).exact.held_subset holds
  have apart {k' : Bool} (free : a ∈ m.pagePool k') : False := sound.free_apart sane stands free holds
  obtain ⟨pages, pools, -⟩ := ((sound k).pmemFree sane holds).returns _ _ run
  have pushed : u'.mem = u.mem.pushNode k a :=
    (EStateM.Result.ok.inj (run.symm.trans ((sound k).free_eq sane frame))).2
  refine ⟨_, PagePools.free_list sane frame m, fun k' => ?_, fun b spared => ?_⟩
  · rw [PagePools.given_pool]
    split
    case isTrue here =>
      subst here
      rw [pushed, PagePools.pushNode_chain]
      apply (stands.chained k').push apart
      rintro rfl
      exact sane.null_notMem k' frame
    case isFalse other =>
      apply PagePools.chained_keep (stands.chained k') (pools k' other)
      intro b free
      apply pages
      rintro rfl
      exact apart free
  · have here : b ≠ a := by
      rintro rfl
      apply spared k
      rw [PagePools.given_pool, if_pos rfl]
      exact List.mem_cons_self
    rw [pages b here, PagePools.given_pages]
    apply stands.pages
    intro k' free
    apply spared k'
    rw [PagePools.given_pool]
    split
    case isTrue => exact List.mem_cons_of_mem a free
    case isFalse => exact free

private theorem PageUse.Sound.stands_write {a : U64} {page : Bytes} (step : pageStep u (.write a page) u') :
    ∃ m', listStep ram m (.write a page) m' ∧ u'.mem.Stands m' := by
  obtain ⟨⟨k, holds⟩, rfl⟩ := step
  refine ⟨_, rfl, fun k' => ?_, fun b spared => ?_⟩
  · apply PagePools.chained_keep (stands.chained k') (PagePools.setPage_pool ..)
    intro b free
    apply Function.update_of_ne
    rintro rfl
    exact sound.free_apart sane stands free holds
  · by_cases here : b = a
    · rw [here]
      simp only [PagePools.setPage_pages, Machine.setPage, Function.update_self]
    · simp only [PagePools.setPage_pages, Machine.setPage, Function.update_of_ne here]
      exact stands.pages b spared

/-- A step on the chains is the step on the lists. -/
theorem PageUse.Sound.stands_step {e : PageEvent} (step : pageStep u e u') :
    ∃ m', listStep ram m e m' ∧ u'.mem.Stands m' := by
  cases e with
  | alloc k a => exact sound.stands_alloc sane stands step
  | free k a => exact sound.stands_free sane stands step
  | write a page => exact sound.stands_write sane stands step

end

private theorem PageUse.Sound.run_stands (sound : u.Sound ram) (sane : ram.Sane) (stands : u.mem.Stands m)
    {events : List PageEvent} (run : Run pageStep u events u') :
    ∃ m', Run (listStep ram) m events m' ∧ u'.mem.Stands m' := by
  induction run generalizing m with
  | nil => exact ⟨m, .nil m, stands⟩
  | cons first _ ih =>
    obtain ⟨m₁, step, stands₁⟩ := sound.stands_step sane stands first
    obtain ⟨m', rest, stands'⟩ := ih (sound.step sane first) stands₁
    exact ⟨m', .cons step rest, stands'⟩

/-- The lists of `Mem/Machine` stand for the chains of `pmem.c`: from `pmem_init` on, the same calls take and
give back the same pages in the same order, and `pmem_alloc` fails on both at the same time. -/
theorem chains_stand_for_lists (sane : ram.Sane) (m₀ : Machine)
    (lists : ∀ k, m₀.pagePool k = (ram.poolPages k).reverse) (kernel user : AllocRegion) :
    ∃ s, PagePools.pmemInit ram ⟨m₀.pages, kernel, user⟩ = .ok () s ∧
      ∀ events u, Run pageStep ⟨s, fun _ => []⟩ events u → ∃ m, Run (listStep ram) m₀ events m ∧
        u.mem.Stands m ∧ ∀ k, ((∃ f t, PagePools.pmemAlloc k u.mem = .error f t) ↔
          ∃ f t, pmemAlloc k m = .error f t) ∧
          ∀ f t f' t', PagePools.pmemAlloc k u.mem = .error f t → pmemAlloc k m = .error f' t' → f = f' := by
  obtain ⟨_, s, init, all, spared⟩ := (PagePools.pmemInit_ends (s := ⟨m₀.pages, kernel, user⟩) sane).result
  have start : s.Stands m₀ := by
    refine ⟨fun k => ?_, fun a apart => ?_⟩
    · rw [lists k]
      exact (all k).1
    · apply spared
      intro k within
      apply apart k
      rw [lists k]
      exact List.mem_reverse.mpr within
  refine ⟨s, init, fun events u run => ?_⟩
  have first : PageUse.Sound ram ⟨s, fun _ => []⟩ := fun k => (all k).2
  obtain ⟨m, lists, stands⟩ := first.run_stands sane start run
  exact ⟨m, lists, stands, stands.exhausted⟩

/-- Lists of all pages -/
def bootLists (ram : Ram) : Machine where
  pages _ _ := 0
  kernelPool := (ram.poolPages true).reverse
  userPool := (ram.poolPages false).reverse
  freeRegions := []
  kernPagetable := 0
  proc _ := none

theorem bootLists_pool (ram : Ram) (k : Bool) : (bootLists ram).pagePool k = (ram.poolPages k).reverse := by
  cases k <;> rw [Machine.pagePool, bootLists]

theorem chains_stand_for_lists_two : ∃ s, PagePools.pmemInit ⟨0x80200000⟩
    ⟨(bootLists ⟨0x80200000⟩).pages, ⟨0, 0, 0, 0⟩, ⟨0, 0, 0, 0⟩⟩ = .ok () s ∧
    ∀ events u, Run pageStep ⟨s, fun _ => []⟩ events u →
      ∃ m, Run (listStep ⟨0x80200000⟩) (bootLists ⟨0x80200000⟩) events m ∧ u.mem.Stands m := by
  obtain ⟨s, init, all⟩ := @chains_stand_for_lists ⟨0x80200000⟩ ⟨by decide, by decide, by decide⟩
    (bootLists ⟨0x80200000⟩) (bootLists_pool _) ⟨0, 0, 0, 0⟩ ⟨0, 0, 0, 0⟩
  refine ⟨s, init, fun events u run => ?_⟩
  obtain ⟨m, lists, stands, -⟩ := all events u run
  exact ⟨m, lists, stands⟩

end LabKernel
