import LabKernel.Fs.State
import LabKernel.Mem.Layout

/-! # Memory state

What the memory-management code of all processes shares: physical memory by pages, the free lists of
the two page pools (`pmem.c`), the free nodes of the pool of mmap regions (`mmap.c`), the kernel's
page table and the memory fields of each process. Free pages are chained through their first word in
the code; here a free list is a list of page addresses, and what a free page holds is not recorded.
A list of regions carries the places of its nodes in the node pool.
-/

namespace LabKernel

/-- `mmap_region_t`, with its place in `region_pool` for the link -/
structure Region where
  node : ℕ
  begin : ℕ
  npages : ℕ
deriving DecidableEq, Repr

/-- `npages * PGSIZE`, a product of 32-bit numbers. -/
def lenOf (npages : ℕ) : ℕ := npages * pgsize % 2 ^ 32

/-- `begin + npages * PGSIZE` -/
def Region.stop (r : Region) : ℕ := wrap64 (r.begin + lenOf r.npages)

/-- The memory fields of `proc_t`, and what `proc_wait` looks for. A parent is a place in the pool. -/
structure ProcMem where
  pgtbl : U64
  tf : U64
  heapTop : ℕ
  ustackNpage : ℕ
  mmap : List Region
  state : ProcState
  parent : Option ℕ
  exitCode : U32
deriving DecidableEq, Repr

structure Machine where
  pages : U64 → Bytes
  kernelPool : List U64
  userPool : List U64
  freeRegions : List ℕ
  kernPagetable : U64
  proc : ℕ → Option ProcMem

abbrev MemM := EStateM Fault Machine

namespace Machine

def pte (s : Machine) (table : U64) (i : ℕ) : U64 := (s.pages table).u64 (8 * i)

def setPage (s : Machine) (a : U64) (page : Bytes) : Machine :=
  { s with pages := Function.update s.pages a page }

def setPte (s : Machine) (table : U64) (i : ℕ) (e : U64) : Machine :=
  s.setPage table ((s.pages table).setU64 (8 * i) e)

def setProc (s : Machine) (k : ℕ) (p : Option ProcMem) : Machine :=
  { s with proc := Function.update s.proc k p }

@[simp] theorem setPage_kernelPool (s : Machine) (a : U64) (page : Bytes) :
    (s.setPage a page).kernelPool = s.kernelPool := rfl
@[simp] theorem setPage_userPool (s : Machine) (a : U64) (page : Bytes) :
    (s.setPage a page).userPool = s.userPool := rfl
@[simp] theorem setPage_freeRegions (s : Machine) (a : U64) (page : Bytes) :
    (s.setPage a page).freeRegions = s.freeRegions := rfl
@[simp] theorem setPage_kernPagetable (s : Machine) (a : U64) (page : Bytes) :
    (s.setPage a page).kernPagetable = s.kernPagetable := rfl
@[simp] theorem setPage_proc (s : Machine) (a : U64) (page : Bytes) :
    (s.setPage a page).proc = s.proc := rfl

@[simp] theorem setPage_same (s : Machine) (a : U64) (page : Bytes) : (s.setPage a page).pages a = page :=
  Function.update_self ..

theorem setPage_other {s : Machine} {a b : U64} (page : Bytes) (apart : b ≠ a) :
    (s.setPage a page).pages b = s.pages b := Function.update_of_ne apart ..

/-- Other pages keep their entries. -/
theorem setPage_pte_other {s : Machine} {a b : U64} (page : Bytes) (i : ℕ) (apart : b ≠ a) :
    (s.setPage a page).pte b i = s.pte b i := by
  simp only [pte, setPage, Function.update_of_ne apart]

theorem setPage_pte_zero (s : Machine) (a : U64) (i : ℕ) :
    (s.setPage a fun _ => 0).pte a i = 0 := by
  simp only [pte, setPage, Function.update_self, Bytes.u64_zero]

theorem setPte_pte_same (s : Machine) (a : U64) (i j : ℕ) (e : U64) :
    (s.setPte a i e).pte a j = if j = i then e else s.pte a j := by
  simp only [pte, setPte, setPage, Function.update_self]
  rcases eq_or_ne j i with rfl | apart
  · rw [if_pos rfl, Bytes.u64_setU64_same]
  · rw [if_neg apart, Bytes.u64_setU64_other _ (by omega)]

end Machine

/-- `pmem_alloc`: the first free page of the pool, zeroed. -/
def pmemAlloc (inKernel : Bool) : MemM U64 := do
  let s ← get
  if inKernel then
    match s.kernelPool with
    | [] => throw (.panic "pmem_alloc: kernel memory exhausted")
    | page :: rest =>
      set ({ s with kernelPool := rest }.setPage page fun _ => 0)
      return page
  else
    match s.userPool with
    | [] => throw (.panic "pmem_alloc: user memory exhausted")
    | page :: rest =>
      set ({ s with userPool := rest }.setPage page fun _ => 0)
      return page

def pmemFree (ram : Ram) (page : U64) (inKernel : Bool) : MemM Unit := do
  if page.toNat % pgsize ≠ 0 then throw (.panic "pmem_free: address not page aligned")
  let (low, high) :=
    if inKernel then (ram.allocBegin, ram.kernelPoolEnd) else (ram.kernelPoolEnd, Ram.allocEnd)
  if page.toNat < low ∨ high ≤ page.toNat then throw (.panic "pmem_free: address out of range")
  modify fun s =>
    if inKernel then { s with kernelPool := page :: s.kernelPool }
    else { s with userPool := page :: s.userPool }

/-- `mmap_region_alloc`; the fields are set by the caller. -/
def mmapRegionAlloc : MemM ℕ := do
  let s ← get
  match s.freeRegions with
  | [] => throw (.panic "mmap_region_alloc: run out of mmap nodes")
  | node :: rest =>
    set { s with freeRegions := rest }
    return node

def mmapRegionFree (node : ℕ) : MemM Unit :=
  modify fun s => { s with freeRegions := node :: s.freeRegions }

/-- `myproc()`, by its place in the process pool -/
def myproc (k : ℕ) : MemM ProcMem := do
  match (← get).proc k with
  | some p => return p
  | none => throw .wildPointer

def setMyproc (k : ℕ) (p : ProcMem) : MemM Unit := modify (·.setProc k (some p))

/-- A whole page for the pages of one range, `src` copied to `dst`. -/
def copyPage (dst src : U64) : MemM Unit := modify fun s => s.setPage dst (s.pages src)

end LabKernel
