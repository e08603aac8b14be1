import LabKernel.Lib.Transition
import LabKernel.Mem.UserPages

/-! # The heap

`sys_brk` with the two functions of `uvm.c` that move the top of the heap. Both round the top up to a
page, and the length between the old and the new top passes through a `uint32`. The pages below the
rounded top stay exactly the mapped ones, whatever addresses a process asks for.
-/

namespace LabKernel

def permRWU : U32 := 0x16

def uvmHeapGrow (pgtbl : U64) (curHeapTop len : ℕ) : MemM ℕ := do
  let newHeapTop := wrap64 (curHeapTop + len)
  growLoop pgtbl permRWU newHeapTop (newHeapTop / pgsize + 2) (alignUp curHeapTop)
  return newHeapTop

def uvmHeapUngrow (ram : Ram) (tbl : U64) (currentTop bytes : ℕ) : MemM ℕ := do
  if bytes = 0 then return currentTop
  let newTop := if bytes < currentTop then currentTop - bytes else 0
  let pageAlignedCurr := alignUp currentTop
  let pageAlignedNew :=
    if alignUp newTop < userBase + pgsize then userBase + pgsize else alignUp newTop
  if pageAlignedNew < pageAlignedCurr then
    vmUnmappages ram tbl pageAlignedNew (pageAlignedCurr - pageAlignedNew) true
  return newTop

def sysBrk (ram : Ram) (k : ℕ) (addr : U64) : MemM ℕ := do
  let p ← myproc k
  let oldHeap := p.heapTop
  if oldHeap < addr.toNat then
    let len := (addr.toNat - oldHeap) % 2 ^ 32
    let top ← uvmHeapGrow p.pgtbl oldHeap len
    setMyproc k { p with heapTop := top }
    return top
  else if addr.toNat < oldHeap ∧ userBase + pgsize ≤ addr.toNat then
    let len := (oldHeap - addr.toNat) % 2 ^ 32
    let top ← uvmHeapUngrow ram p.pgtbl oldHeap len
    setMyproc k { p with heapTop := top }
    return top
  else return oldHeap

/-- Where `sys_brk` puts the top -/
def brkTop (oldHeap addr : ℕ) : ℕ :=
  if oldHeap < addr then wrap64 (oldHeap + (addr - oldHeap) % 2 ^ 32)
  else if addr < oldHeap ∧ userBase + pgsize ≤ addr then oldHeap - (oldHeap - addr) % 2 ^ 32
  else oldHeap

/-- The byte that a process finds at an address -/
def readByte (s : Machine) (table : U64) (va : ℕ) : Option U8 :=
  (translate s table va).map fun (frame, _) => s.pages frame (va % pgsize)

/-- The pages of the first code page and the heap -/
def heapPages (heapTop : ℕ) : Set ℕ := {v | userBase ≤ v * pgsize ∧ v * pgsize < alignUp heapTop}

/-- The pages below the mapped regions -/
def heapWindow : Set ℕ := {v | userBase ≤ v * pgsize ∧ v * pgsize < mmapBegin}

/-- The heap of a process is what its top says. -/
structure HeapState (ram : Ram) (roots : Set U64) (s : Machine) (k : ℕ) (p : ProcMem) : Prop where
  proc : s.proc k = some p
  tables : s.Tables ram roots
  live : s.rootFor p.pgtbl ∈ roots
  low : userBase + pgsize ≤ p.heapTop
  high : p.heapTop < mmapBegin
  space : Space ram s (s.rootFor p.pgtbl) heapWindow (heapPages p.heapTop)

/-- What one call does to the contents of memory and to the user's pool -/
structure HeapEffect (s : Machine) (p : ProcMem) (top : ℕ) (s' : Machine) : Prop where
  kept : ∀ va, userBase ≤ va → va < min p.heapTop top →
    readByte s' p.pgtbl va = readByte s p.pgtbl va
  zero : ∀ va b, userBase ≤ va → va < mmapBegin → readByte s p.pgtbl va = none →
    readByte s' p.pgtbl va = some b → b = 0
  pool : s'.userPool.length + alignUp top / pgsize = s.userPool.length + alignUp p.heapTop / pgsize

theorem mem_heapPages {heapTop v : ℕ} :
    v ∈ heapPages heapTop ↔ userBase ≤ v * pgsize ∧ v * pgsize < alignUp heapTop := Iff.rfl

theorem alignUp_eq {x : ℕ} (small : x < mmapBegin) : alignUp x = (x + pgsize - 1) / pgsize * pgsize := by
  simp only [mmapBegin_eq] at small
  rw [alignUp, wrap64_of_lt (by simp only [pgsize_eq]; omega)]

variable {ram : Ram} {roots : Set U64} {s s' : Machine} {k : ℕ} {p : ProcMem} {v n : ℕ}

open Machine

private theorem readByte_eq {table : U64} {va : ℕ} (low : va < mmapBegin) :
    readByte s table va = (decode (s.leaf (s.rootFor table) (va / pgsize))).map
      fun (frame, _) => s.pages frame (va % pgsize) := by
  rw [readByte, translate_eq (Nat.lt_trans low (by decide))]

private theorem readByte_valid {table : U64} {va : ℕ} (low : va < mmapBegin)
    (valid : PteHas (s.leaf (s.rootFor table) (va / pgsize)) pteV) : readByte s table va =
      some (s.pages (pteToPa (s.leaf (s.rootFor table) (va / pgsize))) (va % pgsize)) := by
  rw [readByte_eq low, decode, if_pos valid]
  rfl

private theorem readByte_invalid {table : U64} {va : ℕ} (low : va < mmapBegin)
    (invalid : ¬PteHas (s.leaf (s.rootFor table) (va / pgsize)) pteV) : readByte s table va = none := by
  rw [readByte_eq low, decode, if_neg invalid]
  rfl

/-- A page of the heap is read from its own frame. -/
theorem HeapState.valid (state : HeapState ram roots s k p) (inside : v ∈ heapPages p.heapTop) :
    PteHas (s.leaf (s.rootFor p.pgtbl) v) pteV :=
  (state.space.mapped _ (state.space.within inside)).mpr inside

/-- The heap of a process was moved, and its descriptor not yet. -/
structure Moved (ram : Ram) (roots : Set U64) (s : Machine) (p : ProcMem) (top : ℕ) (s' : Machine) :
    Prop where
  tables : s'.Tables ram roots
  proc : s'.proc = s.proc
  kernel : s'.kernPagetable = s.kernPagetable
  space : Space ram s' (s.rootFor p.pgtbl) heapWindow (heapPages top)
  effect : HeapEffect s p top s'

private theorem Moved.rootFor {top : ℕ} (moved : Moved ram roots s p top s') (table : U64) :
    s'.rootFor table = s.rootFor table := by rw [Machine.rootFor, Machine.rootFor, moved.kernel]

/-- The top is entered into the descriptor. -/
theorem Moved.enter {top : ℕ} (moved : Moved ram roots s p top s') (state : HeapState ram roots s k p)
    (low : userBase + pgsize ≤ top) (high : top < mmapBegin) :
    HeapState ram roots (s'.setProc k (some { p with heapTop := top })) k { p with heapTop := top } ∧
      HeapEffect s p top (s'.setProc k (some { p with heapTop := top })) := by
  have same : (s'.setProc k (some { p with heapTop := top })).rootFor p.pgtbl = s.rootFor p.pgtbl :=
    moved.rootFor p.pgtbl
  have read {va : ℕ} (low : va < mmapBegin) :
      readByte (s'.setProc k (some { p with heapTop := top })) p.pgtbl va = readByte s' p.pgtbl va := by
    rw [readByte_eq low, readByte_eq low, leaf_of_pages rfl]
    rfl
  constructor
  · refine ⟨Function.update_self .., moved.tables.of_pages rfl rfl rfl, same ▸ state.live, low, high, ?_⟩
    exact same ▸ moved.space.of_pages rfl rfl
  · refine ⟨fun va first below => ?_, fun va b first below old new => ?_, moved.effect.pool⟩
    · rw [read (by omega)]
      exact moved.effect.kept va first below
    · rw [read below] at new
      exact moved.effect.zero va b first below old new

private theorem uvmHeapGrow_ends (state : HeapState ram roots s k p) {len : ℕ}
    (below : p.heapTop + len < mmapBegin) :
    Ends (uvmHeapGrow p.pgtbl p.heapTop len) s (fun top s' => top = p.heapTop + len ∧
      Moved ram roots s p top s') Exhausted := by
  have word : wrap64 (p.heapTop + len) = p.heapTop + len :=
    wrap64_of_lt (by simp only [mmapBegin_eq] at below; omega)
  have old := alignUp_eq state.high
  have new := alignUp_eq below
  have start := state.low
  have count : ∃ n, alignUp (p.heapTop + len) = alignUp p.heapTop + n * pgsize := by
    refine ⟨(p.heapTop + len + pgsize - 1) / pgsize - (p.heapTop + pgsize - 1) / pgsize, ?_⟩
    rw [old, new]
    simp only [pgsize_eq]
    omega
  obtain ⟨n, reach⟩ := count
  have page : alignUp p.heapTop % pgsize = 0 := by rw [old, Nat.mul_mod_left]
  have range (v : ℕ) : v ∈ pageRange (alignUp p.heapTop / pgsize) n ↔
      alignUp p.heapTop ≤ v * pgsize ∧ v * pgsize < alignUp (p.heapTop + len) := by
    rw [mem_pageRange, reach]
    simp only [pgsize_eq] at page ⊢
    omega
  have limit : alignUp (p.heapTop + len) ≤ mmapBegin := by
    rw [new]
    simp only [mmapBegin_eq, pgsize_eq] at below ⊢
    omega
  have base : userBase ≤ alignUp p.heapTop := by
    rw [old]
    simp only [userBase_eq, pgsize_eq] at start ⊢
    omega
  have top : p.heapTop + len ≤ alignUp p.heapTop + n * pgsize := by
    rw [← reach, new]
    simp only [pgsize_eq]
    omega
  have window : pageRange (alignUp p.heapTop / pgsize) n ⊆ heapWindow := by
    intro v inside
    have bounds := (range v).mp inside
    exact ⟨Nat.le_trans base bounds.1, Nat.lt_of_lt_of_le bounds.2 limit⟩
  have fresh (v : ℕ) (inside : v ∈ pageRange (alignUp p.heapTop / pgsize) n) :
      v ∉ heapPages p.heapTop := fun old => Nat.not_lt_of_le ((range v).mp inside).1 old.2
  have grown : heapPages p.heapTop ∪ pageRange (alignUp p.heapTop / pgsize) n =
      heapPages (p.heapTop + len) := by
    ext v
    rw [Set.mem_union, range, mem_heapPages, mem_heapPages]
    omega
  rw [uvmHeapGrow, word, Ends.bind_iff]
  refine (growLoop_ends state.tables state.live page ?_ top ?_ ?_).mono ?_
  · exact Nat.le_trans (reach ▸ limit) (by decide)
  · intro i less
    rw [new] at reach
    simp only [pgsize_eq] at reach ⊢
    omega
  · rw [new] at reach
    simp only [pgsize_eq] at reach ⊢
    omega
  rintro _ s' ⟨enough, shows⟩
  have flags : (permFlags permRWU).toNat < 1024 := by decide
  have kernel : s'.kernPagetable = s.kernPagetable := congrArg View.kernPagetable shows.view
  have same : s'.rootFor p.pgtbl = s.rootFor p.pgtbl := by rw [rootFor, rootFor, kernel]
  refine ⟨rfl, shows.tables, congrArg View.proc shows.view, kernel, ?_, ?_, ?_, ?_⟩
  · exact grown ▸ state.space.alloc state.tables state.live shows enough flags (by decide)
      (by decide) window fresh
  · intro va first below
    have high := state.high
    have inside : va / pgsize ∈ heapPages p.heapTop := by
      rw [mem_heapPages, old]
      simp only [userBase_eq, pgsize_eq] at first ⊢
      omega
    have low : va < mmapBegin := by omega
    have valid := state.valid inside
    obtain ⟨frame, contents⟩ := state.space.alloc_kept state.live shows inside
      fun new => fresh _ new inside
    have valid' : PteHas (s'.leaf (s'.rootFor p.pgtbl) (va / pgsize)) pteV := by
      rw [same, frame]
      exact valid
    rw [readByte_valid low valid, readByte_valid low valid', same, frame, contents]
  · intro va b first below unmapped mapped
    have outside : va / pgsize ∉ heapPages p.heapTop := fun inside => by
      rw [readByte_valid below (state.valid inside)] at unmapped
      cases unmapped
    have window : va / pgsize ∈ heapWindow := by
      simp only [heapWindow, Set.mem_ofPred_eq, userBase_eq, mmapBegin_eq, pgsize_eq] at first below ⊢
      omega
    have invalid := mt (state.space.mapped _ window).mp outside
    by_cases valid : PteHas (s'.leaf (s'.rootFor p.pgtbl) (va / pgsize)) pteV
    case neg =>
      rw [readByte_invalid below valid] at mapped
      cases mapped
    have here : va / pgsize ∈ pageRange (alignUp p.heapTop / pgsize) n := by
      by_contra elsewhere
      rw [same, alloc_leaf shows state.live, if_neg fun all => elsewhere all.2] at valid
      exact invalid valid
    rw [readByte_valid below valid, same,
      alloc_zero state.tables state.live shows enough flags here] at mapped
    exact (Option.some.inj mapped).symm
  · rw [alloc_pool shows, List.length_drop, reach]
    simp only [pgsize_eq] at page ⊢
    omega

/-- Where no page is crossed, nothing happens. -/
theorem HeapState.moved_same (state : HeapState ram roots s k p) {top : ℕ}
    (same : alignUp top = alignUp p.heapTop) : Moved ram roots s p top s where
  tables := state.tables
  proc := rfl
  kernel := rfl
  space := by
    have pages : heapPages top = heapPages p.heapTop := by
      ext v
      rw [mem_heapPages, mem_heapPages, same]
    rw [pages]
    exact state.space
  effect := by
    refine ⟨fun _ _ _ => rfl, fun va b _ _ unmapped mapped => ?_, by rw [same]⟩
    rw [unmapped] at mapped
    cases mapped

private theorem uvmHeapUngrow_ends (state : HeapState ram roots s k p) {bytes : ℕ}
    (low : userBase + pgsize ≤ p.heapTop - bytes) :
    Ends (uvmHeapUngrow ram p.pgtbl p.heapTop bytes) s (fun top s' => top = p.heapTop - bytes ∧
      Moved ram roots s p top s') Exhausted := by
  have high := state.high
  have old := alignUp_eq high
  have new := alignUp_eq (Nat.lt_of_le_of_lt (Nat.sub_le p.heapTop bytes) high)
  rw [uvmHeapUngrow]
  refine Ends.ite (fun zero => ?_) fun nonzero => ?_
  · exact ⟨by rw [zero]; rfl, state.moved_same rfl⟩
  have some : bytes < p.heapTop := by
    simp only [userBase_eq, pgsize_eq] at low
    omega
  have above : ¬alignUp (p.heapTop - bytes) < userBase + pgsize := by
    rw [new]
    simp only [userBase_eq, pgsize_eq] at low ⊢
    omega
  simp only [if_pos some, if_neg above]
  refine Ends.ite (fun shrinks => ?_) fun stays => ?_
  · have count : ∃ n, alignUp p.heapTop - alignUp (p.heapTop - bytes) = n * pgsize := by
      rw [old, new]
      exact ⟨_, (Nat.sub_mul ..).symm⟩
    obtain ⟨n, len⟩ := count
    have page : alignUp (p.heapTop - bytes) % pgsize = 0 := by rw [new, Nat.mul_mod_left]
    have range (v : ℕ) : v ∈ pageRange (alignUp (p.heapTop - bytes) / pgsize) n ↔
        alignUp (p.heapTop - bytes) ≤ v * pgsize ∧ v * pgsize < alignUp p.heapTop := by
      rw [mem_pageRange]
      simp only [pgsize_eq] at page len shrinks ⊢
      omega
    have inside : pageRange (alignUp (p.heapTop - bytes) / pgsize) n ⊆ heapPages p.heapTop := by
      intro v within
      have bounds := (range v).mp within
      refine ⟨?_, bounds.2⟩
      simp only [userBase_eq, pgsize_eq] at above bounds ⊢
      omega
    have left : heapPages p.heapTop \ pageRange (alignUp (p.heapTop - bytes) / pgsize) n =
        heapPages (p.heapTop - bytes) := by
      ext v
      rw [Set.mem_sdiff, range, mem_heapPages, mem_heapPages]
      omega
    have pages : pagesOf (n * pgsize) = n := pagesOf_mul n
    have limit : alignUp (p.heapTop - bytes) + n * pgsize ≤ vaMax := by
      rw [← len, Nat.add_sub_cancel' (Nat.le_of_lt shrinks), old]
      simp only [mmapBegin_eq, vaMax_eq, pgsize_eq] at high ⊢
      omega
    rw [len, Ends.bind_iff]
    have ends := @vmUnmappages_ends ram _ _ _ _ state.tables state.live _ true page (by omega) limit
    rw [pages, if_pos rfl, state.space.frames state.live inside] at ends
    refine (ends.fails ?_).mono ?_
    · rintro f ⟨⟨a, freed, bad⟩, -⟩
      obtain ⟨i, within, rfl⟩ := List.mem_map.mp freed
      exact absurd (state.space.frame i (inside (List.mem_range'_1.mp within))) bad
    rintro _ s' shows
    obtain ⟨contents, -, kernel, proc⟩ := View.clearRange_page (s.view ram roots) (s.rootFor p.pgtbl)
      true (alignUp (p.heapTop - bytes) / pgsize) n
    replace kernel := (congrArg View.kernPagetable shows.view).trans kernel
    have same : s'.rootFor p.pgtbl = s.rootFor p.pgtbl := by
      rw [rootFor, rootFor, show s'.kernPagetable = s.kernPagetable from kernel]
    refine ⟨rfl, shows.tables, (congrArg View.proc shows.view).trans proc, kernel, ?_, ?_, ?_, ?_⟩
    · rw [← left]
      exact state.space.clear state.live shows inside
    · intro va first below
      have bottom : va < mmapBegin := by omega
      have here : va / pgsize ∈ heapPages (p.heapTop - bytes) := by
        rw [mem_heapPages, new]
        simp only [userBase_eq, pgsize_eq] at first below ⊢
        omega
      rw [← left] at here
      have valid := state.valid here.1
      have entry := clear_leaf state.live shows (va / pgsize)
      rw [if_neg fun all => here.2 all.1] at entry
      have valid' : PteHas (s'.leaf (s'.rootFor p.pgtbl) (va / pgsize)) pteV := by
        rw [same, entry]
        exact valid
      rw [readByte_valid bottom valid, readByte_valid bottom valid', same, entry,
        clear_page shows (state.space.frame _ here.1)]
    · intro va b first below unmapped mapped
      by_cases valid : PteHas (s.leaf (s.rootFor p.pgtbl) (va / pgsize)) pteV
      · rw [readByte_valid below valid] at unmapped
        cases unmapped
      · have entry := clear_leaf state.live shows (va / pgsize)
        rw [if_neg fun all => valid all.2] at entry
        rw [readByte_invalid below (by rwa [same, entry])] at mapped
        cases mapped
    · rw [state.space.freed state.live shows inside, List.length_append, List.length_reverse,
        List.length_map, List.length_range']
      simp only [pgsize_eq] at page len shrinks ⊢
      omega
  · refine ⟨rfl, state.moved_same ?_⟩
    rw [old, new] at stays ⊢
    simp only [pgsize_eq] at stays ⊢
    omega

/-- One call -/
theorem sysBrk_ends (state : HeapState ram roots s k p) {addr : U64}
    (below : brkTop p.heapTop addr.toNat < mmapBegin) :
    Ends (sysBrk ram k addr) s (fun top s' => top = brkTop p.heapTop addr.toNat ∧
      HeapState ram roots s' k { p with heapTop := top } ∧ HeapEffect s p top s') Exhausted := by
  have low := state.low
  have high := state.high
  simp only [mmapBegin_eq] at high
  rw [sysBrk, Ends.bind_iff]
  refine (myproc_ends state.proc).mono ?_
  rintro _ _ ⟨rfl, rfl⟩
  rename_i p s
  refine Ends.ite (fun grows => ?_) fun _ => Ends.ite (fun shrinks => ?_) fun stays => ?_
  · have word : wrap64 (p.heapTop + (addr.toNat - p.heapTop) % 2 ^ 32) =
        p.heapTop + (addr.toNat - p.heapTop) % 2 ^ 32 := wrap64_of_lt (by omega)
    rw [brkTop, if_pos grows, word] at below ⊢
    rw [Ends.bind_iff]
    refine (uvmHeapGrow_ends state below).mono ?_
    rintro top s' ⟨rfl, moved⟩
    rw [Ends.bind_iff, setMyproc, Ends.modify_iff]
    exact ⟨rfl, moved.enter state (Nat.le_trans low (Nat.le_add_right ..)) below⟩
  · have top : brkTop p.heapTop addr.toNat = p.heapTop - (p.heapTop - addr.toNat) % 2 ^ 32 := by
      rw [brkTop, if_neg (by omega), if_pos shrinks]
    have bottom : userBase + pgsize ≤ p.heapTop - (p.heapTop - addr.toNat) % 2 ^ 32 := by omega
    rw [top] at below ⊢
    rw [Ends.bind_iff]
    refine (uvmHeapUngrow_ends state bottom).mono ?_
    rintro top s' ⟨rfl, moved⟩
    rw [Ends.bind_iff, setMyproc, Ends.modify_iff]
    exact ⟨rfl, moved.enter state bottom below⟩
  · rw [brkTop, if_neg (by omega), if_neg stays]
    exact ⟨rfl, state, (state.moved_same rfl).effect⟩

/-- A call that returns a top below the mapped regions -/
def BrkStep (ram : Ram) (k : ℕ) (s : Machine) (addr : U64) (s' : Machine) : Prop :=
  ∃ top < mmapBegin, sysBrk ram k addr s = .ok top s'

private theorem BrkStep.below {addr : U64} (state : HeapState ram roots s k p) (step : BrkStep ram k s addr s') :
    brkTop p.heapTop addr.toNat < mmapBegin := by
  obtain ⟨top, below, result⟩ := step
  by_cases grows : p.heapTop < addr.toNat
  · have returns : Returns (sysBrk ram k addr) s fun top _ => top = brkTop p.heapTop addr.toNat := by
      rw [sysBrk, Returns.bind_iff]
      refine (myproc_ends state.proc (E := fun _ => False)).returns.mono ?_
      rintro _ _ ⟨rfl, rfl⟩
      rw [brkTop, if_pos grows]
      simp only [if_pos grows, Returns.bind_iff, uvmHeapGrow, setMyproc, Returns.modify_iff,
        Returns.pure_iff]
      exact fun _ _ _ => trivial
    exact returns top s' result ▸ below
  · rw [brkTop, if_neg grows]
    have high := state.high
    split <;> omega

private theorem BrkStep.state {addr : U64} (state : HeapState ram roots s k p) (step : BrkStep ram k s addr s') :
    ∃ q, HeapState ram roots s' k q := by
  have ends := sysBrk_ends state (step.below state)
  obtain ⟨top, -, result⟩ := step
  exact ⟨_, (ends.returns top s' result).2.1⟩

/-- The heap follows its top through every sequence of calls: in every state that is reached the mapped
pages are the ones below the rounded top, and the next call moves the top, keeps the bytes below it,
clears what it maps and takes or gives as many pages as it maps or unmaps. -/
theorem heap_follows_top (state : HeapState ram roots s k p) {addrs : List U64} {t : Machine}
    (run : Run (BrkStep ram k) s addrs t) :
    ∃ q, HeapState ram roots t k q ∧ ∀ addr : U64, brkTop q.heapTop addr.toNat < mmapBegin →
      Ends (sysBrk ram k addr) t (fun top s' => top = brkTop q.heapTop addr.toNat ∧
        HeapState ram roots s' k { q with heapTop := top } ∧ HeapEffect t q top s') Exhausted := by
  obtain ⟨q, after⟩ := run.invariant (P := fun s => ∃ q, HeapState ram roots s k q)
    (fun s addr s' step ⟨q, before⟩ => step.state before) ⟨p, state⟩
  exact ⟨q, after, fun addr below => sysBrk_ends after below⟩

/-- A process with one page of code, which is yet to be mapped, and three free pages -/
def heapMachine : Machine where
  pages _ _ := 0
  kernelPool := [0x80201000, 0x80202000]
  userPool := [0x87001000, 0x87002000, 0x87003000]
  freeRegions := []
  kernPagetable := 0x80200000
  proc k := if k = 0 then some ⟨0x80200000, 0, 0x2000, 0, [], .running, none, 0⟩ else none

theorem heapMachine_tables : heapMachine.Tables ⟨0x80200000⟩ {0x80200000} :=
  tables_zero rfl (List.forall_mem_cons.mpr ⟨by decide +kernel, List.forall_mem_cons.mpr
      ⟨by decide +kernel, List.forall_mem_singleton.mpr (by decide +kernel)⟩⟩)
    (List.forall_mem_cons.mpr ⟨by decide +kernel, List.forall_mem_singleton.mpr (by decide +kernel)⟩)
    (by decide +kernel) (by decide +kernel) (by decide +kernel)

theorem heapMachine_state : ∃ s, vmMappages 0x80200000 0x1000 0x87000000 pgsize 0x1e heapMachine =
    .ok () s ∧ s.userPool.length = 3 ∧
      HeapState ⟨0x80200000⟩ {0x80200000} s 0 ⟨0x80200000, 0, 0x2000, 0, [], .running, none, 0⟩ := by
  have maps := @vmMappages_page ⟨0x80200000⟩ {0x80200000} heapMachine 0x80200000 0x87000000 0x1000
    0x1e heapMachine_tables (by decide +kernel) (by decide) (by decide) (by decide)
  have returns : (match vmMappages 0x80200000 0x1000 0x87000000 pgsize 0x1e heapMachine with
      | .ok .. => true
      | .error .. => false) = true := by decide +kernel
  cases result : vmMappages 0x80200000 0x1000 0x87000000 pgsize 0x1e heapMachine with
  | error e s =>
    rw [result] at returns
    cases returns
  | ok u s =>
    simp only [Ends, result] at maps
    have live : (0x80200000 : U64) ∈ ({0x80200000} : Set U64) := rfl
    rw [show heapMachine.rootFor 0x80200000 = 0x80200000 from if_neg (by decide),
      show 0x1000 / pgsize = 1 by decide] at maps
    have root : s.rootFor 0x80200000 = 0x80200000 := if_neg (by decide)
    have empty (v : ℕ) : heapMachine.leaf 0x80200000 v = 0 := entry_zero rfl ..
    have leaf (v : ℕ) : s.leaf 0x80200000 v =
        if v = 1 then paToPte 0x87000000 ||| permFlags 0x1e else 0 := by
      rw [maps.leaf live]
      simp only [View.setLeaf, view_leaf live, empty, true_and]
    have only (v : ℕ) : v ∈ heapPages 0x2000 ↔ v = 1 := by
      rw [mem_heapPages, alignUp_eq (by decide)]
      simp
      omega
    have pool : s.userPool = [0x87001000, 0x87002000, 0x87003000] := congrArg View.userPool maps.view
    refine ⟨s, rfl, pool ▸ rfl, congrFun (congrArg View.proc maps.view) 0, maps.tables, ?_, by decide, by decide, ?_⟩
    · exact root.symm ▸ live
    · rw [root]
      refine ⟨?_, fun v within => ?_, ?_, ?_, ?_, ?_, ?_⟩
      · intro v inside
        rw [only] at inside
        subst inside
        exact ⟨by decide, by decide⟩
      · rw [leaf, only]
        split
        case isTrue one => exact iff_of_true (permFlags_valid _ _) one
        case isFalse other => exact iff_of_false (not_pteHas_zero pteV) other
      · intro v inside
        rw [leaf, if_pos ((only v).mp inside)]
        decide
      · intro v inside
        rw [leaf, if_pos ((only v).mp inside)]
        decide +kernel
      · intro v inside
        rw [leaf, if_pos ((only v).mp inside), pool]
        decide
      · intro v inside v' inside' _
        exact ((only v).mp inside).trans ((only v').mp inside').symm
      · rw [pool]
        decide

theorem heap_follows_top_grows : ∃ s s', HeapState ⟨0x80200000⟩ {0x80200000} s 0
      ⟨0x80200000, 0, 0x2000, 0, [], .running, none, 0⟩ ∧ sysBrk ⟨0x80200000⟩ 0 0x3800 s = .ok 0x3800 s' ∧
    HeapState ⟨0x80200000⟩ {0x80200000} s' 0 ⟨0x80200000, 0, 0x3800, 0, [], .running, none, 0⟩ ∧
    s'.userPool.length = 1 := by
  obtain ⟨s, mapped, three, state⟩ := heapMachine_state
  obtain ⟨q, after, calls⟩ := heap_follows_top state (.nil s)
  obtain rfl := Option.some.inj (state.proc.symm.trans after.proc)
  have ends := calls 0x3800 (by decide +kernel)
  have returns : (match vmMappages 0x80200000 0x1000 0x87000000 pgsize 0x1e heapMachine with
      | .ok _ s => match sysBrk ⟨0x80200000⟩ 0 0x3800 s with
        | .ok .. => true
        | .error .. => false
      | .error .. => false) = true := by decide +kernel
  rw [mapped] at returns
  cases result : sysBrk ⟨0x80200000⟩ 0 0x3800 s with
  | error e s' =>
    simp only [result] at returns
    cases returns
  | ok top s' =>
    simp only [Ends, result] at ends
    obtain ⟨rfl, state', effect⟩ := ends
    refine ⟨s, s', state, result, state', ?_⟩
    have count := effect.pool
    have top : alignUp 0x3800 / pgsize = 4 := by decide +kernel
    have bottom : alignUp 0x2000 / pgsize = 2 := by decide +kernel
    rw [three, show brkTop 0x2000 (0x3800 : U64).toNat = 0x3800 by decide +kernel, top, bottom] at count
    omega

end LabKernel
