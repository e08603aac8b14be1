import LabKernel.Lib.NodeProgram
import LabKernel.Mem.Machine

/-! # The pool of region nodes

`mmap.c` keeps the nodes of `region_pool` that are free in a list under `pool_lock`; the lists of
regions of the processes consist of the others. Here both are as in memory, nodes with two links each,
and the processes run side by side: each section of the pool's lock and each access to a node is a step.
`Mem/Mmap` has the same functions on lists, with the page tables; of what they do to pages nothing
matters here but that a panic ends the run.
-/

namespace LabKernel

/-- `mmap_region_t` in the pool; `next` is a place in `region_pool`. -/
structure RegionNode where
  begin : ℕ
  npages : ℕ
  next : Option ℕ
deriving DecidableEq, Repr

/-- `begin + npages * PGSIZE` -/
def RegionNode.stop (r : RegionNode) : ℕ := wrap64 (r.begin + lenOf r.npages)

/-- Code that works on region nodes and on the field `mmap` of processes. -/
abbrev RegionM := NodeProg RegionNode (Option ℕ)

namespace RegionM

open NodeProg

def mmapRegionAlloc : RegionM ℕ := do
  let n ← takeNode
  storeNode n ⟨0, 0, none⟩
  return n

def mmapRegionFree (n : ℕ) : RegionM Unit := giveNode n

def updateNode (n : ℕ) (f : RegionNode → RegionNode) : RegionM Unit := do
  let r ← loadNode n
  storeNode n (f r)

/-- The link to the node behind `prev`: `prev->next`, or `p->mmap` at the front. -/
def getNext (p : ℕ) : (prev : Option ℕ) → RegionM (Option ℕ)
  | none => getAnchor p
  | some k => do
    let r ← loadNode k
    return r.next

def setNext (p : ℕ) : (prev : Option ℕ) → (next : Option ℕ) → RegionM Unit
  | none, next => putAnchor p next
  | some k, next => updateNode k fun r => { r with next := next }

/-- The loop of `find_free_region`; a list has at most all nodes. -/
def findFreeRegion (reqLen : ℕ) :
    (fuel candidate : ℕ) → (prev curr : Option ℕ) → RegionM (ℕ × Option ℕ)
  | _, candidate, prev, none =>
    return (if wrap64 (candidate + reqLen) ≤ mmapEnd then candidate else 0, prev)
  | 0, _, _, some _ => .hang
  | fuel + 1, candidate, prev, some n => do
    let curr ← loadNode n
    if wrap64 (candidate + reqLen) ≤ curr.begin then return (candidate, prev)
    else findFreeRegion reqLen fuel curr.stop (some n) curr.next

/-- The loop of `uvm_mmap` that looks for the node before a given address -/
def findPlace (addr : ℕ) : (fuel : ℕ) → (prev curr : Option ℕ) → RegionM (Option ℕ × Option ℕ)
  | _, prev, none => return (prev, none)
  | 0, _, some _ => .hang
  | fuel + 1, prev, some n => do
    let curr ← loadNode n
    if curr.begin < addr then
      if addr < curr.stop then .panic "uvm_mmap: overlap detected"
      else findPlace addr fuel (some n) curr.next
    else return (prev, some n)

/-- The first step of `uvm_mmap`: the address and the node before -/
def choosePlace (p start npages : ℕ) : RegionM (ℕ × Option ℕ) := do
  if start = 0 then
    let head ← getAnchor p
    let place ← findFreeRegion (lenOf npages) nMmap mmapBegin none head
    if place.1 = 0 then .panic "uvm_mmap: out of virtual memory"
    else return place
  else
    let mapEnd := wrap64 (start + lenOf npages)
    if start < mmapBegin ∨ mmapEnd < mapEnd then .panic "uvm_mmap: invalid address range"
    else
      let head ← getAnchor p
      let (prev, curr) ← findPlace start nMmap none head
      match curr with
      | none => return (start, prev)
      | some n =>
        let r ← loadNode n
        if r.begin < mapEnd then .panic "uvm_mmap: overlap detected"
        else return (start, prev)

/-- The new node goes behind `prev`. -/
def insertNode (p n : ℕ) (prev : Option ℕ) : RegionM Unit := do
  let next ← getNext p prev
  updateNode n fun r => { r with next := next }
  setNext p prev (some n)

/-- The new node takes in the next one. -/
def mergeNext (n : ℕ) : RegionM Unit := do
  let node ← loadNode n
  match node.next with
  | none => return
  | some m =>
    let next ← loadNode m
    if node.stop = next.begin then
      storeNode n { node with npages := (node.npages + next.npages) % 2 ^ 32, next := next.next }
      mmapRegionFree m
    else return

/-- The node before takes in the new one. -/
def mergePrev (n : ℕ) : (prev : Option ℕ) → RegionM Unit
  | none => return
  | some k => do
    let prev ← loadNode k
    let node ← loadNode n
    if prev.stop = node.begin then
      storeNode k { prev with npages := (prev.npages + node.npages) % 2 ^ 32, next := node.next }
      mmapRegionFree n
    else return

def uvmMmap (p start npages : ℕ) : RegionM Unit := do
  let (addr, prev) ← choosePlace p start npages
  let n ← mmapRegionAlloc
  updateNode n fun r => { r with begin := addr, npages := npages }
  insertNode p n prev
  mergeNext n
  mergePrev n prev

/-- The loop of `uvm_munmap` -/
def munmapLoop (p start unmapEnd : ℕ) : (fuel : ℕ) → (prev walker : Option ℕ) → RegionM Unit
  | _, _, none => return
  | 0, _, some _ => .hang
  | fuel + 1, prev, some n => do
    let walker ← loadNode n
    if unmapEnd ≤ walker.begin then return
    else if walker.stop ≤ start then munmapLoop p start unmapEnd fuel (some n) walker.next
    else if start ≤ walker.begin ∧ walker.stop ≤ unmapEnd then
      setNext p prev walker.next
      mmapRegionFree n
      munmapLoop p start unmapEnd fuel prev walker.next
    else if start ≤ walker.begin ∧ unmapEnd < walker.stop then
      let cutPages := (unmapEnd - walker.begin) / pgsize % 2 ^ 32
      storeNode n { walker with
        begin := unmapEnd, npages := (walker.npages + 2 ^ 32 - cutPages) % 2 ^ 32 }
    else if walker.begin < start ∧ walker.stop ≤ unmapEnd then
      let cutPages := (walker.stop - start) / pgsize % 2 ^ 32
      storeNode n { walker with npages := (walker.npages + 2 ^ 32 - cutPages) % 2 ^ 32 }
      munmapLoop p start unmapEnd fuel (some n) walker.next
    else
      let new ← mmapRegionAlloc
      storeNode new ⟨unmapEnd, (walker.stop - unmapEnd) / pgsize % 2 ^ 32, walker.next⟩
      storeNode n { walker with npages := (start - walker.begin) / pgsize % 2 ^ 32, next := some new }

def uvmMunmap (p start npages : ℕ) : RegionM Unit := do
  let unmapEnd := wrap64 (start + lenOf npages)
  if start < mmapBegin ∨ mmapEnd < unmapEnd then .panic "uvm_munmap: address out of range"
  else
    let head ← getAnchor p
    munmapLoop p start unmapEnd nMmap none head

/-- The loop of `proc_fork` over the regions of the parent: `dst` is `&child->mmap`, here `none`, or the
link of the node copied last. -/
def copyRegions (child : ℕ) : (fuel : ℕ) → (dst src : Option ℕ) → RegionM Unit
  | _, _, none => return
  | 0, _, some _ => .hang
  | fuel + 1, dst, some n => do
    let src ← loadNode n
    let new ← mmapRegionAlloc
    storeNode new ⟨src.begin, src.npages, none⟩
    setNext child dst (some new)
    copyRegions child fuel (some new) src.next

/-- `proc_fork`; `proc_alloc` empties the list of the child. -/
def procFork (p child : ℕ) : RegionM Unit := do
  putAnchor child none
  let head ← getAnchor p
  copyRegions child nMmap none head

/-- The loop of `proc_free` over the list of regions -/
def freeRegions : (fuel : ℕ) → (m : Option ℕ) → RegionM Unit
  | _, none => return
  | 0, some _ => .hang
  | fuel + 1, some n => do
    let r ← loadNode n
    mmapRegionFree n
    freeRegions fuel r.next

/-- `proc_free` of a process with a page table -/
def procFree (child : ℕ) : RegionM Unit := do
  let head ← getAnchor child
  freeRegions nMmap head
  putAnchor child none

end RegionM

/-! ## Lists of nodes -/

namespace NodeView

variable {s : NodeView RegionNode (Option ℕ)} {p n : ℕ} {A B l : List ℕ}

def links (s : NodeView RegionNode (Option ℕ)) (n : ℕ) : Option ℕ := (s.node n).next

@[simp] theorem links_update (s : NodeView RegionNode (Option ℕ)) (n : ℕ) (r : RegionNode) (mine : Set ℕ) :
    links ⟨Function.update s.node n r, s.anchor, mine⟩ = Function.update s.links n r.next := by
  funext m
  rcases eq_or_ne m n with rfl | other
  · simp [links]
  · simp [links, other]

/-- The list of a process consists of all nodes of a thread. -/
structure Listed (s : NodeView RegionNode (Option ℕ)) (p : ℕ) (l : List ℕ) : Prop where
  segment : Segment s.links (s.anchor p) l none
  nodup : l.Nodup
  small : ∀ n ∈ l, n < nMmap
  mine : ∀ n, n ∈ s.mine ↔ n ∈ l

/-- The lists of two processes consist of all nodes of a thread. -/
structure ListedTwo (s : NodeView RegionNode (Option ℕ)) (p q : ℕ) (l m : List ℕ) : Prop where
  first : Segment s.links (s.anchor p) l none
  second : Segment s.links (s.anchor q) m none
  nodup : (l ++ m).Nodup
  small : ∀ n ∈ l ++ m, n < nMmap
  mine : ∀ n, n ∈ s.mine ↔ n ∈ l ++ m

end NodeView

/-- Lists of different nodes are no longer than the pool. -/
theorem length_le_nMmap {l : List ℕ} (nodup : l.Nodup) (small : ∀ n ∈ l, n < nMmap) : l.length ≤ nMmap := by
  have sub : l.toFinset ⊆ Finset.range nMmap := fun n member =>
    Finset.mem_range.mpr (small n (List.mem_toFinset.mp member))
  have card := Finset.card_le_card sub
  rwa [List.toFinset_card_of_nodup nodup, Finset.card_range] at card

namespace RegionM

open NodeView

variable {s : NodeView RegionNode (Option ℕ)} {anchors : Set ℕ} {p n : ℕ} {A B l : List ℕ}
variable {start : Option ℕ}

/-- The link behind a node leads to the rest of the list. -/
theorem next_of {next : ℕ → Option ℕ} (segment : Segment next start (A ++ n :: B) none) :
    next n = B.head? := by
  obtain ⟨mid, -, rest⟩ := Segment.append_iff.mp segment
  exact rest.2.head

private theorem findFreeRegion_safe (segment : Segment s.links start (A ++ B) none)
    (mine : ∀ n ∈ A ++ B, n ∈ s.mine) {fuel : ℕ} (enough : B.length ≤ fuel) (reqLen candidate : ℕ) :
    Safe nMmap anchors (fun r s' => s' = s ∧ ∃ A' B', A ++ B = A' ++ B' ∧ r.2 = A'.getLast?)
      (findFreeRegion reqLen fuel candidate A.getLast? B.head?) s := by
  induction B generalizing A fuel candidate with
  | nil =>
    have done : findFreeRegion reqLen fuel candidate A.getLast? ([] : List ℕ).head? =
        pure (if wrap64 (candidate + reqLen) ≤ mmapEnd then candidate else 0, A.getLast?) := by
      cases fuel <;> rfl
    rw [done, Safe.pure_iff]
    exact ⟨rfl, A, [], rfl, rfl⟩
  | cons n B ih =>
    obtain ⟨fuel, rfl⟩ : ∃ f, fuel = f + 1 := Nat.exists_eq_add_one.mpr (Nat.lt_of_lt_of_le (Nat.succ_pos _) enough)
    rw [List.head?_cons, findFreeRegion, Safe.bind_iff, Safe.loadNode_iff]
    refine ⟨mine n (by simp), Safe.ite (fun _ => ?_) fun _ => ?_⟩
    · exact ⟨rfl, A, n :: B, rfl, rfl⟩
    · have link : (s.node n).next = B.head? := next_of segment
      rw [List.append_cons] at segment mine
      have next := ih segment mine (Nat.le_of_succ_le_succ enough) (s.node n).stop
      rw [List.getLast?_concat] at next
      rw [link, List.append_cons]
      exact next

private theorem findPlace_safe (segment : Segment s.links start (A ++ B) none)
    (mine : ∀ n ∈ A ++ B, n ∈ s.mine) {fuel : ℕ} (enough : B.length ≤ fuel) (addr : ℕ) :
    Safe nMmap anchors (fun r s' => s' = s ∧ ∃ A' B', A ++ B = A' ++ B' ∧ r = (A'.getLast?, B'.head?))
      (findPlace addr fuel A.getLast? B.head?) s := by
  induction B generalizing A fuel with
  | nil =>
    have done : findPlace addr fuel A.getLast? ([] : List ℕ).head? = pure (A.getLast?, none) := by
      cases fuel <;> rfl
    rw [done, Safe.pure_iff]
    exact ⟨rfl, A, [], rfl, rfl⟩
  | cons n B ih =>
    obtain ⟨fuel, rfl⟩ : ∃ f, fuel = f + 1 := Nat.exists_eq_add_one.mpr (Nat.lt_of_lt_of_le (Nat.succ_pos _) enough)
    rw [List.head?_cons, findPlace, Safe.bind_iff, Safe.loadNode_iff]
    refine ⟨mine n (by simp), Safe.ite (fun _ => Safe.ite (fun _ => trivial) fun _ => ?_) fun _ => ?_⟩
    · have link : (s.node n).next = B.head? := next_of segment
      rw [List.append_cons] at segment mine
      have next := ih segment mine (Nat.le_of_succ_le_succ enough)
      rw [List.getLast?_concat] at next
      rw [link, List.append_cons]
      exact next
    · exact ⟨rfl, A, n :: B, rfl, rfl⟩

/-- `uvm_mmap` finds a place in the list, or panics. -/
theorem choosePlace_safe (reach : p ∈ anchors) (listed : s.Listed p l) (start npages : ℕ) :
    Safe nMmap anchors (fun r s' => s' = s ∧ ∃ A B, l = A ++ B ∧ r.2 = A.getLast?)
      (choosePlace p start npages) s := by
  have enough := length_le_nMmap listed.nodup listed.small
  have mine (n : ℕ) (member : n ∈ [] ++ l) : n ∈ s.mine := (listed.mine n).mpr member
  have head := listed.segment.head
  rw [choosePlace]
  refine Safe.ite (fun _ => ?_) fun _ => Safe.ite (fun _ => trivial) fun _ => ?_
  · rw [Safe.bind_iff, Safe.getAnchor_iff, Safe.bind_iff, head]
    refine ⟨reach, (@findFreeRegion_safe s anchors [] l _ listed.segment mine _ enough _ _).mono ?_⟩
    rintro place s' ⟨rfl, A, B, cut, prev⟩
    exact Safe.ite (fun _ => trivial) fun _ => ⟨rfl, A, B, cut, prev⟩
  · rw [Safe.bind_iff, Safe.getAnchor_iff, Safe.bind_iff, head]
    refine ⟨reach, (@findPlace_safe s anchors [] l _ listed.segment mine _ enough _).mono ?_⟩
    rintro ⟨prev, curr⟩ s' ⟨rfl, A, B, cut, found⟩
    obtain ⟨rfl, rfl⟩ := Prod.mk.inj found
    rw [List.nil_append] at cut
    cases B with
    | nil => exact ⟨rfl, A, [], cut, rfl⟩
    | cons n B =>
      have inside : n ∈ l := cut ▸ by simp
      rw [List.head?_cons]
      refine Safe.bind_iff.mpr (Safe.loadNode_iff.mpr ⟨(listed.mine n).mpr inside, ?_⟩)
      exact Safe.ite (fun _ => trivial) fun _ => ⟨rfl, A, n :: B, cut, rfl⟩

private theorem getNext_safe (reach : p ∈ anchors) (segment : Segment s.links (s.anchor p) (A ++ B) none)
    (mine : ∀ n ∈ A, n ∈ s.mine) :
    Safe nMmap anchors (fun r s' => r = B.head? ∧ s' = s) (getNext p A.getLast?) s := by
  obtain rfl | ⟨A, k, rfl⟩ := A.eq_nil_or_concat'
  · exact ⟨reach, segment.head, rfl⟩
  · rw [List.append_assoc] at segment
    rw [List.getLast?_concat, getNext, Safe.bind_iff, Safe.loadNode_iff]
    exact ⟨mine k (by simp), next_of segment, rfl⟩

/-- Writing the link behind the last of some nodes. -/
theorem setNext_safe (reach : p ∈ anchors) {old : Option ℕ} (segment : Segment s.links (s.anchor p) A old)
    (nodup : A.Nodup) (mine : ∀ n ∈ A, n ∈ s.mine) (next : Option ℕ) :
    Safe nMmap anchors (fun _ s' => s'.mine = s.mine ∧ (∀ q ≠ p, s'.anchor q = s.anchor q) ∧
        (∀ n, n ∉ A → s'.node n = s.node n) ∧ Segment s'.links (s'.anchor p) A next)
      (setNext p A.getLast? next) s := by
  obtain rfl | ⟨A, k, rfl⟩ := A.eq_nil_or_concat'
  · refine ⟨reach, rfl, fun q other => Function.update_of_ne other .., fun _ _ => rfl, ?_⟩
    exact Function.update_self ..
  · have apart : k ∉ A := fun member => by
      have disjoint := (List.nodup_append.mp nodup).2.2 k member k (by simp)
      exact disjoint rfl
    rw [List.getLast?_concat, setNext, updateNode, Safe.bind_iff, Safe.loadNode_iff, Safe.storeNode_iff]
    refine ⟨mine k (by simp), mine k (by simp), rfl, fun _ _ => rfl, fun n outside => ?_, ?_⟩
    · refine Function.update_of_ne ?_ ..
      rintro rfl
      exact outside (by simp)
    · rw [Segment.snoc_iff] at segment ⊢
      rw [links_update]
      exact ⟨(Segment.update_iff apart _).mpr segment.1, Function.update_self ..⟩

/-- Links in front of a node and behind it. -/
theorem segment_middle {next : ℕ → Option ℕ} :
    Segment next start (A ++ n :: B) none ↔ Segment next start A (some n) ∧ Segment next (next n) B none := by
  constructor
  · intro segment
    obtain ⟨mid, front, rest⟩ := Segment.append_iff.mp segment
    exact ⟨rest.1 ▸ front, rest.2⟩
  · rintro ⟨front, rest⟩
    exact Segment.append_iff.mpr ⟨some n, front, rfl, rest⟩

/-- A node that is not listed yet comes behind `prev`. -/
theorem insertNode_safe (reach : p ∈ anchors) (segment : Segment s.links (s.anchor p) (A ++ B) none)
    (nodup : (A ++ B).Nodup) (mine : ∀ k ∈ A, k ∈ s.mine) (fresh : n ∉ A ++ B) (taken : n ∈ s.mine) :
    Safe nMmap anchors (fun _ s' => s'.mine = s.mine ∧ Segment s'.links (s'.anchor p) (A ++ n :: B) none)
      (insertNode p n A.getLast?) s := by
  obtain ⟨freshA, freshB⟩ : n ∉ A ∧ n ∉ B := by simpa using fresh
  obtain ⟨nodupA, -, apart⟩ := List.nodup_append.mp nodup
  rw [insertNode, Safe.bind_iff]
  refine (getNext_safe reach segment mine).mono ?_
  rintro _ s₀ ⟨rfl, same⟩
  rw [same, updateNode, Safe.bind_iff, Safe.bind_iff, Safe.loadNode_iff, Safe.storeNode_iff]
  refine ⟨taken, taken, ?_⟩
  obtain ⟨mid, front, rest⟩ := Segment.append_iff.mp segment
  obtain rfl := rest.head
  generalize linked : (⟨Function.update s.node n _, s.anchor, s.mine⟩ : NodeView RegionNode (Option ℕ)) = s₁
  have links : s₁.links = Function.update s.links n B.head? := by
    rw [← linked, links_update]
  obtain ⟨node, anchor, own⟩ : s₁.links n = B.head? ∧ s₁.anchor = s.anchor ∧ s₁.mine = s.mine := by
    rw [links, Function.update_self, ← linked]
    exact ⟨rfl, rfl, rfl⟩
  have frontKept : Segment s₁.links (s₁.anchor p) A B.head? := by
    rw [links, anchor]
    exact (Segment.update_iff freshA _).mpr front
  refine (setNext_safe reach frontKept nodupA (own ▸ mine) _).mono ?_
  rintro _ s' ⟨mine', -, others, front'⟩
  refine ⟨mine'.trans own, ?_⟩
  have same (k : ℕ) (outside : k ∉ A) : s'.links k = s₁.links k := congrArg RegionNode.next (others k outside)
  refine segment_middle.mpr ⟨front', ?_⟩
  rw [same n freshA, node, Segment.congr fun k member => same k fun inside => apart k inside k member rfl,
    links, Segment.update_iff freshB]
  exact rest

/-- Taking in the next node removes it from the list. -/
theorem mergeNext_safe (listed : s.Listed p (A ++ n :: B)) :
    Safe nMmap anchors (fun _ s' => ∃ B', s'.Listed p (A ++ n :: B')) (mergeNext n) s := by
  have mine (k : ℕ) (member : k ∈ A ++ n :: B) : k ∈ s.mine := (listed.mine k).mpr member
  have link : (s.node n).next = B.head? := next_of listed.segment
  rw [mergeNext, Safe.bind_iff, Safe.loadNode_iff, link]
  refine ⟨mine n (by simp), ?_⟩
  cases B with
  | nil => exact ⟨[], listed⟩
  | cons m B =>
    rw [List.head?_cons]
    refine Safe.bind_iff.mpr (Safe.loadNode_iff.mpr ⟨mine m (by simp), ?_⟩)
    refine Safe.ite (fun _ => ?_) fun _ => ⟨m :: B, listed⟩
    obtain ⟨nodupA, nodupB, apart⟩ := List.nodup_append.mp listed.nodup
    obtain ⟨notB, nodupB⟩ := List.nodup_cons.mp nodupB
    obtain ⟨notM, nodupB⟩ := List.nodup_cons.mp nodupB
    obtain ⟨notN, notB⟩ : n ≠ m ∧ n ∉ B := by simpa using notB
    have notA : n ∉ A := fun inside => apart n inside n (by simp) rfl
    obtain ⟨front, -, rest⟩ := (segment_middle.trans (and_congr_right fun _ => Segment.cons_iff)).mp listed.segment
    rw [Safe.bind_iff, Safe.storeNode_iff, mmapRegionFree, Safe.giveNode_iff]
    refine ⟨mine n (by simp), mine m (by simp), B, ?_, ?_, fun k member => listed.small k ?_, fun k => ?_⟩
    · rw [links_update]
      refine segment_middle.mpr ⟨(Segment.update_iff notA _).mpr front, ?_⟩
      rw [Function.update_self, Segment.update_iff notB]
      exact rest
    · refine listed.nodup.sublist ?_
      exact (List.Sublist.refl A).append ((List.sublist_cons_self m B).cons_cons n)
    · rcases List.mem_append.mp member with left | right
      · exact List.mem_append_left _ left
      · rcases List.mem_cons.mp right with rfl | later
        · simp
        · simp [later]
    · have away : k = m → k ∉ A ++ n :: B := by
        rintro rfl
        simp only [List.mem_append, List.mem_cons, not_or]
        exact ⟨fun inside => apart k inside k (by simp) rfl, notN.symm, notM⟩
      have inside := listed.mine k
      simp only [Set.mem_sdiff, Set.mem_singleton_iff, inside]
      simp only [List.mem_append, List.mem_cons] at away ⊢
      tauto

/-- Being taken in by the node before removes a node from the list. -/
theorem mergePrev_safe (listed : s.Listed p (A ++ n :: B)) :
    Safe nMmap anchors (fun _ s' => ∃ l, s'.Listed p l) (mergePrev n A.getLast?) s := by
  have mine (k : ℕ) (member : k ∈ A ++ n :: B) : k ∈ s.mine := (listed.mine k).mpr member
  obtain rfl | ⟨A, k, rfl⟩ := A.eq_nil_or_concat'
  · exact ⟨_, listed⟩
  · rw [List.getLast?_concat, mergePrev, Safe.bind_iff, Safe.loadNode_iff, Safe.bind_iff, Safe.loadNode_iff]
    refine ⟨mine k (by simp), mine n (by simp), Safe.ite (fun _ => ?_) fun _ => ⟨_, listed⟩⟩
    obtain ⟨nodupA, nodupB, apart⟩ := List.nodup_append.mp listed.nodup
    obtain ⟨notB, nodupB⟩ := List.nodup_cons.mp nodupB
    have notA : k ∉ A := fun inside => (List.nodup_append.mp nodupA).2.2 k inside k (by simp) rfl
    have notK : k ∉ n :: B := fun inside => apart k (by simp) k inside rfl
    obtain ⟨front, rest⟩ := segment_middle.mp listed.segment
    rw [Segment.snoc_iff] at front
    rw [Safe.bind_iff, Safe.storeNode_iff, mmapRegionFree, Safe.giveNode_iff]
    refine ⟨mine k (by simp), mine n (by simp), A ++ k :: B, ?_, ?_, fun m member => listed.small m ?_, fun m => ?_⟩
    · rw [links_update]
      refine segment_middle.mpr ⟨(Segment.update_iff notA _).mpr front.1, ?_⟩
      rw [Function.update_self, Segment.update_iff fun inside => notK (List.mem_cons_of_mem n inside)]
      exact rest
    · have sub : (A ++ k :: B).Sublist (A ++ [k] ++ n :: B) := by
        rw [List.append_assoc]
        exact (List.Sublist.refl A).append ((List.sublist_cons_self n B).cons_cons k)
      exact listed.nodup.sublist sub
    · simp only [List.mem_append, List.mem_cons] at member ⊢
      tauto
    · have away : m = n → m ∉ A ++ k :: B := by
        rintro rfl
        simp only [List.mem_append, List.mem_cons, not_or]
        exact ⟨fun inside => apart m (by simp [inside]) m (by simp) rfl,
          fun same => notK (by simp [same]), notB⟩
      have inside := listed.mine m
      simp only [Set.mem_sdiff, Set.mem_singleton_iff, inside]
      simp only [List.mem_append, List.mem_cons, List.not_mem_nil, or_false] at away ⊢
      tauto

private theorem mmapRegionAlloc_safe : Safe nMmap anchors (fun n s' => n < nMmap ∧ n ∉ s.mine ∧
    s'.mine = insert n s.mine ∧ s'.anchor = s.anchor ∧ ∀ k ≠ n, s'.node k = s.node k) mmapRegionAlloc s := by
  rw [mmapRegionAlloc, Safe.bind_iff, Safe.takeNode_iff]
  intro n small fresh r
  rw [Safe.bind_iff, Safe.storeNode_iff]
  refine ⟨Set.mem_insert n _, small, fresh, rfl, rfl, fun k other => ?_⟩
  dsimp only
  rw [Function.update_of_ne other, Function.update_of_ne other]

private theorem updateNode_safe (mine : n ∈ s.mine) (f : RegionNode → RegionNode) :
    Safe nMmap anchors (fun _ s' => s'.mine = s.mine ∧ s'.anchor = s.anchor ∧ s'.node n = f (s.node n) ∧
      ∀ k ≠ n, s'.node k = s.node k) (updateNode n f) s := by
  rw [updateNode, Safe.bind_iff, Safe.loadNode_iff, Safe.storeNode_iff]
  exact ⟨mine, mine, rfl, rfl, Function.update_self .., fun k other => Function.update_of_ne other ..⟩

/-- `uvm_mmap` turns the list of its process, which are all nodes that it owns, into another one. -/
theorem uvmMmap_safe (reach : p ∈ anchors) (listed : s.Listed p l) (start npages : ℕ) :
    Safe nMmap anchors (fun _ s' => ∃ l', s'.Listed p l') (uvmMmap p start npages) s := by
  rw [uvmMmap, Safe.bind_iff]
  refine (choosePlace_safe reach listed start npages).mono ?_
  rintro ⟨addr, prev⟩ s₀ ⟨same, A, B, rfl, last⟩
  obtain rfl : prev = A.getLast? := last
  rw [same]
  refine Safe.bind_iff.mpr (mmapRegionAlloc_safe.mono ?_)
  rintro n s₁ ⟨small, fresh, mine₁, anchor₁, node₁⟩
  have own : n ∈ s₁.mine := mine₁ ▸ Set.mem_insert n _
  refine Safe.bind_iff.mpr ((updateNode_safe own _).mono ?_)
  rintro _ s₂ ⟨mine₂, anchor₂, -, node₂⟩
  have absent : n ∉ A ++ B := fun inside => fresh ((listed.mine n).mpr inside)
  have links (k : ℕ) (inside : k ∈ A ++ B) : s₂.links k = s.links k := by
    have other : k ≠ n := ne_of_mem_of_not_mem inside absent
    exact congrArg RegionNode.next ((node₂ k other).trans (node₁ k other))
  have segment : Segment s₂.links (s₂.anchor p) (A ++ B) none := by
    rw [anchor₂, anchor₁]
    exact (Segment.congr links).mpr listed.segment
  have mine (k : ℕ) : k ∈ s₂.mine ↔ k = n ∨ k ∈ A ++ B := by
    rw [mine₂, mine₁, Set.mem_insert_iff, listed.mine]
  refine Safe.bind_iff.mpr ((insertNode_safe reach segment listed.nodup
    (fun k member => (mine k).mpr (Or.inr (List.mem_append_left B member))) absent
    ((mine n).mpr (Or.inl rfl))).mono ?_)
  rintro _ s₃ ⟨mine₃, segment₃⟩
  have perm : List.Perm (A ++ n :: B) (n :: (A ++ B)) := List.perm_middle
  have listed₃ : s₃.Listed p (A ++ n :: B) := by
    refine ⟨segment₃, perm.nodup_iff.mpr (List.nodup_cons.mpr ⟨absent, listed.nodup⟩), fun k member => ?_,
      fun k => ?_⟩
    · rcases List.mem_cons.mp (perm.mem_iff.mp member) with rfl | inside
      · exact small
      · exact listed.small k inside
    · rw [mine₃, mine, perm.mem_iff, List.mem_cons]
  refine Safe.bind_iff.mpr ((mergeNext_safe listed₃).mono ?_)
  rintro _ s₄ ⟨B', listed₄⟩
  exact mergePrev_safe listed₄

/-- The same holds of the loop of `uvm_munmap`, which has passed the nodes `A`. -/
theorem munmapLoop_safe (reach : p ∈ anchors) (listed : s.Listed p (A ++ B)) {fuel : ℕ}
    (enough : B.length ≤ fuel) (start unmapEnd : ℕ) :
    Safe nMmap anchors (fun _ s' => ∃ l, s'.Listed p l)
      (munmapLoop p start unmapEnd fuel A.getLast? B.head?) s := by
  induction B generalizing A s fuel with
  | nil =>
    have done : munmapLoop p start unmapEnd fuel A.getLast? ([] : List ℕ).head? = pure () := by
      cases fuel <;> rfl
    rw [done, Safe.pure_iff]
    exact ⟨_, listed⟩
  | cons n B ih =>
    obtain ⟨fuel, rfl⟩ : ∃ f, fuel = f + 1 :=
      Nat.exists_eq_add_one.mpr (Nat.lt_of_lt_of_le (Nat.succ_pos _) enough)
    have enough := Nat.le_of_succ_le_succ enough
    have mine (k : ℕ) (member : k ∈ A ++ n :: B) : k ∈ s.mine := (listed.mine k).mpr member
    have own := mine n (by simp)
    have link : (s.node n).next = B.head? := next_of listed.segment
    -- a node of the list may change if its link stays
    have change (r : RegionNode) (same : r.next = (s.node n).next) :
        Listed { s with node := Function.update s.node n r } p (A ++ n :: B) := by
      refine ⟨?_, listed.nodup, listed.small, listed.mine⟩
      rw [links_update, same]
      exact (Function.update_eq_self n s.links).symm ▸ listed.segment
    have forward (s : NodeView RegionNode (Option ℕ)) (listed : s.Listed p (A ++ n :: B)) :
        Safe nMmap anchors (fun _ s' => ∃ l, s'.Listed p l)
          (munmapLoop p start unmapEnd fuel (some n) B.head?) s := by
      rw [List.append_cons] at listed
      have next := ih listed enough
      rwa [List.getLast?_concat] at next
    obtain ⟨nodupA, nodupB, apart⟩ := List.nodup_append.mp listed.nodup
    obtain ⟨notB, nodupB⟩ := List.nodup_cons.mp nodupB
    have notA : n ∉ A := fun inside => apart n inside n (by simp) rfl
    obtain ⟨front, rest⟩ := segment_middle.mp listed.segment
    rw [List.head?_cons, munmapLoop, Safe.bind_iff, Safe.loadNode_iff]
    refine ⟨own, Safe.ite (fun _ => ⟨_, listed⟩) fun _ => Safe.ite (fun _ => ?_) fun _ =>
      Safe.ite (fun _ => ?_) fun _ => Safe.ite (fun _ => ?_) fun _ => Safe.ite (fun _ => ?_) fun _ => ?_⟩
    · rw [link]
      exact forward s listed
    · -- the whole region goes
      rw [link]
      refine Safe.bind_iff.mpr ((setNext_safe reach front nodupA
        (fun k member => mine k (List.mem_append_left _ member)) B.head?).mono ?_)
      rintro _ s₁ ⟨mine₁, -, others, front₁⟩
      rw [Safe.bind_iff, mmapRegionFree, Safe.giveNode_iff]
      refine ⟨mine₁ ▸ own, ih ⟨?_, ?_, fun k member => listed.small k ?_, fun k => ?_⟩ enough⟩
      · have same (k : ℕ) (member : k ∈ B) : s₁.links k = s.links k :=
          congrArg RegionNode.next (others k fun inside => apart k inside k (List.mem_cons_of_mem n member) rfl)
        change s.links n = B.head? at link
        rw [link, ← Segment.congr same] at rest
        exact Segment.append_iff.mpr ⟨B.head?, front₁, rest⟩
      · exact listed.nodup.sublist ((List.Sublist.refl A).append (List.sublist_cons_self n B))
      · rcases List.mem_append.mp member with left | right
        · exact List.mem_append_left _ left
        · exact List.mem_append_right _ (List.mem_cons_of_mem n right)
      · have away : k = n → k ∉ A ++ B := by
          rintro rfl
          simp [notA, notB]
        have inside := listed.mine k
        simp only [mine₁, Set.mem_sdiff, Set.mem_singleton_iff, inside]
        simp only [List.mem_append, List.mem_cons] at away ⊢
        tauto
    · exact ⟨own, _, change _ rfl⟩
    · rw [Safe.bind_iff, Safe.storeNode_iff, link]
      exact ⟨own, forward _ (change _ link.symm)⟩
    · -- a hole in the middle splits the region
      refine Safe.bind_iff.mpr (mmapRegionAlloc_safe.mono ?_)
      rintro new s₁ ⟨small, fresh, mine₁, anchor₁, node₁⟩
      have absent : new ∉ A ++ n :: B := fun inside => fresh ((listed.mine new).mpr inside)
      obtain ⟨newA, newN, newB⟩ : new ∉ A ∧ new ≠ n ∧ new ∉ B := by simpa using absent
      have links (k : ℕ) (other : k ≠ new) : s₁.links k = s.links k := congrArg RegionNode.next (node₁ k other)
      have keeps {l : List ℕ} (outside : new ∉ l) {first stop : Option ℕ} :
          Segment s₁.links first l stop ↔ Segment s.links first l stop :=
        Segment.congr fun k member => links k (ne_of_mem_of_not_mem member outside)
      rw [Safe.bind_iff, Safe.storeNode_iff, Safe.storeNode_iff]
      refine ⟨mine₁ ▸ Set.mem_insert new _, mine₁ ▸ Set.mem_insert_of_mem new own, A ++ n :: new :: B, ?_⟩
      have perm : List.Perm (A ++ n :: new :: B) (new :: (A ++ n :: B)) := by
        rw [List.append_cons, List.append_cons A n B]
        exact List.perm_middle
      refine ⟨?_, perm.nodup_iff.mpr (List.nodup_cons.mpr ⟨absent, listed.nodup⟩), fun k member => ?_, fun k => ?_⟩
      · have both := links_update ⟨Function.update s₁.node new
            ⟨unmapEnd, ((s.node n).stop - unmapEnd) / pgsize % 2 ^ 32, (s.node n).next⟩, s₁.anchor, s₁.mine⟩ n
          { s.node n with npages := (start - (s.node n).begin) / pgsize % 2 ^ 32, next := some new } s₁.mine
        rw [both, links_update]
        refine segment_middle.mpr ⟨?_, ?_⟩
        · rw [Segment.update_iff notA, Segment.update_iff newA, keeps newA, anchor₁]
          exact front
        · rw [Function.update_self, Segment.cons_iff, Function.update_of_ne newN, Function.update_self,
            Segment.update_iff notB, Segment.update_iff newB, keeps newB]
          exact ⟨rfl, rest⟩
      · rcases List.mem_cons.mp (perm.mem_iff.mp member) with rfl | inside
        · exact small
        · exact listed.small k inside
      · rw [mine₁, Set.mem_insert_iff, listed.mine, perm.mem_iff, List.mem_cons]

/-- `uvm_munmap` turns the list of its process into another one, too. -/
theorem uvmMunmap_safe (reach : p ∈ anchors) (listed : s.Listed p l) (start npages : ℕ) :
    Safe nMmap anchors (fun _ s' => ∃ l', s'.Listed p l') (uvmMunmap p start npages) s := by
  rw [uvmMunmap]
  refine Safe.ite (fun _ => trivial) fun _ => Safe.bind_iff.mpr (Safe.getAnchor_iff.mpr ⟨reach, ?_⟩)
  rw [listed.segment.head]
  exact @munmapLoop_safe s anchors p [] l reach listed _ (length_le_nMmap listed.nodup listed.small) _ _

/-- The loop of `proc_fork` has copied some nodes to `m`, and it leaves the list of the parent alone. -/
theorem copyRegions_safe {child : ℕ} (reach : child ∈ anchors) (apart : p ≠ child) {m : List ℕ}
    (listed : s.ListedTwo p child (A ++ B) m) {fuel : ℕ} (enough : B.length ≤ fuel) :
    Safe nMmap anchors (fun _ s' => ∃ m', s'.ListedTwo p child (A ++ B) m')
      (copyRegions child fuel m.getLast? B.head?) s := by
  induction B generalizing A s fuel m with
  | nil =>
    have done : copyRegions child fuel m.getLast? ([] : List ℕ).head? = pure () := by
      cases fuel <;> rfl
    rw [done, Safe.pure_iff]
    exact ⟨_, listed⟩
  | cons n B ih =>
    obtain ⟨fuel, rfl⟩ : ∃ f, fuel = f + 1 :=
      Nat.exists_eq_add_one.mpr (Nat.lt_of_lt_of_le (Nat.succ_pos _) enough)
    have link : (s.node n).next = B.head? := next_of listed.first
    obtain ⟨nodupL, nodupM, disjoint⟩ := List.nodup_append.mp listed.nodup
    rw [List.head?_cons, copyRegions, Safe.bind_iff, Safe.loadNode_iff, link]
    refine ⟨(listed.mine n).mpr (by simp), Safe.bind_iff.mpr (mmapRegionAlloc_safe.mono ?_)⟩
    rintro new s₁ ⟨small, fresh, mine₁, anchor₁, node₁⟩
    have absent : new ∉ A ++ n :: B ++ m := fun inside => fresh ((listed.mine new).mpr inside)
    obtain ⟨newL, newM⟩ : new ∉ A ++ n :: B ∧ new ∉ m := not_or.mp (List.mem_append.not.mp absent)
    rw [Safe.bind_iff, Safe.storeNode_iff]
    refine ⟨mine₁ ▸ Set.mem_insert new _, ?_⟩
    generalize stored : (⟨Function.update s₁.node new _, s₁.anchor, s₁.mine⟩ :
      NodeView RegionNode (Option ℕ)) = s₂
    have node₂ (k : ℕ) (other : k ≠ new) : s₂.node k = s.node k := by
      rw [← stored]
      exact (Function.update_of_ne other ..).trans (node₁ k other)
    obtain ⟨last, anchor₂, mine₂⟩ : s₂.links new = none ∧ s₂.anchor = s.anchor ∧ s₂.mine = insert new s.mine := by
      rw [← stored, links_update, Function.update_self]
      exact ⟨rfl, anchor₁, mine₁⟩
    have second : Segment s₂.links (s₂.anchor child) m none := by
      have same (k : ℕ) (member : k ∈ m) : s₂.links k = s.links k :=
        congrArg RegionNode.next (node₂ k (ne_of_mem_of_not_mem member newM))
      rw [anchor₂, Segment.congr same]
      exact listed.second
    have own (k : ℕ) (member : k ∈ m) : k ∈ s₂.mine :=
      mine₂ ▸ Set.mem_insert_of_mem new ((listed.mine k).mpr (List.mem_append_right _ member))
    refine Safe.bind_iff.mpr ((setNext_safe reach second nodupM own (some new)).mono ?_)
    rintro _ s₃ ⟨mine₃, anchor₃, node₃, second₃⟩
    have first₃ : Segment s₃.links (s₃.anchor p) (A ++ n :: B) none := by
      have same (k : ℕ) (member : k ∈ A ++ n :: B) : s₃.links k = s.links k :=
        congrArg RegionNode.next ((node₃ k fun inside => disjoint k member k inside rfl).trans
          (node₂ k (ne_of_mem_of_not_mem member newL)))
      rw [anchor₃ p apart, anchor₂, Segment.congr same]
      exact listed.first
    have perm : List.Perm (A ++ n :: B ++ (m ++ [new])) (new :: (A ++ n :: B ++ m)) := by
      rw [← List.append_assoc]
      exact List.perm_append_singleton _ _
    have listed₃ : s₃.ListedTwo p child (A ++ n :: B) (m ++ [new]) := by
      refine ⟨first₃, Segment.snoc_iff.mpr ⟨second₃, ?_⟩,
        perm.nodup_iff.mpr (List.nodup_cons.mpr ⟨absent, listed.nodup⟩), fun k member => ?_, fun k => ?_⟩
      · exact (congrArg RegionNode.next (node₃ new newM)).trans last
      · rcases List.mem_cons.mp (perm.mem_iff.mp member) with rfl | inside
        · exact small
        · exact listed.small k inside
      · rw [mine₃, mine₂, Set.mem_insert_iff, listed.mine, perm.mem_iff, List.mem_cons]
    rw [List.append_cons] at listed₃ ⊢
    have next := ih listed₃ (Nat.le_of_succ_le_succ enough)
    rwa [List.getLast?_concat] at next

/-- `proc_fork` gives the child a list of its own. -/
theorem procFork_safe {child : ℕ} (reachP : p ∈ anchors) (reachC : child ∈ anchors) (apart : p ≠ child)
    (listed : s.Listed p l) :
    Safe nMmap anchors (fun _ s' => ∃ m, s'.ListedTwo p child l m) (procFork p child) s := by
  have head : Function.update s.anchor child none p = l.head? :=
    (Function.update_of_ne apart ..).trans listed.segment.head
  rw [procFork, Safe.bind_iff, Safe.putAnchor_iff, Safe.bind_iff, Safe.getAnchor_iff]
  dsimp only
  rw [head]
  refine ⟨reachC, reachP, ?_⟩
  refine @copyRegions_safe _ anchors p [] l child reachC apart [] ⟨?_, ?_, ?_, ?_, ?_⟩ _
    (length_le_nMmap listed.nodup listed.small)
  · have segment := listed.segment
    rwa [segment.head, ← head] at segment
  · exact Function.update_self ..
  · simpa using listed.nodup
  · simpa using listed.small
  · simpa using listed.mine

/-- The loop of `proc_free` gives all nodes of a list back. -/
theorem freeRegions_safe (segment : Segment s.links start l none) (nodup : l.Nodup)
    (mine : ∀ n ∈ l, n ∈ s.mine) {fuel : ℕ} (enough : l.length ≤ fuel) :
    Safe nMmap anchors (fun _ s' => s' = { s with mine := {n ∈ s.mine | n ∉ l} })
      (freeRegions fuel l.head?) s := by
  induction l generalizing s fuel start with
  | nil =>
    have done : freeRegions fuel ([] : List ℕ).head? = pure () := by
      cases fuel <;> rfl
    rw [done, Safe.pure_iff]
    simp
  | cons n l ih =>
    obtain ⟨fuel, rfl⟩ : ∃ f, fuel = f + 1 :=
      Nat.exists_eq_add_one.mpr (Nat.lt_of_lt_of_le (Nat.succ_pos _) enough)
    obtain ⟨absent, nodup⟩ := List.nodup_cons.mp nodup
    have link : (s.node n).next = l.head? := segment.2.head
    rw [List.head?_cons, freeRegions, Safe.bind_iff, Safe.loadNode_iff, Safe.bind_iff, mmapRegionFree,
      Safe.giveNode_iff, link]
    refine ⟨mine n List.mem_cons_self, mine n List.mem_cons_self, ?_⟩
    have rest (k : ℕ) (member : k ∈ l) : k ∈ s.mine \ {n} :=
      ⟨mine k (List.mem_cons_of_mem n member), ne_of_mem_of_not_mem member absent⟩
    refine (@ih { s with mine := s.mine \ {n} } _ segment.2 nodup rest fuel
      (Nat.le_of_succ_le_succ enough)).mono ?_
    rintro _ _ rfl
    congr 1
    ext k
    simp only [Set.mem_ofPred_eq, Set.mem_sdiff, Set.mem_singleton_iff, List.mem_cons, not_or, and_assoc]

/-- `proc_free` leaves nothing of the list of the child. -/
theorem procFree_safe {child : ℕ} (reach : child ∈ anchors) (apart : p ≠ child) {m : List ℕ}
    (listed : s.ListedTwo p child l m) :
    Safe nMmap anchors (fun _ s' => s'.ListedTwo p child l []) (procFree child) s := by
  obtain ⟨nodupL, nodupM, disjoint⟩ := List.nodup_append.mp listed.nodup
  have enough := length_le_nMmap nodupM fun n member => listed.small n (List.mem_append_right l member)
  rw [procFree, Safe.bind_iff, Safe.getAnchor_iff, Safe.bind_iff, listed.second.head]
  refine ⟨reach, (freeRegions_safe listed.second nodupM (fun n member =>
    (listed.mine n).mpr (List.mem_append_right l member)) enough).mono ?_⟩
  rintro _ _ rfl
  refine ⟨reach, ?_, Function.update_self .., by simpa using nodupL, fun n member => ?_, fun n => ?_⟩
  · have anchor : Function.update s.anchor child none p = s.anchor p := Function.update_of_ne apart ..
    dsimp only
    rw [anchor]
    exact listed.first
  · rw [List.append_nil] at member
    exact listed.small n (List.mem_append_left m member)
  · have inside := listed.mine n
    have other := disjoint n
    simp only [Set.mem_ofPred_eq, List.append_nil, inside, List.mem_append] at other ⊢
    constructor
    · exact fun both => both.1.resolve_right both.2
    · exact fun member => ⟨Or.inl member, fun second => other member n second rfl⟩

end RegionM

end LabKernel
