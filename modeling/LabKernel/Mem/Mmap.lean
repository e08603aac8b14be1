import LabKernel.Mem.UserPages

/-! # Regions of mapped memory

`uvm_mmap` and `uvm_munmap` of `uvm.c`. A process lists its regions in the order of their addresses;
the code walks that list with a pointer to the node before, which is a list here as well: the nodes
already passed, the last one first. Loops that change the list they walk return the new list, which
the caller puts into the descriptor; a panic in between stops the kernel, so nobody sees the list that
it leaves.
-/

namespace LabKernel

/-- `find_free_region`: the address, which is 0 if there is no space, and the list cut there -/
def findFreeRegion (reqLen : ℕ) :
    (before : List Region) → (candidate : ℕ) → List Region → ℕ × List Region × List Region
  | before, candidate, [] =>
    (if wrap64 (candidate + reqLen) ≤ mmapEnd then candidate else 0, before, [])
  | before, candidate, curr :: rest =>
    if wrap64 (candidate + reqLen) ≤ curr.begin then (candidate, before, curr :: rest)
    else findFreeRegion reqLen (curr :: before) curr.stop rest

/-- The loop of `uvm_mmap` that looks for the node before a given address -/
def findPlace (addr : ℕ) :
    (before : List Region) → List Region → MemM (List Region × List Region)
  | before, [] => return (before, [])
  | before, curr :: rest =>
    if curr.begin < addr then do
      if addr < curr.stop then throw (.panic "uvm_mmap: overlap detected")
      findPlace addr (curr :: before) rest
    else return (before, curr :: rest)

/-- The first step of `uvm_mmap`: the address and the list cut there -/
def choosePlace (regions : List Region) (start npages : ℕ) :
    MemM (ℕ × List Region × List Region) := do
  if start = 0 then
    let place := findFreeRegion (lenOf npages) [] mmapBegin regions
    if place.1 = 0 then throw (.panic "uvm_mmap: out of virtual memory")
    return place
  else
    let mapEnd := wrap64 (start + lenOf npages)
    if start < mmapBegin ∨ mmapEnd < mapEnd then throw (.panic "uvm_mmap: invalid address range")
    let (before, after) ← findPlace start [] regions
    if (after.head?.any fun next => next.begin < mapEnd) then
      throw (.panic "uvm_mmap: overlap detected")
    return (start, before, after)

/-- The new node takes in the next one. -/
def mergeNext (node : Region) : List Region → MemM (Region × List Region)
  | [] => return (node, [])
  | next :: rest =>
    if node.stop = next.begin then do
      mmapRegionFree next.node
      return ({ node with npages := (node.npages + next.npages) % 2 ^ 32 }, rest)
    else return (node, next :: rest)

/-- The node before takes in the new one. -/
def mergePrev (node : Region) (rest : List Region) : (before : List Region) → MemM (List Region)
  | [] => return node :: rest
  | prev :: before =>
    if prev.stop = node.begin then do
      mmapRegionFree node.node
      return before.reverse ++ { prev with npages := (prev.npages + node.npages) % 2 ^ 32 } :: rest
    else return (prev :: before).reverse ++ node :: rest

/-- The last loop of `uvm_mmap` -/
def mmapPages (table : U64) (perm : U32) : (count va : ℕ) → MemM Unit
  | 0, _ => return ()
  | count + 1, va => do
    -- the page comes cleared
    let pa ← pmemAlloc false
    vmMappages table va pa pgsize perm
    mmapPages table perm count (wrap64 (va + pgsize))

def uvmMmap (k : ℕ) (start : U64) (npages perm : U32) : MemM Unit := do
  let p ← myproc k
  let (mapAddr, before, after) ← choosePlace p.mmap start.toNat npages.toNat
  let node ← mmapRegionAlloc
  let (node, rest) ← mergeNext ⟨node, mapAddr, npages.toNat⟩ after
  let regions ← mergePrev node rest before
  setMyproc k { p with mmap := regions }
  mmapPages p.pgtbl perm npages.toNat mapAddr

/-- The loop of `uvm_munmap` -/
def munmapLoop (ram : Ram) (pgtbl : U64) (start unmapEnd : ℕ) : List Region → MemM (List Region)
  | [] => return []
  | walker :: rest => do
    if unmapEnd ≤ walker.begin then return walker :: rest
    else if walker.stop ≤ start then
      return walker :: (← munmapLoop ram pgtbl start unmapEnd rest)
    else
      let overlapStart := if walker.begin < start then start else walker.begin
      let overlapEnd := if unmapEnd < walker.stop then unmapEnd else walker.stop
      vmUnmappages ram pgtbl overlapStart (wrap64 (overlapEnd + 2 ^ 64 - overlapStart)) true
      if start ≤ walker.begin ∧ walker.stop ≤ unmapEnd then
        mmapRegionFree walker.node
        munmapLoop ram pgtbl start unmapEnd rest
      else if start ≤ walker.begin ∧ unmapEnd < walker.stop then
        let cutPages := (unmapEnd - walker.begin) / pgsize % 2 ^ 32
        return { walker with
          begin := unmapEnd, npages := (walker.npages + 2 ^ 32 - cutPages) % 2 ^ 32 } :: rest
      else if walker.begin < start ∧ walker.stop ≤ unmapEnd then
        let cutPages := (walker.stop - start) / pgsize % 2 ^ 32
        let walker := { walker with npages := (walker.npages + 2 ^ 32 - cutPages) % 2 ^ 32 }
        return walker :: (← munmapLoop ram pgtbl start unmapEnd rest)
      else
        let node ← mmapRegionAlloc
        let npages := (walker.stop - unmapEnd) / pgsize % 2 ^ 32
        let walker := { walker with npages := (start - walker.begin) / pgsize % 2 ^ 32 }
        return walker :: ⟨node, unmapEnd, npages⟩ :: rest

def uvmMunmap (ram : Ram) (k : ℕ) (start : U64) (npages : U32) : MemM Unit := do
  let p ← myproc k
  let unmapEnd := wrap64 (start.toNat + lenOf npages.toNat)
  if start.toNat < mmapBegin ∨ mmapEnd < unmapEnd then
    throw (.panic "uvm_munmap: address out of range")
  let regions ← munmapLoop ram p.pgtbl start.toNat unmapEnd p.mmap
  setMyproc k { p with mmap := regions }

/-! ## Lists of regions -/

/-- Where the pages of a region end -/
def Region.finish (r : Region) : ℕ := r.begin + r.npages * pgsize

/-- A region of whole pages in the window -/
structure Region.Placed (r : Region) : Prop where
  aligned : r.begin % pgsize = 0
  some : 1 ≤ r.npages
  low : mmapBegin ≤ r.begin
  high : r.finish ≤ mmapEnd

/-- The regions are in the order of their addresses, disjoint and never adjacent. -/
structure IntervalSet (regions : List Region) : Prop where
  placed : ∀ r ∈ regions, r.Placed
  apart : regions.Pairwise fun a b => a.finish < b.begin

/-- A page, given by its number, belongs to a region. -/
def Covers (regions : List Region) (v : ℕ) : Prop :=
  ∃ r ∈ regions, r.begin ≤ v * pgsize ∧ v * pgsize < r.finish

theorem lenOf_eq {n : ℕ} (small : n * pgsize < 2 ^ 32) : lenOf n = n * pgsize :=
  Nat.mod_eq_of_lt small

theorem Region.Placed.stop {r : Region} (placed : r.Placed) : r.stop = r.finish := by
  have high := placed.high
  have low := placed.low
  simp only [Region.finish, pgsize_eq, mmapEnd_eq, mmapBegin_eq] at high low
  rw [Region.stop, lenOf_eq (by simp only [pgsize_eq]; omega), Region.finish]
  exact wrap64_of_lt (by simp only [pgsize_eq]; omega)

@[simp] theorem covers_nil (v : ℕ) : ¬Covers [] v := by simp [Covers]

@[simp] theorem covers_cons (r : Region) (l : List Region) (v : ℕ) :
    Covers (r :: l) v ↔ (r.begin ≤ v * pgsize ∧ v * pgsize < r.finish) ∨ Covers l v := by
  simp only [Covers, List.exists_mem_cons_iff]

@[simp] theorem covers_append (l m : List Region) (v : ℕ) :
    Covers (l ++ m) v ↔ Covers l v ∨ Covers m v := by
  simp only [Covers, List.mem_append, or_and_right, exists_or]

theorem intervalSet_nil : IntervalSet [] := ⟨List.forall_mem_nil _, .nil⟩

theorem intervalSet_cons {r : Region} {l : List Region} :
    IntervalSet (r :: l) ↔ r.Placed ∧ (∀ b ∈ l, r.finish < b.begin) ∧ IntervalSet l := by
  constructor
  · rintro ⟨placed, apart⟩
    obtain ⟨first, rest⟩ := List.forall_mem_cons.mp placed
    exact ⟨first, (List.pairwise_cons.mp apart).1, rest, (List.pairwise_cons.mp apart).2⟩
  · rintro ⟨placed, apart, rest⟩
    exact ⟨List.forall_mem_cons.mpr ⟨placed, rest.placed⟩, List.pairwise_cons.mpr ⟨apart, rest.apart⟩⟩

theorem intervalSet_append {l m : List Region} :
    IntervalSet (l ++ m) ↔ IntervalSet l ∧ IntervalSet m ∧ ∀ a ∈ l, ∀ b ∈ m, a.finish < b.begin := by
  constructor
  · rintro ⟨placed, apart⟩
    obtain ⟨left, right, across⟩ := List.pairwise_append.mp apart
    obtain ⟨first, second⟩ := List.forall_mem_append.mp placed
    exact ⟨⟨first, left⟩, ⟨second, right⟩, across⟩
  · rintro ⟨left, right, across⟩
    exact ⟨List.forall_mem_append.mpr ⟨left.placed, right.placed⟩,
      List.pairwise_append.mpr ⟨left.apart, right.apart, across⟩⟩

/-- An address between two parts of a list with space for `len` bytes, or far above the window where
nothing can be mapped. -/
structure Slot (addr len : ℕ) (before after : List Region) : Prop where
  aligned : addr % pgsize = 0
  low : mmapBegin ≤ addr
  word : addr < 2 ^ 64
  behind : ∀ r ∈ before, r.finish ≤ addr
  front : addr + len ≤ mmapEnd ∧ (∀ r ∈ after, addr + len ≤ r.begin) ∨ vaMax ≤ addr

/-- What starts in front of the first region is in front of all. -/
theorem IntervalSet.in_front {r : Region} {l : List Region} (set : IntervalSet (r :: l)) {x : ℕ}
    (first : x ≤ r.begin) : ∀ b ∈ r :: l, x ≤ b.begin := by
  obtain ⟨placed, across, -⟩ := intervalSet_cons.mp set
  refine List.forall_mem_cons.mpr ⟨first, fun b within => ?_⟩
  have later := across b within
  simp only [Region.finish] at later
  omega

private theorem findFreeRegion_spec {before l : List Region} {candidate len : ℕ} (bound : len < 2 ^ 32)
    (set : IntervalSet (before.reverse ++ l)) (aligned : candidate % pgsize = 0)
    (low : mmapBegin ≤ candidate) (high : candidate ≤ mmapEnd)
    (behind : ∀ r ∈ before, r.finish ≤ candidate) {place : ℕ × List Region × List Region}
    (found : findFreeRegion len before candidate l = place) (space : place.1 ≠ 0) :
    place.2.1.reverse ++ place.2.2 = before.reverse ++ l ∧
      Slot place.1 len place.2.1 place.2.2 := by
  have fits : wrap64 (candidate + len) = candidate + len :=
    wrap64_of_lt (by simp only [mmapEnd_eq] at high; omega)
  have word : candidate < 2 ^ 64 := by simp only [mmapEnd_eq] at high; omega
  induction l generalizing before candidate with
  | nil =>
    subst found
    simp only [findFreeRegion, fits] at space ⊢
    split at space
    case isFalse => exact absurd rfl space
    case isTrue below =>
      rw [if_pos below]
      exact ⟨trivial, aligned, low, word, behind, .inl ⟨below, List.forall_mem_nil _⟩⟩
  | cons curr rest ih =>
    have parts := intervalSet_append.mp set
    obtain ⟨placed, -, -⟩ := intervalSet_cons.mp parts.2.1
    rw [findFreeRegion, fits] at found
    by_cases gap : candidate + len ≤ curr.begin
    · rw [if_pos gap] at found
      subst found
      have high := placed.high
      simp only [Region.finish] at high
      exact ⟨rfl, aligned, low, word, behind, .inl ⟨by omega, parts.2.1.in_front gap⟩⟩
    · rw [if_neg gap, placed.stop] at found
      have fore := placed.low
      have back := placed.high
      have multiple := placed.aligned
      have across (r : Region) (within : r ∈ before) : r.finish ≤ curr.finish := by
        have next := parts.2.2 r (List.mem_reverse.mpr within) curr List.mem_cons_self
        simp only [Region.finish] at next ⊢
        omega
      have cut := @ih (curr :: before) curr.finish (by simpa using set)
        (by simp only [Region.finish, pgsize_eq] at multiple ⊢; omega)
        (by simp only [Region.finish]; omega) placed.high
        (List.forall_mem_cons.mpr ⟨Nat.le_refl _, across⟩) found
        (wrap64_of_lt (by simp only [mmapEnd_eq] at back; omega))
        (by simp only [mmapEnd_eq] at back; omega)
      simpa using cut

/-- The regions are in the order of their addresses inside the window; they may meet and be empty. -/
structure Ordered (regions : List Region) : Prop where
  low : ∀ r ∈ regions, mmapBegin ≤ r.begin
  high : ∀ r ∈ regions, r.finish ≤ mmapEnd
  apart : regions.Pairwise fun a b => a.finish ≤ b.begin

theorem IntervalSet.ordered {regions : List Region} (set : IntervalSet regions) : Ordered regions :=
  ⟨fun r within => (set.placed r within).low, fun r within => (set.placed r within).high,
    set.apart.imp Nat.le_of_lt⟩

theorem Ordered.stop {regions : List Region} (ordered : Ordered regions) {r : Region}
    (within : r ∈ regions) : r.stop = r.finish := by
  have low := ordered.low r within
  have high := ordered.high r within
  simp only [Region.finish, pgsize_eq, mmapEnd_eq, mmapBegin_eq] at high low
  rw [Region.stop, lenOf_eq (by simp only [pgsize_eq]; omega), Region.finish]
  exact wrap64_of_lt (by simp only [pgsize_eq]; omega)

/-- An address lies inside a region. -/
def Splits (regions : List Region) (a : ℕ) : Prop := ∃ r ∈ regions, r.begin < a ∧ a < r.finish

theorem findPlace_ordered {addr : ℕ} {s : Machine} {before l : List Region}
    (ordered : Ordered (before.reverse ++ l)) (behind : ∀ r ∈ before, r.finish ≤ addr) :
    Ends (findPlace addr before l) s (fun cut s' => s' = s ∧
      cut.1.reverse ++ cut.2 = before.reverse ++ l ∧ (∀ r ∈ cut.1, r.finish ≤ addr) ∧
      ∀ r ∈ cut.2, addr ≤ r.begin) fun f => Panics f ∧ Splits l addr := by
  induction l generalizing before with
  | nil => exact ⟨rfl, rfl, behind, List.forall_mem_nil _⟩
  | cons curr rest ih =>
    rw [findPlace, ordered.stop (List.mem_append_right _ List.mem_cons_self)]
    refine Ends.ite (fun before_addr => Ends.ite (fun overlaps => ?_) fun apart => ?_) fun after_addr => ?_
    · rw [Ends.bind_iff]
      exact ⟨⟨_, rfl⟩, curr, List.mem_cons_self, before_addr, overlaps⟩
    · have next := @ih (curr :: before) (by simpa using ordered)
        (List.forall_mem_cons.mpr ⟨Nat.le_of_not_lt apart, behind⟩)
      refine (next.fails fun f ⟨panics, r, within, inside⟩ =>
        ⟨panics, r, List.mem_cons_of_mem _ within, inside⟩).mono fun cut s' found => ?_
      simpa using found
    · refine ⟨rfl, rfl, behind, List.forall_mem_cons.mpr ⟨Nat.le_of_not_lt after_addr, fun r within => ?_⟩⟩
      have order := (List.pairwise_cons.mp (List.pairwise_append.mp ordered.apart).2.1).1 r within
      simp only [Region.finish] at order
      omega

private theorem findPlace_ends {addr : ℕ} {s : Machine} {before l : List Region}
    (set : IntervalSet (before.reverse ++ l)) (behind : ∀ r ∈ before, r.finish ≤ addr) :
    Ends (findPlace addr before l) s (fun cut s' => s' = s ∧
      cut.1.reverse ++ cut.2 = before.reverse ++ l ∧ (∀ r ∈ cut.1, r.finish ≤ addr) ∧
      ∀ r ∈ cut.2, addr ≤ r.begin) Panics :=
  (findPlace_ordered set.ordered behind).fails fun _ => And.left

private theorem choosePlace_ends {regions : List Region} (set : IntervalSet regions) {s : Machine}
    {start npages : ℕ} (word : start < 2 ^ 64) (aligned : start % pgsize = 0) :
    Ends (choosePlace regions start npages) s (fun place s' => s' = s ∧
      place.2.1.reverse ++ place.2.2 = regions ∧
      Slot place.1 (lenOf npages) place.2.1 place.2.2 ∧ (start ≠ 0 → place.1 = start)) Panics := by
  have bound : lenOf npages < 2 ^ 32 := Nat.mod_lt _ (by decide)
  rw [choosePlace]
  refine Ends.ite (fun auto => ?_) fun given => ?_
  · refine Ends.ite (fun full => ?_) fun space => ?_
    · rw [Ends.bind_iff]
      exact ⟨_, rfl⟩
    · obtain ⟨cut, slot⟩ := @findFreeRegion_spec [] regions mmapBegin _ bound set (by decide)
        (Nat.le_refl _) (by decide) (List.forall_mem_nil _) _ rfl space
      exact ⟨rfl, cut, slot, fun given => absurd auto given⟩
  · refine Ends.ite (fun outside => ?_) fun inside => ?_
    · rw [Ends.bind_iff]
      exact ⟨_, rfl⟩
    · rw [Ends.bind_iff]
      refine (@findPlace_ends start s [] regions set (List.forall_mem_nil _)).mono ?_
      rintro ⟨before, after⟩ s' ⟨rfl, cut, behind, front⟩
      refine Ends.ite (fun overlaps => ?_) fun apart => ?_
      · rw [Ends.bind_iff]
        exact ⟨_, rfl⟩
      · refine ⟨rfl, cut, ⟨aligned, by omega, word, behind, ?_⟩, fun _ => rfl⟩
        rcases Nat.lt_or_ge (start + lenOf npages) (2 ^ 64) with fits | wraps
        · rw [wrap64_of_lt fits] at inside apart
          refine .inl ⟨by omega, ?_⟩
          cases after with
          | nil => exact List.forall_mem_nil _
          | cons next rest =>
            have whole : before.reverse ++ next :: rest = regions := cut
            refine (intervalSet_append.mp (whole ▸ set)).2.1.in_front ?_
            simpa using apart
        · refine .inr ?_
          simp only [vaMax_eq]
          omega

/-- The nodes of a list and those of the pool -/
def nodes (regions : List Region) (s : Machine) : List ℕ := regions.map Region.node ++ s.freeRegions

private theorem nodes_append (l m : List Region) (s : Machine) :
    nodes (l ++ m) s = l.map Region.node ++ nodes m s := by
  rw [nodes, nodes, List.map_append, List.append_assoc]

/-- A step between two states takes or gives nodes and does nothing else. -/
def NodesOnly (s s' : Machine) : Prop := ∃ free, s' = { s with freeRegions := free }

theorem mergeNext_nodes (node : Region) (after : List Region) (s : Machine) :
    Ends (mergeNext node after) s (fun _ s' => NodesOnly s s') Panics := by
  cases after with
  | nil => exact ⟨_, rfl⟩
  | cons next rest => exact Ends.ite (fun _ => ⟨_, rfl⟩) fun _ => ⟨_, rfl⟩

theorem mergePrev_nodes (node : Region) (rest before : List Region) (s : Machine) :
    Ends (mergePrev node rest before) s (fun _ s' => NodesOnly s s') Panics := by
  cases before with
  | nil => exact ⟨_, rfl⟩
  | cons prev before => exact Ends.ite (fun _ => ⟨_, rfl⟩) fun _ => ⟨_, rfl⟩

/-- Two regions that meet, as one -/
theorem Region.Placed.merge {a b c : Region} (first : a.Placed) (second : b.Placed)
    (meets : a.finish = b.begin) (begins : c.begin = a.begin)
    (takes : c.npages = (a.npages + b.npages) % 2 ^ 32) : c.Placed ∧ c.finish = b.finish := by
  have some := first.some
  have small : a.npages + b.npages < 2 ^ 32 := by
    have high := second.high
    simp only [Region.finish, pgsize_eq, mmapEnd_eq] at meets high
    omega
  rw [Nat.mod_eq_of_lt small] at takes
  have finish : c.finish = b.finish := by
    rw [Region.finish, takes, begins, Nat.add_mul, ← Nat.add_assoc]
    exact congrArg (· + b.npages * pgsize) meets
  exact ⟨⟨begins ▸ first.aligned, by omega, begins ▸ first.low, finish ▸ second.high⟩, finish⟩

private theorem mergeNext_ends {node : Region} {after : List Region} {s : Machine} (placed : node.Placed)
    (set : IntervalSet after) (front : ∀ r ∈ after, node.finish ≤ r.begin) :
    Ends (mergeNext node after) s (fun merged s' => NodesOnly s s' ∧
      (nodes (merged.1 :: merged.2) s').Perm (nodes (node :: after) s) ∧
      merged.1.begin = node.begin ∧ IntervalSet (merged.1 :: merged.2) ∧
      ∀ v, Covers (merged.1 :: merged.2) v ↔ Covers (node :: after) v) Panics := by
  cases after with
  | nil =>
    refine ⟨⟨_, rfl⟩, .refl _, rfl, intervalSet_cons.mpr ⟨placed, ?_, set⟩, fun v => Iff.rfl⟩
    exact List.forall_mem_nil _
  | cons next rest =>
    obtain ⟨second, across, tail⟩ := intervalSet_cons.mp set
    have order := front next List.mem_cons_self
    rw [mergeNext, placed.stop]
    refine Ends.ite (fun meets => ?_) fun apart => ?_
    · obtain ⟨both, finish⟩ := @Region.Placed.merge _ _
        ⟨node.node, node.begin, (node.npages + next.npages) % 2 ^ 32⟩ placed second meets rfl rfl
      refine ⟨⟨_, rfl⟩, ?_, rfl, intervalSet_cons.mpr ⟨both, ?_, tail⟩, fun v => ?_⟩
      · simp only [nodes, List.map_cons, List.cons_append]
        exact List.Perm.cons _ List.perm_middle
      · exact fun b within => finish ▸ across b within
      · have inside := second.some
        simp only [covers_cons, finish, ← or_assoc]
        simp only [Region.finish] at meets ⊢
        refine or_congr ?_ Iff.rfl
        omega
    · refine ⟨⟨_, rfl⟩, .refl _, rfl, intervalSet_cons.mpr ⟨placed, ?_, set⟩, fun v => Iff.rfl⟩
      intro b within
      have first : node.finish < next.begin := Nat.lt_of_le_of_ne order apart
      rcases List.mem_cons.mp within with rfl | within
      · exact first
      · have later := across b within
        exact first.trans (Nat.lt_of_le_of_lt (Nat.le_add_right _ _) later)

private theorem mergePrev_ends {node : Region} {rest before : List Region} {s : Machine}
    (set : IntervalSet (node :: rest)) (fore : IntervalSet before.reverse)
    (behind : ∀ r ∈ before, r.finish ≤ node.begin) :
    Ends (mergePrev node rest before) s (fun merged s' => NodesOnly s s' ∧
      (nodes merged s').Perm (nodes (before.reverse ++ node :: rest) s) ∧ IntervalSet merged ∧
      ∀ v, Covers merged v ↔ Covers before.reverse v ∨ Covers (node :: rest) v) Panics := by
  obtain ⟨placed, across, tail⟩ := intervalSet_cons.mp set
  have some := placed.some
  cases before with
  | nil => exact ⟨⟨_, rfl⟩, .refl _, set, fun v => by simp⟩
  | cons prev before =>
    rw [List.reverse_cons] at fore ⊢
    obtain ⟨front, last, order⟩ := intervalSet_append.mp fore
    obtain ⟨first, -, -⟩ := intervalSet_cons.mp last
    have close := behind prev List.mem_cons_self
    have through (a : Region) (within : a ∈ before) : a.finish < prev.begin :=
      order a (List.mem_reverse.mpr within) prev (List.mem_singleton_self prev)
    rw [mergePrev, first.stop]
    refine Ends.ite (fun meets => ?_) fun apart => ?_
    · obtain ⟨both, finish⟩ := @Region.Placed.merge _ _
        ⟨prev.node, prev.begin, (prev.npages + node.npages) % 2 ^ 32⟩ first placed meets rfl rfl
      refine ⟨⟨_, rfl⟩, ?_, intervalSet_append.mpr ⟨front, ?_, ?_⟩, fun v => ?_⟩
      · simp only [nodes, List.map_append, List.map_cons, List.append_assoc, List.cons_append,
          List.nil_append]
        exact List.Perm.append_left _ (List.Perm.cons _ List.perm_middle)
      · exact intervalSet_cons.mpr ⟨both, fun b within => finish ▸ across b within, tail⟩
      · intro a within b later
        have early := through a (List.mem_reverse.mp within)
        rcases List.mem_cons.mp later with rfl | later
        · exact early
        · have next := across b later
          simp only [Region.finish] at early next close ⊢
          omega
      · have inside := first.some
        simp only [covers_append, covers_cons, covers_nil, or_false, finish, or_assoc]
        refine or_congr Iff.rfl ?_
        rw [← or_assoc]
        simp only [Region.finish] at meets ⊢
        refine or_congr ?_ Iff.rfl
        omega
    · rw [List.reverse_cons]
      refine ⟨⟨_, rfl⟩, .refl _, ?_, fun v => covers_append ..⟩
      · refine intervalSet_append.mpr ⟨fore, set, fun a within b later => ?_⟩
        have early : a.finish < node.begin := by
          rcases List.mem_append.mp within with within | within
          · have next := through a (List.mem_reverse.mp within)
            simp only [Region.finish] at next close ⊢
            omega
          · rw [List.mem_singleton.mp within]
            omega
        rcases List.mem_cons.mp later with rfl | later
        · exact early
        · have next := across b later
          simp only [Region.finish] at early next ⊢
          omega

variable {ram : Ram} {roots : Set U64} {s : Machine} {table : U64} {va count : ℕ} {perm : U32}

open Machine

theorem NodesOnly.trans {s s' s'' : Machine} (first : NodesOnly s s') (second : NodesOnly s' s'') :
    NodesOnly s s'' := by
  obtain ⟨f, rfl⟩ := first
  obtain ⟨f', rfl⟩ := second
  exact ⟨f', rfl⟩

private theorem mmapPages_ends (tables : s.Tables ram roots) (live : s.rootFor table ∈ roots)
    (page : va % pgsize = 0) (low : va + count * pgsize ≤ vaMax) :
    Ends (mmapPages table perm count va) s (fun _ s' => s'.Tables ram roots ∧
      s'.kernPagetable = s.kernPagetable ∧ s'.proc = s.proc ∧ s'.freeRegions = s.freeRegions ∧
      ∀ v, PteHas (s'.leaf (s.rootFor table) v) pteV ↔
        PteHas (s.leaf (s.rootFor table) v) pteV ∨ va ≤ v * pgsize ∧ v * pgsize < va + count * pgsize)
      Panics := by
  induction count generalizing s va with
  | zero =>
    rw [Nat.zero_mul]
    exact ⟨tables, rfl, rfl, rfl, fun v => (or_iff_left (by omega)).symm⟩
  | succ count ih =>
    rw [Nat.succ_mul] at low
    refine freshPage_ends tables live page (by omega) (fun _ => Exhausted.panics)
      fun a rest s₁ pool user fresh => ?_
    have word : wrap64 (va + pgsize) = va + pgsize :=
      wrap64_of_lt (by simp only [pgsize_eq, vaMax_eq] at low ⊢; omega)
    have same : s₁.rootFor table = s.rootFor table := fresh.rootFor rfl table
    rw [word]
    have next := @ih s₁ (va + pgsize) fresh.tables (same ▸ live)
      (by simp only [pgsize_eq] at page ⊢; omega) (by omega)
    refine next.mono ?_
    rintro _ s₂ ⟨tables, kernel, proc, regions, leaves⟩
    have kernel₁ := congrArg View.kernPagetable fresh.view
    have proc₁ := congrArg View.proc fresh.view
    have regions₁ := congrArg View.freeRegions fresh.view
    refine ⟨tables, kernel.trans kernel₁, proc.trans proc₁, regions.trans regions₁, fun v => ?_⟩
    rw [same] at leaves
    rw [leaves, fresh_leaf fresh live]
    by_cases here : v = va / pgsize
    · rw [if_pos ⟨rfl, here⟩]
      refine iff_of_true (.inl (permFlags_valid a perm)) (.inr ?_)
      rw [Nat.succ_mul, here, Nat.div_mul_cancel (Nat.dvd_of_mod_eq_zero page)]
      simp only [pgsize_eq]
      omega
    · rw [if_neg (fun both => here both.2), Nat.succ_mul]
      refine or_congr Iff.rfl ?_
      simp only [pgsize_eq] at page here ⊢
      omega

/-- Pages beyond the last address make it panic. -/
theorem mmapPages_high (tables : s.Tables ram roots) (live : s.rootFor table ∈ roots)
    (page : va % pgsize = 0) (word : va < 2 ^ 64) (some : 0 < count)
    (high : vaMax < va + count * pgsize) {Q : Unit → Machine → Prop} :
    Ends (mmapPages table perm count va) s Q Panics := by
  induction count generalizing s va with
  | zero => exact absurd some (Nat.lt_irrefl 0)
  | succ count ih =>
    rw [Nat.succ_mul] at high
    rcases Nat.lt_or_ge vaMax (va + pgsize) with above | below
    · rw [mmapPages, Ends.bind_iff]
      refine ((pmemAlloc_ends tables).fails fun _ user => Exhausted.panics (.inl user)).mono ?_
      rintro a s₁ -
      rw [Ends.bind_iff]
      exact vmMappages_high word page above
    · refine freshPage_ends tables live page below (fun _ => Exhausted.panics)
        fun a rest s₁ pool user fresh => ?_
      have next : wrap64 (va + pgsize) = va + pgsize :=
        wrap64_of_lt (by simp only [pgsize_eq, vaMax_eq] at below ⊢; omega)
      have same : s₁.rootFor table = s.rootFor table := fresh.rootFor rfl table
      rw [next]
      simp only [pgsize_eq, vaMax_eq] at page below high
      exact ih fresh.tables (same ▸ live) (by simp only [pgsize_eq]; omega)
        (by simp only [pgsize_eq]; omega) (by omega) (by simp only [pgsize_eq, vaMax_eq]; omega)

/-- The mmap list of a process is in step with its page table: the window maps exactly the pages that
the regions cover. -/
structure MmapState (ram : Ram) (roots : Set U64) (s : Machine) (k : ℕ) (p : ProcMem) : Prop where
  proc : s.proc k = some p
  tables : s.Tables ram roots
  live : s.rootFor p.pgtbl ∈ roots
  set : IntervalSet p.mmap
  mapped : ∀ v, mmapBegin ≤ v * pgsize → v * pgsize < mmapEnd →
    ((translate s p.pgtbl (v * pgsize)).isSome ↔ Covers p.mmap v)

theorem translate_isSome {v : ℕ} (low : v * pgsize < mmapEnd) :
    (translate s table (v * pgsize)).isSome ↔ PteHas (s.leaf (s.rootFor table) v) pteV := by
  simp only [mmapEnd_eq] at low
  rw [translate_page (by simp only [vaMax_eq]; omega), decode]
  split <;> simpa

/-- What `uvm_mmap` does where the new region fits -/
theorem uvmMmap_fits {k : ℕ} {p : ProcMem} (inv : MmapState ram roots s k p) {node addr n : ℕ}
    {before after : List Region} {free : List ℕ} (cut : before.reverse ++ after = p.mmap)
    (placed : (⟨node, addr, n⟩ : Region).Placed) (behind : ∀ r ∈ before, r.finish ≤ addr)
    (front : ∀ r ∈ after, addr + n * pgsize ≤ r.begin) (pool : s.freeRegions = node :: free) :
    Ends (do
      let (node, rest) ← mergeNext ⟨node, addr, n⟩ after
      let regions ← mergePrev node rest before
      setMyproc k { p with mmap := regions }
      mmapPages p.pgtbl perm n addr) { s with freeRegions := free } (fun _ s' => ∃ p',
        MmapState ram roots s' k p' ∧ (nodes p'.mmap s').Perm (nodes p.mmap s) ∧
        ∀ v, Covers p'.mmap v ↔
          Covers p.mmap v ∨ addr ≤ v * pgsize ∧ v * pgsize < addr + n * pgsize) Panics := by
  obtain ⟨fore, hind, across⟩ := intervalSet_append.mp (cut ▸ inv.set : IntervalSet (_ ++ _))
  rw [Ends.bind_iff]
  refine (mergeNext_ends placed hind front).mono ?_
  rintro ⟨m, rest⟩ s₁ ⟨only, perm₁, begins, set, covers₁⟩
  rw [Ends.bind_iff]
  have close (r : Region) (within : r ∈ before) : r.finish ≤ m.begin :=
    Nat.le_trans (behind r within) (Nat.le_of_eq begins.symm)
  refine (mergePrev_ends set fore close).mono ?_
  rintro regions s₂ ⟨only', perm₂, set₂, covers₂⟩
  obtain ⟨f, rfl⟩ := only.trans only'
  have covers (v : ℕ) : Covers regions v ↔
      Covers p.mmap v ∨ addr ≤ v * pgsize ∧ v * pgsize < addr + n * pgsize := by
    rw [covers₂, covers₁, ← cut, covers_cons, covers_append, or_left_comm, or_comm]
    rfl
  have taken : (nodes regions { s with freeRegions := f }).Perm (nodes p.mmap s) := by
    refine perm₂.trans ?_
    rw [← cut, nodes_append, nodes_append]
    refine List.Perm.append_left _ (perm₁.trans ?_)
    rw [nodes, nodes, pool]
    exact List.perm_middle.symm
  rw [Ends.bind_iff, setMyproc, Ends.modify_iff]
  let p' := { p with mmap := regions }
  let s₃ := ({ s with freeRegions := f } : Machine).setProc k (some p')
  have tables₃ : s₃.Tables ram roots := inv.tables.of_pages rfl rfl rfl
  have whole : addr + n * pgsize ≤ vaMax := Nat.le_trans placed.high (by decide)
  refine (mmapPages_ends tables₃ inv.live placed.aligned whole).mono ?_
  rintro _ s' ⟨tables, kernel, proc, regions', leaves⟩
  have same : s'.rootFor p.pgtbl = s.rootFor p.pgtbl := by rw [rootFor, rootFor, kernel]; rfl
  refine ⟨p', ⟨?_, tables, same ▸ inv.live, set₂, fun v low high => ?_⟩, ?_, covers⟩
  · rw [proc]
    exact Function.update_self ..
  · rw [translate_isSome high, same]
    refine (leaves v).trans ((or_congr ?_ Iff.rfl).trans (covers v).symm)
    rw [← inv.mapped v low high, translate_isSome high, show s₃.leaf _ v = s.leaf _ v from
      entry_of_pages rfl _ _]
    rfl
  · rwa [nodes, regions']

theorem mmapRegionAlloc_ends : Ends mmapRegionAlloc s (fun node s' =>
    ∃ free, s.freeRegions = node :: free ∧ s' = { s with freeRegions := free }) Panics := by
  rw [mmapRegionAlloc, Ends.bind_iff, Ends.get_iff]
  cases pool : s.freeRegions with
  | nil => exact ⟨_, rfl⟩
  | cons node free => exact ⟨free, rfl, rfl⟩

/-- A new region does not meet the ones that are there. -/
theorem Slot.uncovered {addr n : ℕ} {before after : List Region}
    (behind : ∀ r ∈ before, r.finish ≤ addr) (front : ∀ r ∈ after, addr + n ≤ r.begin) {v : ℕ}
    (low : addr ≤ v * pgsize) (high : v * pgsize < addr + n) :
    ¬Covers (before.reverse ++ after) v := by
  rw [covers_append]
  rintro (⟨r, within, -, inside⟩ | ⟨r, within, inside, -⟩)
  · have order := behind r (List.mem_reverse.mp within)
    omega
  · have order := front r within
    omega

theorem uvmMmap_ends {k : ℕ} {p : ProcMem} (inv : MmapState ram roots s k p) {start : U64}
    (aligned : start.toNat % pgsize = 0) {npages : U32} (some : 1 ≤ npages.toNat) (perm : U32) :
    Ends (uvmMmap k start npages perm) s (fun _ s' => ∃ p' a, MmapState ram roots s' k p' ∧
      (nodes p'.mmap s').Perm (nodes p.mmap s) ∧ (start ≠ 0 → a = start.toNat) ∧
      a % pgsize = 0 ∧ mmapBegin ≤ a ∧ a + npages.toNat * pgsize ≤ mmapEnd ∧
      (∀ v, a ≤ v * pgsize → v * pgsize < a + npages.toNat * pgsize → ¬Covers p.mmap v) ∧
      ∀ v, Covers p'.mmap v ↔
        Covers p.mmap v ∨ a ≤ v * pgsize ∧ v * pgsize < a + npages.toNat * pgsize) Panics := by
  rw [uvmMmap, Ends.bind_iff]
  refine (myproc_ends inv.proc).mono ?_
  rintro _ _ ⟨rfl, rfl⟩
  rw [Ends.bind_iff]
  refine (choosePlace_ends inv.set start.isLt aligned).mono ?_
  rintro ⟨addr, before, after⟩ _ ⟨rfl, cut, slot, given⟩
  rw [Ends.bind_iff]
  refine mmapRegionAlloc_ends.mono ?_
  rintro node _ ⟨free, pool, rfl⟩
  replace slot : Slot addr (lenOf npages.toNat) before after := slot
  have word := slot.word
  have low := slot.low
  by_cases fits : addr + npages.toNat * pgsize ≤ mmapEnd
  · have front : ∀ r ∈ after, addr + npages.toNat * pgsize ≤ r.begin := by
      simp only [pgsize_eq, mmapEnd_eq, mmapBegin_eq] at fits low
      rcases slot.front with ⟨-, front⟩ | far
      · rwa [lenOf_eq (by simp only [pgsize_eq]; omega)] at front
      · simp only [vaMax_eq] at far
        omega
    refine (uvmMmap_fits inv cut ⟨slot.aligned, some, low, fits⟩ slot.behind front pool).mono ?_
    rintro _ s' ⟨p', after, taken, covers⟩
    refine ⟨p', addr, after, taken, fun nonzero => given ?_, slot.aligned, low, fits, ?_, covers⟩
    · exact fun zero => nonzero (BitVec.eq_of_toNat_eq zero)
    · exact fun v => cut ▸ Slot.uncovered slot.behind front
  · have far : vaMax < addr + npages.toNat * pgsize := by
      rcases slot.front with ⟨inside, -⟩ | far
      · have big : ¬npages.toNat * pgsize < 2 ^ 32 := fun small => fits (lenOf_eq small ▸ inside)
        simp only [mmapBegin_eq, vaMax_eq] at low ⊢
        omega
      · simp only [pgsize_eq]
        omega
    rw [Ends.bind_iff]
    refine (mergeNext_nodes ..).mono ?_
    rintro ⟨m, rest⟩ s₁ only
    rw [Ends.bind_iff]
    refine (mergePrev_nodes ..).mono ?_
    rintro regions s₂ only'
    obtain ⟨f, rfl⟩ := only.trans only'
    rw [Ends.bind_iff, setMyproc, Ends.modify_iff]
    refine @mmapPages_high ram roots _ _ _ _ _ ?_ ?_ slot.aligned word some far _
    · exact inv.tables.of_pages rfl rfl rfl
    · exact inv.live

/-! ## Unmapping -/

/-- Where a page of a range lies -/
def Inside (start stop v : ℕ) : Prop := start ≤ v * pgsize ∧ v * pgsize < stop

/-- What the loop of `uvm_munmap` leaves of a list -/
structure Cleared (ram : Ram) (roots : Set U64) (table : U64) (start stop : ℕ) (l : List Region)
    (s : Machine) (l' : List Region) (s' : Machine) : Prop where
  tables : s'.Tables ram roots
  kernel : s'.kernPagetable = s.kernPagetable
  proc : s'.proc = s.proc
  pool : (nodes l' s').Perm (nodes l s)
  set : IntervalSet l'
  within : ∀ r ∈ l', ∃ q ∈ l, q.begin ≤ r.begin ∧ r.finish ≤ q.finish
  covers : ∀ v, Covers l' v ↔ Covers l v ∧ ¬Inside start stop v
  leaves : ∀ v, PteHas (s'.leaf (s.rootFor table) v) pteV ↔
    PteHas (s.leaf (s.rootFor table) v) pteV ∧ ¬(Covers l v ∧ Inside start stop v)

private theorem Cleared.refl {start stop : ℕ} {l : List Region} (tables : s.Tables ram roots)
    (set : IntervalSet l) (outside : ∀ v, Covers l v → ¬Inside start stop v) :
    Cleared ram roots table start stop l s l s where
  tables := tables
  kernel := rfl
  proc := rfl
  pool := .refl _
  set := set
  within r within := ⟨r, within, Nat.le_refl _, Nat.le_refl _⟩
  covers v := (and_iff_left_of_imp (outside v)).symm
  leaves v := (and_iff_left fun both => outside v both.1 both.2).symm

/-- The loop goes on behind a region that it leaves as it is. -/
theorem Cleared.keep {start stop : ℕ} {r : Region} {l l' : List Region} {s' : Machine}
    (set : IntervalSet (r :: l)) (outside : ∀ v, Inside r.begin r.finish v → ¬Inside start stop v)
    (rest : Cleared ram roots table start stop l s l' s') :
    Cleared ram roots table start stop (r :: l) s (r :: l') s' where
  tables := rest.tables
  kernel := rest.kernel
  proc := rest.proc
  pool := rest.pool.cons _
  set := by
    obtain ⟨placed, across, -⟩ := intervalSet_cons.mp set
    refine intervalSet_cons.mpr ⟨placed, fun b within => ?_, rest.set⟩
    obtain ⟨q, place, order, -⟩ := rest.within b within
    exact Nat.lt_of_lt_of_le (across q place) order
  within := by
    refine List.forall_mem_cons.mpr ⟨⟨r, List.mem_cons_self, Nat.le_refl _, Nat.le_refl _⟩, ?_⟩
    intro b within
    obtain ⟨q, place, order⟩ := rest.within b within
    exact ⟨q, List.mem_cons_of_mem _ place, order⟩
  covers v := by
    rw [covers_cons, covers_cons, rest.covers, or_and_right]
    exact or_congr (and_iff_left_of_imp (outside v)).symm Iff.rfl
  leaves v := by
    rw [rest.leaves, covers_cons, or_and_right, or_iff_right]
    exact fun both => outside v both.1 both.2

/-- The list in which a part is cut out of a region -/
structure Rests (r : Region) (start stop : ℕ) (pieces : List Region) : Prop where
  set : IntervalSet pieces
  sub : ∀ q ∈ pieces, r.begin ≤ q.begin ∧ q.finish ≤ r.finish
  left : ∀ v, Covers pieces v ↔ Inside r.begin r.finish v ∧ ¬Inside start stop v

/-- A part of a region that consists of whole pages -/
theorem Region.Placed.part {r q : Region} (placed : r.Placed) {stop : ℕ} (low : r.begin ≤ q.begin)
    (aligned : q.begin % pgsize = 0) (whole : stop % pgsize = 0) (some : q.begin < stop)
    (high : stop ≤ r.finish) (count : q.npages = (stop - q.begin) / pgsize) :
    q.Placed ∧ q.finish = stop := by
  have finish : q.finish = stop := by
    rw [Region.finish, count]
    simp only [pgsize_eq] at aligned whole ⊢
    omega
  refine ⟨⟨aligned, ?_, Nat.le_trans placed.low low, finish ▸ Nat.le_trans high placed.high⟩, finish⟩
  simp only [pgsize_eq] at aligned whole count ⊢
  omega

/-- The two parts of a region that an address divides, counted as the code does it -/
theorem Region.Placed.counts {r : Region} (placed : r.Placed) {x : ℕ} (whole : x % pgsize = 0)
    (low : r.begin < x) (high : x < r.finish) :
    (x - r.begin) / pgsize % 2 ^ 32 = (x - r.begin) / pgsize ∧
      (r.finish - x) / pgsize % 2 ^ 32 = (r.finish - x) / pgsize ∧
      (r.npages + 2 ^ 32 - (x - r.begin) / pgsize % 2 ^ 32) % 2 ^ 32 = (r.finish - x) / pgsize ∧
      (r.npages + 2 ^ 32 - (r.finish - x) / pgsize % 2 ^ 32) % 2 ^ 32 = (x - r.begin) / pgsize := by
  have aligned := placed.aligned
  have first := placed.low
  have last := placed.high
  simp only [Region.finish, pgsize_eq, mmapEnd_eq, mmapBegin_eq] at *
  omega

/-- What is left of a region from which a part was cut, and the loop goes on behind it. -/
theorem Cleared.cut {start stop : ℕ} {r : Region} {pieces l l' : List Region} {s₁ s' : Machine}
    {free : List ℕ} (set : IntervalSet (r :: l)) (rests : Rests r start stop pieces)
    (kernel : s₁.kernPagetable = s.kernPagetable) (proc : s₁.proc = s.proc)
    (leaves : ∀ v, PteHas (s₁.leaf (s.rootFor table) v) pteV ↔
      PteHas (s.leaf (s.rootFor table) v) pteV ∧ ¬(Inside r.begin r.finish v ∧ Inside start stop v))
    (taken : (pieces.map Region.node ++ free).Perm (r.node :: s.freeRegions))
    (rest : Cleared ram roots table start stop l { s₁ with freeRegions := free } l' s') :
    Cleared ram roots table start stop (r :: l) s (pieces ++ l') s' := by
  obtain ⟨placed, across, -⟩ := intervalSet_cons.mp set
  have same : ({ s₁ with freeRegions := free } : Machine).rootFor table = s.rootFor table := by
    rw [rootFor, rootFor]
    exact congrArg (fun kern => if table = 0 then kern else table) kernel
  refine ⟨rest.tables, rest.kernel.trans kernel, rest.proc.trans proc, ?_, ?_, ?_, fun v => ?_, fun v => ?_⟩
  · rw [nodes_append]
    refine (rest.pool.append_left _).trans ?_
    simp only [nodes, List.map_cons, List.cons_append, ← List.append_assoc]
    refine (List.perm_append_comm.append_right _).trans ?_
    rw [List.append_assoc]
    exact (taken.append_left _).trans List.perm_middle
  · refine intervalSet_append.mpr ⟨rests.set, rest.set, fun a piece b within => ?_⟩
    obtain ⟨q, place, order, -⟩ := rest.within b within
    exact Nat.lt_of_le_of_lt (rests.sub a piece).2 (Nat.lt_of_lt_of_le (across q place) order)
  · refine List.forall_mem_append.mpr ⟨fun q piece => ⟨r, List.mem_cons_self, rests.sub q piece⟩, ?_⟩
    intro b within
    obtain ⟨q, place, order⟩ := rest.within b within
    exact ⟨q, List.mem_cons_of_mem _ place, order⟩
  · rw [covers_append, covers_cons, rest.covers, rests.left, or_and_right]
    rfl
  · have later := rest.leaves v
    rw [same] at later
    rw [later, covers_cons, or_and_right, not_or, ← and_assoc]
    exact and_congr (leaves v) Iff.rfl

section

variable {r : Region} {start stop : ℕ}

private theorem Region.Placed.finish_page (placed : r.Placed) : r.finish % pgsize = 0 := by
  have aligned := placed.aligned
  simp only [Region.finish, pgsize_eq] at aligned ⊢
  omega

private theorem rests_none (low : start ≤ r.begin) (high : r.finish ≤ stop) : Rests r start stop [] where
  set := intervalSet_nil
  sub := List.forall_mem_nil _
  left v := iff_of_false (covers_nil v) fun both => both.2
    ⟨Nat.le_trans low both.1.1, Nat.lt_of_lt_of_le both.1.2 high⟩

private theorem rests_behind (placed : r.Placed) (stopPage : stop % pgsize = 0) (low : start ≤ r.begin)
    (reaches : r.begin < stop) (before : stop < r.finish) :
    Rests r start stop
      [{ r with begin := stop, npages := (r.npages + 2 ^ 32 - (stop - r.begin) / pgsize % 2 ^ 32) % 2 ^ 32 }] := by
  obtain ⟨-, -, count, -⟩ := placed.counts stopPage reaches before
  obtain ⟨part, finish⟩ := @Region.Placed.part r
    ⟨r.node, stop, (r.npages + 2 ^ 32 - (stop - r.begin) / pgsize % 2 ^ 32) % 2 ^ 32⟩ placed
    r.finish (Nat.le_of_lt reaches) stopPage placed.finish_page before (Nat.le_refl _) count
  constructor
  · exact intervalSet_cons.mpr ⟨part, List.forall_mem_nil _, intervalSet_nil⟩
  · exact List.forall_mem_singleton.mpr ⟨Nat.le_of_lt reaches, Nat.le_of_eq finish⟩
  · intro v
    rw [covers_cons, or_iff_left (covers_nil v), finish]
    simp only [Inside]
    omega

private theorem rests_front (placed : r.Placed) (startPage : start % pgsize = 0) (front : r.begin < start)
    (meets : start < r.finish) (high : r.finish ≤ stop) :
    Rests r start stop
      [{ r with npages := (r.npages + 2 ^ 32 - (r.finish - start) / pgsize % 2 ^ 32) % 2 ^ 32 }] := by
  obtain ⟨-, -, -, count⟩ := placed.counts startPage front meets
  obtain ⟨part, finish⟩ := @Region.Placed.part r
    ⟨r.node, r.begin, (r.npages + 2 ^ 32 - (r.finish - start) / pgsize % 2 ^ 32) % 2 ^ 32⟩ placed
    start (Nat.le_refl _) placed.aligned startPage front (Nat.le_of_lt meets) count
  constructor
  · exact intervalSet_cons.mpr ⟨part, List.forall_mem_nil _, intervalSet_nil⟩
  · exact List.forall_mem_singleton.mpr
      ⟨Nat.le_refl _, Nat.le_trans (Nat.le_of_eq finish) (Nat.le_of_lt meets)⟩
  · intro v
    rw [covers_cons, or_iff_left (covers_nil v), finish]
    simp only [Inside]
    omega

private theorem rests_both (placed : r.Placed) (startPage : start % pgsize = 0) (stopPage : stop % pgsize = 0)
    (front : r.begin < start) (some : start < stop) (before : stop < r.finish) (node : ℕ) :
    Rests r start stop [{ r with npages := (start - r.begin) / pgsize % 2 ^ 32 },
      ⟨node, stop, (r.finish - stop) / pgsize % 2 ^ 32⟩] := by
  have meets : start < r.finish := Nat.lt_trans some before
  have reaches : r.begin < stop := Nat.lt_trans front some
  obtain ⟨small, -, -, -⟩ := placed.counts startPage front meets
  obtain ⟨-, small', -, -⟩ := placed.counts stopPage reaches before
  obtain ⟨part, finish⟩ := @Region.Placed.part r ⟨r.node, r.begin, (start - r.begin) / pgsize % 2 ^ 32⟩
    placed start (Nat.le_refl _) placed.aligned startPage front (Nat.le_of_lt meets) small
  obtain ⟨part', finish'⟩ := @Region.Placed.part r ⟨node, stop, (r.finish - stop) / pgsize % 2 ^ 32⟩
    placed r.finish (Nat.le_of_lt reaches) stopPage placed.finish_page before (Nat.le_refl _) small'
  constructor
  · refine intervalSet_cons.mpr ⟨part, List.forall_mem_singleton.mpr ?_,
      intervalSet_cons.mpr ⟨part', List.forall_mem_nil _, intervalSet_nil⟩⟩
    exact Nat.lt_of_le_of_lt (Nat.le_of_eq finish) some
  · refine List.forall_mem_cons.mpr ⟨⟨Nat.le_refl _, ?_⟩, List.forall_mem_singleton.mpr ⟨?_, ?_⟩⟩
    · exact Nat.le_trans (Nat.le_of_eq finish) (Nat.le_of_lt meets)
    · exact Nat.le_of_lt reaches
    · exact Nat.le_of_eq finish'
  · intro v
    rw [covers_cons, covers_cons, or_iff_left (covers_nil v), finish, finish']
    simp only [Inside]
    omega

/-- The part of a region that the loop takes out of the page table -/
private theorem Region.Placed.overlap (placed : r.Placed) (forward : start ≤ stop) (reaches : r.begin < stop)
    (meets : start < r.finish) {os oe : ℕ} (os_eq : (if r.begin < start then start else r.begin) = os)
    (oe_eq : (if stop < r.finish then stop else r.finish) = oe) :
    wrap64 (oe + 2 ^ 64 - os) = oe - os ∧ os + (oe - os) ≤ vaMax ∧
      ∀ v, Inside os (os + (oe - os)) v ↔ Inside r.begin r.finish v ∧ Inside start stop v := by
  have low := placed.low
  have bound := placed.high
  have room : r.begin < r.finish := by
    have some := placed.some
    simp only [Region.finish, pgsize_eq]
    omega
  have span : os ≤ oe ∧ oe ≤ mmapEnd := by
    split at os_eq <;> split at oe_eq <;> omega
  refine ⟨?_, ?_, fun v => ?_⟩
  · simp only [mmapEnd_eq] at span
    rw [wrap64, show oe + 2 ^ 64 - os = oe - os + 2 ^ 64 by omega, Nat.add_mod_right]
    exact Nat.mod_eq_of_lt (by omega)
  · simp only [mmapEnd_eq, vaMax_eq] at span ⊢
    omega
  · rw [Nat.add_sub_cancel' span.1]
    simp only [Inside]
    split at os_eq <;> split at oe_eq <;> omega

end

private theorem vmUnmappages_valid (tables : s.Tables ram roots) (live : s.rootFor table ∈ roots) {len : ℕ}
    (page : va % pgsize = 0) (low : va + len ≤ vaMax) :
    Ends (vmUnmappages ram table va len true) s (fun _ s' => 0 < len ∧ s'.Tables ram roots ∧
      s'.kernPagetable = s.kernPagetable ∧ s'.proc = s.proc ∧ s'.freeRegions = s.freeRegions ∧
      ∀ v, PteHas (s'.leaf (s.rootFor table) v) pteV ↔
        PteHas (s.leaf (s.rootFor table) v) pteV ∧ ¬Inside va (va + len) v) Panics := by
  rcases Nat.eq_zero_or_pos len with rfl | some
  · rw [vmUnmappages, if_neg (not_not.mpr page)]
    exact ⟨_, rfl⟩
  · refine ((vmUnmappages_ends tables live true page some low).fails fun _ => BadFree.panics).mono ?_
    rintro _ s' shows
    obtain ⟨-, regions, kernel, proc⟩ := View.clearRange_page (s.view ram roots) (s.rootFor table) true
      (va / pgsize) (pagesOf len)
    refine ⟨some, shows.tables, (congrArg View.kernPagetable shows.view).trans kernel,
      (congrArg View.proc shows.view).trans proc,
      (congrArg View.freeRegions shows.view).trans regions, fun v => ?_⟩
    have range : (va / pgsize ≤ v ∧ v < va / pgsize + pagesOf len) ↔ Inside va (va + len) v := by
      simp only [Inside, pagesOf, pgsize_eq] at page ⊢
      omega
    rw [shows.leaf live, View.clearRange_leaf, view_leaf live]
    by_cases valid : PteHas (s.leaf (s.rootFor table) v) pteV
    · by_cases inside : Inside va (va + len) v
      · rw [if_pos ⟨rfl, range.mpr inside, valid⟩]
        exact iff_of_false (not_pteHas_zero pteV) fun both => both.2 inside
      · rw [if_neg fun all => inside (range.mp all.2.1)]
        exact (and_iff_left inside).symm
    · rw [if_neg fun all => valid all.2.2]
      exact iff_of_false valid fun both => valid both.1

private theorem munmapLoop_ends {start stop : ℕ} {l : List Region} (set : IntervalSet l)
    (tables : s.Tables ram roots) (live : s.rootFor table ∈ roots) (startPage : start % pgsize = 0)
    (stopPage : stop % pgsize = 0) (order : start ≤ stop ∨ stop ≤ mmapBegin) :
    Ends (munmapLoop ram table start stop l) s
      (fun l' s' => Cleared ram roots table start stop l s l' s') Panics := by
  induction l generalizing s with
  | nil => exact .refl tables set fun v covered => absurd covered (covers_nil v)
  | cons r l ih =>
    obtain ⟨placed, across, tail⟩ := intervalSet_cons.mp set
    rw [munmapLoop, placed.stop]
    refine Ends.ite (fun before => ?_) fun reaches => Ends.ite (fun past => ?_) fun meets => ?_
    · refine .refl tables set fun v covered inside => ?_
      obtain ⟨q, within, here, -⟩ := covered
      have front := set.in_front before q within
      have limit := inside.2
      omega
    · rw [Ends.bind_iff]
      refine (ih tail tables live).mono fun l' s' rest => ?_
      refine rest.keep set fun v here inside => ?_
      have upper := here.2
      have lower := inside.1
      omega
    · rw [not_le] at reaches meets
      have forward : start ≤ stop := by
        have low := placed.low
        omega
      have osPage : (if r.begin < start then start else r.begin) % pgsize = 0 := by
        split
        · exact startPage
        · exact placed.aligned
      obtain ⟨len, limit, overlap⟩ := placed.overlap forward reaches meets rfl rfl
      rw [Ends.bind_iff, len]
      refine (vmUnmappages_valid tables live osPage limit).mono ?_
      rintro _ s₁ ⟨nonempty, tables₁, kernel, proc, regions, leaves⟩
      simp only [overlap] at leaves
      have same : s₁.rootFor table = s.rootFor table := by rw [rootFor, rootFor, kernel]
      have clears {pieces l' : List Region} {free : List ℕ} {s' : Machine} (rests : Rests r start stop pieces)
          (taken : (pieces.map Region.node ++ free).Perm (r.node :: s₁.freeRegions)) :
          Cleared ram roots table start stop l { s₁ with freeRegions := free } l' s' →
            Cleared ram roots table start stop (r :: l) s (pieces ++ l') s' :=
        Cleared.cut set rests kernel proc leaves (regions ▸ taken)
      have next (free : List ℕ) := @ih { s₁ with freeRegions := free } tail
        (tables₁.of_pages rfl rfl rfl) (same ▸ live)
      -- the loop stops at a region that reaches behind the range: the others are behind that one
      have stays (free : List ℕ) (short : stop < r.finish) :
          Cleared ram roots table start stop l { s₁ with freeRegions := free } l
            { s₁ with freeRegions := free } := by
        refine .refl (tables₁.of_pages rfl rfl rfl) tail fun v covered inside => ?_
        obtain ⟨q, within, here, -⟩ := covered
        have behind := across q within
        have limit := inside.2
        omega
      refine Ends.ite (fun whole => ?_) fun _ => Ends.ite (fun head => ?_) fun _ =>
        Ends.ite (fun back => ?_) fun middle => ?_
      · rw [Ends.bind_iff, mmapRegionFree, Ends.modify_iff]
        exact (next _).mono fun l' s' rest => clears (rests_none whole.1 whole.2) (.refl _) rest
      · exact clears (rests_behind placed stopPage head.1 reaches head.2) (.refl _)
          (stays s₁.freeRegions head.2)
      · rw [Ends.bind_iff]
        exact (next s₁.freeRegions).mono fun l' s' rest =>
          clears (rests_front placed startPage back.1 meets back.2) (.refl _) rest
      · rw [Ends.bind_iff]
        refine mmapRegionAlloc_ends.mono ?_
        rintro node _ ⟨free, pool, rfl⟩
        have inside : r.begin < start ∧ stop < r.finish := by omega
        have apart : start < stop := by
          rw [if_pos inside.1, if_pos inside.2] at nonempty
          omega
        refine clears (rests_both placed startPage stopPage inside.1 apart inside.2 node) ?_
          (stays free inside.2)
        rw [pool]
        exact .refl _

private theorem lenOf_page (n : ℕ) : lenOf n % pgsize = 0 := by
  simp only [lenOf, pgsize_eq]
  omega

theorem uvmMunmap_ends {k : ℕ} {p : ProcMem} (inv : MmapState ram roots s k p) {start : U64}
    (aligned : start.toNat % pgsize = 0) (npages : U32) :
    Ends (uvmMunmap ram k start npages) s (fun _ s' => ∃ p', MmapState ram roots s' k p' ∧
      (nodes p'.mmap s').Perm (nodes p.mmap s) ∧ ∀ v, Covers p'.mmap v ↔
        Covers p.mmap v ∧ ¬Inside start.toNat (start.toNat + lenOf npages.toNat) v) Panics := by
  have whole := lenOf_page npages.toNat
  have bound : lenOf npages.toNat < 2 ^ 32 := Nat.mod_lt _ (by decide)
  have word := start.isLt
  have stopPage : wrap64 (start.toNat + lenOf npages.toNat) % pgsize = 0 := by
    simp only [wrap64, pgsize_eq] at aligned whole ⊢
    omega
  rw [uvmMunmap, Ends.bind_iff]
  refine (myproc_ends inv.proc).mono ?_
  rintro _ _ ⟨rfl, rfl⟩
  refine Ends.ite (fun outside => ?_) fun inside => ?_
  · rw [Ends.bind_iff]
    exact ⟨_, rfl⟩
  rename_i p s
  -- a range that wraps around meets no region, neither before nor after it wraps
  have order : start.toNat ≤ wrap64 (start.toNat + lenOf npages.toNat) ∨
      wrap64 (start.toNat + lenOf npages.toNat) ≤ mmapBegin := by
    simp only [wrap64, mmapBegin_eq]
    omega
  have range (v : ℕ) (covered : Covers p.mmap v) :
      Inside start.toNat (wrap64 (start.toNat + lenOf npages.toNat)) v ↔
        Inside start.toNat (start.toNat + lenOf npages.toNat) v := by
    obtain ⟨r, within, -, limit⟩ := covered
    have high := (inv.set.placed r within).high
    simp only [Inside, wrap64, mmapEnd_eq] at high ⊢
    omega
  rw [Ends.bind_iff]
  refine (munmapLoop_ends inv.set inv.tables inv.live aligned stopPage order).mono ?_
  rintro regions s₁ cleared
  rw [setMyproc, Ends.modify_iff]
  have covers (v : ℕ) : Covers regions v ↔
      Covers p.mmap v ∧ ¬Inside start.toNat (start.toNat + lenOf npages.toNat) v := by
    rw [cleared.covers]
    exact and_congr_right fun covered => not_congr (range v covered)
  have same : s₁.rootFor p.pgtbl = s.rootFor p.pgtbl := by rw [rootFor, rootFor, cleared.kernel]
  refine ⟨{ p with mmap := regions }, ⟨Function.update_self .., ?_, ?_, cleared.set, ?_⟩, cleared.pool, covers⟩
  · exact cleared.tables.of_pages rfl rfl rfl
  · exact same ▸ inv.live
  · intro v low high
    have old := inv.mapped v low high
    rw [translate_isSome high] at old ⊢
    refine (iff_of_eq (congrArg (PteHas · pteV) ?_)).trans (((cleared.leaves v).trans ?_).trans (covers v).symm)
    · rw [← same]
      exact entry_of_pages rfl ..
    · rw [old]
      refine and_congr_right fun covered => ?_
      rw [not_and, range v covered]
      exact ⟨fun not => not covered, fun not _ => not⟩

/-- The list of mapped regions is an exact set of intervals, in step with the page table: `uvm_mmap`
adds the pages it was asked for, which no region covered, and `uvm_munmap` removes the covered pages of
its range, whose length is a product of 32-bit numbers. -/
theorem mmap_list_exact {k : ℕ} {p : ProcMem} (inv : MmapState ram roots s k p) {start : U64}
    (aligned : start.toNat % pgsize = 0) {npages : U32} (some : 1 ≤ npages.toNat) :
    (∀ perm, Ends (uvmMmap k start npages perm) s (fun _ s' => ∃ p' a, MmapState ram roots s' k p' ∧
      (nodes p'.mmap s').Perm (nodes p.mmap s) ∧ (start ≠ 0 → a = start.toNat) ∧
      a % pgsize = 0 ∧ mmapBegin ≤ a ∧ a + npages.toNat * pgsize ≤ mmapEnd ∧
      (∀ v, a ≤ v * pgsize → v * pgsize < a + npages.toNat * pgsize → ¬Covers p.mmap v) ∧
      ∀ v, Covers p'.mmap v ↔
        Covers p.mmap v ∨ a ≤ v * pgsize ∧ v * pgsize < a + npages.toNat * pgsize) Panics) ∧
    Ends (uvmMunmap ram k start npages) s (fun _ s' => ∃ p', MmapState ram roots s' k p' ∧
      (nodes p'.mmap s').Perm (nodes p.mmap s) ∧ ∀ v, Covers p'.mmap v ↔
        Covers p.mmap v ∧ ¬(start.toNat ≤ v * pgsize ∧
          v * pgsize < start.toNat + npages.toNat * pgsize % 2 ^ 32)) Panics :=
  ⟨uvmMmap_ends inv aligned some, uvmMunmap_ends inv aligned npages⟩

/-- A process without regions, and three pages and nodes for its first ones -/
def mmapMachine : Machine where
  pages _ _ := 0
  kernelPool := [0x80201000, 0x80202000]
  userPool := [0x87000000, 0x87001000, 0x87002000]
  freeRegions := [0, 1, 2]
  kernPagetable := 0x80200000
  proc k := if k = 0 then some ⟨0x80200000, 0, 0, 0, [], .running, none, 0⟩ else none

theorem mmapMachine_state : MmapState ⟨0x80200000⟩ {0x80200000} mmapMachine 0
    ⟨0x80200000, 0, 0, 0, [], .running, none, 0⟩ where
  proc := rfl
  tables := tables_zero rfl
    (List.forall_mem_cons.mpr ⟨by decide +kernel, List.forall_mem_cons.mpr
      ⟨by decide +kernel, List.forall_mem_singleton.mpr (by decide +kernel)⟩⟩)
    (List.forall_mem_cons.mpr ⟨by decide +kernel, List.forall_mem_singleton.mpr (by decide +kernel)⟩)
    (by decide +kernel) (by decide +kernel) (by decide +kernel)
  live := by decide +kernel
  set := intervalSet_nil
  mapped v _ high := by
    rw [translate_isSome high]
    refine iff_of_false ?_ (covers_nil v)
    rw [leaf, entry_zero rfl]
    exact not_pteHas_zero pteV

private theorem merge_returns : returnsWith (uvmMmap 0 0x3ffb000000 1 0x16) mmapMachine (fun _ s =>
    returnsWith (uvmMmap 0 0x3ffb001000 1 0x16) s fun _ t =>
      returnsWith (uvmMunmap ⟨0x80200000⟩ 0 0x3ffb000000 1) t fun _ _ => true) = true := by decide +kernel

/-- A page is mapped, the next one is added to its region, and the first is unmapped. -/
theorem mmap_list_exact_merge : ∃ s p t q u r, uvmMmap 0 0x3ffb000000 1 0x16 mmapMachine = .ok () s ∧
    MmapState ⟨0x80200000⟩ {0x80200000} s 0 p ∧ (∀ v, Covers p.mmap v ↔ v = 0x3ffb000) ∧
    uvmMmap 0 0x3ffb001000 1 0x16 s = .ok () t ∧ MmapState ⟨0x80200000⟩ {0x80200000} t 0 q ∧
    (∀ v, Covers q.mmap v ↔ v = 0x3ffb000 ∨ v = 0x3ffb001) ∧
    uvmMunmap ⟨0x80200000⟩ 0 0x3ffb000000 1 t = .ok () u ∧ MmapState ⟨0x80200000⟩ {0x80200000} u 0 r ∧
    ∀ v, Covers r.mmap v ↔ v = 0x3ffb001 := by
  obtain ⟨_, s, first, returns⟩ := ok_of_returnsWith merge_returns
  obtain ⟨_, t, second, returns⟩ := ok_of_returnsWith returns
  obtain ⟨_, u, third, _⟩ := ok_of_returnsWith returns
  have one := (@mmap_list_exact ⟨0x80200000⟩ {0x80200000} mmapMachine 0 _ mmapMachine_state
    0x3ffb000000 (by decide +kernel) 1 (by decide)).1 0x16
  simp only [Ends, first] at one
  obtain ⟨p, a, before, -, given, -, -, -, -, covers⟩ := one
  have two := (@mmap_list_exact _ _ s 0 p before 0x3ffb001000 (by decide +kernel) 1 (by decide)).1 0x16
  simp only [Ends, second] at two
  obtain ⟨q, a', between, -, given', -, -, -, -, covers'⟩ := two
  have three := (@mmap_list_exact _ _ t 0 q between 0x3ffb000000 (by decide +kernel) 1 (by decide)).2
  simp only [Ends, third] at three
  obtain ⟨r, after, -, covers''⟩ := three
  have single (v : ℕ) : Covers p.mmap v ↔ v = 0x3ffb000 := by
    rw [covers, given (by decide), or_iff_right (covers_nil v)]
    simp
    omega
  have both (v : ℕ) : Covers q.mmap v ↔ v = 0x3ffb000 ∨ v = 0x3ffb001 := by
    rw [covers', given' (by decide), single]
    simp
    omega
  refine ⟨s, p, t, q, u, r, first, before, single, second, between, both, third, after, fun v => ?_⟩
  rw [covers'', both]
  simp
  omega
/-- The length of `2 ^ 20` pages is 0 for `uvm_munmap`: it returns and the page it starts at is still
mapped. -/
theorem uvmMunmap_wraps : ∃ s p s' p', MmapState ⟨0x80200000⟩ {0x80200000} s 0 p ∧
    uvmMmap 0 0x3ffaffe000 1 0x16 mmapMachine = .ok () s ∧
    uvmMunmap ⟨0x80200000⟩ 0 0x3ffaffe000 0x100000 s = .ok () s' ∧ s'.proc 0 = some p' ∧
    Covers p.mmap 0x3ffaffe ∧ Covers p'.mmap 0x3ffaffe := by
  have first := @uvmMmap_ends ⟨0x80200000⟩ {0x80200000} mmapMachine 0 _ mmapMachine_state
    0x3ffaffe000 (by decide +kernel) 1 (by decide) 0x16
  have returns : (match uvmMmap 0 0x3ffaffe000 1 0x16 mmapMachine with
      | .ok _ s => match uvmMunmap ⟨0x80200000⟩ 0 0x3ffaffe000 0x100000 s with
        | .ok .. => true
        | .error .. => false
      | .error .. => false) = true := by decide +kernel
  cases mapped : uvmMmap 0 0x3ffaffe000 1 0x16 mmapMachine with
  | error e s =>
    rw [mapped] at returns
    cases returns
  | ok u s =>
    simp only [Ends, mapped] at first returns
    obtain ⟨p, a, state, -, given, -, -, -, -, covers⟩ := first
    have covered : Covers p.mmap 0x3ffaffe := by
      rw [covers, given (by decide)]
      exact .inr (by decide +kernel)
    have second := @uvmMunmap_ends _ _ _ _ _ state 0x3ffaffe000 (by decide +kernel) 0x100000
    cases unmapped : uvmMunmap ⟨0x80200000⟩ 0 0x3ffaffe000 0x100000 s with
    | error e s' =>
      rw [unmapped] at returns
      cases returns
    | ok u s' =>
      simp only [Ends, unmapped] at second
      obtain ⟨p', state', -, covers'⟩ := second
      refine ⟨s, p, s', p', state, rfl, unmapped, state'.proc, covered, ?_⟩
      rw [covers']
      refine ⟨covered, fun inside => ?_⟩
      have empty := Nat.lt_of_le_of_lt inside.1 inside.2
      exact absurd empty (by decide +kernel)

end LabKernel
