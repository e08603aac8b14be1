import LabKernel.Lib.FirstFit
import LabKernel.Mem.Mmap
import LabKernel.Mem.RegionPool

/-! # The gap search of `uvm_mmap`

`find_free_region` on the nodes in memory does what it does on a list of regions, and there it is a first
fit in the window for mappings: it finds the lowest address with enough space, and fails only where there
is no such address. Regions are at whole pages, so no address between two pages would be lower.
-/

namespace LabKernel

def NodeView.region (s : NodeView RegionNode (Option ℕ)) (n : ℕ) : Region :=
  ⟨n, (s.node n).begin, (s.node n).npages⟩

/-- Regions of whole pages in the window, in the order of their addresses; they may touch. -/
structure Sorted (regions : List Region) : Prop where
  placed : ∀ r ∈ regions, r.Placed
  apart : regions.Pairwise fun a b => a.finish ≤ b.begin

/-- There is space for so many pages at an address of the window. -/
structure GapAt (regions : List Region) (npages a : ℕ) : Prop where
  aligned : a % pgsize = 0
  low : mmapBegin ≤ a
  high : a + npages * pgsize ≤ mmapEnd
  clear : ∀ r ∈ regions, Disjoint (Set.Ico a (a + npages * pgsize)) (Set.Ico r.begin r.finish)

/-- What `find_free_region` is for: it returns the lowest address with enough space and the last region
below it, or 0 if there is no such address. -/
structure FirstGap (regions : List Region) (npages : ℕ) (place : ℕ × Option ℕ) : Prop where
  none_iff : place.1 = 0 ↔ ¬∃ a, GapAt regions npages a
  least : place.1 ≠ 0 → IsLeast {a | GapAt regions npages a} place.1
  prev : place.1 ≠ 0 → place.2 = (regions.filter (·.begin < place.1)).getLast?.map Region.node

variable {regions : List Region} {npages a : ℕ}

private theorem Sorted.inOrder (sorted : Sorted regions) : InOrder Region.begin Region.finish mmapBegin regions where
  from_le r within := (sorted.placed r within).low
  filled r within := Nat.lt_add_of_pos_right (Nat.mul_pos (sorted.placed r within).some (by decide))
  apart := sorted.apart

/-! ## On lists -/

/-- The search is a first fit that gives up at the end of the window. -/
theorem findFreeRegion_eq (sorted : Sorted regions) {len : ℕ} (bound : len < 2 ^ 32) (before : List Region)
    {candidate : ℕ} (high : candidate ≤ mmapEnd) :
    let place := firstFit Region.begin Region.finish len before candidate regions
    findFreeRegion len before candidate regions =
      (if place.1 + len ≤ mmapEnd then place.1 else 0, place.2) := by
  have fits : wrap64 (candidate + len) = candidate + len :=
    wrap64_of_lt (by simp only [mmapEnd_eq] at high; omega)
  induction regions generalizing before candidate with
  | nil =>
    rw [findFreeRegion, firstFit, fits]
  | cons r rest ih =>
    obtain ⟨placed, others⟩ := List.forall_mem_cons.mp sorted.placed
    obtain ⟨across, apart⟩ := List.pairwise_cons.mp sorted.apart
    have inside := placed.high
    rw [findFreeRegion, firstFit, fits, placed.stop]
    by_cases space : candidate + len ≤ r.begin
    · have below : candidate + len ≤ mmapEnd := by
        simp only [Region.finish] at inside
        omega
      simp only [if_pos space, if_pos below]
    · rw [if_neg space, if_neg space]
      exact ih ⟨others, apart⟩ (r :: before) inside
        (wrap64_of_lt (by simp only [mmapEnd_eq] at inside; omega))

/-- The first fit is at a page. -/
theorem firstFit_aligned (sorted : Sorted regions) (len : ℕ) :
    (firstFit Region.begin Region.finish len [] mmapBegin regions).1 % pgsize = 0 := by
  rcases firstFit_end Region.begin Region.finish len [] mmapBegin regions with first | ⟨r, within, last⟩
  · rw [first]
    decide
  · have aligned := (sorted.placed r within).aligned
    rw [last, Region.finish, Nat.add_mul_mod_self_right, aligned]

/-- The regions passed are those below the place. -/
theorem firstFit_passed (sorted : Sorted regions) (len : ℕ) :
    let place := firstFit Region.begin Region.finish len [] mmapBegin regions
    regions.filter (·.begin < place.1) = place.2.1.reverse := by
  have order := sorted.inOrder
  have cut := firstFit_cut Region.begin Region.finish len [] mmapBegin regions
  obtain ⟨behind, front⟩ := firstFit_between len order (List.forall_mem_nil _)
  dsimp only at behind front ⊢
  generalize firstFit Region.begin Region.finish len [] mmapBegin regions = place at cut behind front ⊢
  obtain ⟨place, passed, rest⟩ := place
  dsimp only at cut behind front ⊢
  rw [List.reverse_nil, List.nil_append] at cut
  rw [← cut, List.filter_append, List.filter_eq_self.mpr, List.filter_eq_nil_iff.mpr, List.append_nil]
  · intro r within
    have := front r within
    simpa only [decide_eq_true_eq, Nat.not_lt] using Nat.le_trans (Nat.le_add_right _ _) this
  · intro r within
    have filled := order.filled r (cut ▸ List.mem_append_left _ within)
    exact decide_eq_true (Nat.lt_of_lt_of_le filled (behind r (List.mem_reverse.mp within)))

/-- The search on a list finds the first gap. -/
theorem findFreeRegion_first (sorted : Sorted regions) (some : 1 ≤ npages) (small : npages < 2 ^ 20) :
    let place := findFreeRegion (lenOf npages) [] mmapBegin regions
    FirstGap regions npages (place.1, place.2.1.head?.map Region.node) := by
  have bound : npages * pgsize < 2 ^ 32 := by
    simp only [pgsize_eq]
    omega
  have positive : 0 < npages * pgsize := Nat.mul_pos some (by decide)
  have order := sorted.inOrder
  have aligned := firstFit_aligned sorted (npages * pgsize)
  have passed := firstFit_passed sorted (npages * pgsize)
  have least := firstFit_least [] positive order
  have complete := firstFit_complete [] positive order mmapEnd
  rw [lenOf_eq bound, findFreeRegion_eq sorted bound [] (by decide)]
  dsimp only at passed ⊢
  generalize firstFit Region.begin Region.finish (npages * pgsize) [] mmapBegin regions = place at *
  have low : mmapBegin ≤ place.1 := least.1.1
  have nonzero : place.1 ≠ 0 := Nat.ne_of_gt (Nat.lt_of_lt_of_le (by decide) low)
  have space_iff : place.1 + npages * pgsize ≤ mmapEnd ↔ ∃ a, GapAt regions npages a := by
    constructor
    · exact fun space => ⟨place.1, aligned, low, space, least.1.2⟩
    · rintro ⟨a, fits⟩
      exact complete.mpr ⟨a, fits.low, fits.high, fits.clear⟩
  by_cases space : place.1 + npages * pgsize ≤ mmapEnd
  · rw [if_pos space]
    refine ⟨iff_of_false nonzero (not_not.mpr (space_iff.mp space)), fun _ => ?_, fun _ => ?_⟩
    · exact ⟨⟨aligned, low, space, least.1.2⟩, fun a fits => least.2 ⟨fits.low, fits.clear⟩⟩
    · rw [passed, List.getLast?_reverse]
  · rw [if_neg space]
    exact ⟨iff_of_true rfl (space_iff.not.mp space), fun some => absurd rfl some, fun some => absurd rfl some⟩

/-! ## On nodes -/

section

variable {s : NodeView RegionNode (Option ℕ)} {anchors : Set ℕ} {start head : Option ℕ} {A B l : List ℕ}

/-- Along the nodes the search does what it does along the regions that they describe. -/
theorem RegionM.findFreeRegion_reads (segment : Segment s.links start (A ++ B) none)
    (mine : ∀ n ∈ B, n ∈ s.mine) {fuel : ℕ} (enough : B.length ≤ fuel) (reqLen candidate : ℕ) :
    let place := LabKernel.findFreeRegion reqLen (A.map s.region).reverse candidate (B.map s.region)
    Reads anchors (RegionM.findFreeRegion reqLen fuel candidate A.getLast? B.head?) s
      (place.1, place.2.1.head?.map Region.node) := by
  have last (A : List ℕ) : (A.map s.region).reverse.head?.map Region.node = A.getLast? := by
    rw [List.head?_reverse, List.getLast?_map, Option.map_map]
    exact Option.map_id' ..
  induction B generalizing A fuel candidate with
  | nil =>
    have done : RegionM.findFreeRegion reqLen fuel candidate A.getLast? ([] : List ℕ).head? =
        pure (if wrap64 (candidate + reqLen) ≤ mmapEnd then candidate else 0, A.getLast?) := by
      cases fuel <;> rfl
    rw [done, Reads.pure_iff, List.map_nil, LabKernel.findFreeRegion, last]
  | cons n B ih =>
    obtain ⟨fuel, rfl⟩ : ∃ f, fuel = f + 1 :=
      Nat.exists_eq_add_one.mpr (Nat.lt_of_lt_of_le (Nat.succ_pos _) enough)
    have link : (s.node n).next = B.head? := RegionM.next_of segment
    rw [List.head?_cons, RegionM.findFreeRegion, Reads.load_bind_iff]
    refine ⟨mine n List.mem_cons_self, ?_⟩
    rw [List.map_cons, LabKernel.findFreeRegion, show (s.region n).begin = (s.node n).begin from rfl]
    by_cases space : wrap64 (candidate + reqLen) ≤ (s.node n).begin
    · rw [if_pos space, if_pos space, Reads.pure_iff, last]
    · rw [if_neg space, if_neg space]
      rw [List.append_cons] at segment
      have next := ih segment (fun m within => mine m (List.mem_cons_of_mem n within))
        (Nat.le_of_succ_le_succ enough) (s.node n).stop
      rw [List.getLast?_concat, List.map_append, List.map_singleton, List.reverse_append] at next
      rw [link]
      exact next

/-- For every list of nodes that describe regions in order, `find_free_region` reads the list to some
node and returns the lowest address with enough space and the node of the last region below it, or 0
where no address has enough space. -/
theorem findFreeRegion_firstGap (segment : Segment s.links head l none) (mine : ∀ n ∈ l, n ∈ s.mine)
    (sorted : Sorted (l.map s.region)) {fuel : ℕ} (enough : l.length ≤ fuel) (some : 1 ≤ npages)
    (small : npages < 2 ^ 20) :
    ∃ place, Reads anchors (RegionM.findFreeRegion (lenOf npages) fuel mmapBegin none head) s place ∧
      FirstGap (l.map s.region) npages place := by
  have reads := @RegionM.findFreeRegion_reads s anchors head [] l segment mine fuel enough (lenOf npages) mmapBegin
  rw [← segment.head] at reads
  exact ⟨_, reads, findFreeRegion_first sorted some small⟩

end

def twoRegions : NodeView RegionNode (Option ℕ) where
  node n := if n = 3 then ⟨mmapBegin, 2, some 5⟩ else ⟨mmapBegin + 4 * pgsize, 1, none⟩
  anchor _ := some 3
  mine := {3, 5}

/-- Three pages do not fit between the two regions. -/
theorem findFreeRegion_firstGap_two :
    ∃ place, Reads ∅ (RegionM.findFreeRegion (lenOf 3) nMmap mmapBegin none (some 3)) twoRegions place ∧
      FirstGap ([3, 5].map twoRegions.region) 3 place := by
  have linked : Segment twoRegions.links (some 3) [3, 5] none := ⟨rfl, rfl, rfl⟩
  refine findFreeRegion_firstGap linked (by simp [twoRegions]) ⟨?_, ?_⟩ (by decide) (by decide) (by decide)
  · refine List.forall_mem_cons.mpr ⟨?_, List.forall_mem_singleton.mpr ?_⟩ <;> constructor <;> decide
  · exact List.pairwise_pair.mpr (by decide)

example : findFreeRegion (lenOf 3) [] mmapBegin ([3, 5].map twoRegions.region) =
    (mmapBegin + 5 * pgsize, ([3, 5].map twoRegions.region).reverse, []) := by decide

end LabKernel
