import LabKernel.Mem.MmapCall
import LabKernel.Mem.Reap

/-! # Calls that are rounded to no page

A length of 0, or above `2 ^ 32 - PGSIZE`, is rounded to no page, and neither `uvm_mmap` nor `uvm_munmap`
looks at that. An empty region that touches another one is merged into it and nothing has changed; by
itself it stays in the list, where `proc_free` panics on it. An empty range inside a region makes
`vm_unmappages` panic. Where calls are not of this kind, no region is ever empty.
-/

namespace LabKernel

inductive MmapCall where
  | mmap (addr : U64) (len prot : U32)
  | munmap (addr : U64) (len : U32)

namespace MmapCall

def run (ram : Ram) (k : ℕ) : MmapCall → MemM U64
  | mmap addr len prot => sysMmap k addr len prot
  | munmap addr len => sysMunmap ram k addr len

def addr : MmapCall → U64
  | mmap addr _ _ => addr
  | munmap addr _ => addr

def len : MmapCall → U32
  | mmap _ len _ => len
  | munmap _ len => len

def npages (call : MmapCall) : ℕ := (pagesFor call.len).toNat

def Aligned (call : MmapCall) : Prop := call.addr.toNat % pgsize = 0

instance (call : MmapCall) : Decidable call.Aligned := inferInstanceAs (Decidable (_ = _))

end MmapCall

/-- Where a mapping of no page goes -/
def emptyPlace (addr : U64) : ℕ := if addr = 0 then mmapBegin else addr.toNat

/-- A region begins or ends at an address. -/
def Touches (regions : List Region) (a : ℕ) : Prop := ∃ r ∈ regions, r.begin = a ∨ r.finish = a

instance (regions : List Region) (a : ℕ) : Decidable (Touches regions a) :=
  inferInstanceAs (Decidable (∃ r ∈ regions, _))

instance (regions : List Region) (a : ℕ) : Decidable (Splits regions a) :=
  inferInstanceAs (Decidable (∃ r ∈ regions, _))

/-- The call has at least one page, or a mapping of no page finds a node to use and a region to become
part of, or an unmapping of no page finds no region around its address. -/
def MmapCall.Fits (s : Machine) (p : ProcMem) : MmapCall → Prop
  | mmap addr len _ => 0 < (pagesFor len).toNat ∨ s.freeRegions ≠ [] ∧ Touches p.mmap (emptyPlace addr)
  | munmap addr len => 0 < (pagesFor len).toNat ∨
      mmapBegin ≤ addr.toNat ∧ addr.toNat ≤ mmapEnd ∧ ¬Splits p.mmap addr.toNat

instance (call : MmapCall) (s : Machine) (p : ProcMem) : Decidable (call.Fits s p) :=
  match call with
  | .mmap _ _ _ => inferInstanceAs (Decidable (_ ∨ _ ∧ _))
  | .munmap _ _ => inferInstanceAs (Decidable (_ ∨ _ ∧ _ ∧ _))

/-- What a region is, apart from its node -/
def Region.shape (r : Region) : ℕ × ℕ := (r.begin, r.npages)

/-- Memory, the pools and the descriptors are as before, and the list of the process is the same up to
the nodes that hold it. -/
structure Unchanged (s : Machine) (k : ℕ) (p : ProcMem) (s' : Machine) : Prop where
  pages : s'.pages = s.pages
  kernelPool : s'.kernelPool = s.kernelPool
  userPool : s'.userPool = s.userPool
  kernPagetable : s'.kernPagetable = s.kernPagetable
  free : s'.freeRegions.length = s.freeRegions.length
  regions : ∃ l, s'.proc = Function.update s.proc k (some { p with mmap := l }) ∧
    l.map Region.shape = p.mmap.map Region.shape

variable {ram : Ram} {roots : Set U64} {s s' : Machine} {k : ℕ} {p : ProcMem} {table : U64}

open Machine

/-! ## Unmapping no page -/

private theorem lenOf_zero : lenOf 0 = 0 := by decide

private theorem munmapLoop_empty {start : ℕ} {l : List Region} (set : IntervalSet l) (whole : ¬Splits l start) :
    munmapLoop ram table start start l s = .ok l s := by
  induction l with
  | nil => rfl
  | cons r l ih =>
    obtain ⟨placed, -, tail⟩ := intervalSet_cons.mp set
    have rest := ih tail fun ⟨q, within, inside⟩ => whole ⟨q, List.mem_cons_of_mem _ within, inside⟩
    have around : ¬(r.begin < start ∧ start < r.finish) := fun inside =>
      whole ⟨r, List.mem_cons_self, inside⟩
    rw [munmapLoop, placed.stop]
    by_cases before : start ≤ r.begin
    · rw [if_pos before]
      rfl
    · rw [if_neg before, if_pos (by omega)]
      change (munmapLoop ram table start start l).bind _ s = _
      rw [EStateM.bind, rest]
      rfl

private theorem munmapLoop_splits {start : ℕ} {l : List Region} (set : IntervalSet l)
    (page : start % pgsize = 0) (splits : Splits l start) {Q : List Region → Machine → Prop} :
    Ends (munmapLoop ram table start start l) s Q Panics := by
  induction l generalizing s Q with
  | nil =>
    obtain ⟨r, within, -⟩ := splits
    cases within
  | cons r l ih =>
    obtain ⟨placed, across, tail⟩ := intervalSet_cons.mp set
    obtain ⟨q, within, low, high⟩ := splits
    have high' := (set.placed q within).high
    simp only [mmapEnd_eq] at high'
    rw [munmapLoop, placed.stop]
    rcases List.mem_cons.mp within with rfl | within
    · rw [if_neg (by omega), if_neg (by omega), if_pos low, if_pos high]
      have none : wrap64 (start + 2 ^ 64 - start) = 0 := by
        rw [Nat.add_sub_cancel_left]
        rfl
      dsimp only
      rw [none, Ends.bind_iff, vmUnmappages, if_neg (not_not.mpr page), if_pos rfl]
      exact ⟨_, rfl⟩
    · have order := across q within
      simp only [Region.finish] at order
      rw [if_neg (by omega), if_pos (by simp only [Region.finish]; omega), Ends.bind_iff]
      exact ih tail ⟨q, within, low, high⟩

/-- Where nothing but the node names of the list differs -/
theorem Unchanged.of_list {free : List ℕ} {l : List Region}
    (count : free.length = s.freeRegions.length) (shapes : l.map Region.shape = p.mmap.map Region.shape) :
    Unchanged s k p (({ s with freeRegions := free } : Machine).setProc k (some { p with mmap := l })) :=
  ⟨rfl, rfl, rfl, rfl, count, l, rfl, shapes⟩

/-- `sys_munmap` of no page changes nothing if its address lies in the window and not inside a region; -/
theorem sysMunmap_empty (state : MmapState ram roots s k p) {addr : U64} {len : U32}
    (none : (pagesFor len).toNat = 0) (low : mmapBegin ≤ addr.toNat) (high : addr.toNat ≤ mmapEnd)
    (whole : ¬Splits p.mmap addr.toNat) :
    Yields (sysMunmap ram k addr len) s fun _ s' => Unchanged s k p s' := by
  have stop : wrap64 (addr.toNat + lenOf 0) = addr.toNat := wrap64_of_lt addr.isLt
  rw [sysMunmap, uvmMunmap]
  refine Ends.bind_iff.mpr (Ends.bind_iff.mpr ((myproc_ends state.proc).mono ?_))
  rintro q t ⟨found, same⟩
  rw [found, same, none, stop, if_neg (by omega)]
  beta_reduce
  refine Ends.bind_of_ok (munmapLoop_empty state.set whole) ?_
  rw [setMyproc, Ends.modify_iff, Ends.pure_iff]
  exact Unchanged.of_list rfl rfl

/-- else it panics. -/
theorem sysMunmap_empty_panics (state : MmapState ram roots s k p) {addr : U64} {len : U32}
    (aligned : addr.toNat % pgsize = 0) (none : (pagesFor len).toNat = 0)
    (bad : ¬(mmapBegin ≤ addr.toNat ∧ addr.toNat ≤ mmapEnd ∧ ¬Splits p.mmap addr.toNat)) :
    Ends (sysMunmap ram k addr len) s (fun _ _ => False) Panics := by
  have stop : wrap64 (addr.toNat + lenOf 0) = addr.toNat := wrap64_of_lt addr.isLt
  rw [sysMunmap, uvmMunmap]
  refine Ends.bind_iff.mpr (Ends.bind_iff.mpr ((myproc_ends state.proc).mono ?_))
  rintro q t ⟨found, same⟩
  rw [found, same, none, stop]
  refine Ends.ite (fun outside => ?_) fun inside => ?_
  · exact Ends.bind_iff.mpr (Ends.throw_iff.mpr ⟨_, rfl⟩)
  · have splits : Splits p.mmap addr.toNat := by
      by_contra whole
      exact bad ⟨by omega, by omega, whole⟩
    exact Ends.bind_iff.mpr (munmapLoop_splits state.set aligned splits)

/-! ## Mapping no page -/

/-- Two regions of a list are the same or apart. -/
theorem IntervalSet.either {l : List Region} (set : IntervalSet l) {r q : Region} (first : r ∈ l)
    (second : q ∈ l) : r = q ∨ r.finish < q.begin ∨ q.finish < r.begin := by
  induction l with
  | nil => cases first
  | cons head tail ih =>
    obtain ⟨-, across, rest⟩ := intervalSet_cons.mp set
    rcases List.mem_cons.mp first with rfl | here <;> rcases List.mem_cons.mp second with rfl | there
    · exact Or.inl rfl
    · exact Or.inr (Or.inl (across q there))
    · exact Or.inr (Or.inr (across r here))
    · exact ih rest here there

private theorem Region.begin_le (r : Region) : r.begin ≤ r.finish := Nat.le_add_right ..

/-- Where a region begins or ends, none has its inside. -/
theorem IntervalSet.not_splits {l : List Region} (set : IntervalSet l) {a : ℕ} (touches : Touches l a) :
    ¬Splits l a := by
  rintro ⟨q, second, low, high⟩
  obtain ⟨r, first, meets⟩ := touches
  have order := r.begin_le
  rcases set.either first second with rfl | before | behind <;> omega

private theorem IntervalSet.touches_within {l : List Region} (set : IntervalSet l) {a : ℕ}
    (touches : Touches l a) : mmapBegin ≤ a ∧ a ≤ mmapEnd := by
  obtain ⟨r, within, meets⟩ := touches
  have low := (set.placed r within).low
  have high := (set.placed r within).high
  have order := r.begin_le
  omega

/-- An empty region goes to the begin of the window or to its address, unless this is outside of the
window or inside a region. -/
theorem choosePlace_empty {regions : List Region} (set : IntervalSet regions) {addr : U64} :
    Ends (choosePlace regions addr.toNat 0) s (fun place s' => s' = s ∧ place.1 = emptyPlace addr ∧
      emptyPlace addr ≤ mmapEnd ∧ place.2.1.reverse ++ place.2.2 = regions ∧
      (∀ r ∈ place.2.1, r.finish ≤ emptyPlace addr) ∧
      ∀ r ∈ place.2.2, emptyPlace addr ≤ r.begin)
      fun f => Panics f ∧ ¬Touches regions (emptyPlace addr) := by
  have zero : addr.toNat = 0 ↔ addr = 0 := ⟨fun zero => BitVec.eq_of_toNat_eq zero, fun zero => zero ▸ rfl⟩
  rw [choosePlace, lenOf_zero]
  refine Ends.ite (fun auto => ?_) fun given => ?_
  · have place : emptyPlace addr = mmapBegin := if_pos (zero.mp auto)
    have chosen : findFreeRegion 0 [] mmapBegin regions = (mmapBegin, [], regions) := by
      cases regions with
      | nil => rfl
      | cons curr rest =>
        have low : wrap64 (mmapBegin + 0) ≤ curr.begin := (set.placed curr List.mem_cons_self).low
        rw [findFreeRegion, if_pos low]
    rw [place]
    simp only [chosen]
    refine Ends.ite (fun full => absurd full (by decide)) fun _ => ?_
    exact ⟨rfl, rfl, by decide, rfl, List.forall_mem_nil _, fun r within => (set.placed r within).low⟩
  · have place : emptyPlace addr = addr.toNat := if_neg (mt zero.mpr given)
    have stop : wrap64 (addr.toNat + 0) = addr.toNat := wrap64_of_lt addr.isLt
    rw [place, stop]
    refine Ends.ite (fun outside => ?_) fun inside => ?_
    · refine Ends.bind_iff.mpr (Ends.throw_iff.mpr ⟨⟨_, rfl⟩, fun touches => ?_⟩)
      have inside := set.touches_within touches
      omega
    · refine Ends.bind_iff.mpr ?_
      refine ((@findPlace_ordered addr.toNat s [] regions set.ordered (List.forall_mem_nil _)).fails
        fun f bad => ⟨bad.1, fun touches => set.not_splits touches bad.2⟩).mono ?_
      rintro ⟨before, after⟩ t ⟨same, cut, behind, front⟩
      refine Ends.ite (fun overlaps => ?_) fun apart => ?_
      · cases after with
        | nil => cases overlaps
        | cons next rest =>
          have less : next.begin < addr.toNat := by simpa using overlaps
          have least := front next List.mem_cons_self
          omega
      · exact ⟨same, rfl, by omega, cut, behind, front⟩

private theorem Region.Placed.count_lt {r : Region} (placed : r.Placed) : r.npages % 2 ^ 32 = r.npages := by
  have high := placed.high
  simp only [Region.finish, pgsize_eq, mmapEnd_eq] at high
  exact Nat.mod_eq_of_lt (by omega)

private theorem Region.Placed.begin_lt {r : Region} (placed : r.Placed) : r.begin < r.finish := by
  have some := placed.some
  simp only [Region.finish, pgsize_eq]
  omega

/-- Whether the node after an empty one begins at its place -/
theorem mergeNext_empty {node a : ℕ} {after : List Region} (limit : a ≤ mmapEnd) (t : Machine) :
    mergeNext ⟨node, a, 0⟩ after t = match after with
      | [] => .ok (⟨node, a, 0⟩, []) t
      | next :: rest =>
        if a = next.begin then
          .ok (⟨node, a, next.npages % 2 ^ 32⟩, rest) { t with freeRegions := next.node :: t.freeRegions }
        else .ok (⟨node, a, 0⟩, next :: rest) t := by
  have stop : (⟨node, a, 0⟩ : Region).stop = a := by
    change wrap64 (a + lenOf 0) = a
    rw [lenOf_zero]
    exact wrap64_of_lt (by simp only [mmapEnd_eq] at limit; omega)
  cases after with
  | nil => rfl
  | cons next rest =>
    rw [mergeNext, stop]
    dsimp only
    split
    · rw [Nat.zero_add]
      rfl
    · rfl

/-- An empty region becomes part of a region that it touches. -/
theorem merge_touching {node a : ℕ} {before after : List Region}
    (set : IntervalSet (before.reverse ++ after)) (behind : ∀ r ∈ before, r.finish ≤ a)
    (front : ∀ r ∈ after, a ≤ r.begin) (touches : Touches (before.reverse ++ after) a) (t : Machine) :
    ∃ m rest t₁ l free, mergeNext ⟨node, a, 0⟩ after t = .ok (m, rest) t₁ ∧
      mergePrev m rest before t₁ = .ok l { t with freeRegions := free } ∧
      free.length = t.freeRegions.length + 1 ∧
      l.map Region.shape = (before.reverse ++ after).map Region.shape := by
  have limit := (set.touches_within touches).2
  obtain ⟨fore, hind, across⟩ := intervalSet_append.mp set
  obtain ⟨r, within, meets⟩ := touches
  have room := (set.placed r within).begin_lt
  rcases List.mem_append.mp within with early | late
  · -- the region ends at `a`, so it is the last one before
    have ends : r.finish = a := by
      have least := behind r (List.mem_reverse.mp early)
      omega
    cases before with
    | nil => cases early
    | cons prev before =>
      have first : prev ∈ (prev :: before).reverse := List.mem_reverse.mpr List.mem_cons_self
      have placed := fore.placed prev first
      have last : prev.finish = a := by
        have least := behind prev List.mem_cons_self
        have filled := placed.begin_lt
        rw [List.reverse_cons] at fore early
        rcases List.mem_append.mp early with earlier | here
        · have order := (intervalSet_append.mp fore).2.2 r earlier prev (List.mem_singleton_self prev)
          omega
        · rw [← List.mem_singleton.mp here, ends]
      have unmerged : mergeNext ⟨node, a, 0⟩ after t = .ok (⟨node, a, 0⟩, after) t := by
        rw [mergeNext_empty limit]
        cases after with
        | nil => rfl
        | cons next rest =>
          have apart := across prev first next List.mem_cons_self
          dsimp only
          rw [if_neg (by omega)]
      refine ⟨_, _, _, before.reverse ++ ⟨prev.node, prev.begin, prev.npages⟩ :: after,
        node :: t.freeRegions, unmerged, ?_, rfl, ?_⟩
      · rw [mergePrev, placed.stop, if_pos last, Nat.add_zero, placed.count_lt]
        rfl
      · rw [List.reverse_cons, List.append_assoc]
        rfl
  · -- the region begins at `a`, so it is the first one after
    have begins : r.begin = a := by
      have least := front r late
      omega
    cases after with
    | nil => cases late
    | cons next rest =>
      have placed := hind.placed next List.mem_cons_self
      have first : a = next.begin := by
        have least := front next List.mem_cons_self
        have filled := placed.begin_lt
        rcases List.mem_cons.mp late with rfl | later
        · exact begins.symm
        · have order := (intervalSet_cons.mp hind).2.1 r later
          omega
      have merged := @mergeNext_empty node a (next :: rest) limit t
      dsimp only at merged
      rw [if_pos first, placed.count_lt] at merged
      refine ⟨_, _, _, before.reverse ++ ⟨node, a, next.npages⟩ :: rest, next.node :: t.freeRegions,
        merged, ?_, rfl, ?_⟩
      · cases before with
        | nil => rfl
        | cons prev before =>
          have member : prev ∈ (prev :: before).reverse := List.mem_reverse.mpr List.mem_cons_self
          have apart := across prev member next List.mem_cons_self
          have stop := (fore.placed prev member).stop
          rw [mergePrev, if_neg (by dsimp only; omega)]
          rfl
      · rw [List.map_append, List.map_append, List.map_cons, List.map_cons, Region.shape, Region.shape, first]

/-- An empty region that touches none stays. -/
theorem merge_apart {node a : ℕ} {before after : List Region}
    (set : IntervalSet (before.reverse ++ after)) (limit : a ≤ mmapEnd)
    (apart : ¬Touches (before.reverse ++ after) a) (t : Machine) :
    mergeNext ⟨node, a, 0⟩ after t = .ok (⟨node, a, 0⟩, after) t ∧
      mergePrev ⟨node, a, 0⟩ after before t = .ok (before.reverse ++ ⟨node, a, 0⟩ :: after) t := by
  constructor
  · rw [mergeNext_empty limit]
    cases after with
    | nil => rfl
    | cons next rest =>
      dsimp only
      rw [if_neg]
      intro begins
      exact apart ⟨next, List.mem_append_right _ List.mem_cons_self, Or.inl begins.symm⟩
  · cases before with
    | nil => rfl
    | cons prev before =>
      have member : prev ∈ (prev :: before).reverse ++ after :=
        List.mem_append_left _ (List.mem_reverse.mpr List.mem_cons_self)
      rw [mergePrev, (set.placed prev member).stop, if_neg]
      · rfl
      · intro ends
        exact apart ⟨prev, member, Or.inr ends⟩

/-- `sys_mmap` of no page changes nothing if it finds a node and a region that touches its place, -/
theorem sysMmap_empty (state : MmapState ram roots s k p) {addr : U64} {len : U32}
    (none : (pagesFor len).toNat = 0) (space : s.freeRegions ≠ [])
    (touches : Touches p.mmap (emptyPlace addr)) (prot : U32) :
    Yields (sysMmap k addr len prot) s fun _ s' => Unchanged s k p s' := by
  rw [sysMmap, uvmMmap]
  refine Ends.bind_iff.mpr (Ends.bind_iff.mpr ((myproc_ends state.proc).mono ?_))
  rintro q t ⟨found, same⟩
  rw [found, same, none]
  refine Ends.bind_iff.mpr (((choosePlace_empty state.set).fails fun f bad => bad.2 touches).mono ?_)
  rintro ⟨a, before, after⟩ t ⟨same, place, limit, cut, behind, front⟩
  simp only at place cut behind front
  rw [same, place]
  obtain ⟨node, free, pool⟩ := List.exists_cons_of_ne_nil space
  have alloc : mmapRegionAlloc s = .ok node { s with freeRegions := free } := by
    rw [mmapRegionAlloc]
    refine bind_eq_ok.mpr ⟨s, s, rfl, ?_⟩
    rw [pool]
    rfl
  obtain ⟨m, rest, t₁, l, free', next, prev, count, shapes⟩ :=
    @merge_touching node _ before after (cut ▸ state.set) behind front (cut ▸ touches)
      { s with freeRegions := free }
  refine Ends.bind_of_ok alloc (Ends.bind_of_ok next (Ends.bind_of_ok prev ?_))
  rw [Ends.bind_iff, setMyproc, Ends.modify_iff, mmapPages, Ends.pure_iff, Ends.pure_iff]
  exact Unchanged.of_list (by rw [count, pool]; rfl) (by rw [shapes, cut])

/-- and else it panics or leaves an empty region in the list. -/
theorem sysMmap_empty_stays (state : MmapState ram roots s k p) {addr : U64} {len : U32}
    (none : (pagesFor len).toNat = 0) (bad : ¬(s.freeRegions ≠ [] ∧ Touches p.mmap (emptyPlace addr)))
    (prot : U32) : Returns (sysMmap k addr len prot) s fun _ s' => ¬Unchanged s k p s' := by
  rw [sysMmap, uvmMmap]
  refine Returns.bind_iff.mpr (Returns.bind_iff.mpr ((myproc_ends state.proc (E := fun _ => True)).returns.mono ?_))
  rintro q t ⟨found, same⟩
  rw [found, same, none]
  refine Returns.bind_iff.mpr ((choosePlace_empty state.set).returns.mono ?_)
  rintro ⟨a, before, after⟩ t ⟨same, place, limit, cut, behind, front⟩
  simp only at place cut behind front
  rw [same, place]
  refine Returns.bind_iff.mpr (mmapRegionAlloc_ends.returns.mono ?_)
  rintro node t ⟨free, pool, same⟩
  rw [same]
  have apart : ¬Touches p.mmap (emptyPlace addr) := fun touches => bad ⟨by rw [pool]; exact (by simp), touches⟩
  obtain ⟨next, prev⟩ := @merge_apart node _ before after (cut ▸ state.set) limit (cut ▸ apart)
    { s with freeRegions := free }
  refine Returns.bind_of_ok next (Returns.bind_of_ok prev ?_)
  rw [Returns.bind_iff, setMyproc, Returns.modify_iff, mmapPages, Returns.pure_iff, Returns.pure_iff]
  intro unchanged
  obtain ⟨l, proc, shapes⟩ := unchanged.regions
  have entry := congrFun proc k
  simp only [setProc, Function.update_self, Option.some.injEq, ProcMem.mk.injEq] at entry
  have length := congrArg List.length shapes
  rw [List.length_map, List.length_map, ← entry.2.2.2.2.1, ← cut, List.length_append, List.length_append,
    List.length_cons] at length
  omega

/-- A call of no page returns and changes nothing exactly if it fits. -/
theorem empty_call_iff (state : MmapState ram roots s k p) {call : MmapCall} (aligned : call.Aligned)
    (none : call.npages = 0) :
    (∃ r s', call.run ram k s = .ok r s' ∧ Unchanged s k p s') ↔ call.Fits s p := by
  have ends {x : MemM U64} (yields : Yields x s fun _ s' => Unchanged s k p s') :
      ∃ r s', x s = .ok r s' ∧ Unchanged s k p s' := yields.result
  cases call with
  | mmap addr len prot =>
    have zero : ¬0 < (pagesFor len).toNat := by
      rw [show (pagesFor len).toNat = 0 from none]
      exact Nat.lt_irrefl 0
    constructor
    · rintro ⟨r, s', run, unchanged⟩
      by_contra bad
      exact sysMmap_empty_stays state none (fun good => bad (Or.inr good)) prot r s' run unchanged
    · intro fits
      obtain ⟨space, touches⟩ := fits.resolve_left zero
      exact ends (sysMmap_empty state none space touches prot)
  | munmap addr len =>
    have zero : ¬0 < (pagesFor len).toNat := by
      rw [show (pagesFor len).toNat = 0 from none]
      exact Nat.lt_irrefl 0
    constructor
    · rintro ⟨r, s', run, unchanged⟩
      by_contra bad
      exact (sysMunmap_empty_panics state aligned none fun good => bad (Or.inr good)).returns r s' run
    · intro fits
      obtain ⟨low, high, whole⟩ := fits.resolve_left zero
      exact ends (sysMunmap_empty state none low high whole)

/-! ## Runs -/

private theorem covers_shapes {l m : List Region} (shapes : l.map Region.shape = m.map Region.shape) (v : ℕ) :
    Covers l v ↔ Covers m v := by
  have given (l : List Region) : Covers l v ↔
      ∃ x ∈ l.map Region.shape, x.1 ≤ v * pgsize ∧ v * pgsize < x.1 + x.2 * pgsize := by
    simp only [Covers, List.mem_map, exists_exists_and_eq_and]
    rfl
  rw [given, given, shapes]

private theorem intervalSet_shapes (l : List Region) : IntervalSet l ↔
    (∀ x ∈ l.map Region.shape, (⟨0, x.1, x.2⟩ : Region).Placed) ∧
      (l.map Region.shape).Pairwise fun x y => x.1 + x.2 * pgsize < y.1 := by
  rw [List.forall_mem_map, List.pairwise_map]
  constructor
  · rintro ⟨placed, apart⟩
    refine ⟨fun r within => ?_, apart⟩
    obtain ⟨aligned, some, low, high⟩ := placed r within
    exact ⟨aligned, some, low, high⟩
  · rintro ⟨placed, apart⟩
    refine ⟨fun r within => ?_, apart⟩
    obtain ⟨aligned, some, low, high⟩ := placed r within
    exact ⟨aligned, some, low, high⟩

private theorem Unchanged.state (unchanged : Unchanged s k p s') (state : MmapState ram roots s k p) :
    ∃ q, MmapState ram roots s' k q := by
  obtain ⟨l, proc, shapes⟩ := unchanged.regions
  have root : s'.rootFor p.pgtbl = s.rootFor p.pgtbl := by
    rw [rootFor, rootFor, unchanged.kernPagetable]
  refine ⟨{ p with mmap := l }, ?_, ?_, ?_, ?_, fun v low high => ?_⟩
  · rw [proc]
    exact Function.update_self ..
  · exact state.tables.of_pages unchanged.pages unchanged.userPool unchanged.kernelPool
  · exact root ▸ state.live
  · rw [intervalSet_shapes, shapes, ← intervalSet_shapes]
    exact state.set
  · have old := state.mapped v low high
    rw [translate_isSome high] at old ⊢
    change PteHas (s'.leaf (s'.rootFor p.pgtbl) v) pteV ↔ Covers l v
    rw [root, leaf_of_pages unchanged.pages, old, covers_shapes shapes]

/-- A call of a process with a page-aligned address, or 0 -/
def CallStep (ram : Ram) (k : ℕ) (s : Machine) (call : MmapCall) (s' : Machine) : Prop :=
  call.Aligned ∧ ∃ r, call.run ram k s = .ok r s'

/-- The call fits the list that the process has. -/
def CallFits (k : ℕ) (s : Machine) (call : MmapCall) : Prop := ∃ p, s.proc k = some p ∧ call.Fits s p

/-- A call that fits and returns keeps all regions filled, and the page table in step with them. -/
theorem call_keeps (state : MmapState ram roots s k p) {call : MmapCall}
    (step : Guarded (CallFits k) (CallStep ram k) s call s') : ∃ q, MmapState ram roots s' k q := by
  obtain ⟨⟨q, proc, fits⟩, aligned, r, run⟩ := step
  obtain rfl := Option.some.inj (state.proc.symm.trans proc)
  rcases Nat.eq_zero_or_pos call.npages with none | some
  · obtain ⟨r', t, again, unchanged⟩ := (empty_call_iff state aligned none).mpr fits
    rw [run] at again
    cases again
    exact unchanged.state state
  · cases call with
    | mmap addr len prot =>
      obtain ⟨_, t, called, done⟩ := bind_eq_ok.mp run
      cases done
      obtain ⟨p', -, after, -⟩ := (uvmMmap_ends state aligned some prot).returns _ _ called
      exact ⟨p', after⟩
    | munmap addr len =>
      obtain ⟨_, t, called, done⟩ := bind_eq_ok.mp run
      cases done
      obtain ⟨p', after, -⟩ := (uvmMunmap_ends state aligned (pagesFor len)).returns _ _ called
      exact ⟨p', after⟩

/-- The loop of `proc_free` over a list of filled regions -/
theorem freeMmap_filled {l : List Region} (set : IntervalSet l) (tables : s.Tables ram roots)
    (live : s.rootFor table ∈ roots) : Ends (freeMmap ram table l) s (fun _ _ => True)
      fun f => f ≠ .panic "vm_unmappages: zero length" := by
  induction l generalizing s with
  | nil => trivial
  | cons r l ih =>
    obtain ⟨placed, -, tail⟩ := intervalSet_cons.mp set
    have high := placed.high
    have filled := placed.begin_lt
    simp only [Region.finish, pgsize_eq, mmapEnd_eq] at high filled
    have len : lenOf r.npages = r.npages * pgsize := lenOf_eq (by
      have low := placed.low
      simp only [pgsize_eq, mmapBegin_eq] at low ⊢
      omega)
    rw [freeMmap, len]
    refine Ends.bind_iff.mpr (((vmUnmappages_ends tables live true placed.aligned (by
      simp only [pgsize_eq]
      omega) (by simp only [pgsize_eq, vaMax_eq]; omega)).fails fun f bad => ?_).mono ?_)
    · rw [bad.2]
      decide
    · rintro _ t shows
      have root : t.rootFor table = s.rootFor table := shows.rootFor (View.clearRange_page ..).2.2.1 table
      rw [Ends.bind_iff, mmapRegionFree, Ends.modify_iff]
      exact ih tail (shows.tables.of_pages rfl rfl rfl) (root ▸ live)

/-- In every run of calls that fit, every state reached has only regions of at least one page, on which
`proc_free` finds no empty range; and there a call that is rounded to no page returns and changes nothing
exactly if it fits. -/
theorem regions_filled (state : MmapState ram roots s k p) {calls : List MmapCall} {t : Machine}
    (run : Run (Guarded (CallFits k) (CallStep ram k)) s calls t) :
    ∃ q, t.proc k = some q ∧ (∀ r ∈ q.mmap, 1 ≤ r.npages ∧ lenOf r.npages ≠ 0) ∧
      (Ends (freeMmap ram q.pgtbl q.mmap) t (fun _ _ => True)
        fun f => f ≠ .panic "vm_unmappages: zero length") ∧
      ∀ call : MmapCall, call.Aligned → call.npages = 0 →
        ((∃ r u, call.run ram k t = .ok r u ∧ Unchanged t k q u) ↔ call.Fits t q) := by
  obtain ⟨q, after⟩ := run.invariant (P := fun s => ∃ q, MmapState ram roots s k q)
    (fun s call s' step ⟨q, before⟩ => call_keeps before step) ⟨p, state⟩
  refine ⟨q, after.proc, fun r within => ?_, freeMmap_filled after.set after.tables after.live,
    fun call aligned none => empty_call_iff after aligned none⟩
  have placed := after.set.placed r within
  have low := placed.low
  have high := placed.high
  have filled := placed.begin_lt
  refine ⟨placed.some, ?_⟩
  simp only [Region.finish, pgsize_eq, mmapEnd_eq, mmapBegin_eq] at high filled low
  rw [lenOf_eq (by simp only [pgsize_eq]; omega)]
  simp only [pgsize_eq]
  omega

/-- `CallFits` for aligned calls, as a test -/
def fitting (s : Machine) (call : MmapCall) : Bool :=
  decide call.Aligned && (s.proc 0).any fun p => decide (call.Fits s p)

private theorem fitting_spec {s : Machine} {call : MmapCall} (fits : fitting s call = true) :
    call.Aligned ∧ CallFits 0 s call := by
  obtain ⟨aligned, there⟩ := Bool.and_eq_true_iff.mp fits
  obtain ⟨p, proc, fits⟩ := (Option.any_eq_true ..).mp there
  exact ⟨of_decide_eq_true aligned, p, proc, of_decide_eq_true fits⟩

/-- Two pages are mapped, an unmapping of no page leaves them and the first one is unmapped; then a mapping of
no page joins the region that is left. -/
theorem regions_filled_trim : ∃ t q r u, Run (Guarded (CallFits 0) (CallStep ⟨0x80200000⟩ 0)) mmapMachine
      [.mmap 0x3ffb000000 0x1fff 0x16, .munmap 0x3ffb000000 0, .munmap 0x3ffb000000 0xfff] t ∧
    t.proc 0 = some q ∧ q.mmap.map Region.shape = [(0x3ffb001000, 1)] ∧
    (∀ r ∈ q.mmap, 1 ≤ r.npages ∧ lenOf r.npages ≠ 0) ∧
    (MmapCall.mmap 0x3ffb001000 0 0x16).run ⟨0x80200000⟩ 0 t = .ok r u ∧ Unchanged t 0 q u := by
  obtain ⟨t, run, left⟩ := Run.exists_guarded fitting (fun s call => endOf (call.run ⟨0x80200000⟩ 0) s) mmapMachine
    [.mmap 0x3ffb000000 0x1fff 0x16, .munmap 0x3ffb000000 0, .munmap 0x3ffb000000 0xfff]
    (fun t => fitting t (.mmap 0x3ffb001000 0 0x16) &&
      (t.proc 0).any fun q : ProcMem => decide (q.mmap.map Region.shape = [(0x3ffb001000, 1)])) (by decide +kernel)
  have within : ∀ s call s', True → Guarded (fun s call => fitting s call = true)
      (fun s call s' => endOf (call.run ⟨0x80200000⟩ 0) s = some s') s call s' →
      Guarded (CallFits 0) (CallStep ⟨0x80200000⟩ 0) s call s' ∧ True := by
    rintro s call s' - ⟨fits, ends⟩
    obtain ⟨aligned, there⟩ := fitting_spec fits
    exact ⟨⟨there, aligned, endOf_eq_some.mp ends⟩, trivial⟩
  have calls := run.refine trivial within
  obtain ⟨fits, shape⟩ := Bool.and_eq_true_iff.mp left
  obtain ⟨q, proc, filled, -, empty⟩ := regions_filled mmapMachine_state calls
  rw [proc, Option.any_some] at shape
  obtain ⟨aligned, p, proc', fits⟩ := fitting_spec fits
  obtain rfl := Option.some.inj (proc.symm.trans proc')
  obtain ⟨r, u, result, same⟩ := (empty (.mmap 0x3ffb001000 0 0x16) aligned (by decide)).mpr fits
  exact ⟨t, q, r, u, calls, proc, of_decide_eq_true shape, filled, result, same⟩
/-- A mapping of length 0 leaves an empty region in the list, and `proc_free` panics on it. -/
theorem empty_region_stays : ∃ s' q, sysMmap 0 0x3ffaffe000 0 0x16 mmapMachine = .ok 0x3ffaffe000 s' ∧
    s'.proc 0 = some q ∧ (∃ r ∈ q.mmap, r.npages = 0) ∧
    ∃ u, freeMmap ⟨0x80200000⟩ q.pgtbl q.mmap s' = .error (.panic "vm_unmappages: zero length") u := by
  have returns : returnsWith (sysMmap 0 0x3ffaffe000 0 0x16) mmapMachine (fun r s' =>
      decide (r = 0x3ffaffe000) && (s'.proc 0).any fun q => q.mmap.any (fun r => r.npages = 0) &&
        failsWith (freeMmap ⟨0x80200000⟩ q.pgtbl q.mmap) s' fun f =>
          decide (f = .panic "vm_unmappages: zero length")) = true := by decide +kernel
  obtain ⟨r, s', result, returns⟩ := ok_of_returnsWith returns
  obtain ⟨address, returns⟩ := Bool.and_eq_true_iff.mp returns
  obtain rfl := of_decide_eq_true address
  obtain ⟨q, proc, returns⟩ := (Option.any_eq_true ..).mp returns
  simp only [Bool.and_eq_true, List.any_eq_true, decide_eq_true_eq] at returns
  obtain ⟨empty, panics⟩ := returns
  obtain ⟨f, u, freed, same⟩ := error_of_failsWith panics
  obtain rfl := of_decide_eq_true same
  exact ⟨s', q, result, proc, empty, u, freed⟩

end LabKernel
