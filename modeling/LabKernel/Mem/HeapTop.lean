import LabKernel.Mem.Heap

/-! # Where the top of the heap ends up

`sys_brk` puts the distance between the old and the new top into a `uint32`. Here nothing is assumed
about where the heap lies, except that its pages are mapped: a call that returns does what it is asked
for exactly if the distance fits.
-/

namespace LabKernel

variable {ram : Ram} {roots : Set U64} {s s' : Machine} {k : ℕ} {p : ProcMem} {v n : ℕ} {root table : U64}

open Machine

/-- `vm_getpte` finds a valid entry for a page. -/
def Mapped (s : Machine) (table : U64) (v : ℕ) : Prop := (translate s table (v * pgsize)).isSome

theorem mapped_iff (low : v * pgsize < vaMax) :
    Mapped s table v ↔ PteHas (s.leaf (s.rootFor table) v) pteV := by
  have number : v * pgsize / pgsize = v := Nat.mul_div_cancel v (by decide)
  rw [Mapped, translate_eq low, number, decode]
  split
  · exact iff_of_true rfl ‹_›
  · exact iff_of_false Bool.false_ne_true ‹_›

/-- The pages that begin below the top, from the second page of the user's memory on, are mapped. -/
structure BrkState (ram : Ram) (roots : Set U64) (s : Machine) (k : ℕ) (p : ProcMem) : Prop where
  proc : s.proc k = some p
  tables : s.Tables ram roots
  live : s.rootFor p.pgtbl ∈ roots
  low : userBase + pgsize ≤ p.heapTop
  mapped : ∀ v, userBase + pgsize ≤ v * pgsize → v * pgsize < p.heapTop → Mapped s p.pgtbl v

/-- `sys_brk` did what it was asked for. -/
structure BrkDone (s' : Machine) (table : U64) (k : ℕ) (addr r : ℕ) : Prop where
  returned : r = addr
  top : ∃ q, s'.proc k = some q ∧ q.heapTop = addr
  mapped : ∀ v, userBase + pgsize ≤ v * pgsize → v * pgsize < alignUp addr → Mapped s' table v

/-- A heap that is mapped lies below `VA_MAX`. -/
theorem BrkState.high (state : BrkState ram roots s k p) : p.heapTop ≤ vaMax := by
  by_contra above
  have found := state.mapped (vaMax / pgsize) (by decide) (by
    rw [show vaMax / pgsize * pgsize = vaMax by decide]
    omega)
  rw [Mapped, translate_high (by decide)] at found
  cases found

private theorem BrkState.valid (state : BrkState ram roots s k p) (first : userBase + pgsize ≤ v * pgsize)
    (below : v * pgsize < p.heapTop) : PteHas (s.leaf (s.rootFor p.pgtbl) v) pteV :=
  (mapped_iff (Nat.lt_of_lt_of_le below state.high)).mp (state.mapped v first below)

/-- Wherever the loop returns, it has mapped the pages of its range and unmapped none. -/
theorem growLoop_maps {perm : U32} {stop fuel va : ℕ} (tables : s.Tables ram roots)
    (live : s.rootFor table ∈ roots) (page : va % pgsize = 0) (word : va < 2 ^ 64) :
    Returns (growLoop table perm stop fuel va) s fun _ s' => s'.kernPagetable = s.kernPagetable ∧
      (stop ≤ va ∨ stop ≤ vaMax) ∧ ∀ v, PteHas (s.leaf (s.rootFor table) v) pteV ∨ va ≤ v * pgsize ∧ v * pgsize < stop →
        PteHas (s'.leaf (s.rootFor table) v) pteV := by
  induction fuel generalizing s va with
  | zero => exact Returns.throw_iff.mpr trivial
  | succ fuel ih =>
    rw [growLoop]
    refine Returns.ite (fun more => ?_) fun done => ?_
    · by_cases low : va + pgsize ≤ vaMax
      · refine (freshPage_ends tables live page low (E := fun _ => True) (fun _ _ => trivial)
          fun a rest s₁ pool user fresh => ?_).returns
        have kernel : s₁.kernPagetable = s.kernPagetable := congrArg View.kernPagetable fresh.view
        have same : s₁.rootFor table = s.rootFor table := fresh.rootFor rfl table
        simp only [vaMax_eq, pgsize_eq] at low page
        have next : wrap64 (va + pgsize) = va + pgsize :=
          wrap64_of_lt (by simp only [pgsize_eq]; omega)
        rw [next]
        refine (Ends.of_returns (ih fresh.tables (same ▸ live) (by simp only [pgsize_eq]; omega)
          (by simp only [pgsize_eq]; omega))).mono ?_
        rintro _ s' ⟨kernel', limit, maps⟩
        rw [same] at maps
        refine ⟨kernel'.trans kernel, Or.inr ?_, fun v which => maps v ?_⟩
        · simp only [vaMax_eq, pgsize_eq] at limit ⊢
          omega
        rw [fresh_leaf fresh live]
        by_cases here : v = va / pgsize
        · rw [if_pos ⟨rfl, here⟩]
          exact Or.inl (permFlags_valid a perm)
        · rw [if_neg (fun both => here both.2)]
          refine which.imp_right fun inside => ?_
          simp only [pgsize_eq] at here inside ⊢
          omega
      · rw [Returns.bind_iff]
        refine fun mem s₁ _ => Returns.bind_iff.mpr ?_
        exact (vmMappages_high word page (by omega)).returns
    · refine Returns.pure_iff.mpr ⟨rfl, Or.inl (by omega), fun v which => which.resolve_right ?_⟩
      omega

/-- A page below a rounded address begins below the address. -/
theorem lt_of_lt_alignUp {x : ℕ} (below : v * pgsize < alignUp x) : v * pgsize < x := by
  have less : wrap64 (x + pgsize - 1) ≤ x + pgsize - 1 := Nat.mod_le _ _
  simp only [alignUp, pgsize_eq] at below less ⊢
  omega

/-- The pages that are mapped below a top, with the kernel's table where it was -/
structure MappedBelow (s : Machine) (table : U64) (top : ℕ) (s' : Machine) : Prop where
  kernel : s'.kernPagetable = s.kernPagetable
  limit : top ≤ vaMax
  mapped : ∀ v, userBase + pgsize ≤ v * pgsize → v * pgsize < alignUp top →
    PteHas (s'.leaf (s.rootFor table) v) pteV

private theorem uvmHeapGrow_maps (state : BrkState ram roots s k p) (len : ℕ) :
    Returns (uvmHeapGrow p.pgtbl p.heapTop len) s fun top s' =>
      top = wrap64 (p.heapTop + len) ∧ MappedBelow s p.pgtbl top s' := by
  have high := state.high
  simp only [vaMax_eq] at high
  have word : alignUp p.heapTop = (p.heapTop + pgsize - 1) / pgsize * pgsize := by
    rw [alignUp, wrap64_of_lt (by simp only [pgsize_eq]; omega)]
  have page : alignUp p.heapTop % pgsize = 0 := by rw [word, Nat.mul_mod_left]
  rw [uvmHeapGrow, Returns.bind_iff]
  refine (growLoop_maps state.tables state.live page (by rw [word, pgsize_eq]; omega)).mono ?_
  rintro _ s' ⟨kernel, limit, maps⟩
  refine Returns.pure_iff.mpr ⟨rfl, kernel, ?_, fun v first below => maps v ?_⟩
  · rw [word] at limit
    simp only [vaMax_eq, pgsize_eq] at limit ⊢
    omega
  have start := lt_of_lt_alignUp below
  by_cases old : v * pgsize < p.heapTop
  · exact Or.inl (state.valid first old)
  · refine Or.inr ⟨?_, start⟩
    rw [word]
    simp only [pgsize_eq] at old ⊢
    omega

private theorem uvmHeapUngrow_maps (state : BrkState ram roots s k p) {bytes : ℕ} (some : bytes < p.heapTop) :
    Returns (uvmHeapUngrow ram p.pgtbl p.heapTop bytes) s fun top s' =>
      top = p.heapTop - bytes ∧ MappedBelow s p.pgtbl top s' := by
  have high := state.high
  simp only [vaMax_eq] at high
  have word {x : ℕ} (below : x ≤ p.heapTop) : alignUp x = (x + pgsize - 1) / pgsize * pgsize := by
    rw [alignUp, wrap64_of_lt (by simp only [pgsize_eq]; omega)]
  have old := word (Nat.le_refl _)
  have new := word (Nat.sub_le p.heapTop bytes)
  have kept {v : ℕ} (first : userBase + pgsize ≤ v * pgsize)
      (below : v * pgsize < alignUp (p.heapTop - bytes)) : PteHas (s.leaf (s.rootFor p.pgtbl) v) pteV :=
    state.valid first (Nat.lt_of_lt_of_le (lt_of_lt_alignUp below) (Nat.sub_le ..))
  rw [uvmHeapUngrow]
  refine Returns.ite (fun zero => ?_) fun nonzero => ?_
  · refine Returns.pure_iff.mpr ⟨by rw [zero]; rfl, rfl, state.high, fun v first below => ?_⟩
    exact state.valid first (lt_of_lt_alignUp below)
  have limit : p.heapTop - bytes ≤ vaMax := Nat.le_trans (Nat.sub_le ..) state.high
  simp only [if_pos some]
  generalize bottom : (if alignUp (p.heapTop - bytes) < userBase + pgsize then userBase + pgsize
    else alignUp (p.heapTop - bytes)) = low
  have aligned : low % pgsize = 0 := by
    rw [← bottom, new]
    split
    · decide
    · exact Nat.mul_mod_left ..
  have least : alignUp (p.heapTop - bytes) ≤ low := by
    rw [← bottom]
    split <;> omega
  refine Returns.ite (fun shrinks => ?_) fun stays => ?_
  · rw [Returns.bind_iff]
    have range : low + (alignUp p.heapTop - low) ≤ vaMax := by
      rw [old] at shrinks ⊢
      simp only [pgsize_eq, vaMax_eq] at shrinks ⊢
      omega
    refine (vmUnmappages_ends state.tables state.live true aligned (by omega) range).returns.mono ?_
    rintro _ s' shows
    have kernel : s'.kernPagetable = s.kernPagetable :=
      (congrArg View.kernPagetable shows.view).trans (View.clearRange_page ..).2.2.1
    refine Returns.pure_iff.mpr ⟨rfl, kernel, limit, fun v first below => ?_⟩
    · rw [clear_leaf state.live shows, if_neg]
      · exact kept first below
      · rintro ⟨inside, -⟩
        have above := inside.1
        simp only [pgsize_eq] at above aligned below
        omega
  · exact Returns.pure_iff.mpr ⟨rfl, rfl, limit, fun v first below => kept first below⟩

/-- A call that returns moves the top by the distance modulo `2 ^ 32`, and what lies below the new top is
mapped. -/
theorem sysBrk_maps {addr : U64} (state : BrkState ram roots s k p)
    (low : userBase + pgsize ≤ addr.toNat) : Returns (sysBrk ram k addr) s fun r s' =>
      r = brkTop p.heapTop addr.toNat ∧ s'.proc k = some { p with heapTop := r } ∧
        MappedBelow s p.pgtbl r s' := by
  have enter {top : ℕ} {t : Machine} (maps : MappedBelow s p.pgtbl top t) :
      (t.setProc k (some { p with heapTop := top })).proc k = some { p with heapTop := top } ∧
        MappedBelow s p.pgtbl top (t.setProc k (some { p with heapTop := top })) := by
    refine ⟨Function.update_self .., maps.kernel, maps.limit, fun v first below => ?_⟩
    rw [show (t.setProc k _).leaf (s.rootFor p.pgtbl) v = t.leaf (s.rootFor p.pgtbl) v from
      leaf_of_pages rfl ..]
    exact maps.mapped v first below
  rw [sysBrk, Returns.bind_iff]
  refine (myproc_ends state.proc (E := fun _ => True)).returns.mono ?_
  rintro q t ⟨found, same⟩
  rw [found, same]
  refine Returns.ite (fun grows => ?_) fun stays => Returns.ite (fun shrinks => ?_) fun same => ?_
  · rw [Returns.bind_iff]
    refine (uvmHeapGrow_maps state _).mono ?_
    rintro top t ⟨rfl, maps⟩
    rw [Returns.bind_iff, setMyproc, Returns.modify_iff, Returns.pure_iff]
    exact ⟨by rw [brkTop, if_pos grows], enter maps⟩
  · rw [Returns.bind_iff]
    refine (uvmHeapUngrow_maps state ?_).mono ?_
    · refine Nat.lt_of_le_of_lt (Nat.mod_le _ _) ?_
      simp only [userBase_eq, pgsize_eq] at low
      omega
    rintro top t ⟨rfl, maps⟩
    rw [Returns.bind_iff, setMyproc, Returns.modify_iff, Returns.pure_iff]
    exact ⟨by rw [brkTop, if_neg stays, if_pos shrinks], enter maps⟩
  · refine Returns.pure_iff.mpr ⟨by rw [brkTop, if_neg stays, if_neg same], state.proc, rfl, state.high, ?_⟩
    exact fun v first below => state.valid first (lt_of_lt_alignUp below)

/-- A call of `sys_brk` that returns does what it is asked for exactly if the distance between the old
and the new top fits into 32 bits. -/
theorem sysBrk_done_iff {addr : U64} {r : ℕ} (state : BrkState ram roots s k p)
    (low : userBase + pgsize ≤ addr.toNat) (run : sysBrk ram k addr s = .ok r s') :
    BrkDone s' p.pgtbl k addr.toNat r ↔
      addr.toNat < p.heapTop + 2 ^ 32 ∧ p.heapTop < addr.toNat + 2 ^ 32 := by
  obtain ⟨returned, proc, maps⟩ := sysBrk_maps state low r s' run
  have word := addr.isLt
  constructor
  · intro done
    have exact := done.returned.symm.trans returned
    simp only [brkTop, wrap64] at exact
    split_ifs at exact <;> omega
  · rintro ⟨above, below⟩
    have exact : r = addr.toNat := by
      rw [returned]
      simp only [brkTop, wrap64]
      split_ifs <;> omega
    have same : s'.rootFor p.pgtbl = s.rootFor p.pgtbl := by
      rw [Machine.rootFor, Machine.rootFor, maps.kernel]
    refine ⟨exact, ⟨_, proc, exact⟩, fun v first under => ?_⟩
    rw [← exact] at under
    rw [mapped_iff (Nat.lt_of_lt_of_le (lt_of_lt_alignUp under) maps.limit), same]
    exact maps.mapped v first under

/-- A heap below the mapped regions is one of these states. -/
theorem HeapState.brkState (state : HeapState ram roots s k p) : BrkState ram roots s k p := by
  refine ⟨state.proc, state.tables, state.live, state.low, fun v first below => ?_⟩
  have high := state.high
  refine (mapped_iff (Nat.lt_trans below (Nat.lt_trans high (by decide)))).mpr (state.valid ?_)
  rw [mem_heapPages, alignUp_eq high]
  simp only [userBase_eq, pgsize_eq] at first below ⊢
  omega

/-- A heap of one page that is to grow by a page and a half, and by 4 GiB -/
theorem heapMachine_brk : ∃ s, BrkState ⟨0x80200000⟩ {0x80200000} s 0
      ⟨0x80200000, 0, 0x2000, 0, [], .running, none, 0⟩ ∧
    (∃ s', sysBrk ⟨0x80200000⟩ 0 0x3800 s = .ok 0x3800 s') ∧
    ∃ s', sysBrk ⟨0x80200000⟩ 0 0x100002000 s = .ok 0x2000 s' := by
  obtain ⟨s, mapped, -, state⟩ := heapMachine_state
  have returns : (match vmMappages 0x80200000 0x1000 0x87000000 pgsize 0x1e heapMachine with
      | .ok _ s =>
        (match sysBrk ⟨0x80200000⟩ 0 0x3800 s with
          | .ok r _ => decide (r = 0x3800)
          | .error .. => false) &&
        match sysBrk ⟨0x80200000⟩ 0 0x100002000 s with
          | .ok r _ => decide (r = 0x2000)
          | .error .. => false
      | .error .. => false) = true := by decide +kernel
  rw [mapped] at returns
  obtain ⟨grows, truncates⟩ := Bool.and_eq_true_iff.mp returns
  refine ⟨s, state.brkState, ?_, ?_⟩
  · generalize sysBrk ⟨0x80200000⟩ 0 0x3800 s = result at grows ⊢
    cases result with
    | error e s' => cases grows
    | ok r s' => exact ⟨s', by rw [of_decide_eq_true grows]⟩
  · generalize sysBrk ⟨0x80200000⟩ 0 0x100002000 s = result at truncates ⊢
    cases result with
    | error e s' => cases truncates
    | ok r s' => exact ⟨s', by rw [of_decide_eq_true truncates]⟩

theorem sysBrk_done_iff_grows : ∃ s s', sysBrk ⟨0x80200000⟩ 0 0x3800 s = .ok 0x3800 s' ∧
    BrkDone s' 0x80200000 0 0x3800 0x3800 := by
  obtain ⟨s, state, ⟨s', run⟩, -⟩ := heapMachine_brk
  exact ⟨s, s', run, (sysBrk_done_iff state (by decide) run).mpr ⟨by decide, by decide⟩⟩

/-- Asked for 4 GiB more, `sys_brk` grows by nothing and returns the old top. -/
theorem sysBrk_truncates : ∃ s s', BrkState ⟨0x80200000⟩ {0x80200000} s 0
      ⟨0x80200000, 0, 0x2000, 0, [], .running, none, 0⟩ ∧
    sysBrk ⟨0x80200000⟩ 0 0x100002000 s = .ok 0x2000 s' ∧
    ¬BrkDone s' 0x80200000 0 0x100002000 0x2000 := by
  obtain ⟨s, state, -, s', run⟩ := heapMachine_brk
  exact ⟨s, s', state, run, fun done => absurd done.returned (by decide)⟩

end LabKernel
