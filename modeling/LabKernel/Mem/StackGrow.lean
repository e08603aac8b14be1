import LabKernel.Mem.HeapTop
import LabKernel.Mem.Loading
import LabKernel.Mem.UserPages

/-! # Growing the stack

`uvm_ustack_grow` maps pages below the stack, one after another, until the page of a fault is there. It
provides for a `pmem_alloc` that returns `NULL`: then it unmaps what it has mapped so far. The pages go
back to the user's pool in the order they were taken in; the tables that `vm_getpte` has attached on the
way stay in the tree.
-/

namespace LabKernel

attribute [local instance] u64_lawfulBEq

/-- The loop of `uvm_ustack_grow`, `n` pages to go: whether it came to its end. `null i` says that the
allocation of round `i` returns `NULL`. -/
def ustackLoop (ram : Ram) (null : ℕ → Bool) (tbl : U64) (currentBottom : ℕ) : (n i : ℕ) → MemM Bool
  | 0, _ => return true
  | n + 1, i => do
    let va := wrap64 (currentBottom + 2 ^ 64 - (i + 1) * pgsize)
    let mem ← if null i then pure 0 else pmemAlloc false
    if mem = 0 then
      if 0 < i then vmUnmappages ram tbl (wrap64 (va + pgsize)) (i * pgsize) true
      return false
    vmMappages tbl va mem pgsize permRWU
    ustackLoop ram null tbl currentBottom n (i + 1)

/-- `(uint64)-1` -/
def noPages : ℕ := 2 ^ 64 - 1

def uvmUstackGrow (ram : Ram) (null : ℕ → Bool) (tbl : U64) (currentPages faultAddr : ℕ) : MemM ℕ := do
  if trapframe ≤ faultAddr then return noPages
  if faultAddr < mmapEnd then return noPages
  let currentBottom := stackBase currentPages
  if currentBottom ≤ faultAddr then return currentPages
  let targetBottom := alignDown faultAddr
  let pagesNeeded := (currentBottom - targetBottom) / pgsize % 2 ^ 32
  if ← ustackLoop ram null tbl currentBottom pagesNeeded 0 then
    return wrap64 (currentPages + pagesNeeded)
  else return noPages

/-- The first `n` pages of the user's pool are cleared and mapped below page `b`, downwards. -/
def View.allocDown (w : View) (root : U64) (b n : ℕ) (flags : U64) : View :=
  { w with
    leaf := fun r v =>
      if r = root ∧ b ≤ v + n ∧ v < b then paToPte ((w.userPool.take n).getD (b - 1 - v) 0) ||| flags
      else w.leaf r v
    page := fun a => if a ∈ w.userPool.take n then fun _ => 0 else w.page a
    userPool := w.userPool.drop n }

private theorem View.allocDown_zero (w : View) (root : U64) (b : ℕ) (flags : U64) :
    w.allocDown root b 0 flags = w := by
  simp only [allocDown, List.take_zero, List.not_mem_nil, if_false, List.drop_zero]
  congr
  funext r v
  rw [if_neg (by omega)]

/-- A page more, at the lower end -/
theorem View.allocDown_succ {w : View} {root a : U64} {b n : ℕ} {flags : U64} {rest : List U64}
    (pool : w.userPool.drop n = a :: rest) (below : n < b) :
    (w.allocDown root b n flags).mapFresh root (b - (n + 1)) a flags rest =
      w.allocDown root b (n + 1) flags := by
  have here : w.userPool[n]? = some a := by
    rw [← List.head?_drop, pool]
    rfl
  have size : (w.userPool.take n).length = n := by
    have bound := (List.getElem?_eq_some_iff.mp here).1
    rw [List.length_take]
    omega
  have taken : w.userPool.take (n + 1) = w.userPool.take n ++ [a] := by
    rw [List.take_add_one, here]
    rfl
  have left : w.userPool.drop (n + 1) = rest := by
    rw [← List.drop_drop, pool]
    rfl
  simp only [allocDown, mapFresh, setLeaf, setPage, taken, left, mk.injEq, and_true]
  refine ⟨?_, ?_⟩
  · funext r v
    by_cases tree : r = root
    case neg => simp only [tree, false_and, if_false]
    by_cases last : v = b - (n + 1)
    · subst last
      rw [if_pos ⟨tree, rfl⟩, if_pos ⟨tree, by omega, by omega⟩,
        show b - 1 - (b - (n + 1)) = (w.userPool.take n).length by omega]
      simp
    · rw [if_neg fun both => last both.2]
      by_cases inside : b ≤ v + n ∧ v < b
      · rw [if_pos ⟨tree, inside⟩, if_pos ⟨tree, by omega, inside.2⟩,
          List.getD_append _ _ _ _ (by omega)]
      · rw [if_neg fun all => inside all.2, if_neg (by omega)]
  · funext c
    simp only [List.mem_append, List.mem_singleton, Function.update_apply]
    by_cases old : c ∈ w.userPool.take n
    · rw [if_pos old, ite_self, if_pos (Or.inl old)]
    · rw [if_neg old]
      simp only [old, false_or]

/-- The frames of these pages, upwards -/
theorem View.allocDown_frames (w : View) (root : U64) {b n : ℕ} {flags : U64} (below : n ≤ b)
    (enough : n ≤ w.userPool.length) (valid : PteHas flags pteV) (low : flags.toNat < 1024)
    (whole : ∀ a ∈ w.userPool, a.toNat % pgsize = 0 ∧ a ≠ 0) :
    (w.allocDown root b n flags).frames root (b - n) n = (w.userPool.take n).reverse := by
  have size : (w.userPool.take n).length = n := by
    rw [List.length_take]
    omega
  have frame (v : ℕ) (within : v ∈ List.range' (b - n) n) :
      frameOf ((w.allocDown root b n flags).leaf root v) = some ((w.userPool.take n).getD (b - 1 - v) 0) := by
    have range := List.mem_range'_1.mp within
    have bound : b - 1 - v < (w.userPool.take n).length := by omega
    have member : (w.userPool.take n).getD (b - 1 - v) 0 ∈ w.userPool := by
      rw [List.getD_eq_getElem _ _ bound]
      exact List.mem_of_mem_take (List.getElem_mem bound)
    obtain ⟨aligned, nonzero⟩ := whole _ member
    rw [allocDown]
    dsimp only
    rw [if_pos ⟨rfl, by omega, by omega⟩, frameOf, pteToPa_paToPte aligned low, if_pos]
    exact ⟨(pteHas_paToPte_or _ _ (by decide)).mpr valid, nonzero⟩
  rw [frames, List.filterMap_congr frame]
  refine List.ext_getElem (by simp [size]) fun k low' _ => ?_
  simp only [List.filterMap_eq_map', List.length_map, List.length_range'] at low'
  simp only [List.filterMap_eq_map', List.getElem_map, List.getElem_range', List.getElem_reverse]
  rw [List.getD_eq_getElem _ _ (by omega)]
  congr 1
  rw [size]
  omega

/-- The top `n` pages of the window of the stack are mapped, and no other page of it. -/
structure StackPages (s : Machine) (table : U64) (n : ℕ) : Prop where
  fits : mmapEnd + n * pgsize ≤ trapframe
  mapped : ∀ v, mmapEnd ≤ v * pgsize → v * pgsize < trapframe →
    (Mapped s table v ↔ trapframe ≤ (v + n) * pgsize)

def UserRw (s : Machine) (table : U64) (v : ℕ) : Prop := ∃ frame flags,
  translate s table (v * pgsize) = some (frame, flags) ∧ PteHas flags pteR ∧ PteHas flags pteW ∧ PteHas flags pteU

/-- How many pages are missing below the top `n` pages for an address -/
def newPages (n addr : ℕ) : ℕ := trapframe / pgsize - n - addr / pgsize

/-- The stack has `m` pages, the least number with which it reaches an address; its first `n` pages and
what lies outside of it are mapped as before, and all pages in use keep their contents. -/
structure StackGrown (ram : Ram) (s : Machine) (table : U64) (n addr m : ℕ) (s' : Machine) : Prop where
  more : n ≤ m
  reached : trapframe ≤ (addr / pgsize + m) * pgsize
  least : ∀ m', n ≤ m' → trapframe ≤ (addr / pgsize + m') * pgsize → m ≤ m'
  stack : StackPages s' table m
  fresh : ∀ v, (v + n) * pgsize < trapframe → trapframe ≤ (v + m) * pgsize → UserRw s' table v
  kept : ∀ va, trapframe ≤ va + n * pgsize ∨ va + m * pgsize < trapframe →
    translate s' table va = translate s table va
  contents : ∀ a, ram.UserFrame a → a ∉ s.userPool → s'.pages a = s.pages a

/-- All addresses lead where they led and the user's pool is as before. From the kernel's pool pages may
have gone into the tree as tables. -/
structure StackUndone (ram : Ram) (s : Machine) (table : U64) (s' : Machine) : Prop where
  leads : ∀ va, translate s' table va = translate s table va
  userPool : s'.userPool = s.userPool
  kernelPool : s'.kernelPool <:+ s.kernelPool
  attached : ∀ a ∈ s.kernelPool, a ∉ s'.kernelPool → ∃ q, s'.tableAt (s.rootFor table) q = some a
  contents : ∀ a, ram.UserFrame a → a ∉ s.userPool → s'.pages a = s.pages a

variable {ram : Ram} {roots : Set U64} {s s' t : Machine} {table : U64} {va b i n : ℕ} {null : ℕ → Bool}

open Machine

/-! ## What unmapping leaves of the tree -/

/-- An entry of the lowest level holds no table. -/
theorem Machine.Tables.setLeaf_attaches {root a e : U64} (tables : s.Tables ram roots) (live : root ∈ roots)
    (found : s.tableAt root (upperPlace va 0) = some a) :
    Attaches ram roots root s (s.setPte a (vaToVpn va 0) e) := by
  have tableAt {r : U64} (other : r ∈ roots) (q : Option Place) :=
    tables.setLeaf_tableAt live found (vaToVpn_lt va 0) rfl e other q
  refine ⟨kernelUse_congr rfl fun r other => tableAt other, fun r other _ => tableAt other,
    fun c _ apart => setPage_other _ ?_⟩
  rintro rfl
  exact apart (.inr ⟨_, live, _, found⟩)

private theorem unmapPage_attaches (tables : s.Tables ram roots) (live : s.rootFor table ∈ roots) (low : va < vaMax)
    (doFree : Bool) :
    Returns (unmapPage ram table doFree va) s fun _ s' => Attaches ram roots (s.rootFor table) s s' := by
  rw [unmapPage]
  refine Returns.bind_of_ok (vmGetpte_read low) ?_
  cases found : s.tableAt (s.rootFor table) (upperPlace va 0) with
  | none => exact Returns.pure_iff.mpr (.refl ..)
  | some a =>
    simp only [Option.map_some, Returns.bind_iff, Returns.get_iff]
    refine .ite (fun _ => .ite (fun _ => ?_) fun _ => ?_) fun _ => Returns.pure_iff.mpr (.refl ..)
    · rw [Returns.bind_iff]
      refine (pmemFree_ends (pteToPa_aligned _)).returns.mono ?_
      rintro _ s₁ ⟨user, rfl⟩
      have given : Attaches ram roots (s.rootFor table) s
          { s with userPool := pteToPa (s.pte a (vaToVpn va 0)) :: s.userPool } :=
        ⟨kernelUse_congr rfl fun _ _ _ => rfl, fun _ _ _ _ => rfl, fun _ _ _ => rfl⟩
      refine Returns.modify_iff.mpr (given.trans ?_)
      exact (tables.giveUser user).tables.setLeaf_attaches live found
    · exact Returns.modify_iff.mpr (tables.setLeaf_attaches live found)

private theorem unmapLoop_attaches (tables : s.Tables ram roots) (live : s.rootFor table ∈ roots) {doFree : Bool}
    {stop fuel : ℕ} (low : stop ≤ vaMax) :
    Returns (unmapLoop ram table doFree stop fuel va) s fun _ s' =>
      Attaches ram roots (s.rootFor table) s s' := by
  induction fuel generalizing s va with
  | zero => exact Returns.throw_iff.mpr trivial
  | succ fuel ih =>
    rw [unmapLoop]
    refine .ite (fun more => ?_) fun _ => Returns.pure_iff.mpr (.refl ..)
    have below : va < vaMax := Nat.lt_of_lt_of_le more low
    rw [Returns.bind_iff]
    refine ((unmapPage_ends tables live below doFree).returns.and
      (unmapPage_attaches tables live below doFree)).mono ?_
    rintro _ s₁ ⟨shows, attaches⟩
    have same := shows.rootFor (View.clear_page ..).2.2.1 table
    refine (ih shows.tables (same ▸ live)).mono fun _ s₂ rest => attaches.trans ?_
    rwa [same] at rest

private theorem vmUnmappages_attaches (tables : s.Tables ram roots) (live : s.rootFor table ∈ roots) {len : ℕ}
    {doFree : Bool} (low : va + len ≤ vaMax) :
    Returns (vmUnmappages ram table va len doFree) s fun _ s' =>
      Attaches ram roots (s.rootFor table) s s' := by
  have stop : wrap64 (va + len) = va + len := wrap64_of_lt (by simp only [vaMax_eq] at low; omega)
  rw [vmUnmappages]
  refine .ite (fun _ => by simp) fun _ => .ite (fun _ => by simp) fun _ => ?_
  rw [stop]
  exact unmapLoop_attaches tables live low

/-! ## The loop -/

/-- `i` pages below page `b` were mapped. -/
structure Growing (ram : Ram) (roots : Set U64) (s : Machine) (table : U64) (b i : ℕ) (t : Machine) : Prop where
  enough : i ≤ s.userPool.length
  shows : Shows ram roots s ((s.view ram roots).allocDown (s.rootFor table) b i (permFlags permRWU)) t
  attaches : Attaches ram roots (s.rootFor table) s t

/-- `i` pages below page `b` were mapped and unmapped again. -/
structure Undone (ram : Ram) (roots : Set U64) (s : Machine) (table : U64) (b i : ℕ) (t : Machine) : Prop where
  enough : i ≤ s.userPool.length
  shows : Shows ram roots s (((s.view ram roots).allocDown (s.rootFor table) b i (permFlags permRWU)).clearRange
    (s.rootFor table) true (b - i) i) t
  attaches : Attaches ram roots (s.rootFor table) s t

private theorem Growing.rootFor (growing : Growing ram roots s table b i t) : t.rootFor table = s.rootFor table :=
  growing.shows.rootFor rfl table

/-- The rollback unmaps what was mapped. -/
theorem Growing.undo (tables : s.Tables ram roots) (live : s.rootFor table ∈ roots)
    (growing : Growing ram roots s table b i t) (some : 0 < i) (room : i ≤ b) (top : b * pgsize ≤ vaMax) :
    Yields (vmUnmappages ram table ((b - i) * pgsize) (i * pgsize) true) t fun _ s' =>
      Undone ram roots s table b i s' := by
  have same := growing.rootFor
  have range : (b - i) * pgsize + i * pgsize ≤ vaMax := by
    rw [← Nat.add_mul, Nat.sub_add_cancel room]
    exact top
  have frames := @View.allocDown_frames (s.view ram roots) (s.rootFor table) b i (permFlags permRWU) room
    growing.enough (by decide) (by decide) fun a member =>
      ⟨(tables.userPool a member).aligned, (tables.userPool a member).ne_zero⟩
  have ends := @vmUnmappages_ends ram _ _ _ _ growing.shows.tables (same ▸ live) _ true
    (Nat.mul_mod_left (b - i) pgsize) (Nat.mul_pos some (by decide)) range
  have number : (b - i) * pgsize / pgsize = b - i := Nat.mul_div_cancel _ (by decide)
  rw [growing.shows.view, same, pagesOf_mul, number, if_pos rfl, frames] at ends
  refine ((ends.yields ?_).and (vmUnmappages_attaches growing.shows.tables (same ▸ live) range)).mono ?_
  · rintro f ⟨⟨a, freed, bad⟩, -⟩
    exact bad (tables.userPool a (List.mem_of_mem_take (List.mem_reverse.mp freed)))
  · rintro _ s' ⟨shows, attaches⟩
    rw [same] at attaches
    exact ⟨growing.enough, growing.shows.trans shows, growing.attaches.trans attaches⟩

private theorem ustackLoop_ends (tables : s.Tables ram roots) (live : s.rootFor table ∈ roots)
    (top : b * pgsize ≤ trapframe) (room : i + n ≤ b) (growing : Growing ram roots s table b i t) :
    Ends (ustackLoop ram null table (b * pgsize) n i) t (fun done s' =>
      if done then (∀ j, i ≤ j → j < i + n → null j = false) ∧ Growing ram roots s table b (i + n) s'
      else ∃ j, i ≤ j ∧ j < i + n ∧ null j = true ∧ Undone ram roots s table b j s') Exhausted := by
  induction n generalizing i t with
  | zero => exact ⟨fun j low high => absurd high (by omega), growing⟩
  | succ n ih =>
    have same := growing.rootFor
    have high : b * pgsize ≤ vaMax := Nat.le_trans top (by decide)
    have step : (b - (i + 1)) * pgsize + pgsize = (b - i) * pgsize := by
      rw [← Nat.succ_mul, show (b - (i + 1)).succ = b - i by omega]
    have low : (b - (i + 1)) * pgsize + pgsize ≤ vaMax := by
      rw [step]
      exact Nat.le_trans (Nat.mul_le_mul_right _ (Nat.sub_le b i)) high
    have va : wrap64 (b * pgsize + 2 ^ 64 - (i + 1) * pgsize) = (b - (i + 1)) * pgsize := by
      have split : b * pgsize = (b - (i + 1)) * pgsize + (i + 1) * pgsize := by
        rw [← Nat.add_mul, Nat.sub_add_cancel (by omega)]
      rw [show b * pgsize + 2 ^ 64 - (i + 1) * pgsize = (b - (i + 1)) * pgsize + 2 ^ 64 by omega, wrap64,
        Nat.add_mod_right]
      exact wrap64_of_lt (Nat.lt_of_le_of_lt (Nat.le_trans (Nat.le_add_right ..) low) (by decide))
    have next : wrap64 ((b - (i + 1)) * pgsize + pgsize) = (b - i) * pgsize := by
      rw [wrap64_of_lt (Nat.lt_of_le_of_lt low (by decide)), step]
    rw [ustackLoop, va, next]
    dsimp only
    by_cases failed : null i = true
    · have rolled {s' : Machine} (undone : Undone ram roots s table b i s') :
          ∃ j, i ≤ j ∧ j < i + (n + 1) ∧ null j = true ∧ Undone ram roots s table b j s' :=
        ⟨i, Nat.le_refl i, by omega, failed, undone⟩
      rw [if_pos failed, Ends.bind_iff, Ends.pure_iff, if_pos rfl]
      refine Ends.ite (fun some => ?_) fun none => ?_
      · rw [Ends.bind_iff]
        exact Ends.of_yields ((growing.undo tables live some (by omega) high).mono fun _ s' => rolled)
      · obtain rfl : i = 0 := by omega
        exact rolled ⟨growing.enough, growing.shows, growing.attaches⟩
    · have granted : null i = false := Bool.eq_false_iff.mpr failed
      rw [if_neg failed, Ends.bind_iff]
      refine (((pmemAlloc_ends growing.shows.tables).fails fun f user => Or.inl user).and
        (pmemAlloc_attaches (s.rootFor table) growing.shows.tables)).mono ?_
      rintro a s₁ ⟨⟨rest, pool, user, taken⟩, first⟩
      rw [if_neg user.ne_zero, Ends.bind_iff]
      have root : s₁.rootFor table = s.rootFor table := (taken.rootFor rfl table).trans same
      have aligned : (b - (i + 1)) * pgsize % pgsize = 0 := Nat.mul_mod_left ..
      refine (((vmMappages_page taken.tables (root ▸ live) aligned user.aligned low).fails
        fun f kernel => Or.inr kernel).and
          (vmMappages_attaches taken.tables (root ▸ live) aligned low)).mono ?_
      rintro _ s₂ ⟨mapped, second⟩
      have left : s.userPool.drop i = a :: rest :=
        (congrArg View.userPool growing.shows.view).symm.trans pool
      have number : (b - (i + 1)) * pgsize / pgsize = b - (i + 1) := Nat.mul_div_cancel _ (by decide)
      rw [taken.view, root, number, growing.shows.view] at mapped
      rw [root] at second
      have grown : Growing ram roots s table b (i + 1) s₂ := by
        refine ⟨?_, ?_, growing.attaches.trans (first.trans second)⟩
        · have size := congrArg List.length left
          rw [List.length_drop, List.length_cons] at size
          omega
        · rw [← View.allocDown_succ (w := s.view ram roots) left (by omega)]
          exact growing.shows.trans (taken.trans mapped)
      refine (ih (by omega) grown).mono fun done s' result => ?_
      rw [show i + 1 + n = i + (n + 1) by omega] at result
      cases done with
      | true =>
        refine ⟨fun j low high => ?_, result.2⟩
        rcases Nat.eq_or_lt_of_le low with rfl | later
        · exact granted
        · exact result.1 j later high
      | false =>
        obtain ⟨j, low, high, failed, undone⟩ := result
        exact ⟨j, by omega, high, failed, undone⟩

/-! ## The call -/

/-- `TRAPFRAME` by the number of its page -/
theorem trapframe_le {v : ℕ} : trapframe ≤ v * pgsize ↔ trapframe / pgsize ≤ v := by
  rw [show trapframe = trapframe / pgsize * pgsize by decide, Nat.mul_div_cancel _ (by decide)]
  exact Nat.mul_le_mul_right_iff (by decide)

private theorem lt_trapframe {v : ℕ} : v * pgsize < trapframe ↔ v < trapframe / pgsize := by
  rw [← Nat.not_le, trapframe_le, Nat.not_le]

private theorem Growing.leaf (live : s.rootFor table ∈ roots) (growing : Growing ram roots s table b i t) (v : ℕ) :
    t.leaf (t.rootFor table) v = if b ≤ v + i ∧ v < b then
      paToPte ((s.userPool.take i).getD (b - 1 - v) 0) ||| permFlags permRWU else s.leaf (s.rootFor table) v := by
  rw [growing.rootFor, growing.shows.leaf live, ← view_leaf live]
  simp only [View.allocDown, true_and]
  rfl

private theorem Growing.contents {a : U64} (growing : Growing ram roots s table b i t) (user : ram.UserFrame a)
    (used : a ∉ s.userPool) : t.pages a = s.pages a := by
  rw [← @view_page t ram roots a user, growing.shows.view, ← @view_page s ram roots a user]
  exact if_neg fun taken => used (List.mem_of_mem_take taken)

private theorem Growing.kept (live : s.rootFor table ∈ roots) (growing : Growing ram roots s table b i t)
    (outside : ¬(b ≤ va / pgsize + i ∧ va / pgsize < b)) : translate t table va = translate s table va := by
  rcases Nat.lt_or_ge va vaMax with low | high
  · rw [translate_eq low, translate_eq low, growing.leaf live, if_neg outside]
  · rw [translate_high high, translate_high high]

private theorem Growing.fresh {v : ℕ} (tables : s.Tables ram roots) (live : s.rootFor table ∈ roots)
    (growing : Growing ram roots s table b i t) (top : b * pgsize ≤ vaMax) (inside : b ≤ v + i) (below : v < b) :
    UserRw t table v := by
  have low : v * pgsize < vaMax :=
    Nat.lt_of_lt_of_le (Nat.mul_lt_mul_of_pos_right below (by decide)) top
  have bound : b - 1 - v < (s.userPool.take i).length := by
    rw [List.length_take, Nat.min_eq_left growing.enough]
    omega
  have entry : decode (paToPte ((s.userPool.take i).getD (b - 1 - v) 0) ||| permFlags permRWU) =
      some ((s.userPool.take i).getD (b - 1 - v) 0, 0x17) := by
    refine decode_mapped ?_ (by decide)
    rw [List.getD_eq_getElem _ _ bound]
    exact (tables.userPool _ (List.mem_of_mem_take (List.getElem_mem bound))).aligned
  refine ⟨(s.userPool.take i).getD (b - 1 - v) 0, 0x17, ?_, by decide, by decide, by decide⟩
  rw [translate_page low, growing.leaf live, if_pos ⟨inside, below⟩, entry]

private theorem Growing.grown {addr : ℕ} (tables : s.Tables ram roots) (live : s.rootFor table ∈ roots)
    (stack : StackPages s table n) (first : mmapEnd ≤ addr)
    (growing : Growing ram roots s table (trapframe / pgsize - n) (newPages n addr) t) :
    StackGrown ram s table n addr (n + newPages n addr) t := by
  have count : newPages n addr = trapframe / pgsize - n - addr / pgsize := rfl
  have window : mmapEnd / pgsize * pgsize = mmapEnd := by decide
  have fits : mmapEnd / pgsize + n ≤ trapframe / pgsize := by
    rw [Nat.le_div_iff_mul_le (by decide), Nat.add_mul, window]
    exact stack.fits
  have low : mmapEnd / pgsize ≤ addr / pgsize := Nat.div_le_div_right first
  have top : (trapframe / pgsize - n) * pgsize ≤ vaMax :=
    Nat.le_trans (Nat.mul_le_mul_right _ (Nat.sub_le ..)) (by decide)
  generalize newPages n addr = i at count growing
  have inside {v : ℕ} : trapframe / pgsize - n ≤ v + i ∧ v < trapframe / pgsize - n ↔
      (v + n) * pgsize < trapframe ∧ trapframe ≤ (v + (n + i)) * pgsize := by
    rw [lt_trapframe, trapframe_le]
    omega
  refine ⟨Nat.le_add_right .., ?_, fun m' more reached => ?_, ⟨?_, fun v first last => ?_⟩, fun v below above => ?_,
    fun va outside => growing.kept live fun new => ?_, fun a => growing.contents⟩
  · rw [trapframe_le]
    omega
  · rw [trapframe_le] at reached
    omega
  · rw [← window, ← Nat.add_mul, ← Nat.le_div_iff_mul_le (by decide)]
    omega
  · by_cases new : trapframe / pgsize - n ≤ v + i ∧ v < trapframe / pgsize - n
    · obtain ⟨frame, flags, found, -⟩ := growing.fresh tables live top new.1 new.2
      exact iff_of_true (by rw [Mapped, found]; rfl) (inside.mp new).2
    · have page : v * pgsize / pgsize = v := Nat.mul_div_cancel v (by decide)
      have same := growing.kept live (page.symm ▸ new)
      rw [Mapped, same]
      refine (stack.mapped v first last).trans ?_
      rw [trapframe_le, trapframe_le]
      omega
  · have new := inside.mpr ⟨below, above⟩
    exact growing.fresh tables live top new.1 new.2
  · rcases outside with above | below
    · have page := Nat.div_le_div_right (c := pgsize) above
      rw [Nat.add_mul_div_right _ _ (by decide)] at page
      generalize trapframe / pgsize = last, va / pgsize = v at page new
      omega
    · have page : (va / pgsize + (n + i)) * pgsize < trapframe := by
        rw [Nat.add_mul]
        exact Nat.lt_of_le_of_lt (Nat.add_le_add_right (Nat.div_mul_le_self ..) _) below
      rw [lt_trapframe] at page
      omega

private theorem Undone.stackUndone (tables : s.Tables ram roots) (live : s.rootFor table ∈ roots)
    (undone : Undone ram roots s table b i t) (room : i ≤ b)
    (missing : ∀ v, b ≤ v + i → v < b → ¬Mapped s table v) :
    StackUndone ram s table t := by
  have fields := View.clearRange_page ((s.view ram roots).allocDown (s.rootFor table) b i (permFlags permRWU))
    (s.rootFor table) true (b - i) i
  have root : t.rootFor table = s.rootFor table := undone.shows.rootFor fields.2.2.1 table
  have frames := @View.allocDown_frames (s.view ram roots) (s.rootFor table) b i (permFlags permRWU) room
    undone.enough (by decide) (by decide) fun a member =>
      ⟨(tables.userPool a member).aligned, (tables.userPool a member).ne_zero⟩
  refine ⟨fun va => ?_, ?_, undone.shows.pool, fun a free taken => ?_, fun a user used => ?_⟩
  · rcases Nat.lt_or_ge va vaMax with low | high
    case inr => rw [translate_high high, translate_high high]
    rw [translate_eq low, translate_eq low, root, undone.shows.leaf live, View.clearRange_leaf]
    simp only [View.allocDown, true_and, view_leaf live]
    by_cases here : b ≤ va / pgsize + i ∧ va / pgsize < b
    · have page : va / pgsize * pgsize < vaMax := Nat.lt_of_le_of_lt (Nat.div_mul_le_self ..) low
      have invalid := mt (mapped_iff page).mpr (missing _ here.1 here.2)
      rw [if_pos here, if_pos ⟨by omega, permFlags_valid _ _⟩, decode, decode, if_neg (not_pteHas_zero pteV),
        if_neg invalid]
    · rw [if_neg here, if_neg (by omega)]
  · have pool := (congrArg View.userPool undone.shows.view).trans (View.clearRange_userPool ..)
    rw [if_pos rfl, frames, List.reverse_reverse] at pool
    exact pool.trans (List.take_append_drop i s.userPool)
  · have used : a ∈ t.kernelUse roots := by
      rw [undone.attaches.use]
      exact .inl free
    obtain ⟨r, other, q, found⟩ := used.resolve_left taken
    by_cases same : r = s.rootFor table
    · exact ⟨q, same ▸ found⟩
    · rw [undone.attaches.other r other same] at found
      exact absurd free (tables.busy r other q a found)
  · rw [← @view_page t ram roots a user, undone.shows.view, fields.1, ← @view_page s ram roots a user]
    exact if_neg fun taken => used (List.mem_of_mem_take taken)

/-- `uvm_ustack_grow` refuses addresses outside of the window of the stack. For the others it maps the
missing pages down to the address, or, where `pmem_alloc` returns `NULL` on the way, takes back what it
mapped; tables that were attached for these pages stay. -/
theorem uvmUstackGrow_exact (tables : s.Tables ram roots) (live : s.rootFor table ∈ roots)
    (stack : StackPages s table n) (null : ℕ → Bool) (addr : U64) :
    Ends (uvmUstackGrow ram null table n addr.toNat) s (fun m s' =>
      (trapframe ≤ addr.toNat ∨ addr.toNat < mmapEnd → m = noPages ∧ s' = s) ∧
      (mmapEnd ≤ addr.toNat → addr.toNat < trapframe →
        ((∃ i < newPages n addr.toNat, null i = true) → m = noPages ∧ StackUndone ram s table s') ∧
        ((∀ i < newPages n addr.toNat, null i = false) → StackGrown ram s table n addr.toNat m s')))
      Exhausted := by
  have window : mmapEnd / pgsize * pgsize = mmapEnd := by decide
  have fits : mmapEnd / pgsize + n ≤ trapframe / pgsize := by
    rw [Nat.le_div_iff_mul_le (by decide), Nat.add_mul, window]
    exact stack.fits
  have bottom : stackBase n = (trapframe / pgsize - n) * pgsize := by
    rw [stackBase_eq (Nat.le_trans (Nat.le_add_left ..) stack.fits), Nat.sub_mul]
    rfl
  have start : Growing ram roots s table (trapframe / pgsize - n) 0 s := by
    refine ⟨Nat.zero_le _, ?_, .refl ..⟩
    rw [View.allocDown_zero]
    exact .refl tables
  rw [uvmUstackGrow]
  refine Ends.ite (fun above => ?_) fun below => Ends.ite (fun low => ?_) fun high =>
    Ends.ite (fun there => ?_) fun missing => ?_
  · exact ⟨fun _ => ⟨rfl, rfl⟩, fun _ below => absurd above (Nat.not_le.mpr below)⟩
  · exact ⟨fun _ => ⟨rfl, rfl⟩, fun high => absurd low (Nat.not_lt.mpr high)⟩
  · have none : newPages n addr.toNat = 0 := by
      have page : trapframe / pgsize - n ≤ addr.toNat / pgsize := by
        rwa [Nat.le_div_iff_mul_le (by decide), ← bottom]
      rw [newPages]
      exact Nat.sub_eq_zero_of_le page
    refine ⟨fun outside => ?_, fun first last => ⟨?_, fun _ => ?_⟩⟩
    · omega
    · rw [none]
      rintro ⟨i, less, -⟩
      omega
    · have same : Growing ram roots s table (trapframe / pgsize - n) (newPages n addr.toNat) s := by
        rw [none]
        refine ⟨Nat.zero_le _, ?_, .refl ..⟩
        rw [View.allocDown_zero]
        exact .refl tables
      have grown := same.grown tables live stack first
      rwa [none] at grown
  · have page : mmapEnd / pgsize ≤ addr.toNat / pgsize := Nat.div_le_div_right (Nat.not_lt.mp high)
    have small : trapframe / pgsize < 2 ^ 32 := by decide
    have count : (stackBase n - alignDown addr.toNat) / pgsize % 2 ^ 32 = newPages n addr.toNat := by
      rw [bottom, alignDown, ← Nat.sub_mul, Nat.mul_div_cancel _ (by decide)]
      exact Nat.mod_eq_of_lt (Nat.lt_of_le_of_lt (Nat.le_trans (Nat.sub_le ..) (Nat.sub_le ..)) small)
    have room : 0 + newPages n addr.toNat ≤ trapframe / pgsize - n := by
      rw [Nat.zero_add]
      exact Nat.sub_le ..
    have top : (trapframe / pgsize - n) * pgsize ≤ trapframe := by
      rw [← bottom, stackBase_eq (Nat.le_trans (Nat.le_add_left ..) stack.fits)]
      exact Nat.sub_le ..
    dsimp only
    rw [count, bottom, Ends.bind_iff]
    refine (ustackLoop_ends tables live top room start).mono fun done s' result => ?_
    simp only [Nat.zero_add] at result
    have inside : ¬(trapframe ≤ addr.toNat ∨ addr.toNat < mmapEnd) := not_or.mpr ⟨below, high⟩
    cases done with
    | true =>
      obtain ⟨granted, growing⟩ := result
      have some : n ≤ trapframe / pgsize := Nat.le_trans (Nat.le_add_left ..) fits
      have word : wrap64 (n + newPages n addr.toNat) = n + newPages n addr.toNat := wrap64_of_lt (by omega)
      rw [if_pos rfl, word]
      refine ⟨fun outside => absurd outside inside, fun first last => ⟨?_, fun _ => ?_⟩⟩
      · rintro ⟨i, less, failed⟩
        rw [granted i (Nat.zero_le i) less] at failed
        cases failed
      · exact growing.grown tables live stack first
    | false =>
      obtain ⟨j, -, less, failed, undone⟩ := result
      rw [if_neg Bool.false_ne_true]
      refine ⟨fun outside => absurd outside inside, fun first last => ⟨fun _ => ⟨rfl, ?_⟩, fun granted => ?_⟩⟩
      · refine undone.stackUndone tables live (by omega) fun v above below' => ?_
        have first : mmapEnd ≤ v * pgsize := by
          rw [← window]
          refine Nat.mul_le_mul_right _ ?_
          rw [newPages] at less
          omega
        rw [stack.mapped v first (lt_trapframe.mpr (by omega)), trapframe_le]
        omega
      · rw [granted j less] at failed
        cases failed

/-- A stack without pages -/
theorem heapMachine_stack : StackPages heapMachine 0x80200000 0 := by
  refine ⟨by decide, fun v _ last => iff_of_false ?_ (Nat.not_le.mpr last)⟩
  rw [mapped_iff (Nat.lt_trans last (by decide)), Machine.leaf, entry_zero rfl]
  exact not_pteHas_zero pteV

theorem uvmUstackGrow_exact_two : ∃ s', uvmUstackGrow ⟨0x80200000⟩ (fun _ => false) 0x80200000 0 0x3fffffc008
      heapMachine = .ok 2 s' ∧ StackGrown ⟨0x80200000⟩ heapMachine 0x80200000 0 0x3fffffc008 2 s' := by
  have ends := @uvmUstackGrow_exact ⟨0x80200000⟩ {0x80200000} heapMachine 0x80200000 0 heapMachine_tables
    (by decide +kernel) heapMachine_stack (fun _ => false) 0x3fffffc008
  have returns : (match uvmUstackGrow ⟨0x80200000⟩ (fun _ => false) 0x80200000 0 0x3fffffc008 heapMachine with
      | .ok m _ => decide (m = 2)
      | .error .. => false) = true := by decide +kernel
  cases run : uvmUstackGrow ⟨0x80200000⟩ (fun _ => false) 0x80200000 0 0x3fffffc008 heapMachine with
  | error f t =>
    rw [run] at returns
    cases returns
  | ok m s' =>
    rw [run] at returns
    obtain rfl := of_decide_eq_true returns
    exact ⟨s', rfl, ((ends.returns _ _ run).2 (by decide) (by decide)).2 fun _ _ => rfl⟩

/-- Where the second page is refused, the first one goes back, and two tables stay. -/
theorem uvmUstackGrow_keeps_tables : ∃ s', StackPages heapMachine 0x80200000 0 ∧
    uvmUstackGrow ⟨0x80200000⟩ (fun i => i == 1) 0x80200000 0 0x3fffffc008 heapMachine = .ok noPages s' ∧
    s'.userPool = heapMachine.userPool ∧ s'.kernelPool ≠ heapMachine.kernelPool := by
  have returns : (match uvmUstackGrow ⟨0x80200000⟩ (fun i => i == 1) 0x80200000 0 0x3fffffc008 heapMachine with
      | .ok m s' => decide (m = noPages ∧ s'.userPool = heapMachine.userPool ∧
        s'.kernelPool ≠ heapMachine.kernelPool)
      | .error .. => false) = true := by decide +kernel
  cases run : uvmUstackGrow ⟨0x80200000⟩ (fun i => i == 1) 0x80200000 0 0x3fffffc008 heapMachine with
  | error f t =>
    rw [run] at returns
    cases returns
  | ok m s' =>
    rw [run] at returns
    obtain ⟨rfl, user, kernel⟩ := of_decide_eq_true returns
    exact ⟨s', heapMachine_stack, rfl, user, kernel⟩

end LabKernel
