import LabKernel.Mem.UserPages

/-! # Page tables that are given up

`free_pagetable_recursive` of `uvm.c`. It reads the entries of a tree and changes only the two pools: the
tables go to the kernel's pool, the frames that user mode may reach to the user's. Of a sound tree these
are all its tables, each once.
-/

namespace LabKernel

/-- A loop over the valid entries of a table, from an entry on. -/
def forEntries (tbl : U64) (act : U64 → MemM Unit) : (n i : ℕ) → MemM Unit
  | 0, _ => return ()
  | n + 1, i => do
    let pte := (← get).pte tbl i
    if PteHas pte pteV then act pte
    forEntries tbl act n (i + 1)

/-- What `free_pagetable_recursive` does with an entry of a table of the last level. -/
def freeLeaf (ram : Ram) (pte : U64) : MemM Unit := do
  if PteHas pte pteU then pmemFree ram (pteToPa pte) false

def freePagetable (ram : Ram) : (level : ℕ) → (tbl : U64) → MemM Unit
  | 0, tbl => do
    forEntries tbl (freeLeaf ram) 512 0
    pmemFree ram tbl true
  | level + 1, tbl => do
    forEntries tbl (fun pte => freePagetable ram level (pteToPa pte)) 512 0
    pmemFree ram tbl true

def uvmDestroyPgtbl (ram : Ram) (tbl : U64) : MemM Unit := freePagetable ram 2 tbl

/-! ## What is freed -/

namespace Machine

/-- Pages were freed, the last ones in front. -/
def freed (s : Machine) (tables frames : List U64) : Machine :=
  { s with kernelPool := tables ++ s.kernelPool, userPool := frames ++ s.userPool }

/-- What is listed for the valid ones of `n` entries, the last ones in front. -/
def listed (s : Machine) (tbl : U64) (f : U64 → List U64) (n i : ℕ) : List U64 :=
  (List.range' i n).reverse.flatMap fun j => if PteHas (s.pte tbl j) pteV then f (s.pte tbl j) else []

/-- The tables of a tree, in the order they are freed, the last ones in front. -/
def heldTables (s : Machine) : (level : ℕ) → (tbl : U64) → List U64
  | 0, tbl => [tbl]
  | level + 1, tbl => tbl :: s.listed tbl (fun pte => s.heldTables level (pteToPa pte)) 512 0

/-- The frames of the user's pages of a tree, in the order they are freed, the last ones in front. -/
def heldFrames (s : Machine) : (level : ℕ) → (tbl : U64) → List U64
  | 0, tbl => s.listed tbl (fun pte => if PteHas pte pteU then [pteToPa pte] else []) 512 0
  | level + 1, tbl => s.listed tbl (fun pte => s.heldFrames level (pteToPa pte)) 512 0

variable {s t : Machine} {ram : Ram} {roots : Set U64} {root tbl a : U64} {q : Option Place}

@[simp] theorem freed_pages (s : Machine) (tables frames : List U64) :
    (s.freed tables frames).pages = s.pages := rfl

private theorem freed_freed (s : Machine) (tables tables' frames frames' : List U64) :
    (s.freed tables frames).freed tables' frames' = s.freed (tables' ++ tables) (frames' ++ frames) := by
  simp only [freed, List.append_assoc]

private theorem pte_of_pages (pages : t.pages = s.pages) (i : ℕ) : t.pte tbl i = s.pte tbl i := by
  simp only [pte, pages]

theorem listed_succ (s : Machine) (tbl : U64) (f : U64 → List U64) (n i : ℕ) : s.listed tbl f (n + 1) i =
    s.listed tbl f n (i + 1) ++ if PteHas (s.pte tbl i) pteV then f (s.pte tbl i) else [] := by
  rw [listed, List.range'_succ, List.reverse_cons, List.flatMap_append, List.flatMap_singleton]
  rfl

theorem mem_listed {f : U64 → List U64} {n : ℕ} : a ∈ s.listed tbl f n 0 ↔
    ∃ j < n, PteHas (s.pte tbl j) pteV ∧ a ∈ f (s.pte tbl j) := by
  rw [listed, List.mem_flatMap]
  constructor
  · rintro ⟨j, within, member⟩
    have bound := (List.mem_range'_1.mp (List.mem_reverse.mp within)).2
    split at member
    · exact ⟨j, by omega, ‹_›, member⟩
    · cases member
  · rintro ⟨j, bound, valid, member⟩
    refine ⟨j, List.mem_reverse.mpr (List.mem_range'_1.mpr ⟨Nat.zero_le _, by omega⟩), ?_⟩
    rwa [if_pos valid]

/-- A list over the entries has no repetition if each part has none and the parts are apart. -/
theorem nodup_listed {f : U64 → List U64} {n : ℕ}
    (each : ∀ j < n, PteHas (s.pte tbl j) pteV → (f (s.pte tbl j)).Nodup)
    (apart : ∀ i < n, ∀ j < n, PteHas (s.pte tbl i) pteV → PteHas (s.pte tbl j) pteV →
      ∀ a ∈ f (s.pte tbl i), a ∈ f (s.pte tbl j) → i = j) : (s.listed tbl f n 0).Nodup := by
  have bound {j : ℕ} (within : j ∈ (List.range' 0 n).reverse) : j < n := by
    have less := (List.mem_range'_1.mp (List.mem_reverse.mp within)).2
    omega
  rw [listed, List.nodup_flatMap]
  refine ⟨fun j within => ?_, ?_⟩
  · split
    · exact each j (bound within) ‹_›
    · exact List.nodup_nil
  · have nodup : (List.range' 0 n).reverse.Nodup := List.nodup_reverse.mpr List.nodup_range'
    refine nodup.imp_of_mem fun {i j} first second differ => ?_
    simp only [Function.onFun, List.disjoint_left]
    intro a here there
    by_cases valid : PteHas (s.pte tbl i) pteV
    · by_cases valid' : PteHas (s.pte tbl j) pteV
      · rw [if_pos valid] at here
        rw [if_pos valid'] at there
        exact differ (apart i (bound first) j (bound second) valid valid' a here there)
      · rw [if_neg valid'] at there
        cases there
    · rw [if_neg valid] at here
      cases here

private theorem listed_of_pages (pages : t.pages = s.pages) (tbl : U64) (f : U64 → List U64) (n i : ℕ) :
    t.listed tbl f n i = s.listed tbl f n i := by
  simp only [listed, pte_of_pages pages]

private theorem heldTables_of_pages (pages : t.pages = s.pages) (level : ℕ) (tbl : U64) :
    t.heldTables level tbl = s.heldTables level tbl := by
  induction level generalizing tbl with
  | zero => rfl
  | succ level ih => simp only [heldTables, listed, pte_of_pages pages, ih]

private theorem heldFrames_of_pages (pages : t.pages = s.pages) (level : ℕ) (tbl : U64) :
    t.heldFrames level tbl = s.heldFrames level tbl := by
  induction level generalizing tbl with
  | zero => simp only [heldFrames, listed, pte_of_pages pages]
  | succ level ih => simp only [heldFrames, listed, pte_of_pages pages, ih]

end Machine

open Machine

variable {ram : Ram} {roots : Set U64} {s : Machine} {root tbl a : U64} {q : Option Place}

/-! ## The recursion -/

/-- A page among those that are freed is not one of its pool. -/
def Misplaced (ram : Ram) (tables frames : List U64) : Prop :=
  (∃ a ∈ tables, ¬ram.KernelFrame a) ∨ ∃ a ∈ frames, ¬ram.UserFrame a

private theorem Misplaced.append {tables tables' frames frames' : List U64}
    (either : Misplaced ram tables frames ∨ Misplaced ram tables' frames') :
    Misplaced ram (tables' ++ tables) (frames' ++ frames) := by
  rcases either with (⟨a, member, bad⟩ | ⟨a, member, bad⟩) | (⟨a, member, bad⟩ | ⟨a, member, bad⟩)
  · exact .inl ⟨a, List.mem_append_right _ member, bad⟩
  · exact .inr ⟨a, List.mem_append_right _ member, bad⟩
  · exact .inl ⟨a, List.mem_append_left _ member, bad⟩
  · exact .inr ⟨a, List.mem_append_left _ member, bad⟩

/-- The pages are freed, or one of them is not of its pool. -/
def Frees (ram : Ram) (x : MemM Unit) (s : Machine) (tables frames : List U64) : Prop :=
  Ends x s (fun _ s' => s' = s.freed tables frames) fun _ => Misplaced ram tables frames

private theorem Frees.bind {x y : MemM Unit} {tables tables' frames frames' : List U64}
    (first : Frees ram x s tables frames) (second : Frees ram y (s.freed tables frames) tables' frames') :
    Frees ram (x >>= fun _ => y) s (tables' ++ tables) (frames' ++ frames) := by
  refine Ends.bind_iff.mpr ((first.fails fun _ bad => Misplaced.append (.inl bad)).mono ?_)
  rintro _ s' rfl
  refine (second.fails fun _ bad => Misplaced.append (.inr bad)).mono ?_
  rintro _ s' rfl
  exact freed_freed s tables tables' frames frames'

private theorem frees_nothing (s : Machine) : Frees ram (pure ()) s [] [] := rfl

theorem pmemFree_kernel (a : U64) : Frees ram (pmemFree ram a true) s [a] [] := by
  have bad (outside : ¬ram.KernelFrame a) : Misplaced ram [a] [] :=
    .inl ⟨a, List.mem_singleton_self a, outside⟩
  refine Ends.ite (fun unaligned => bad fun frame => unaligned frame.aligned) fun _ =>
    Ends.ite (fun outside => bad ?_) fun _ => rfl
  rintro ⟨-, low, high⟩
  exact outside.elim (Nat.not_lt_of_le low) (Nat.not_le_of_lt high)

theorem pmemFree_user (a : U64) : Frees ram (pmemFree ram a false) s [] [a] := by
  have bad (outside : ¬ram.UserFrame a) : Misplaced ram [] [a] :=
    .inr ⟨a, List.mem_singleton_self a, outside⟩
  refine Ends.ite (fun unaligned => bad fun frame => unaligned frame.aligned) fun _ =>
    Ends.ite (fun outside => bad ?_) fun _ => rfl
  rintro ⟨-, low, high⟩
  exact outside.elim (Nat.not_lt_of_le low) (Nat.not_le_of_lt high)

private theorem forEntries_frees {act : U64 → MemM Unit} {f g : U64 → List U64}
    (each : ∀ t : Machine, t.pages = s.pages → ∀ e, Frees ram (act e) t (f e) (g e)) (n i : ℕ) :
    Frees ram (forEntries tbl act n i) s (s.listed tbl f n i) (s.listed tbl g n i) := by
  induction n generalizing s i with
  | zero => exact frees_nothing s
  | succ n ih =>
    rw [listed_succ, listed_succ]
    have rest (tables frames : List U64) : Frees ram (forEntries tbl act n (i + 1)) (s.freed tables frames)
        (s.listed tbl f n (i + 1)) (s.listed tbl g n (i + 1)) := by
      rw [← listed_of_pages (freed_pages s tables frames), ← listed_of_pages (freed_pages s tables frames)]
      exact @ih (s.freed tables frames) each (i + 1)
    by_cases valid : PteHas (s.pte tbl i) pteV
    · have here := (each s rfl (s.pte tbl i)).bind (rest _ _)
      simp only [Frees, forEntries, Ends.bind_iff, Ends.get_iff, if_pos valid] at here ⊢
      exact here
    · have here := (frees_nothing s).bind (rest [] [])
      simp only [Frees, forEntries, Ends.bind_iff, Ends.get_iff, if_neg valid] at here ⊢
      exact here

/-- `free_pagetable_recursive` frees what it finds in the state at its begin. -/
theorem freePagetable_frees (level : ℕ) (tbl : U64) :
    Frees ram (freePagetable ram level tbl) s (s.heldTables level tbl) (s.heldFrames level tbl) := by
  induction level generalizing s tbl with
  | zero =>
    have leaves : Frees ram (forEntries tbl (freeLeaf ram) 512 0) s (s.listed tbl (fun _ => []) 512 0)
        (s.listed tbl (fun pte => if PteHas pte pteU then [pteToPa pte] else []) 512 0) := by
      refine forEntries_frees (fun t pages e => ?_) 512 0
      by_cases user : PteHas e pteU
      · simp only [freeLeaf, if_pos user]
        exact pmemFree_user _
      · simp only [freeLeaf, if_neg user]
        exact frees_nothing t
    have none : s.listed tbl (fun _ => []) 512 0 = [] :=
      List.eq_nil_iff_forall_not_mem.mpr fun a member => by
        obtain ⟨_, _, _, none⟩ := mem_listed.mp member
        cases none
    rw [none] at leaves
    have both := leaves.bind (pmemFree_kernel tbl)
    rwa [List.append_nil, List.nil_append] at both
  | succ level ih =>
    have below : Frees ram (forEntries tbl (fun pte => freePagetable ram level (pteToPa pte)) 512 0) s
        (s.listed tbl (fun pte => s.heldTables level (pteToPa pte)) 512 0)
        (s.listed tbl (fun pte => s.heldFrames level (pteToPa pte)) 512 0) := by
      refine forEntries_frees (fun t pages e => ?_) 512 0
      rw [← heldTables_of_pages pages, ← heldFrames_of_pages pages]
      exact ih _
    have both := below.bind (pmemFree_kernel tbl)
    rwa [List.singleton_append, List.nil_append] at both

/-! ## The tables and the frames of a tree -/

/-- The indices on the way to an entry -/
def Place.indices : Place → List ℕ
  | .root i => [i]
  | .sub q j => q.indices ++ [j]

/-- The indices on the way to a table -/
def tablePath : Option Place → List ℕ
  | none => []
  | some q => q.indices

private theorem slotPlace_indices (q : Option Place) (j : ℕ) : (slotPlace q j).indices = tablePath q ++ [j] := by
  cases q <;> rfl

private theorem Place.indices_length (p : Place) : p.indices.length = p.depth + 1 := by
  induction p with
  | root i => rfl
  | sub q j ih => rw [indices, List.length_append, ih, depth, List.length_singleton]

/-- Two ways that go on with different indices do not meet again. -/
theorem index_of_prefix {path other : List ℕ} {i j : ℕ} (first : path ++ [i] <+: other)
    (second : path ++ [j] <+: other) : i = j := by
  have same := (List.prefix_of_prefix_length_le first second (by simp)).eq_of_length (by simp)
  exact List.singleton_inj.mp (List.append_cancel_left same)

/-- The table below a valid entry of an upper table -/
theorem Machine.Tables.below (tables : s.Tables ram roots) (live : root ∈ roots)
    (found : s.tableAt root q = some tbl) {j : ℕ} (upper : (slotPlace q j).depth < 2) (bound : j < 512)
    (valid : PteHas (s.pte tbl j) pteV) :
    s.tableAt root (some (slotPlace q j)) = some (pteToPa (s.pte tbl j)) := by
  have entry := entry_slot found bound
  have check := tables.upper root live _ upper (by rwa [entry])
  rw [tableAt_slot upper bound found, tableOf, if_pos ⟨valid, entry ▸ check⟩]

private theorem slotPlace_depth (q : Option Place) (j : ℕ) :
    (slotPlace q j).depth = (tablePath q).length := by
  cases q with
  | none => rfl
  | some q => exact q.indices_length.symm

/-- What is listed below a table are tables of the tree, further on the way. -/
theorem heldTables_sound (tables : s.Tables ram roots) (live : root ∈ roots) {level : ℕ}
    (found : s.tableAt root q = some tbl) (place : (tablePath q).length + level = 2)
    (member : a ∈ s.heldTables level tbl) :
    ∃ q', tablePath q <+: tablePath q' ∧ s.tableAt root q' = some a := by
  induction level generalizing q tbl with
  | zero => exact ⟨q, List.prefix_rfl, List.mem_singleton.mp member ▸ found⟩
  | succ level ih =>
    rcases List.mem_cons.mp member with rfl | member
    · exact ⟨q, List.prefix_rfl, found⟩
    · obtain ⟨j, bound, valid, member⟩ := mem_listed.mp member
      have path : tablePath (some (slotPlace q j)) = tablePath q ++ [j] := slotPlace_indices q j
      obtain ⟨q', further, found'⟩ := ih (tables.below live found
        (by rw [slotPlace_depth]; omega) bound valid) (by rw [path, List.length_append, List.length_singleton]; omega)
        member
      exact ⟨q', ((List.prefix_append _ _).trans (path ▸ further)), found'⟩

theorem heldTables_nodup (tables : s.Tables ram roots) (live : root ∈ roots) {level : ℕ}
    (found : s.tableAt root q = some tbl) (place : (tablePath q).length + level = 2) :
    (s.heldTables level tbl).Nodup := by
  induction level generalizing q tbl with
  | zero => exact List.nodup_singleton tbl
  | succ level ih =>
    have path (j : ℕ) : tablePath (some (slotPlace q j)) = tablePath q ++ [j] := slotPlace_indices q j
    have next (j : ℕ) : (tablePath (some (slotPlace q j))).length + level = 2 := by
      rw [path, List.length_append, List.length_singleton]
      omega
    have below {j : ℕ} (bound : j < 512) (valid : PteHas (s.pte tbl j) pteV) :=
      tables.below live found (by rw [slotPlace_depth]; omega) bound valid
    refine List.nodup_cons.mpr ⟨fun member => ?_, nodup_listed (fun j bound valid => ?_) ?_⟩
    · obtain ⟨j, bound, valid, member⟩ := mem_listed.mp member
      obtain ⟨q', further, again⟩ := heldTables_sound tables live (below bound valid) (next j) member
      obtain rfl := (tables.once root live root live q q' tbl found again).2
      have longer := further.length_le
      rw [path, List.length_append, List.length_singleton] at longer
      omega
    · exact ih (below bound valid) (next j)
    · intro i bound j bound' valid valid' a here there
      obtain ⟨q', further, at_q⟩ := heldTables_sound tables live (below bound valid) (next i) here
      obtain ⟨q'', further', at_q'⟩ := heldTables_sound tables live (below bound' valid') (next j) there
      obtain rfl := (tables.once root live root live q' q'' a at_q at_q').2
      rw [path] at further further'
      exact index_of_prefix further further'

/-- An entry behind the last one is 0. -/
theorem entry_slot_high (found : s.tableAt root q = some tbl) {j : ℕ} (high : ¬j < 512) :
    s.entry root (slotPlace q j) = 0 := by
  cases q with
  | none => exact if_neg high
  | some q =>
    simp only [tableAt] at found
    split at found
    · simp only [Machine.entry] at found
      simp only [slotPlace, Machine.entry, Forest.entry, found]
      exact if_neg high
    · cases found

private theorem table_of_sub {p : Place} {j : ℕ} (points : tableOf (s.entry root (.sub p j)) = some a) :
    ∃ tbl, tableOf (s.entry root p) = some tbl := by
  cases missing : tableOf (s.entry root p) with
  | some tbl => exact ⟨tbl, rfl⟩
  | none =>
    rw [entry_below missing, tableOf_zero] at points
    cases points

private theorem mem_heldTables_below {level : ℕ} (found : s.tableAt root q = some tbl) {j : ℕ}
    (points : tableOf (s.entry root (slotPlace q j)) = some a) {b : U64} (member : b ∈ s.heldTables level a) :
    b ∈ s.heldTables (level + 1) tbl := by
  have bound : j < 512 := by
    by_contra high
    rw [entry_slot_high found high, tableOf_zero] at points
    cases points
  rw [entry_slot found bound, tableOf] at points
  split at points
  · exact List.mem_cons_of_mem _ (mem_listed.mpr ⟨j, bound, (‹_ ∧ _› : _ ∧ _).1,
      Option.some.inj points ▸ member⟩)
  · cases points

/-- All tables of a tree are listed. -/
theorem heldTables_complete (found : s.tableAt root q = some a) : a ∈ s.heldTables 2 root := by
  have top : s.tableAt root none = some root := rfl
  match q with
  | none => exact Option.some.inj found ▸ List.mem_cons_self
  | some (.root i) =>
    rw [tableAt_some (Place.upper_root i)] at found
    exact mem_heldTables_below top found List.mem_cons_self
  | some (.sub (.root i) j) =>
    rw [tableAt_some (Place.upper_sub i j)] at found
    obtain ⟨b, middle⟩ := table_of_sub found
    refine mem_heldTables_below top middle ?_
    exact mem_heldTables_below ((tableAt_some (Place.upper_root i)).trans middle)
      found (List.mem_singleton_self a)
  | some (.sub (.sub q i) j) =>
    rw [tableAt, if_neg (by simp only [Place.depth]; omega)] at found
    cases found

theorem mem_heldTables (tables : s.Tables ram roots) (live : root ∈ roots) :
    a ∈ s.heldTables 2 root ↔ ∃ q, s.tableAt root q = some a := by
  constructor
  · intro member
    obtain ⟨q, -, found⟩ := heldTables_sound tables live (show s.tableAt root none = _ from rfl) rfl member
    exact ⟨q, found⟩
  · rintro ⟨q, found⟩
    exact heldTables_complete found

/-- A page of the user's memory in a tree, and its frame -/
structure UserLeaf (s : Machine) (root : U64) (v : ℕ) (a : U64) : Prop where
  valid : PteHas (s.leaf root v) pteV
  user : PteHas (s.leaf root v) pteU
  frame : pteToPa (s.leaf root v) = a

/-- An entry of the lowest level that is not 0 belongs to a page. -/
theorem exists_pagePlace {i j k : ℕ} (valid : PteHas (s.entry root (.sub (.sub (.root i) j) k)) pteV) :
    ∃ v, pagePlace v = .sub (.sub (.root i) j) k := by
  have top : s.tableAt root none = some root := rfl
  have step {q : Option Place} {tbl : U64} {j : ℕ} (found : s.tableAt root q = some tbl)
      (some : s.entry root (slotPlace q j) ≠ 0) : j < 512 := by
    by_contra high
    exact some (entry_slot_high found high)
  have nonzero : s.entry root (.sub (.sub (.root i) j) k) ≠ 0 := fun zero =>
    not_pteHas_zero pteV (zero ▸ valid)
  cases lower : tableOf (s.entry root (.sub (.root i) j)) with
  | none => exact absurd (entry_below lower k) nonzero
  | some b =>
    obtain ⟨c, middle⟩ := table_of_sub lower
    have points {q : Place} {t : U64} (leads : tableOf (s.entry root q) = some t) : s.entry root q ≠ 0 := by
      intro zero
      rw [zero, tableOf_zero] at leads
      cases leads
    have first := @step none root i top (points middle)
    have second := @step (some (.root i)) c j ((tableAt_some (Place.upper_root i)).trans middle) (points lower)
    have third := @step (some (.sub (.root i) j)) b k ((tableAt_some (Place.upper_sub i j)).trans lower) nonzero
    refine ⟨i * 2 ^ 18 + j * 512 + k, ?_⟩
    simp only [pagePlace, Place.sub.injEq, Place.root.injEq]
    omega

/-- A user's entry of a table of the last level -/
theorem userLeaf_slot (found : s.tableAt root q = some tbl) (place : (tablePath q).length = 2) {k : ℕ}
    (bound : k < 512) (valid : PteHas (s.pte tbl k) pteV)
    (member : a ∈ if PteHas (s.pte tbl k) pteU then [pteToPa (s.pte tbl k)] else []) :
    ∃ v, tablePath q ++ [k] <+: (pagePlace v).indices ∧ UserLeaf s root v a := by
  split at member
  case isFalse => cases member
  case isTrue user =>
    have entry := entry_slot found bound
    match q with
    | none => cases place
    | some (.root i) => cases place
    | some (.sub (.sub q i) j) =>
      rw [tablePath, Place.indices_length] at place
      simp only [Place.depth] at place
      omega
    | some (.sub (.root i) j) =>
      have here : s.entry root (.sub (.sub (.root i) j) k) = s.pte tbl k := entry
      obtain ⟨v, page⟩ := exists_pagePlace (here ▸ valid)
      have leaf : s.leaf root v = s.pte tbl k := by rw [Machine.leaf, page, here]
      refine ⟨v, page ▸ List.prefix_rfl, leaf ▸ valid, leaf ▸ user, ?_⟩
      rw [leaf]
      exact (List.mem_singleton.mp member).symm

/-- The frames that are listed below a table -/
theorem heldFrames_sound (tables : s.Tables ram roots) (live : root ∈ roots) {level : ℕ}
    (found : s.tableAt root q = some tbl) (place : (tablePath q).length + level = 2)
    (member : a ∈ s.heldFrames level tbl) :
    ∃ v, tablePath q <+: (pagePlace v).indices ∧ UserLeaf s root v a := by
  induction level generalizing q tbl with
  | zero =>
    obtain ⟨j, bound, valid, member⟩ := mem_listed.mp member
    obtain ⟨v, further, leaf⟩ := userLeaf_slot found place bound valid member
    exact ⟨v, (List.prefix_append _ _).trans further, leaf⟩
  | succ level ih =>
    obtain ⟨j, bound, valid, member⟩ := mem_listed.mp member
    have path : tablePath (some (slotPlace q j)) = tablePath q ++ [j] := slotPlace_indices q j
    obtain ⟨v, further, leaf⟩ := ih (tables.below live found
      (by rw [slotPlace_depth]; omega) bound valid) (by rw [path, List.length_append, List.length_singleton]; omega)
      member
    exact ⟨v, (List.prefix_append _ _).trans (path ▸ further), leaf⟩

/-- No frame is listed twice where no two pages share one. -/
theorem heldFrames_nodup (tables : s.Tables ram roots) (live : root ∈ roots)
    (once : ∀ v v' a, UserLeaf s root v a → UserLeaf s root v' a → v = v') {level : ℕ}
    (found : s.tableAt root q = some tbl) (place : (tablePath q).length + level = 2) :
    (s.heldFrames level tbl).Nodup := by
  induction level generalizing q tbl with
  | zero =>
    refine nodup_listed (fun j _ _ => ?_) ?_
    · split
      · exact List.nodup_singleton _
      · exact List.nodup_nil
    · intro i bound j bound' valid valid' a here there
      obtain ⟨v, further, first⟩ := userLeaf_slot found place bound valid here
      obtain ⟨v', further', second⟩ := userLeaf_slot found place bound' valid' there
      obtain rfl := once v v' a first second
      exact index_of_prefix further further'
  | succ level ih =>
    have path (j : ℕ) : tablePath (some (slotPlace q j)) = tablePath q ++ [j] := slotPlace_indices q j
    have next (j : ℕ) : (tablePath (some (slotPlace q j))).length + level = 2 := by
      rw [path, List.length_append, List.length_singleton]
      omega
    have below {j : ℕ} (bound : j < 512) (valid : PteHas (s.pte tbl j) pteV) :=
      tables.below live found (by rw [slotPlace_depth]; omega) bound valid
    refine nodup_listed (fun j bound valid => ih (below bound valid) (next j)) ?_
    intro i bound j bound' valid valid' a here there
    obtain ⟨v, further, first⟩ := heldFrames_sound tables live (below bound valid) (next i) here
    obtain ⟨v', further', second⟩ := heldFrames_sound tables live (below bound' valid') (next j) there
    obtain rfl := once v v' a first second
    rw [path] at further further'
    exact index_of_prefix further further'

private theorem mem_heldFrames_below {level : ℕ} (found : s.tableAt root q = some tbl) {j : ℕ}
    (points : tableOf (s.entry root (slotPlace q j)) = some a) {b : U64} (member : b ∈ s.heldFrames level a) :
    b ∈ s.heldFrames (level + 1) tbl := by
  have bound : j < 512 := by
    by_contra high
    rw [entry_slot_high found high, tableOf_zero] at points
    cases points
  rw [entry_slot found bound, tableOf] at points
  split at points
  · exact mem_listed.mpr ⟨j, bound, (‹_ ∧ _› : _ ∧ _).1, Option.some.inj points ▸ member⟩
  · cases points

private theorem heldFrames_complete {v : ℕ} (leaf : UserLeaf s root v a) : a ∈ s.heldFrames 2 root := by
  have top : s.tableAt root none = some root := rfl
  have valid := leaf.valid
  rw [Machine.leaf, pagePlace] at valid
  cases lower : tableOf (s.entry root (.sub (.root (v / 2 ^ 18)) (v / 512 % 512))) with
  | none =>
    rw [entry_below lower] at valid
    exact absurd valid (not_pteHas_zero pteV)
  | some b =>
    obtain ⟨c, middle⟩ := table_of_sub lower
    refine mem_heldFrames_below top middle ?_
    refine mem_heldFrames_below ((tableAt_some (Place.upper_root _)).trans middle) lower ?_
    have entry := entry_slot ((tableAt_some (Place.upper_sub ..)).trans lower)
      (Nat.mod_lt v (show 0 < 512 by decide))
    have here : s.leaf root v = s.pte b (v % 512) := entry
    refine mem_listed.mpr ⟨v % 512, Nat.mod_lt v (by decide), here ▸ leaf.valid, ?_⟩
    rw [if_pos (here ▸ leaf.user), ← here, leaf.frame]
    exact List.mem_singleton_self a

theorem mem_heldFrames (tables : s.Tables ram roots) (live : root ∈ roots) :
    a ∈ s.heldFrames 2 root ↔ ∃ v, UserLeaf s root v a := by
  constructor
  · intro member
    obtain ⟨v, -, leaf⟩ := heldFrames_sound tables live (show s.tableAt root none = _ from rfl) rfl member
    exact ⟨v, leaf⟩
  · rintro ⟨v, leaf⟩
    exact heldFrames_complete leaf

/-- A tree that is given up: its tables and the frames of the user's pages, each once, go to their pools
and nothing else changes. -/
theorem uvmDestroyPgtbl_ends (tables : s.Tables ram roots) (live : root ∈ roots)
    (once : ∀ v v' a, UserLeaf s root v a → UserLeaf s root v' a → v = v')
    (frames : ∀ v a, UserLeaf s root v a → ram.UserFrame a) :
    Yields (uvmDestroyPgtbl ram root) s fun _ s' => ∃ ts fs, s' = s.freed ts fs ∧ ts.Nodup ∧ fs.Nodup ∧
      (∀ a, a ∈ ts ↔ ∃ q, s.tableAt root q = some a) ∧ ∀ a, a ∈ fs ↔ ∃ v, UserLeaf s root v a := by
  have top : s.tableAt root none = some root := rfl
  refine ((freePagetable_frees 2 root).fails fun f bad => ?_).mono ?_
  · rcases bad with ⟨a, member, outside⟩ | ⟨a, member, outside⟩
    · obtain ⟨q, found⟩ := (mem_heldTables tables live).mp member
      exact outside (tables.frame root live q a found)
    · obtain ⟨v, leaf⟩ := (mem_heldFrames tables live).mp member
      exact outside (frames v a leaf)
  · rintro _ s' rfl
    exact ⟨_, _, rfl, heldTables_nodup tables live top rfl, heldFrames_nodup tables live once top rfl,
      fun a => mem_heldTables tables live, fun a => mem_heldFrames tables live⟩

end LabKernel
