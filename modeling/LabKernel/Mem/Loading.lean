import LabKernel.Mem.Exec

/-! # A program that is being loaded

While `proc_exec` builds a page table, it changes that tree, pages that were free when it began, and
perhaps the trap frame. `Loading` says so; every step of the loader keeps it.
-/

namespace LabKernel

/-- The pages of the trampoline and of a trap frame: no pages of the user's pool, and no tables. -/
structure TrapPages (ram : Ram) (roots : Set U64) (code tf : U64) (s : Machine) : Prop where
  code_user : ¬ram.UserFrame code
  code_kernel : ¬ram.KernelFrame code
  tf_user : ¬ram.UserFrame tf
  tf_apart : tf ∉ s.kernelUse roots
  aligned : tf.toNat % pgsize = 0

/-- What holds while the tree at `tbl` is built, begun in the state `s₀`. -/
structure Loading (ram : Ram) (roots : Set U64) (code tf tbl : U64) (s₀ s : Machine) : Prop where
  trap : TrapPages ram roots code tf s₀
  nodup : s₀.userPool.Nodup
  frames : ∀ a ∈ s₀.userPool, ram.UserFrame a
  tables : s.Tables ram (insert tbl roots)
  fresh : tbl ∉ roots
  nonzero : tbl ≠ 0
  builds : Builds ram roots tbl s₀ s
  use : s.kernelUse (insert tbl roots) = s₀.kernelUse roots
  other : ∀ r ∈ roots, ∀ q, s.tableAt r q = s₀.tableAt r q
  owned : ∀ v a, UserLeaf s tbl v a → a ∈ s₀.userPool ∧ a ∉ s.userPool
  once : ∀ v v' a, UserLeaf s tbl v a → UserLeaf s tbl v' a → v = v'
  high : ∀ v, PteHas (s.leaf tbl v) pteV → ¬PteHas (s.leaf tbl v) pteU →
    pteToPa (s.leaf tbl v) = code ∨ pteToPa (s.leaf tbl v) = tf

variable {ram : Ram} {roots : Set U64} {code tf tbl a : U64} {s₀ s s' : Machine} {v va : ℕ}

open Machine

/-! ## One step -/

theorem Initialised.loading (init : Initialised ram roots code tf s₀ tbl s) (sane : ram.Sane)
    (trap : TrapPages ram roots code tf s₀) (nodup : s₀.userPool.Nodup)
    (frames : ∀ a ∈ s₀.userPool, ram.UserFrame a) :
    Loading ram roots code tf tbl s₀ s := by
  have here : tbl ∈ insert tbl roots := Set.mem_insert tbl roots
  have none (v : ℕ) : (s₀.view ram roots).leaf tbl v = 0 := if_neg init.fresh
  have leaf (v : ℕ) := init.leaf here v
  have entries (v : ℕ) : s.leaf tbl v = paToPte tf ||| permFlags permRW ∨
      s.leaf tbl v = paToPte code ||| permFlags permRX ∨ s.leaf tbl v = 0 := by
    rw [leaf]
    split
    · exact .inl rfl
    · split
      · exact .inr (.inl rfl)
      · exact .inr (.inr (none v))
  have kernel (v : ℕ) : ¬PteHas (s.leaf tbl v) pteU := by
    rcases entries v with same | same | same
    · rw [same, pteHas_paToPte_or _ _ (by decide)]
      decide
    · rw [same, pteHas_paToPte_or _ _ (by decide)]
      decide
    · rw [same]
      exact not_pteHas_zero pteU
  refine ⟨trap, nodup, frames, init.shows.tables, init.fresh, sane.kernelFrame_ne_zero init.frame, init.builds,
    init.use, init.other, fun v a leaf => absurd leaf.user (kernel v),
    fun v _ a leaf => absurd leaf.user (kernel v), fun v valid _ => ?_⟩
  rcases entries v with same | same | same
  · exact .inr (same ▸ pteToPa_paToPte trap.aligned (by decide))
  · exact .inl (same ▸ pteToPa_paToPte init.whole (by decide))
  · rw [same] at valid
    exact absurd valid (not_pteHas_zero pteV)

namespace Loading

variable (b : Loading ram roots code tf tbl s₀ s)
include b

/-- A page that may be written: it holds no table, and if it is a user's page it was free. -/
theorem writable (valid : PteHas (s.leaf tbl v) pteV) :
    (∀ r ∈ insert tbl roots, ∀ q, s.tableAt r q ≠ some (pteToPa (s.leaf tbl v))) ∧
      (ram.UserFrame (pteToPa (s.leaf tbl v)) → pteToPa (s.leaf tbl v) ∈ s₀.userPool) := by
  by_cases user : PteHas (s.leaf tbl v) pteU
  · have owned := (b.owned v _ ⟨valid, user, rfl⟩).1
    exact ⟨fun r live => b.tables.user_apart (b.frames _ owned) live, fun _ => owned⟩
  · rcases b.high v valid user with same | same
    · rw [same]
      exact ⟨fun r live q found => b.trap.code_kernel (b.tables.frame r live q _ found),
        fun frame => absurd frame b.trap.code_user⟩
    · rw [same]
      refine ⟨fun r live q found => b.trap.tf_apart ?_, fun frame => absurd frame b.trap.tf_user⟩
      rw [← b.use]
      exact .inr ⟨r, live, q, found⟩

/-- The contents of such a page do not matter. -/
theorem setPage (page : Bytes) (apart : ∀ r ∈ insert tbl roots, ∀ q, s.tableAt r q ≠ some a)
    (own : ram.UserFrame a → a ∈ s₀.userPool) :
    Loading ram roots code tf tbl s₀ (s.setPage a page) := by
  have entries {r : U64} (live : r ∈ insert tbl roots) {p : Place} (depth : p.depth ≤ 2) :
      (s.setPage a page).entry r p = s.entry r p := setPage_entry page (apart r live) depth
  have leaf {r : U64} (live : r ∈ insert tbl roots) (v : ℕ) : (s.setPage a page).leaf r v = s.leaf r v :=
    leaf_congr (fun _ => entries live) v
  have found {r : U64} (live : r ∈ insert tbl roots) (q : Option Place) :
      (s.setPage a page).tableAt r q = s.tableAt r q := tableAt_of_entry fun _ => entries live
  have here : tbl ∈ insert tbl roots := Set.mem_insert tbl roots
  have user {v : ℕ} {c : U64} (one : UserLeaf (s.setPage a page) tbl v c) : UserLeaf s tbl v c :=
    ⟨leaf here v ▸ one.valid, leaf here v ▸ one.user, leaf here v ▸ one.frame⟩
  have use : (s.setPage a page).kernelUse (insert tbl roots) = s.kernelUse (insert tbl roots) :=
    kernelUse_congr rfl fun r live q => found live q
  refine ⟨b.trap, b.nodup, b.frames, ?_, b.fresh, b.nonzero, ?_, use.trans b.use, ?_, ?_, ?_, ?_⟩
  · exact b.tables.congr b.tables.userPool (List.Sublist.refl _) fun r live p => entries live
  · refine ⟨⟨b.builds.kernel, ?_, ?_, b.builds.pool, b.builds.kernelPool⟩, b.builds.proc, b.builds.regions⟩
    · exact fun r live differ v => (leaf (.inr live) v).trans (b.builds.leaf r live differ v)
    · intro c frame busy
      have differ : c ≠ a := by
        rintro rfl
        exact busy (own frame)
      exact (Function.update_of_ne differ ..).trans (b.builds.page c frame busy)
  · exact fun r live q => (found (.inr live) q).trans (b.other r live q)
  · exact fun v c one => b.owned v c (user one)
  · exact fun v v' c first second => b.once v v' c (user first) (user second)
  · intro v valid kernel
    rw [leaf here] at valid kernel ⊢
    exact b.high v valid kernel

private theorem store (valid : PteHas (s.leaf tbl v) pteV) (page : Bytes) :
    Loading ram roots code tf tbl s₀ (s.setPage (pteToPa (s.leaf tbl v)) page) :=
  b.setPage page (b.writable valid).1 (b.writable valid).2

/-- A fresh page is mapped for user mode. -/
theorem mapFresh {flags : U64} {rest : List U64} (pool : s.userPool = a :: rest)
    (shows : Shows ram (insert tbl roots) s
      ((s.view ram (insert tbl roots)).mapFresh tbl v a flags rest) s')
    (attaches : Attaches ram (insert tbl roots) tbl s s') (low : flags.toNat < 1024)
    (user : PteHas flags pteU) : Loading ram roots code tf tbl s₀ s' := by
  have here : tbl ∈ insert tbl roots := Set.mem_insert tbl roots
  have leaf {r : U64} (live : r ∈ insert tbl roots) (v' : ℕ) := fresh_leaf shows live v'
  have left : s'.userPool = rest := congrArg View.userPool shows.view
  have free : a ∈ s.userPool := pool ▸ List.mem_cons_self
  have old : a ∈ s₀.userPool := b.builds.pool.subset free
  have nodup : a ∉ rest ∧ rest.Nodup := List.nodup_cons.mp (pool ▸ b.nodup.sublist b.builds.pool.sublist)
  have new : pteToPa (paToPte a ||| flags) = a := pteToPa_paToPte (b.frames a old).aligned low
  have cases {v' : ℕ} {c : U64} (one : UserLeaf s' tbl v' c) :
      (v' = v ∧ c = a) ∨ (v' ≠ v ∧ UserLeaf s tbl v' c) := by
    by_cases same : v' = v
    · refine .inl ⟨same, ?_⟩
      rw [← one.frame, leaf here, if_pos ⟨rfl, same⟩, new]
    · have kept : s'.leaf tbl v' = s.leaf tbl v' := by rw [leaf here, if_neg fun both => same both.2]
      exact .inr ⟨same, kept ▸ one.valid, kept ▸ one.user, kept ▸ one.frame⟩
  refine ⟨b.trap, b.nodup, b.frames, shows.tables, b.fresh, b.nonzero, ?_, attaches.use.trans b.use, ?_, ?_,
    ?_, ?_⟩
  · refine b.builds.trans ⟨⟨congrArg View.kernPagetable shows.view, ?_, ?_, ?_, shows.pool⟩,
      congrArg View.proc shows.view, congrArg View.freeRegions shows.view⟩
    · intro r live differ v'
      rw [leaf (.inr live), if_neg fun both => differ both.1]
    · intro c frame busy
      have differ : c ≠ a := fun same => busy (same ▸ free)
      rw [← @view_page s' ram (insert tbl roots) c frame, shows.view,
        ← @view_page s ram (insert tbl roots) c frame]
      exact Function.update_of_ne differ ..
    · rw [left, pool]
      exact List.suffix_cons a rest
  · intro r live q
    have differ : r ≠ tbl := fun same => b.fresh (same ▸ live)
    exact (attaches.other r (.inr live) differ q).trans (b.other r live q)
  · intro v' c one
    rw [left]
    rcases cases one with ⟨-, rfl⟩ | ⟨-, one⟩
    · exact ⟨old, nodup.1⟩
    · obtain ⟨owned, busy⟩ := b.owned v' c one
      exact ⟨owned, fun within => busy (pool ▸ List.mem_cons_of_mem a within)⟩
  · intro v' v'' c first second
    rcases cases first with ⟨rfl, rfl⟩ | ⟨differ, first⟩ <;> rcases cases second with ⟨rfl, same⟩ | ⟨differ', second⟩
    · rfl
    · exact absurd free (b.owned v'' c second).2
    · exact absurd free (same ▸ (b.owned v' c first).2)
    · exact b.once v' v'' c first second
  · intro v' valid kernel
    rw [leaf here] at valid kernel ⊢
    split
    · rw [if_pos ‹_›, pteHas_paToPte_or _ _ (by decide)] at kernel
      exact absurd user kernel
    · rw [if_neg ‹_›] at valid kernel
      exact b.high v' valid kernel

end Loading

/-! ## The steps of the loader -/

variable {perm : U32}

theorem pmemAlloc_attaches (root : U64) (tables : s.Tables ram roots) :
    Returns (pmemAlloc false) s fun _ s' => Attaches ram roots root s s' := by
  rw [pmemAlloc, Returns.bind_iff, Returns.get_iff, if_neg Bool.false_ne_true]
  cases pool : s.userPool with
  | nil => exact Returns.throw_iff.mpr trivial
  | cons a rest =>
    simp only [Returns.bind_iff, Returns.set_iff, Returns.pure_iff]
    have user := tables.userPool a (pool ▸ List.mem_cons_self)
    have tableAt {r : U64} (live : r ∈ roots) (q : Option Place) :
        (({ s with userPool := rest } : Machine).setPage a fun _ => 0).tableAt r q = s.tableAt r q :=
      tableAt_of_entry fun p depth =>
        setPage_entry (s := { s with userPool := rest }) _ (tables.user_apart user live) depth
    refine ⟨kernelUse_congr rfl fun r live => tableAt live, fun r live _ => tableAt live,
      fun c other _ => setPage_other _ ?_⟩
    rintro rfl
    exact other user

/-- A permission of user mode, in the bits of an entry -/
def UserPerm (perm : U32) : Prop := (permFlags perm).toNat < 1024 ∧ PteHas (permFlags perm) pteU

/-- A page that is allocated and mapped -/
theorem Loading.freshPage (b : Loading ram roots code tf tbl s₀ s) (user : UserPerm perm)
    (page : va % pgsize = 0) (word : va < 2 ^ 64) :
    Returns (do
      let mem ← pmemAlloc false
      vmMappages tbl va mem pgsize perm) s fun _ s' => Loading ram roots code tf tbl s₀ s' ∧
        va + pgsize ≤ vaMax ∧ ∃ a ∈ s.userPool, ∀ v, s'.leaf tbl v =
          if v = va / pgsize then paToPte a ||| permFlags perm else s.leaf tbl v := by
  rw [Returns.bind_iff]
  refine ((pmemAlloc_ends b.tables).returns.and (pmemAlloc_attaches tbl b.tables)).mono ?_
  rintro a s₁ ⟨⟨rest, pool, frame, taken⟩, attaches⟩
  have self : s₁.rootFor tbl = tbl := if_neg b.nonzero
  have here : tbl ∈ insert tbl roots := Set.mem_insert tbl roots
  have live : s₁.rootFor tbl ∈ insert tbl roots := by rwa [self]
  rcases Nat.lt_or_ge vaMax (va + pgsize) with high | low
  · intro _ s₂ result
    exact ((vmMappages_high word page high (Q := fun _ _ => False)).returns _ _ result).elim
  · refine ((vmMappages_page taken.tables live page frame.aligned low).returns.and
      (vmMappages_attaches taken.tables live page low)).mono ?_
    rintro _ s₂ ⟨mapped, attaches'⟩
    rw [taken.view, self] at mapped
    rw [self] at attaches'
    have shows := taken.trans mapped
    refine ⟨b.mapFresh pool shows (attaches.trans attaches') user.1 user.2, low, a,
      pool ▸ List.mem_cons_self, fun v => ?_⟩
    rw [fresh_leaf shows here]
    simp only [true_and]

private theorem Loading.growLoop (b : Loading ram roots code tf tbl s₀ s) (user : UserPerm perm)
    (page : va % pgsize = 0) (word : va < 2 ^ 64) (stop fuel : ℕ) :
    Returns (growLoop tbl perm stop fuel va) s fun _ s' => Loading ram roots code tf tbl s₀ s' := by
  induction fuel generalizing s va with
  | zero => exact Returns.throw_iff.mpr trivial
  | succ fuel ih =>
    rw [LabKernel.growLoop]
    refine .ite (fun _ => ?_) fun _ => Returns.pure_iff.mpr b
    have first := b.freshPage user page word
    rw [Returns.bind_iff] at first ⊢
    refine first.mono fun a s₁ mapped => ?_
    rw [Returns.bind_iff]
    refine mapped.mono ?_
    rintro _ s₂ ⟨b, -⟩
    refine ih b ?_ (Nat.mod_lt _ (by decide))
    rw [wrap64, pgsize_eq] at *
    omega

private theorem segmentPerm_user (flags : U32) : UserPerm (segmentPerm flags) := by
  unfold segmentPerm
  split <;> split <;> exact ⟨by decide, by decide⟩

theorem Loading.uvmAlloc (b : Loading ram roots code tf tbl s₀ s) (user : UserPerm perm) {start stop : ℕ}
    (word : start < 2 ^ 64) :
    Returns (uvmAlloc tbl start stop perm) s fun _ s' => Loading ram roots code tf tbl s₀ s' :=
  b.growLoop user (Nat.mul_mod_left ..) (Nat.lt_of_le_of_lt (Nat.div_mul_le_self ..) word) _ _

/-- `vm_getpte` without allocation finds entries of the tree. -/
theorem vmGetpte_leaf (nonzero : tbl ≠ 0) (va : ℕ) : Returns (vmGetpte tbl va false) s fun r s' =>
    s' = s ∧ ∀ t i, r = some (t, i) → s.pte t i = s.leaf tbl (va / pgsize) := by
  rcases Nat.lt_or_ge va vaMax with low | high
  · intro r s' result
    rw [vmGetpte_read low, Machine.rootFor, if_neg nonzero] at result
    cases result
    refine ⟨rfl, fun t i found => ?_⟩
    obtain ⟨t', found', same⟩ := Option.map_eq_some_iff.mp found
    cases same
    exact leaf_of_table low found'
  · rw [vmGetpte, Returns.bind_iff, Returns.get_iff, if_pos high, Returns.pure_iff]
    exact ⟨rfl, (by simp)⟩

private theorem Loading.copyoutLoop (b : Loading ram roots code tf tbl s₀ s) (dst : ℕ) (src : Bytes)
    (len fuel copied : ℕ) : Returns (copyoutLoop tbl dst src len fuel copied) s fun _ s' =>
      Loading ram roots code tf tbl s₀ s' := by
  induction fuel generalizing s copied with
  | zero => exact Returns.throw_iff.mpr trivial
  | succ fuel ih =>
    rw [LabKernel.copyoutLoop]
    refine .ite (fun _ => ?_) fun _ => Returns.pure_iff.mpr b
    rw [Returns.bind_iff]
    refine (vmGetpte_leaf b.nonzero _).mono ?_
    rintro (_ | ⟨t, i⟩) _ ⟨rfl, leaf⟩
    · exact Returns.throw_iff.mpr trivial
    · simp only [Returns.bind_iff, Returns.get_iff, leaf t i rfl]
      refine .ite (fun _ => by simp) fun good => ?_
      simp only [Returns.bind_iff, Returns.modify_iff]
      have valid := not_not.mp fun bad => good (.inl bad)
      exact ih (b.store valid _) _

private theorem Loading.uvmCopyout (b : Loading ram roots code tf tbl s₀ s) (dst : ℕ) (src : Bytes) (len : ℕ) :
    Returns (uvmCopyout tbl dst src len) s fun _ s' => Loading ram roots code tf tbl s₀ s' :=
  b.copyoutLoop dst src len _ 0

/-! ## The stack -/

/-- The address of the `argv` array below the strings that are pushed -/
def argvAddress (top : ℕ) (args : List (List U8)) : ℕ :=
  pushDown (args.foldl (fun sp text => pushDown sp (text.length + 1)) top) (8 * (args.length + 1))

private theorem Loading.pushStrings (b : Loading ram roots code tf tbl s₀ s) (base : ℕ) {argv : List U64}
    (args : ∀ a ∈ argv, ram.UserFrame a ∧ a ∉ s₀.userPool) (argc sp : ℕ) (stack : List ℕ) :
    Returns (pushStrings tbl base argv argc sp stack) s fun r s' => Loading ram roots code tf tbl s₀ s' ∧
      ∀ sp' stack', r = some (sp', stack') → stack'.length = stack.length + argv.length ∧
        sp' = (argv.map fun a => cstring pgsize (s₀.pages a)).foldl
          (fun sp text => pushDown sp (text.length + 1)) sp := by
  induction argv generalizing s argc sp stack with
  | nil =>
    rw [LabKernel.pushStrings]
    refine .ite (fun _ => by simp) fun _ => Returns.pure_iff.mpr ⟨b, ?_⟩
    rintro _ _ ⟨⟩
    exact ⟨rfl, rfl⟩
  | cons arg rest ih =>
    rw [LabKernel.pushStrings]
    refine .ite (fun _ => Returns.pure_iff.mpr ⟨b, nofun⟩) fun _ => ?_
    obtain ⟨frame, busy⟩ := args arg List.mem_cons_self
    rw [Returns.bind_iff, Returns.get_iff, b.builds.page arg frame busy]
    refine .ite (fun _ => Returns.pure_iff.mpr ⟨b, nofun⟩) fun _ => ?_
    rw [Returns.bind_iff]
    refine (b.uvmCopyout _ _ _).mono fun _ s₁ b₁ => ?_
    refine (ih b₁ (fun a within => args a (List.mem_cons_of_mem arg within)) _ _ _).mono ?_
    rintro r s' ⟨b', result⟩
    refine ⟨b', fun sp' stack' found => ?_⟩
    obtain ⟨lengths, same⟩ := result sp' stack' found
    constructor
    · rw [lengths, List.length_append, List.length_singleton, List.length_cons]
      omega
    · rw [List.map_cons, List.foldl_cons]
      exact same

/-- The value of `prepare_stack` is the address of the array. -/
theorem Loading.prepareStack (b : Loading ram roots code tf tbl s₀ s) (top : ℕ) {argv : List U64}
    (args : ∀ a ∈ argv, ram.UserFrame a ∧ a ∉ s₀.userPool) :
    Returns (prepareStack tbl top argv) s fun sp s' => Loading ram roots code tf tbl s₀ s' ∧
      (sp ≠ 0 → sp = argvAddress top (argv.map fun a => cstring pgsize (s₀.pages a))) := by
  rw [LabKernel.prepareStack, Returns.bind_iff]
  refine (b.pushStrings _ args 0 top []).mono ?_
  rintro (_ | ⟨sp, stack⟩) s₁ ⟨b₁, result⟩
  · exact Returns.pure_iff.mpr ⟨b₁, fun nonzero => absurd rfl nonzero⟩
  · obtain ⟨lengths, same⟩ := result sp stack rfl
    rw [List.length_nil, Nat.zero_add] at lengths
    refine .ite (fun _ => Returns.pure_iff.mpr ⟨b₁, fun nonzero => absurd rfl nonzero⟩) fun _ => ?_
    rw [Returns.bind_iff]
    refine (b₁.uvmCopyout _ _ _).mono fun _ s₂ b₂ => Returns.pure_iff.mpr ⟨b₂, fun _ => ?_⟩
    rw [argvAddress, ← same, List.length_map, lengths]

/-! ## Both parts of the kernel -/

section

variable {α : Type} {k : Kernel} {Q : α → Kernel → Prop} {cfg : FsConfig}

@[simp] theorem returns_onMem {x : MemM α} :
    Returns (onMem x) k Q ↔ Returns x k.mem fun r m => Q r { k with mem := m } := by
  constructor
  · intro returns r m result
    refine returns r _ ?_
    rw [onMem, result]
  · intro returns r k' result
    rw [onMem] at result
    cases first : x k.mem with
    | ok r' m =>
      rw [first] at result
      cases result
      exact returns r m first
    | error e m =>
      rw [first] at result
      cases result

@[simp] theorem returns_onFs {x : FsM α} :
    Returns (onFs x) k Q ↔ Returns x k.fs fun r fs => Q r { k with fs := fs } := by
  constructor
  · intro returns r fs result
    refine returns r _ ?_
    rw [onFs, result]
  · intro returns r k' result
    rw [onFs] at result
    cases first : x k.fs with
    | ok r' fs =>
      rw [first] at result
      cases result
      exact returns r fs first
    | error e fs =>
      rw [first] at result
      cases result

theorem onMem_ok {x : MemM α} {r : α} {m : Machine} (result : x k.mem = .ok r m) :
    onMem x k = .ok r { k with mem := m } := by rw [onMem, result]

theorem onFs_ok {x : FsM α} {r : α} {fs : FsState} (result : x k.fs = .ok r fs) :
    onFs x k = .ok r { k with fs := fs } := by rw [onFs, result]

/-- What an action on the file system leaves as it is -/
theorem returns_onFs_of {x : FsM α} (all : ∀ r fs, Q r { k with fs := fs }) : Returns (onFs x) k Q :=
  returns_onFs.mpr fun r fs _ => all r fs

end

variable {cfg : FsConfig} {k k' : Kernel} {ip : ℕ}

private theorem Loading.loadSegmentLoop (b : Loading ram roots code tf tbl s₀ k.mem) (va : ℕ) (offset : U32)
    (sz fuel i : ℕ) : Returns (loadSegmentLoop cfg tbl va ip offset sz fuel i) k fun _ k' =>
      Loading ram roots code tf tbl s₀ k'.mem := by
  induction fuel generalizing k i with
  | zero => exact Returns.throw_iff.mpr trivial
  | succ fuel ih =>
    rw [LabKernel.loadSegmentLoop]
    refine .ite (fun _ => ?_) fun _ => Returns.pure_iff.mpr b
    rw [Returns.bind_iff, returns_onMem]
    refine (vmGetpte_leaf b.nonzero _).mono ?_
    rintro (_ | ⟨t, j⟩) m ⟨rfl, leaf⟩
    · exact Returns.pure_iff.mpr b
    · simp only [Returns.bind_iff, Returns.get_iff, leaf t j rfl]
      refine .ite (fun _ => Returns.pure_iff.mpr b) fun valid => ?_
      simp only [Returns.bind_iff, Returns.get_iff]
      refine returns_onFs_of fun r fs => ?_
      rw [returns_onMem, Returns.modify_iff]
      have b' := b.store (not_not.mp valid) r.2
      exact .ite (fun _ => Returns.pure_iff.mpr b') fun _ => ih b' _

private theorem Loading.loadHeader (b : Loading ram roots code tf tbl s₀ k.mem) (off : U32) (sz : ℕ) :
    Returns (loadHeader cfg tbl ip off sz) k fun _ k' => Loading ram roots code tf tbl s₀ k'.mem := by
  rw [LabKernel.loadHeader, Returns.bind_iff]
  refine returns_onFs_of fun r fs => ?_
  refine .ite (fun _ => Returns.pure_iff.mpr b) fun _ => .ite (fun _ => Returns.pure_iff.mpr b) fun _ =>
    .ite (fun _ => Returns.pure_iff.mpr b) fun _ => .ite (fun _ => Returns.pure_iff.mpr b) fun _ => ?_
  rw [Returns.bind_iff, returns_onMem]
  refine (b.uvmAlloc (segmentPerm_user _) (Proghdr.decode r.2).vaddr.isLt).mono fun _ m b₁ => ?_
  rw [Returns.bind_iff]
  refine (Loading.loadSegmentLoop (k := { k with fs := fs, mem := m }) b₁ _ _ _ _ _).mono
    fun done k' b' => ?_
  exact .ite (fun _ => Returns.pure_iff.mpr b') fun _ => Returns.pure_iff.mpr b'

theorem Loading.loadHeaders (b : Loading ram roots code tf tbl s₀ k.mem) (count : ℕ) (off : U32) (sz : ℕ) :
    Returns (loadHeaders cfg tbl ip count off sz) k fun _ k' =>
      Loading ram roots code tf tbl s₀ k'.mem := by
  induction count generalizing k off sz with
  | zero => exact Returns.pure_iff.mpr b
  | succ count ih =>
    rw [LabKernel.loadHeaders, Returns.bind_iff]
    refine (b.loadHeader off sz).mono ?_
    rintro (_ | sz') k' b'
    · exact Returns.pure_iff.mpr b'
    · exact ih b' _ _

end LabKernel
