import LabKernel.Mem.Destroy
import LabKernel.Mem.Fork
import LabKernel.Mem.Heap
import LabKernel.Mem.UserPages

/-! # Tables that are read while others are freed

`pmem_free` chains a page into its pool through the first word of the page, where a table has its entry
0. Here `free_pagetable_recursive` runs with this write, on a state that remembers which pages were
freed, and a read of an entry from one of them is a failure. No such read happens: the tables and frames
below the entries of a table are apart from each other and from the table, which is freed last.
-/

namespace LabKernel

/-- Memory, and the pages that were freed since the begin of the run -/
structure Destroying where
  mem : Machine
  gone : List U64

abbrev DestroyM := EStateM Fault Destroying

/-- `pool->list_head.next` -/
def Machine.listHead (s : Machine) (inKernel : Bool) : U64 :=
  (if inKernel then s.kernelPool else s.userPool).headD 0

attribute [local instance] u64_lawfulBEq

/-- `tbl[i]` -/
def readEntry (tbl : U64) (i : ℕ) : DestroyM U64 := do
  let t ← get
  if tbl ∈ t.gone then throw .wildPointer
  return t.mem.pte tbl i

/-- `pmem_free`, with the link in the first word -/
def pmemFreeLinked (ram : Ram) (page : U64) (inKernel : Bool) : DestroyM Unit := fun t =>
  match pmemFree ram page inKernel t.mem with
  | .ok _ m => .ok () ⟨m.setPte page 0 (t.mem.listHead inKernel), page :: t.gone⟩
  | .error e m => .error e ⟨m, t.gone⟩

/-- A loop over the valid entries of a table, from an entry on. -/
def forEntriesLinked (tbl : U64) (act : U64 → DestroyM Unit) : (n i : ℕ) → DestroyM Unit
  | 0, _ => return ()
  | n + 1, i => do
    let pte ← readEntry tbl i
    if PteHas pte pteV then act pte
    forEntriesLinked tbl act n (i + 1)

/-- `free_pagetable_recursive` -/
def freePagetableLinked (ram : Ram) : (level : ℕ) → (tbl : U64) → DestroyM Unit
  | 0, tbl => do
    forEntriesLinked tbl
      (fun pte => do if PteHas pte pteU then pmemFreeLinked ram (pteToPa pte) false) 512 0
    pmemFreeLinked ram tbl true
  | level + 1, tbl => do
    forEntriesLinked tbl (fun pte => freePagetableLinked ram level (pteToPa pte)) 512 0
    pmemFreeLinked ram tbl true

/-- `uvm_destroy_pgtbl` -/
def uvmDestroyPgtblLinked (ram : Ram) (tbl : U64) : DestroyM Unit := freePagetableLinked ram 2 tbl

/-! ## What a run of frees changes -/

/-- Tables and frames went to their pools, the last ones in front; of their pages only the first words
changed, and nothing else did. -/
structure FreedPages (tables frames : List U64) (t t' : Destroying) : Prop where
  kernelPool : t'.mem.kernelPool = tables ++ t.mem.kernelPool
  userPool : t'.mem.userPool = frames ++ t.mem.userPool
  gone : ∀ a, a ∈ t'.gone ↔ a ∈ tables ∨ a ∈ frames ∨ a ∈ t.gone
  pages : ∀ a ∉ tables, a ∉ frames → t'.mem.pages a = t.mem.pages a
  tail : ∀ a i, 8 ≤ i → t'.mem.pages a i = t.mem.pages a i
  freeRegions : t'.mem.freeRegions = t.mem.freeRegions
  kernPagetable : t'.mem.kernPagetable = t.mem.kernPagetable
  proc : t'.mem.proc = t.mem.proc

variable {ram : Ram} {roots : Set U64} {s : Machine} {root tbl a : U64} {t t' t'' : Destroying}
  {tables tables' frames frames' : List U64}

namespace FreedPages

private theorem refl (t : Destroying) : FreedPages [] [] t t :=
  ⟨rfl, rfl, fun a => by simp only [List.not_mem_nil, false_or], fun _ _ _ => rfl, fun _ _ _ => rfl,
    rfl, rfl, rfl⟩

private theorem trans (first : FreedPages tables frames t t') (second : FreedPages tables' frames' t' t'') :
    FreedPages (tables' ++ tables) (frames' ++ frames) t t'' where
  kernelPool := by rw [second.kernelPool, first.kernelPool, List.append_assoc]
  userPool := by rw [second.userPool, first.userPool, List.append_assoc]
  gone a := by
    rw [second.gone, first.gone, List.mem_append, List.mem_append]
    tauto
  pages a table frame := by
    rw [List.mem_append, not_or] at table frame
    rw [second.pages a table.1 frame.1, first.pages a table.2 frame.2]
  tail a i behind := by rw [second.tail a i behind, first.tail a i behind]
  freeRegions := second.freeRegions.trans first.freeRegions
  kernPagetable := second.kernPagetable.trans first.kernPagetable
  proc := second.proc.trans first.proc

end FreedPages

/-- The pages hold what they held in `s` and were not freed. -/
def Intact (s : Machine) (t : Destroying) (as : List U64) : Prop :=
  ∀ a ∈ as, t.mem.pages a = s.pages a ∧ a ∉ t.gone

private theorem Intact.mono {as bs : List U64} (intact : Intact s t as) (subset : bs ⊆ as) : Intact s t bs :=
  fun a member => intact a (subset member)

/-- Frees of other pages leave them intact. -/
theorem Intact.freed {as : List U64} (intact : Intact s t as) (freed : FreedPages tables frames t t')
    (apart : ∀ a ∈ as, a ∉ tables ∧ a ∉ frames) : Intact s t' as := by
  intro a member
  obtain ⟨table, frame⟩ := apart a member
  obtain ⟨page, gone⟩ := intact a member
  refine ⟨(freed.pages a table frame).trans page, fun now => ?_⟩
  rcases (freed.gone a).mp now with now | now | now
  · exact table now
  · exact frame now
  · exact gone now

/-- The link changes the first word of the page. -/
theorem Machine.setPte_tail (s : Machine) (a e b : U64) {i : ℕ} (behind : 8 ≤ i) :
    (s.setPte a 0 e).pages b i = s.pages b i := by
  by_cases here : b = a
  · rw [here, setPte, setPage_same]
    exact Bytes.blit_outside (by omega)
  · rw [setPte, setPage_other _ here]

private theorem pmemFreeLinked_kernel (frame : ram.KernelFrame a) :
    Yields (pmemFreeLinked ram a true) t fun _ => FreedPages [a] [] t := by
  have free := @pmemFree_kernel ram t.mem a
  simp only [Frees, Ends] at free
  simp only [Ends, pmemFreeLinked]
  cases result : pmemFree ram a true t.mem with
  | error e m =>
    rw [result] at free
    rcases free with ⟨b, member, bad⟩ | ⟨b, member, bad⟩
    · exact bad (List.mem_singleton.mp member ▸ frame)
    · cases member
  | ok _ m =>
    rw [result] at free
    subst free
    refine ⟨rfl, rfl, fun b => ?_, fun b other _ => ?_, fun b i behind => ?_, rfl, rfl, rfl⟩
    · simp only [List.mem_cons, List.not_mem_nil, or_false, false_or]
    · exact Machine.setPage_other _ (List.ne_of_not_mem_cons other)
    · exact Machine.setPte_tail _ a _ b behind

private theorem pmemFreeLinked_user (frame : ram.UserFrame a) :
    Yields (pmemFreeLinked ram a false) t fun _ => FreedPages [] [a] t := by
  have free := @pmemFree_user ram t.mem a
  simp only [Frees, Ends] at free
  simp only [Ends, pmemFreeLinked]
  cases result : pmemFree ram a false t.mem with
  | error e m =>
    rw [result] at free
    rcases free with ⟨b, member, bad⟩ | ⟨b, member, bad⟩
    · cases member
    · exact bad (List.mem_singleton.mp member ▸ frame)
  | ok _ m =>
    rw [result] at free
    subst free
    refine ⟨rfl, rfl, fun b => ?_, fun b _ other => ?_, fun b i behind => ?_, rfl, rfl, rfl⟩
    · simp only [List.mem_cons, List.not_mem_nil, or_false, false_or]
    · exact Machine.setPage_other _ (List.ne_of_not_mem_cons other)
    · exact Machine.setPte_tail _ a _ b behind

/-- An entry of an intact table reads as in `s`. -/
theorem readEntry_intact (intact : Intact s t [tbl]) (i : ℕ) :
    readEntry tbl i t = .ok (s.pte tbl i) t := by
  obtain ⟨page, here⟩ := intact tbl (List.mem_singleton_self tbl)
  have entry : t.mem.pte tbl i = s.pte tbl i := by simp only [Machine.pte, page]
  simp only [readEntry, bind, EStateM.bind, get, getThe, MonadStateOf.get, EStateM.get, if_neg here]
  rw [← entry]
  rfl

open Machine

/-! ## The recursion -/

/-- Tables without repetition and frames, each a page of its own pool -/
structure Parts (ram : Ram) (tables frames : List U64) : Prop where
  nodup : tables.Nodup
  kernel : ∀ a ∈ tables, ram.KernelFrame a
  user : ∀ a ∈ frames, ram.UserFrame a

namespace Parts

private theorem left (parts : Parts ram (tables' ++ tables) (frames' ++ frames)) :
    Parts ram tables' frames' :=
  ⟨(List.nodup_append.mp parts.nodup).1, fun a member => parts.kernel a (List.mem_append_left _ member),
    fun a member => parts.user a (List.mem_append_left _ member)⟩

private theorem right (parts : Parts ram (tables' ++ tables) (frames' ++ frames)) : Parts ram tables frames :=
  ⟨(List.nodup_append.mp parts.nodup).2.1,
    fun a member => parts.kernel a (List.mem_append_right _ member),
    fun a member => parts.user a (List.mem_append_right _ member)⟩

/-- What is freed last is apart from what was freed before. -/
theorem apart (parts : Parts ram (tables' ++ tables) (frames' ++ frames)) :
    ∀ a ∈ tables', a ∉ tables ∧ a ∉ frames := by
  intro a member
  refine ⟨fun again => (List.nodup_append.mp parts.nodup).2.2 a member a again rfl, fun again => ?_⟩
  exact (parts.kernel a (List.mem_append_left _ member)).not_user
    (parts.user a (List.mem_append_right _ again))

end Parts

/-- The loop over a table that stays in use, where each entry has its own part of what is freed. -/
theorem forEntriesLinked_frees {act : U64 → DestroyM Unit} {f g : U64 → List U64}
    (each : ∀ e t, Parts ram (f e) (g e) → Intact s t (f e) →
      Yields (act e) t fun _ => FreedPages (f e) (g e) t) (n i : ℕ)
    (parts : Parts ram (tbl :: s.listed tbl f n i) (s.listed tbl g n i))
    (intact : Intact s t (tbl :: s.listed tbl f n i)) :
    Yields (forEntriesLinked tbl act n i) t fun _ =>
      FreedPages (s.listed tbl f n i) (s.listed tbl g n i) t := by
  induction n generalizing t i with
  | zero => exact FreedPages.refl t
  | succ n ih =>
    rw [listed_succ] at intact
    rw [listed_succ, listed_succ] at parts
    rw [listed_succ, listed_succ, forEntriesLinked]
    have table : Intact s t [tbl] := intact.mono (by simp)
    refine Ends.bind_of_ok (readEntry_intact table i) ?_
    by_cases valid : PteHas (s.pte tbl i) pteV
    · simp only [if_pos valid] at intact parts ⊢
      rw [← List.cons_append] at parts
      refine Ends.bind_iff.mpr ?_
      refine (each _ t parts.right (intact.mono (by simp))).mono ?_
      rintro _ t' freed
      have rest : Intact s t' (tbl :: s.listed tbl f n (i + 1)) :=
        (intact.mono (by simp)).freed freed parts.apart
      exact (ih (i + 1) parts.left rest).mono fun _ t'' freed' => freed.trans freed'
    · simp only [if_neg valid, List.append_nil] at intact parts ⊢
      exact ih (i + 1) parts intact

/-- `free_pagetable_recursive` never reads a table that it freed, and frees what the tree held when it
began. -/
theorem freePagetableLinked_frees (level : ℕ) (tbl : U64) (t : Destroying)
    (parts : Parts ram (s.heldTables level tbl) (s.heldFrames level tbl))
    (intact : Intact s t (s.heldTables level tbl)) :
    Yields (freePagetableLinked ram level tbl) t fun _ =>
      FreedPages (s.heldTables level tbl) (s.heldFrames level tbl) t := by
  induction level generalizing tbl t with
  | zero =>
    rw [freePagetableLinked]
    have none : s.listed tbl (fun _ => []) 512 0 = [] :=
      List.eq_nil_iff_forall_not_mem.mpr fun a member => by
        obtain ⟨_, _, _, none⟩ := mem_listed.mp member
        cases none
    have tables : s.heldTables 0 tbl = [tbl] := rfl
    have frames : s.heldFrames 0 tbl =
      s.listed tbl (fun pte => if PteHas pte pteU then [pteToPa pte] else []) 512 0 := rfl
    rw [tables] at parts intact ⊢
    rw [frames] at parts ⊢
    have loop : Yields (forEntriesLinked tbl
        (fun pte => do if PteHas pte pteU then pmemFreeLinked ram (pteToPa pte) false) 512 0) t
        fun _ => FreedPages (s.listed tbl (fun _ => []) 512 0)
          (s.listed tbl (fun pte => if PteHas pte pteU then [pteToPa pte] else []) 512 0) t := by
      refine forEntriesLinked_frees (fun e t parts _ => ?_) 512 0 (by rwa [none]) (by rwa [none])
      by_cases user : PteHas e pteU
      · rw [if_pos user] at parts ⊢
        rw [if_pos user]
        exact pmemFreeLinked_user (parts.user _ (List.mem_singleton_self _))
      · rw [if_neg user, if_neg user]
        exact FreedPages.refl t
    rw [none] at loop
    refine Ends.bind_iff.mpr (loop.mono fun _ t' freed => ?_)
    refine (pmemFreeLinked_kernel (parts.kernel tbl List.mem_cons_self)).mono fun _ t'' last => ?_
    have both := freed.trans last
    rwa [List.append_nil, List.nil_append] at both
  | succ level ih =>
    rw [freePagetableLinked]
    have tables : s.heldTables (level + 1) tbl =
      tbl :: s.listed tbl (fun pte => s.heldTables level (pteToPa pte)) 512 0 := rfl
    have frames : s.heldFrames (level + 1) tbl =
      s.listed tbl (fun pte => s.heldFrames level (pteToPa pte)) 512 0 := rfl
    rw [tables] at parts intact ⊢
    rw [frames] at parts ⊢
    have loop := forEntriesLinked_frees (fun e t => ih (pteToPa e) t) 512 0 parts intact
    refine Ends.bind_iff.mpr (loop.mono fun _ t' freed => ?_)
    refine (pmemFreeLinked_kernel (parts.kernel tbl List.mem_cons_self)).mono fun _ t'' last => ?_
    have both := freed.trans last
    rwa [List.singleton_append, List.nil_append] at both

/-! ## A user's tree -/

/-- The page table of a process: tables of the kernel's pool, a frame of the user's pool for each page
that user mode reaches, and the two trap pages, which it does not reach. The code of the trampoline is
part of the kernel, and the trap frame is a page of the kernel's pool that holds no table. -/
structure UserTable (ram : Ram) (roots : Set U64) (root code tf : U64) (s : Machine) : Prop where
  tables : s.Tables ram roots
  live : root ∈ roots
  once : ∀ v v' a, UserLeaf s root v a → UserLeaf s root v' a → v = v'
  frames : ∀ v a, UserLeaf s root v a → ram.UserFrame a
  trampolineLeaf : PteHas (s.leaf root (trampoline / pgsize)) pteV ∧
    ¬PteHas (s.leaf root (trampoline / pgsize)) pteU ∧
    pteToPa (s.leaf root (trampoline / pgsize)) = code
  trapframeLeaf : PteHas (s.leaf root (trapframe / pgsize)) pteV ∧
    ¬PteHas (s.leaf root (trapframe / pgsize)) pteU ∧ pteToPa (s.leaf root (trapframe / pgsize)) = tf
  codePage : ¬ram.KernelFrame code ∧ ¬ram.UserFrame code
  tfPage : ram.KernelFrame tf ∧ ∀ q, s.tableAt root q ≠ some tf

/-- `uvm_destroy_pgtbl` returns every table once to the kernel's pool and every frame of the user's pages
once to the user's, frees nothing else, not the trampoline's code and not the trap frame, leaves the
other pages alone, and reads no entry from a page that it freed. -/
theorem uvmDestroyPgtblLinked_exact {code tf : U64} (user : UserTable ram roots root code tf s) :
    Yields (uvmDestroyPgtblLinked ram root) ⟨s, []⟩ fun _ t => ∃ ts fs, FreedPages ts fs ⟨s, []⟩ t ∧
      ts.Nodup ∧ fs.Nodup ∧ (∀ a, a ∈ ts ↔ ∃ q, s.tableAt root q = some a) ∧
      (∀ a, a ∈ fs ↔ ∃ v, UserLeaf s root v a) ∧ code ∉ t.gone ∧ tf ∉ t.gone := by
  have top : s.tableAt root none = some root := rfl
  have ts (a : U64) := @mem_heldTables ram roots s root a user.tables user.live
  have fs (a : U64) := @mem_heldFrames ram roots s root a user.tables user.live
  have kernel (a : U64) (member : a ∈ s.heldTables 2 root) : ram.KernelFrame a := by
    obtain ⟨q, found⟩ := (ts a).mp member
    exact user.tables.frame root user.live q a found
  have users (a : U64) (member : a ∈ s.heldFrames 2 root) : ram.UserFrame a := by
    obtain ⟨v, leaf⟩ := (fs a).mp member
    exact user.frames v a leaf
  have place : (tablePath none).length + 2 = 2 := rfl
  have nodup : (s.heldTables 2 root).Nodup := heldTables_nodup user.tables user.live top place
  have nodup' : (s.heldFrames 2 root).Nodup := heldFrames_nodup user.tables user.live user.once top place
  refine (freePagetableLinked_frees 2 root ⟨s, []⟩ ⟨nodup, kernel, users⟩ fun a _ =>
    ⟨rfl, List.not_mem_nil⟩).mono fun _ t freed => ?_
  refine ⟨_, _, freed, nodup, nodup', ts, fs, fun gone => ?_, fun gone => ?_⟩
  · rcases (freed.gone code).mp gone with table | frame | begin
    · exact user.codePage.1 (kernel code table)
    · exact user.codePage.2 (users code frame)
    · cases begin
  · rcases (freed.gone tf).mp gone with table | frame | begin
    · obtain ⟨q, found⟩ := (ts tf).mp table
      exact user.tfPage.2 q found
    · exact user.tfPage.1.not_user (users tf frame)
    · cases begin

/-! ## How such a tree comes about -/

/-- `proc_pgtbl_init` builds such a tree, without a page of the user. -/
theorem Initialised.userTable {code tf : U64} {s' : Machine}
    (init : Initialised ram roots code tf s root s') (codePage : ¬ram.KernelFrame code ∧ ¬ram.UserFrame code)
    (trap : ram.KernelFrame tf) (apart : tf ∉ s.kernelUse roots) :
    UserTable ram (insert root roots) root code tf s' := by
  have live : root ∈ insert root roots := Set.mem_insert ..
  have leaf (v : ℕ) : s'.leaf root v =
      if v = trapframe / pgsize then paToPte tf ||| permFlags permRW
      else if v = trampoline / pgsize then paToPte code ||| permFlags permRX else 0 := by
    rw [init.leaf live]
    simp only [true_and, show (s.view ram roots).leaf root v = 0 from if_neg init.fresh]
  have kernel (v : ℕ) : ¬PteHas (s'.leaf root v) pteU := by
    rw [leaf]
    split_ifs
    · rw [pteHas_paToPte_or _ _ (by decide)]
      decide
    · rw [pteHas_paToPte_or _ _ (by decide)]
      decide
    · exact not_pteHas_zero pteU
  refine ⟨init.shows.tables, live, fun v v' a found => absurd found.user (kernel v),
    fun v a found => absurd found.user (kernel v), ⟨?_, kernel _, ?_⟩, ⟨?_, kernel _, ?_⟩, codePage, trap,
    fun q found => ?_⟩
  · rw [leaf, if_neg (by decide), if_pos rfl]
    exact permFlags_valid code permRX
  · rw [leaf, if_neg (by decide), if_pos rfl]
    exact pteToPa_paToPte init.whole (by decide)
  · rw [leaf, if_pos rfl]
    exact permFlags_valid tf permRW
  · rw [leaf, if_pos rfl]
    exact pteToPa_paToPte trap.aligned (by decide)
  · exact apart (init.use ▸ Or.inr ⟨root, live, q, found⟩)

/-- A page of the user that is mapped to a frame of its own -/
theorem UserTable.map {code tf a : U64} {v : ℕ} {perm : U32} {s' : Machine}
    (user : UserTable ram roots root code tf s)
    (shows : Shows ram roots s ((s.view ram roots).setLeaf root v (paToPte a ||| permFlags perm)) s')
    (use : s'.kernelUse roots = s.kernelUse roots) (apart : tf ∉ s.kernelUse roots)
    (below : v < trapframe / pgsize) (low : (permFlags perm).toNat < 1024) (frame : ram.UserFrame a)
    (new : ∀ v', ¬UserLeaf s root v' a) : UserTable ram roots root code tf s' := by
  have leaf (v' : ℕ) : s'.leaf root v' =
      if v' = v then paToPte a ||| permFlags perm else s.leaf root v' := by
    rw [shows.leaf user.live]
    simp only [View.setLeaf, true_and, view_leaf user.live]
  have kept {v' : ℕ} (other : v' ≠ v) : s'.leaf root v' = s.leaf root v' := by
    rw [leaf, if_neg other]
  have found {v' : ℕ} {b : U64} (here : UserLeaf s' root v' b) :
      v' = v ∧ b = a ∨ v' ≠ v ∧ UserLeaf s root v' b := by
    obtain ⟨valid, reach, at_b⟩ := here
    by_cases same : v' = v
    · rw [leaf, if_pos same, pteToPa_paToPte frame.aligned low] at at_b
      exact Or.inl ⟨same, at_b.symm⟩
    · rw [kept same] at valid reach at_b
      exact Or.inr ⟨same, valid, reach, at_b⟩
  have trapBelow : trapframe / pgsize < trampoline / pgsize := by decide
  have high : s'.leaf root (trampoline / pgsize) = s.leaf root (trampoline / pgsize) := kept (by omega)
  have trap : s'.leaf root (trapframe / pgsize) = s.leaf root (trapframe / pgsize) := kept (by omega)
  refine ⟨shows.tables, user.live, fun v₁ v₂ b first second => ?_, fun v' b here => ?_,
    by rw [high]; exact user.trampolineLeaf, by rw [trap]; exact user.trapframeLeaf, user.codePage,
    user.tfPage.1,
    fun q at_tf => apart (use ▸ Or.inr ⟨root, user.live, q, at_tf⟩)⟩
  · rcases found first with ⟨rfl, rfl⟩ | ⟨other, first⟩ <;>
      rcases found second with ⟨rfl, same⟩ | ⟨other', second⟩
    · rfl
    · exact absurd second (new _)
    · exact absurd (same ▸ first) (new _)
    · exact user.once v₁ v₂ b first second
  · rcases found here with ⟨-, rfl⟩ | ⟨-, here⟩
    · exact frame
    · exact user.frames v' b here

/-- The two steps one after the other -/
theorem userTable_of_runs {code tf a : U64} {va : ℕ} {perm : U32} {s₁ s₂ : Machine}
    (tables : s.Tables ram roots) (sane : ram.Sane) (codePage : ¬ram.KernelFrame code ∧ ¬ram.UserFrame code)
    (trap : ram.KernelFrame tf) (apart : tf ∉ s.kernelUse roots)
    (inits : procPgtblInit code tf s = .ok root s₁) (maps : vmMappages root va a pgsize perm s₁ = .ok () s₂)
    (page : va % pgsize = 0) (below : va < trapframe) (low : (permFlags perm).toNat < 1024)
    (frame : ram.UserFrame a) :
    UserTable ram (insert root roots) root code tf s₂ ∧
      s₂.leaf root (va / pgsize) = paToPte a ||| permFlags perm := by
  have init := (procPgtblInit_shows tables sane trap.aligned).returns _ _ inits
  have user := init.userTable codePage trap apart
  have self : s₁.rootFor root = root := if_neg (sane.kernelFrame_ne_zero init.frame)
  have within : va + pgsize ≤ vaMax := by
    simp only [trapframe_eq, pgsize_eq, vaMax_eq] at *
    omega
  have shows := (vmMappages_page user.tables (by rw [self]; exact user.live) page frame.aligned within).returns
    _ _ maps
  have attaches := vmMappages_attaches user.tables (by rw [self]; exact user.live) page within _ _ maps
  rw [self] at shows attaches
  refine ⟨user.map shows attaches.use (init.use ▸ apart) ?_ low frame fun v' found => ?_, ?_⟩
  · simp only [trapframe_eq, pgsize_eq] at *
    omega
  · have reach := found.user
    rw [init.leaf user.live] at reach
    simp only [true_and, show (s.view ram roots).leaf root v' = 0 from if_neg init.fresh] at reach
    split_ifs at reach
    · rw [pteHas_paToPte_or _ _ (by decide)] at reach
      exact absurd reach (by decide)
    · rw [pteHas_paToPte_or _ _ (by decide)] at reach
      exact absurd reach (by decide)
    · exact absurd reach (not_pteHas_zero pteU)
  · rw [shows.leaf user.live]
    exact if_pos ⟨rfl, rfl⟩

/-- Free pages, and a page for a trap frame that is in use -/
def trapMachine : Machine where
  pages _ _ := 0
  kernelPool := [0x80201000, 0x80202000, 0x80203000, 0x80204000, 0x80205000]
  userPool := [0x87001000]
  freeRegions := []
  kernPagetable := 0x80200000
  proc _ := none

theorem trapMachine_tables : trapMachine.Tables ⟨0x80200000⟩ ∅ := by
  refine ⟨List.forall_mem_singleton.mpr (by decide +kernel), ?_, by decide +kernel,
    fun r live => absurd live (Set.notMem_empty r), fun r live => absurd live (Set.notMem_empty r),
    fun r live => absurd live (Set.notMem_empty r), fun r live => absurd live (Set.notMem_empty r)⟩
  intro a member
  simp only [trapMachine, List.mem_cons, List.not_mem_nil, or_false] at member
  rcases member with rfl | rfl | rfl | rfl | rfl <;> decide +kernel

/-- The tree of a process with one page of memory is given up: five tables and one frame. -/
theorem uvmDestroyPgtblLinked_exact_five : ∃ s s' t, vmMappages 0x80201000 0x1000 0x87000000 pgsize 0x1e s =
      .ok () s' ∧ uvmDestroyPgtblLinked ⟨0x80200000⟩ 0x80201000 ⟨s', []⟩ = .ok () t ∧
    ∃ ts fs, FreedPages ts fs ⟨s', []⟩ t ∧ ts.Nodup ∧ 0x80201000 ∈ ts ∧ 0x87000000 ∈ fs := by
  have returns : (match procPgtblInit 0x80001000 0x80208000 trapMachine with
      | .ok tbl s => decide (tbl = 0x80201000) && match vmMappages tbl 0x1000 0x87000000 pgsize 0x1e s with
        | .ok .. => true
        | .error .. => false
      | .error .. => false) = true := by decide +kernel
  cases inits : procPgtblInit 0x80001000 0x80208000 trapMachine with
  | error e s =>
    rw [inits] at returns
    cases returns
  | ok tbl s =>
    simp only [inits, Bool.and_eq_true, decide_eq_true_eq] at returns
    obtain ⟨rfl, returns⟩ := returns
    cases maps : vmMappages 0x80201000 0x1000 0x87000000 pgsize 0x1e s with
    | error e s' =>
      rw [maps] at returns
      cases returns
    | ok _ s' =>
      obtain ⟨user, leaf⟩ := userTable_of_runs trapMachine_tables ⟨by decide, by decide, by decide⟩
        ⟨by decide +kernel, by decide +kernel⟩ (by decide +kernel)
        (by rintro (free | ⟨r, none, _⟩); exacts [absurd free (by decide +kernel), none]) inits maps
        (by decide) (by decide) (by decide) (by decide +kernel)
      obtain ⟨_, t, run, ts, fs, freed, nodup, -, tables, frames, -⟩ :=
        (uvmDestroyPgtblLinked_exact user).result
      refine ⟨s, s', t, maps, run, ts, fs, freed, nodup, (tables _).mpr ⟨none, rfl⟩, (frames _).mpr ⟨1, ?_⟩⟩
      rw [show 0x1000 / pgsize = 1 by decide] at leaf
      exact ⟨leaf ▸ permFlags_valid _ _, by rw [leaf]; decide +kernel, by rw [leaf]; decide +kernel⟩

end LabKernel
