import LabKernel.Fs.Image
import LabKernel.Mem.Loading

/-! # The state a new program starts in

`proc_exec` writes the trap frame, and then the system call returns through `sys_exec` and `syscall`,
which writes `a0` again. The other registers arrive as `proc_exec` left them.
-/

namespace LabKernel

/-- The header that `proc_exec` reads of a file. -/
def execHeader (cfg : FsConfig) (p : ℕ) (path : Bytes) : FsM (Option Elfhdr) := do
  match ← Fs.pathToInode cfg p (cstring 128 path) with
  | none => return none
  | some ip =>
    Fs.sleeplockAcquire ip
    let r ← Fs.inodeReadData cfg ip 0 elfhdrSize fun _ => 0
    return some (Elfhdr.decode r.2)

/-- The trap frame of a process that is about to run a program from its begin, and `pc` -/
def EntryState (p : ℕ) (entry : U64) (args : List (List U8)) (pc : U64) (s : Machine) : Prop :=
  ∃ proc, s.proc p = some proc ∧ pc = entry ∧ (s.pages proc.tf).u64 tfEpc = entry ∧
    (s.pages proc.tf).u64 (tfArg 0) = BitVec.ofNat 64 args.length ∧
    (s.pages proc.tf).u64 (tfArg 1) = BitVec.ofNat 64 (argvAddress proc.heapTop args) ∧
    (s.pages proc.tf).u64 tfSp = BitVec.ofNat 64 (argvAddress proc.heapTop args)

/-- A process that runs in a sound memory -/
structure ExecReady (ram : Ram) (roots : Set U64) (code : U64) (p : ℕ) (proc : ProcMem) (s : Machine) :
    Prop where
  here : s.proc p = some proc
  tables : s.Tables ram roots
  nodup : s.userPool.Nodup
  trap : TrapPages ram roots code proc.tf s

/-- Memory after `proc_exec`: what it wrote is in the trap frame. -/
structure AtEntry (p : ℕ) (tf entry : U64) (args : List (List U8)) (s : Machine) : Prop where
  proc : ∃ proc, s.proc p = some proc ∧ proc.tf = tf ∧
    (s.pages tf).u64 (tfArg 1) = BitVec.ofNat 64 (argvAddress proc.heapTop args) ∧
    (s.pages tf).u64 tfSp = BitVec.ofNat 64 (argvAddress proc.heapTop args)
  epc : (s.pages tf).u64 tfEpc = entry

variable {ram : Ram} {roots : Set U64} {code tf tbl a entry : U64} {p : ℕ} {proc : ProcMem}
  {s₀ s s' : Machine} {cfg : FsConfig} {k k' k₂ : Kernel} {path : Bytes} {argv : List U64}
  {args : List (List U8)}

open Machine

private theorem modify_ok {σ : Type} (f : σ → σ) (t : σ) :
    (modify f : EStateM Fault σ PUnit) t = .ok ⟨⟩ (f t) := rfl

private theorem myproc_ok (here : s.proc p = some proc) : myproc p s = .ok proc s := by
  simp only [myproc, bind, EStateM.bind, get, getThe, MonadStateOf.get, EStateM.get, here]
  rfl

theorem tfField_ok (here : s.proc p = some proc) (off : ℕ) :
    tfField p off s = .ok ((s.pages proc.tf).u64 off) s := by
  simp only [tfField, bind, EStateM.bind, myproc_ok here]
  rfl

theorem setTfField_ok (here : s.proc p = some proc) (off : ℕ) (v : U64) :
    setTfField p off v s = .ok () (s.setPage proc.tf ((s.pages proc.tf).setU64 off v)) := by
  simp only [setTfField, bind, EStateM.bind, myproc_ok here]
  exact modify_ok _ s

/-- The trees have the same pages. -/
def SameLeaves (roots : Set U64) (s s' : Machine) : Prop := ∀ r ∈ roots, ∀ v, s'.leaf r v = s.leaf r v

private theorem SameLeaves.trans {s₁ s₂ s₃ : Machine} (first : SameLeaves roots s₁ s₂)
    (second : SameLeaves roots s₂ s₃) : SameLeaves roots s₁ s₃ :=
  fun r live v => (second r live v).trans (first r live v)

private theorem ExecReady.setTf_leaves (ready : ExecReady ram roots code p proc s) (page : Bytes) :
    SameLeaves roots s (s.setPage proc.tf page) := fun r live =>
  leaf_congr fun _ => setPage_entry page fun q found => ready.trap.tf_apart (.inr ⟨r, live, q, found⟩)

private theorem ExecReady.setUser_leaves (ready : ExecReady ram roots code p proc s) (user : ram.UserFrame a)
    (page : Bytes) : SameLeaves roots s (s.setPage a page) := fun _ live =>
  leaf_congr fun _ => setPage_entry page (ready.tables.user_apart user live)

/-- A write of the trap frame keeps the memory sound. -/
theorem ExecReady.setTf (ready : ExecReady ram roots code p proc s) (page : Bytes) :
    ExecReady ram roots code p proc (s.setPage proc.tf page) := by
  have entries {r : U64} (live : r ∈ roots) {q : Place} (depth : q.depth ≤ 2) :
      (s.setPage proc.tf page).entry r q = s.entry r q :=
    setPage_entry page (fun q found => ready.trap.tf_apart (.inr ⟨r, live, q, found⟩)) depth
  have use : (s.setPage proc.tf page).kernelUse roots = s.kernelUse roots :=
    kernelUse_congr rfl fun r live q => tableAt_of_entry fun _ => entries live
  refine ⟨ready.here, ?_, ready.nodup, ready.trap.code_user, ready.trap.code_kernel, ready.trap.tf_user, ?_,
    ready.trap.aligned⟩
  · exact ready.tables.congr ready.tables.userPool (List.Sublist.refl _) fun r live q => entries live
  · rw [use]
    exact ready.trap.tf_apart

/-! ## The arguments -/

private theorem copyinLoop_kept (table : U64) (src len fuel copied : ℕ) (dst : Bytes) :
    Returns (copyinLoop table src len fuel copied dst) s fun _ s' => s' = s := by
  induction fuel generalizing copied dst with
  | zero => exact Returns.throw_iff.mpr trivial
  | succ fuel ih =>
    rw [copyinLoop]
    refine .ite (fun _ => ?_) fun _ => Returns.pure_iff.mpr rfl
    rw [Returns.bind_iff]
    refine (vmGetpte_kept table _).mono ?_
    rintro (_ | ⟨t, i⟩) _ rfl
    · exact Returns.throw_iff.mpr trivial
    · rw [Returns.bind_iff, Returns.get_iff]
      exact .ite (fun _ => Returns.throw_iff.mpr trivial) fun _ => ih _ _

private theorem copyinStrLoop_kept (table : U64) (src maxlen fuel n : ℕ) (dst : Bytes) :
    Returns (copyinStrLoop table src maxlen fuel n dst) s fun _ s' => s' = s := by
  induction fuel generalizing n dst with
  | zero => exact Returns.throw_iff.mpr trivial
  | succ fuel ih =>
    rw [copyinStrLoop]
    refine .ite (fun _ => ?_) fun _ => Returns.pure_iff.mpr rfl
    rw [Returns.bind_iff]
    refine (vmGetpte_kept table _).mono ?_
    rintro (_ | ⟨t, i⟩) _ rfl
    · exact Returns.throw_iff.mpr trivial
    · rw [Returns.bind_iff, Returns.get_iff]
      exact .ite (fun _ => Returns.throw_iff.mpr trivial) fun _ =>
        .ite (fun _ => Returns.pure_iff.mpr rfl) fun _ => ih _ _

/-- Pages that hold arguments: user pages that are in use -/
def Held (ram : Ram) (argv : List U64) (s : Machine) : Prop :=
  ∀ a ∈ argv, ram.UserFrame a ∧ a ∉ s.userPool

/-- A page from the user's pool keeps the memory sound. -/
theorem ExecReady.takeUser (ready : ExecReady ram roots code p proc s) :
    Returns (pmemAlloc false) s fun a s' => ExecReady ram roots code p proc s' ∧ ram.UserFrame a ∧
      a ∉ s'.userPool ∧ s'.userPool <:+ s.userPool ∧ SameLeaves roots s s' := by
  refine ((pmemAlloc_ends ready.tables).returns.and (pmemAlloc_attaches 0 ready.tables)).mono ?_
  rintro a s' ⟨⟨rest, pool, user, taken⟩, attaches⟩
  have left : s'.userPool = rest := congrArg View.userPool taken.view
  have nodup := List.nodup_cons.mp (pool ▸ ready.nodup)
  refine ⟨⟨?_, taken.tables, left ▸ nodup.2, ready.trap.code_user, ready.trap.code_kernel,
    ready.trap.tf_user, ?_, ready.trap.aligned⟩, user, left ▸ nodup.1, ?_, fun r live v => ?_⟩
  · exact (congrFun (congrArg View.proc taken.view) p).trans ready.here
  · rw [attaches.use]
    exact ready.trap.tf_apart
  · rw [left, pool]
    exact List.suffix_cons a rest
  · have same := congrFun (congrFun (congrArg View.leaf taken.view) r) v
    rw [view_leaf live] at same
    exact same.trans (@view_leaf s ram roots r live v)

private theorem ExecReady.setUser (ready : ExecReady ram roots code p proc s) (user : ram.UserFrame a)
    (page : Bytes) : ExecReady ram roots code p proc (s.setPage a page) := by
  have entries {r : U64} (live : r ∈ roots) {q : Place} (depth : q.depth ≤ 2) :
      (s.setPage a page).entry r q = s.entry r q :=
    setPage_entry page (ready.tables.user_apart user live) depth
  have use : (s.setPage a page).kernelUse roots = s.kernelUse roots :=
    kernelUse_congr rfl fun r live q => tableAt_of_entry fun _ => entries live
  refine ⟨ready.here, ?_, ready.nodup, ready.trap.code_user, ready.trap.code_kernel, ready.trap.tf_user, ?_,
    ready.trap.aligned⟩
  · exact ready.tables.congr ready.tables.userPool (List.Sublist.refl _) fun r live q => entries live
  · rw [use]
    exact ready.trap.tf_apart

/-- The arguments that `sys_exec` copies are in pages of their own. -/
theorem readArgv_ready (ready : ExecReady ram roots code p proc s) (table : U64) (argvPtr n i : ℕ) :
    Returns (readArgv table argvPtr n i) s fun argv s' => ExecReady ram roots code p proc s' ∧
      Held ram argv s' ∧ s'.userPool <:+ s.userPool ∧ SameLeaves roots s s' := by
  have same {s : Machine} : SameLeaves roots s s := fun _ _ _ => rfl
  induction n generalizing s i with
  | zero => exact Returns.pure_iff.mpr ⟨ready, nofun, List.suffix_rfl, same⟩
  | succ n ih =>
    rw [readArgv, Returns.bind_iff]
    refine (copyinLoop_kept _ _ _ _ _ _).mono ?_
    rintro word _ rfl
    refine .ite (fun _ => Returns.pure_iff.mpr ⟨ready, nofun, List.suffix_rfl, same⟩) fun _ => ?_
    rw [Returns.bind_iff]
    refine ready.takeUser.mono ?_
    rintro a s₁ ⟨ready₁, user, busy, pool, leaves⟩
    rw [Returns.bind_iff, Returns.get_iff, Returns.bind_iff]
    refine (copyinStrLoop_kept _ _ _ _ _ _).mono ?_
    rintro text _ rfl
    rw [Returns.bind_iff, Returns.modify_iff, Returns.bind_iff]
    refine (ih (ready₁.setUser user text) _).mono ?_
    rintro rest s' ⟨ready', held, pool', leaves'⟩
    refine Returns.pure_iff.mpr ⟨ready', ?_, pool'.trans pool,
      (leaves.trans (ready₁.setUser_leaves user text)).trans leaves'⟩
    rintro b (_ | ⟨_, within⟩)
    · exact ⟨user, fun free => busy (pool'.subset free)⟩
    · exact held b within

private theorem execArgs_ready (ready : ExecReady ram roots code p proc s) (junk : Bytes) :
    Returns (execArgs p junk) s fun r s' => ExecReady ram roots code p proc s' ∧ Held ram r.2 s' ∧
      SameLeaves roots s s' := by
  rw [execArgs]
  refine .bind_of_ok (myproc_ok ready.here) (.bind_of_ok (tfField_ok ready.here _) ?_)
  rw [Returns.bind_iff]
  refine (copyinStrLoop_kept _ _ _ _ _ _).mono ?_
  rintro text _ rfl
  refine .bind_of_ok (tfField_ok ready.here _) ?_
  rw [Returns.bind_iff]
  refine (readArgv_ready ready _ _ _ _).mono ?_
  rintro argv s' ⟨ready', held, -, leaves⟩
  exact Returns.pure_iff.mpr ⟨ready', held, leaves⟩

/-! ## The steps that only free pages -/

/-- Contents and descriptors are kept. -/
structure SamePages (s s' : Machine) : Prop where
  pages : s'.pages = s.pages
  proc : s'.proc = s.proc

private theorem pmemFree_same (inKernel : Bool) : Returns (pmemFree ram a inKernel) s fun _ s' => SamePages s s' := by
  cases inKernel
  · refine (pmemFree_user a).returns.mono ?_
    rintro _ _ rfl
    exact ⟨rfl, rfl⟩
  · refine (pmemFree_kernel a).returns.mono ?_
    rintro _ _ rfl
    exact ⟨rfl, rfl⟩

private theorem uvmDestroyPgtbl_same : Returns (uvmDestroyPgtbl ram tbl) s fun _ s' => SamePages s s' := by
  refine (freePagetable_frees 2 tbl).returns.mono ?_
  rintro _ _ rfl
  exact ⟨rfl, rfl⟩

private theorem freeArgv_same : Returns (freeArgv ram argv) s fun _ s' => SamePages s s' := by
  induction argv generalizing s with
  | nil => exact Returns.pure_iff.mpr ⟨rfl, rfl⟩
  | cons a rest ih =>
    rw [freeArgv, Returns.bind_iff]
    refine (pmemFree_same false).mono fun _ s₁ first => ih.mono fun _ s' second => ?_
    exact ⟨second.pages.trans first.pages, second.proc.trans first.proc⟩

private theorem AtEntry.of_same (entered : AtEntry p tf entry args s) (same : SamePages s s') :
    AtEntry p tf entry args s' := by
  obtain ⟨⟨proc, here, trap, a1, sp⟩, epc⟩ := entered
  exact ⟨⟨proc, same.proc ▸ here, trap, same.pages ▸ a1, same.pages ▸ sp⟩, same.pages ▸ epc⟩

/-! ## `proc_exec` -/

private theorem execCommit_enters (here : k.mem.proc p = some proc) {top sp argc : ℕ}
    (address : sp = argvAddress top args) :
    Returns (execCommit ram p path tbl top sp entry argc) k fun r k' =>
      r = 0 ∧ AtEntry p proc.tf entry args k'.mem := by
  let new : ProcMem := { proc with pgtbl := tbl, heapTop := top, ustackNpage := 1 }
  have self {m : Machine} (page : Bytes) (now : m.proc p = some new) :
      (m.setPage new.tf page).proc p = some new := now
  rw [execCommit]
  refine .bind_of_ok (onMem_ok (myproc_ok here)) ?_
  rw [Returns.bind_iff, returns_onMem, setMyproc, Returns.modify_iff]
  have now : (k.mem.setProc p (some new)).proc p = some new := Function.update_self ..
  set m := k.mem.setProc p (some new)
  refine .bind_of_ok (onMem_ok (setTfField_ok now _ _)) (.bind_of_ok (onMem_ok (setTfField_ok (self _ now) _ _))
    (.bind_of_ok (onMem_ok (setTfField_ok (self _ (self _ now)) _ _))
      (.bind_of_ok (onMem_ok (setTfField_ok (self _ (self _ (self _ now))) _ _)) ?_)))
  rw [Returns.bind_iff, Returns.modify_iff, Returns.bind_iff, returns_onMem]
  refine uvmDestroyPgtbl_same.mono fun _ m' same => Returns.pure_iff.mpr ⟨rfl, ?_⟩
  refine AtEntry.of_same ⟨⟨new, self _ (self _ (self _ (self _ now))), rfl, ?_, ?_⟩, ?_⟩ same
  · simp only [new, setPage_same]
    rw [Bytes.u64_setU64_same, address]
  · simp only [new, setPage_same]
    rw [Bytes.u64_setU64_other _ (by decide), Bytes.u64_setU64_other _ (by decide), Bytes.u64_setU64_same,
      address]
  · simp only [new, setPage_same]
    rw [Bytes.u64_setU64_other _ (by decide), Bytes.u64_setU64_other _ (by decide),
      Bytes.u64_setU64_other _ (by decide), Bytes.u64_setU64_same]

private theorem execBad_fails (pgtbl : Option U64) (ip : Option ℕ) :
    Returns (execBad ram cfg pgtbl ip) k fun r _ => r = -1 := by
  unfold execBad
  cases pgtbl <;> cases ip <;> simp only [Returns.bind_iff, Returns.pure_iff, Returns.trivial_iff]

/-- Behind the loaded segments `proc_exec` fails, or the process enters the program. -/
theorem execStack_enters (b : Loading ram roots code proc.tf tbl s₀ k.mem) (here : s₀.proc p = some proc)
    (held : Held ram argv s₀) (sz : ℕ) :
    Returns (execStack ram cfg p path argv tbl sz entry) k fun r k' => r = 0 →
      AtEntry p proc.tf entry (argv.map fun a => cstring pgsize (s₀.pages a)) k'.mem := by
  rw [execStack, Returns.bind_iff, returns_onMem]
  have word : alignUp sz < 2 ^ 64 :=
    Nat.lt_of_le_of_lt (Nat.div_mul_le_self ..) (Nat.mod_lt _ (by decide))
  refine (b.uvmAlloc ⟨by decide, by decide⟩ word).mono fun _ m b₁ => ?_
  rw [Returns.bind_iff, returns_onMem]
  refine (b₁.prepareStack _ held).mono ?_
  rintro sp m' ⟨b₂, address⟩
  refine .ite (fun _ => ?_) fun placed => ?_
  · refine (execBad_fails (some tbl) none).mono ?_
    rintro r _ rfl zero
    cases zero
  · have now : m'.proc p = some proc := (congrFun b₂.builds.proc p).trans here
    refine (execCommit_enters now (address placed)).mono ?_
    rintro r k' ⟨-, entered⟩ _
    exact entered

private theorem execLoad_enters (ready : ExecReady ram roots code p proc k.mem) (sane : ram.Sane)
    (held : Held ram argv k.mem) {ip : ℕ} {r : U32 × Bytes} {fs : FsState}
    (header : Fs.inodeReadData cfg ip 0 elfhdrSize (fun _ => 0) k.fs = .ok r fs) :
    Returns (execLoad ram cfg code p path argv ip) k fun ret k' => ret = 0 →
      AtEntry p proc.tf (Elfhdr.decode r.2).entry (argv.map fun a => cstring pgsize (k.mem.pages a)) k'.mem := by
  have failed {pgtbl : Option U64} {k : Kernel} {Q : Kernel → Prop} :
      Returns (execBad ram cfg pgtbl (some ip)) k fun ret k' => ret = 0 → Q k' := by
    refine (execBad_fails pgtbl (some ip)).mono ?_
    rintro ret _ rfl zero
    cases zero
  rw [execLoad]
  refine .bind_of_ok (onFs_ok header) (.ite (fun _ => failed) fun _ => ?_)
  refine .bind_of_ok (onMem_ok (myproc_ok ready.here)) ?_
  rw [Returns.bind_iff, returns_onMem]
  refine (procPgtblInit_shows ready.tables sane ready.trap.aligned).returns.mono fun tbl m init => ?_
  have b := init.loading sane ready.trap ready.nodup ready.tables.userPool
  rw [Returns.bind_iff]
  refine (Loading.loadHeaders (k := { k with fs := fs, mem := m }) b _ _ _).mono ?_
  rintro (_ | sz) k₁ b₁
  · exact failed
  · simp only [Returns.bind_iff]
    refine returns_onFs_of fun _ fs₂ => returns_onFs_of fun _ fs₃ => ?_
    exact execStack_enters (k := { k₁ with fs := fs₃ }) b₁ ready.here held sz

/-- After a successful `proc_exec` the process is at the begin of the program. -/
theorem execFile_enters (ready : ExecReady ram roots code p proc k.mem) (sane : ram.Sane)
    (held : Held ram argv k.mem) {elf : Elfhdr} {fs : FsState}
    (header : execHeader cfg p path k.fs = .ok (some elf) fs) :
    Returns (execFile ram cfg code p path argv) k fun ret k' => ret = 0 →
      AtEntry p proc.tf elf.entry (argv.map fun a => cstring pgsize (k.mem.pages a)) k'.mem := by
  rw [execHeader, bind_eq_ok] at header
  obtain ⟨_ | ip, fs₁, found, header⟩ := header
  · cases header
  · rw [bind_eq_ok] at header
    obtain ⟨_, fs₂, locked, header⟩ := header
    rw [bind_eq_ok] at header
    obtain ⟨r, fs₃, read, last⟩ := header
    cases last
    rw [execFile]
    refine .bind_of_ok (onFs_ok found) (.bind_of_ok (onFs_ok locked) ?_)
    exact execLoad_enters (k := { k with fs := fs₂ }) ready sane held read

/-! ## The return to user mode -/

/-- A field of the trap frame that `proc_exec` does not write for good -/
def OtherField (off : ℕ) : Prop := ∀ field ∈ [tfEpc, tfSp, tfArg 1], field + 8 ≤ off ∨ off + 8 ≤ field

instance (off : ℕ) : Decidable (OtherField off) := inferInstanceAs (Decidable (∀ _ ∈ _, _))

private theorem AtEntry.setField (entered : AtEntry p tf entry args s) {off : ℕ} (other : OtherField off) (v : U64) :
    AtEntry p tf entry args (s.setPage tf ((s.pages tf).setU64 off v)) := by
  obtain ⟨⟨proc, here, trap, a1, sp⟩, epc⟩ := entered
  refine ⟨⟨proc, here, trap, ?_, ?_⟩, ?_⟩
  · rw [setPage_same, Bytes.u64_setU64_other _ (other _ (by decide)), a1]
  · rw [setPage_same, Bytes.u64_setU64_other _ (other _ (by decide)), sp]
  · rw [setPage_same, Bytes.u64_setU64_other _ (other _ (by decide)), epc]

/-- A write of such a field by the process itself -/
theorem AtEntry.setTfField (entered : AtEntry p tf entry args s) {off : ℕ} (other : OtherField off) (v : U64) :
    ∃ s', setTfField p off v s = .ok () s' ∧ AtEntry p tf entry args s' ∧ (s'.pages tf).u64 off = v ∧
      ∀ field, field + 8 ≤ off ∨ off + 8 ≤ field → (s'.pages tf).u64 field = (s.pages tf).u64 field := by
  obtain ⟨proc, here, rfl, -⟩ := entered.proc
  refine ⟨_, setTfField_ok here off v, entered.setField other v, ?_, fun field apart => ?_⟩
  · rw [setPage_same, Bytes.u64_setU64_same]
  · rw [setPage_same, Bytes.u64_setU64_other _ apart]

/-- The process returns to user mode with what is in the trap frame. -/
theorem trapUserReturn_enters (entered : AtEntry p tf entry args s) (info : TrapInfo) :
    Returns (trapUserReturn p info) s fun pc s' =>
      (EntryState p entry args pc s' ↔ (s.pages tf).u64 (tfArg 0) = BitVec.ofNat 64 args.length) := by
  obtain ⟨s₁, first, entered₁, -, kept₁⟩ := entered.setTfField (by decide : OtherField 32) info.hartid
  obtain ⟨s₂, second, entered₂, -, kept₂⟩ := entered₁.setTfField (by decide : OtherField 8) info.kstackTop
  obtain ⟨s₃, third, entered₃, -, kept₃⟩ := entered₂.setTfField (by decide : OtherField 16) info.trapvector
  obtain ⟨proc, here, rfl, a1, sp⟩ := entered₃.proc
  have a0 : (s₃.pages proc.tf).u64 (tfArg 0) = (s.pages proc.tf).u64 (tfArg 0) := by
    rw [kept₃ _ (by decide), kept₂ _ (by decide), kept₁ _ (by decide)]
  rw [trapUserReturn]
  refine .bind_of_ok first (.bind_of_ok second (.bind_of_ok third ?_))
  intro pc s' result
  rw [tfField_ok here] at result
  obtain ⟨rfl, rfl⟩ := EStateM.Result.ok.inj result
  rw [← a0]
  constructor
  · rintro ⟨proc', here', -, -, a0, -⟩
    obtain rfl := Option.some.inj (here.symm.trans here')
    exact a0
  · exact fun a0 => ⟨proc, here, entered₃.epc, entered₃.epc, a0, a1, sp⟩

/-- What the trap handler writes first leaves the number of the system call. -/
theorem ExecReady.trapEnter (ready : ExecReady ram roots code p proc s) (sepc : U64) :
    Returns (trapEnter p sepc) s fun _ s' => ExecReady ram roots code p proc s' ∧
      (s'.pages proc.tf).u64 (tfArg 7) = (s.pages proc.tf).u64 (tfArg 7) ∧ SameLeaves roots s s' := by
  have ready₁ := ready.setTf ((s.pages proc.tf).setU64 tfEpc sepc)
  refine .bind_of_ok (setTfField_ok ready.here _ _) fun _ s' result => ?_
  rw [setTfField_ok ready₁.here] at result
  cases result
  refine ⟨ready₁.setTf _, ?_, (ready.setTf_leaves _).trans (ready₁.setTf_leaves _)⟩
  rw [setPage_same, Bytes.u64_setU64_other _ (by decide), setPage_same,
    Bytes.u64_setU64_other _ (by decide)]

/-- The result of `sys_exec` replaces the number of arguments. -/
theorem exec_returns {syscalls : ℤ → Option (KernelM U64)} {junk : Bytes} {sepc pc : U64} {info : TrapInfo}
    {m₁ m₂ : Machine} {elf : Elfhdr} {fs : FsState}
    (ready : ExecReady ram roots code p proc k.mem) (sane : ram.Sane)
    (exec : syscalls sysExecNum = some (sysExec ram cfg code p junk))
    (asked : (((k.mem.pages proc.tf).u64 (tfArg 7)).setWidth 32).toInt = sysExecNum)
    (entered : trapEnter p sepc k.mem = .ok () m₁) (copied : execArgs p junk m₁ = .ok (path, argv) m₂)
    (header : execHeader cfg p path k.fs = .ok (some elf) fs)
    (loaded : execFile ram cfg code p path argv { k with mem := m₂ } = .ok 0 k')
    (returns : trapUserEcall syscalls p sepc info k = .ok pc k₂) :
    EntryState p elf.entry (argv.map fun a => cstring pgsize (m₂.pages a)) pc k₂.mem ↔
      BitVec.ofInt 64 0 = BitVec.ofNat 64 argv.length := by
  obtain ⟨ready₂, number, -⟩ := ready.trapEnter sepc _ _ entered
  obtain ⟨ready₃, held, -⟩ := execArgs_ready ready₂ junk _ _ copied
  have done := execFile_enters (k := { k with mem := m₂ }) ready₃ sane held header _ _ loaded rfl
  -- the way back
  suffices run : Returns (trapUserEcall syscalls p sepc info) k fun pc k₂ =>
      EntryState p elf.entry (argv.map fun a => cstring pgsize (m₂.pages a)) pc k₂.mem ↔
        BitVec.ofInt 64 0 = BitVec.ofNat 64 argv.length from
    run _ _ returns
  rw [trapUserEcall]
  refine .bind_of_ok (onMem_ok entered) (Returns.bind_iff.mpr ?_)
  rw [syscall]
  refine .bind_of_ok (onMem_ok (tfField_ok ready₂.here _)) ?_
  simp only [number, asked, exec]
  rw [Returns.bind_iff, sysExec]
  refine .bind_of_ok (onMem_ok copied) (.bind_of_ok loaded ?_)
  rw [Returns.bind_iff, returns_onMem]
  refine freeArgv_same.mono fun _ m₄ same => Returns.pure_iff.mpr ?_
  obtain ⟨m₅, written, entered', zero, -⟩ :=
    (done.of_same same).setTfField (by decide : OtherField (tfArg 0)) (BitVec.ofInt 64 0)
  rw [← bind_pure (onMem (setTfField _ _ _))]
  refine .bind_of_ok (onMem_ok written) (Returns.pure_iff.mpr ?_)
  rw [returns_onMem]
  refine (trapUserReturn_enters entered' info).mono fun pc m' iff => iff.trans ?_
  rw [zero, List.length_map]

/-- With a successful `exec` a process of up to 31 arguments starts as the program expects exactly when
there is no argument. -/
theorem exec_entry_iff {syscalls : ℤ → Option (KernelM U64)} {junk : Bytes} {sepc pc : U64} {info : TrapInfo}
    {m₁ m₂ : Machine} {elf : Elfhdr} {fs : FsState}
    (ready : ExecReady ram roots code p proc k.mem) (sane : ram.Sane)
    (exec : syscalls sysExecNum = some (sysExec ram cfg code p junk))
    (asked : (((k.mem.pages proc.tf).u64 (tfArg 7)).setWidth 32).toInt = sysExecNum)
    (entered : trapEnter p sepc k.mem = .ok () m₁) (copied : execArgs p junk m₁ = .ok (path, argv) m₂)
    (few : argv.length < 32) (header : execHeader cfg p path k.fs = .ok (some elf) fs)
    (loaded : execFile ram cfg code p path argv { k with mem := m₂ } = .ok 0 k')
    (returns : trapUserEcall syscalls p sepc info k = .ok pc k₂) :
    EntryState p elf.entry (argv.map fun a => cstring pgsize (m₂.pages a)) pc k₂.mem ↔ argv = [] := by
  refine (exec_returns ready sane exec asked entered copied header loaded returns).trans ?_
  constructor
  · intro none
    have count := congrArg BitVec.toNat none
    rw [BitVec.toNat_ofNat, Nat.mod_eq_of_lt (show argv.length < 2 ^ 64 by omega)] at count
    exact List.length_eq_zero_iff.mp count.symm
  · rintro rfl
    rfl

/-! ## The commit

Once `proc_exec` commits, no step can fail any more: the tree that is given up is a sound one.
-/

/-- The user's pages of the tree at `root` have frames of the user's pool, each its own. -/
structure OwnFrames (ram : Ram) (root : U64) (s : Machine) : Prop where
  once : ∀ v v' a, UserLeaf s root v a → UserLeaf s root v' a → v = v'
  frames : ∀ v a, UserLeaf s root v a → ram.UserFrame a

private theorem userLeaf_congr {root : U64} {v : ℕ} (leaf : s'.leaf root v = s.leaf root v) :
    UserLeaf s' root v a ↔ UserLeaf s root v a := by
  constructor
  · rintro ⟨valid, user, frame⟩
    rw [leaf] at valid user frame
    exact ⟨valid, user, frame⟩
  · rintro ⟨valid, user, frame⟩
    rw [← leaf] at valid user frame
    exact ⟨valid, user, frame⟩

private theorem OwnFrames.congr {root : U64} (own : OwnFrames ram root s)
    (leaf : ∀ v, s'.leaf root v = s.leaf root v) : OwnFrames ram root s' where
  once v v' a first second := own.once v v' a ((userLeaf_congr (leaf v)).mp first)
    ((userLeaf_congr (leaf v')).mp second)
  frames v a one := own.frames v a ((userLeaf_congr (leaf v)).mp one)

private theorem ends_onMem {α : Type} {x : MemM α} {Q : α → Kernel → Prop} {E : Fault → Prop} :
    Ends (onMem x) k Q E ↔ Ends x k.mem (fun r m => Q r { k with mem := m }) E := by
  rw [Ends, Ends, onMem]
  cases x k.mem with
  | ok r m => exact Iff.rfl
  | error e m => exact Iff.rfl

/-- The descriptor of a process that enters a new program -/
def ProcMem.entering (proc : ProcMem) (tbl : U64) (top : ℕ) : ProcMem :=
  { proc with pgtbl := tbl, heapTop := top, ustackNpage := 1 }

/-- The descriptor is the new one, and apart from it only the trap frame has changed. -/
def Committed (p : ℕ) (proc : ProcMem) (tbl : U64) (top : ℕ) (s s' : Machine) : Prop :=
  ∃ page, s' = (s.setPage proc.tf page).setProc p (some (proc.entering tbl top))

private theorem committed_setProc (s : Machine) (proc : ProcMem) (tbl : U64) (top : ℕ) :
    Committed p proc tbl top s (s.setProc p (some (proc.entering tbl top))) :=
  ⟨s.pages proc.tf, by simp only [Machine.setPage, Function.update_eq_self]⟩

private theorem Committed.setTfField {top : ℕ} (done : Committed p proc tbl top s s') (off : ℕ) (v : U64) :
    ∃ m, LabKernel.setTfField p off v s' = .ok () m ∧ Committed p proc tbl top s m := by
  obtain ⟨page, rfl⟩ := done
  refine ⟨_, setTfField_ok (Function.update_self ..) off v, page.setU64 off v, ?_⟩
  simp only [Machine.setPage, Machine.setProc, ProcMem.entering, Function.update_self, Function.update_idem]

/-- The tree that is given up is the one from before. -/
theorem Committed.destroys {top : ℕ} (done : Committed p proc tbl top s s')
    (b : Loading ram roots code proc.tf tbl s₀ s) (live : proc.pgtbl ∈ roots)
    (own : OwnFrames ram proc.pgtbl s₀) :
    Yields (uvmDestroyPgtbl ram proc.pgtbl) s' fun _ m => ∃ ts fs, m = s'.freed ts fs ∧ ts.Nodup ∧ fs.Nodup ∧
      (∀ a, a ∈ ts ↔ ∃ q, s₀.tableAt proc.pgtbl q = some a) ∧
      ∀ a, a ∈ fs ↔ ∃ v, UserLeaf s₀ proc.pgtbl v a := by
  obtain ⟨page, rfl⟩ := done
  have tf_apart : ∀ r ∈ insert tbl roots, ∀ q, s.tableAt r q ≠ some proc.tf := by
    intro r within q found
    apply b.trap.tf_apart
    rw [← b.use]
    exact .inr ⟨r, within, q, found⟩
  have b' := b.setPage page tf_apart fun user => absurd user b.trap.tf_user
  have inserted : proc.pgtbl ∈ insert tbl roots := .inr live
  have differ : proc.pgtbl ≠ tbl := fun equal => b.fresh (equal ▸ live)
  set m := (s.setPage proc.tf page).setProc p (some (proc.entering tbl top))
  have pages : m.pages = (s.setPage proc.tf page).pages := rfl
  have leaf (v : ℕ) : m.leaf proc.pgtbl v = s₀.leaf proc.pgtbl v :=
    (entry_of_pages pages _ _).trans (b'.builds.leaf _ live differ v)
  have found (q : Option Place) : m.tableAt proc.pgtbl q = s₀.tableAt proc.pgtbl q :=
    (tableAt_of_entry fun _ _ => entry_of_pages pages _ _).trans (b'.other _ live q)
  have tables : m.Tables ram (insert tbl roots) := b'.tables.of_pages pages rfl rfl
  have own' := own.congr leaf
  refine (uvmDestroyPgtbl_ends tables inserted own'.once own'.frames).mono ?_
  rintro _ _ ⟨ts, fs, freed, nodup, nodup', mem_ts, mem_fs⟩
  refine ⟨ts, fs, freed, nodup, nodup', fun a => ?_, fun a => ?_⟩
  · simp only [mem_ts, found]
  · rw [mem_fs]
    exact exists_congr fun v => userLeaf_congr (leaf v)

/-- The address spaces are swapped: the tree at `tbl` was built, the process has it, and the tables and the
frames of the user's pages of its old tree, each once, are back in their pools. -/
def Swapped (ram : Ram) (roots : Set U64) (code : U64) (p : ℕ) (proc : ProcMem) (tbl : U64) (top : ℕ)
    (s₀ s : Machine) : Prop :=
  ∃ built m ts fs, Loading ram roots code proc.tf tbl s₀ built ∧ Committed p proc tbl top built m ∧
    s = m.freed ts fs ∧ ts.Nodup ∧ fs.Nodup ∧ (∀ a, a ∈ ts ↔ ∃ q, s₀.tableAt proc.pgtbl q = some a) ∧
    ∀ a, a ∈ fs ↔ ∃ v, UserLeaf s₀ proc.pgtbl v a

/-- No step of the commit fails. -/
theorem execCommit_done (b : Loading ram roots code proc.tf tbl s₀ k.mem) (here : s₀.proc p = some proc)
    (live : proc.pgtbl ∈ roots) (own : OwnFrames ram proc.pgtbl s₀) (path : Bytes) (entry : U64)
    (top sp argc : ℕ) : Yields (execCommit ram p path tbl top sp entry argc) k fun r k' => r = 0 ∧ k'.fs = k.fs ∧
      Swapped ram roots code p proc tbl top s₀ k'.mem := by
  have old : k.mem.proc p = some proc := (congrFun b.builds.proc p).trans here
  obtain ⟨m₁, first, done₁⟩ := (committed_setProc (p := p) k.mem proc tbl top).setTfField tfEpc entry
  obtain ⟨m₂, second, done₂⟩ := done₁.setTfField tfSp (BitVec.ofNat 64 sp)
  obtain ⟨m₃, third, done₃⟩ := done₂.setTfField (tfArg 0) (BitVec.ofNat 64 argc)
  obtain ⟨m₄, fourth, done₄⟩ := done₃.setTfField (tfArg 1) (BitVec.ofNat 64 sp)
  rw [execCommit]
  apply Ends.bind_of_ok (onMem_ok (myproc_ok old))
  apply Ends.bind_of_ok (onMem_ok (modify_ok _ _))
  apply Ends.bind_of_ok (onMem_ok first)
  apply Ends.bind_of_ok (onMem_ok second)
  apply Ends.bind_of_ok (onMem_ok third)
  apply Ends.bind_of_ok (onMem_ok fourth)
  rw [Ends.bind_iff, Ends.modify_iff, Ends.bind_iff, ends_onMem]
  refine (done₄.destroys b live own).mono ?_
  rintro _ m' ⟨ts, fs, freed, rest⟩
  exact ⟨rfl, rfl, k.mem, m₄, ts, fs, b, done₄, freed, rest⟩

/-- The steps of `proc_exec` behind the segment loop, up to where it commits: whether it gets there -/
def stackFits (pgtbl : U64) (argv : List U64) (sz : ℕ) : KernelM Bool := do
  onMem (uvmAlloc pgtbl (alignUp sz) (wrap64 (alignUp sz + pgsize)) 0x16)
  return (← onMem (prepareStack pgtbl (wrap64 (alignUp sz + pgsize)) argv)) ≠ 0

/-- These steps with the inode of the file locked -/
def fileLoads (cfg : FsConfig) (code : U64) (p : ℕ) (argv : List U64) (ip : ℕ) : KernelM Bool := do
  let r ← onFs (Fs.inodeReadData cfg ip 0 elfhdrSize fun _ => 0)
  let elf := Elfhdr.decode r.2
  if r.1 ≠ elfhdrSize ∨ elf.magic ≠ elfMagic then return false
  else
    let proc ← onMem (myproc p)
    let pgtbl ← onMem (procPgtblInit code proc.tf)
    match ← loadHeaders cfg pgtbl ip elf.phnum.toNat (elf.phoff.setWidth 32) 0 with
    | none => return false
    | some sz =>
      onFs (Fs.sleeplockRelease ip)
      onFs (Fs.inodePut cfg ip)
      stackFits pgtbl argv sz

/-- All these steps of `proc_exec` -/
def execLoads (cfg : FsConfig) (code : U64) (p : ℕ) (path : Bytes) (argv : List U64) : KernelM Bool := do
  match ← onFs (Fs.pathToInode cfg p (cstring 128 path)) with
  | none => return false
  | some ip =>
    onFs (Fs.sleeplockAcquire ip)
    fileLoads cfg code p argv ip

private theorem onMem_eq_ok {α : Type} {x : MemM α} {r : α} :
    onMem x k = .ok r k' ↔ ∃ m, x k.mem = .ok r m ∧ k' = { k with mem := m } := by
  rw [onMem]
  cases x k.mem with
  | ok a m =>
    constructor
    · rintro ⟨⟩
      exact ⟨m, rfl, rfl⟩
    · rintro ⟨_, ⟨⟩, rfl⟩
      rfl
  | error e m =>
    refine iff_of_false (by simp) ?_
    rintro ⟨_, ⟨⟩, -⟩

private theorem onFs_eq_ok {α : Type} {x : FsM α} {r : α} :
    onFs x k = .ok r k' ↔ ∃ fs, x k.fs = .ok r fs ∧ k' = { k with fs := fs } := by
  rw [onFs]
  cases x k.fs with
  | ok a m =>
    constructor
    · rintro ⟨⟩
      exact ⟨m, rfl, rfl⟩
    · rintro ⟨_, ⟨⟩, rfl⟩
      rfl
  | error e m =>
    refine iff_of_false (by simp) ?_
    rintro ⟨_, ⟨⟩, -⟩

private theorem execStack_done (b : Loading ram roots code proc.tf tbl s₀ k.mem) (here : s₀.proc p = some proc)
    (held : Held ram argv s₀) (live : proc.pgtbl ∈ roots) (own : OwnFrames ram proc.pgtbl s₀)
    (cfg : FsConfig) (path : Bytes) (entry : U64) {sz : ℕ} (fits : stackFits tbl argv sz k = .ok true k₂) :
    ∃ k', execStack ram cfg p path argv tbl sz entry k = .ok 0 k' ∧ ∃ top,
      Swapped ram roots code p proc tbl top s₀ k'.mem := by
  obtain ⟨_, k₁, growing, fits⟩ := bind_eq_ok.mp fits
  obtain ⟨m, grown, rfl⟩ := onMem_eq_ok.mp growing
  obtain ⟨sp, k₃, pushing, last⟩ := bind_eq_ok.mp fits
  obtain ⟨m', pushed, rfl⟩ := onMem_eq_ok.mp pushing
  have placed : sp ≠ 0 := by
    intro zero
    rw [zero] at last
    cases last
  have word : alignUp sz < 2 ^ 64 := Nat.lt_of_le_of_lt (Nat.div_mul_le_self ..) (Nat.mod_lt _ (by decide))
  have b₁ := b.uvmAlloc ⟨by decide, by decide⟩ word _ _ grown
  have b₂ := (b₁.prepareStack _ held _ _ pushed).1
  obtain ⟨r, k', commits, rfl, -, swapped⟩ := (execCommit_done (k := { k with mem := m' }) b₂
    here live own path entry (wrap64 (alignUp sz + pgsize)) sp argv.length).result
  refine ⟨k', bind_eq_ok.mpr ⟨_, _, growing, bind_eq_ok.mpr ⟨_, _, pushing, ?_⟩⟩, _, swapped⟩
  rw [if_neg placed]
  exact commits

private theorem execLoad_done (ready : ExecReady ram roots code p proc k.mem) (sane : ram.Sane)
    (held : Held ram argv k.mem) (live : proc.pgtbl ∈ roots) (own : OwnFrames ram proc.pgtbl k.mem)
    (path : Bytes) {ip : ℕ} (loads : fileLoads cfg code p argv ip k = .ok true k₂) :
    ∃ k', execLoad ram cfg code p path argv ip k = .ok 0 k' ∧ ∃ tbl top,
      Swapped ram roots code p proc tbl top k.mem k'.mem := by
  obtain ⟨r, k₁, reading, loads⟩ := bind_eq_ok.mp loads
  obtain ⟨fs, read, rfl⟩ := onFs_eq_ok.mp reading
  split at loads
  · cases loads
  rename_i good
  have self : onMem (myproc p) { k with fs := fs } = .ok proc { k with fs := fs } :=
    onMem_ok (myproc_ok ready.here)
  obtain ⟨mine, k₁, asked, loads⟩ := bind_eq_ok.mp loads
  rw [self] at asked
  cases asked
  obtain ⟨tbl, k₁, creating, loads⟩ := bind_eq_ok.mp loads
  obtain ⟨m, created, rfl⟩ := onMem_eq_ok.mp creating
  have b := ((procPgtblInit_shows ready.tables sane ready.trap.aligned).returns tbl m created).loading sane
    ready.trap ready.nodup ready.tables.userPool
  obtain ⟨_ | sz, k₃, loading, loads⟩ := bind_eq_ok.mp loads
  · cases loads
  have b₁ := Loading.loadHeaders (k := { k with fs := fs, mem := m }) b _ _ _ _ _ loading
  obtain ⟨_, k₄, releasing, loads⟩ := bind_eq_ok.mp loads
  obtain ⟨fs₁, released, rfl⟩ := onFs_eq_ok.mp releasing
  obtain ⟨_, k₅, putting, fits⟩ := bind_eq_ok.mp loads
  obtain ⟨fs₂, put, rfl⟩ := onFs_eq_ok.mp putting
  obtain ⟨k', done, top, swapped⟩ := execStack_done (k := { k₃ with fs := fs₂ }) b₁ ready.here held live
    own cfg path (Elfhdr.decode r.2).entry fits
  refine ⟨k', bind_eq_ok.mpr ⟨_, _, reading, ?_⟩, tbl, top, swapped⟩
  rw [if_neg good]
  refine bind_eq_ok.mpr ⟨_, _, self, bind_eq_ok.mpr ⟨_, _, creating, bind_eq_ok.mpr ⟨_, _, loading, ?_⟩⟩⟩
  exact bind_eq_ok.mpr ⟨_, _, releasing, bind_eq_ok.mpr ⟨_, _, putting, done⟩⟩

/-- Once `proc_exec` gets to where it commits, it returns 0 and has swapped the address spaces. -/
theorem execFile_done (ready : ExecReady ram roots code p proc k.mem) (sane : ram.Sane)
    (held : Held ram argv k.mem) (live : proc.pgtbl ∈ roots) (own : OwnFrames ram proc.pgtbl k.mem)
    (loads : execLoads cfg code p path argv k = .ok true k₂) :
    ∃ k', execFile ram cfg code p path argv k = .ok 0 k' ∧ ∃ tbl top,
      Swapped ram roots code p proc tbl top k.mem k'.mem := by
  obtain ⟨_ | ip, k₁, walking, loads⟩ := bind_eq_ok.mp loads
  · cases loads
  obtain ⟨fs₁, walked, rfl⟩ := onFs_eq_ok.mp walking
  obtain ⟨_, k₁, locking, loads⟩ := bind_eq_ok.mp loads
  obtain ⟨fs₂, locked, rfl⟩ := onFs_eq_ok.mp locking
  obtain ⟨k', done, swapped⟩ := execLoad_done (k := { k with fs := fs₂ }) ready sane held live own path
    loads
  exact ⟨k', bind_eq_ok.mpr ⟨_, _, walking, bind_eq_ok.mpr ⟨_, _, locking, done⟩⟩, swapped⟩

private theorem freeArgv_done (user : ∀ a ∈ argv, ram.UserFrame a) :
    Yields (freeArgv ram argv) s fun _ s' => SamePages s s' := by
  induction argv generalizing s with
  | nil => exact ⟨rfl, rfl⟩
  | cons a rest ih =>
    have first : Yields (pmemFree ram a false) s fun _ s' => SamePages s s' := by
      refine ((pmemFree_user a).fails fun f bad => ?_).mono ?_
      · rcases bad with ⟨_, ⟨⟩, -⟩ | ⟨b, member, outside⟩
        obtain rfl := List.mem_singleton.mp member
        exact outside (user _ List.mem_cons_self)
      · rintro _ _ rfl
        exact ⟨rfl, rfl⟩
    rw [freeArgv]
    refine Ends.bind_iff.mpr (first.mono fun _ s₁ same => ?_)
    refine (ih fun b member => user b (List.mem_cons_of_mem a member)).mono fun _ s' same' => ?_
    exact ⟨same'.pages.trans same.pages, same'.proc.trans same.proc⟩

private theorem trapUserReturn_done (entered : AtEntry p tf entry args s) (info : TrapInfo) :
    ∃ pc s', trapUserReturn p info s = .ok pc s' := by
  obtain ⟨s₁, first, entered₁, -⟩ := entered.setTfField (by decide : OtherField 32) info.hartid
  obtain ⟨s₂, second, entered₂, -⟩ := entered₁.setTfField (by decide : OtherField 8) info.kstackTop
  obtain ⟨s₃, third, entered₃, -⟩ := entered₂.setTfField (by decide : OtherField 16) info.trapvector
  obtain ⟨proc, here, -⟩ := entered₃.proc
  have last := tfField_ok here tfEpc
  exact ⟨_, _, bind_eq_ok.mpr ⟨_, _, first, bind_eq_ok.mpr ⟨_, _, second, bind_eq_ok.mpr ⟨_, _, third, last⟩⟩⟩⟩

/-! ## An empty program -/

/-- The header of a program without segments -/
def emptyElf : Bytes := Bytes.setU64 (Bytes.blit (fun _ => 0) 0 (Bytes.leBytes elfMagic.toNat) 4) 24 0x1000

/-- The calls that make a file `/a` of it and keep it open -/
def emptyElfCalls : List (ℕ × Call) :=
  [(0, .open [0x2F, 0x61] (openCreate ||| openReadWrite) fun _ => 0), (0, .write 0 72 emptyElf)]

/-- A page with the path `/a` and, from byte 16 on, an array of arguments: the path alone -/
def execPage : Bytes := (Bytes.blit (fun _ => 0) 0 (fun i => [0x2F, 0x61, 0].getD i 0) 3).setU64 16 0x1000

/-- The trap frame of a process that asks for `exec` with this path and these arguments -/
def execTf : Bytes :=
  ((Bytes.setU64 (fun _ => 0) (tfArg 0) 0x1000).setU64 (tfArg 1) 0x1010).setU64 (tfArg 7) 35

def execProc : ProcMem := ⟨0x80200000, 0x80300000, 0x2000, 0, [], .running, none, 0⟩

/-- Memory with one process, whose page is yet to be mapped -/
def execMachine : Machine where
  pages _ _ := 0
  kernelPool := [0x80201000, 0x80202000, 0x80203000, 0x80204000, 0x80205000, 0x80206000, 0x80207000,
    0x80208000]
  userPool := [0x87001000, 0x87002000]
  freeRegions := []
  kernPagetable := 0x80200000
  proc i := if i = 0 then some execProc else none

/-- The file system and the memory before the call, where the page is mapped in `s` -/
def execKernel (fs : FsState) (s : Machine) : Kernel :=
  ⟨fs, (s.setPage 0x87000000 execPage).setPage 0x80300000 execTf, fun _ _ => 0⟩

def execConfig : FsConfig := ⟨mkfsSuperBlock, false⟩

/-- The table of system calls, `exec` alone -/
def execSyscalls (n : ℤ) : Option (KernelM U64) :=
  if n = sysExecNum then some (sysExec ⟨0x80200000⟩ execConfig 0x80000000 0 fun _ => 0) else none

/-- The program returns with a result that passes a test. -/
def passes {ε σ α : Type} (x : EStateM ε σ α) (s : σ) (test : α → Bool) : Bool :=
  match x s with
  | .ok a _ => test a
  | .error .. => false

private theorem ok_of_passes {ε σ α : Type} {x : EStateM ε σ α} {s : σ} {b : α → Bool}
    (tested : passes x s b = true) : ∃ a t, x s = .ok a t ∧ b a = true := by
  rw [passes] at tested
  cases result : x s with
  | ok a t =>
    rw [result] at tested
    exact ⟨a, t, rfl, tested⟩
  | error e t =>
    rw [result] at tested
    cases tested

private theorem execMachine_ready : ∃ s, vmMappages 0x80200000 0x1000 0x87000000 pgsize 0x1e execMachine =
    .ok () s ∧ ∀ fs, ExecReady ⟨0x80200000⟩ {0x80200000} 0x80000000 0 execProc (execKernel fs s).mem ∧
      OwnFrames ⟨0x80200000⟩ 0x80200000 (execKernel fs s).mem := by
  have frames : ∀ a ∈ execMachine.kernelPool, (⟨0x80200000⟩ : Ram).KernelFrame a := by
    simp only [execMachine, List.forall_mem_cons]
    exact ⟨by decide +kernel, by decide +kernel, by decide +kernel, by decide +kernel,
      by decide +kernel, by decide +kernel, by decide +kernel, by decide +kernel, List.forall_mem_nil _⟩
  have tables : execMachine.Tables ⟨0x80200000⟩ {0x80200000} :=
    tables_zero rfl (List.forall_mem_cons.mpr ⟨by decide +kernel, List.forall_mem_singleton.mpr (by decide +kernel)⟩)
      frames (by decide +kernel) (by decide +kernel) (by decide +kernel)
  obtain ⟨_, s, mapped, -⟩ := ok_of_passes (x := vmMappages 0x80200000 0x1000 0x87000000 pgsize 0x1e)
    (s := execMachine) (b := fun _ => true) (by decide +kernel)
  have maps := (@vmMappages_page ⟨0x80200000⟩ {0x80200000} execMachine 0x80200000 0x87000000 0x1000
    0x1e tables (by decide +kernel) (by decide) (by decide) (by decide)).returns _ _ mapped
  have attaches := vmMappages_attaches tables (by decide +kernel) (by decide) (by decide) _ _ mapped
  have trap : (0x80300000 : U64) ∉ execMachine.kernelUse {0x80200000} := by
    rintro (free | ⟨r, rfl, q, found⟩)
    · revert free
      decide +kernel
    · cases q with
      | none => cases found
      | some q => simp only [tableAt, entry_zero (s := execMachine) rfl, tableOf_zero, ite_self, reduceCtorEq] at found
  have pool : s.userPool = [0x87001000, 0x87002000] := congrArg View.userPool maps.view
  have ready : ExecReady ⟨0x80200000⟩ {0x80200000} 0x80000000 0 execProc s := by
    refine ⟨congrFun (congrArg View.proc maps.view) 0, maps.tables, ?_, by decide, by decide, by decide, ?_,
      by decide⟩
    · rw [pool]
      decide
    · exact fun used => trap (attaches.use ▸ used)
  -- one page is mapped
  have leaf (v : ℕ) : s.leaf 0x80200000 v =
      if v = 1 then paToPte 0x87000000 ||| permFlags 0x1e else 0 := by
    have same := congrFun (congrFun (congrArg View.leaf maps.view) 0x80200000) v
    rw [view_leaf (Set.mem_singleton _)] at same
    rw [same]
    refine ite_congr (propext ⟨And.right, fun here => ⟨rfl, here⟩⟩) (fun _ => rfl) fun _ => ?_
    exact (view_leaf (Set.mem_singleton _) v).trans (entry_zero (s := execMachine) rfl _ _)
  have own : OwnFrames ⟨0x80200000⟩ 0x80200000 s := by
    have only (v : ℕ) (a : U64) (one : UserLeaf s 0x80200000 v a) : v = 1 ∧ a = 0x87000000 := by
      have valid := one.valid
      have frame := one.frame
      rw [leaf] at valid frame
      split at valid
      · rename_i here
        rw [if_pos here] at frame
        exact ⟨here, frame ▸ by decide⟩
      · exact absurd valid (not_pteHas_zero pteV)
    refine ⟨fun v v' a first second => ?_, fun v a one => ?_⟩
    · rw [(only v a first).1, (only v' a second).1]
    · rw [(only v a one).2]
      decide +kernel
  refine ⟨s, mapped, fun fs => ?_⟩
  have user : (⟨0x80200000⟩ : Ram).UserFrame 0x87000000 := by decide +kernel
  have ready' := ready.setUser user execPage
  refine ⟨ready'.setTf execTf, own.congr fun v => ?_⟩
  exact ((ready.setUser_leaves user execPage).trans (ready'.setTf_leaves execTf)) _ rfl v

/-- The steps of a system call `exec` with their results -/
def execSteps (info : TrapInfo) : KernelM (ℤ × ℕ) := do
  onMem (trapEnter 0 0)
  let r ← onMem (execArgs 0 fun _ => 0)
  let ret ← execFile ⟨0x80200000⟩ execConfig 0x80000000 0 r.1 r.2
  onMem (freeArgv ⟨0x80200000⟩ r.2)
  onMem (setTfField 0 (tfArg 0) (BitVec.ofInt 64 ret))
  let _ ← onMem (trapUserReturn 0 info)
  return (ret, r.2.length)

/-- A program that runs has a header. -/
theorem execHeader_of_run (loaded : execFile ram cfg code p path argv k = .ok 0 k') :
    ∃ elf fs, execHeader cfg p path k.fs = .ok (some elf) fs := by
  rw [execFile] at loaded
  obtain ⟨_ | ip, k₁, found, rest⟩ := bind_eq_ok.mp loaded
  · cases rest
  · obtain ⟨fs₁, walked, rfl⟩ := onFs_eq_ok.mp found
    obtain ⟨_, k₂, acquired, rest⟩ := bind_eq_ok.mp rest
    obtain ⟨fs₂, locked, rfl⟩ := onFs_eq_ok.mp acquired
    rw [execLoad] at rest
    obtain ⟨r, k₃, loads, -⟩ := bind_eq_ok.mp rest
    obtain ⟨fs₃, read, -⟩ := onFs_eq_ok.mp loads
    refine ⟨Elfhdr.decode r.2, fs₃, bind_eq_ok.mpr ⟨_, _, walked, ?_⟩⟩
    exact bind_eq_ok.mpr ⟨_, _, locked, bind_eq_ok.mpr ⟨_, _, read, rfl⟩⟩

/-- The steps are those of the system call. -/
theorem trapUserEcall_of_steps {info : TrapInfo} {n : ℕ}
    (asked : (((k.mem.pages execProc.tf).u64 (tfArg 7)).setWidth 32).toInt = sysExecNum)
    (ready : ExecReady ram roots code 0 execProc k.mem) (steps : execSteps info k = .ok (0, n) k₂) :
    ∃ pc m₁ m₂ path argv k₁, trapEnter 0 0 k.mem = .ok () m₁ ∧
      execArgs 0 (fun _ => 0) m₁ = .ok (path, argv) m₂ ∧ argv.length = n ∧
      execFile ⟨0x80200000⟩ execConfig 0x80000000 0 path argv { k with mem := m₂ } = .ok 0 k₁ ∧
      trapUserEcall execSyscalls 0 0 info k = .ok pc k₂ := by
  rw [execSteps] at steps
  obtain ⟨_, k₁, entering, steps⟩ := bind_eq_ok.mp steps
  obtain ⟨m₁, entered, rfl⟩ := onMem_eq_ok.mp entering
  obtain ⟨⟨path, argv⟩, k₁, copying, steps⟩ := bind_eq_ok.mp steps
  obtain ⟨m₂, copied, rfl⟩ := onMem_eq_ok.mp copying
  obtain ⟨ret, k₁, loaded, steps⟩ := bind_eq_ok.mp steps
  obtain ⟨_, k₄, freed, steps⟩ := bind_eq_ok.mp steps
  obtain ⟨_, k₅, written, steps⟩ := bind_eq_ok.mp steps
  obtain ⟨pc, k₆, returned, last⟩ := bind_eq_ok.mp steps
  cases last
  obtain ⟨ready₁, number, -⟩ := ready.trapEnter 0 _ _ entered
  refine ⟨pc, m₁, m₂, path, argv, k₁, entered, copied, rfl, loaded, ?_⟩
  refine bind_eq_ok.mpr ⟨_, _, entering, bind_eq_ok.mpr ⟨(), k₅, ?_, returned⟩⟩
  refine bind_eq_ok.mpr ⟨_, _, onMem_ok (tfField_ok ready₁.here _), ?_⟩
  have exec : execSyscalls sysExecNum = some _ := if_pos rfl
  simp only [number, asked, exec]
  refine bind_eq_ok.mpr ⟨_, k₄, ?_, written⟩
  exact bind_eq_ok.mpr ⟨_, _, copying, bind_eq_ok.mpr ⟨_, _, loaded, bind_eq_ok.mpr ⟨_, _, freed, rfl⟩⟩⟩

/-- The steps of the system call up to where `proc_exec` commits -/
def execBegins : KernelM (Bool × ℕ) := do
  onMem (trapEnter 0 0)
  let r ← onMem (execArgs 0 fun _ => 0)
  return (← execLoads execConfig 0x80000000 0 r.1 r.2, r.2.length)

private theorem execSteps_done {n : ℕ} (ready : ExecReady ⟨0x80200000⟩ {0x80200000} 0x80000000 0 execProc k.mem)
    (own : OwnFrames ⟨0x80200000⟩ 0x80200000 k.mem) (begins : execBegins k = .ok (true, n) k₂) :
    ∃ k₃, execSteps ⟨0, 0, 0⟩ k = .ok (0, n) k₃ := by
  obtain ⟨_, k₁, entering, begins⟩ := bind_eq_ok.mp begins
  obtain ⟨m₁, entered, rfl⟩ := onMem_eq_ok.mp entering
  obtain ⟨⟨path, argv⟩, k₁, copying, begins⟩ := bind_eq_ok.mp begins
  obtain ⟨m₂, copied, rfl⟩ := onMem_eq_ok.mp copying
  obtain ⟨begun, k₄, loads, last⟩ := bind_eq_ok.mp begins
  cases last
  have sane : (⟨0x80200000⟩ : Ram).Sane := ⟨by decide, by decide, by decide⟩
  obtain ⟨ready₁, -, leaves₁⟩ := ready.trapEnter 0 _ _ entered
  obtain ⟨ready₂, held, leaves₂⟩ := execArgs_ready ready₁ _ _ _ copied
  have own₂ := own.congr ((leaves₁.trans leaves₂) _ rfl)
  obtain ⟨k₅, loaded, -⟩ := execFile_done (k := { k with mem := m₂ }) ready₂ sane held rfl own₂ loads
  -- the way back
  obtain ⟨elf, fs, header⟩ := execHeader_of_run loaded
  have enters := execFile_enters (k := { k with mem := m₂ }) ready₂ sane held header _ _ loaded rfl
  obtain ⟨_, m₆, freed, same⟩ := (freeArgv_done (s := k₅.mem) fun a member => (held a member).1).result
  obtain ⟨m₇, written, enters₇, -⟩ :=
    (enters.of_same same).setTfField (by decide : OtherField (tfArg 0)) (BitVec.ofInt 64 0)
  obtain ⟨pc, m₈, returned⟩ := trapUserReturn_done enters₇ ⟨0, 0, 0⟩
  refine ⟨{ k₅ with mem := m₈ }, bind_eq_ok.mpr ⟨_, _, entering, bind_eq_ok.mpr ⟨_, _, copying, ?_⟩⟩⟩
  refine bind_eq_ok.mpr ⟨_, _, loaded, bind_eq_ok.mpr ⟨_, _, onMem_ok freed, ?_⟩⟩
  exact bind_eq_ok.mpr ⟨_, _, onMem_ok written, bind_eq_ok.mpr ⟨_, _, onMem_ok returned, rfl⟩⟩

private theorem execSteps_run : ∃ k k₂, ExecReady ⟨0x80200000⟩ {0x80200000} 0x80000000 0 execProc k.mem ∧
    (((k.mem.pages execProc.tf).u64 (tfArg 7)).setWidth 32).toInt = sysExecNum ∧
    execSteps ⟨0, 0, 0⟩ k = .ok (0, 1) k₂ := by
  obtain ⟨s, mapped, sound⟩ := execMachine_ready
  have runs : returnsWith (vmMappages 0x80200000 0x1000 0x87000000 pgsize 0x1e) execMachine (fun _ s =>
      (execute execConfig emptyElfCalls (FsState.init Mkfs.disk)).any fun fs =>
        passes execBegins (execKernel fs s) (· == (true, 1))) = true := by decide +kernel
  rw [returnsWith, mapped] at runs
  obtain ⟨fs, -, runs⟩ := (Option.any_eq_true ..).mp runs
  obtain ⟨ready, own⟩ := sound fs
  have number : (((execTf.u64 (tfArg 7)).setWidth 32).toInt) = sysExecNum := by decide +kernel
  obtain ⟨r, k₂, begins, tested⟩ := ok_of_passes runs
  obtain rfl := eq_of_beq tested
  obtain ⟨k₃, steps⟩ := execSteps_done ready own begins
  refine ⟨execKernel fs s, k₃, ready, ?_, steps⟩
  rw [← number, execKernel]
  simp only [execProc, setPage_same]

/-- The program with one argument -/
theorem exec_entry_iff_path : ∃ (k k₂ : Kernel) (pc entry : U64) (args : List (List U8)) (argv : List U64),
    trapUserEcall execSyscalls 0 0 ⟨0, 0, 0⟩ k = .ok pc k₂ ∧
      (EntryState 0 entry args pc k₂.mem ↔ argv = []) := by
  obtain ⟨k, k₂, ready, asked, steps⟩ := execSteps_run
  obtain ⟨pc, m₁, m₂, path, argv, k₁, entered, copied, one, loaded, returns⟩ :=
    trapUserEcall_of_steps asked ready steps
  obtain ⟨elf, fs, header⟩ := execHeader_of_run loaded
  exact ⟨k, k₂, pc, elf.entry, _, argv, returns, exec_entry_iff ready ⟨by decide, by decide, by decide⟩
    (if_pos rfl) asked entered copied (by omega) header loaded returns⟩

/-- A program that gets one argument starts with none in `a0`. -/
theorem exec_loses_argc : ∃ (k k₁ k₂ : Kernel) (m₁ m₂ : Machine) (path : Bytes) (argv : List U64)
    (elf : Elfhdr) (fs : FsState) (pc : U64),
    ExecReady ⟨0x80200000⟩ {0x80200000} 0x80000000 0 execProc k.mem ∧
    trapEnter 0 0 k.mem = .ok () m₁ ∧ execArgs 0 (fun _ => 0) m₁ = .ok (path, argv) m₂ ∧ argv.length = 1 ∧
    execHeader execConfig 0 path k.fs = .ok (some elf) fs ∧
    execFile ⟨0x80200000⟩ execConfig 0x80000000 0 path argv { k with mem := m₂ } = .ok 0 k₁ ∧
    trapUserEcall execSyscalls 0 0 ⟨0, 0, 0⟩ k = .ok pc k₂ ∧
    ¬EntryState 0 elf.entry (argv.map fun a => cstring pgsize (m₂.pages a)) pc k₂.mem := by
  obtain ⟨k, k₂, ready, asked, steps⟩ := execSteps_run
  obtain ⟨pc, m₁, m₂, path, argv, k₁, entered, copied, one, loaded, returns⟩ :=
    trapUserEcall_of_steps asked ready steps
  obtain ⟨elf, fs, header⟩ := execHeader_of_run loaded
  refine ⟨k, k₁, k₂, m₁, m₂, path, argv, elf, fs, pc, ready, entered, copied, one, header, loaded, returns, ?_⟩
  rw [exec_returns ready ⟨by decide, by decide, by decide⟩ (if_pos rfl) asked entered copied header loaded
    returns, one]
  decide

end LabKernel
