import LabKernel.Lib.Transition
import LabKernel.Mem.RegionPool

/-! # Calls on the node pool

The processes call `mmap`, `munmap`, `fork`, `exec`, `exit` and `wait` side by side. Every node has one
owner: the pool, or a process whose list it is on or whose call works with it. A call on two processes
holds the lock of the second, and all its nodes are the caller's until the call is over.
-/

namespace LabKernel

/-- What a call is and, for `fork` and `wait`, whose child it works on. -/
inductive RegionCall where
  | map
  | fork (child : ℕ)
  | wait (child : ℕ)
deriving DecidableEq, Repr

/-- The child whose lock the call holds -/
def RegionCall.child : RegionCall → Option ℕ
  | .map => none
  | .fork child | .wait child => some child

/-- The pool, the life of the processes, whose locks are held by calls of others, and what a process has
still to do of a call. -/
structure RegionState where
  pool : NodePool RegionNode (Option ℕ)
  state : ℕ → ProcState
  parent : ℕ → Option ℕ
  locked : ℕ → Bool
  call : ℕ → Option (RegionCall × RegionM Unit)

def mmapInit (pool : NodePool RegionNode (Option ℕ)) : NodePool RegionNode (Option ℕ) :=
  let link := (List.range (nMmap - 1)).foldl (fun link i => Function.update link i (some (i + 1))) pool.link
  { pool with sentinel := some 0, link := Function.update link (nMmap - 1) none }

/-- What happens: a process starts a call, makes one access in a call, or it executes or exits, which
leaves its list alone. `fork` takes an unused place, `wait` a child that has exited. -/
inductive RegionInput where
  | mmap (p : ℕ) (addr : U64) (len : U32)
  | munmap (p : ℕ) (addr : U64) (len : U32)
  | fork (p child : ℕ)
  | exec (p : ℕ)
  | exit (p : ℕ)
  | wait (p child : ℕ)
  | work (p : ℕ)
deriving DecidableEq, Repr

/-- `(len + PGSIZE - 1) / PGSIZE` -/
def npagesOf (len : U32) : ℕ := ((len + 4095) / 4096).toNat

namespace RegionState

/-- After `mmap_init` and `proc_make_first` -/
def init : RegionState where
  pool := mmapInit ⟨fun _ => ⟨0, 0, none⟩, fun _ => none, fun _ => none, none⟩
  state := fun p => if p = 0 then .running else .unused
  parent := fun _ => none
  locked := fun _ => false
  call := fun _ => none

def Idle (s : RegionState) (p : ℕ) : Prop := s.state p = .running ∧ (s.call p).isNone = true

instance (s : RegionState) (p : ℕ) : Decidable (s.Idle p) := inferInstanceAs (Decidable (_ ∧ _))

def start (s : RegionState) (p : ℕ) (call : RegionCall) (code : RegionM Unit) : RegionState :=
  { s with
    locked := fun q => s.locked q || decide (call.child = some q)
    call := Function.update s.call p (some (call, code)) }

/-- The end of a call: a new child runs, and the place of one that was waited for is free. -/
def finish (s : RegionState) (p : ℕ) (call : RegionCall) : RegionState :=
  let s := { s with
    locked := fun q => s.locked q && !decide (call.child = some q)
    call := Function.update s.call p none }
  match call with
  | .map => s
  | .fork child => { s with
      state := Function.update s.state child .running
      parent := Function.update s.parent child (some p) }
  | .wait child => { s with
      state := Function.update s.state child .unused
      parent := Function.update s.parent child none }

/-- One step; a panic has none, so it ends the run. -/
def step (s : RegionState) : RegionInput → Option RegionState
  | .mmap p addr len =>
    if s.Idle p then some (s.start p .map (RegionM.uvmMmap p addr.toNat (npagesOf len))) else none
  | .munmap p addr len =>
    if s.Idle p then some (s.start p .map (RegionM.uvmMunmap p addr.toNat (npagesOf len))) else none
  | .fork p child =>
    if s.Idle p ∧ child < nProc ∧ s.state child = .unused ∧ s.locked child = false then
      some (s.start p (.fork child) (RegionM.procFork p child))
    else none
  | .exec p => if s.Idle p then some s else none
  | .exit p =>
    -- the first process panics
    if s.Idle p ∧ p ≠ 0 then
      some { s with
        state := Function.update s.state p .zombie
        parent := fun q => if s.parent q = some p then some 0 else s.parent q }
    else none
  | .wait p child =>
    if s.Idle p ∧ s.state child = .zombie ∧ s.parent child = some p ∧ s.locked child = false then
      some (s.start p (.wait child) (RegionM.procFree child))
    else none
  | .work p =>
    match s.call p with
    | none => none
    | some (call, .pure _) => some (s.finish p call)
    | some (call, code) =>
      (s.pool.work code).map fun r => { s with
        pool := r.1
        call := Function.update s.call p (some (call, r.2)) }

/-- No call works on the list of the process. -/
def Rests (s : RegionState) (p : ℕ) : Prop := s.call p = none ∧ s.locked p = false

end RegionState

namespace RegionCall

variable {p : ℕ} {v v' : NodeView RegionNode (Option ℕ)} {l m : List ℕ}

/-- The processes whose lists a call works on -/
def reach (p : ℕ) (call : RegionCall) : Set ℕ := {q | q = p ∨ call.child = some q}

/-- What holds when a call is over -/
def Post (p : ℕ) : RegionCall → NodeView RegionNode (Option ℕ) → Prop
  | .map, v => ∃ l, v.Listed p l
  | .fork child, v => ∃ l m, v.ListedTwo p child l m
  | .wait child, v => ∃ l, v.ListedTwo p child l []

end RegionCall

namespace NodeView

variable {v v' : NodeView RegionNode (Option ℕ)} {p q : ℕ} {anchors : Set ℕ} {l m : List ℕ}

private theorem Agree.segment (agree : NodeView.Agree anchors v v') (reach : p ∈ anchors)
    (mine : ∀ n ∈ l, n ∈ v.mine) (segment : Segment v.links (v.anchor p) l none) :
    Segment v'.links (v'.anchor p) l none := by
  have same (n : ℕ) (member : n ∈ l) : v'.links n = v.links n :=
    congrArg RegionNode.next (agree.node n (mine n member))
  rwa [agree.anchor p reach, Segment.congr same]

private theorem Listed.congr (agree : NodeView.Agree anchors v v') (reach : p ∈ anchors) (listed : v.Listed p l) :
    v'.Listed p l :=
  ⟨agree.segment reach (fun n => (listed.mine n).mpr) listed.segment, listed.nodup, listed.small,
    fun n => agree.mine ▸ listed.mine n⟩

private theorem ListedTwo.congr (agree : NodeView.Agree anchors v v') (reachP : p ∈ anchors) (reachQ : q ∈ anchors)
    (listed : v.ListedTwo p q l m) : v'.ListedTwo p q l m :=
  ⟨agree.segment reachP (fun n member => (listed.mine n).mpr (List.mem_append_left m member)) listed.first,
    agree.segment reachQ (fun n member => (listed.mine n).mpr (List.mem_append_right l member)) listed.second,
    listed.nodup, listed.small, fun n => agree.mine ▸ listed.mine n⟩

end NodeView

private theorem RegionCall.post_congr {p : ℕ} {call : RegionCall} {v v' : NodeView RegionNode (Option ℕ)}
    (agree : NodeView.Agree (call.reach p) v v') (post : call.Post p v) : call.Post p v' := by
  cases call with
  | map =>
    obtain ⟨l, listed⟩ := post
    exact ⟨l, listed.congr agree (Or.inl rfl)⟩
  | fork child =>
    obtain ⟨l, m, listed⟩ := post
    exact ⟨l, m, listed.congr agree (Or.inl rfl) (Or.inr rfl)⟩
  | wait child =>
    obtain ⟨l, listed⟩ := post
    exact ⟨l, listed.congr agree (Or.inl rfl) (Or.inr rfl)⟩

namespace RegionState

variable {s s' : RegionState} {owner : ℕ → Option ℕ} {p : ℕ}

/-- The nodes are shared out as they should be: the free ones are on the free list, each resting process
has its nodes on its list, and each call is safe to go on with the nodes of its process. -/
structure Shared (s : RegionState) (owner : ℕ → Option ℕ) : Prop where
  free : s.pool.FreeListed nMmap owner
  rest : ∀ q, s.Rests q → ∃ l, (s.pool.view nMmap owner q).Listed q l
  busy : ∀ p call code, s.call p = some (call, code) → s.state p = .running ∧
    Safe nMmap (call.reach p) (fun _ => call.Post p) code (s.pool.view nMmap owner p)
  child : ∀ p call code q, s.call p = some (call, code) → call.child = some q → s.locked q = true
  once : ∀ p call code p' call' code' q, s.call p = some (call, code) → s.call p' = some (call', code') →
    call.child = some q → call'.child = some q → p = p'
  locked : ∀ q, s.locked q = true → s.state q ≠ .running ∧ ∀ n < nMmap, owner n ≠ some q
  held : ∀ q, s.locked q = true → ∃ p call code, s.call p = some (call, code) ∧ call.child = some q
  unused : ∀ q, s.state q = .unused → ∀ n < nMmap, owner n ≠ some q

private theorem view_congr {pool : NodePool RegionNode (Option ℕ)} {owner' : ℕ → Option ℕ} {q : ℕ}
    (same : ∀ n < nMmap, owner' n = some q ↔ owner n = some q) :
    pool.view nMmap owner' q = pool.view nMmap owner q := by
  rw [NodePool.view, NodePool.view, Set.ext fun n => and_congr_right (same n)]

private theorem freeListed_congr {pool : NodePool RegionNode (Option ℕ)} {owner' : ℕ → Option ℕ}
    (free : pool.FreeListed nMmap owner) (same : ∀ n < nMmap, owner' n = none ↔ owner n = none) :
    pool.FreeListed nMmap owner' := by
  obtain ⟨l, segment, nodup, member⟩ := free
  exact ⟨l, segment, nodup, fun n => (member n).trans (and_congr_right fun bound => (same n bound).symm)⟩

/-- A process that starts a call may take over the nodes of the child whose lock it takes. -/
theorem Shared.start (shared : s.Shared owner) (idle : s.Idle p) {call : RegionCall} {code : RegionM Unit}
    {owner' : ℕ → Option ℕ} (free : ∀ n < nMmap, owner' n = none ↔ owner n = none)
    (others : ∀ q, q ≠ p → call.child ≠ some q → ∀ n < nMmap, owner' n = some q ↔ owner n = some q)
    (child : ∀ q, call.child = some q → s.state q ≠ .running ∧ s.locked q = false ∧
      ∀ n < nMmap, owner' n ≠ some q)
    (safe : Safe nMmap (call.reach p) (fun _ => call.Post p) code (s.pool.view nMmap owner' p)) :
    (s.start p call code).Shared owner' := by
  have none : s.call p = none := Option.isNone_iff_eq_none.mp idle.2
  have calls (q : ℕ) (other : q ≠ p) : (s.start p call code).call q = s.call q :=
    Function.update_of_ne other ..
  have own : (s.start p call code).call p = some (call, code) := Function.update_self ..
  have unlocked (q : ℕ) : (s.start p call code).locked q = false → s.locked q = false ∧ call.child ≠ some q := by
    intro free
    simpa [RegionState.start] using free
  constructor
  · exact freeListed_congr shared.free free
  · rintro q ⟨rests, open'⟩
    have other : q ≠ p := by
      rintro rfl
      cases own.symm.trans rests
    obtain ⟨open', apart⟩ := unlocked q open'
    rw [calls q other] at rests
    obtain ⟨l, listed⟩ := shared.rest q ⟨rests, open'⟩
    exact ⟨l, (view_congr (others q other apart)).symm ▸ listed⟩
  · intro q call' code' busy
    by_cases same : q = p
    · rw [same, own] at busy
      cases busy
      rw [same]
      exact ⟨idle.1, safe⟩
    · rw [calls q same] at busy
      obtain ⟨runs, safe'⟩ := shared.busy q call' code' busy
      refine ⟨runs, ?_⟩
      have apart : call.child ≠ some q := fun target => (child q target).1 runs
      exact (view_congr (others q same apart)).symm ▸ safe'
  · intro q call' code' target busy reaches
    by_cases same : q = p
    · rw [same, own] at busy
      cases busy
      simp [RegionState.start, reaches]
    · rw [calls q same] at busy
      simp [RegionState.start, shared.child q call' code' target busy reaches]
  · intro q call₁ code₁ q' call₂ code₂ target busy₁ busy₂ reaches₁ reaches₂
    by_cases same : q = p <;> by_cases same' : q' = p
    · rw [same, same']
    · rw [same, own] at busy₁
      cases busy₁
      rw [calls q' same'] at busy₂
      have locked := shared.child q' call₂ code₂ target busy₂ reaches₂
      cases locked.symm.trans (child target reaches₁).2.1
    · rw [same', own] at busy₂
      cases busy₂
      rw [calls q same] at busy₁
      have locked := shared.child q call₁ code₁ target busy₁ reaches₁
      cases locked.symm.trans (child target reaches₂).2.1
    · rw [calls q same] at busy₁
      rw [calls q' same'] at busy₂
      exact shared.once q call₁ code₁ q' call₂ code₂ target busy₁ busy₂ reaches₁ reaches₂
  · intro q locked
    by_cases target : call.child = some q
    · obtain ⟨stopped, -, nothing⟩ := child q target
      exact ⟨stopped, nothing⟩
    · have before : s.locked q = true := by simpa [RegionState.start, target] using locked
      obtain ⟨stopped, nothing⟩ := shared.locked q before
      have other : q ≠ p := by
        rintro rfl
        exact stopped idle.1
      exact ⟨stopped, fun n bound => (others q other target n bound).not.mpr (nothing n bound)⟩
  · intro q locked
    by_cases target : call.child = some q
    · exact ⟨p, call, code, own, target⟩
    · have before : s.locked q = true := by simpa [RegionState.start, target] using locked
      obtain ⟨holder, call', code', busy, reaches⟩ := shared.held q before
      have other : holder ≠ p := by
        rintro rfl
        cases none.symm.trans busy
      exact ⟨holder, call', code', (calls holder other).trans busy, reaches⟩
  · intro q unused n bound
    by_cases target : call.child = some q
    · exact (child q target).2.2 n bound
    · have other : q ≠ p := by
        rintro rfl
        cases idle.1.symm.trans unused
      exact (others q other target n bound).not.mpr (shared.unused q unused n bound)

/-- An idle process rests. -/
theorem Shared.rests_of_idle (shared : s.Shared owner) (idle : s.Idle p) : s.Rests p := by
  refine ⟨Option.isNone_iff_eq_none.mp idle.2, Bool.eq_false_iff.mpr fun locked => ?_⟩
  exact (shared.locked p locked).1 idle.1

/-- So does a process that does not run and whose lock is free. -/
theorem Shared.rests_of_stopped (shared : s.Shared owner) (stopped : s.state p ≠ .running)
    (unlocked : s.locked p = false) : s.Rests p := by
  refine ⟨?_, unlocked⟩
  cases busy : s.call p with
  | none => rfl
  | some call => exact absurd (shared.busy p call.1 call.2 busy).1 stopped

private theorem Shared.fork (shared : s.Shared owner) (idle : s.Idle p) {child : ℕ} (unused : s.state child = .unused)
    (unlocked : s.locked child = false) :
    (s.start p (.fork child) (RegionM.procFork p child)).Shared owner := by
  obtain ⟨l, listed⟩ := shared.rest p (shared.rests_of_idle idle)
  have apart : p ≠ child := by
    rintro rfl
    cases idle.1.symm.trans unused
  refine shared.start idle (fun _ _ => Iff.rfl) (fun _ _ _ _ _ => Iff.rfl) ?_ ?_
  · rintro q target
    obtain rfl := Option.some.inj target
    exact ⟨by simp [unused], unlocked, shared.unused _ unused⟩
  · exact (RegionM.procFork_safe (Or.inl rfl) (Or.inr rfl) apart listed).mono fun _ v ⟨m, two⟩ => ⟨l, m, two⟩

/-- A process that exits keeps its nodes. -/
theorem Shared.exit (shared : s.Shared owner) (idle : s.Idle p) (parent : ℕ → Option ℕ) :
    Shared { s with state := Function.update s.state p .zombie, parent := parent } owner := by
  have none : s.call p = none := Option.isNone_iff_eq_none.mp idle.2
  refine ⟨shared.free, shared.rest, fun q call code busy => ?_, shared.child, shared.once, fun q locked => ?_,
    shared.held, fun q unused => ?_⟩
  · obtain ⟨runs, safe⟩ := shared.busy q call code busy
    have other : q ≠ p := by
      rintro rfl
      cases none.symm.trans busy
    exact ⟨(Function.update_of_ne other ..).trans runs, safe⟩
  · obtain ⟨stopped, nothing⟩ := shared.locked q locked
    have other : q ≠ p := by
      rintro rfl
      exact stopped idle.1
    refine ⟨fun runs => stopped ?_, nothing⟩
    exact (Function.update_of_ne other ..).symm.trans runs
  · by_cases same : q = p
    · rw [same] at unused
      cases (Function.update_self ..).symm.trans unused
    · exact shared.unused q ((Function.update_of_ne same ..).symm.trans unused)

/-- The nodes of `child` go to `p`. -/
def handOver (owner : ℕ → Option ℕ) (child p : ℕ) (n : ℕ) : Option ℕ :=
  if owner n = some child then some p else owner n

private theorem Shared.wait (shared : s.Shared owner) (idle : s.Idle p) {child : ℕ} (zombie : s.state child = .zombie)
    (unlocked : s.locked child = false) :
    ∃ owner', (s.start p (.wait child) (RegionM.procFree child)).Shared owner' := by
  obtain ⟨l, listedL⟩ := shared.rest p (shared.rests_of_idle idle)
  obtain ⟨m, listedM⟩ := shared.rest child (shared.rests_of_stopped (by simp [zombie]) unlocked)
  have apart : p ≠ child := by
    rintro rfl
    cases idle.1.symm.trans zombie
  refine ⟨handOver owner child p, shared.start idle (fun n _ => ?_) (fun q other target n _ => ?_) ?_ ?_⟩
  · rw [handOver]
    split
    · rename_i own
      rw [own]
      exact iff_of_false nofun nofun
    · rfl
  · rw [handOver]
    split
    · rename_i own
      rw [own]
      exact iff_of_false (fun same => other (Option.some.inj same).symm) target
    · rfl
  · rintro q target
    obtain rfl := Option.some.inj target
    refine ⟨by simp [zombie], unlocked, fun n _ => ?_⟩
    rw [handOver]
    split
    · exact fun same => apart (Option.some.inj same)
    · assumption
  · have mine (n : ℕ) : n ∈ (s.pool.view nMmap (handOver owner child p) p).mine ↔ n ∈ l ++ m := by
      rw [List.mem_append, ← listedL.mine n, ← listedM.mine n]
      simp only [NodePool.view, handOver, Set.mem_ofPred_eq, ← and_or_left]
      refine and_congr_right fun _ => ?_
      split
      · rename_i own
        simp [own]
      · rename_i other
        simp [other]
    have disjoint (n : ℕ) (inL : n ∈ l) (inM : n ∈ m) : False := by
      have ownL := ((listedL.mine n).mpr inL).2
      have ownM := ((listedM.mine n).mpr inM).2
      exact apart (Option.some.inj (ownL.symm.trans ownM))
    have nodup : (l ++ m).Nodup := by
      refine List.nodup_append.mpr ⟨listedL.nodup, listedM.nodup, ?_⟩
      rintro a inL b inM rfl
      exact disjoint a inL inM
    have two : (s.pool.view nMmap (handOver owner child p) p).ListedTwo p child l m :=
      ⟨listedL.segment, listedM.segment, nodup,
        fun n member => (List.mem_append.mp member).elim (listedL.small n) (listedM.small n), mine⟩
    exact (RegionM.procFree_safe (Or.inr rfl) apart two).mono fun _ v two => ⟨l, two⟩

/-- A call ends with a list for its process and one for the child. -/
theorem Shared.close (shared : s.Shared owner) {call : RegionCall} (busy : s.call p = some (call, .pure ()))
    {owner' : ℕ → Option ℕ} {state : ℕ → ProcState} (parent : ℕ → Option ℕ)
    (free : ∀ n < nMmap, owner' n = none ↔ owner n = none)
    (others : ∀ q, q ≠ p → call.child ≠ some q → ∀ n < nMmap, owner' n = some q ↔ owner n = some q)
    (states : ∀ q, call.child ≠ some q → state q = s.state q)
    (rest : ∀ q ∈ call.reach p, ∃ l, (s.pool.view nMmap owner' q).Listed q l)
    (unused : ∀ q, call.child = some q → state q = .unused → ∀ n < nMmap, owner' n ≠ some q) :
    Shared ⟨s.pool, state, parent, fun q => s.locked q && !decide (call.child = some q),
      Function.update s.call p none⟩ owner' := by
  obtain ⟨runs, -⟩ := shared.busy p call _ busy
  have open' (q : ℕ) (code : RegionCall × RegionM Unit) (busy' : Function.update s.call p none q = some code) :
      q ≠ p ∧ s.call q = some code := by
    by_cases same : q = p
    · rw [same, Function.update_self] at busy'
      cases busy'
    · exact ⟨same, (Function.update_of_ne same ..).symm.trans busy'⟩
  have stopped (q : ℕ) (target : call.child = some q) : s.state q ≠ .running :=
    (shared.locked q (shared.child p call _ q busy target)).1
  constructor
  · exact freeListed_congr shared.free free
  · rintro q ⟨rests, unlocked⟩
    by_cases reaches : q ∈ call.reach p
    · exact rest q reaches
    · obtain ⟨other, target⟩ := not_or.mp reaches
      have before : s.call q = none := (Function.update_of_ne other ..).symm.trans rests
      have unlocked : s.locked q = false := by simpa [target] using unlocked
      obtain ⟨l, listed⟩ := shared.rest q ⟨before, unlocked⟩
      exact ⟨l, (view_congr (others q other target)).symm ▸ listed⟩
  · intro q call₁ code₁ busy₁
    obtain ⟨other, before⟩ := open' q _ busy₁
    obtain ⟨runs₁, safe₁⟩ := shared.busy q call₁ code₁ before
    have apart : call.child ≠ some q := fun target => stopped q target runs₁
    exact ⟨(states q apart).trans runs₁, (view_congr (others q other apart)).symm ▸ safe₁⟩
  · intro q call₁ code₁ target busy₁ reaches
    obtain ⟨other, before⟩ := open' q _ busy₁
    have apart : call.child ≠ some target := fun both =>
      other (shared.once q call₁ code₁ p call _ target before busy reaches both)
    simp [shared.child q call₁ code₁ target before reaches, apart]
  · intro q call₁ code₁ q' call₂ code₂ target busy₁ busy₂
    exact shared.once q call₁ code₁ q' call₂ code₂ target (open' q _ busy₁).2 (open' q' _ busy₂).2
  · intro q locked
    obtain ⟨before, apart⟩ : s.locked q = true ∧ call.child ≠ some q := by simpa using locked
    obtain ⟨stops, nothing⟩ := shared.locked q before
    have other : q ≠ p := by
      rintro rfl
      exact stops runs
    refine ⟨fun runs' => stops ((states q apart).symm.trans runs'), fun n bound => ?_⟩
    exact (others q other apart n bound).not.mpr (nothing n bound)
  · intro q locked
    obtain ⟨before, apart⟩ : s.locked q = true ∧ call.child ≠ some q := by simpa using locked
    obtain ⟨holder, call', code', busy', reaches⟩ := shared.held q before
    have other : holder ≠ p := by
      rintro rfl
      cases busy.symm.trans busy'
      exact apart reaches
    exact ⟨holder, call', code', (Function.update_of_ne other ..).trans busy', reaches⟩
  · intro q ends n bound
    by_cases target : call.child = some q
    · exact unused q target ends n bound
    · have before : s.state q = .unused := (states q target).symm.trans ends
      have other : q ≠ p := by
        rintro rfl
        cases runs.symm.trans before
      exact (others q other target n bound).not.mpr (shared.unused q before n bound)

/-- A call that is over leaves the lists of its processes in order. -/
theorem Shared.finish (shared : s.Shared owner) {call : RegionCall}
    (busy : s.call p = some (call, .pure ())) : ∃ owner', (s.finish p call).Shared owner' := by
  obtain ⟨runs, post⟩ := shared.busy p call _ busy
  cases call with
  | map =>
    obtain ⟨l, listed⟩ := post
    refine ⟨owner, shared.close busy s.parent (fun _ _ => Iff.rfl) (fun _ _ _ _ _ => Iff.rfl)
      (fun _ _ => rfl) ?_ nofun⟩
    rintro q (rfl | target)
    · exact ⟨l, listed⟩
    · cases target
  | fork child =>
    obtain ⟨l, m, two⟩ := post
    obtain ⟨nodupL, nodupM, disjoint⟩ := List.nodup_append.mp two.nodup
    have locked := shared.child p _ _ child busy rfl
    obtain ⟨stopped, nothing⟩ := shared.locked child locked
    have apart : p ≠ child := by
      rintro rfl
      exact stopped runs
    have owns (n : ℕ) (member : n ∈ l ++ m) : n < nMmap ∧ owner n = some p := (two.mine n).mpr member
    let owner' (n : ℕ) : Option ℕ := if n ∈ m then some child else owner n
    have new (n : ℕ) (member : n ∈ m) : owner' n = some child := if_pos member
    have old (n : ℕ) (outside : n ∉ m) : owner' n = owner n := if_neg outside
    have mineP (n : ℕ) : n ∈ (s.pool.view nMmap owner' p).mine ↔ n ∈ l := by
      change n < nMmap ∧ owner' n = some p ↔ _
      by_cases copied : n ∈ m
      · rw [new n copied]
        exact iff_of_false (fun both => apart (Option.some.inj both.2).symm) fun member =>
          disjoint n member n copied rfl
      · rw [old n copied]
        refine (two.mine n).trans ?_
        rw [List.mem_append, or_iff_left copied]
    have mineC (n : ℕ) : n ∈ (s.pool.view nMmap owner' child).mine ↔ n ∈ m := by
      change n < nMmap ∧ owner' n = some child ↔ _
      by_cases copied : n ∈ m
      · rw [new n copied]
        exact iff_of_true ⟨(owns n (List.mem_append_right l copied)).1, rfl⟩ copied
      · rw [old n copied]
        exact iff_of_false (fun both => nothing n both.1 both.2) copied
    refine ⟨owner', shared.close busy (Function.update s.parent child (some p)) (fun n _ => ?_)
      (fun q other target n _ => ?_) (fun q target => Function.update_of_ne (by rintro rfl; exact target rfl) ..) ?_ ?_⟩
    · by_cases copied : n ∈ m
      · rw [new n copied, (owns n (List.mem_append_right l copied)).2]
        exact iff_of_false nofun nofun
      · rw [old n copied]
    · by_cases copied : n ∈ m
      · rw [new n copied, (owns n (List.mem_append_right l copied)).2]
        exact iff_of_false target fun same => other (Option.some.inj same).symm
      · rw [old n copied]
    · rintro q (rfl | target)
      · exact ⟨l, two.first, nodupL, fun n member => two.small n (List.mem_append_left m member), mineP⟩
      · obtain rfl := Option.some.inj target
        exact ⟨m, two.second, nodupM, fun n member => two.small n (List.mem_append_right l member), mineC⟩
    · rintro q target ends
      obtain rfl := Option.some.inj target
      rw [Function.update_self] at ends
      cases ends
  | wait child =>
    obtain ⟨l, two⟩ := post
    have locked := shared.child p _ _ child busy rfl
    obtain ⟨-, nothing⟩ := shared.locked child locked
    refine ⟨owner, shared.close busy (Function.update s.parent child none) (fun _ _ => Iff.rfl)
      (fun _ _ _ _ _ => Iff.rfl) (fun q target => Function.update_of_ne (by rintro rfl; exact target rfl) ..) ?_ ?_⟩
    · rintro q (rfl | target)
      · exact ⟨l, two.first, by simpa using two.nodup, by simpa using two.small, by simpa using two.mine⟩
      · obtain rfl := Option.some.inj target
        refine ⟨[], two.second, List.nodup_nil, nofun, fun n => ?_⟩
        exact iff_of_false (fun mine => nothing n mine.1 mine.2) List.not_mem_nil
    · rintro q target -
      obtain rfl := Option.some.inj target
      exact nothing

/-- An access of a call touches nothing that belongs to others. -/
theorem Shared.work (shared : s.Shared owner) {call : RegionCall} {code code' : RegionM Unit}
    (busy : s.call p = some (call, code)) {pool : NodePool RegionNode (Option ℕ)}
    (step : s.pool.work code = some (pool, code')) :
    ∃ owner', Shared { s with pool := pool, call := Function.update s.call p (some (call, code')) } owner' := by
  obtain ⟨runs, safe⟩ := shared.busy p call code busy
  obtain ⟨owner', free, safe', agree⟩ := NodePool.work_safe shared.free safe step
  have calls (q : ℕ) (other : q ≠ p) : Function.update s.call p (some (call, code')) q = s.call q :=
    Function.update_of_ne other ..
  have own : Function.update s.call p (some (call, code')) p = some (call, code') := Function.update_self ..
  have nothing (q : ℕ) (other : q ≠ p) (none : ∀ n < nMmap, owner n ≠ some q) (n : ℕ) (bound : n < nMmap) :
      owner' n ≠ some q := by
    intro same
    have mine := (agree q other ∅ (Set.disjoint_empty _)).mine
    have member : n ∈ (pool.view nMmap owner' q).mine := ⟨bound, same⟩
    rw [mine] at member
    exact none n bound member.2
  -- the processes whose lists the call works on are no others
  have apart (q : ℕ) (other : q ≠ p) (unlocked : s.locked q = false) : Disjoint (call.reach p) {q} := by
    refine Set.disjoint_singleton_right.mpr ?_
    rintro (same | target)
    · exact other same
    · cases unlocked.symm.trans (shared.child p call code q busy target)
  refine ⟨owner', free, ?_, ?_, ?_, ?_, ?_, ?_, ?_⟩
  · rintro q ⟨rests, unlocked⟩
    have other : q ≠ p := by
      rintro rfl
      cases own.symm.trans rests
    have rests : s.call q = none := (calls q other).symm.trans rests
    obtain ⟨l, listed⟩ := shared.rest q ⟨rests, unlocked⟩
    exact ⟨l, listed.congr (agree q other {q} (apart q other unlocked)) rfl⟩
  · intro q call₁ code₁ busy₁
    by_cases same : q = p
    · rw [same] at busy₁ ⊢
      cases own.symm.trans busy₁
      exact ⟨runs, safe'⟩
    · have busy₁ : s.call q = some (call₁, code₁) := (calls q same).symm.trans busy₁
      obtain ⟨runs₁, safe₁⟩ := shared.busy q call₁ code₁ busy₁
      refine ⟨runs₁, safe₁.congr (fun _ _ _ agree post => call₁.post_congr agree post) (agree q same _ ?_)⟩
      refine Set.disjoint_left.mpr ?_
      rintro k (here | left) (there | right)
      · exact same (there.symm.trans here)
      · exact (shared.locked k (shared.child q call₁ code₁ k busy₁ right)).1 (here ▸ runs)
      · exact (shared.locked k (shared.child p call code k busy left)).1 (there ▸ runs₁)
      · exact same (shared.once q call₁ code₁ p call code k busy₁ busy right left)
  · intro q call₁ code₁ target busy₁ reaches
    by_cases same : q = p
    · rw [same] at busy₁
      cases own.symm.trans busy₁
      exact shared.child p call code target busy reaches
    · exact shared.child q call₁ code₁ target ((calls q same).symm.trans busy₁) reaches
  · intro q call₁ code₁ q' call₂ code₂ target busy₁ busy₂ reaches₁ reaches₂
    -- the call is the same one as before the access
    have before (q : ℕ) (c : RegionCall) (x : RegionM Unit)
        (busy' : Function.update s.call p (some (call, code')) q = some (c, x)) : ∃ x, s.call q = some (c, x) := by
      by_cases same : q = p
      · rw [same] at busy' ⊢
        cases own.symm.trans busy'
        exact ⟨code, busy⟩
      · exact ⟨x, (calls q same).symm.trans busy'⟩
    obtain ⟨x, left⟩ := before q call₁ code₁ busy₁
    obtain ⟨y, right⟩ := before q' call₂ code₂ busy₂
    exact shared.once q call₁ x q' call₂ y target left right reaches₁ reaches₂
  · intro q locked
    obtain ⟨stopped, none⟩ := shared.locked q locked
    refine ⟨stopped, nothing q ?_ none⟩
    rintro rfl
    exact stopped runs
  · intro q locked
    obtain ⟨holder, call₁, code₁, busy₁, reaches⟩ := shared.held q locked
    by_cases same : holder = p
    · rw [same] at busy₁
      cases busy.symm.trans busy₁
      exact ⟨p, call, code', own, reaches⟩
    · exact ⟨holder, call₁, code₁, (calls holder same).trans busy₁, reaches⟩
  · intro q unused
    refine nothing q ?_ (shared.unused q unused)
    rintro rfl
    cases runs.symm.trans unused

/-! ## Runs -/

/-- The links that `mmap_init` has made are those of the nodes in their order. -/
theorem init_segment (k : ℕ) (bound : k ≤ nMmap) : Segment init.pool.link
    (if k = 0 then none else some (nMmap - k)) (List.range' (nMmap - k) k) none := by
  have links (link : ℕ → Option ℕ) (k n : ℕ) :
      (List.range k).foldl (fun link i => Function.update link i (some (i + 1))) link n =
        if n < k then some (n + 1) else link n := by
    induction k with
    | zero => rfl
    | succ k ih =>
      rw [List.range_succ, List.foldl_append, List.foldl_cons, List.foldl_nil, Function.update_apply, ih]
      grind
  induction k with
  | zero => rfl
  | succ k ih =>
    have next : init.pool.link (nMmap - (k + 1)) = if k = 0 then none else some (nMmap - k) := by
      change Function.update (List.foldl _ _ _) _ _ _ = _
      rw [Function.update_apply, links]
      grind [nMmap]
    rw [List.range'_succ, Segment.cons_iff, next, show nMmap - (k + 1) + 1 = nMmap - k by omega]
    exact ⟨rfl, ih (Nat.le_of_succ_le bound)⟩

/-- At the start all nodes are free. -/
theorem shared_init : Shared init fun _ => none := by
  refine ⟨⟨List.range' 0 nMmap, ?_, List.nodup_range', fun n => ?_⟩, fun q _ => ?_, nofun, nofun, nofun, nofun,
    nofun, fun _ _ _ _ => nofun⟩
  · exact init_segment nMmap le_rfl
  · simp
  · exact ⟨[], rfl, List.nodup_nil, nofun, fun n => iff_of_false (fun mine => nomatch mine.2) List.not_mem_nil⟩

/-- Every step keeps the nodes shared out. -/
theorem Shared.step (shared : s.Shared owner) {a : RegionInput} (step : s.step a = some s') :
    ∃ owner', s'.Shared owner' := by
  cases a with
  | mmap p addr len =>
    obtain ⟨idle, ⟨⟩⟩ := Option.ite_none_right_eq_some.mp step
    obtain ⟨l, listed⟩ := shared.rest p (shared.rests_of_idle idle)
    exact ⟨owner, shared.start idle (fun _ _ => Iff.rfl) (fun _ _ _ _ _ => Iff.rfl) nofun
      (RegionM.uvmMmap_safe (Or.inl rfl) listed ..)⟩
  | munmap p addr len =>
    obtain ⟨idle, ⟨⟩⟩ := Option.ite_none_right_eq_some.mp step
    obtain ⟨l, listed⟩ := shared.rest p (shared.rests_of_idle idle)
    exact ⟨owner, shared.start idle (fun _ _ => Iff.rfl) (fun _ _ _ _ _ => Iff.rfl) nofun
      (RegionM.uvmMunmap_safe (Or.inl rfl) listed ..)⟩
  | fork p child =>
    obtain ⟨⟨idle, -, unused, unlocked⟩, ⟨⟩⟩ := Option.ite_none_right_eq_some.mp step
    exact ⟨owner, shared.fork idle unused unlocked⟩
  | exec p =>
    obtain ⟨-, ⟨⟩⟩ := Option.ite_none_right_eq_some.mp step
    exact ⟨owner, shared⟩
  | exit p =>
    obtain ⟨⟨idle, -⟩, ⟨⟩⟩ := Option.ite_none_right_eq_some.mp step
    exact ⟨owner, shared.exit idle _⟩
  | wait p child =>
    obtain ⟨⟨idle, zombie, -, unlocked⟩, ⟨⟩⟩ := Option.ite_none_right_eq_some.mp step
    exact shared.wait idle zombie unlocked
  | work p =>
    cases busy : s.call p with
    | none =>
      rw [RegionState.step, busy] at step
      cases step
    | some call =>
      obtain ⟨call, code⟩ := call
      cases code with
      | pure =>
        rw [RegionState.step, busy] at step
        obtain rfl := Option.some.inj step
        exact shared.finish busy
      | _ =>
        rw [RegionState.step, busy] at step
        obtain ⟨⟨pool, rest⟩, access, rfl⟩ := Option.map_eq_some_iff.mp step
        exact shared.work busy access

/-- In every state of every run, each node is on the free list, on the list of one process that rests, or
with a call; on a list it is once. When no call is on its way, all processes rest. No walk over a list
goes on without end. -/
theorem nodes_conserved {inputs : List RegionInput} {t : RegionState}
    (run : Run (fun s a s' => s.step a = some s') .init inputs t) :
    ∃ owner : ℕ → Option ℕ, t.pool.FreeListed nMmap owner ∧
      (∀ p, t.Rests p → ∃ l, Segment (fun n => (t.pool.node n).next) (t.pool.anchor p) l none ∧ l.Nodup ∧
        ∀ n, n ∈ l ↔ n < nMmap ∧ owner n = some p) ∧
      (∀ n < nMmap, ∀ p, owner n = some p → t.Rests p ∨ ∃ call, t.call p = some call) ∧
      ((∀ p, t.call p = none) → ∀ p, t.Rests p) ∧
      ∀ p call, t.call p ≠ some (call, .hang) := by
  obtain ⟨owner, shared⟩ := run.invariant (P := fun s => ∃ owner, s.Shared owner)
    (fun _ _ _ step ⟨_, shared⟩ => shared.step step) ⟨_, shared_init⟩
  refine ⟨owner, shared.free, fun p rests => ?_, fun n bound p owned => ?_, fun quiet p => ⟨quiet p, ?_⟩,
    fun p call busy => (shared.busy p call _ busy).2⟩
  · obtain ⟨l, listed⟩ := shared.rest p rests
    exact ⟨l, listed.segment, listed.nodup, fun n => (listed.mine n).symm⟩
  · cases busy : t.call p with
    | some call => exact Or.inr ⟨call, rfl⟩
    | none =>
      refine Or.inl ⟨busy, Bool.eq_false_iff.mpr fun locked => ?_⟩
      exact (shared.locked p locked).2 n bound owned
  · refine Bool.eq_false_iff.mpr fun locked => ?_
    obtain ⟨holder, call, code, busy, -⟩ := shared.held p locked
    cases (quiet holder).symm.trans busy

/-- Two regions, a fork, and then the child removes one while the parent adds another. -/
theorem nodes_conserved_fork : ∃ inputs, ∃ t : RegionState,
    Run (fun (s : RegionState) a s' => s.step a = some s') .init inputs t ∧
    ∃ owner : ℕ → Option ℕ, t.pool.FreeListed nMmap owner ∧ owner 0 = some 0 ∧ owner 3 = some 1 := by
  let begin (k : ℕ) : U64 := BitVec.ofNat 64 (mmapBegin + k * pgsize)
  let inputs : List RegionInput :=
    .mmap 0 0 100 :: List.replicate 11 (.work 0) ++ .mmap 0 (begin 5) 5000 :: List.replicate 15 (.work 0) ++
    .fork 0 1 :: List.replicate 14 (.work 0) ++
    [.munmap 1 (begin 0) 4096, .mmap 0 (begin 9) 1, .work 1, .work 0, .work 1, .work 0] ++
    List.replicate 4 (.work 1) ++ List.replicate 14 (.work 0)
  obtain ⟨t, run, test⟩ := Run.exists_of_test RegionState.step .init inputs
    (fun t => (t.call 0).isNone && (t.call 1).isNone && !t.locked 0 && !t.locked 1 &&
      decide (t.pool.anchor 0 = some 0) && decide (t.pool.anchor 1 = some 3)) (by decide +kernel)
  simp only [Bool.and_eq_true, decide_eq_true_eq, Bool.not_eq_true', Option.isNone_iff_eq_none] at test
  obtain ⟨⟨⟨⟨⟨none₀, none₁⟩, open₀⟩, open₁⟩, anchor₀⟩, anchor₁⟩ := test
  obtain ⟨owner, free, lists, -⟩ := nodes_conserved run
  have first (p n : ℕ) (rests : t.Rests p) (anchor : t.pool.anchor p = some n) : owner n = some p := by
    obtain ⟨l, segment, -, member⟩ := lists p rests
    cases l with
    | nil => cases anchor.symm.trans segment
    | cons k l =>
      obtain rfl := Option.some.inj (anchor.symm.trans segment.1)
      exact ((member n).mp List.mem_cons_self).2
  exact ⟨inputs, t, run, owner, free, first 0 0 ⟨none₀, open₀⟩ anchor₀, first 1 3 ⟨none₁, open₁⟩ anchor₁⟩

end RegionState

end LabKernel
