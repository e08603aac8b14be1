import LabKernel.Fs.Buf
import LabKernel.Lib.Counting
import LabKernel.Lib.Transition

/-! # The buffer cache under concurrency

Any number of processes use the buffer cache, each step of any of them interleaved with the steps of
the others: the critical section of `lk_buf_cache`, the acquisition of the sleeplock and the disk
transfer are separate. A miss makes its block number visible before the disk is read, and a node has
no mark that says so. A second process that finds the node and gets the sleeplock first is handed
data that never came from the disk. Where that order is ruled out, every buffer handed out is
current.
-/

namespace LabKernel

/-- Where a process is in the buffer code. -/
inductive BufPhase where
  | idle
  /-- In `buffer_get`, before `sleeplock_acquire`; the node has to be filled if it missed. -/
  | acquiring (n : Fin nBuffer) (blockNum : U32) (fill : Bool)
  /-- In `buffer_read`. -/
  | reading (n : Fin nBuffer) (blockNum : U32)
  /-- In `buffer_write`. -/
  | writing (n : Fin nBuffer)
  /-- In `buffer_put`, before `sleeplock_release`. -/
  | releasing (n : Fin nBuffer)
deriving DecidableEq

structure BufState (P : Type) where
  cache : BufCache P
  disk : Disk
  phase : P → BufPhase

inductive BufAction (P : Type) where
  | get (p : P) (blockNum : U32) (page : Bytes)
  | lock (p : P)
  | readDone (p : P)
  | modify (p : P) (n : Fin nBuffer) (data : Bytes)
  | writeStart (p : P) (n : Fin nBuffer)
  | writeDone (p : P)
  | put (p : P) (n : Fin nBuffer)
  | unlock (p : P)
  | freemem (p : P) (count : ℕ)

variable {P : Type}

/-- The process waits for the node with the number, or reads it from the disk. -/
def BufPhase.Pending (n : Fin nBuffer) (b : U32) : BufPhase → Prop
  | .acquiring m k _ => m = n ∧ k = b
  | .reading m k => m = n ∧ k = b
  | _ => False

/-- The process has to fill the node from the disk. -/
def BufPhase.Filling (n : Fin nBuffer) : BufPhase → Prop
  | .acquiring m _ fill => m = n ∧ fill = true
  | .reading m _ => m = n
  | _ => False

/-- The process is inside a step on a node whose sleeplock it has. -/
def BufPhase.Inside (n : Fin nBuffer) : BufPhase → Prop
  | .reading m _ => m = n
  | .writing m => m = n
  | .releasing m => m = n
  | _ => False

section

variable [DecidableEq P]

/-- The steps of the buffer code. Callers write a buffer they changed before they put it, and leave
one alone that they have not got. -/
inductive BufStep : BufState P → BufAction P → BufState P → Prop
  /-- The critical section of `buffer_get`. -/
  | get {s p b page n fill c} (idle : s.phase p = .idle)
      (got : s.cache.bufferGet b page = some (n, fill, c)) :
      BufStep s (.get p b page) ⟨c, s.disk, Function.update s.phase p (.acquiring n b fill)⟩
  /-- `sleeplock_acquire` after a hit: `buffer_get` returns. -/
  | hit {s p n b} (phase : s.phase p = .acquiring n b false) (free : (s.cache.buf n).slk = none) :
      BufStep s (.lock p) ⟨s.cache.update n fun buf => { buf with slk := some p }, s.disk,
        Function.update s.phase p .idle⟩
  /-- `sleeplock_acquire` after a miss: the disk is read next. -/
  | miss {s p n b} (phase : s.phase p = .acquiring n b true) (free : (s.cache.buf n).slk = none) :
      BufStep s (.lock p) ⟨s.cache.update n fun buf => { buf with slk := some p }, s.disk,
        Function.update s.phase p (.reading n b)⟩
  /-- The transfer of `buffer_read` ends: `buffer_get` returns. -/
  | readDone {s p n b} (phase : s.phase p = .reading n b) :
      BufStep s (.readDone p)
        ⟨s.cache.update n fun buf =>
          { buf with data := some (s.disk (diskBlock buf.blockNum)), modified := false },
          s.disk, Function.update s.phase p .idle⟩
  /-- The holder of a buffer changes its data. -/
  | modify {s p n data} (idle : s.phase p = .idle) (holder : (s.cache.buf n).slk = some p)
      (backed : (s.cache.buf n).data ≠ none) :
      BufStep s (.modify p n data)
        ⟨s.cache.update n fun buf => { buf with data := some data, modified := true }, s.disk,
          s.phase⟩
  | writeStart {s p n} (idle : s.phase p = .idle) (holder : (s.cache.buf n).slk = some p) :
      BufStep s (.writeStart p n) ⟨s.cache, s.disk, Function.update s.phase p (.writing n)⟩
  /-- The transfer of `buffer_write` ends. -/
  | writeDone {s p n data} (phase : s.phase p = .writing n)
      (backed : (s.cache.buf n).data = some data) :
      BufStep s (.writeDone p) ⟨s.cache.update n fun buf => { buf with modified := false },
        Function.update s.disk (diskBlock (s.cache.buf n).blockNum) data, Function.update s.phase p .idle⟩
  /-- The critical section of `buffer_put`. -/
  | put {s p n} (idle : s.phase p = .idle) (holder : (s.cache.buf n).slk = some p)
      (written : (s.cache.buf n).modified = false) :
      BufStep s (.put p n) ⟨s.cache.bufferPut n, s.disk, Function.update s.phase p (.releasing n)⟩
  /-- `sleeplock_release` in `buffer_put`. -/
  | unlock {s p n} (phase : s.phase p = .releasing n) :
      BufStep s (.unlock p) ⟨s.cache.update n fun buf => { buf with slk := none }, s.disk,
        Function.update s.phase p .idle⟩
  | freemem {s p count} (idle : s.phase p = .idle) :
      BufStep s (.freemem p count) ⟨s.cache.bufferFreemem count, s.disk, s.phase⟩

end

namespace BufState

/-- The state in which `buffer_init` leaves the cache. -/
def init (disk : Disk) : BufState P := ⟨.init, disk, fun _ => .idle⟩

/-- The process, node and block number of a `buffer_get` that returns in a step. -/
def returned (s : BufState P) : BufAction P → Option (P × Fin nBuffer × U32)
  | .lock p =>
    match s.phase p with
    | .acquiring n b false => some (p, n, b)
    | _ => none
  | .readDone p =>
    match s.phase p with
    | .reading n b => some (p, n, b)
    | _ => none
  | _ => none

/-- What keeps buffers current: the block has a sector of its own, and a process that found a node does
not get its sleeplock while another one still has to fill it. -/
def Careful (s : BufState P) : BufAction P → Prop
  | .get _ b _ => b.toNat < sectorBlocks
  | .lock p => ∀ n b, s.phase p = .acquiring n b false → ∀ q, ¬(s.phase q).Filling n
  | _ => True

/-- The references of a process to a node: one while it waits for it or reads it, and one while it
holds it and has not given it back. -/
def refs (phase : BufPhase) (holder : Bool) (n : Fin nBuffer) : ℕ :=
  match phase with
  | .acquiring m _ _ => (if m = n then 1 else 0) + holder.toNat
  | .reading m _ => if m = n then 1 else holder.toNat
  | .releasing m => if m = n then 0 else holder.toNat
  | _ => holder.toNat

variable [DecidableEq P]

/-- The references of process `p` to node `n`. -/
def refsOf (s : BufState P) (n : Fin nBuffer) (p : P) : ℕ :=
  refs (s.phase p) ((s.cache.buf n).slk == some p) n

structure Coherent [Fintype P] (s : BufState P) : Prop where
  listed : s.cache.Listed
  count : ∀ n, (s.cache.buf n).ref = ∑ p, s.refsOf n p
  pending : ∀ p n b, (s.phase p).Pending n b →
    (s.cache.buf n).blockNum = b ∧ (s.cache.buf n).data ≠ none
  inside : ∀ p n, (s.phase p).Inside n → (s.cache.buf n).slk = some p
  filler : ∀ p q n, (s.phase p).Filling n → (s.phase q).Filling n → p = q
  modified : ∀ n, (s.cache.buf n).modified = true →
    ∃ p, (s.cache.buf n).slk = some p ∧ s.phase p ≠ .releasing n
  fresh : ∀ n data, (s.cache.buf n).data = some data → (s.cache.buf n).modified = false →
    (∀ p, ¬(s.phase p).Filling n) → data = s.disk (diskBlock (s.cache.buf n).blockNum)
  unique : ∀ m n, (s.cache.buf m).data ≠ none → (s.cache.buf n).data ≠ none →
    (s.cache.buf m).blockNum = (s.cache.buf n).blockNum → m = n
  small : ∀ n, (s.cache.buf n).data ≠ none → (s.cache.buf n).blockNum.toNat < sectorBlocks
  backed : ∀ n, (s.cache.buf n).data = none → (s.cache.buf n).blockNum = blockNumUnused

variable [Fintype P] {s : BufState P}

private theorem init_coherent (disk : Disk) : (init disk : BufState P).Coherent := by
  have cache : (init disk : BufState P).cache = .init := by rw [init]
  have buf : ∀ n, (init disk : BufState P).cache.buf n = ⟨blockNumUnused, 0, none, none, false⟩ := by
    intro n
    rw [cache, BufCache.init_buf]
  have phase : ∀ p, (init disk : BufState P).phase p = .idle := fun _ => by rw [init]
  constructor
  · rw [cache]
    exact BufCache.init_listed
  all_goals simp [refsOf, refs, buf, phase, BufPhase.Pending, BufPhase.Filling, BufPhase.Inside]

omit [Fintype P] in
private theorem pending_refs {p : P} {n : Fin nBuffer} {b : U32} (pending : (s.phase p).Pending n b) :
    s.refsOf n p ≠ 0 := by
  unfold refsOf
  cases phase : s.phase p <;> simp_all [BufPhase.Pending, refs]

omit [Fintype P] in
private theorem refsOf_congr {s s' : BufState P} {n : Fin nBuffer} {q : P} (phase : s'.phase q = s.phase q)
    (holder : (s'.cache.buf n).slk = some q ↔ (s.cache.buf n).slk = some q) :
    s'.refsOf n q = s.refsOf n q := by
  simp only [refsOf, phase, beq_eq_decide, holder]

omit [DecidableEq P] [Fintype P] in
private theorem filling_pending {p : P} {n : Fin nBuffer} (filling : (s.phase p).Filling n) :
    ∃ b, (s.phase p).Pending n b := by
  cases phase : s.phase p <;> simp_all [BufPhase.Filling, BufPhase.Pending]

omit [Fintype P] in
private theorem holder_refs {p : P} {n : Fin nBuffer} (holder : (s.cache.buf n).slk = some p)
    (kept : s.phase p ≠ .releasing n) : s.refsOf n p ≠ 0 := by
  unfold refsOf
  cases phase : s.phase p with
  | reading m =>
    simp only [refs]
    split <;> simp [holder]
  | idle | acquiring | writing | releasing => simp_all [refs]

namespace Coherent

variable {s' : BufState P}

private theorem refs_zero (coherent : s.Coherent) {n : Fin nBuffer} (free : (s.cache.buf n).ref = 0) (p : P) :
    s.refsOf n p = 0 := by
  have part : s.refsOf n p ≤ ∑ q, s.refsOf n q :=
    Finset.single_le_sum (fun _ _ => Nat.zero_le _) (Finset.mem_univ p)
  rw [← coherent.count n] at part
  omega

/-- A reference counter follows the references of the process that takes a step. -/
theorem count_step (coherent : s.Coherent) {n : Fin nBuffer} (p : P)
    (others : ∀ q, q ≠ p → s'.refsOf n q = s.refsOf n q)
    (change : (s'.cache.buf n).ref + s.refsOf n p = (s.cache.buf n).ref + s'.refsOf n p) :
    (s'.cache.buf n).ref = ∑ q, s'.refsOf n q := by
  have sum := sum_change (Finset.mem_univ p) fun q _ => others q
  have count := coherent.count n
  omega

omit [Fintype P] in
/-- A process that had no node to fill leaves no other node unfilled. -/
theorem filled_before {phase : P → BufPhase} {p : P} {new : BufPhase} {m : Fin nBuffer}
    (filled : ∀ q, ¬(Function.update phase p new q).Filling m) (still : ¬(phase p).Filling m) (q : P) :
    ¬(phase q).Filling m := by
  by_cases other : q = p
  · rwa [other]
  · simpa only [Function.update_of_ne other] using filled q

private theorem get (coherent : s.Coherent) {p : P} {b : U32} {page : Bytes} {n : Fin nBuffer} {fill : Bool}
    {c : BufCache P} (idle : s.phase p = .idle) (got : s.cache.bufferGet b page = some (n, fill, c))
    (careful : s.Careful (.get p b page)) :
    Coherent ⟨c, s.disk, Function.update s.phase p (.acquiring n b fill)⟩ := by
  obtain ⟨listed, same, ⟨rfl, found, block, here⟩ | ⟨rfl, absent, free, here⟩⟩ :=
    BufCache.bufferGet_cases coherent.listed got
  · have backed : (s.cache.buf n).data ≠ none := fun null => by
      have small : b.toNat < sectorBlocks := careful
      rw [← block, coherent.backed n null] at small
      exact absurd small (by decide)
    refine ⟨listed, fun m => ?_, fun q m k pending => ?_, fun q m inside => ?_,
      fun q r m first second => ?_, fun m changed => ?_, fun m data page clean filled => ?_,
      fun l m first second => ?_, fun m page => ?_, fun m null => ?_⟩
    · refine coherent.count_step p (fun q other => ?_) ?_
      · grind [refsOf, Function.update_apply]
      · grind [refsOf, Function.update_apply, refs]
    · have := coherent.pending q m
      grind [BufPhase.Pending, Function.update_apply]
    · have := coherent.inside q m
      grind [BufPhase.Inside, Function.update_apply]
    · have := coherent.filler q r m
      grind [BufPhase.Filling, Function.update_apply]
    · have := coherent.modified m
      grind [Function.update_apply]
    · have before := filled_before filled (by rw [idle]; exact id)
      have := coherent.fresh m data
      grind
    · have := coherent.unique l m
      grind
    · have := coherent.small m
      grind
    · have := coherent.backed m
      grind
  · -- nobody waits for a node without references
    have alone : ∀ q k, ¬(s.phase q).Pending n k := fun q k pending =>
      pending_refs pending (coherent.refs_zero free q)
    have vacant : ∀ q, ¬(s.phase q).Filling n := fun q filling =>
      (filling_pending filling).elim (alone q)
    refine ⟨listed, fun m => ?_, fun q m k pending => ?_, fun q m inside => ?_,
      fun q r m first second => ?_, fun m changed => ?_, fun m data page clean filled => ?_,
      fun l m first second => ?_, fun m page => ?_, fun m null => ?_⟩
    · refine coherent.count_step p (fun q other => ?_) ?_
      · grind [refsOf, Function.update_apply]
      · grind [refsOf, Function.update_apply, refs]
    · have := coherent.pending q m
      grind [BufPhase.Pending, Function.update_apply]
    · have := coherent.inside q m
      grind [BufPhase.Inside, Function.update_apply]
    · have := coherent.filler q r m
      grind [BufPhase.Filling, Function.update_apply]
    · have := coherent.modified m
      grind [Function.update_apply]
    · have before := filled_before filled (by rw [idle]; exact id)
      have other : m ≠ n := by
        rintro rfl
        exact filled p (by simp [BufPhase.Filling])
      have := coherent.fresh m data
      grind
    · have := coherent.unique l m
      grind
    · have small : b.toNat < sectorBlocks := careful
      have := coherent.small m
      grind
    · have := coherent.backed m
      grind

private theorem hit (coherent : s.Coherent) {p : P} {n : Fin nBuffer} {b : U32}
    (phase : s.phase p = .acquiring n b false) (free : (s.cache.buf n).slk = none) :
    Coherent ⟨s.cache.update n fun buf => { buf with slk := some p }, s.disk,
      Function.update s.phase p .idle⟩ := by
  refine ⟨?_, fun m => ?_, fun q m k pending => ?_, fun q m inside => ?_,
    fun q r m first second => ?_, fun m changed => ?_, fun m data page clean filled => ?_,
    fun l m first second => ?_, fun m page => ?_, fun m null => ?_⟩
  · exact coherent.listed.keep (f := fun buf => _) Iff.rfl
  · refine coherent.count_step p (fun q other => ?_) ?_
    · apply refsOf_congr
      · grind [Function.update_apply]
      · grind [BufCache.update_buf]
    · grind [refsOf, Function.update_apply, BufCache.update_buf, refs]
  · have := coherent.pending q m
    grind [BufPhase.Pending, Function.update_apply, BufCache.update_buf]
  · have := coherent.inside q m
    grind [BufPhase.Inside, Function.update_apply, BufCache.update_buf]
  · have := coherent.filler q r m
    grind [BufPhase.Filling, Function.update_apply]
  · have := coherent.modified m
    grind [Function.update_apply, BufCache.update_buf]
  · have before := filled_before filled (by simp [phase, BufPhase.Filling])
    have := coherent.fresh m data
    grind [Function.update_apply, BufCache.update_buf]
  · have := coherent.unique l m
    grind [Function.update_apply, BufCache.update_buf]
  · have := coherent.small m
    grind [Function.update_apply, BufCache.update_buf]
  · have := coherent.backed m
    grind [Function.update_apply, BufCache.update_buf]

private theorem miss (coherent : s.Coherent) {p : P} {n : Fin nBuffer} {b : U32}
    (phase : s.phase p = .acquiring n b true) (free : (s.cache.buf n).slk = none) :
    Coherent ⟨s.cache.update n fun buf => { buf with slk := some p }, s.disk,
      Function.update s.phase p (.reading n b)⟩ := by
  have mine := coherent.pending p n b (by simp [phase, BufPhase.Pending])
  refine ⟨?_, fun m => ?_, fun q m k pending => ?_, fun q m inside => ?_,
    fun q r m first second => ?_, fun m changed => ?_, fun m data page clean filled => ?_,
    fun l m first second => ?_, fun m page => ?_, fun m null => ?_⟩
  · exact coherent.listed.keep (f := fun buf => _) Iff.rfl
  · refine coherent.count_step p (fun q other => ?_) ?_
    · apply refsOf_congr
      · grind [Function.update_apply]
      · grind [BufCache.update_buf]
    · grind [refsOf, Function.update_apply, BufCache.update_buf, refs]
  · have := coherent.pending q m
    grind [BufPhase.Pending, Function.update_apply, BufCache.update_buf]
  · have := coherent.inside q m
    grind [BufPhase.Inside, Function.update_apply, BufCache.update_buf]
  · have := coherent.filler q r m
    grind [BufPhase.Filling, Function.update_apply]
  · have := coherent.modified m
    grind [Function.update_apply, BufCache.update_buf]
  · have before := filled_before filled (by simpa [phase, BufPhase.Filling] using filled p)
    have := coherent.fresh m data
    grind [Function.update_apply, BufCache.update_buf]
  · have := coherent.unique l m
    grind [Function.update_apply, BufCache.update_buf]
  · have := coherent.small m
    grind [Function.update_apply, BufCache.update_buf]
  · have := coherent.backed m
    grind [Function.update_apply, BufCache.update_buf]

private theorem readDone (coherent : s.Coherent) {p : P} {n : Fin nBuffer} {b : U32}
    (phase : s.phase p = .reading n b) :
    Coherent ⟨s.cache.update n fun buf =>
      { buf with data := some (s.disk (diskBlock buf.blockNum)), modified := false }, s.disk,
      Function.update s.phase p .idle⟩ := by
  have mine := coherent.pending p n b (by simp [phase, BufPhase.Pending])
  have holder := coherent.inside p n (by simp [phase, BufPhase.Inside])
  refine ⟨?_, fun m => ?_, fun q m k pending => ?_, fun q m inside => ?_,
    fun q r m first second => ?_, fun m changed => ?_, fun m data page clean filled => ?_,
    fun l m first second => ?_, fun m page => ?_, fun m null => ?_⟩
  · exact coherent.listed.keep (f := fun buf => _) Iff.rfl
  · refine coherent.count_step p (fun q other => ?_) ?_
    · apply refsOf_congr
      · grind [Function.update_apply]
      · grind [BufCache.update_buf]
    · grind [refsOf, Function.update_apply, BufCache.update_buf, refs]
  · have := coherent.pending q m
    grind [BufPhase.Pending, Function.update_apply, BufCache.update_buf]
  · have := coherent.inside q m
    grind [BufPhase.Inside, Function.update_apply, BufCache.update_buf]
  · have := coherent.filler q r m
    grind [BufPhase.Filling, Function.update_apply]
  · have := coherent.modified m
    grind [Function.update_apply, BufCache.update_buf]
  · by_cases here : m = n
    · subst here
      simpa using page.symm
    · have before := filled_before filled (by simpa [phase, BufPhase.Filling] using Ne.symm here)
      have := coherent.fresh m data
      grind [BufCache.update_buf]
  · have := coherent.unique l m
    grind [Function.update_apply, BufCache.update_buf]
  · have := coherent.small m
    grind [Function.update_apply, BufCache.update_buf]
  · have := coherent.backed m
    grind [Function.update_apply, BufCache.update_buf]

private theorem modify (coherent : s.Coherent) {p : P} {n : Fin nBuffer} {data : Bytes}
    (idle : s.phase p = .idle) (holder : (s.cache.buf n).slk = some p)
    (backed : (s.cache.buf n).data ≠ none) :
    Coherent ⟨s.cache.update n fun buf => { buf with data := some data, modified := true }, s.disk,
      s.phase⟩ := by
  refine ⟨?_, fun m => ?_, fun q m k pending => ?_, fun q m inside => ?_,
    fun q r m first second => ?_, fun m changed => ?_, fun m data page clean filled => ?_,
    fun l m first second => ?_, fun m page => ?_, fun m null => ?_⟩
  · exact coherent.listed.keep (f := fun buf => _) Iff.rfl
  · refine coherent.count_step p (fun q other => ?_) ?_
    · apply refsOf_congr
      · grind [Function.update_apply]
      · grind [BufCache.update_buf]
    · grind [refsOf, Function.update_apply, BufCache.update_buf, refs]
  · have := coherent.pending q m
    grind [BufPhase.Pending, Function.update_apply, BufCache.update_buf]
  · have := coherent.inside q m
    grind [BufPhase.Inside, Function.update_apply, BufCache.update_buf]
  · have := coherent.filler q r m
    grind [BufPhase.Filling, Function.update_apply]
  · have := coherent.modified m
    grind [Function.update_apply, BufCache.update_buf]
  · have := coherent.fresh m data
    grind [Function.update_apply, BufCache.update_buf]
  · have := coherent.unique l m
    grind [Function.update_apply, BufCache.update_buf]
  · have := coherent.small m
    grind [Function.update_apply, BufCache.update_buf]
  · have := coherent.backed m
    grind [Function.update_apply, BufCache.update_buf]

private theorem writeDone (coherent : s.Coherent) {p : P} {n : Fin nBuffer} {data : Bytes}
    (phase : s.phase p = .writing n) (backed : (s.cache.buf n).data = some data) :
    Coherent ⟨s.cache.update n fun buf => { buf with modified := false },
      Function.update s.disk (diskBlock (s.cache.buf n).blockNum) data, Function.update s.phase p .idle⟩ := by
  have holder := coherent.inside p n (by simp [phase, BufPhase.Inside])
  refine ⟨?_, fun m => ?_, fun q m k pending => ?_, fun q m inside => ?_,
    fun q r m first second => ?_, fun m changed => ?_, fun m data' page clean filled => ?_,
    fun l m first second => ?_, fun m page => ?_, fun m null => ?_⟩
  · exact coherent.listed.keep (f := fun buf => _) Iff.rfl
  · refine coherent.count_step p (fun q other => ?_) ?_
    · apply refsOf_congr
      · grind [Function.update_apply]
      · grind [BufCache.update_buf]
    · grind [refsOf, Function.update_apply, BufCache.update_buf, refs]
  · have := coherent.pending q m
    grind [BufPhase.Pending, Function.update_apply, BufCache.update_buf]
  · have := coherent.inside q m
    grind [BufPhase.Inside, Function.update_apply, BufCache.update_buf]
  · have := coherent.filler q r m
    grind [BufPhase.Filling, Function.update_apply]
  · have := coherent.modified m
    grind [Function.update_apply, BufCache.update_buf]
  · have before := filled_before filled (by simp [phase, BufPhase.Filling])
    by_cases here : m = n
    · subst here
      simpa [backed, eq_comm] using page
    · simp only [BufCache.update_other _ _ _ here] at page clean ⊢
      have apart : diskBlock (s.cache.buf m).blockNum ≠ diskBlock (s.cache.buf n).blockNum := by
        rw [diskBlock_eq (coherent.small m (by simp [page])), diskBlock_eq (coherent.small n (by simp [backed]))]
        exact fun same =>
          here (coherent.unique m n (by simp [page]) (by simp [backed]) (BitVec.eq_of_toNat_eq same))
      rw [Function.update_of_ne apart]
      exact coherent.fresh m data' page clean before
  · have := coherent.unique l m
    grind [Function.update_apply, BufCache.update_buf]
  · have := coherent.small m
    grind [Function.update_apply, BufCache.update_buf]
  · have := coherent.backed m
    grind [Function.update_apply, BufCache.update_buf]

private theorem unlock (coherent : s.Coherent) {p : P} {n : Fin nBuffer} (phase : s.phase p = .releasing n) :
    Coherent ⟨s.cache.update n fun buf => { buf with slk := none }, s.disk,
      Function.update s.phase p .idle⟩ := by
  have holder := coherent.inside p n (by simp [phase, BufPhase.Inside])
  refine ⟨?_, fun m => ?_, fun q m k pending => ?_, fun q m inside => ?_,
    fun q r m first second => ?_, fun m changed => ?_, fun m data page clean filled => ?_,
    fun l m first second => ?_, fun m page => ?_, fun m null => ?_⟩
  · exact coherent.listed.keep (f := fun buf => _) Iff.rfl
  · refine coherent.count_step p (fun q other => ?_) ?_
    · apply refsOf_congr
      · grind [Function.update_apply]
      · grind [BufCache.update_buf]
    · grind [refsOf, Function.update_apply, BufCache.update_buf, refs]
  · have := coherent.pending q m
    grind [BufPhase.Pending, Function.update_apply, BufCache.update_buf]
  · have := coherent.inside q m
    grind [BufPhase.Inside, Function.update_apply, BufCache.update_buf]
  · have := coherent.filler q r m
    grind [BufPhase.Filling, Function.update_apply]
  · have := coherent.modified m
    grind [Function.update_apply, BufCache.update_buf]
  · have before := filled_before filled (by simp [phase, BufPhase.Filling])
    have := coherent.fresh m data
    grind [Function.update_apply, BufCache.update_buf]
  · have := coherent.unique l m
    grind [Function.update_apply, BufCache.update_buf]
  · have := coherent.small m
    grind [Function.update_apply, BufCache.update_buf]
  · have := coherent.backed m
    grind [Function.update_apply, BufCache.update_buf]

/-- Only the history variables and the locks matter to a process that begins to write. -/
theorem writeStart (coherent : s.Coherent) {p : P} {n : Fin nBuffer} (idle : s.phase p = .idle)
    (holder : (s.cache.buf n).slk = some p) :
    Coherent ⟨s.cache, s.disk, Function.update s.phase p (.writing n)⟩ := by
  refine ⟨coherent.listed, fun m => ?_, fun q m k pending => ?_, fun q m inside => ?_,
    fun q r m first second => ?_, fun m changed => ?_, fun m data page clean filled => ?_,
    coherent.unique, coherent.small, coherent.backed⟩
  · refine coherent.count_step p (fun q other => ?_) ?_
    · apply refsOf_congr
      · grind [Function.update_apply]
      · rfl
    · grind [refsOf, Function.update_apply, refs]
  · have := coherent.pending q m
    grind [BufPhase.Pending, Function.update_apply]
  · have := coherent.inside q m
    grind [BufPhase.Inside, Function.update_apply]
  · have := coherent.filler q r m
    grind [BufPhase.Filling, Function.update_apply]
  · have := coherent.modified m
    grind [Function.update_apply]
  · exact coherent.fresh m data page clean
      (filled_before filled (by simp [idle, BufPhase.Filling]))

private theorem put (coherent : s.Coherent) {p : P} {n : Fin nBuffer} (idle : s.phase p = .idle)
    (holder : (s.cache.buf n).slk = some p) (written : (s.cache.buf n).modified = false) :
    Coherent ⟨s.cache.bufferPut n, s.disk, Function.update s.phase p (.releasing n)⟩ := by
  have buf : ∀ m, (s.cache.bufferPut n).buf m =
      if m = n then { s.cache.buf n with ref := (s.cache.buf n).ref - 1 } else s.cache.buf m := by
    intro m
    split
    · rename_i here
      rw [here, BufCache.bufferPut_same]
    · rename_i other
      exact BufCache.bufferPut_other _ _ other
  have some : (s.cache.buf n).ref ≠ 0 := fun free =>
    holder_refs holder (by simp [idle]) (coherent.refs_zero free p)
  refine ⟨coherent.listed.bufferPut, fun m => ?_, fun q m k pending => ?_, fun q m inside => ?_,
    fun q r m first second => ?_, fun m changed => ?_, fun m data page clean filled => ?_,
    fun l m first second => ?_, fun m page => ?_, fun m null => ?_⟩
  · refine coherent.count_step p (fun q other => ?_) ?_
    · apply refsOf_congr
      · grind [Function.update_apply]
      · grind
    · grind [refsOf, Function.update_apply, refs]
  · have := coherent.pending q m
    grind [BufPhase.Pending, Function.update_apply]
  · have := coherent.inside q m
    grind [BufPhase.Inside, Function.update_apply]
  · have := coherent.filler q r m
    grind [BufPhase.Filling, Function.update_apply]
  · have := coherent.modified m
    grind [Function.update_apply]
  · have before := filled_before filled (by simp [idle, BufPhase.Filling])
    have := coherent.fresh m data
    grind
  · have := coherent.unique l m
    grind
  · have := coherent.small m
    grind
  · have := coherent.backed m
    grind

private theorem freemem (coherent : s.Coherent) (count : ℕ) :
    Coherent ⟨s.cache.bufferFreemem count, s.disk, s.phase⟩ := by
  obtain ⟨listed, each⟩ := BufCache.bufferFreemem_spec coherent.listed count
  refine ⟨listed, fun m => ?_, fun q m k pending => ?_, fun q m inside => ?_,
    coherent.filler, fun m changed => ?_, fun m data page clean filled => ?_,
    fun l m first second => ?_, fun m page => ?_, fun m null => ?_⟩
  · have := coherent.count m
    have := each m
    grind [refsOf]
  · -- a node that somebody waits for has references and keeps its page
    have some : (s.cache.buf m).ref ≠ 0 := fun free =>
      pending_refs (s := s) pending (coherent.refs_zero free q)
    have := coherent.pending q m k pending
    have := each m
    grind
  · have := coherent.inside q m inside
    have := each m
    grind
  · have := coherent.modified m
    have := each m
    grind
  · have := coherent.fresh m data
    have := each m
    grind
  · have := coherent.unique l m
    have := each l
    have := each m
    grind
  · have := coherent.small m
    have := each m
    grind
  · have := coherent.backed m
    have := each m
    grind

/-- A careful step keeps the invariant. -/
theorem step (coherent : s.Coherent) {a : BufAction P} (careful : s.Careful a)
    (step : BufStep s a s') : s'.Coherent := by
  cases step with
  | get idle got => exact coherent.get idle got careful
  | hit phase free => exact coherent.hit phase free
  | miss phase free => exact coherent.miss phase free
  | readDone phase => exact coherent.readDone phase
  | modify idle holder backed => exact coherent.modify idle holder backed
  | writeStart idle holder => exact coherent.writeStart idle holder
  | writeDone phase backed => exact coherent.writeDone phase backed
  | put idle holder written => exact coherent.put idle holder written
  | unlock phase => exact coherent.unlock phase
  | freemem idle => exact coherent.freemem _

end Coherent

private theorem run_coherent {disk : Disk} {actions : List (BufAction P)}
    (run : Run (Guarded Careful BufStep) (init disk) actions s) : s.Coherent :=
  run.invariant (fun _ _ _ step coherent => coherent.step step.1 step.2) (init_coherent disk)

/-- A careful step in which `buffer_get` returns hands out a buffer that is current. -/
theorem Coherent.returned {s' : BufState P} (coherent : s.Coherent) {a : BufAction P}
    (careful : s.Careful a) (step : BufStep s a s') {p : P} {n : Fin nBuffer} {b : U32}
    (result : s.returned a = some (p, n, b)) :
    (s'.cache.buf n).slk = some p ∧ (s'.cache.buf n).blockNum = b ∧
      (s'.cache.buf n).data = some (s'.disk b.toNat) := by
  cases step with
  | @hit q m k phase free =>
    obtain ⟨rfl, rfl, rfl⟩ : q = p ∧ m = n ∧ k = b := by
      simpa [BufState.returned, phase] using result
    obtain ⟨block, backed⟩ := coherent.pending q m k (by simp [phase, BufPhase.Pending])
    obtain ⟨data, page⟩ := Option.ne_none_iff_exists'.mp backed
    have clean : (s.cache.buf m).modified = false := by
      cases changed : (s.cache.buf m).modified with
      | false => rfl
      | true =>
        obtain ⟨r, holder, -⟩ := coherent.modified m changed
        rw [free] at holder
        cases holder
    have current := coherent.fresh m data page clean (careful m k phase)
    rw [diskBlock_eq (coherent.small m backed), block] at current
    simp [block, page, current]
  | miss phase free => simp [BufState.returned, phase] at result
  | @readDone q m k phase =>
    obtain ⟨rfl, rfl, rfl⟩ : q = p ∧ m = n ∧ k = b := by
      simpa [BufState.returned, phase] using result
    obtain ⟨block, backed⟩ := coherent.pending q m k (by simp [phase, BufPhase.Pending])
    have holder := coherent.inside q m (by simp [phase, BufPhase.Inside])
    have own := diskBlock_eq (coherent.small m backed)
    rw [block] at own
    simp [block, holder, own]
  | get | modify | writeStart | writeDone | put | unlock | freemem =>
    simp [BufState.returned] at result

/-- In every careful run, each `buffer_get` that returns hands out a buffer with the block number
asked for and the data that the disk holds for it. -/
theorem get_fresh {disk : Disk} {actions : List (BufAction P)} {s' : BufState P} {a : BufAction P}
    (run : Run (Guarded Careful BufStep) (init disk) actions s) (step : Guarded Careful BufStep s a s')
    {p : P} {n : Fin nBuffer} {b : U32} (result : s.returned a = some (p, n, b)) :
    (s'.cache.buf n).slk = some p ∧ (s'.cache.buf n).blockNum = b ∧
      (s'.cache.buf n).data = some (s'.disk b.toNat) :=
  (run_coherent run).returned step.1 step.2 result

omit [DecidableEq P] [Fintype P] in
/-- The first `buffer_get` finds no node and takes one. -/
theorem init_bufferGet {b : U32} (used : b ≠ blockNumUnused) (page : Bytes) :
    (BufCache.init : BufCache P).lookup b = none ∧
      ∃ n c, (BufCache.init : BufCache P).bufferGet b page = some (n, true, c) ∧
        c.active = [n] ∧ c.buf n = ⟨b, 1, none, some page, false⟩ := by
  obtain ⟨n, rest, list⟩ : ∃ n rest, (List.finRange nBuffer).reverse = n :: rest :=
    List.exists_cons_of_length_pos (by rw [List.length_reverse, List.length_finRange]; decide)
  have active : (BufCache.init : BufCache P).active = [] := by rw [BufCache.init_eq]
  have inactive : (BufCache.init : BufCache P).inactive = n :: rest := by rw [BufCache.init_eq, list]
  have buf : (BufCache.init : BufCache P).buf n = ⟨blockNumUnused, 0, none, none, false⟩ :=
    BufCache.init_buf n
  have missing : ∀ m, ((BufCache.init : BufCache P).buf m).blockNum ≠ b := by
    intro m
    rw [BufCache.init_buf]
    exact used.symm
  refine ⟨BufCache.lookup_none missing, n, _, BufCache.bufferGet_miss missing inactive, ?_, ?_⟩
  · simp only [BufCache.insertNode, BufCache.update_active, active, List.erase_nil]
  · rw [BufCache.insertNode_buf, BufCache.update_same, buf]
    rfl

/-- What the two processes below can see: a node, their phases and block 5 of the disk. -/
private structure Seen (s : BufState (Fin 2)) (n : Fin nBuffer) (buf : Buffer (Fin 2))
    (first second : BufPhase) (data : Bytes) : Prop where
  buf : s.cache.buf n = buf
  first : s.phase 0 = first
  second : s.phase 1 = second
  disk : s.disk 5 = data

/-- Process 0 misses block 5 and publishes its node; process 1 finds the node before it is filled. -/
private theorem both_ask : ∃ (n : Fin nBuffer) (s : BufState (Fin 2)),
    Run (Guarded Careful BufStep) (init fun _ _ => 1)
      [.get 0 5 fun _ => 0, .get 1 5 fun _ => 0] s ∧
    Seen s n ⟨5, 2, none, some fun _ => 0, false⟩ (.acquiring n 5 true) (.acquiring n 5 false)
      (fun _ => 1) := by
  obtain ⟨-, n, c, got, active, buf⟩ := init_bufferGet (P := Fin 2) (b := 5) (by decide) fun _ => 0
  obtain ⟨start, cache⟩ : ∃ start : BufCache (Fin 2), BufCache.init = start := ⟨_, rfl⟩
  have base : (init fun _ _ => 1) = (⟨start, fun _ _ => 1, fun _ => .idle⟩ : BufState (Fin 2)) := by
    rw [init, cache]
  rw [cache] at got
  have again : c.bufferGet 5 (fun _ => 0) =
      some (n, false, c.update n fun buf => { buf with ref := buf.ref + 1 }) := by
    simp [BufCache.bufferGet, BufCache.search, active, buf]
  have small : (5 : U32).toNat < sectorBlocks := by decide
  rw [base]
  refine ⟨n, _, .cons ⟨small, .get rfl got⟩
    (.cons ⟨small, .get (by simp) again⟩ (.nil _)), ?_, ?_, ?_, rfl⟩
  · simp [buf]
  · simp
  · simp

/-- Both processes ask for block 5 before it is read. Process 0 takes the lock first, reads the block, changes and
writes it and puts it back; process 1, which then gets the lock, is handed what process 0 wrote. -/
theorem get_fresh_shared : ∃ (n : Fin nBuffer) (s s' : BufState (Fin 2)),
    Run (Guarded Careful BufStep) (init fun _ _ => 1)
      [.get 0 5 fun _ => 0, .get 1 5 fun _ => 0, .lock 0, .readDone 0, .modify 0 n fun _ => 2,
        .writeStart 0 n, .writeDone 0, .put 0 n, .unlock 0] s ∧
      Guarded Careful BufStep s (.lock 1) s' ∧ s.returned (.lock 1) = some (1, n, 5) ∧
      s'.disk 5 = (fun _ => 2) ∧ (s'.cache.buf n).slk = some 1 ∧ (s'.cache.buf n).blockNum = 5 ∧
      (s'.cache.buf n).data = some (s'.disk (5 : U32).toNat) := by
  obtain ⟨n, s, asked, seen⟩ := both_ask
  obtain ⟨s₁, lock, seen⟩ : ∃ t, Guarded Careful BufStep s (.lock 0) t ∧
      Seen t n ⟨5, 2, some 0, some fun _ => 0, false⟩ (.reading n 5) (.acquiring n 5 false) fun _ => 1 := by
    refine ⟨_, ⟨fun m b phase => ?_, .miss seen.first (by rw [seen.buf])⟩, ?_, ?_, ?_, seen.disk⟩
    · rw [seen.first] at phase
      cases phase
    · simp [seen.buf]
    · simp
    · simp [seen.second]
  obtain ⟨s₂, read, seen⟩ : ∃ t, Guarded Careful BufStep s₁ (.readDone 0) t ∧
      Seen t n ⟨5, 2, some 0, some fun _ => 1, false⟩ .idle (.acquiring n 5 false) fun _ => 1 := by
    refine ⟨_, ⟨trivial, .readDone seen.first⟩, ?_, ?_, ?_, seen.disk⟩
    · have own : diskBlock 5#32 = 5 := by decide
      simp [seen.buf, own, seen.disk]
    · simp
    · simp [seen.second]
  obtain ⟨s₃, change, seen⟩ : ∃ t, Guarded Careful BufStep s₂ (.modify 0 n fun _ => 2) t ∧
      Seen t n ⟨5, 2, some 0, some fun _ => 2, true⟩ .idle (.acquiring n 5 false) fun _ => 1 := by
    refine ⟨_, ⟨trivial, .modify seen.first (by rw [seen.buf]) (by simp [seen.buf])⟩, ?_, seen.first,
      seen.second, seen.disk⟩
    simp [seen.buf]
  obtain ⟨s₄, start, seen⟩ : ∃ t, Guarded Careful BufStep s₃ (.writeStart 0 n) t ∧
      Seen t n ⟨5, 2, some 0, some fun _ => 2, true⟩ (.writing n) (.acquiring n 5 false) fun _ => 1 := by
    refine ⟨_, ⟨trivial, .writeStart seen.first (by rw [seen.buf])⟩, seen.buf, ?_, ?_, seen.disk⟩
    · simp
    · simp [seen.second]
  obtain ⟨s₅, write, seen⟩ : ∃ t, Guarded Careful BufStep s₄ (.writeDone 0) t ∧
      Seen t n ⟨5, 2, some 0, some fun _ => 2, false⟩ .idle (.acquiring n 5 false) fun _ => 2 := by
    refine ⟨_, ⟨trivial, .writeDone seen.first (by rw [seen.buf])⟩, ?_, ?_, ?_, ?_⟩
    · simp [seen.buf]
    · simp
    · simp [seen.second]
    · have own : diskBlock 5#32 = 5 := by decide
      simp [seen.buf, own]
  obtain ⟨s₆, put, seen⟩ : ∃ t, Guarded Careful BufStep s₅ (.put 0 n) t ∧
      Seen t n ⟨5, 1, some 0, some fun _ => 2, false⟩ (.releasing n) (.acquiring n 5 false) fun _ => 2 := by
    refine ⟨_, ⟨trivial, .put seen.first (by rw [seen.buf]) (by rw [seen.buf])⟩, ?_, ?_, ?_, seen.disk⟩
    · simp [seen.buf]
    · simp
    · simp [seen.second]
  obtain ⟨s₇, unlock, seen⟩ : ∃ t, Guarded Careful BufStep s₆ (.unlock 0) t ∧
      Seen t n ⟨5, 1, none, some fun _ => 2, false⟩ .idle (.acquiring n 5 false) fun _ => 2 := by
    refine ⟨_, ⟨trivial, .unlock seen.first⟩, ?_, ?_, ?_, seen.disk⟩
    · simp [seen.buf]
    · simp
    · simp [seen.second]
  have run := asked.append (.cons lock (.cons read (.cons change (.cons start (.cons write (.cons put
    (.cons unlock (.nil s₇))))))))
  obtain ⟨s₈, last, disk⟩ : ∃ t, Guarded Careful BufStep s₇ (.lock 1) t ∧ t.disk 5 = fun _ => 2 := by
    refine ⟨_, ⟨fun m b phase q filling => ?_, .hit seen.second (by rw [seen.buf])⟩, seen.disk⟩
    fin_cases q
    · simp [seen.first, BufPhase.Filling] at filling
    · simp [seen.second, BufPhase.Filling] at filling
  have result : s₇.returned (.lock 1) = some (1, n, 5) := by simp [returned, seen.second]
  exact ⟨n, s₇, s₈, run, last, result, disk, get_fresh run last result⟩

/-- Process 0 misses block 5 and publishes it; process 1 finds the node, gets the sleeplock first and
is handed the page as it was, zeros, while the disk holds ones. -/
theorem stale_get : ∃ (n : Fin nBuffer) (s s' : BufState (Fin 2)),
    Run BufStep (init fun _ _ => 1) [.get 0 5 fun _ => 0, .get 1 5 fun _ => 0] s ∧
      BufStep s (.lock 1) s' ∧ s.returned (.lock 1) = some (1, n, 5) ∧
      (s'.cache.buf n).data ≠ some (s'.disk (5 : U32).toNat) := by
  obtain ⟨n, s, asked, seen⟩ := both_ask
  have run : Run BufStep (init fun _ _ => 1) [.get 0 5 fun _ => 0, .get 1 5 fun _ => 0] s :=
    asked.refine (P := fun _ => True) trivial fun _ _ _ _ step => ⟨step.2, trivial⟩
  refine ⟨n, s, _, run, .hit seen.second (by rw [seen.buf]), by simp [returned, seen.second], ?_⟩
  intro same
  have bytes : (fun _ => 0 : Bytes) = fun _ => 1 := by simpa [seen.buf, seen.disk] using same
  exact absurd (congrFun bytes 0) (by decide)

end BufState

end LabKernel
