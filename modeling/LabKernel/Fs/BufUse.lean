import LabKernel.Fs.BufLinks

/-! # Use of the buffer cache

The processes go through the critical sections of `lk_buf_cache` in any order. A process that asks
for a buffer it has waits for its sleeplock and goes on no further; so few references to a buffer are
out at any time. `Tracks` ties the linked cache to one with lists, from which the shape of the links
and the state of the nodes follow. `stamp`, `asked` and `reads` are history variables: when a node
was last released, the blocks asked for, and those read from the disk.
-/

namespace LabKernel

/-- The critical sections of `lk_buf_cache`. -/
inductive CacheOp where
  | get (blockNum : U32) (page : U64)
  | put (n : Fin nBuffer)
  | freemem (count : U32)

/-- The cache, and the buffers that each process asked for and has not put. -/
structure CacheUse where
  cache : LinkedCache
  gets : Fin nProc → List (Fin nBuffer)
  fault : Bool
  clock : ℕ
  stamp : Fin nBuffer → ℕ
  asked : List U32
  reads : List U32

namespace CacheUse

def init : CacheUse := ⟨.init, fun _ => [], false, 0, fun _ => 0, [], []⟩

/-- The process asked for a buffer that it has, and waits for itself. -/
def Stuck (u : CacheUse) (p : Fin nProc) : Prop := ¬(u.gets p).Nodup

instance (u : CacheUse) (p : Fin nProc) : Decidable (u.Stuck p) := inferInstanceAs (Decidable ¬_)

/-- A critical section of a process. One that panics, and a put of a buffer that the process has
not got, leave everything as it is. -/
def step (u : CacheUse) (p : Fin nProc) (op : CacheOp) : CacheUse :=
  if u.Stuck p then u
  else
    match op with
    | .get blockNum page =>
      match u.cache.bufferGet blockNum page with
      | .ok (n, fill, l) =>
        { u with
          cache := l
          gets := Function.update u.gets p (n :: u.gets p)
          asked := blockNum :: u.asked
          reads := if fill then blockNum :: u.reads else u.reads }
      | .error (.panic _) => u
      | .error _ => { u with fault := true }
    | .put n =>
      if n ∈ u.gets p then
        let l := u.cache.bufferPut n
        { u with
          cache := l
          gets := Function.update u.gets p ((u.gets p).erase n)
          clock := u.clock + 1
          stamp := if (l.buf n).ref = 0 then Function.update u.stamp n (u.clock + 1) else u.stamp }
      else u
    | .freemem count =>
      match u.cache.bufferFreemem count with
      | .ok (_, l) => { u with cache := l }
      | .error _ => { u with fault := true }

/-- The cache is one with lists that has the shape it should have. -/
structure Tracks (u : CacheUse) (c : BufCache Unit) : Prop where
  intact : u.fault = false
  rep : u.cache.Represents c
  listed : c.Listed
  unique : ∀ m n, (c.buf m).blockNum = (c.buf n).blockNum →
    (c.buf m).blockNum ≠ blockNumUnused → m = n
  backed : ∀ n, (c.buf n).data = none → (c.buf n).blockNum = blockNumUnused
  refs : ∀ n, (c.buf n).ref = ∑ p, (u.gets p).count n
  waits : ∀ p, (u.gets p).tail.Nodup

theorem init_tracks : Tracks init BufCache.init := by
  have start (n : Fin nBuffer) := @BufCache.init_buf Unit n
  have rep := @LinkedCache.init_represents Unit
  rw [init]
  generalize LinkedCache.init = l at rep
  refine ⟨rfl, rep, BufCache.init_listed, fun m n _ used => ?_, fun n _ => ?_, fun n => ?_,
    fun p => List.nodup_nil⟩
  · rw [start] at used
    exact absurd rfl used
  · rw [start]
  · rw [start]
    exact (Finset.sum_eq_zero fun p _ => List.count_nil).symm

namespace Tracks

variable {u : CacheUse} {c c' : BufCache Unit} {p : Fin nProc} {n : Fin nBuffer}

/-- At most two references of a process to a buffer are out. -/
theorem room (tracks : Tracks u c) (n : Fin nBuffer) : (c.buf n).ref < 2 ^ 32 - 1 := by
  have each (p : Fin nProc) : (u.gets p).count n ≤ 2 := by
    have behind := (List.nodup_iff_count_le_one.mp (tracks.waits p)) n
    cases gets : u.gets p with
    | nil => simp
    | cons m rest =>
      rw [gets, List.tail_cons] at behind
      rw [List.count_cons]
      split <;> omega
  have total : ∑ p, (u.gets p).count n ≤ ∑ _p : Fin nProc, 2 := Finset.sum_le_sum fun p _ => each p
  rw [Finset.sum_const, Finset.card_univ, Fintype.card_fin, smul_eq_mul] at total
  rw [tracks.refs n]
  have few : nProc * 2 = 64 := rfl
  omega

private theorem count_cons (gets : Fin nProc → List (Fin nBuffer)) (p : Fin nProc) (n m : Fin nBuffer) :
    ∑ q, (Function.update gets p (n :: gets p) q).count m =
      ∑ q, (gets q).count m + if m = n then 1 else 0 := by
  have each (q : Fin nProc) : (Function.update gets p (n :: gets p) q).count m =
      (gets q).count m + if q = p then (if m = n then 1 else 0) else 0 := by
    rcases eq_or_ne q p with rfl | other
    · rw [Function.update_self, if_pos rfl, List.count_cons]
      rcases eq_or_ne m n with rfl | apart
      · simp
      · simp [apart, apart.symm]
    · rw [Function.update_of_ne other, if_neg other, Nat.add_zero]
  rw [Finset.sum_congr rfl fun q _ => each q, Finset.sum_add_distrib, Finset.sum_ite_eq']
  simp

private theorem count_erase (gets : Fin nProc → List (Fin nBuffer)) {p : Fin nProc} {n : Fin nBuffer}
    (member : n ∈ gets p) (m : Fin nBuffer) :
    ∑ q, (gets q).count m =
      ∑ q, (Function.update gets p ((gets p).erase n) q).count m + if m = n then 1 else 0 := by
  have each (q : Fin nProc) : (gets q).count m =
      (Function.update gets p ((gets p).erase n) q).count m +
        if q = p then (if m = n then 1 else 0) else 0 := by
    rcases eq_or_ne q p with rfl | other
    · rw [Function.update_self, if_pos rfl]
      rcases eq_or_ne m n with rfl | apart
      · have := List.count_pos_iff.mpr member
        rw [if_pos rfl, List.count_erase_self]
        omega
      · rw [if_neg apart, List.count_erase_of_ne apart, Nat.add_zero]
    · rw [Function.update_of_ne other, if_neg other, Nat.add_zero]
  rw [Finset.sum_congr rfl fun q _ => each q, Finset.sum_add_distrib, Finset.sum_ite_eq']
  simp

/-- A node that a critical section hands out. -/
theorem got (tracks : Tracks u c) (free : ¬u.Stuck p) {b : U32} {contents : Bytes} {fill : Bool}
    {l : LinkedCache} (result : c.bufferGet b contents = some (n, fill, c')) (rep : l.Represents c')
    (reads : List U32) :
    Tracks { u with
      cache := l
      gets := Function.update u.gets p (n :: u.gets p)
      asked := b :: u.asked
      reads := reads } c' := by
  obtain ⟨listed, others, node⟩ := BufCache.bufferGet_cases tracks.listed result
  have ref : (c'.buf n).ref = (c.buf n).ref + 1 := by
    obtain ⟨-, -, -, hit⟩ | ⟨-, -, zero, miss⟩ := node
    · rw [hit]
    · rw [miss, zero]
  refine ⟨tracks.intact, rep, listed, ?_, ?_, fun m => ?_, fun q => ?_⟩
  · -- after a miss the number is new, everything else keeps its number
    obtain ⟨-, -, -, hit⟩ | ⟨-, absent, -, miss⟩ := node
    · have number (m : Fin nBuffer) : (c'.buf m).blockNum = (c.buf m).blockNum := by
        rcases eq_or_ne m n with rfl | other
        · rw [hit]
        · rw [others m other]
      intro m k same used
      rw [number, number] at same
      rw [number] at used
      exact tracks.unique m k same used
    · intro m k same used
      rcases eq_or_ne m n with rfl | left
      · rcases eq_or_ne k m with rfl | right
        · rfl
        · rw [miss, others k right] at same
          exact absurd same.symm (absent k)
      · rcases eq_or_ne k n with rfl | right
        · rw [others m left, miss] at same
          exact absurd same (absent m)
        · rw [others m left, others k right] at same
          rw [others m left] at used
          exact tracks.unique m k same used
  · intro m null
    rcases eq_or_ne m n with rfl | other
    · rcases node with ⟨-, -, -, hit⟩ | ⟨-, -, -, miss⟩
      · rw [hit] at null ⊢
        exact tracks.backed m null
      · rw [miss] at null
        cases null
    · rw [others m other] at null ⊢
      exact tracks.backed m null
  · dsimp only
    rw [count_cons, ← tracks.refs m]
    rcases eq_or_ne m n with rfl | other
    · rw [if_pos rfl, ref]
    · rw [if_neg other, others m other, Nat.add_zero]
  · dsimp only
    rcases eq_or_ne q p with rfl | other
    · rw [Function.update_self]
      exact not_not.mp free
    · rw [Function.update_of_ne other]
      exact tracks.waits q

theorem held (tracks : Tracks u c) (member : n ∈ u.gets p) : (c.buf n).ref ≠ 0 := by
  rw [tracks.refs n]
  have positive := List.count_pos_iff.mpr member
  have part : (u.gets p).count n ≤ ∑ q, (u.gets q).count n :=
    Finset.single_le_sum (f := fun q => (u.gets q).count n) (fun _ _ => Nat.zero_le _)
      (Finset.mem_univ p)
  omega

theorem released (tracks : Tracks u c) (free : ¬u.Stuck p) (member : n ∈ u.gets p)
    (clock : ℕ) (stamp : Fin nBuffer → ℕ) :
    Tracks { u with
      cache := u.cache.bufferPut n
      gets := Function.update u.gets p ((u.gets p).erase n)
      clock := clock
      stamp := stamp } (c.bufferPut n) := by
  have fields (m : Fin nBuffer) : ((c.bufferPut n).buf m).blockNum = (c.buf m).blockNum ∧
      ((c.bufferPut n).buf m).data = (c.buf m).data := by
    rcases eq_or_ne m n with rfl | other
    · rw [BufCache.bufferPut_same]
      exact ⟨rfl, rfl⟩
    · rw [BufCache.bufferPut_other _ _ other]
      exact ⟨rfl, rfl⟩
  have held := tracks.held member
  refine ⟨tracks.intact, tracks.rep.bufferPut tracks.listed held, tracks.listed.bufferPut, ?_, ?_,
    fun m => ?_, fun q => ?_⟩
  · intro m k same used
    rw [(fields m).1, (fields k).1] at same
    rw [(fields m).1] at used
    exact tracks.unique m k same used
  · intro m null
    rw [(fields m).2] at null
    rw [(fields m).1]
    exact tracks.backed m null
  · have count := count_erase u.gets member m
    rw [← tracks.refs m] at count
    rcases eq_or_ne m n with rfl | other
    · rw [if_pos rfl] at count
      rw [BufCache.bufferPut_same]
      dsimp only
      omega
    · rw [if_neg other, Nat.add_zero] at count
      rw [BufCache.bufferPut_other _ _ other]
      exact count
  · dsimp only
    rcases eq_or_ne q p with rfl | other
    · rw [Function.update_self]
      exact ((not_not.mp free).erase n).sublist (List.tail_sublist _)
    · rw [Function.update_of_ne other]
      exact tracks.waits q

theorem stripped (tracks : Tracks u c) {l : LinkedCache} (count : ℕ)
    (rep : l.Represents (c.bufferFreemem count)) :
    Tracks { u with cache := l } (c.bufferFreemem count) := by
  obtain ⟨listed, each⟩ := BufCache.bufferFreemem_spec tracks.listed count
  refine ⟨tracks.intact, rep, listed, fun m k same used => ?_, fun m null => ?_, fun m => ?_,
    tracks.waits⟩
  · obtain left | ⟨-, gone⟩ := each m
    · obtain right | ⟨-, gone⟩ := each k
      · rw [left, right] at same
        rw [left] at used
        exact tracks.unique m k same used
      · rw [gone] at same
        exact absurd same used
    · rw [gone] at used
      exact absurd rfl used
  · obtain kept | ⟨-, gone⟩ := each m
    · rw [kept] at null ⊢
      exact tracks.backed m null
    · rw [gone]
  · obtain kept | ⟨-, gone⟩ := each m
    · rw [kept]
      exact tracks.refs m
    · rw [gone]
      exact tracks.refs m

/-- What a critical section does: nothing, or what the operation on lists does. -/
theorem step_cases (tracks : Tracks u c) (p : Fin nProc) (op : CacheOp) :
    u.step p op = u ∨
    (∃ b page n fill l c', op = .get b page ∧ ¬u.Stuck p ∧
      u.cache.bufferGet b page = .ok (n, fill, l) ∧
      c.bufferGet b (fun _ => 0) = some (n, fill, c') ∧ l.Represents c' ∧
      u.step p op = { u with
        cache := l
        gets := Function.update u.gets p (n :: u.gets p)
        asked := b :: u.asked
        reads := if fill then b :: u.reads else u.reads }) ∨
    (∃ n, op = .put n ∧ ¬u.Stuck p ∧ n ∈ u.gets p ∧
      u.step p op = { u with
        cache := u.cache.bufferPut n
        gets := Function.update u.gets p ((u.gets p).erase n)
        clock := u.clock + 1
        stamp := if ((c.bufferPut n).buf n).ref = 0 then Function.update u.stamp n (u.clock + 1)
          else u.stamp }) ∨
    ∃ count freed l, op = .freemem count ∧ ¬u.Stuck p ∧
      u.cache.bufferFreemem count = .ok (freed, l) ∧
      l.Represents (c.bufferFreemem count.toNat) ∧ u.step p op = { u with cache := l } := by
  by_cases free : u.Stuck p
  · exact Or.inl (if_pos free)
  · cases op with
    | get b page =>
      obtain ⟨n, fill, l, c', linked, result, rep⟩ | ⟨panics, -⟩ :=
        tracks.rep.bufferGet tracks.room b page fun _ => 0
      · refine Or.inr (Or.inl ⟨b, page, n, fill, l, c', rfl, free, linked, result, rep, ?_⟩)
        simp only [CacheUse.step, if_neg free, linked]
      · refine Or.inl ?_
        simp only [CacheUse.step, if_neg free, panics]
    | put n =>
      by_cases member : n ∈ u.gets p
      · refine Or.inr (Or.inr (Or.inl ⟨n, rfl, free, member, ?_⟩))
        have refs := ((tracks.rep.bufferPut tracks.listed (tracks.held member)).buf n).ref
        have zero : ((u.cache.bufferPut n).buf n).ref = 0 ↔ ((c.bufferPut n).buf n).ref = 0 := by
          rw [← refs]
          exact ⟨fun same => by rw [same]; rfl, fun same => BitVec.eq_of_toNat_eq same⟩
        simp only [CacheUse.step, if_neg free, if_pos member, zero]
      · refine Or.inl ?_
        simp only [CacheUse.step, if_neg free, if_neg member]
    | freemem count =>
      obtain ⟨freed, l, linked, rep⟩ := tracks.rep.bufferFreemem count
      refine Or.inr (Or.inr (Or.inr ⟨count, freed, l, rfl, free, linked, rep, ?_⟩))
      simp only [CacheUse.step, if_neg free, linked]

/-- Every critical section keeps the cache in shape. -/
theorem step (tracks : Tracks u c) (p : Fin nProc) (op : CacheOp) : ∃ c', Tracks (u.step p op) c' := by
  obtain same | ⟨b, page, n, fill, l, c', -, free, -, result, rep, after⟩ |
    ⟨n, -, free, member, after⟩ | ⟨count, freed, l, -, -, -, rep, after⟩ := tracks.step_cases p op
  · exact ⟨c, by rwa [same]⟩
  · exact ⟨c', after ▸ tracks.got free result rep _⟩
  · exact ⟨_, after ▸ tracks.released free member _ _⟩
  · exact ⟨_, after ▸ tracks.stripped _ rep⟩

end Tracks

/-- A sequence of critical sections of the processes. -/
def run (u : CacheUse) (ops : List (Fin nProc × CacheOp)) : CacheUse :=
  ops.foldl (fun u op => u.step op.1 op.2) u

private theorem run_tracks {u : CacheUse} {c : BufCache Unit} (tracks : Tracks u c)
    (ops : List (Fin nProc × CacheOp)) : ∃ c', Tracks (u.run ops) c' := by
  induction ops generalizing u c with
  | nil => exact ⟨c, tracks⟩
  | cons op ops ih =>
    obtain ⟨c', next⟩ := tracks.step op.1 op.2
    exact ih next

end CacheUse

/-- The representation invariant: two circular lists, each node on one of them, on the active one
while it has references; a block has one node; a node without a page is unused. -/
def LinkedCache.WellFormed (l : LinkedCache) : Prop :=
  ∃ active inactive : List (Fin nBuffer),
    l.links.Ring .active (ptrs active) ∧ l.links.Ring .inactive (ptrs inactive) ∧
    (∀ n, n ∈ active ↔ n ∉ inactive) ∧
    (∀ n, n ∈ active ↔ 0 < (l.buf n).ref) ∧
    (∀ m n, (l.buf m).blockNum = (l.buf n).blockNum → (l.buf m).blockNum ≠ blockNumUnused → m = n) ∧
    ∀ n, (l.buf n).data = none → (l.buf n).blockNum = blockNumUnused

/-- After `buffer_init` and any sequence of critical sections the representation invariant holds,
and no section met a null link or a list without end. -/
theorem CacheUse.run_wellFormed (ops : List (Fin nProc × CacheOp)) :
    (init.run ops).fault = false ∧ (init.run ops).cache.WellFormed := by
  obtain ⟨c, tracks⟩ := run_tracks init_tracks ops
  have positive (n : Fin nBuffer) : 0 < ((init.run ops).cache.buf n).ref ↔ (c.buf n).ref ≠ 0 := by
    rw [BitVec.lt_def, (tracks.rep.buf n).ref]
    exact Nat.pos_iff_ne_zero
  refine ⟨tracks.intact, c.active, c.inactive, tracks.rep.rings.first, tracks.rep.rings.second,
    fun n => ?_, fun n => ?_, fun m n same used => ?_, fun n null => ?_⟩
  · rw [tracks.listed.mem_active, tracks.listed.mem_inactive]
  · rw [tracks.listed.mem_active, positive]
  · rw [(tracks.rep.buf m).blockNum, (tracks.rep.buf n).blockNum] at same
    rw [(tracks.rep.buf m).blockNum] at used
    exact tracks.unique m n same used
  · rw [(tracks.rep.buf n).blockNum]
    exact tracks.backed n ((tracks.rep.buf n).data.mp null)

end LabKernel
