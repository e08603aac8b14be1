import LabKernel.Fs.BufPolicy

/-! # Pages of the buffers handed out

Whole calls of the processes, one after another: a `buffer_get` that misses fills its node before the
next call begins. A node without a page carries the number `BLOCK_NUM_UNUSED` and stays on the inactive
list, so a search for this number can find it; a search for any other number cannot. A number from
`2 ^ 29` on has no sector of its own: its node is filled from another block.
-/

namespace LabKernel

/-- The node that the two searches of `buffer_get` find. -/
def LinkedCache.lookup (l : LinkedCache) (blockNum : U32) : Option (Fin nBuffer) :=
  match l.search .active blockNum with
  | some (some (.node n)) => some n
  | _ =>
    match l.search .inactive blockNum with
    | some (some (.node n)) => some n
    | _ => none

namespace CacheUse

/-- The use of the cache. `fills` is a history variable: the blocks of the disk that were read into the
page of a node since the page was attached. -/
structure Pages where
  use : CacheUse
  fills : Fin nBuffer → List ℕ

namespace Pages

def init : Pages := ⟨.init, fun _ => []⟩

/-- A `buffer_get` that misses reads the block into the page of its node, a new one or the one there. -/
def filled (s : Pages) (blockNum : U32) (page : U64) : Fin nBuffer → List ℕ :=
  match s.use.cache.bufferGet blockNum page with
  | .ok (n, true, _) =>
    Function.update s.fills n
      (diskBlock blockNum :: if (s.use.cache.buf n).data = none then [] else s.fills n)
  | _ => s.fills

def step (s : Pages) (p : Fin nProc) (op : CacheOp) : Pages :=
  ⟨s.use.step p op,
    match op with
    | .get blockNum page => if s.use.Stuck p then s.fills else s.filled blockNum page
    | _ => s.fills⟩

def run (s : Pages) (ops : List (Fin nProc × CacheOp)) : Pages :=
  ops.foldl (fun s op => s.step op.1 op.2) s

private theorem run_use (s : Pages) (ops : List (Fin nProc × CacheOp)) : (s.run ops).use = s.use.run ops := by
  induction ops generalizing s with
  | nil => rfl
  | cons op ops ih => exact ih (s.step op.1 op.2)

/-- The node has a page, which was filled from the block since it was attached. -/
def Backed (s : Pages) (n : Fin nBuffer) (blockNum : U32) : Prop :=
  (s.use.cache.buf n).data ≠ none ∧ blockNum.toNat ∈ s.fills n

/-- What holds between calls: a page was filled at the sector of its node's number, and only blocks with a
sector were read. -/
structure Sound (s : Pages) (c : BufCache Unit) : Prop where
  tracks : Tracks s.use c
  filled : ∀ n, (c.buf n).data ≠ none → diskBlock (c.buf n).blockNum ∈ s.fills n
  within : ∀ n, ∀ k ∈ s.fills n, k < sectorBlocks

private theorem init_sound : Sound init BufCache.init := by
  refine ⟨init_tracks, fun n page => ?_, fun n k member => ?_⟩
  · rw [BufCache.init_buf] at page
    exact absurd rfl page
  · cases member

variable {s : Pages} {c : BufCache Unit}

/-- What a `buffer_get` does to the history. -/
theorem filled_of_got {n : Fin nBuffer} {fill : Bool} {l : LinkedCache} {b : U32} {page : U64}
    (got : s.use.cache.bufferGet b page = .ok (n, fill, l)) :
    s.filled b page = if fill then
      Function.update s.fills n (diskBlock b :: if (s.use.cache.buf n).data = none then [] else s.fills n)
      else s.fills := by
  rw [filled, got]
  cases fill <;> rfl

private theorem fills_of_got {p : Fin nProc} (free : ¬s.use.Stuck p) {n : Fin nBuffer} {fill : Bool}
    {l : LinkedCache} {b : U32} {page : U64} (got : s.use.cache.bufferGet b page = .ok (n, fill, l)) :
    (s.step p (.get b page)).fills = if fill then
      Function.update s.fills n (diskBlock b :: if (s.use.cache.buf n).data = none then [] else s.fills n)
      else s.fills := by
  change (if s.use.Stuck p then s.fills else s.filled b page) = _
  rw [if_neg free, filled_of_got got]

/-- After a `buffer_get` every node with a page has been filled from its block. -/
theorem Sound.got (sound : Sound s c) {n : Fin nBuffer} {fill : Bool} {c' : BufCache Unit} {b : U32}
    {contents : Bytes} (result : c.bufferGet b contents = some (n, fill, c')) (list : List ℕ)
    (m : Fin nBuffer) (page : (c'.buf m).data ≠ none) : diskBlock (c'.buf m).blockNum ∈
      (if fill then Function.update s.fills n (diskBlock b :: list) else s.fills) m := by
  obtain ⟨-, others, node⟩ := BufCache.bufferGet_cases sound.tracks.listed result
  rcases node with ⟨rfl, -, -, hit⟩ | ⟨rfl, -, -, miss⟩
  · rw [if_neg Bool.false_ne_true]
    rcases eq_or_ne m n with rfl | other
    · rw [hit] at page ⊢
      exact sound.filled m page
    · rw [others m other] at page ⊢
      exact sound.filled m page
  · rw [if_pos rfl]
    rcases eq_or_ne m n with rfl | other
    · rw [Function.update_self, miss]
      exact List.mem_cons_self
    · rw [Function.update_of_ne other, others m other]
      rw [others m other] at page
      exact sound.filled m page

/-- A call that leaves the cache as it is leaves the history as it is. -/
theorem fills_of_same {p : Fin nProc} {op : CacheOp} (same : s.use.step p op = s.use) :
    (s.step p op).fills = s.fills := by
  cases op with
  | put n => rfl
  | freemem count => rfl
  | get b page =>
    change (if s.use.Stuck p then s.fills else s.filled b page) = s.fills
    by_cases free : s.use.Stuck p
    · rw [if_pos free]
    · rw [if_neg free, filled]
      cases result : s.use.cache.bufferGet b page with
      | error => rfl
      | ok r =>
        obtain ⟨n, fill, l⟩ := r
        have longer : ((s.use.step p (.get b page)).gets p).length = (s.use.gets p).length + 1 := by
          simp only [CacheUse.step, if_neg free, result, Function.update_self, List.length_cons]
        rw [same] at longer
        omega

private theorem Sound.step (sound : Sound s c) (p : Fin nProc) (op : CacheOp) :
    ∃ c', Sound (s.step p op) c' := by
  obtain ⟨tracks, pages, within⟩ := sound
  obtain same | ⟨b, page, n, fill, l, c', rfl, free, linked, result, rep, after⟩ |
    ⟨n, rfl, free, member, after⟩ | ⟨count, freed, l, rfl, free, -, rep, after⟩ :=
      tracks.step_cases p op
  · have fills := fills_of_same same
    refine ⟨c, (show (s.step p op).use = _ from same) ▸ tracks, fun n page => ?_, fun n => ?_⟩
    · rw [fills]
      exact pages n page
    · rw [fills]
      exact within n
  · have fills := fills_of_got free linked
    refine ⟨c', ?_, fun m page' => ?_, fun m k member => ?_⟩
    · change Tracks (s.use.step p (.get b page)) c'
      rw [after]
      exact tracks.got free result rep _
    · rw [fills]
      exact Sound.got ⟨tracks, pages, within⟩ result _ m page'
    · rw [fills] at member
      cases fill with
      | false => exact within m k member
      | true =>
        rw [if_pos rfl, Function.update_apply] at member
        split at member
        · rcases List.mem_cons.mp member with rfl | before
          · exact diskBlock_lt b
          · split at before
            · cases before
            · exact within n k before
        · exact within m k member
  · refine ⟨c.bufferPut n, ?_, fun m page' => ?_, within⟩
    · change Tracks (s.use.step p (.put n)) _
      rw [after]
      exact tracks.released free member _ _
    · change _ ∈ s.fills m
      rcases eq_or_ne m n with rfl | other
      · rw [BufCache.bufferPut_same] at page' ⊢
        exact pages m page'
      · rw [BufCache.bufferPut_other _ _ other] at page' ⊢
        exact pages m page'
  · refine ⟨c.bufferFreemem count.toNat, ?_, fun m page' => ?_, within⟩
    · change Tracks (s.use.step p (.freemem count)) _
      rw [after]
      exact tracks.stripped _ rep
    · change _ ∈ s.fills m
      obtain kept | ⟨-, gone⟩ := (BufCache.bufferFreemem_spec tracks.listed count.toNat).2 m
      · rw [kept] at page' ⊢
        exact pages m page'
      · rw [gone] at page'
        exact absurd rfl page'

private theorem run_sound (ops : List (Fin nProc × CacheOp)) {s : Pages} {c : BufCache Unit} (sound : Sound s c) :
    ∃ c', Sound (s.run ops) c' := by
  induction ops generalizing s c with
  | nil => exact ⟨c, sound⟩
  | cons op ops ih =>
    obtain ⟨c', next⟩ := sound.step op.1 op.2
    exact ih next

private theorem lookup_eq {l : LinkedCache} (rep : l.Represents c) (b : U32) : l.lookup b = c.lookup b := by
  rw [LinkedCache.lookup, BufCache.lookup, rep.search_active, rep.search_inactive]
  cases c.search c.active b with
  | some n => rfl
  | none => cases c.search c.inactive b <;> rfl

/-- A `buffer_get` hands out a node with a page exactly when it does not find one without a page. Its page was
filled from the block exactly when the block has a sector of its own. -/
theorem Sound.got_iff (sound : Sound s c) {p : Fin nProc} (free : ¬s.use.Stuck p) {b : U32} {page : U64}
    {n : Fin nBuffer} {fill : Bool} {l : LinkedCache}
    (got : s.use.cache.bufferGet b page = .ok (n, fill, l)) :
    (((s.step p (.get b page)).use.cache.buf n).data ≠ none ↔
      ¬(b = blockNumUnused ∧ ∃ m, s.use.cache.lookup b = some m ∧ (s.use.cache.buf m).data = none)) ∧
    ((s.step p (.get b page)).Backed n b ↔ b.toNat < sectorBlocks) := by
  have tracks := sound.tracks
  obtain ⟨n', fill', l', c', linked, result, rep⟩ | ⟨panics, -⟩ :=
    tracks.rep.bufferGet tracks.room b page fun _ => 0
  swap
  · rw [got] at panics
    cases panics
  rw [got] at linked
  obtain ⟨rfl, rfl, rfl⟩ : n = n' ∧ fill = fill' ∧ l = l' := by simpa using linked
  have cache : (s.step p (.get b page)).use.cache = l := by
    change (s.use.step p (.get b page)).cache = l
    simp only [CacheUse.step, if_neg free, got]
  have paged : (l.buf n).data ≠ none ↔
      ¬(b = blockNumUnused ∧ ∃ m, s.use.cache.lookup b = some m ∧ (s.use.cache.buf m).data = none) := by
    rw [Ne, (rep.buf n).data, lookup_eq tracks.rep]
    obtain ⟨-, -, ⟨rfl, found, number, hit⟩ | ⟨rfl, absent, -, miss⟩⟩ :=
      BufCache.bufferGet_cases tracks.listed result
    · rw [hit, found]
      constructor
      · rintro page' ⟨-, m, same, null⟩
        obtain rfl := Option.some.inj same
        exact page' ((tracks.rep.buf n).data.mp null)
      · intro careful null
        exact careful ⟨number ▸ tracks.backed n null, n, rfl, (tracks.rep.buf n).data.mpr null⟩
    · rw [miss, BufCache.lookup_none absent]
      refine iff_of_true (Option.some_ne_none _) ?_
      rintro ⟨-, m, found, -⟩
      cases found
  rw [Backed, cache]
  refine ⟨paged, fun both => ?_, fun small => ?_⟩
  · obtain ⟨c₂, after⟩ := sound.step p (.get b page)
    exact after.within n _ both.2
  · have page' : (l.buf n).data ≠ none := paged.mpr fun both => by
      rw [both.1] at small
      exact absurd small (by decide)
    have number : (c'.buf n).blockNum = b := by
      obtain ⟨-, -, ⟨-, -, number, hit⟩ | ⟨-, -, -, miss⟩⟩ := BufCache.bufferGet_cases tracks.listed result
      · rw [hit, number]
      · rw [miss]
    have member := sound.got result (if (s.use.cache.buf n).data = none then [] else s.fills n) n fun null =>
      page' ((rep.buf n).data.mpr null)
    rw [number, ← fills_of_got free got, diskBlock_eq small] at member
    exact ⟨page', member⟩

/-- In every state that calls lead to, the next `buffer_get` hands out a node with a page exactly when the
block is not `BLOCK_NUM_UNUSED` or the search for this number finds no node without a page; and the page was
filled from the block since it was attached exactly when the sector of the block fits 32 bits. -/
theorem get_backed_iff (ops : List (Fin nProc × CacheOp)) (p : Fin nProc) (b : U32) (page : U64)
    (free : ¬(init.run ops).use.Stuck p) {n : Fin nBuffer} {fill : Bool} {l : LinkedCache}
    (got : (init.run ops).use.cache.bufferGet b page = .ok (n, fill, l)) :
    ((((init.run ops).step p (.get b page)).use.cache.buf n).data ≠ none ↔
      ¬(b = blockNumUnused ∧ ∃ m, (init.run ops).use.cache.lookup b = some m ∧
        ((init.run ops).use.cache.buf m).data = none)) ∧
    (((init.run ops).step p (.get b page)).Backed n b ↔ b.toNat < sectorBlocks) := by
  obtain ⟨c, sound⟩ := run_sound ops init_sound
  exact sound.got_iff free got

/-- The first call of all returns. -/
theorem init_got (b : U32) (page : U64) : ∃ n fill l, (init.run []).use.cache.bufferGet b page =
    .ok (n, fill, l) ∧ (b = blockNumUnused → fill = false) := by
  have tracks := init_tracks
  obtain ⟨n, fill, l, c', linked, result, -⟩ | ⟨-, panics⟩ :=
    tracks.rep.bufferGet tracks.room b page fun _ => 0
  · refine ⟨n, fill, l, linked, ?_⟩
    rintro rfl
    obtain ⟨-, -, node⟩ := BufCache.bufferGet_cases tracks.listed result
    rcases node with ⟨hit, -⟩ | ⟨-, absent, -⟩
    · exact hit
    · exact absurd (congrArg Buffer.blockNum (BufCache.init_buf n)) (absent n)
  · have full := BufCache.bufferGet_none panics
    have free := (tracks.listed.mem_inactive ⟨0, by decide⟩).mpr
      (congrArg Buffer.ref (BufCache.init_buf _))
    rw [full] at free
    cases free

private theorem init_free : ¬(init.run []).use.Stuck asker := by
  have none : (init.run []).use.gets asker = [] := (init_fields asker).1
  rw [Stuck, none]
  exact not_not.mpr List.nodup_nil

/-- A process gets block 5, puts it back and gets it again. -/
theorem get_backed_iff_again : ∃ n m l,
    (init.run [(asker, .get 5 0), (asker, .put n)]).use.cache.bufferGet 5 0 = .ok (m, false, l) ∧
      ((init.run [(asker, .get 5 0), (asker, .put n)]).step asker (.get 5 0)).Backed m 5 := by
  obtain ⟨n, k, rest, list⟩ := init_inactive
  obtain ⟨c, tracks, returned, -, -, -, number, -, -⟩ :=
    init_tracks.get_put list (init_fresh (b := 5) (by decide)) (init_fields asker).1
  have use : (init.run [(asker, .get 5 0), (asker, .put n)]).use =
      (CacheUse.init.step asker (.get 5 0)).step asker (.put n) := by
    rw [run_use, run_get_put, init]
  rw [← use] at tracks returned
  have free : ¬(init.run [(asker, .get 5 0), (asker, .put n)]).use.Stuck asker :=
    not_not.mpr (returned ▸ List.nodup_nil)
  obtain ⟨⟨m, l, got⟩, -⟩ := tracks.get_cached number free
  exact ⟨n, m, l, got, (get_backed_iff _ asker 5 0 free got).2.mpr (by decide)⟩

/-- The first request, for block `-1`, finds an unused node and hands it out without a page. -/
theorem get_unbacked : ∃ n l,
    (init.run []).use.cache.bufferGet blockNumUnused 0 = .ok (n, false, l) ∧
      ¬((init.run []).step asker (.get blockNumUnused 0)).Backed n blockNumUnused := by
  obtain ⟨n, fill, l, got, hit⟩ := init_got blockNumUnused 0
  obtain rfl := hit rfl
  refine ⟨n, l, got, fun backed => ?_⟩
  have member := backed.2
  rw [fills_of_got init_free got, if_neg Bool.false_ne_true, run, List.foldl_nil, init] at member
  cases member

end Pages

end CacheUse

end LabKernel
