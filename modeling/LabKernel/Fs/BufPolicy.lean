import LabKernel.Fs.BufUse
import LabKernel.Lib.Transition

/-! # The replacement policy of the buffer cache

A released node goes to the front of the inactive list, and both `buffer_get` and `buffer_freemem`
take nodes from the front. So the order of the list is that of the releases with the last one first,
the never used nodes behind, and the node that a miss takes is the one released most recently. It
is the least recently released one only where no node of the list was ever released, or the list has
one node; `buffer_freemem` takes the right nodes only where it takes none or all.
-/

namespace LabKernel

namespace BufCache

variable {P : Type} {c c' : BufCache P} {n : Fin nBuffer}

private theorem bufferGet_inactive {b : U32} {page : Bytes} {fill : Bool}
    (got : c.bufferGet b page = some (n, fill, c')) : c'.inactive.Sublist c.inactive := by
  unfold bufferGet at got
  split at got
  · obtain ⟨rfl, rfl, rfl⟩ : _ = n ∧ false = fill ∧ _ = c' := by simpa using got
    exact List.Sublist.refl _
  · split at got
    · obtain ⟨rfl, rfl, rfl⟩ : _ = n ∧ false = fill ∧ _ = c' := by simpa using got
      exact List.erase_sublist
    · split at got
      · cases got
      · obtain ⟨rfl, rfl, rfl⟩ : _ = n ∧ true = fill ∧ _ = c' := by simpa using got
        exact List.erase_sublist

/-- A miss takes the first node of the inactive list. -/
theorem bufferGet_first {b : U32} {page : Bytes} (got : c.bufferGet b page = some (n, true, c')) :
    ∃ rest, c.inactive = n :: rest := by
  unfold bufferGet at got
  split at got
  · simp at got
  · split at got
    · simp at got
    · split at got
      · cases got
      · rename_i first rest list
        obtain ⟨rfl, -⟩ : first = n ∧ _ = c' := by simpa using got
        exact ⟨rest, list⟩

theorem bufferGet_none {b : U32} {page : Bytes} (panics : c.bufferGet b page = none) :
    c.inactive = [] := by
  unfold bufferGet at panics
  split at panics
  · cases panics
  · split at panics
    · cases panics
    · split at panics
      · assumption
      · cases panics

/-- A hit on the inactive list is the first node there with the number. -/
theorem bufferGet_hit {b : U32} {page : Bytes} (got : c.bufferGet b page = some (n, false, c')) :
    n ∈ c.active ∧ (c.buf n).blockNum = b ∨
      (∀ m ∈ c.active, (c.buf m).blockNum ≠ b) ∧ c.search c.inactive b = some n := by
  unfold bufferGet at got
  split at got
  · rename_i m found
    obtain ⟨rfl, -⟩ : m = n ∧ _ = c' := by simpa using got
    exact Or.inl (search_some found)
  · rename_i missing
    split at got
    · rename_i m found
      obtain ⟨rfl, -⟩ : m = n ∧ _ = c' := by simpa using got
      exact Or.inr ⟨fun k within => search_none missing within, found⟩
    · split at got
      · cases got
      · simp at got

/-- The nodes of the inactive list that have a page, in its order. -/
def backed (c : BufCache P) (list : List (Fin nBuffer)) : List (Fin nBuffer) :=
  list.filter fun n => (c.buf n).data.isSome

/-- `buffer_freemem` strips the first nodes with a page. -/
theorem freememFrom_buf (list : List (Fin nBuffer)) : ∀ (count : ℕ) (c : BufCache P), list.Nodup →
    ∀ n, (freememFrom list count c).buf n =
      if n ∈ (c.backed list).take count then { c.buf n with data := none, blockNum := blockNumUnused }
      else c.buf n := by
  induction list with
  | nil => exact fun _ _ _ n => (if_neg (by simp [backed])).symm
  | cons m rest ih =>
    intro count c nodup n
    obtain ⟨fresh, nodup⟩ := List.nodup_cons.mp nodup
    cases count with
    | zero => exact (if_neg (by simp)).symm
    | succ count =>
      unfold freememFrom
      cases data : (c.buf m).data with
      | none =>
        have skip : c.backed (m :: rest) = c.backed rest := by simp [backed, data]
        rw [if_pos rfl, ih _ c nodup, skip]
      | some page =>
        have taken : c.backed (m :: rest) = m :: c.backed rest := by simp [backed, data]
        have later : (c.update m fun buf => { buf with data := none, blockNum := blockNumUnused }).backed
            rest = c.backed rest := by
          refine List.filter_congr fun k within => ?_
          have other : k ≠ m := fun same => fresh (same ▸ within)
          rw [update_other _ _ _ other]
        rw [if_neg (by simp), ih _ _ nodup, later, taken, List.take_succ_cons]
        rcases eq_or_ne n m with rfl | other
        · have off : n ∉ (c.backed rest).take count := fun within =>
            fresh (List.mem_of_mem_filter (List.mem_of_mem_take within))
          rw [if_neg off, if_pos List.mem_cons_self, update_same]
        · rw [update_other _ _ _ other]
          simp only [List.mem_cons, other, false_or]

private theorem freememFrom_inactive (list : List (Fin nBuffer)) : ∀ (count : ℕ) (c : BufCache P),
    (freememFrom list count c).inactive = c.inactive := by
  induction list with
  | nil => exact fun _ _ => rfl
  | cons m rest ih =>
    intro count c
    cases count with
    | zero => rfl
    | succ count =>
      unfold freememFrom
      split
      · exact ih _ c
      · exact ih _ _

end BufCache

namespace CacheUse

/-- The nodes taken are those that were released least recently, never used ones first. -/
def LeastRecent (u : CacheUse) (p : Fin nProc) (op : CacheOp) : Prop :=
  ¬u.Stuck p →
    match op with
    | .get b page => ∀ n l, u.cache.bufferGet b page = .ok (n, true, l) →
      ∀ m, (u.cache.buf m).ref = 0 → u.stamp n ≤ u.stamp m
    | .put _ => True
    | .freemem count => ∀ freed l, u.cache.bufferFreemem count = .ok (freed, l) →
      ∀ n m, (u.cache.buf n).data ≠ none → (l.buf n).data = none →
        (u.cache.buf m).ref = 0 → (l.buf m).data ≠ none → u.stamp n < u.stamp m

/-- The block is cached, or no released node waits, or only one node waits; and memory is freed from
no node, or from all of them. -/
def Ordinary (u : CacheUse) (p : Fin nProc) (op : CacheOp) : Prop :=
  ¬u.Stuck p →
    match op with
    | .get b _ => (∃ n, (u.cache.buf n).blockNum = b) ∨
      (∀ m, (u.cache.buf m).ref = 0 → u.stamp m = 0) ∨
      ∀ m k, (u.cache.buf m).ref = 0 → (u.cache.buf k).ref = 0 → m = k
    | .put _ => True
    | .freemem count => count = 0 ∨
      (Finset.univ.filter fun n => (u.cache.buf n).ref = 0 ∧ (u.cache.buf n).data ≠ none).card ≤
        count.toNat

/-- The inactive list is sorted by the time of the release, the last one first. -/
structure Aged (u : CacheUse) (c : BufCache Unit) : Prop where
  order : c.inactive.Pairwise fun a b => u.stamp b < u.stamp a ∨ u.stamp a = 0 ∧ u.stamp b = 0
  past : ∀ n, u.stamp n ≤ u.clock
  fresh : ∀ n, (c.buf n).ref = 0 → u.stamp n = 0 →
    (c.buf n).data = none ∧ (c.buf n).blockNum = blockNumUnused

private theorem init_aged : Aged init BufCache.init := by
  refine ⟨?_, fun n => Nat.le_refl 0, fun n _ _ => ?_⟩
  · exact List.pairwise_of_forall fun _ _ => Or.inr ⟨rfl, rfl⟩
  · rw [BufCache.init_buf]
    exact ⟨rfl, rfl⟩

section

variable {u : CacheUse} {c c' : BufCache Unit} {n : Fin nBuffer}

private theorem Aged.got (aged : Aged u c) (listed : c.Listed) {b : U32} {contents : Bytes} {fill : Bool}
    (result : c.bufferGet b contents = some (n, fill, c')) {u' : CacheUse}
    (stamp : u'.stamp = u.stamp) (clock : u'.clock = u.clock) : Aged u' c' := by
  obtain ⟨-, others, node⟩ := BufCache.bufferGet_cases listed result
  have busy : (c'.buf n).ref ≠ 0 := by
    obtain ⟨-, -, -, hit⟩ | ⟨-, -, -, miss⟩ := node
    · rw [hit]
      exact Nat.succ_ne_zero _
    · rw [miss]
      exact Nat.one_ne_zero
  refine ⟨?_, fun m => ?_, fun m zero never => ?_⟩
  · rw [stamp]
    exact aged.order.sublist (BufCache.bufferGet_inactive result)
  · rw [stamp, clock]
    exact aged.past m
  · rcases eq_or_ne m n with rfl | other
    · exact absurd zero busy
    · rw [others m other] at zero ⊢
      exact aged.fresh m zero (by rwa [stamp] at never)

private theorem Aged.released (aged : Aged u c) (listed : c.Listed) (held : (c.buf n).ref ≠ 0)
    {u' : CacheUse} (clock : u'.clock = u.clock + 1)
    (stamp : u'.stamp = if ((c.bufferPut n).buf n).ref = 0 then
      Function.update u.stamp n (u.clock + 1) else u.stamp) : Aged u' (c.bufferPut n) := by
  have off : n ∉ c.inactive := fun within => held ((listed.mem_inactive n).mp within)
  by_cases last : ((c.bufferPut n).buf n).ref = 0
  · rw [if_pos last] at stamp
    have other {m : Fin nBuffer} (apart : m ≠ n) : u'.stamp m = u.stamp m := by
      rw [stamp, Function.update_of_ne apart]
    have own : u'.stamp n = u.clock + 1 := by
      rw [stamp, Function.update_self]
    have list : (c.bufferPut n).inactive = n :: c.inactive := by
      rw [BufCache.bufferPut_same] at last
      simp only [BufCache.bufferPut, BufCache.update_same]
      rw [if_pos last]
      simp [BufCache.insertNode, List.erase_of_not_mem off]
    refine ⟨?_, fun m => ?_, fun m zero never => ?_⟩
    · rw [list, List.pairwise_cons]
      refine ⟨fun m within => Or.inl ?_, aged.order.imp_of_mem fun {a b} left right ordered => ?_⟩
      · have apart : m ≠ n := fun same => off (same ▸ within)
        have := aged.past m
        rw [own, other apart]
        omega
      · rw [other fun same => off (same ▸ left), other fun same => off (same ▸ right)]
        exact ordered
    · rcases eq_or_ne m n with rfl | apart
      · rw [own, clock]
      · have := aged.past m
        rw [other apart, clock]
        omega
    · rcases eq_or_ne m n with rfl | apart
      · rw [own] at never
        cases never
      · rw [BufCache.bufferPut_other _ _ apart] at zero ⊢
        exact aged.fresh m zero (by rwa [other apart] at never)
  · rw [if_neg last] at stamp
    have list : (c.bufferPut n).inactive = c.inactive := by
      rw [BufCache.bufferPut_same] at last
      simp only [BufCache.bufferPut, BufCache.update_same]
      rw [if_neg last]
      rfl
    refine ⟨?_, fun m => ?_, fun m zero never => ?_⟩
    · rw [list, stamp]
      exact aged.order
    · have := aged.past m
      rw [stamp, clock]
      omega
    · rcases eq_or_ne m n with rfl | apart
      · exact absurd zero last
      · rw [BufCache.bufferPut_other _ _ apart] at zero ⊢
        exact aged.fresh m zero (by rwa [stamp] at never)

private theorem Aged.stripped (aged : Aged u c) (listed : c.Listed) (count : ℕ) {u' : CacheUse}
    (stamp : u'.stamp = u.stamp) (clock : u'.clock = u.clock) : Aged u' (c.bufferFreemem count) := by
  obtain ⟨-, each⟩ := BufCache.bufferFreemem_spec listed count
  refine ⟨?_, fun m => ?_, fun m zero never => ?_⟩
  · rw [BufCache.bufferFreemem, BufCache.freememFrom_inactive, stamp]
    exact aged.order
  · rw [stamp, clock]
    exact aged.past m
  · rw [stamp] at never
    obtain kept | ⟨-, gone⟩ := each m
    · rw [kept] at zero ⊢
      exact aged.fresh m zero never
    · rw [gone]
      exact ⟨rfl, rfl⟩

private theorem step_aged (tracks : Tracks u c) (aged : Aged u c) (p : Fin nProc) (op : CacheOp) :
    ∃ c', Tracks (u.step p op) c' ∧ Aged (u.step p op) c' := by
  obtain same | ⟨b, page, n, fill, l, c', -, free, -, result, rep, after⟩ |
    ⟨n, -, free, member, after⟩ | ⟨count, freed, l, -, -, -, rep, after⟩ := tracks.step_cases p op
  · exact ⟨c, by rwa [same], by rwa [same]⟩
  · rw [after]
    exact ⟨c', tracks.got free result rep _, aged.got tracks.listed result rfl rfl⟩
  · rw [after]
    exact ⟨_, tracks.released free member _ _,
      aged.released tracks.listed (tracks.held member) rfl rfl⟩
  · rw [after]
    exact ⟨_, tracks.stripped _ rep, aged.stripped tracks.listed _ rfl rfl⟩

private theorem run_aged (ops : List (Fin nProc × CacheOp)) :
    ∃ c, Tracks (init.run ops) c ∧ Aged (init.run ops) c := by
  have all : ∀ (ops : List (Fin nProc × CacheOp)) (u : CacheUse) (c : BufCache Unit), Tracks u c →
      Aged u c → ∃ c, Tracks (u.run ops) c ∧ Aged (u.run ops) c := by
    intro ops
    induction ops with
    | nil => exact fun u c tracks aged => ⟨c, tracks, aged⟩
    | cons op ops ih =>
      intro u c tracks aged
      obtain ⟨c', tracks', aged'⟩ := step_aged tracks aged op.1 op.2
      exact ih _ c' tracks' aged'
  exact all ops init _ init_tracks init_aged

private theorem Tracks.ref_zero (tracks : Tracks u c) (n : Fin nBuffer) :
    (u.cache.buf n).ref = 0 ↔ n ∈ c.inactive := by
  rw [tracks.listed.mem_inactive, ← (tracks.rep.buf n).ref]
  exact ⟨fun same => by rw [same]; rfl, fun same => BitVec.eq_of_toNat_eq same⟩

/-- The victim of a miss is right exactly where nothing was released or nothing else waits. -/
theorem leastRecent_get (tracks : Tracks u c) (aged : Aged u c) (p : Fin nProc) (b : U32)
    (page : U64) : LeastRecent u p (.get b page) ↔ Ordinary u p (.get b page) := by
  refine forall_congr' fun free => ?_
  simp only [tracks.ref_zero]
  obtain ⟨n, fill, l, c', linked, result, rep⟩ | ⟨panics, none⟩ :=
    tracks.rep.bufferGet tracks.room b page fun _ => 0
  · cases fill with
    | false =>
      obtain ⟨-, -, node⟩ := BufCache.bufferGet_cases tracks.listed result
      obtain ⟨-, -, block, -⟩ | ⟨wrong, -⟩ := node
      · refine iff_of_true (fun m l' other => ?_) (Or.inl ⟨n, ?_⟩)
        · rw [linked] at other
          simp at other
        · rw [(tracks.rep.buf n).blockNum, block]
      · cases wrong
    | true =>
      obtain ⟨rest, list⟩ := BufCache.bufferGet_first result
      obtain ⟨-, -, node⟩ := BufCache.bufferGet_cases tracks.listed result
      obtain ⟨wrong, -⟩ | ⟨-, absent, -, -⟩ := node
      · cases wrong
      have order := aged.order
      have nodup := tracks.listed.inactiveNodup
      rw [list] at order nodup ⊢
      obtain ⟨first, -⟩ := List.pairwise_cons.mp order
      constructor
      · intro least
        have minimal := least n l linked
        refine Or.inr ?_
        cases rest with
        | nil =>
          refine Or.inr fun m k left right => ?_
          rw [List.mem_singleton.mp left, List.mem_singleton.mp right]
        | cons k rest =>
          have never : u.stamp n = 0 := by
            have second := minimal k (by simp)
            have := first k List.mem_cons_self
            omega
          refine Or.inl fun m within => ?_
          rcases List.mem_cons.mp within with rfl | later
          · exact never
          · have := first m later
            omega
      · rintro (⟨k, cached⟩ | never | single) m l' other k' within
        · rw [(tracks.rep.buf k).blockNum] at cached
          exact absurd cached (absent k)
        · rw [linked] at other
          simp only [Except.ok.injEq, Prod.mk.injEq] at other
          obtain ⟨rfl, -, -⟩ := other
          rw [never n List.mem_cons_self]
          exact Nat.zero_le _
        · rw [linked] at other
          simp only [Except.ok.injEq, Prod.mk.injEq] at other
          obtain ⟨rfl, -, -⟩ := other
          rw [single n k' List.mem_cons_self within]
  · refine iff_of_true (fun n l other => ?_) (Or.inr (Or.inl fun m within => ?_))
    · rw [panics] at other
      cases other
    · rw [BufCache.bufferGet_none none] at within
      cases within

/-- The nodes stripped are right exactly where they are none or all. -/
theorem leastRecent_freemem (tracks : Tracks u c) (aged : Aged u c) (p : Fin nProc) (count : U32) :
    LeastRecent u p (.freemem count) ↔ Ordinary u p (.freemem count) := by
  refine forall_congr' fun free => ?_
  have nodup := tracks.listed.inactiveNodup
  obtain ⟨freed, l, linked, rep⟩ := tracks.rep.bufferFreemem count
  have order : (c.backed c.inactive).Pairwise fun a b => u.stamp b < u.stamp a := by
    have sorted := aged.order.sublist (List.filter_sublist (p := fun n => (c.buf n).data.isSome))
    refine sorted.imp_of_mem fun {a b} left right ordered => ordered.resolve_right ?_
    rintro ⟨never, -⟩
    obtain ⟨within, page⟩ := List.mem_filter.mp left
    have := (aged.fresh a ((tracks.listed.mem_inactive a).mp within) never).1
    rw [this] at page
    cases page
  have backedNodup : (c.backed c.inactive).Nodup := nodup.filter _
  have mem_backed (n : Fin nBuffer) : n ∈ c.backed c.inactive ↔
      (u.cache.buf n).ref = 0 ∧ (u.cache.buf n).data ≠ none := by
    rw [BufCache.backed, List.mem_filter, tracks.ref_zero, Option.isSome_iff_ne_none, Ne, Ne,
      (tracks.rep.buf n).data]
  have total : (Finset.univ.filter fun n =>
      (u.cache.buf n).ref = 0 ∧ (u.cache.buf n).data ≠ none).card = (c.backed c.inactive).length := by
    rw [← List.toFinset_card_of_nodup backedNodup]
    refine congrArg Finset.card (Finset.ext fun n => ?_)
    rw [Finset.mem_filter, List.mem_toFinset, mem_backed]
    exact and_iff_right (Finset.mem_univ n)
  have after (n : Fin nBuffer) : (l.buf n).data = none ↔
      n ∈ (c.backed c.inactive).take count.toNat ∨ (u.cache.buf n).data = none := by
    rw [(rep.buf n).data, (tracks.rep.buf n).data, BufCache.bufferFreemem,
      BufCache.freememFrom_buf _ _ _ nodup]
    split
    · simp_all
    · simp_all
  have zero : count = 0 ↔ count.toNat = 0 :=
    ⟨fun same => by rw [same]; rfl, fun same => BitVec.eq_of_toNat_eq same⟩
  dsimp only
  rw [total, zero]
  generalize c.backed c.inactive = list at order backedNodup mem_backed after
  constructor
  · intro least
    by_contra some
    -- the first node is stripped although it was released after the first one that is not
    have inside : count.toNat < list.length := by omega
    have first : 0 < list.length := by omega
    have taken : list[0] ∈ list.take count.toNat :=
      List.mem_take_iff_getElem.mpr ⟨0, by omega, rfl⟩
    have left : list[count.toNat] ∉ list.take count.toNat := by
      intro within
      obtain ⟨i, bound, same⟩ := List.mem_take_iff_getElem.mp within
      have := (List.Nodup.getElem_inj_iff backedNodup).mp same
      omega
    have front := (mem_backed list[0]).mp (List.getElem_mem first)
    have back := (mem_backed list[count.toNat]).mp (List.getElem_mem inside)
    have late := least freed l linked list[0] list[count.toNat] front.2 ((after _).mpr (Or.inl taken))
      back.1 (fun null => ((after _).mp null).elim left back.2)
    have early := List.pairwise_iff_getElem.mp order 0 count.toNat first inside (by omega)
    omega
  · intro edge freed' l' linked' n m page gone waits kept
    rw [linked] at linked'
    simp only [Except.ok.injEq, Prod.mk.injEq] at linked'
    obtain ⟨-, rfl⟩ := linked'
    have taken := ((after n).mp gone).resolve_right page
    have free : m ∉ list.take count.toNat := fun within => kept ((after m).mpr (Or.inl within))
    have held : (u.cache.buf m).data ≠ none := fun null => kept ((after m).mpr (Or.inr null))
    have member := (mem_backed m).mpr ⟨waits, held⟩
    rcases edge with none | all
    · rw [none, List.take_zero] at taken
      cases taken
    · rw [List.take_of_length_le all] at free
      exact absurd member free

/-- The node was handed out at some time. -/
def Used (u : CacheUse) (c : BufCache Unit) (n : Fin nBuffer) : Prop :=
  (c.buf n).ref ≠ 0 ∨ u.stamp n ≠ 0

/-- Every block asked for has kept its node, and was read at most once. -/
structure Kept (u : CacheUse) (c : BufCache Unit) : Prop where
  numbered : ∀ n, Used u c n → (c.buf n).blockNum ∈ u.asked
  cached : ∀ b ∈ u.asked, ∃ n, Used u c n ∧ (c.buf n).blockNum = b
  once : ∀ m n, Used u c m → Used u c n → (c.buf m).blockNum = (c.buf n).blockNum → m = n
  readsAsked : ∀ b ∈ u.reads, b ∈ u.asked
  readsNodup : u.reads.Nodup

private theorem init_kept : Kept init BufCache.init := by
  have unused (n : Fin nBuffer) : ¬Used init BufCache.init n := by
    rintro (held | released)
    · rw [BufCache.init_buf] at held
      exact held rfl
    · exact released rfl
  refine ⟨fun n used => absurd used (unused n), fun b asked => ?_,
    fun m n used => absurd used (unused m), fun b read => ?_, List.nodup_nil⟩
  · exact absurd asked List.not_mem_nil
  · exact absurd read List.not_mem_nil

/-- A used node with the number is found before the unused ones. -/
theorem Aged.hit_used (aged : Aged u c) (listed : c.Listed) {b : U32} {contents : Bytes}
    (result : c.bufferGet b contents = some (n, false, c')) {m : Fin nBuffer} (used : Used u c m)
    (block : (c.buf m).blockNum = b) : Used u c n := by
  obtain ⟨active, -⟩ | ⟨absent, found⟩ := BufCache.bufferGet_hit result
  · exact Or.inl ((listed.mem_active n).mp active)
  · have waits : m ∈ c.inactive := by
      rw [listed.mem_inactive]
      by_contra held
      exact absent m ((listed.mem_active m).mpr held) block
    have released := used.resolve_left (not_not.mpr ((listed.mem_inactive m).mp waits))
    obtain ⟨-, early, late, list, missing⟩ := List.find?_eq_some_iff_append.mp found
    have order := aged.order
    rw [list] at waits order
    rcases List.mem_append.mp waits with before | rest
    · exact absurd (beq_iff_eq.mpr block) (by simpa using missing m before)
    · rcases List.mem_cons.mp rest with rfl | behind
      · exact used
      · have := (List.pairwise_cons.mp (List.pairwise_append.mp order).2.1).1 m behind
        exact Or.inr (by omega)

private theorem Kept.hit (kept : Kept u c) (aged : Aged u c) (listed : c.Listed) {b : U32}
    {contents : Bytes} (result : c.bufferGet b contents = some (n, false, c')) {u' : CacheUse}
    (stamp : u'.stamp = u.stamp) (asked : u'.asked = b :: u.asked) (reads : u'.reads = u.reads) :
    Kept u' c' := by
  obtain ⟨-, others, node⟩ := BufCache.bufferGet_cases listed result
  obtain ⟨-, -, block, hit⟩ | ⟨wrong, -⟩ := node
  · have number (m : Fin nBuffer) : (c'.buf m).blockNum = (c.buf m).blockNum := by
      rcases eq_or_ne m n with rfl | other
      · rw [hit]
      · rw [others m other]
    have used (m : Fin nBuffer) : Used u' c' m ↔ m = n ∨ Used u c m := by
      rw [Used, Used, stamp]
      rcases eq_or_ne m n with rfl | other
      · simp [hit]
      · simp [others m other, other]
    refine ⟨fun m inUse => ?_, fun k member => ?_, fun m k left right same => ?_, ?_, ?_⟩
    · rw [asked, number]
      rcases (used m).mp inUse with rfl | before
      · rw [block]
        exact List.mem_cons_self
      · exact List.mem_cons_of_mem _ (kept.numbered m before)
    · rw [asked] at member
      rcases List.mem_cons.mp member with rfl | before
      · exact ⟨n, (used n).mpr (Or.inl rfl), by rw [number, block]⟩
      · obtain ⟨m, inUse, has⟩ := kept.cached k before
        exact ⟨m, (used m).mpr (Or.inr inUse), by rw [number, has]⟩
    · rw [number, number] at same
      rcases (used m).mp left with rfl | before <;> rcases (used k).mp right with rfl | earlier
      · rfl
      · have first := aged.hit_used listed result earlier (same.symm.trans block)
        exact kept.once _ _ first earlier same
      · have first := aged.hit_used listed result before (same.trans block)
        exact kept.once _ _ before first same
      · exact kept.once _ _ before earlier same
    · rw [asked, reads]
      exact fun k read => List.mem_cons_of_mem _ (kept.readsAsked k read)
    · rw [reads]
      exact kept.readsNodup
  · cases wrong

private theorem Kept.miss (kept : Kept u c) (listed : c.Listed) {b : U32} {contents : Bytes}
    (result : c.bufferGet b contents = some (n, true, c')) {u' : CacheUse}
    (stamp : u'.stamp = u.stamp) (asked : u'.asked = b :: u.asked) (reads : u'.reads = b :: u.reads)
    (few : u'.asked.toFinset.card ≤ nBuffer)
    (choice : (∀ m, (c.buf m).ref = 0 → u.stamp m = 0) ∨
      ∀ m k, (c.buf m).ref = 0 → (c.buf k).ref = 0 → m = k) : Kept u' c' := by
  obtain ⟨-, others, node⟩ := BufCache.bufferGet_cases listed result
  obtain ⟨wrong, -⟩ | ⟨-, absent, zero, miss⟩ := node
  · cases wrong
  · have new : b ∉ u.asked := by
      intro before
      obtain ⟨m, -, has⟩ := kept.cached b before
      exact absent m has
    have victim : ¬Used u c n := by
      intro used
      have released := used.resolve_left (not_not.mpr zero)
      rcases choice with never | single
      · exact released (never n zero)
      · -- every node has a block of its own, and this one makes one block more
        have all (m : Fin nBuffer) : Used u c m := by
          by_cases free : (c.buf m).ref = 0
          · rw [single m n free zero]
            exact used
          · exact Or.inl free
        have each : nBuffer ≤ u.asked.toFinset.card := by
          have injective : Set.InjOn (fun m => (c.buf m).blockNum)
              (Finset.univ : Finset (Fin nBuffer)) :=
            fun m _ k _ same => kept.once m k (all m) (all k) same
          have := Finset.card_le_card_of_injOn (s := Finset.univ) (t := u.asked.toFinset)
            (fun m => (c.buf m).blockNum)
            (fun m _ => List.mem_toFinset.mpr (kept.numbered m (all m))) injective
          rwa [Finset.card_univ, Fintype.card_fin] at this
        rw [asked, List.toFinset_cons,
          Finset.card_insert_of_notMem fun within => new (List.mem_toFinset.mp within)] at few
        omega
    have used (m : Fin nBuffer) : Used u' c' m ↔ m = n ∨ Used u c m := by
      rw [Used, Used, stamp]
      rcases eq_or_ne m n with rfl | other
      · simp [miss]
      · simp [others m other, other]
    have apart {m : Fin nBuffer} (inUse : Used u c m) : m ≠ n := fun same => victim (same ▸ inUse)
    refine ⟨fun m inUse => ?_, fun k member => ?_, fun m k left right same => ?_, ?_, ?_⟩
    · rw [asked]
      rcases (used m).mp inUse with rfl | before
      · rw [miss]
        exact List.mem_cons_self
      · rw [others m (apart before)]
        exact List.mem_cons_of_mem _ (kept.numbered m before)
    · rw [asked] at member
      rcases List.mem_cons.mp member with rfl | before
      · exact ⟨n, (used n).mpr (Or.inl rfl), by rw [miss]⟩
      · obtain ⟨m, inUse, has⟩ := kept.cached k before
        exact ⟨m, (used m).mpr (Or.inr inUse), by rw [others m (apart inUse), has]⟩
    · rcases (used m).mp left with rfl | before <;> rcases (used k).mp right with rfl | earlier
      · rfl
      · rw [miss, others k (apart earlier)] at same
        exact absurd same.symm (absent k)
      · rw [miss, others m (apart before)] at same
        exact absurd same (absent m)
      · rw [others m (apart before), others k (apart earlier)] at same
        exact kept.once _ _ before earlier same
    · rw [asked, reads]
      intro k read
      rcases List.mem_cons.mp read with rfl | before
      · exact List.mem_cons_self
      · exact List.mem_cons_of_mem _ (kept.readsAsked k before)
    · rw [reads]
      exact List.nodup_cons.mpr ⟨fun before => new (kept.readsAsked b before), kept.readsNodup⟩

private theorem Kept.released (kept : Kept u c) (held : (c.buf n).ref ≠ 0) {u' : CacheUse}
    (stamp : u'.stamp = if ((c.bufferPut n).buf n).ref = 0 then
      Function.update u.stamp n (u.clock + 1) else u.stamp)
    (asked : u'.asked = u.asked) (reads : u'.reads = u.reads) : Kept u' (c.bufferPut n) := by
  have number (m : Fin nBuffer) : ((c.bufferPut n).buf m).blockNum = (c.buf m).blockNum := by
    rcases eq_or_ne m n with rfl | other
    · rw [BufCache.bufferPut_same]
    · rw [BufCache.bufferPut_other _ _ other]
  have used (m : Fin nBuffer) : Used u' (c.bufferPut n) m ↔ Used u c m := by
    rcases eq_or_ne m n with rfl | other
    · refine iff_of_true ?_ (Or.inl held)
      by_cases last : ((c.bufferPut m).buf m).ref = 0
      · rw [if_pos last] at stamp
        refine Or.inr ?_
        rw [stamp, Function.update_self]
        exact Nat.succ_ne_zero _
      · exact Or.inl last
    · have same : u'.stamp m = u.stamp m := by
        rw [stamp]
        split
        · rw [Function.update_of_ne other]
        · rfl
      rw [Used, Used, same, BufCache.bufferPut_other _ _ other]
  refine ⟨fun m inUse => ?_, fun k member => ?_, fun m k left right same => ?_, ?_, ?_⟩
  · rw [number, asked]
    exact kept.numbered m ((used m).mp inUse)
  · rw [asked] at member
    obtain ⟨m, inUse, has⟩ := kept.cached k member
    exact ⟨m, (used m).mpr inUse, by rw [number, has]⟩
  · rw [number, number] at same
    exact kept.once m k ((used m).mp left) ((used k).mp right) same
  · rw [asked, reads]
    exact kept.readsAsked
  · rw [reads]
    exact kept.readsNodup

/-- A critical section that keeps to the policy keeps every block asked for. -/
theorem step_kept (tracks : Tracks u c) (aged : Aged u c) (kept : Kept u c) {p : Fin nProc}
    {op : CacheOp} (ordinary : Ordinary u p op) (noFreemem : ∀ count, op ≠ .freemem count)
    (few : (u.step p op).asked.toFinset.card ≤ nBuffer) :
    ∃ c', Tracks (u.step p op) c' ∧ Aged (u.step p op) c' ∧ Kept (u.step p op) c' := by
  obtain same | ⟨b, page, n, fill, l, c', rfl, free, -, result, rep, after⟩ |
    ⟨n, -, free, member, after⟩ | ⟨count, -, -, rfl, -⟩ := tracks.step_cases p op
  · rw [same]
    exact ⟨c, tracks, aged, kept⟩
  · have choice := ordinary free
    rw [after] at few ⊢
    refine ⟨c', tracks.got free result rep _, aged.got tracks.listed result rfl rfl, ?_⟩
    cases fill with
    | false => exact kept.hit aged tracks.listed result rfl rfl rfl
    | true =>
      refine kept.miss tracks.listed result rfl rfl rfl few ?_
      obtain ⟨-, -, node⟩ := BufCache.bufferGet_cases tracks.listed result
      obtain ⟨wrong, -⟩ | ⟨-, absent, -, -⟩ := node
      · cases wrong
      · simp only [tracks.ref_zero] at choice
        simp only [← tracks.listed.mem_inactive]
        refine choice.resolve_left ?_
        rintro ⟨m, cached⟩
        rw [(tracks.rep.buf m).blockNum] at cached
        exact absent m cached
  · rw [after]
    exact ⟨_, tracks.released free member _ _,
      aged.released tracks.listed (tracks.held member) rfl rfl,
      kept.released (tracks.held member) rfl rfl rfl⟩
  · exact absurd rfl (noFreemem count)

end

private theorem asked_step (u : CacheUse) (p : Fin nProc) (op : CacheOp) :
    u.asked ⊆ (u.step p op).asked := by
  unfold step
  split
  · exact List.Subset.refl _
  · split
    · split
      · exact List.subset_cons_self _ _
      · exact List.Subset.refl _
      · exact List.Subset.refl _
    · split
      · exact List.Subset.refl _
      · exact List.Subset.refl _
    · split
      · exact List.Subset.refl _
      · exact List.Subset.refl _

/-- A critical section of a process, as a step of a run. -/
def Section (u : CacheUse) (op : Fin nProc × CacheOp) (u' : CacheUse) : Prop := u' = u.step op.1 op.2

private theorem asked_run {u t : CacheUse} {ops : List (Fin nProc × CacheOp)}
    {ok : CacheUse → Fin nProc × CacheOp → Prop} (run : Run (Guarded ok Section) u ops t) :
    u.asked ⊆ t.asked := by
  induction run with
  | nil => exact List.Subset.refl _
  | cons first _ ih =>
    obtain ⟨-, rfl⟩ := first
    exact List.Subset.trans (asked_step _ _ _) ih

/-- After any run, a critical section takes the least recently released nodes exactly when it is
ordinary. -/
theorem leastRecent_iff_ordinary (ops : List (Fin nProc × CacheOp)) (p : Fin nProc) (op : CacheOp) :
    LeastRecent (init.run ops) p op ↔ Ordinary (init.run ops) p op := by
  obtain ⟨c, tracks, aged⟩ := run_aged ops
  cases op with
  | get b page => exact leastRecent_get tracks aged p b page
  | put n => exact Iff.rfl
  | freemem count => exact leastRecent_freemem tracks aged p count

/-- In every state that critical sections lead to, the nodes that the next one takes are the least
recently released ones if and only if it is ordinary. In a run of ordinary ones without
`buffer_freemem` that asks for no more blocks than there are buffers, each block is read at most
once. -/
theorem leastRecent_iff (ops : List (Fin nProc × CacheOp)) :
    (∀ p op, LeastRecent (init.run ops) p op ↔ Ordinary (init.run ops) p op) ∧
    ∀ t, Run (Guarded (fun u a => Ordinary u a.1 a.2) Section) init ops t →
      (∀ a ∈ ops, ∀ count, a.2 ≠ .freemem count) → t.asked.toFinset.card ≤ nBuffer →
      t.reads.Nodup := by
  constructor
  · exact leastRecent_iff_ordinary ops
  · have all : ∀ (u t : CacheUse) (ops : List (Fin nProc × CacheOp)),
        Run (Guarded (fun u a => Ordinary u a.1 a.2) Section) u ops t →
        (∀ a ∈ ops, ∀ count, a.2 ≠ .freemem count) → t.asked.toFinset.card ≤ nBuffer →
        (∃ c, Tracks u c ∧ Aged u c ∧ Kept u c) → ∃ c, Tracks t c ∧ Aged t c ∧ Kept t c := by
      intro u t ops run
      induction run with
      | nil => exact fun _ _ start => start
      | cons first rest ih =>
        intro noFreemem few start
        obtain ⟨c, tracks, aged, kept⟩ := start
        have grown := asked_run rest
        obtain ⟨ordinary, rfl⟩ := first
        refine ih (fun a within => noFreemem a (List.mem_cons_of_mem _ within)) few ?_
        refine step_kept tracks aged kept ordinary (noFreemem _ List.mem_cons_self) ?_
        refine (Finset.card_le_card fun b within => ?_).trans few
        exact List.mem_toFinset.mpr (grown (List.mem_toFinset.mp within))
    intro t run noFreemem few
    obtain ⟨c, -, -, kept⟩ := all init t ops run noFreemem few
      ⟨_, init_tracks, init_aged, init_kept⟩
    exact kept.readsNodup

/-- The process that asks in the runs below. -/
def asker : Fin nProc := ⟨0, by decide⟩

/-- A process gets a block that is not cached and puts it back: the block stays cached in the node that was
first on the inactive list. -/
theorem Tracks.get_put {u : CacheUse} {c : BufCache Unit} (tracks : Tracks u c) {n : Fin nBuffer}
    {rest : List (Fin nBuffer)} (list : c.inactive = n :: rest) {b : U32}
    (fresh : ∀ m, (c.buf m).blockNum ≠ b) {p : Fin nProc} (none : u.gets p = []) :
    let v := (u.step p (.get b 0)).step p (.put n)
    ∃ c', Tracks v c' ∧ v.gets p = [] ∧ v.stamp n = u.clock + 1 ∧ v.asked = b :: u.asked ∧
      v.reads = b :: u.reads ∧ (c'.buf n).blockNum = b ∧ (c'.buf n).ref = 0 ∧
      ∀ m ≠ n, c'.buf m = c.buf m := by
  have free : ¬u.Stuck p := not_not.mpr (none ▸ List.nodup_nil)
  -- the first node is taken
  obtain ⟨m, fill, l, c', linked, result, rep⟩ | ⟨-, panics⟩ :=
    tracks.rep.bufferGet tracks.room b 0 fun _ => 0
  swap
  · rw [BufCache.bufferGet_miss fresh list] at panics
    cases panics
  obtain ⟨-, others, node⟩ := BufCache.bufferGet_cases tracks.listed result
  obtain ⟨-, -, used, -⟩ | ⟨-, -, -, node⟩ := node
  · exact absurd used (fresh m)
  rw [BufCache.bufferGet_miss fresh list] at result
  obtain ⟨rfl, rfl, -⟩ : n = m ∧ true = fill ∧ _ = c' := by simpa using result
  rw [← BufCache.bufferGet_miss fresh list] at result
  have got := tracks.got free result rep (b :: u.reads)
  have after : u.step p (.get b 0) = { u with
      cache := l
      gets := Function.update u.gets p (n :: u.gets p)
      asked := b :: u.asked
      reads := b :: u.reads } := by
    simp only [CacheUse.step, if_neg free, linked, if_true]
  rw [← after] at got
  have mine : (u.step p (.get b 0)).gets p = [n] := by
    rw [after]
    exact (Function.update_self ..).trans (by rw [none])
  have clock : (u.step p (.get b 0)).clock = u.clock := by rw [after]
  have asked : (u.step p (.get b 0)).asked = b :: u.asked := by rw [after]
  have reads : (u.step p (.get b 0)).reads = b :: u.reads := by rw [after]
  clear after
  generalize u.step p (.get b 0) = v at got mine clock asked reads ⊢
  -- it comes back with a stamp of its own
  have member : n ∈ v.gets p := mine ▸ List.mem_cons_self
  have free' : ¬v.Stuck p := not_not.mpr (mine ▸ List.nodup_singleton n)
  have zero : ((c'.bufferPut n).buf n).ref = 0 := by
    rw [BufCache.bufferPut_same, node]
    rfl
  have released : ((v.cache.bufferPut n).buf n).ref = 0 := by
    have refs := ((got.rep.bufferPut got.listed (got.held member)).buf n).ref
    rw [zero] at refs
    exact BitVec.eq_of_toNat_eq refs
  have put : v.step p (.put n) = { v with
      cache := v.cache.bufferPut n
      gets := Function.update v.gets p ((v.gets p).erase n)
      clock := v.clock + 1
      stamp := Function.update v.stamp n (v.clock + 1) } := by
    simp only [CacheUse.step, if_neg free', if_pos member, if_pos released]
  have last := got.released free' member (v.clock + 1) (Function.update v.stamp n (v.clock + 1))
  rw [← put] at last
  refine ⟨c'.bufferPut n, last, ?_, ?_, ?_, ?_, ?_, zero, fun k other => ?_⟩
  · rw [put]
    exact (Function.update_self ..).trans (by rw [mine, List.erase_cons_head])
  · rw [put, ← clock]
    exact Function.update_self ..
  · rw [put, ← asked]
  · rw [put, ← reads]
  · rw [BufCache.bufferPut_same, node]
  · rw [BufCache.bufferPut_other _ _ other, others k other]

private theorem init_unused (n : Fin nBuffer) : ((BufCache.init : BufCache Unit).buf n).blockNum = blockNumUnused := by
  rw [BufCache.init_buf]

theorem init_fresh {b : U32} (used : b ≠ blockNumUnused) (n : Fin nBuffer) :
    ((BufCache.init : BufCache Unit).buf n).blockNum ≠ b := by
  rw [init_unused]
  exact used.symm

theorem init_inactive : ∃ n k rest, (BufCache.init : BufCache Unit).inactive = n :: k :: rest := by
  have long : 2 ≤ (BufCache.init : BufCache Unit).inactive.length := by
    rw [BufCache.init_eq, List.length_reverse, List.length_finRange]
    decide
  generalize (BufCache.init : BufCache Unit).inactive = list at long
  match list, long with
  | n :: k :: rest, _ => exact ⟨n, k, rest, rfl⟩

theorem init_fields (p : Fin nProc) :
    init.gets p = [] ∧ init.asked = [] ∧ init.reads = [] ∧ ∀ n, init.stamp n = 0 := by
  rw [init]
  exact ⟨rfl, rfl, rfl, fun _ => rfl⟩

/-- A request for a cached block is a hit. -/
theorem Tracks.get_cached {u : CacheUse} {c : BufCache Unit} (tracks : Tracks u c) {n : Fin nBuffer} {b : U32}
    (cached : (c.buf n).blockNum = b) {p : Fin nProc} (free : ¬u.Stuck p) :
    (∃ m l, u.cache.bufferGet b 0 = .ok (m, false, l)) ∧ (u.step p (.get b 0)).asked = b :: u.asked ∧
      (u.step p (.get b 0)).reads = u.reads := by
  obtain ⟨m, fill, l, c', linked, result, -⟩ | ⟨-, panics⟩ :=
    tracks.rep.bufferGet tracks.room b 0 fun _ => 0
  · obtain ⟨-, -, ⟨rfl, -⟩ | ⟨-, absent, -⟩⟩ := BufCache.bufferGet_cases tracks.listed result
    · refine ⟨⟨m, l, linked⟩, ?_⟩
      simp only [CacheUse.step, if_neg free, linked, Bool.false_eq_true, if_false, and_self]
    · exact absurd cached (absent n)
  · have empty := BufCache.bufferGet_none panics
    have active : n ∈ c.active := by
      rw [tracks.listed.mem_active, ne_eq, ← tracks.listed.mem_inactive, empty]
      exact List.not_mem_nil
    unfold BufCache.bufferGet at panics
    split at panics
    · cases panics
    · rename_i missing
      exact absurd cached (BufCache.search_none missing active)

/-- A process gets a block, puts it back and gets it again, with nothing released before: the steps are
ordinary. -/
theorem Tracks.get_again {u : CacheUse} {c : BufCache Unit} (tracks : Tracks u c) {n : Fin nBuffer}
    {rest : List (Fin nBuffer)} (list : c.inactive = n :: rest) {b : U32}
    (fresh : ∀ m, (c.buf m).blockNum ≠ b) {p : Fin nProc} (none : u.gets p = [])
    (unreleased : ∀ m, u.stamp m = 0) :
    let v := u.run [(p, .get b 0), (p, .put n)]
    let t := v.step p (.get b 0)
    Ordinary v p (.get b 0) ∧ v.stamp n ≠ 0 ∧ t.asked = [b, b] ++ u.asked ∧ t.reads = b :: u.reads ∧
      Run (Guarded (fun u a => Ordinary u a.1 a.2) Section) u
        [(p, .get b 0), (p, .put n), (p, .get b 0)] t := by
  obtain ⟨c', last, returned, stamp, asked, reads, number, -, -⟩ := tracks.get_put list fresh none
  have free : ¬((u.step p (.get b 0)).step p (.put n)).Stuck p := not_not.mpr (returned ▸ List.nodup_nil)
  have again := (last.get_cached number free).2
  have ordinary : Ordinary ((u.step p (.get b 0)).step p (.put n)) p (.get b 0) := fun _ =>
    .inl ⟨n, (last.rep.buf n).blockNum.trans number⟩
  rw [asked, reads] at again
  refine ⟨ordinary, ?_, again.1, again.2, ?_⟩
  · exact ne_of_eq_of_ne stamp (Nat.succ_ne_zero _)
  · exact .cons ⟨fun _ => .inr (.inl fun m _ => unreleased m), rfl⟩
      (.cons ⟨fun _ => trivial, rfl⟩ (.cons ⟨ordinary, rfl⟩ (.nil _)))

/-- A process asks for block 5, puts it back and asks again. The second request evicts nothing, although the
node of block 5 is now the one released last, and the block is read once. -/
theorem leastRecent_iff_again : ∃ n t,
    Run (Guarded (fun u a => Ordinary u a.1 a.2) Section) init
      [(asker, .get 5 0), (asker, .put n), (asker, .get 5 0)] t ∧
    (init.run [(asker, .get 5 0), (asker, .put n)]).stamp n ≠ 0 ∧
    LeastRecent (init.run [(asker, .get 5 0), (asker, .put n)]) asker (.get 5 0) ∧
    t.asked = [5, 5] ∧ t.reads = [5] ∧ t.reads.Nodup := by
  obtain ⟨n, k, rest, list⟩ := init_inactive
  obtain ⟨none, unasked, unread, unreleased⟩ := init_fields asker
  obtain ⟨ordinary, stamp, asked, reads, guarded⟩ :=
    init_tracks.get_again list (init_fresh (b := 5) (by decide)) none unreleased
  rw [unasked] at asked
  rw [unread] at reads
  refine ⟨n, _, guarded, stamp, ((leastRecent_iff _).1 asker (.get 5 0)).mpr ordinary, asked, reads, ?_⟩
  refine (leastRecent_iff _).2 _ guarded ?_ ?_
  · intro a within
    fin_cases within <;> exact fun _ => CacheOp.noConfusion
  · rw [asked]
    decide

/-- A process gets block 1 and puts it back, with another unused node behind. The next miss is not
ordinary. -/
theorem Tracks.not_ordinary {u : CacheUse} {c : BufCache Unit} (tracks : Tracks u c)
    {n k : Fin nBuffer} {rest : List (Fin nBuffer)} (list : c.inactive = n :: k :: rest)
    (unused : ∀ m, (c.buf m).blockNum = blockNumUnused) {p : Fin nProc} (none : u.gets p = []) :
    ¬Ordinary ((u.step p (.get 1 0)).step p (.put n)) p (.get 2 0) := by
  have apart : k ≠ n := by
    have nodup := tracks.listed.inactiveNodup
    rw [list] at nodup
    exact fun same => (List.nodup_cons.mp nodup).1 (same ▸ List.mem_cons_self)
  have fresh : ∀ m, (c.buf m).blockNum ≠ 1 := fun m same => by
    rw [unused] at same
    exact absurd same (by decide)
  obtain ⟨c', last, returned, stamp, -, -, number, zero, others⟩ := tracks.get_put list fresh none
  have waiting : n ∈ c'.inactive := (last.listed.mem_inactive n).mpr zero
  have behind : k ∈ c'.inactive := by
    have within : k ∈ c.inactive := list ▸ List.mem_cons_of_mem _ List.mem_cons_self
    rw [last.listed.mem_inactive, others k apart]
    exact (tracks.listed.mem_inactive k).mp within
  intro ordinary
  obtain ⟨m, cached⟩ | unreleased | single := ordinary (not_not.mpr (returned ▸ List.nodup_nil))
  · rw [(last.rep.buf m).blockNum] at cached
    rcases eq_or_ne m n with rfl | other
    · rw [number] at cached
      cases cached
    · rw [others m other, unused] at cached
      cases cached
  · rw [unreleased n ((last.ref_zero n).mpr waiting)] at stamp
    exact Nat.succ_ne_zero _ stamp.symm
  · exact apart (single k n ((last.ref_zero k).mpr behind) ((last.ref_zero n).mpr waiting))

theorem run_get_put (u : CacheUse) (p : Fin nProc) (b : U32) (page : U64) (n : Fin nBuffer) :
    u.run [(p, .get b page), (p, .put n)] = (u.step p (.get b page)).step p (.put n) := rfl

/-- A block that was put back is evicted for the next one, although unused nodes are left. -/
theorem mostRecent_evicted : ¬∀ ops p op, LeastRecent (init.run ops) p op := by
  intro always
  obtain ⟨n, k, rest, list⟩ := init_inactive
  have evicts := init_tracks.not_ordinary list init_unused (init_fields asker).1
  have ordinary := (leastRecent_iff_ordinary [(asker, .get 1 0), (asker, .put n)] asker
    (.get 2 0)).mp (always _ _ _)
  rw [run_get_put] at ordinary
  exact evicts ordinary

end CacheUse

end LabKernel
