import LabKernel.Fs.Layout

/-! # The buffer cache

`kernel/fs/buf.c`: the nodes, the two lists from their heads on, and the critical sections of
`lk_buf_cache`. `P` is the type of processes. A buffer has one history variable that no code reads:
whether its data changed since it last met the disk.
-/

namespace LabKernel

def nBuffer : ℕ := 32 * 512

def blockNumUnused : U32 := 0xFFFFFFFF

/-- `buffer_t`; the sleeplock holds the pid of its holder, and data is `none` without a page. -/
structure Buffer (P : Type) where
  blockNum : U32
  ref : ℕ
  slk : Option P
  data : Option Bytes
  modified : Bool

/-- `buf_cache` and the lists behind `buf_head_active` and `buf_head_inactive`. -/
structure BufCache (P : Type) where
  buf : Fin nBuffer → Buffer P
  active : List (Fin nBuffer)
  inactive : List (Fin nBuffer)

namespace BufCache

variable {P : Type}

def update (c : BufCache P) (n : Fin nBuffer) (f : Buffer P → Buffer P) : BufCache P :=
  { c with buf := Function.update c.buf n (f (c.buf n)) }

def insertNode (c : BufCache P) (n : Fin nBuffer) (insertActive insertNext : Bool) : BufCache P :=
  let active := c.active.erase n
  let inactive := c.inactive.erase n
  match insertActive, insertNext with
  | true, true => ⟨c.buf, n :: active, inactive⟩
  | true, false => ⟨c.buf, active ++ [n], inactive⟩
  | false, true => ⟨c.buf, active, n :: inactive⟩
  | false, false => ⟨c.buf, active, inactive ++ [n]⟩

def init : BufCache P :=
  (List.finRange nBuffer).foldl (fun c n => c.insertNode n false true)
    ⟨fun _ => ⟨blockNumUnused, 0, none, none, false⟩, [], []⟩

def search (c : BufCache P) (list : List (Fin nBuffer)) (blockNum : U32) : Option (Fin nBuffer) :=
  list.find? fun n => (c.buf n).blockNum == blockNum

/-- The node of a block: the active list is searched first. -/
def lookup (c : BufCache P) (blockNum : U32) : Option (Fin nBuffer) :=
  (c.search c.active blockNum).or (c.search c.inactive blockNum)

/-- The critical section of `buffer_get`: the node, and whether it has to be filled from the disk.
`page` is what a fresh page holds; `none` is the panic without a free buffer. -/
def bufferGet (c : BufCache P) (blockNum : U32) (page : Bytes) :
    Option (Fin nBuffer × Bool × BufCache P) :=
  match c.search c.active blockNum with
  | some n => some (n, false, c.update n fun buf => { buf with ref := buf.ref + 1 })
  | none =>
    match c.search c.inactive blockNum with
    | some n =>
      some (n, false, (c.update n fun buf => { buf with ref := 1 }).insertNode n true true)
    | none =>
      match c.inactive with
      | [] => none
      | n :: _ =>
        some (n, true, (c.update n fun buf =>
          { buf with blockNum := blockNum, ref := 1, data := some (buf.data.getD page) }).insertNode
            n true true)

/-- The critical section of `buffer_put`. -/
def bufferPut (c : BufCache P) (n : Fin nBuffer) : BufCache P :=
  let c := c.update n fun buf => { buf with ref := buf.ref - 1 }
  if (c.buf n).ref = 0 then c.insertNode n false true else c

/-- The loop of `buffer_freemem`. -/
def freememFrom : List (Fin nBuffer) → (count : ℕ) → BufCache P → BufCache P
  | [], _, c => c
  | _ :: _, 0, c => c
  | n :: next, count + 1, c =>
    if (c.buf n).data = none then freememFrom next (count + 1) c
    else freememFrom next count
      (c.update n fun buf => { buf with data := none, blockNum := blockNumUnused })

def bufferFreemem (c : BufCache P) (count : ℕ) : BufCache P := freememFrom c.inactive count c

section

variable (c : BufCache P) (n : Fin nBuffer) (f : Buffer P → Buffer P)

@[simp] theorem update_same : (c.update n f).buf n = f (c.buf n) := Function.update_self ..

theorem update_other {m : Fin nBuffer} (other : m ≠ n) : (c.update n f).buf m = c.buf m :=
  Function.update_of_ne other ..

theorem update_buf (m : Fin nBuffer) :
    (c.update n f).buf m = if m = n then f (c.buf n) else c.buf m := Function.update_apply ..

@[simp] theorem update_active : (c.update n f).active = c.active := rfl
@[simp] theorem update_inactive : (c.update n f).inactive = c.inactive := rfl

@[simp] theorem insertNode_buf (insertActive insertNext : Bool) :
    (c.insertNode n insertActive insertNext).buf = c.buf := by
  cases insertActive <;> cases insertNext <;> rfl

@[simp] theorem bufferPut_same : (c.bufferPut n).buf n = { c.buf n with ref := (c.buf n).ref - 1 } := by
  simp only [bufferPut]
  split <;> simp

theorem bufferPut_other {m : Fin nBuffer} (other : m ≠ n) : (c.bufferPut n).buf m = c.buf m := by
  simp only [bufferPut]
  split <;> simp [update_other _ _ _ other]

end

/-! ## The lists -/

/-- Every node is on one list, once: on the active list while it has references. -/
structure Listed (c : BufCache P) : Prop where
  activeNodup : c.active.Nodup
  inactiveNodup : c.inactive.Nodup
  mem_active : ∀ n, n ∈ c.active ↔ (c.buf n).ref ≠ 0
  mem_inactive : ∀ n, n ∈ c.inactive ↔ (c.buf n).ref = 0

/-- The nodes lie on the inactive list with the last one in front. -/
theorem init_eq : (init : BufCache P) =
    ⟨fun _ => ⟨blockNumUnused, 0, none, none, false⟩, [], (List.finRange nBuffer).reverse⟩ := by
  have fold : ∀ (list : List (Fin nBuffer)) (c : BufCache P), c.active = [] → list.Nodup →
      (∀ n ∈ list, n ∉ c.inactive) →
      list.foldl (fun c n => c.insertNode n false true) c = ⟨c.buf, [], list.reverse ++ c.inactive⟩ := by
    intro list
    induction list with
    | nil =>
      rintro ⟨buf, active, inactive⟩ rfl - -
      rfl
    | cons n list ih =>
      rintro ⟨buf, active, inactive⟩ rfl nodup apart
      obtain ⟨fresh, nodup⟩ := List.nodup_cons.mp nodup
      rw [List.foldl_cons, ih _ rfl nodup]
      · have erased : inactive.erase n = inactive :=
          List.erase_of_not_mem (apart n List.mem_cons_self)
        simp [insertNode, erased]
      · intro m mem
        have apart' := apart m (List.mem_cons_of_mem n mem)
        have erased : inactive.erase n = inactive :=
          List.erase_of_not_mem (apart n List.mem_cons_self)
        simp only [insertNode, erased, List.mem_cons, not_or]
        refine ⟨?_, apart'⟩
        rintro rfl
        exact fresh mem
  have all := fold (List.finRange nBuffer) ⟨fun _ => ⟨blockNumUnused, 0, none, none, false⟩, [], []⟩
    rfl (List.nodup_finRange _) fun _ _ => List.not_mem_nil
  rw [init, all, List.append_nil]

theorem init_buf (n : Fin nBuffer) :
    (init : BufCache P).buf n = ⟨blockNumUnused, 0, none, none, false⟩ := by
  rw [init_eq]

theorem init_listed : (init : BufCache P).Listed := by
  rw [init_eq]
  constructor
  · exact List.nodup_nil
  · dsimp only
    rw [List.nodup_reverse]
    exact List.nodup_finRange _
  · simp
  · simp

theorem search_some {c : BufCache P} {list : List (Fin nBuffer)} {blockNum : U32} {n : Fin nBuffer}
    (found : c.search list blockNum = some n) : n ∈ list ∧ (c.buf n).blockNum = blockNum :=
  ⟨List.mem_of_find?_eq_some found, by simpa using List.find?_some found⟩

theorem search_none {c : BufCache P} {list : List (Fin nBuffer)} {blockNum : U32}
    (missing : c.search list blockNum = none) {n : Fin nBuffer} (mem : n ∈ list) :
    (c.buf n).blockNum ≠ blockNum := by
  simpa using List.find?_eq_none.mp missing n mem

namespace Listed

variable {c : BufCache P} {n : Fin nBuffer}

/-- A node whose references come back moves to the front of the active list. -/
theorem activate (listed : c.Listed) {f : Buffer P → Buffer P} (some : (f (c.buf n)).ref ≠ 0) :
    ((c.update n f).insertNode n true true).Listed := by
  refine ⟨?_, listed.inactiveNodup.erase _, fun m => ?_, fun m => ?_⟩
  · exact List.nodup_cons.mpr ⟨listed.activeNodup.not_mem_erase, listed.activeNodup.erase _⟩
  · rw [insertNode_buf]
    by_cases other : m = n
    · subst other
      simpa [insertNode] using some
    · simpa [insertNode, other, update_other, listed.activeNodup.mem_erase_iff] using
        listed.mem_active m
  · rw [insertNode_buf]
    by_cases other : m = n
    · subst other
      simpa [insertNode, listed.inactiveNodup.mem_erase_iff] using some
    · simpa [insertNode, other, update_other, listed.inactiveNodup.mem_erase_iff] using
        listed.mem_inactive m

/-- A node that keeps its references, or stays without, keeps its place. -/
theorem keep (listed : c.Listed) {f : Buffer P → Buffer P}
    (same : (f (c.buf n)).ref = 0 ↔ (c.buf n).ref = 0) : (c.update n f).Listed := by
  have refs : ∀ m, ((c.update n f).buf m).ref = 0 ↔ (c.buf m).ref = 0 := by
    intro m
    by_cases other : m = n
    · subst other
      simpa using same
    · rw [update_other _ _ _ other]
  refine ⟨listed.activeNodup, listed.inactiveNodup, fun m => ?_, fun m => ?_⟩
  · rw [update_active, listed.mem_active, Ne, Ne, refs]
  · rw [update_inactive, listed.mem_inactive, refs]

theorem bufferPut (listed : c.Listed) : (c.bufferPut n).Listed := by
  simp only [BufCache.bufferPut, update_same]
  split
  · rename_i zero
    refine ⟨listed.activeNodup.erase _, ?_, fun m => ?_, fun m => ?_⟩
    · exact List.nodup_cons.mpr ⟨listed.inactiveNodup.not_mem_erase, listed.inactiveNodup.erase _⟩
    · rw [insertNode_buf]
      by_cases other : m = n
      · subst other
        simpa [insertNode, listed.activeNodup.mem_erase_iff] using zero
      · simpa [insertNode, other, update_other, listed.activeNodup.mem_erase_iff] using
          listed.mem_active m
    · rw [insertNode_buf]
      by_cases other : m = n
      · subst other
        simpa [insertNode] using zero
      · simpa [insertNode, other, update_other, listed.inactiveNodup.mem_erase_iff] using
          listed.mem_inactive m
  · rename_i more
    exact listed.keep (by simp only; omega)

end Listed

/-- What the critical section of `buffer_get` does: a hit on either list, or a miss that takes a
node without references. -/
theorem bufferGet_cases {c c' : BufCache P} (listed : c.Listed) {blockNum : U32} {page : Bytes}
    {n : Fin nBuffer} {fill : Bool} (got : c.bufferGet blockNum page = some (n, fill, c')) :
    c'.Listed ∧ (∀ m, m ≠ n → c'.buf m = c.buf m) ∧
      ((fill = false ∧ c.lookup blockNum = some n ∧ (c.buf n).blockNum = blockNum ∧
          c'.buf n = { c.buf n with ref := (c.buf n).ref + 1 }) ∨
        (fill = true ∧ (∀ m, (c.buf m).blockNum ≠ blockNum) ∧ (c.buf n).ref = 0 ∧
          c'.buf n = { c.buf n with
            blockNum := blockNum, ref := 1, data := some ((c.buf n).data.getD page) })) := by
  unfold bufferGet at got
  split at got
  · rename_i m found
    obtain ⟨rfl, rfl, rfl⟩ : m = n ∧ false = fill ∧ _ = c' := by simpa using got
    obtain ⟨mem, block⟩ := search_some found
    have some := (listed.mem_active m).mp mem
    refine ⟨listed.keep (by simpa using some), fun k other => update_other _ _ _ other, Or.inl ?_⟩
    exact ⟨rfl, by rw [lookup, found, Option.some_or], block, update_same ..⟩
  · rename_i missing
    split at got
    · rename_i m found
      obtain ⟨rfl, rfl, rfl⟩ : m = n ∧ false = fill ∧ _ = c' := by simpa using got
      obtain ⟨mem, block⟩ := search_some found
      have none := (listed.mem_inactive m).mp mem
      refine ⟨listed.activate Nat.one_ne_zero, fun k other => ?_, Or.inl ?_⟩
      · rw [insertNode_buf, update_other _ _ _ other]
      · refine ⟨rfl, by rw [lookup, missing, found, Option.none_or], block, ?_⟩
        rw [insertNode_buf, update_same, none]
    · rename_i absent
      split at got
      · cases got
      · rename_i m rest inactive
        obtain ⟨rfl, rfl, rfl⟩ : m = n ∧ true = fill ∧ _ = c' := by simpa using got
        have none : (c.buf m).ref = 0 :=
          (listed.mem_inactive m).mp (by rw [inactive]; exact List.mem_cons_self)
        refine ⟨listed.activate Nat.one_ne_zero, fun k other => ?_, Or.inr ⟨rfl, fun k => ?_, none, ?_⟩⟩
        · rw [insertNode_buf, update_other _ _ _ other]
        · by_cases free : (c.buf k).ref = 0
          · exact search_none absent ((listed.mem_inactive k).mpr free)
          · exact search_none missing ((listed.mem_active k).mpr free)
        · rw [insertNode_buf, update_same]

section

variable {c : BufCache P} {blockNum : U32} (missing : ∀ n, (c.buf n).blockNum ≠ blockNum)

include missing

private theorem search_missing (list : List (Fin nBuffer)) : c.search list blockNum = none :=
  List.find?_eq_none.mpr fun n _ => by simpa using missing n

theorem lookup_none : c.lookup blockNum = none := by
  rw [lookup, search_missing missing, search_missing missing, Option.none_or]

/-- A block that no node has takes the first node of the inactive list. -/
theorem bufferGet_miss {page : Bytes} {n : Fin nBuffer} {rest : List (Fin nBuffer)}
    (inactive : c.inactive = n :: rest) :
    c.bufferGet blockNum page = some (n, true, (c.update n fun buf =>
      { buf with blockNum := blockNum, ref := 1, data := some (buf.data.getD page) }).insertNode
        n true true) := by
  simp only [bufferGet, search_missing missing, inactive]

end

/-- `buffer_freemem` strips some nodes without references. -/
theorem bufferFreemem_spec {c : BufCache P} (listed : c.Listed) (count : ℕ) :
    (c.bufferFreemem count).Listed ∧ ∀ n, (c.bufferFreemem count).buf n = c.buf n ∨
      (c.buf n).ref = 0 ∧ (c.bufferFreemem count).buf n =
        { c.buf n with data := none, blockNum := blockNumUnused } := by
  have loop : ∀ (list : List (Fin nBuffer)) (count : ℕ) (d : BufCache P), d.Listed →
      (∀ n ∈ list, (d.buf n).ref = 0) → (freememFrom list count d).Listed ∧
        ∀ n, (freememFrom list count d).buf n = d.buf n ∨
          (d.buf n).ref = 0 ∧ (freememFrom list count d).buf n =
            { d.buf n with data := none, blockNum := blockNumUnused } := by
    intro list
    induction list with
    | nil => exact fun _ d listed _ => ⟨listed, fun _ => Or.inl rfl⟩
    | cons m next ih =>
      intro count d listed free
      cases count with
      | zero => exact ⟨listed, fun _ => Or.inl rfl⟩
      | succ count =>
        have zero := free m List.mem_cons_self
        unfold freememFrom
        split
        · exact ih _ _ listed fun n mem => free n (List.mem_cons_of_mem m mem)
        · have refs : ∀ n, ((d.update m fun buf =>
              { buf with data := none, blockNum := blockNumUnused }).buf n).ref = (d.buf n).ref := by
            intro n
            by_cases other : n = m
            · subst other
              rw [update_same]
            · rw [update_other _ _ _ other]
          obtain ⟨listed', each⟩ := ih count (d.update m fun buf =>
            { buf with data := none, blockNum := blockNumUnused }) (listed.keep Iff.rfl)
            fun n mem => (refs n).trans (free n (List.mem_cons_of_mem m mem))
          refine ⟨listed', fun n => ?_⟩
          by_cases other : n = m
          · subst other
            obtain same | ⟨-, stripped⟩ := each n
            · exact Or.inr ⟨zero, by rw [same, update_same]⟩
            · exact Or.inr ⟨zero, by rw [stripped, update_same]⟩
          · have each' := each n
            rwa [update_other _ _ _ other] at each'
  exact loop _ count c listed fun n mem => (listed.mem_inactive n).mp mem

end BufCache

end LabKernel
