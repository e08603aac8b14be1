import LabKernel.Fs.Buf
import LabKernel.Fs.State
import LabKernel.Lib.Ring

/-! # The links of the buffer cache

`kernel/fs/buf.c` with its pointers: the two list heads, the links of the nodes, `insert_node` as it
moves them, and the three critical sections of `lk_buf_cache` as loops over the links. They do to
the links what the list operations of `BufCache` do to its lists. Reference counts are 32-bit here;
a process that asks for a buffer it has waits for itself, so a count stays far below the limit.
-/

namespace LabKernel

/-- The addresses of nodes: the two list heads and the elements of `buf_cache`. -/
inductive BufPtr where
  | active
  | inactive
  | node (n : Fin nBuffer)
deriving DecidableEq

private theorem BufPtr.node_injective : Function.Injective BufPtr.node := fun _ _ => BufPtr.node.inj

/-- The fields of `buffer_t` that `lk_buf_cache` protects; `data` is the address of the page. -/
structure BufferNode where
  blockNum : U32
  ref : U32
  data : Option U64
deriving DecidableEq

structure LinkedCache where
  buf : Fin nBuffer → BufferNode
  links : Links BufPtr

namespace LinkedCache

def update (l : LinkedCache) (n : Fin nBuffer) (f : BufferNode → BufferNode) : LinkedCache :=
  { l with buf := Function.update l.buf n (f (l.buf n)) }

def insertNode (l : LinkedCache) (n : Fin nBuffer) (insertActive insertNext : Bool) : LinkedCache :=
  let links := l.links.unlink (.node n)
  let head : BufPtr := if insertActive then .active else .inactive
  { l with links := if insertNext then links.linkNext head (.node n) else links.linkPrev head (.node n) }

/-- `buffer_init`; the static nodes start with null links. -/
def init : LinkedCache :=
  (List.finRange nBuffer).foldl (fun l n => l.insertNode n false true)
    { buf := fun _ => ⟨blockNumUnused, 0, none⟩
      links :=
        { next := fun a => match a with
            | .node _ => none
            | head => some head
          prev := fun a => match a with
            | .node _ => none
            | head => some head } }

/-- The comparison in the search loops of `buffer_get`. -/
def hasBlock (l : LinkedCache) (blockNum : U32) : BufPtr → Bool
  | .node n => (l.buf n).blockNum == blockNum
  | _ => false

def search (l : LinkedCache) (head : BufPtr) (blockNum : U32) : Option (Option BufPtr) :=
  l.links.seek head (l.hasBlock blockNum) (nBuffer + 1) (l.links.next head)

/-- The critical section of `buffer_get`: the node, and whether it has to be filled from the disk.
`page` is what `pmem_alloc` returns. -/
def bufferGet (l : LinkedCache) (blockNum : U32) (page : U64) :
    Except Fault (Fin nBuffer × Bool × LinkedCache) :=
  match l.search .active blockNum with
  | some (some (.node n)) => .ok (n, false, l.update n fun buf => { buf with ref := buf.ref + 1 })
  | some none =>
    match l.search .inactive blockNum with
    | some (some (.node n)) =>
      .ok (n, false, (l.update n fun buf => { buf with ref := 1 }).insertNode n true true)
    | some none =>
      match l.links.next .inactive with
      | some (.node n) =>
        .ok (n, true, (l.update n fun buf =>
          { blockNum := blockNum, ref := 1, data := some (buf.data.getD page) }).insertNode n true true)
      | some _ => .error (.panic "buffer_get: no free buffers")
      | none => .error .wildPointer
    | _ => .error .wildPointer
  | _ => .error .wildPointer

/-- The critical section of `buffer_put`. -/
def bufferPut (l : LinkedCache) (n : Fin nBuffer) : LinkedCache :=
  let l := l.update n fun buf => { buf with ref := buf.ref - 1 }
  if (l.buf n).ref = 0 then l.insertNode n false true else l

/-- The loop of `buffer_freemem`, with the number of pages freed. -/
def freememFrom (count : ℕ) :
    (fuel freed : ℕ) → Option BufPtr → LinkedCache → Except Fault (ℕ × LinkedCache)
  | _, _, none, _ => .error .wildPointer
  | 0, _, _, _ => .error .hang
  | fuel + 1, freed, some node, l =>
    if node = .inactive ∨ count ≤ freed then .ok (freed, l)
    else
      let next := l.links.next node
      match node with
      | .node n =>
        if (l.buf n).data = none then freememFrom count fuel freed next l
        else freememFrom count fuel (freed + 1) next
          (l.update n fun buf => { buf with data := none, blockNum := blockNumUnused })
      | _ => .error .wildPointer

def bufferFreemem (l : LinkedCache) (count : U32) : Except Fault (ℕ × LinkedCache) :=
  freememFrom count.toNat (nBuffer + 1) 0 (l.links.next .inactive) l

@[simp] theorem update_same (l : LinkedCache) (n : Fin nBuffer) (f : BufferNode → BufferNode) :
    (l.update n f).buf n = f (l.buf n) := Function.update_self ..

private theorem update_other (l : LinkedCache) {n m : Fin nBuffer} (f : BufferNode → BufferNode)
    (other : m ≠ n) : (l.update n f).buf m = l.buf m := Function.update_of_ne other ..

@[simp] theorem insertNode_buf (l : LinkedCache) (n : Fin nBuffer) (insertActive insertNext : Bool) :
    (l.insertNode n insertActive insertNext).buf = l.buf := rfl

/-- Lists of nodes as lists of addresses. -/
def ptrs (list : List (Fin nBuffer)) : List BufPtr := list.map .node

@[simp] theorem mem_ptrs {list : List (Fin nBuffer)} {n : Fin nBuffer} :
    BufPtr.node n ∈ ptrs list ↔ n ∈ list := List.mem_map_of_injective BufPtr.node_injective

@[simp] theorem active_ptrs (list : List (Fin nBuffer)) : BufPtr.active ∉ ptrs list := by
  simp [ptrs]

@[simp] theorem inactive_ptrs (list : List (Fin nBuffer)) : BufPtr.inactive ∉ ptrs list := by
  simp [ptrs]

/-- The links lead through the two lists. -/
structure Rings (links : Links BufPtr) (active inactive : List (Fin nBuffer)) : Prop where
  apart : ∀ n ∈ active, n ∉ inactive
  first : links.Ring .active (ptrs active)
  second : links.Ring .inactive (ptrs inactive)

namespace Rings

variable {links : Links BufPtr} {active inactive : List (Fin nBuffer)} {n : Fin nBuffer}

private theorem activeNodup (rings : Rings links active inactive) : active.Nodup :=
  (List.nodup_cons.mp rings.first.nodup).2.of_map _

private theorem inactiveNodup (rings : Rings links active inactive) : inactive.Nodup :=
  (List.nodup_cons.mp rings.second.nodup).2.of_map _

private theorem heads_apart (rings : Rings links active inactive) :
    ∀ x ∈ BufPtr.active :: ptrs active, x ∉ BufPtr.inactive :: ptrs inactive := by
  intro x within other
  cases x with
  | active => simp at other
  | inactive => simp at within
  | node n =>
    simp only [List.mem_cons, reduceCtorEq, mem_ptrs, false_or] at within other
    exact rings.apart n within other

private theorem erase_split {list : List (Fin nBuffer)} (member : n ∈ list) (nodup : list.Nodup) :
    ∃ xs ys, ptrs list = xs ++ BufPtr.node n :: ys ∧ ptrs (list.erase n) = xs ++ ys := by
  obtain ⟨xs, ys, rfl⟩ := List.append_of_mem member
  have early : n ∉ xs := fun within => (List.nodup_append.mp nodup).2.2 n within n (by simp) rfl
  refine ⟨ptrs xs, ptrs ys, by simp [ptrs], ?_⟩
  rw [List.erase_append_right _ early, List.erase_cons_head]
  simp [ptrs]

/-- The first part of `insert_node` takes the node off the list it is on. -/
theorem unlink (rings : Rings links active inactive)
    (placed : n ∈ active ∨ n ∈ inactive ∨ links.next (.node n) = none) :
    Rings (links.unlink (.node n)) (active.erase n) (inactive.erase n) := by
  have smaller : ∀ m ∈ active.erase n, m ∉ inactive.erase n := fun m within other =>
    rings.apart m (List.mem_of_mem_erase within) (List.mem_of_mem_erase other)
  rcases placed with onActive | onInactive | null
  · obtain ⟨xs, ys, list, erased⟩ := erase_split onActive rings.activeNodup
    have off : n ∉ inactive := rings.apart n onActive
    refine ⟨smaller, ?_, ?_⟩
    · rw [erased]
      exact (list ▸ rings.first).unlink
    · rw [List.erase_of_not_mem off]
      refine rings.second.unlink_other rings.first (mem_ptrs.mpr onActive) fun x within other => ?_
      exact rings.heads_apart x other within
  · obtain ⟨xs, ys, list, erased⟩ := erase_split onInactive rings.inactiveNodup
    have off : n ∉ active := fun within => rings.apart n within onInactive
    refine ⟨smaller, ?_, ?_⟩
    · rw [List.erase_of_not_mem off]
      exact rings.first.unlink_other rings.second (mem_ptrs.mpr onInactive) rings.heads_apart
    · rw [erased]
      exact (list ▸ rings.second).unlink
  · have offActive : n ∉ active := by
      intro within
      obtain ⟨y, -, next⟩ := rings.first.next_mem (List.mem_cons_of_mem _ (mem_ptrs.mpr within))
      cases null.symm.trans next
    have offInactive : n ∉ inactive := by
      intro within
      obtain ⟨y, -, next⟩ := rings.second.next_mem (List.mem_cons_of_mem _ (mem_ptrs.mpr within))
      cases null.symm.trans next
    rw [Links.unlink_null null, List.erase_of_not_mem offActive, List.erase_of_not_mem offInactive]
    exact rings

/-- The second part of `insert_node`, for a node that is on neither list. -/
theorem link (rings : Rings links active inactive) (offActive : n ∉ active)
    (offInactive : n ∉ inactive) :
    Rings (links.linkNext .active (.node n)) (n :: active) inactive ∧
      Rings (links.linkPrev .active (.node n)) (active ++ [n]) inactive ∧
      Rings (links.linkNext .inactive (.node n)) active (n :: inactive) ∧
      Rings (links.linkPrev .inactive (.node n)) active (inactive ++ [n]) := by
  have freshActive : BufPtr.node n ∉ BufPtr.active :: ptrs active := by simpa using offActive
  have freshInactive : BufPtr.node n ∉ BufPtr.inactive :: ptrs inactive := by simpa using offInactive
  have apart := rings.heads_apart
  have apart' : ∀ x ∈ BufPtr.inactive :: ptrs inactive, x ∉ BufPtr.active :: ptrs active :=
    fun x within other => apart x other within
  have append (list : List (Fin nBuffer)) : ptrs (list ++ [n]) = ptrs list ++ [BufPtr.node n] := by
    simp [ptrs]
  refine ⟨⟨?_, rings.first.linkNext freshActive,
      rings.second.linkNext_other rings.first freshInactive apart'⟩,
    ⟨?_, ?_, rings.second.linkPrev_other rings.first freshInactive apart'⟩,
    ⟨?_, rings.first.linkNext_other rings.second freshActive apart,
      rings.second.linkNext freshInactive⟩,
    ⟨?_, rings.first.linkPrev_other rings.second freshActive apart, ?_⟩⟩
  · rintro m within
    rcases List.mem_cons.mp within with rfl | old
    · exact offInactive
    · exact rings.apart m old
  · rintro m within
    rcases List.mem_append.mp within with old | new
    · exact rings.apart m old
    · rw [List.mem_singleton.mp new]
      exact offInactive
  · rw [append]
    exact rings.first.linkPrev freshActive
  · rintro m within other
    rcases List.mem_cons.mp other with rfl | old
    · exact offActive within
    · exact rings.apart m within old
  · rintro m within other
    rcases List.mem_append.mp other with old | new
    · exact rings.apart m within old
    · rw [List.mem_singleton.mp new] at within
      exact offActive within
  · rw [append]
    exact rings.second.linkPrev freshInactive

end Rings

/-- A buffer as the list model has it. -/
structure SameBuffer {P : Type} (buf : BufferNode) (buf' : Buffer P) : Prop where
  blockNum : buf.blockNum = buf'.blockNum
  ref : buf.ref.toNat = buf'.ref
  data : buf.data = none ↔ buf'.data = none

/-- The links and buffers are those of a cache with lists. -/
structure Represents {P : Type} (l : LinkedCache) (c : BufCache P) : Prop where
  rings : Rings l.links c.active c.inactive
  buf : ∀ n, SameBuffer (l.buf n) (c.buf n)

namespace Represents

variable {P : Type} {l : LinkedCache} {c : BufCache P} {n : Fin nBuffer}

private theorem update (rep : Represents l c) {f : BufferNode → BufferNode} {g : Buffer P → Buffer P}
    (same : SameBuffer (f (l.buf n)) (g (c.buf n))) : Represents (l.update n f) (c.update n g) := by
  refine ⟨rep.rings, fun m => ?_⟩
  rcases eq_or_ne m n with rfl | other
  · rw [update_same, BufCache.update_same]
    exact same
  · rw [update_other _ _ other, BufCache.update_other _ _ _ other]
    exact rep.buf m

/-- `insert_node` moves the node as the list operation does. -/
theorem insertNode (rep : Represents l c)
    (placed : n ∈ c.active ∨ n ∈ c.inactive ∨ l.links.next (.node n) = none)
    (insertActive insertNext : Bool) :
    Represents (l.insertNode n insertActive insertNext) (c.insertNode n insertActive insertNext) := by
  have taken := rep.rings.unlink placed
  obtain ⟨activeNext, activePrev, inactiveNext, inactivePrev⟩ := taken.link
    rep.rings.activeNodup.not_mem_erase rep.rings.inactiveNodup.not_mem_erase
  refine ⟨?_, fun m => ?_⟩
  · cases insertActive <;> cases insertNext
    · exact inactivePrev
    · exact inactiveNext
    · exact activePrev
    · exact activeNext
  · rw [insertNode_buf, BufCache.insertNode_buf]
    exact rep.buf m

private theorem find_ptrs (rep : Represents l c) (list : List (Fin nBuffer)) (b : U32) :
    (ptrs list).find? (l.hasBlock b) = (c.search list b).map .node := by
  rw [ptrs, List.find?_map, BufCache.search]
  congr 2
  funext m
  simp only [Function.comp_apply, hasBlock, (rep.buf m).blockNum]

private theorem length_lt {list : List (Fin nBuffer)} (nodup : list.Nodup) :
    (ptrs list).length < nBuffer + 1 := by
  rw [ptrs, List.length_map]
  have := nodup.length_le_card
  rw [Fintype.card_fin] at this
  exact Nat.lt_succ_of_le this

theorem search_active (rep : Represents l c) (b : U32) :
    l.search .active b = some ((c.search c.active b).map .node) := by
  rw [LinkedCache.search, rep.rings.first.seek _ (length_lt rep.rings.activeNodup),
    find_ptrs rep c.active b]

theorem search_inactive (rep : Represents l c) (b : U32) :
    l.search .inactive b = some ((c.search c.inactive b).map .node) := by
  rw [LinkedCache.search, rep.rings.second.seek _ (length_lt rep.rings.inactiveNodup),
    find_ptrs rep c.inactive b]

/-- The critical section of `buffer_get` finds the same node and leaves matching caches. -/
theorem bufferGet (rep : Represents l c) (room : ∀ n, (c.buf n).ref < 2 ^ 32 - 1) (b : U32)
    (page : U64) (contents : Bytes) :
    (∃ n fill l' c', l.bufferGet b page = .ok (n, fill, l') ∧
      c.bufferGet b contents = some (n, fill, c') ∧ Represents l' c') ∨
    (l.bufferGet b page = .error (.panic "buffer_get: no free buffers") ∧
      c.bufferGet b contents = none) := by
  unfold LinkedCache.bufferGet BufCache.bufferGet
  rw [rep.search_active, rep.search_inactive]
  cases onActive : c.search c.active b with
  | some n =>
    refine Or.inl ⟨n, false, _, _, rfl, rfl, rep.update ⟨(rep.buf n).blockNum, ?_, (rep.buf n).data⟩⟩
    have small := room n
    have one : (1 : U32).toNat = 1 := rfl
    simp only [BitVec.toNat_add, (rep.buf n).ref, one]
    omega
  | none =>
    cases onInactive : c.search c.inactive b with
    | some n =>
      refine Or.inl ⟨n, false, _, _, rfl, rfl, ?_⟩
      have revived : Represents (l.update n fun buf => { buf with ref := 1 })
          (c.update n fun buf => { buf with ref := 1 }) :=
        rep.update ⟨(rep.buf n).blockNum, rfl, (rep.buf n).data⟩
      exact revived.insertNode (Or.inr (Or.inl (BufCache.search_some onInactive).1)) true true
    | none =>
      cases first : c.inactive with
      | nil =>
        have next : l.links.next .inactive = some .inactive := by
          have ring := rep.rings.second.chain
          rw [first] at ring
          exact ring.1
        refine Or.inr ⟨?_, rfl⟩
        simp only [Option.map_none, next]
      | cons n rest =>
        have next : l.links.next .inactive = some (.node n) := by
          have ring := rep.rings.second.chain
          rw [first] at ring
          exact ring.1.1
        have filled : Represents
            (l.update n fun buf => { blockNum := b, ref := 1, data := some (buf.data.getD page) })
            (c.update n fun buf =>
              { buf with blockNum := b, ref := 1, data := some (buf.data.getD contents) }) :=
          rep.update ⟨rfl, rfl, by simp⟩
        have moved := filled.insertNode (n := n) (Or.inr (Or.inl (by
          rw [BufCache.update_inactive, first]
          exact List.mem_cons_self))) true true
        refine Or.inl ⟨n, true, _, _, ?_, rfl, moved⟩
        simp only [Option.map_none, next]

/-- The critical section of `buffer_put`. -/
theorem bufferPut (rep : Represents l c) (listed : c.Listed) (held : (c.buf n).ref ≠ 0) :
    Represents (l.bufferPut n) (c.bufferPut n) := by
  have small := (l.buf n).ref.isLt
  have one : (1 : U32).toNat = 1 := rfl
  have refs := (rep.buf n).ref
  have lowered : SameBuffer { l.buf n with ref := (l.buf n).ref - 1 }
      { c.buf n with ref := (c.buf n).ref - 1 } := by
    refine ⟨(rep.buf n).blockNum, ?_, (rep.buf n).data⟩
    dsimp only
    rw [BitVec.toNat_sub, one]
    omega
  have dropped : Represents (l.update n fun buf => { buf with ref := buf.ref - 1 })
      (c.update n fun buf => { buf with ref := buf.ref - 1 }) := rep.update lowered
  have zero : (l.buf n).ref - 1 = 0 ↔ (c.buf n).ref - 1 = 0 := by
    rw [show (c.buf n).ref - 1 = ((l.buf n).ref - 1).toNat from lowered.ref.symm]
    exact ⟨fun same => by rw [same]; rfl, fun same => BitVec.eq_of_toNat_eq same⟩
  simp only [LinkedCache.bufferPut, BufCache.bufferPut, update_same, BufCache.update_same, zero]
  split
  · exact dropped.insertNode (Or.inl ((listed.mem_active n).mpr held)) false true
  · exact dropped

private theorem freememFrom (count : ℕ) (list : List (Fin nBuffer)) :
    ∀ (fuel freed : ℕ) (a : BufPtr) (l : LinkedCache) (c : BufCache P), list.length < fuel →
      l.links.Chain a (ptrs list) .inactive → Represents l c → freed ≤ count →
      ∃ freed' l', LinkedCache.freememFrom count fuel freed (l.links.next a) l = .ok (freed', l') ∧
        Represents l' (BufCache.freememFrom list (count - freed) c) := by
  induction list with
  | nil =>
    intro fuel freed a l c enough chain rep _
    obtain ⟨fuel, rfl⟩ := Nat.exists_eq_succ_of_ne_zero (Nat.ne_zero_of_lt enough)
    refine ⟨freed, l, ?_, rep⟩
    rw [chain.1, LinkedCache.freememFrom, if_pos (Or.inl rfl)]
  | cons n rest ih =>
    intro fuel freed a l c enough chain rep bound
    obtain ⟨fuel, rfl⟩ := Nat.exists_eq_succ_of_ne_zero (Nat.ne_zero_of_lt enough)
    rw [List.length_cons] at enough
    obtain ⟨⟨next, -⟩, later⟩ : (l.links.next a = some (.node n) ∧ _) ∧
      l.links.Chain (.node n) (ptrs rest) .inactive := chain
    rw [next, LinkedCache.freememFrom]
    rcases Nat.eq_or_lt_of_le bound with rfl | more
    · rw [if_pos (Or.inr (Nat.le_refl _)), Nat.sub_self]
      exact ⟨freed, l, rfl, rep⟩
    · obtain ⟨left, remaining⟩ : ∃ left, count - freed = left + 1 := ⟨count - freed - 1, by omega⟩
      rw [if_neg (by simp; omega), remaining, BufCache.freememFrom]
      simp only [(rep.buf n).data]
      split
      · have := ih fuel freed (.node n) l c (by omega) later rep bound
        rwa [remaining] at this
      · have stripped : Represents
            (l.update n fun buf => { buf with data := none, blockNum := blockNumUnused })
            (c.update n fun buf => { buf with data := none, blockNum := blockNumUnused }) :=
          rep.update ⟨rfl, (rep.buf n).ref, by simp⟩
        have := ih fuel (freed + 1) (.node n) (l.update n _) _ (by omega) later stripped (by omega)
        rwa [show count - (freed + 1) = left by omega] at this

/-- `buffer_freemem` -/
theorem bufferFreemem (rep : Represents l c) (count : U32) :
    ∃ freed l', l.bufferFreemem count = .ok (freed, l') ∧
      Represents l' (c.bufferFreemem count.toNat) := by
  have short := length_lt rep.rings.inactiveNodup
  rw [ptrs, List.length_map] at short
  exact freememFrom count.toNat c.inactive _ 0 .inactive l c short rep.rings.second.chain rep
    (Nat.zero_le _)

end Represents

/-- `buffer_init` builds the lists of the list model. -/
theorem init_represents {P : Type} : Represents init (BufCache.init : BufCache P) := by
  have fold : ∀ (list : List (Fin nBuffer)) (l : LinkedCache) (c : BufCache P), list.Nodup →
      (∀ n ∈ list, l.links.next (.node n) = none ∧ n ∉ c.active ∧ n ∉ c.inactive) →
      Represents l c →
      Represents (list.foldl (fun l n => l.insertNode n false true) l)
        (list.foldl (fun c n => c.insertNode n false true) c) := by
    intro list
    induction list with
    | nil => exact fun l c _ _ rep => rep
    | cons n rest ih =>
      intro l c nodup fresh rep
      obtain ⟨new, nodup⟩ := List.nodup_cons.mp nodup
      have null := (fresh n List.mem_cons_self).1
      refine ih _ _ nodup (fun m within => ?_) (rep.insertNode (Or.inr (Or.inr null)) false true)
      obtain ⟨next, offActive, offInactive⟩ := fresh m (List.mem_cons_of_mem n within)
      have other : m ≠ n := fun same => new (same ▸ within)
      refine ⟨?_, ?_, ?_⟩
      · obtain ⟨x, onX, first⟩ := rep.rings.second.next_mem List.mem_cons_self
        have apart : BufPtr.node m ≠ .node n := fun same => other (BufPtr.node.inj same)
        simp only [LinkedCache.insertNode, Links.unlink_null null, Bool.false_eq_true, if_false,
          if_true, Links.linkNext, first]
        rw [Links.setNext_next, if_neg (by simp), Links.setPrev_next, Links.setPrev_next,
          Links.setNext_next, if_neg apart, next]
      · simpa [BufCache.insertNode, List.mem_erase_of_ne other] using offActive
      · simpa [BufCache.insertNode, other, List.mem_erase_of_ne other] using offInactive
  refine fold _ _ _ (List.nodup_finRange _) (fun n _ => ⟨rfl, ?_, ?_⟩) ⟨⟨?_, ⟨?_, ?_⟩, ⟨?_, ?_⟩⟩, ?_⟩
  · exact List.not_mem_nil
  · exact List.not_mem_nil
  · exact fun n within => absurd within List.not_mem_nil
  · exact List.nodup_singleton _
  · exact ⟨rfl, rfl⟩
  · exact List.nodup_singleton _
  · exact ⟨rfl, rfl⟩
  · exact fun n => ⟨rfl, rfl, by simp⟩

end LinkedCache

end LabKernel
