import Mathlib

/-! # Programs over a pool of nodes

Threads take nodes out of a common pool, link them into lists of their own and give them back. A node
that is taken belongs to one thread until that thread gives it back, and so does an anchor, a place
outside of the pool that a list starts from. `Safe` is the weakest precondition of a program that
touches only what belongs to it; it depends on nothing else, so what other threads do in between
cannot change it.
-/

namespace LabKernel

/-! ## Linked lists -/

/-- From `start`, following the links, one comes past the nodes of the list to `stop`. -/
def Segment (next : ℕ → Option ℕ) : (start : Option ℕ) → List ℕ → (stop : Option ℕ) → Prop
  | start, [], stop => start = stop
  | start, n :: rest, stop => start = some n ∧ Segment next (next n) rest stop

namespace Segment

variable {next next' : ℕ → Option ℕ} {start stop : Option ℕ} {l m : List ℕ} {n : ℕ}

@[simp] theorem nil_iff : Segment next start [] stop ↔ start = stop := Iff.rfl

@[simp] theorem cons_iff :
    Segment next start (n :: l) stop ↔ start = some n ∧ Segment next (next n) l stop := Iff.rfl

theorem append_iff : Segment next start (l ++ m) stop ↔
    ∃ mid, Segment next start l mid ∧ Segment next mid m stop := by
  induction l generalizing start with
  | nil => simp
  | cons n l ih => simp only [List.cons_append, cons_iff, ih, and_assoc, exists_and_left]

theorem snoc_iff : Segment next start (l ++ [n]) stop ↔ Segment next start l (some n) ∧ next n = stop := by
  simp [append_iff]

/-- Links of other nodes do not matter. -/
theorem congr (same : ∀ n ∈ l, next' n = next n) : Segment next' start l stop ↔ Segment next start l stop := by
  induction l generalizing start with
  | nil => rfl
  | cons n l ih =>
    obtain ⟨head, tail⟩ := List.forall_mem_cons.mp same
    rw [cons_iff, cons_iff, head, ih tail]

theorem update_iff (absent : n ∉ l) (v : Option ℕ) :
    Segment (Function.update next n v) start l stop ↔ Segment next start l stop :=
  by
  refine congr fun k member => Function.update_of_ne ?_ ..
  rintro rfl
  exact absent member

/-- The first node of a list. -/
theorem head (segment : Segment next start l none) : start = l.head? := by
  cases l with
  | nil => exact segment
  | cons n l => exact segment.1

end Segment

/-! ## Programs -/

/-- A program that takes nodes from the pool and gives them back, and that reads and writes nodes with
contents in `V` and anchors with contents in `H`. -/
inductive NodeProg (V H α : Type) where
  | pure (a : α)
  | panic (message : String)
  /-- The program runs out of fuel. -/
  | hang
  | take (rest : ℕ → NodeProg V H α)
  | give (n : ℕ) (rest : NodeProg V H α)
  | load (n : ℕ) (rest : V → NodeProg V H α)
  | store (n : ℕ) (v : V) (rest : NodeProg V H α)
  | anchor (q : ℕ) (rest : H → NodeProg V H α)
  | setAnchor (q : ℕ) (h : H) (rest : NodeProg V H α)

namespace NodeProg

variable {V H α β : Type}

def bind : NodeProg V H α → (α → NodeProg V H β) → NodeProg V H β
  | .pure a, f => f a
  | .panic message, _ => .panic message
  | .hang, _ => .hang
  | .take rest, f => .take fun n => (rest n).bind f
  | .give n rest, f => .give n (rest.bind f)
  | .load n rest, f => .load n fun v => (rest v).bind f
  | .store n v rest, f => .store n v (rest.bind f)
  | .anchor q rest, f => .anchor q fun h => (rest h).bind f
  | .setAnchor q h rest, f => .setAnchor q h (rest.bind f)

instance : Monad (NodeProg V H) where
  pure := .pure
  bind := .bind

def takeNode : NodeProg V H ℕ := .take .pure

def giveNode (n : ℕ) : NodeProg V H Unit := .give n (.pure ())

def loadNode (n : ℕ) : NodeProg V H V := .load n .pure

def storeNode (n : ℕ) (v : V) : NodeProg V H Unit := .store n v (.pure ())

def getAnchor (q : ℕ) : NodeProg V H H := .anchor q .pure

def putAnchor (q : ℕ) (h : H) : NodeProg V H Unit := .setAnchor q h (.pure ())

end NodeProg

/-- The nodes and anchors as a thread sees them, with the nodes that belong to it. -/
structure NodeView (V H : Type) where
  node : ℕ → V
  anchor : ℕ → H
  mine : Set ℕ

/-- The thread touches only nodes that belong to it and anchors in `anchors`, does not run out of fuel,
and ends, if it does not panic, with the postcondition. The pool has `size` nodes. -/
def Safe {V H α : Type} (size : ℕ) (anchors : Set ℕ) (Q : α → NodeView V H → Prop) :
    NodeProg V H α → NodeView V H → Prop
  | .pure a, s => Q a s
  | .panic _, _ => True
  | .hang, _ => False
  | .take rest, s => ∀ n < size, n ∉ s.mine → ∀ v,
    Safe size anchors Q (rest n) { s with node := Function.update s.node n v, mine := insert n s.mine }
  | .give n rest, s => n ∈ s.mine ∧ Safe size anchors Q rest { s with mine := s.mine \ {n} }
  | .load n rest, s => n ∈ s.mine ∧ Safe size anchors Q (rest (s.node n)) s
  | .store n v rest, s =>
    n ∈ s.mine ∧ Safe size anchors Q rest { s with node := Function.update s.node n v }
  | .anchor q rest, s => q ∈ anchors ∧ Safe size anchors Q (rest (s.anchor q)) s
  | .setAnchor q h rest, s =>
    q ∈ anchors ∧ Safe size anchors Q rest { s with anchor := Function.update s.anchor q h }

/-- Two views that differ in nothing that belongs to the thread. -/
structure NodeView.Agree {V H : Type} (anchors : Set ℕ) (s s' : NodeView V H) : Prop where
  mine : s'.mine = s.mine
  node : ∀ n ∈ s.mine, s'.node n = s.node n
  anchor : ∀ q ∈ anchors, s'.anchor q = s.anchor q

namespace Safe

variable {V H α β : Type} {size : ℕ} {anchors : Set ℕ} {s s' : NodeView V H} {n q : ℕ} {v : V} {h : H}
variable {Q R : α → NodeView V H → Prop} {x : NodeProg V H α}

theorem mono (safe : Safe size anchors Q x s) (weaker : ∀ a s, Q a s → R a s) :
    Safe size anchors R x s := by
  induction x generalizing s with
  | pure a => exact weaker a s safe
  | panic => trivial
  | hang => exact safe
  | take rest ih => exact fun n bound fresh v => ih n (safe n bound fresh v)
  | give n rest ih => exact ⟨safe.1, ih safe.2⟩
  | load n rest ih => exact ⟨safe.1, ih _ safe.2⟩
  | store n v rest ih => exact ⟨safe.1, ih safe.2⟩
  | anchor q rest ih => exact ⟨safe.1, ih _ safe.2⟩
  | setAnchor q h rest ih => exact ⟨safe.1, ih safe.2⟩

@[simp] theorem pure_iff {a : α} : Safe size anchors Q (pure a) s ↔ Q a s := Iff.rfl

@[simp] theorem panic_iff {message : String} : Safe size anchors Q (.panic message) s ↔ True := Iff.rfl

@[simp] theorem bind_iff {f : α → NodeProg V H β} {Q : β → NodeView V H → Prop} :
    Safe size anchors Q (x >>= f) s ↔ Safe size anchors (fun a s => Safe size anchors Q (f a) s) x s := by
  change Safe size anchors Q (x.bind f) s ↔ _
  induction x generalizing s with
  | pure a => rfl
  | panic => rfl
  | hang => rfl
  | take rest ih => exact forall₄_congr fun n _ _ v => ih n
  | give n rest ih => exact and_congr_right fun _ => ih
  | load n rest ih => exact and_congr_right fun _ => ih _
  | store n v rest ih => exact and_congr_right fun _ => ih
  | anchor q rest ih => exact and_congr_right fun _ => ih _
  | setAnchor q h rest ih => exact and_congr_right fun _ => ih

@[simp] theorem takeNode_iff {Q : ℕ → NodeView V H → Prop} : Safe size anchors Q .takeNode s ↔
    ∀ n < size, n ∉ s.mine → ∀ v,
      Q n { s with node := Function.update s.node n v, mine := insert n s.mine } := Iff.rfl

@[simp] theorem giveNode_iff {Q : Unit → NodeView V H → Prop} : Safe size anchors Q (.giveNode n) s ↔
    n ∈ s.mine ∧ Q () { s with mine := s.mine \ {n} } := Iff.rfl

@[simp] theorem loadNode_iff {Q : V → NodeView V H → Prop} : Safe size anchors Q (.loadNode n) s ↔
    n ∈ s.mine ∧ Q (s.node n) s := Iff.rfl

@[simp] theorem storeNode_iff {Q : Unit → NodeView V H → Prop} : Safe size anchors Q (.storeNode n v) s ↔
    n ∈ s.mine ∧ Q () { s with node := Function.update s.node n v } := Iff.rfl

@[simp] theorem getAnchor_iff {Q : H → NodeView V H → Prop} : Safe size anchors Q (.getAnchor q) s ↔
    q ∈ anchors ∧ Q (s.anchor q) s := Iff.rfl

@[simp] theorem putAnchor_iff {Q : Unit → NodeView V H → Prop} : Safe size anchors Q (.putAnchor q h) s ↔
    q ∈ anchors ∧ Q () { s with anchor := Function.update s.anchor q h } := Iff.rfl

theorem ite {c : Prop} [Decidable c] {y : NodeProg V H α} (yes : c → Safe size anchors Q x s)
    (no : ¬c → Safe size anchors Q y s) : Safe size anchors Q (if c then x else y) s := by
  split
  · exact yes ‹_›
  · exact no ‹_›

/-- What belongs to other threads does not matter. -/
theorem congr (closed : ∀ a s s', NodeView.Agree anchors s s' → Q a s → Q a s')
    (agree : NodeView.Agree anchors s s') (safe : Safe size anchors Q x s) : Safe size anchors Q x s' := by
  induction x generalizing s s' with
  | pure a => exact closed a s s' agree safe
  | panic => trivial
  | hang => exact safe
  | take rest ih =>
    intro n bound fresh v
    rw [agree.mine] at fresh
    refine ih n ?_ (safe n bound fresh v)
    refine ⟨congrArg (insert n) agree.mine, fun k member => ?_, agree.anchor⟩
    dsimp only at member ⊢
    rcases eq_or_ne k n with rfl | other
    · rw [Function.update_self, Function.update_self]
    · rw [Function.update_of_ne other, Function.update_of_ne other,
        agree.node k (member.resolve_left other)]
  | give n rest ih =>
    refine ⟨agree.mine ▸ safe.1, ih ?_ safe.2⟩
    exact ⟨congrArg (· \ {n}) agree.mine, fun k member => agree.node k member.1, agree.anchor⟩
  | load n rest ih =>
    refine ⟨agree.mine ▸ safe.1, ?_⟩
    rw [agree.node n safe.1]
    exact ih _ agree safe.2
  | store n v rest ih =>
    refine ⟨agree.mine ▸ safe.1, ih ?_ safe.2⟩
    refine ⟨agree.mine, fun k member => ?_, agree.anchor⟩
    dsimp only
    rcases eq_or_ne k n with rfl | other
    · rw [Function.update_self, Function.update_self]
    · rw [Function.update_of_ne other, Function.update_of_ne other, agree.node k member]
  | anchor q rest ih =>
    refine ⟨safe.1, ?_⟩
    rw [agree.anchor q safe.1]
    exact ih _ agree safe.2
  | setAnchor q h rest ih =>
    refine ⟨safe.1, ih ?_ safe.2⟩
    refine ⟨agree.mine, agree.node, fun k member => ?_⟩
    dsimp only
    rcases eq_or_ne k q with rfl | other
    · rw [Function.update_self, Function.update_self]
    · rw [Function.update_of_ne other, Function.update_of_ne other, agree.anchor k member]

end Safe

/-- The program only reads, and only what belongs to the thread, and it ends with the given result. -/
def Reads {V H α : Type} (anchors : Set ℕ) : NodeProg V H α → NodeView V H → α → Prop
  | .pure a, _, b => a = b
  | .load n rest, s, b => n ∈ s.mine ∧ Reads anchors (rest (s.node n)) s b
  | .anchor q rest, s, b => q ∈ anchors ∧ Reads anchors (rest (s.anchor q)) s b
  | _, _, _ => False

namespace Reads

variable {V H α β : Type} {anchors : Set ℕ} {s : NodeView V H} {x : NodeProg V H α}

@[simp] theorem pure_iff {a b : α} : Reads anchors (pure a : NodeProg V H α) s b ↔ a = b := Iff.rfl

theorem load_bind_iff {n : ℕ} {f : V → NodeProg V H β} {b : β} :
    Reads anchors (NodeProg.loadNode n >>= f) s b ↔ n ∈ s.mine ∧ Reads anchors (f (s.node n)) s b := Iff.rfl

end Reads

/-! ## The pool -/

/-- The nodes, the anchors, and the free nodes, which are linked apart from what they contain. -/
structure NodePool (V H : Type) where
  node : ℕ → V
  anchor : ℕ → H
  link : ℕ → Option ℕ
  sentinel : Option ℕ

namespace NodePool

variable {V H α : Type} {size : ℕ} {anchors : Set ℕ} {s s' : NodePool V H} {owner : ℕ → Option ℕ}
variable {Q : α → NodeView V H → Prop} {x x' : NodeProg V H α} {p q : ℕ}

/-- One access of a program. A panic, also for want of a free node, is none. -/
def work (s : NodePool V H) : NodeProg V H α → Option (NodePool V H × NodeProg V H α)
  | .pure _ | .panic _ | .hang => none
  | .take rest => s.sentinel.map fun n => ({ s with sentinel := s.link n }, rest n)
  | .give n rest => some ({ s with link := Function.update s.link n s.sentinel, sentinel := some n }, rest)
  | .load n rest => some (s, rest (s.node n))
  | .store n v rest => some ({ s with node := Function.update s.node n v }, rest)
  | .anchor q rest => some (s, rest (s.anchor q))
  | .setAnchor q h rest => some ({ s with anchor := Function.update s.anchor q h }, rest)

/-- The nodes that nobody owns are those on the free list, each once. -/
def FreeListed (size : ℕ) (s : NodePool V H) (owner : ℕ → Option ℕ) : Prop :=
  ∃ free, Segment s.link s.sentinel free none ∧ free.Nodup ∧ ∀ n, n ∈ free ↔ n < size ∧ owner n = none

/-- What a thread sees. -/
def view (size : ℕ) (s : NodePool V H) (owner : ℕ → Option ℕ) (p : ℕ) : NodeView V H :=
  ⟨s.node, s.anchor, {n | n < size ∧ owner n = some p}⟩

/-- An access of a safe program leaves it safe; all nodes have one owner or are free as before, and
nothing changes that belongs to others. -/
theorem work_safe (free : FreeListed size s owner) (safe : Safe size anchors Q x (s.view size owner p))
    (step : s.work x = some (s', x')) :
    ∃ owner', FreeListed size s' owner' ∧ Safe size anchors Q x' (s'.view size owner' p) ∧
      ∀ q ≠ p, ∀ others, Disjoint anchors others →
        NodeView.Agree others (s.view size owner q) (s'.view size owner' q) := by
  have same (q : ℕ) (others : Set ℕ) : NodeView.Agree others (s.view size owner q) (s.view size owner q) :=
    ⟨rfl, fun _ _ => rfl, fun _ _ => rfl⟩
  cases x with
  | pure => cases step
  | panic => cases step
  | hang => cases step
  | take rest =>
    obtain ⟨n, first, rfl, rfl⟩ : ∃ n, s.sentinel = some n ∧ { s with sentinel := s.link n } = s' ∧
        rest n = x' := by
      simpa only [work, Option.map_eq_some_iff, Prod.mk.injEq] using step
    obtain ⟨free, chain, nodup, member⟩ := free
    cases free with
    | nil => cases first.symm.trans chain
    | cons k free =>
      obtain rfl : n = k := Option.some.inj (first.symm.trans chain.1)
      obtain ⟨bound, unowned⟩ := (member n).mp List.mem_cons_self
      obtain ⟨absent, nodup⟩ := List.nodup_cons.mp nodup
      refine ⟨Function.update owner n (some p), ⟨free, chain.2, nodup, fun m => ?_⟩, ?_, fun q other others _ => ?_⟩
      · rcases eq_or_ne m n with rfl | different
        · rw [Function.update_self]
          exact iff_of_false absent nofun
        · rw [Function.update_of_ne different, ← member m, List.mem_cons, or_iff_right different]
      · have next := safe n bound (fun owned => nomatch unowned.symm.trans owned.2) (s.node n)
        have keeps : Function.update (s.view size owner p).node n (s.node n) = s.node :=
          Function.update_eq_self ..
        rw [keeps] at next
        have mine : insert n {m | m < size ∧ owner m = some p} =
            {m | m < size ∧ Function.update owner n (some p) m = some p} := by
          ext m
          rcases eq_or_ne m n with rfl | different
          · simp [bound]
          · simp [different]
        rw [view, ← mine]
        exact next
      · refine ⟨Set.ext fun m => and_congr_right fun _ => ?_, fun _ _ => rfl, fun _ _ => rfl⟩
        rcases eq_or_ne m n with rfl | different
        · rw [Function.update_self, unowned]
          exact iff_of_false (fun same => other (Option.some.inj same).symm) nofun
        · rw [Function.update_of_ne different]
  | give n rest =>
    cases step
    obtain ⟨⟨bound, owned⟩, safe⟩ := safe
    obtain ⟨free, chain, nodup, member⟩ := free
    have absent : n ∉ free := fun inside => nomatch owned.symm.trans ((member n).mp inside).2
    refine ⟨Function.update owner n none, ⟨n :: free, ⟨rfl, ?_⟩, List.nodup_cons.mpr ⟨absent, nodup⟩, fun m => ?_⟩,
      ?_, fun q other others _ => ?_⟩
    · rw [Segment.update_iff absent]
      simpa using chain
    · rcases eq_or_ne m n with rfl | different
      · simp [bound]
      · rw [Function.update_of_ne different, List.mem_cons, or_iff_right different, member m]
    · have mine : {m | m < size ∧ owner m = some p} \ {n} =
          {m | m < size ∧ Function.update owner n none m = some p} := by
        ext m
        rcases eq_or_ne m n with rfl | different
        · simp
        · simp [different]
      rw [view, ← mine]
      exact safe
    · refine ⟨Set.ext fun m => and_congr_right fun _ => ?_, fun _ _ => rfl, fun _ _ => rfl⟩
      rcases eq_or_ne m n with rfl | different
      · rw [Function.update_self, owned]
        exact iff_of_false nofun fun same => other (Option.some.inj same).symm
      · rw [Function.update_of_ne different]
  | load n rest =>
    cases step
    exact ⟨owner, free, safe.2, fun q _ others _ => same q others⟩
  | store n v rest =>
    cases step
    refine ⟨owner, free, safe.2, fun q other others _ => ⟨rfl, fun m member => ?_, fun _ _ => rfl⟩⟩
    refine Function.update_of_ne ?_ ..
    rintro rfl
    exact other (Option.some.inj (member.2.symm.trans safe.1.2))
  | anchor q rest =>
    cases step
    exact ⟨owner, free, safe.2, fun q _ others _ => same q others⟩
  | setAnchor q h rest =>
    cases step
    refine ⟨owner, free, safe.2, fun _ _ others apart => ⟨rfl, fun _ _ => rfl, fun k member => ?_⟩⟩
    refine Function.update_of_ne ?_ ..
    rintro rfl
    exact Set.disjoint_left.mp apart safe.1 member

end NodePool

end LabKernel
