import LabKernel.Fs.Image
import LabKernel.Fs.InodeUse

/-! # Deletion and references

`inode_put` decides to delete an inode in one critical section and deletes it later; a path walk finds
the number of an inode in one step and counts its reference in another. If neither window is used by
another process, an inode is deleted only when nobody refers to it or knows its number.
-/

namespace LabKernel

/-- The steps of `inode_put` that delete an inode. -/
def deleting (i : ℕ) : List InodeAct :=
  [.lock i, .load i, .delete i, .invalidate i, .unlock i, .drop i]

/-- A step that does not ask for the number of a slot, and does not change its reference counter,
leaves it the only one with its number. -/
theorem SlotChange.alone {slots slots' : ℕ → SlotInfo} {refs refs' : List ℕ} {a : InodeAct} {i : ℕ}
    (change : SlotChange a slots refs slots' refs') (one : (slots i).ref = 1)
    (single : ∀ j, (slots j).inodeNum = (slots i).inodeNum → 0 < (slots j).ref → j = i)
    (counted : ∀ j ∈ refs, 0 < (slots j).ref) (asks : a.number ≠ some (slots i).inodeNum)
    (kept : a ≠ .dup i ∧ a ≠ .put i ∧ a ≠ .drop i) :
    (slots' i).inodeNum = (slots i).inodeNum ∧ (slots' i).ref = 1 ∧
      ∀ j, (slots' j).inodeNum = (slots i).inodeNum → 0 < (slots' j).ref → j = i := by
  -- another slot changes, and does not get the number
  have other {j : ℕ} {slot : SlotInfo} (apart : j ≠ i)
      (still : slot.inodeNum = (slots i).inodeNum → 0 < slot.ref →
        (slots j).inodeNum = (slots i).inodeNum ∧ 0 < (slots j).ref) :
      (Function.update slots j slot i).inodeNum = (slots i).inodeNum ∧
      (Function.update slots j slot i).ref = 1 ∧
      ∀ k, (Function.update slots j slot k).inodeNum = (slots i).inodeNum →
        0 < (Function.update slots j slot k).ref → k = i := by
    rw [Function.update_of_ne apart.symm]
    refine ⟨rfl, one, fun k same some => ?_⟩
    rcases eq_or_ne k j with rfl | away
    · rw [Function.update_self] at same some
      exact single k (still same some).1 (still same some).2
    · rw [Function.update_of_ne away] at same some
      exact single k same some
  -- the slot keeps its number and counter
  have own {slot : SlotInfo} (num : slot.inodeNum = (slots i).inodeNum) (ref : slot.ref = 1) :
      (Function.update slots i slot i).inodeNum = (slots i).inodeNum ∧
      (Function.update slots i slot i).ref = 1 ∧
      ∀ k, (Function.update slots i slot k).inodeNum = (slots i).inodeNum →
        0 < (Function.update slots i slot k).ref → k = i := by
    rw [Function.update_self]
    refine ⟨num, ref, fun k same some => ?_⟩
    rcases eq_or_ne k i with rfl | away
    · rfl
    · rw [Function.update_of_ne away] at same some
      exact single k same some
  cases change with
  | same => exact ⟨rfl, one, single⟩
  | dup j act held =>
    have apart : j ≠ i := fun same => kept.1 (same ▸ act)
    exact other apart fun same _ => ⟨same, counted j held⟩
  | hit n j number num =>
    have apart : n ≠ (slots i).inodeNum := fun same => asks (same ▸ number)
    exact other (fun same => apart (same ▸ num.symm)) fun same _ => absurd (num.symm.trans same) apart
  | miss n j number _ free =>
    have apart : n ≠ (slots i).inodeNum := fun same => asks (same ▸ number)
    refine other (fun same => ?_) fun same _ => absurd same apart
    rw [same, one] at free
    exact Nat.one_ne_zero free
  | load j | invalidate j =>
    rcases eq_or_ne j i with rfl | apart
    · exact own rfl one
    · exact other apart fun same some => ⟨same, some⟩
  | lose j act held =>
    have apart : j ≠ i := by
      rintro rfl
      exact act.elim kept.2.1 kept.2.2
    exact other apart fun same _ => ⟨same, counted j held⟩

namespace InodeUse

variable {sb : SuperBlock} {u u' : InodeUse} {p q : Fin nProc} {i : ℕ}

/-- A process is on its way to delete the inode with a number. -/
def Dying (u : InodeUse) (n : U32) : Prop :=
  ∃ q i, .delete i ∈ u.todo q ∧ (u.fs.slots i).inodeNum = n

/-- The directory entry that a step looks up has the number. -/
def Names (sb : SuperBlock) (u : InodeUse) (n : U32) : InodeAct → Prop
  | .search i name => ∃ fs, Fs.dentrySearch ⟨sb, false⟩ i name u.fs = .ok n fs
  | .remove i name => ∃ fs, Fs.dentryDelete ⟨sb, false⟩ i name u.fs = .ok n fs
  | _ => False

/-- Both windows are closed: nobody knows the number of an inode when `inode_put` decides to delete
it, and no other slot refers to it; until it is deleted nobody asks for it or finds its number. -/
def Closed (sb : SuperBlock) (u : InodeUse) (input : Fin nProc × Option InodeCall) : Prop :=
  input.2 = none → ∀ a ∈ (u.todo input.1).head?,
    (∀ i, a = .put i → (u.fs.slots i).ref = 1 → (u.fs.slots i).validInfo = true →
      (u.fs.inodeCache i).diskInfo.nlink = 0 →
      (∀ q, u.found q ≠ some (u.fs.slots i).inodeNum) ∧
        ∀ j, (u.fs.slots j).inodeNum = (u.fs.slots i).inodeNum → 0 < (u.fs.slots j).ref → j = i) ∧
    (∀ n, a.number = some n → ¬u.Dying n) ∧
    ∀ n, Names sb u n a → ¬u.Dying n

/-- When an inode is deleted next, no process knows its number, and its slot is the only one with
that number, with the reference that is being put as the only one. -/
def Unreferenced (u : InodeUse) : Prop :=
  ∀ p i rest, u.todo p = .delete i :: rest →
    (∀ q, u.found q ≠ some (u.fs.slots i).inodeNum) ∧
    ∀ q, ∀ j ∈ u.refs q, (u.fs.slots j).inodeNum = (u.fs.slots i).inodeNum →
      q = p ∧ j = i ∧ (u.refs p).count i = 1

/-- From the decision to delete an inode on, its slot stands alone. -/
structure Alone (u : InodeUse) (q : Fin nProc) (i : ℕ) : Prop where
  steps : u.todo q = deleting i ∨ u.todo q = (deleting i).tail ∨ u.todo q = (deleting i).tail.tail
  unknown : ∀ r, u.found r ≠ some (u.fs.slots i).inodeNum
  single : ∀ j, (u.fs.slots j).inodeNum = (u.fs.slots i).inodeNum → 0 < (u.fs.slots j).ref → j = i
  ref : (u.fs.slots i).ref = 1

/-- A slot with one reference is referred to by one process. -/
theorem Sound.holder (sound : u.Sound) (one : (u.fs.slots i).ref = 1) (left : i ∈ u.refs p)
    (right : i ∈ u.refs q) : q = p := by
  by_contra other
  have total : ∑ r ∈ {p, q}, (u.refs r).count i ≤ ∑ r, (u.refs r).count i :=
    Finset.sum_le_sum_of_subset (Finset.subset_univ _)
  rw [Finset.sum_pair (Ne.symm other), ← sound.refs, one] at total
  have first := List.count_pos_iff.mpr left
  have second := List.count_pos_iff.mpr right
  omega

private theorem Alone.dying (alone : Alone u q i) : .delete i ∈ u.todo q := by
  obtain steps | steps | steps := alone.steps <;> rw [steps] <;> simp [deleting]

private theorem unreferenced (sound : u.Sound) (alone : ∀ q i, .delete i ∈ u.todo q → Alone u q i) :
    u.Unreferenced := by
  intro p i rest todo
  have dying : .delete i ∈ u.todo p := todo ▸ List.mem_cons_self
  have mine := sound.busy p _ dying i rfl
  have apart := alone p i dying
  refine ⟨apart.unknown, fun q j held same => ?_⟩
  have some := lt_of_lt_of_le (List.count_pos_iff.mpr held) (sound.counted q j)
  obtain rfl := apart.single j same some
  refine ⟨sound.holder apart.ref mine held, rfl, ?_⟩
  have counted := sound.counted p j
  have positive := List.count_pos_iff.mpr mine
  rw [apart.ref] at counted
  omega

/-- The step of a process leaves a slot alone that another process is about to free. -/
theorem Alone.change (alone : Alone u q i) (sound : u.Sound) {rest : List InodeAct} {a : InodeAct}
    (outcome : Outcome u u' p rest a) (asks : a.number ≠ some (u.fs.slots i).inodeNum)
    (kept : a ≠ .dup i ∧ a ≠ .put i ∧ a ≠ .drop i) :
    (u'.fs.slots i).inodeNum = (u.fs.slots i).inodeNum ∧ (u'.fs.slots i).ref = 1 ∧
      ∀ j, (u'.fs.slots j).inodeNum = (u.fs.slots i).inodeNum → 0 < (u'.fs.slots j).ref → j = i := by
  refine outcome.change.alone alone.ref alone.single (fun j held => ?_) asks kept
  exact lt_of_lt_of_le (List.count_pos_iff.mpr held) (sound.counted p j)

private theorem goOn_some {α : Type} {x : FsM α} {f : α → InodeUse → InodeUse} {todo : α → List InodeAct}
    (result : u.goOn p x f todo = some u') : ∃ a fs, x u.fs = .ok a fs ∧
      u' = f a { u with fs := fs, todo := Function.update u.todo p (todo a) } := by
  obtain ⟨a, fs, ran, rfl⟩ := goOn_spec result (Q := fun a fs => x u.fs = .ok a fs) fun _ _ ran => ran
  exact ⟨a, fs, ran, rfl⟩

/-- Numbers become known where a directory entry names them. -/
theorem act_found {rest : List InodeAct} {a : InodeAct} (result : u.act sb p rest a = some u')
    {n : U32} (known : u'.found q = some n) : u.found q = some n ∨ Names sb u n a := by
  have looked {m : U32} (known : Function.update u.found p (if m = minusOne then none else some m) q =
      some n) : u.found q = some n ∨ m = n := by
    rcases eq_or_ne q p with rfl | other
    · rw [Function.update_self] at known
      split at known
      · cases known
      · exact Or.inr (Option.some.inj known)
    · rw [Function.update_of_ne other] at known
      exact Or.inl known
  unfold act at result
  cases a with
  | get m =>
    obtain ⟨i, fs, -, rfl⟩ := goOn_some result
    refine Or.inl ?_
    rcases eq_or_ne q p with rfl | other
    · have known : (if u.found q = some m then none else u.found q) = some n := by
        simpa [find, gain] using known
      split at known
      · cases known
      · exact known
    · simpa [find, gain, other] using known
  | search i name =>
    obtain ⟨m, fs, ran, rfl⟩ := goOn_some result
    refine (looked known).imp_right ?_
    rintro rfl
    exact ⟨fs, ran⟩
  | remove i name =>
    obtain ⟨m, fs, ran, rfl⟩ := goOn_some result
    refine (looked known).imp_right ?_
    rintro rfl
    exact ⟨fs, ran⟩
  | unlock i =>
    dsimp only at result
    split at result
    · obtain ⟨-, fs, -, rfl⟩ := goOn_some result
      exact Or.inl known
    · cases result
  | put i =>
    obtain ⟨last, fs, -, rfl⟩ := goOn_some result
    refine Or.inl ?_
    cases last with
    | true => exact known
    | false => exact known
  | _ =>
    obtain ⟨r, fs, -, rfl⟩ := goOn_some result
    exact Or.inl known

/-- A step leaves the rest of its call, or starts the deletion of an inode. -/
theorem act_todo {rest : List InodeAct} {a : InodeAct} (result : u.act sb p rest a = some u') :
    u'.todo p = rest ∨ (∀ i, .delete i ∉ u'.todo p) ∨
      ∃ i, a = .put i ∧ (u.fs.slots i).ref = 1 ∧ (u.fs.slots i).validInfo = true ∧
        (u.fs.inodeCache i).diskInfo.nlink = 0 ∧ u'.todo p = deleting i ∧ u'.fs = u.fs ∧
        u'.found = u.found := by
  unfold act at result
  cases a with
  | put i =>
    obtain ⟨last, fs, ran, rfl⟩ := goOn_some result
    cases last with
    | true =>
      have spec : Returns (Fs.putSection i) u.fs fun last s' => last = true →
          (u.fs.slots i).ref = 1 ∧ (u.fs.slots i).validInfo = true ∧
            (u.fs.inodeCache i).diskInfo.nlink = 0 ∧ s' = u.fs := by
        rw [Fs.putSection, Returns.bind_iff, Returns.get_iff]
        refine .ite (fun last => ?_) fun _ => ?_
        · rw [Returns.pure_iff]
          exact fun _ => ⟨last.1, last.2.1, last.2.2, rfl⟩
        · simp only [Returns.bind_iff, Fs.updateInode, Returns.modify_iff, Returns.pure_iff]
          simp
      obtain ⟨ref, valid, nlink, rfl⟩ := spec _ _ ran rfl
      exact Or.inr (Or.inr ⟨i, rfl, ref, valid, nlink, Function.update_self .., rfl, rfl⟩)
    | false => exact Or.inr (Or.inl fun j => by simp [lose])
  | drop i =>
    obtain ⟨-, fs, -, rfl⟩ := goOn_some result
    exact Or.inr (Or.inl fun j => by simp [lose])
  | alloc type major minor =>
    obtain ⟨n, fs, -, rfl⟩ := goOn_some result
    refine Or.inr (Or.inl fun j => ?_)
    dsimp only
    rw [Function.update_self]
    split <;> simp
  | create n type major minor =>
    obtain ⟨i, fs, -, rfl⟩ := goOn_some result
    exact Or.inr (Or.inl fun j => by simp [gain])
  | unlock i =>
    dsimp only at result
    split at result
    · obtain ⟨-, fs, -, rfl⟩ := goOn_some result
      exact Or.inl (Function.update_self ..)
    · cases result
  | _ =>
    obtain ⟨-, fs, -, rfl⟩ := goOn_some result
    exact Or.inl (Function.update_self ..)

/-- What the proof carries along: an inode that is going to be deleted stands alone. -/
structure Secured (u : InodeUse) : Prop where
  sound : u.Sound
  alone : ∀ q i, .delete i ∈ u.todo q → Alone u q i

/-- A step that does not start a deletion leaves those under way alone. -/
theorem Alone.act (alone : Alone u q i) (sound : u.Sound) {rest : List InodeAct} {a : InodeAct}
    (todo : u.todo p = a :: rest) (result : u.act sb p rest a = some u') (goes : p = q → u'.todo p = rest)
    (dying : .delete i ∈ u'.todo q) (asks : ∀ n, a.number = some n → ¬u.Dying n)
    (names : ∀ n, Names sb u n a → ¬u.Dying n) : Alone u' q i := by
  have outcome := sound.outcome todo result
  have mine := sound.busy q _ alone.dying i rfl
  have lost : u.Dying (u.fs.slots i).inodeNum := ⟨q, i, alone.dying, rfl⟩
  -- the process itself only goes on; the others do not refer to the slot
  have kept : a ≠ .dup i ∧ a ≠ .put i ∧ a ≠ .drop i := by
    have busy (uses : a.slot = some i) : p = q :=
      sound.holder alone.ref mine (sound.busy p a (todo ▸ List.mem_cons_self) i uses)
    have own (same : p = q) : a = .lock i ∨ a = .load i ∨ a = .delete i := by
      obtain steps | steps | steps := alone.steps <;> rw [← same, todo] at steps
      · exact Or.inl (List.cons.inj steps).1
      · exact Or.inr (Or.inl (List.cons.inj steps).1)
      · exact Or.inr (Or.inr (List.cons.inj steps).1)
    refine ⟨?_, ?_, ?_⟩
    · rintro rfl
      simpa using own (busy rfl)
    · rintro rfl
      simpa using own (busy rfl)
    · rintro rfl
      simpa using own (busy rfl)
  obtain ⟨num, ref, single⟩ := alone.change sound outcome (fun same => asks _ same lost) kept
  refine ⟨?_, fun r known => ?_, fun j same some => ?_, ref⟩
  · rcases eq_or_ne q p with rfl | other
    · rw [goes rfl] at dying ⊢
      obtain steps | steps | steps := alone.steps <;> rw [todo] at steps <;>
        obtain ⟨-, rfl⟩ := List.cons.inj steps
      · exact Or.inr (Or.inl rfl)
      · exact Or.inr (Or.inr rfl)
      · simp at dying
    · rw [outcome.todo q other]
      exact alone.steps
  · rw [num] at known
    obtain before | found := act_found result known
    · exact alone.unknown r before
    · exact names _ found lost
  · rw [num] at same
    exact single j same some

private theorem Secured.act (secured : u.Secured) {rest : List InodeAct} {a : InodeAct}
    (todo : u.todo p = a :: rest) (result : u.act sb p rest a = some u')
    (closed : Closed sb u (p, none)) : u'.Secured := by
  have sound := secured.sound
  obtain ⟨decides, asks, names⟩ := closed rfl a (by rw [todo]; rfl)
  have outcome := sound.outcome todo result
  refine ⟨sound.act todo outcome, fun q i dying => ?_⟩
  rcases eq_or_ne q p with rfl | other
  · obtain goes | none | ⟨j, rfl, ref, valid, nlink, starts, files, found⟩ := act_todo result
    · have before : .delete i ∈ u.todo q := todo ▸ List.mem_cons_of_mem _ (goes ▸ dying)
      exact (secured.alone q i before).act sound todo result (fun _ => goes) dying asks names
    · exact absurd dying (none i)
    · obtain rfl : i = j := by simpa [starts, deleting] using dying
      obtain ⟨unknown, single⟩ := decides i rfl ref valid nlink
      exact ⟨Or.inl starts, by rwa [files, found], by rwa [files], by rwa [files]⟩
  · have before : .delete i ∈ u.todo q := outcome.todo q other ▸ dying
    exact (secured.alone q i before).act sound todo result (fun same => absurd same.symm other) dying
      asks names

private theorem Secured.start (secured : u.Secured) {call : InodeCall} (result : u.start p call = some u') :
    u'.Secured := by
  obtain ⟨idle, allowed, files, refs, todo, found⟩ := start_spec result
  refine ⟨secured.sound.start result, fun q i dying => ?_⟩
  have fewer {r : Fin nProc} {n : U32} (known : u'.found r = some n) : u.found r = some n := by
    obtain same | gone := found
    · rwa [same] at known
    · rw [gone] at known
      rcases eq_or_ne r p with rfl | other
      · rw [Function.update_self] at known
        cases known
      · rwa [Function.update_of_ne other] at known
  rcases eq_or_ne q p with rfl | other
  · rw [todo, Function.update_self] at dying
    cases call <;> simp [InodeCall.steps] at dying
  · have same : u'.todo q = u.todo q := by
      rw [todo, Function.update_of_ne other]
    have alone := secured.alone q i (same ▸ dying)
    refine ⟨same ▸ alone.steps, fun r known => ?_, ?_, ?_⟩
    · rw [files] at known
      exact alone.unknown r (fewer known)
    · rw [files]
      exact alone.single
    · rw [files]
      exact alone.ref

/-- In a run whose steps leave both windows closed, an inode is deleted only when no process refers
to it, but for the reference that is put, and none knows its number from a directory. -/
theorem deleted_unreferenced (sb : SuperBlock) (d : Disk)
    (inputs : List (Fin nProc × Option InodeCall)) (t : InodeUse)
    (run : Run (Guarded (Closed sb) (Step sb)) (init d) inputs t) : t.Unreferenced := by
  have secured := run.invariant (P := Secured) ?_
    ⟨init_sound d, fun q i dying => absurd dying List.not_mem_nil⟩
  · exact unreferenced secured.sound secured.alone
  · rintro u ⟨p, call⟩ u' ⟨closed, step⟩ secured
    obtain ⟨call, -, result⟩ | ⟨a, rest, goes, todo, result⟩ := step_cases step
    · exact secured.start result
    · obtain rfl : call = none := goes
      exact secured.act todo result closed

/-- A process calls functions one after another, each with its number of steps. -/
def calls (p : Fin nProc) (list : List (InodeCall × ℕ)) : List (Fin nProc × Option InodeCall) :=
  list.flatMap fun call => (p, some call.1) :: List.replicate call.2 (p, none)

/-- A test for `Closed` that evaluates. -/
def closedTest (u : InodeUse) (input : Fin nProc × Option InodeCall) : Bool :=
  input.2.isSome ||
    match u.todo input.1 with
    | .put i :: _ => decide ((∀ q, u.found q ≠ some (u.fs.slots i).inodeNum) ∧
        ∀ j < nInode, (u.fs.slots j).inodeNum = (u.fs.slots i).inodeNum →
          0 < (u.fs.slots j).ref → j = i)
    | [.get _] => decide (∀ q, q ≠ input.1 → (u.todo q).isEmpty)
    | a :: _ => a.number.isNone && !(a matches .search _ _ | .remove _ _)
    | [] => true

private theorem closed_of_test {input : Fin nProc × Option InodeCall} (sound : u.Sound)
    (test : closedTest u input = true) : Closed sb u input := by
  rintro call a head
  obtain ⟨p, _⟩ := input
  obtain rfl := call
  dsimp only at head
  unfold closedTest at test
  rw [Option.isSome_none, Bool.false_or] at test
  dsimp only at test
  split at test
  · rename_i i rest todo
    rw [todo, List.head?_cons, Option.mem_some_iff] at head
    subst head
    refine ⟨fun j same _ _ _ => ?_, nofun, nofun⟩
    obtain rfl := InodeAct.put.inj same
    obtain ⟨unknown, single⟩ := of_decide_eq_true test
    refine ⟨unknown, fun j same some => ?_⟩
    rcases lt_or_ge j nInode with near | far
    · exact single j near same some
    · rw [(sound.outside j far).1] at some
      exact absurd some (Nat.lt_irrefl 0)
  · rename_i n todo
    rw [todo, List.head?_cons, Option.mem_some_iff] at head
    subst head
    refine ⟨nofun, fun _ _ dying => ?_, nofun⟩
    obtain ⟨q, i, within, -⟩ := dying
    rcases eq_or_ne q p with rfl | other
    · rw [todo] at within
      exact absurd (List.mem_singleton.mp within) nofun
    · have idle := of_decide_eq_true test q other
      rw [List.isEmpty_iff.mp idle] at within
      cases within
  · rename_i b rest _ _ todo
    rw [todo, List.head?_cons, Option.mem_some_iff] at head
    subst head
    rw [Bool.and_eq_true] at test
    cases b with
    | get | create | search | remove => simp [InodeAct.number] at test
    | put i => exact absurd todo (by simp_all)
    | _ => exact ⟨nofun, nofun, nofun⟩
  · rename_i todo
    rw [todo] at head
    cases head

/-- A process deletes an inode without links. -/
theorem deleted_unreferenced_put : ∃ t, Run (Guarded (Closed mkfsSuperBlock) (Step mkfsSuperBlock))
      (init fun _ _ => 0) (calls 0 [(.get 5, 1), (.lock 0, 2), (.unlock 0, 1), (.put 0, 3)]) t ∧
    (t.todo 0).length = 4 ∧ t.Unreferenced := by
  obtain ⟨t, run, decided⟩ := Run.exists_of_test
    (fun u input => if closedTest u input then u.step mkfsSuperBlock input else none)
    (init fun _ _ => 0) (calls 0 [(.get 5, 1), (.lock 0, 2), (.unlock 0, 1), (.put 0, 3)])
    (fun t => (t.todo 0).length == 4) (by decide +kernel)
  have guarded : Run (Guarded (Closed mkfsSuperBlock) (Step mkfsSuperBlock)) (init fun _ _ => 0)
      (calls 0 [(.get 5, 1), (.lock 0, 2), (.unlock 0, 1), (.put 0, 3)]) t :=
    run.refine (P := Sound) (init_sound _) fun u input u' sound result => by
      split at result
      · rename_i test
        exact ⟨⟨closed_of_test sound test, result⟩, sound.step result⟩
      · cases result
  exact ⟨t, guarded, by simpa using decided, deleted_unreferenced mkfsSuperBlock _ _ t guarded⟩

/-- One process has found inode 6 under `/abcd.txt` and unlocked the root; another one unlinks the file
and is about to delete the inode. -/
theorem deleted_found : ¬∀ d inputs t, Run (Step mkfsSuperBlock) (init d) inputs t → t.Unreferenced := by
  intro always
  obtain ⟨t, run, test⟩ := Run.exists_of_test (InodeUse.step mkfsSuperBlock) (init Mkfs.disk)
    (calls 0 [(.get 0, 1), (.lock 0, 2),
        (.search 0 (nameOf [0x61, 0x62, 0x63, 0x64, 0x2E, 0x74, 0x78, 0x74]), 1), (.unlock 0, 1)] ++
      calls 1 [(.get 0, 1), (.lock 0, 2),
        (.remove 0 (nameOf [0x61, 0x62, 0x63, 0x64, 0x2E, 0x74, 0x78, 0x74]), 1), (.get 6, 1),
        (.lock 1, 2),
        (.fill 1 ⟨inodeTypeData, 1, 1, 0, 13000, Mkfs.indexOf [1032, 1033, 1034, 1035]⟩, 1),
        (.unlock 1, 1), (.put 1, 3)])
    (fun t => (match t.todo 1 with
      | .delete i :: _ => (t.fs.slots i).inodeNum == 6
      | _ => false) && t.found 0 == some 6) (by decide +kernel)
  rw [Bool.and_eq_true] at test
  obtain ⟨next, known⟩ := test
  split at next
  · rename_i i rest todo
    have num : (t.fs.slots i).inodeNum = 6 := by simpa using next
    refine (always _ _ t run 1 i rest todo).1 0 ?_
    rw [num]
    simpa using known
  · cases next

end InodeUse

end LabKernel
