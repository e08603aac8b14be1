import LabKernel.Dev.Console

/-! # The subscripts of the console

The indices of the console count characters and are reduced with `%` where they are used. They are
`int`s, so the count of 2^31 characters is a negative index, and of a negative index the remainder is not
positive. Up to that count every subscript lies in the buffer, and each character goes to the place
behind the one before it; the character after it goes to a place before the buffer.
-/

namespace LabKernel

namespace Console

/-- The indices that the loop of `Ctrl('U')` takes to look at `buf` -/
def eraseIndices : (fuel : ℕ) → Cons → List I32
  | 0, _ => []
  | fuel + 1, s =>
    if s.editIdx ≠ s.writIdx then
      (s.editIdx - 1) :: if s.buf (subscript (s.editIdx - 1)) ≠ newlineByte then
        eraseIndices fuel { s with editIdx := s.editIdx - 1 } else []
    else []

/-- The indices that an event takes to access `buf`, in their order -/
def indices (s : System) : Event → List I32
  | .edit c =>
    if c = ctrlU then eraseIndices (s.cons.editIdx - s.cons.writIdx).toNat s.cons
    else if Accepts c s.cons then [s.cons.editIdx]
    else []
  | .read _ _ => []
  | .next p =>
    match s.readers p with
    | none => []
    | some _ => if s.cons.readIdx = s.cons.writIdx then [] else [s.cons.readIdx]

/-- The subscript lies in the buffer, behind that of the character before; behind the last place of the
ring comes the first one. -/
structure InRing (idx : I32) : Prop where
  low : 0 ≤ subscript idx
  high : subscript idx < consoleInputBuf
  next : subscript idx = (subscript (idx - 1) + 1) % consoleInputBuf

/-- All subscripts that an event computes are in order. -/
def StaysInRing (s : System) (e : Event) : Prop := ∀ idx ∈ indices s e, InRing idx

def intMin : I32 := 0x80000000

/-- A character is stored only at an index that is not negative, or the first that is. -/
def HasIndex (s : System) (e : Event) : Prop :=
  ∀ c, e = .edit c → Accepts c s.cons → 0 ≤ s.cons.editIdx.toInt ∨ s.cons.editIdx = intMin

def Step (s : System) (e : Event) (s' : System) : Prop := step s e = some s'

/-- The indices count the bytes taken, committed and typed, less those erased again. -/
structure Counts (s : System) (taken committed typed : ℕ) : Prop where
  readIdx : s.cons.readIdx = BitVec.ofNat 32 taken
  writIdx : s.cons.writIdx = BitVec.ofNat 32 committed
  editIdx : s.cons.editIdx = BitVec.ofNat 32 typed
  taken_le : taken ≤ committed
  committed_le : committed ≤ typed
  room : typed ≤ taken + consoleInputBuf
  limit : typed ≤ 2 ^ 31 + 1
  accepted : typed ≤ s.accepted

variable {s s' : System} {e : Event} {n taken committed typed : ℕ}

/-! ## One index -/

/-- Up to the first negative index, the ring is in order. -/
theorem inRing_ofNat (small : n ≤ 2 ^ 31) : InRing (BitVec.ofNat 32 n) := by
  rcases Nat.lt_or_eq_of_le small with positive | rfl
  · have place := subscript_ofNat positive
    cases n with
    | zero => exact ⟨by decide, by decide, by decide⟩
    | succ m =>
      refine ⟨by rw [place]; omega, ?_, ?_⟩
      · rw [place]
        exact_mod_cast Nat.mod_lt _ (by decide)
      · have before : BitVec.ofNat 32 (m + 1) - 1 = BitVec.ofNat 32 m := ofNat_pred (Nat.succ_pos m)
        rw [before, place, subscript_ofNat (by omega)]
        push_cast
        rw [Int.emod_add_emod]
  · exact ⟨by decide, by decide, by decide⟩

/-- The index behind it leads to a place before the buffer. -/
theorem subscript_outside : subscript (BitVec.ofNat 32 (2 ^ 31 + 1)) = -127 := by decide

private theorem hasIndex_iff (counts : Counts s taken committed typed) :
    0 ≤ s.cons.editIdx.toInt ∨ s.cons.editIdx = intMin ↔ typed ≤ 2 ^ 31 := by
  have limit := counts.limit
  rw [counts.editIdx]
  rcases Nat.lt_or_ge typed (2 ^ 31) with positive | negative
  · exact iff_of_true (.inl (by rw [toInt_ofNat positive]; omega)) (Nat.le_of_lt positive)
  · obtain rfl | rfl : typed = 2 ^ 31 ∨ typed = 2 ^ 31 + 1 := by omega
    · exact iff_of_true (.inr rfl) (Nat.le_refl _)
    · exact iff_of_false (by decide) (by decide)

namespace Counts

private theorem init (buf : ℤ → U8) : Counts (.init buf) 0 0 0 :=
  ⟨rfl, rfl, rfl, Nat.le_refl 0, Nat.le_refl 0, Nat.zero_le _, Nat.zero_le _, Nat.le_refl 0⟩

private theorem same_iff (counts : Counts s taken committed typed) :
    s.cons.editIdx = s.cons.writIdx ↔ typed = committed := by
  have limit := counts.limit
  have order := counts.committed_le
  rw [counts.editIdx, counts.writIdx, ofNat_inj (by omega) (by omega)]

private theorem rounds (counts : Counts s taken committed typed) :
    (s.cons.editIdx - s.cons.writIdx).toNat = typed - committed := by
  have limit := counts.limit
  rw [counts.editIdx, counts.writIdx, ofNat_sub counts.committed_le, BitVec.toNat_ofNat]
  exact Nat.mod_eq_of_lt (by omega)

private theorem room_iff (counts : Counts s taken committed typed) :
    (s.cons.editIdx - s.cons.readIdx).slt (BitVec.ofNat 32 consoleInputBuf) = true ↔
      typed < taken + consoleInputBuf := by
  have room := counts.room
  have order := counts.taken_le.trans counts.committed_le
  simp only [consoleInputBuf] at room
  rw [counts.editIdx, counts.readIdx, ofNat_sub order, ofNat_slt (by omega)]
  omega

/-- Characters behind the committed ones are erased. -/
theorem erase (counts : Counts s taken committed typed) {kept accepted : ℕ} (low : committed ≤ kept)
    (high : kept ≤ typed) (more : s.accepted ≤ accepted) :
    Counts { s with cons := { s.cons with editIdx := BitVec.ofNat 32 kept }, accepted := accepted }
      taken committed kept where
  readIdx := counts.readIdx
  writIdx := counts.writIdx
  editIdx := rfl
  taken_le := counts.taken_le
  committed_le := low
  room := high.trans counts.room
  limit := high.trans counts.limit
  accepted := high.trans (counts.accepted.trans more)

/-- A character is stored, and perhaps the line is committed. -/
theorem store (counts : Counts s taken committed typed) (c : I32) (space : typed < taken + consoleInputBuf)
    (small : typed ≤ 2 ^ 31) : ∃ committed',
      Counts { s with cons := storeChar c s.cons, accepted := s.accepted + 1 } taken committed' (typed + 1) := by
  have next : s.cons.editIdx + 1 = BitVec.ofNat 32 (typed + 1) := by rw [counts.editIdx, ofNat_succ]
  have bytes := counts.accepted
  have order := counts.taken_le
  have behind := counts.committed_le
  rw [storeChar]
  generalize (if c = carriageReturn then newline else c) = c
  dsimp only
  split
  · exact ⟨typed + 1, counts.readIdx, next, next, by omega, Nat.le_refl _, space, by omega, by dsimp only; omega⟩
  · exact ⟨committed, counts.readIdx, counts.writIdx, next, order, by omega, space, by omega, by dsimp only; omega⟩

/-- A reader takes a byte. -/
theorem take (counts : Counts s taken committed typed) (more : taken < committed) (readers : ℕ → Option Reader)
    (delivered : List U8) :
    Counts ⟨{ s.cons with readIdx := s.cons.readIdx + 1 }, readers, delivered, s.accepted⟩ (taken + 1) committed
      typed where
  readIdx := by rw [counts.readIdx, ofNat_succ]
  writIdx := counts.writIdx
  editIdx := counts.editIdx
  taken_le := more
  committed_le := counts.committed_le
  room := counts.room.trans (Nat.add_le_add_right (Nat.le_succ taken) _)
  limit := counts.limit
  accepted := counts.accepted

end Counts

/-- The loop of `Ctrl('U')` stops at a count between those of the committed and of all characters, and it
looks only at characters behind the committed ones. -/
theorem eraseLine_counts {committed : ℕ} (k : ℕ) (limit : committed + k ≤ 2 ^ 31 + 1) (s : Cons)
    (writIdx : s.writIdx = BitVec.ofNat 32 committed) (editIdx : s.editIdx = BitVec.ofNat 32 (committed + k)) :
    (∃ kept, committed ≤ kept ∧ kept ≤ committed + k ∧
      eraseLine k s = { s with editIdx := BitVec.ofNat 32 kept }) ∧
    ∀ idx ∈ eraseIndices k s, InRing idx := by
  induction k generalizing s with
  | zero =>
    have same : committed + 0 = committed := Nat.add_zero committed
    exact ⟨⟨committed, Nat.le_refl _, Nat.le_refl _, by rw [eraseLine, ← same, ← editIdx]⟩, List.forall_mem_nil _⟩
  | succ k ih =>
    have back : s.editIdx - 1 = BitVec.ofNat 32 (committed + k) := by
      rw [editIdx]
      exact ofNat_pred (Nat.succ_pos (committed + k))
    have more : s.editIdx ≠ s.writIdx := by
      rw [editIdx, writIdx, ne_eq, ofNat_inj (by omega) (by omega)]
      omega
    have ring : InRing (BitVec.ofNat 32 (committed + k)) := inRing_ofNat (by omega)
    rw [eraseLine, eraseIndices, if_pos more, back]
    by_cases newline : s.buf (subscript (BitVec.ofNat 32 (committed + k))) = newlineByte
    · rw [if_neg fun both => both.2 newline, if_neg (not_not.mpr newline)]
      refine ⟨⟨committed + (k + 1), by omega, Nat.le_refl _, ?_⟩, List.forall_mem_singleton.mpr ring⟩
      rw [← editIdx]
    · rw [if_pos ⟨more, newline⟩, if_pos newline]
      obtain ⟨⟨kept, low, high, result⟩, inside⟩ := ih (by omega)
        { s with editIdx := BitVec.ofNat 32 (committed + k) } writIdx rfl
      exact ⟨⟨kept, low, by omega, result⟩, List.forall_mem_cons.mpr ⟨ring, inside⟩⟩

/-! ## Steps -/

/-- A step that has an index for the character it stores keeps the counts. -/
theorem Counts.step (counts : Counts s taken committed typed) (index : HasIndex s e) (result : Step s e s') :
    ∃ taken committed typed, Counts s' taken committed typed := by
  have order := counts.committed_le
  have limit := counts.limit
  cases e with
  | edit c =>
    obtain rfl := Option.some.inj result
    have more : s.accepted ≤ s.accepted + if Accepts c s.cons then 1 else 0 := Nat.le_add_right ..
    rw [consEdit]
    by_cases kill : c = ctrlU
    · obtain ⟨⟨kept, low, high, erased⟩, -⟩ := eraseLine_counts (typed - committed) (by omega) s.cons counts.writIdx
        (by rw [counts.editIdx, Nat.add_sub_cancel' order])
      rw [if_pos kill, counts.rounds, erased]
      exact ⟨taken, committed, kept, counts.erase low (by omega) more⟩
    rw [if_neg kill]
    by_cases back : c = ctrlH ∨ c = del
    · rw [if_pos back]
      by_cases none : s.cons.editIdx = s.cons.writIdx
      · rw [if_neg (not_not.mpr none)]
        have same := counts.erase order (Nat.le_refl _) more
        rw [← counts.editIdx] at same
        exact ⟨taken, committed, typed, same⟩
      · have some : committed < typed := Nat.lt_of_le_of_ne order fun same => none (counts.same_iff.mpr same.symm)
        rw [if_pos none, counts.editIdx, ofNat_pred (by omega)]
        exact ⟨taken, committed, typed - 1, counts.erase (by omega) (Nat.sub_le ..) more⟩
    rw [if_neg back]
    obtain ⟨notH, notDel⟩ := not_or.mp back
    by_cases room : c ≠ 0 ∧ (s.cons.editIdx - s.cons.readIdx).slt (BitVec.ofNat 32 consoleInputBuf) = true
    · have accepts : Accepts c s.cons := ⟨kill, notH, notDel, room⟩
      rw [if_pos room, if_pos accepts]
      obtain ⟨committed', stored⟩ := counts.store c (counts.room_iff.mp room.2)
        ((hasIndex_iff counts).mp (index c rfl accepts))
      exact ⟨taken, committed', typed + 1, stored⟩
    · rw [if_neg room]
      have same := counts.erase order (Nat.le_refl _) more
      rw [← counts.editIdx] at same
      exact ⟨taken, committed, typed, same⟩
  | read p len =>
    simp only [Step, Console.step] at result
    split at result
    · cases result
    · obtain rfl := Option.some.inj result
      exact ⟨taken, committed, typed, counts.readIdx, counts.writIdx, counts.editIdx, counts.taken_le, order,
        counts.room, limit, counts.accepted⟩
  | next p =>
    simp only [Step, Console.step, takeByte] at result
    split at result
    · cases result
    · by_cases none : s.cons.readIdx = s.cons.writIdx
      · rw [if_pos none] at result
        cases result
      · rw [if_neg none] at result
        obtain rfl := Option.some.inj result
        have some : taken < committed := by
          refine Nat.lt_of_le_of_ne counts.taken_le fun same => none ?_
          rw [counts.readIdx, counts.writIdx, same]
        exact ⟨taken + 1, committed, typed, counts.take some _ _⟩

/-- While the indices count, a step stays in the ring exactly if it has an index for what it stores. -/
theorem staysInRing_iff (counts : Counts s taken committed typed) : StaysInRing s e ↔ HasIndex s e := by
  have order := counts.committed_le
  have limit := counts.limit
  cases e with
  | edit c =>
    rw [StaysInRing, indices]
    by_cases kill : c = ctrlU
    · rw [if_pos kill, counts.rounds]
      refine iff_of_true ?_ fun _ same accepts => absurd kill (Event.edit.inj same ▸ accepts.1)
      exact (eraseLine_counts (typed - committed) (by omega) s.cons counts.writIdx
        (by rw [counts.editIdx, Nat.add_sub_cancel' order])).2
    rw [if_neg kill]
    by_cases accepts : Accepts c s.cons
    · rw [if_pos accepts, List.forall_mem_singleton]
      constructor
      · intro ring _ _ _
        refine (hasIndex_iff counts).mpr ?_
        by_contra last
        obtain rfl : typed = 2 ^ 31 + 1 := by omega
        have low := ring.low
        rw [counts.editIdx, subscript_outside] at low
        omega
      · intro index
        rw [counts.editIdx]
        exact inRing_ofNat ((hasIndex_iff counts).mp (index c rfl accepts))
    · rw [if_neg accepts]
      exact iff_of_true (List.forall_mem_nil _) fun _ same accepts' => absurd (Event.edit.inj same ▸ accepts') accepts
  | read p len => exact iff_of_true (List.forall_mem_nil _) nofun
  | next p =>
    refine iff_of_true ?_ nofun
    rw [StaysInRing, indices]
    split
    · exact List.forall_mem_nil _
    · split
      · exact List.forall_mem_nil _
      · rename_i some
        rw [List.forall_mem_singleton, counts.readIdx]
        have before := counts.taken_le
        have apart : taken ≠ committed := fun same => some (by rw [counts.readIdx, counts.writIdx, same])
        exact inRing_ofNat (by omega)

/-! ## Runs -/

/-- Runs from a state that counts, with two conditions that mean the same while it does -/
theorem run_ring_iff {events : List Event} {t : System} (counts : Counts s taken committed typed) :
    Run (Guarded StaysInRing Step) s events t ↔ Run (Guarded HasIndex Step) s events t := by
  constructor
  · intro run
    refine run.refine (P := fun s => ∃ taken committed typed, Counts s taken committed typed)
      ⟨_, _, _, counts⟩ ?_
    rintro s e s' ⟨_, _, _, counts⟩ ⟨inside, step⟩
    have index := (staysInRing_iff counts).mp inside
    exact ⟨⟨index, step⟩, counts.step index step⟩
  · intro run
    refine run.refine (P := fun s => ∃ taken committed typed, Counts s taken committed typed)
      ⟨_, _, _, counts⟩ ?_
    rintro s e s' ⟨_, _, _, counts⟩ ⟨index, step⟩
    exact ⟨⟨(staysInRing_iff counts).mpr index, step⟩, counts.step index step⟩

/-- A run of the console computes only subscripts of the buffer, and consecutive places for consecutive
characters, exactly if each character it stores has an index. -/
theorem console_ring_iff {buf : ℤ → U8} {events : List Event} {t : System} :
    Run (Guarded StaysInRing Step) (.init buf) events t ↔ Run (Guarded HasIndex Step) (.init buf) events t :=
  run_ring_iff (.init buf)

/-- As long as no more than `2^31 + 1` characters are stored, each of them has an index. -/
theorem run_hasIndex {events : List Event} {t : System} (run : Run Step s events t)
    (few : t.accepted ≤ 2 ^ 31 + 1) (counts : Counts s taken committed typed) :
    Run (Guarded HasIndex Step) s events t := by
  induction run generalizing taken committed typed with
  | nil s => exact .nil s
  | @cons s e s' events t first rest ih =>
    have later : s'.accepted ≤ t.accepted :=
      rest.invariant (P := fun u => s'.accepted ≤ u.accepted)
        (fun _ _ _ step before => before.trans (step_accepted step)) (Nat.le_refl _)
    have index : HasIndex s e := by
      rintro c rfl accepts
      have bytes := counts.accepted
      have stored := Option.some.inj first
      have count : s'.accepted = s.accepted + 1 := by rw [← stored, if_pos accepts]
      exact (hasIndex_iff counts).mpr (by omega)
    obtain ⟨_, _, _, after⟩ := counts.step index first
    exact .cons ⟨index, first⟩ (ih few after)

/-! ## Past the last index -/

/-- Nothing is in the ring, and no call of process 0 is under way. -/
structure Empty (s : System) (n : ℕ) : Prop where
  readIdx : s.cons.readIdx = BitVec.ofNat 32 n
  writIdx : s.cons.writIdx = BitVec.ofNat 32 n
  editIdx : s.cons.editIdx = BitVec.ofNat 32 n
  idle : s.readers 0 = none

private theorem Empty.accepts (empty : Empty s n) {c : I32} (plain : c ≠ ctrlU ∧ c ≠ ctrlH ∧ c ≠ del ∧ c ≠ 0) :
    Accepts c s.cons := by
  refine ⟨plain.1, plain.2.1, plain.2.2.1, plain.2.2.2, ?_⟩
  rw [empty.editIdx, empty.readIdx, BitVec.sub_self]
  decide

/-- An empty line is typed and read. -/
theorem Empty.line (empty : Empty s n) :
    ∃ s', Run Step s [.read 0 1, .edit newline, .next 0] s' ∧ Empty s' (n + 1) := by
  have plain : newline ≠ ctrlU ∧ newline ≠ ctrlH ∧ newline ≠ del ∧ newline ≠ 0 := by decide
  have accepts := empty.accepts plain
  have called : Step s (.read 0 1) { s with readers := Function.update s.readers 0 (some ⟨1, 0⟩) } := by
    rw [Step, step, empty.idle]
    rfl
  have edited : consEdit newline s.cons = ⟨Function.update s.cons.buf (subscript s.cons.editIdx) newlineByte,
      s.cons.readIdx, s.cons.editIdx + 1, s.cons.editIdx + 1⟩ := by
    rw [consEdit, if_neg plain.1, if_neg (not_or.mpr ⟨plain.2.1, plain.2.2.1⟩), if_pos accepts.2.2.2]
    rfl
  have next : s.cons.readIdx ≠ s.cons.editIdx + 1 := by
    rw [empty.editIdx, empty.readIdx]
    exact fun same => absurd (BitVec.self_eq_add_right.mp same) (by decide)
  have taken : takeByte (consEdit newline s.cons) = some (newlineByte,
      ⟨Function.update s.cons.buf (subscript s.cons.editIdx) newlineByte, s.cons.readIdx + 1,
        s.cons.editIdx + 1, s.cons.editIdx + 1⟩) := by
    rw [edited, takeByte, if_neg next, empty.readIdx, ← empty.editIdx]
    simp only [Function.update_self]
  have delivers (t : System) (cons : t.cons = consEdit newline s.cons) (reader : t.readers 0 = some ⟨1, 0⟩) :
      ∃ t', Step t (.next 0) t' ∧ Empty t' (n + 1) := by
    refine ⟨_, by rw [Step, step, reader, cons, taken], ?_, ?_, ?_, ?_⟩
    · rw [empty.readIdx, ofNat_succ]
    · rw [empty.editIdx, ofNat_succ]
    · rw [empty.editIdx, ofNat_succ]
    · exact Function.update_self 0 _ t.readers
  obtain ⟨t', last, after⟩ := delivers
    ⟨consEdit newline s.cons, Function.update s.readers 0 (some ⟨1, 0⟩), s.delivered,
      s.accepted + if Accepts newline s.cons then 1 else 0⟩ rfl (Function.update_self 0 _ s.readers)
  exact ⟨t', .cons called (.cons rfl (.cons last (.nil t'))), after⟩

private theorem Empty.lines (empty : Empty s 0) (n : ℕ) : ∃ events s', Run Step s events s' ∧ Empty s' n := by
  induction n with
  | zero => exact ⟨[], s, .nil s, empty⟩
  | succ n ih =>
    obtain ⟨events, s', run, before⟩ := ih
    obtain ⟨t, more, after⟩ := before.line
    exact ⟨_, t, run.append more, after⟩

/-- After `2^31 + 1` lines the next character is stored 127 places before the buffer. -/
theorem console_ring_left : ∃ events s, Run Step (.init fun _ => 0) events s ∧
    Accepts 0x61 s.cons ∧ (indices s (.edit 0x61)).map subscript = [-127] := by
  have start : Empty (.init fun _ => 0) 0 := ⟨rfl, rfl, rfl, rfl⟩
  obtain ⟨events, s, run, empty⟩ := start.lines (2 ^ 31 + 1)
  have accepts : Accepts 0x61 s.cons := empty.accepts (by decide)
  refine ⟨events, s, run, accepts, ?_⟩
  rw [indices, if_neg (by decide), if_pos accepts, List.map_singleton, empty.editIdx, subscript_outside]

end Console

end LabKernel
