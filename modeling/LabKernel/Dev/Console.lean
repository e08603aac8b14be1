import LabKernel.Lib.Bytes
import LabKernel.Lib.Transition

/-! # The console

The input side of `kernel/lib/console.c`: a ring of 128 bytes that `cons_edit` fills and `cons_read`
empties. The ring is compared with a line editor that keeps everything ever typed: its committed
bytes are delivered once each and in order, whatever is typed and read in between. The indices are
`int`s, so a subscript is signed, and a byte outside the buffer has a place as well. What is echoed
to the screen is left out.
-/

namespace LabKernel

namespace Console

abbrev I32 := BitVec 32

def consoleInputBuf : ℕ := 128

/-- `Ctrl('U')` -/
def ctrlU : I32 := 0x15

/-- `Ctrl('H')` -/
def ctrlH : I32 := 0x08

/-- `'\x7f'` -/
def del : I32 := 0x7F

def carriageReturn : I32 := 0x0D

def newline : I32 := 0x0A

/-- `'\n'` as a byte of the buffer -/
def newlineByte : U8 := 0x0A

/-- `console_t`, less the lock: `cons_edit` and every round of `cons_read` run with it held. -/
structure Cons where
  buf : ℤ → U8
  readIdx : I32
  writIdx : I32
  editIdx : I32

def consInit (buf : ℤ → U8) : Cons := ⟨buf, 0, 0, 0⟩

/-- The subscript `idx % CONSOLE_INPUT_BUF` -/
def subscript (idx : I32) : ℤ := (idx.srem (BitVec.ofNat 32 consoleInputBuf)).toInt

/-- The loop of `Ctrl('U')`; it takes back one character a round, so there are at most as many rounds
as there are uncommitted characters. -/
def eraseLine : (fuel : ℕ) → Cons → Cons
  | 0, s => s
  | fuel + 1, s =>
    if s.editIdx ≠ s.writIdx ∧ s.buf (subscript (s.editIdx - 1)) ≠ newlineByte then
      eraseLine fuel { s with editIdx := s.editIdx - 1 }
    else s

/-- A character that `cons_edit` stores -/
def storeChar (c : I32) (s : Cons) : Cons :=
  let c := if c = carriageReturn then newline else c
  let s := { s with
    buf := Function.update s.buf (subscript s.editIdx) (c.setWidth 8)
    editIdx := s.editIdx + 1 }
  if c = newline ∨ s.editIdx = s.readIdx + BitVec.ofNat 32 consoleInputBuf then
    { s with writIdx := s.editIdx }
  else s

/-- The character is not for editing, and there is room for it. -/
def Accepts (c : I32) (s : Cons) : Prop :=
  c ≠ ctrlU ∧ c ≠ ctrlH ∧ c ≠ del ∧ c ≠ 0 ∧
    (s.editIdx - s.readIdx).slt (BitVec.ofNat 32 consoleInputBuf) = true

instance (c : I32) (s : Cons) : Decidable (Accepts c s) := inferInstanceAs (Decidable (_ ∧ _))

def consEdit (c : I32) (s : Cons) : Cons :=
  if c = ctrlU then eraseLine (s.editIdx - s.writIdx).toNat s
  else if c = ctrlH ∨ c = del then
    if s.editIdx ≠ s.writIdx then { s with editIdx := s.editIdx - 1 } else s
  else if c ≠ 0 ∧ (s.editIdx - s.readIdx).slt (BitVec.ofNat 32 consoleInputBuf) then storeChar c s
  else s

/-- The byte that a round of `cons_read` delivers, `none` while the reader sleeps. -/
def takeByte (s : Cons) : Option (U8 × Cons) :=
  if s.readIdx = s.writIdx then none
  else some (s.buf (subscript s.readIdx), { s with readIdx := s.readIdx + 1 })

/-- A call of `cons_read` under way -/
structure Reader where
  len : U32
  readLen : U32
deriving DecidableEq, Repr

/-- The console with the calls of `cons_read` of all processes, the bytes they have delivered so far,
and the number of characters stored so far. -/
structure System where
  cons : Cons
  readers : ℕ → Option Reader
  delivered : List U8
  accepted : ℕ

/-- A character is typed; a process calls `cons_read`; a process goes through a round of its loop. -/
inductive Event where
  | edit (c : I32)
  | read (p : ℕ) (len : U32)
  | next (p : ℕ)

/-- One event, `none` where it cannot happen. -/
def step (s : System) : Event → Option System
  | .edit c => some { s with
      cons := consEdit c s.cons
      accepted := s.accepted + if Accepts c s.cons then 1 else 0 }
  | .read p len =>
    match s.readers p with
    | some _ => none
    | none => some { s with readers := Function.update s.readers p (if 0 < len then some ⟨len, 0⟩ else none) }
  | .next p =>
    match s.readers p with
    | none => none
    | some r =>
      match takeByte s.cons with
      | none => none
      | some (c, cons) =>
        let r := { r with readLen := r.readLen + 1 }
        some { s with
          cons := cons
          readers := Function.update s.readers p
            (if c = newlineByte ∨ ¬r.readLen < r.len then none else some r)
          delivered := s.delivered ++ [c] }

def System.init (buf : ℤ → U8) : System := ⟨consInit buf, fun _ => none, [], 0⟩

/-! ## The line editor -/

/-- All bytes ever committed, the line being edited, and how many bytes readers have taken. -/
structure LineEditor where
  committed : List U8
  pending : List U8
  taken : ℕ

namespace LineEditor

/-- All bytes that are not erased -/
def stream (r : LineEditor) : List U8 := r.committed ++ r.pending

/-- 128 bytes are not taken yet. -/
def Full (r : LineEditor) : Prop := r.taken + consoleInputBuf ≤ r.stream.length

instance (r : LineEditor) : Decidable r.Full := inferInstanceAs (Decidable (_ ≤ _))

/-- The line being edited is committed. -/
def commit (r : LineEditor) : LineEditor := { r with committed := r.stream, pending := [] }

/-- A character is appended, as a byte, to the line being edited. -/
def append (c : I32) (r : LineEditor) : LineEditor := { r with pending := r.pending ++ [c.setWidth 8] }

/-- A typed character: `^U` erases the line being edited, `^H` and DEL its last byte, and any other
one but 0 is appended if there is room, CR as LF; a newline commits the line, and so does the byte
that fills the buffer. -/
def edit (c : I32) (r : LineEditor) : LineEditor :=
  if c = ctrlU then { r with pending := r.pending.rdropWhile (· ≠ newlineByte) }
  else if c = ctrlH ∨ c = del then { r with pending := r.pending.dropLast }
  else if c = 0 ∨ r.Full then r
  else
    let c := if c = carriageReturn then newline else c
    if c = newline ∨ (r.append c).Full then (r.append c).commit else r.append c

/-- What an event does to the editor -/
def step (r : LineEditor) : Event → LineEditor
  | .edit c => r.edit c
  | .read _ _ => r
  | .next _ => { r with taken := r.taken + 1 }

def empty : LineEditor := ⟨[], [], 0⟩

end LineEditor

/-! ## Indices -/

variable {m n : ℕ}

theorem ofNat_inj (hm : m < 2 ^ 32) (hn : n < 2 ^ 32) :
    BitVec.ofNat 32 m = BitVec.ofNat 32 n ↔ m = n := by
  rw [← BitVec.toNat_inj, BitVec.toNat_ofNat, BitVec.toNat_ofNat, Nat.mod_eq_of_lt hm,
    Nat.mod_eq_of_lt hn]

theorem ofNat_pred (positive : 0 < n) : BitVec.ofNat 32 n - 1 = BitVec.ofNat 32 (n - 1) := by
  obtain ⟨k, rfl⟩ := Nat.exists_eq_add_of_lt positive
  rw [Nat.zero_add, Nat.add_sub_cancel, ← BitVec.ofNat_add_ofNat]
  exact BitVec.add_sub_cancel ..

theorem ofNat_succ (n : ℕ) : BitVec.ofNat 32 n + 1 = BitVec.ofNat 32 (n + 1) :=
  BitVec.ofNat_add_ofNat ..

theorem ofNat_sub (order : m ≤ n) :
    BitVec.ofNat 32 n - BitVec.ofNat 32 m = BitVec.ofNat 32 (n - m) := by
  obtain ⟨k, rfl⟩ := Nat.exists_eq_add_of_le order
  rw [Nat.add_sub_cancel_left, Nat.add_comm, ← BitVec.ofNat_add_ofNat]
  exact BitVec.add_sub_cancel ..

theorem toInt_ofNat (small : n < 2 ^ 31) : (BitVec.ofNat 32 n).toInt = n := by
  have value : (BitVec.ofNat 32 n).toNat = n := by
    rw [BitVec.toNat_ofNat, Nat.mod_eq_of_lt (by omega)]
  rw [BitVec.toInt_eq_toNat_of_lt (by omega), value]

theorem ofNat_slt (hn : n < 2 ^ 31) :
    (BitVec.ofNat 32 n).slt (BitVec.ofNat 32 consoleInputBuf) = true ↔ n < consoleInputBuf := by
  rw [BitVec.slt_iff_toInt_lt, toInt_ofNat hn, toInt_ofNat (show consoleInputBuf < 2 ^ 31 by decide)]
  omega

/-- As long as an index has not wrapped around, its subscript is its remainder. -/
theorem subscript_ofNat (small : n < 2 ^ 31) :
    subscript (BitVec.ofNat 32 n) = (n % consoleInputBuf : ℕ) := by
  rw [subscript, BitVec.toInt_srem, toInt_ofNat small,
    toInt_ofNat (show consoleInputBuf < 2 ^ 31 by decide), Int.tmod_eq_emod_of_nonneg (by omega)]
  exact (Int.natCast_mod ..).symm

/-! ## The ring holds what the editor does -/

/-- The indices count bytes of the editor, and the ring holds those of them that are not taken. -/
structure Follows (s : System) (r : LineEditor) : Prop where
  readIdx : s.cons.readIdx = BitVec.ofNat 32 r.taken
  writIdx : s.cons.writIdx = BitVec.ofNat 32 r.committed.length
  editIdx : s.cons.editIdx = BitVec.ofNat 32 r.stream.length
  taken : r.taken ≤ r.committed.length
  room : r.stream.length ≤ r.taken + consoleInputBuf
  full : r.Full → r.pending = []
  accepted : r.stream.length ≤ s.accepted
  ring : ∀ i x, r.taken ≤ i → r.stream[i]? = some x → s.cons.buf (i % consoleInputBuf : ℕ) = x
  delivered : s.delivered = r.committed.take r.taken

namespace LineEditor

variable {r : LineEditor}

private theorem stream_length (r : LineEditor) : r.stream.length = r.committed.length + r.pending.length :=
  List.length_append

@[simp] theorem commit_stream (r : LineEditor) : r.commit.stream = r.stream := List.append_nil _

@[simp] theorem append_stream (c : I32) (r : LineEditor) :
    (r.append c).stream = r.stream ++ [c.setWidth 8] := (List.append_assoc ..).symm

end LineEditor

/-- The loop of `Ctrl('U')` stops where the line begins, or behind a newline in it. -/
theorem eraseLine_eq (committed : ℕ) (text : List U8) (small : committed + text.length < 2 ^ 31)
    (s : Cons) (writIdx : s.writIdx = BitVec.ofNat 32 committed)
    (editIdx : s.editIdx = BitVec.ofNat 32 (committed + text.length))
    (ring : ∀ i x, text[i]? = some x → s.buf ((committed + i) % consoleInputBuf : ℕ) = x) :
    eraseLine text.length s = { s with
      editIdx := BitVec.ofNat 32 (committed + (text.rdropWhile (· ≠ newlineByte)).length) } := by
  induction text using List.reverseRecOn generalizing s with
  | nil => rw [List.length_nil, eraseLine, List.rdropWhile_nil, ← editIdx]
  | append_singleton text x ih =>
    rw [List.length_append, List.length_singleton] at small editIdx ⊢
    have last : s.buf ((committed + text.length) % consoleInputBuf : ℕ) = x := by
      refine ring text.length x ?_
      rw [List.getElem?_concat_length]
    have back : s.editIdx - 1 = BitVec.ofNat 32 (committed + text.length) := by
      rw [editIdx, ofNat_pred (by omega), Nat.add_sub_assoc (Nat.le_add_left ..), Nat.add_sub_cancel]
    have some : s.editIdx ≠ s.writIdx := by
      rw [editIdx, writIdx, ne_eq, ofNat_inj (by omega) (by omega)]
      omega
    rw [eraseLine, back, subscript_ofNat (by omega), last]
    by_cases stop : x = newlineByte
    · rw [if_neg (fun both => both.2 stop), List.rdropWhile_concat_neg _ _ _ (by simpa using stop),
        List.length_append, List.length_singleton, ← editIdx]
    · rw [if_pos ⟨some, stop⟩, List.rdropWhile_concat_pos _ _ _ (by simpa using stop)]
      refine ih (by omega) _ writIdx rfl fun i y found => ring i y ?_
      rw [List.getElem?_append_left (List.getElem?_eq_some_iff.mp found).1, found]

namespace Follows

variable {s : System} {r : LineEditor}

private theorem init (buf : ℤ → U8) : Follows (.init buf) .empty where
  readIdx := rfl
  writIdx := rfl
  editIdx := rfl
  taken := Nat.le_refl 0
  room := Nat.zero_le _
  full _ := rfl
  accepted := Nat.le_refl 0
  ring i x _ some := by simp [LineEditor.stream, LineEditor.empty] at some
  delivered := rfl

/-- Some of the bytes that are not committed are erased. -/
theorem erase (follows : Follows s r) {text : List U8} (shorter : text <+: r.pending) {accepted : ℕ}
    (more : s.accepted ≤ accepted) :
    Follows { s with
      cons := { s.cons with editIdx := BitVec.ofNat 32 (r.committed.length + text.length) }
      accepted := accepted } { r with pending := text } := by
  have less := shorter.length_le
  have length := r.stream_length
  have room := follows.room
  have bytes := follows.accepted
  refine ⟨follows.readIdx, follows.writIdx, ?_, follows.taken, ?_, fun full => ?_, ?_, ?_,
    follows.delivered⟩
  · rw [LineEditor.stream_length]
  · rw [LineEditor.stream_length]
    dsimp only
    omega
  · rw [LineEditor.Full, LineEditor.stream_length] at full
    dsimp only at full ⊢
    have none := follows.full (show r.taken + consoleInputBuf ≤ r.stream.length by omega)
    rw [none] at shorter
    exact List.prefix_nil.mp shorter
  · rw [LineEditor.stream_length]
    dsimp only
    omega
  · intro i x later some
    refine follows.ring i x later ?_
    obtain ⟨rest, whole⟩ := shorter
    rw [LineEditor.stream, ← whole, ← List.append_assoc]
    rw [LineEditor.stream] at some
    exact List.getElem?_append_left (List.getElem?_eq_some_iff.mp some).1 |>.trans some

private theorem eraseLine (follows : Follows s r) (small : s.accepted < 2 ^ 31) {accepted : ℕ}
    (more : s.accepted ≤ accepted) :
    Follows { s with
      cons := Console.eraseLine (s.cons.editIdx - s.cons.writIdx).toNat s.cons
      accepted := accepted } { r with pending := r.pending.rdropWhile (· ≠ newlineByte) } := by
  have length := r.stream_length
  have bytes := follows.accepted
  have rounds : (s.cons.editIdx - s.cons.writIdx).toNat = r.pending.length := by
    rw [follows.editIdx, follows.writIdx, ofNat_sub (by omega), BitVec.toNat_ofNat,
      Nat.mod_eq_of_lt (by omega)]
    omega
  rw [rounds, eraseLine_eq r.committed.length r.pending (by omega) s.cons follows.writIdx
    (by rw [follows.editIdx, length])]
  · exact follows.erase (List.rdropWhile_prefix ..) more
  · intro i x found
    refine follows.ring _ x (Nat.le_trans follows.taken (Nat.le_add_right ..)) ?_
    rwa [LineEditor.stream, List.getElem?_append_right (Nat.le_add_right ..), Nat.add_sub_cancel_left]

private theorem eraseLast (follows : Follows s r) (small : s.accepted < 2 ^ 31) {accepted : ℕ}
    (more : s.accepted ≤ accepted) :
    Follows { s with
      cons := if s.cons.editIdx ≠ s.cons.writIdx then
        { s.cons with editIdx := s.cons.editIdx - 1 } else s.cons
      accepted := accepted } { r with pending := r.pending.dropLast } := by
  have length := r.stream_length
  have bytes := follows.accepted
  have same : s.cons.editIdx ≠ s.cons.writIdx ↔ 0 < r.pending.length := by
    rw [follows.editIdx, follows.writIdx, ne_eq, ofNat_inj (by omega) (by omega)]
    omega
  have shorter := follows.erase (List.dropLast_prefix r.pending) more
  rw [List.length_dropLast] at shorter
  by_cases some : 0 < r.pending.length
  · rw [if_pos (same.mpr some), follows.editIdx, ofNat_pred (by omega), length,
      Nat.add_sub_assoc some]
    exact shorter
  · rw [if_neg (same.not.mpr some)]
    rw [Nat.sub_eq_zero_of_le (by omega), Nat.add_zero] at shorter
    have idx : s.cons.editIdx = BitVec.ofNat 32 r.committed.length := by
      rw [follows.editIdx, length, Nat.eq_zero_of_not_pos some, Nat.add_zero]
    rwa [← idx] at shorter

/-- The byte that is stored goes to a place of the ring that no byte in it needs. -/
theorem ring_append (follows : Follows s r) (space : ¬r.Full) (b : U8) {i : ℕ} {x : U8}
    (later : r.taken ≤ i) (found : (r.stream ++ [b])[i]? = some x) :
    Function.update s.cons.buf (r.stream.length % consoleInputBuf : ℕ) b
      (i % consoleInputBuf : ℕ) = x := by
  rw [LineEditor.Full] at space
  rcases Nat.lt_trichotomy i r.stream.length with old | rfl | past
  · rw [List.getElem?_append_left old] at found
    rw [Function.update_of_ne, follows.ring i x later found]
    simp only [consoleInputBuf] at space ⊢
    omega
  · rw [List.getElem?_concat_length] at found
    rw [Function.update_self, Option.some.inj found]
  · rw [List.getElem?_eq_none (by rw [List.length_append, List.length_singleton]; omega)] at found
    cases found

/-- A byte is appended, and the line is perhaps committed. -/
theorem store (follows : Follows s r) {c : I32} (small : s.accepted + 1 < 2 ^ 31) (space : ¬r.Full) :
    Follows { s with cons := storeChar c s.cons, accepted := s.accepted + 1 }
      (let c := if c = carriageReturn then newline else c
        if c = newline ∨ (r.append c).Full then (r.append c).commit else r.append c) := by
  rw [storeChar]
  generalize (if c = carriageReturn then newline else c) = c
  dsimp only
  have length := r.stream_length
  have bytes := follows.accepted
  have taken := follows.taken
  have grown : (r.append c).stream.length = r.stream.length + 1 := by
    rw [LineEditor.append_stream, List.length_append, List.length_singleton]
  have next : s.cons.editIdx + 1 = BitVec.ofNat 32 (r.append c).stream.length := by
    rw [follows.editIdx, ofNat_succ, grown]
  have full : s.cons.editIdx + 1 = s.cons.readIdx + BitVec.ofNat 32 consoleInputBuf ↔
      (r.append c).Full := by
    rw [LineEditor.Full] at space
    rw [next, follows.readIdx, BitVec.ofNat_add_ofNat, LineEditor.Full, grown,
      ofNat_inj (by omega) (by simp only [consoleInputBuf]; omega)]
    change _ ↔ r.taken + consoleInputBuf ≤ _
    omega
  have room : (r.append c).stream.length ≤ r.taken + consoleInputBuf := by
    rw [LineEditor.Full] at space
    omega
  have ring : ∀ i x, r.taken ≤ i → (r.append c).stream[i]? = some x →
      Function.update s.cons.buf (subscript s.cons.editIdx) (c.setWidth 8)
        (i % consoleInputBuf : ℕ) = x := by
    intro i x later found
    rw [LineEditor.append_stream] at found
    rw [follows.editIdx, subscript_ofNat (by omega)]
    exact follows.ring_append space _ later found
  by_cases commit : c = newline ∨ (r.append c).Full
  · rw [if_pos ((or_congr_right full).mpr commit), if_pos commit]
    refine ⟨follows.readIdx, next, ?_, ?_, ?_, fun _ => rfl, ?_, ?_, ?_⟩
    · rw [LineEditor.commit_stream]
      exact next
    · change r.taken ≤ (r.append c).stream.length
      omega
    · rw [LineEditor.commit_stream]
      exact room
    · rw [LineEditor.commit_stream]
      change _ ≤ s.accepted + 1
      omega
    · rw [LineEditor.commit_stream]
      exact ring
    · change s.delivered = ((r.committed ++ (r.append c).pending).take r.taken)
      rw [List.take_append_of_le_length taken, follows.delivered]
  · rw [if_neg ((or_congr_right full).not.mpr commit), if_neg commit]
    refine ⟨follows.readIdx, follows.writIdx, next, taken, room, fun more => absurd (Or.inr more) commit,
      ?_, ring, follows.delivered⟩
    change _ ≤ s.accepted + 1
    omega

/-- A reader takes the byte that is next in the committed stream. -/
theorem take (follows : Follows s r) (small : s.accepted < 2 ^ 31) {c : U8} {cons : Cons}
    (taken : takeByte s.cons = some (c, cons)) (readers : ℕ → Option Reader) :
    Follows ⟨cons, readers, s.delivered ++ [c], s.accepted⟩ { r with taken := r.taken + 1 } := by
  have length := r.stream_length
  have bytes := follows.accepted
  have before := follows.taken
  unfold takeByte at taken
  split at taken
  · cases taken
  · rename_i more
    obtain ⟨rfl, rfl⟩ := Prod.mk.inj (Option.some.inj taken)
    rw [follows.readIdx, follows.writIdx, ofNat_inj (by omega) (by omega)] at more
    have less : r.taken < r.committed.length := by omega
    have byte : s.cons.buf (subscript s.cons.readIdx) = r.committed[r.taken] := by
      rw [follows.readIdx, subscript_ofNat (by omega)]
      refine follows.ring _ _ (Nat.le_refl _) ?_
      rw [LineEditor.stream, List.getElem?_append_left less, List.getElem?_eq_getElem less]
    refine ⟨?_, follows.writIdx, follows.editIdx, less, ?_, fun full => follows.full ?_, bytes,
      fun i x later => follows.ring i x (by dsimp only at later; omega), ?_⟩
    · rw [follows.readIdx, ofNat_succ]
    · have room := follows.room
      change r.stream.length ≤ r.taken + 1 + consoleInputBuf
      omega
    · change r.taken + 1 + consoleInputBuf ≤ r.stream.length at full
      change r.taken + consoleInputBuf ≤ r.stream.length
      omega
    · rw [follows.delivered, byte, List.take_append_getElem]

/-- The room that `cons_edit` looks for -/
theorem space_iff (follows : Follows s r) (small : s.accepted < 2 ^ 31) :
    (s.cons.editIdx - s.cons.readIdx).slt (BitVec.ofNat 32 consoleInputBuf) = true ↔ ¬r.Full := by
  have length := r.stream_length
  have bytes := follows.accepted
  have taken := follows.taken
  rw [follows.editIdx, follows.readIdx, ofNat_sub (by omega), ofNat_slt (by omega), LineEditor.Full]
  omega

private theorem edit (follows : Follows s r) {c : I32}
    (small : s.accepted + (if Accepts c s.cons then 1 else 0) < 2 ^ 31) :
    Follows { s with
      cons := consEdit c s.cons
      accepted := s.accepted + if Accepts c s.cons then 1 else 0 } (r.edit c) := by
  have before : s.accepted < 2 ^ 31 := by omega
  have more : s.accepted ≤ s.accepted + if Accepts c s.cons then 1 else 0 := Nat.le_add_right ..
  have space := follows.space_iff before
  unfold consEdit LineEditor.edit
  by_cases kill : c = ctrlU
  · rw [if_pos kill, if_pos kill]
    exact follows.eraseLine before more
  · rw [if_neg kill, if_neg kill]
    by_cases back : c = ctrlH ∨ c = del
    · rw [if_pos back, if_pos back]
      exact follows.eraseLast before more
    · rw [if_neg back, if_neg back]
      obtain ⟨notH, notDel⟩ := not_or.mp back
      by_cases room : c ≠ 0 ∧ ¬r.Full
      · have accepts : Accepts c s.cons := ⟨kill, notH, notDel, room.1, space.mpr room.2⟩
        rw [if_pos accepts] at small ⊢
        rw [if_pos ⟨room.1, space.mpr room.2⟩, if_neg (not_or.mpr room)]
        exact follows.store small room.2
      · have refuses : ¬Accepts c s.cons := fun accepts =>
          room ⟨accepts.2.2.2.1, space.mp accepts.2.2.2.2⟩
        have drops : c = 0 ∨ r.Full := by
          by_contra stores
          exact room (not_or.mp stores)
        rw [if_neg refuses, if_neg fun both => room ⟨both.1, space.mp both.2⟩, if_pos drops,
          Nat.add_zero]
        exact follows

/-- Every event keeps the ring in step with the editor. -/
theorem step (follows : Follows s r) {e : Event} {s' : System} (result : Console.step s e = some s')
    (small : s'.accepted < 2 ^ 31) : Follows s' (r.step e) := by
  cases e with
  | edit c =>
    obtain rfl := Option.some.inj result
    exact follows.edit small
  | read p len =>
    simp only [Console.step] at result
    split at result
    · cases result
    · obtain rfl := Option.some.inj result
      exact ⟨follows.readIdx, follows.writIdx, follows.editIdx, follows.taken, follows.room,
        follows.full, follows.accepted, follows.ring, follows.delivered⟩
  | next p =>
    simp only [Console.step] at result
    split at result
    · cases result
    · split at result
      · cases result
      · rename_i c cons taken
        obtain rfl := Option.some.inj result
        exact follows.take small taken _

end Follows

/-! ## Runs -/

theorem step_accepted {s s' : System} {e : Event} (result : step s e = some s') :
    s.accepted ≤ s'.accepted := by
  cases e with
  | edit c =>
    obtain rfl := Option.some.inj result
    exact Nat.le_add_right ..
  | read p len =>
    simp only [step] at result
    split at result <;> cases result
    exact Nat.le_refl _
  | next p =>
    simp only [step] at result
    split at result
    · cases result
    · split at result <;> cases result
      exact Nat.le_refl _

private theorem run_follows {s t : System} {events : List Event}
    (run : Run (fun s e s' => step s e = some s') s events t) (few : t.accepted < 2 ^ 31)
    {r : LineEditor} (follows : Follows s r) : Follows t (events.foldl LineEditor.step r) := by
  induction run generalizing r with
  | nil => exact follows
  | @cons s e s' events t first rest ih =>
    have later : s'.accepted ≤ t.accepted :=
      rest.invariant (P := fun u => s'.accepted ≤ u.accepted)
        (fun _ _ _ step before => before.trans (step_accepted step)) (Nat.le_refl _)
    exact ih few (follows.step first (by omega))

/-- The committed bytes in the ring, in the order in which they will be read -/
def Cons.waiting (s : Cons) : List U8 :=
  (List.range (s.writIdx - s.readIdx).toNat).map fun i =>
    s.buf (subscript (s.readIdx + BitVec.ofNat 32 i))

/-- The indices chase each other within the ring, a full ring can be read, and what was delivered and
what waits in the ring are together the stream that the line editor has committed. -/
structure Fifo (s : System) (r : LineEditor) : Prop where
  read_nonneg : 0 ≤ s.cons.readIdx.toInt
  read_le_writ : s.cons.readIdx.toInt ≤ s.cons.writIdx.toInt
  writ_le_edit : s.cons.writIdx.toInt ≤ s.cons.editIdx.toInt
  edit_le : s.cons.editIdx.toInt ≤ s.cons.readIdx.toInt + consoleInputBuf
  full : s.cons.editIdx.toInt = s.cons.readIdx.toInt + consoleInputBuf → s.cons.writIdx = s.cons.editIdx
  delivered : s.delivered <+: r.committed
  waiting : r.committed = s.delivered ++ s.cons.waiting

private theorem Follows.fifo {s : System} {r : LineEditor} (follows : Follows s r) (few : s.accepted < 2 ^ 31) :
    Fifo s r := by
  have length := r.stream_length
  have bytes := follows.accepted
  have taken := follows.taken
  have room := follows.room
  have read : s.cons.readIdx.toInt = r.taken := by rw [follows.readIdx, toInt_ofNat (by omega)]
  have writ : s.cons.writIdx.toInt = r.committed.length := by
    rw [follows.writIdx, toInt_ofNat (by omega)]
  have edit : s.cons.editIdx.toInt = r.stream.length := by rw [follows.editIdx, toInt_ofNat (by omega)]
  have rest : s.cons.waiting = r.committed.drop r.taken := by
    refine List.ext_getElem? fun i => ?_
    rw [Cons.waiting, follows.readIdx, follows.writIdx, ofNat_sub taken, BitVec.toNat_ofNat,
      Nat.mod_eq_of_lt (by omega), List.getElem?_map, List.getElem?_drop]
    rcases Nat.lt_or_ge i (r.committed.length - r.taken) with inside | past
    · have less : r.taken + i < r.committed.length := by omega
      rw [List.getElem?_range inside, Option.map_some, BitVec.ofNat_add_ofNat, subscript_ofNat (by omega),
        List.getElem?_eq_getElem less]
      refine congrArg some (follows.ring _ _ (Nat.le_add_right ..) ?_)
      rw [LineEditor.stream, List.getElem?_append_left less, List.getElem?_eq_getElem less]
    · rw [List.getElem?_eq_none (by rwa [List.length_range]), Option.map_none,
        List.getElem?_eq_none (by omega)]
  refine ⟨by omega, by omega, by omega, by omega, fun full => ?_, ?_, ?_⟩
  · have none := follows.full (show r.taken + consoleInputBuf ≤ r.stream.length by omega)
    rw [follows.writIdx, follows.editIdx, LineEditor.stream, none, List.append_nil]
  · rw [follows.delivered]
    exact List.take_prefix ..
  · rw [follows.delivered, rest, List.take_append_drop]

/-- Whatever is typed and read in whatever order, the console delivers the stream that the line editor
commits. -/
theorem console_fifo {buf : ℤ → U8} {events : List Event} {s : System}
    (run : Run (fun s e s' => step s e = some s') (.init buf) events s) (few : s.accepted < 2 ^ 31) :
    Fifo s (events.foldl LineEditor.step .empty) :=
  (run_follows run few (.init buf)).fifo few

/-- A process waits for a line, in which a character is erased: it gets the line as committed. -/
theorem console_fifo_line : ∃ s, Run (fun s e s' => step s e = some s') (.init fun _ => 0)
      [.read 3 80, .edit 0x61, .edit 0x62, .edit del, .edit carriageReturn, .edit 0x63, .next 3,
        .next 3] s ∧ s.delivered = [0x61, newlineByte] ∧
    Fifo s ⟨[0x61, newlineByte], [0x63], 2⟩ := by
  obtain ⟨s, run, passed⟩ := Run.exists_of_test step (.init fun _ => 0)
    [.read 3 80, .edit 0x61, .edit 0x62, .edit del, .edit carriageReturn, .edit 0x63, .next 3, .next 3]
    (fun s => s.delivered == [0x61, newlineByte] && s.accepted == 4) (by decide +kernel)
  simp only [Bool.and_eq_true, beq_iff_eq] at passed
  exact ⟨s, run, passed.1, console_fifo run (by rw [passed.2]; decide)⟩

end Console

end LabKernel
