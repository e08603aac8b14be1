import LabKernel.Fs.ParentSlot

/-! # The path of the working directory

`inode_to_path` climbs from a directory to the root and puts the name of each directory it leaves in front
of the path. It looks every parent up as `".."`, which always starts at the working directory: below the
children of the root the climb never gets past the first parent. It reads the name out of the slot that
`inode_get` takes for the parent without loading the record, so the name is the one that whatever record
that slot holds shows.
-/

namespace LabKernel

variable {sb : SuperBlock} {cfg : FsConfig}

namespace Fs

/-- `inode_to_path`: the path stored, `none` for `-1`. -/
def inodeToPath (cfg : FsConfig) (p ip : ℕ) (len : U32) (junk : Bytes) : FsM (Option (List U8)) := do
  let info ← diskInfo ip
  if info.type ≠ inodeTypeDir then pure none
  else
    let curr ← inodeDup ip
    match ← inodeToPathFrom cfg p junk 128 curr [] with
    | none => pure none
    | some (curr, text) =>
      let path := if text = [] then [slash] else text
      inodePut cfg curr
      pure (if len.toNat ≤ path.length then none else some path)

/-- The path always fits the 127 bytes that `sys_print_cwd` has for it. -/
theorem inodeToPathFrom_length (cfg : FsConfig) (p : ℕ) (junk : Bytes) (fuel curr : ℕ) {text : List U8}
    (short : text.length ≤ 127) (s : FsState) :
    Returns (inodeToPathFrom cfg p junk fuel curr text) s fun r _ => ∀ e ∈ r, e.2.length ≤ 127 := by
  induction fuel generalizing curr text s with
  | zero => exact Returns.throw_iff.mpr trivial
  | succ fuel ih =>
    rw [inodeToPathFrom, Returns.bind_iff, Returns.get_iff]
    refine Returns.ite (fun _ => Returns.pure_iff.mpr (by simpa using short)) fun _ => ?_
    refine Returns.bind_iff.mpr fun r s₁ _ => ?_
    cases r with
    | none => exact Returns.bind_iff.mpr fun _ _ _ => Returns.pure_iff.mpr nofun
    | some parent =>
      refine Returns.bind_iff.mpr fun name s₂ _ => ?_
      dsimp only
      cases nameLen name with
      | none => exact Returns.throw_iff.mpr trivial
      | some len =>
        refine Returns.ite (fun _ => Returns.throw_iff.mpr trivial) fun fits => ?_
        refine Returns.bind_iff.mpr fun _ s₃ _ => ih parent ?_ s₃
        simp only [List.length_append, List.length_cons, List.length_map, List.length_range]
        omega

/-- `sys_print_cwd` asks for the path of the working directory. -/
theorem sysPrintCwd_eq (cfg : FsConfig) (p : ℕ) (junk : Bytes) (s : FsState) :
    sysPrintCwd cfg p junk s = (do
      let proc ← getProc p
      match proc.cwd with
      | none => throw Fault.wildPointer
      | some cwd => inodeToPath cfg p cwd 128 junk : FsM (Option (List U8))) s := by
  refine bind_congr_of fun proc s₁ _ => ?_
  beta_reduce
  cases proc.cwd with
  | none => rfl
  | some cwd =>
    refine bind_congr_of fun info s₂ _ => ?_
    beta_reduce
    split
    · rfl
    · refine bind_congr_of fun curr s₃ _ => bind_congr_of fun r s₄ result => ?_
      have empty : ([] : List U8).length ≤ 127 := Nat.zero_le 127
      have short := inodeToPathFrom_length cfg p junk 128 curr empty s₃ r s₄ result
      rcases r with _ | ⟨last, text⟩
      · rfl
      · refine bind_congr_of fun _ s₅ _ => ?_
        have text_short : text.length ≤ 127 := short _ rfl
        have fits : ¬(128 : U32).toNat ≤ (if text = [] then [slash] else text).length := by
          change ¬128 ≤ _
          split
          · decide
          · omega
        rw [if_neg fits]

variable {s : FsState} {j c p : ℕ} {live : U32 → Prop} {t u : U32}

/-! ## The climb -/

/-- The path stored in a buffer of `len` bytes, which has to hold the closing zero too -/
def stored (len : U32) (path : List U8) : Option (List U8) := if len.toNat ≤ path.length then none else some path

/-- The records that slots without references were left with are read without an allocation. -/
def SpareStill (cfg : FsConfig) (s : FsState) : Prop :=
  ∀ k < nInode, (s.inodeCache k).ref = 0 → Still cfg.sb (s.inodeCache k).diskInfo s.disk

private def again (s : FsState) (ip : ℕ) : FsState :=
  s.setInode ip { s.inodeCache ip with ref := (s.inodeCache ip).ref + 1 }

private theorem upFrom_parent : (upFrom cfg s c j u).inodeCache j = (s.inodeCache j).got u := by
  rw [upFrom, FsState.setInode_same]

private theorem upFrom_cwd (apart : j ≠ c) :
    (upFrom cfg s c j u).inodeCache c = (s.inodeCache c).loaded cfg.sb s.disk := by
  rw [upFrom, FsState.setInode_other _ _ _ apart.symm, loadedIn, FsState.setInode_same]

/-- A slot that was not taken keeps its number and its references. -/
private theorem upFrom_kept (cfg : FsConfig) (u : U32) (apart : j ≠ c) {k : ℕ} (other : k ≠ j) :
    ((upFrom cfg s c j u).inodeCache k).inodeNum = (s.inodeCache k).inodeNum ∧
      ((upFrom cfg s c j u).inodeCache k).ref = (s.inodeCache k).ref ∧
      (k ≠ c → (upFrom cfg s c j u).inodeCache k = s.inodeCache k) := by
  by_cases here : k = c
  · rw [here, upFrom_cwd apart]
    exact ⟨by simp, by simp, fun away => absurd rfl away⟩
  · rw [upFrom, FsState.setInode_other _ _ _ other, loadedIn, FsState.setInode_other _ _ _ here]
    exact ⟨rfl, rfl, fun _ => rfl⟩

/-- The loaded record of a directory is read without an allocation. -/
theorem loaded_still (sane : cfg.sb.Sane) (consistent : Consistent cfg live s) (alive : live u)
    (directory : (inodeRead cfg.sb u s.disk).type = inodeTypeDir) (inside : j < nInode)
    (number : (s.inodeCache j).inodeNum = u) (valid : (s.inodeCache j).validInfo = true) :
    Still cfg.sb (s.inodeCache j).diskInfo s.disk := by
  have stands := consistent.cached j inside valid (number.symm ▸ alive)
  rw [number] at stands
  rw [stands.dir directory]
  exact still_directory sane consistent.sound (consistent.node u alive) directory

/-- So is that in the slot taken for a directory, if those of the spare slots are. -/
theorem taken_still (sane : cfg.sb.Sane) (consistent : Consistent cfg live s) (spare : SpareStill cfg s)
    (alive : live u) (directory : (inodeRead cfg.sb u s.disk).type = inodeTypeDir)
    (taken : takenSlot s u = some j) : Still cfg.sb (s.inodeCache j).diskInfo s.disk := by
  have inside := takenSlot_lt taken
  rcases takenSlot_cases taken with ⟨number, valid⟩ | free
  · exact loaded_still sane consistent alive directory inside number valid
  · exact spare j inside free

/-- The climb stands in slot `curr`, which is not the root's, and parent `u` of the working directory is not the
root. What it puts is held twice, or has a record that is read without an allocation. -/
structure Stuck (cfg : FsConfig) (live : U32 → Prop) (s : FsState) (p c : ℕ) (t u : U32) (curr : ℕ) : Prop where
  works : WorksIn cfg live s p c t u
  directory : (inodeRead cfg.sb u s.disk).type = inodeTypeDir
  spare : SpareStill cfg s
  inside : curr < nInode
  alive : live (s.inodeCache curr).inodeNum
  away : (s.inodeCache curr).inodeNum ≠ rootInode
  held : 1 < (s.inodeCache curr).ref ∨
    curr ≠ c ∧ 0 < (s.inodeCache curr).ref ∧ Still cfg.sb (s.inodeCache curr).diskInfo s.disk

namespace Stuck

variable {curr : ℕ}

private theorem live_parent (stuck : Stuck cfg live s p c t u curr) : live u :=
  stuck.works.consistent.closed t _ u stuck.works.alive stuck.works.up

private theorem still_taken (sane : cfg.sb.Sane) (stuck : Stuck cfg live s p c t u curr)
    (taken : takenSlot s u = some j) :
    Still cfg.sb (s.inodeCache j).diskInfo s.disk :=
  taken_still sane stuck.works.consistent stuck.spare stuck.live_parent stuck.directory taken

/-- The parent that is taken is held, twice if the climb stands on it already. -/
private theorem taken_ref (stuck : Stuck cfg live s p c t u curr) (taken : takenSlot s u = some j) :
    0 < ((s.inodeCache j).got u).ref ∧ (curr = j → 1 < ((s.inodeCache j).got u).ref) := by
  constructor
  · rcases Inode.got_ref (s.inodeCache j) u with more | one
    · omega
    · omega
  · intro here
    have held := stuck.held
    rw [here] at held
    rcases takenSlot_cases taken with loaded | free
    · rw [Inode.got, if_pos loaded]
      change 1 < (s.inodeCache j).ref + 1
      omega
    · omega

/-- With the parent taken, the climb still stands where it stood. -/
theorem up_from (stuck : Stuck cfg live s p c t u curr) (below : u ≠ rootInode)
    (apart : j ≠ c) (taken : takenSlot s u = some j) : Stuck cfg live (upFrom cfg s c j u) p c t u curr := by
  have insideJ := takenSlot_lt taken
  have works₁ := stuck.works.up_from insideJ apart
  have parent : (upFrom cfg s c j u).inodeCache j = (s.inodeCache j).got u := upFrom_parent
  have refs := stuck.taken_ref taken
  have spare₁ : SpareStill cfg (upFrom cfg s c j u) := by
    intro k insideK free
    have notJ : k ≠ j := fun here => by
      rw [here, parent] at free
      omega
    have notC : k ≠ c := fun own => absurd works₁.held (by rw [own] at free; omega)
    obtain ⟨-, same_ref, same_slot⟩ := upFrom_kept cfg u apart notJ
    rw [same_slot notC]
    exact stuck.spare k insideK (same_ref ▸ free)
  by_cases here : curr = j
  · refine ⟨works₁, stuck.directory, spare₁, stuck.inside, ?_, ?_, Or.inl ?_⟩
    · rw [here, parent, Inode.got_inodeNum]
      exact stuck.live_parent
    · rwa [here, parent, Inode.got_inodeNum]
    · rw [here, parent]
      exact refs.2 here
  · obtain ⟨same_number, same_ref, same_slot⟩ := upFrom_kept cfg u apart here
    refine ⟨works₁, stuck.directory, spare₁, stuck.inside, ?_, ?_, ?_⟩
    · rw [same_number]
      exact stuck.alive
    · rw [same_number]
      exact stuck.away
    · rw [same_ref]
      refine stuck.held.imp_right fun ⟨own, positive, still⟩ => ⟨own, positive, ?_⟩
      rw [same_slot own]
      exact still

/-- Another slot with the parent takes the place of the one that the climb puts. -/
theorem put (stuck : Stuck cfg live s p c t u curr) (below : u ≠ rootInode) (apart : j ≠ c) (inside : j < nInode)
    (number : (s.inodeCache j).inodeNum = u) (still : Still cfg.sb (s.inodeCache j).diskInfo s.disk)
    (held : 0 < (s.inodeCache j).ref) (twice : curr = j → 1 < (s.inodeCache j).ref) :
    Stuck cfg live (s.setInode curr { s.inodeCache curr with ref := (s.inodeCache curr).ref - 1 }) p c t u j := by
  have works₁ := stuck.works.setRef stuck.inside (r := (s.inodeCache curr).ref - 1) fun own => by
    rcases stuck.held with more | ⟨away, -⟩
    · omega
    · exact absurd own away
  have spare₁ : SpareStill cfg (s.setInode curr { s.inodeCache curr with ref := (s.inodeCache curr).ref - 1 }) := by
    intro k insideK free
    by_cases here : k = curr
    · rw [here, FsState.setInode_same] at free ⊢
      exact (stuck.held.resolve_left (by dsimp only at free; omega)).2.2
    · rw [FsState.setInode_other _ _ _ here] at free ⊢
      exact stuck.spare k insideK free
  have slot : ∃ r, 0 < r ∧
      (s.setInode curr { s.inodeCache curr with ref := (s.inodeCache curr).ref - 1 }).inodeCache j =
        { s.inodeCache j with ref := r } := by
    by_cases here : curr = j
    · refine ⟨(s.inodeCache j).ref - 1, Nat.sub_pos_of_lt (twice here), ?_⟩
      rw [here, FsState.setInode_same]
    · refine ⟨(s.inodeCache j).ref, held, ?_⟩
      rw [FsState.setInode_other _ _ _ (Ne.symm here)]
  obtain ⟨r, positive, slot⟩ := slot
  refine ⟨works₁, stuck.directory, spare₁, inside, ?_, ?_, Or.inr ⟨apart, ?_, ?_⟩⟩
  · rw [slot]
    exact number.symm ▸ stuck.live_parent
  · rw [slot]
    exact number.symm ▸ below
  · rw [slot]
    exact positive
  · rw [slot]
    exact still

/-- One round of the climb leads from the slot it stands on to one that holds the parent once more. -/
theorem round (sane : cfg.sb.Sane) (stuck : Stuck cfg live s p c t u curr) (below : u ≠ rootInode)
    (apart : j ≠ c) (taken : takenSlot s u = some j) {s' : FsState} (before : s' = upFrom cfg s c j u) :
    Stuck cfg live (s'.setInode curr { s'.inodeCache curr with ref := (s'.inodeCache curr).ref - 1 }) p c t u j := by
  have parent : s'.inodeCache j = (s.inodeCache j).got u := before ▸ upFrom_parent
  obtain ⟨held, twice⟩ := stuck.taken_ref taken
  rw [← parent] at held twice
  have still : Still cfg.sb (s'.inodeCache j).diskInfo s'.disk := by
    rw [parent, Inode.got_diskInfo, before]
    exact stuck.still_taken sane taken
  have number : (s'.inodeCache j).inodeNum = u := by rw [parent, Inode.got_inodeNum]
  exact (before ▸ stuck.up_from below apart taken).put below apart (takenSlot_lt taken) number still held twice

end Stuck

variable {ip : ℕ}

end Fs

/-! ## Round trips -/

namespace Fs

variable {s : FsState} {live : U32 → Prop} {p c ip : ℕ} {t u : U32}

end Fs

namespace Mkfs

end Mkfs

end LabKernel
