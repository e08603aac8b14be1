import LabKernel.Lib.Program
import LabKernel.Mem.PageTable

/-! # Mapping and unmapping pages

The walk, the mapping and the unmapping of `kvm.c`. On the level of views a walk does nothing, even
when it attaches missing tables; `vm_mappages` sets entries; and `vm_unmappages` clears the valid ones
and returns their pages to the user's pool.
-/

namespace LabKernel

/-- The loop of `vm_getpte` from a level on: the table that holds the entries of the pages. -/
def walk (va : ℕ) (alloc : Bool) : (level : ℕ) → (table : U64) → MemM (Option U64)
  | 0, table => return some table
  | level + 1, table => do
    let idx := vaToVpn va (level + 1)
    let entry := (← get).pte table idx
    if ¬PteHas entry pteV then
      if !alloc then return none
      let newTable ← pmemAlloc true
      let entry := paToPte newTable ||| pteV
      modify (·.setPte table idx entry)
      walk va alloc level (pteToPa entry)
    else if !pteCheck entry then return none
    else walk va alloc level (pteToPa entry)

/-- The table that an argument of `vm_getpte` stands for. -/
def Machine.rootFor (s : Machine) (table : U64) : U64 := if table = 0 then s.kernPagetable else table

/-- `vm_getpte`: the table and the index of the entry. -/
def vmGetpte (table : U64) (va : ℕ) (alloc : Bool) : MemM (Option (U64 × ℕ)) := do
  let s ← get
  if vaMax ≤ va then return none
  match ← walk va alloc 2 (s.rootFor table) with
  | some table => return some (table, vaToVpn va 0)
  | none => return none

/-- The loop of `vm_mappages`. Each round goes up by a page and `vm_getpte` fails above `VA_MAX`, so
there are fewer rounds than the first argument in any case. -/
def mapLoop (table : U64) (perm : U32) (first last : ℕ) : (fuel va : ℕ) → (pa : U64) → MemM Unit
  | 0, _, _ => throw .hang
  | fuel + 1, va, pa => do
    match ← vmGetpte table va true with
    | none => throw (.panic "vm_mappages: failed to get pte")
    | some (t, i) =>
      -- both branches of the source write this entry; `perm` is an `int`
      modify (·.setPte t i (paToPte pa ||| perm.signExtend 64 ||| pteV))
      if va = alignDown last then return ()
      let va := wrap64 (va + pgsize)
      if va < first then return ()
      mapLoop table perm first last fuel va (pa + BitVec.ofNat 64 pgsize)

def vmMappages (table : U64) (va : ℕ) (pa : U64) (len : ℕ) (perm : U32) : MemM Unit := do
  if va % pgsize ≠ 0 then throw (.panic "vm_mappages: virt_addr not aligned")
  if pa.toNat % pgsize ≠ 0 then throw (.panic "vm_mappages: phys_addr not aligned")
  if len = 0 then throw (.panic "vm_mappages: zero length")
  let last := wrap64 (va + len - 1)
  if vaMax ≤ last then throw (.panic "vm_mappages: address overflow")
  mapLoop table perm va last (vaMax / pgsize + 1) va pa

/-- The body of the loop of `vm_unmappages` -/
def unmapPage (ram : Ram) (table : U64) (doFree : Bool) (va : ℕ) : MemM Unit := do
  match ← vmGetpte table va false with
  | none => return ()
  | some (t, i) =>
    let entry := (← get).pte t i
    if PteHas entry pteV then
      if doFree ∧ pteToPa entry ≠ 0 then pmemFree ram (pteToPa entry) false
      modify (·.setPte t i 0)

/-- The loop of `vm_unmappages`, which does not end when its counter wraps around below `end`. -/
def unmapLoop (ram : Ram) (table : U64) (doFree : Bool) (stop : ℕ) : (fuel va : ℕ) → MemM Unit
  | 0, _ => throw .hang
  | fuel + 1, va =>
    if va < stop then do
      unmapPage ram table doFree va
      unmapLoop ram table doFree stop fuel (wrap64 (va + pgsize))
    else return ()

def vmUnmappages (ram : Ram) (table : U64) (va len : ℕ) (doFree : Bool) : MemM Unit := do
  if va % pgsize ≠ 0 then throw (.panic "vm_unmappages: unaligned addr")
  if len = 0 then throw (.panic "vm_unmappages: zero length")
  let stop := wrap64 (va + len)
  unmapLoop ram table doFree stop (stop / pgsize + 2) va

/-- Where a valid entry leads to, and with which flags. -/
def decode (e : U64) : Option (U64 × U64) :=
  if PteHas e pteV then some (pteToPa e, pteFlags e) else none

/-- Where a page table sends an address. -/
def translate (s : Machine) (table : U64) (va : ℕ) : Option (U64 × U64) :=
  match vmGetpte table va false s with
  | .ok (some (t, i)) s => decode (s.pte t i)
  | _ => none

def KernelExhausted (f : Fault) : Prop := f = .panic "pmem_alloc: kernel memory exhausted"

def UserExhausted (f : Fault) : Prop := f = .panic "pmem_alloc: user memory exhausted"

/-! ## The walk -/

/-- The entry that leads to the table of a level on the way to an address. -/
def upperPlace (va : ℕ) : (level : ℕ) → Option Place
  | 0 => some (.sub (.root (vaToVpn va 2)) (vaToVpn va 1))
  | 1 => some (.root (vaToVpn va 2))
  | _ => none

theorem vaToVpn_lt (va level : ℕ) : vaToVpn va level < 512 := Nat.mod_lt _ (by decide)

theorem upperPlace_slot (va : ℕ) {level : ℕ} (bound : level < 2) :
    some (slotPlace (upperPlace va (level + 1)) (vaToVpn va (level + 1))) = upperPlace va level := by
  match level, bound with
  | 0, _ => rfl
  | 1, _ => rfl

theorem upperPlace_upper (va : ℕ) {level : ℕ} (bound : level < 2) :
    (slotPlace (upperPlace va (level + 1)) (vaToVpn va (level + 1))).Upper := by
  match level, bound with
  | 0, _ => exact Place.upper_sub ..
  | 1, _ => exact Place.upper_root _

/-- The three indices of an address are its page number. -/
theorem pagePlace_div {va : ℕ} (low : va < vaMax) :
    pagePlace (va / pgsize) =
      .sub (.sub (.root (vaToVpn va 2)) (vaToVpn va 1)) (vaToVpn va 0) := by
  simp only [vaMax_eq] at low
  simp only [pagePlace, vaToVpn, pgsize_eq, Nat.div_div_eq_div_mul, Nat.reducePow, Nat.reduceMul,
    Nat.reduceAdd]
  rw [Nat.mod_eq_of_lt (show va / 1073741824 < 512 by omega)]

section

variable {ram : Ram} {roots : Set U64} {s : Machine} {root table a : U64} {va : ℕ}

open Machine

/-- Without allocation the walk reads the tree. -/
theorem walk_read {level : ℕ} (bound : level ≤ 2)
    (found : s.tableAt root (upperPlace va level) = some a) :
    walk va false level a s = .ok (s.tableAt root (upperPlace va 0)) s := by
  induction level generalizing a with
  | zero =>
    rw [found]
    rfl
  | succ level ih =>
    have slot := upperPlace_slot va bound
    have next : s.tableAt root (upperPlace va level) = tableOf (s.pte a (vaToVpn va (level + 1))) := by
      rw [← slot]
      exact tableAt_slot (upperPlace_upper va bound) (vaToVpn_lt ..) found
    have below (missing : s.tableAt root (upperPlace va level) = none) :
        s.tableAt root (upperPlace va 0) = none := by
      match level, bound with
      | 0, _ => exact missing
      | 1, _ =>
        simp only [upperPlace] at missing ⊢
        rw [tableAt_some (Place.upper_root _)] at missing
        rw [tableAt_some (Place.upper_sub ..), entry_below missing, tableOf_zero]
    by_cases valid : PteHas (s.pte a (vaToVpn va (level + 1))) pteV
    · rcases check : pteCheck (s.pte a (vaToVpn va (level + 1))) with _ | _
      · have missing := below (by rw [next, tableOf, if_neg (by simp [check])])
        simp only [walk, bind, EStateM.bind, get, getThe, MonadStateOf.get, EStateM.get, valid, check,
          not_true_eq_false, if_false, Bool.not_false, if_true, missing]
        rfl
      · have leads := ih (Nat.le_of_succ_le bound) (next.trans (if_pos ⟨valid, check⟩))
        simp only [walk, bind, EStateM.bind, get, getThe, MonadStateOf.get, EStateM.get, valid, check,
          not_true_eq_false, if_false, Bool.not_true, Bool.false_eq_true, leads]
    · have missing := below (by rw [next, tableOf, if_neg (fun both => valid both.1)])
      simp only [walk, bind, EStateM.bind, get, getThe, MonadStateOf.get, EStateM.get, valid,
        not_false_eq_true, if_true, Bool.not_false, missing]
      rfl

/-- With allocation it finds a table and the view stays. -/
theorem walk_alloc (tables : s.Tables ram roots) (live : root ∈ roots) {level : ℕ}
    (bound : level ≤ 2) (found : s.tableAt root (upperPlace va level) = some a) :
    Ends (walk va true level a) s (fun r s' => ∃ b, r = some b ∧
      s'.tableAt root (upperPlace va 0) = some b ∧ Shows ram roots s (s.view ram roots) s' ∧
      Attaches ram roots root s s') KernelExhausted := by
  induction level generalizing a s with
  | zero => exact ⟨a, rfl, found, .refl tables, .refl ram roots root s⟩
  | succ level ih =>
    have slot := upperPlace_slot va bound
    have upper := upperPlace_upper va bound
    have entry := entry_slot found (vaToVpn_lt va (level + 1))
    have next := tableAt_slot upper (vaToVpn_lt ..) found
    rw [slot] at next
    rw [walk, Ends.bind_iff, Ends.get_iff]
    by_cases valid : PteHas (s.pte a (vaToVpn va (level + 1))) pteV
    · have check := tables.upper root live _ upper (by rwa [entry])
      rw [entry] at check
      simp only [valid, not_true_eq_false, if_false, check, Bool.not_true, Bool.false_eq_true]
      exact ih tables (Nat.le_of_succ_le bound) (next.trans (if_pos ⟨valid, check⟩))
    · simp only [valid, not_false_eq_true, if_true, Bool.not_true, Bool.false_eq_true, if_false]
      rw [Ends.bind_iff, pmemAlloc, Ends.bind_iff, Ends.get_iff, if_pos rfl]
      cases pool : s.kernelPool with
      | nil => exact Ends.throw_iff.mpr rfl
      | cons b rest =>
        simp only [Ends.bind_iff, Ends.set_iff, Ends.pure_iff, Ends.modify_iff]
        have missing : tableOf (s.entry root
            (slotPlace (upperPlace va (level + 1)) (vaToVpn va (level + 1)))) = none := by
          rw [entry, tableOf, if_neg (fun both => valid both.1)]
        obtain ⟨shows, new⟩ := tables.attach live found upper (vaToVpn_lt ..) missing pool
        have attaches := attached_attaches tables live found upper (vaToVpn_lt ..) missing pool
        rw [slot] at new
        have frame := tables.kernelPool b (pool ▸ List.mem_cons_self)
        rw [(table_pte frame.aligned).2.2]
        refine (ih shows.tables (Nat.le_of_succ_le bound) new).mono ?_
        rintro r s' ⟨c, rfl, at_c, after, more⟩
        rw [shows.view] at after
        exact ⟨c, rfl, at_c, shows.trans after, attaches.trans more⟩

theorem vmGetpte_read (low : va < vaMax) :
    vmGetpte table va false s =
      .ok ((s.tableAt (s.rootFor table) (upperPlace va 0)).map (·, vaToVpn va 0)) s := by
  have read : walk va false 2 (s.rootFor table) s =
      .ok (s.tableAt (s.rootFor table) (upperPlace va 0)) s :=
    walk_read (Nat.le_refl 2) (show s.tableAt (s.rootFor table) none = _ from rfl)
  simp only [vmGetpte, bind, EStateM.bind, get, getThe, MonadStateOf.get, EStateM.get,
    if_neg (Nat.not_le.mpr low), read]
  cases s.tableAt (s.rootFor table) (upperPlace va 0) <;> rfl

/-- The entry that the walk leads to. -/
theorem leaf_of_table (low : va < vaMax) (found : s.tableAt root (upperPlace va 0) = some a) :
    s.pte a (vaToVpn va 0) = s.leaf root (va / pgsize) := by
  rw [leaf, pagePlace_div low, ← entry_slot found (vaToVpn_lt ..)]
  rfl

theorem leaf_of_missing (low : va < vaMax) (missing : s.tableAt root (upperPlace va 0) = none) :
    s.leaf root (va / pgsize) = 0 := by
  rw [upperPlace, tableAt_some (Place.upper_sub ..)] at missing
  rw [leaf, pagePlace_div low, entry_below missing]

theorem not_pteHas_zero (bit : U64) : ¬PteHas 0 bit := by simp [PteHas]

/-- `vm_getpte` reads the map that the tree stands for. -/
theorem translate_eq (low : va < vaMax) :
    translate s table va = decode (s.leaf (s.rootFor table) (va / pgsize)) := by
  simp only [translate, vmGetpte_read low]
  cases found : s.tableAt (s.rootFor table) (upperPlace va 0) with
  | none =>
    rw [leaf_of_missing low found, decode, if_neg (not_pteHas_zero pteV)]
    rfl
  | some a =>
    rw [← leaf_of_table low found]
    rfl

theorem translate_high (high : vaMax ≤ va) : translate s table va = none := by
  simp only [translate, vmGetpte, bind, EStateM.bind, get, getThe, MonadStateOf.get, EStateM.get,
    if_pos high]
  rfl

theorem vmGetpte_alloc (tables : s.Tables ram roots) (live : s.rootFor table ∈ roots)
    (low : va < vaMax) :
    Ends (vmGetpte table va true) s (fun r s' => ∃ t, r = some (t, vaToVpn va 0) ∧
      s'.tableAt (s.rootFor table) (upperPlace va 0) = some t ∧
      Shows ram roots s (s.view ram roots) s' ∧ Attaches ram roots (s.rootFor table) s s')
      KernelExhausted := by
  rw [vmGetpte, Ends.bind_iff, Ends.get_iff]
  simp only [if_neg (Nat.not_le.mpr low)]
  rw [Ends.bind_iff]
  refine (walk_alloc tables live (Nat.le_refl 2) rfl).mono ?_
  rintro r s' ⟨t, rfl, found, shows, attaches⟩
  exact ⟨t, rfl, found, shows, attaches⟩

end

end LabKernel
