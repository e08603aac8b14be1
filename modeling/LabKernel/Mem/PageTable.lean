import LabKernel.Lib.TableForest
import LabKernel.Mem.Machine

/-! # Page tables

What the page tables in physical memory are for: a table tree is a map from pages to entries. The
tables of several trees form a forest; `Tables` says that each table has a page of the kernel's pool
to itself. A `View` keeps the maps, the user's pages and the descriptors, and leaves out where the
tables are: attaching a missing table does not change the view, and writing an entry of the lowest
level changes one map at one page.
-/

namespace LabKernel

/-- The table that an entry of an upper table points to. -/
def tableOf (e : U64) : Option U64 := if PteHas e pteV ∧ pteCheck e then some (pteToPa e) else none

@[simp] theorem tableOf_zero : tableOf 0 = none := by decide

/-- Levels of tables above the table that holds an entry. -/
def Place.depth : Place → ℕ
  | .root _ => 0
  | .sub q _ => q.depth + 1

/-- The entry belongs to a table of one of the two upper levels. -/
def Place.Upper (p : Place) : Prop := p.depth < 2

theorem Place.upper_root (i : ℕ) : (Place.root i).Upper := Nat.succ_pos 1

theorem Place.upper_sub (i j : ℕ) : (Place.sub (.root i) j).Upper := Nat.lt_succ_self 1

private theorem Place.upper_closed (q : Place) (j : ℕ) : (Place.sub q j).Upper → q.Upper := Nat.lt_of_succ_lt

private theorem Place.within_of_depth {p : Place} (bound : p.depth ≤ 2) : Forest.Within Place.Upper p := by
  cases p with
  | root i => trivial
  | sub q j => exact bound

/-- Entry `j` of the root table, or of the table below `q`. -/
def slotPlace : Option Place → ℕ → Place
  | none, j => .root j
  | some q, j => .sub q j

private theorem slotPlace_inj {q q' : Option Place} {j j' : ℕ} :
    slotPlace q j = slotPlace q' j' ↔ q = q' ∧ j = j' := by
  cases q <;> cases q' <;> simp [slotPlace]

/-- The place of the entry of a page, given by its number. -/
def pagePlace (v : ℕ) : Place := .sub (.sub (.root (v / 2 ^ 18)) (v / 512 % 512)) (v % 512)

private theorem pagePlace_depth (v : ℕ) : (pagePlace v).depth = 2 := rfl

private theorem pagePlace_inj {v w : ℕ} : pagePlace v = pagePlace w ↔ v = w := by
  refine ⟨fun same => ?_, fun same => same ▸ rfl⟩
  simp only [pagePlace, Place.sub.injEq, Place.root.injEq] at same
  omega

namespace Machine

/-- The tables at all addresses; a table has 512 entries. -/
def forest (s : Machine) : Forest U64 U64 U64 where
  root a i := if i < 512 then s.pte a i else 0
  table a i := if i < 512 then s.pte a i else 0

/-- The entry at a place of a table tree, 0 if a table on the way is missing. -/
def entry (s : Machine) (root : U64) (p : Place) : U64 := s.forest.entry tableOf 0 root p

/-- A table tree as a map from page numbers to entries. -/
def leaf (s : Machine) (root : U64) (v : ℕ) : U64 := s.entry root (pagePlace v)

/-- The root table, or the table below an entry. -/
def tableAt (s : Machine) (root : U64) : Option Place → Option U64
  | none => some root
  | some q => if q.depth < 2 then tableOf (s.entry root q) else none

/-- Each table of the given trees has a page of the kernel's pool to itself, free pages are in their
own pool, and upper entries point to tables. -/
structure Tables (ram : Ram) (roots : Set U64) (s : Machine) : Prop where
  userPool : ∀ a ∈ s.userPool, ram.UserFrame a
  kernelPool : ∀ a ∈ s.kernelPool, ram.KernelFrame a
  nodup : s.kernelPool.Nodup
  frame : ∀ r ∈ roots, ∀ q a, s.tableAt r q = some a → ram.KernelFrame a
  busy : ∀ r ∈ roots, ∀ q a, s.tableAt r q = some a → a ∉ s.kernelPool
  once : ∀ r ∈ roots, ∀ r' ∈ roots, ∀ q q' a, s.tableAt r q = some a → s.tableAt r' q' = some a →
    r = r' ∧ q = q'
  upper : ∀ r ∈ roots, ∀ q, q.depth < 2 → PteHas (s.entry r q) pteV → pteCheck (s.entry r q) = true

variable {s s' : Machine} {ram : Ram} {roots : Set U64} {root a b : U64} {q : Option Place}

theorem leaf_congr (same : ∀ p : Place, p.depth ≤ 2 → s'.entry root p = s.entry root p) (v : ℕ) :
    s'.leaf root v = s.leaf root v := same _ (Nat.le_of_eq (pagePlace_depth v))

theorem tableAt_some {p : Place} (upper : p.Upper) :
    s.tableAt root (some p) = tableOf (s.entry root p) := if_pos upper

theorem entry_slot (table : s.tableAt root q = some a) {j : ℕ} (bound : j < 512) :
    s.entry root (slotPlace q j) = s.pte a j := by
  cases q with
  | none =>
    obtain rfl : root = a := Option.some.inj table
    simp only [slotPlace, entry, Forest.entry, forest, if_pos bound]
  | some q =>
    simp only [tableAt] at table
    split at table
    · simp only [entry] at table
      simp only [slotPlace, entry, Forest.entry, table]
      exact if_pos bound
    · cases table

/-- Below an entry that points to no table there is nothing. -/
theorem entry_below {p : Place} (missing : tableOf (s.entry root p) = none) (j : ℕ) :
    s.entry root (.sub p j) = 0 := by
  simp only [entry] at missing
  simp only [entry, Forest.entry, missing]

theorem tableAt_slot {j : ℕ} (upper : (slotPlace q j).depth < 2) (bound : j < 512)
    (table : s.tableAt root q = some a) :
    s.tableAt root (some (slotPlace q j)) = tableOf (s.pte a j) := by
  rw [tableAt_some upper, entry_slot table bound]

/-- A table tree depends on its own tables only. -/
theorem entry_of_apart (tables : ∀ q a, s.tableAt root q = some a → ∀ j, s'.pte a j = s.pte a j)
    {p : Place} (bound : p.depth ≤ 2) : s'.entry root p = s.entry root p := by
  refine Forest.entry_congr Place.upper_closed ?_ ?_ (Place.within_of_depth bound)
  · intro i
    simp only [forest, tables none root rfl]
  · intro q a j upper points
    simp only [forest, tables (some q) a ((if_pos upper).trans points)]

theorem tableAt_of_entry (entries : ∀ p : Place, p.depth ≤ 2 → s'.entry root p = s.entry root p) :
    s'.tableAt root q = s.tableAt root q := by
  cases q with
  | none => rfl
  | some q =>
    simp only [tableAt]
    split
    · rw [entries q (by omega)]
    · rfl

/-- What the trees are depends on the pools and the entries. -/
theorem Tables.congr (tables : s.Tables ram roots) (users : ∀ a ∈ s'.userPool, ram.UserFrame a)
    (free : s'.kernelPool.Sublist s.kernelPool)
    (entries : ∀ r ∈ roots, ∀ p, p.depth ≤ 2 → s'.entry r p = s.entry r p) :
    s'.Tables ram roots where
  userPool := users
  kernelPool a within := tables.kernelPool a (free.subset within)
  nodup := tables.nodup.sublist free
  frame r live q a table := by
    rw [tableAt_of_entry (entries r live)] at table
    exact tables.frame r live q a table
  busy r live q a table within := by
    rw [tableAt_of_entry (entries r live)] at table
    exact tables.busy r live q a table (free.subset within)
  once r live r' live' q q' a first second := by
    rw [tableAt_of_entry (entries r live)] at first
    rw [tableAt_of_entry (entries r' live')] at second
    exact tables.once r live r' live' q q' a first second
  upper r live q bound valid := by
    rw [entries r live q (by omega)] at valid ⊢
    exact tables.upper r live q bound valid

/-- A page without a table can change freely. -/
theorem setPage_entry (page : Bytes) (apart : ∀ q, s.tableAt root q ≠ some a) {p : Place}
    (bound : p.depth ≤ 2) : (s.setPage a page).entry root p = s.entry root p := by
  refine entry_of_apart (fun q b table j => setPage_pte_other page j ?_) bound
  rintro rfl
  exact apart q table

/-- The tables are in the pages: descriptors and regions do not matter. -/
theorem entry_of_pages (pages : s'.pages = s.pages) (root : U64) (p : Place) :
    s'.entry root p = s.entry root p := by
  simp only [entry, forest, pte, pages]

theorem Tables.of_pages (tables : s.Tables ram roots) (pages : s'.pages = s.pages)
    (user : s'.userPool = s.userPool) (kernel : s'.kernelPool = s.kernelPool) :
    s'.Tables ram roots :=
  tables.congr (user ▸ tables.userPool) (kernel ▸ List.Sublist.refl _)
    fun r _ p _ => entry_of_pages pages r p

/-- A user page holds no table. -/
theorem Tables.user_apart (tables : s.Tables ram roots) (user : ram.UserFrame a) (live : root ∈ roots)
    (q : Option Place) : s.tableAt root q ≠ some a :=
  fun table => (tables.frame root live q a table).not_user user

/-- A free page of the kernel's pool holds no table. -/
theorem Tables.free_apart (tables : s.Tables ram roots) (free : a ∈ s.kernelPool)
    (live : root ∈ roots) (q : Option Place) : s.tableAt root q ≠ some a :=
  fun table => tables.busy root live q a table free

/-- Writing an entry of a table changes the entry at its place and no other. -/
theorem Tables.setPte_entry (tables : s.Tables ram roots) (live : root ∈ roots)
    (table : s.tableAt root q = some a) {j : ℕ} (bound : j < 512) {e : U64}
    (fresh : (slotPlace q j).Upper → tableOf (s.entry root (slotPlace q j)) = none ∧
      ∀ b i, tableOf e = some b → b ≠ a ∧ s.pte b i = 0)
    {r : U64} (other : r ∈ roots) {p : Place} (depth : p.depth ≤ 2) :
    (s.setPte a j e).entry r p = if r = root ∧ p = slotPlace q j then e else s.entry r p := by
  classical
  have here (r : U64) (other : r ∈ roots) (q' : Option Place) (i : ℕ) (b : U64)
      (found : s.tableAt r q' = some b) :
      (if i < 512 then (s.setPte a j e).pte b i else 0) =
        if r = root ∧ slotPlace q' i = slotPlace q j then e
          else if i < 512 then s.pte b i else 0 := by
    rcases eq_or_ne b a with rfl | apart
    · obtain ⟨rfl, rfl⟩ := tables.once r other root live q' q b found table
      rw [setPte_pte_same]
      simp only [slotPlace_inj, true_and]
      rcases eq_or_ne i j with rfl | differ
      · simp [bound]
      · simp [differ]
    · have elsewhere : ¬(r = root ∧ slotPlace q' i = slotPlace q j) := by
        rintro ⟨rfl, same⟩
        obtain ⟨rfl, -⟩ := slotPlace_inj.mp same
        exact apart (Option.some.inj (found.symm.trans table))
      rw [if_neg elsewhere, setPte, setPage_pte_other _ i apart]
  let F (s : Machine) : Forest roots U64 U64 := ⟨fun r => s.forest.root r, s.forest.table⟩
  have view (s : Machine) (r : roots) (p : Place) :
      (F s).entry tableOf 0 r p = s.entry r p := Forest.entry_comap Subtype.val s.forest r p
  have write : Forest.Overwrite tableOf 0 Place.Upper (F s) (F (s.setPte a j e)) ⟨root, live⟩
      (slotPlace q j) e := by
    constructor
    · intro r i
      refine (here r r.2 none i r rfl).trans ?_
      simp only [Subtype.ext_iff]
      rfl
    · intro r q' b i upper points
      rw [view] at points
      refine (here r r.2 (some q') i b ((if_pos upper).trans points)).trans ?_
      simp only [Subtype.ext_iff]
      rfl
    · intro q' i place
      obtain ⟨rfl, -⟩ := slotPlace_inj.mp (show slotPlace q j = slotPlace (some q') i from place)
      rw [view]
      simp only [tableAt] at table
      split at table
      · intro missing
        cases missing.symm.trans table
      · cases table
    · intro upper
      rw [view]
      obtain ⟨missing, empty⟩ := fresh upper
      refine ⟨missing, fun b i points => ?_⟩
      obtain ⟨apart, zero⟩ := empty b i points
      change (if i < 512 then (s.setPte a j e).pte b i else 0) = 0
      rw [setPte, setPage_pte_other _ i apart, zero, ite_self]
  have result := write.entry_eq Place.upper_closed ⟨r, other⟩ (Place.within_of_depth depth)
  rw [view, view] at result
  simpa only [Subtype.mk.injEq] using result

end Machine

/-! ## Views -/

/-- The maps of the page tables, the user's pages, and the descriptors. -/
structure View where
  leaf : U64 → ℕ → U64
  page : U64 → Bytes
  userPool : List U64
  freeRegions : List ℕ
  kernPagetable : U64
  proc : ℕ → Option ProcMem

namespace View

def setLeaf (w : View) (root : U64) (v : ℕ) (e : U64) : View :=
  { w with leaf := fun r v' => if r = root ∧ v' = v then e else w.leaf r v' }

def setPage (w : View) (a : U64) (page : Bytes) : View :=
  { w with page := Function.update w.page a page }

end View

namespace Machine

open Classical in
/-- What the trees at the given roots and the user's memory look like. -/
noncomputable def view (ram : Ram) (roots : Set U64) (s : Machine) : View where
  leaf r v := if r ∈ roots then s.leaf r v else 0
  page a := if ram.UserFrame a then s.pages a else fun _ => 0
  userPool := s.userPool
  freeRegions := s.freeRegions
  kernPagetable := s.kernPagetable
  proc := s.proc

/-- A state with sound trees and a view of its own, in which the kernel's pool has only lost
pages. -/
structure Shows (ram : Ram) (roots : Set U64) (s : Machine) (w : View) (s' : Machine) : Prop where
  tables : s'.Tables ram roots
  view : s'.view ram roots = w
  pool : s'.kernelPool <:+ s.kernelPool

variable {s s' s'' : Machine} {ram : Ram} {roots : Set U64} {root a b : U64} {q : Option Place}
  {w w' : View}

theorem view_leaf (live : root ∈ roots) (v : ℕ) : (s.view ram roots).leaf root v = s.leaf root v :=
  if_pos live

theorem view_page (user : ram.UserFrame a) : (s.view ram roots).page a = s.pages a := if_pos user

theorem Shows.refl (tables : s.Tables ram roots) : Shows ram roots s (s.view ram roots) s :=
  ⟨tables, rfl, List.suffix_rfl⟩

theorem Shows.trans (first : Shows ram roots s w s') (second : Shows ram roots s' w' s'') :
    Shows ram roots s w' s'' := ⟨second.tables, second.view, second.pool.trans first.pool⟩

private theorem view_eq (leaves : ∀ r ∈ roots, ∀ v, s'.leaf r v = w.leaf r v)
    (dead : ∀ r ∉ roots, ∀ v, w.leaf r v = 0)
    (pages : ∀ a, ram.UserFrame a → s'.pages a = w.page a)
    (other : ∀ a, ¬ram.UserFrame a → w.page a = fun _ => 0)
    (userPool : s'.userPool = w.userPool) (freeRegions : s'.freeRegions = w.freeRegions)
    (kernPagetable : s'.kernPagetable = w.kernPagetable) (proc : s'.proc = w.proc) :
    s'.view ram roots = w := by
  have leaf : (s'.view ram roots).leaf = w.leaf := by
    funext r v
    by_cases live : r ∈ roots
    · exact (if_pos live).trans (leaves r live v)
    · exact (if_neg live).trans (dead r live v).symm
  have page : (s'.view ram roots).page = w.page := by
    funext a
    by_cases user : ram.UserFrame a
    · exact (if_pos user).trans (pages a user)
    · exact (if_neg user).trans (other a user).symm
  obtain ⟨_, _, _, _, _, _⟩ := w
  subst leaf page userPool freeRegions kernPagetable proc
  rfl

/-- The state with a page of the kernel's pool attached as a table -/
def attached (s : Machine) (a b : U64) (j : ℕ) (rest : List U64) : Machine :=
  (({ s with kernelPool := rest } : Machine).setPage b fun _ => 0).setPte a j (paToPte b ||| pteV)

section

variable (tables : s.Tables ram roots) (live : root ∈ roots) (table : s.tableAt root q = some a) {j : ℕ}
  (upper : (slotPlace q j).Upper) (bound : j < 512)
  (missing : tableOf (s.entry root (slotPlace q j)) = none) {rest : List U64}
  (pool : s.kernelPool = b :: rest)
include tables live table upper bound missing pool

private theorem attached_entry {r : U64} (other : r ∈ roots) {p : Place} (depth : p.depth ≤ 2) :
    (s.attached a b j rest).entry r p =
      if r = root ∧ p = slotPlace q j then paToPte b ||| pteV else s.entry r p := by
  have free : b ∈ s.kernelPool := pool ▸ List.mem_cons_self
  have frame := tables.kernelPool b free
  obtain ⟨valid, check, back⟩ := table_pte frame.aligned
  have points : tableOf (paToPte b ||| pteV) = some b := by rw [tableOf, if_pos ⟨valid, check⟩, back]
  set s₁ := ({ s with kernelPool := rest } : Machine).setPage b fun _ => 0
  have cleared (r : U64) (other : r ∈ roots) (p : Place) (depth : p.depth ≤ 2) :
      s₁.entry r p = s.entry r p :=
    setPage_entry (s := { s with kernelPool := rest }) _ (tables.free_apart free other) depth
  have kept : s₁.Tables ram roots := by
    refine tables.congr tables.userPool ?_ cleared
    rw [pool]
    exact List.sublist_cons_self b rest
  have table₁ : s₁.tableAt root q = some a := by
    rw [tableAt_of_entry (cleared root live)]
    exact table
  have apart : b ≠ a := fun same => tables.free_apart free live q (same ▸ table)
  rw [← cleared r other p depth]
  refine kept.setPte_entry live table₁ bound (fun _ => ?_) other depth
  refine ⟨by rw [cleared root live _ (Nat.le_of_lt upper)]; exact missing, fun c i leads => ?_⟩
  obtain rfl : b = c := Option.some.inj (points.symm.trans leads)
  exact ⟨apart, setPage_pte_zero _ _ i⟩

theorem attached_tableAt {r : U64} (other : r ∈ roots) (q' : Option Place) :
    (s.attached a b j rest).tableAt r q' =
      if r = root ∧ q' = some (slotPlace q j) then some b else s.tableAt r q' := by
  obtain ⟨valid, check, back⟩ := table_pte (tables.kernelPool b (pool ▸ List.mem_cons_self)).aligned
  have points : tableOf (paToPte b ||| pteV) = some b := by rw [tableOf, if_pos ⟨valid, check⟩, back]
  cases q' with
  | none => simp [tableAt]
  | some p =>
    simp only [tableAt, Option.some.injEq]
    by_cases shallow : p.depth < 2
    · rw [if_pos shallow, if_pos shallow,
        attached_entry tables live table upper bound missing pool other (by omega)]
      split
      · exact points
      · rfl
    · have differ : ¬(r = root ∧ p = slotPlace q j) := fun same => shallow (same.2 ▸ upper)
      rw [if_neg shallow, if_neg shallow, if_neg differ]

/-- A missing table is attached. -/
theorem Tables.attach : Shows ram roots s (s.view ram roots) (s.attached a b j rest) ∧
    (s.attached a b j rest).tableAt root (some (slotPlace q j)) = some b := by
  have free : b ∈ s.kernelPool := pool ▸ List.mem_cons_self
  have frame := tables.kernelPool b free
  obtain ⟨-, check, -⟩ := table_pte frame.aligned
  have entries {r : U64} (other : r ∈ roots) {p : Place} (depth : p.depth ≤ 2) :=
    attached_entry tables live table upper bound missing pool other depth
  have found {r : U64} (other : r ∈ roots) (q' : Option Place) :=
    attached_tableAt tables live table upper bound missing pool other q'
  have new : (s.attached a b j rest).tableAt root (some (slotPlace q j)) = some b := by
    rw [found live, if_pos ⟨rfl, rfl⟩]
  refine ⟨⟨?_, ?_, ?_⟩, new⟩
  · constructor
    · exact tables.userPool
    · exact fun c within => tables.kernelPool c (pool ▸ List.mem_cons_of_mem b within)
    · have nodup := tables.nodup
      rw [pool] at nodup
      exact (List.nodup_cons.mp nodup).2
    · intro r other q' c at_c
      rw [found other] at at_c
      split at at_c
      · exact Option.some.inj at_c ▸ frame
      · exact tables.frame r other q' c at_c
    · intro r other q' c at_c within
      have nodup := tables.nodup
      rw [pool] at nodup
      rw [found other] at at_c
      split at at_c
      · exact (List.nodup_cons.mp nodup).1 (Option.some.inj at_c ▸ within)
      · exact tables.busy r other q' c at_c (pool ▸ List.mem_cons_of_mem b within)
    · intro r other r' other' q' q'' c first second
      rw [found other] at first
      rw [found other'] at second
      split at first <;> split at second
      case isTrue.isTrue here there => exact ⟨here.1.trans there.1.symm, here.2.trans there.2.symm⟩
      case isTrue.isFalse =>
        cases first
        exact absurd second (tables.free_apart free other' q'')
      case isFalse.isTrue =>
        cases second
        exact absurd first (tables.free_apart free other q')
      case isFalse.isFalse => exact tables.once r other r' other' q' q'' c first second
    · intro r other p shallow holds
      rw [entries other (by omega)] at holds ⊢
      split
      · exact check
      · rw [if_neg ‹_›] at holds
        exact tables.upper r other p shallow holds
  · refine view_eq (fun r other v => ?_) (fun r dead v => if_neg dead) (fun c user => ?_)
      (fun c not => if_neg not) rfl rfl rfl rfl
    · rw [view_leaf other, leaf, entries other (Nat.le_of_eq (pagePlace_depth v)), if_neg]
      · rfl
      · rintro ⟨-, same⟩
        have depth := pagePlace_depth v
        rw [same] at depth
        exact absurd upper (by simp only [Place.Upper, depth]; omega)
    · have notB : c ≠ b := fun same => frame.not_user (same ▸ user)
      have notA : c ≠ a := fun same => (tables.frame root live q a table).not_user (same ▸ user)
      rw [view_page user]
      exact (Function.update_of_ne notA ..).trans (Function.update_of_ne notB ..)
  · rw [pool]
    exact List.suffix_cons b rest

end

/-- The pages of the kernel's pool and of the tables of some trees -/
def kernelUse (s : Machine) (roots : Set U64) : Set U64 :=
  {a | a ∈ s.kernelPool ∨ ∃ r ∈ roots, ∃ q, s.tableAt r q = some a}

/-- What is in use depends on the pool and the tables. -/
theorem kernelUse_congr (pool : s'.kernelPool = s.kernelPool)
    (found : ∀ r ∈ roots, ∀ q, s'.tableAt r q = s.tableAt r q) : s'.kernelUse roots = s.kernelUse roots := by
  refine Set.ext fun a => or_congr (by rw [pool]) (exists_congr fun r => and_congr_right fun live => ?_)
  simp only [found r live]

/-- A step that attaches free pages to one tree, touches no table of the others, and writes to no page
apart from those and the user's -/
structure Attaches (ram : Ram) (roots : Set U64) (root : U64) (s s' : Machine) : Prop where
  use : s'.kernelUse roots = s.kernelUse roots
  other : ∀ r ∈ roots, r ≠ root → ∀ q, s'.tableAt r q = s.tableAt r q
  spared : ∀ a, ¬ram.UserFrame a → a ∉ s.kernelUse roots → s'.pages a = s.pages a

theorem Attaches.refl (ram : Ram) (roots : Set U64) (root : U64) (s : Machine) :
    Attaches ram roots root s s := ⟨rfl, fun _ _ _ _ => rfl, fun _ _ _ => rfl⟩

theorem Attaches.trans (first : Attaches ram roots root s s') (second : Attaches ram roots root s' s'') :
    Attaches ram roots root s s'' :=
  ⟨second.use.trans first.use,
    fun r live other q => (second.other r live other q).trans (first.other r live other q),
    fun a user apart => (second.spared a user (first.use ▸ apart)).trans (first.spared a user apart)⟩

theorem attached_attaches (tables : s.Tables ram roots) (live : root ∈ roots)
    (table : s.tableAt root q = some a) {j : ℕ} (upper : (slotPlace q j).Upper) (bound : j < 512)
    (missing : tableOf (s.entry root (slotPlace q j)) = none) {rest : List U64}
    (pool : s.kernelPool = b :: rest) : Attaches ram roots root s (s.attached a b j rest) := by
  have found {r : U64} (other : r ∈ roots) (q' : Option Place) :=
    attached_tableAt tables live table upper bound missing pool other q'
  have absent : s.tableAt root (some (slotPlace q j)) = none := (tableAt_some upper).trans missing
  refine ⟨Set.ext fun c => ?_, fun r other differ q' => ?_, fun c user apart => ?_⟩
  · constructor
    · rintro (free | ⟨r, other, q', at_c⟩)
      · exact .inl (pool ▸ List.mem_cons_of_mem b free)
      · rw [found other] at at_c
        split at at_c
        · exact .inl (pool ▸ Option.some.inj at_c ▸ List.mem_cons_self)
        · exact .inr ⟨r, other, q', at_c⟩
    · rintro (free | ⟨r, other, q', at_c⟩)
      · rw [pool] at free
        rcases List.mem_cons.mp free with rfl | free
        · exact .inr ⟨root, live, some (slotPlace q j), by rw [found live, if_pos ⟨rfl, rfl⟩]⟩
        · exact .inl free
      · refine .inr ⟨r, other, q', ?_⟩
        rw [found other, if_neg, at_c]
        rintro ⟨rfl, rfl⟩
        cases absent.symm.trans at_c
  · rw [found other, if_neg fun both => differ both.1]
  · have notB : c ≠ b := by
      rintro rfl
      exact apart (.inl (pool ▸ List.mem_cons_self))
    have notA : c ≠ a := by
      rintro rfl
      exact apart (.inr ⟨root, live, q, table⟩)
    exact (setPage_other _ notA).trans (setPage_other _ notB)

/-- Writing an entry of the lowest level changes the entry at its place and no other. -/
theorem Tables.setLeaf_entry (tables : s.Tables ram roots) (live : root ∈ roots) {p : Place}
    (table : s.tableAt root (some p) = some a) {j : ℕ} (bound : j < 512)
    (depth : (Place.sub p j).depth = 2) (e : U64) {r : U64} (other : r ∈ roots) {p' : Place}
    (within : p'.depth ≤ 2) :
    (s.setPte a j e).entry r p' = if r = root ∧ p' = .sub p j then e else s.entry r p' :=
  tables.setPte_entry live table bound (fun upper => by
    have deep : (slotPlace (some p) j).depth < 2 := upper
    rw [slotPlace, depth] at deep
    exact absurd deep (Nat.lt_irrefl 2)) other within

private theorem Tables.setLeaf_shallow (tables : s.Tables ram roots) (live : root ∈ roots) {p : Place}
    (table : s.tableAt root (some p) = some a) {j : ℕ} (bound : j < 512)
    (depth : (Place.sub p j).depth = 2) (e : U64) {r : U64} (other : r ∈ roots) {p' : Place}
    (within : p'.depth < 2) : (s.setPte a j e).entry r p' = s.entry r p' := by
  rw [tables.setLeaf_entry live table bound depth e other (by omega), if_neg]
  rintro ⟨-, rfl⟩
  omega

theorem Tables.setLeaf_tableAt (tables : s.Tables ram roots) (live : root ∈ roots) {p : Place}
    (table : s.tableAt root (some p) = some a) {j : ℕ} (bound : j < 512)
    (depth : (Place.sub p j).depth = 2) (e : U64) {r : U64} (other : r ∈ roots) (q' : Option Place) :
    (s.setPte a j e).tableAt r q' = s.tableAt r q' := by
  cases q' with
  | none => rfl
  | some p' =>
    simp only [tableAt]
    split
    · rw [tables.setLeaf_shallow live table bound depth e other ‹_›]
    · rfl

/-- An entry of the lowest level is written. -/
theorem Tables.setLeaf (tables : s.Tables ram roots) (live : root ∈ roots) {p : Place}
    (table : s.tableAt root (some p) = some a) {j v : ℕ} (bound : j < 512)
    (page : pagePlace v = .sub p j) (e : U64) :
    Shows ram roots s ((s.view ram roots).setLeaf root v e) (s.setPte a j e) := by
  have depth : (Place.sub p j).depth = 2 := by rw [← page, pagePlace_depth]
  have entries (r : U64) (other : r ∈ roots) (p' : Place) (within : p'.depth ≤ 2) :=
    tables.setLeaf_entry live table bound depth e other within
  have shallow (r : U64) (other : r ∈ roots) (p' : Place) (within : p'.depth < 2) :=
    tables.setLeaf_shallow live table bound depth e other within
  have found (r : U64) (other : r ∈ roots) (q' : Option Place) :=
    tables.setLeaf_tableAt live table bound depth e other q'
  refine ⟨?_, ?_, List.suffix_rfl⟩
  · constructor
    · exact tables.userPool
    · exact tables.kernelPool
    · exact tables.nodup
    · intro r other q' c at_c
      exact tables.frame r other q' c (found r other q' ▸ at_c)
    · intro r other q' c at_c
      exact tables.busy r other q' c (found r other q' ▸ at_c)
    · intro r other r' other' q' q'' c first second
      exact tables.once r other r' other' q' q'' c (found r other q' ▸ first)
        (found r' other' q'' ▸ second)
    · intro r other p' within
      rw [shallow r other p' within]
      exact tables.upper r other p' within
  · refine view_eq (fun r other v' => ?_) (fun r dead v' => ?_) (fun c user => ?_)
      (fun c not => if_neg not) rfl rfl rfl rfl
    · rw [leaf, entries r other _ (Nat.le_of_eq (pagePlace_depth v')), View.setLeaf, ← page]
      simp only [pagePlace_inj, view_leaf other]
      rfl
    · have differ : ¬(r = root ∧ v' = v) := fun same => dead (same.1 ▸ live)
      exact (if_neg differ).trans (if_neg dead)
    · have notA : c ≠ a := fun same => (tables.frame root live (some p) a table).not_user (same ▸ user)
      exact (Function.update_of_ne notA ..).trans (@view_page s ram roots c user).symm

/-- The state with a page taken from the kernel's pool and cleared -/
def taken (s : Machine) (a : U64) (rest : List U64) : Machine :=
  ({ s with kernelPool := rest } : Machine).setPage a fun _ => 0

private theorem taken_entry (tables : s.Tables ram roots) {rest : List U64} (pool : s.kernelPool = a :: rest)
    {r : U64} (other : r ∈ roots) {p : Place} (depth : p.depth ≤ 2) :
    (s.taken a rest).entry r p = s.entry r p :=
  setPage_entry (s := { s with kernelPool := rest }) _
    (tables.free_apart (pool ▸ List.mem_cons_self) other) depth

theorem taken_tableAt (tables : s.Tables ram roots) {rest : List U64} (pool : s.kernelPool = a :: rest)
    {r : U64} (other : r ∈ roots) (q : Option Place) : (s.taken a rest).tableAt r q = s.tableAt r q :=
  tableAt_of_entry fun _ depth => taken_entry tables pool other depth

theorem taken_empty (s : Machine) (a : U64) (rest : List U64) (p : Place) :
    (s.taken a rest).entry a p = 0 := by
  induction p with
  | root i =>
    simp only [entry, Forest.entry, forest, taken]
    rw [setPage_pte_zero, ite_self]
  | sub q j ih => exact entry_below (by rw [ih, tableOf_zero]) j

/-- The new tree has its root table only. -/
theorem taken_only {rest : List U64} (found : (s.taken a rest).tableAt a q = some b) :
    q = none ∧ b = a := by
  cases q with
  | none => exact ⟨rfl, (Option.some.inj found).symm⟩
  | some q => simp only [tableAt, taken_empty, tableOf_zero, ite_self, reduceCtorEq] at found

theorem taken_use (tables : s.Tables ram roots) {rest : List U64} (pool : s.kernelPool = a :: rest) :
    (s.taken a rest).kernelUse (insert a roots) = s.kernelUse roots := by
  refine Set.ext fun b => ?_
  constructor
  · rintro (free | ⟨r, rfl | other, q, found⟩)
    · exact .inl (pool ▸ List.mem_cons_of_mem a free)
    · exact .inl (pool ▸ (taken_only found).2 ▸ List.mem_cons_self)
    · exact .inr ⟨r, other, q, taken_tableAt tables pool other q ▸ found⟩
  · rintro (free | ⟨r, other, q, found⟩)
    · rw [pool] at free
      rcases List.mem_cons.mp free with rfl | free
      · exact .inr ⟨b, .inl rfl, none, rfl⟩
      · exact .inl free
    · exact .inr ⟨r, .inr other, q, (taken_tableAt tables pool other q).trans found⟩

/-- A page is taken from the kernel's pool and cleared: an empty tree. -/
theorem Tables.takeKernel (tables : s.Tables ram roots) {rest : List U64}
    (pool : s.kernelPool = a :: rest) :
    Shows ram (insert a roots) s (s.view ram roots) (s.taken a rest) ∧ a ∉ roots ∧ ram.KernelFrame a := by
  have free : a ∈ s.kernelPool := pool ▸ List.mem_cons_self
  have frame := tables.kernelPool a free
  have fresh : a ∉ roots := fun live => tables.busy a live none a rfl free
  have nodup : a ∉ rest ∧ rest.Nodup := List.nodup_cons.mp (pool ▸ tables.nodup)
  have sub : ∀ b ∈ rest, b ∈ s.kernelPool := fun b within => pool ▸ List.mem_cons_of_mem a within
  have old {r : U64} (other : r ∈ roots) (q : Option Place) := taken_tableAt tables pool other q
  refine ⟨⟨?_, ?_, pool ▸ List.suffix_cons ..⟩, fresh, frame⟩
  · refine ⟨tables.userPool, fun b within => tables.kernelPool b (sub b within), nodup.2, ?_, ?_, ?_, ?_⟩
    · rintro r (rfl | other) q b found
      · rwa [(taken_only found).2]
      · exact tables.frame r other q b (old other q ▸ found)
    · rintro r (rfl | other) q b found
      · rw [(taken_only found).2]
        exact nodup.1
      · exact fun within => tables.busy r other q b (old other q ▸ found) (sub b within)
    · rintro r (rfl | other) r' (rfl | other') q q' b first second
      · exact ⟨rfl, (taken_only first).1.trans (taken_only second).1.symm⟩
      · rw [old other', (taken_only first).2] at second
        exact absurd free (tables.busy r' other' q' _ second)
      · rw [old other, (taken_only second).2] at first
        exact absurd free (tables.busy r other q _ first)
      · exact tables.once r other r' other' q q' b (old other q ▸ first) (old other' q' ▸ second)
    · rintro r (rfl | other) q depth valid
      · rw [taken_empty] at valid
        exact absurd rfl (valid : (0 : U64) &&& pteV ≠ 0)
      · rw [taken_entry tables pool other (Nat.le_of_lt depth)] at valid ⊢
        exact tables.upper r other q depth valid
  · refine view_eq (fun r other v => ?_) (fun r dead v => if_neg fun live => dead (.inr live))
      (fun b user => ?_) (fun b not => if_neg not) rfl rfl rfl rfl
    · rcases other with rfl | other
      · exact (taken_empty ..).trans (if_neg fresh).symm
      · exact (leaf_congr (fun _ => taken_entry tables pool other) v).trans
          (@view_leaf s ram roots r other v).symm
    · have differ : b ≠ a := fun same => frame.not_user (same ▸ user)
      exact (Function.update_of_ne differ ..).trans (@view_page s ram roots b user).symm

/-- A tree that is no longer looked at leaves its root page free for any contents. -/
theorem Tables.forget (tables : s.Tables ram (insert a roots)) (other : a ∉ roots) (page : Bytes) :
    Shows ram roots s (s.view ram roots) (s.setPage a page) := by
  have apart (r : U64) (live : r ∈ roots) (q : Option Place) : s.tableAt r q ≠ some a := fun found =>
    other ((tables.once a (.inl rfl) r (.inr live) none q a rfl found).1 ▸ live)
  have entries (r : U64) (live : r ∈ roots) (p : Place) (depth : p.depth ≤ 2) :
      (s.setPage a page).entry r p = s.entry r p := setPage_entry page (apart r live) depth
  have less : s.Tables ram roots := by
    refine ⟨tables.userPool, tables.kernelPool, tables.nodup, ?_, ?_, ?_, ?_⟩
    · exact fun r live => tables.frame r (.inr live)
    · exact fun r live => tables.busy r (.inr live)
    · exact fun r live r' live' => tables.once r (.inr live) r' (.inr live')
    · exact fun r live => tables.upper r (.inr live)
  refine ⟨less.congr tables.userPool (List.Sublist.refl _) entries, ?_, List.suffix_rfl⟩
  refine view_eq (fun r live v => ?_) (fun r dead v => if_neg dead) (fun b user => ?_)
    (fun b not => if_neg not) rfl rfl rfl rfl
  · exact (leaf_congr (entries r live) v).trans (@view_leaf s ram roots r live v).symm
  · have differ : b ≠ a := fun same => (tables.frame a (.inl rfl) none a rfl).not_user (same ▸ user)
    exact (Function.update_of_ne differ ..).trans (@view_page s ram roots b user).symm

/-- A page is taken from the user's pool and cleared. -/
theorem Tables.takeUser (tables : s.Tables ram roots) {rest : List U64}
    (pool : s.userPool = a :: rest) :
    Shows ram roots s ({ s.view ram roots with userPool := rest }.setPage a fun _ => 0)
      (({ s with userPool := rest } : Machine).setPage a fun _ => 0) := by
  have user : ram.UserFrame a := tables.userPool a (pool ▸ List.mem_cons_self)
  have entries (r : U64) (other : r ∈ roots) (p : Place) (depth : p.depth ≤ 2) :
      (({ s with userPool := rest } : Machine).setPage a fun _ => 0).entry r p = s.entry r p :=
    setPage_entry (s := { s with userPool := rest }) _ (tables.user_apart user other) depth
  refine ⟨?_, ?_, List.suffix_rfl⟩
  · refine tables.congr ?_ (List.Sublist.refl _) entries
    exact fun b within => tables.userPool b (pool ▸ List.mem_cons_of_mem a within)
  · refine view_eq (fun r other v => ?_) (fun r dead v => if_neg dead) (fun b within => ?_)
      (fun b not => ?_) rfl rfl rfl rfl
    · rw [leaf_congr (entries r other)]
      exact (@view_leaf s ram roots r other v).symm
    · simp only [View.setPage, Machine.setPage, Function.update_apply]
      split
      · rfl
      · exact (@view_page s ram roots b within).symm
    · have differ : b ≠ a := fun same => not (same ▸ user)
      exact (Function.update_of_ne differ ..).trans (if_neg not)

/-- A page goes back to the user's pool. -/
theorem Tables.giveUser (tables : s.Tables ram roots) (user : ram.UserFrame a) :
    Shows ram roots s { s.view ram roots with userPool := a :: s.userPool }
      { s with userPool := a :: s.userPool } := by
  refine ⟨?_, rfl, List.suffix_rfl⟩
  refine tables.congr ?_ (List.Sublist.refl _) fun _ _ _ _ => rfl
  intro b within
  rcases List.mem_cons.mp within with rfl | within
  · exact user
  · exact tables.userPool b within

/-- The contents of a user page are replaced. -/
theorem Tables.setPage (tables : s.Tables ram roots) (user : ram.UserFrame a) (page : Bytes) :
    Shows ram roots s ((s.view ram roots).setPage a page) (s.setPage a page) := by
  have entries (r : U64) (other : r ∈ roots) (p : Place) (depth : p.depth ≤ 2) :
      (s.setPage a page).entry r p = s.entry r p :=
    setPage_entry page (tables.user_apart user other) depth
  refine ⟨tables.congr tables.userPool (List.Sublist.refl _) entries, ?_, List.suffix_rfl⟩
  refine view_eq (fun r other v => ?_) (fun r dead v => if_neg dead) (fun b within => ?_)
    (fun b not => ?_) rfl rfl rfl rfl
  · rw [leaf_congr (entries r other)]
    exact (@view_leaf s ram roots r other v).symm
  · simp only [View.setPage, Machine.setPage, Function.update_apply]
    split
    · rfl
    · exact (@view_page s ram roots b within).symm
  · have differ : b ≠ a := fun same => not (same ▸ user)
    exact (Function.update_of_ne differ ..).trans (if_neg not)

end Machine

end LabKernel
