import LabKernel.Mem.UserPages

/-! # Page tables that find room

`vm_mappages` panics when the kernel's pool runs out of pages for tables. How many it needs does not depend
on how many pages are mapped but on where they are: a table serves 512 pages. As long as the tables of
some trees stay at given places, and the pool and the trees together have more pages than there are such
places, a page for the next table is there.
-/

namespace LabKernel

variable {ram : Ram} {roots : Set U64} {s s' : Machine} {root table a : U64} {va : ℕ}
  {places : Finset (U64 × Option Place)} {frames : Finset U64}

open Machine

/-! ## The walk -/

/-- A walk takes at most a page for each level. -/
theorem walk_room {level : ℕ} (room : level ≤ s.kernelPool.length) :
    ∃ r s', walk va true level table s = .ok r s' := by
  induction level generalizing s table with
  | zero => exact ⟨some table, s, rfl⟩
  | succ level ih =>
    by_cases valid : PteHas (s.pte table (vaToVpn va (level + 1))) pteV
    · rcases check : pteCheck (s.pte table (vaToVpn va (level + 1))) with _ | _
      · refine ⟨none, s, ?_⟩
        simp only [walk, bind, EStateM.bind, get, getThe, MonadStateOf.get, EStateM.get, valid, check,
          not_true_eq_false, if_false, Bool.not_false, if_true]
        rfl
      · obtain ⟨r, s', rest⟩ := @ih s (pteToPa (s.pte table (vaToVpn va (level + 1)))) (Nat.le_of_succ_le room)
        refine ⟨r, s', ?_⟩
        simp only [walk, bind, EStateM.bind, get, getThe, MonadStateOf.get, EStateM.get, valid, check,
          not_true_eq_false, if_false, Bool.not_true, Bool.false_eq_true]
        exact rest
    · obtain ⟨b, rest, pool⟩ : ∃ b rest, s.kernelPool = b :: rest :=
        List.exists_cons_of_length_pos (Nat.lt_of_lt_of_le (Nat.succ_pos level) room)
      rw [pool, List.length_cons] at room
      let s₁ := (s.taken b rest).setPte table (vaToVpn va (level + 1)) (paToPte b ||| pteV)
      obtain ⟨r, s', more⟩ := @ih s₁ (pteToPa (paToPte b ||| pteV)) (Nat.le_of_succ_le_succ room)
      refine ⟨r, s', ?_⟩
      have alloc : pmemAlloc true s = .ok b (s.taken b rest) := by
        simp only [pmemAlloc, bind, EStateM.bind, get, getThe, MonadStateOf.get, EStateM.get, if_true, pool]
        rfl
      simp only [walk, bind, EStateM.bind, get, getThe, MonadStateOf.get, EStateM.get, valid,
        not_false_eq_true, if_true, Bool.not_true, Bool.false_eq_true, if_false, alloc]
      exact more

/-- The places of the tables on the way to an address -/
def wayTo (root : U64) (va : ℕ) : Finset (U64 × Option Place) :=
  {(root, upperPlace va 0), (root, upperPlace va 1)}

/-- The walk attaches tables on the way to the address only. -/
theorem walk_places (tables : s.Tables ram roots) (live : root ∈ roots) {level : ℕ} (bound : level ≤ 2)
    (found : s.tableAt root (upperPlace va level) = some a) :
    Returns (walk va true level a) s fun _ s' => ∀ r ∈ roots, ∀ q b, s'.tableAt r q = some b →
      (r, q) ∈ wayTo root va ∨ ∃ b, s.tableAt r q = some b := by
  induction level generalizing a s with
  | zero => exact Returns.pure_iff.mpr fun r _ q b here => Or.inr ⟨b, here⟩
  | succ level ih =>
    have slot := upperPlace_slot va bound
    have upper := upperPlace_upper va bound
    have entry := entry_slot found (vaToVpn_lt va (level + 1))
    have next := tableAt_slot upper (vaToVpn_lt ..) found
    rw [slot] at next
    rw [walk, Returns.bind_iff, Returns.get_iff]
    by_cases valid : PteHas (s.pte a (vaToVpn va (level + 1))) pteV
    · have check := tables.upper root live _ upper (by rwa [entry])
      rw [entry] at check
      simp only [valid, not_true_eq_false, if_false, check, Bool.not_true, Bool.false_eq_true]
      exact ih tables (Nat.le_of_succ_le bound) (next.trans (if_pos ⟨valid, check⟩))
    · simp only [valid, not_false_eq_true, if_true, Bool.not_true, Bool.false_eq_true, if_false]
      rw [Returns.bind_iff, pmemAlloc, Returns.bind_iff, Returns.get_iff, if_pos rfl]
      cases pool : s.kernelPool with
      | nil => exact Returns.throw_iff.mpr trivial
      | cons b rest =>
        simp only [Returns.bind_iff, Returns.set_iff, Returns.pure_iff, Returns.modify_iff]
        have missing : tableOf (s.entry root
            (slotPlace (upperPlace va (level + 1)) (vaToVpn va (level + 1)))) = none := by
          rw [entry, tableOf, if_neg (fun both => valid both.1)]
        obtain ⟨shows, new⟩ := tables.attach live found upper (vaToVpn_lt ..) missing pool
        have frame := tables.kernelPool b (pool ▸ List.mem_cons_self)
        rw [(table_pte frame.aligned).2.2]
        rw [slot] at new
        refine (ih shows.tables (Nat.le_of_succ_le bound) new).mono fun _ s' after r other q c here => ?_
        rcases after r other q c here with way | ⟨c, before⟩
        · exact Or.inl way
        · rw [attached_tableAt tables live found upper (vaToVpn_lt ..) missing pool other] at before
          split at before
          case isTrue same =>
            obtain ⟨rfl, rfl⟩ := same
            apply Or.inl
            rw [slot, wayTo, Finset.mem_insert, Finset.mem_singleton]
            rcases level with _ | _ | level
            · exact Or.inl rfl
            · exact Or.inr rfl
            · omega
          case isFalse => exact Or.inr ⟨c, before⟩

private theorem vmGetpte_places (tables : s.Tables ram roots) (live : s.rootFor table ∈ roots) :
    Returns (vmGetpte table va true) s fun _ s' => ∀ r ∈ roots, ∀ q b, s'.tableAt r q = some b →
      (r, q) ∈ wayTo (s.rootFor table) va ∨ ∃ b, s.tableAt r q = some b := by
  rw [vmGetpte, Returns.bind_iff, Returns.get_iff]
  apply Returns.ite
  · intro _
    exact Returns.pure_iff.mpr fun r _ q b here => Or.inr ⟨b, here⟩
  · intro low
    rw [Returns.bind_iff]
    refine (walk_places tables live (Nat.le_refl 2) rfl).mono fun t s' after => ?_
    cases t <;> exact Returns.pure_iff.mpr after

/-! ## Room for more tables -/

/-- The tables of some trees are at given places, and they and the pool have given pages. -/
structure Confined (ram : Ram) (roots : Set U64) (places : Finset (U64 × Option Place)) (frames : Finset U64)
    (s : Machine) : Prop where
  tables : s.Tables ram roots
  places : ∀ r ∈ roots, ∀ q a, s.tableAt r q = some a → (r, q) ∈ places
  frames : (frames : Set U64) ⊆ s.kernelUse roots

/-- Each page is in the pool, or at one of the places. -/
theorem Confined.room (confined : Confined ram roots places frames s) :
    frames.card ≤ s.kernelPool.length + places.card := by
  classical
  let tables := places.image fun q => (s.tableAt q.1 q.2).getD 0
  have cover : frames ⊆ s.kernelPool.toFinset ∪ tables := by
    intro a within
    rcases confined.frames within with free | ⟨r, live, q, found⟩
    · exact Finset.mem_union_left _ (List.mem_toFinset.mpr free)
    · apply Finset.mem_union_right
      apply Finset.mem_image.mpr
      exact ⟨(r, q), confined.places r live q a found, by rw [found, Option.getD_some]⟩
  calc frames.card ≤ (s.kernelPool.toFinset ∪ tables).card := Finset.card_le_card cover
    _ ≤ s.kernelPool.toFinset.card + tables.card := Finset.card_union_le ..
    _ ≤ s.kernelPool.length + places.card := Nat.add_le_add (List.toFinset_card_le _) Finset.card_image_le

/-- Pages of the user's pool do not matter. -/
theorem Confined.takeUser (confined : Confined ram roots places frames s) {rest : List U64}
    (pool : s.userPool = a :: rest) :
    Confined ram roots places frames (({ s with userPool := rest } : Machine).setPage a fun _ => 0) := by
  have tables := confined.tables
  have user := tables.userPool a (pool ▸ List.mem_cons_self)
  have shows := tables.takeUser pool
  generalize taken : (({ s with userPool := rest } : Machine).setPage a fun _ => 0) = t at shows ⊢
  have tableAt {r : U64} (here : r ∈ roots) (q : Option Place) : t.tableAt r q = s.tableAt r q := by
    rw [← taken]
    exact tableAt_of_entry fun p depth =>
      setPage_entry (s := { s with userPool := rest }) _ (tables.user_apart user here) depth
  have kernel : t.kernelPool = s.kernelPool := by
    rw [← taken]
    rfl
  refine ⟨shows.tables, fun r here q b found => ?_, ?_⟩
  · rw [tableAt here] at found
    exact confined.places r here q b found
  · rw [kernelUse_congr kernel fun r here => tableAt here]
    exact confined.frames

/-- The write of `vm_mappages` finds its table. -/
theorem Confined.mapPage (confined : Confined ram roots places frames s) (live : s.rootFor table ∈ roots)
    (low : va < vaMax) (way : wayTo (s.rootFor table) va ⊆ places) (enough : places.card + 2 ≤ frames.card) (e : U64) :
    Yields (vmGetpte table va true) s fun r s' => ∃ t, r = some (t, vaToVpn va 0) ∧
      Confined ram roots places frames (s'.setPte t (vaToVpn va 0) e) ∧
      s'.kernPagetable = s.kernPagetable := by
  have room := confined.room
  obtain ⟨w, s₀, walks⟩ := @walk_room s (s.rootFor table) va 2 (by omega)
  have ends := (vmGetpte_alloc confined.tables live low).and (vmGetpte_places confined.tables live)
  have runs : ∃ r s', vmGetpte table va true s = .ok r s' := by
    simp only [vmGetpte, bind, EStateM.bind, get, getThe, MonadStateOf.get, EStateM.get,
      if_neg (Nat.not_le.mpr low), walks]
    cases w with
    | none => exact ⟨none, s₀, rfl⟩
    | some t => exact ⟨some (t, vaToVpn va 0), s₀, rfl⟩
  obtain ⟨r, s', result⟩ := runs
  obtain ⟨⟨t, rfl, found, shows, attaches⟩, places'⟩ := ends.returns r s' result
  rw [Yields, Ends, result]
  refine ⟨t, rfl, ⟨?_, fun r other q b here => ?_, ?_⟩, congrArg View.kernPagetable shows.view⟩
  · exact (shows.tables.setLeaf live found (vaToVpn_lt va 0) (pagePlace_div low) e).tables
  · rw [shows.tables.setLeaf_tableAt live found (vaToVpn_lt va 0) rfl e other] at here
    rcases places' r other q b here with on_way | ⟨b, before⟩
    · exact way on_way
    · exact confined.places r other q b before
  · have same : (s'.setPte t (vaToVpn va 0) e).kernelUse roots = s'.kernelUse roots :=
      kernelUse_congr rfl fun r other q =>
        shows.tables.setLeaf_tableAt live found (vaToVpn_lt va 0) rfl e other q
    rw [same, attaches.use]
    exact confined.frames

private theorem Confined.mapLoop (confined : Confined ram roots places frames s) (live : s.rootFor table ∈ roots)
    {perm : U32} {first last fuel n : ℕ} {pa : U64} (page : va % pgsize = 0) (low : last < vaMax)
    (final : alignDown last = va + n * pgsize) (above : first ≤ va) (enough : n < fuel)
    (way : ∀ i ≤ n, wayTo (s.rootFor table) (va + i * pgsize) ⊆ places) (room : places.card + 2 ≤ frames.card) :
    Yields (mapLoop table perm first last fuel va pa) s fun _ s' => Confined ram roots places frames s' := by
  have below : va + n * pgsize < vaMax := by
    rw [← final]
    exact Nat.lt_of_le_of_lt (Nat.div_mul_le_self ..) low
  have here : wayTo (s.rootFor table) va ⊆ places := by
    have := way 0 (Nat.zero_le n)
    rwa [Nat.zero_mul] at this
  induction n generalizing s va pa fuel with
  | zero =>
    obtain ⟨fuel, rfl⟩ := Nat.exists_eq_succ_of_ne_zero (show fuel ≠ 0 by omega)
    rw [LabKernel.mapLoop]
    apply Ends.bind_iff.mpr
    apply (confined.mapPage live (by omega) here room (paToPte pa ||| perm.signExtend 64 ||| pteV)).mono
    rintro r s' ⟨t, rfl, confined', -⟩
    simp only [Ends.bind_iff, Ends.modify_iff]
    rw [if_pos (by omega)]
    exact confined'
  | succ n ih =>
    obtain ⟨fuel, rfl⟩ := Nat.exists_eq_succ_of_ne_zero (show fuel ≠ 0 by omega)
    simp only [vaMax_eq, pgsize_eq] at below page
    have next : wrap64 (va + pgsize) = va + pgsize := wrap64_of_lt (by simp only [pgsize_eq]; omega)
    rw [LabKernel.mapLoop]
    apply Ends.bind_iff.mpr
    apply (confined.mapPage live (by simp only [vaMax_eq]; omega) here room
      (paToPte pa ||| perm.signExtend 64 ||| pteV)).mono
    rintro r s' ⟨t, rfl, confined', kernel⟩
    simp only [Ends.bind_iff, Ends.modify_iff]
    rw [if_neg (by rw [final, pgsize_eq]; omega)]
    simp only [next]
    rw [if_neg (by omega)]
    have same : (s'.setPte t (vaToVpn va 0) (paToPte pa ||| perm.signExtend 64 ||| pteV)).rootFor table =
        s.rootFor table := by rw [Machine.rootFor, Machine.rootFor, ← kernel]; rfl
    have later (i : ℕ) (bound : i ≤ n) : wayTo (s.rootFor table) (va + pgsize + i * pgsize) ⊆ places := by
      have := way (i + 1) (by omega)
      rwa [show va + (i + 1) * pgsize = va + pgsize + i * pgsize by simp only [pgsize_eq]; omega] at this
    apply ih confined' (same ▸ live) (by simp only [pgsize_eq]; omega)
      (by rw [final]; simp only [pgsize_eq]; omega) (by omega) (by omega)
      (by rw [same]; exact later)
      (by simp only [vaMax_eq, pgsize_eq]; omega)
    have first := later 0 (Nat.zero_le n)
    rw [Nat.zero_mul] at first
    rw [same]
    exact first

/-- `vm_mappages` of a range whose tables have their places returns. -/
theorem Confined.vmMappages (confined : Confined ram roots places frames s) (live : s.rootFor table ∈ roots)
    {pa : U64} {len : ℕ} {perm : U32} (page : va % pgsize = 0) (frame : pa.toNat % pgsize = 0) (some : 0 < len)
    (low : va + len ≤ vaMax) (room : places.card + 2 ≤ frames.card)
    (way : ∀ va', va ≤ va' → va' < va + len → wayTo (s.rootFor table) va' ⊆ places) :
    Yields (vmMappages table va pa len perm) s fun _ s' => Confined ram roots places frames s' ∧
      Shows ram roots s ((s.view ram roots).mapRange (s.rootFor table) (va / pgsize) (pagesOf len) pa
        (perm.signExtend 64 ||| pteV)) s' := by
  have shows := (@vmMappages_ends _ _ _ _ _ confined.tables live pa len perm page frame some low).returns
  obtain ⟨pos, under, reach⟩ := pagesOf_spec some
  simp only [vaMax_eq] at low
  simp only [pgsize_eq] at under reach
  have last : wrap64 (va + len - 1) = va + len - 1 := wrap64_of_lt (by omega)
  refine Ends.and ?_ shows
  rw [LabKernel.vmMappages, if_neg (not_not.mpr page), if_neg (not_not.mpr frame), if_neg (Nat.ne_of_gt some), last,
    if_neg (by simp only [vaMax_eq]; omega)]
  have final : alignDown (va + len - 1) = va + (pagesOf len - 1) * pgsize := by
    simp only [alignDown, pgsize_eq] at page ⊢
    omega
  apply confined.mapLoop live page (by simp only [vaMax_eq]; omega) final (Nat.le_refl va)
    (by simp only [vaMax_eq, pgsize_eq]; omega) _ room
  intro i bound
  apply way
  · omega
  · simp only [pgsize_eq]
    omega

end LabKernel
