import OsKernel.VmmRefinement

/-! # The rights of a mapped page

The processor combines the bits of the four entries it walks through: an access
may write, or come from user mode, when all of them allow it, and may not execute
when one of them forbids it.  The entries above the page tables are shared by all
the pages below them.  They are all made by `get_or_create_table`, with the flags
that allow everything (`OpenTables`), so what decides is the leaf entry alone: a
page has the rights that the last successful map of this page asked for.
-/
namespace OsKernel

/-- `PTE_NX` -/
def pteNx : UInt64 := (1 : UInt64) <<< 63

/-- `pte & mask`, as a truth value. -/
def hasBit (mask pte : UInt64) : Bool := pte &&& mask != 0

/-- What an access through an entry, or through a walk, may do. -/
structure Rights where
  writable : Bool
  user : Bool
  noExecute : Bool
  deriving DecidableEq, Repr

/-- The rights that the bits of one entry spell out. -/
def rights (pte : UInt64) : Rights :=
  ⟨hasBit pteWritable pte, hasBit pteUser pte, hasBit pteNx pte⟩

/-- The rights the processor derives from the entries of a walk. -/
def effectiveRights (entries : List UInt64) : Rights :=
  ⟨entries.all (hasBit pteWritable), entries.all (hasBit pteUser), entries.any (hasBit pteNx)⟩

/-- The entries the processor meets from a table on, following `indices`.  It stops at
an entry that is not present. -/
def walkEntries (mem : Memory) : Nat → List UInt64 → Option (List UInt64)
  | _, [] => some []
  | table, index :: indices =>
    let pte := loadPte mem table index
    if isPresent pte then
      (walkEntries mem (pte &&& pteAddrMask).toNat indices).map fun entries => pte :: entries
    else none

/-- The four entries of the walk for an address. -/
def hardwareWalk (mem : Memory) (root : Nat) (virt : Vaddr) : Option (List UInt64) :=
  walkEntries mem root [pml4Index virt, pdptIndex virt, pdIndex virt, ptIndex virt]

/-! ## The successful maps of a run -/

/-- The successful maps of a run: the page and the flags it was mapped with, the
oldest first. -/
abbrev MapLog := List (PageNumber × UInt64)

/-- The flags of the most recent map of a page. -/
def latest (log : MapLog) (page : PageNumber) : Option UInt64 := log.reverse.lookup page

/-- What one `vmm_map` adds. -/
def mapLog (vmm : Vmm) (s : PhysState) (virt : Vaddr) (phys : Paddr) (flags : UInt64) : MapLog :=
  if (vmmMap vmm s virt phys flags).1 = 0 then [(pageNumber virt, flags)] else []

/-- What the loop of `vmm_map_range` adds; it stops at the first page that fails. -/
def mapRangeLog (virt : Vaddr) (phys : Paddr) (flags : UInt64) :
    Nat → Nat → Vmm → PhysState → MapLog
  | 0, _, _, _ => []
  | n + 1, i, vmm, s =>
    let v := virt + UInt64.ofNat i * pageSize
    let a := phys + UInt64.ofNat i * pageSize
    let r := vmmMap vmm s v a flags
    mapLog vmm s v a flags ++
      if r.1 ≠ 0 then [] else mapRangeLog virt phys flags n (i + 1) r.2.1 r.2.2

/-- What a call adds. -/
def callLog (vmm : Vmm) (s : PhysState) : VmmOp → MapLog
  | .map virt phys flags => mapLog vmm s virt phys flags
  | .mapRange virt phys pages flags => mapRangeLog virt phys flags pages.toNat 0 vmm s
  | .unmap _ => []
  | .unmapRange _ _ => []

/-- An address space, and the maps that succeeded since `vmm_init`. -/
structure LoggedState where
  st : VmmState
  log : MapLog

/-- One call returns. -/
def LoggedStep (l : LoggedState) (op : VmmOp) (l' : LoggedState) : Prop :=
  VmmStep l.st op l'.st ∧ l'.log = l.log ++ callLog l.st.vmm l.st.phys op

/-- **Every entry above the page tables allows everything.** -/
def OpenTables (mem : Memory) (root : Nat) : Prop :=
  ∀ p f (index : UInt64), p.length < 3 → follow (child mem) root p = some f →
    index.toNat < 512 → isPresent (loadPte mem f index) →
    rights (loadPte mem f index) = ⟨true, true, false⟩

/-- **The page tables carry the rights that were asked for.** -/
structure Recorded (mem : Memory) (root : Nat) (log : MapLog) : Prop where
  open_tables : OpenTables mem root
  leaf : ∀ page, isPresent (pageEntry mem root page) →
    ∃ flags, latest log page = some flags ∧ rights (pageEntry mem root page) = rights flags

variable {vmm : Vmm} {s t : PhysState} {m : Memory} {root g q : Nat} {index pte : UInt64}
  {p : List Nat} {page : PageNumber} {log : MapLog}

/-! ## Entries -/

/-- A bit outside the address field, other than the present bit, is the caller's. -/
theorem hasBit_entry {mask : UInt64} (a flags : UInt64) (haddr : pteAddrMask &&& mask = 0)
    (hpresent : ptePresent &&& mask = 0) :
    hasBit mask ((a &&& pteAddrMask) ||| flags ||| ptePresent) = hasBit mask flags := by
  rw [hasBit, hasBit, land_lor_distrib_right, land_lor_distrib_right, hpresent, UInt64.and_assoc,
    haddr, UInt64.and_zero, UInt64.zero_or, UInt64.or_zero]

theorem rights_entry (a flags : UInt64) :
    rights ((a &&& pteAddrMask) ||| flags ||| ptePresent) = rights flags := by
  rw [rights, rights, hasBit_entry a flags rfl rfl, hasBit_entry a flags rfl rfl,
    hasBit_entry a flags rfl rfl]

theorem rights_tableFlags : rights tableFlags = ⟨true, true, false⟩ := rfl

theorem latest_snoc (log : MapLog) (page page' : PageNumber) (flags : UInt64) :
    latest (log ++ [(page, flags)]) page' =
      if page' = page then some flags else latest log page' := by
  rw [latest, List.reverse_append, List.reverse_singleton, List.singleton_append, List.lookup_cons]
  by_cases h : page' = page
  · rw [if_pos h, h, beq_self_eq_true]
  · rw [if_neg h, beq_eq_false_iff_ne.mpr h]
    rfl

/-! ## The operations keep the tables open -/

theorem openTables_of_zeroed (hzero : ∀ x, x / 4096 = q → m x = 0) :
    OpenTables m (q * 4096) := by
  intro p f index hp hf hi hpres
  obtain ⟨-, rfl⟩ := follow_leaf (child_zeroed hzero) hf
  rw [loadPte_zero hi (Nat.mul_mod_left q 4096)] at hpres
  · exact absurd rfl hpres
  · intro x hx
    rw [mul_page_div] at hx
    exact hzero x hx

/-- Hanging an empty table below an open entry. -/
theorem OpenTables.newTable (h : OpenTables s.mem root) (ht : PageTables s root)
    (hp : p.length < 3) (hg : follow (child s.mem) root p = some g) (hi : index.toNat < 512)
    (habsent : ¬ isPresent (loadPte s.mem g index)) (htaken : Taken s {q} t)
    (hpte : isPresent pte) (haddr : pte &&& pteAddrMask = pageAddr q)
    (hopen : rights pte = ⟨true, true, false⟩) : OpenTables (storePte t.mem g index pte) root := by
  have hl := newLink_of_taken ht hp hg hi habsent htaken hpte haddr
  have hgf := mem_tableFrames hp.le hg
  intro r f index' hr hf hi' hpres
  rw [follow_grow ht.tree hl hr.le] at hf
  by_cases hnew : r = p ++ [index.toNat]
  · -- the new table has no present entry
    rw [if_pos hnew] at hf
    obtain rfl := Option.some.inj hf
    rw [loadPte_zero hi' (Nat.mul_mod_left q 4096)] at hpres
    · exact absurd rfl hpres
    · intro x hx
      exact zeroed_of_taken ht htaken hgf hi (hx.trans (mul_page_div q))
  · rw [if_neg hnew] at hf
    by_cases hsame : f = g ∧ index' = index
    · obtain ⟨rfl, rfl⟩ := hsame
      rw [loadPte_storePte]
      exact hopen
    · have hload : loadPte (storePte t.mem g index pte) f index' = loadPte s.mem f index' :=
        loadPte_of_taken ht htaken hgf hi (mem_tableFrames hr.le hf) hi' hsame
      rw [hload] at hpres ⊢
      exact h r f index' hr hf hi' hpres

/-- Writing a leaf touches no entry above the page tables. -/
theorem OpenTables.storeLeaf (h : OpenTables s.mem root) (ht : PageTables s root) {pt : Nat}
    (hpt : follow (child s.mem) root (tablePath page) = some pt) (pte : UInt64) :
    OpenTables (storePte s.mem pt (UInt64.ofNat (page.val % 512)) pte) root := by
  intro r f index' hr hf hi' hpres
  rw [follow_storeLeaf ht hpt pte hr.le] at hf
  have hptf := mem_tableFrames (length_tablePath page) hpt
  have hload : loadPte (storePte s.mem pt (UInt64.ofNat (page.val % 512)) pte) f index' =
      loadPte s.mem f index' := by
    apply loadPte_storePte_ne (ht.frame pt hptf).1 (ht.frame f (mem_tableFrames hr.le hf)).1
      (page_mod_lt page) hi'
    exact fun hsame => follow_ne_of_length ht hr hf hpt hsame.1.symm
  rw [hload] at hpres ⊢
  exact h r f index' hr hf hi' hpres

theorem OpenTables.getOrCreateTable (ht : PageTables s root) (hp : p.length < 3)
    (hg : follow (child s.mem) root p = some g) (hi : index.toNat < 512)
    (h : OpenTables s.mem root) :
    OpenTables (getOrCreateTable s g index tableFlags).2.mem root := by
  rcases getOrCreateTable_cases s g index with
    ⟨-, heq⟩ | ⟨-, -, heq⟩ | ⟨q, t, habsent, -, htaken, heq⟩
  · rw [heq]
    exact h
  · rw [heq]
    exact h
  · rw [heq]
    apply h.newTable ht hp hg hi habsent htaken (isPresent_tablePte q)
    · exact tablePte_land_addrMask htaken.page_lt
    · exact (rights_entry _ _).trans rights_tableFlags

theorem OpenTables.vmmMap (h : OpenTables s.mem root) (hvalid : VmmValid vmm s root)
    (virt : Vaddr) (phys : Paddr) (flags : UInt64) :
    OpenTables (vmmMap vmm s virt phys flags).2.2.mem root := by
  obtain ⟨t, hgrow, hopen, -, heq⟩ := vmmMap_tables_keep (fun t => OpenTables t.mem root)
    OpenTables.getOrCreateTable hvalid.pml4 hvalid.tables h virt phys flags
  rcases heq with heq | ⟨pt, hpt, heq⟩
  · rw [heq]
    exact hopen
  · have hleaf := hopen.storeLeaf hgrow.tables hpt (leafPte phys flags)
    rw [heq]
    split
    · exact hleaf
    · exact hleaf

theorem OpenTables.vmmUnmap (h : OpenTables s.mem root) (hvalid : VmmValid vmm s root)
    {virt : Vaddr} {ret : Int} {vmm' : Vmm} {s' : PhysState}
    (hcall : vmmUnmap vmm s virt = .ok (ret, vmm', s')) : OpenTables s'.mem root := by
  cases hf : follow (child s.mem) root (tablePath (pageNumber virt)) with
  | none =>
    rw [vmmUnmap_none hvalid hf] at hcall
    cases hcall
    exact h
  | some pt =>
    rw [vmmUnmap_some hvalid hf] at hcall
    split at hcall
    · cases hcall
      exact h
    · cases hcall
      exact h.storeLeaf hvalid.tables hf 0

/-! ## The operations keep the record -/

/-- One page was mapped. -/
theorem Recorded.vmmMap (h : Recorded s.mem root log) (hvalid : VmmValid vmm s root)
    (virt : Vaddr) (phys : Paddr) (flags : UInt64) :
    Recorded (vmmMap vmm s virt phys flags).2.2.mem root
      (log ++ mapLog vmm s virt phys flags) := by
  refine ⟨h.open_tables.vmmMap hvalid virt phys flags, ?_⟩
  obtain ⟨ret, vmm', s', heq, -, -, hcase⟩ := vmmMap_spec hvalid virt phys flags
  intro page hpres
  rw [mapLog]
  rw [heq] at hpres ⊢
  rcases hcase with ⟨rfl, hentry⟩ | ⟨rfl, hentry⟩
  · rw [hentry] at hpres ⊢
    rw [if_neg (show ¬ (-1 : Int) = 0 by decide), List.append_nil]
    exact h.leaf page hpres
  · rw [hentry] at hpres ⊢
    rw [if_pos rfl, latest_snoc]
    by_cases hpage : page = pageNumber virt
    · rw [hpage, Function.update_self, if_pos rfl]
      exact ⟨flags, rfl, rights_entry _ _⟩
    · rw [Function.update_of_ne hpage] at hpres ⊢
      rw [if_neg hpage]
      exact h.leaf page hpres

theorem Recorded.vmmMapRangeFrom (virt : Vaddr) (phys : Paddr) (flags : UInt64) (n i : Nat)
    (h : Recorded s.mem root log) (hvalid : VmmValid vmm s root) :
    Recorded (vmmMapRangeFrom virt phys flags n i vmm s).2.2.mem root
      (log ++ mapRangeLog virt phys flags n i vmm s) := by
  induction n generalizing i vmm s log with
  | zero =>
    rw [mapRangeLog, List.append_nil]
    exact h
  | succ n ih =>
    have hone := h.vmmMap hvalid (virt + UInt64.ofNat i * pageSize)
      (phys + UInt64.ofNat i * pageSize) flags
    obtain ⟨ret, vmm', t, heq, -, hvalid', -⟩ := vmmMap_spec hvalid
      (virt + UInt64.ofNat i * pageSize) (phys + UInt64.ofNat i * pageSize) flags
    rw [mapRangeLog, ← List.append_assoc]
    unfold OsKernel.vmmMapRangeFrom
    rw [heq] at hone ⊢
    by_cases hret : ret ≠ 0
    · rw [if_pos hret, if_pos hret, List.append_nil]
      exact hone
    · rw [if_neg hret, if_neg hret]
      exact ih (i + 1) hone hvalid'

theorem Recorded.vmmUnmap (h : Recorded s.mem root log) (hvalid : VmmValid vmm s root)
    {virt : Vaddr} {ret : Int} {vmm' : Vmm} {s' : PhysState}
    (hcall : vmmUnmap vmm s virt = .ok (ret, vmm', s')) : Recorded s'.mem root log := by
  refine ⟨h.open_tables.vmmUnmap hvalid hcall, ?_⟩
  obtain ⟨ret', vmm'', s'', heq, -, -, hcase⟩ := vmmUnmap_spec hvalid virt
  rw [heq] at hcall
  cases hcall
  intro page hpres
  rcases hcase with ⟨-, -, rfl⟩ | ⟨-, -, hentry⟩
  · exact h.leaf page hpres
  · rw [hentry] at hpres ⊢
    by_cases hpage : page = pageNumber virt
    · rw [hpage, Function.update_self] at hpres
      exact absurd rfl hpres
    · rw [Function.update_of_ne hpage] at hpres ⊢
      exact h.leaf page hpres

theorem Recorded.vmmUnmapRangeFrom (virt : Vaddr) (n i : Nat) (h : Recorded s.mem root log)
    (hvalid : VmmValid vmm s root) {ret : Int} {vmm' : Vmm} {s' : PhysState}
    (hcall : vmmUnmapRangeFrom virt n i vmm s = .ok (ret, vmm', s')) :
    Recorded s'.mem root log := by
  induction n generalizing i vmm s with
  | zero =>
    cases hcall
    exact h
  | succ n ih =>
    obtain ⟨ret₁, vmm₁, t, heq, -, hvalid', -⟩ :=
      vmmUnmap_spec hvalid (virt + UInt64.ofNat i * pageSize)
    unfold OsKernel.vmmUnmapRangeFrom at hcall
    rw [heq] at hcall
    exact ih (i + 1) (h.vmmUnmap hvalid heq) hvalid' hcall

/-- **One call keeps the record.** -/
theorem Recorded.vmmCall (h : Recorded s.mem root log) (hvalid : VmmValid vmm s root) (op : VmmOp)
    {ret : Int} {vmm' : Vmm} {s' : PhysState} (hcall : vmmCall vmm s op = .ok (ret, vmm', s')) :
    Recorded s'.mem root (log ++ callLog vmm s op) := by
  cases op with
  | map virt phys flags =>
    have hrec := h.vmmMap hvalid virt phys flags
    rw [Except.ok.inj hcall] at hrec
    exact hrec
  | mapRange virt phys pages flags =>
    have hrec := h.vmmMapRangeFrom virt phys flags pages.toNat 0 hvalid
    have heq : OsKernel.vmmMapRangeFrom virt phys flags pages.toNat 0 vmm s = (ret, vmm', s') :=
      Except.ok.inj hcall
    rw [heq] at hrec
    exact hrec
  | unmap virt =>
    rw [callLog, List.append_nil]
    exact h.vmmUnmap hvalid hcall
  | unmapRange virt pages =>
    rw [callLog, List.append_nil]
    exact h.vmmUnmapRangeFrom virt pages.toNat 0 hvalid hcall

/-- **A run keeps the record.** -/
theorem run_recorded {s₀ : PhysState} {ops : List VmmOp} {l : LoggedState}
    (hvalid : VmmValid (vmmInit s₀).1 (vmmInit s₀).2 root)
    (hstart : Recorded (vmmInit s₀).2.mem root [])
    (hrun : Run LoggedStep ⟨vmmStart s₀, []⟩ ops l) :
    VmmValid l.st.vmm l.st.phys root ∧ Recorded l.st.phys.mem root l.log := by
  refine hrun.invariant (fun l => VmmValid l.st.vmm l.st.phys root ∧
    Recorded l.st.phys.mem root l.log) ⟨hvalid, hstart⟩ ?_
  rintro k op l ⟨hk, hrec⟩ ⟨⟨ret, hcall⟩, hlog⟩
  obtain ⟨ret', vmm', s', heq, -, hvalid'⟩ := vmmCall_spec hk op
  rw [hlog]
  refine ⟨?_, hrec.vmmCall hk op hcall⟩
  rw [heq] at hcall
  obtain ⟨-, rfl, rfl⟩ : ret' = ret ∧ vmm' = l.st.vmm ∧ s' = l.st.phys := by simpa using hcall
  exact hvalid'

/-! ## The walk of the processor -/

theorem child_eq_some {f i : Nat} (h : child m f i = some g) :
    i < 512 ∧ isPresent (loadPte m f (UInt64.ofNat i)) ∧
      (loadPte m f (UInt64.ofNat i) &&& pteAddrMask).toNat = g := by
  rw [child] at h
  split at h
  · rename_i hc
    exact ⟨hc.1, hc.2, Option.some.inj h⟩
  · cases h

/-- Following one present entry of a table. -/
theorem walkEntries_child {f : Nat} (h : child m f index.toNat = some g) (indices : List UInt64) :
    walkEntries m f (index :: indices) =
      (walkEntries m g indices).map fun entries => loadPte m f index :: entries := by
  obtain ⟨-, hpres, hnext⟩ := child_eq_some h
  rw [UInt64.ofNat_toNat] at hpres hnext
  rw [walkEntries, if_pos hpres, hnext]

/-- A link above the page tables goes through an open entry. -/
theorem OpenTables.link (hopen : OpenTables m root) (hp : p.length < 3) {f : Nat}
    (hf : follow (child m) root p = some f) (h : child m f index.toNat = some g) :
    rights (loadPte m f index) = ⟨true, true, false⟩ ∧
      follow (child m) root (p ++ [index.toNat]) = some g := by
  obtain ⟨hi, hpres, -⟩ := child_eq_some h
  rw [UInt64.ofNat_toNat] at hpres
  refine ⟨hopen p f index hp hf hi hpres, ?_⟩
  rw [follow_snoc, hf]
  exact h

/-- Open entries above a leaf leave the leaf its rights. -/
theorem effectiveRights_leaf {e₄ e₃ e₂ : UInt64} (h₄ : rights e₄ = ⟨true, true, false⟩)
    (h₃ : rights e₃ = ⟨true, true, false⟩) (h₂ : rights e₂ = ⟨true, true, false⟩) :
    effectiveRights [e₄, e₃, e₂, pte] = rights pte := by
  simp only [rights, Rights.mk.injEq] at h₄ h₃ h₂
  simp [effectiveRights, rights, h₄, h₃, h₂]

/-- **The processor's walk to a present page** has the rights of the leaf entry. -/
theorem hardwareWalk_present (hopen : OpenTables m root) {virt : Vaddr}
    (hpres : isPresent (pageEntry m root (pageNumber virt))) :
    ∃ e₄ e₃ e₂ e₁, hardwareWalk m root virt = some [e₄, e₃, e₂, e₁] ∧
      effectiveRights [e₄, e₃, e₂, e₁] = rights (pageEntry m root (pageNumber virt)) := by
  cases hf : follow (child m) root (tablePath (pageNumber virt)) with
  | none =>
    rw [pageEntry_none hf] at hpres
    exact absurd rfl hpres
  | some pt =>
    rw [pageEntry_some hf, ← ptIndex_eq] at hpres ⊢
    rw [tablePath_pageNumber, follow_cons, Option.bind_eq_some_iff] at hf
    obtain ⟨pdpt, h4, hf⟩ := hf
    rw [follow_cons, Option.bind_eq_some_iff] at hf
    obtain ⟨pd, h3, hf⟩ := hf
    rw [follow_cons, Option.bind_eq_some_iff] at hf
    obtain ⟨pt', h2, hf⟩ := hf
    obtain rfl : pt' = pt := Option.some.inj hf
    obtain ⟨hr4, hp4⟩ := hopen.link (p := []) (by simp) rfl h4
    obtain ⟨hr3, hp3⟩ := hopen.link (by simp) hp4 h3
    obtain ⟨hr2, -⟩ := hopen.link (by simp) hp3 h2
    refine ⟨_, _, _, _, ?_, effectiveRights_leaf hr4 hr3 hr2⟩
    rw [hardwareWalk, walkEntries_child h4, walkEntries_child h3, walkEntries_child h2, walkEntries,
      if_pos hpres]
    rfl

/-- **A page has the rights it was mapped with.**  After a `vmm_init` that succeeded
and any calls, the processor's walk to a mapped page gives the rights that the
flags of the most recent successful map of this page spell out, whatever the other
pages under the same tables were mapped with. -/
theorem vmm_rights_requested {s₀ : PhysState} {ops : List VmmOp} {l : LoggedState}
    (hinit : (vmmInit s₀).1.pml4 ≠ none) (hrun : Run LoggedStep ⟨vmmStart s₀, []⟩ ops l)
    {virt : Vaddr} (hmapped : vmmIsMapped l.st.vmm l.st.phys.mem virt = .ok true) :
    ∃ root flags e₄ e₃ e₂ e₁, l.st.vmm.pml4 = some root ∧
      hardwareWalk l.st.phys.mem root virt = some [e₄, e₃, e₂, e₁] ∧
      latest l.log (pageNumber virt) = some flags ∧
      effectiveRights [e₄, e₃, e₂, e₁] = rights flags := by
  rcases vmmInit_cases s₀ with ⟨hnone, -⟩ | ⟨q, -, -, htaken, hvalid, -, hempty⟩
  · exact absurd hnone hinit
  have hstart : Recorded (vmmInit s₀).2.mem (q * 4096) [] := by
    refine ⟨openTables_of_zeroed fun x hx => htaken.zeroed x (Finset.mem_singleton.mpr hx), ?_⟩
    intro page hpres
    rw [hempty] at hpres
    exact absurd rfl hpres
  obtain ⟨hl, hrec⟩ := run_recorded hvalid hstart hrun
  have hpres : isPresent (pageEntry l.st.phys.mem (q * 4096) (pageNumber virt)) := by
    by_contra habsent
    have hnone := entryFrame_eq_none.mpr habsent
    rw [hl.refines.isMapped, pageMap, hnone] at hmapped
    cases hmapped
  obtain ⟨flags, hlatest, hrights⟩ := hrec.leaf _ hpres
  obtain ⟨e₄, e₃, e₂, e₁, hwalk, heff⟩ := hardwareWalk_present hrec.open_tables hpres
  exact ⟨_, flags, e₄, e₃, e₂, e₁, hl.pml4, hwalk, hlatest, heff.trans hrights⟩

/-- The state after one `vmm_map`. -/
def LoggedState.map (l : LoggedState) (virt : Vaddr) (phys : Paddr) (flags : UInt64) :
    LoggedState :=
  let r := vmmMap l.st.vmm l.st.phys virt phys flags
  ⟨⟨r.2.1, r.2.2⟩, l.log ++ mapLog l.st.vmm l.st.phys virt phys flags⟩

theorem loggedStep_map (l : LoggedState) (virt : Vaddr) (phys : Paddr) (flags : UInt64) :
    LoggedStep l (.map virt phys flags) (l.map virt phys flags) :=
  ⟨vmmStep_map l.st virt phys flags, rfl⟩

/-- A read-only page keeps its rights when its neighbour is mapped for the user. -/
theorem vmm_rights_requested_readonly :
    ∃ l root entries, Run LoggedStep ⟨vmmStart ⟨freshPmm, fun _ => 0⟩, []⟩
        [.map 0x400000 0x5000 1, .map 0x401000 0x6000 7] l ∧
      hardwareWalk l.st.phys.mem root 0x400123 = some entries ∧
      effectiveRights entries = ⟨false, false, false⟩ := by
  have hrun : Run LoggedStep ⟨vmmStart ⟨freshPmm, fun _ => 0⟩, []⟩
      [.map 0x400000 0x5000 1, .map 0x401000 0x6000 7] _ :=
    (Run.nil.snoc (loggedStep_map _ 0x400000 0x5000 1)).snoc (loggedStep_map _ 0x401000 0x6000 7)
  obtain ⟨root, flags, e₄, e₃, e₂, e₁, -, hwalk, hlatest, hrights⟩ :=
    vmm_rights_requested vmmInit_fresh hrun
      (show vmmIsMapped _ _ 0x400123 = .ok true by decide +kernel)
  have hflags : some flags = some 1 := hlatest.symm.trans (by decide +kernel)
  cases hflags
  exact ⟨_, root, _, hrun, hwalk, hrights⟩

end OsKernel
