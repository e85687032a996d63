import OsKernel.VmmSpace

/-! # What creating tables costs

`vmm_map` opens the path from the PML4 to the page table of its page.  `Opened` says
what an attempt to do so has done, whether or not it came to the end: the tables it
added lie on the path, each was paid for with one page of the physical memory
manager, and no leaf entry has changed.  So the call succeeds exactly when the
manager can pay for the tables that are missing on the path, and a call that fails
has taken every page that was left.
-/
namespace OsKernel

/-- The paths from the PML4 to the tables of an address space. -/
def tablePaths (mem : Memory) (root : Nat) : Set (List Nat) := paths (child mem) root 3

/-- The tables between two states: the paths that have been added. -/
def newPaths (root : Nat) (s s' : PhysState) : Set (List Nat) :=
  tablePaths s'.mem root \ tablePaths s.mem root

/-- The tables that are missing between the PML4 and a page. -/
def missingPaths (mem : Memory) (root : Nat) (page : PageNumber) : Set (List Nat) :=
  {r | r <+: tablePath page} \ tablePaths mem root

/-- What creating tables along `path` may do, with or without coming to its end. -/
structure Opened (root : Nat) (path : List Nat) (s s' : PhysState) : Prop where
  grows : Grows root s s'
  entries : pageEntry s'.mem root = pageEntry s.mem root
  kept : ∀ r f, r.length ≤ 3 → follow (child s.mem) root r = some f →
    follow (child s'.mem) root r = some f
  onPath : ∀ r ∈ newPaths root s s', r <+: path
  paid : available s'.pmm + (newPaths root s s').ncard = available s.pmm
  counted : s'.pmm.freePages.toNat + (newPaths root s s').ncard = s.pmm.freePages.toNat
  placed : ∀ p ∈ freeSet s.pmm.bitmap, p ∉ freeSet s'.pmm.bitmap →
    ∃ r ∈ newPaths root s s', follow (child s'.mem) root r = some (p * 4096)
  untouched : newPaths root s s' = ∅ → s' = s

variable {vmm : Vmm} {s s' t : PhysState} {root f g q : Nat} {index : UInt64}
  {path p : List Nat}

/-! ## Opening a path -/

theorem newPaths_self (root : Nat) (s : PhysState) : newPaths root s s = ∅ := Set.sdiff_self

theorem Opened.refl (ht : PageTables s root) (path : List Nat) : Opened root path s s := by
  refine ⟨Grows.refl ht, rfl, fun _ _ _ h => h, ?_, ?_, ?_, fun p hp hn => absurd hp hn,
    fun _ => rfl⟩
  · rw [newPaths_self]
    exact fun r hr => absurd hr (Set.notMem_empty r)
  · rw [newPaths_self, Set.ncard_empty, Nat.add_zero]
  · rw [newPaths_self, Set.ncard_empty, Nat.add_zero]

theorem Opened.paths_subset (h : Opened root path s s') :
    tablePaths s.mem root ⊆ tablePaths s'.mem root := by
  rintro r ⟨hr, hf⟩
  obtain ⟨f, hf⟩ := Option.ne_none_iff_exists'.mp hf
  exact ⟨hr, by rw [h.kept r f hr hf]; exact Option.some_ne_none f⟩

theorem Opened.finite (h : Opened root path s s') : (newPaths root s s').Finite :=
  (finite_prefixes path).subset h.onPath

theorem Opened.trans (hst : Opened root path s t) (hts : Opened root path t s') :
    Opened root path s s' := by
  have hsplit : newPaths root s s' = newPaths root t s' ∪ newPaths root s t :=
    (Set.sdiff_union_sdiff_cancel hts.paths_subset hst.paths_subset).symm
  have hcard : (newPaths root s s').ncard =
      (newPaths root t s').ncard + (newPaths root s t).ncard := by
    rw [hsplit]
    apply Set.ncard_union_eq _ hts.finite hst.finite
    exact Set.disjoint_left.mpr fun r hr hr' => hr.2 hr'.1
  refine ⟨hst.grows.trans hts.grows, hts.entries.trans hst.entries, ?_, ?_, ?_, ?_, ?_, ?_⟩
  · exact fun r f hr hf => hts.kept r f hr (hst.kept r f hr hf)
  · rw [hsplit]
    rintro r (hr | hr)
    · exact hts.onPath r hr
    · exact hst.onPath r hr
  · have h1 := hst.paid
    have h2 := hts.paid
    omega
  · have h1 := hst.counted
    have h2 := hts.counted
    omega
  · intro p hp hn
    rw [hsplit]
    by_cases hmid : p ∈ freeSet t.pmm.bitmap
    · obtain ⟨r, hr, hf⟩ := hts.placed p hmid hn
      exact ⟨r, Or.inl hr, hf⟩
    · obtain ⟨r, hr, hf⟩ := hst.placed p hp hmid
      exact ⟨r, Or.inr hr, hts.kept r _ hr.1.1 hf⟩
  · intro hnone
    rw [hsplit, Set.union_empty_iff] at hnone
    exact (hts.untouched hnone.1).trans (hst.untouched hnone.2)

/-- A new link is the one path more. -/
theorem newPaths_of_newLink (ht : PageTables s root)
    (hl : NewLink (child s.mem) (child t.mem) root 3 p g i q) :
    newPaths root s t = {p ++ [i]} := by
  have hgrow : tablePaths t.mem root = insert (p ++ [i]) (tablePaths s.mem root) :=
    paths_grow ht.tree hl
  rw [newPaths, hgrow]
  exact Set.insert_sdiff_eq_singleton hl.notMem_paths

/-- One new table on the path. -/
theorem opened_of_taken (ht : PageTables s root) (hlen : path.length ≤ 3)
    (hpath : p ++ [index.toNat] <+: path) (hg : follow (child s.mem) root p = some g)
    (hi : index.toNat < 512) (habsent : ¬ isPresent (loadPte s.mem g index))
    (hne : s.pmm.freePages ≠ 0) (htaken : Taken s {q} t) :
    Opened root path s { t with mem := storePte t.mem g index (tablePte q) } ∧
      follow (child (storePte t.mem g index (tablePte q))) root (p ++ [index.toNat]) =
        some (q * 4096) := by
  have hle : (p ++ [index.toNat]).length ≤ 3 := hpath.length_le.trans hlen
  have hp : p.length < 3 := by
    rw [List.length_append, List.length_singleton] at hle
    exact hle
  have haddr := tablePte_land_addrMask htaken.page_lt
  have hpte := isPresent_tablePte q
  have hl := newLink_of_taken ht hp hg hi habsent htaken hpte haddr
  have hend : follow (child (storePte t.mem g index (tablePte q))) root (p ++ [index.toNat]) =
      some (q * 4096) := by
    rw [follow_grow ht.tree hl hle, if_pos rfl]
  have hnew : newPaths root s { t with mem := storePte t.mem g index (tablePte q) } =
      {p ++ [index.toNat]} := newPaths_of_newLink ht hl
  refine ⟨⟨grows_of_taken ht hp hg hi habsent htaken hne hpte haddr,
    funext (pageEntry_of_taken ht hp hg hi habsent htaken hpte haddr), ?_, ?_, ?_, ?_, ?_,
    fun hnone => absurd (hnew.symm.trans hnone) (Set.singleton_ne_empty _)⟩, hend⟩
  · intro r f hr hf
    rw [follow_grow ht.tree hl hr, if_neg]
    · exact hf
    · rintro rfl
      exact hl.notMem_paths ⟨hr, by rw [hf]; exact Option.some_ne_none f⟩
  · rw [hnew]
    rintro r rfl
    exact hpath
  · rw [hnew, Set.ncard_singleton]
    exact htaken.available_pred hne
  · rw [hnew, Set.ncard_singleton]
    exact htaken.freePages_pred hne
  · intro p' hp' hn
    have hq : p' = q := by
      by_contra hpq
      apply hn
      change p' ∈ freeSet t.pmm.bitmap
      rw [htaken.freeSet_eq, Finset.mem_sdiff, Finset.mem_singleton]
      exact ⟨hp', hpq⟩
    rw [hnew, hq]
    exact ⟨_, rfl, hend⟩

/-- **What opening a path does**: it comes to the end of the path, or it stops because
no page is left to pay with. -/
theorem openTables_spec (ht : PageTables s root) (hlen : path.length ≤ 3) {indices : List UInt64}
    (hindices : ∀ index ∈ indices, index.toNat < 512)
    (hpath : p ++ indices.map UInt64.toNat = path) (hg : follow (child s.mem) root p = some g) :
    ∃ r s', openTables s g indices = (r, s') ∧ Opened root path s s' ∧
      ((∃ f, r = some f ∧ follow (child s'.mem) root path = some f) ∨
        (r = none ∧ available s'.pmm = 0 ∧ follow (child s'.mem) root path = none)) := by
  induction indices generalizing s p g with
  | nil =>
    rw [List.map_nil, List.append_nil] at hpath
    subst hpath
    exact ⟨some g, s, rfl, Opened.refl ht p, Or.inl ⟨g, rfl, hg⟩⟩
  | cons index indices ih =>
    have hi := hindices index List.mem_cons_self
    have hrest := fun i hi => hindices i (List.mem_cons_of_mem index hi)
    have hpath' : (p ++ [index.toNat]) ++ indices.map UInt64.toNat = path := by
      rw [← hpath, List.map_cons, List.append_assoc]
      rfl
    have hpre : p ++ [index.toNat] <+: path := ⟨_, hpath'⟩
    have hp : p.length < 3 := by
      have := hpre.length_le
      rw [List.length_append, List.length_singleton] at this
      omega
    rcases getOrCreateTable_cases s g index with
      ⟨hpres, heq⟩ | ⟨habsent, hzero, heq⟩ | ⟨q, t, habsent, hne, htaken, heq⟩
    · rcases child_of_path ht hp hg hi with ⟨habsent, -⟩ | ⟨f, -, hchild, hvirt⟩
      · exact absurd hpres habsent
      · rw [hvirt] at heq
        have hf : follow (child s.mem) root (p ++ [index.toNat]) = some f := by
          rw [follow_snoc, hg]
          exact hchild
        obtain ⟨r, s', hopen, hspec⟩ := ih ht hrest hpath' hf
        exact ⟨r, s', by rw [openTables, heq]; exact hopen, hspec⟩
    · refine ⟨none, s, by rw [openTables, heq], Opened.refl ht path,
        Or.inr ⟨rfl, available_eq_zero.mpr hzero, ?_⟩⟩
      rcases child_of_path ht hp hg hi with ⟨-, hchild⟩ | ⟨f, hpres, -⟩
      · rw [← hpath', follow_append, follow_snoc, hg, Option.bind_some, hchild]
        rfl
      · exact absurd hpres habsent
    · obtain ⟨hopened, hf⟩ := opened_of_taken ht hlen hpre hg hi habsent hne htaken
      obtain ⟨r, s', hopen, hrest, hspec⟩ := ih hopened.grows.tables hrest hpath' hf
      exact ⟨r, s', by rw [openTables, heq]; exact hopen, hopened.trans hrest, hspec⟩

/-! ## Mapping a page -/

theorem finite_missingPaths (m : Memory) (root : Nat) (page : PageNumber) :
    (missingPaths m root page).Finite := (finite_prefixes _).subset Set.sdiff_subset

/-- A path of three indices has three stretches besides the empty one. -/
theorem prefix_tablePath_iff {r : List Nat} {page : PageNumber} (hr : r ≠ []) :
    r <+: tablePath page ↔ r = (tablePath page).take 1 ∨ r = (tablePath page).take 2 ∨
      r = (tablePath page).take 3 := by
  rcases r with _ | ⟨x, _ | ⟨y, _ | ⟨z, _ | ⟨u, t⟩⟩⟩⟩
  · exact absurd rfl hr
  all_goals simp [tablePath, List.cons_prefix_cons]

theorem nil_mem_tablePaths (m : Memory) (root : Nat) : [] ∈ tablePaths m root :=
  ⟨Nat.zero_le 3, Option.some_ne_none root⟩

/-- At most three tables are missing on a path. -/
theorem ncard_missingPaths_le (m : Memory) (root : Nat) (page : PageNumber) :
    (missingPaths m root page).ncard ≤ 3 := by
  have hsub : missingPaths m root page ⊆
      {(tablePath page).take 1, (tablePath page).take 2, (tablePath page).take 3} := by
    rintro r ⟨hr, hn⟩
    apply (prefix_tablePath_iff _).mp hr
    rintro rfl
    exact hn (nil_mem_tablePaths m root)
  have hle := Set.ncard_le_ncard hsub
  have h1 := Set.ncard_insert_le ((tablePath page).take 1)
    {(tablePath page).take 2, (tablePath page).take 3}
  have h2 := Set.ncard_insert_le ((tablePath page).take 2) {(tablePath page).take 3}
  rw [Set.ncard_singleton] at h2
  omega

/-- With the PML4 alone, only the empty path leads somewhere. -/
theorem tablePaths_root (ht : PageTables s root) (hframes : tableFrames s.mem root = {root}) :
    tablePaths s.mem root = {[]} := by
  ext r
  constructor
  · rintro ⟨hr, hf⟩
    obtain ⟨f, hf⟩ := Option.ne_none_iff_exists'.mp hf
    have hmem := mem_tableFrames hr hf
    rw [hframes, Set.mem_singleton_iff] at hmem
    exact ht.tree r [] root hr (Nat.zero_le 3) (hmem ▸ hf) rfl
  · rintro rfl
    exact nil_mem_tablePaths _ _

/-- Then all three tables are missing. -/
theorem ncard_missingPaths_root {m : Memory} (hroot : tablePaths m root = {[]})
    (page : PageNumber) : (missingPaths m root page).ncard = 3 := by
  have heq : missingPaths m root page =
      {(tablePath page).take 1, (tablePath page).take 2, (tablePath page).take 3} := by
    ext r
    rw [missingPaths, hroot]
    by_cases hr : r = []
    · subst hr
      exact iff_of_false (fun h => h.2 rfl) (by simp [tablePath])
    · rw [Set.mem_sdiff, Set.mem_ofPred_eq, prefix_tablePath_iff hr]
      exact and_iff_left hr
  rw [heq, Set.ncard_insert_of_notMem (by simp [tablePath]), Set.ncard_pair (by simp [tablePath])]

/-- When the path is open, exactly the tables that were missing are new. -/
theorem Opened.newPaths_eq {page : PageNumber} (h : Opened root (tablePath page) s s')
    (hf : follow (child s'.mem) root (tablePath page) = some f) :
    newPaths root s s' = missingPaths s.mem root page := by
  have hend : tablePath page ∈ tablePaths s'.mem root :=
    ⟨length_tablePath page, by rw [hf]; exact Option.some_ne_none f⟩
  ext r
  constructor
  · exact fun hr => ⟨h.onPath r hr, hr.2⟩
  · exact fun hr => ⟨paths_prefix_closed hend hr.1, hr.2⟩

/-- When the path could not be opened, some table is still missing. -/
theorem Opened.ncard_newPaths_lt {page : PageNumber} (h : Opened root (tablePath page) s s')
    (hf : follow (child s'.mem) root (tablePath page) = none) :
    (newPaths root s s').ncard < (missingPaths s.mem root page).ncard := by
  have hend : tablePath page ∉ tablePaths s'.mem root := fun hmem => hmem.2 hf
  apply Set.ncard_lt_ncard _ (finite_missingPaths _ _ _)
  refine ⟨fun r hr => ⟨h.onPath r hr, hr.2⟩, fun hsub => hend ?_⟩
  have hmissing : tablePath page ∈ missingPaths s.mem root page :=
    ⟨List.prefix_refl _, fun hmem => hend (h.paths_subset hmem)⟩
  exact (hsub hmissing).1

/-- Writing a leaf opens no path. -/
theorem tablePaths_storeLeaf {page : PageNumber} (ht : PageTables s root)
    (hf : follow (child s.mem) root (tablePath page) = some f) (pte : UInt64) :
    tablePaths (storePte s.mem f (UInt64.ofNat (page.val % 512)) pte) root =
      tablePaths s.mem root := by
  ext r
  refine and_congr_right fun hr => ?_
  rw [follow_storeLeaf ht hf pte hr]

/-- What a successful `vmm_map` does: the missing tables are there and paid for, and the
leaf entry is written. -/
structure MapDone (root : Nat) (page : PageNumber) (pte : UInt64) (s s' : PhysState) : Prop where
  entries : pageEntry s'.mem root = Function.update (pageEntry s.mem root) page pte
  paths : tablePaths s'.mem root = tablePaths s.mem root ∪ {r | r <+: tablePath page}
  paid : available s'.pmm + (missingPaths s.mem root page).ncard = available s.pmm
  counted : s'.pmm.freePages.toNat + (missingPaths s.mem root page).ncard =
    s.pmm.freePages.toNat

/-- **When `vmm_map` succeeds**: exactly when the tables that are missing on its path can
be paid for.  Otherwise every page that was left is a table now. -/
theorem vmmMap_outcome (h : VmmValid vmm s root) (virt : Vaddr) (phys : Paddr) (flags : UInt64) :
    ∃ ret vmm' s', vmmMap vmm s virt phys flags = (ret, vmm', s') ∧ VmmValid vmm' s' root ∧
      ((ret = -1 ∧ vmm' = vmm ∧ Opened root (tablePath (pageNumber virt)) s s' ∧
          available s'.pmm = 0 ∧
          available s.pmm < (missingPaths s.mem root (pageNumber virt)).ncard) ∨
        (ret = 0 ∧ MapDone root (pageNumber virt) (leafPte phys flags) s s')) := by
  have hpath : [] ++ (pathIndices (alignDown virt pageSize)).map UInt64.toNat =
      tablePath (pageNumber virt) := by
    rw [List.nil_append, map_pathIndices, pageNumber_alignDown]
  obtain ⟨r, t, hopen, hopened, hcase⟩ := openTables_spec h.tables
    (length_tablePath (pageNumber virt)) (pathIndices_lt _) hpath rfl
  obtain ⟨ret, vmm', s', heq, -, hvalid, -⟩ := vmmMap_spec h virt phys flags
  refine ⟨ret, vmm', s', heq, hvalid, ?_⟩
  rw [vmmMap_eq h.pml4, hopen] at heq
  have hpaid := hopened.paid
  have hcounted := hopened.counted
  rcases hcase with ⟨pt, rfl, hpt⟩ | ⟨rfl, hzero, hnone⟩
  · have hret : ret = 0 ∧ s' = ⟨t.pmm,
        storePte t.mem pt (UInt64.ofNat ((pageNumber virt).val % 512)) (leafPte phys flags)⟩ := by
      dsimp only at heq
      split at heq <;> cases heq <;> exact ⟨rfl, rfl⟩
    obtain ⟨rfl, rfl⟩ := hret
    have hentry := pageEntry_storeLeaf hopened.grows.tables hpt (leafPte phys flags)
    rw [hopened.entries] at hentry
    rw [hopened.newPaths_eq hpt] at hpaid hcounted
    refine Or.inr ⟨rfl, hentry, ?_, hpaid, hcounted⟩
    have hunion : tablePaths t.mem root =
        tablePaths s.mem root ∪ {r | r <+: tablePath (pageNumber virt)} := by
      have hnew := hopened.newPaths_eq hpt
      rw [newPaths, missingPaths] at hnew
      rw [← Set.union_sdiff_cancel hopened.paths_subset, hnew, Set.union_sdiff_self]
    exact (tablePaths_storeLeaf hopened.grows.tables hpt _).trans hunion
  · cases heq
    refine Or.inl ⟨rfl, rfl, hopened, hzero, ?_⟩
    have hlt := hopened.ncard_newPaths_lt hnone
    omega

/-- Three pages are enough for any page. -/
theorem vmmMap_enough (h : VmmValid vmm s root) (hpages : 3 ≤ available s.pmm) (virt : Vaddr)
    (phys : Paddr) (flags : UInt64) :
    ∃ vmm' s', vmmMap vmm s virt phys flags = (0, vmm', s') ∧ VmmValid vmm' s' root ∧
      MapDone root (pageNumber virt) (leafPte phys flags) s s' := by
  obtain ⟨ret, vmm', s', heq, hvalid, hcase⟩ := vmmMap_outcome h virt phys flags
  have hmissing := ncard_missingPaths_le s.mem root (pageNumber virt)
  rcases hcase with ⟨-, -, -, -, hlt⟩ | ⟨rfl, hdone⟩
  · omega
  · exact ⟨vmm', s', heq, hvalid, hdone⟩

/-- The address space `vmm_init` sets up: one page less, every path still to be created,
and nothing mapped. -/
theorem vmmInit_available {n : Nat} (h : available s.pmm = n + 1) :
    ∃ root, VmmValid (vmmInit s).1 (vmmInit s).2 root ∧ available (vmmInit s).2.pmm = n ∧
      tablePaths (vmmInit s).2.mem root = {[]} ∧
      ∀ page, pageEntry (vmmInit s).2.mem root page = 0 := by
  rcases vmmInit_cases s with ⟨hnone, -⟩ | ⟨q, -, hne, htaken, hvalid, hframes, hentry⟩
  · exact absurd hnone (vmmInit_ne_none (by omega))
  · have hpred := htaken.available_pred hne
    exact ⟨q * 4096, hvalid, by omega, tablePaths_root hvalid.tables hframes, hentry⟩

end OsKernel
