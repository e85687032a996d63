import OsKernel.PathWalk
import OsKernel.Vmm

/-! # The page tables are an owned tree

The tables of an address space are the frames within three links of its PML4.
`PageTables` says that they form a tree and that the physical memory manager has
handed every one of them out.  `Grows` is all that an operation on the address
space may do to the physical memory: hang frames that were free below the tree,
and write inside its frames.  What the address space *means* is its leaf entry
for every page number (`pageEntry`); creating tables changes none of them, and
writing a leaf changes one.
-/
namespace OsKernel

/-- The table that entry `i` of the table at `f` points to. -/
def child (mem : Memory) (f i : Nat) : Option Nat :=
  let pte := loadPte mem f (UInt64.ofNat i)
  if i < 512 ∧ isPresent pte then some (pte &&& pteAddrMask).toNat else none

/-- The table frames of the address space with PML4 `root`. -/
def tableFrames (mem : Memory) (root : Nat) : Set Nat := reached (child mem) root 3

/-- A page number: bits 47..12 of an address. -/
abbrev PageNumber := Fin (2 ^ 36)

/-- The page number of a virtual address. -/
def pageNumber (virt : Vaddr) : PageNumber := ⟨virt.toNat / 4096 % 2 ^ 36, Nat.mod_lt _ (by decide)⟩

/-- The three indices that lead from the PML4 to the page table of a page. -/
def tablePath (page : PageNumber) : List Nat :=
  [page.val / 2 ^ 27, page.val / 2 ^ 18 % 512, page.val / 2 ^ 9 % 512]

/-- The leaf entry of a page; an absent page table counts as one full of zeros. -/
def pageEntry (mem : Memory) (root : Nat) (page : PageNumber) : UInt64 :=
  match follow (child mem) root (tablePath page) with
  | some pt => loadPte mem pt (UInt64.ofNat (page.val % 512))
  | none => 0

/-- The frame at `f` is a page of the simulated memory. -/
def IsFrame (f : Nat) : Prop := f % 4096 = 0 ∧ f / 4096 < pmmMaxPages

/-- **The tables of `root` are a tree of frames that are in use.** -/
structure PageTables (s : PhysState) (root : Nat) : Prop where
  tree : Unshared (child s.mem) root 3
  frame : ∀ f ∈ tableFrames s.mem root, IsFrame f
  used : ∀ f ∈ tableFrames s.mem root, f / 4096 ∉ freeSet s.pmm.bitmap

/-- What an operation on the address space of `root` may do. -/
structure Grows (root : Nat) (s s' : PhysState) : Prop where
  tables : PageTables s' root
  kept : tableFrames s.mem root ⊆ tableFrames s'.mem root
  fresh : ∀ f ∈ tableFrames s'.mem root, f ∉ tableFrames s.mem root →
    f / 4096 ∈ freeSet s.pmm.bitmap
  freeSet_subset : freeSet s'.pmm.bitmap ⊆ freeSet s.pmm.bitmap
  outside : ∀ x, x / 4096 * 4096 ∉ tableFrames s'.mem root → s'.mem x = s.mem x
  count : s'.pmm.freePages.toNat + (tableFrames s'.mem root).ncard =
    s.pmm.freePages.toNat + (tableFrames s.mem root).ncard

/-- The pages `pmm_alloc` can still hand out; it asks its counter, and then its
bitmap. -/
def available (pmm : Pmm) : Nat := min pmm.freePages.toNat (freeSet pmm.bitmap).card

variable {s s' t : PhysState} {root f g q i j : Nat} {m m' : Memory} {index pte : UInt64}
  {p : List Nat} {page : PageNumber}

/-! ## Entries -/

theorem isPresent_lor_present (x : UInt64) : isPresent (x ||| ptePresent) := by
  intro h
  rw [land_lor_distrib_right, UInt64.and_self, ← UInt64.toNat_inj, UInt64.toNat_or] at h
  have hbit := congrArg (Nat.testBit · 0) h
  rw [Nat.testBit_or] at hbit
  simp [ptePresent] at hbit

theorem toNat_land_addrMask (x : UInt64) :
    (x &&& pteAddrMask).toNat = x.toNat / 4096 % 2 ^ 40 * 4096 := by
  rw [UInt64.toNat_and]
  exact land_field x.toNat 12 40

/-- The address field of an entry is the address it was made from. -/
theorem entry_land_addrMask {a flags : UInt64} (hflags : flags &&& pteAddrMask = 0) :
    ((a &&& pteAddrMask) ||| flags ||| ptePresent) &&& pteAddrMask = a &&& pteAddrMask := by
  rw [land_lor_distrib_right, land_lor_distrib_right, hflags, UInt64.and_assoc, UInt64.and_self,
    show ptePresent &&& pteAddrMask = 0 from rfl, UInt64.or_zero, UInt64.or_zero]

theorem pageAddr_land_addrMask (hq : q < pmmMaxPages) :
    pageAddr q &&& pteAddrMask = pageAddr q := by
  rw [pmmMaxPages_eq] at hq
  have hq' : q ≤ pmmMaxPages := by rw [pmmMaxPages_eq]; omega
  rw [← UInt64.toNat_inj, toNat_land_addrMask, toNat_pageAddr hq']
  omega

theorem physToVirt_pageAddr (hq : q < pmmMaxPages) : physToVirt (pageAddr q) = some (q * 4096) := by
  rw [physToVirt, if_neg (pageAddr_lt hq), toNat_pageAddr hq.le]

/-- `phys_to_virt` of a frame's address is the frame. -/
theorem physToVirt_frame {a : Paddr} (ha : IsFrame a.toNat) : physToVirt a = some a.toNat := by
  rw [physToVirt, if_neg]
  have hlt := ha.2
  rw [pmmMaxPages_eq] at hlt
  rw [UInt64.le_iff_toNat_le, toNat_physMemSize]
  omega

theorem loadPte_congr (hf : f % 4096 = 0) (hi : index.toNat < 512)
    (h : ∀ x, x / 4096 = f / 4096 → m x = m' x) : loadPte m f index = loadPte m' f index := by
  have hload : m.load (f + 8 * index.toNat) 8 = m'.load (f + 8 * index.toNat) 8 :=
    Memory.load_congr fun x h1 h2 => h x (by omega)
  rw [loadPte, loadPte, hload]

theorem loadPte_zero (hi : index.toNat < 512) (hf : f % 4096 = 0)
    (h : ∀ x, x / 4096 = f / 4096 → m x = 0) : loadPte m f index = 0 := by
  rw [loadPte, Memory.load_zero fun x h1 h2 => h x (by omega)]
  rfl

@[simp] theorem loadPte_storePte (m : Memory) (f : Nat) (index pte : UInt64) :
    loadPte (storePte m f index pte) f index = pte := by
  have hmod : pte.toNat % 256 ^ 8 = pte.toNat := Nat.mod_eq_of_lt pte.toNat_lt
  rw [loadPte, storePte, Memory.load_store, hmod, UInt64.ofNat_toNat]

theorem loadPte_storePte_ne {index' : UInt64} (hf : f % 4096 = 0) (hg : g % 4096 = 0)
    (hi : index.toNat < 512) (hi' : index'.toNat < 512) (hne : ¬ (g = f ∧ index' = index)) :
    loadPte (storePte m f index pte) g index' = loadPte m g index' := by
  rw [← UInt64.toNat_inj] at hne
  rw [loadPte, storePte, Memory.load_store_disjoint, loadPte]
  omega

theorem storePte_outside {x : Nat} (hf : f % 4096 = 0) (hi : index.toNat < 512)
    (hx : x / 4096 ≠ f / 4096) : storePte m f index pte x = m x :=
  Memory.store_outside (by omega)

theorem toNat_ofNat_index (hi : i < 512) : (UInt64.ofNat i).toNat = i :=
  UInt64.toNat_ofNat_of_lt' (show i < 2 ^ 64 by omega)

/-- The entries of a table decide its children. -/
theorem child_congr
    (h : ∀ index : UInt64, index.toNat < 512 → loadPte m' f index = loadPte m f index)
    (i : Nat) : child m' f i = child m f i := by
  by_cases hi : i < 512
  · simp only [child, h (UInt64.ofNat i) (by rw [toNat_ofNat_index hi]; exact hi)]
  · simp only [child, hi, false_and, if_false]

theorem child_none (h : ¬ isPresent (loadPte m f (UInt64.ofNat i))) : child m f i = none := by
  rw [child, if_neg fun hc => h hc.2]

theorem child_some (hi : i < 512) (h : isPresent (loadPte m f (UInt64.ofNat i))) :
    child m f i = some (loadPte m f (UInt64.ofNat i) &&& pteAddrMask).toNat := by
  rw [child, if_pos ⟨hi, h⟩]

theorem child_ne_none (h : child m f i ≠ none) : i < 512 := by
  by_contra hi
  rw [child, if_neg fun hc => hi hc.1] at h
  exact h rfl

/-! ## Growth -/

theorem mem_tableFrames (hp : p.length ≤ 3) (hf : follow (child m) root p = some f) :
    f ∈ tableFrames m root := ⟨p, hp, hf⟩

theorem PageTables.finite (h : PageTables s root) : (tableFrames s.mem root).Finite := by
  refine (Set.finite_lt_nat (pmmMaxPages * 4096)).subset fun f hf => ?_
  have hlt := (h.frame f hf).2
  change f < pmmMaxPages * 4096
  omega

theorem Grows.refl (h : PageTables s root) : Grows root s s :=
  ⟨h, Set.Subset.rfl, fun _ hf hn => absurd hf hn, Finset.Subset.refl _, fun _ _ => rfl, rfl⟩

theorem Grows.trans (h : Grows root s t) (h' : Grows root t s') : Grows root s s' where
  tables := h'.tables
  kept := h.kept.trans h'.kept
  fresh := by
    intro f hf hn
    by_cases ht : f ∈ tableFrames t.mem root
    · exact h.fresh f ht hn
    · exact h.freeSet_subset (h'.fresh f hf ht)
  freeSet_subset := h'.freeSet_subset.trans h.freeSet_subset
  outside := fun x hx => (h'.outside x hx).trans (h.outside x fun hm => hx (h'.kept hm))
  count := h'.count.trans h.count

/-- A frame that is neither a table of the space nor free keeps its bytes. -/
theorem Grows.outside_of_used (h : Grows root s s') {x : Nat}
    (hx : x / 4096 * 4096 ∉ tableFrames s.mem root) (hused : x / 4096 ∉ freeSet s.pmm.bitmap) :
    s'.mem x = s.mem x := by
  refine h.outside x fun hm => hused ?_
  have := h.fresh _ hm hx
  rwa [mul_page_div] at this

/-! ## Creating a table -/

/-- The page `pmm_alloc` takes is one less in `free_pages`. -/
theorem Taken.freePages_pred (htaken : Taken s {q} t) (hne : s.pmm.freePages ≠ 0) :
    t.pmm.freePages.toNat + 1 = s.pmm.freePages.toNat := by
  have hpos : 0 < s.pmm.freePages.toNat := by
    rw [Nat.pos_iff_ne_zero, Ne, ← UInt64.toNat_zero, UInt64.toNat_inj]
    exact hne
  have hsub : t.pmm.freePages.toNat = s.pmm.freePages.toNat - 1 := by
    rw [htaken.freePages_eq, Finset.card_singleton]
    exact UInt64.toNat_sub_of_le _ _ (UInt64.le_iff_toNat_le.mpr hpos)
  omega

theorem available_eq_zero {pmm : Pmm} :
    available pmm = 0 ↔ pmm.freePages = 0 ∨ freeSet pmm.bitmap = ∅ := by
  rw [available, Nat.min_eq_zero_iff, Finset.card_eq_zero, ← UInt64.toNat_inj]
  rfl

theorem Taken.available_pred (htaken : Taken s {q} t) (hne : s.pmm.freePages ≠ 0) :
    available t.pmm + 1 = available s.pmm := by
  have hfree := htaken.freePages_pred hne
  have hcard := Finset.card_sdiff_add_card_eq_card htaken.free
  rw [← htaken.freeSet_eq, Finset.card_singleton] at hcard
  rw [available, available]
  omega

/-- A zeroed table has no children. -/
theorem child_zeroed (hzero : ∀ x, x / 4096 = q → m x = 0) (i : Nat) :
    child m (q * 4096) i = none := by
  have hqpage : q * 4096 / 4096 = q := mul_page_div q
  by_cases hi : i < 512
  · refine child_none ?_
    rw [loadPte_zero (by rw [toNat_ofNat_index hi]; exact hi) (Nat.mul_mod_left q 4096)]
    · exact fun h => h rfl
    · intro x hx
      rw [hqpage] at hx
      exact hzero x hx
  · simp only [child, hi, false_and, if_false]

/-- The page `pmm_alloc` takes is none of the tables. -/
theorem PageTables.ne_of_taken (ht : PageTables s root) (htaken : Taken s {q} t)
    (hf : f ∈ tableFrames s.mem root) : f / 4096 ≠ q :=
  fun he => ht.used f hf (he ▸ htaken.mem_free)

section Link
variable (ht : PageTables s root) (htaken : Taken s {q} t) (hg : g ∈ tableFrames s.mem root)
  (hi : index.toNat < 512)
include ht htaken hg hi

/-- The new page stays zeroed when an entry of a table is written. -/
theorem zeroed_of_taken {x : Nat} (hx : x / 4096 = q) : storePte t.mem g index pte x = 0 := by
  rw [storePte_outside (ht.frame g hg).1 hi (by rw [hx]; exact (ht.ne_of_taken htaken hg).symm)]
  exact htaken.zeroed x (Finset.mem_singleton.mpr hx)

/-- Taking a page and writing one entry leaves the other entries of the tables. -/
theorem loadPte_of_taken {index' : UInt64} (hf : f ∈ tableFrames s.mem root)
    (hi' : index'.toNat < 512) (hne : ¬ (f = g ∧ index' = index)) :
    loadPte (storePte t.mem g index pte) f index' = loadPte s.mem f index' := by
  have hf0 := (ht.frame f hf).1
  rw [loadPte_storePte_ne (ht.frame g hg).1 hf0 hi hi' hne]
  refine loadPte_congr hf0 hi' fun x hx => htaken.frame x ?_
  rw [Finset.mem_singleton, hx]
  exact ht.ne_of_taken htaken hf

/-- Memory outside the tables and the new page is as it was. -/
theorem storePte_of_taken {x : Nat} (hxq : x / 4096 * 4096 ≠ q * 4096)
    (hx : x / 4096 * 4096 ∉ tableFrames s.mem root) : storePte t.mem g index pte x = s.mem x := by
  have hg0 := (ht.frame g hg).1
  have hxg : x / 4096 ≠ g / 4096 := by
    intro he
    exact hx ((show x / 4096 * 4096 = g by omega) ▸ hg)
  refine (storePte_outside hg0 hi hxg).trans (htaken.frame x ?_)
  rw [Finset.mem_singleton]
  rintro rfl
  exact hxq rfl

end Link

/-- Hanging a freshly allocated page below an empty entry of a table. -/
theorem newLink_of_taken (ht : PageTables s root) (hp : p.length < 3)
    (hg : follow (child s.mem) root p = some g) (hi : index.toNat < 512)
    (habsent : ¬ isPresent (loadPte s.mem g index)) (htaken : Taken s {q} t)
    (hpte : isPresent pte) (haddr : pte &&& pteAddrMask = pageAddr q) :
    NewLink (child s.mem) (child (storePte t.mem g index pte)) root 3 p g index.toNat
      (q * 4096) := by
  have hq : q < pmmMaxPages := htaken.page_lt
  have hgf := mem_tableFrames hp.le hg
  have hidx : UInt64.ofNat index.toNat = index := UInt64.ofNat_toNat
  refine ⟨hp, hg, child_none (by rw [hidx]; exact habsent), ?_, ?_, ?_, ?_⟩
  · rw [child_some hi (by rw [hidx, loadPte_storePte]; exact hpte), hidx, loadPte_storePte, haddr,
      toNat_pageAddr hq.le]
  · intro r f i hr hf hne
    by_cases hi' : i < 512
    · have hi'' : (UInt64.ofNat i).toNat < 512 := by rwa [toNat_ofNat_index hi']
      have hload : loadPte (storePte t.mem g index pte) f (UInt64.ofNat i) =
          loadPte s.mem f (UInt64.ofNat i) := by
        refine loadPte_of_taken ht htaken hgf hi (mem_tableFrames hr.le hf) hi'' ?_
        rintro ⟨rfl, rfl⟩
        exact hne ⟨rfl, (toNat_ofNat_index hi').symm⟩
      simp only [child, hload]
    · simp only [child, hi', false_and, if_false]
  · exact child_zeroed fun x hx => zeroed_of_taken ht htaken hgf hi hx
  · intro hmem
    exact ht.ne_of_taken htaken hmem (mul_page_div _)

/-- The new page is the one table more. -/
theorem tableFrames_of_taken (ht : PageTables s root) (hp : p.length < 3)
    (hg : follow (child s.mem) root p = some g) (hi : index.toNat < 512)
    (habsent : ¬ isPresent (loadPte s.mem g index)) (htaken : Taken s {q} t)
    (hpte : isPresent pte) (haddr : pte &&& pteAddrMask = pageAddr q) :
    tableFrames (storePte t.mem g index pte) root = insert (q * 4096) (tableFrames s.mem root) :=
  reached_grow ht.tree (newLink_of_taken ht hp hg hi habsent htaken hpte haddr)

/-- The tables with the new page are tables. -/
theorem pageTables_of_link (ht : PageTables s root) (hp : p.length < 3)
    (hg : follow (child s.mem) root p = some g) (hi : index.toNat < 512)
    (habsent : ¬ isPresent (loadPte s.mem g index)) (htaken : Taken s {q} t)
    (hpte : isPresent pte) (haddr : pte &&& pteAddrMask = pageAddr q) :
    PageTables { t with mem := storePte t.mem g index pte } root := by
  have hl := newLink_of_taken ht hp hg hi habsent htaken hpte haddr
  have hframes := tableFrames_of_taken ht hp hg hi habsent htaken hpte haddr
  have hqpage : q * 4096 / 4096 = q := mul_page_div q
  refine ⟨unshared_grow ht.tree hl, ?_, ?_⟩
  · intro f hf
    rw [hframes] at hf
    rcases hf with rfl | hf
    · exact ⟨Nat.mul_mod_left q 4096, hqpage.symm ▸ freeSet_lt htaken.mem_free⟩
    · exact ht.frame f hf
  · intro f hf
    rw [hframes] at hf
    rw [htaken.freeSet_eq, Finset.mem_sdiff, Finset.mem_singleton]
    rcases hf with rfl | hf
    · exact fun h => h.2 hqpage
    · exact fun h => ht.used f hf h.1

theorem grows_of_taken (ht : PageTables s root) (hp : p.length < 3)
    (hg : follow (child s.mem) root p = some g) (hi : index.toNat < 512)
    (habsent : ¬ isPresent (loadPte s.mem g index)) (htaken : Taken s {q} t)
    (hne : s.pmm.freePages ≠ 0)
    (hpte : isPresent pte) (haddr : pte &&& pteAddrMask = pageAddr q) :
    Grows root s { t with mem := storePte t.mem g index pte } := by
  have hl := newLink_of_taken ht hp hg hi habsent htaken hpte haddr
  have hframes := tableFrames_of_taken ht hp hg hi habsent htaken hpte haddr
  refine ⟨pageTables_of_link ht hp hg hi habsent htaken hpte haddr, ?_, ?_, ?_, ?_, ?_⟩
  · rw [hframes]
    exact Set.subset_insert _ _
  · intro f hf hn
    rw [hframes] at hf
    rcases hf with rfl | hf
    · rw [mul_page_div]
      exact htaken.mem_free
    · exact absurd hf hn
  · rw [htaken.freeSet_eq]
    exact Finset.sdiff_subset
  · intro x hx
    rw [hframes, Set.mem_insert_iff, not_or] at hx
    exact storePte_of_taken ht htaken (mem_tableFrames hp.le hg) hi hx.1 hx.2
  · have hfresh : q * 4096 ∉ tableFrames s.mem root := hl.fresh
    have hfree := htaken.freePages_pred hne
    rw [hframes, Set.ncard_insert_of_notMem hfresh ht.finite]
    change t.pmm.freePages.toNat + _ = _
    omega

theorem length_tablePath (page : PageNumber) : (tablePath page).length ≤ 3 := Nat.le_refl 3

/-- A page table is none of the tables above the last level. -/
theorem follow_ne_of_length (ht : PageTables s root) (hp : p.length < 3)
    (hg : follow (child s.mem) root p = some g)
    (hf : follow (child s.mem) root (tablePath page) = some f) : f ≠ g := by
  rintro rfl
  have := ht.tree _ _ _ (length_tablePath page) hp.le hf hg
  rw [← this] at hp
  exact absurd hp (by simp [tablePath])

theorem page_mod_lt (page : PageNumber) : (UInt64.ofNat (page.val % 512)).toNat < 512 := by
  rw [toNat_ofNat_index (Nat.mod_lt _ (by decide))]
  exact Nat.mod_lt _ (by decide)

/-- A new table changes no leaf entry: it is all zeros. -/
theorem pageEntry_of_taken (ht : PageTables s root) (hp : p.length < 3)
    (hg : follow (child s.mem) root p = some g) (hi : index.toNat < 512)
    (habsent : ¬ isPresent (loadPte s.mem g index)) (htaken : Taken s {q} t)
    (hpte : isPresent pte) (haddr : pte &&& pteAddrMask = pageAddr q) (page : PageNumber) :
    pageEntry (storePte t.mem g index pte) root page = pageEntry s.mem root page := by
  have hl := newLink_of_taken ht hp hg hi habsent htaken hpte haddr
  have hgf := mem_tableFrames hp.le hg
  have hlen := length_tablePath page
  rw [pageEntry, pageEntry, follow_grow ht.tree hl hlen]
  by_cases hnew : tablePath page = p ++ [index.toNat]
  · rw [if_pos hnew, hnew, follow_snoc, hg]
    simp only [Option.bind_some, hl.absent]
    refine loadPte_zero (page_mod_lt page) (Nat.mul_mod_left q 4096) fun x hx => ?_
    exact zeroed_of_taken ht htaken hgf hi (hx.trans (mul_page_div q))
  · rw [if_neg hnew]
    cases hf : follow (child s.mem) root (tablePath page) with
    | none => rfl
    | some f =>
      exact loadPte_of_taken ht htaken hgf hi (mem_tableFrames hlen hf) (page_mod_lt page)
        fun h => follow_ne_of_length ht hp hg hf h.1

theorem tableFlags_land_addrMask : tableFlags &&& pteAddrMask = 0 := rfl

/-- One step of a walk. -/
theorem child_of_path (ht : PageTables s root) (hp : p.length < 3)
    (hg : follow (child s.mem) root p = some g) (hi : index.toNat < 512) :
    (¬ isPresent (loadPte s.mem g index) ∧ child s.mem g index.toNat = none) ∨
    ∃ f, isPresent (loadPte s.mem g index) ∧ child s.mem g index.toNat = some f ∧
      physToVirt (loadPte s.mem g index &&& pteAddrMask) = some f := by
  have hidx : UInt64.ofNat index.toNat = index := UInt64.ofNat_toNat
  by_cases hpres : isPresent (loadPte s.mem g index)
  · have hchild := child_some hi (m := s.mem) (f := g) (by rw [hidx]; exact hpres)
    rw [hidx] at hchild
    have hnext : follow (child s.mem) root (p ++ [index.toNat]) =
        some (loadPte s.mem g index &&& pteAddrMask).toNat := by
      rw [follow_snoc, hg]
      exact hchild
    have hlen : (p ++ [index.toNat]).length ≤ 3 := by
      rw [List.length_append, List.length_singleton]
      exact hp
    exact Or.inr ⟨_, hpres, hchild, physToVirt_frame (ht.frame _ (mem_tableFrames hlen hnext))⟩
  · exact Or.inl ⟨hpres, child_none (by rw [hidx]; exact hpres)⟩

/-- The entry `get_or_create_table` writes for a new table. -/
def tablePte (q : Nat) : UInt64 := (pageAddr q &&& pteAddrMask) ||| tableFlags ||| ptePresent

theorem isPresent_tablePte (q : Nat) : isPresent (tablePte q) := isPresent_lor_present _

theorem tablePte_land_addrMask (hq : q < pmmMaxPages) :
    tablePte q &&& pteAddrMask = pageAddr q := by
  rw [tablePte, entry_land_addrMask tableFlags_land_addrMask, pageAddr_land_addrMask hq]

/-- `get_or_create_table` finds a table, finds neither a table nor a page to allocate, or
hangs a page it took below an entry that was not present. -/
theorem getOrCreateTable_cases (s : PhysState) (g : Nat) (index : UInt64) :
    (isPresent (loadPte s.mem g index) ∧ getOrCreateTable s g index tableFlags =
      (physToVirt (loadPte s.mem g index &&& pteAddrMask), s)) ∨
    (¬ isPresent (loadPte s.mem g index) ∧
      (s.pmm.freePages = 0 ∨ freeSet s.pmm.bitmap = ∅) ∧
      getOrCreateTable s g index tableFlags = (none, s)) ∨
    ∃ q t, ¬ isPresent (loadPte s.mem g index) ∧ s.pmm.freePages ≠ 0 ∧ Taken s {q} t ∧
      getOrCreateTable s g index tableFlags =
        (some (q * 4096), { t with mem := storePte t.mem g index (tablePte q) }) := by
  unfold getOrCreateTable
  by_cases hpres : isPresent (loadPte s.mem g index)
  · rw [if_neg (not_not.mpr hpres)]
    exact Or.inl ⟨hpres, rfl⟩
  · rw [if_pos hpres]
    rcases pmmAlloc_cases s with ⟨heq, hzero⟩ | ⟨heq, -, hempty⟩ | ⟨q, t, heq, hne, -, htaken⟩
    · rw [heq]
      exact Or.inr (Or.inl ⟨hpres, Or.inl hzero, rfl⟩)
    · rw [heq]
      exact Or.inr (Or.inl ⟨hpres, Or.inr hempty, rfl⟩)
    · have hq := htaken.page_lt
      refine Or.inr (Or.inr ⟨q, t, hpres, hne, htaken, ?_⟩)
      rw [heq]
      simp only [AllocReturn.value, if_neg (pageAddr_ne_noAddr hq), loadPte_storePte]
      rw [← tablePte, tablePte_land_addrMask hq, physToVirt_pageAddr hq]

/-- **What `get_or_create_table` does** at a table of the upper three levels: the
tree grows, no leaf entry changes, and a returned table is the child it was asked
for. -/
theorem getOrCreateTable_spec (ht : PageTables s root) (hp : p.length < 3)
    (hg : follow (child s.mem) root p = some g) (hi : index.toNat < 512) :
    ∃ r s', getOrCreateTable s g index tableFlags = (r, s') ∧ Grows root s s' ∧
      pageEntry s'.mem root = pageEntry s.mem root ∧
      ∀ f, r = some f → follow (child s'.mem) root (p ++ [index.toNat]) = some f := by
  rcases getOrCreateTable_cases s g index with
    ⟨hpres, heq⟩ | ⟨-, -, heq⟩ | ⟨q, t, habsent, hne, htaken, heq⟩
  · refine ⟨_, s, heq, Grows.refl ht, rfl, fun f hf => ?_⟩
    rcases child_of_path ht hp hg hi with ⟨habsent, -⟩ | ⟨f', -, hchild, hvirt⟩
    · exact absurd hpres habsent
    · rw [follow_snoc, hg, ← hf, hvirt]
      exact hchild
  · exact ⟨none, s, heq, Grows.refl ht, rfl, fun f hf => by cases hf⟩
  · have haddr := tablePte_land_addrMask htaken.page_lt
    have hpte := isPresent_tablePte q
    have hl := newLink_of_taken ht hp hg hi habsent htaken hpte haddr
    refine ⟨_, _, heq, grows_of_taken ht hp hg hi habsent htaken hne hpte haddr,
      funext (pageEntry_of_taken ht hp hg hi habsent htaken hpte haddr), fun f hf => ?_⟩
    rw [follow_grow ht.tree hl (by simp; omega), if_pos rfl]
    exact hf

/-! ## Writing a leaf -/

theorem page_eq_of_path {page page' : PageNumber} (hpath : tablePath page' = tablePath page)
    (hmod : page'.val % 512 = page.val % 512) : page' = page := by
  simp only [tablePath, List.cons.injEq, and_true] at hpath
  have h1 := page.isLt
  have h2 := page'.isLt
  exact Fin.ext (by omega)

section Leaf
variable (ht : PageTables s root) (hf : follow (child s.mem) root (tablePath page) = some f)
include ht hf

/-- Writing into a page table changes no path to a table. -/
theorem follow_storeLeaf (pte : UInt64) {r : List Nat} (hr : r.length ≤ 3) :
    follow (child (storePte s.mem f (UInt64.ofNat (page.val % 512)) pte)) root r =
      follow (child s.mem) root r := by
  refine follow_congr (n := 3) (fun r' g hr' hg i => child_congr (fun index hi => ?_) i) hr
  have hgf := mem_tableFrames hr'.le hg
  have hff := mem_tableFrames (length_tablePath page) hf
  exact loadPte_storePte_ne (ht.frame f hff).1 (ht.frame g hgf).1 (page_mod_lt page) hi
    fun h => follow_ne_of_length ht hr' hg hf h.1.symm

theorem tableFrames_storeLeaf (pte : UInt64) :
    tableFrames (storePte s.mem f (UInt64.ofNat (page.val % 512)) pte) root =
      tableFrames s.mem root := by
  ext g
  constructor
  · rintro ⟨r, hr, hg⟩
    exact ⟨r, hr, follow_storeLeaf ht hf pte hr ▸ hg⟩
  · rintro ⟨r, hr, hg⟩
    exact ⟨r, hr, (follow_storeLeaf ht hf pte hr).trans hg⟩

theorem grows_storeLeaf (pte : UInt64) :
    Grows root s { s with mem := storePte s.mem f (UInt64.ofNat (page.val % 512)) pte } := by
  have hframes := tableFrames_storeLeaf ht hf pte
  have hff := mem_tableFrames (length_tablePath page) hf
  refine ⟨⟨?_, ?_, ?_⟩, ?_, ?_, Finset.Subset.refl _, ?_, ?_⟩
  · intro r r' g hr hr' hg hg'
    rw [follow_storeLeaf ht hf pte hr] at hg
    rw [follow_storeLeaf ht hf pte hr'] at hg'
    exact ht.tree r r' g hr hr' hg hg'
  · rw [hframes]; exact ht.frame
  · rw [hframes]; exact ht.used
  · rw [hframes]
  · intro g hg hn
    rw [hframes] at hg
    exact absurd hg hn
  · intro x hx
    rw [hframes] at hx
    refine storePte_outside (ht.frame f hff).1 (page_mod_lt page) fun he => hx ?_
    have hf0 := (ht.frame f hff).1
    rwa [he, show f / 4096 * 4096 = f by omega]
  · rw [hframes]

/-- Writing a leaf changes the entry of its own page, and no other. -/
theorem pageEntry_storeLeaf (pte : UInt64) :
    pageEntry (storePte s.mem f (UInt64.ofNat (page.val % 512)) pte) root =
      Function.update (pageEntry s.mem root) page pte := by
  have hff := mem_tableFrames (length_tablePath page) hf
  funext page'
  rw [pageEntry, follow_storeLeaf ht hf pte (length_tablePath page')]
  by_cases hpage : page' = page
  · subst hpage
    rw [Function.update_self, hf]
    exact loadPte_storePte _ _ _ _
  · rw [Function.update_of_ne hpage, pageEntry]
    cases hg : follow (child s.mem) root (tablePath page') with
    | none => rfl
    | some g =>
      have hgf := mem_tableFrames (length_tablePath page') hg
      refine loadPte_storePte_ne (ht.frame f hff).1 (ht.frame g hgf).1 (page_mod_lt page)
        (page_mod_lt page') ?_
      -- the same slot of the same table is the same page
      rintro ⟨rfl, hmod⟩
      refine hpage (page_eq_of_path
        (ht.tree _ _ _ (length_tablePath page') (length_tablePath page) hg hf) ?_)
      have := congrArg UInt64.toNat hmod
      rwa [toNat_ofNat_index (Nat.mod_lt _ (by decide)),
        toNat_ofNat_index (Nat.mod_lt _ (by decide))] at this

end Leaf

end OsKernel
