import OsKernel.VmmTables
import Mathlib.Data.Set.Card

/-! # What the operations on one address space do

One lemma for each function of the interface, in terms of the leaf entries and of
`Grows`: `VmmValid` is the invariant they share, that the tables are an owned tree
and that `mapped` counts the present leaf entries.
-/
namespace OsKernel

/-- The pages with a present leaf entry. -/
def presentPages (mem : Memory) (root : Nat) : Set PageNumber :=
  {page | isPresent (pageEntry mem root page)}

/-- **The invariant of one address space.** -/
structure VmmValid (vmm : Vmm) (s : PhysState) (root : Nat) : Prop where
  pml4 : vmm.pml4 = some root
  tables : PageTables s root
  mapped : vmm.mapped.toNat = (presentPages s.mem root).ncard

variable {vmm : Vmm} {s s' : PhysState} {root g : Nat} {index pte : UInt64} {p : List Nat}
  {page : PageNumber}

/-! ## Indices of an address -/

theorem toNat_index (va : Vaddr) (k : UInt64) (hk : k.toNat < 64) :
    ((va >>> k) &&& entryMask).toNat = va.toNat / 2 ^ k.toNat % 512 := by
  rw [UInt64.toNat_and, UInt64.toNat_shiftRight, Nat.mod_eq_of_lt hk, Nat.shiftRight_eq_div_pow]
  exact Nat.and_two_pow_sub_one_eq_mod _ 9

theorem toNat_pml4Index (va : Vaddr) : (pml4Index va).toNat = (pageNumber va).val / 2 ^ 27 := by
  have h := toNat_index va 39 (by decide)
  rw [pml4Index, h, pageNumber]
  change va.toNat / 2 ^ 39 % 512 = va.toNat / 4096 % 2 ^ 36 / 2 ^ 27
  omega

theorem toNat_pdptIndex (va : Vaddr) :
    (pdptIndex va).toNat = (pageNumber va).val / 2 ^ 18 % 512 := by
  have h := toNat_index va 30 (by decide)
  rw [pdptIndex, h, pageNumber]
  change va.toNat / 2 ^ 30 % 512 = va.toNat / 4096 % 2 ^ 36 / 2 ^ 18 % 512
  omega

theorem toNat_pdIndex (va : Vaddr) : (pdIndex va).toNat = (pageNumber va).val / 2 ^ 9 % 512 := by
  have h := toNat_index va 21 (by decide)
  rw [pdIndex, h, pageNumber]
  change va.toNat / 2 ^ 21 % 512 = va.toNat / 4096 % 2 ^ 36 / 2 ^ 9 % 512
  omega

theorem ptIndex_eq (va : Vaddr) : ptIndex va = UInt64.ofNat ((pageNumber va).val % 512) := by
  have h := toNat_index va 12 (by decide)
  rw [← UInt64.toNat_inj, ptIndex, h, toNat_ofNat_index (Nat.mod_lt _ (by decide)), pageNumber]
  change va.toNat / 2 ^ 12 % 512 = va.toNat / 4096 % 2 ^ 36 % 512
  omega

/-- Aligning an address down does not change its page. -/
@[simp] theorem pageNumber_alignDown (virt : Vaddr) :
    pageNumber (alignDown virt pageSize) = pageNumber virt := by
  apply Fin.ext
  simp only [pageNumber, toNat_alignDown_page, mul_page_div]

theorem tablePath_pageNumber (va : Vaddr) : tablePath (pageNumber va) =
    [(pml4Index va).toNat, (pdptIndex va).toNat, (pdIndex va).toNat] := by
  rw [tablePath, toNat_pml4Index, toNat_pdptIndex, toNat_pdIndex]

theorem index_lt (va : Vaddr) (k : UInt64) : ((va >>> k) &&& entryMask).toNat < 512 := by
  rw [UInt64.toNat_and]
  exact Nat.and_lt_two_pow _ (by decide : entryMask.toNat < 2 ^ 9)

theorem toNat_pageOffset (va : Vaddr) : (pageOffset va).toNat = va.toNat % 4096 := by
  rw [pageOffset, UInt64.toNat_and]
  exact Nat.and_two_pow_sub_one_eq_mod va.toNat 12

theorem pml4Index_lt (va : Vaddr) : (pml4Index va).toNat < 512 := index_lt va 39

theorem pdptIndex_lt (va : Vaddr) : (pdptIndex va).toNat < 512 := index_lt va 30

theorem pdIndex_lt (va : Vaddr) : (pdIndex va).toNat < 512 := index_lt va 21

/-! ## Walking the tables -/

theorem pageEntry_some {m : Memory} {pt : Nat}
    (hf : follow (child m) root (tablePath page) = some pt) :
    pageEntry m root page = loadPte m pt (UInt64.ofNat (page.val % 512)) := by
  rw [pageEntry, hf]

theorem pageEntry_none {m : Memory} (hf : follow (child m) root (tablePath page) = none) :
    pageEntry m root page = 0 := by
  rw [pageEntry, hf]

/-- **What `walk_table` does**: it never meets a `NULL` table, and ends at the page
table of the address. -/
theorem walkTable_eq (ht : PageTables s root) (virt : Vaddr) :
    walkTable s.mem root virt = .ok (follow (child s.mem) root (tablePath (pageNumber virt))) := by
  have h4 : follow (child s.mem) root [] = some root := rfl
  rw [tablePath_pageNumber]
  simp only [walkTable, derefPte, bind, Except.bind, pure, Except.pure, follow_cons]
  rcases child_of_path ht (by decide) h4 (pml4Index_lt virt) with ⟨hn, hc⟩ | ⟨pdpt, hp, hc, hv⟩
  · rw [if_pos hn, hc]
    rfl
  rw [if_neg (not_not.mpr hp), hv, hc]
  have h3 : follow (child s.mem) root [(pml4Index virt).toNat] = some pdpt := by
    rw [follow_cons, hc]
    rfl
  rcases child_of_path ht (by simp) h3 (pdptIndex_lt virt) with ⟨hn, hc'⟩ | ⟨pd, hp', hc', hv'⟩
  · simp [hn, hc']
  simp only [hp', not_true, if_false, hv', Option.bind_some, hc']
  have h2 : follow (child s.mem) root [(pml4Index virt).toNat, (pdptIndex virt).toNat] =
      some pd := by
    rw [follow_cons, hc, Option.bind_some, follow_cons, hc']
    rfl
  rcases child_of_path ht (by simp) h2 (pdIndex_lt virt) with ⟨hn, hc''⟩ | ⟨pt, hp'', hc'', hv''⟩
  · simp [hn, hc'']
  · simp [hp'', hc'', hv'']

/-- `vmm_translate` in terms of the leaf entry of the page. -/
theorem vmmTranslate_eq (hroot : vmm.pml4 = some root) (ht : PageTables s root) (virt : Vaddr) :
    vmmTranslate vmm s.mem virt = .ok
      (if isPresent (pageEntry s.mem root (pageNumber virt)) then
        (pageEntry s.mem root (pageNumber virt) &&& pteAddrMask) ||| pageOffset virt
      else noAddr) := by
  simp only [vmmTranslate, hroot, walkTable_eq ht, bind, Except.bind, pure, Except.pure, ptIndex_eq]
  cases hf : follow (child s.mem) root (tablePath (pageNumber virt)) with
  | none => rw [pageEntry_none hf, if_neg fun h => h rfl]
  | some pt =>
    rw [pageEntry_some hf]
    by_cases hp : isPresent (loadPte s.mem pt (UInt64.ofNat ((pageNumber virt).val % 512)))
    · rw [if_pos hp]
      exact if_neg (not_not.mpr hp)
    · rw [if_neg hp]
      exact if_pos hp

/-! ## Counting the present pages -/

theorem ncard_presentPages_le (m : Memory) (root : Nat) :
    (presentPages m root).ncard ≤ 2 ^ 36 := by
  have h := Set.ncard_le_ncard (Set.subset_univ (presentPages m root))
  rwa [Set.ncard_univ, Nat.card_fin] at h

section Update
variable {m m' : Memory} (hentry : pageEntry m' root = Function.update (pageEntry m root) page pte)
include hentry

theorem presentPages_insert (hpte : isPresent pte) :
    presentPages m' root = insert page (presentPages m root) := by
  ext page'
  simp only [presentPages, Set.mem_ofPred_eq, Set.mem_insert_iff, hentry]
  by_cases h : page' = page
  · simp [h, hpte]
  · simp [h]

theorem presentPages_remove (hpte : ¬ isPresent pte) :
    presentPages m' root = presentPages m root \ {page} := by
  ext page'
  simp only [presentPages, Set.mem_ofPred_eq, Set.mem_sdiff, Set.mem_singleton_iff, hentry]
  by_cases h : page' = page
  · simp [h, hpte]
  · simp [h]

end Update

/-! ## The operations -/

/-- A zeroed page that was just taken is the root of an empty tree. -/
theorem pageTables_of_taken (htaken : Taken s {q} t) : PageTables t (q * 4096) ∧
    tableFrames t.mem (q * 4096) = {q * 4096} ∧
    ∀ page, pageEntry t.mem (q * 4096) page = 0 := by
  have hq : q < pmmMaxPages := htaken.page_lt
  have hqpage : q * 4096 / 4096 = q := mul_page_div q
  have hleaf : ∀ i, child t.mem (q * 4096) i = none :=
    child_zeroed fun x hx => htaken.zeroed x (Finset.mem_singleton.mpr hx)
  have hframes : tableFrames t.mem (q * 4096) = {q * 4096} := reached_leaf hleaf _
  refine ⟨⟨unshared_leaf hleaf _, ?_, ?_⟩, hframes, fun page => ?_⟩
  · rw [hframes]
    rintro f rfl
    exact ⟨Nat.mul_mod_left q 4096, hqpage.symm ▸ hq⟩
  · rw [hframes]
    rintro f rfl
    rw [hqpage, htaken.freeSet_eq, Finset.mem_sdiff, Finset.mem_singleton]
    exact fun h => h.2 rfl
  · rw [pageEntry, tablePath, follow_cons, hleaf]
    rfl

/-- **What `vmm_init` does**: it fails without taking a page, or sets up an empty
tree of one frame that was free. -/
theorem vmmInit_cases (s : PhysState) :
    ((vmmInit s).1.pml4 = none ∧ (vmmInit s).2 = s) ∨
    ∃ q, (vmmInit s).1.pml4 = some (q * 4096) ∧ s.pmm.freePages ≠ 0 ∧ Taken s {q} (vmmInit s).2 ∧
      VmmValid (vmmInit s).1 (vmmInit s).2 (q * 4096) ∧
      tableFrames (vmmInit s).2.mem (q * 4096) = {q * 4096} ∧
      ∀ page, pageEntry (vmmInit s).2.mem (q * 4096) page = 0 := by
  rcases pmmAlloc_outcome s with ⟨why, heq⟩ | ⟨q, t, heq, hne, htaken⟩
  · rw [vmmInit, heq]
    exact Or.inl ⟨rfl, rfl⟩
  · have hq : q < pmmMaxPages := htaken.page_lt
    obtain ⟨htables, hframes, hentry⟩ := pageTables_of_taken htaken
    have hpresent : presentPages t.mem (q * 4096) = ∅ := by
      ext page
      simp [presentPages, hentry page, isPresent]
    have hinit : vmmInit s =
        ({ pml4 := some (q * 4096), pml4Phys := pageAddr q, mapped := 0 }, t) := by
      rw [← physToVirt_pageAddr hq, vmmInit, heq]
      exact if_neg (pageAddr_ne_noAddr hq)
    rw [hinit]
    refine Or.inr ⟨q, rfl, hne, htaken, ⟨rfl, htables, ?_⟩, hframes, hentry⟩
    rw [hpresent, Set.ncard_empty]
    rfl

/-- `vmm_init` fails only without a page to allocate. -/
theorem vmmInit_ne_none (h : available s.pmm ≠ 0) : (vmmInit s).1.pml4 ≠ none := by
  rw [Ne, available_eq_zero, not_or] at h
  rcases pmmAlloc_cases s with ⟨-, hzero⟩ | ⟨-, -, hempty⟩ | ⟨q, t, heq, -, -, htaken⟩
  · exact absurd hzero h.1
  · exact absurd hempty h.2
  · have hq : q < pmmMaxPages := htaken.page_lt
    rw [vmmInit, heq]
    simp [AllocReturn.value, pageAddr_ne_noAddr hq, physToVirt_pageAddr hq]

/-- The entry `vmm_map` writes. -/
def leafPte (phys : Paddr) (flags : UInt64) : UInt64 :=
  (alignDown phys pageSize &&& pteAddrMask) ||| flags ||| ptePresent

theorem isPresent_leafPte (phys : Paddr) (flags : UInt64) : isPresent (leafPte phys flags) :=
  isPresent_lor_present _

/-- The `get_or_create_table` calls of `vmm_map`, one level after the other: the tables
below `g` under the given indices. -/
def openTables (s : PhysState) (g : Nat) : List UInt64 → Option Nat × PhysState
  | [] => (some g, s)
  | index :: indices =>
    match getOrCreateTable s g index tableFlags with
    | (none, s) => (none, s)
    | (some f, s) => openTables s f indices

/-- The indices of the three levels above the page table of an address. -/
def pathIndices (virt : Vaddr) : List UInt64 := [pml4Index virt, pdptIndex virt, pdIndex virt]

theorem pathIndices_lt (virt : Vaddr) : ∀ index ∈ pathIndices virt, index.toNat < 512 := by
  intro index hindex
  simp only [pathIndices, List.mem_cons, List.not_mem_nil, or_false] at hindex
  rcases hindex with rfl | rfl | rfl
  · exact pml4Index_lt virt
  · exact pdptIndex_lt virt
  · exact pdIndex_lt virt

theorem map_pathIndices (virt : Vaddr) :
    (pathIndices virt).map UInt64.toNat = tablePath (pageNumber virt) :=
  (tablePath_pageNumber virt).symm

/-- `vmm_map` opens the path of its page, then writes the leaf entry. -/
theorem vmmMap_eq (hroot : vmm.pml4 = some root) (virt : Vaddr) (phys : Paddr) (flags : UInt64) :
    vmmMap vmm s virt phys flags =
      match openTables s root (pathIndices (alignDown virt pageSize)) with
      | (none, s) => (-1, vmm, s)
      | (some pt, s) =>
        let index := UInt64.ofNat ((pageNumber virt).val % 512)
        let s' := { s with mem := storePte s.mem pt index (leafPte phys flags) }
        if isPresent (loadPte s.mem pt index) then (0, vmm, s')
        else (0, { vmm with mapped := vmm.mapped + 1 }, s') := by
  have hindex : ptIndex (alignDown virt pageSize) = UInt64.ofNat ((pageNumber virt).val % 512) := by
    rw [ptIndex_eq, pageNumber_alignDown]
  simp only [vmmMap, hroot, hindex, pathIndices, openTables, leafPte]
  rcases getOrCreateTable s root _ tableFlags with ⟨_ | pdpt, s₄⟩
  · rfl
  dsimp only
  rcases getOrCreateTable s₄ pdpt _ tableFlags with ⟨_ | pd, s₃⟩
  · rfl
  dsimp only
  rcases getOrCreateTable s₃ pd _ tableFlags with ⟨_ | pt, s₂⟩
  · rfl
  · rfl

/-- Opening a path, whether or not it comes to the end: the tree has only grown, no leaf
entry has changed, and what `get_or_create_table` keeps at each level is kept. -/
theorem openTables_keep (P : PhysState → Prop)
    (hkeep : ∀ {t p g index}, PageTables t root → p.length < 3 →
      follow (child t.mem) root p = some g → index.toNat < 512 → P t →
      P (getOrCreateTable t g index tableFlags).2)
    {indices : List UInt64} (ht : PageTables s root) (hlen : p.length + indices.length ≤ 3)
    (hindices : ∀ index ∈ indices, index.toNat < 512)
    (hg : follow (child s.mem) root p = some g) (hP : P s) :
    ∃ r t, openTables s g indices = (r, t) ∧ Grows root s t ∧ P t ∧
      pageEntry t.mem root = pageEntry s.mem root ∧
      ∀ f, r = some f → follow (child t.mem) root (p ++ indices.map UInt64.toNat) = some f := by
  induction indices generalizing s p g with
  | nil =>
    refine ⟨some g, s, rfl, Grows.refl ht, hP, rfl, ?_⟩
    rintro f ⟨⟩
    rw [List.map_nil, List.append_nil]
    exact hg
  | cons index indices ih =>
    rw [List.length_cons] at hlen
    have hi := hindices index List.mem_cons_self
    obtain ⟨r, t, heq, hgrow, hentry, hnext⟩ := getOrCreateTable_spec ht (by omega) hg hi
    have hPt := hkeep ht (by omega) hg hi hP
    rw [heq] at hPt
    cases r with
    | none =>
      exact ⟨none, t, by rw [openTables, heq], hgrow, hPt, hentry, fun f hf => by cases hf⟩
    | some f =>
      obtain ⟨r', t', heq', hgrow', hPt', hentry', hnext'⟩ := ih hgrow.tables
        (by rw [List.length_append, List.length_singleton]; omega)
        (fun i hi => hindices i (List.mem_cons_of_mem index hi)) (hnext f rfl) hPt
      refine ⟨r', t', by rw [openTables, heq]; exact heq', hgrow.trans hgrow', hPt',
        hentry'.trans hentry, fun f' hf' => ?_⟩
      rw [List.map_cons, ← List.singleton_append, ← List.append_assoc]
      exact hnext' f' hf'

/-- The part of `vmm_map` that creates tables, and what is left to do after it. -/
theorem vmmMap_tables_keep (P : PhysState → Prop)
    (hkeep : ∀ {t p g index}, PageTables t root → p.length < 3 →
      follow (child t.mem) root p = some g → index.toNat < 512 → P t →
      P (getOrCreateTable t g index tableFlags).2)
    (hroot : vmm.pml4 = some root) (ht : PageTables s root) (hP : P s) (virt : Vaddr)
    (phys : Paddr) (flags : UInt64) :
    ∃ t, Grows root s t ∧ P t ∧ pageEntry t.mem root = pageEntry s.mem root ∧
      (vmmMap vmm s virt phys flags = (-1, vmm, t) ∨
      ∃ pt, follow (child t.mem) root (tablePath (pageNumber virt)) = some pt ∧
        let index := UInt64.ofNat ((pageNumber virt).val % 512)
        let t' := { t with mem := storePte t.mem pt index (leafPte phys flags) }
        vmmMap vmm s virt phys flags =
          if isPresent (loadPte t.mem pt index) then (0, vmm, t')
          else (0, { vmm with mapped := vmm.mapped + 1 }, t')) := by
  have hlen : ([] : List Nat).length + (pathIndices (alignDown virt pageSize)).length ≤ 3 :=
    Nat.le_refl 3
  obtain ⟨r, t, heq, hgrow, hPt, hentry, hnext⟩ :=
    openTables_keep P hkeep ht hlen (pathIndices_lt _) rfl hP
  rw [List.nil_append, map_pathIndices, pageNumber_alignDown] at hnext
  have hmap := @vmmMap_eq vmm s root hroot virt phys flags
  rw [heq] at hmap
  refine ⟨t, hgrow, hPt, hentry, ?_⟩
  cases r with
  | none => exact Or.inl hmap
  | some pt => exact Or.inr ⟨pt, hnext pt rfl, hmap⟩

/-- **What `vmm_map` does**: it runs out of tables and changes no leaf entry, or it
writes the leaf entry of its page. -/
theorem vmmMap_spec (h : VmmValid vmm s root) (virt : Vaddr) (phys : Paddr) (flags : UInt64) :
    ∃ ret vmm' s', vmmMap vmm s virt phys flags = (ret, vmm', s') ∧ Grows root s s' ∧
      VmmValid vmm' s' root ∧
      ((ret = -1 ∧ pageEntry s'.mem root = pageEntry s.mem root) ∨
        (ret = 0 ∧ pageEntry s'.mem root =
          Function.update (pageEntry s.mem root) (pageNumber virt) (leafPte phys flags))) := by
  obtain ⟨t, hgrow, -, hsame, heq⟩ := vmmMap_tables_keep (fun _ => True) (fun _ _ _ _ h => h)
    h.pml4 h.tables trivial virt phys flags
  have hpages : presentPages t.mem root = presentPages s.mem root := by
    rw [presentPages, presentPages, hsame]
  rcases heq with heq | ⟨pt, hpt, heq⟩
  · exact ⟨-1, vmm, t, heq, hgrow, ⟨h.pml4, hgrow.tables, by rw [h.mapped, hpages]⟩,
      Or.inl ⟨rfl, hsame⟩⟩
  · have hentry := pageEntry_storeLeaf hgrow.tables hpt (leafPte phys flags)
    have hpresent := presentPages_insert hentry (isPresent_leafPte phys flags)
    have hgrow' := hgrow.trans (grows_storeLeaf hgrow.tables hpt (leafPte phys flags))
    rw [hsame] at hentry
    rw [hpages] at hpresent
    simp only [← pageEntry_some hpt, hsame] at heq
    by_cases hold : isPresent (pageEntry s.mem root (pageNumber virt))
    · refine ⟨0, vmm, _, heq.trans (if_pos hold), hgrow', ⟨h.pml4, hgrow'.tables, ?_⟩,
        Or.inr ⟨rfl, hentry⟩⟩
      rw [hpresent, Set.insert_eq_of_mem hold]
      exact h.mapped
    · refine ⟨0, _, _, heq.trans (if_neg hold), hgrow', ⟨h.pml4, hgrow'.tables, ?_⟩,
        Or.inr ⟨rfl, hentry⟩⟩
      have hle := ncard_presentPages_le s.mem root
      rw [hpresent, Set.ncard_insert_of_notMem hold (Set.toFinite _), UInt64.toNat_add,
        UInt64.toNat_one, h.mapped]
      omega

/-- `vmm_unmap` refuses a page without a page table. -/
theorem vmmUnmap_none (h : VmmValid vmm s root) {virt : Vaddr}
    (hf : follow (child s.mem) root (tablePath (pageNumber virt)) = none) :
    vmmUnmap vmm s virt = .ok (-1, vmm, s) := by
  rw [vmmUnmap, h.pml4]
  dsimp only
  rw [walkTable_eq h.tables, pageNumber_alignDown, hf]
  rfl

/-- With a page table, `vmm_unmap` clears the leaf entry if it is present. -/
theorem vmmUnmap_some (h : VmmValid vmm s root) {virt : Vaddr} {pt : Nat}
    (hf : follow (child s.mem) root (tablePath (pageNumber virt)) = some pt) :
    vmmUnmap vmm s virt =
      if ¬ isPresent (loadPte s.mem pt (UInt64.ofNat ((pageNumber virt).val % 512))) then
        .ok (-1, vmm, s)
      else .ok (0, { vmm with mapped := vmm.mapped - 1 },
        { s with mem := storePte s.mem pt (UInt64.ofNat ((pageNumber virt).val % 512)) 0 }) := by
  rw [vmmUnmap, h.pml4]
  dsimp only
  rw [walkTable_eq h.tables, ptIndex_eq, pageNumber_alignDown, hf]
  rfl

/-- **What `vmm_unmap` does**: it clears the leaf entry of a present page, and
refuses any other. -/
theorem vmmUnmap_spec (h : VmmValid vmm s root) (virt : Vaddr) :
    ∃ ret vmm' s', vmmUnmap vmm s virt = .ok (ret, vmm', s') ∧ Grows root s s' ∧
      VmmValid vmm' s' root ∧
      ((ret = -1 ∧ ¬ isPresent (pageEntry s.mem root (pageNumber virt)) ∧ s' = s) ∨
        (ret = 0 ∧ isPresent (pageEntry s.mem root (pageNumber virt)) ∧
          pageEntry s'.mem root = Function.update (pageEntry s.mem root) (pageNumber virt) 0)) := by
  cases hf : follow (child s.mem) root (tablePath (pageNumber virt)) with
  | none =>
    refine ⟨-1, vmm, s, vmmUnmap_none h hf, Grows.refl h.tables, h, Or.inl ⟨rfl, ?_, rfl⟩⟩
    rw [pageEntry_none hf]
    exact fun hp => hp rfl
  | some pt =>
    rw [vmmUnmap_some h hf, pageEntry_some hf]
    by_cases hp : isPresent (loadPte s.mem pt (UInt64.ofNat ((pageNumber virt).val % 512)))
    · have hentry := pageEntry_storeLeaf h.tables hf 0
      have hgrow := grows_storeLeaf h.tables hf 0
      refine ⟨0, { vmm with mapped := vmm.mapped - 1 }, _, if_neg (not_not.mpr hp), hgrow,
        ⟨h.pml4, hgrow.tables, ?_⟩, Or.inr ⟨rfl, hp, hentry⟩⟩
      have hmem : pageNumber virt ∈ presentPages s.mem root := by
        rw [← pageEntry_some hf] at hp
        exact hp
      have hpos : 0 < vmm.mapped.toNat := by
        rw [h.mapped]
        exact (Set.ncard_pos (Set.toFinite _)).mpr ⟨_, hmem⟩
      rw [presentPages_remove hentry fun h0 => h0 rfl, Set.ncard_sdiff_singleton_of_mem hmem,
        ← h.mapped]
      exact UInt64.toNat_sub_of_le _ _ (UInt64.le_iff_toNat_le.mpr hpos)
    · exact ⟨-1, vmm, s, if_pos hp, Grows.refl h.tables, h, Or.inl ⟨rfl, hp, rfl⟩⟩

theorem vmmMapRangeFrom_spec (virt : Vaddr) (phys : Paddr) (flags : UInt64) (n i : Nat)
    (h : VmmValid vmm s root) :
    ∃ ret vmm' s', vmmMapRangeFrom virt phys flags n i vmm s = (ret, vmm', s') ∧
      Grows root s s' ∧ VmmValid vmm' s' root := by
  induction n generalizing i vmm s with
  | zero => exact ⟨0, vmm, s, rfl, Grows.refl h.tables, h⟩
  | succ n ih =>
    obtain ⟨ret, vmm', t, heq, hgrow, hvalid, -⟩ := vmmMap_spec h
      (virt + UInt64.ofNat i * pageSize) (phys + UInt64.ofNat i * pageSize) flags
    unfold vmmMapRangeFrom
    rw [heq]
    by_cases hret : ret ≠ 0
    · exact ⟨-1, vmm', t, if_pos hret, hgrow, hvalid⟩
    · obtain ⟨ret', vmm'', s'', heq', hgrow', hvalid'⟩ := ih (i + 1) hvalid
      exact ⟨ret', vmm'', s'', (if_neg hret).trans heq', hgrow.trans hgrow', hvalid'⟩

theorem vmmUnmapRangeFrom_spec (virt : Vaddr) (n i : Nat) (h : VmmValid vmm s root) :
    ∃ ret vmm' s', vmmUnmapRangeFrom virt n i vmm s = .ok (ret, vmm', s') ∧
      Grows root s s' ∧ VmmValid vmm' s' root := by
  induction n generalizing i vmm s with
  | zero => exact ⟨0, vmm, s, rfl, Grows.refl h.tables, h⟩
  | succ n ih =>
    obtain ⟨ret, vmm', t, heq, hgrow, hvalid, -⟩ :=
      vmmUnmap_spec h (virt + UInt64.ofNat i * pageSize)
    obtain ⟨ret', vmm'', s'', heq', hgrow', hvalid'⟩ := ih (i + 1) hvalid
    refine ⟨ret', vmm'', s'', ?_, hgrow.trans hgrow', hvalid'⟩
    unfold vmmUnmapRangeFrom
    rw [heq]
    exact heq'

/-! ## Calls -/

/-- The calls that change an address space. -/
inductive VmmOp
  | map (virt : Vaddr) (phys : Paddr) (flags : UInt64)
  | mapRange (virt : Vaddr) (phys : Paddr) (pages flags : UInt64)
  | unmap (virt : Vaddr)
  | unmapRange (virt : Vaddr) (pages : UInt64)

/-- The value a call returns and the state it leaves behind. -/
def vmmCall (vmm : Vmm) (s : PhysState) : VmmOp → Except Fault (Int × Vmm × PhysState)
  | .map virt phys flags => .ok (vmmMap vmm s virt phys flags)
  | .mapRange virt phys pages flags => .ok (vmmMapRange vmm s virt phys pages flags)
  | .unmap virt => vmmUnmap vmm s virt
  | .unmapRange virt pages => vmmUnmapRange vmm s virt pages

/-- **One call on a valid address space** returns, and only makes its tree grow. -/
theorem vmmCall_spec (h : VmmValid vmm s root) (op : VmmOp) :
    ∃ ret vmm' s', vmmCall vmm s op = .ok (ret, vmm', s') ∧ Grows root s s' ∧
      VmmValid vmm' s' root := by
  cases op with
  | map virt phys flags =>
    obtain ⟨ret, vmm', s', heq, hgrow, hvalid, -⟩ := vmmMap_spec h virt phys flags
    exact ⟨ret, vmm', s', congrArg Except.ok heq, hgrow, hvalid⟩
  | mapRange virt phys pages flags =>
    obtain ⟨ret, vmm', s', heq, hgrow, hvalid⟩ :=
      vmmMapRangeFrom_spec virt phys flags pages.toNat 0 h
    exact ⟨ret, vmm', s', congrArg Except.ok heq, hgrow, hvalid⟩
  | unmap virt =>
    obtain ⟨ret, vmm', s', heq, hgrow, hvalid, -⟩ := vmmUnmap_spec h virt
    exact ⟨ret, vmm', s', heq, hgrow, hvalid⟩
  | unmapRange virt pages => exact vmmUnmapRangeFrom_spec virt pages.toNat 0 h

end OsKernel
