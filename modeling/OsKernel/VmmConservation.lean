import OsKernel.PmmReserved
import OsKernel.VmmIsolation
import OsKernel.VmmPaths

/-! # No page is lost

The pages of the simulated RAM are those of the `MMAP_FREE` entries.  A call moves pages: from
the free ones to the tables of its space or to the client, and back from the client.  No call
drops a page on the way, and none reaches for a page outside the RAM.  There is one way to lose
pages: `vmm_init` on a space that is in use forgets its tables.
-/
namespace OsKernel

/-- The pages that left the free ones between two states are tables of the space. -/
structure Placed (root : Nat) (s s' : PhysState) : Prop where
  kept : tableFrames s.mem root ⊆ tableFrames s'.mem root
  placed : ∀ p ∈ freeSet s.pmm.bitmap, p ∉ freeSet s'.pmm.bitmap →
    p * 4096 ∈ tableFrames s'.mem root

variable {Space : Type*} {vmm vmm' : Vmm} {s s' t : PhysState} {root p : Nat}

/-! ## Calls on a space -/

theorem Placed.refl (root : Nat) (s : PhysState) : Placed root s s :=
  ⟨Set.Subset.rfl, fun _ hp hn => absurd hp hn⟩

theorem Placed.trans (h : Placed root s t) (h' : Placed root t s') : Placed root s s' := by
  refine ⟨h.kept.trans h'.kept, fun p hp hn => ?_⟩
  by_cases hmid : p ∈ freeSet t.pmm.bitmap
  · exact h'.placed p hmid hn
  · exact h'.kept (h.placed p hp hmid)

theorem Opened.placedAll {path : List Nat} (h : Opened root path s s') : Placed root s s' := by
  refine ⟨h.grows.kept, fun p hp hn => ?_⟩
  obtain ⟨r, hr, hf⟩ := h.placed p hp hn
  exact mem_tableFrames hr.1.1 hf

/-- Writing a leaf moves no page. -/
theorem placed_storeLeaf {page : PageNumber} {pt : Nat} (ht : PageTables s root)
    (hf : follow (child s.mem) root (tablePath page) = some pt) (pte : UInt64) :
    Placed root s
      { s with mem := storePte s.mem pt (UInt64.ofNat (page.val % 512)) pte } :=
  ⟨(tableFrames_storeLeaf ht hf pte).ge, fun _ hp hn => absurd hp hn⟩

theorem vmmMap_placed (h : VmmValid vmm s root) (virt : Vaddr) (phys : Paddr) (flags : UInt64) :
    Placed root s (vmmMap vmm s virt phys flags).2.2 := by
  have hindices : [] ++ (pathIndices (alignDown virt pageSize)).map UInt64.toNat =
      tablePath (pageNumber virt) := by
    rw [List.nil_append, map_pathIndices, pageNumber_alignDown]
  obtain ⟨r, t, hopen, hopened, hcase⟩ := openTables_spec h.tables
    (length_tablePath (pageNumber virt)) (pathIndices_lt _) hindices rfl
  rw [vmmMap_eq h.pml4, hopen]
  rcases hcase with ⟨pt, rfl, hpt⟩ | ⟨rfl, -, -⟩
  · have hleaf := hopened.placedAll.trans
      (placed_storeLeaf hopened.grows.tables hpt (leafPte phys flags))
    dsimp only
    split
    · exact hleaf
    · exact hleaf
  · exact hopened.placedAll

theorem vmmUnmap_placed (h : VmmValid vmm s root) {virt : Vaddr} {ret : Int}
    (hcall : vmmUnmap vmm s virt = .ok (ret, vmm', s')) :
    s'.pmm = s.pmm ∧ Placed root s s' := by
  cases hf : follow (child s.mem) root (tablePath (pageNumber virt)) with
  | none =>
    rw [vmmUnmap_none h hf] at hcall
    cases hcall
    exact ⟨rfl, Placed.refl root s⟩
  | some pt =>
    rw [vmmUnmap_some h hf] at hcall
    split at hcall
    · cases hcall
      exact ⟨rfl, Placed.refl root s⟩
    · cases hcall
      exact ⟨rfl, placed_storeLeaf h.tables hf 0⟩

/-- `vmm_map` changes the allocator as `pmm_alloc` does: what taking pages keeps, it keeps. -/
theorem vmmMap_keeps {P : Pmm → Prop}
    (htake : ∀ {t t' : PhysState} {Q : Finset Nat}, P t.pmm → Taken t Q t' → P t'.pmm)
    (h : VmmValid vmm s root) (virt : Vaddr) (phys : Paddr) (flags : UInt64) (hP : P s.pmm) :
    P (vmmMap vmm s virt phys flags).2.2.pmm := by
  have hkeep : ∀ {t : PhysState} {path : List Nat} {g : Nat} {index : UInt64},
      PageTables t root → path.length < 3 → follow (child t.mem) root path = some g →
      index.toNat < 512 → P t.pmm → P (getOrCreateTable t g index tableFlags).2.pmm := by
    intro t path g index _ _ _ _ ht
    rcases getOrCreateTable_cases t g index with ⟨-, heq⟩ | ⟨-, -, heq⟩ | ⟨q, t', -, -, htaken, heq⟩
    · rw [heq]
      exact ht
    · rw [heq]
      exact ht
    · have ht' : P t'.pmm := htake ht htaken
      rw [heq]
      exact ht'
  obtain ⟨t, -, ht, -, heq⟩ :=
    vmmMap_tables_keep (fun t => P t.pmm) hkeep h.pml4 h.tables hP virt phys flags
  rcases heq with heq | ⟨pt, -, heq⟩
  · rw [heq]
    exact ht
  · rw [heq]
    split
    · exact ht
    · exact ht

section Calls
variable {R : PhysState → PhysState → Prop} (hrefl : ∀ s, R s s)
  (htrans : ∀ s t s', R s t → R t s' → R s s')
include hrefl htrans

theorem vmmMapRangeFrom_rule
    (hmap : ∀ vmm s virt phys flags, VmmValid vmm s root → R s (vmmMap vmm s virt phys flags).2.2)
    (virt : Vaddr) (phys : Paddr) (flags : UInt64) (n i : Nat) (h : VmmValid vmm s root) :
    R s (vmmMapRangeFrom virt phys flags n i vmm s).2.2 := by
  induction n generalizing i vmm s with
  | zero => exact hrefl s
  | succ n ih =>
    have hfirst := hmap vmm s (virt + UInt64.ofNat i * pageSize)
      (phys + UInt64.ofNat i * pageSize) flags h
    obtain ⟨ret, vmm', t, heq, -, hvalid, -⟩ := vmmMap_spec h (virt + UInt64.ofNat i * pageSize)
      (phys + UInt64.ofNat i * pageSize) flags
    unfold vmmMapRangeFrom
    rw [heq] at hfirst ⊢
    dsimp only at hfirst ⊢
    split
    · exact hfirst
    · exact htrans _ _ _ hfirst (ih (i + 1) hvalid)

theorem vmmUnmapRangeFrom_rule
    (hunmap : ∀ vmm s virt ret vmm' s', VmmValid vmm s root →
      vmmUnmap vmm s virt = .ok (ret, vmm', s') → R s s')
    (virt : Vaddr) (n i : Nat) (h : VmmValid vmm s root) :
    ∃ ret vmm' s', vmmUnmapRangeFrom virt n i vmm s = .ok (ret, vmm', s') ∧ R s s' := by
  induction n generalizing i vmm s with
  | zero => exact ⟨0, vmm, s, rfl, hrefl s⟩
  | succ n ih =>
    obtain ⟨ret, vmm', t, heq, -, hvalid, -⟩ :=
      vmmUnmap_spec h (virt + UInt64.ofNat i * pageSize)
    obtain ⟨ret', vmm'', s'', heq', hrest⟩ := ih (i + 1) hvalid
    refine ⟨ret', vmm'', s'', ?_, htrans _ _ _ (hunmap _ _ _ _ _ _ h heq) hrest⟩
    unfold vmmUnmapRangeFrom
    rw [heq]
    exact heq'

/-- **The rule for calls.**  What holds from before to after every `vmm_map` and every
`vmm_unmap` on a valid space, and goes on from one to the next, holds of every call. -/
theorem vmmCall_rule
    (hmap : ∀ vmm s virt phys flags, VmmValid vmm s root → R s (vmmMap vmm s virt phys flags).2.2)
    (hunmap : ∀ vmm s virt ret vmm' s', VmmValid vmm s root →
      vmmUnmap vmm s virt = .ok (ret, vmm', s') → R s s')
    {op : VmmOp} {ret : Int} (h : VmmValid vmm s root)
    (hcall : vmmCall vmm s op = .ok (ret, vmm', s')) : R s s' := by
  cases op with
  | map virt phys flags =>
    have hR := hmap vmm s virt phys flags h
    rw [Except.ok.inj hcall] at hR
    exact hR
  | mapRange virt phys pages flags =>
    have hR := vmmMapRangeFrom_rule hrefl htrans hmap virt phys flags pages.toNat 0 h
    rw [show vmmMapRangeFrom virt phys flags pages.toNat 0 vmm s = (ret, vmm', s') from
      Except.ok.inj hcall] at hR
    exact hR
  | unmap virt => exact hunmap _ _ _ _ _ _ h hcall
  | unmapRange virt pages =>
    obtain ⟨ret', vmm'', s'', heq, hR⟩ :=
      vmmUnmapRangeFrom_rule hrefl htrans hunmap virt pages.toNat 0 h
    obtain ⟨-, -, rfl⟩ : ret' = ret ∧ vmm'' = vmm' ∧ s'' = s' := by
      simpa using heq.symm.trans hcall
    exact hR

end Calls

/-- **A call on a space loses no page.** -/
theorem vmmCall_placed {op : VmmOp} {ret : Int} (h : VmmValid vmm s root)
    (hcall : vmmCall vmm s op = .ok (ret, vmm', s')) : Placed root s s' :=
  vmmCall_rule (Placed.refl root) (fun _ _ _ => Placed.trans)
    (fun _ _ virt phys flags h => vmmMap_placed h virt phys flags)
    (fun _ _ _ _ _ _ h hcall => (vmmUnmap_placed h hcall).2) h hcall

/-- **A call on a space changes the allocator as `pmm_alloc` does.** -/
theorem vmmCall_keeps {P : Pmm → Prop}
    (htake : ∀ {t t' : PhysState} {Q : Finset Nat}, P t.pmm → Taken t Q t' → P t'.pmm)
    {op : VmmOp} {ret : Int} (h : VmmValid vmm s root)
    (hcall : vmmCall vmm s op = .ok (ret, vmm', s')) (hP : P s.pmm) : P s'.pmm := by
  refine vmmCall_rule (R := fun s s' => P s.pmm → P s'.pmm) (fun _ hs => hs)
    (fun _ _ _ h h' hs => h' (h hs))
    (fun _ _ virt phys flags h => vmmMap_keeps htake h virt phys flags) ?_ h hcall hP
  intro vmm s virt ret vmm' s' h hcall hs
  rw [(vmmUnmap_placed h hcall).1]
  exact hs

/-! ## Every holder -/

/-- Where a page can be: among the free ones, or with a holder. -/
def Findable (w : World Space) (p : Nat) : Prop :=
  p ∈ freeSet w.phys.pmm.bitmap ∨ ∃ h, p ∈ held w h

/-- A call that forgets nothing: `vmm_init` is for spaces without tables. -/
def Thrifty (w : World Space) : WorldOp Space → Prop
  | .init k => held w (some k) = ∅
  | _ => True

/-- The calls of a world in which no space in use is initialised again. -/
def ThriftyStep [DecidableEq Space] (w : World Space) (op : WorldOp Space) (w' : World Space) :
    Prop := WorldStep w op w' ∧ Thrifty w op

section Step
variable [DecidableEq Space] {w w' : World Space} {op : WorldOp Space}

/-- A page is lost only by the holder whose call it is. -/
theorem Acts.findable {h : Option Space} (ha : Acts h w w') (hw : WorldValid w)
    (hfree : ∀ p ∈ freeSet w.phys.pmm.bitmap, Findable w' p)
    (hheld : ∀ p ∈ held w h, Findable w' p) (hp : Findable w p) : Findable w' p := by
  rcases hp with hp | ⟨h', hp⟩
  · exact hfree p hp
  · by_cases hh : h' = h
    · exact hheld p (hh ▸ hp)
    · exact Or.inr ⟨h', ha.held_eq hw hh ▸ hp⟩

/-- The client keeps what it has and is given what is taken. -/
theorem findable_taken {P : Finset Nat} (hw : WorldValid w) (htaken : Taken w.phys P s)
    (hp : Findable w p) : Findable { w with phys := s, owned := w.owned ∪ P } p := by
  refine (acts_taken hw htaken).findable hw (fun p hp => ?_) (fun p hp => ?_) hp
  · by_cases hmem : p ∈ P
    · exact Or.inr ⟨none, Finset.mem_coe.mpr (Finset.mem_union_right _ hmem)⟩
    · refine Or.inl ?_
      change p ∈ freeSet s.pmm.bitmap
      rw [htaken.freeSet_eq]
      exact Finset.mem_sdiff.mpr ⟨hp, hmem⟩
  · exact Or.inr ⟨none, Finset.mem_coe.mpr (Finset.mem_union_left _ (Finset.mem_coe.mp hp))⟩

/-- **A step loses no page.** -/
theorem findable_step (hw : WorldValid w) (hstep : ThriftyStep w op w') (hp : Findable w p) :
    Findable w' p := by
  obtain ⟨hstep, hthrifty⟩ := hstep
  have ha := acts_of_step hw hstep
  cases hstep with
  | init k =>
    refine ha.findable hw (fun p hp => ?_) (fun p hp => ?_) hp
    · rcases vmmInit_cases w.phys with ⟨-, heq⟩ | ⟨q, hroot, -, htaken, -, hframes, -⟩
      · refine Or.inl ?_
        change p ∈ freeSet (vmmInit w.phys).2.pmm.bitmap
        rw [heq]
        exact hp
      · by_cases hpq : p = q
        · refine Or.inr ⟨some k, ?_⟩
          rw [held, setSpace_self, spacePages_some hroot]
          change p * 4096 ∈ tableFrames (vmmInit w.phys).2.mem (q * 4096)
          rw [hframes, hpq]
          exact Set.mem_singleton _
        · refine Or.inl ?_
          change p ∈ freeSet (vmmInit w.phys).2.pmm.bitmap
          rw [htaken.freeSet_eq]
          exact Finset.mem_sdiff.mpr ⟨hp, fun h => hpq (Finset.mem_singleton.mp h)⟩
    · change held w (some k) = ∅ at hthrifty
      rw [show (WorldOp.init k : WorldOp Space).holder = some k from rfl, hthrifty] at hp
      exact absurd hp (Set.notMem_empty p)
  | @call k op vmm vmm' ret t hk hcall =>
    cases hroot : vmm.pml4 with
    | none =>
      obtain ⟨ret', heq⟩ := vmmCall_none hroot w.phys op
      obtain ⟨-, rfl, rfl⟩ : ret' = ret ∧ vmm = vmm' ∧ w.phys = t := by
        simpa using heq.symm.trans hcall
      have hsame : w.setSpace k vmm w.phys = w := by
        rw [World.setSpace, Function.update_eq_self_iff.mpr hk.symm]
      rw [hsame]
      exact hp
    | some root =>
      have hvalid := hw.space k vmm root hk hroot
      have hplaced := vmmCall_placed hvalid hcall
      obtain ⟨ret', vmm'', s'', heq, -, hvalid'⟩ := vmmCall_spec hvalid op
      obtain ⟨-, rfl, rfl⟩ : ret' = ret ∧ vmm'' = vmm' ∧ s'' = t := by
        simpa using heq.symm.trans hcall
      have hheld : held (w.setSpace k vmm'' s'') (some k) =
          {p | p * 4096 ∈ tableFrames s''.mem root} := by
        rw [held, setSpace_self]
        exact spacePages_some hvalid'.pml4
      refine ha.findable hw (fun p hp => ?_) (fun p hp => ?_) hp
      · by_cases hfree : p ∈ freeSet s''.pmm.bitmap
        · exact Or.inl hfree
        · exact Or.inr ⟨some k, hheld ▸ hplaced.placed p hp hfree⟩
      · change p ∈ held w (some k) at hp
        rw [held, hk, spacePages_some hroot] at hp
        exact Or.inr ⟨some k, hheld ▸ hplaced.kept hp⟩
  | alloc =>
    rcases pmmAlloc_outcome w.phys with ⟨why, heq⟩ | ⟨q, s, heq, -, htaken⟩
    · rw [heq]
      exact hp
    · have hq : q < pmmMaxPages := htaken.page_lt
      rw [heq, World.grant, toNat_pageAddr hq.le, mul_page_div, Nat.Ico_succ_singleton]
      exact findable_taken hw htaken hp
  | allocN n =>
    rcases pmmAllocN_outcome w.phys n with ⟨why, heq⟩ | ⟨q, s, heq, hq, htaken⟩
    · rw [heq]
      exact hp
    · rw [heq, World.grant, toNat_pageAddr (by omega), mul_page_div]
      exact findable_taken hw htaken hp
  | @free q hq =>
    have hused := hw.used none q hq
    rcases pmmFree_cases w.phys.pmm (pageAddr q) with ⟨-, hfree⟩ | ⟨q', hqq', hreleased⟩
    · exact absurd (hfree q hused.1 rfl) hused.2
    · obtain rfl : q = q' := pageAddr_inj hused.1 hreleased.lt hqq'
      refine ha.findable hw (fun p hp => ?_) (fun p hp => ?_) hp
      · refine Or.inl ?_
        change p ∈ freeSet (pmmFree w.phys.pmm (pageAddr q)).bitmap
        rw [hreleased.freeSet_eq]
        exact Finset.mem_insert_of_mem hp
      · by_cases hpq : p = q
        · refine Or.inl ?_
          change p ∈ freeSet (pmmFree w.phys.pmm (pageAddr q)).bitmap
          rw [hreleased.freeSet_eq, hpq]
          exact Finset.mem_insert_self _ _
        · have herase : p ∈ w.owned.erase q := Finset.mem_erase.mpr ⟨hpq, Finset.mem_coe.mp hp⟩
          exact Or.inr ⟨none, Finset.mem_coe.mpr herase⟩
  | write h => exact ha.findable hw (fun p hp => Or.inl hp) (fun p hp => Or.inr ⟨none, hp⟩) hp

/-- A step finds no page that was nowhere. -/
theorem Acts.findable_before {h : Option Space} (ha : Acts h w w') (hw : WorldValid w)
    (hp : Findable w' p) : Findable w p := by
  rcases hp with hp | ⟨h', hp⟩
  · exact (ha.freed p hp).imp_right fun hheld => ⟨h, hheld⟩
  · by_cases hh : h' = h
    · subst hh
      exact (ha.gained p hp).symm.imp_right fun hheld => ⟨h', hheld⟩
    · exact Or.inr ⟨h', ha.held_eq hw hh ▸ hp⟩

/-- The allocator of a world changes by taking pages, and by freeing pages of the client. -/
theorem WorldStep.keeps {P : Pmm → Prop}
    (htake : ∀ {t t' : PhysState} {Q : Finset Nat}, P t.pmm → Taken t Q t' → P t'.pmm)
    (hfree : ∀ p ∈ w.owned, P w.phys.pmm → P (pmmFree w.phys.pmm (pageAddr p)))
    (hw : WorldValid w) (hstep : WorldStep w op w') (hP : P w.phys.pmm) : P w'.phys.pmm := by
  cases hstep with
  | init k =>
    change P (vmmInit w.phys).2.pmm
    rcases vmmInit_cases w.phys with ⟨-, heq⟩ | ⟨q, -, -, htaken, -⟩
    · rw [heq]
      exact hP
    · exact htake hP htaken
  | @call k op vmm vmm' ret t hk hcall =>
    change P t.pmm
    cases hroot : vmm.pml4 with
    | none =>
      obtain ⟨ret', heq⟩ := vmmCall_none hroot w.phys op
      obtain ⟨-, -, rfl⟩ : ret' = ret ∧ vmm = vmm' ∧ w.phys = t := by
        simpa using heq.symm.trans hcall
      exact hP
    | some root => exact vmmCall_keeps htake (hw.space k vmm root hk hroot) hcall hP
  | alloc =>
    rcases pmmAlloc_outcome w.phys with ⟨why, heq⟩ | ⟨q, s, heq, -, htaken⟩
    · rw [heq]
      exact hP
    · rw [heq]
      exact htake hP htaken
  | allocN n =>
    rcases pmmAllocN_outcome w.phys n with ⟨why, heq⟩ | ⟨q, s, heq, -, htaken⟩
    · rw [heq]
      exact hP
    · rw [heq]
      exact htake hP htaken
  | free hq => exact hfree _ hq hP
  | write h => exact hP

/-- **The invariant.**  The findable pages are those of the map's `MMAP_FREE` entries. -/
structure Conserved (mmap : MemoryMap) (w : World Space) : Prop where
  valid : WorldValid w
  ram : RamOnly mmap w.phys.pmm
  findable : ∀ p, Findable w p ↔ p ∈ pagesIn mmap.entries

theorem Conserved.step {mmap : MemoryMap} (hw : Conserved mmap w) (hstep : ThriftyStep w op w') :
    Conserved mmap w' := by
  have ha := acts_of_step hw.valid hstep.1
  refine ⟨ha.worldValid hw.valid, ?_, fun p => ?_⟩
  · refine hstep.1.keeps RamOnly.take (fun p hp hram => ?_) hw.valid hw.ram
    -- the client owns only findable pages
    have hmem : p ∈ pagesIn mmap.entries :=
      (hw.findable p).mp (Or.inr ⟨none, Finset.mem_coe.mpr hp⟩)
    refine hram.free fun q hq hpq => ?_
    obtain rfl : p = q := pageAddr_inj (hw.valid.used none p hp).1 hq hpq
    exact (Finset.mem_filter.mp hmem).2
  · rw [← hw.findable p]
    exact ⟨ha.findable_before hw.valid, findable_step hw.valid hstep⟩

omit [DecidableEq Space] in
/-- The held pages are those missing from the free ones. -/
theorem Conserved.setOf_held {mmap : MemoryMap} (hw : Conserved mmap w) :
    {p | ∃ h, p ∈ held w h} = ↑(pagesIn mmap.entries \ freeSet w.phys.pmm.bitmap) := by
  ext p
  rw [Finset.mem_coe, Finset.mem_sdiff, ← hw.findable p]
  constructor
  · rintro ⟨h, hp⟩
    exact ⟨Or.inr ⟨h, hp⟩, (hw.valid.used h p hp).2⟩
  · rintro ⟨hp, hnot⟩
    exact hp.resolve_left hnot

omit [DecidableEq Space] in
/-- `used_pages` counts the held pages. -/
theorem Conserved.usedPages {mmap : MemoryMap} (hw : Conserved mmap w) :
    w.phys.pmm.usedPages.toNat = {p | ∃ h, p ∈ held w h}.ncard := by
  have hcard := Finset.card_sdiff_add_card_eq_card hw.ram.free_sub
  have hused : w.phys.pmm.usedPages = w.phys.pmm.totalPages - w.phys.pmm.freePages := by
    rw [← hw.ram.accounted.total]
    grind
  have hle : w.phys.pmm.freePages ≤ w.phys.pmm.totalPages := by
    rw [UInt64.le_iff_toNat_le, hw.ram.accounted.free, hw.ram.total]
    omega
  rw [hw.setOf_held, Set.ncard_coe_finset, hused, UInt64.toNat_sub_of_le _ _ hle, hw.ram.total,
    hw.ram.accounted.free]
  omega

end Step

end OsKernel
