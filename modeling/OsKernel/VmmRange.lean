import OsKernel.Overwrite
import OsKernel.VmmFailure

/-! # Mapping and unmapping ranges

A range of pages is mapped or unmapped one page after the other.  Up to `2 ^ 36` pages
never meet the same page number twice, also when the addresses wrap around, so a
range operation overwrites a stretch of the partial map the address space stands
for (`Overwrites`).
-/
namespace OsKernel

/-- The page number of page `i` of a range. -/
def rangePage (virt : Vaddr) (i : Nat) : PageNumber := pageNumber (virt + UInt64.ofNat i * pageSize)

/-- The pages of a range for which `vmm_is_mapped` answers `b`. -/
def pagesMapped (vmm : Vmm) (mem : Memory) (virt : Vaddr) (n : Nat) (b : Bool) : Set Nat :=
  {i | i < n ∧ vmmIsMapped vmm mem (virt + UInt64.ofNat i * pageSize) = .ok b}

variable {Space : Type*} [DecidableEq Space] {k : Space} {w : World Space}
  {vmm vmm' : Vmm} {s s' : PhysState} {root n i j : Nat} {virt : Vaddr} {phys : Paddr}
  {flags : UInt64}

/-! ## Addresses of a range -/

theorem toNat_range (x : UInt64) (i : Nat) :
    (x + UInt64.ofNat i * pageSize).toNat = (x.toNat + i * 4096) % 2 ^ 64 := by
  rw [UInt64.toNat_add, UInt64.toNat_mul, toNat_pageSize, UInt64.toNat_ofNat']
  omega

theorem rangePage_val (virt : Vaddr) (i : Nat) :
    (rangePage virt i).val = (virt.toNat / 4096 + i) % 2 ^ 36 := by
  change (virt + UInt64.ofNat i * pageSize).toNat / 4096 % 2 ^ 36 = _
  rw [toNat_range]
  omega

/-- Up to `2 ^ 36` pages are different pages. -/
theorem rangePage_inj (hi : i < 2 ^ 36) (hj : j < 2 ^ 36)
    (h : rangePage virt i = rangePage virt j) : i = j := by
  have hval := congrArg Fin.val h
  rw [rangePage_val, rangePage_val] at hval
  omega

/-- Every address inside page `i` has its page number. -/
theorem pageNumber_inside (virt : Vaddr) (i : Nat) {o : UInt64} (ho : o.toNat < 4096) :
    pageNumber (alignDown virt pageSize + UInt64.ofNat i * pageSize + o) = rangePage virt i := by
  apply Fin.ext
  rw [rangePage_val]
  change (alignDown virt pageSize + UInt64.ofNat i * pageSize + o).toNat / 4096 % 2 ^ 36 = _
  rw [UInt64.toNat_add, toNat_range, toNat_alignDown_page]
  omega

theorem pageOffset_inside (virt : Vaddr) (i : Nat) {o : UInt64} (ho : o.toNat < 4096) :
    pageOffset (alignDown virt pageSize + UInt64.ofNat i * pageSize + o) = o := by
  rw [← UInt64.toNat_inj, toNat_pageOffset, UInt64.toNat_add, toNat_range, toNat_alignDown_page]
  omega

/-- The frame of page `i` of a range, and an address inside it. -/
theorem alignDown_range_lor {o : UInt64} (ho : o.toNat < 4096) (hi : i < n)
    (hphys : (alignDown phys pageSize).toNat + n * 4096 ≤ 2 ^ 52) :
    alignDown (phys + UInt64.ofNat i * pageSize) pageSize ||| o =
      alignDown phys pageSize + UInt64.ofNat i * pageSize + o := by
  rw [toNat_alignDown_page] at hphys
  have hframe : (alignDown (phys + UInt64.ofNat i * pageSize) pageSize).toNat =
      2 ^ 12 * (phys.toNat / 4096 + i) := by
    rw [toNat_alignDown_page, toNat_range]
    omega
  rw [← UInt64.toNat_inj, UInt64.toNat_or, hframe, ← Nat.two_pow_add_eq_or_of_lt ho,
    UInt64.toNat_add, toNat_range, toNat_alignDown_page]
  omega

/-! ## The loops -/

/-- The frame page `i` of a range is mapped to. -/
def rangeFrame (phys : Paddr) (flags : UInt64) (i : Nat) : Paddr :=
  leafPte (phys + UInt64.ofNat i * pageSize) flags &&& pteAddrMask

/-- `vmm_map` on page `i` of a range. -/
def vmmMapPage (virt : Vaddr) (phys : Paddr) (flags : UInt64) (i : Nat) (vmm : Vmm)
    (s : PhysState) : Int × Vmm × PhysState :=
  vmmMap vmm s (virt + UInt64.ofNat i * pageSize) (phys + UInt64.ofNat i * pageSize) flags

theorem vmmMapRangeFrom_return (virt : Vaddr) (phys : Paddr) (flags : UInt64) (n i : Nat)
    (vmm : Vmm) (s : PhysState) :
    (vmmMapRangeFrom virt phys flags n i vmm s).1 = 0 ∨
      (vmmMapRangeFrom virt phys flags n i vmm s).1 = -1 := by
  induction n generalizing i vmm s with
  | zero => exact Or.inl rfl
  | succ n ih =>
    unfold vmmMapRangeFrom
    dsimp only
    split
    · exact Or.inr rfl
    · exact ih _ _ _

theorem vmmMapRangeFrom_snoc_fail (h : vmmMapRangeFrom virt phys flags n i vmm s = (-1, vmm', s')) :
    vmmMapRangeFrom virt phys flags (n + 1) i vmm s = (-1, vmm', s') := by
  induction n generalizing i vmm s with
  | zero => cases h
  | succ n ih =>
    unfold vmmMapRangeFrom at h ⊢
    dsimp only at h ⊢
    split at h
    · rw [if_pos ‹_›]
      exact h
    · rw [if_neg ‹_›]
      exact ih h

/-- A range of one page more maps one page more. -/
theorem vmmMapRangeFrom_snoc (h : vmmMapRangeFrom virt phys flags n i vmm s = (0, vmm', s'))
    (hvalid : VmmValid vmm' s' root) :
    vmmMapRangeFrom virt phys flags (n + 1) i vmm s =
      vmmMapPage virt phys flags (i + n) vmm' s' := by
  induction n generalizing i vmm s with
  | zero =>
    cases h
    obtain ⟨ret, vmm', s', heq, -, hcase⟩ := vmmMap_outcome hvalid
      (virt + UInt64.ofNat i * pageSize) (phys + UInt64.ofNat i * pageSize) flags
    simp only [vmmMapRangeFrom, vmmMapPage, Nat.add_zero, heq]
    rcases hcase with ⟨rfl, -⟩ | ⟨rfl, -⟩
    · exact if_pos (by decide)
    · exact if_neg (by decide)
  | succ n ih =>
    rw [vmmMapRangeFrom]
    unfold vmmMapRangeFrom at h
    dsimp only at h ⊢
    split at h
    · cases h
    · rw [if_neg ‹_›, ih h, Nat.add_right_comm, Nat.add_assoc]

/-- A loop that goes through has mapped all pages but the last, and then the last. -/
theorem vmmMapRangeFrom_succ_ok (h : VmmValid vmm s root)
    (hok : vmmMapRangeFrom virt phys flags (n + 1) 0 vmm s = (0, vmm', s')) :
    ∃ vmm₁ s₁, vmmMapRangeFrom virt phys flags n 0 vmm s = (0, vmm₁, s₁) ∧
      VmmValid vmm₁ s₁ root ∧ vmmMapPage virt phys flags n vmm₁ s₁ = (0, vmm', s') := by
  obtain ⟨ret, vmm₁, s₁, heq, -, hvalid⟩ := vmmMapRangeFrom_spec virt phys flags n 0 h
  have hret := vmmMapRangeFrom_return virt phys flags n 0 vmm s
  rw [heq] at hret
  rcases hret with rfl | rfl
  · rw [vmmMapRangeFrom_snoc heq hvalid, Nat.zero_add] at hok
    exact ⟨vmm₁, s₁, heq, hvalid, hok⟩
  · rw [vmmMapRangeFrom_snoc_fail heq] at hok
    cases hok

/-- A loop that stops has mapped the pages before the one that could not be mapped. -/
theorem vmmMapRangeFrom_stops (h : VmmValid vmm s root)
    (hfail : vmmMapRangeFrom virt phys flags n 0 vmm s = (-1, vmm', s')) :
    ∃ j vmm₁ s₁, j < n ∧ vmmMapRangeFrom virt phys flags j 0 vmm s = (0, vmm₁, s₁) ∧
      VmmValid vmm₁ s₁ root ∧ vmmMapPage virt phys flags j vmm₁ s₁ = (-1, vmm', s') := by
  induction n with
  | zero => cases hfail
  | succ n ih =>
    obtain ⟨ret, vmm₁, s₁, heq, -, hvalid⟩ := vmmMapRangeFrom_spec virt phys flags n 0 h
    have hret := vmmMapRangeFrom_return virt phys flags n 0 vmm s
    rw [heq] at hret
    rcases hret with rfl | rfl
    · rw [vmmMapRangeFrom_snoc heq hvalid, Nat.zero_add] at hfail
      exact ⟨n, vmm₁, s₁, Nat.lt_succ_self n, heq, hvalid, hfail⟩
    · rw [vmmMapRangeFrom_snoc_fail heq] at hfail
      obtain ⟨j, vmm₂, s₂, hj, hrest⟩ := ih (heq.trans hfail)
      exact ⟨j, vmm₂, s₂, Nat.lt_succ_of_lt hj, hrest⟩

/-- Mapping page `i` of a range sets it in the partial map. -/
theorem vmmMapPage_ok (h : VmmValid vmm s root)
    (hok : vmmMapPage virt phys flags i vmm s = (0, vmm', s')) :
    VmmValid vmm' s' root ∧ pageMap s'.mem root =
      Function.update (pageMap s.mem root) (rangePage virt i) (some (rangeFrame phys flags i)) := by
  obtain ⟨ret, vmm₁, s₁, heq, hvalid, hcase⟩ := vmmMap_outcome h
    (virt + UInt64.ofNat i * pageSize) (phys + UInt64.ofNat i * pageSize) flags
  rw [vmmMapPage, heq] at hok
  obtain ⟨rfl, rfl, rfl⟩ : ret = 0 ∧ vmm₁ = vmm' ∧ s₁ = s' := by simpa using hok
  rcases hcase with ⟨hret, -⟩ | ⟨-, hdone⟩
  · cases hret
  · refine ⟨hvalid, ?_⟩
    rw [pageMap_update hdone.entries, entryFrame, if_pos (isPresent_leafPte _ _)]
    rfl

/-- **What `vmm_map_range` does to the partial map**, where no page comes twice. -/
theorem vmmMapRangeFrom_overwrites (h : VmmValid vmm s root) (hn : n ≤ 2 ^ 36)
    (hok : vmmMapRangeFrom virt phys flags n 0 vmm s = (0, vmm', s')) :
    VmmValid vmm' s' root ∧
      Overwrites (rangePage virt) (fun i => some (rangeFrame phys flags i)) n
        (pageMap s.mem root) (pageMap s'.mem root) := by
  induction n generalizing vmm' s' with
  | zero =>
    cases hok
    exact ⟨h, Overwrites.zero _ _ _⟩
  | succ n ih =>
    obtain ⟨vmm₁, s₁, hinit, hvalid, hlast⟩ := vmmMapRangeFrom_succ_ok h hok
    obtain ⟨-, hover⟩ := ih (by omega) hinit
    obtain ⟨hvalid', hentry⟩ := vmmMapPage_ok hvalid hlast
    refine ⟨hvalid', ?_⟩
    rw [hentry]
    apply hover.succ
    intro i hi he
    have := rangePage_inj (by omega) (by omega) he
    omega

theorem vmmUnmapRangeFrom_snoc {ret : Int}
    (h : vmmUnmapRangeFrom virt n i vmm s = .ok (ret, vmm', s')) :
    vmmUnmapRangeFrom virt (n + 1) i vmm s = vmmUnmapRangeFrom virt 1 (i + n) vmm' s' := by
  induction n generalizing i vmm s with
  | zero =>
    cases h
    rfl
  | succ n ih =>
    rw [vmmUnmapRangeFrom]
    unfold vmmUnmapRangeFrom at h
    cases hturn : vmmUnmap vmm s (virt + UInt64.ofNat i * pageSize) with
    | error e =>
      rw [hturn] at h
      cases h
    | ok r =>
      rw [hturn] at h
      rw [show i + (n + 1) = i + 1 + n by omega]
      exact ih h

/-- Unmapping page `i` of a range removes it from the partial map, if it was there. -/
theorem vmmUnmap_page (h : VmmValid vmm s root) (virt : Vaddr) (i : Nat) :
    ∃ ret vmm' s', vmmUnmap vmm s (virt + UInt64.ofNat i * pageSize) = .ok (ret, vmm', s') ∧
      VmmValid vmm' s' root ∧ pageMap s'.mem root =
        Function.update (pageMap s.mem root) (rangePage virt i) none := by
  obtain ⟨ret, vmm', s', heq, -, hvalid, hcase⟩ :=
    vmmUnmap_spec h (virt + UInt64.ofNat i * pageSize)
  refine ⟨ret, vmm', s', heq, hvalid, ?_⟩
  rcases hcase with ⟨-, habsent, rfl⟩ | ⟨-, -, hentry⟩
  · have hnone : pageMap s'.mem root (rangePage virt i) = none := entryFrame_eq_none.mpr habsent
    rw [← hnone, Function.update_eq_self]
  · rw [pageMap_update hentry, entryFrame_eq_none.mpr fun h0 => h0 rfl]
    rfl

/-- **What `vmm_unmap_range` does to the partial map**: it always comes to its end. -/
theorem vmmUnmapRangeFrom_overwrites (h : VmmValid vmm s root) (virt : Vaddr) (hn : n ≤ 2 ^ 36) :
    ∃ vmm' s', vmmUnmapRangeFrom virt n 0 vmm s = .ok (0, vmm', s') ∧ VmmValid vmm' s' root ∧
      Overwrites (rangePage virt) (fun _ => none) n (pageMap s.mem root) (pageMap s'.mem root) := by
  induction n with
  | zero => exact ⟨vmm, s, rfl, h, Overwrites.zero _ _ _⟩
  | succ n ih =>
    obtain ⟨vmm₁, s₁, hinit, hvalid, hover⟩ := ih (by omega)
    obtain ⟨ret, vmm', s', hlast, hvalid', hentry⟩ := vmmUnmap_page hvalid virt n
    refine ⟨vmm', s', ?_, hvalid', ?_⟩
    · rw [vmmUnmapRangeFrom_snoc hinit, Nat.zero_add, vmmUnmapRangeFrom, hlast]
      rfl
    · rw [hentry]
      apply hover.succ
      intro i hi he
      have := rangePage_inj (by omega) (by omega) he
      omega

/-! ## The partial map, as the interface shows it -/

section Inside
variable (h : VmmValid vmm s root) {o : UInt64} (ho : o.toNat < 4096)
include h ho

/-- An address inside page `i` of a range is translated through the partial map. -/
theorem VmmValid.translate_some {a : Paddr} (ha : pageMap s.mem root (rangePage virt i) = some a) :
    vmmTranslate vmm s.mem (alignDown virt pageSize + UInt64.ofNat i * pageSize + o) =
      .ok (a ||| o) := by
  rw [h.refines.translate, pageNumber_inside virt i ho, pageOffset_inside virt i ho, ha]

theorem VmmValid.translate_none (hnone : pageMap s.mem root (rangePage virt i) = none) :
    vmmTranslate vmm s.mem (alignDown virt pageSize + UInt64.ofNat i * pageSize + o) =
      .ok noAddr := by
  rw [h.refines.translate, pageNumber_inside virt i ho, hnone]

end Inside

theorem VmmValid.isMapped_page (h : VmmValid vmm s root) (virt : Vaddr) (i : Nat) (b : Bool) :
    vmmIsMapped vmm s.mem (virt + UInt64.ofNat i * pageSize) = .ok b ↔
      (pageMap s.mem root (rangePage virt i)).isSome = b := by
  rw [h.refines.isMapped, Except.ok.injEq]
  rfl

/-- An address outside an overwritten stretch is translated as before. -/
theorem Overwrites.translate_outside {vals : Nat → Option Paddr} (h : VmmValid vmm s root)
    (h' : VmmValid vmm' s' root)
    (hover : Overwrites (rangePage virt) vals n (pageMap s.mem root) (pageMap s'.mem root))
    {v : Vaddr} (hv : ∀ i, i < n → pageNumber v ≠ rangePage virt i) :
    vmmTranslate vmm' s'.mem v = vmmTranslate vmm s.mem v := by
  rw [h.refines.translate, h'.refines.translate, hover.others _ hv]

theorem injOn_rangePage (virt : Vaddr) (hn : n ≤ 2 ^ 36) :
    Set.InjOn (rangePage virt) {i | i < n} := by
  intro i hi j hj h
  rw [Set.mem_ofPred_eq] at hi hj
  exact rangePage_inj (by omega) (by omega) h

theorem pagesMapped_false (h : VmmValid vmm s root) :
    pagesMapped vmm s.mem virt n false =
      {i | i < n ∧ pageMap s.mem root (rangePage virt i) = none} := by
  ext i
  rw [pagesMapped, Set.mem_ofPred_eq, h.isMapped_page, Set.mem_ofPred_eq,
    Option.isSome_eq_false_iff, Option.isNone_iff_eq_none]

theorem pagesMapped_true (h : VmmValid vmm s root) :
    pagesMapped vmm s.mem virt n true =
      {i | i < n ∧ pageMap s.mem root (rangePage virt i) ≠ none} := by
  ext i
  rw [pagesMapped, Set.mem_ofPred_eq, h.isMapped_page, Set.mem_ofPred_eq, Option.isSome_iff_ne_none]

/-- A range that was mapped counts the pages that were not mapped before. -/
theorem mapped_mapRange (h : VmmValid vmm s root) (hn : n ≤ 2 ^ 36)
    (hok : vmmMapRangeFrom virt phys flags n 0 vmm s = (0, vmm', s')) :
    vmm'.mapped.toNat = vmm.mapped.toNat + (pagesMapped vmm s.mem virt n false).ncard := by
  obtain ⟨hvalid, hover⟩ := vmmMapRangeFrom_overwrites h hn hok
  rw [hvalid.refines.mapped, h.refines.mapped, pagesMapped_false h]
  exact hover.ncard_some (injOn_rangePage virt hn)

theorem rangeFrame_lor {o : UInt64} (hflags : flags &&& pteAddrMask = 0) (ho : o.toNat < 4096)
    (hi : i < n) (hphys : (alignDown phys pageSize).toNat + n * 4096 ≤ 2 ^ 52) :
    rangeFrame phys flags i ||| o = alignDown phys pageSize + UInt64.ofNat i * pageSize + o := by
  have hframe : rangeFrame phys flags i =
      alignDown (phys + UInt64.ofNat i * pageSize) pageSize := by
    rw [toNat_alignDown_page] at hphys
    rw [rangeFrame, leafPte, entry_land_addrMask hflags, ← UInt64.toNat_inj, toNat_land_addrMask,
      toNat_alignDown_page, toNat_range]
    omega
  rw [hframe]
  exact alignDown_range_lor ho hi hphys

section Failed
variable (hnone : vmm.pml4 = none)
include hnone

/-- An address space that was never set up translates nothing. -/
theorem vmmTranslate_none (m : Memory) (v : Vaddr) : vmmTranslate vmm m v = .ok noAddr := by
  simp only [vmmTranslate, hnone]

theorem pagesMapped_none (m : Memory) (virt : Vaddr) (n : Nat) :
    pagesMapped vmm m virt n true = ∅ := by
  refine Set.eq_empty_of_forall_notMem fun i hi => ?_
  have hmapped := hi.2
  rw [vmmIsMapped, vmmTranslate_none hnone] at hmapped
  cases hmapped

/-- The empty range is the only one it can map. -/
theorem vmmMapRangeFrom_none (h : vmmMapRangeFrom virt phys flags n 0 vmm s = (0, vmm', s')) :
    n = 0 ∧ vmm' = vmm ∧ s' = s := by
  cases n with
  | zero =>
    cases h
    exact ⟨rfl, rfl, rfl⟩
  | succ n =>
    simp [vmmMapRangeFrom, vmmMap_none hnone] at h

end Failed

/-- **Range operations are pointwise.**  In every reachable state and for every range of
at most `2 ^ 36` pages: a `vmm_map_range` that returns 0 maps the pages of the range to
consecutive frames, leaves the translation of every other address, and counts the
pages that were not mapped; `vmm_unmap_range` unmaps the pages of the range, leaves
every other address, and uncounts those that were mapped. -/
theorem vmm_range_pointwise {s₀ : PhysState} {ops : List (WorldOp Space)}
    (hrun : Run WorldStep (World.start s₀) ops w) (hk : w.spaces k = some vmm) (virt : Vaddr)
    {pages : UInt64} (hpages : pages.toNat ≤ 2 ^ 36) :
    (∀ phys flags vmm' s', (alignDown phys pageSize).toNat + pages.toNat * 4096 ≤ 2 ^ 52 →
      flags &&& pteAddrMask = 0 →
      vmmMapRange vmm w.phys virt phys pages flags = (0, vmm', s') →
        (∀ i o, i < pages.toNat → o.toNat < 4096 →
          vmmTranslate vmm' s'.mem (alignDown virt pageSize + UInt64.ofNat i * pageSize + o) =
            .ok (alignDown phys pageSize + UInt64.ofNat i * pageSize + o)) ∧
        (∀ v, (∀ i, i < pages.toNat → pageNumber v ≠ rangePage virt i) →
          vmmTranslate vmm' s'.mem v = vmmTranslate vmm w.phys.mem v) ∧
        vmm'.mapped.toNat =
          vmm.mapped.toNat + (pagesMapped vmm w.phys.mem virt pages.toNat false).ncard) ∧
    ∃ vmm' s', vmmUnmapRange vmm w.phys virt pages = .ok (0, vmm', s') ∧
      (∀ i o, i < pages.toNat → o.toNat < 4096 →
        vmmTranslate vmm' s'.mem (alignDown virt pageSize + UInt64.ofNat i * pageSize + o) =
          .ok noAddr) ∧
      (∀ v, (∀ i, i < pages.toNat → pageNumber v ≠ rangePage virt i) →
        vmmTranslate vmm' s'.mem v = vmmTranslate vmm w.phys.mem v) ∧
      vmm'.mapped.toNat + (pagesMapped vmm w.phys.mem virt pages.toNat true).ncard =
        vmm.mapped.toNat := by
  rcases space_cases hrun hk with hnone | ⟨root, hvalid⟩
  · have htrans := vmmTranslate_none hnone
    refine ⟨fun phys flags vmm' s' _ _ hok => ?_, vmm, w.phys,
      vmmUnmapRangeFrom_none hnone w.phys virt pages.toNat 0, fun i o _ _ => htrans _ _,
      fun v _ => rfl, ?_⟩
    · obtain ⟨hzero, rfl, rfl⟩ := vmmMapRangeFrom_none hnone hok
      refine ⟨fun i o hi => absurd hi (by omega), fun v _ => rfl, ?_⟩
      have hempty : pagesMapped vmm' w.phys.mem virt pages.toNat false = ∅ :=
        Set.eq_empty_of_forall_notMem fun i hi => absurd hi.1 (by omega)
      rw [hempty, Set.ncard_empty, Nat.add_zero]
    · rw [pagesMapped_none hnone, Set.ncard_empty, Nat.add_zero]
  · refine ⟨fun phys flags vmm' s' hphys hflags hok => ?_, ?_⟩
    · obtain ⟨hvalid', hover⟩ := vmmMapRangeFrom_overwrites hvalid hpages hok
      refine ⟨fun i o hi ho => ?_, fun v hv => hover.translate_outside hvalid hvalid' hv,
        mapped_mapRange hvalid hpages hok⟩
      rw [hvalid'.translate_some ho (hover.written i hi), rangeFrame_lor hflags ho hi hphys]
    · obtain ⟨vmm', s', heq, hvalid', hover⟩ :=
        vmmUnmapRangeFrom_overwrites hvalid virt hpages
      refine ⟨vmm', s', heq, fun i o hi ho => hvalid'.translate_none ho (hover.written i hi),
        fun v hv => hover.translate_outside hvalid hvalid' hv, ?_⟩
      rw [hvalid'.refines.mapped, hvalid.refines.mapped, pagesMapped_true hvalid]
      exact hover.ncard_none (injOn_rangePage virt hpages)

/-- With three pages for every page of the range, the range can be mapped. -/
theorem vmmMapRangeFrom_enough (virt : Vaddr) (phys : Paddr) (flags : UInt64) (n i : Nat)
    (h : VmmValid vmm s root) (hpages : 3 * n ≤ available s.pmm) :
    ∃ vmm' s', vmmMapRangeFrom virt phys flags n i vmm s = (0, vmm', s') := by
  induction n generalizing i vmm s with
  | zero => exact ⟨vmm, s, rfl⟩
  | succ n ih =>
    obtain ⟨vmm', s', heq, hvalid, hdone⟩ := vmmMap_enough h (by omega)
      (virt + UInt64.ofNat i * pageSize) (phys + UInt64.ofNat i * pageSize) flags
    have hpaid := hdone.paid
    have hmissing := ncard_missingPaths_le s.mem root
      (pageNumber (virt + UInt64.ofNat i * pageSize))
    obtain ⟨vmm'', s'', hrest⟩ := ih (i + 1) hvalid (by omega)
    refine ⟨vmm'', s'', ?_⟩
    unfold vmmMapRangeFrom
    rw [heq]
    exact (if_neg fun hne => hne rfl).trans hrest

theorem vmm_range_pointwise_fresh : ∃ (w : World Unit) (vmm vmm' : Vmm) (s' : PhysState),
    WorldStep (World.start ⟨freshPmm, fun _ => 0⟩) (.init ()) w ∧ w.spaces () = some vmm ∧
      vmmMapRange vmm w.phys 0x1FF123 0x5000 2 3 = (0, vmm', s') ∧
      vmmTranslate vmm' s'.mem (alignDown 0x1FF123 pageSize + UInt64.ofNat 1 * pageSize + 0x10) =
        .ok (alignDown 0x5000 pageSize + UInt64.ofNat 1 * pageSize + 0x10) := by
  obtain ⟨s₀, hs₀, hfree⟩ : ∃ s₀ : PhysState, s₀ = ⟨freshPmm, fun _ => 0⟩ ∧
    available s₀.pmm = 16383 + 1 := ⟨_, rfl, available_freshPmm⟩
  obtain ⟨root, hvalid, hpages, -⟩ := vmmInit_available hfree
  obtain ⟨vmm', s', hok⟩ := vmmMapRangeFrom_enough 0x1FF123 0x5000 3 2 0 hvalid (by omega)
  obtain ⟨hstep, hk⟩ := start_init s₀ ()
  have htwo : (2 : UInt64).toNat ≤ 2 ^ 36 := by decide
  obtain ⟨hmap, -⟩ := vmm_range_pointwise (Run.nil.snoc hstep) hk 0x1FF123 htwo
  obtain ⟨htrans, -⟩ := hmap 0x5000 3 vmm' s' (by decide) (by decide) hok
  exact ⟨_, _, vmm', s', hs₀ ▸ hstep, hk, hok, htrans 1 0x10 (by decide) (by decide)⟩

/-! ## A range that could not be mapped -/

/-- Every page of a mapped range is mapped, also when the range meets a page twice. -/
theorem vmmMapRangeFrom_mapped (h : VmmValid vmm s root)
    (hok : vmmMapRangeFrom virt phys flags n 0 vmm s = (0, vmm', s')) (hi : i < n) :
    pageMap s'.mem root (rangePage virt i) ≠ none := by
  induction n generalizing vmm' s' with
  | zero => exact absurd hi (Nat.not_lt_zero i)
  | succ n ih =>
    obtain ⟨vmm₁, s₁, hinit, hvalid, hlast⟩ := vmmMapRangeFrom_succ_ok h hok
    rw [(vmmMapPage_ok hvalid hlast).2]
    by_cases hpage : rangePage virt i = rangePage virt n
    · rw [hpage, Function.update_self]
      exact Option.some_ne_none _
    · rw [Function.update_of_ne hpage]
      have hne : i ≠ n := fun he => hpage (he ▸ rfl)
      exact ih hinit (by omega)

/-- A page that is mapped has its tables, so mapping it again cannot fail. -/
theorem vmmMapPage_fail (h : VmmValid vmm s root)
    (hfail : vmmMapPage virt phys flags i vmm s = (-1, vmm', s')) :
    vmm' = vmm ∧ VmmValid vmm' s' root ∧ pageMap s'.mem root = pageMap s.mem root ∧
      pageMap s.mem root (rangePage virt i) = none := by
  obtain ⟨ret, vmm₁, s₁, heq, hvalid, hcase⟩ := vmmMap_outcome h
    (virt + UInt64.ofNat i * pageSize) (phys + UInt64.ofNat i * pageSize) flags
  rw [vmmMapPage, heq] at hfail
  obtain ⟨rfl, rfl, rfl⟩ : ret = -1 ∧ vmm₁ = vmm' ∧ s₁ = s' := by simpa using hfail
  rcases hcase with ⟨-, rfl, hopened, -, hlt⟩ | ⟨hret, -⟩
  · refine ⟨rfl, hvalid, ?_, entryFrame_eq_none.mpr fun hpresent => ?_⟩
    · funext page
      rw [pageMap, hopened.entries]
      rfl
    · have hpath : follow (child s.mem) root (tablePath (rangePage virt i)) ≠ none := by
        intro hnone
        rw [pageEntry_none hnone] at hpresent
        exact hpresent rfl
      have hempty : missingPaths s.mem root (rangePage virt i) = ∅ := by
        refine Set.eq_empty_of_forall_notMem fun r hr => hr.2 ?_
        exact paths_prefix_closed ⟨length_tablePath _, hpath⟩ hr.1
      rw [rangePage] at hempty
      rw [hempty, Set.ncard_empty] at hlt
      omega
  · cases hret

theorem rangePage_wrap (hj : 2 ^ 36 ≤ j) : rangePage virt (j - 2 ^ 36) = rangePage virt j := by
  apply Fin.ext
  rw [rangePage_val, rangePage_val]
  omega

theorem rangeFrame_ne_noAddr (phys : Paddr) (flags : UInt64) (i : Nat) :
    rangeFrame phys flags i ≠ noAddr := by
  have h := land_addrMask_lor_pageOffset_ne (leafPte (phys + UInt64.ofNat i * pageSize) flags) 0
  rwa [show pageOffset 0 = 0 from rfl, UInt64.or_zero] at h

/-- `vmm_translate` on the first byte of page `i` of a range. -/
theorem VmmValid.translate_eq_iff (h : VmmValid vmm s root) {a : Paddr} (ha : a ≠ noAddr) :
    vmmTranslate vmm s.mem (alignDown virt pageSize + UInt64.ofNat i * pageSize) = .ok a ↔
      pageMap s.mem root (rangePage virt i) = some a := by
  have hzero : (0 : UInt64).toNat < 4096 := by decide
  rw [← UInt64.add_zero (alignDown virt pageSize + UInt64.ofNat i * pageSize)]
  cases hM : pageMap s.mem root (rangePage virt i) with
  | none =>
    rw [h.translate_none hzero hM, Except.ok.injEq]
    exact iff_of_false (fun he => ha he.symm) (by simp)
  | some b => rw [h.translate_some hzero hM, UInt64.or_zero, Except.ok.injEq, Option.some.injEq]

/-- The translations and the counter are those of before exactly when the overwritten pages
were mapped to their frames already. -/
theorem Overwrites.unchanged_iff (h : VmmValid vmm s root) (h' : VmmValid vmm' s' root)
    (hover : Overwrites (rangePage virt) (fun i => some (rangeFrame phys flags i)) n
      (pageMap s.mem root) (pageMap s'.mem root)) :
    ((∀ v, vmmTranslate vmm' s'.mem v = vmmTranslate vmm s.mem v) ∧ vmm'.mapped = vmm.mapped) ↔
      ∀ i, i < n → vmmTranslate vmm s.mem (alignDown virt pageSize + UInt64.ofNat i * pageSize) =
        .ok (rangeFrame phys flags i) := by
  constructor
  · rintro ⟨hsame, -⟩ i hi
    rw [← hsame, h'.translate_eq_iff (rangeFrame_ne_noAddr phys flags i)]
    exact hover.written i hi
  · intro hold
    have hmaps : pageMap s'.mem root = pageMap s.mem root := by
      refine hover.eq_iff.mpr fun i hi => ?_
      exact (h.translate_eq_iff (rangeFrame_ne_noAddr phys flags i)).mp (hold i hi)
    refine ⟨fun v => ?_, ?_⟩
    · rw [h.refines.translate, h'.refines.translate, hmaps]
    · rw [← UInt64.toNat_inj, h.refines.mapped, h'.refines.mapped, hmaps]

/-- **What a failed `vmm_map_range` leaves behind.**  In every reachable state, a call that
returns -1 has mapped the first `j` pages of the range, as a call for `j` pages does, and
could not map page `j`.  These `j` pages are translated to their frames, every other
address as before, and the pages that were not mapped are counted.  So translations and
counter are those of before exactly when each of the `j` pages was mapped to its frame
already; in particular when the first page could not be mapped. -/
theorem vmm_map_range_failure {s₀ : PhysState} {ops : List (WorldOp Space)}
    (hrun : Run WorldStep (World.start s₀) ops w) (hk : w.spaces k = some vmm) {virt : Vaddr}
    {phys : Paddr} {pages flags : UInt64}
    (hfail : vmmMapRange vmm w.phys virt phys pages flags = (-1, vmm', s')) :
    ∃ j s₁, j < pages.toNat ∧ j < 2 ^ 36 ∧
      vmmMapRange vmm w.phys virt phys (UInt64.ofNat j) flags = (0, vmm', s₁) ∧
      vmmMapPage virt phys flags j vmm' s₁ = (-1, vmm', s') ∧
      (∀ i o, i < j → o.toNat < 4096 →
        vmmTranslate vmm' s'.mem (alignDown virt pageSize + UInt64.ofNat i * pageSize + o) =
          .ok (rangeFrame phys flags i ||| o)) ∧
      (∀ v, (∀ i, i < j → pageNumber v ≠ rangePage virt i) →
        vmmTranslate vmm' s'.mem v = vmmTranslate vmm w.phys.mem v) ∧
      vmm'.mapped.toNat =
        vmm.mapped.toNat + (pagesMapped vmm w.phys.mem virt j false).ncard ∧
      (((∀ v, vmmTranslate vmm' s'.mem v = vmmTranslate vmm w.phys.mem v) ∧
          vmm'.mapped = vmm.mapped) ↔
        ∀ i, i < j →
          vmmTranslate vmm w.phys.mem (alignDown virt pageSize + UInt64.ofNat i * pageSize) =
            .ok (rangeFrame phys flags i)) := by
  rcases space_cases hrun hk with hnone | ⟨root, hvalid⟩
  · have hpos : 0 < pages.toNat := by
      by_contra hzero
      rw [vmmMapRange, Nat.eq_zero_of_not_pos hzero] at hfail
      cases hfail
    obtain ⟨rfl, rfl⟩ : vmm' = vmm ∧ s' = w.phys := by
      obtain ⟨ret, heq⟩ := vmmCall_none hnone w.phys (.mapRange virt phys pages flags)
      simp only [vmmCall, hfail, Except.ok.injEq, Prod.mk.injEq] at heq
      exact heq.2
    refine ⟨0, w.phys, hpos, by decide, rfl, vmmMap_none hnone _ _ _ _,
      fun i o hi => absurd hi (Nat.not_lt_zero i), fun v _ => rfl, ?_,
      iff_of_true ⟨fun _ => rfl, rfl⟩ fun i hi => absurd hi (Nat.not_lt_zero i)⟩
    have hempty : pagesMapped vmm' w.phys.mem virt 0 false = ∅ :=
      Set.eq_empty_of_forall_notMem fun i hi => absurd hi.1 (Nat.not_lt_zero i)
    rw [hempty, Set.ncard_empty, Nat.add_zero]
  · obtain ⟨j, vmm₁, s₁, hj, hok, hvalid₁, hpage⟩ := vmmMapRangeFrom_stops hvalid hfail
    obtain ⟨rfl, hvalid', hsame, habsent⟩ := vmmMapPage_fail hvalid₁ hpage
    -- the first `2 ^ 36` pages are all there are, so a later page would have its tables
    have hwrap : j < 2 ^ 36 := by
      by_contra hle
      push Not at hle
      apply vmmMapRangeFrom_mapped hvalid hok (show j - 2 ^ 36 < j by omega)
      rw [rangePage_wrap hle, habsent]
    have hcount : (UInt64.ofNat j).toNat = j :=
      UInt64.toNat_ofNat_of_lt' (show j < 2 ^ 64 by omega)
    obtain ⟨-, hover⟩ := vmmMapRangeFrom_overwrites hvalid hwrap.le hok
    rw [← hsame] at hover
    refine ⟨j, s₁, hj, hwrap, ?_, hpage, fun i o hi ho => ?_,
      fun v hv => hover.translate_outside hvalid hvalid' hv,
      mapped_mapRange hvalid hwrap.le hok, hover.unchanged_iff hvalid hvalid'⟩
    · rw [vmmMapRange, hcount]
      exact hok
    · exact hvalid'.translate_some ho (hover.written i hi)

/-- With four free pages, the last page of a page table can be mapped, and the first one of
the next page table cannot. -/
theorem vmmMapRange_four_pages (h : available s.pmm = 4) :
    ∃ vmm' s', vmmMapRange (vmmInit s).1 (vmmInit s).2 0x1FF000 0x5000 2 3 = (-1, vmm', s') ∧
      vmmTranslate vmm' s'.mem (alignDown 0x1FF000 pageSize + UInt64.ofNat 0 * pageSize) ≠
        vmmTranslate (vmmInit s).1 (vmmInit s).2.mem
          (alignDown 0x1FF000 pageSize + UInt64.ofNat 0 * pageSize) := by
  obtain ⟨root, hvalid, hthree, hpaths, hentry⟩ := vmmInit_available h
  obtain ⟨vmm₁, s₁, heq, hvalid₁, hdone⟩ := vmmMap_enough hvalid (by omega)
    (0x1FF000 + UInt64.ofNat 0 * pageSize) (0x5000 + UInt64.ofNat 0 * pageSize) 3
  obtain ⟨ret, vmm₂, s₂, heq₂, hvalid₂, hcase⟩ := vmmMap_outcome hvalid₁
    (0x1FF000 + UInt64.ofNat 1 * pageSize) (0x5000 + UInt64.ofNat 1 * pageSize) 3
  have hpaid := hdone.paid
  rw [ncard_missingPaths_root hpaths] at hpaid
  rcases hcase with ⟨rfl, rfl, hopened, -, -⟩ | ⟨-, hdone₂⟩
  · have hfirst : vmmMapRangeFrom 0x1FF000 0x5000 3 1 0 (vmmInit s).1 (vmmInit s).2 =
        (0, vmm₂, s₁) := (vmmMapRangeFrom_snoc rfl hvalid).trans heq
    have hboth : vmmMapRange (vmmInit s).1 (vmmInit s).2 0x1FF000 0x5000 2 3 =
        (-1, vmm₂, s₂) := (vmmMapRangeFrom_snoc hfirst hvalid₁).trans heq₂
    refine ⟨vmm₂, s₂, hboth, fun hsame => ?_⟩
    have hframe := rangeFrame_ne_noAddr 0x5000 3 0
    have hmapped : pageMap s₂.mem root (rangePage 0x1FF000 0) = some (rangeFrame 0x5000 3 0) := by
      have hover := (vmmMapPage_ok hvalid heq).2
      rw [pageMap, hopened.entries]
      exact (congrFun hover _).trans (Function.update_self _ _ _)
    rw [(hvalid₂.translate_eq_iff hframe).mpr hmapped] at hsame
    have hbefore := (hvalid.translate_eq_iff hframe).mp hsame.symm
    rw [pageMap, hentry] at hbefore
    cases hbefore
  · -- the page table of the second page would have to be paid for
    have hpaid₂ := hdone₂.paid
    have hempty := (Set.ncard_eq_zero (finite_missingPaths _ _ _)).mp
      (show (missingPaths s₁.mem root (rangePage 0x1FF000 1)).ncard = 0 by
        rw [rangePage]; omega)
    have hnot : tablePath (rangePage 0x1FF000 1) ∉ tablePaths s₁.mem root := by
      rw [hdone.paths, hpaths]
      rintro (hnil | hpre)
      · cases hnil
      · exact absurd hpre (by decide)
    have hmem : tablePath (rangePage 0x1FF000 1) ∈
        missingPaths s₁.mem root (rangePage 0x1FF000 1) := ⟨List.prefix_refl _, hnot⟩
    rw [hempty] at hmem
    exact absurd hmem (Set.notMem_empty _)

theorem available_four_pages : available (PhysState.mk (smallPmm 4) fun _ => 0).pmm = 4 :=
  available_smallPmm (by decide)

theorem vmm_map_range_failure_four_pages :
    ∃ (s₀ : PhysState) (w : World Unit) (vmm vmm' : Vmm) (s' : PhysState) (j : Nat),
      s₀.pmm = smallPmm 4 ∧ WorldStep (World.start s₀) (.init ()) w ∧ w.spaces () = some vmm ∧
      vmmMapRange vmm w.phys 0x1FF000 0x5000 2 3 = (-1, vmm', s') ∧ j < 2 ∧
      vmm'.mapped.toNat =
        vmm.mapped.toNat + (pagesMapped vmm w.phys.mem 0x1FF000 j false).ncard := by
  obtain ⟨s₀, hs₀, hfree⟩ : ∃ s₀ : PhysState, s₀.pmm = smallPmm 4 ∧ available s₀.pmm = 4 :=
    ⟨⟨smallPmm 4, fun _ => 0⟩, rfl, available_four_pages⟩
  obtain ⟨vmm', s', heq, -⟩ := vmmMapRange_four_pages hfree
  obtain ⟨hstep, hk⟩ := start_init s₀ ()
  obtain ⟨j, -, hj, -, -, -, -, -, hmapped, -⟩ :=
    vmm_map_range_failure (Run.nil.snoc hstep) hk heq
  exact ⟨s₀, _, _, vmm', s', j, hs₀, hstep, hk, heq, hj, hmapped⟩

/-- The first page stays mapped, although the call has failed. -/
theorem vmm_map_range_keeps_prefix :
    ¬ ∀ (s₀ : PhysState) (ops : List (WorldOp Unit)) (w : World Unit) (vmm vmm' : Vmm)
      (virt : Vaddr) (phys : Paddr) (pages flags : UInt64) (s' : PhysState),
      Run WorldStep (World.start s₀) ops w → w.spaces () = some vmm →
      vmmMapRange vmm w.phys virt phys pages flags = (-1, vmm', s') →
      (∀ v, vmmTranslate vmm' s'.mem v = vmmTranslate vmm w.phys.mem v) ∧
        vmm'.mapped = vmm.mapped := by
  intro hclaim
  obtain ⟨s₀, hfree⟩ : ∃ s₀ : PhysState, available s₀.pmm = 4 := ⟨_, available_four_pages⟩
  obtain ⟨vmm', s', heq, hdiff⟩ := vmmMapRange_four_pages hfree
  obtain ⟨hstep, hk⟩ := start_init s₀ ()
  exact hdiff ((hclaim s₀ _ _ _ _ _ _ _ _ s' (Run.nil.snoc hstep) hk heq).1 _)

end OsKernel
