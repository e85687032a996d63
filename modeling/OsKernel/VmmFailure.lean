import OsKernel.VmmIsolation
import OsKernel.VmmPaths

/-! # What a failed `vmm_map` leaves behind

The manager never gives a table back, and `vmm_map` does not undo the levels it has
created when a later one fails.  So a failed call costs every page the physical
memory manager could still hand out: there were at most two, and they are tables
on the path of the address now.  The address space itself translates as before.
-/
namespace OsKernel

/-- The bitmap and the counters of the physical memory manager and every entry of the
page tables are as before. -/
def CostsNothing (vmm : Vmm) (s s' : PhysState) : Prop :=
  s'.pmm = s.pmm ∧ ∀ root, vmm.pml4 = some root → ∀ f ∈ tableFrames s.mem root,
    ∀ index : UInt64, index.toNat < 512 → loadPte s'.mem f index = loadPte s.mem f index

variable {Space : Type*} [DecidableEq Space] {k : Space} {w : World Space} {vmm vmm' : Vmm}
  {s s' : PhysState} {root : Nat} {page : PageNumber}

/-- A call on a space of a reachable world finds it valid, or never initialised. -/
theorem space_cases {ops : List (WorldOp Space)} (hrun : Run WorldStep (World.start s) ops w)
    (hk : w.spaces k = some vmm) :
    vmm.pml4 = none ∨ ∃ root, VmmValid vmm w.phys root := by
  cases hroot : vmm.pml4 with
  | none => exact Or.inl rfl
  | some root => exact Or.inr ⟨root, (run_worldValid hrun).space k vmm root hk hroot⟩

/-- Without a page to pay with, nothing happens at all. -/
theorem Opened.eq_of_available {path : List Nat} (h : Opened root path s s')
    (hzero : available s.pmm = 0) : s' = s := by
  have hpaid := h.paid
  exact h.untouched ((Set.ncard_eq_zero h.finite).mp (by omega))

/-- **What a failed `vmm_map` costs.**  In every reachable state, a call that returns -1
leaves the `vmm_t`, every leaf entry and every translation as they were.  It has taken
every page that could still be allocated, at most two, and these are now tables on the
path of the address, each below an entry that was not present.  So it costs nothing
exactly when no page was left, or the address space was never set up. -/
theorem vmm_map_failure_cost {s₀ : PhysState} {ops : List (WorldOp Space)}
    (hrun : Run WorldStep (World.start s₀) ops w) (hk : w.spaces k = some vmm) {virt : Vaddr}
    {phys : Paddr} {flags : UInt64}
    (hfail : vmmMap vmm w.phys virt phys flags = (-1, vmm', s')) :
    vmm' = vmm ∧
      (∀ v, vmmTranslate vmm' s'.mem v = vmmTranslate vmm w.phys.mem v) ∧
      (CostsNothing vmm w.phys s' ↔ vmm.pml4 = none ∨ w.phys.pmm.freePages = 0 ∨
        freeSet w.phys.pmm.bitmap = ∅) ∧
      ∀ root, vmm.pml4 = some root →
        pageEntry s'.mem root = pageEntry w.phys.mem root ∧
        available s'.pmm = 0 ∧ available w.phys.pmm ≤ 2 ∧
        (newPaths root w.phys s').ncard = available w.phys.pmm ∧
        s'.pmm.freePages.toNat + available w.phys.pmm = w.phys.pmm.freePages.toNat ∧
        (∀ r ∈ newPaths root w.phys s', r <+: tablePath (pageNumber virt)) ∧
        ∀ p ∈ freeSet w.phys.pmm.bitmap, p ∉ freeSet s'.pmm.bitmap →
          ∃ r ∈ newPaths root w.phys s', follow (child s'.mem) root r = some (p * 4096) := by
  rcases space_cases hrun hk with hnone | ⟨root, hvalid⟩
  · rw [vmmMap_none hnone] at hfail
    obtain ⟨-, rfl, rfl⟩ : (-1 : Int) = -1 ∧ vmm = vmm' ∧ w.phys = s' := by simpa using hfail
    refine ⟨rfl, fun _ => rfl, ⟨fun _ => Or.inl hnone, fun _ => ⟨rfl, fun _ _ _ _ _ _ => rfl⟩⟩, ?_⟩
    intro root hroot
    rw [hnone] at hroot
    cases hroot
  · obtain ⟨ret, vmm'', s'', heq, hvalid', hcase⟩ := vmmMap_outcome hvalid virt phys flags
    rw [heq] at hfail
    obtain ⟨rfl, rfl, rfl⟩ : ret = -1 ∧ vmm'' = vmm' ∧ s'' = s' := by simpa using hfail
    rcases hcase with ⟨-, rfl, hopened, hzero, hlt⟩ | ⟨hret, -⟩
    · have hpaid := hopened.paid
      have hcounted := hopened.counted
      have hmissing := ncard_missingPaths_le w.phys.mem root (pageNumber virt)
      refine ⟨rfl, fun v => ?_, ?_, ?_⟩
      · rw [vmmTranslate_eq hvalid'.pml4 hvalid'.tables, vmmTranslate_eq hvalid.pml4 hvalid.tables,
          hopened.entries]
      · rw [hvalid.pml4, ← available_eq_zero]
        constructor
        · rintro ⟨hpmm, -⟩
          exact Or.inr (hpmm ▸ hzero)
        · rintro (hroot | hempty)
          · cases hroot
          · rw [hopened.eq_of_available hempty]
            exact ⟨rfl, fun _ _ _ _ _ _ => rfl⟩
      · intro root' hroot'
        obtain rfl : root = root' := Option.some.inj (hvalid.pml4.symm.trans hroot')
        exact ⟨hopened.entries, hzero, by omega, by omega, by omega, hopened.onPath,
          hopened.placed⟩
    · cases hret

/-- The manager of a machine with one free region, the pages `1` to `n`. -/
def smallPmm (n : Nat) : Pmm where
  bitmap := (List.range' 1 n).foldl bitmapClear (Vector.replicate _ 0xFF)
  totalPages := UInt64.ofNat n
  freePages := UInt64.ofNat n
  usedPages := 0

theorem freeSet_smallPmm {n : Nat} (hn : n < pmmMaxPages) :
    freeSet (smallPmm n).bitmap = Finset.Ico 1 (1 + n) := by
  induction n with
  | zero => exact freeSet_all_used
  | succ n ih =>
    have hn' : 1 + n < pmmMaxPages := by omega
    have hstep : (smallPmm (n + 1)).bitmap = bitmapClear (smallPmm n).bitmap (1 + n) := by
      simp [smallPmm, List.range'_concat, List.foldl_append]
    rw [hstep, freeSet_bitmapClear hn', ih (by omega), ← Nat.add_assoc]
    exact (Nat.Ico_succ_right_eq_insert_Ico (Nat.le_add_right 1 n)).symm

theorem available_smallPmm {n : Nat} (hn : n < pmmMaxPages) : available (smallPmm n) = n := by
  have hlt := hn
  rw [pmmMaxPages_eq] at hlt
  have hcount : (smallPmm n).freePages.toNat = n :=
    UInt64.toNat_ofNat_of_lt' (show n < 2 ^ 64 by omega)
  rw [available, freeSet_smallPmm hn, hcount, Nat.card_Ico]
  omega

/-- With two free pages, one becomes the PML4, and `vmm_map` turns the other one into a
table before it fails. -/
theorem vmmMap_two_pages (h : available s.pmm = 2) (virt : Vaddr) (phys : Paddr) (flags : UInt64) :
    ∃ s', vmmMap (vmmInit s).1 (vmmInit s).2 virt phys flags = (-1, (vmmInit s).1, s') ∧
      available (vmmInit s).2.pmm = 1 ∧ available s'.pmm = 0 := by
  obtain ⟨root, hvalid, hone, hpaths, -⟩ := vmmInit_available h
  obtain ⟨ret, vmm', s', heq, -, hcase⟩ := vmmMap_outcome hvalid virt phys flags
  rcases hcase with ⟨rfl, rfl, -, hzero, -⟩ | ⟨-, hdone⟩
  · exact ⟨s', heq, hone, hzero⟩
  · have hpaid := hdone.paid
    rw [ncard_missingPaths_root hpaths] at hpaid
    omega

theorem available_two_pages : available (PhysState.mk (smallPmm 2) fun _ => 0).pmm = 2 :=
  available_smallPmm (by decide)

theorem vmm_map_failure_cost_two_pages :
    ∃ (s₀ : PhysState) (w : World Unit) (vmm : Vmm) (s' : PhysState), s₀.pmm = smallPmm 2 ∧
      WorldStep (World.start s₀) (.init ()) w ∧ w.spaces () = some vmm ∧
      vmmMap vmm w.phys 0x400000 0x5000 3 = (-1, vmm, s') ∧
      ∀ v, vmmTranslate vmm s'.mem v = vmmTranslate vmm w.phys.mem v := by
  obtain ⟨s₀, hs₀, hfree⟩ : ∃ s₀ : PhysState, s₀.pmm = smallPmm 2 ∧ available s₀.pmm = 2 :=
    ⟨⟨smallPmm 2, fun _ => 0⟩, rfl, available_two_pages⟩
  obtain ⟨s', heq, -⟩ := vmmMap_two_pages hfree 0x400000 0x5000 3
  obtain ⟨hstep, hk⟩ := start_init s₀ ()
  exact ⟨s₀, _, _, s', hs₀, hstep, hk, heq, (vmm_map_failure_cost (Run.nil.snoc hstep) hk heq).2.1⟩

/-- The page that was left is gone, although the call has failed. -/
theorem vmm_map_failure_costs_page :
    ¬ ∀ (s₀ : PhysState) (ops : List (WorldOp Unit)) (w : World Unit) (vmm vmm' : Vmm)
      (virt : Vaddr) (phys : Paddr) (flags : UInt64) (s' : PhysState),
      Run WorldStep (World.start s₀) ops w → w.spaces () = some vmm →
      vmmMap vmm w.phys virt phys flags = (-1, vmm', s') → CostsNothing vmm w.phys s' := by
  intro hclaim
  obtain ⟨s₀, hfree⟩ : ∃ s₀ : PhysState, available s₀.pmm = 2 := ⟨_, available_two_pages⟩
  obtain ⟨s', heq, hone, hzero⟩ := vmmMap_two_pages hfree 0x400000 0x5000 3
  obtain ⟨hstep, hk⟩ := start_init s₀ ()
  have hcost := hclaim s₀ _ _ _ _ _ _ _ s' (Run.nil.snoc hstep) hk heq
  have hsame : available s'.pmm = available (vmmInit s₀).2.pmm := congrArg available hcost.1
  omega

end OsKernel
