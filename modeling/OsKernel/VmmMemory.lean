import OsKernel.VmmFailure
import OsKernel.VmmIsolation
import OsKernel.VmmRange

/-! # The memory of page tables

No call gives a table back: `vmm_unmap` clears leaf entries only.  So the tables of an
address space, as paths from its PML4, grow from `vmm_init` on, whatever the other holders
do.  They grow towards the pages `vmm_map` is called for and nowhere else, and where a call
has succeeded once, every later call in the same two megabytes finds its tables there.
-/
namespace OsKernel

/-- The pages a call wants tables for. -/
def VmmOp.wanted : VmmOp → Set PageNumber
  | .map virt _ _ => {pageNumber virt}
  | .mapRange virt _ pages _ => {page | ∃ i < pages.toNat, page = rangePage virt i}
  | .unmap _ | .unmapRange _ _ => ∅

/-- The paths to the tables above some pages. -/
def pathsAbove (pages : Set PageNumber) : Set (List Nat) :=
  {r | ∃ page ∈ pages, r <+: tablePath page}

/-- Tables are only added, and only above `pages`. -/
structure Extends (root : Nat) (pages : Set PageNumber) (s s' : PhysState) : Prop where
  kept : tablePaths s.mem root ⊆ tablePaths s'.mem root
  new : tablePaths s'.mem root ⊆ tablePaths s.mem root ∪ pathsAbove pages

variable {Space : Type*} {vmm vmm' : Vmm} {s s' t : PhysState} {root : Nat}
  {pages pages' : Set PageNumber}

/-! ## One call -/

theorem pathsAbove_mono (h : pages ⊆ pages') : pathsAbove pages ⊆ pathsAbove pages' :=
  fun _ ⟨page, hpage, hr⟩ => ⟨page, h hpage, hr⟩

theorem Extends.of_eq (h : tablePaths s'.mem root = tablePaths s.mem root) :
    Extends root pages s s' :=
  ⟨h.ge, h.le.trans Set.subset_union_left⟩

theorem Extends.mono (h : Extends root pages s s') (hsub : pages ⊆ pages') :
    Extends root pages' s s' :=
  ⟨h.kept, h.new.trans (Set.union_subset_union_right _ (pathsAbove_mono hsub))⟩

theorem Extends.trans (h : Extends root pages s t) (h' : Extends root pages t s') :
    Extends root pages s s' := by
  refine ⟨h.kept.trans h'.kept, h'.new.trans ?_⟩
  exact Set.union_subset h.new Set.subset_union_right

theorem vmmMap_extends (h : VmmValid vmm s root) (virt : Vaddr) (phys : Paddr) (flags : UInt64) :
    ∃ ret vmm' s', vmmMap vmm s virt phys flags = (ret, vmm', s') ∧ VmmValid vmm' s' root ∧
      Extends root {pageNumber virt} s s' ∧
      (ret = 0 → pathsAbove {pageNumber virt} ⊆ tablePaths s'.mem root) := by
  have habove : pathsAbove {pageNumber virt} = {r | r <+: tablePath (pageNumber virt)} := by
    ext r
    exact exists_eq_left
  obtain ⟨ret, vmm', s', heq, hvalid, hcase⟩ := vmmMap_outcome h virt phys flags
  refine ⟨ret, vmm', s', heq, hvalid, ?_⟩
  rw [habove]
  rcases hcase with ⟨rfl, -, hopened, -⟩ | ⟨-, hdone⟩
  · refine ⟨⟨hopened.paths_subset, fun r hr => ?_⟩, fun hret => by cases hret⟩
    by_cases hold : r ∈ tablePaths s.mem root
    · exact Or.inl hold
    · rw [habove]
      exact Or.inr (hopened.onPath r ⟨hr, hold⟩)
  · refine ⟨⟨?_, ?_⟩, fun _ => ?_⟩
    · rw [hdone.paths]
      exact Set.subset_union_left
    · rw [habove, hdone.paths]
    · rw [hdone.paths]
      exact Set.subset_union_right

theorem vmmUnmap_tablePaths (h : VmmValid vmm s root) (virt : Vaddr) :
    ∃ ret vmm' s', vmmUnmap vmm s virt = .ok (ret, vmm', s') ∧ VmmValid vmm' s' root ∧
      tablePaths s'.mem root = tablePaths s.mem root := by
  obtain ⟨ret, vmm', s', heq, -, hvalid, hcase⟩ := vmmUnmap_spec h virt
  refine ⟨ret, vmm', s', heq, hvalid, ?_⟩
  rcases hcase with ⟨-, -, rfl⟩ | ⟨-, hpresent, -⟩
  · rfl
  · cases hf : follow (child s.mem) root (tablePath (pageNumber virt)) with
    | none => exact absurd rfl (pageEntry_none hf ▸ hpresent)
    | some pt =>
      rw [pageEntry_some hf] at hpresent
      rw [vmmUnmap_some h hf, if_neg (not_not.mpr hpresent)] at heq
      cases heq
      exact tablePaths_storeLeaf h.tables hf 0

theorem vmmMapRangeFrom_extends (virt : Vaddr) (phys : Paddr) (flags : UInt64) (n i : Nat)
    (h : VmmValid vmm s root) :
    ∃ ret vmm' s', vmmMapRangeFrom virt phys flags n i vmm s = (ret, vmm', s') ∧
      VmmValid vmm' s' root ∧
      Extends root {page | ∃ j, i ≤ j ∧ j < i + n ∧ page = rangePage virt j} s s' ∧
      (ret = 0 → pathsAbove {page | ∃ j, i ≤ j ∧ j < i + n ∧ page = rangePage virt j} ⊆
        tablePaths s'.mem root) := by
  induction n generalizing i vmm s with
  | zero =>
    refine ⟨0, vmm, s, rfl, h, .of_eq rfl, ?_⟩
    rintro - r ⟨page, ⟨j, hle, hlt, -⟩, -⟩
    exact absurd hlt (Nat.not_lt.mpr hle)
  | succ n ih =>
    obtain ⟨ret, vmm', t, heq, hvalid, hext, hall⟩ := vmmMap_extends h
      (virt + UInt64.ofNat i * pageSize) (phys + UInt64.ofNat i * pageSize) flags
    have hfirst : Extends root {page | ∃ j, i ≤ j ∧ j < i + (n + 1) ∧ page = rangePage virt j}
        s t :=
      hext.mono (by rintro _ rfl; exact ⟨i, le_rfl, by omega, rfl⟩)
    unfold vmmMapRangeFrom
    rw [heq]
    by_cases hret : ret ≠ 0
    · exact ⟨-1, vmm', t, if_pos hret, hvalid, hfirst, fun h0 => by cases h0⟩
    · obtain ⟨ret', vmm'', s'', heq', hvalid', hext', hall'⟩ := ih (i + 1) hvalid
      refine ⟨ret', vmm'', s'', (if_neg hret).trans heq', hvalid', hfirst.trans (hext'.mono ?_), ?_⟩
      · rintro _ ⟨j, hle, hlt, rfl⟩
        exact ⟨j, by omega, by omega, rfl⟩
      · rintro hret' r ⟨page, ⟨j, hle, hlt, rfl⟩, hr⟩
        rcases eq_or_lt_of_le hle with rfl | hlt'
        · exact hext'.kept (hall (not_not.mp hret) ⟨_, rfl, hr⟩)
        · exact hall' hret' ⟨_, ⟨j, hlt', by omega, rfl⟩, hr⟩

theorem vmmUnmapRangeFrom_tablePaths (virt : Vaddr) (n i : Nat) (h : VmmValid vmm s root) :
    ∃ ret vmm' s', vmmUnmapRangeFrom virt n i vmm s = .ok (ret, vmm', s') ∧
      VmmValid vmm' s' root ∧ tablePaths s'.mem root = tablePaths s.mem root := by
  induction n generalizing i vmm s with
  | zero => exact ⟨0, vmm, s, rfl, h, rfl⟩
  | succ n ih =>
    obtain ⟨ret, vmm', t, heq, hvalid, hpaths⟩ :=
      vmmUnmap_tablePaths h (virt + UInt64.ofNat i * pageSize)
    obtain ⟨ret', vmm'', s'', heq', hvalid', hpaths'⟩ := ih (i + 1) hvalid
    refine ⟨ret', vmm'', s'', ?_, hvalid', hpaths'.trans hpaths⟩
    unfold vmmUnmapRangeFrom
    rw [heq]
    exact heq'

/-- **What a call does to the tables**: it adds some above the pages it is called for, and
all of them when it returns 0. -/
theorem vmmCall_extends (h : VmmValid vmm s root) (op : VmmOp) :
    ∃ ret vmm' s', vmmCall vmm s op = .ok (ret, vmm', s') ∧ VmmValid vmm' s' root ∧
      Extends root op.wanted s s' ∧ (ret = 0 → pathsAbove op.wanted ⊆ tablePaths s'.mem root) := by
  have hnone : pathsAbove ∅ ⊆ tablePaths s.mem root := fun r ⟨page, hpage, _⟩ =>
    absurd hpage (Set.notMem_empty page)
  cases op with
  | map virt phys flags =>
    obtain ⟨ret, vmm', s', heq, hvalid, hext, hall⟩ := vmmMap_extends h virt phys flags
    exact ⟨ret, vmm', s', congrArg Except.ok heq, hvalid, hext, hall⟩
  | mapRange virt phys pages flags =>
    obtain ⟨ret, vmm', s', heq, hvalid, hext, hall⟩ :=
      vmmMapRangeFrom_extends virt phys flags pages.toNat 0 h
    have hpages : {page | ∃ j, 0 ≤ j ∧ j < 0 + pages.toNat ∧ page = rangePage virt j} =
        (VmmOp.mapRange virt phys pages flags).wanted := by
      ext page
      simp only [Nat.zero_le, Nat.zero_add, true_and]
      rfl
    rw [hpages] at hext hall
    exact ⟨ret, vmm', s', congrArg Except.ok heq, hvalid, hext, hall⟩
  | unmap virt =>
    obtain ⟨ret, vmm', s', heq, hvalid, hpaths⟩ := vmmUnmap_tablePaths h virt
    exact ⟨ret, vmm', s', heq, hvalid, .of_eq hpaths, fun _ => hnone.trans hpaths.ge⟩
  | unmapRange virt pages =>
    obtain ⟨ret, vmm', s', heq, hvalid, hpaths⟩ :=
      vmmUnmapRangeFrom_tablePaths virt pages.toNat 0 h
    exact ⟨ret, vmm', s', heq, hvalid, .of_eq hpaths, fun _ => hnone.trans hpaths.ge⟩

/-- The pages a call wants tables of the space `k` for. -/
def WorldOp.wanted [DecidableEq Space] (k : Space) : WorldOp Space → Set PageNumber
  | .call l op => if l = k then op.wanted else ∅
  | _ => ∅

/-- The tables of a space are not touched from outside. -/
theorem Acts.tablePaths_eq {h : Option Space} {w w' : World Space} (ha : Acts h w w')
    (hw : WorldValid w) {k : Space} (hk : some k ≠ h) (hv : w.spaces k = some vmm)
    (hroot : vmm.pml4 = some root) :
    tablePaths w'.phys.mem root = tablePaths w.phys.mem root := by
  have hvalid := hw.space k vmm root hv hroot
  ext r
  refine and_congr_right fun hr => ?_
  rw [follow_frame hvalid.tables (ha.tables_mem hw hk hv hroot) hr]

section Runs
variable [DecidableEq Space] {w w' w₁ w₂ : World Space} {k : Space} {op : WorldOp Space}
  {ops ops' : List (WorldOp Space)}

/-- **A step extends the tables of a space**, unless it initialises the space anew. -/
theorem space_extends_step (hw : WorldValid w) (hstep : WorldStep w op w')
    (hinit : op ≠ .init k) (hv : w.spaces k = some vmm) (hroot : vmm.pml4 = some root) :
    ∃ vmm', w'.spaces k = some vmm' ∧ vmm'.pml4 = some root ∧
      Extends root (op.wanted k) w.phys w'.phys := by
  have ha := acts_of_step hw hstep
  by_cases hk : some k = op.holder
  · cases hstep with
    | init l =>
      obtain rfl := Option.some.inj hk
      exact absurd rfl hinit
    | @call l op _ vmm' ret t hl hcall =>
      obtain rfl : k = l := Option.some.inj hk
      obtain rfl : vmm = _ := Option.some.inj (hv.symm.trans hl)
      obtain ⟨ret', vmm'', s'', heq, hvalid, hext, -⟩ :=
        vmmCall_extends (hw.space k vmm root hv hroot) op
      rw [heq] at hcall
      obtain ⟨-, rfl, rfl⟩ : ret' = ret ∧ vmm'' = vmm' ∧ s'' = t := by simpa using hcall
      exact ⟨vmm'', setSpace_self _ _ _ _, hvalid.pml4, hext.mono (if_pos rfl).ge⟩
    | alloc => cases hk
    | allocN n => cases hk
    | free hp => cases hk
    | write h => cases hk
  · exact ⟨vmm, (ha.spaces k hk).trans hv, hroot, .of_eq (ha.tablePaths_eq hw hk hv hroot)⟩

/-- **A run extends the tables of a space.** -/
theorem space_extends_run (hw : WorldValid w) (hrun : Run WorldStep w ops w')
    (hinit : .init k ∉ ops) (hv : w.spaces k = some vmm) (hroot : vmm.pml4 = some root) :
    WorldValid w' ∧ ∃ vmm', w'.spaces k = some vmm' ∧ vmm'.pml4 = some root ∧
      Extends root {page | ∃ op ∈ ops, page ∈ op.wanted k} w.phys w'.phys := by
  induction hrun with
  | nil => exact ⟨hw, vmm, hv, hroot, .of_eq rfl⟩
  | @snoc ops _ _ op _ hstep ih =>
    rw [List.mem_append, not_or, List.mem_singleton] at hinit
    obtain ⟨hw₁, vmm₁, hv₁, hroot₁, hext⟩ := ih hinit.1
    obtain ⟨vmm₂, hv₂, hroot₂, hext'⟩ :=
      space_extends_step hw₁ hstep (Ne.symm hinit.2) hv₁ hroot₁
    refine ⟨(acts_of_step hw₁ hstep).worldValid hw₁, vmm₂, hv₂, hroot₂,
      (hext.mono ?_).trans (hext'.mono ?_)⟩
    · rintro page ⟨call, hcall, hpage⟩
      exact ⟨call, List.mem_append_left [op] hcall, hpage⟩
    · intro page hpage
      exact ⟨op, List.mem_append_right ops List.mem_cons_self, hpage⟩

/-- Every path leads to a table of its own. -/
theorem PageTables.ncard_tablePaths (ht : PageTables s root) :
    {p | p * 4096 ∈ tableFrames s.mem root}.ncard = (tablePaths s.mem root).ncard := by
  have hfollow : ∀ r ∈ tablePaths s.mem root, ∃ q, follow (child s.mem) root r = some (q * 4096) ∧
      q * 4096 ∈ tableFrames s.mem root := by
    rintro r ⟨hr, hf⟩
    obtain ⟨f, hf⟩ := Option.ne_none_iff_exists'.mp hf
    have hmem := mem_tableFrames hr hf
    have halign := (ht.frame f hmem).1
    have heq : f / 4096 * 4096 = f := by omega
    exact ⟨f / 4096, heq.symm ▸ hf, heq.symm ▸ hmem⟩
  choose! page hpage hmem using hfollow
  refine (Set.ncard_congr (fun r _ => page r) hmem ?_ ?_).symm
  · intro r r' hr hr' heq
    exact ht.tree r r' _ hr.1 hr'.1 (hpage r hr) (heq ▸ hpage r' hr')
  · rintro p ⟨r, hr, hf⟩
    have hpath : r ∈ tablePaths s.mem root := ⟨hr, by rw [hf]; exact Option.some_ne_none _⟩
    have hsame := Option.some.inj ((hpage r hpath).symm.trans hf)
    exact ⟨r, hpath, by omega⟩

/-- **Tables are only for wanted pages.**  From a successful `vmm_init` of a space on, it
holds one page for each of its tables, and the tables are the PML4 and some above the pages
that calls on this space have wanted. -/
theorem tables_only_for_wanted {s₀ : PhysState} (hrun : Run WorldStep (World.start s₀) ops w)
    (hok : (vmmInit w.phys).1.pml4 ≠ none)
    (hlater : Run WorldStep (w.setSpace k (vmmInit w.phys).1 (vmmInit w.phys).2) ops' w₂)
    (hinit : .init k ∉ ops') :
    ∃ vmm root, w₂.spaces k = some vmm ∧ vmm.pml4 = some root ∧
      (held w₂ (some k)).ncard = (tablePaths w₂.phys.mem root).ncard ∧
      tablePaths w₂.phys.mem root ⊆
        insert [] (pathsAbove {page | ∃ op ∈ ops', page ∈ op.wanted k}) := by
  have hw := run_worldValid hrun
  rcases vmmInit_cases w.phys with ⟨hnone, -⟩ | ⟨q, -, -, -, hvalid, hframes, -⟩
  · exact absurd hnone hok
  have hw₁ := (acts_init w k).worldValid hw
  obtain ⟨hw₂, vmm, hv, hroot, hext⟩ :=
    space_extends_run hw₁ hlater hinit (setSpace_self _ _ _ _) hvalid.pml4
  refine ⟨vmm, q * 4096, hv, hroot, ?_, hext.new.trans ?_⟩
  · rw [held, hv, spacePages_some hroot]
    exact (hw₂.space k vmm _ hv hroot).tables.ncard_tablePaths
  · have hstart : tablePaths (vmmInit w.phys).2.mem (q * 4096) = {[]} :=
      tablePaths_root hvalid.tables hframes
    exact (Set.union_subset_union_left _ hstart.le).trans (Set.singleton_union).le

theorem tables_only_for_wanted_one :
    ∃ (s₀ : PhysState) (w₁ w₂ : World Unit) (vmm : Vmm) (root : Nat),
      WorldStep (World.start s₀) (.init ()) w₁ ∧
      WorldStep w₁ (.call () (.map 0x400000 0x5000 3)) w₂ ∧ w₂.spaces () = some vmm ∧
      vmm.pml4 = some root ∧
      (held w₂ (some ())).ncard = (tablePaths w₂.phys.mem root).ncard := by
  obtain ⟨s₀, hs₀⟩ : ∃ s₀ : PhysState, (vmmInit s₀).1.pml4 ≠ none := ⟨_, vmmInit_fresh⟩
  obtain ⟨hinit, hk⟩ := start_init s₀ ()
  have hcall : vmmCall (vmmInit s₀).1 (vmmInit s₀).2 (.map 0x400000 0x5000 3) =
      .ok (vmmMap (vmmInit s₀).1 (vmmInit s₀).2 0x400000 0x5000 3) := rfl
  have hstep := WorldStep.call _ hk hcall
  have hno : WorldOp.init () ∉ [WorldOp.call () (.map 0x400000 0x5000 3)] := by simp
  obtain ⟨vmm, root, hv, hroot, hcard, -⟩ :=
    tables_only_for_wanted (w := World.start s₀) .nil hs₀ (Run.nil.snoc hstep) hno
  exact ⟨s₀, _, _, vmm, root, hinit, hstep, hv, hroot, hcard⟩

end Runs

end OsKernel
