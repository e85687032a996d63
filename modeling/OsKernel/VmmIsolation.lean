import OsKernel.PmmOwnership
import OsKernel.VmmRefinement
import Mathlib.Order.CompletePartialOrder

/-! # Address spaces do not disturb each other

Any number of address spaces share one physical memory manager with a client that
calls it directly.  Who holds which page is recorded beside the code: a space
holds its table frames, the client the pages it was given and has not freed.
`WorldValid` says that held pages are marked used and held once; `Acts h w w'` says
what a step of the holder `h` can do at most, and every call is shown to be such a
step.
-/
namespace OsKernel

variable {Space : Type*}

/-- The shared memory, the address spaces, and the pages of the direct client. -/
structure World (Space : Type*) where
  phys : PhysState
  spaces : Space → Option Vmm
  owned : Finset Nat

/-- The calls of the address spaces and of the direct client, and its writes. -/
inductive WorldOp (Space : Type*)
  | init (k : Space)
  | call (k : Space) (op : VmmOp)
  | alloc
  | allocN (n : UInt64)
  | free (addr : Paddr)
  | write (addr : Nat) (byte : UInt8)

/-- The holder whose call this is: a space, or the direct client (`none`). -/
def WorldOp.holder : WorldOp Space → Option Space
  | .init k | .call k _ => some k
  | .alloc | .allocN _ | .free _ | .write _ _ => none

/-- The world after an allocator returned to the client, who asked for `n` pages. -/
def World.grant (w : World Space) (n : Nat) : AllocReturn × PhysState → World Space
  | (.page addr, s) =>
    { w with phys := s, owned := w.owned ∪ Finset.Ico (addr.toNat / 4096) (addr.toNat / 4096 + n) }
  | (.failed _, s) => { w with phys := s }

/-- The world after a call on the space `k`. -/
def World.setSpace [DecidableEq Space] (w : World Space) (k : Space) (vmm : Vmm) (s : PhysState) :
    World Space :=
  { w with phys := s, spaces := Function.update w.spaces k (some vmm) }

/-- One call.  The client frees and writes only pages it owns. -/
inductive WorldStep [DecidableEq Space] : World Space → WorldOp Space → World Space → Prop
  | init (w : World Space) (k : Space) :
      WorldStep w (.init k) (w.setSpace k (vmmInit w.phys).1 (vmmInit w.phys).2)
  | call (w : World Space) {k : Space} {op : VmmOp} {vmm vmm' : Vmm} {ret : Int} {s : PhysState}
      (hk : w.spaces k = some vmm) (hcall : vmmCall vmm w.phys op = .ok (ret, vmm', s)) :
      WorldStep w (.call k op) (w.setSpace k vmm' s)
  | alloc (w : World Space) : WorldStep w .alloc (w.grant 1 (pmmAlloc w.phys))
  | allocN (w : World Space) (n : UInt64) :
      WorldStep w (.allocN n) (w.grant n.toNat (pmmAllocN w.phys n))
  | free (w : World Space) {p : Nat} (hp : p ∈ w.owned) :
      WorldStep w (.free (pageAddr p)) { w with
        phys := { w.phys with pmm := pmmFree w.phys.pmm (pageAddr p) }
        owned := w.owned.erase p }
  | write (w : World Space) {addr : Nat} {byte : UInt8} (h : addr / 4096 ∈ w.owned) :
      WorldStep w (.write addr byte) { w with
        phys := { w.phys with mem := Function.update w.phys.mem addr byte } }

/-! ## Who holds what -/

/-- The pages of the table frames of a space. -/
def spacePages (mem : Memory) : Option Vmm → Set Nat
  | some { pml4 := some root, .. } => {p | p * 4096 ∈ tableFrames mem root}
  | _ => ∅

/-- The pages a holder holds. -/
def held (w : World Space) : Option Space → Set Nat
  | some k => spacePages w.phys.mem (w.spaces k)
  | none => ↑w.owned

/-- An address space that was never initialised, or whose initialisation failed, or
that keeps its invariant. -/
def SpaceValid (s : PhysState) (vmm : Option Vmm) : Prop :=
  ∀ v root, vmm = some v → v.pml4 = some root → VmmValid v s root

/-- **The invariant of the world.** -/
structure WorldValid (w : World Space) : Prop where
  space : ∀ k, SpaceValid w.phys (w.spaces k)
  used : ∀ h, ∀ p ∈ held w h, p < pmmMaxPages ∧ p ∉ freeSet w.phys.pmm.bitmap
  apart : ∀ h h', h ≠ h' → Disjoint (held w h) (held w h')

/-- What a step of the holder `h` does at most: it writes into its own pages and into
free ones, gives up only its own pages, and gains only free ones. -/
structure Acts (h : Option Space) (w w' : World Space) : Prop where
  spaces : ∀ k, some k ≠ h → w'.spaces k = w.spaces k
  owned : h ≠ none → w'.owned = w.owned
  mem : ∀ x, x / 4096 ∉ held w h → x / 4096 ∉ freeSet w.phys.pmm.bitmap →
    w'.phys.mem x = w.phys.mem x
  freed : ∀ p ∈ freeSet w'.phys.pmm.bitmap, p ∈ freeSet w.phys.pmm.bitmap ∨ p ∈ held w h
  gained : ∀ p ∈ held w' h, p ∈ held w h ∨ p ∈ freeSet w.phys.pmm.bitmap
  used : ∀ p ∈ held w' h, p ∉ freeSet w'.phys.pmm.bitmap
  valid : ∀ k, some k = h → SpaceValid w'.phys (w'.spaces k)

variable {w w' : World Space} {s s' : PhysState} {vmm : Vmm} {root : Nat} {h : Option Space}

/-! ## The frame rule -/

section Frame
variable (ht : PageTables s root)
  (hmem : ∀ x, x / 4096 * 4096 ∈ tableFrames s.mem root → s'.mem x = s.mem x)
include ht hmem

theorem loadPte_frame {f : Nat} {index : UInt64} (hf : f ∈ tableFrames s.mem root)
    (hi : index.toNat < 512) : loadPte s'.mem f index = loadPte s.mem f index := by
  have halign := (ht.frame f hf).1
  refine loadPte_congr halign hi fun x hx => hmem x ?_
  rwa [hx, show f / 4096 * 4096 = f by omega]

theorem follow_frame {p : List Nat} (hp : p.length ≤ 3) :
    follow (child s'.mem) root p = follow (child s.mem) root p :=
  follow_congr (n := 3) (fun _ _ hq hf i => child_congr
    (fun _ hi => loadPte_frame ht hmem (mem_tableFrames hq.le hf) hi) i) hp

theorem tableFrames_frame : tableFrames s'.mem root = tableFrames s.mem root := by
  ext f
  constructor
  · rintro ⟨p, hp, hf⟩
    exact ⟨p, hp, follow_frame ht hmem hp ▸ hf⟩
  · rintro ⟨p, hp, hf⟩
    exact ⟨p, hp, (follow_frame ht hmem hp).trans hf⟩

theorem pageEntry_frame : pageEntry s'.mem root = pageEntry s.mem root := by
  funext page
  rw [pageEntry, pageEntry, follow_frame ht hmem (length_tablePath page)]
  cases hf : follow (child s.mem) root (tablePath page) with
  | none => rfl
  | some f =>
    exact loadPte_frame ht hmem (mem_tableFrames (length_tablePath page) hf) (page_mod_lt page)

/-- The tables stay an owned tree when their frames keep their bytes and stay in use. -/
theorem PageTables.frame_rule
    (hused : ∀ f ∈ tableFrames s.mem root, f / 4096 ∉ freeSet s'.pmm.bitmap) :
    PageTables s' root := by
  have hframes := tableFrames_frame ht hmem
  refine ⟨?_, ?_, ?_⟩
  · intro p q f hp hq hfp hfq
    rw [follow_frame ht hmem hp] at hfp
    rw [follow_frame ht hmem hq] at hfq
    exact ht.tree p q f hp hq hfp hfq
  · rw [hframes]
    exact ht.frame
  · rw [hframes]
    exact hused

end Frame

/-- **The frame rule.**  An address space whose table frames keep their bytes and stay
in use stays valid, and translates every address as before. -/
theorem VmmValid.frame (hv : VmmValid vmm s root)
    (hmem : ∀ x, x / 4096 * 4096 ∈ tableFrames s.mem root → s'.mem x = s.mem x)
    (hused : ∀ f ∈ tableFrames s.mem root, f / 4096 ∉ freeSet s'.pmm.bitmap) :
    VmmValid vmm s' root ∧ ∀ virt, vmmTranslate vmm s'.mem virt = vmmTranslate vmm s.mem virt := by
  have hentry := pageEntry_frame hv.tables hmem
  have htables := hv.tables.frame_rule hmem hused
  refine ⟨⟨hv.pml4, htables, ?_⟩, fun virt => ?_⟩
  · rw [hv.mapped, presentPages, presentPages, hentry]
  · rw [vmmTranslate_eq hv.pml4 htables, vmmTranslate_eq hv.pml4 hv.tables, hentry]

/-! ## A step of one holder, seen by the others -/

theorem mem_spacePages {mem : Memory} {p : Nat} {v : Option Vmm} :
    p ∈ spacePages mem v ↔
      ∃ vmm root, v = some vmm ∧ vmm.pml4 = some root ∧ p * 4096 ∈ tableFrames mem root := by
  cases v with
  | none => simp [spacePages]
  | some vmm =>
    obtain ⟨pml4, pml4Phys, mapped⟩ := vmm
    cases pml4 with
    | none => simp [spacePages]
    | some root => simp [spacePages]

/-- The tables of another holder's space are not the acting holder's, nor free. -/
theorem WorldValid.table_apart (hw : WorldValid w) {k : Space} (hk : some k ≠ h)
    (hv : w.spaces k = some vmm) (hroot : vmm.pml4 = some root) {p : Nat}
    (hp : p * 4096 ∈ tableFrames w.phys.mem root) :
    p ∉ held w h ∧ p ∉ freeSet w.phys.pmm.bitmap := by
  have hheld : p ∈ held w (some k) := mem_spacePages.mpr ⟨vmm, root, hv, hroot, hp⟩
  exact ⟨fun hp' => Set.disjoint_left.mp (hw.apart _ _ hk) hheld hp', (hw.used _ _ hheld).2⟩

section Space
variable (ha : Acts h w w') (hw : WorldValid w) {k : Space} (hk : some k ≠ h) {root : Nat}
  (hv : w.spaces k = some vmm) (hroot : vmm.pml4 = some root)
include ha hw hk hv hroot

theorem Acts.tables_mem : ∀ x, x / 4096 * 4096 ∈ tableFrames w.phys.mem root →
    w'.phys.mem x = w.phys.mem x := by
  intro x hx
  obtain ⟨hother, hused⟩ := hw.table_apart hk hv hroot hx
  exact ha.mem x hother hused

/-- The space of another holder keeps its invariant and all its translations. -/
theorem Acts.space_frame : VmmValid vmm w'.phys root ∧
    (∀ virt, vmmTranslate vmm w'.phys.mem virt = vmmTranslate vmm w.phys.mem virt) ∧
      tableFrames w'.phys.mem root = tableFrames w.phys.mem root := by
  have hvalid := hw.space k vmm root hv hroot
  have hmem := ha.tables_mem hw hk hv hroot
  have hused : ∀ f ∈ tableFrames w.phys.mem root, f / 4096 ∉ freeSet w'.phys.pmm.bitmap := by
    intro f hf hfree
    have halign := (hvalid.tables.frame f hf).1
    obtain ⟨hother, hnot⟩ := hw.table_apart hk hv hroot
      (show f / 4096 * 4096 ∈ _ by rwa [show f / 4096 * 4096 = f by omega])
    exact (ha.freed _ hfree).elim hnot hother
  obtain ⟨hvalid', htrans⟩ := hvalid.frame hmem hused
  exact ⟨hvalid', htrans, tableFrames_frame hvalid.tables hmem⟩

end Space

/-- Another holder keeps exactly its pages. -/
theorem Acts.held_eq (ha : Acts h w w') (hw : WorldValid w) {h' : Option Space} (hne : h' ≠ h) :
    held w' h' = held w h' := by
  cases h' with
  | none => rw [held, held, ha.owned hne.symm]
  | some k =>
    ext p
    simp only [held, mem_spacePages, ha.spaces k hne]
    refine exists_congr fun vmm => exists_congr fun root => and_congr_right fun hv =>
      and_congr_right fun hroot => ?_
    rw [(ha.space_frame hw hne hv hroot).2.2]

/-- **What a step keeps.** -/
theorem Acts.worldValid (ha : Acts h w w') (hw : WorldValid w) : WorldValid w' where
  space := by
    intro k
    by_cases hk : some k = h
    · exact ha.valid k hk
    · intro vmm root hv hroot
      rw [ha.spaces k hk] at hv
      exact (ha.space_frame hw hk hv hroot).1
  used := by
    intro h' p hp
    by_cases hh : h' = h
    · subst hh
      refine ⟨?_, ha.used p hp⟩
      rcases ha.gained p hp with hheld | hfree
      · exact (hw.used h' p hheld).1
      · exact freeSet_lt hfree
    · rw [ha.held_eq hw hh] at hp
      refine ⟨(hw.used h' p hp).1, fun hfree => ?_⟩
      rcases ha.freed p hfree with hfree | hheld
      · exact (hw.used h' p hp).2 hfree
      · exact Set.disjoint_left.mp (hw.apart h' h hh) hp hheld
  apart := by
    -- what the holder gained was free, so nobody else held it
    have hgain : ∀ h', h' ≠ h → Disjoint (held w' h) (held w' h') := by
      intro h' hh
      rw [ha.held_eq hw hh, Set.disjoint_left]
      intro p hp hp'
      rcases ha.gained p hp with hheld | hfree
      · exact Set.disjoint_left.mp (hw.apart h' h hh) hp' hheld
      · exact (hw.used h' p hp').2 hfree
    intro h₁ h₂ hne
    by_cases h1 : h₁ = h
    · subst h1
      exact hgain h₂ hne.symm
    · by_cases h2 : h₂ = h
      · subst h2
        exact (hgain h₁ h1).symm
      · rw [ha.held_eq hw h1, ha.held_eq hw h2]
        exact hw.apart h₁ h₂ hne

/-! ## Every call is such a step -/

section Failed
variable (hnone : vmm.pml4 = none)
include hnone

theorem vmmMap_none (s : PhysState) (virt : Vaddr) (phys : Paddr) (flags : UInt64) :
    vmmMap vmm s virt phys flags = (-1, vmm, s) := by
  simp only [vmmMap, hnone]

theorem vmmUnmapRangeFrom_none (s : PhysState) (virt : Vaddr) (n i : Nat) :
    vmmUnmapRangeFrom virt n i vmm s = .ok (0, vmm, s) := by
  induction n generalizing i with
  | zero => rfl
  | succ n ih =>
    unfold vmmUnmapRangeFrom
    simp only [vmmUnmap, hnone]
    exact ih (i + 1)

/-- A call on a space whose initialisation failed changes nothing. -/
theorem vmmCall_none (s : PhysState) (op : VmmOp) :
    ∃ ret, vmmCall vmm s op = .ok (ret, vmm, s) := by
  cases op with
  | map virt phys flags => exact ⟨-1, congrArg Except.ok (vmmMap_none hnone s virt phys flags)⟩
  | mapRange virt phys pages flags =>
    simp only [vmmCall, vmmMapRange]
    cases pages.toNat with
    | zero => exact ⟨0, rfl⟩
    | succ n => exact ⟨-1, by simp [vmmMapRangeFrom, vmmMap_none hnone]⟩
  | unmap virt => exact ⟨-1, by simp only [vmmCall, vmmUnmap, hnone]⟩
  | unmapRange virt pages => exact ⟨0, vmmUnmapRangeFrom_none hnone s virt pages.toNat 0⟩

end Failed

theorem spacePages_some {mem : Memory} (hroot : vmm.pml4 = some root) :
    spacePages mem (some vmm) = {p | p * 4096 ∈ tableFrames mem root} := by
  obtain ⟨pml4, pml4Phys, mapped⟩ := vmm
  cases hroot
  rfl

section Steps
variable [DecidableEq Space] {k : Space}

theorem setSpace_self (w : World Space) (k : Space) (vmm : Vmm) (s : PhysState) :
    (w.setSpace k vmm s).spaces k = some vmm := Function.update_self _ _ _

/-- A call on the space `k` is a step of `k`, if it keeps to the pages of `k` and to
free ones. -/
theorem acts_setSpace
    (hmem : ∀ x, x / 4096 ∉ held w (some k) → x / 4096 ∉ freeSet w.phys.pmm.bitmap →
      s.mem x = w.phys.mem x)
    (hsub : freeSet s.pmm.bitmap ⊆ freeSet w.phys.pmm.bitmap)
    (hgain : ∀ p ∈ spacePages s.mem (some vmm), p ∈ held w (some k) ∨ p ∈ freeSet w.phys.pmm.bitmap)
    (hused : ∀ p ∈ spacePages s.mem (some vmm), p ∉ freeSet s.pmm.bitmap)
    (hvalid : SpaceValid s (some vmm)) : Acts (some k) w (w.setSpace k vmm s) := by
  have hheld : held (w.setSpace k vmm s) (some k) = spacePages s.mem (some vmm) := by
    rw [held, setSpace_self]
    rfl
  refine ⟨fun l hl => ?_, fun _ => rfl, hmem, fun p hp => Or.inl (hsub hp), ?_, ?_, ?_⟩
  · exact Function.update_of_ne (fun h => hl (congrArg some h)) _ _
  · rw [hheld]
    exact hgain
  · rw [hheld]
    exact hused
  · rintro l hl
    obtain rfl : l = k := Option.some.inj hl
    rw [setSpace_self]
    exact hvalid

theorem spaceValid_none (hnone : vmm.pml4 = none) (s : PhysState) : SpaceValid s (some vmm) := by
  rintro v root ⟨rfl⟩ hroot
  rw [hnone] at hroot
  cases hroot

theorem spaceValid_some (hvalid : VmmValid vmm s root) : SpaceValid s (some vmm) := by
  rintro v root' ⟨rfl⟩ hroot'
  obtain rfl : root = root' := Option.some.inj (hvalid.pml4.symm.trans hroot')
  exact hvalid

/-- A call on a space only makes the tree of that space grow. -/
theorem acts_call {op : VmmOp} {vmm' : Vmm} {ret : Int} (hw : WorldValid w)
    (hk : w.spaces k = some vmm) (hcall : vmmCall vmm w.phys op = .ok (ret, vmm', s)) :
    Acts (some k) w (w.setSpace k vmm' s) := by
  have hheld : held w (some k) = spacePages w.phys.mem (some vmm) := by rw [held, hk]
  cases hroot : vmm.pml4 with
  | none =>
    obtain ⟨ret', heq⟩ := vmmCall_none hroot w.phys op
    rw [heq] at hcall
    obtain ⟨-, rfl, rfl⟩ : ret' = ret ∧ vmm = vmm' ∧ w.phys = s := by simpa using hcall
    exact acts_setSpace (fun _ _ _ => rfl) (Finset.Subset.refl _)
      (fun p hp => Or.inl (hheld ▸ hp)) (fun p hp => (hw.used (some k) p (hheld ▸ hp)).2)
      (spaceValid_none hroot _)
  | some root =>
    obtain ⟨ret', vmm'', s'', heq, hgrow, hvalid⟩ := vmmCall_spec (hw.space k vmm root hk hroot) op
    rw [heq] at hcall
    obtain ⟨-, rfl, rfl⟩ : ret' = ret ∧ vmm'' = vmm' ∧ s'' = s := by simpa using hcall
    rw [spacePages_some hroot] at hheld
    refine acts_setSpace ?_ hgrow.freeSet_subset ?_ ?_ (spaceValid_some hvalid)
    · intro x hx hfree
      rw [hheld] at hx
      exact hgrow.outside_of_used hx hfree
    · intro p hp
      rw [spacePages_some hvalid.pml4] at hp
      rw [hheld]
      by_cases hin : p * 4096 ∈ tableFrames w.phys.mem root
      · exact Or.inl hin
      · have hfree := hgrow.fresh _ hp hin
        rw [mul_page_div] at hfree
        exact Or.inr hfree
    · intro p hp
      rw [spacePages_some hvalid.pml4] at hp
      have hused := hgrow.tables.used _ hp
      rwa [mul_page_div] at hused

/-- `vmm_init`, also on a space that was in use: its old tables are lost, nobody
else's. -/
theorem acts_init (w : World Space) (k : Space) :
    Acts (some k) w (w.setSpace k (vmmInit w.phys).1 (vmmInit w.phys).2) := by
  rcases vmmInit_cases w.phys with ⟨hnone, heq⟩ | ⟨q, hroot, -, htaken, hvalid, hframes, -⟩
  · have hheld : ∀ p, p ∉ spacePages (vmmInit w.phys).2.mem (some (vmmInit w.phys).1) := by
      intro p hp
      obtain ⟨v, root, hv, hroot, -⟩ := mem_spacePages.mp hp
      rw [← Option.some.inj hv, hnone] at hroot
      cases hroot
    refine acts_setSpace ?_ ?_ (fun p hp => absurd hp (hheld p)) (fun p hp => absurd hp (hheld p))
      (spaceValid_none hnone _)
    · rw [heq]
      exact fun _ _ _ => rfl
    · rw [heq]
  · have hqfree : q ∈ freeSet w.phys.pmm.bitmap := htaken.mem_free
    have hheld : ∀ p, p ∈ spacePages (vmmInit w.phys).2.mem (some (vmmInit w.phys).1) → p = q := by
      intro p hp
      rw [spacePages_some hroot, hframes] at hp
      change p * 4096 = q * 4096 at hp
      omega
    refine acts_setSpace ?_ ?_ (fun p hp => Or.inr (hheld p hp ▸ hqfree)) ?_
      (spaceValid_some hvalid)
    · intro x _ hx
      refine htaken.frame x ?_
      rw [Finset.mem_singleton]
      rintro rfl
      exact hx hqfree
    · rw [htaken.freeSet_eq]
      exact Finset.sdiff_subset
    · intro p hp
      rw [htaken.freeSet_eq, hheld p hp]
      simp

end Steps

/-- The client is given free pages. -/
theorem acts_taken {P : Finset Nat} (hw : WorldValid w) (htaken : Taken w.phys P s) :
    Acts none w { w with phys := s, owned := w.owned ∪ P } := by
  refine ⟨fun _ _ => rfl, fun h => absurd rfl h, fun x _ hx => htaken.frame x ?_, fun p hp => ?_,
    fun p hp => ?_, fun p hp hfree => ?_, fun k hk => by cases hk⟩
  · exact fun hP => hx (htaken.free hP)
  · rw [htaken.freeSet_eq] at hp
    exact Or.inl (Finset.mem_sdiff.mp hp).1
  · rcases Finset.mem_union.mp hp with hp | hp
    · exact Or.inl hp
    · exact Or.inr (htaken.free hp)
  · rw [htaken.freeSet_eq, Finset.mem_sdiff] at hfree
    rcases Finset.mem_union.mp hp with hp | hp
    · exact (hw.used none p hp).2 hfree.1
    · exact hfree.2 hp

theorem acts_refl (hw : WorldValid w) (h : Option Space) : Acts h w w :=
  ⟨fun _ _ => rfl, fun _ => rfl, fun _ _ _ => rfl, fun _ hp => Or.inl hp, fun _ hp => Or.inl hp,
    fun p hp => (hw.used h p hp).2, fun k _ => hw.space k⟩

theorem acts_alloc (hw : WorldValid w) : Acts none w (w.grant 1 (pmmAlloc w.phys)) := by
  rcases pmmAlloc_outcome w.phys with ⟨why, heq⟩ | ⟨p, s, heq, -, htaken⟩
  · rw [heq]
    exact acts_refl hw none
  · have hp : p < pmmMaxPages := htaken.page_lt
    rw [heq, World.grant, toNat_pageAddr hp.le, mul_page_div,
      Nat.Ico_succ_singleton]
    exact acts_taken hw htaken

theorem acts_allocN (hw : WorldValid w) (n : UInt64) :
    Acts none w (w.grant n.toNat (pmmAllocN w.phys n)) := by
  rcases pmmAllocN_outcome w.phys n with ⟨why, heq⟩ | ⟨p, s, heq, hp, htaken⟩
  · rw [heq]
    exact acts_refl hw none
  · rw [heq, World.grant, toNat_pageAddr (by omega), mul_page_div]
    exact acts_taken hw htaken

/-- The client frees a page it owns; the page it gives back is no longer its own. -/
theorem acts_free {p : Nat} (hw : WorldValid w) (hp : p ∈ w.owned) :
    Acts none w { w with
      phys := { w.phys with pmm := pmmFree w.phys.pmm (pageAddr p) }
      owned := w.owned.erase p } := by
  have hfreed : ∀ q ∈ freeSet (pmmFree w.phys.pmm (pageAddr p)).bitmap,
      q ∈ freeSet w.phys.pmm.bitmap ∨ q = p := by
    intro q hq
    rcases pmmFree_cases w.phys.pmm (pageAddr p) with ⟨heq, -⟩ | ⟨p', hpp', hrel⟩
    · rw [heq] at hq
      exact Or.inl hq
    · rw [hrel.freeSet_eq, Finset.mem_insert] at hq
      rcases hq with rfl | hq
      · exact Or.inr (pageAddr_inj (hw.used none p hp).1 hrel.lt hpp').symm
      · exact Or.inl hq
  refine ⟨fun _ _ => rfl, fun h => absurd rfl h, fun _ _ _ => rfl, fun q hq => ?_,
    fun q hq => Or.inl (Finset.mem_of_mem_erase hq), fun q hq hfree => ?_, fun k hk => by cases hk⟩
  · rcases hfreed q hq with hq | rfl
    · exact Or.inl hq
    · exact Or.inr hp
  · rcases hfreed q hfree with hfree | rfl
    · exact (hw.used none q (Finset.mem_of_mem_erase hq)).2 hfree
    · exact Finset.notMem_erase q _ hq

theorem acts_write {addr : Nat} (byte : UInt8) (hw : WorldValid w) (haddr : addr / 4096 ∈ w.owned) :
    Acts none w { w with phys := { w.phys with mem := Function.update w.phys.mem addr byte } } := by
  refine ⟨fun _ _ => rfl, fun h => absurd rfl h, fun x hx _ => ?_, fun _ hp => Or.inl hp,
    fun _ hp => Or.inl hp, fun p hp => (hw.used none p hp).2, fun k hk => by cases hk⟩
  refine Function.update_of_ne ?_ _ _
  rintro rfl
  exact hx haddr

/-! ## Runs -/

section Runs
variable [DecidableEq Space] {op : WorldOp Space}

/-- **Every call is a step of its holder.** -/
theorem acts_of_step (hw : WorldValid w) (hstep : WorldStep w op w') : Acts op.holder w w' := by
  cases hstep with
  | init k => exact acts_init w k
  | call hk hcall => exact acts_call hw hk hcall
  | alloc => exact acts_alloc hw
  | allocN n => exact acts_allocN hw n
  | free hp => exact acts_free hw hp
  | write h => exact acts_write _ hw h

/-- The world before any call: no address space is initialised, and the client owns
nothing. -/
def World.start (s : PhysState) : World Space := { phys := s, spaces := fun _ => none, owned := ∅ }

/-- `vmm_init` on a first address space. -/
theorem start_init (s : PhysState) (k : Space) :
    WorldStep (World.start s) (.init k) ((World.start s).setSpace k (vmmInit s).1 (vmmInit s).2) ∧
      ((World.start s).setSpace k (vmmInit s).1 (vmmInit s).2).spaces k = some (vmmInit s).1 :=
  ⟨.init _ k, setSpace_self _ _ _ _⟩

omit [DecidableEq Space] in
theorem start_valid (s : PhysState) : WorldValid (World.start s : World Space) where
  space := by
    rintro k v root ⟨⟩
  used := by
    rintro (_ | k) p hp
    · exact absurd hp (Finset.notMem_empty p)
    · exact absurd hp (Set.notMem_empty p)
  apart := by
    intro h h' _
    rw [Set.disjoint_left]
    intro p hp
    cases h with
    | none => exact absurd hp (Finset.notMem_empty p)
    | some k => exact absurd hp (Set.notMem_empty p)

theorem run_worldValid {ops : List (WorldOp Space)} (hrun : Run WorldStep (World.start s) ops w) :
    WorldValid w :=
  hrun.invariant _ (start_valid s) fun _ _ _ ht hstep => (acts_of_step ht hstep).worldValid ht

/-- **Address-space isolation.**  After any calls, a call on one address space or of the
direct client leaves every other address space as it is: its `vmm_t` (with the
`mapped` counter), and what it translates every address to.  Translations and calls
never go through a `NULL` table. -/
theorem address_spaces_isolated {ops : List (WorldOp Space)}
    (hrun : Run WorldStep (World.start s) ops w) (hstep : WorldStep w op w') {k : Space}
    (hk : some k ≠ op.holder) (hv : w.spaces k = some vmm) :
    w'.spaces k = some vmm ∧
      (∀ virt, vmmTranslate vmm w'.phys.mem virt = vmmTranslate vmm w.phys.mem virt) ∧
      (∀ virt, ∃ addr, vmmTranslate vmm w.phys.mem virt = .ok addr) ∧
      ∀ call, ∃ r, vmmCall vmm w.phys call = .ok r := by
  have hw := run_worldValid hrun
  have ha := acts_of_step hw hstep
  refine ⟨(ha.spaces k hk).trans hv, ?_⟩
  cases hroot : vmm.pml4 with
  | none =>
    refine ⟨fun virt => ?_, fun virt => ⟨noAddr, ?_⟩, fun call => ?_⟩
    · simp only [vmmTranslate, hroot]
    · simp only [vmmTranslate, hroot]
    · obtain ⟨ret, heq⟩ := vmmCall_none hroot w.phys call
      exact ⟨_, heq⟩
  | some root =>
    have hvalid := hw.space k vmm root hv hroot
    refine ⟨(ha.space_frame hw hk hv hroot).2.1, fun virt => ?_, fun call => ?_⟩
    · exact ⟨_, vmmTranslate_eq hroot hvalid.tables virt⟩
    · obtain ⟨ret, vmm', s', heq, -⟩ := vmmCall_spec hvalid call
      exact ⟨_, heq⟩

end Runs

theorem address_spaces_isolated_pair : ∃ (w w' : World Bool) (vmm : Vmm),
    w.spaces false = some vmm ∧ vmm.pml4 ≠ none ∧
      WorldStep w (.call true (.map 0x400000 0x5000 3)) w' ∧
      ∀ virt, vmmTranslate vmm w'.phys.mem virt = vmmTranslate vmm w.phys.mem virt := by
  obtain ⟨s₀, hs₀⟩ : ∃ s₀ : PhysState, (vmmInit s₀).1.pml4 ≠ none := ⟨_, vmmInit_fresh⟩
  let w₁ : World Bool := (World.start s₀).setSpace false (vmmInit s₀).1 (vmmInit s₀).2
  let w₂ := w₁.setSpace true (vmmInit w₁.phys).1 (vmmInit w₁.phys).2
  have hrun : Run WorldStep (World.start s₀) [.init false, .init true] w₂ :=
    (Run.nil.snoc (.init _ false)).snoc (.init w₁ true)
  have htrue : w₂.spaces true = some (vmmInit w₁.phys).1 := setSpace_self _ _ _ _
  obtain ⟨⟨ret, vmm', s'⟩, hcall⟩ : ∃ r, vmmCall (vmmInit w₁.phys).1 w₂.phys
      (.map 0x400000 0x5000 3) = .ok r := ⟨_, rfl⟩
  have hstep := WorldStep.call w₂ htrue hcall
  have hfalse : w₂.spaces false = some (vmmInit s₀).1 := rfl
  exact ⟨w₂, _, _, hfalse, hs₀, hstep,
    (address_spaces_isolated hrun hstep (by decide) hfalse).2.1⟩

end OsKernel
