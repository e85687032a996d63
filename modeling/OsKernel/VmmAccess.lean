import OsKernel.Traced
import OsKernel.VmmFailure
import OsKernel.VmmRights

/-! # Every table access is to a table the address space owns

The functions of `vmm/vmm.c` once more, recording every page-table entry they read or
write, together with the state at that moment; the two debug printers are modelled
here only.  Forgetting the record gives the functions of `Vmm` back.  Every access
lies in a table of the address space, except when `vmm_dump_pml4` is called on an
address space that was never set up: it alone does not check its PML4.
-/
namespace OsKernel

/-- An entry that is read or written: the state just before, the table pointer and the
index. -/
structure TableAccess where
  state : PhysState
  table : Option Nat
  index : UInt64

/-- A function that records its table accesses. -/
abbrev TableM := Traced TableAccess Fault

namespace VmmTrace

/-! ## The functions -/

/-- `table[index]` -/
def readPte (s : PhysState) (table : Option Nat) (index : UInt64) : TableM UInt64 :=
  Traced.event ⟨s, table, index⟩ (derefPte s.mem table index)

/-- `table[index] = pte` -/
def writePte (s : PhysState) (table : Option Nat) (index pte : UInt64) : TableM PhysState :=
  Traced.event ⟨s, table, index⟩ (match table with
    | some t => .ok { s with mem := storePte s.mem t index pte }
    | none => .error .nullDereference)

/-- `get_or_create_table` -/
def getOrCreateTable (s : PhysState) (table : Option Nat) (index flags : UInt64) :
    TableM (Option Nat × PhysState) := do
  let pte ← readPte s table index
  if ¬ isPresent pte then
    let r := pmmAlloc s
    if r.1.value = noAddr then return (none, r.2)
    let s ← writePte r.2 table index ((r.1.value &&& pteAddrMask) ||| flags ||| ptePresent)
    let pte ← readPte s table index
    return (physToVirt (pte &&& pteAddrMask), s)
  else
    let pte ← readPte s table index
    return (physToVirt (pte &&& pteAddrMask), s)

/-- One level of `walk_table`: the entry is tested, and read again for the address of the
next table. -/
def walkLevel (s : PhysState) (table : Option Nat) (index : UInt64)
    (next : Option Nat → TableM (Option Nat)) : TableM (Option Nat) := do
  let pte ← readPte s table index
  if ¬ isPresent pte then return none
  let pte ← readPte s table index
  next (physToVirt (pte &&& pteAddrMask))

/-- `walk_table`; it dereferences the PML4 it is given, whatever it is. -/
def walkTable (s : PhysState) (pml4 : Option Nat) (virt : Vaddr) : TableM (Option Nat) :=
  walkLevel s pml4 (pml4Index virt) fun pdpt =>
    walkLevel s pdpt (pdptIndex virt) fun pd =>
      walkLevel s pd (pdIndex virt) pure

/-- `vmm_map` -/
def vmmMap (vmm : Vmm) (s : PhysState) (virt : Vaddr) (phys : Paddr) (flags : UInt64) :
    TableM (Int × Vmm × PhysState) :=
  match vmm.pml4 with
  | none => return (-1, vmm, s)
  | some pml4 => do
    let virt := alignDown virt pageSize
    let phys := alignDown phys pageSize
    match ← getOrCreateTable s (some pml4) (pml4Index virt) tableFlags with
    | (none, s) => return (-1, vmm, s)
    | (some pdpt, s) =>
      match ← getOrCreateTable s (some pdpt) (pdptIndex virt) tableFlags with
      | (none, s) => return (-1, vmm, s)
      | (some pd, s) =>
        match ← getOrCreateTable s (some pd) (pdIndex virt) tableFlags with
        | (none, s) => return (-1, vmm, s)
        | (some pt, s) =>
          let old ← readPte s (some pt) (ptIndex virt)
          let s ← writePte s (some pt) (ptIndex virt)
            ((phys &&& pteAddrMask) ||| flags ||| ptePresent)
          if isPresent old then return (0, vmm, s)
          return (0, { vmm with mapped := vmm.mapped + 1 }, s)

/-- `vmm_unmap` -/
def vmmUnmap (vmm : Vmm) (s : PhysState) (virt : Vaddr) : TableM (Int × Vmm × PhysState) :=
  match vmm.pml4 with
  | none => return (-1, vmm, s)
  | some pml4 => do
    let virt := alignDown virt pageSize
    match ← walkTable s (some pml4) virt with
    | none => return (-1, vmm, s)
    | some pt =>
      if ¬ isPresent (← readPte s (some pt) (ptIndex virt)) then return (-1, vmm, s)
      let s ← writePte s (some pt) (ptIndex virt) 0
      return (0, { vmm with mapped := vmm.mapped - 1 }, s)

/-- `vmm_translate` -/
def vmmTranslate (vmm : Vmm) (s : PhysState) (virt : Vaddr) : TableM Paddr :=
  match vmm.pml4 with
  | none => return noAddr
  | some pml4 => do
    match ← walkTable s (some pml4) virt with
    | none => return noAddr
    | some pt =>
      if ¬ isPresent (← readPte s (some pt) (ptIndex virt)) then return noAddr
      return ((← readPte s (some pt) (ptIndex virt)) &&& pteAddrMask) ||| pageOffset virt

/-- `vmm_is_mapped` -/
def vmmIsMapped (vmm : Vmm) (s : PhysState) (virt : Vaddr) : TableM Bool := do
  return (← vmmTranslate vmm s virt) != noAddr

/-- `%0*lx`: a number in hexadecimal, filled up with zeros to `width` digits. -/
def hex (width : Nat) (x : UInt64) : String :=
  let digits := Nat.toDigits 16 x.toNat
  String.ofList (List.replicate (width - digits.length) '0' ++ digits)

/-- `%3d`, for the index of an entry. -/
def index3 (i : Nat) : String :=
  let digits := Nat.toDigits 10 i
  String.ofList (List.replicate (3 - digits.length) ' ' ++ digits)

/-- `pte & mask ? yes : no` -/
def flagChar (pte mask : UInt64) (yes no : Char) : String :=
  (if hasBit mask pte then yes else no).toString

/-- `vmm_print_mapping`: the line it prints. -/
def vmmPrintMapping (vmm : Vmm) (s : PhysState) (virt : Vaddr) : TableM String := do
  let phys ← vmmTranslate vmm s virt
  if phys = noAddr then return "  virt=0x" ++ hex 16 virt ++ "  →  [ NOT MAPPED ]\n"
  let pt ← walkTable s vmm.pml4 virt
  let flags ← match pt with
    | some t => do
      let pte ← readPte s (some t) (ptIndex virt)
      pure (pte &&& ~~~pteAddrMask)
    | none => pure 0
  return "  virt=0x" ++ hex 16 virt ++ "  →  phys=0x" ++ hex 16 phys ++ "  [" ++
    flagChar flags ptePresent 'P' '-' ++ flagChar flags pteWritable 'W' 'R' ++
    flagChar flags pteUser 'U' 'K' ++ flagChar flags pteNx 'X' '-' ++ "]\n"

/-- One turn of the loop of `vmm_dump_pml4`: the entry is read once for the test, and once
for each value that is printed. -/
def dumpEntry (vmm : Vmm) (s : PhysState) (out : String) (i : Nat) : TableM String := do
  let index := UInt64.ofNat i
  if ¬ isPresent (← readPte s vmm.pml4 index) then return out
  let value ← readPte s vmm.pml4 index
  let addr ← readPte s vmm.pml4 index
  let writable ← readPte s vmm.pml4 index
  let user ← readPte s vmm.pml4 index
  let nx ← readPte s vmm.pml4 index
  return out ++ "  PML4[" ++ index3 i ++ "] = 0x" ++ hex 16 value ++ "  phys=0x" ++
    hex 12 (addr &&& pteAddrMask) ++ "  [" ++ flagChar writable pteWritable 'W' 'R' ++
    flagChar user pteUser 'U' 'K' ++ flagChar nx pteNx 'X' '-' ++ "]\n"

/-- `vmm_dump_pml4`: what it prints.  It does not look whether there is a PML4. -/
def vmmDumpPml4 (vmm : Vmm) (s : PhysState) : TableM String := do
  let out ← (List.range 512).foldlM (dumpEntry vmm s) "\n=== PML4 Dump ===\n"
  return out ++ "=================\n\n"

/-! ## Without the record, they are the functions of `Vmm` -/

section Results
open Traced
variable {s : PhysState}

theorem result_walkTable (pml4 : Nat) (virt : Vaddr) :
    (walkTable s (some pml4) virt).result = OsKernel.walkTable s.mem pml4 virt := by
  simp only [walkTable, walkLevel, OsKernel.walkTable, readPte, result_bind, result_event,
    result_ite, result_pure]
  simp only [derefPte, bind, Except.bind, pure, Except.pure]
  split
  · rfl
  · cases hpdpt : physToVirt (loadPte s.mem pml4 (pml4Index virt) &&& pteAddrMask) with
    | none => rfl
    | some pdpt =>
      dsimp only
      split
      · rfl
      · cases hpd : physToVirt (loadPte s.mem pdpt (pdptIndex virt) &&& pteAddrMask) with
        | none => rfl
        | some pd => rfl

theorem result_getOrCreateTable (table : Nat) (index flags : UInt64) :
    (getOrCreateTable s (some table) index flags).result =
      .ok (OsKernel.getOrCreateTable s table index flags) := by
  simp only [getOrCreateTable, OsKernel.getOrCreateTable, readPte, writePte, result_bind,
    result_event, result_ite, result_pure]
  simp only [derefPte, bind, Except.bind]
  split
  · split
    · rfl
    · rfl
  · rfl

theorem result_vmmTranslate (vmm : Vmm) (virt : Vaddr) :
    (vmmTranslate vmm s virt).result = OsKernel.vmmTranslate vmm s.mem virt := by
  simp only [vmmTranslate, OsKernel.vmmTranslate]
  cases vmm.pml4 with
  | none => rfl
  | some pml4 =>
    simp only [result_bind, result_walkTable]
    congr 1
    funext pt
    cases pt with
    | none => rfl
    | some pt =>
      simp only [readPte, result_bind, result_event, result_ite, result_pure]
      rfl

theorem result_vmmIsMapped (vmm : Vmm) (virt : Vaddr) :
    (vmmIsMapped vmm s virt).result = OsKernel.vmmIsMapped vmm s.mem virt := by
  simp only [vmmIsMapped, OsKernel.vmmIsMapped, result_bind, result_vmmTranslate]
  rfl

theorem result_vmmUnmap (vmm : Vmm) (virt : Vaddr) :
    (vmmUnmap vmm s virt).result = OsKernel.vmmUnmap vmm s virt := by
  simp only [vmmUnmap, OsKernel.vmmUnmap]
  cases vmm.pml4 with
  | none => rfl
  | some pml4 =>
    simp only [result_bind, result_walkTable]
    congr 1
    funext pt
    cases pt with
    | none => rfl
    | some pt =>
      simp only [readPte, writePte, result_bind, result_event, result_ite, result_pure]
      rfl

theorem result_vmmMap (vmm : Vmm) (virt : Vaddr) (phys : Paddr) (flags : UInt64) :
    (vmmMap vmm s virt phys flags).result = .ok (OsKernel.vmmMap vmm s virt phys flags) := by
  simp only [vmmMap, OsKernel.vmmMap]
  cases vmm.pml4 with
  | none => rfl
  | some pml4 =>
    simp only [bind, result_getOrCreateTable]
    rcases OsKernel.getOrCreateTable s pml4 _ tableFlags with ⟨_ | pdpt, s₄⟩
    · rfl
    dsimp only
    rcases OsKernel.getOrCreateTable s₄ pdpt _ tableFlags with ⟨_ | pd, s₃⟩
    · rfl
    dsimp only
    rcases OsKernel.getOrCreateTable s₃ pd _ tableFlags with ⟨_ | pt, s₂⟩
    · rfl
    simp only [readPte, writePte, result_event, derefPte, result_ite, result_pure]
    split
    · rfl
    · rfl

end Results

/-! ## Ownership -/

/-- The entry lies in a frame of `phys_mem` that is a table of the address space, and that
the physical memory manager has handed out. -/
def Owned (root : Nat) (a : TableAccess) : Prop :=
  a.index.toNat < 512 ∧ ∃ f, a.table = some f ∧ IsFrame f ∧ f ∈ tableFrames a.state.mem root ∧
    f / 4096 ∉ freeSet a.state.pmm.bitmap

open Traced

section Owned
variable {vmm : Vmm} {s t : PhysState} {root f g q : Nat} {index pte : UInt64} {p : List Nat}
  {virt : Vaddr}

theorem ensures_readPte (ht : PageTables s root) (hf : f ∈ tableFrames s.mem root)
    (hi : index.toNat < 512) :
    Ensures (Owned root) (readPte s (some f) index) (· = loadPte s.mem f index) :=
  .event ⟨hi, f, rfl, ht.frame f hf, hf, ht.used f hf⟩ rfl

theorem ensures_writePte (ht : PageTables s root) (hf : f ∈ tableFrames s.mem root)
    (hi : index.toNat < 512) :
    Ensures (Owned root) (writePte s (some f) index pte)
      (· = { s with mem := storePte s.mem f index pte }) :=
  .event ⟨hi, f, rfl, ht.frame f hf, hf, ht.used f hf⟩ rfl

/-- Between `pmm_alloc` and the link to the new page, the tables are those of before. -/
theorem pageTables_taken (ht : PageTables s root) (htaken : Taken s {q} t) :
    PageTables t root ∧ tableFrames t.mem root = tableFrames s.mem root := by
  have hmem : ∀ x, x / 4096 * 4096 ∈ tableFrames s.mem root → t.mem x = s.mem x := by
    intro x hx
    have hne := ht.ne_of_taken htaken hx
    rw [mul_page_div] at hne
    exact htaken.frame x (Finset.notMem_singleton.mpr hne)
  refine ⟨ht.frame_rule hmem fun f hf hfree => ?_, tableFrames_frame ht hmem⟩
  rw [htaken.freeSet_eq] at hfree
  exact ht.used f hf (Finset.mem_sdiff.mp hfree).1

theorem ensures_getOrCreateTable (ht : PageTables s root) (hp : p.length < 3)
    (hg : follow (child s.mem) root p = some g) (hi : index.toNat < 512) :
    Ensures (Owned root) (getOrCreateTable s (some g) index tableFlags)
      (· = OsKernel.getOrCreateTable s g index tableFlags) := by
  have hgf := mem_tableFrames hp.le hg
  refine ⟨?_, _, result_getOrCreateTable g index tableFlags, rfl⟩
  suffices h : Ensures (Owned root) (getOrCreateTable s (some g) index tableFlags)
    fun _ => True from h.1
  refine (ensures_readPte ht hgf hi).bind ?_
  rintro _ rfl
  by_cases hpres : isPresent (loadPte s.mem g index)
  · rw [if_neg (not_not.mpr hpres)]
    exact (ensures_readPte ht hgf hi).bind fun _ _ => .pure trivial
  · rw [if_pos hpres]
    rcases pmmAlloc_outcome s with ⟨why, heq⟩ | ⟨q, t, heq, hne, htaken⟩
    · simp only [heq, AllocReturn.value, if_true]
      exact .pure trivial
    · simp only [heq, AllocReturn.value, if_neg (pageAddr_ne_noAddr htaken.page_lt)]
      obtain ⟨htables, hframes⟩ := pageTables_taken ht htaken
      have hgt : g ∈ tableFrames t.mem root := by
        rw [hframes]
        exact hgf
      rw [← tablePte]
      refine (ensures_writePte htables hgt hi).bind ?_
      rintro _ rfl
      have hgrow := grows_of_taken ht hp hg hi hpres htaken hne (isPresent_tablePte q)
        (tablePte_land_addrMask htaken.page_lt)
      exact (ensures_readPte hgrow.tables (hgrow.kept hgf) hi).bind fun _ _ => .pure trivial

theorem ensures_walkLevel (ht : PageTables s root) (hp : p.length < 3)
    (hg : follow (child s.mem) root p = some g) (hi : index.toNat < 512)
    {next : Option Nat → TableM (Option Nat)} {Q : Option Nat → Prop} (hnone : Q none)
    (hnext : ∀ f, follow (child s.mem) root (p ++ [index.toNat]) = some f →
      Ensures (Owned root) (next (some f)) Q) :
    Ensures (Owned root) (walkLevel s (some g) index next) Q := by
  have hgf := mem_tableFrames hp.le hg
  refine (ensures_readPte ht hgf hi).bind ?_
  rintro _ rfl
  rcases child_of_path ht hp hg hi with ⟨habsent, -⟩ | ⟨f, hpres, hchild, hvirt⟩
  · rw [if_pos habsent]
    exact .pure hnone
  · rw [if_neg (not_not.mpr hpres)]
    refine (ensures_readPte ht hgf hi).bind ?_
    rintro _ rfl
    rw [hvirt]
    apply hnext
    rw [follow_snoc, hg]
    exact hchild

theorem ensures_walkTable (ht : PageTables s root) (virt : Vaddr) :
    Ensures (Owned root) (walkTable s (some root) virt)
      (· = follow (child s.mem) root (tablePath (pageNumber virt))) := by
  refine ⟨?_, _, (result_walkTable root virt).trans (walkTable_eq ht virt), rfl⟩
  suffices h : Ensures (Owned root) (walkTable s (some root) virt) fun _ => True from h.1
  have h4 : follow (child s.mem) root [] = some root := rfl
  apply ensures_walkLevel ht (by simp) h4 (pml4Index_lt virt) trivial
  intro pdpt hpdpt
  apply ensures_walkLevel ht (by simp) hpdpt (pdptIndex_lt virt) trivial
  intro pd hpd
  apply ensures_walkLevel ht (by simp) hpd (pdIndex_lt virt) trivial
  exact fun pt _ => .pure trivial

theorem ptIndex_lt (va : Vaddr) : (ptIndex va).toNat < 512 := index_lt va 12

/-- The page table a walk ends at is a table. -/
theorem mem_tableFrames_page {pt : Nat}
    (hpt : some pt = follow (child s.mem) root (tablePath (pageNumber virt))) :
    pt ∈ tableFrames s.mem root := mem_tableFrames (length_tablePath _) hpt.symm

section Valid
variable (hvalid : VmmValid vmm s root) (virt : Vaddr)
include hvalid

theorem ensures_vmmTranslate : Ensures (Owned root) (vmmTranslate vmm s virt) fun _ => True := by
  rw [vmmTranslate, hvalid.pml4]
  refine (ensures_walkTable hvalid.tables virt).bind ?_
  rintro (_ | pt) hpt
  · exact .pure trivial
  · have hptf := mem_tableFrames_page hpt
    refine (ensures_readPte hvalid.tables hptf (ptIndex_lt virt)).bind fun old _ => ?_
    by_cases hpres : isPresent old
    · rw [if_neg (not_not.mpr hpres)]
      exact (ensures_readPte hvalid.tables hptf (ptIndex_lt virt)).bind fun _ _ => .pure trivial
    · rw [if_pos hpres]
      exact .pure trivial

theorem ensures_vmmIsMapped : Ensures (Owned root) (vmmIsMapped vmm s virt) fun _ => True :=
  (ensures_vmmTranslate hvalid virt).bind fun _ _ => .pure trivial

theorem ensures_vmmUnmap : Ensures (Owned root) (vmmUnmap vmm s virt) fun _ => True := by
  rw [vmmUnmap, hvalid.pml4]
  refine (ensures_walkTable hvalid.tables (alignDown virt pageSize)).bind ?_
  rintro (_ | pt) hpt
  · exact .pure trivial
  · have hptf := mem_tableFrames_page hpt
    refine (ensures_readPte hvalid.tables hptf (ptIndex_lt _)).bind fun old _ => ?_
    by_cases hpres : isPresent old
    · rw [if_neg (not_not.mpr hpres)]
      exact (ensures_writePte hvalid.tables hptf (ptIndex_lt _)).bind fun _ _ => .pure trivial
    · rw [if_pos hpres]
      exact .pure trivial

theorem ensures_vmmPrintMapping :
    Ensures (Owned root) (vmmPrintMapping vmm s virt) fun _ => True := by
  refine (ensures_vmmTranslate hvalid virt).bind fun phys _ => ?_
  by_cases hphys : phys = noAddr
  · rw [if_pos hphys]
    exact .pure trivial
  · rw [if_neg hphys, hvalid.pml4]
    refine (ensures_walkTable hvalid.tables virt).bind ?_
    rintro (_ | pt) hpt
    · exact .pure trivial
    · have hptf := mem_tableFrames_page hpt
      have hread := ensures_readPte hvalid.tables hptf (ptIndex_lt virt)
      exact hread.bind fun _ _ => .pure trivial

omit virt in
theorem ensures_dumpEntry (out : String) {i : Nat} (hi : i < 512) :
    Ensures (Owned root) (dumpEntry vmm s out i) fun _ => True := by
  have hindex : (UInt64.ofNat i).toNat < 512 := by
    rw [toNat_ofNat_index hi]
    exact hi
  have hroot : root ∈ tableFrames s.mem root := mem_reached_root _ _ _
  have hread := ensures_readPte hvalid.tables hroot hindex
  rw [dumpEntry, hvalid.pml4]
  refine hread.bind fun pte _ => ?_
  by_cases hpres : isPresent pte
  · rw [if_neg (not_not.mpr hpres)]
    exact hread.bind fun _ _ => hread.bind fun _ _ => hread.bind fun _ _ => hread.bind fun _ _ =>
      hread.bind fun _ _ => .pure trivial
  · rw [if_pos hpres]
    exact .pure trivial

omit virt in
theorem ensures_vmmDumpPml4 : Ensures (Owned root) (vmmDumpPml4 vmm s) fun _ => True := by
  unfold vmmDumpPml4
  generalize hl : List.range 512 = l
  have hloop : Ensures (Owned root) (l.foldlM (dumpEntry vmm s) "\n=== PML4 Dump ===\n")
      fun _ => True := by
    refine .foldlM (fun out i hi _ => ensures_dumpEntry hvalid out ?_) trivial
    rw [← hl, List.mem_range] at hi
    exact hi
  exact hloop.bind fun _ _ => .pure trivial

end Valid

/-- One level of `vmm_map`: the next table exists, or is created, or there is no page. -/
theorem ensures_openLevel {β : Type} (ht : PageTables s root) (hp : p.length < 3)
    (hg : follow (child s.mem) root p = some g) (hi : index.toNat < 512)
    {next : Option Nat × PhysState → TableM β} {Q : β → Prop}
    (hnone : ∀ t, Ensures (Owned root) (next (none, t)) Q)
    (hnext : ∀ f t, PageTables t root →
      follow (child t.mem) root (p ++ [index.toNat]) = some f →
      Ensures (Owned root) (next (some f, t)) Q) :
    Ensures (Owned root) (getOrCreateTable s (some g) index tableFlags >>= next) Q := by
  obtain ⟨r, t, heq, hgrow, -, hf⟩ := getOrCreateTable_spec ht hp hg hi
  refine (ensures_getOrCreateTable ht hp hg hi).bind ?_
  rintro _ rfl
  rw [heq]
  cases r with
  | none => exact hnone t
  | some f => exact hnext f t hgrow.tables (hf f rfl)

/-- `vmm_map`: the tables exist, or are created, before they are accessed. -/
theorem ensures_vmmMap (hvalid : VmmValid vmm s root) (virt : Vaddr) (phys : Paddr)
    (flags : UInt64) : Ensures (Owned root) (vmmMap vmm s virt phys flags) fun _ => True := by
  set va := alignDown virt pageSize with hva
  have h4 : follow (child s.mem) root [] = some root := rfl
  rw [vmmMap, hvalid.pml4]
  refine ensures_openLevel hvalid.tables (by simp) h4 (pml4Index_lt va)
    (fun _ => .pure trivial) fun pdpt s4 ht4 h3 => ?_
  refine ensures_openLevel ht4 (by simp) h3 (pdptIndex_lt va)
    (fun _ => .pure trivial) fun pd s3 ht3 h2 => ?_
  refine ensures_openLevel ht3 (by simp) h2 (pdIndex_lt va)
    (fun _ => .pure trivial) fun pt s2 ht2 hpt => ?_
  have hptf := mem_tableFrames (by simp) hpt
  refine (ensures_readPte ht2 hptf (ptIndex_lt va)).bind fun old _ => ?_
  refine (ensures_writePte ht2 hptf (ptIndex_lt va)).bind fun _ _ => ?_
  by_cases hpres : isPresent old
  · rw [if_pos hpres]
    exact .pure trivial
  · rw [if_neg hpres]
    exact .pure trivial

end Owned

end VmmTrace

/-! ## Every reachable state -/

/-- The functions that look into the page tables. -/
inductive TableFn
  | map (virt : Vaddr) (phys : Paddr) (flags : UInt64)
  | unmap (virt : Vaddr)
  | translate (virt : Vaddr)
  | isMapped (virt : Vaddr)
  | printMapping (virt : Vaddr)
  | dumpPml4

/-- The entries a call reads and writes, in this order. -/
def tableAccesses (vmm : Vmm) (s : PhysState) : TableFn → List TableAccess
  | .map virt phys flags => (VmmTrace.vmmMap vmm s virt phys flags).trace
  | .unmap virt => (VmmTrace.vmmUnmap vmm s virt).trace
  | .translate virt => (VmmTrace.vmmTranslate vmm s virt).trace
  | .isMapped virt => (VmmTrace.vmmIsMapped vmm s virt).trace
  | .printMapping virt => (VmmTrace.vmmPrintMapping vmm s virt).trace
  | .dumpPml4 => (VmmTrace.vmmDumpPml4 vmm s).trace

/-- The call accesses tables of the address space only. -/
def AccessesOwned (vmm : Vmm) (s : PhysState) (fn : TableFn) : Prop :=
  ∀ a ∈ tableAccesses vmm s fn, ∃ root, vmm.pml4 = some root ∧ VmmTrace.Owned root a

variable {Space : Type*} [DecidableEq Space] {k : Space} {w : World Space} {vmm : Vmm}
  {s : PhysState} {root : Nat}

theorem accessesOwned (hvalid : VmmValid vmm s root) (fn : TableFn) : AccessesOwned vmm s fn := by
  suffices h : ∀ a ∈ tableAccesses vmm s fn, VmmTrace.Owned root a from
    fun a ha => ⟨root, hvalid.pml4, h a ha⟩
  cases fn with
  | map virt phys flags => exact (VmmTrace.ensures_vmmMap hvalid virt phys flags).1
  | unmap virt => exact (VmmTrace.ensures_vmmUnmap hvalid virt).1
  | translate virt => exact (VmmTrace.ensures_vmmTranslate hvalid virt).1
  | isMapped virt => exact (VmmTrace.ensures_vmmIsMapped hvalid virt).1
  | printMapping virt => exact (VmmTrace.ensures_vmmPrintMapping hvalid virt).1
  | dumpPml4 => exact (VmmTrace.ensures_vmmDumpPml4 hvalid).1

/-- Without a PML4, `vmm_dump_pml4` reads its first entry through a `NULL` pointer. -/
theorem vmmDumpPml4_none (hnone : vmm.pml4 = none) (s : PhysState) :
    tableAccesses vmm s .dumpPml4 = [⟨s, none, 0⟩] := by
  obtain ⟨l, hrange⟩ : ∃ l, List.range 512 = 0 :: l := ⟨_, List.range_succ_eq_map⟩
  unfold tableAccesses VmmTrace.vmmDumpPml4
  rw [hrange, List.foldlM_cons, VmmTrace.dumpEntry, hnone]
  rfl

theorem not_accessesOwned_dump (hnone : vmm.pml4 = none) (s : PhysState) :
    ¬ AccessesOwned vmm s .dumpPml4 := by
  intro h
  obtain ⟨root, hroot, -⟩ := h ⟨s, none, 0⟩ (by
    rw [vmmDumpPml4_none hnone]
    exact List.mem_singleton_self _)
  rw [hnone] at hroot
  cases hroot

/-- Every other function checks for the PML4 first. -/
theorem tableAccesses_none (hnone : vmm.pml4 = none) (s : PhysState) {fn : TableFn}
    (hfn : fn ≠ .dumpPml4) : tableAccesses vmm s fn = [] := by
  have htrans : ∀ virt, VmmTrace.vmmTranslate vmm s virt = pure noAddr := by
    intro virt
    rw [VmmTrace.vmmTranslate, hnone]
  cases fn with
  | map virt phys flags => rw [tableAccesses, VmmTrace.vmmMap, hnone]; rfl
  | unmap virt => rw [tableAccesses, VmmTrace.vmmUnmap, hnone]; rfl
  | translate virt => rw [tableAccesses, htrans]; rfl
  | isMapped virt => rw [tableAccesses, VmmTrace.vmmIsMapped, htrans]; rfl
  | printMapping virt => rw [tableAccesses, VmmTrace.vmmPrintMapping, htrans]; rfl
  | dumpPml4 => exact absurd rfl hfn

/-- **Which table accesses are safe.**  In every reachable state, also one in which
`vmm_init` found no page for the PML4, every entry a call reads or writes lies in a
table of the address space, exactly when the call is not a `vmm_dump_pml4` of an address
space without a PML4. -/
theorem table_accesses_owned_iff {s₀ : PhysState} {ops : List (WorldOp Space)}
    (hrun : Run WorldStep (World.start s₀) ops w) (hk : w.spaces k = some vmm) (fn : TableFn) :
    AccessesOwned vmm w.phys fn ↔ (fn = .dumpPml4 → vmm.pml4 ≠ none) := by
  constructor
  · rintro h rfl hnone
    exact not_accessesOwned_dump hnone _ h
  · intro h
    rcases space_cases hrun hk with hnone | ⟨root, hvalid⟩
    · intro a ha
      rw [tableAccesses_none hnone _ fun hfn => h hfn hnone] at ha
      cases ha
    · exact accessesOwned hvalid fn

theorem table_accesses_owned_iff_fresh : ∃ (s₀ : PhysState) (w : World Unit) (vmm : Vmm),
    s₀ = ⟨freshPmm, fun _ => 0⟩ ∧ WorldStep (World.start s₀) (.init ()) w ∧
      w.spaces () = some vmm ∧ AccessesOwned vmm w.phys .dumpPml4 := by
  obtain ⟨s₀, hs₀, hinit⟩ : ∃ s₀ : PhysState, s₀ = ⟨freshPmm, fun _ => 0⟩ ∧
    (vmmInit s₀).1.pml4 ≠ none := ⟨_, rfl, vmmInit_fresh⟩
  obtain ⟨hstep, hk⟩ := start_init s₀ ()
  exact ⟨s₀, _, _, hs₀, hstep, hk,
    (table_accesses_owned_iff (Run.nil.snoc hstep) hk .dumpPml4).mpr fun _ => hinit⟩

/-- Without a free page `vmm_init` fails. -/
theorem vmmInit_none (h : available s.pmm = 0) : (vmmInit s).1.pml4 = none := by
  rcases vmmInit_cases s with ⟨hnone, -⟩ | ⟨q, -, hne, htaken, -⟩
  · exact hnone
  · have := htaken.available_pred hne
    omega

/-- On a machine without a free page, `vmm_init` leaves a state in which `vmm_dump_pml4`
reads through a `NULL` pointer. -/
theorem vmm_dump_pml4_null :
    ¬ ∀ (s₀ : PhysState) (ops : List (WorldOp Unit)) (w : World Unit) (vmm : Vmm) (fn : TableFn),
      Run WorldStep (World.start s₀) ops w → w.spaces () = some vmm →
      AccessesOwned vmm w.phys fn := by
  intro hclaim
  obtain ⟨s₀, hfree⟩ : ∃ s₀ : PhysState, available s₀.pmm = 0 :=
    ⟨⟨smallPmm 0, fun _ => 0⟩, available_smallPmm (by decide)⟩
  obtain ⟨hstep, hk⟩ := start_init s₀ ()
  exact not_accessesOwned_dump (vmmInit_none hfree) _
    (hclaim s₀ _ _ _ .dumpPml4 (Run.nil.snoc hstep) hk)

end OsKernel
