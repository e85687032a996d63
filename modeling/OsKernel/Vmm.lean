import OsKernel.Pmm

/-! # The virtual memory manager (`vmm/vmm.c`)

Four levels of 512-entry tables, kept in the simulated physical memory and taken
from the physical memory manager.  A table is the offset of its first byte in
`phys_mem`, and `NULL` is `none`.  The functions that only walk existing tables
dereference what `phys_to_virt` returns without a check; they answer
`Fault.nullDereference` where that would be a `NULL` pointer.
-/
namespace OsKernel

/-- What a function does when it goes through a `NULL` table pointer. -/
inductive Fault
  | nullDereference
  deriving DecidableEq, Repr

/-- `vmm_t`, without the pointer to the (single) manager it allocates from. -/
structure Vmm where
  pml4 : Option Nat
  pml4Phys : Paddr
  mapped : UInt64

/-! ## Entries and indices -/

/-- `ENTRY_MASK` -/
def entryMask : UInt64 := 0x1FF

/-- `PML4_INDEX(va)` -/
def pml4Index (va : Vaddr) : UInt64 := (va >>> 39) &&& entryMask

/-- `PDPT_INDEX(va)` -/
def pdptIndex (va : Vaddr) : UInt64 := (va >>> 30) &&& entryMask

/-- `PD_INDEX(va)` -/
def pdIndex (va : Vaddr) : UInt64 := (va >>> 21) &&& entryMask

/-- `PT_INDEX(va)` -/
def ptIndex (va : Vaddr) : UInt64 := (va >>> 12) &&& entryMask

/-- `PAGE_OFFSET(va)` -/
def pageOffset (va : Vaddr) : UInt64 := va &&& (pageSize - 1)

/-- `PTE_PRESENT` -/
def ptePresent : UInt64 := (1 : UInt64) <<< 0

/-- `PTE_WRITABLE` -/
def pteWritable : UInt64 := (1 : UInt64) <<< 1

/-- `PTE_USER` -/
def pteUser : UInt64 := (1 : UInt64) <<< 2

/-- `PTE_ADDR_MASK` -/
def pteAddrMask : UInt64 := 0x000FFFFFFFFFF000

/-- `table[index]` -/
def loadPte (mem : Memory) (table : Nat) (index : UInt64) : UInt64 :=
  UInt64.ofNat (mem.load (table + 8 * index.toNat) 8)

/-- `table[index] = pte` -/
def storePte (mem : Memory) (table : Nat) (index pte : UInt64) : Memory :=
  mem.store (table + 8 * index.toNat) 8 pte.toNat

/-- `pte & PTE_PRESENT`, as a condition. -/
def isPresent (pte : UInt64) : Prop := pte &&& ptePresent ≠ 0

instance (pte : UInt64) : Decidable (isPresent pte) := inferInstanceAs (Decidable (_ ≠ _))

/-! ## Walking and creating tables -/

/-- `get_or_create_table` -/
def getOrCreateTable (s : PhysState) (table : Nat) (index flags : UInt64) :
    Option Nat × PhysState :=
  if ¬ isPresent (loadPte s.mem table index) then
    let (page, s) := pmmAlloc s
    if page.value = noAddr then (none, s)
    else
      let pte := (page.value &&& pteAddrMask) ||| flags ||| ptePresent
      let s := { s with mem := storePte s.mem table index pte }
      (physToVirt (loadPte s.mem table index &&& pteAddrMask), s)
  else (physToVirt (loadPte s.mem table index &&& pteAddrMask), s)

/-- `table[index]` in a walk, where `table` may be `NULL`. -/
def derefPte (mem : Memory) (table : Option Nat) (index : UInt64) : Except Fault UInt64 :=
  match table with
  | some t => .ok (loadPte mem t index)
  | none => .error .nullDereference

/-- `walk_table`; the callers all pass `NULL` for the three output pointers. -/
def walkTable (mem : Memory) (pml4 : Nat) (virt : Vaddr) : Except Fault (Option Nat) := do
  let e4 ← derefPte mem (some pml4) (pml4Index virt)
  if ¬ isPresent e4 then return none
  let pdpt := physToVirt (e4 &&& pteAddrMask)
  let e3 ← derefPte mem pdpt (pdptIndex virt)
  if ¬ isPresent e3 then return none
  let pd := physToVirt (e3 &&& pteAddrMask)
  let e2 ← derefPte mem pd (pdIndex virt)
  if ¬ isPresent e2 then return none
  return physToVirt (e2 &&& pteAddrMask)

/-! ## The interface -/

/-- `vmm_init` -/
def vmmInit (s : PhysState) : Vmm × PhysState :=
  let (page, s) := pmmAlloc s
  if page.value = noAddr then ({ pml4 := none, pml4Phys := page.value, mapped := 0 }, s)
  else ({ pml4 := physToVirt page.value, pml4Phys := page.value, mapped := 0 }, s)

/-- `PTE_PRESENT | PTE_WRITABLE | PTE_USER`, the flags of every entry above a page
table. -/
def tableFlags : UInt64 := ptePresent ||| pteWritable ||| pteUser

/-- `vmm_map` -/
def vmmMap (vmm : Vmm) (s : PhysState) (virt : Vaddr) (phys : Paddr) (flags : UInt64) :
    Int × Vmm × PhysState :=
  match vmm.pml4 with
  | none => (-1, vmm, s)
  | some pml4 =>
    let virt := alignDown virt pageSize
    let phys := alignDown phys pageSize
    match getOrCreateTable s pml4 (pml4Index virt) tableFlags with
    | (none, s) => (-1, vmm, s)
    | (some pdpt, s) =>
      match getOrCreateTable s pdpt (pdptIndex virt) tableFlags with
      | (none, s) => (-1, vmm, s)
      | (some pd, s) =>
        match getOrCreateTable s pd (pdIndex virt) tableFlags with
        | (none, s) => (-1, vmm, s)
        | (some pt, s) =>
          let pte := (phys &&& pteAddrMask) ||| flags ||| ptePresent
          let s' := { s with mem := storePte s.mem pt (ptIndex virt) pte }
          -- a page that is mapped already is only counted once
          if isPresent (loadPte s.mem pt (ptIndex virt)) then (0, vmm, s')
          else (0, { vmm with mapped := vmm.mapped + 1 }, s')

/-- The loop of `vmm_map_range` from page `i` on, with `n` pages left. -/
def vmmMapRangeFrom (virt : Vaddr) (phys : Paddr) (flags : UInt64) :
    Nat → Nat → Vmm → PhysState → Int × Vmm × PhysState
  | 0, _, vmm, s => (0, vmm, s)
  | n + 1, i, vmm, s =>
    let r := vmmMap vmm s (virt + UInt64.ofNat i * pageSize) (phys + UInt64.ofNat i * pageSize)
      flags
    if r.1 ≠ 0 then (-1, r.2) else vmmMapRangeFrom virt phys flags n (i + 1) r.2.1 r.2.2

/-- `vmm_map_range` -/
def vmmMapRange (vmm : Vmm) (s : PhysState) (virt : Vaddr) (phys : Paddr) (pages flags : UInt64) :
    Int × Vmm × PhysState :=
  vmmMapRangeFrom virt phys flags pages.toNat 0 vmm s

/-- `vmm_unmap` -/
def vmmUnmap (vmm : Vmm) (s : PhysState) (virt : Vaddr) : Except Fault (Int × Vmm × PhysState) :=
  match vmm.pml4 with
  | none => .ok (-1, vmm, s)
  | some pml4 => do
    let virt := alignDown virt pageSize
    match ← walkTable s.mem pml4 virt with
    | none => return (-1, vmm, s)
    | some pt =>
      if ¬ isPresent (loadPte s.mem pt (ptIndex virt)) then return (-1, vmm, s)
      return (0, { vmm with mapped := vmm.mapped - 1 },
        { s with mem := storePte s.mem pt (ptIndex virt) 0 })

/-- The loop of `vmm_unmap_range` from page `i` on, with `n` pages left.  The
answers of `vmm_unmap` are not looked at. -/
def vmmUnmapRangeFrom (virt : Vaddr) :
    Nat → Nat → Vmm → PhysState → Except Fault (Int × Vmm × PhysState)
  | 0, _, vmm, s => .ok (0, vmm, s)
  | n + 1, i, vmm, s => do
    let r ← vmmUnmap vmm s (virt + UInt64.ofNat i * pageSize)
    vmmUnmapRangeFrom virt n (i + 1) r.2.1 r.2.2

/-- `vmm_unmap_range` -/
def vmmUnmapRange (vmm : Vmm) (s : PhysState) (virt : Vaddr) (pages : UInt64) :
    Except Fault (Int × Vmm × PhysState) :=
  vmmUnmapRangeFrom virt pages.toNat 0 vmm s

/-- `vmm_translate` -/
def vmmTranslate (vmm : Vmm) (mem : Memory) (virt : Vaddr) : Except Fault Paddr :=
  match vmm.pml4 with
  | none => .ok noAddr
  | some pml4 => do
    match ← walkTable mem pml4 virt with
    | none => return noAddr
    | some pt =>
      let pte := loadPte mem pt (ptIndex virt)
      if ¬ isPresent pte then return noAddr
      return (pte &&& pteAddrMask) ||| pageOffset virt

/-- `vmm_is_mapped` -/
def vmmIsMapped (vmm : Vmm) (mem : Memory) (virt : Vaddr) : Except Fault Bool := do
  return (← vmmTranslate vmm mem virt) != noAddr

end OsKernel
