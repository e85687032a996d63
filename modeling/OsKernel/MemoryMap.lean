import OsKernel.Types

/-! # The boot memory map (`memory_map/memory_map.c`)

The map is a table of at most `MMAP_MAX_ENTRIES` regions.  Only its first `count`
slots are ever read, so the table is modelled by the list of those slots, with
the bound that `mmap_add_entry` enforces carried by the type.
-/
namespace OsKernel

/-- `MMAP_MAX_ENTRIES` -/
def mmapMaxEntries : Nat := 64

/-- `mmap_type_t` -/
inductive MmapType
  | free
  | reserved
  | acpi
  | nvs
  | badram
  | kernel
  deriving DecidableEq, Repr

/-- `mmap_entry_t` -/
structure MmapEntry where
  base : UInt64
  length : UInt64
  type : MmapType
  deriving DecidableEq, Repr

/-- `memory_map_t`: the occupied entries, `count` being their number. -/
structure MemoryMap where
  entries : List MmapEntry
  totalFree : UInt64
  totalUsable : UInt64
  bounded : entries.length ≤ mmapMaxEntries

/-- `mmap_init` -/
def mmapInit : MemoryMap := ⟨[], 0, 0, Nat.zero_le _⟩

/-- `mmap_add_entry` -/
def mmapAddEntry (mmap : MemoryMap) (base length : UInt64) (type : MmapType) : MemoryMap :=
  if h : mmapMaxEntries ≤ mmap.entries.length then mmap
  else
    { entries := mmap.entries ++ [⟨base, length, type⟩]
      totalFree := if type = .free then mmap.totalFree + length else mmap.totalFree
      totalUsable := if type = .free then mmap.totalUsable + length else mmap.totalUsable
      bounded := by
        rw [List.length_append, List.length_singleton]
        omega }

/-- `mmap_parse`: the simulated e820 map of a 64 MB machine. -/
def mmapParse : MemoryMap :=
  let mmap := mmapInit
  let mmap := mmapAddEntry mmap 0x00000000 0x000A0000 .free
  let mmap := mmapAddEntry mmap 0x000A0000 0x00020000 .reserved  -- VGA
  let mmap := mmapAddEntry mmap 0x000C0000 0x00040000 .reserved  -- BIOS ROM
  let mmap := mmapAddEntry mmap 0x00100000 0x00E00000 .free
  let mmap := mmapAddEntry mmap 0x00F00000 0x00100000 .reserved  -- BIOS shadow
  let mmap := mmapAddEntry mmap 0x01000000 0x01800000 .free
  let mmap := mmapAddEntry mmap 0x02800000 0x00100000 .acpi
  let mmap := mmapAddEntry mmap 0x02900000 0x01300000 .free
  mmapAddEntry mmap 0x03C00000 0x00400000 .reserved

end OsKernel
