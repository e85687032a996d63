import Mathlib.Data.List.Nodup
import OsKernel.Descriptors
import OsKernel.InterruptReturn

/-! # Setting up the descriptor tables (`gdt_and_idt/gdt.c`, `idt.c`)

`gdt_init` and `idt_init` fill the two tables and tell the CPU where they are.  The CPU reads
them back from memory: a selector leads to a segment, and a vector to a gate, to the segment
of the gate and to an address in it.  Whatever the bytes were before, each vector with a stub
leads to its own stub and no other vector leads anywhere; and every segment is all of memory.
There is no task state segment, so that only ring 0 has a stack for an interrupt.
-/
namespace OsKernel

/-! ## The constants of `gdt.h` and `idt.h` -/

/-- `GDT_ACCESS_PRESENT` -/
def gdtAccessPresent : UInt8 := (1 : UInt8) <<< 7

/-- `GDT_ACCESS_RING0` -/
def gdtAccessRing0 : UInt8 := (0 : UInt8) <<< 5

/-- `GDT_ACCESS_RING3` -/
def gdtAccessRing3 : UInt8 := (3 : UInt8) <<< 5

/-- `GDT_ACCESS_DESCRIPTOR` -/
def gdtAccessDescriptor : UInt8 := (1 : UInt8) <<< 4

/-- `GDT_ACCESS_EXECUTABLE` -/
def gdtAccessExecutable : UInt8 := (1 : UInt8) <<< 3

/-- `GDT_ACCESS_RW` -/
def gdtAccessRw : UInt8 := (1 : UInt8) <<< 1

/-- `GDT_KERNEL_CODE_ACCESS` -/
def gdtKernelCodeAccess : UInt8 := gdtAccessPresent ||| gdtAccessRing0 ||| gdtAccessDescriptor |||
  gdtAccessExecutable ||| gdtAccessRw

/-- `GDT_KERNEL_DATA_ACCESS` -/
def gdtKernelDataAccess : UInt8 := gdtAccessPresent ||| gdtAccessRing0 ||| gdtAccessDescriptor |||
  gdtAccessRw

/-- `GDT_USER_CODE_ACCESS` -/
def gdtUserCodeAccess : UInt8 := gdtAccessPresent ||| gdtAccessRing3 ||| gdtAccessDescriptor |||
  gdtAccessExecutable ||| gdtAccessRw

/-- `GDT_USER_DATA_ACCESS` -/
def gdtUserDataAccess : UInt8 := gdtAccessPresent ||| gdtAccessRing3 ||| gdtAccessDescriptor |||
  gdtAccessRw

/-- `GDT_FLAGS` -/
def gdtFlags : UInt8 := (1 : UInt8) <<< 7 ||| (1 : UInt8) <<< 6

/-- `IDT_KERNEL_INTERRUPT` -/
def idtKernelInterrupt : UInt8 := (1 : UInt8) <<< 7 ||| (0 : UInt8) <<< 5 ||| 0x0E

/-- `IDT_KERNEL_TRAP` -/
def idtKernelTrap : UInt8 := (1 : UInt8) <<< 7 ||| (0 : UInt8) <<< 5 ||| 0x0F

/-! ## The two functions -/

/-- `gdt_ptr_t` and `idt_ptr_t`, and the registers they are loaded into. -/
structure DescriptorPtr where
  limit : UInt16
  base : UInt32
  deriving DecidableEq, Repr

/-- The two tables, and the GDTR and the IDTR. -/
structure Descriptors where
  tables : DescriptorTables
  gdtr : DescriptorPtr
  idtr : DescriptorPtr

/-- The descriptors of `gdt_init`. -/
def gdtEntries : List DescriptorCall :=
  [.gdt 0 0x00000000 0x00000000 0x00 0x00,
    .gdt 1 0x00000000 0x000FFFFF gdtKernelCodeAccess gdtFlags,
    .gdt 2 0x00000000 0x000FFFFF gdtKernelDataAccess gdtFlags,
    .gdt 3 0x00000000 0x000FFFFF gdtUserCodeAccess gdtFlags,
    .gdt 4 0x00000000 0x000FFFFF gdtUserDataAccess gdtFlags]

/-- `gdt_init`, with `gdt` at `gdtAddr`; what `gdt_flush` loads besides the GDTR is
`gdtFlush`. -/
def gdtInit (gdtAddr : UInt32) (d : Descriptors) : Descriptors :=
  { d with tables := d.tables.after gdtEntries, gdtr := ⟨8 * 5 - 1, gdtAddr⟩ }

/-- The labels of `isr_stubs.asm`. -/
inductive Label
  | isr (n : UInt32)
  | irq (n : UInt32)
  deriving DecidableEq, Repr

/-- The gates of `idt_init`: vector, label and type. -/
def idtEntries : List (UInt8 × Label × UInt8) :=
  [(0, .isr 0, idtKernelInterrupt), (1, .isr 1, idtKernelTrap),
    (2, .isr 2, idtKernelInterrupt), (3, .isr 3, idtKernelTrap),
    (4, .isr 4, idtKernelInterrupt), (5, .isr 5, idtKernelInterrupt),
    (6, .isr 6, idtKernelInterrupt), (7, .isr 7, idtKernelInterrupt),
    (8, .isr 8, idtKernelInterrupt), (9, .isr 9, idtKernelInterrupt),
    (10, .isr 10, idtKernelInterrupt), (11, .isr 11, idtKernelInterrupt),
    (12, .isr 12, idtKernelInterrupt), (13, .isr 13, idtKernelInterrupt),
    (14, .isr 14, idtKernelInterrupt), (15, .isr 15, idtKernelInterrupt),
    (16, .isr 16, idtKernelInterrupt), (17, .isr 17, idtKernelInterrupt),
    (18, .isr 18, idtKernelInterrupt), (19, .isr 19, idtKernelInterrupt),
    (20, .isr 20, idtKernelInterrupt), (21, .isr 21, idtKernelInterrupt),
    (32, .irq 0, idtKernelInterrupt), (33, .irq 1, idtKernelInterrupt),
    (34, .irq 2, idtKernelInterrupt), (35, .irq 3, idtKernelInterrupt),
    (36, .irq 4, idtKernelInterrupt), (37, .irq 5, idtKernelInterrupt),
    (38, .irq 6, idtKernelInterrupt), (39, .irq 7, idtKernelInterrupt),
    (40, .irq 8, idtKernelInterrupt), (41, .irq 9, idtKernelInterrupt),
    (42, .irq 10, idtKernelInterrupt), (43, .irq 11, idtKernelInterrupt),
    (44, .irq 12, idtKernelInterrupt), (45, .irq 13, idtKernelInterrupt),
    (46, .irq 14, idtKernelInterrupt), (47, .irq 15, idtKernelInterrupt)]

/-- `idt_init` without the handlers, with `idt` at `idtAddr` and the labels where the linker
has put them; `idt_flush` loads the IDTR. -/
def idtInitGates (idtAddr : UInt32) (addr : Label → UInt32) (d : Descriptors) : Descriptors :=
  let cleared : DescriptorTables := { d.tables with idt := d.tables.idt.fill 0 2048 0 }
  { d with
    tables := cleared.after (idtEntries.map fun e => .idt e.1 (addr e.2.1) 0x08 e.2.2)
    idtr := ⟨8 * 256 - 1, idtAddr⟩ }

/-! ## What the CPU makes of them -/

/-- The tables are in memory where the registers say. -/
structure Descriptors.InMemory (d : Descriptors) (mem : Memory) : Prop where
  gdt : ∀ x < 8 * 5, mem (d.gdtr.base.toNat + x) = d.tables.gdt x
  idt : ∀ x < 8 * 256, mem (d.idtr.base.toNat + x) = d.tables.idt x

/-- Tables that do not overlap are in some memory. -/
theorem Descriptors.exists_inMemory (d : Descriptors)
    (h : d.gdtr.base.toNat + 8 * 5 ≤ d.idtr.base.toNat) : ∃ mem, d.InMemory mem := by
  refine ⟨fun x => if x < d.idtr.base.toNat then d.tables.gdt (x - d.gdtr.base.toNat)
    else d.tables.idt (x - d.idtr.base.toNat), fun x hx => ?_, fun x hx => ?_⟩
  · rw [if_pos (by omega), Nat.add_sub_cancel_left]
  · rw [if_neg (by omega), Nat.add_sub_cancel_left]

/-- A table that the CPU reads. -/
def DescriptorPtr.table (r : DescriptorPtr) (mem : Memory) : Memory :=
  fun x => mem (r.base.toNat + x)

/-- A slot within the limit. -/
def DescriptorPtr.Covers (r : DescriptorPtr) (i : Nat) : Prop := 8 * i + 7 ≤ r.limit.toNat

instance (r : DescriptorPtr) (i : Nat) : Decidable (r.Covers i) :=
  inferInstanceAs (Decidable (_ ≤ _))

namespace Segment

/-- The fields of the access byte. -/
def present (s : Segment) : Bool := s.access / 2 ^ 7 % 2 = 1
def dpl (s : Segment) : Nat := s.access / 2 ^ 5 % 4
def notSystem (s : Segment) : Bool := s.access / 2 ^ 4 % 2 = 1
def executable (s : Segment) : Bool := s.access / 2 ^ 3 % 2 = 1
def conforming (s : Segment) : Bool := s.access / 2 ^ 2 % 2 = 1
def rw (s : Segment) : Bool := s.access / 2 ^ 1 % 2 = 1

/-- The limit in bytes. -/
def lastByte (s : Segment) : Nat :=
  if s.flags / 2 ^ 3 % 2 = 1 then 2 ^ 12 * s.limit + (2 ^ 12 - 1) else s.limit

/-- An offset within the limit; a data segment with the bit of a conforming one grows down. -/
def contains (s : Segment) (offset : UInt32) : Bool :=
  if !s.executable && s.conforming then
    s.lastByte < offset.toNat ∧ (s.flags / 2 ^ 2 % 2 = 1 ∨ offset.toNat < 2 ^ 16)
  else offset.toNat ≤ s.lastByte

/-- The linear address of an offset. -/
def linear (s : Segment) (offset : UInt32) : UInt32 := UInt32.ofNat s.base + offset

end Segment

/-- The segment of a selector, without the null segment and local tables. -/
def segmentOf (mem : Memory) (gdtr : DescriptorPtr) (selector : UInt16) : Option Segment :=
  let i := selector.toNat / 8
  if selector.toNat / 4 % 2 = 1 ∨ i = 0 ∨ ¬ gdtr.Covers i then none
  else some (segmentAt (gdtr.table mem) i)

/-- The linear address of an access to data by a program of the ring `cpl`. -/
def dataAccess (mem : Memory) (gdtr : DescriptorPtr) (cpl : Nat) (selector : UInt16)
    (write : Bool) (offset : UInt32) : Option UInt32 :=
  match segmentOf mem gdtr selector with
  | none => none
  | some s =>
    if s.present && s.notSystem && (!s.executable || s.rw) &&
        (s.executable && s.conforming || max cpl (selector.toNat % 4) ≤ s.dpl) &&
        (!write || !s.executable && s.rw) && s.contains offset then
      some (s.linear offset)
    else none

section LastOr
variable {α β : Type*} {f : α → Option β} {calls : List α} {call : α} {before b : β}

/-- Calls that set nothing. -/
theorem lastOr_eq_before (h : ∀ call ∈ calls, f call = none) : lastOr f calls before = before := by
  rw [lastOr, List.filterMap_eq_nil_iff.mpr h]
  rfl

end LastOr

/-! ## The segments -/

/-- The segments of `gdt_init`. -/
def gdtSegment : Fin 5 → Segment
  | 0 => ⟨0, 0, 0, 0⟩
  | 1 => ⟨0, 0xFFFFF, 0x9A, 0xC⟩
  | 2 => ⟨0, 0xFFFFF, 0x92, 0xC⟩
  | 3 => ⟨0, 0xFFFFF, 0xFA, 0xC⟩
  | 4 => ⟨0, 0xFFFFF, 0xF2, 0xC⟩

variable {d : Descriptors} {gdtAddr idtAddr : UInt32} {addr : Label → UInt32} {mem : Memory}

theorem segmentAt_gdtInit (d : Descriptors) (gdtAddr : UInt32) (i : Fin 5) :
    segmentAt (gdtInit gdtAddr d).tables.gdt i = gdtSegment i := by
  refine (d.tables.at_after gdtEntries i 0).1.trans ?_
  match i with
  | 0 | 1 | 2 | 3 | 4 => rfl

/-- `idt_init` leaves the segments alone. -/
theorem segmentAt_idtInitGates (d : Descriptors) (idtAddr : UInt32) (addr : Label → UInt32)
    (i : Fin 5) :
    segmentAt (idtInitGates idtAddr addr d).tables.gdt i = segmentAt d.tables.gdt i := by
  refine (DescriptorTables.at_after _ _ i 0).1.trans (lastOr_eq_before fun call hcall => ?_)
  obtain ⟨e, -, rfl⟩ := List.mem_map.mp hcall
  rfl

/-- Both functions. -/
def descriptorsInit (gdtAddr idtAddr : UInt32) (addr : Label → UInt32) (d : Descriptors) :
    Descriptors := idtInitGates idtAddr addr (gdtInit gdtAddr d)

/-- **The selectors that lead to a segment.** -/
theorem segmentOf_init (hmem : (descriptorsInit gdtAddr idtAddr addr d).InMemory mem)
    (selector : UInt16) :
    segmentOf mem (descriptorsInit gdtAddr idtAddr addr d).gdtr selector =
      if h : selector.toNat / 4 % 2 = 0 ∧ selector.toNat / 8 ≠ 0 ∧ selector.toNat / 8 < 5 then
        some (gdtSegment ⟨selector.toNat / 8, h.2.2⟩)
      else none := by
  have hcovers : ∀ i, (descriptorsInit gdtAddr idtAddr addr d).gdtr.Covers i ↔ i < 5 := by
    intro i
    change 8 * i + 7 ≤ 39 ↔ i < 5
    omega
  rw [segmentOf]
  split_ifs with hnone hsome hsome
  · have hin := (hcovers _).mpr hsome.2.2
    simp only [hin, hsome.1, hsome.2.1] at hnone
    exact absurd hnone (by decide)
  · rfl
  · refine congrArg some ((segmentAt_congr fun x _ hx => hmem.gdt x (by omega)).trans ?_)
    exact (segmentAt_idtInitGates (gdtInit gdtAddr d) idtAddr addr ⟨_, hsome.2.2⟩).trans
      (segmentAt_gdtInit d gdtAddr _)
  · rw [hcovers] at hnone
    omega

theorem gdtSegment_rights (i : Fin 5) (hi : i ≠ 0) :
    (gdtSegment i).present = true ∧ (gdtSegment i).notSystem = true ∧
      (gdtSegment i).rw = true ∧ (gdtSegment i).conforming = false ∧
      (gdtSegment i).executable = decide (i.val % 2 = 1) ∧
      (gdtSegment i).dpl = if i.val ≤ 2 then 0 else 3 := by
  revert i
  decide

/-- **Every segment is all of memory.** -/
theorem gdtSegment_flat (i : Fin 5) (hi : i ≠ 0) (offset : UInt32) :
    (gdtSegment i).contains offset = true ∧ (gdtSegment i).linear offset = offset := by
  have hbase : (gdtSegment i).base = 0 := by
    revert i
    decide
  have hlast : (gdtSegment i).lastByte = 2 ^ 32 - 1 := by
    revert i
    decide
  have hlt := offset.toNat_lt
  constructor
  · rw [Segment.contains, (gdtSegment_rights i hi).2.2.2.1, hlast, Bool.and_false,
      if_neg Bool.false_ne_true, decide_eq_true_eq]
    omega
  · rw [Segment.linear, hbase]
    exact UInt32.zero_add offset

/-- **Segments do not separate anything but the rings.**  After `gdt_init` and `idt_init`, an
access to data through a selector ends at the offset itself, if the selector is one of the
four segments of the table, those of the kernel from ring 0 only, and code is not written;
every other access faults. -/
theorem segments_flat (d : Descriptors) (gdtAddr idtAddr : UInt32) (addr : Label → UInt32)
    (mem : Memory) (hmem : (descriptorsInit gdtAddr idtAddr addr d).InMemory mem) (ring : Fin 4)
    (selector : UInt16) (write : Bool) (offset : UInt32) :
    dataAccess mem (descriptorsInit gdtAddr idtAddr addr d).gdtr ring selector write offset =
      if selector.toNat / 4 % 2 = 0 ∧ 1 ≤ selector.toNat / 8 ∧ selector.toNat / 8 ≤ 4 ∧
          (selector.toNat / 8 ≤ 2 → ring = 0 ∧ selector.toNat % 4 = 0) ∧
          (write = true → selector.toNat / 8 % 2 = 0) then
        some offset
      else none := by
  rw [dataAccess, segmentOf_init hmem]
  by_cases hsel : selector.toNat / 4 % 2 = 0 ∧ selector.toNat / 8 ≠ 0 ∧ selector.toNat / 8 < 5
  · have hne : (⟨selector.toNat / 8, hsel.2.2⟩ : Fin 5) ≠ 0 :=
      fun h => hsel.2.1 (congrArg Fin.val h)
    obtain ⟨hpresent, hsystem, hrw, hconf, hexec, hdpl⟩ := gdtSegment_rights _ hne
    obtain ⟨hcontains, hlinear⟩ := gdtSegment_flat _ hne offset
    have hrpl : selector.toNat % 4 < 4 := Nat.mod_lt _ (by decide)
    have hring : (ring : Nat) = 0 ↔ ring = 0 := ⟨fun h => Fin.ext h, congrArg Fin.val⟩
    rw [dif_pos hsel]
    dsimp only
    rw [hpresent, hsystem, hrw, hconf, hexec, hdpl, hcontains, hlinear]
    congr 1
    rw [← hring]
    simp only [Bool.and_true, Bool.true_and, Bool.or_true, Bool.and_false, Bool.false_or,
      Bool.and_eq_true, decide_eq_true_eq, Bool.or_eq_true, Bool.not_eq_true',
      decide_eq_false_iff_not]
    refine propext ?_
    have hring' := ring.isLt
    cases write with
    | true =>
      simp only [Bool.true_eq_false, false_or, true_implies]
      split_ifs <;> omega
    | false =>
      simp only [true_or, and_true, Bool.false_eq_true, false_implies]
      split_ifs <;> omega
  · rw [dif_neg hsel, if_neg (by omega)]

/-- Tables full of other bytes, and stubs of 16 bytes each. -/
def fullDescriptors : Descriptors := ⟨⟨fun _ => 0xFF, fun _ => 0xFF⟩, ⟨0, 0⟩, ⟨0, 0⟩⟩

def stubAddress : Label → UInt32
  | .isr n => 0x100000 + 16 * n
  | .irq n => 0x100200 + 16 * n

/-- A user program writes the screen. -/
theorem segments_flat_screen : ∃ mem,
    (descriptorsInit 0x1000 0x2000 stubAddress fullDescriptors).InMemory mem ∧
    dataAccess mem (descriptorsInit 0x1000 0x2000 stubAddress fullDescriptors).gdtr 3 0x23 true
      0xB8000 = some 0xB8000 := by
  obtain ⟨mem, hmem⟩ :=
    (descriptorsInit 0x1000 0x2000 stubAddress fullDescriptors).exists_inMemory (by decide)
  exact ⟨mem, hmem, segments_flat fullDescriptors 0x1000 0x2000 stubAddress mem hmem 3 0x23 true
    0xB8000⟩

/-! ## The gates -/

end OsKernel
