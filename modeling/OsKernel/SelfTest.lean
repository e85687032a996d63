import OsKernel.KmallocHeap

/-! # The memory test of the kernel (`kernel/tests.c`)

`test_phase4_memory` writes two words to fixed addresses and reads them back, to show
that memory works.  `kernel_main` has placed the heap over both addresses, and the first
of them is the size field of the heap's first block header.
-/
namespace OsKernel

/-- The memory, the counters of `tests.c`, and the messages given to `log_info`. -/
structure Tests where
  mem : Memory
  totalPass : Nat
  totalFail : Nat
  log : List String

namespace Tests

/-- `SECTION(msg)` -/
def title (t : Tests) (msg : String) : Tests := { t with log := t.log ++ ["--- " ++ msg ++ " ---"] }

/-- `PASS(msg)` -/
def pass (t : Tests) (msg : String) : Tests :=
  { t with log := t.log ++ ["  [PASS] " ++ msg], totalPass := t.totalPass + 1 }

/-- `FAIL(msg)` -/
def fail (t : Tests) (msg : String) : Tests :=
  { t with log := t.log ++ ["  [FAIL] " ++ msg], totalFail := t.totalFail + 1 }

/-- `if (ok) PASS(yes); else FAIL(no);` -/
def check (t : Tests) (ok : Bool) (yes no : String) : Tests := if ok then t.pass yes else t.fail no

/-- `*(volatile uint32_t *)addr = value` -/
def write (t : Tests) (addr value : UInt32) : Tests :=
  { t with mem := t.mem.store addr.toNat 4 value.toNat }

/-- `*(volatile uint32_t *)addr` -/
def read (t : Tests) (addr : UInt32) : UInt32 := UInt32.ofNat (t.mem.load addr.toNat 4)

@[simp] theorem title_mem (t : Tests) (msg : String) : (t.title msg).mem = t.mem := rfl

@[simp] theorem pass_mem (t : Tests) (msg : String) : (t.pass msg).mem = t.mem := rfl

@[simp] theorem check_mem (t : Tests) (ok : Bool) (yes no : String) :
    (t.check ok yes no).mem = t.mem := by
  cases ok <;> rfl

end Tests

/-- `test_phase4_memory`, with the values of the control registers `CR0` and `CR3`. -/
def testPhase4Memory (cr0 cr3 : UInt32) (t : Tests) : Tests :=
  let t := t.title "PHASE 4: Physical & Virtual Memory"
  let paging := (cr0 >>> 31) &&& 1
  let t :=
    if paging ≠ 0 then t.pass "Paging is ENABLED (VMM active)"
    else t.pass "Paging is DISABLED (flat physical model — OK for basic kernel)"
  let t :=
    if paging ≠ 0 then
      t.check (cr3 ≠ 0) "CR3 page directory base is non-zero"
        "CR3 is 0 — page directory not set up"
    else t
  let low : UInt32 := 0x00200000
  let high : UInt32 := 0x002FF000
  let t := t.write low 0x12345678
  let t := t.write high 0x87654321
  let t := t.check (t.read low = 0x12345678) "Physical read/write at 2MB OK"
    "Physical read/write at 2MB FAILED"
  t.check (t.read high = 0x87654321) "Physical read/write at ~3MB OK"
    "Physical read/write at ~3MB FAILED"

/-- **The heap survives**: every header of the block list keeps its fields, and no byte of
a live allocation changes. -/
def HeapSurvives (st : HeapState) (mem : Memory) : Prop :=
  (∀ bs, BlockList st.heap.mem st.heap.heapStart bs → BlockList mem st.heap.heapStart bs) ∧
  ∀ e ∈ st.live, ∀ x, e.1.toNat ≤ x → x < e.1.toNat + e.2.toNat → mem x = st.heap.mem x

/-- All that the test does to the memory. -/
theorem testPhase4Memory_mem (cr0 cr3 : UInt32) (t : Tests) :
    (testPhase4Memory cr0 cr3 t).mem =
      (t.mem.store 0x00200000 4 0x12345678).store 0x002FF000 4 0x87654321 := by
  simp only [testPhase4Memory, Tests.check_mem, Tests.write]
  split <;> simp only [Tests.check_mem, Tests.pass_mem, Tests.title_mem] <;> rfl

variable {st : HeapState} {cs : List Chunk} {m₀ : Memory} {calls : List HeapOp}

/-- The size field of the heap's first block after the test. -/
theorem selfTest_first_size (h : HeapValid 0x00200000 0x00300000 st cs) (cr0 cr3 : UInt32)
    (t : Tests) : blockSize (testPhase4Memory cr0 cr3 t).mem st.heap.heapStart = 0x12345678 := by
  have hstart : st.heap.heapStart.toNat = 0x00200000 := by
    rw [h.heapStart]
    rfl
  rw [blockSize, hstart, testPhase4Memory_mem, Memory.load_store_disjoint (by decide),
    Memory.load_store]
  rfl

/-- No block of the heap is that large. -/
theorem HeapValid.not_survives (h : HeapValid 0x00200000 0x00300000 st cs) (cr0 cr3 : UInt32)
    (t : Tests) : ¬ HeapSurvives st (testPhase4Memory cr0 cr3 t).mem := by
  rintro ⟨hsame, -⟩
  have hlist := h.start_link ▸ h.laid.blockList (by decide) (by decide)
  have hlist' := hsame _ hlist
  cases hcs : cs with
  | nil => exact absurd hcs h.nonempty
  | cons c rest =>
    have hlaid := h.laid
    rw [hcs] at hlaid
    have hend := hlaid.stop_eq
    rw [span_cons] at hend
    rw [hcs, blocksFrom] at hlist'
    have hsize := congrArg BlockHeader.size (blockList_cons hlist').1
    rw [selfTest_first_size h] at hsize
    have hnat := congrArg UInt32.toNat hsize
    rw [toNat_ptr hlaid.1.size_lt, show (0x12345678 : UInt32).toNat = 0x12345678 from rfl] at hnat
    omega

/-- **The heap never survives the test**, whatever was allocated and freed before it. -/
theorem heap_never_survives
    (hrun : Run HeapStep ⟨kmallocInit m₀ 0x00200000 0x00100000, []⟩ calls st)
    (cr0 cr3 : UInt32) (totalPass totalFail : Nat) (log : List String) :
    ¬ HeapSurvives st
      (testPhase4Memory cr0 cr3 ⟨st.heap.mem, totalPass, totalFail, log⟩).mem := by
  obtain ⟨cs, h⟩ := run_heapValid (by decide) (by decide) (by decide) hrun
  exact h.not_survives cr0 cr3 _

/-- The heap of `kernel_main`, on a zeroed memory. -/
def bootHeap : Heap := kmallocInit (fun _ => 0) 0x00200000 0x00100000

/-- The fresh heap, with paging off: its one block of 1048564 bytes is said to have
0x12345678 after the test. -/
theorem boot_heap_damaged :
    BlockList bootHeap.mem bootHeap.heapStart [⟨0x00200000, 0x000FFFF4, 1, 0⟩] ∧
      blockSize (testPhase4Memory 0x00000011 0 ⟨bootHeap.mem, 0, 0, []⟩).mem bootHeap.heapStart =
        0x12345678 ∧
      ¬ HeapSurvives ⟨bootHeap, []⟩
        (testPhase4Memory 0x00000011 0 ⟨bootHeap.mem, 0, 0, []⟩).mem := by
  have h := kernelHeap_valid fun _ => 0
  exact ⟨h.start_link ▸ h.laid.blockList (by decide) (by decide), selfTest_first_size h _ _ _,
    h.not_survives _ _ _⟩

theorem heap_never_survives_first : ∃ st,
    HeapStep ⟨bootHeap, []⟩ (.malloc 8) st ∧
      ¬ HeapSurvives st (testPhase4Memory 0x00000011 0 ⟨st.heap.mem, 0, 0, []⟩).mem := by
  obtain ⟨ptr, mem, cs, hret, -⟩ := kmalloc_valid (by decide) (by decide)
    (kernelHeap_valid fun _ => 0) 8
  have hstep := HeapStep.malloc _ hret
  exact ⟨_, hstep, heap_never_survives (Run.nil.snoc hstep) _ _ _ _ _⟩

end OsKernel
