import OsKernel.ByteMemory
import OsKernel.Runs

/-! # The kernel heap (`kmalloc.c`)

A pointer is a 32-bit address and `NULL` is 0.  Block headers are 12 bytes in the
very memory the clients write: `size` at offset 0, `is_free` at offset 4 (with three
bytes of padding after it) and `next` at offset 8.  The loops are given by their
bodies; `Returns` says which value a call ends with.
-/
namespace OsKernel

/-- A 32-bit pointer. -/
abbrev Ptr := UInt32

/-- `sizeof(block_header_t)` -/
def headerSize : UInt32 := 12

/-! ## Fields of `block_header_t` -/

/-- `block->size` -/
def blockSize (mem : Memory) (block : Ptr) : UInt32 := UInt32.ofNat (mem.load block.toNat 4)

/-- `block->is_free` -/
def blockIsFree (mem : Memory) (block : Ptr) : UInt8 := UInt8.ofNat (mem.load (block.toNat + 4) 1)

/-- `block->next` -/
def blockNext (mem : Memory) (block : Ptr) : Ptr := UInt32.ofNat (mem.load (block.toNat + 8) 4)

/-- `block->size = size` -/
def setSize (mem : Memory) (block : Ptr) (size : UInt32) : Memory :=
  mem.store block.toNat 4 size.toNat

/-- `block->is_free = isFree` -/
def setIsFree (mem : Memory) (block : Ptr) (isFree : UInt8) : Memory :=
  mem.store (block.toNat + 4) 1 isFree.toNat

/-- `block->next = next` -/
def setNext (mem : Memory) (block next : Ptr) : Memory := mem.store (block.toNat + 8) 4 next.toNat

/-! ## The allocator -/

/-- The memory, and the static variable of `kmalloc.c`. -/
structure Heap where
  heapStart : Ptr
  mem : Memory

/-- `kmalloc_init` -/
def kmallocInit (mem : Memory) (startAddr size : UInt32) : Heap :=
  let mem := setSize mem startAddr (size - headerSize)
  let mem := setIsFree mem startAddr 1
  let mem := setNext mem startAddr 0
  { heapStart := startAddr, mem := mem }

/-- Splits off what a request of `size` bytes leaves of the block, if that is more than
a header. -/
def splitBlock (mem : Memory) (current : Ptr) (size : UInt32) : Memory :=
  if blockSize mem current > size + headerSize then
    let newBlock := current + headerSize + size
    let mem := setSize mem newBlock (blockSize mem current - size - headerSize)
    let mem := setIsFree mem newBlock 1
    let mem := setNext mem newBlock (blockNext mem current)
    let mem := setSize mem current size
    setNext mem current newBlock
  else mem

/-- One turn of the loop of `kmalloc`: the next block to look at, or the value
returned and the memory left behind. -/
def kmallocTurn (mem : Memory) (size : UInt32) (current : Ptr) : Ptr ⊕ (Ptr × Memory) :=
  if current = 0 then .inr (0, mem)
  else if blockIsFree mem current ≠ 0 ∧ blockSize mem current ≥ size then
    .inr (current + headerSize, setIsFree (splitBlock mem current size) current 0)
  else .inl (blockNext mem current)

/-- `kmalloc` returns `ptr` and leaves `mem` behind. -/
def KmallocReturns (h : Heap) (size : UInt32) (ptr : Ptr) (mem : Memory) : Prop :=
  Returns (kmallocTurn h.mem size) h.heapStart (ptr, mem)

/-- One turn of the loop of `kfree`. -/
def kfreeTurn : Ptr × Memory → (Ptr × Memory) ⊕ Memory
  | (current, mem) =>
    if current ≠ 0 ∧ blockNext mem current ≠ 0 then
      if blockIsFree mem current ≠ 0 ∧ blockIsFree mem (blockNext mem current) ≠ 0 then
        let size := blockSize mem current + (headerSize + blockSize mem (blockNext mem current))
        let mem := setSize mem current size
        let mem := setNext mem current (blockNext mem (blockNext mem current))
        .inl (current, mem)
      else .inl (blockNext mem current, mem)
    else .inr mem

/-- `kfree` returns and leaves `mem` behind. -/
def KfreeReturns (h : Heap) (ptr : Ptr) (mem : Memory) : Prop :=
  if ptr = 0 then mem = h.mem
  else Returns kfreeTurn (h.heapStart, setIsFree h.mem (ptr - headerSize) 1) mem

end OsKernel
