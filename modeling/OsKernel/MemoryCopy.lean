import OsKernel.Kmalloc

/-! # Copying memory (`lib/memory.c`, `memcpy` and `memmove`)

Both functions store one byte at a time, so that a byte of the source may be overwritten
before it is read.  Which bytes are still the old ones when they are read is in the step
lemmas of `Memory.copy`, one for each way a loop may go through the ranges.  Pointers
wrap around; a range may end with the last byte of the address space.
-/
namespace OsKernel

/-- `*d = *s` -/
def copyByte (mem : Memory) (d s : Ptr) : Memory := Function.update mem d.toNat (mem s.toNat)

/-- `memcpy`: what it returns, and the memory. -/
def memcpy (mem : Memory) (dest src n : UInt32) : Ptr × Memory :=
  (dest, (List.range n.toNat).foldl
    (fun mem i => copyByte mem (dest + UInt32.ofNat i) (src + UInt32.ofNat i)) mem)

/-- `while (n--) *d++ = *s++;` -/
def copyUp : Nat → Ptr → Ptr → Memory → Memory
  | 0, _, _, mem => mem
  | n + 1, d, s, mem => copyUp n (d + 1) (s + 1) (copyByte mem d s)

/-- `while (n--) *--d = *--s;` -/
def copyDown : Nat → Ptr → Ptr → Memory → Memory
  | 0, _, _, mem => mem
  | n + 1, d, s, mem => copyDown n (d - 1) (s - 1) (copyByte mem (d - 1) (s - 1))

/-- `memmove`: what it returns, and the memory. -/
def memmove (mem : Memory) (dest src n : UInt32) : Ptr × Memory :=
  if dest < src then (dest, copyUp n.toNat dest src mem)
  else (dest, copyDown n.toNat (dest + n) (src + n) mem)

/-! ## The loops -/

variable {mem : Memory} {dest src n : UInt32} {a b k : Nat}

theorem copyByte_ofNat (mem : Memory) (ha : a < 2 ^ 32) (hb : b < 2 ^ 32) :
    copyByte mem (UInt32.ofNat a) (UInt32.ofNat b) = Function.update mem a (mem b) := by
  rw [copyByte, UInt32.toNat_ofNat_of_lt' ha, UInt32.toNat_ofNat_of_lt' hb]

/-- Going up, no byte is overwritten before it is read if the target starts below the source,
or behind its end. -/
theorem copyUp_eq (mem : Memory) (ha : a + k ≤ 2 ^ 32) (hb : b + k ≤ 2 ^ 32)
    (h : a ≤ b ∨ b + k ≤ a) :
    copyUp k (UInt32.ofNat a) (UInt32.ofNat b) mem = mem.copy a b k := by
  induction k generalizing a b mem with
  | zero => exact (mem.copy_zero a b).symm
  | succ k ih =>
    rw [copyUp, copyByte_ofNat mem (by omega) (by omega)]
    have hnext : ∀ p : Nat, UInt32.ofNat p + 1 = UInt32.ofNat (p + 1) :=
      fun p => (UInt32.ofNat_add p 1).symm
    rw [hnext, hnext, ih _ (by omega) (by omega) (by omega)]
    exact Memory.copy_cons (by omega)

/-- Going down, if the target starts above the source, or ends before its start. -/
theorem copyDown_eq (mem : Memory) (ha : a + k ≤ 2 ^ 32) (hb : b + k ≤ 2 ^ 32)
    (h : b ≤ a ∨ a + k ≤ b) :
    copyDown k (UInt32.ofNat (a + k)) (UInt32.ofNat (b + k)) mem = mem.copy a b k := by
  induction k generalizing mem with
  | zero => exact (mem.copy_zero a b).symm
  | succ k ih =>
    have hback : ∀ p : Nat, UInt32.ofNat (p + (k + 1)) - 1 = UInt32.ofNat (p + k) := by
      intro p
      rw [← Nat.add_assoc, UInt32.ofNat_add]
      exact UInt32.add_sub_cancel _ _
    rw [copyDown, hback, hback, copyByte_ofNat mem (by omega) (by omega),
      ih _ (by omega) (by omega) (by omega)]
    exact Memory.copy_last (by omega)

/-- The turns of `memcpy` go up. -/
theorem memcpy_turns (hdest : dest.toNat + k ≤ 2 ^ 32) (hsrc : src.toNat + k ≤ 2 ^ 32)
    (h : dest.toNat ≤ src.toNat ∨ src.toNat + k ≤ dest.toNat) :
    (List.range k).foldl
      (fun mem i => copyByte mem (dest + UInt32.ofNat i) (src + UInt32.ofNat i)) mem =
        mem.copy dest.toNat src.toNat k := by
  induction k with
  | zero => exact (mem.copy_zero _ _).symm
  | succ k ih =>
    have haddr : ∀ p : Ptr, p + UInt32.ofNat k = UInt32.ofNat (p.toNat + k) := by
      intro p
      rw [UInt32.ofNat_add, UInt32.ofNat_toNat]
    rw [List.range_succ, List.foldl_concat, ih (by omega) (by omega) (by omega), haddr, haddr,
      copyByte_ofNat _ (by omega) (by omega)]
    exact Memory.copy_snoc (by omega)

/-! ## The functions -/

theorem memcpy_eq (hdest : dest.toNat + n.toNat ≤ 2 ^ 32) (hsrc : src.toNat + n.toNat ≤ 2 ^ 32)
    (h : dest.toNat ≤ src.toNat ∨ src.toNat + n.toNat ≤ dest.toNat) :
    memcpy mem dest src n = (dest, mem.copy dest.toNat src.toNat n.toNat) := by
  rw [memcpy, memcpy_turns hdest hsrc h]

/-- `memmove` picks the direction that keeps the source. -/
theorem memmove_eq (mem : Memory) (hdest : dest.toNat + n.toNat ≤ 2 ^ 32)
    (hsrc : src.toNat + n.toNat ≤ 2 ^ 32) :
    memmove mem dest src n = (dest, mem.copy dest.toNat src.toNat n.toNat) := by
  rw [memmove]
  split_ifs with hlt
  · have hup := UInt32.lt_iff_toNat_lt.mp hlt
    have h := copyUp_eq mem hdest hsrc (Or.inl (Nat.le_of_lt hup))
    rw [UInt32.ofNat_toNat, UInt32.ofNat_toNat] at h
    rw [h]
  · have hdown := UInt32.le_iff_toNat_le.mp (UInt32.not_lt.mp hlt)
    have h := copyDown_eq mem hdest hsrc (Or.inl hdown)
    rw [UInt32.ofNat_add, UInt32.ofNat_add, UInt32.ofNat_toNat, UInt32.ofNat_toNat,
      UInt32.ofNat_toNat] at h
    rw [h]

/-- **`memmove` under any overlap.**  The `n` bytes at `dest` are those that were at `src`
before the call, and no other byte changes.  `memcpy` does the same if the ranges are
disjoint, and if `dest` is not above `src`. -/
theorem memmove_correct (mem : Memory) (dest src n : UInt32)
    (hdest : dest.toNat + n.toNat ≤ 2 ^ 32) (hsrc : src.toNat + n.toNat ≤ 2 ^ 32) :
    (memmove mem dest src n).1 = dest ∧
      (∀ i < n.toNat, (memmove mem dest src n).2 (dest.toNat + i) = mem (src.toNat + i)) ∧
      (∀ x, x < dest.toNat ∨ dest.toNat + n.toNat ≤ x → (memmove mem dest src n).2 x = mem x) ∧
      ((dest.toNat + n.toNat ≤ src.toNat ∨ src.toNat + n.toNat ≤ dest.toNat) ∨ dest ≤ src →
        memcpy mem dest src n = memmove mem dest src n) := by
  rw [memmove_eq mem hdest hsrc]
  refine ⟨rfl, ?_, ?_, ?_⟩
  · intro i hi
    exact Memory.copy_inside hi
  · intro x hx
    exact Memory.copy_outside hx
  · intro h
    rw [UInt32.le_iff_toNat_le] at h
    exact memcpy_eq hdest hsrc (by omega)

/-- Five bytes moved up by two, the third of them onto the byte that the first store would
overwrite, and five moved down by two. -/
theorem memmove_correct_by_two :
    (memmove (fun x => UInt8.ofNat x) 0x1002 0x1000 5).2 0x1004 = 2 ∧
      memcpy (fun x => UInt8.ofNat x) 0x1000 0x1002 5 =
        memmove (fun x => UInt8.ofNat x) 0x1000 0x1002 5 := by
  obtain ⟨-, hinside, -, -⟩ :=
    memmove_correct (fun x => UInt8.ofNat x) 0x1002 0x1000 5 (by decide) (by decide)
  obtain ⟨-, -, -, hcopy⟩ :=
    memmove_correct (fun x => UInt8.ofNat x) 0x1000 0x1002 5 (by decide) (by decide)
  exact ⟨hinside 2 (by decide), hcopy (Or.inr (by decide))⟩

/-- Upwards, `memcpy` reads bytes that it has overwritten. -/
example : (memcpy (fun x => UInt8.ofNat x) 0x1002 0x1000 5).2 0x1004 = 0 := by decide

end OsKernel
