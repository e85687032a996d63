import Mathlib.Algebra.BigOperators.Group.Finset.Basic
import Mathlib.Data.Nat.Count
import OsKernel.PmmBitmap
import OsKernel.Runs

/-! # The packed bitmap is a set of pages (`pmm/pmm.c`, bitmap helpers)

The helpers once more, with the integer types of the source: a page index is a `u64`, the
mask is an `unsigned int`, and the byte that is stored back is truncated to a `u8`.  A byte
outside the array is undefined behaviour, `none`.  Inside the array they are the helpers
that the manager is built on, so that what is proved of the set of free pages holds of
them.
-/
namespace OsKernel

/-- `1u << (bit & 7)` -/
def bitMask (bit : UInt64) : UInt32 := 1 <<< (bit &&& 7).toUInt32

/-- `bitmap[bit >> 3] = f(bitmap[bit >> 3])` -/
def bitmapUpdate (bitmap : Bitmap) (bit : UInt64) (f : UInt32 → UInt32) : Option Bitmap :=
  if h : (bit >>> 3).toNat < pmmBitmapBytes then
    some (bitmap.set (bit >>> 3).toNat (f bitmap[(bit >>> 3).toNat].toUInt32).toUInt8 h)
  else none

/-- `bitmap_set` -/
def bitmapSetChecked (bitmap : Bitmap) (bit : UInt64) : Option Bitmap :=
  bitmapUpdate bitmap bit fun byte => byte ||| bitMask bit

/-- `bitmap_clear` -/
def bitmapClearChecked (bitmap : Bitmap) (bit : UInt64) : Option Bitmap :=
  bitmapUpdate bitmap bit fun byte => byte &&& ~~~bitMask bit

/-- `bitmap_test`; the promoted byte is not negative. -/
def bitmapTestChecked (bitmap : Bitmap) (bit : UInt64) : Option UInt32 :=
  if h : (bit >>> 3).toNat < pmmBitmapBytes then
    some ((bitmap[(bit >>> 3).toNat].toUInt32 >>> (bit &&& 7).toUInt32) &&& 1)
  else none

/-- A call of `bitmap_set` or `bitmap_clear`. -/
inductive BitmapOp
  | set (bit : UInt64)
  | clear (bit : UInt64)
  deriving DecidableEq

namespace BitmapOp

/-- The page it is on. -/
def bit : BitmapOp → UInt64
  | set bit => bit
  | clear bit => bit

/-- The array after it. -/
def run (bitmap : Bitmap) : BitmapOp → Option Bitmap
  | set bit => bitmapSetChecked bitmap bit
  | clear bit => bitmapClearChecked bitmap bit

/-- The last call on page `j`. -/
def lastOn (j : UInt64) (ops : List BitmapOp) : Option BitmapOp :=
  (ops.filter fun op => op.bit = j).getLast?

end BitmapOp

/-- The number of clear bits of a byte. -/
def clearBitsOf (byte : UInt8) : Nat :=
  ((Finset.range 8).filter fun k => byteBit byte k = false).card

/-- The number of clear bits of the array. -/
def clearBits (bitmap : Bitmap) : Nat :=
  ∑ i ∈ Finset.range pmmBitmapBytes, clearBitsOf bitmap[i]!

/-- What a call does: it stores to one byte of the array, and the number of clear bits
changes by one, in the direction of the call, if the bit flips, and not otherwise. -/
structure BitmapOp.Effect (op : BitmapOp) (bitmap bitmap' : Bitmap) : Prop where
  inside : op.bit.toNat / 8 < pmmBitmapBytes
  bytes : ∀ i (hi : i < pmmBitmapBytes), i ≠ op.bit.toNat / 8 → bitmap'[i] = bitmap[i]
  flips : bitmapTestChecked bitmap' op.bit ≠ bitmapTestChecked bitmap op.bit →
    match op with
    | .set _ => clearBits bitmap' + 1 = clearBits bitmap
    | .clear _ => clearBits bitmap' = clearBits bitmap + 1
  keeps : bitmapTestChecked bitmap' op.bit = bitmapTestChecked bitmap op.bit →
    clearBits bitmap' = clearBits bitmap

/-! ## The 32-bit masks -/

variable {bitmap bitmap' : Bitmap} {bit j : UInt64} {op : BitmapOp} {ops : List BitmapOp}

theorem toNat_bit_index (bit : UInt64) :
    (bit >>> 3).toNat = bit.toNat / 8 ∧ (bit &&& 7).toNat = bit.toNat % 8 := by
  rw [UInt64.toNat_shiftRight, UInt64.toNat_and]
  exact bit_index bit.toNat

theorem toNat_bit_shift (bit : UInt64) : (bit &&& 7).toUInt32.toNat = bit.toNat % 8 := by
  rw [UInt64.toNat_toUInt32, (toNat_bit_index bit).2]
  omega

/-- A page of the manager has its byte in the array. -/
theorem bit_index_lt (h : bit.toNat < pmmMaxPages) : (bit >>> 3).toNat < pmmBitmapBytes := by
  rw [(toNat_bit_index bit).1]
  exact byte_index_lt h

/-- The mask, truncated to a byte, is the byte-wide one. -/
theorem toUInt8_bitMask (bit : UInt64) :
    (bitMask bit).toUInt8 = 1 <<< UInt8.ofNat (bit.toNat &&& 7) := by
  have hsmall : (bit &&& 7).toUInt32 < 8 := by
    rw [UInt32.lt_iff_toNat_lt, toNat_bit_shift]
    exact bit_lt _
  have hshift : (bit &&& 7).toUInt32.toUInt8 = UInt8.ofNat (bit.toNat &&& 7) := by
    rw [UInt64.toUInt8_toUInt32]
    exact congrArg UInt8.ofNat (UInt64.toNat_and bit 7)
  rw [bitMask, UInt32.toUInt8_shiftLeft _ _ hsmall, hshift]
  rfl

theorem bitmapUpdate_eq {f : UInt32 → UInt32} {g : UInt8 → UInt8}
    (h : bit.toNat < pmmMaxPages) (hf : ∀ byte : UInt8, (f byte.toUInt32).toUInt8 = g byte) :
    bitmapUpdate bitmap bit f =
      some (bitmap.set! (bit.toNat >>> 3) (g bitmap[bit.toNat >>> 3]!)) := by
  have hindex : (bit >>> 3).toNat = bit.toNat >>> 3 := UInt64.toNat_shiftRight bit 3
  have hset : ∀ i (hi : i < pmmBitmapBytes),
      bitmap.set i (g bitmap[i]) hi = bitmap.set! i (g bitmap[i]!) := by
    intro i hi
    rw [getElem!_pos bitmap i hi]
    exact Vector.ext fun k hk => by rw [Vector.getElem_set, Vector.getElem_set!]
  rw [bitmapUpdate, dif_pos (bit_index_lt h), hf, hset, hindex]

theorem bitmapSetChecked_eq (h : bit.toNat < pmmMaxPages) :
    bitmapSetChecked bitmap bit = some (bitmapSet bitmap bit.toNat) := by
  refine bitmapUpdate_eq (g := fun byte => byte ||| 1 <<< UInt8.ofNat (bit.toNat &&& 7)) h
    fun byte => ?_
  rw [UInt32.toUInt8_or, UInt8.toUInt8_toUInt32, toUInt8_bitMask]

theorem bitmapClearChecked_eq (h : bit.toNat < pmmMaxPages) :
    bitmapClearChecked bitmap bit = some (bitmapClear bitmap bit.toNat) := by
  refine bitmapUpdate_eq (g := fun byte => byte &&& ~~~(1 <<< UInt8.ofNat (bit.toNat &&& 7))) h
    fun byte => ?_
  rw [UInt32.toUInt8_and, UInt8.toUInt8_toUInt32, UInt32.toUInt8_not, toUInt8_bitMask]

theorem bitmapTestChecked_eq (h : bit.toNat < pmmMaxPages) :
    bitmapTestChecked bitmap bit = some (if bitmapTest bitmap bit.toNat then 1 else 0) := by
  have hlt := bit_index_lt h
  rw [bitmapTestChecked, dif_pos hlt, bitmapTest_eq, byteBit_eq]
  refine congrArg some (UInt32.toNat_inj.mp ?_)
  have hbyte : bitmap[(bit >>> 3).toNat].toUInt32.toNat = bitmap[bit.toNat / 8]!.toNat := by
    rw [UInt8.toNat_toUInt32, ← getElem!_pos bitmap _ hlt, (toNat_bit_index bit).1]
  rw [UInt32.toNat_and, UInt32.toNat_shiftRight, toNat_bit_shift, hbyte, UInt32.toNat_one,
    Nat.and_one_is_mod, Nat.shiftRight_eq_div_pow,
    Nat.mod_eq_of_lt (show bit.toNat % 8 < 32 by omega)]
  simp only [decide_eq_true_eq]
  split_ifs with hone
  · rw [hone]
    rfl
  · rw [Nat.mod_two_ne_one.mp hone]
    rfl

theorem testChecked_bit (h : bit.toNat < pmmMaxPages) :
    bitmapTestChecked bitmap bit = some 0 ∨ bitmapTestChecked bitmap bit = some 1 := by
  rw [bitmapTestChecked_eq h]
  cases bitmapTest bitmap bit.toNat with
  | false => exact Or.inl rfl
  | true => exact Or.inr rfl

theorem testChecked_eq_one (h : bit.toNat < pmmMaxPages) :
    bitmapTestChecked bitmap bit = some 1 ↔ bitmapTest bitmap bit.toNat = true := by
  rw [bitmapTestChecked_eq h]
  cases bitmapTest bitmap bit.toNat <;> decide

/-! ## The number of clear bits -/

/-- Counting in `n` blocks of `m`. -/
theorem card_filter_range_mul (P : Nat → Prop) [DecidablePred P] (m n : Nat) :
    ((Finset.range (m * n)).filter P).card =
      ∑ i ∈ Finset.range n, ((Finset.range m).filter fun k => P (m * i + k)).card := by
  induction n with
  | zero => rfl
  | succ n ih =>
    rw [Nat.mul_succ, ← Nat.count_eq_card_filter_range, Nat.count_add,
      Nat.count_eq_card_filter_range, ih, Finset.sum_range_succ, Nat.count_eq_card_filter_range]

/-- The clear bits are the free pages. -/
theorem clearBits_eq (bitmap : Bitmap) : clearBits bitmap = (freeSet bitmap).card := by
  have hpages : pmmMaxPages = 8 * pmmBitmapBytes := by
    rw [pmmMaxPages_eq, pmmBitmapBytes_eq]
  rw [freeSet, hpages, card_filter_range_mul]
  refine Finset.sum_congr rfl fun i _ => ?_
  rw [clearBitsOf]
  refine congrArg Finset.card (Finset.filter_congr fun k hk => ?_)
  have hk8 := Finset.mem_range.mp hk
  rw [bitmapTest_eq, Nat.mul_add_div (by omega), Nat.div_eq_of_lt hk8, Nat.add_zero,
    Nat.mul_add_mod, Nat.mod_eq_of_lt hk8]

section
variable {p : Nat}

theorem clearBits_bitmapSet_again (h : bitmapTest bitmap p = true) :
    clearBits (bitmapSet bitmap p) = clearBits bitmap := by
  rw [clearBits_eq, clearBits_eq, freeSet_bitmapSet, Finset.erase_eq_of_notMem (notMem_freeSet h)]

variable (hp : p < pmmMaxPages)
include hp

/-- Setting a clear bit takes one clear bit. -/
theorem clearBits_bitmapSet (h : bitmapTest bitmap p = false) :
    clearBits (bitmapSet bitmap p) + 1 = clearBits bitmap := by
  rw [clearBits_eq, clearBits_eq, freeSet_bitmapSet]
  exact Finset.card_erase_add_one (mem_freeSet.mpr ⟨hp, h⟩)

/-- Clearing a set bit gives one. -/
theorem clearBits_bitmapClear (h : bitmapTest bitmap p = true) :
    clearBits (bitmapClear bitmap p) = clearBits bitmap + 1 := by
  rw [clearBits_eq, clearBits_eq, freeSet_bitmapClear hp]
  exact Finset.card_insert_of_notMem (notMem_freeSet h)

theorem clearBits_bitmapClear_again (h : bitmapTest bitmap p = false) :
    clearBits (bitmapClear bitmap p) = clearBits bitmap := by
  rw [clearBits_eq, clearBits_eq, freeSet_bitmapClear hp,
    Finset.insert_eq_of_mem (mem_freeSet.mpr ⟨hp, h⟩)]

end

/-! ## One call -/

namespace BitmapOp

/-- The same with the helpers of the manager. -/
def result (bitmap : Bitmap) : BitmapOp → Bitmap
  | set bit => bitmapSet bitmap bit.toNat
  | clear bit => bitmapClear bitmap bit.toNat

/-- Whether a call sets. -/
def sets : BitmapOp → Bool
  | set _ => true
  | clear _ => false

theorem run_eq (h : op.bit.toNat < pmmMaxPages) : op.run bitmap = some (op.result bitmap) := by
  cases op with
  | set bit => exact bitmapSetChecked_eq h
  | clear bit => exact bitmapClearChecked_eq h

/-- A call decides its page, and leaves all others as they are. -/
theorem bitmapTest_result (op : BitmapOp) (bitmap : Bitmap) {q : Nat} (hq : q < pmmMaxPages) :
    bitmapTest (op.result bitmap) q =
      if op.bit.toNat = q then op.sets else bitmapTest bitmap q := by
  cases op with
  | set bit =>
    rw [result, bitmapTest_bitmapSet bitmap _ hq, BitmapOp.bit]
    by_cases h : bit.toNat = q
    · rw [if_pos h, decide_eq_true h, Bool.or_true, sets]
    · rw [if_neg h, decide_eq_false h, Bool.or_false]
  | clear bit =>
    rw [result, bitmapTest_bitmapClear bitmap _ hq, BitmapOp.bit]
    by_cases h : bit.toNat = q
    · rw [if_pos h, decide_eq_true h, Bool.not_true, Bool.and_false, sets]
    · rw [if_neg h, decide_eq_false h, Bool.not_false, Bool.and_true]

theorem getElem_result (op : BitmapOp) (bitmap : Bitmap) {i : Nat} (hi : i < pmmBitmapBytes)
    (hne : i ≠ op.bit.toNat / 8) : (op.result bitmap)[i] = bitmap[i] := by
  have hindex : op.bit.toNat >>> 3 ≠ i := by
    rw [(bit_index op.bit.toNat).1]
    exact hne.symm
  cases op with
  | set bit => exact Vector.getElem_set!_ne hi hindex
  | clear bit => exact Vector.getElem_set!_ne hi hindex

/-- The bit stays as it is if the call makes it what it was. -/
theorem test_result_iff (h : op.bit.toNat < pmmMaxPages) :
    bitmapTestChecked (op.result bitmap) op.bit = bitmapTestChecked bitmap op.bit ↔
      bitmapTest bitmap op.bit.toNat = op.sets := by
  rw [bitmapTestChecked_eq h, bitmapTestChecked_eq h, bitmapTest_result op bitmap h, if_pos rfl]
  cases op.sets <;> cases bitmapTest bitmap op.bit.toNat <;> decide

theorem effect_result (h : op.bit.toNat < pmmMaxPages) : op.Effect bitmap (op.result bitmap) := by
  refine ⟨byte_index_lt h, ?_, ?_, ?_⟩
  · intro i hi hne
    exact getElem_result op bitmap hi hne
  · intro hflip
    rw [Ne, test_result_iff h] at hflip
    cases op with
    | set bit => exact clearBits_bitmapSet h (Bool.eq_false_of_not_eq_true hflip)
    | clear bit => exact clearBits_bitmapClear h (Bool.eq_true_of_not_eq_false hflip)
  · intro hsame
    rw [test_result_iff h] at hsame
    cases op with
    | set bit => exact clearBits_bitmapSet_again hsame
    | clear bit => exact clearBits_bitmapClear_again h hsame

end BitmapOp

/-! ## Any calls -/

theorem lastOn_concat (j : UInt64) (ops : List BitmapOp) (op : BitmapOp) :
    BitmapOp.lastOn j (ops ++ [op]) =
      if op.bit = j then some op else BitmapOp.lastOn j ops := by
  rw [BitmapOp.lastOn, List.filter_append, List.filter_cons, List.filter_nil]
  split_ifs with hdecide h h
  · exact List.getLast?_concat
  · exact absurd (of_decide_eq_true hdecide) h
  · exact absurd (decide_eq_true h) hdecide
  · rw [List.append_nil, BitmapOp.lastOn]

theorem bit_of_lastOn (h : BitmapOp.lastOn j ops = some op) : op.bit = j :=
  of_decide_eq_true (List.mem_filter.mp (List.mem_of_getLast? h)).2

/-- The last call on a page is a set, or there is none and the bit was set. -/
theorem lastOn_sets_iff (j : UInt64) (ops : List BitmapOp) (b : Bool) :
    ((BitmapOp.lastOn j ops).map BitmapOp.sets).getD b = true ↔
      BitmapOp.lastOn j ops = some (.set j) ∨ BitmapOp.lastOn j ops = none ∧ b = true := by
  cases hlast : BitmapOp.lastOn j ops with
  | none => simp
  | some op =>
    have hbit := bit_of_lastOn hlast
    cases op with
    | set bit =>
      obtain rfl : bit = j := hbit
      simp [BitmapOp.sets]
    | clear bit => simp [BitmapOp.sets]

/-- **Any calls**: they are all inside the array, and the last one on a page decides it. -/
theorem run_ops (bitmap : Bitmap) (h : ∀ op ∈ ops, op.bit.toNat < pmmMaxPages) :
    ∃ bitmap', ops.foldlM BitmapOp.run bitmap = some bitmap' ∧
      ∀ j : UInt64, j.toNat < pmmMaxPages →
        bitmapTest bitmap' j.toNat =
          ((BitmapOp.lastOn j ops).map BitmapOp.sets).getD (bitmapTest bitmap j.toNat) := by
  induction ops using List.reverseRecOn with
  | nil => exact ⟨bitmap, rfl, fun j _ => rfl⟩
  | append_singleton ops op ih =>
    obtain ⟨hops, hop⟩ := List.forall_mem_append.mp h
    obtain ⟨mid, hmid, htest⟩ := ih hops
    have hlt := hop op List.mem_cons_self
    refine ⟨op.result mid, ?_, fun j hj => ?_⟩
    · rw [List.foldlM_append, hmid]
      change [op].foldlM BitmapOp.run mid = _
      rw [List.foldlM_cons, BitmapOp.run_eq hlt]
      rfl
    · rw [BitmapOp.bitmapTest_result op mid hj, lastOn_concat, htest j hj]
      by_cases hpage : op.bit = j
      · rw [if_pos (congrArg UInt64.toNat hpage), if_pos hpage]
        rfl
      · rw [if_neg (mt UInt64.toNat_inj.mp hpage), if_neg hpage]

/-- **The packed bitmap is a set of pages.**  Any calls of `bitmap_set` and `bitmap_clear`
on pages of the manager stay inside the array; then `bitmap_test` is 0 or 1 for each page,
and 1 exactly if the last call on the page was a set, or if there was none and it was 1
before.  Each call, on any contents of the array, changes at most one byte, and the number
of clear bits by one exactly if it flips the bit. -/
theorem bitmap_is_page_set (bitmap : Bitmap) :
    (∀ ops : List BitmapOp, (∀ op ∈ ops, op.bit.toNat < pmmMaxPages) →
      ∃ bitmap', ops.foldlM BitmapOp.run bitmap = some bitmap' ∧
        ∀ j : UInt64, j.toNat < pmmMaxPages →
          (bitmapTestChecked bitmap' j = some 0 ∨ bitmapTestChecked bitmap' j = some 1) ∧
          (bitmapTestChecked bitmap' j = some 1 ↔
            BitmapOp.lastOn j ops = some (.set j) ∨
              BitmapOp.lastOn j ops = none ∧ bitmapTestChecked bitmap j = some 1)) ∧
    ∀ op : BitmapOp, op.bit.toNat < pmmMaxPages →
      ∃ bitmap', op.run bitmap = some bitmap' ∧ op.Effect bitmap bitmap' := by
  refine ⟨?_, ?_⟩
  · intro ops hops
    obtain ⟨bitmap', hrun, htest⟩ := run_ops bitmap hops
    refine ⟨bitmap', hrun, ?_⟩
    intro j hj
    refine ⟨testChecked_bit hj, ?_⟩
    rw [testChecked_eq_one hj, testChecked_eq_one hj, htest j hj]
    exact lastOn_sets_iff j ops _
  · intro op hop
    exact ⟨_, BitmapOp.run_eq hop, BitmapOp.effect_result hop⟩

/-- Three calls on two pages of one byte. -/
theorem bitmap_is_page_set_byte : ∃ bitmap',
    [BitmapOp.clear 3, .clear 4, .set 3].foldlM BitmapOp.run (Vector.replicate _ 0xFF) =
      some bitmap' ∧
    bitmapTestChecked bitmap' 3 = some 1 ∧ bitmapTestChecked bitmap' 4 = some 0 := by
  have hpages : ∀ op ∈ [BitmapOp.clear 3, .clear 4, .set 3], op.bit.toNat < pmmMaxPages := by
    simp [BitmapOp.bit, pmmMaxPages_eq]
  obtain ⟨bitmap', hrun, htest⟩ := (bitmap_is_page_set (Vector.replicate _ 0xFF)).1 _ hpages
  have hthree := htest 3 (by decide)
  obtain ⟨hvalue, hone⟩ := htest 4 (by decide)
  refine ⟨bitmap', hrun, hthree.2.mpr (Or.inl rfl), hvalue.resolve_right fun h => ?_⟩
  rcases hone.mp h with hset | ⟨hnone, -⟩
  · cases hset
  · cases hnone

end OsKernel
