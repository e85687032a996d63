import Mathlib.Algebra.Order.Ring.Int

/-! # Word expressions that do not wrap

An expression over 32-bit words has a value modulo `2 ^ 32`, which is what the machine
computes, and a value as an integer, which is what its author meant.  The two agree on
every part of an expression exactly if no sum overflows and no difference underflows.
-/
namespace OsKernel

/-- Sums and differences of 32-bit words. -/
inductive WordExpr
  | word (v : UInt32)
  | add (e f : WordExpr)
  | sub (e f : WordExpr)

namespace WordExpr

/-- The value computed, modulo `2 ^ 32`. -/
def value : WordExpr → UInt32
  | word v => v
  | add e f => e.value + f.value
  | sub e f => e.value - f.value

/-- The value of the same expression on integers. -/
def exact : WordExpr → Int
  | word v => v.toNat
  | add e f => e.exact + f.exact
  | sub e f => e.exact - f.exact

/-- Every part of the expression, and the whole of it, has its integer value. -/
def NoWrap : WordExpr → Prop
  | word _ => True
  | add e f => e.NoWrap ∧ f.NoWrap ∧ ((add e f).value.toNat : Int) = (add e f).exact
  | sub e f => e.NoWrap ∧ f.NoWrap ∧ ((sub e f).value.toNat : Int) = (sub e f).exact

variable {e f : WordExpr}

theorem noWrap_word (v : UInt32) : (word v).NoWrap := trivial

theorem NoWrap.value_eq (h : e.NoWrap) : (e.value.toNat : Int) = e.exact := by
  cases e with
  | word v => rfl
  | add e f => exact h.2.2
  | sub e f => exact h.2.2

/-- A sum below `2 ^ 32` does not overflow. -/
theorem NoWrap.add (he : e.NoWrap) (hf : f.NoWrap) (h : e.exact + f.exact < 2 ^ 32) :
    (add e f).NoWrap := by
  refine ⟨he, hf, ?_⟩
  have h1 := he.value_eq
  have h2 := hf.value_eq
  rw [value, exact, UInt32.toNat_add, Nat.mod_eq_of_lt (by omega)]
  omega

/-- A difference of a number and a smaller one does not underflow. -/
theorem NoWrap.sub (he : e.NoWrap) (hf : f.NoWrap) (h : f.exact ≤ e.exact) :
    (sub e f).NoWrap := by
  refine ⟨he, hf, ?_⟩
  have h1 := he.value_eq
  have h2 := hf.value_eq
  rw [value, exact, UInt32.toNat_sub_of_le _ _ (UInt32.le_iff_toNat_le.mpr (by omega))]
  omega

end WordExpr
end OsKernel
