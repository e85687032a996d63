import Mathlib.Algebra.Order.Ring.Int
import Mathlib.Data.List.Basic

/-! # Comparing lists at the first difference

A loop that compares two sequences stops at the first position where they differ and
answers the difference of the values there (`lexDiff`).  The sign of that answer is the
lexicographic order of the lists (`LexSign`) if neither can be a proper prefix of the
other: because they have one length, or because both end with a marker that is below all
elements before it.
-/
namespace OsKernel

variable {α : Type*}

/-- The difference of the values at the first position where two lists differ, or 0. -/
def lexDiff [DecidableEq α] (value : α → Int) : List α → List α → Int
  | a :: as, b :: bs => if a = b then lexDiff value as bs else value a - value b
  | _, _ => 0

/-- The sign of `r` is the order of the lists. -/
structure LexSign [LT α] (r : Int) (as bs : List α) : Prop where
  neg : r < 0 ↔ as < bs
  zero : r = 0 ↔ as = bs
  pos : 0 < r ↔ bs < as

section Difference
variable [DecidableEq α] {a b : α} {as bs : List α} {value : α → Int} {k : Nat}

theorem lexDiff_nil_left (value : α → Int) (bs : List α) : lexDiff value [] bs = 0 := by
  cases bs <;> rfl

theorem lexDiff_nil_right (value : α → Int) (as : List α) : lexDiff value as [] = 0 := by
  cases as <;> rfl

theorem lexDiff_cons_self (value : α → Int) (a : α) (as bs : List α) :
    lexDiff value (a :: as) (a :: bs) = lexDiff value as bs := if_pos rfl

theorem lexDiff_cons_ne (value : α → Int) (h : a ≠ b) (as bs : List α) :
    lexDiff value (a :: as) (b :: bs) = value a - value b := if_neg h

theorem lexDiff_singleton (value : α → Int) (a b : α) (bs : List α) :
    lexDiff value [a] (b :: bs) = value a - value b := by
  by_cases hab : a = b
  · rw [hab, lexDiff_cons_self, lexDiff_nil_left, sub_self]
  · exact lexDiff_cons_ne value hab [] bs

theorem lexDiff_self (value : α → Int) (as : List α) : lexDiff value as as = 0 := by
  induction as with
  | nil => rfl
  | cons a as ih => rw [lexDiff_cons_self, ih]

/-- What lies behind the end of the shorter list does not count. -/
theorem lexDiff_take (h : min as.length bs.length ≤ k) :
    lexDiff value (as.take k) (bs.take k) = lexDiff value as bs := by
  induction as generalizing bs k with
  | nil => rw [List.take_nil, lexDiff_nil_left, lexDiff_nil_left]
  | cons a as ih =>
    cases bs with
    | nil => rw [List.take_nil, lexDiff_nil_right, lexDiff_nil_right]
    | cons b bs =>
      rw [List.length_cons, List.length_cons, Nat.succ_min_succ] at h
      cases k with
      | zero => exact absurd h (Nat.not_succ_le_zero _)
      | succ k =>
        rw [List.take_succ_cons, List.take_succ_cons]
        by_cases hab : a = b
        · rw [hab, lexDiff_cons_self, lexDiff_cons_self, ih (Nat.le_of_succ_le_succ h)]
        · rw [lexDiff_cons_ne value hab, lexDiff_cons_ne value hab]

end Difference

/-! ## The sign of the difference -/

section Sign
variable [LT α] {a b z : α} {as bs : List α} {value : α → Int} {r : Int}
  (hlt : ∀ a b, value a < value b ↔ a < b) (hinj : Function.Injective value)

theorem LexSign.nil : LexSign 0 ([] : List α) [] :=
  ⟨iff_of_false (lt_irrefl 0) (List.not_lt_nil []), iff_of_true rfl rfl,
    iff_of_false (lt_irrefl 0) (List.not_lt_nil [])⟩

include hlt in
/-- Equal elements leave it to what follows. -/
theorem LexSign.cons_self (h : LexSign r as bs) (a : α) : LexSign r (a :: as) (a :: bs) := by
  have hirrefl : ¬ a < a := fun ha => lt_irrefl _ ((hlt a a).mpr ha)
  have hcons : ∀ cs ds : List α, a :: cs < a :: ds ↔ cs < ds := by
    intro cs ds
    rw [List.cons_lt_cons_iff, or_iff_right hirrefl, and_iff_right rfl]
  refine ⟨?_, ?_, ?_⟩
  · rw [hcons, h.neg]
  · rw [List.cons_inj_right, h.zero]
  · rw [hcons, h.pos]

include hlt hinj in
/-- Different elements decide. -/
theorem LexSign.cons_ne (h : a ≠ b) (as bs : List α) :
    LexSign (value a - value b) (a :: as) (b :: bs) := by
  have hvalue : value a ≠ value b := fun he => h (hinj he)
  refine ⟨?_, ?_, ?_⟩
  · rw [sub_lt_zero, hlt, List.cons_lt_cons_iff]
    exact (or_iff_left fun hand => h hand.1).symm
  · rw [sub_eq_zero]
    exact iff_of_false hvalue fun he => h (List.cons.inj he).1
  · rw [sub_pos, hlt, List.cons_lt_cons_iff]
    exact (or_iff_left fun hand => h hand.1.symm).symm

variable [DecidableEq α]
include hlt hinj

/-- **Lists of one length.** -/
theorem lexSign_lexDiff (hlen : as.length = bs.length) : LexSign (lexDiff value as bs) as bs := by
  induction as generalizing bs with
  | nil =>
    obtain rfl := List.length_eq_zero_iff.mp hlen.symm
    exact .nil
  | cons a as ih =>
    cases bs with
    | nil => cases hlen
    | cons b bs =>
      by_cases hab : a = b
      · rw [← hab, lexDiff_cons_self]
        exact .cons_self hlt (ih (Nat.succ.inj hlen)) a
      · rw [lexDiff_cons_ne value hab]
        exact .cons_ne hlt hinj hab as bs

/-- **Lists that end with a marker below their elements.** -/
theorem lexSign_terminated (ha : ∀ a ∈ as, z < a) (hb : ∀ b ∈ bs, z < b) :
    LexSign (lexDiff value (as ++ [z]) (bs ++ [z])) as bs := by
  have hne : ∀ c, z < c → z ≠ c := by
    rintro c hc rfl
    exact lt_irrefl _ ((hlt z z).mpr hc)
  induction as generalizing bs with
  | nil =>
    cases bs with
    | nil =>
      rw [lexDiff_self]
      exact .nil
    | cons b bs =>
      have hzb := hb b List.mem_cons_self
      have hdiff := (hlt z b).mpr hzb
      rw [List.nil_append, List.cons_append, lexDiff_cons_ne value (hne b hzb)]
      exact ⟨iff_of_true (by omega) (List.nil_lt_cons b bs), iff_of_false (by omega) (by simp),
        iff_of_false (by omega) (List.not_lt_nil _)⟩
  | cons a as ih =>
    obtain ⟨hza, has⟩ := List.forall_mem_cons.mp ha
    cases bs with
    | nil =>
      have hdiff := (hlt z a).mpr hza
      rw [List.nil_append, List.cons_append, lexDiff_cons_ne value (hne a hza).symm]
      exact ⟨iff_of_false (by omega) (List.not_lt_nil _), iff_of_false (by omega) (by simp),
        iff_of_true (by omega) (List.nil_lt_cons a as)⟩
    | cons b bs =>
      rw [List.cons_append, List.cons_append]
      by_cases hab : a = b
      · rw [← hab, lexDiff_cons_self]
        exact .cons_self hlt (ih has fun c hc => hb c (List.mem_cons_of_mem b hc)) a
      · rw [lexDiff_cons_ne value hab]
        exact .cons_ne hlt hinj hab as bs

end Sign
end OsKernel
