import Mathlib.Data.Set.Card

/-! # Overwriting a stretch of a map

`Overwrites keys vals n E E'` says that `E'` is `E` with the first `n` keys set to the
first `n` values.  A loop that writes one key a turn establishes it, as long as no
key comes twice (`Overwrites.succ`).  For a partial map, the size of the domain moves
by the number of keys that were outside it (`Overwrites.ncard_some`) or inside it
(`Overwrites.ncard_none`) before.
-/
namespace OsKernel

variable {K V : Type*} {keys : Nat → K} {n : Nat}

/-- `E'` is `E` with the first `n` keys overwritten. -/
structure Overwrites (keys : Nat → K) (vals : Nat → V) (n : Nat) (E E' : K → V) : Prop where
  written : ∀ i, i < n → E' (keys i) = vals i
  others : ∀ k, (∀ i, i < n → k ≠ keys i) → E' k = E k

section Write
variable {vals : Nat → V} {E E' : K → V}

theorem Overwrites.zero (keys : Nat → K) (vals : Nat → V) (E : K → V) :
    Overwrites keys vals 0 E E :=
  ⟨fun _ hi => absurd hi (Nat.not_lt_zero _), fun _ _ => rfl⟩

/-- One turn more writes one key more. -/
theorem Overwrites.succ [DecidableEq K] (h : Overwrites keys vals n E E')
    (hnew : ∀ i, i < n → keys i ≠ keys n) :
    Overwrites keys vals (n + 1) E (Function.update E' (keys n) (vals n)) where
  written := by
    intro i hi
    by_cases hlast : i = n
    · rw [hlast, Function.update_self]
    · rw [Function.update_of_ne (hnew i (by omega)), h.written i (by omega)]
  others := by
    intro k hk
    rw [Function.update_of_ne (hk n (Nat.lt_succ_self n))]
    exact h.others k fun i hi => hk i (by omega)

/-- Nothing changes exactly when the keys held their new values before. -/
theorem Overwrites.eq_iff (h : Overwrites keys vals n E E') :
    E' = E ↔ ∀ i, i < n → E (keys i) = vals i := by
  constructor
  · rintro rfl
    exact h.written
  · intro hold
    funext k
    by_cases hk : ∀ i, i < n → k ≠ keys i
    · exact h.others k hk
    · push Not at hk
      obtain ⟨i, hi, rfl⟩ := hk
      rw [h.written i hi, hold i hi]

end Write

section Domain
variable [Finite K] {E E' : K → Option V} (hinj : Set.InjOn keys {i | i < n})
include hinj

omit [Finite K] in
/-- The keys among the first `n` that satisfy `P`, counted by their numbers. -/
theorem ncard_keys (P : K → Prop) :
    {k | (∃ i, i < n ∧ k = keys i) ∧ P k}.ncard = {i | i < n ∧ P (keys i)}.ncard := by
  have himage : {k | (∃ i, i < n ∧ k = keys i) ∧ P k} = keys '' {i | i < n ∧ P (keys i)} := by
    ext k
    constructor
    · rintro ⟨⟨i, hi, rfl⟩, hP⟩
      exact ⟨i, ⟨hi, hP⟩, rfl⟩
    · rintro ⟨i, ⟨hi, hP⟩, rfl⟩
      exact ⟨⟨i, hi, rfl⟩, hP⟩
  rw [himage]
  exact (hinj.mono fun i hi => hi.1).ncard_image

/-- Setting keys adds those that were not in the domain. -/
theorem Overwrites.ncard_some {vals : Nat → V}
    (h : Overwrites keys (fun i => some (vals i)) n E E') :
    {k | E' k ≠ none}.ncard = {k | E k ≠ none}.ncard + {i | i < n ∧ E (keys i) = none}.ncard := by
  have hsplit : {k | E' k ≠ none} =
      {k | E k ≠ none} ∪ {k | (∃ i, i < n ∧ k = keys i) ∧ E k = none} := by
    ext k
    by_cases hk : ∃ i, i < n ∧ k = keys i
    · obtain ⟨i, hi, rfl⟩ := hk
      have hkey : ∃ j, j < n ∧ keys i = keys j := ⟨i, hi, rfl⟩
      simp [h.written i hi, hkey, em']
    · have hother := h.others k fun i hi he => hk ⟨i, hi, he⟩
      simp [hother, hk]
  rw [hsplit, Set.ncard_union_eq, ncard_keys hinj]
  exact Set.disjoint_left.mpr fun k hk hk' => hk hk'.2

/-- Removing keys takes away those that were in the domain. -/
theorem Overwrites.ncard_none (h : Overwrites keys (fun _ => none) n E E') :
    {k | E' k ≠ none}.ncard + {i | i < n ∧ E (keys i) ≠ none}.ncard = {k | E k ≠ none}.ncard := by
  have hsplit : {k | E k ≠ none} =
      {k | E' k ≠ none} ∪ {k | (∃ i, i < n ∧ k = keys i) ∧ E k ≠ none} := by
    ext k
    by_cases hk : ∃ i, i < n ∧ k = keys i
    · obtain ⟨i, hi, rfl⟩ := hk
      have hkey : ∃ j, j < n ∧ keys i = keys j := ⟨i, hi, rfl⟩
      simp [h.written i hi, hkey]
    · have hother := h.others k fun i hi he => hk ⟨i, hi, he⟩
      simp [hother, hk]
  rw [hsplit, Set.ncard_union_eq, ncard_keys hinj]
  refine Set.disjoint_left.mpr fun k hk hk' => ?_
  obtain ⟨⟨i, hi, rfl⟩, -⟩ := hk'
  exact hk (h.written i hi)

end Domain

end OsKernel
