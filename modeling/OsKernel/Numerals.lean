import Mathlib.Data.Nat.Digits.Lemmas

/-! # Numerals

A number is written in base `b` by its digits, the highest one first and without leading
zeros; zero has one digit.  Digits are read back from left to right.  A text is a numeral
when each of its characters stands for a digit.
-/
namespace OsKernel

/-- The digits of `n`, the highest one first. -/
def numeral (b n : Nat) : List Nat := if n = 0 then [0] else (Nat.digits b n).reverse

/-- The value of digits that follow the number `acc`. -/
def readDigits (b acc : Nat) (ds : List Nat) : Nat := ds.foldl (fun acc d => acc * b + d) acc

/-- The value of a text that follows the number `acc`; `none` if not all its characters
are digits. -/
def parseDigits {α : Type*} (b : Nat) (digit : α → Option Nat) : Nat → List α → Option Nat
  | acc, [] => some acc
  | acc, c :: cs => (digit c).bind fun d => parseDigits b digit (acc * b + d) cs

/-- The value of a text of at least one digit. -/
def parseNumeral {α : Type*} (b : Nat) (digit : α → Option Nat) : List α → Option Nat
  | [] => none
  | cs => parseDigits b digit 0 cs

/-- No digit zero in front of others. -/
def NoLeadingZero {α : Type*} (zero : α) (text : List α) : Prop :=
  text.head? = some zero → text = [zero]

variable {α : Type*} {b n acc : Nat} {ds : List Nat} {digit : α → Option Nat} {char : Nat → α}

theorem readDigits_eq_ofDigits (b : Nat) (ds : List Nat) :
    readDigits b 0 ds = Nat.ofDigits b ds.reverse := by
  rw [Nat.ofDigits_eq_foldr, List.foldr_reverse, readDigits]
  congr 1
  funext acc d
  rw [Nat.mul_comm, Nat.add_comm]
  rfl

theorem readDigits_zero (b : Nat) : readDigits b 0 [0] = 0 := by
  simp [readDigits]

theorem readDigits_cons (b acc d : Nat) (ds : List Nat) :
    readDigits b acc (d :: ds) = readDigits b (acc * b + d) ds := rfl

theorem numeral_lt (hb : 1 < b) : ∀ d ∈ numeral b n, d < b := by
  intro d hd
  rw [numeral] at hd
  split_ifs at hd with hn
  · rw [List.mem_singleton.mp hd]
    omega
  · exact Nat.digits_lt_base hb (List.mem_reverse.mp hd)

/-- **A numeral is read back** as the number. -/
theorem readDigits_numeral (b n : Nat) : readDigits b 0 (numeral b n) = n := by
  rw [numeral]
  split_ifs with hn
  · rw [hn]
    exact readDigits_zero b
  · rw [readDigits_eq_ofDigits, List.reverse_reverse, Nat.ofDigits_digits]

theorem numeral_ne_nil (b n : Nat) : numeral b n ≠ [] := by
  rw [numeral]
  split_ifs with hn
  · exact List.cons_ne_nil _ _
  · rw [Ne, List.reverse_eq_nil_iff, Nat.digits_eq_nil_iff_eq_zero]
    exact hn

theorem numeral_noLeadingZero (b n : Nat) : NoLeadingZero 0 (numeral b n) := by
  intro hhead
  rw [numeral] at hhead ⊢
  split_ifs at hhead ⊢ with hn
  · rfl
  · rw [List.head?_reverse] at hhead
    have hlast := Nat.getLast_digit_ne_zero b hn
    rw [List.getLast?_eq_some_getLast (Nat.digits_ne_nil_iff_ne_zero.mpr hn)] at hhead
    exact absurd (Option.some.inj hhead) hlast

/-- **Digits without leading zeros** are the numeral of what they are read as. -/
theorem numeral_readDigits (hb : 1 < b) (hne : ds ≠ []) (hlt : ∀ d ∈ ds, d < b)
    (hzero : NoLeadingZero 0 ds) : numeral b (readDigits b 0 ds) = ds := by
  by_cases hone : ds = [0]
  · rw [hone, readDigits_zero]
    rfl
  · have hhead : ds.head? ≠ some 0 := fun h => hone (hzero h)
    have hlast : ∀ h : ds.reverse ≠ [], ds.reverse.getLast h ≠ 0 := by
      intro h hlast
      rw [List.getLast_reverse] at hlast
      exact hhead (hlast ▸ List.head?_eq_some_head hne)
    have hdigits : Nat.digits b (readDigits b 0 ds) = ds.reverse := by
      rw [readDigits_eq_ofDigits]
      exact Nat.digits_ofDigits b hb ds.reverse (by simpa using hlt) hlast
    have hpos : readDigits b 0 ds ≠ 0 := by
      intro hz
      rw [hz, Nat.digits_zero] at hdigits
      exact hne (List.reverse_eq_nil_iff.mp hdigits.symm)
    rw [numeral, if_neg hpos, hdigits, List.reverse_reverse]

/-- A text of digits has the value of its digits. -/
theorem parseDigits_map (h : ∀ d ∈ ds, digit (char d) = some d) :
    parseDigits b digit acc (ds.map char) = some (readDigits b acc ds) := by
  induction ds generalizing acc with
  | nil => rfl
  | cons d ds ih =>
    rw [List.map_cons, parseDigits, h d List.mem_cons_self, Option.bind_some]
    exact ih fun e he => h e (List.mem_cons_of_mem d he)

/-- **A numeral round-trips** through its characters. -/
theorem parseNumeral_numeral (hb : 1 < b) (h : ∀ d < b, digit (char d) = some d) :
    parseNumeral b digit ((numeral b n).map char) = some n := by
  have hparse : parseDigits b digit 0 ((numeral b n).map char) = some n := by
    rw [parseDigits_map fun d hd => h d (numeral_lt hb d hd), readDigits_numeral]
  cases htext : (numeral b n).map char with
  | nil => exact absurd (List.map_eq_nil_iff.mp htext) (numeral_ne_nil b n)
  | cons c cs =>
    rw [htext] at hparse
    exact hparse

theorem NoLeadingZero.map (h : NoLeadingZero 0 ds) (hchar : ∀ d ∈ ds, char d = char 0 → d = 0) :
    NoLeadingZero (char 0) (ds.map char) := by
  intro hhead
  rw [List.head?_map] at hhead
  obtain ⟨d, hd, hzero⟩ := Option.map_eq_some_iff.mp hhead
  obtain rfl := hchar d (List.mem_of_mem_head? hd) hzero
  rw [h hd]
  rfl

end OsKernel
