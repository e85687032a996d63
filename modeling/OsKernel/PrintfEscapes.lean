import Mathlib.Data.List.TakeWhile
import OsKernel.PrintfNumbers

/-! # The numbers in colour escapes

The digit loop of `handle_ansi` computes the decimal value of its digits in an `int`.  It
never checks how long the number gets: from 2^31 on the `int` overflows.
-/
namespace OsKernel

/-- The test of the digit loop. -/
def isDecimal (c : UInt8) : Bool := decide (0x30 ≤ c ∧ c ≤ 0x39)

/-- `c - '0'` -/
def digitOf (c : UInt8) : Nat := c.toNat - 0x30

/-- The decimal value of a string of digits, of any size. -/
def escapeValue (digits : List UInt8) : Nat := readDigits 10 0 (digits.map digitOf)

/-- The value of a string of digits in an `int`; `none` when it overflows. -/
def checkedValue (digits : List UInt8) : Option Nat :=
  if escapeValue digits < 2 ^ 31 then some (escapeValue digits) else none

/-- `handle_ansi`, where `code` says what the digits leave in the accumulator; `none` is
undefined behaviour. -/
def handleAnsiBy (code : List UInt8 → Option Nat) :
    List UInt8 → Option (Option (List VgaCall × List UInt8))
  | [] => none
  | c :: rest =>
    if c ≠ 0x5B then some none
    else
      match rest.dropWhile isDecimal with
      | [] => none
      | d :: rest' =>
        match code (rest.takeWhile isDecimal) with
        | none => none
        | some n => if d = 0x6D then some (some (ansiColor n, d :: rest')) else some none

/-- The foreground colour an escape selects. -/
def selectedColour (code : Nat) : Option UInt8 :=
  if code = 0 then some 0x0F
  else if 30 ≤ code then
    ([0x00, 0x04, 0x02, 0x06, 0x01, 0x05, 0x03, 0x07] : List UInt8)[code - 30]?
  else none

/-- The characters of a string of digits. -/
def digitText (digits : List (Fin 10)) : List UInt8 :=
  digits.map fun d : Fin 10 => decimalChar d.val

variable {code : Nat} {c : UInt8} {digits rest : List UInt8}

/-! An escape opens with no directive, and its digits end at the `m`. -/

theorem esc_ne_percent : (0x1B : UInt8) ≠ 0x25 := by decide

theorem bracket_ne_percent : (0x5B : UInt8) ≠ 0x25 := by decide

theorem isDecimal_m : isDecimal 0x6D = false := rfl

theorem ansiColor_eq (code : Nat) :
    ansiColor code = (selectedColour code).toList.map .setColor := by
  have hsmall : ∀ n < 38, ansiColor n = (selectedColour n).toList.map .setColor := by decide
  by_cases hcode : code < 38
  · exact hsmall code hcode
  · have hnone : selectedColour code = none := by
      rw [selectedColour, if_neg (by omega), if_pos (by omega)]
      exact List.getElem?_eq_none (by change 8 ≤ code - 30; omega)
    rw [hnone]
    unfold ansiColor
    split <;> first | omega | rfl

/-- Reading more digits does not make a number smaller. -/
theorem le_readDigits (acc : Nat) (ds : List Nat) : acc ≤ readDigits 10 acc ds := by
  induction ds generalizing acc with
  | nil => exact le_rfl
  | cons d ds ih => exact le_trans (by omega) (ih (acc * 10 + d))

/-- **The digit loop** ends behind the digits, with their value, if that fits. -/
theorem ansiCode_digits (hcode : code < 2 ^ 31) (hdigits : ∀ d ∈ digits, isDecimal d = true)
    (hc : isDecimal c = false) :
    ansiCode code (digits ++ c :: rest) =
      if readDigits 10 code (digits.map digitOf) < 2 ^ 31 then
        some (readDigits 10 code (digits.map digitOf), c :: rest)
      else none := by
  induction digits generalizing code with
  | nil =>
    have hstop : ¬ (0x30 ≤ c ∧ c ≤ 0x39) := of_decide_eq_false hc
    rw [List.nil_append, ansiCode, if_neg hstop]
    exact (if_pos hcode).symm
  | cons d digits ih =>
    have hd : 0x30 ≤ d ∧ d ≤ 0x39 := of_decide_eq_true (hdigits d List.mem_cons_self)
    rw [List.cons_append, ansiCode, if_pos hd, List.map_cons, readDigits_cons]
    change (if code * 10 + digitOf d < 2 ^ 31 then _ else _) = _
    split_ifs with hfit hlt hlt
    · exact (ih hfit fun e he => hdigits e (List.mem_cons_of_mem d he)).trans (if_pos hlt)
    · exact (ih hfit fun e he => hdigits e (List.mem_cons_of_mem d he)).trans (if_neg hlt)
    · exact absurd ((le_readDigits _ _).trans_lt hlt) hfit
    · rfl

theorem ansiCode_all (hdigits : ∀ d ∈ digits, isDecimal d = true) :
    ansiCode code digits = none := by
  induction digits generalizing code with
  | nil => rfl
  | cons d digits ih =>
    have hd : 0x30 ≤ d ∧ d ≤ 0x39 := of_decide_eq_true (hdigits d List.mem_cons_self)
    rw [ansiCode, if_pos hd]
    dsimp only
    split_ifs
    · exact ih fun e he => hdigits e (List.mem_cons_of_mem d he)
    · rfl

/-- A text is all digits, or goes on after its first digits. -/
theorem digits_split (text : List UInt8) :
    (∀ d ∈ text, isDecimal d = true) ∨
      ∃ digits c rest, text = digits ++ c :: rest ∧ (∀ d ∈ digits, isDecimal d = true) ∧
        isDecimal c = false := by
  induction text with
  | nil => exact Or.inl (by simp)
  | cons d text ih =>
    by_cases hd : isDecimal d = true
    · rcases ih with hall | ⟨digits, c, rest, rfl, hdigits, hc⟩
      · exact Or.inl (List.forall_mem_cons.mpr ⟨hd, hall⟩)
      · exact Or.inr ⟨d :: digits, c, rest, rfl, List.forall_mem_cons.mpr ⟨hd, hdigits⟩, hc⟩
    · exact Or.inr ⟨[], d, text, rfl, by simp, by simpa using hd⟩

theorem takeWhile_digits (hdigits : ∀ d ∈ digits, isDecimal d = true)
    (hc : isDecimal c = false) : (digits ++ c :: rest).takeWhile isDecimal = digits := by
  rw [List.takeWhile_append_of_pos hdigits, List.takeWhile_cons_of_neg (by simp [hc]),
    List.append_nil]

theorem dropWhile_digits (hdigits : ∀ d ∈ digits, isDecimal d = true)
    (hc : isDecimal c = false) : (digits ++ c :: rest).dropWhile isDecimal = c :: rest := by
  rw [List.dropWhile_append_of_pos hdigits, List.dropWhile_cons_of_neg (by simp [hc])]

/-- `handle_ansi` on an opening bracket and digits. -/
theorem handleAnsiBy_digits (value : List UInt8 → Option Nat)
    (hdigits : ∀ d ∈ digits, isDecimal d = true) (hc : isDecimal c = false) :
    handleAnsiBy value (0x5B :: (digits ++ c :: rest)) =
      (value digits).bind fun n =>
        if c = 0x6D then some (some (ansiColor n, c :: rest)) else some none := by
  rw [handleAnsiBy, if_neg (not_not.mpr rfl), takeWhile_digits hdigits hc,
    dropWhile_digits hdigits hc]
  cases value digits <;> rfl

/-- The model of `handle_ansi` takes an overflow for undefined. -/
theorem handleAnsi_eq (text : List UInt8) : handleAnsi text = handleAnsiBy checkedValue text := by
  cases text with
  | nil => rfl
  | cons o rest =>
    by_cases ho : o = 0x5B
    · subst ho
      rcases digits_split rest with hall | ⟨digits, c, rest, rfl, hdigits, hc⟩
      · have hnil : rest.dropWhile isDecimal = [] := List.dropWhile_eq_nil_iff.mpr hall
        rw [handleAnsi, if_neg (not_not.mpr rfl), ansiCode_all hall, handleAnsiBy,
          if_neg (not_not.mpr rfl), hnil]
      · rw [handleAnsiBy_digits _ hdigits hc, handleAnsi, if_neg (not_not.mpr rfl),
          ansiCode_digits (by decide) hdigits hc]
        rw [checkedValue, escapeValue]
        by_cases hfit : readDigits 10 0 (digits.map digitOf) < 2 ^ 31
        · rw [if_pos hfit, if_pos hfit, Option.bind_some]
          split_ifs with hm
          · rw [hm]
            rfl
          · split
            case h_1 heq => exact absurd (List.cons.inj (Prod.mk.inj (Option.some.inj heq)).2).1 hm
            case h_2 => rfl
            case h_3 heq => cases heq
        · rw [if_neg hfit, if_neg hfit]
          rfl
    · rw [handleAnsi, if_pos ho, handleAnsiBy, if_pos ho]

/-! ## Codes -/

/-- The number that a string of digits stands for. -/
def digitValue (digits : List (Fin 10)) : Nat := readDigits 10 0 (digits.map Fin.val)

theorem isDecimal_decimalChar : ∀ d : Fin 10, isDecimal (decimalChar d) = true := by decide

theorem digitOf_decimalChar : ∀ d : Fin 10, digitOf (decimalChar d) = d := by decide

theorem isDecimal_digitText (ds : List (Fin 10)) : ∀ c ∈ digitText ds, isDecimal c = true := by
  intro c hc
  obtain ⟨d, -, rfl⟩ := List.mem_map.mp hc
  exact isDecimal_decimalChar d

theorem escapeValue_digitText (ds : List (Fin 10)) :
    escapeValue (digitText ds) = digitValue ds := by
  have hmap : (digitText ds).map digitOf = ds.map Fin.val := by
    rw [digitText, List.map_map]
    exact List.map_congr_left fun d _ => digitOf_decimalChar d
  rw [escapeValue, hmap, digitValue]

theorem selectedColour_eq_none {n : Nat} :
    selectedColour n = none ↔ ¬ (n = 0 ∨ 30 ≤ n ∧ n ≤ 37) := by
  rw [selectedColour]
  split_ifs with hzero hge
  · simp [hzero]
  · rw [List.getElem?_eq_none_iff]
    change 8 ≤ n - 30 ↔ _
    omega
  · simp only [true_iff]
    omega

/-- `handle_ansi` on a complete escape. -/
theorem handleAnsi_escape (ds : List (Fin 10)) (rest : List UInt8) :
    handleAnsi (0x5B :: (digitText ds ++ 0x6D :: rest)) =
      if digitValue ds < 2 ^ 31 then
        some (some ((selectedColour (digitValue ds)).toList.map .setColor, 0x6D :: rest))
      else none := by
  rw [handleAnsi_eq, handleAnsiBy_digits _ (isDecimal_digitText ds) isDecimal_m, checkedValue,
    escapeValue_digitText]
  by_cases hfit : digitValue ds < 2 ^ 31
  · rw [if_pos hfit, if_pos hfit, Option.bind_some, if_pos rfl, ansiColor_eq]
  · rw [if_neg hfit, if_neg hfit, Option.bind_none]

/-- **When escape codes are read as numbers.**  On `ESC [`, any string of digits and `m`,
`handle_ansi` comes to its end without an overflow, changing the colour if and only if the
value of the digits is 0 or 30 to 37, and then to the colour of that code, exactly when
the value is below 2^31. -/
theorem escape_code_iff (ds : List (Fin 10)) (rest : List UInt8) :
    (∃ calls, handleAnsi (0x5B :: (digitText ds ++ 0x6D :: rest)) =
        some (some (calls, 0x6D :: rest)) ∧
      (calls ≠ [] ↔ digitValue ds = 0 ∨ 30 ≤ digitValue ds ∧ digitValue ds ≤ 37) ∧
      calls = (selectedColour (digitValue ds)).toList.map .setColor) ↔
    digitValue ds < 2 ^ 31 := by
  rw [handleAnsi_escape]
  constructor
  · rintro ⟨calls, heq, -⟩
    by_contra hover
    rw [if_neg hover] at heq
    cases heq
  · intro hfit
    refine ⟨_, if_pos hfit, ?_, rfl⟩
    rw [Ne, List.map_eq_nil_iff, Option.toList_eq_nil_iff, selectedColour_eq_none, not_not]

/-- The digits of 2^32 + 30 overflow. -/
theorem escape_code_overflow :
    digitValue [4, 2, 9, 4, 9, 6, 7, 3, 2, 6] = 2 ^ 32 + 30 ∧
      handleAnsi (0x5B :: (digitText [4, 2, 9, 4, 9, 6, 7, 3, 2, 6] ++ [0x6D, 0])) = none := by
  decide

end OsKernel
