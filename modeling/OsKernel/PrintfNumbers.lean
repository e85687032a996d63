import OsKernel.Numerals
import OsKernel.Printf

/-! # The numbers `printf` prints

`print_number` produces the digits from the lowest on, and prints its buffer backwards;
`print_hex` and `print_ptr` go through the eight digits from the highest on, and print
none of the leading zeros but the last one.  Either way the characters are those of the
numeral, and are read back as the number.
-/
namespace OsKernel

/-- A decimal digit. -/
def decimalChar (d : Nat) : UInt8 := UInt8.ofNat (0x30 + d)

/-- The digit a character stands for. -/
def decimalDigit (c : UInt8) : Option Nat :=
  if 0x30 ≤ c ∧ c ≤ 0x39 then some (c.toNat - 0x30) else none

/-- A hexadecimal digit, in upper case. -/
def hexUpper (d : Nat) : UInt8 := hexChar (UInt32.ofNat d)

/-- The hexadecimal digit a character stands for, in upper case only. -/
def hexUpperDigit (c : UInt8) : Option Nat :=
  if 0x30 ≤ c ∧ c ≤ 0x39 then some (c.toNat - 0x30)
  else if 0x41 ≤ c ∧ c ≤ 0x46 then some (c.toNat - 0x41 + 10)
  else none

/-- A number in decimal. -/
def decimalText (v : Int) : List UInt8 :=
  if v < 0 then 0x2D :: (numeral 10 v.natAbs).map decimalChar
  else (numeral 10 v.natAbs).map decimalChar

/-- A number in hexadecimal. -/
def hexText (n : Nat) : List UInt8 := (numeral 16 n).map hexUpper

/-- The value of a decimal with an optional minus sign. -/
def parseDecimal : List UInt8 → Option Int
  | [] => none
  | c :: cs =>
    if c = 0x2D then (parseNumeral 10 decimalDigit cs).map fun n : Nat => -(n : Int)
    else (parseNumeral 10 decimalDigit (c :: cs)).map fun n : Nat => (n : Int)

/-- The digits of a decimal. -/
def unsignedPart (text : List UInt8) : List UInt8 :=
  if text.head? = some 0x2D then text.tail else text

variable {num : UInt32} {k n : Nat}

/-! ## Digits and their characters -/

theorem decimalDigit_char : ∀ d < 10, decimalDigit (decimalChar d) = some d := by decide

theorem hexUpperDigit_char : ∀ d < 16, hexUpperDigit (hexUpper d) = some d := by decide

theorem decimalChar_ne_minus : ∀ d < 10, decimalChar d ≠ 0x2D := by decide

theorem decimalChar_eq_zero : ∀ d < 10, decimalChar d = decimalChar 0 → d = 0 := by decide

theorem hexUpper_eq_zero : ∀ d < 16, hexUpper d = hexUpper 0 → d = 0 := by decide

theorem decimal_noLeadingZero (n : Nat) :
    NoLeadingZero 0x30 ((numeral 10 n).map decimalChar) :=
  (numeral_noLeadingZero 10 n).map fun d hd =>
    decimalChar_eq_zero d (numeral_lt Nat.one_lt_ofNat d hd)

theorem hex_noLeadingZero (n : Nat) : NoLeadingZero 0x30 (hexText n) :=
  (numeral_noLeadingZero 16 n).map fun d hd => hexUpper_eq_zero d (numeral_lt Nat.one_lt_ofNat d hd)

theorem head_decimal_ne_minus (n : Nat) :
    ((numeral 10 n).map decimalChar).head? ≠ some 0x2D := by
  intro hhead
  rw [List.head?_map] at hhead
  obtain ⟨d, hd, hminus⟩ := Option.map_eq_some_iff.mp hhead
  exact decimalChar_ne_minus d (numeral_lt Nat.one_lt_ofNat d (List.mem_of_mem_head? hd)) hminus

theorem unsignedPart_decimalText (v : Int) :
    unsignedPart (decimalText v) = (numeral 10 v.natAbs).map decimalChar := by
  rw [decimalText, unsignedPart]
  by_cases hv : v < 0
  · rw [if_pos hv, List.head?_cons, if_pos rfl, List.tail_cons]
  · rw [if_neg hv, if_neg (head_decimal_ne_minus _)]

/-- A decimal is made of digits and perhaps a minus sign. -/
theorem mem_decimalText {c : UInt8} {v : Int} (h : c ∈ decimalText v) :
    c = 0x2D ∨ ∃ d < 10, c = decimalChar d := by
  have hdigits : c ∈ (numeral 10 v.natAbs).map decimalChar → ∃ d < 10, c = decimalChar d := by
    intro hc
    obtain ⟨d, hd, rfl⟩ := List.mem_map.mp hc
    exact ⟨d, numeral_lt Nat.one_lt_ofNat d hd, rfl⟩
  rw [decimalText] at h
  split_ifs at h
  · exact (List.mem_cons.mp h).imp_right hdigits
  · exact Or.inr (hdigits h)

theorem mem_hexText {c : UInt8} (h : c ∈ hexText n) : ∃ d < 16, c = hexUpper d := by
  obtain ⟨d, hd, rfl⟩ := List.mem_map.mp h
  exact ⟨d, numeral_lt Nat.one_lt_ofNat d hd, rfl⟩

/-- **Decimals** are read back. -/
theorem parseDecimal_decimalText (v : Int) : parseDecimal (decimalText v) = some v := by
  have hparse : parseNumeral 10 decimalDigit ((numeral 10 v.natAbs).map decimalChar) =
      some v.natAbs := parseNumeral_numeral Nat.one_lt_ofNat decimalDigit_char
  rw [decimalText]
  split_ifs with hv
  · rw [parseDecimal, if_pos rfl, hparse, Option.map_some]
    congr 1
    omega
  · have hhead := head_decimal_ne_minus v.natAbs
    generalize (numeral 10 v.natAbs).map decimalChar = text at hparse hhead ⊢
    cases text with
    | nil => cases hparse
    | cons c cs =>
      rw [parseDecimal, if_neg fun hc => hhead (congrArg some hc), hparse, Option.map_some]
      congr 1
      omega

/-- **Hexadecimals** are read back. -/
theorem parseNumeral_hexText (n : Nat) : parseNumeral 16 hexUpperDigit (hexText n) = some n :=
  parseNumeral_numeral Nat.one_lt_ofNat hexUpperDigit_char

/-! ## `print_number` -/

theorem numberBuf_eq (n : Nat) : numberBuf n = (Nat.digits 10 n).map decimalChar := by
  induction n using Nat.strongRecOn with
  | ind n ih =>
    rw [numberBuf]
    split_ifs with hn
    · rw [hn, Nat.digits_zero]
      rfl
    · rw [ih (n / 10) (by omega), Nat.digits_def' Nat.one_lt_ofNat (Nat.pos_of_ne_zero hn)]
      rfl

/-- The buffer of `print_number`, printed backwards. -/
theorem numberBuf_reverse (hn : n ≠ 0) :
    (numberBuf n).reverse = (numeral 10 n).map decimalChar := by
  rw [numberBuf_eq, numeral, if_neg hn, List.map_reverse]

/-- **The buffer suffices**: ten digits are enough for 32 bits. -/
theorem numberBuf_length_le (hn : n < 2 ^ 32) : (numberBuf n).length ≤ 10 := by
  rw [numberBuf_eq, List.length_map]
  exact (Nat.digits_length_le_iff Nat.one_lt_ofNat n).mpr (hn.trans (by decide))

theorem signed_of_lt (h : num.toNat < 2 ^ 31) : num.toInt32.toInt = num.toNat := by
  change num.toBitVec.toInt = _
  rw [BitVec.toInt_eq_toNat_cond, if_pos (by change 2 * num.toNat < _; omega)]
  rfl

theorem signed_of_ge (h : 2 ^ 31 ≤ num.toNat) :
    num.toInt32.toInt = (num.toNat : Int) - 2 ^ 32 := by
  change num.toBitVec.toInt = _
  rw [BitVec.toInt_eq_toNat_cond, if_neg (by change ¬ 2 * num.toNat < _; omega)]
  rfl

/-- `~unum + 1` is the absolute value of a negative `int`. -/
theorem not_add_one_toNat (h : num ≠ 0) : (~~~num + 1).toNat = 2 ^ 32 - num.toNat := by
  have hlt := num.toNat_lt
  have hpos : 0 < num.toNat := Nat.pos_of_ne_zero fun hz => h (UInt32.toNat_inj.mp hz)
  rw [UInt32.toNat_add, UInt32.toNat_not]
  change (2 ^ 32 - 1 - num.toNat + 1) % 2 ^ 32 = _
  omega

/-- **`print_number`** prints the decimal of its argument. -/
theorem printNumber_eq (num : UInt32) :
    printNumber num = (decimalText num.toInt32.toInt).map .putChar := by
  rw [printNumber]
  split_ifs with hzero hneg
  · rw [hzero]
    rfl
  · have hlt := num.toNat_lt
    have habs : (num.toInt32.toInt).natAbs = (~~~num + 1).toNat := by
      rw [signed_of_ge hneg, not_add_one_toNat hzero]
      omega
    rw [decimalText, if_pos (by rw [signed_of_ge hneg]; omega), habs, List.map_cons,
      numberBuf_reverse (by rw [not_add_one_toNat hzero]; omega)]
  · have hne : num.toNat ≠ 0 := fun hz => hzero (UInt32.toNat_inj.mp hz)
    have hsigned := signed_of_lt (Nat.not_le.mp hneg)
    rw [decimalText, if_neg (by rw [hsigned]; omega), hsigned, Int.natAbs_natCast,
      numberBuf_reverse hne]

/-! ## `print_hex` -/

/-- The shifts of the lowest `k` digits, the highest one first. -/
def hexShifts (k : Nat) : List UInt32 := (List.range k).reverse.map fun j => UInt32.ofNat (4 * j)

theorem hexShifts_succ (k : Nat) :
    hexShifts (k + 1) = UInt32.ofNat (4 * k) :: hexShifts k := by
  rw [hexShifts, List.range_succ, List.reverse_append]
  rfl

/-- The digit at a shift. -/
theorem hexDigit_toNat (num : UInt32) (hk : k < 8) :
    ((num >>> UInt32.ofNat (4 * k)) &&& 0xF).toNat = num.toNat / 16 ^ k % 16 := by
  have hshift : (UInt32.ofNat (4 * k)).toNat = 4 * k :=
    UInt32.toNat_ofNat_of_lt' (by change 4 * k < 2 ^ 32; omega)
  rw [UInt32.toNat_and, UInt32.toNat_shiftRight, hshift, Nat.mod_eq_of_lt (by omega),
    Nat.shiftRight_eq_div_pow, Nat.pow_mul]
  exact Nat.and_two_pow_sub_one_eq_mod _ 4

/-- The calls that print digits. -/
def hexCalls (ds : List Nat) : List VgaCall := ds.map fun d => .putChar (hexUpper d)

theorem hexCalls_cons_toNat (digit : UInt32) (ds : List Nat) :
    hexCalls (digit.toNat :: ds) = .putChar (hexChar digit) :: hexCalls ds := by
  rw [hexCalls, List.map_cons, hexUpper, UInt32.ofNat_toNat]
  rfl

/-- Which digits are printed when none has been so far. -/
theorem hexDigit_shown (num : UInt32) (hk : k < 8) :
    ((num >>> UInt32.ofNat (4 * k)) &&& 0xF ≠ 0 ∨ false = true ∨ UInt32.ofNat (4 * k) = 0) ↔
      num.toNat / 16 ^ k % 16 ≠ 0 ∨ k = 0 := by
  have hshift : UInt32.ofNat (4 * k) = 0 ↔ k = 0 := by
    rw [← UInt32.toNat_inj, UInt32.toNat_ofNat_of_lt' (by change 4 * k < 2 ^ 32; omega)]
    change 4 * k = 0 ↔ k = 0
    omega
  rw [← hexDigit_toNat num hk, hshift, Ne, Ne, ← UInt32.toNat_inj]
  simp

/-- Once a digit is printed, all others are. -/
theorem hexDigits_started (num : UInt32) (hk : k ≤ 8) :
    ∃ ds, hexDigits num (hexShifts k) true = hexCalls ds ∧ (∀ d ∈ ds, d < 16) ∧
      ∀ acc, readDigits 16 acc ds = acc * 16 ^ k + num.toNat % 16 ^ k := by
  induction k with
  | zero => exact ⟨[], rfl, by simp, fun acc => by simp [readDigits, Nat.mod_one]⟩
  | succ k ih =>
    obtain ⟨ds, hcalls, hlt, hread⟩ := ih (by omega)
    have hdigit := hexDigit_toNat num (k := k) (by omega)
    refine ⟨num.toNat / 16 ^ k % 16 :: ds, ?_, ?_, fun acc => ?_⟩
    · rw [hexShifts_succ, hexDigits, if_pos (Or.inr (Or.inl rfl)), hcalls, ← hdigit]
      rw [hexCalls_cons_toNat]
    · exact List.forall_mem_cons.mpr ⟨Nat.mod_lt _ Nat.ofNat_pos, hlt⟩
    · rw [readDigits_cons, hread, Nat.mod_pow_succ]
      ring

/-- A digit that is printed, and those after it. -/
theorem hexDigits_shown (num : UInt32) (hk : k < 8)
    (hshow : num.toNat / 16 ^ k % 16 ≠ 0 ∨ k = 0) :
    ∃ ds, hexDigits num (hexShifts (k + 1)) false = hexCalls ds ∧ ds ≠ [] ∧ (∀ d ∈ ds, d < 16) ∧
      NoLeadingZero 0 ds ∧ readDigits 16 0 ds = num.toNat % 16 ^ (k + 1) := by
  obtain ⟨ds, hcalls, hlt, hread⟩ := hexDigits_started num hk.le
  refine ⟨num.toNat / 16 ^ k % 16 :: ds, ?_, List.cons_ne_nil _ _, ?_, fun hhead => ?_, ?_⟩
  · rw [hexShifts_succ, hexDigits, if_pos ((hexDigit_shown num hk).mpr hshow), hcalls,
      ← hexDigit_toNat num hk, hexCalls_cons_toNat]
  · exact List.forall_mem_cons.mpr ⟨Nat.mod_lt _ Nat.ofNat_pos, hlt⟩
  · -- a zero is printed only as the last digit
    have hzero : num.toNat / 16 ^ k % 16 = 0 := Option.some.inj hhead
    obtain rfl : k = 0 := hshow.resolve_left (not_not.mpr hzero)
    obtain rfl : ds = [] := List.map_eq_nil_iff.mp hcalls.symm
    rw [hzero]
  · rw [readDigits_cons, hread, Nat.mod_pow_succ]
    ring

/-- **The digits from the first one on** that is not zero, or is the last one. -/
theorem hexDigits_fresh (num : UInt32) (hk : k < 8) :
    ∃ ds, hexDigits num (hexShifts (k + 1)) false = hexCalls ds ∧ ds ≠ [] ∧ (∀ d ∈ ds, d < 16) ∧
      NoLeadingZero 0 ds ∧ readDigits 16 0 ds = num.toNat % 16 ^ (k + 1) := by
  induction k with
  | zero => exact hexDigits_shown num hk (Or.inr rfl)
  | succ k ih =>
    by_cases hshow : num.toNat / 16 ^ (k + 1) % 16 ≠ 0
    · exact hexDigits_shown num hk (Or.inl hshow)
    · obtain ⟨ds, hcalls, hds, hlt, hlead, hread⟩ := ih (by omega)
      have hskip : ¬ (num.toNat / 16 ^ (k + 1) % 16 ≠ 0 ∨ k + 1 = 0) :=
        not_or.mpr ⟨hshow, Nat.succ_ne_zero k⟩
      refine ⟨ds, ?_, hds, hlt, hlead, ?_⟩
      · rw [hexShifts_succ, hexDigits, if_neg (mt (hexDigit_shown num hk).mp hskip), hcalls]
      · rw [hread, Nat.mod_pow_succ (k := k + 1), not_not.mp hshow, Nat.mul_zero]
        rfl

/-- **The loop of `print_hex`** prints the hexadecimal of its argument. -/
theorem hexDigits_eq (num : UInt32) :
    hexDigits num [28, 24, 20, 16, 12, 8, 4, 0] false = (hexText num.toNat).map .putChar := by
  obtain ⟨ds, hcalls, hne, hlt, hlead, hread⟩ := hexDigits_fresh num (k := 7) (by decide)
  have hnum := numeral_readDigits Nat.one_lt_ofNat hne hlt hlead
  have hlt32 : num.toNat < 16 ^ (7 + 1) := num.toNat_lt
  rw [hread, Nat.mod_eq_of_lt hlt32] at hnum
  rw [hexText, hnum, List.map_map]
  exact hcalls

theorem printHex_eq (num : UInt32) : printHex num = (hexText num.toNat).map .putChar :=
  hexDigits_eq num

theorem printPtr_eq (ptr : UInt32) :
    printPtr ptr = .write (bytes "0x") :: (hexText ptr.toNat).map .putChar := by
  rw [printPtr, hexDigits_eq]

/-- **Numbers round-trip.**  What `print_number` prints is read back as the signed value of
its argument, without leading zeros, and with a minus sign exactly when it is negative;
what `print_hex` prints, and `print_ptr` after its prefix, as the unsigned value in
upper-case hexadecimal, without leading zeros; and no value of `unum` needs more than the
32 bytes of the buffer. -/
theorem number_output_round_trips (num : UInt32) :
    (∃ text, printNumber num = text.map .putChar ∧
      parseDecimal text = some num.toInt32.toInt ∧ NoLeadingZero 0x30 (unsignedPart text) ∧
      (text.head? = some 0x2D ↔ num.toInt32.toInt < 0)) ∧
    (∃ text, printHex num = text.map .putChar ∧
      printPtr num = .write (bytes "0x") :: text.map .putChar ∧
      parseNumeral 16 hexUpperDigit text = some num.toNat ∧ NoLeadingZero 0x30 text) ∧
    ∀ unum : UInt32, (numberBuf unum.toNat).length ≤ 32 := by
  refine ⟨⟨_, printNumber_eq num, parseDecimal_decimalText _, ?_, ?_⟩,
    ⟨_, printHex_eq num, printPtr_eq num, parseNumeral_hexText _, hex_noLeadingZero _⟩,
    fun unum => ?_⟩
  · rw [unsignedPart_decimalText]
    exact decimal_noLeadingZero _
  · rw [decimalText]
    split_ifs with hneg
    · simp [hneg]
    · simp only [head_decimal_ne_minus, hneg]
  · exact (numberBuf_length_le unum.toNat_lt).trans (by decide)

end OsKernel
