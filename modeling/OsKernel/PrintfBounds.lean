import Mathlib.Algebra.Group.Nat.Even
import OsKernel.PrintfFormat

/-! # Where `vprintf` stops

`vprintf` looks at the character behind a `%` without asking whether it is the `NUL`: a
format with a lone `%` at its end is read past its end.  Every other format is read to its
`NUL` and no further.  Which `%` is a lone one is a question of counting: a run of them is
taken in pairs.

The digits of an escape are added up in an `int`.  The bounds do not depend on what is left
in it, so they are proved of `vprintfBy` for any reading of the digits.
-/
namespace OsKernel

/-! ## What a format asks for -/

/-- The characters behind the `%` of a format. -/
def directives : List UInt8 → List UInt8
  | [] => []
  | [_] => []
  | c :: d :: rest => if c = 0x25 then d :: directives rest else directives (d :: rest)

/-- The digits that the escapes of a format give to `handle_ansi`. -/
def escapeCodes : List UInt8 → List (List UInt8)
  | [] => []
  | [_] => []
  | c :: d :: rest =>
    if c = 0x25 then escapeCodes rest
    else if c = 0x1B ∧ d = 0x5B then rest.takeWhile isDecimal :: escapeCodes (d :: rest)
    else escapeCodes (d :: rest)

/-- Every `%` of a format that is not taken by another one has a character behind it. -/
def Complete : List UInt8 → Prop
  | [] => True
  | [c] => c ≠ 0x25
  | c :: d :: rest => if c = 0x25 then Complete rest else Complete (d :: rest)

/-- The length of the run of `%` a format ends with. -/
def trailingPercents (body : List UInt8) : Nat := (body.reverse.takeWhile (· = 0x25)).length

/-- The character passed for a directive, if it is a `%c`. -/
def Directive.passed : Directive → List UInt8
  | .c v => [v.toUInt8]
  | _ => []

/-- **The arguments match the directives**; `chars` are the characters among them that are
passed for a `%c`. -/
inductive Fits : List UInt8 → List Arg → List UInt8 → Prop
  | done (args : List Arg) : Fits [] args []
  | directive {ds : List UInt8} {args : List Arg} {chars : List UInt8} (dir : Directive) :
      Fits ds args chars → Fits (dir.letter :: ds) (dir.arg :: args) (dir.passed ++ chars)
  | other {d : UInt8} {ds : List UInt8} {args : List Arg} {chars : List UInt8} :
      ¬ IsLetter d → Fits ds args chars → Fits (d :: ds) args chars

/-- The number of `NUL` characters that calls draw. -/
def nulCount (calls : List VgaCall) : Nat := (calls.flatMap VgaCall.characters).count 0

section Scan
variable {c d : UInt8} {rest body text : List UInt8}

theorem directives_cons (hc : c ≠ 0x25) (rest : List UInt8) :
    directives (c :: rest) = directives rest := by
  cases rest with
  | nil => rfl
  | cons d rest => exact if_neg hc

theorem complete_cons (hc : c ≠ 0x25) (rest : List UInt8) :
    Complete (c :: rest) ↔ Complete rest := by
  cases rest with
  | nil => exact iff_true_intro hc
  | cons d rest => exact Iff.of_eq (if_neg hc)

theorem escapeCodes_cons (hc : c ≠ 0x25) (hesc : ¬ (c = 0x1B ∧ rest.head? = some 0x5B)) :
    escapeCodes (c :: rest) = escapeCodes rest := by
  cases rest with
  | nil => rfl
  | cons d rest =>
    rw [escapeCodes, if_neg hc, if_neg]
    rintro ⟨rfl, rfl⟩
    exact hesc ⟨rfl, rfl⟩

/-- Characters that begin nothing. -/
theorem scan_quiet (h : ∀ c ∈ text, c ≠ 0x25 ∧ c ≠ 0x1B) (rest : List UInt8) :
    directives (text ++ rest) = directives rest ∧
      escapeCodes (text ++ rest) = escapeCodes rest ∧
      (Complete (text ++ rest) ↔ Complete rest) := by
  induction text with
  | nil => exact ⟨rfl, rfl, Iff.rfl⟩
  | cons c text ih =>
    obtain ⟨⟨hpercent, hesc⟩, htext⟩ := List.forall_mem_cons.mp h
    obtain ⟨hdir, hcodes, hcomplete⟩ := ih htext
    rw [List.cons_append, directives_cons hpercent, complete_cons hpercent,
      escapeCodes_cons hpercent fun h => hesc h.1]
    exact ⟨hdir, hcodes, hcomplete⟩

theorem trailingPercents_all (h : ∀ d ∈ body, d = 0x25) : trailingPercents body = body.length := by
  rw [trailingPercents, List.takeWhile_eq_self_iff.mpr (by simpa using h), List.length_reverse]

/-- A run of `%` at the end does not see the characters before it. -/
theorem trailingPercents_cons (h : ¬ ∀ d ∈ c :: rest, d = 0x25) :
    trailingPercents (c :: rest) = trailingPercents rest := by
  rw [trailingPercents, trailingPercents, List.reverse_cons, List.takeWhile_append]
  by_cases hall : ∀ d ∈ rest, d = 0x25
  · have hc : c ≠ 0x25 := fun hc => h (List.forall_mem_cons.mpr ⟨hc, hall⟩)
    have hself : rest.reverse.takeWhile (· = 0x25) = rest.reverse :=
      List.takeWhile_eq_self_iff.mpr (by simpa using hall)
    rw [hself, if_pos rfl, List.takeWhile_cons_of_neg (by simp [hc]), List.append_nil]
  · refine congrArg List.length (if_neg fun hlen => hall fun d hd => ?_)
    have hself := (List.takeWhile_prefix (· = 0x25) (l := rest.reverse)).eq_of_length hlen
    simpa using List.takeWhile_eq_self_iff.mp hself d (List.mem_reverse.mpr hd)

/-- A `%` and the character behind it do not change the parity. -/
theorem trailingPercents_pair (d : UInt8) (rest : List UInt8) :
    Even (trailingPercents (0x25 :: d :: rest)) ↔ Even (trailingPercents rest) := by
  by_cases hrest : ∀ e ∈ rest, e = 0x25
  · rw [trailingPercents_all hrest]
    by_cases hd : d = 0x25
    · have hall : ∀ e ∈ 0x25 :: d :: rest, e = 0x25 :=
        List.forall_mem_cons.mpr ⟨rfl, List.forall_mem_cons.mpr ⟨hd, hrest⟩⟩
      rw [trailingPercents_all hall, List.length_cons, List.length_cons, Nat.even_add_one,
        Nat.even_add_one, not_not]
    · rw [trailingPercents_cons fun h => hd (h d (by simp)),
        trailingPercents_cons fun h => hd (h d List.mem_cons_self), trailingPercents_all hrest]
  · rw [trailingPercents_cons fun h => hrest fun e he => h e (by simp [he]),
      trailingPercents_cons fun h => hrest fun e he => h e (List.mem_cons_of_mem d he)]

/-- **A run of `%` is taken in pairs.** -/
theorem complete_iff (body : List UInt8) : Complete body ↔ Even (trailingPercents body) := by
  fun_induction Complete body with
  | case1 => exact iff_of_true trivial ⟨0, rfl⟩
  | case2 c =>
    by_cases hc : c = 0x25
    · rw [trailingPercents_all (List.forall_mem_singleton.mpr hc)]
      exact iff_of_false (not_not.mpr hc) Nat.not_even_one
    · rw [trailingPercents_cons fun h => hc (h c List.mem_cons_self)]
      exact iff_of_true hc ⟨0, rfl⟩
  | case3 d rest ih => exact ih.trans (trailingPercents_pair d rest).symm
  | case4 c d rest hc ih =>
    rw [trailingPercents_cons fun h => hc (h c List.mem_cons_self)]
    exact ih

end Scan

/-! ## One turn of the loop -/

variable {c d : UInt8} {rest body ds : List UInt8} {args : List Arg} {chars : List UInt8}
  {calls cs cs' : List VgaCall} {code : List UInt8 → Option Nat}

theorem nulCount_append (cs cs' : List VgaCall) :
    nulCount (cs ++ cs') = nulCount cs + nulCount cs' := by
  rw [nulCount, List.flatMap_append, List.count_append]
  rfl

theorem nulCount_putChar (hc : c ≠ 0) : nulCount [.putChar c] = 0 :=
  List.count_eq_zero.mpr fun h => hc (List.mem_singleton.mp h).symm

theorem nulCount_ansiColor (n : Nat) : nulCount (ansiColor n) = 0 := by
  rw [ansiColor_eq]
  cases selectedColour n <;> rfl

theorem decimalText_ne_zero (v : Int) : (0 : UInt8) ∉ decimalText v := by
  have hchar : ∀ d < 10, 0 ≠ decimalChar d := by decide
  intro h
  rcases mem_decimalText h with hminus | ⟨d, hd, hzero⟩
  · exact absurd hminus (by decide)
  · exact hchar d hd hzero

theorem hexText_ne_zero (n : Nat) : (0 : UInt8) ∉ hexText n := by
  have hchar : ∀ d < 16, 0 ≠ hexUpper d := by decide
  intro h
  obtain ⟨d, hd, hzero⟩ := mem_hexText h
  exact hchar d hd hzero

/-- Among the renderings only that of a `%c` can have a `NUL`. -/
theorem Directive.nulCount_calls (dir : Directive) :
    nulCount dir.calls = dir.passed.count 0 := by
  rw [nulCount, dir.calls_plain.2]
  cases dir with
  | d v => exact List.count_eq_zero.mpr (decimalText_ne_zero _)
  | x v => exact List.count_eq_zero.mpr (hexText_ne_zero _)
  | p v =>
    refine List.count_eq_zero.mpr fun h => ?_
    exact (List.mem_append.mp h).elim (by decide) (hexText_ne_zero _)
  | s text =>
    refine List.count_eq_zero.mpr fun h => ?_
    exact absurd (List.mem_takeWhile_imp (p := fun c => decide (c ≠ 0)) h) (by decide)
  | c v => rfl

/-- A directive takes its argument, and draws a `NUL` only if one is passed for a `%c`. -/
theorem Fits.directive_eq (hd : d ≠ 0) (h : Fits (d :: ds) args chars) :
    ∃ cs args' own later, OsKernel.directive d args = some (cs, args') ∧
      Fits ds args' later ∧ chars = own ++ later ∧ nulCount cs = own.count 0 := by
  cases h with
  | directive dir hfits =>
    exact ⟨_, _, _, _, directive_letter dir _, hfits, rfl, dir.nulCount_calls⟩
  | other hother hfits =>
    exact ⟨_, _, [], _, directive_other hother _, hfits, rfl, nulCount_putChar hd⟩

/-- **What keeps the loop inside its format**: no lone `%`, and no digits that are
undefined. -/
structure Bounded (code : List UInt8 → Option Nat) (body : List UInt8) : Prop where
  complete : Complete body
  defined : ∀ ds ∈ escapeCodes body, code ds ≠ none

theorem bounded_iff : Bounded code body ↔
    Even (trailingPercents body) ∧ ∀ ds ∈ escapeCodes body, code ds ≠ none :=
  ⟨fun h => ⟨(complete_iff body).mp h.complete, h.defined⟩,
    fun h => ⟨(complete_iff body).mpr h.1, h.2⟩⟩

theorem bounded_cons (hc : c ≠ 0x25) (hesc : ¬ (c = 0x1B ∧ rest.head? = some 0x5B)) :
    Bounded code (c :: rest) ↔ Bounded code rest := by
  rw [bounded_iff, bounded_iff, ← complete_iff, ← complete_iff, complete_cons hc,
    escapeCodes_cons hc hesc]

theorem bounded_pair (d : UInt8) (rest : List UInt8) :
    Bounded code (0x25 :: d :: rest) ↔ Bounded code rest := by
  rw [bounded_iff, bounded_iff, trailingPercents_pair, escapeCodes, if_pos rfl]

theorem bounded_escape (rest : List UInt8) :
    Bounded code (0x1B :: 0x5B :: rest) ↔
      code (rest.takeWhile isDecimal) ≠ none ∧ Bounded code rest := by
  have hcodes : escapeCodes (0x1B :: 0x5B :: rest) =
      rest.takeWhile isDecimal :: escapeCodes rest := by
    rw [escapeCodes, if_neg esc_ne_percent, if_pos ⟨rfl, rfl⟩,
      escapeCodes_cons bracket_ne_percent fun h => absurd h.1 (by decide)]
  rw [bounded_iff, bounded_iff, ← complete_iff, ← complete_iff, complete_cons esc_ne_percent,
    complete_cons bracket_ne_percent, hcodes, List.forall_mem_cons]
  exact and_left_comm

theorem isDecimal_quiet (h : isDecimal c = true) : c ≠ 0x25 ∧ c ≠ 0x1B := by
  constructor
  · rintro rfl
    exact absurd h (by decide)
  · rintro rfl
    exact absurd h (by decide)

/-- The digits of an escape and the character behind them, which may be the `NUL`. -/
theorem split_escape (body : List UInt8) :
    ∃ digits e tail, body ++ [0] = digits ++ e :: tail ∧ (∀ d ∈ digits, isDecimal d = true) ∧
      isDecimal e = false ∧ body.takeWhile isDecimal = digits ∧
      (e = 0x6D → ∃ rest, tail = rest ++ [0] ∧ body = digits ++ e :: rest) := by
  rcases digits_split body with hall | ⟨digits, e, rest, rfl, hdigits, he⟩
  · exact ⟨body, 0, [], rfl, hall, by decide, List.takeWhile_eq_self_iff.mpr hall,
      fun h => absurd h (by decide)⟩
  · refine ⟨digits, e, rest ++ [0], by simp, hdigits, he, takeWhile_digits hdigits he, fun _ => ?_⟩
    exact ⟨rest, rfl, rfl⟩

/-- **What a turn does with a format**: it finds an undefined escape or a lone `%`, or it
takes a piece of the format with its arguments and leaves a shorter one. -/
def Advances (code : List UInt8 → Option Nat) (body : List UInt8) (args : List Arg)
    (chars : List UInt8) (calls : List VgaCall) : Prop :=
  Returns (vprintfTurnBy (handleAnsiBy code)) ⟨body ++ [0], args, calls⟩ none ∧
    ¬ Bounded code body ∨
  ∃ rest args' cs own later,
    vprintfTurnBy (handleAnsiBy code) ⟨body ++ [0], args, calls⟩ =
      .inl ⟨rest ++ [0], args', calls ++ cs⟩ ∧
    rest <:+ body ∧ rest.length < body.length ∧ Fits (directives rest) args' later ∧
    chars = own ++ later ∧ nulCount cs = own.count 0 ∧ (Bounded code body ↔ Bounded code rest)

/-- A character that is printed as it is. -/
theorem advances_char (hturn : vprintfTurnBy (handleAnsiBy code) ⟨c :: (rest ++ [0]), args, calls⟩ =
      .inl ⟨rest ++ [0], args, calls ++ [.putChar c]⟩) (hc : c ≠ 0)
    (hfits : Fits (directives rest) args chars)
    (hbounded : Bounded code (c :: rest) ↔ Bounded code rest) :
    Advances code (c :: rest) args chars calls :=
  Or.inr ⟨rest, args, _, [], chars, hturn, List.suffix_cons c rest, Nat.lt_succ_self _, hfits, rfl,
    nulCount_putChar hc, hbounded⟩

/-- An escape that is taken: the text goes on behind its `m`. -/
theorem advances_taken {digits : List UInt8} {n : Nat} (hdigits : ∀ d ∈ digits, isDecimal d = true)
    (hcode : code digits = some n)
    (hfits : Fits (directives (digits ++ 0x6D :: rest)) args chars) :
    Advances code (0x1B :: 0x5B :: (digits ++ 0x6D :: rest)) args chars calls := by
  have hquiet : ∀ c ∈ digits ++ [0x6D], c ≠ 0x25 ∧ c ≠ 0x1B :=
    List.forall_mem_append.mpr ⟨fun c hc => isDecimal_quiet (hdigits c hc),
      List.forall_mem_singleton.mpr (by decide)⟩
  have hsplit : digits ++ 0x6D :: rest = (digits ++ [0x6D]) ++ rest := by
    rw [List.append_assoc, List.singleton_append]
  have hansi : handleAnsiBy code (0x5B :: (digits ++ 0x6D :: rest ++ [0])) =
      some (some (ansiColor n, 0x6D :: (rest ++ [0]))) := by
    rw [List.append_assoc, List.cons_append, handleAnsiBy_digits code hdigits isDecimal_m, hcode,
      Option.bind_some, if_pos rfl]
  have hiff : Bounded code (0x1B :: 0x5B :: (digits ++ 0x6D :: rest)) ↔ Bounded code rest := by
    obtain ⟨-, hcodes, hcomplete⟩ := scan_quiet hquiet rest
    rw [bounded_escape, takeWhile_digits hdigits isDecimal_m, hcode,
      and_iff_right (Option.some_ne_none n), hsplit, bounded_iff, bounded_iff, ← complete_iff,
      ← complete_iff, hcomplete, hcodes]
  rw [hsplit, (scan_quiet hquiet rest).1] at hfits
  refine Or.inr ⟨rest, args, _, [], chars, turn_escape hansi, ?_, ?_, hfits, rfl,
    nulCount_ansiColor n, hiff⟩
  · rw [hsplit]
    exact (List.suffix_append _ _).trans ((List.suffix_cons _ _).trans (List.suffix_cons _ _))
  · simp only [List.length_cons, List.length_append]
    omega

theorem advances_escape (hfits : Fits (directives (0x1B :: rest)) args chars) :
    Advances code (0x1B :: rest) args chars calls := by
  rw [directives_cons esc_ne_percent] at hfits
  by_cases hopen : rest.head? = some 0x5B
  case neg =>
    refine advances_char (turn_escape_char ?_) (by decide) hfits
      (bounded_cons esc_ne_percent fun h => hopen h.2)
    cases rest with
    | nil => rfl
    | cons d rest => exact if_pos fun h => hopen (congrArg some h)
  cases rest with
  | nil => cases hopen
  | cons d rest =>
    obtain rfl := Option.some.inj hopen
    rw [directives_cons bracket_ne_percent] at hfits
    obtain ⟨digits, e, tail, heq, hdigits, he, htake, hfinal⟩ := split_escape rest
    have hansi : handleAnsiBy code (0x5B :: (digits ++ e :: tail)) = _ :=
      handleAnsiBy_digits code hdigits he
    rw [← heq] at hansi
    have hiff : Bounded code (0x1B :: 0x5B :: rest) ↔ _ := bounded_escape rest
    rw [htake] at hiff
    cases hcode : code digits with
    | none =>
      rw [hcode, Option.bind_none] at hansi
      refine Or.inl ⟨.of_done (turn_escape_undefined hansi), fun hb => ?_⟩
      exact (hiff.mp hb).1 hcode
    | some n =>
      have hdefined : code digits ≠ none := hcode ▸ Option.some_ne_none n
      by_cases hm : e = 0x6D
      · subst hm
        obtain ⟨rest', rfl, rfl⟩ := hfinal rfl
        exact advances_taken hdigits hcode hfits
      · rw [hcode, Option.bind_some, if_neg hm] at hansi
        rw [iff_true_intro hdefined, true_and] at hiff
        refine advances_char (turn_escape_char hansi) (by decide) ?_ ?_
        · rw [directives_cons bracket_ne_percent]
          exact hfits
        · rw [hiff]
          exact (bounded_cons bracket_ne_percent fun h => absurd h.1 (by decide)).symm

theorem advances_percent (hnul : ∀ d ∈ rest, d ≠ 0)
    (hfits : Fits (directives (0x25 :: rest)) args chars) :
    Advances code (0x25 :: rest) args chars calls := by
  cases rest with
  | nil =>
    -- the `NUL` is printed, and the loop goes on behind it
    refine Or.inl ⟨.of_turn (turn_directive (directive_other (by decide) args)) (.of_done rfl),
      fun hb => ?_⟩
    exact hb.complete rfl
  | cons d rest =>
    rw [directives, if_pos rfl] at hfits
    obtain ⟨cs, args', own, later, hdir, hlater, hchars, hcount⟩ :=
      hfits.directive_eq (hnul d List.mem_cons_self)
    refine Or.inr ⟨rest, args', cs, own, later, turn_directive hdir, ?_, ?_, hlater, hchars, hcount,
      bounded_pair d rest⟩
    · exact (List.suffix_cons d rest).trans (List.suffix_cons _ _)
    · simp only [List.length_cons]
      omega

/-- **Every turn** keeps to the format. -/
theorem advances (hbody : body ≠ []) (hnul : ∀ d ∈ body, d ≠ 0)
    (hfits : Fits (directives body) args chars) : Advances code body args chars calls := by
  cases body with
  | nil => exact absurd rfl hbody
  | cons c rest =>
    obtain ⟨hc, hrest⟩ := List.forall_mem_cons.mp hnul
    by_cases hesc : c = 0x1B
    · subst hesc
      exact advances_escape hfits
    by_cases hpercent : c = 0x25
    · subst hpercent
      exact advances_percent hrest hfits
    · rw [directives_cons hpercent] at hfits
      exact advances_char (turn_char hc hesc hpercent) hc hfits
        (bounded_cons hpercent fun h => hesc h.1)

/-! ## The whole format -/

/-- **The loop ends at the `NUL`** when it is kept inside the format, and only then. -/
theorem returns_body (code : List UInt8 → Option Nat) (hnul : ∀ d ∈ body, d ≠ 0)
    (hfits : Fits (directives body) args chars) (calls : List VgaCall) :
    (Bounded code body → ∃ cs, nulCount cs = chars.count 0 ∧
      Returns (vprintfTurnBy (handleAnsiBy code)) ⟨body ++ [0], args, calls⟩
        (some (calls ++ cs))) ∧
    (¬ Bounded code body →
      Returns (vprintfTurnBy (handleAnsiBy code)) ⟨body ++ [0], args, calls⟩ none) := by
  generalize hn : body.length = n
  induction n using Nat.strongRecOn generalizing body args chars calls with
  | ind n ih =>
    by_cases hbody : body = []
    · subst hbody
      cases hfits
      refine ⟨fun _ => ⟨[], rfl, ?_⟩, fun h => ?_⟩
      · rw [List.append_nil]
        exact .of_done rfl
      · exact absurd (bounded_iff.mpr ⟨⟨0, rfl⟩, fun ds hds => absurd hds List.not_mem_nil⟩) h
    · have hturn : Advances code body args chars calls := advances hbody hnul hfits
      rcases hturn with
        ⟨hnone, hb⟩ | ⟨rest, args', cs, own, later, hturn, hsuffix, hlt, hlater, rfl, hcount, hiff⟩
      · exact ⟨fun h => absurd h hb, fun _ => hnone⟩
      · obtain ⟨hsome, hnone⟩ := ih rest.length (hn ▸ hlt)
          (fun d hd => hnul d (hsuffix.subset hd)) hlater (calls ++ cs) rfl
        refine ⟨fun h => ?_, fun h => .of_turn hturn (hnone (mt hiff.mpr h))⟩
        obtain ⟨cs', hcount', hreturns⟩ := hsome (hiff.mp h)
        refine ⟨cs ++ cs', ?_, ?_⟩
        · rw [nulCount_append, hcount, hcount', List.count_append]
        · rw [List.append_assoc] at hreturns
          exact .of_turn hturn hreturns

theorem vprintfBy_bounded (hnul : ∀ d ∈ body, d ≠ 0)
    (hfits : Fits (directives body) args chars) :
    (∃ calls, vprintfBy (handleAnsiBy code) (body ++ [0]) args = some calls ∧
      nulCount calls = chars.count 0) ↔ Bounded code body := by
  obtain ⟨hsome, hnone⟩ := returns_body code hnul hfits []
  constructor
  · rintro ⟨calls, heq, -⟩
    by_contra hb
    rw [vprintfBy_of_returns (forward_handleAnsiBy code) (hnone hb)] at heq
    cases heq
  · intro hb
    obtain ⟨cs, hcount, hreturns⟩ := hsome hb
    exact ⟨cs, vprintfBy_of_returns (forward_handleAnsiBy code) hreturns, hcount⟩

/-- **When `vprintf` stays inside its format.**  Given a format without `NUL`, a `NUL` behind
it and arguments that match its directives, `vprintf` comes to its end, reads nothing
behind the `NUL` and draws as many `NUL` characters as are passed for a `%c`, exactly when
the format ends with an even number of `%` and no escape overflows the `int` its digits are
added up in.  Whatever an overflow leaves in the `int`, the number of `%` alone decides. -/
theorem format_bounds_iff (hnul : ∀ d ∈ body, d ≠ 0)
    (hfits : Fits (directives body) args chars) :
    ((∃ calls, vprintf (body ++ [0]) args = some calls ∧ nulCount calls = chars.count 0) ↔
      Even (trailingPercents body) ∧ ∀ ds ∈ escapeCodes body, escapeValue ds < 2 ^ 31) ∧
    ∀ value : List UInt8 → Nat,
      (∃ calls, vprintfBy (handleAnsiBy fun ds => some (value ds)) (body ++ [0]) args = some calls ∧
        nulCount calls = chars.count 0) ↔ Even (trailingPercents body) := by
  refine ⟨?_, fun value => ?_⟩
  · have hchecked : ∀ ds, checkedValue ds ≠ none ↔ escapeValue ds < 2 ^ 31 := by
      intro ds
      rw [checkedValue]
      split_ifs with h
      · exact iff_of_true (Option.some_ne_none _) h
      · exact iff_of_false (not_not.mpr rfl) h
    rw [vprintf_eq_vprintfBy, funext handleAnsi_eq, vprintfBy_bounded hnul hfits, bounded_iff]
    simp only [hchecked]
  · rw [vprintfBy_bounded hnul hfits, bounded_iff]
    exact and_iff_left fun ds _ => Option.some_ne_none _

/-- A percentage, with a number and a `NUL` for a `%c`, and a truncated escape behind it. -/
theorem format_bounds_percentage : ∃ calls,
    vprintf [0x25, 0x64, 0x25, 0x25, 0x25, 0x63, 0x1B, 0x5B, 0x33, 0] [.int 7, .int 0] =
      some calls ∧ nulCount calls = 1 := by
  have hfits : Fits (directives [0x25, 0x64, 0x25, 0x25, 0x25, 0x63, 0x1B, 0x5B, 0x33])
      [.int 7, .int 0] [0] :=
    .directive (.d 7) (.other (by decide) (.directive (.c 0) (.done [])))
  exact (format_bounds_iff (by simp) hfits).1.mpr (by decide)

/-- Behind a lone `%` the `NUL` is drawn, and the bytes behind it are read as the format. -/
theorem lone_percent_overruns :
    Fits (directives [0x35, 0x30, 0x25]) [] [] ∧ vprintf [0x35, 0x30, 0x25, 0] [] = none ∧
      vprintf [0x35, 0x30, 0x25, 0, 0x41, 0] [] =
        some [.putChar 0x35, .putChar 0x30, .putChar 0, .putChar 0x41] :=
  ⟨.done [], by decide, by decide⟩

end OsKernel
