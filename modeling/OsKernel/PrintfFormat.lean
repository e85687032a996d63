import OsKernel.PrintfEscapes
import OsKernel.VgaColour

/-! # The format grammar of `vprintf`

A format is a list of tokens: characters, directives with their arguments, other
characters behind a `%`, and colour escapes.  `vprintf` takes one turn of its loop for
each token and makes the calls of this token, whatever comes after it.  So the text of
the tokens is drawn in order, each character in the colour that the escapes before it
have selected.
-/
namespace OsKernel

/-! ## The loop, with any reading of escapes -/

/-- One turn of the loop of `vprintf`, where `ansi` stands for `handle_ansi`. -/
def vprintfTurnBy (ansi : List UInt8 → Option (Option (List VgaCall × List UInt8))) :
    VprintfState → VprintfState ⊕ Option (List VgaCall)
  | ⟨[], _, _⟩ => .inr none
  | ⟨c :: rest, args, calls⟩ =>
    if c = 0 then .inr (some calls)
    else if c = 0x1B then
      match ansi rest with
      | some (some (cs, fmt)) => .inl ⟨fmt.tail, args, calls ++ cs⟩
      | some none => .inl ⟨rest, args, calls ++ [.putChar c]⟩
      | none => .inr none
    else if c = 0x25 then
      match rest with
      | [] => .inr none
      | d :: rest =>
        match directive d args with
        | some (cs, args) => .inl ⟨rest, args, calls ++ cs⟩
        | none => .inr none
    else .inl ⟨rest, args, calls ++ [.putChar c]⟩

/-- `vprintf`, where `ansi` stands for `handle_ansi`. -/
def vprintfBy (ansi : List UInt8 → Option (Option (List VgaCall × List UInt8)))
    (fmt : List UInt8) (args : List Arg) : Option (List VgaCall) :=
  (iterate (vprintfTurnBy ansi) (fmt.length + 1) ⟨fmt, args, []⟩).join

section Loop
variable {ansi : List UInt8 → Option (Option (List VgaCall × List UInt8))}
  {rest fmt : List UInt8} {args args' : List Arg} {calls cs : List VgaCall} {c d : UInt8}

theorem vprintf_eq_vprintfBy (fmt : List UInt8) (args : List Arg) :
    vprintf fmt args = vprintfBy handleAnsi fmt args := by
  have hturn : vprintfTurn = vprintfTurnBy handleAnsi := by
    funext st
    obtain ⟨fmt, args, calls⟩ := st
    cases fmt <;> rfl
  rw [vprintf, vprintfBy, hturn]

/-- `ansi` moves forward in the format. -/
def Forward (ansi : List UInt8 → Option (Option (List VgaCall × List UInt8))) : Prop :=
  ∀ text cs rest, ansi text = some (some (cs, rest)) → rest.length ≤ text.length

theorem turn_char (hnul : c ≠ 0) (hesc : c ≠ 0x1B) (hpercent : c ≠ 0x25) :
    vprintfTurnBy ansi ⟨c :: rest, args, calls⟩ = .inl ⟨rest, args, calls ++ [.putChar c]⟩ := by
  rw [vprintfTurnBy.eq_def]
  dsimp only
  rw [if_neg hnul, if_neg hesc, if_neg hpercent]

theorem turn_escape (h : ansi rest = some (some (cs, d :: fmt))) :
    vprintfTurnBy ansi ⟨0x1B :: rest, args, calls⟩ = .inl ⟨fmt, args, calls ++ cs⟩ := by
  rw [vprintfTurnBy.eq_def]
  dsimp only
  rw [if_neg (by decide), if_pos rfl, h]
  rfl

theorem turn_escape_char (h : ansi rest = some none) :
    vprintfTurnBy ansi ⟨0x1B :: rest, args, calls⟩ =
      .inl ⟨rest, args, calls ++ [.putChar 0x1B]⟩ := by
  rw [vprintfTurnBy.eq_def]
  dsimp only
  rw [if_neg (by decide), if_pos rfl, h]

theorem turn_escape_undefined (h : ansi rest = none) :
    vprintfTurnBy ansi ⟨0x1B :: rest, args, calls⟩ = .inr none := by
  rw [vprintfTurnBy.eq_def]
  dsimp only
  rw [if_neg (by decide), if_pos rfl, h]

theorem turn_directive (h : directive d args = some (cs, args')) :
    vprintfTurnBy ansi ⟨0x25 :: d :: rest, args, calls⟩ = .inl ⟨rest, args', calls ++ cs⟩ := by
  rw [vprintfTurnBy.eq_def]
  dsimp only
  rw [if_neg (by decide), if_neg (by decide), if_pos rfl, h]

/-- **Every turn shortens the format.** -/
theorem vprintfTurnBy_shorter (hansi : Forward ansi) (st st' : VprintfState)
    (h : vprintfTurnBy ansi st = .inl st') : st'.fmt.length < st.fmt.length := by
  obtain ⟨fmt, args, calls⟩ := st
  cases fmt with
  | nil => cases h
  | cons c rest =>
    rw [vprintfTurnBy.eq_def] at h
    dsimp only at h
    split_ifs at h with hnul hesc hpercent
    · cases hread : ansi rest with
      | none => rw [hread] at h; cases h
      | some taken =>
        rw [hread] at h
        cases taken with
        | none => cases h; exact Nat.lt_succ_self _
        | some pair =>
          have hlen := hansi rest pair.1 pair.2 hread
          cases h
          rw [List.length_tail, List.length_cons]
          omega
    · cases rest with
      | nil => cases h
      | cons d rest =>
        dsimp only at h
        cases hd : directive d args with
        | none => rw [hd] at h; cases h
        | some pair =>
          rw [hd] at h
          cases h
          simp only [List.length_cons]
          omega
    · cases h
      exact Nat.lt_succ_self _

theorem forward_handleAnsiBy (code : List UInt8 → Option Nat) : Forward (handleAnsiBy code) := by
  intro text cs rest h
  cases text with
  | nil => cases h
  | cons o text =>
    rw [handleAnsiBy] at h
    by_cases ho : o = 0x5B
    case neg => rw [if_pos ho] at h; cases h
    rw [if_neg (not_not.mpr ho)] at h
    split at h
    case h_1 => cases h
    case h_2 d rest' hdrop =>
      split at h
      case h_1 => cases h
      case h_2 =>
        split_ifs at h with hm
        case neg => cases h
        obtain rfl := (Prod.mk.inj (Option.some.inj (Option.some.inj h))).2
        rw [← hdrop, List.length_cons]
        exact (List.dropWhile_suffix _).length_le.trans (Nat.le_succ _)

theorem forward_handleAnsi : Forward handleAnsi :=
  funext handleAnsi_eq ▸ forward_handleAnsiBy checkedValue

/-- The value of `vprintf` is the one its loop ends with. -/
theorem vprintfBy_of_returns (hansi : Forward ansi) {r : Option (List VgaCall)}
    (h : Returns (vprintfTurnBy ansi) ⟨fmt, args, []⟩ r) : vprintfBy ansi fmt args = r := by
  have hfuel := h.iterate_eq (fun st => st.fmt.length) (vprintfTurnBy_shorter hansi)
  rw [vprintfBy]
  exact congrArg Option.join hfuel

end Loop

/-! ## Tokens -/

/-- A directive with the argument passed for it. -/
inductive Directive
  | d (value : UInt32)
  | x (value : UInt32)
  | p (value : UInt32)
  | s (text : List UInt8)
  | c (value : UInt32)
  deriving DecidableEq, Repr

/-- The character behind the `%`. -/
def Directive.letter : Directive → UInt8
  | .d _ => 0x64
  | .x _ => 0x78
  | .p _ => 0x70
  | .s _ => 0x73
  | .c _ => 0x63

/-- The argument. -/
def Directive.arg : Directive → Arg
  | .d v => .int v
  | .x v => .int v
  | .p v => .ptr v
  | .s text => .str text
  | .c v => .int v

/-- The rendering of the argument. -/
def Directive.characters : Directive → List UInt8
  | .d v => decimalText v.toInt32.toInt
  | .x v => hexText v.toNat
  | .p v => bytes "0x" ++ hexText v.toNat
  | .s text => text.takeWhile (· ≠ 0)
  | .c v => [v.toUInt8]

/-- The characters that make a directive. -/
def IsLetter (c : UInt8) : Prop := c = 0x64 ∨ c = 0x78 ∨ c = 0x70 ∨ c = 0x73 ∨ c = 0x63

instance : DecidablePred IsLetter :=
  fun _ => inferInstanceAs (Decidable (_ ∨ _ ∨ _ ∨ _ ∨ _))

/-- A token of a format. -/
inductive FormatToken
  | literal (c : UInt8) (h : c ≠ 0 ∧ c ≠ 0x1B ∧ c ≠ 0x25)
  | directive (dir : Directive)
  | other (c : UInt8) (h : c ≠ 0 ∧ ¬ IsLetter c)
  | escape (digits : List (Fin 10)) (h : digitValue digits < 2 ^ 31)

namespace FormatToken

/-- The text of a token. -/
def text : FormatToken → List UInt8
  | literal c _ => [c]
  | directive dir => [0x25, dir.letter]
  | other c _ => [0x25, c]
  | escape digits _ => 0x1B :: 0x5B :: (digitText digits ++ [0x6D])

/-- The argument of a token, if it takes one. -/
def args : FormatToken → List Arg
  | directive dir => [dir.arg]
  | _ => []

/-- What a token emits. -/
def characters : FormatToken → List UInt8
  | literal c _ => [c]
  | directive dir => dir.characters
  | other c _ => [c]
  | escape _ _ => []

/-- The foreground colour a token selects. -/
def selects : FormatToken → Option UInt8
  | escape digits _ => selectedColour (digitValue digits)
  | _ => none

end FormatToken

/-- The format string of a list of tokens. -/
def formatText (tokens : List FormatToken) : List UInt8 := tokens.flatMap FormatToken.text ++ [0]

/-- The arguments that the directives of a list of tokens take. -/
def formatArgs (tokens : List FormatToken) : List Arg := tokens.flatMap FormatToken.args

/-- The colour behind some tokens: the foreground that the last escape has selected, on the
background there was. -/
def currentColour (colour : UInt8) (before : List FormatToken) : UInt8 :=
  (before.filterMap FormatToken.selects).getLast?.getD (colour &&& 0x0F) ||| (colour &&& 0xF0)

/-- The characters of a list of tokens, each with its colour, behind the tokens `before`. -/
def rendered (colour : UInt8) (before : List FormatToken) :
    List FormatToken → List (UInt8 × UInt8)
  | [] => []
  | t :: tokens =>
    t.characters.map (fun c => (c, currentColour colour before)) ++
      rendered colour (before ++ [t]) tokens

/-- The calls that print an argument. -/
def Directive.calls : Directive → List VgaCall
  | .d v => printNumber v
  | .x v => printHex v
  | .p v => printPtr v
  | .s text => [.write text]
  | .c v => [.putChar v.toUInt8]

/-- The calls for a token. -/
def FormatToken.calls : FormatToken → List VgaCall
  | .literal c _ => [.putChar c]
  | .directive dir => dir.calls
  | .other c _ => [.putChar c]
  | .escape digits _ => (selectedColour (digitValue digits)).toList.map .setColor

/-- The characters a console call draws. -/
def VgaCall.characters : VgaCall → List UInt8
  | .putChar c => [c]
  | .write str => str.takeWhile (· ≠ 0)
  | _ => []

/-- The characters that console calls draw from `m` on, each with the colour it has when it
is drawn. -/
def drawnBy : List VgaCall → Machine → List (UInt8 × UInt8)
  | [], _ => []
  | call :: calls, m =>
    call.characters.map (fun c => (c, m.colorByte)) ++
      match call.run m with
      | some m' => drawnBy calls m'
      | none => []

variable {c : UInt8} {rest : List UInt8} {args : List Arg} {calls calls' : List VgaCall}
  {m m' : Machine}

/-! ## The calls of a token -/

theorem directive_letter (dir : Directive) (args : List Arg) :
    directive dir.letter (dir.arg :: args) = some (dir.calls, args) := by
  cases dir <;> rfl

/-- Any other character behind a `%` is printed as it is. -/
theorem directive_other (h : ¬ IsLetter c) (args : List Arg) :
    directive c args = some ([.putChar c], args) := by
  obtain ⟨hd, hx, hp, hs, hc⟩ : c ≠ 0x64 ∧ c ≠ 0x78 ∧ c ≠ 0x70 ∧ c ≠ 0x73 ∧ c ≠ 0x63 := by
    simpa only [IsLetter, not_or] using h
  rw [directive.eq_def, if_neg hd, if_neg hx, if_neg hp, if_neg hs, if_neg hc]

/-- **One turn of the loop for one token**, whatever follows it. -/
theorem turn_token (t : FormatToken) (rest : List UInt8) (args : List Arg)
    (calls : List VgaCall) :
    vprintfTurnBy handleAnsi ⟨t.text ++ rest, t.args ++ args, calls⟩ =
      .inl ⟨rest, args, calls ++ t.calls⟩ := by
  cases t with
  | literal c h => exact turn_char h.1 h.2.1 h.2.2
  | directive dir => exact turn_directive (directive_letter dir args)
  | other c h => exact turn_directive (directive_other h.2 args)
  | escape digits h =>
    refine turn_escape (d := 0x6D) ?_
    change handleAnsi (0x5B :: ((digitText digits ++ [0x6D]) ++ rest)) = _
    rw [List.append_assoc]
    exact (handleAnsi_escape digits rest).trans (if_pos h)

/-- **The loop takes the tokens in order** and stops at the `NUL` behind them. -/
theorem returns_tokens (tokens : List FormatToken) (extra : List Arg) (calls : List VgaCall) :
    Returns (vprintfTurnBy handleAnsi) ⟨formatText tokens, formatArgs tokens ++ extra, calls⟩
      (some (calls ++ tokens.flatMap FormatToken.calls)) := by
  induction tokens generalizing calls with
  | nil =>
    rw [List.flatMap_nil, List.append_nil]
    exact .of_done rfl
  | cons t tokens ih =>
    have hturn := turn_token t (formatText tokens) (formatArgs tokens ++ extra) calls
    rw [formatText, formatArgs, List.flatMap_cons, List.flatMap_cons, List.flatMap_cons,
      List.append_assoc, List.append_assoc, ← List.append_assoc calls]
    exact .of_turn hturn (ih _)

theorem vprintf_tokens (tokens : List FormatToken) (extra : List Arg) :
    vprintf (formatText tokens) (formatArgs tokens ++ extra) =
      some (tokens.flatMap FormatToken.calls) := by
  rw [vprintf_eq_vprintfBy]
  exact vprintfBy_of_returns forward_handleAnsi (returns_tokens tokens extra [])

/-! ## What the calls draw -/

theorem runCalls_cons (call : VgaCall) (h : call.run m = some m') :
    runCalls (call :: calls) m = runCalls calls m' := by
  rw [runCalls, List.foldlM_cons, h]
  rfl

theorem runCalls_append (h : runCalls calls m = some m') :
    runCalls (calls ++ calls') m = runCalls calls' m' := by
  rw [runCalls, List.foldlM_append, ← runCalls, h]
  rfl

theorem drawnBy_cons (call : VgaCall) (h : call.run m = some m') :
    drawnBy (call :: calls) m =
      call.characters.map (fun c => (c, m.colorByte)) ++ drawnBy calls m' := by
  rw [drawnBy, h]

theorem drawnBy_append (h : runCalls calls m = some m') :
    drawnBy (calls ++ calls') m = drawnBy calls m ++ drawnBy calls' m' := by
  induction calls generalizing m with
  | nil =>
    obtain rfl := Option.some.inj h
    rfl
  | cons call calls ih =>
    cases hrun : call.run m with
    | none =>
      rw [runCalls, List.foldlM_cons, hrun] at h
      cases h
    | some m₁ =>
      rw [runCalls_cons call hrun] at h
      rw [List.cons_append, drawnBy_cons call hrun, drawnBy_cons call hrun, ih h,
        List.append_assoc]

/-- A call that only writes text. -/
def VgaCall.Plain (call : VgaCall) : Prop :=
  call.body = textSteps call.characters ++ [.updateCursor]

theorem plain_putChar (c : UInt8) : (VgaCall.putChar c).Plain := rfl

theorem plain_write (str : List UInt8) : (VgaCall.write str).Plain := rfl

/-- **Text** is drawn in one colour. -/
theorem drawnBy_plain (h : ∀ call ∈ calls, call.Plain) (hlock : m.locked = false) :
    ∃ m', runCalls calls m = some m' ∧ m'.locked = false ∧ m'.colorByte = m.colorByte ∧
      drawnBy calls m =
        (calls.flatMap VgaCall.characters).map fun c => (c, m.colorByte) := by
  induction calls generalizing m with
  | nil => exact ⟨m, rfl, hlock, rfl, rfl⟩
  | cons call calls ih =>
    obtain ⟨hcall, hcalls⟩ := List.forall_mem_cons.mp h
    obtain ⟨m₁, hrun, hlock₁, hscreen, -⟩ := VgaCall.run_text call call.characters hcall hlock
    have hcolor : m₁.colorByte = m.colorByte :=
      (congrArg Machine.colorByte hscreen).trans (textSteps_colorByte call.characters m.screen)
    obtain ⟨m', hrun', hlock', hcolor', hdrawn⟩ := ih hcalls hlock₁
    refine ⟨m', (runCalls_cons call hrun).trans hrun', hlock', hcolor'.trans hcolor, ?_⟩
    rw [drawnBy_cons call hrun, hdrawn, hcolor, List.flatMap_cons, List.map_append]

theorem characters_putChars (text : List UInt8) :
    (text.map VgaCall.putChar).flatMap VgaCall.characters = text := by
  rw [List.flatMap_map]
  exact List.flatMap_singleton' text

theorem plain_putChars (text : List UInt8) : ∀ call ∈ text.map VgaCall.putChar, call.Plain := by
  intro call hcall
  obtain ⟨c, -, rfl⟩ := List.mem_map.mp hcall
  exact plain_putChar c

/-- The calls for a directive write the rendering of its argument. -/
theorem Directive.calls_plain (dir : Directive) :
    (∀ call ∈ dir.calls, call.Plain) ∧ dir.calls.flatMap VgaCall.characters = dir.characters := by
  cases dir with
  | d v =>
    rw [Directive.calls, printNumber_eq]
    exact ⟨plain_putChars _, characters_putChars _⟩
  | x v =>
    rw [Directive.calls, printHex_eq]
    exact ⟨plain_putChars _, characters_putChars _⟩
  | p v =>
    rw [Directive.calls, printPtr_eq]
    refine ⟨List.forall_mem_cons.mpr ⟨plain_write _, plain_putChars _⟩, ?_⟩
    rw [List.flatMap_cons, characters_putChars]
    rfl
  | s text => exact ⟨List.forall_mem_singleton.mpr (plain_write text), List.append_nil _⟩
  | c v => exact ⟨List.forall_mem_singleton.mpr (plain_putChar _), rfl⟩

/-! ## Colours -/

/-- `vga_set_color` -/
theorem run_setColor (c : UInt8) (hlock : m.locked = false) :
    (VgaCall.setColor c).run m =
      some { m with locked := false, colorByte := c &&& 0x0F ||| m.colorByte &&& 0xF0 } := by
  rw [VgaCall.run, hlock]
  rfl

/-- A byte is its two nibbles. -/
theorem nibbles (c : UInt8) : c &&& 0x0F ||| c &&& 0xF0 = c := by
  apply UInt8.toBitVec_inj.mp
  change c.toBitVec &&& 0x0F#8 ||| c.toBitVec &&& 0xF0#8 = c.toBitVec
  rw [← BitVec.and_or_distrib_left]
  exact BitVec.and_allOnes

/-- A new foreground leaves the background. -/
theorem background {fg c : UInt8} (h : fg &&& 0xF0 = 0) :
    (fg ||| c &&& 0xF0) &&& 0xF0 = c &&& 0xF0 := by
  apply UInt8.toBitVec_inj.mp
  have hfg : fg.toBitVec &&& 0xF0#8 = 0#8 := congrArg UInt8.toBitVec h
  change (fg.toBitVec ||| c.toBitVec &&& 0xF0#8) &&& 0xF0#8 = c.toBitVec &&& 0xF0#8
  rw [BitVec.and_or_distrib_right, hfg, BitVec.and_assoc, BitVec.and_self, BitVec.zero_or]

theorem selectedColour_nibble {n : Nat} (h : selectedColour n = some c) :
    c &&& 0x0F = c ∧ c &&& 0xF0 = 0 := by
  have hall : ∀ fg ∈ ([0x00, 0x04, 0x02, 0x06, 0x01, 0x05, 0x03, 0x07] : List UInt8),
      fg &&& 0x0F = fg ∧ fg &&& 0xF0 = 0 := by
    simp only [List.forall_mem_cons, List.not_mem_nil, false_imp_iff, implies_true]
    decide
  rw [selectedColour] at h
  split_ifs at h
  · obtain rfl := Option.some.inj h
    decide
  · exact hall c (List.mem_of_getElem? h)

theorem FormatToken.selects_nibble {t : FormatToken} (h : t.selects = some c) :
    c &&& 0x0F = c ∧ c &&& 0xF0 = 0 := by
  cases t with
  | literal => cases h
  | directive => cases h
  | other => cases h
  | escape digits _ => exact selectedColour_nibble h

section Colour
variable {colour : UInt8} {before : List FormatToken} {t : FormatToken}

theorem currentColour_nil (colour : UInt8) : currentColour colour [] = colour := nibbles colour

theorem currentColour_of_none (h : t.selects = none) :
    currentColour colour (before ++ [t]) = currentColour colour before := by
  rw [currentColour, getLast?_filterMap_concat, h, Option.none_or, ← currentColour]

theorem currentColour_of_some (h : t.selects = some c) :
    currentColour colour (before ++ [t]) = c ||| colour &&& 0xF0 := by
  rw [currentColour, getLast?_filterMap_concat, h, Option.some_or, Option.getD_some]

/-- **The background nibble never changes.** -/
theorem currentColour_background (colour : UInt8) (before : List FormatToken) :
    currentColour colour before &&& 0xF0 = colour &&& 0xF0 := by
  induction before using List.reverseRecOn with
  | nil => rw [currentColour_nil]
  | append_singleton before t ih =>
    cases hsel : t.selects with
    | none => rw [currentColour_of_none hsel, ih]
    | some fg => rw [currentColour_of_some hsel, background (FormatToken.selects_nibble hsel).2]

/-! ## Rendering -/

/-- A token that only writes. -/
theorem drawnBy_writing (hlock : m.locked = false)
    (hcolor : m.colorByte = currentColour colour before) (hsel : t.selects = none)
    (hplain : ∀ call ∈ t.calls, call.Plain)
    (hchars : t.calls.flatMap VgaCall.characters = t.characters) :
    ∃ m', runCalls t.calls m = some m' ∧ m'.locked = false ∧
      m'.colorByte = currentColour colour (before ++ [t]) ∧
      drawnBy t.calls m = t.characters.map fun c => (c, currentColour colour before) := by
  obtain ⟨m', hrun, hlock', hcolor', hdrawn⟩ := drawnBy_plain hplain hlock
  refine ⟨m', hrun, hlock', ?_, ?_⟩
  · rw [hcolor', hcolor, currentColour_of_none hsel]
  · rw [hdrawn, hchars, hcolor]

/-- **One token** on the console. -/
theorem drawnBy_token (hlock : m.locked = false)
    (hcolor : m.colorByte = currentColour colour before) :
    ∃ m', runCalls t.calls m = some m' ∧ m'.locked = false ∧
      m'.colorByte = currentColour colour (before ++ [t]) ∧
      drawnBy t.calls m = t.characters.map fun c => (c, currentColour colour before) := by
  cases t with
  | literal c h =>
    exact drawnBy_writing hlock hcolor rfl (List.forall_mem_singleton.mpr (plain_putChar c)) rfl
  | directive dir =>
    exact drawnBy_writing hlock hcolor rfl dir.calls_plain.1 dir.calls_plain.2
  | other c h =>
    exact drawnBy_writing hlock hcolor rfl (List.forall_mem_singleton.mpr (plain_putChar c)) rfl
  | escape digits h =>
    cases hsel : selectedColour (digitValue digits) with
    | none =>
      have hcalls : (FormatToken.escape digits h).calls = [] := by
        rw [FormatToken.calls, hsel]
        rfl
      have hselects : (FormatToken.escape digits h).selects = none := hsel
      rw [hcalls, currentColour_of_none hselects]
      exact ⟨m, rfl, hlock, hcolor, rfl⟩
    | some fg =>
      have hcalls : (FormatToken.escape digits h).calls = [.setColor fg] := by
        rw [FormatToken.calls, hsel]
        rfl
      have hselects : (FormatToken.escape digits h).selects = some fg := hsel
      have hrun := run_setColor fg hlock
      rw [hcalls, currentColour_of_some hselects]
      refine ⟨_, runCalls_cons _ hrun, rfl, ?_, drawnBy_cons _ hrun⟩
      dsimp only
      rw [(selectedColour_nibble hsel).1, hcolor, currentColour_background]

/-- **The tokens one after the other.** -/
theorem drawnBy_tokens (tokens : List FormatToken) (hlock : m.locked = false)
    (hcolor : m.colorByte = currentColour colour before) :
    ∃ m', runCalls (tokens.flatMap FormatToken.calls) m = some m' ∧ m'.locked = false ∧
      m'.colorByte = currentColour colour (before ++ tokens) ∧
      drawnBy (tokens.flatMap FormatToken.calls) m = rendered colour before tokens := by
  induction tokens generalizing m before with
  | nil => exact ⟨m, rfl, hlock, by rw [List.append_nil, hcolor], rfl⟩
  | cons t tokens ih =>
    obtain ⟨m₁, hrun, hlock₁, hcolor₁, hdrawn⟩ := drawnBy_token (t := t) hlock hcolor
    obtain ⟨m', hrun', hlock', hcolor', hdrawn'⟩ := ih hlock₁ hcolor₁
    refine ⟨m', ?_, hlock', ?_, ?_⟩
    · rw [List.flatMap_cons, runCalls_append hrun, hrun']
    · rw [hcolor', List.append_assoc, List.singleton_append]
    · rw [List.flatMap_cons, drawnBy_append hrun, hdrawn, hdrawn', rendered]

end Colour

/-- **`vprintf` renders its format grammar.**  On the text of any list of tokens, with an
argument for each directive and any others behind them, from any console that is not
locked, `vprintf` makes calls that all run.  They draw the literals, the renderings of the
arguments and the characters behind other `%` in order, each on the background there was
and in the foreground of the last escape before it with code 0 or 30 to 37.  The colour in
the end is that of all tokens, with the same background. -/
theorem vprintf_renders (tokens : List FormatToken) (extra : List Arg)
    (hlock : m.locked = false) :
    ∃ calls m', vprintf (formatText tokens) (formatArgs tokens ++ extra) = some calls ∧
      runCalls calls m = some m' ∧ drawnBy calls m = rendered m.colorByte [] tokens ∧
      m'.colorByte = currentColour m.colorByte tokens ∧
      m'.colorByte &&& 0xF0 = m.colorByte &&& 0xF0 := by
  obtain ⟨m', hrun, -, hcolor, hdrawn⟩ := drawnBy_tokens tokens hlock
    (currentColour_nil m.colorByte).symm
  refine ⟨_, m', vprintf_tokens tokens extra, hrun, hdrawn, hcolor, ?_⟩
  rw [hcolor]
  exact currentColour_background _ _

/-- A green number on blue, with text on both sides. -/
theorem vprintf_renders_green : ∃ calls m',
    vprintf [0x41, 0x1B, 0x5B, 0x33, 0x32, 0x6D, 0x25, 0x64, 0x25, 0x25, 0]
      [.int 0xFFFFFFF9] = some calls ∧
    runCalls calls ⟨fun _ => 0, 3, 5, 0x17, false, 0, []⟩ = some m' ∧
    drawnBy calls ⟨fun _ => 0, 3, 5, 0x17, false, 0, []⟩ =
      [(0x41, 0x17), (0x2D, 0x12), (0x37, 0x12), (0x25, 0x12)] ∧
    m'.colorByte = 0x12 := by
  obtain ⟨calls, m', hprint, hrun, hdrawn, hcolor, -⟩ :=
    vprintf_renders (m := ⟨fun _ => 0, 3, 5, 0x17, false, 0, []⟩)
      [.literal 0x41 (by decide), .escape [3, 2] (by decide), .directive (.d 0xFFFFFFF9),
        .other 0x25 (by decide)] [] rfl
  exact ⟨calls, m', hprint, hrun, hdrawn, hcolor⟩

end OsKernel
