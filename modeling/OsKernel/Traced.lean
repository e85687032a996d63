import Mathlib.Data.List.Basic

/-! # Computations that record what they touch

A computation of type `Traced ω ε α` ends with a value of `α` or a fault of `ε`, and
has recorded a list of events on the way.  Forgetting the events is a homomorphism
to `Except` (`result_bind`), so that a recording version of a program can be checked
against the program itself.  `Ensures P x Q` is a triple: every event of `x`
satisfies `P`, and `x` ends without a fault in a value that satisfies `Q`.
-/
namespace OsKernel

/-- The events of a computation, and what it ends with. -/
structure Traced (ω ε α : Type) where
  trace : List ω
  result : Except ε α

namespace Traced

variable {ω ε α β : Type} {P : ω → Prop} {Q : α → Prop} {R : β → Prop}

instance : Monad (Traced ω ε) where
  pure a := ⟨[], .ok a⟩
  bind x f :=
    match x.result with
    | .ok a => ⟨x.trace ++ (f a).trace, (f a).result⟩
    | .error e => ⟨x.trace, .error e⟩

/-- One event, and the value it yields or the fault it causes. -/
def event (e : ω) (r : Except ε α) : Traced ω ε α := ⟨[e], r⟩

@[simp] theorem result_event (e : ω) (r : Except ε α) : (event e r).result = r := rfl

@[simp] theorem result_pure (a : α) : (pure a : Traced ω ε α).result = .ok a := rfl

@[simp] theorem result_bind (x : Traced ω ε α) (f : α → Traced ω ε β) :
    (x >>= f).result = x.result >>= fun a => (f a).result := by
  obtain ⟨trace, result⟩ := x
  cases result with
  | ok a => rfl
  | error e => rfl

@[simp] theorem result_ite (c : Prop) [Decidable c] (x y : Traced ω ε α) :
    (if c then x else y).result = if c then x.result else y.result := by
  split <;> rfl

/-- Every event satisfies `P`, and the computation ends in a value that satisfies `Q`. -/
def Ensures (P : ω → Prop) (x : Traced ω ε α) (Q : α → Prop) : Prop :=
  (∀ e ∈ x.trace, P e) ∧ ∃ a, x.result = .ok a ∧ Q a

theorem Ensures.pure {a : α} (h : Q a) : Ensures P (Pure.pure a : Traced ω ε α) Q :=
  ⟨fun _ he => absurd he List.not_mem_nil, a, rfl, h⟩

theorem Ensures.event {e : ω} {a : α} (he : P e) (ha : Q a) :
    Ensures P (Traced.event e (.ok a) : Traced ω ε α) Q :=
  ⟨fun _ hmem => List.mem_singleton.mp hmem ▸ he, a, rfl, ha⟩

/-- **Sequencing.** -/
theorem Ensures.bind {x : Traced ω ε α} {f : α → Traced ω ε β} (hx : Ensures P x Q)
    (hf : ∀ a, Q a → Ensures P (f a) R) : Ensures P (x >>= f) R := by
  obtain ⟨trace, result⟩ := x
  obtain ⟨htrace, a, rfl, ha⟩ := hx
  obtain ⟨htrace', b, hb, hR⟩ := hf a ha
  refine ⟨fun e he => ?_, b, hb, hR⟩
  rcases List.mem_append.mp he with he | he
  · exact htrace e he
  · exact htrace' e he

/-- **Loops.**  Every turn keeps `R`. -/
theorem Ensures.foldlM {f : β → α → Traced ω ε β} {l : List α} {b : β}
    (h : ∀ b, ∀ a ∈ l, R b → Ensures P (f b a) R) (hb : R b) : Ensures P (l.foldlM f b) R := by
  induction l generalizing b with
  | nil => exact Ensures.pure hb
  | cons a l ih =>
    rw [List.foldlM_cons]
    refine (h b a List.mem_cons_self hb).bind fun b' hb' => ?_
    exact ih (fun b c hc => h b c (List.mem_cons_of_mem a hc)) hb'

end Traced

end OsKernel
