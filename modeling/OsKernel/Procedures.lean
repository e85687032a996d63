import Mathlib.Init

/-! # Procedures over a state

A procedure is the relation between the state it is called in, the value it returns and the
state it leaves; a call that does not return is related to nothing.  `Correct` is partial
correctness, and total correctness under a condition: where the procedure returns, it returns
what is asked for, and if the condition holds it returns.  The condition stands for what is
not decided yet: it may be used, or refuted, along the way.
-/
namespace OsKernel

universe u

/-- The values a procedure may return from a state, and the states it leaves then. -/
def Proc (σ : Type u) (α : Type) := σ → α → σ → Prop

namespace Proc
variable {σ : Type u} {α β : Type}

instance : Monad (Proc σ) where
  pure a := fun s b t => b = a ∧ t = s
  bind x f := fun s b u => ∃ a t, x s a t ∧ f a t b u

/-- A change of the state. -/
def update (f : σ → σ) : Proc σ Unit := fun s _ t => t = f s

/-- A value read off the state. -/
def read (f : σ → α) : Proc σ α := fun s a t => a = f s ∧ t = s

end Proc

variable {σ : Type u} {α β : Type} {G : Prop} {s : σ} {x : Proc σ α} {f : α → Proc σ β}
  {R : α → σ → Prop} {Q : β → σ → Prop}

/-- **Correctness** of a procedure in a state, with the condition `G` under which it returns. -/
structure Correct (G : Prop) (x : Proc σ α) (s : σ) (R : α → σ → Prop) : Prop where
  returns : G → ∃ a t, x s a t
  result : ∀ a t, x s a t → R a t

theorem Correct.pure {a : α} (h : R a s) : Correct G (pure a) s R := by
  refine ⟨fun _ => ⟨a, s, rfl, rfl⟩, ?_⟩
  rintro b t ⟨rfl, rfl⟩
  exact h

theorem Correct.mono {R' : α → σ → Prop} (h : Correct G x s R) (hR : ∀ a t, R a t → R' a t) :
    Correct G x s R' :=
  ⟨h.returns, fun a t hx => hR a t (h.result a t hx)⟩

/-- **The rule for sequences.** -/
theorem Correct.bind (h : Correct G x s R) (hf : ∀ a t, R a t → Correct G (f a) t Q) :
    Correct G (x >>= f) s Q := by
  constructor
  · intro hG
    obtain ⟨a, t, hx⟩ := h.returns hG
    obtain ⟨b, u, hb⟩ := (hf a t (h.result a t hx)).returns hG
    exact ⟨b, u, a, t, hx, hb⟩
  · rintro b u ⟨a, t, hx, hb⟩
    exact (hf a t (h.result a t hx)).result b u hb

theorem Correct.update_bind {f : Unit → Proc σ β} (g : σ → σ) (h : Correct G (f ()) (g s) Q) :
    Correct G (Proc.update g >>= f) s Q := by
  constructor
  · intro hG
    obtain ⟨b, u, hb⟩ := h.returns hG
    exact ⟨b, u, (), g s, rfl, hb⟩
  · rintro b u ⟨_, t, rfl, hb⟩
    exact h.result b u hb

theorem Correct.read_bind (g : σ → α) (h : Correct G (f (g s)) s Q) :
    Correct G (Proc.read g >>= f) s Q := by
  constructor
  · intro hG
    obtain ⟨b, u, hb⟩ := h.returns hG
    exact ⟨b, u, g s, s, ⟨rfl, rfl⟩, hb⟩
  · rintro b u ⟨_, t, ⟨rfl, rfl⟩, hb⟩
    exact h.result b u hb

theorem Correct.update {R : Unit → σ → Prop} (g : σ → σ) (h : R () (g s)) :
    Correct G (Proc.update g) s R := by
  refine ⟨fun _ => ⟨(), g s, rfl⟩, ?_⟩
  rintro _ t rfl
  exact h

end OsKernel
