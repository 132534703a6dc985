import Mathlib.Data.List.Basic

/-!
# Computations with the accesses they make

A value together with the accesses made on the way to it, in order. The value alone is the
program without its trace; that all accesses meet a condition is decided along the program,
one computation after the other, and for a loop body by body.
-/

namespace AccessTraces

universe u v w

/-- A computation of type `α` with accesses of type `ε`. -/
structure Traced (ε : Type u) (α : Type v) where
  value : α
  accesses : List ε

namespace Traced

variable {ε : Type u} {α β : Type v}

instance : Monad (Traced ε) where
  pure a := ⟨a, []⟩
  bind x f := ⟨(f x.value).value, x.accesses ++ (f x.value).accesses⟩

def All (P : ε → Prop) (x : Traced ε α) : Prop := ∀ e ∈ x.accesses, P e

@[simp] theorem value_bind (x : Traced ε α) (f : α → Traced ε β) :
    (x >>= f).value = (f x.value).value := rfl

@[simp] theorem value_ite (c : Prop) [Decidable c] (x y : Traced ε α) :
    (if c then x else y).value = if c then x.value else y.value :=
  apply_ite Traced.value c x y

variable {P : ε → Prop}

@[simp] theorem all_singleton (a : α) (e : ε) : All P ⟨a, [e]⟩ ↔ P e :=
  List.forall_mem_singleton

@[simp] theorem all_pure (a : α) : All P (pure a : Traced ε α) := fun _ h => nomatch h

@[simp] theorem all_bind (x : Traced ε α) (f : α → Traced ε β) :
    All P (x >>= f) ↔ All P x ∧ All P (f x.value) := by
  change (∀ e ∈ x.accesses ++ (f x.value).accesses, P e) ↔ _
  exact List.forall_mem_append

@[simp] theorem all_ite (c : Prop) [Decidable c] (x y : Traced ε α) :
    All P (if c then x else y) ↔ if c then All P x else All P y := by
  split <;> rfl

theorem value_foldlM {γ : Type w} (f : β → γ → Traced ε β) (xs : List γ) (b : β) :
    (xs.foldlM f b).value = xs.foldl (fun b c => (f b c).value) b := by
  induction xs generalizing b with
  | nil => rfl
  | cons c xs ih =>
    rw [List.foldlM_cons, value_bind, List.foldl_cons]
    exact ih (f b c).value

theorem all_foldlM {γ : Type w} {f : β → γ → Traced ε β} {Q : γ → Prop}
    (hf : ∀ b c, All P (f b c) ↔ Q c) (xs : List γ) (b : β) :
    All P (xs.foldlM f b) ↔ ∀ c ∈ xs, Q c := by
  induction xs generalizing b with
  | nil => simp
  | cons c xs ih => rw [List.foldlM_cons, all_bind, hf, ih, List.forall_mem_cons]

end Traced

end AccessTraces
