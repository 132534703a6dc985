import Mathlib.Data.List.Basic

/-!
# Finite runs of partial labelled transitions

A system is a partial step function on states and actions. `Run step guard s as t`
performs the actions `as` one after the other from `s` and ends in `t`, where every
action is allowed by `guard` in the state it is taken from. The guard separates what
the system can do from the environments and schedules a result speaks about.
-/

namespace GuardedRuns

universe u v w

variable {σ : Type u} {α : Type v} {τ : Type w}

/-- The guard of a result about all runs. -/
def unguarded : σ → α → Prop := fun _ _ => True

instance (s : σ) (a : α) : Decidable (unguarded s a) := isTrue trivial

def guardedStep (step : σ → α → Option σ) (guard : σ → α → Prop) [∀ s a, Decidable (guard s a)]
    (s : σ) (a : α) : Option σ :=
  if guard s a then step s a else none

/-- Actions are appended at the end, so an induction meets the last step first. -/
inductive Run (step : σ → α → Option σ) (guard : σ → α → Prop) (s : σ) : List α → σ → Prop where
  | refl : Run step guard s [] s
  | snoc {as t a u} (run : Run step guard s as t) (allowed : guard t a)
      (moved : step t a = some u) : Run step guard s (as ++ [a]) u

namespace Run

variable {step : σ → α → Option σ} {guard guard' : σ → α → Prop}
variable {s t u : σ} {as bs : List α} {a : α}

theorem single (allowed : guard s a) (moved : step s a = some t) : Run step guard s [a] t :=
  .snoc .refl allowed moved

theorem trans (h : Run step guard s as t) (h' : Run step guard t bs u) :
    Run step guard s (as ++ bs) u := by
  induction h' with
  | refl => simpa using h
  | snoc _ allowed moved ih =>
    rw [← List.append_assoc]
    exact ih.snoc allowed moved

theorem cons (allowed : guard s a) (moved : step s a = some t) (h : Run step guard t as u) :
    Run step guard s (a :: as) u :=
  (single allowed moved).trans h

/-- An invariant of the guarded runs that allows the steps of another guard. -/
theorem reguard (h : Run step guard s as t) (I : σ → Prop) (hs : I s)
    (hstep : ∀ t a u, I t → guard t a → step t a = some u → I u)
    (hguard : ∀ t a u, I t → guard t a → step t a = some u → guard' t a) :
    Run step guard' s as t ∧ I t := by
  induction h with
  | refl => exact ⟨.refl, hs⟩
  | snoc _ allowed moved ih =>
    exact ⟨ih.1.snoc (hguard _ _ _ ih.2 allowed moved) moved, hstep _ _ _ ih.2 allowed moved⟩

theorem mono (h : Run step guard s as t) (hg : ∀ t a, guard t a → guard' t a) :
    Run step guard' s as t :=
  (h.reguard (fun _ => True) trivial (fun _ _ _ _ _ _ => trivial)
    (fun t a _ _ allowed _ => hg t a allowed)).1

theorem guard_congr (hg : ∀ t a u, step t a = some u → (guard t a ↔ guard' t a)) :
    Run step guard s as t ↔ Run step guard' s as t := by
  constructor
  · intro h
    exact (h.reguard (fun _ => True) trivial (fun _ _ _ _ _ _ => trivial)
      (fun t a u _ allowed moved => (hg t a u moved).mp allowed)).1
  · intro h
    exact (h.reguard (fun _ => True) trivial (fun _ _ _ _ _ _ => trivial)
      (fun t a u _ allowed moved => (hg t a u moved).mpr allowed)).1

theorem invariant (h : Run step guard s as t) (I : σ → Prop) (hs : I s)
    (hstep : ∀ t a u, I t → guard t a → step t a = some u → I u) : I t :=
  (h.reguard I hs hstep (fun _ _ _ _ allowed _ => allowed)).2

theorem history (h : Run step guard s as t) (I : List α → σ → Prop) (hs : I [] s)
    (hstep : ∀ as t a u, I as t → guard t a → step t a = some u → I (as ++ [a]) u) : I as t := by
  induction h with
  | refl => exact hs
  | snoc _ allowed moved ih => exact hstep _ _ _ _ ih allowed moved

/-- A run meets a guard throughout, or ends in what a step against the guard leads to and
every later step keeps. -/
theorem guarded_or (h : Run step guard s as t) (guard' : σ → α → Prop)
    (I : List α → σ → Prop) (L : σ → Prop) (hs : I [] s)
    (hstep : ∀ as t a u, I as t → step t a = some u → I (as ++ [a]) u)
    (hbreak : ∀ as t a u, I as t → ¬ guard' t a → step t a = some u → L u)
    (hkeep : ∀ as t a u, I as t → L t → step t a = some u → L u) :
    I as t ∧ (Run step guard' s as t ∨ L t) := by
  induction h with
  | refl => exact ⟨hs, .inl .refl⟩
  | @snoc as t a u _ _ moved ih =>
    obtain ⟨ht, ih⟩ := ih
    refine ⟨hstep as t a u ht moved, ?_⟩
    rcases ih with meets | hl
    · by_cases hguard : guard' t a
      · exact .inl (meets.snoc hguard moved)
      · exact .inr (hbreak as t a u ht hguard moved)
    · exact .inr (hkeep as t a u ht hl moved)

theorem snoc_inv (h : Run step guard s (as ++ [a]) u) :
    ∃ t, Run step guard s as t ∧ guard t a ∧ step t a = some u := by
  generalize hbs : as ++ [a] = bs at h
  cases h with
  | refl => simp at hbs
  | snoc run allowed moved =>
    obtain ⟨rfl, hlast⟩ := List.append_inj' hbs rfl
    obtain rfl := List.singleton_inj.mp hlast
    exact ⟨_, run, allowed, moved⟩

theorem single_inv (h : Run step guard s [a] u) : guard s a ∧ step s a = some u := by
  obtain ⟨t, start, allowed, moved⟩ := snoc_inv (show Run step guard s ([] ++ [a]) u from h)
  generalize hnil : ([] : List α) = as at start
  cases start with
  | refl => exact ⟨allowed, moved⟩
  | snoc => simp at hnil

/-- A potential pays for every step that meets `p`: a run has at most as many of
them as the potential of its first state. -/
theorem countP_add_le (h : Run step guard s as t) (I : σ → Prop) (hs : I s)
    (hstep : ∀ t a u, I t → guard t a → step t a = some u → I u)
    (p : α → Bool) (potential : σ → ℕ)
    (hpay : ∀ t a u, I t → guard t a → step t a = some u →
      (if p a then 1 else 0) + potential u ≤ potential t) :
    as.countP p + potential t ≤ potential s := by
  refine (h.history (fun as t => I t ∧ as.countP p + potential t ≤ potential s)
    ⟨hs, by simp⟩ ?_).2
  intro as t a u ⟨ht, hle⟩ allowed moved
  refine ⟨hstep t a u ht allowed moved, ?_⟩
  have hcost := hpay t a u ht allowed moved
  simp only [List.countP_append, List.countP_singleton]
  omega

theorem countP_add_le_of_raises (h : Run step guard s as t) (p raises : α → Bool) (c : ℕ)
    (potential : σ → ℕ)
    (hpay : ∀ t a u, guard t a → step t a = some u →
      (if p a then 1 else 0) + potential u ≤ potential t + if raises a then c else 0) :
    as.countP p + potential t ≤ potential s + c * as.countP raises := by
  induction h with
  | refl => simp
  | @snoc as t a u _ allowed moved ih =>
    have hcost := hpay t a u allowed moved
    have hraised : c * (if raises a then 1 else 0) = if raises a then c else 0 := by
      split <;> simp
    simp only [List.countP_append, List.countP_singleton, Nat.mul_add, hraised]
    omega

theorem of_foldlM [∀ s a, Decidable (guard s a)]
    (h : as.foldlM (guardedStep step guard) s = some t) : Run step guard s as t := by
  induction as generalizing s with
  | nil =>
    obtain rfl : s = t := by simpa using h
    exact .refl
  | cons a as ih =>
    rw [List.foldlM_cons] at h
    obtain ⟨m, moved, rest⟩ := Option.bind_eq_some_iff.mp h
    unfold guardedStep at moved
    split at moved
    · rename_i allowed
      exact .cons allowed moved (ih rest)
    · cases moved

/-- Forward simulation along a function: every step is mapped to a step of the
other system or leaves the image as it is. -/
theorem simulates {β : Type*} {step' : τ → β → Option τ} {guard'' : τ → β → Prop} (f : σ → τ)
    (hsim : ∀ t a u, guard t a → step t a = some u →
      f u = f t ∨ ∃ b, guard'' (f t) b ∧ step' (f t) b = some (f u))
    (h : Run step guard s as t) : ∃ bs, Run step' guard'' (f s) bs (f t) := by
  induction h with
  | refl => exact ⟨[], .refl⟩
  | snoc _ allowed moved ih =>
    obtain ⟨bs, hbs⟩ := ih
    rcases hsim _ _ _ allowed moved with heq | ⟨b, hb, hmoved⟩
    · exact ⟨bs, heq ▸ hbs⟩
    · exact ⟨bs ++ [b], hbs.snoc hb hmoved⟩

/-- A system that can lower a potential until it reaches a goal has a run to the goal. -/
theorem exists_of_potential (I goal : σ → Prop) (potential : σ → ℕ)
    (hstep : ∀ s, I s → ¬ goal s →
      ∃ a t, guard s a ∧ step s a = some t ∧ I t ∧ potential t < potential s) (hs : I s) :
    ∃ as t, Run step guard s as t ∧ goal t := by
  induction hn : potential s using Nat.strongRecOn generalizing s with
  | ind n ih =>
    by_cases hgoal : goal s
    · exact ⟨[], s, .refl, hgoal⟩
    · obtain ⟨a, t, allowed, moved, ht, hlt⟩ := hstep s hs hgoal
      obtain ⟨as, u, run, hu⟩ := ih (potential t) (hn ▸ hlt) ht rfl
      exact ⟨a :: as, u, .cons allowed moved run, hu⟩

end Run

section Weights

variable (step : σ → α → Option σ) (weight : σ → α → ℕ)

/-- The weights of the actions of a run, each in the state it is taken from, in all. -/
def weigh : σ → List α → ℕ
  | _, [] => 0
  | s, a :: as => weight s a + ((step s a).map fun t => weigh t as).getD 0

variable {step weight} {guard : σ → α → Prop} {s t u : σ} {as : List α} {a : α}

theorem Run.weigh_append (h : Run step guard s as t) (bs : List α) :
    weigh step weight s (as ++ bs) = weigh step weight s as + weigh step weight t bs := by
  induction h generalizing bs with
  | refl => simp [weigh]
  | @snoc as t a u _ _ moved ih =>
    rw [List.append_assoc, ih, ih]
    simp [weigh, moved, Nat.add_assoc]

theorem Run.weigh_snoc (h : Run step guard s as t) (a : α) :
    weigh step weight s (as ++ [a]) = weigh step weight s as + weight t a := by
  rw [h.weigh_append]
  cases moved : step t a <;> simp [weigh, moved]

theorem Run.weighed (h : Run step guard s as t) (weight : σ → α → ℕ)
    (I : List α → ℕ → σ → Prop) (hs : I [] 0 s)
    (hstep : ∀ as n t a u, I as n t → guard t a → step t a = some u →
      I (as ++ [a]) (n + weight t a) u) :
    I as (weigh step weight s as) t := by
  induction h with
  | refl => exact hs
  | snoc run allowed moved ih =>
    rw [run.weigh_snoc]
    exact hstep _ _ _ _ _ ih allowed moved

/-- A simulation that keeps the weights of the steps keeps the weight of a run. -/
theorem Run.simulates_weigh {β : Type*} {step' : τ → β → Option τ} (h : Run step guard s as t)
    (weight : σ → α → ℕ) (guard' : τ → β → Prop) (weight' : τ → β → ℕ) (f : σ → τ)
    (hsim : ∀ t a u, guard t a → step t a = some u → (f u = f t ∧ weight t a = 0) ∨
      ∃ b, guard' (f t) b ∧ step' (f t) b = some (f u) ∧ weight' (f t) b = weight t a) :
    ∃ bs, Run step' guard' (f s) bs (f t) ∧
      weigh step' weight' (f s) bs = weigh step weight s as := by
  induction h with
  | refl => exact ⟨[], .refl, rfl⟩
  | snoc run allowed moved ih =>
    obtain ⟨bs, hbs, hweigh⟩ := ih
    rcases hsim _ _ _ allowed moved with ⟨heq, hzero⟩ | ⟨b, hb, hmoved, hsame⟩
    · exact ⟨bs, heq ▸ hbs, by rw [run.weigh_snoc, hzero, hweigh, Nat.add_zero]⟩
    · exact ⟨bs ++ [b], hbs.snoc hb hmoved, by rw [hbs.weigh_snoc, run.weigh_snoc, hweigh, hsame]⟩

end Weights

section Observations

variable {β : Type*} (step : σ → α → Option σ) (out : σ → α → List β)

/-- What the actions of a run put out, each in the state it is taken from, in order. -/
def observed : σ → List α → List β
  | _, [] => []
  | s, a :: as => out s a ++ ((step s a).map fun t => observed t as).getD []

variable {step out} {guard : σ → α → Prop} {s t : σ} {as : List α}

theorem Run.observed_append (h : Run step guard s as t) (bs : List α) :
    observed step out s (as ++ bs) = observed step out s as ++ observed step out t bs := by
  induction h generalizing bs with
  | refl => rfl
  | @snoc as t a u _ _ moved ih =>
    rw [List.append_assoc, ih, ih]
    simp [observed, moved]

theorem Run.observed_snoc (h : Run step guard s as t) (a : α) :
    observed step out s (as ++ [a]) = observed step out s as ++ out t a := by
  rw [h.observed_append]
  cases moved : step t a <;> simp [observed, moved]

theorem Run.observing (h : Run step guard s as t) (out : σ → α → List β)
    (I : List α → List β → σ → Prop) (hs : I [] [] s)
    (hstep : ∀ as bs t a u, I as bs t → guard t a → step t a = some u →
      I (as ++ [a]) (bs ++ out t a) u) :
    I as (observed step out s as) t := by
  induction h with
  | refl => exact hs
  | snoc run allowed moved ih =>
    rw [run.observed_snoc]
    exact hstep _ _ _ _ _ ih allowed moved

end Observations

/-- The executable guarded step function reaches a state with observation `b`. -/
theorem exists_run_of_foldlM_map {β : Type*} (step : σ → α → Option σ) (guard : σ → α → Prop)
    [∀ s a, Decidable (guard s a)] (s : σ) (as : List α) (observe : σ → β) {b : β}
    (h : (as.foldlM (guardedStep step guard) s).map observe = some b) :
    ∃ t, Run step guard s as t ∧ observe t = b := by
  obtain ⟨t, ht, hb⟩ := Option.map_eq_some_iff.mp h
  exact ⟨t, Run.of_foldlM ht, hb⟩

theorem exists_runs_of_foldlM_map {β : Type*} (step : σ → α → Option σ) (guard guard' : σ → α → Prop)
    [∀ s a, Decidable (guard s a)] [∀ s a, Decidable (guard' s a)] (s : σ) (as bs : List α)
    (observe : σ → σ → β) {b : β}
    (h : ((as.foldlM (guardedStep step guard) s).bind fun t =>
      (bs.foldlM (guardedStep step guard') t).map (observe t)) = some b) :
    ∃ t u, Run step guard s as t ∧ Run step guard' t bs u ∧ observe t u = b := by
  obtain ⟨t, ht, hrest⟩ := Option.bind_eq_some_iff.mp h
  obtain ⟨u, hu, hb⟩ := exists_run_of_foldlM_map step guard' t bs (observe t) hrest
  exact ⟨t, u, Run.of_foldlM ht, hu, hb⟩

end GuardedRuns
