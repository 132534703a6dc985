import Wineing.GuardedRuns
import Mathlib.Data.List.Nodup
import Mathlib.Data.List.Perm.Basic

/-!
# A ledger of acquired and released resources

Resources are numbered in the order they are acquired. The ledger does not stop a program
from releasing what it has released before: that every resource is released at most once
is the invariant `Balanced`, which a release keeps where the resource is live. A live
resource without an owner is lost: what no owner holds now, no owner will hold later.
Where every step that leaks loses a resource and no other step does, a run that ends
without owners has released everything exactly when it has not leaked.
-/

namespace ResourceLedger
open GuardedRuns

/-- `live` is in the order of acquisition, `released` in the order of release. -/
structure Ledger where
  next : ℕ
  live : List ℕ
  released : List ℕ
  deriving DecidableEq

namespace Ledger

def empty : Ledger := ⟨0, [], []⟩

def acquire (l : Ledger) : Ledger := { l with next := l.next + 1, live := l.live ++ [l.next] }

def release (l : Ledger) (r : ℕ) : Ledger :=
  { l with live := l.live.erase r, released := l.released ++ [r] }

/-- Everything acquired is live or has been released, and only once. -/
structure Balanced (l : Ledger) : Prop where
  nodup : (l.live ++ l.released).Nodup
  mem_iff : ∀ r, r ∈ l.live ++ l.released ↔ r < l.next

variable {l : Ledger} {r : ℕ}

theorem balanced_empty : Balanced empty := ⟨List.nodup_nil, by simp [empty]⟩

theorem Balanced.lt_next (h : Balanced l) (hr : r ∈ l.live) : r < l.next :=
  (h.mem_iff r).mp (List.mem_append_left _ hr)

theorem Balanced.nodup_live (h : Balanced l) : l.live.Nodup := h.nodup.of_append_left

@[simp] theorem mem_live_acquire : r ∈ l.acquire.live ↔ r ∈ l.live ∨ r = l.next := by
  simp [acquire]

theorem Balanced.mem_live_release (h : Balanced l) {q : ℕ} :
    q ∈ (l.release r).live ↔ q ≠ r ∧ q ∈ l.live :=
  h.nodup_live.mem_erase_iff

theorem Balanced.acquire (h : Balanced l) : Balanced l.acquire := by
  have hnew : l.next ∉ l.live ++ l.released := fun hmem =>
    Nat.lt_irrefl _ ((h.mem_iff l.next).mp hmem)
  have hperm : (l.live ++ [l.next] ++ l.released).Perm (l.next :: (l.live ++ l.released)) := by
    simp
  refine ⟨?_, fun r => ?_⟩
  · exact hperm.nodup_iff.mpr (List.nodup_cons.mpr ⟨hnew, h.nodup⟩)
  · have hold := h.mem_iff r
    rw [show r ∈ l.acquire.live ++ l.acquire.released ↔ r ∈ l.next :: (l.live ++ l.released) from
      hperm.mem_iff, List.mem_cons, hold]
    simp only [Ledger.acquire]
    omega

theorem Balanced.release (h : Balanced l) (hr : r ∈ l.live) : Balanced (l.release r) := by
  have hperm : (l.live.erase r ++ (l.released ++ [r])).Perm (l.live ++ l.released) := by
    have hmoved : (l.live.erase r ++ (l.released ++ [r])).Perm
        (r :: l.live.erase r ++ l.released) := by
      have hcomm : (l.live.erase r ++ l.released ++ [r]).Perm
          ([r] ++ (l.live.erase r ++ l.released)) := List.perm_append_comm
      simpa using hcomm
    exact hmoved.trans ((List.perm_cons_erase hr).symm.append_right _)
  refine ⟨hperm.nodup_iff.mpr h.nodup, fun q => ?_⟩
  have hold := h.mem_iff q
  exact hperm.mem_iff.trans hold

/-- Every live resource has an owner. -/
def Owned (owner : ℕ → Prop) (l : Ledger) : Prop := ∀ r ∈ l.live, owner r

/-- Some live resource has none. -/
def Lost (owner : ℕ → Prop) (l : Ledger) : Prop := ∃ r ∈ l.live, ¬ owner r

variable {owner owner' : ℕ → Prop}

theorem Owned.mono (h : l.Owned owner) (hkeep : ∀ r ∈ l.live, owner r → owner' r) :
    l.Owned owner' :=
  fun r hr => hkeep r hr (h r hr)

theorem Owned.acquire (h : l.Owned owner) (hkeep : ∀ r ∈ l.live, owner r → owner' r)
    (hnew : owner' l.next) : l.acquire.Owned owner' := by
  intro r hr
  rcases mem_live_acquire.mp hr with hr | rfl
  · exact hkeep r hr (h r hr)
  · exact hnew

theorem Owned.release (h : l.Owned owner) (hb : Balanced l)
    (hkeep : ∀ q ∈ l.live, q ≠ r → owner q → owner' q) : (l.release r).Owned owner' := by
  intro q hq
  obtain ⟨hne, hq⟩ := hb.mem_live_release.mp hq
  exact hkeep q hq hne (h q hq)

theorem Lost.mono (h : l.Lost owner) (hkeep : ∀ r ∈ l.live, owner' r → owner r) :
    l.Lost owner' := by
  obtain ⟨r, hr, hlost⟩ := h
  exact ⟨r, hr, fun howned => hlost (hkeep r hr howned)⟩

theorem Lost.acquire (h : l.Lost owner) (hkeep : ∀ r ∈ l.live, owner' r → owner r) :
    l.acquire.Lost owner' := by
  obtain ⟨r, hr, hlost⟩ := h
  exact ⟨r, mem_live_acquire.mpr (.inl hr), fun howned => hlost (hkeep r hr howned)⟩

theorem Lost.release (h : l.Lost owner) (hb : Balanced l) (hr : owner r)
    (hkeep : ∀ q ∈ l.live, owner' q → owner q) : (l.release r).Lost owner' := by
  obtain ⟨q, hq, hlost⟩ := h
  refine ⟨q, hb.mem_live_release.mpr ⟨?_, hq⟩, fun howned => hlost (hkeep q hq howned)⟩
  rintro rfl
  exact hlost hr

end Ledger

section Custody

variable {σ α : Type*}

/-- The steps that meet the guard leave no live resource without an owner, the others lose
one, and what is lost stays lost. -/
structure Custody (step : σ → α → Option σ) (guard : σ → α → Prop) (ledger : σ → Ledger)
    (owner : σ → ℕ → Prop) (I : σ → Prop) : Prop where
  inv : ∀ t a u, I t → step t a = some u → I u
  owned : ∀ t a u, I t → (ledger t).Owned (owner t) → guard t a → step t a = some u →
    (ledger u).Owned (owner u)
  leak : ∀ t a u, I t → ¬ guard t a → step t a = some u → (ledger u).Lost (owner u)
  lost : ∀ t a u, I t → (ledger t).Lost (owner t) → step t a = some u → (ledger u).Lost (owner u)

namespace Custody

variable {step : σ → α → Option σ} {guard : σ → α → Prop} {ledger : σ → Ledger}
variable {owner : σ → ℕ → Prop} {I : σ → Prop} {s t : σ} {as : List α}

theorem owned_run (h : Custody step guard ledger owner I) (hs : I s)
    (hempty : (ledger s).live = []) (run : Run step guard s as t) :
    I t ∧ (ledger t).Owned (owner t) := by
  refine run.invariant (fun t => I t ∧ (ledger t).Owned (owner t)) ⟨hs, ?_⟩ ?_
  · intro r hr
    simp [hempty] at hr
  · rintro t a u ⟨ht, howned⟩ hguard moved
    exact ⟨h.inv t a u ht moved, h.owned t a u ht howned hguard moved⟩

/-- In the end, when there are no owners any more, everything has been released exactly
when nothing has leaked. -/
theorem live_nil_iff (h : Custody step guard ledger owner I) (hs : I s)
    (hempty : (ledger s).live = []) (run : Run step unguarded s as t)
    (hnone : ∀ r, ¬ owner t r) : (ledger t).live = [] ↔ Run step guard s as t := by
  constructor
  · intro hreleased
    have hcases := run.guarded_or guard (fun _ => I) (fun t => (ledger t).Lost (owner t)) hs
      (fun _ => h.inv) (fun _ => h.leak) (fun _ => h.lost)
    rcases hcases.2 with hrun | ⟨r, hr, _⟩
    · exact hrun
    · simp [hreleased] at hr
  · intro hrun
    refine List.eq_nil_iff_forall_not_mem.mpr fun r hr => ?_
    exact hnone r ((h.owned_run hs hempty hrun).2 r hr)

/-- A system has the custody of one that it drives. -/
theorem comap {τ β : Type*} {step' : τ → β → Option τ} {guard' : τ → β → Prop}
    (h : Custody step guard ledger owner I) (f : τ → σ)
    (hsim : ∀ t b u, step' t b = some u → (f u = f t ∧ guard' t b) ∨
      ∃ a, step (f t) a = some (f u) ∧ (guard' t b ↔ guard (f t) a)) :
    Custody step' guard' (fun t => ledger (f t)) (fun t => owner (f t)) (fun t => I (f t)) := by
  constructor
  · intro t b u ht moved
    rcases hsim t b u moved with ⟨heq, _⟩ | ⟨a, hstep, _⟩
    · exact heq ▸ ht
    · exact h.inv _ a _ ht hstep
  · intro t b u ht howned hguard moved
    rcases hsim t b u moved with ⟨heq, _⟩ | ⟨a, hstep, hiff⟩
    · exact heq ▸ howned
    · exact h.owned _ a _ ht howned (hiff.mp hguard) hstep
  · intro t b u ht hguard moved
    rcases hsim t b u moved with ⟨_, hallowed⟩ | ⟨a, hstep, hiff⟩
    · exact absurd hallowed hguard
    · exact h.leak _ a _ ht (mt hiff.mpr hguard) hstep
  · intro t b u ht hlost moved
    rcases hsim t b u moved with ⟨heq, _⟩ | ⟨a, hstep, _⟩
    · exact heq ▸ hlost
    · exact h.lost _ a _ ht hlost hstep

end Custody

end Custody

end ResourceLedger
