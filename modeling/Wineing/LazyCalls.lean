import Mathlib.Algebra.GroupWithZero.Basic
import Mathlib.Algebra.Ring.Basic
import Wineing.LazySingleWriter

/-!
# Whole calls of the two lazy functions

Any number of threads call `lazy_update_global_if_owner` and `lazy_update_local_if_changed`
one call after the other, each with the version its previous call returned. A whole call
is a run of the accesses it is made of. A refused update hands out the newest version
without its data, and the next refresh then takes the thread's record for current.
-/

namespace Wineing
open WCtrl GuardedRuns

structure LazyShared (V : Type*) where
  gVersion : V
  gData : WCtrl

/-- What an update returns and leaves; `applied` tells that it called `fn`. -/
structure UpdateReturn (V : Type*) where
  version : V
  shared : LazyShared V
  applied : Bool

section Calls

variable {V ι : Type*} [Ring V] [DecidableEq V]

def lazyUpdateGlobalIfOwner (tVersion : V) (tData : WCtrl) (g : LazyShared V) : UpdateReturn V :=
  if tVersion = g.gVersion then
    ⟨tVersion + 1, ⟨tVersion + 1, copyLocalToShared tData g.gData⟩, true⟩
  else ⟨g.gVersion, g, false⟩

omit [Ring V] in
/-- The version returned and the thread's record afterwards. -/
def lazyUpdateLocalIfChanged (tVersion : V) (tData : WCtrl) (g : LazyShared V) : V × WCtrl :=
  if tVersion = g.gVersion then (tVersion, tData)
  else (g.gVersion, copySharedToLocal tData g.gData)

/-- An update writes the next version and the caller's data, or nothing. Comparing its result
with the version passed plus one tells which, unless the shared version is exactly one ahead. -/
theorem lazyUpdateGlobalIfOwner_tells_iff [Nontrivial V] (tVersion : V) (tData : WCtrl)
    (g : LazyShared V) :
    ((lazyUpdateGlobalIfOwner tVersion tData g).shared =
      if (lazyUpdateGlobalIfOwner tVersion tData g).applied then
        ⟨tVersion + 1, copyLocalToShared tData g.gData⟩ else g) ∧
    (((lazyUpdateGlobalIfOwner tVersion tData g).version = tVersion + 1 ↔
      (lazyUpdateGlobalIfOwner tVersion tData g).applied = true) ↔
    g.gVersion ≠ tVersion + 1) := by
  unfold lazyUpdateGlobalIfOwner
  by_cases hv : tVersion = g.gVersion
  · simp [← hv]
  · simp [hv]

theorem lazyUpdateGlobalIfOwner_tells_iff_behind :
    (lazyUpdateGlobalIfOwner (-1 : ℤ) ⟨wineingCtrlCmdMarketRun, fun _ => 98, 0⟩
        ⟨2, ⟨wineingCtrlCmdInit, fun _ => 97, 1⟩⟩).version = -1 + 1 ↔
      (lazyUpdateGlobalIfOwner (-1 : ℤ) ⟨wineingCtrlCmdMarketRun, fun _ => 98, 0⟩
        ⟨2, ⟨wineingCtrlCmdInit, fun _ => 97, 1⟩⟩).applied = true :=
  (lazyUpdateGlobalIfOwner_tells_iff (-1 : ℤ) _ _).2.mpr (by decide)

end Calls

namespace LazyState

variable {V ι : Type*}

def shared (s : LazyState V ι) : LazyShared V := ⟨s.gVersion, s.gData⟩

def Quiescent (s : LazyState V ι) : Prop :=
  s.gLock = none ∧ ∀ i, (s.threads i).pc = .idle

variable [DecidableEq ι] [DecidableEq V]

def refresh (s : LazyState V ι) (i : ι) : LazyState V ι :=
  let t := s.threads i
  let r := lazyUpdateLocalIfChanged t.tVersion t.tData s.shared
  s.setThread i ⟨r.1, r.2, .idle⟩

def update [Ring V] (s : LazyState V ι) (i : ι) (tData : WCtrl) : LazyState V ι :=
  let r := lazyUpdateGlobalIfOwner (s.threads i).tVersion tData s.shared
  let published : List (Publication V) :=
    if r.applied then s.published ++ [⟨r.version, tData⟩] else s.published
  { s with gVersion := r.shared.gVersion, gData := r.shared.gData, published }.setThread i
    ⟨r.version, tData, .idle⟩

end LazyState

section Runs

variable {V ι : Type*} [DecidableEq ι] {s : LazyState V ι}

theorem quiescent_setThread (hs : s.Quiescent) (i : ι) (tVersion : V) (tData : WCtrl) :
    (s.setThread i ⟨tVersion, tData, .idle⟩).Quiescent := by
  refine ⟨hs.1, fun j => ?_⟩
  by_cases hj : j = i
  · subst hj
    rw [LazyState.setThread_threads_self]
  · rw [LazyState.setThread_threads_of_ne _ _ hj]
    exact hs.2 j

variable [DecidableEq V]

private theorem quiescent_refresh (hs : s.Quiescent) (i : ι) : (s.refresh i).Quiescent :=
  quiescent_setThread hs i _ _

variable [Ring V]

theorem quiescent_update (hs : s.Quiescent) (i : ι) (tData : WCtrl) :
    (s.update i tData).Quiescent :=
  quiescent_setThread (s := { s with gVersion := _, gData := _, published := _ }) hs i _ tData

private theorem run_update (hs : s.Quiescent) (i : ι) (tData : WCtrl) :
    ∃ as, Run lazyStep unguarded s as (s.update i tData) := by
  obtain ⟨hfree, hidle⟩ := hs
  have hi := hidle i
  by_cases hv : (s.threads i).tVersion = s.gVersion
  · refine ⟨[.assign i (s.threads i).tVersion tData, .call i .updateGlobalIfOwner] ++
      List.replicate 8 (.run i), Run.of_foldlM ?_⟩
    simp [guardedStep, unguarded, lazyStep, runThread, LazyState.update, LazyState.shared,
      LazyState.setThread, LazyState.writeVersion, lazyUpdateGlobalIfOwner, copyLocalToShared,
      hi, hv, hfree]
  · refine ⟨[.assign i (s.threads i).tVersion tData, .call i .updateGlobalIfOwner] ++
      List.replicate 3 (.run i), Run.of_foldlM ?_⟩
    simp [guardedStep, unguarded, lazyStep, runThread, LazyState.update, LazyState.shared,
      LazyState.setThread, lazyUpdateGlobalIfOwner, hi, hv]

private theorem run_refresh (hs : s.Quiescent) (i : ι) :
    ∃ as, Run lazyStep unguarded s as (s.refresh i) := by
  obtain ⟨hfree, hidle⟩ := hs
  have hi := hidle i
  by_cases hv : (s.threads i).tVersion = s.gVersion
  · refine ⟨[.call i .updateLocalIfChanged] ++ List.replicate 2 (.run i), Run.of_foldlM ?_⟩
    simp [guardedStep, unguarded, lazyStep, runThread, LazyState.refresh, LazyState.shared,
      LazyState.setThread, lazyUpdateLocalIfChanged, hi, hv]
  · refine ⟨[.call i .updateLocalIfChanged] ++ List.replicate 8 (.run i), Run.of_foldlM ?_⟩
    simp [guardedStep, unguarded, lazyStep, runThread, LazyState.refresh, LazyState.shared,
      LazyState.setThread, lazyUpdateLocalIfChanged, copySharedToLocal, hi, hv, hfree]

end Runs

/-- `refused i` tells that the last call of thread `i` was a refused update. No call
reads it. -/
structure CallState (V ι : Type*) where
  lazy : LazyState V ι
  refused : ι → Bool

inductive WholeCall (ι : Type*)
  | update (i : ι) (tData : WCtrl)
  | refresh (i : ι)

section CallRuns

variable {V ι : Type*} [DecidableEq ι] [Ring V] [DecidableEq V]

def callStep (s : CallState V ι) : WholeCall ι → Option (CallState V ι)
  | .update i tData =>
    let r := lazyUpdateGlobalIfOwner (s.lazy.threads i).tVersion tData s.lazy.shared
    some ⟨s.lazy.update i tData, Function.update s.refused i (!r.applied)⟩
  | .refresh i => some ⟨s.lazy.refresh i, Function.update s.refused i false⟩

/-- Calls one after the other are a run of their accesses. -/
theorem lazyRun_of_callRun {guard : CallState V ι → WholeCall ι → Prop} {s t : CallState V ι}
    {as : List (WholeCall ι)} (run : Run callStep guard s as t) (hs : s.lazy.Quiescent) :
    t.lazy.Quiescent ∧ ∃ bs, Run lazyStep unguarded s.lazy bs t.lazy := by
  refine run.invariant
    (fun t => t.lazy.Quiescent ∧ ∃ bs, Run lazyStep unguarded s.lazy bs t.lazy)
    ⟨hs, [], .refl⟩ ?_
  rintro t a u ⟨ht, bs, hbs⟩ _ moved
  cases a with
  | update i tData =>
    obtain rfl := Option.some.inj moved
    obtain ⟨cs, hcs⟩ := run_update ht i tData
    exact ⟨quiescent_update ht i tData, bs ++ cs, hbs.trans hcs⟩
  | refresh i =>
    obtain rfl := Option.some.inj moved
    obtain ⟨cs, hcs⟩ := run_refresh ht i
    exact ⟨quiescent_refresh ht i, bs ++ cs, hbs.trans hcs⟩

def CallState.initial (gVersion : V) (gData : WCtrl) (tVersion : ι → V) (tData : ι → WCtrl) :
    CallState V ι :=
  ⟨.initial gVersion gData tVersion tData, fun _ => false⟩

end CallRuns

/-- Two threads hold version 0. After the first has updated, the second's refused update
returns the 1 that it would return had it been applied, and leaves the first's data. -/
theorem lazyUpdateGlobalIfOwner_refused_as_applied : ∃ s : CallState ℤ Bool,
    Run callStep unguarded (.initial 0 ⟨wineingCtrlCmdInit, fun _ => 0, 0⟩ (fun _ => 0)
      (fun _ => ⟨wineingCtrlCmdInit, fun _ => 0, 0⟩))
      [.update false ⟨wineingCtrlCmdMarketRun, fun _ => 97, 1⟩] s ∧
    (s.lazy.threads true).tVersion = 0 ∧
    (lazyUpdateGlobalIfOwner (s.lazy.threads true).tVersion
      ⟨wineingCtrlCmdMarketStop, fun _ => 98, 1⟩ s.lazy.shared).version = 0 + 1 ∧
    (lazyUpdateGlobalIfOwner (s.lazy.threads true).tVersion
      ⟨wineingCtrlCmdMarketStop, fun _ => 98, 1⟩ s.lazy.shared).applied = false ∧
    (lazyUpdateGlobalIfOwner (s.lazy.threads true).tVersion
      ⟨wineingCtrlCmdMarketStop, fun _ => 98, 1⟩ s.lazy.shared).shared.gData.cmd =
        wineingCtrlCmdMarketRun := by
  obtain ⟨s, run, hs⟩ := exists_run_of_foldlM_map callStep unguarded
    (.initial 0 ⟨wineingCtrlCmdInit, fun _ => 0, 0⟩ (fun _ => 0)
      (fun _ => ⟨wineingCtrlCmdInit, fun _ => 0, 0⟩) : CallState ℤ Bool)
    [.update false ⟨wineingCtrlCmdMarketRun, fun _ => 97, 1⟩]
    (fun s => ((s.lazy.threads true).tVersion, s.lazy.gVersion, s.lazy.gData.cmd))
    (b := (0, 1, wineingCtrlCmdMarketRun)) (by decide)
  simp only [Prod.mk.injEq] at hs
  obtain ⟨hversion, hg, hcmd⟩ := hs
  refine ⟨s, run, hversion, ?_, ?_, ?_⟩ <;>
    simp [lazyUpdateGlobalIfOwner, LazyState.shared, hversion, hg, hcmd]

/-- A thread whose update was refused does not refresh before another update is applied. -/
def RefreshesChanged {ι : Type*} (s : CallState ℤ ι) : WholeCall ι → Prop
  | .update _ _ => True
  | .refresh i => s.refused i = true → (s.lazy.threads i).tVersion ≠ s.lazy.gVersion

instance {ι : Type*} (s : CallState ℤ ι) : (a : WholeCall ι) → Decidable (RefreshesChanged s a)
  | .update _ _ => isTrue trivial
  | .refresh _ => inferInstanceAs (Decidable (_ → _ ≠ _))

/-- A thread holds the data of its version, unless it has never synchronised or its last
call was a refused update. -/
structure CallInv {ι : Type*} (v₀ : ℤ) (s : CallState ℤ ι) : Prop where
  numbered : Numbered v₀ s.lazy
  shared : Recorded s.lazy.published s.lazy.gVersion s.lazy.gData
  thread : ∀ i, s.refused i = false → (s.lazy.threads i).tVersion = -1 ∨
    Recorded s.lazy.published (s.lazy.threads i).tVersion (s.lazy.threads i).tData

section Refreshes

variable {ι : Type*} {v₀ : ℤ} {s s' : CallState ℤ ι}

theorem callInv_initial {gData : WCtrl} {tVersion : ι → ℤ} {tData : ι → WCtrl}
    (hstart : ∀ i, tVersion i = -1 ∨ (tVersion i = v₀ ∧ Agrees (tData i) gData)) :
    CallInv v₀ (CallState.initial v₀ gData tVersion tData) := by
  have hmem : (⟨v₀, gData⟩ : Publication ℤ) ∈
      (CallState.initial v₀ gData tVersion tData).lazy.published := List.mem_singleton.mpr rfl
  refine ⟨numbered_initial _ _ _ _, ⟨_, hmem, rfl, .refl _⟩, fun i _ => ?_⟩
  rcases hstart i with hnever | ⟨hv, hagrees⟩
  · exact .inl hnever
  · exact .inr ⟨_, hmem, hv.symm, hagrees⟩

variable [DecidableEq ι]

private theorem callInv_update (h : CallInv v₀ s) (i : ι) (tData : WCtrl)
    (hs : callStep s (.update i tData) = some s') : CallInv v₀ s' := by
  obtain rfl := Option.some.inj hs
  by_cases hv : (s.lazy.threads i).tVersion = s.lazy.gVersion
  · -- the update is applied: thread and shared record hold the new publication
    have hnew := h.numbered.writeVersion tData
    have hrecorded := recorded_writeVersion s.lazy tData (s.lazy.gVersion + 1)
    have hcopied : Agrees (copyLocalToShared tData s.lazy.gData) tData := copyData_agrees rfl rfl
    refine ⟨?_, ?_, ?_⟩
    · refine hnew.frame ?_ ?_ <;>
        simp [LazyState.update, lazyUpdateGlobalIfOwner, LazyState.shared, LazyState.writeVersion, hv]
    · simpa [LazyState.update, lazyUpdateGlobalIfOwner, LazyState.shared, LazyState.writeVersion, hv]
        using hrecorded.of_agrees hcopied
    · intro j hj
      by_cases hji : j = i
      · subst hji
        refine .inr ?_
        simpa [LazyState.update, lazyUpdateGlobalIfOwner, LazyState.shared, LazyState.writeVersion, hv]
          using hrecorded
      · have hold := h.thread j (by simpa [hji] using hj)
        simp only [LazyState.update, LazyState.setThread_threads_of_ne _ _ hji,
          LazyState.setThread_published]
        refine hold.imp_right fun hold => ?_
        simpa [lazyUpdateGlobalIfOwner, LazyState.shared, hv] using hold.append _
  · refine ⟨?_, ?_, ?_⟩
    · refine h.numbered.frame ?_ ?_ <;>
        simp [LazyState.update, lazyUpdateGlobalIfOwner, LazyState.shared, hv]
    · simpa [LazyState.update, lazyUpdateGlobalIfOwner, LazyState.shared, hv] using h.shared
    · intro j hj
      by_cases hji : j = i
      · subst hji
        simp [lazyUpdateGlobalIfOwner, LazyState.shared, hv] at hj
      · have hold := h.thread j (by simpa [hji] using hj)
        simpa [LazyState.update, LazyState.setThread_threads_of_ne _ _ hji, lazyUpdateGlobalIfOwner,
          LazyState.shared, hv] using hold

private theorem callInv_refresh (h : CallInv v₀ s) (hv₀ : 0 ≤ v₀) (i : ι)
    (hchanged : RefreshesChanged s (.refresh i)) (hs : callStep s (.refresh i) = some s') :
    CallInv v₀ s' ∧
      Recorded s'.lazy.published (s'.lazy.threads i).tVersion (s'.lazy.threads i).tData := by
  obtain rfl := Option.some.inj hs
  have hcaller : Recorded (s.lazy.refresh i).published ((s.lazy.refresh i).threads i).tVersion
      ((s.lazy.refresh i).threads i).tData := by
    by_cases hv : (s.lazy.threads i).tVersion = s.lazy.gVersion
    · -- the copy is skipped, so the last call was no refused update
      have hlast : s.refused i = false := by
        by_contra hrefused
        exact hchanged (by simpa using hrefused) hv
      have hnonneg := h.numbered.le_newest
      have hsync := (h.thread i hlast).resolve_left (by omega)
      simpa [LazyState.refresh, lazyUpdateLocalIfChanged, LazyState.shared, hv] using hsync
    · have hcopied : Agrees (copySharedToLocal (s.lazy.threads i).tData s.lazy.gData) s.lazy.gData :=
        copyData_agrees rfl rfl
      simpa [LazyState.refresh, lazyUpdateLocalIfChanged, LazyState.shared, hv] using
        h.shared.of_agrees hcopied
  refine ⟨⟨h.numbered.frame rfl rfl, h.shared, fun j hj => ?_⟩, hcaller⟩
  by_cases hji : j = i
  · subst hji
    exact .inr hcaller
  · have hold := h.thread j (by simpa [hji] using hj)
    simpa [LazyState.refresh, LazyState.setThread_threads_of_ne _ _ hji] using hold

private theorem callInv_step (h : CallInv v₀ s) (hv₀ : 0 ≤ v₀) {a : WholeCall ι}
    (ha : RefreshesChanged s a) (hs : callStep s a = some s') : CallInv v₀ s' := by
  cases a with
  | update i tData => exact callInv_update h i tData hs
  | refresh i => exact (callInv_refresh h hv₀ i ha hs).1

/-- After every return of a refresh the thread's record is the publication of the version
returned, unless the thread's last call was a refused update and nothing was published
since. -/
theorem refresh_loads_current (hv₀ : 0 ≤ v₀) {gData : WCtrl} {tVersion : ι → ℤ}
    {tData : ι → WCtrl}
    (hstart : ∀ i, tVersion i = -1 ∨ (tVersion i = v₀ ∧ Agrees (tData i) gData))
    {as : List (WholeCall ι)} {i : ι}
    (run : Run callStep RefreshesChanged (.initial v₀ gData tVersion tData)
      (as ++ [.refresh i]) s) :
    Recorded s.lazy.published (s.lazy.threads i).tVersion (s.lazy.threads i).tData ∧
      (s.lazy.threads i).tVersion = s.lazy.gVersion := by
  obtain ⟨t, before, allowed, moved⟩ := run.snoc_inv
  have hinv := before.invariant (CallInv v₀) (callInv_initial hstart)
    (fun _ _ _ hinv ha hs => callInv_step hinv hv₀ ha hs)
  refine ⟨(callInv_refresh hinv hv₀ i allowed moved).2, ?_⟩
  obtain rfl := Option.some.inj moved
  by_cases hv : (t.lazy.threads i).tVersion = t.lazy.gVersion <;>
    simp [LazyState.refresh, lazyUpdateLocalIfChanged, LazyState.shared, hv]

theorem refresh_loads_current_bool : ∃ s : CallState ℤ Bool,
    Run callStep RefreshesChanged (.initial 0 ⟨wineingCtrlCmdInit, fun _ => 0, 0⟩
      (fun i => if i then -1 else 0) (fun _ => ⟨wineingCtrlCmdInit, fun _ => 0, 0⟩))
      ([.update false ⟨wineingCtrlCmdMarketRun, fun _ => 97, 1⟩] ++ [.refresh true]) s ∧
    (s.lazy.threads true).tVersion = 1 ∧
    Recorded s.lazy.published (s.lazy.threads true).tVersion (s.lazy.threads true).tData := by
  obtain ⟨s, run, hs⟩ := exists_run_of_foldlM_map callStep RefreshesChanged
    (.initial 0 ⟨wineingCtrlCmdInit, fun _ => 0, 0⟩ (fun i => if i then -1 else 0)
      (fun _ => ⟨wineingCtrlCmdInit, fun _ => 0, 0⟩) : CallState ℤ Bool)
    ([.update false ⟨wineingCtrlCmdMarketRun, fun _ => 97, 1⟩] ++ [.refresh true])
    (fun s => (s.lazy.threads true).tVersion) (b := 1) (by decide)
  have hloaded := refresh_loads_current (by decide)
    (by rintro ⟨⟩; exacts [.inr ⟨rfl, .refl _⟩, .inl rfl]) run
  exact ⟨s, run, hs, hloaded.1⟩

/-- Both threads start with the initial data at version 0. The second thread's update is
refused, and its refresh then skips the copy of the first thread's publication. -/
theorem refresh_skips_after_refused_update : ∃ s : CallState ℤ Bool,
    Run callStep unguarded (.initial 0 ⟨wineingCtrlCmdInit, fun _ => 0, 0⟩ (fun _ => 0)
      (fun _ => ⟨wineingCtrlCmdInit, fun _ => 0, 0⟩))
      [.update false ⟨wineingCtrlCmdMarketRun, fun _ => 97, 1⟩,
        .update true ⟨wineingCtrlCmdInit, fun _ => 0, 0⟩, .refresh true] s ∧
    (s.lazy.threads true).tVersion = s.lazy.gVersion ∧
    ¬ Recorded s.lazy.published (s.lazy.threads true).tVersion (s.lazy.threads true).tData := by
  obtain ⟨s, run, hs⟩ := exists_run_of_foldlM_map callStep unguarded
    (.initial 0 ⟨wineingCtrlCmdInit, fun _ => 0, 0⟩ (fun _ => 0)
      (fun _ => ⟨wineingCtrlCmdInit, fun _ => 0, 0⟩) : CallState ℤ Bool)
    [.update false ⟨wineingCtrlCmdMarketRun, fun _ => 97, 1⟩,
      .update true ⟨wineingCtrlCmdInit, fun _ => 0, 0⟩, .refresh true]
    (fun s => ((s.lazy.threads true).tVersion, s.lazy.gVersion, (s.lazy.threads true).tData.cmd,
      s.lazy.published.map fun p => (p.version, p.ctrl.cmd)))
    (b := (1, 1, wineingCtrlCmdInit, [(0, wineingCtrlCmdInit), (1, wineingCtrlCmdMarketRun)]))
    (by decide)
  simp only [Prod.mk.injEq] at hs
  obtain ⟨hversion, hg, hcmd, hpublished⟩ := hs
  refine ⟨s, run, hversion.trans hg.symm, ?_⟩
  rintro ⟨p, hp, hpv, hagrees⟩
  have hmem : (p.version, p.ctrl.cmd) ∈
      [((0 : ℤ), wineingCtrlCmdInit), (1, wineingCtrlCmdMarketRun)] :=
    hpublished ▸ List.mem_map_of_mem hp
  rw [hpv, hversion, ← hagrees.1, hcmd] at hmem
  exact absurd hmem (by decide)

end Refreshes

end Wineing
