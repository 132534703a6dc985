import Mathlib.Data.Fintype.Basic
import Mathlib.Data.List.Nodup
import Wineing.GuardedRuns
import Wineing.LazyVersioning

/-!
# `lazy_update_global_if_owner` as a compare-and-set

Any number of threads call the function with any version and any data. The versions
are compared before the lock is taken and not again under it, so two threads that have
passed the comparison both write, one over the other. Where no thread passes it while
another that has passed it is still waiting to write, the calls are a compare-and-set. The
lock alone keeps their copies apart: only the holder that has made the newest publication
writes to `g_data`.
-/

namespace Wineing
open WCtrl GuardedRuns

namespace LazyPc

def writing : LazyPc → Bool
  | cmd .updateGlobalIfOwner | size .updateGlobalIfOwner | data .updateGlobalIfOwner => true
  | _ => false

end LazyPc

variable {ι : Type*}

/-- The updates that have found their version current and have not written it yet. -/
def PassedCompare (s : LazyState ℤ ι) (i : ι) : Prop :=
  (s.threads i).pc = .lock .updateGlobalIfOwner ∨ (s.threads i).pc = .version .updateGlobalIfOwner

/-- A call passes the comparison only while no other call is between the comparison
and the write of `g_version`. -/
def ComparesAlone (s : LazyState ℤ ι) : LazyAction ℤ ι → Prop
  | .run i => (s.threads i).pc = .compare .updateGlobalIfOwner →
      (s.threads i).tVersion = s.gVersion → ∀ j, ¬ PassedCompare s j
  | _ => True

instance (s : LazyState ℤ ι) (i : ι) : Decidable (PassedCompare s i) :=
  inferInstanceAs (Decidable (_ ∨ _))

instance [Fintype ι] (s : LazyState ℤ ι) : (a : LazyAction ℤ ι) → Decidable (ComparesAlone s a)
  | .run _ => inferInstanceAs (Decidable (_ → _ → ∀ j, ¬ PassedCompare s j))
  | .assign _ _ _ | .call _ _ => isTrue trivial

/-- The calls that apply their update write consecutive, pairwise distinct versions,
each over the version its caller passed. `g_data` is written by the holder of the lock that
has published the newest version, with the record of that publication, and carries it when
nobody is writing. The accesses of a refused call, from its comparison to its return, change
nothing. -/
structure CompareAndSetLaw [DecidableEq ι] (v₀ : ℤ) (s : LazyState ℤ ι) : Prop where
  consecutive : ∀ (k : ℕ) (p : Publication ℤ), s.published[k]? = some p → p.version = v₀ + k
  distinct : (s.published.map (·.version)).Nodup
  current : ∀ i, (s.threads i).pc = .version .updateGlobalIfOwner →
    (s.threads i).tVersion = s.gVersion
  written : ∀ i s', runThread s i = some s' → s'.gData ≠ s.gData →
    s.gLock = some i ∧ s.published.getLast? = some ⟨s.gVersion, (s.threads i).tData⟩
  settled : (∀ i, (s.threads i).pc.writing = false) →
    ∃ p, s.published.getLast? = some p ∧ p.version = s.gVersion ∧ Agrees s.gData p.ctrl
  refused : ∀ i s', runThread s i = some s' →
    (s.threads i).pc = .compare .updateGlobalIfOwner ∧ (s.threads i).tVersion ≠ s.gVersion ∨
      (s.threads i).pc = .reread ∨ (s.threads i).pc = .ret →
    s'.gVersion = s.gVersion ∧ s'.gData = s.gData ∧ s'.published = s.published ∧
      ((s'.threads i).pc = .reread ∨ (s'.threads i).pc = .ret ∨ (s'.threads i).pc = .idle)

/-- The program points and versions of the updates that are about to write. -/
structure CompareAndSetInv (v₀ : ℤ) (s : LazyState ℤ ι) : Prop where
  numbered : Numbered v₀ s
  passed : ∀ i, PassedCompare s i → (s.threads i).tVersion = s.gVersion
  alone : ∀ i j, PassedCompare s i → PassedCompare s j → i = j

/-- What an update has written of the publication `p`, at the points of its copy. -/
def CopiesTo (gData : WCtrl) (p : Publication ℤ) (t : LazyThread ℤ) : Prop :=
  match t.pc with
  | .cmd .updateGlobalIfOwner => t.tData = p.ctrl
  | .size .updateGlobalIfOwner => t.tData = p.ctrl ∧ gData.cmd = p.ctrl.cmd
  | .data .updateGlobalIfOwner =>
    t.tData = p.ctrl ∧ gData.cmd = p.ctrl.cmd ∧ gData.size = p.ctrl.size
  | _ => True

/-- The shared record is the newest publication, or its writer is about to make it so. -/
structure SharedInv (s : LazyState ℤ ι) : Prop where
  lock : LockOk s
  newest : ∃ p, s.published.getLast? = some p ∧ p.version = s.gVersion ∧
    (∀ i, CopiesTo s.gData p (s.threads i)) ∧
    ((∀ i, (s.threads i).pc.writing = false) → Agrees s.gData p.ctrl)

theorem copiesTo_of_outside {gData : WCtrl} {p : Publication ℤ} {t : LazyThread ℤ}
    (h : t.pc.writing = false) : CopiesTo gData p t := by
  cases hpc : t.pc with
  | cmd call | size call | data call => cases call <;> simp_all [CopiesTo, LazyPc.writing]
  | _ => simp [CopiesTo, hpc]

theorem LazyPc.critical_of_writing {pc : LazyPc} (h : pc.writing = true) : pc.critical = true := by
  cases pc <;> first | rfl | cases h

theorem SharedInv.eq_of_critical {s : LazyState ℤ ι} (h : SharedInv s) {i j : ι}
    (hi : (s.threads i).pc.critical = true) (hj : (s.threads j).pc.critical = true) : i = j :=
  Option.some.inj (((h.lock i).mpr hi).symm.trans ((h.lock j).mpr hj))

theorem Numbered.nodup {v₀ : ℤ} {s : LazyState ℤ ι} (h : Numbered v₀ s) :
    (s.published.map (·.version)).Nodup := by
  have heq : s.published.map (·.version) =
      (List.range s.published.length).map (fun k : ℕ => v₀ + (k : ℤ)) := by
    apply List.ext_getElem
    · simp
    · intro k hk hk'
      simp only [List.getElem_map, List.getElem_range]
      exact h.version k _ (List.getElem?_eq_getElem (by simpa using hk))
  rw [heq]
  exact List.nodup_range.map (fun a b hab => by simpa using hab)

section Steps

variable [DecidableEq ι] {v₀ : ℤ} {s s' : LazyState ℤ ι}

theorem runThread_refused {i : ι} (hr : runThread s i = some s')
    (h : (s.threads i).pc = .compare .updateGlobalIfOwner ∧ (s.threads i).tVersion ≠ s.gVersion ∨
      (s.threads i).pc = .reread ∨ (s.threads i).pc = .ret) :
    s'.gVersion = s.gVersion ∧ s'.gData = s.gData ∧ s'.published = s.published ∧
      ((s'.threads i).pc = .reread ∨ (s'.threads i).pc = .ret ∨ (s'.threads i).pc = .idle) := by
  rcases h with ⟨hpc, hv⟩ | hpc | hpc <;>
    simp only [runThread, hpc, Option.some.injEq] at hr <;> subst hr
  · exact ⟨rfl, rfl, rfl, .inl (by simp [hv])⟩
  · exact ⟨rfl, rfl, rfl, .inr (.inl (by simp))⟩
  · exact ⟨rfl, rfl, rfl, .inr (.inr (by simp))⟩

theorem runThread_gVersion {i : ι} (hr : runThread s i = some s') :
    s'.gVersion = s.gVersion ∧ s'.published = s.published ∨
    (s.threads i).pc = .version .updateGlobalIfOwner ∧
      (s'.threads i).pc = .cmd .updateGlobalIfOwner ∧
      s'.gVersion = (s.threads i).tVersion + 1 ∧
      s'.published = s.published ++ [⟨(s.threads i).tVersion + 1, (s.threads i).tData⟩] := by
  cases accesses_of_runThread hr with
  | writeVersion pc => exact .inr ⟨pc, by simp, rfl, rfl⟩
  | _ => exact .inl ⟨rfl, rfl⟩

private theorem passedCompare_of_run {i : ι} (hr : runThread s i = some s') (hp : PassedCompare s' i) :
    ((s.threads i).pc = .compare .updateGlobalIfOwner ∧ (s.threads i).tVersion = s.gVersion ∨
      PassedCompare s i) ∧
    (s'.threads i).tVersion = (s.threads i).tVersion ∧ s'.gVersion = s.gVersion := by
  cases accesses_of_runThread hr with
  | owns pc current => exact ⟨.inl ⟨pc, current⟩, by simp⟩
  | @lock call pc free =>
    obtain rfl : call = .updateGlobalIfOwner := by simpa [PassedCompare] using hp
    exact ⟨.inr (.inl pc), by simp⟩
  | refuse | unchanged | changed | reread | writeVersion | readVersion | writeCmd | readCmd
  | writeSize | readSize | writeData | readData | unlock | ret => simp [PassedCompare] at hp

private theorem compareAndSetInv_run {i : ι} (h : CompareAndSetInv v₀ s)
    (ha : ComparesAlone s (.run i)) (hr : runThread s i = some s') : CompareAndSetInv v₀ s' := by
  have hothers : ∀ j, j ≠ i → (PassedCompare s' j ↔ PassedCompare s j) := by
    intro j hj
    simp only [PassedCompare, runThread_threads_of_ne hr hj]
  rcases runThread_gVersion hr with ⟨hv, hp⟩ | ⟨hwrite, hpc', hv, hp⟩
  · refine ⟨h.numbered.frame hv hp, ?_, ?_⟩
    · intro j hj
      by_cases hji : j = i
      · subst hji
        obtain ⟨hold, ht, _⟩ := passedCompare_of_run hr hj
        rw [ht, hv]
        rcases hold with ⟨_, heq⟩ | hold
        · exact heq
        · exact h.passed j hold
      · rw [runThread_threads_of_ne hr hji, hv]
        exact h.passed j ((hothers j hji).mp hj)
    · -- the thread that moved is alone by the guard, or had passed the comparison before
      have hself : PassedCompare s' i → ∀ j, j ≠ i → ¬ PassedCompare s j := by
        intro hi j hji hj
        rcases (passedCompare_of_run hr hi).1 with ⟨hcmp, heq⟩ | hold
        · exact ha hcmp heq j hj
        · exact hji (h.alone j i hj hold)
      intro j k hj hk
      by_cases hji : j = i
      · by_cases hki : k = i
        · rw [hji, hki]
        · exact absurd ((hothers k hki).mp hk) (hself (hji ▸ hj) k hki)
      · by_cases hki : k = i
        · exact absurd ((hothers j hji).mp hj) (hself (hki ▸ hk) j hji)
        · exact h.alone j k ((hothers j hji).mp hj) ((hothers k hki).mp hk)
  · -- the owner writes, and nobody else has passed the comparison
    have hcur := h.passed i (.inr hwrite)
    have hnone : ∀ j, ¬ PassedCompare s' j := by
      intro j hj
      by_cases hji : j = i
      · subst hji
        simp [PassedCompare, hpc'] at hj
      · exact hji (h.alone j i ((hothers j hji).mp hj) (.inr hwrite))
    refine ⟨?_, fun j hj => absurd hj (hnone j), fun j _ hj => absurd hj (hnone j)⟩
    rw [hcur] at hv hp
    exact (h.numbered.writeVersion (s.threads i).tData).frame hv hp

theorem CompareAndSetInv.setThread (h : CompareAndSetInv v₀ s) (i : ι) (t : LazyThread ℤ)
    (ht : t.pc ≠ .lock .updateGlobalIfOwner ∧ t.pc ≠ .version .updateGlobalIfOwner) :
    CompareAndSetInv v₀ (s.setThread i t) := by
  have hpassed : ∀ j, PassedCompare (s.setThread i t) j → j ≠ i ∧ PassedCompare s j := by
    intro j hj
    by_cases hji : j = i
    · subst hji
      simp [PassedCompare, ht] at hj
    · refine ⟨hji, ?_⟩
      simpa only [PassedCompare, LazyState.setThread_threads_of_ne _ _ hji] using hj
  refine ⟨h.numbered.frame rfl rfl, ?_, ?_⟩
  · intro j hj
    obtain ⟨hji, hold⟩ := hpassed j hj
    rw [LazyState.setThread_threads_of_ne _ _ hji]
    exact h.passed j hold
  · intro j k hj hk
    exact h.alone j k (hpassed j hj).2 (hpassed k hk).2

theorem SharedInv.frame {i : ι} (h : SharedInv s) (hlock : LockOk s')
    (hsame : s'.gVersion = s.gVersion ∧ s'.gData = s.gData ∧ s'.published = s.published)
    (hothers : ∀ j, j ≠ i → s'.threads j = s.threads j)
    (hbefore : (s.threads i).pc.writing = false) (hafter : (s'.threads i).pc.writing = false) :
    SharedInv s' := by
  obtain ⟨hversion, hdata, hpublished⟩ := hsame
  obtain ⟨p, hlast, hp, hcopies, hsettled⟩ := h.newest
  refine ⟨hlock, p, hpublished ▸ hlast, hp.trans hversion.symm, fun j => ?_, fun hnone => ?_⟩
  · by_cases hj : j = i
    · exact copiesTo_of_outside (hj ▸ hafter)
    · rw [hothers j hj, hdata]
      exact hcopies j
  · rw [hdata]
    refine hsettled fun j => ?_
    by_cases hj : j = i
    · exact hj ▸ hbefore
    · exact hothers j hj ▸ hnone j

/-- The lock keeps all others from writing while thread `i` goes on with its copy. -/
theorem SharedInv.advance {i : ι} {p : Publication ℤ} (h : SharedInv s)
    (hr : runThread s i = some s') (hi : (s.threads i).pc.critical = true)
    (hlast : s'.published.getLast? = some p) (hp : p.version = s'.gVersion)
    (hcopies : CopiesTo s'.gData p (s'.threads i))
    (hsettled : (s'.threads i).pc.writing = false → Agrees s'.gData p.ctrl) : SharedInv s' := by
  refine ⟨lockOk_runThread h.lock hr, p, hlast, hp, fun j => ?_, fun hnone => hsettled (hnone i)⟩
  by_cases hj : j = i
  · exact hj ▸ hcopies
  · rw [runThread_threads_of_ne hr hj]
    refine copiesTo_of_outside ?_
    by_contra hwriting
    exact hj (h.eq_of_critical (LazyPc.critical_of_writing (by simpa using hwriting)) hi)

private theorem sharedInv_run {i : ι} (h : SharedInv s) (hr : runThread s i = some s') :
    SharedInv s' := by
  have hlock := lockOk_runThread h.lock hr
  have hothers := fun j (hj : j ≠ i) => runThread_threads_of_ne hr hj
  obtain ⟨p, hlast, hp, hcopies, _⟩ := h.newest
  have hi := hcopies i
  cases accesses_of_runThread hr with
  | owns pc | refuse pc | unchanged pc | changed pc | reread pc | lock pc | readVersion pc
  | readCmd pc | readSize pc | readData pc | unlock pc | ret pc =>
    exact h.frame hlock ⟨rfl, rfl, rfl⟩ hothers (by simp [pc, LazyPc.writing])
      (by simp [LazyPc.writing])
  | writeVersion pc =>
    refine h.advance (p := ⟨(s.threads i).tVersion + 1, (s.threads i).tData⟩) hr
      (by simp [pc, LazyPc.critical]) ?_ rfl ?_ ?_
    · simp [LazyState.writeVersion]
    · simp [CopiesTo]
    · simp [LazyPc.writing]
  | writeCmd pc =>
    have htData : (s.threads i).tData = p.ctrl := by simpa [CopiesTo, pc] using hi
    refine h.advance hr (by simp [pc, LazyPc.critical]) hlast hp ?_ ?_
    · simp [CopiesTo, copyCmd, htData]
    · simp [LazyPc.writing]
  | writeSize pc =>
    obtain ⟨htData, hcmd⟩ : (s.threads i).tData = p.ctrl ∧ s.gData.cmd = p.ctrl.cmd := by
      simpa [CopiesTo, pc] using hi
    refine h.advance hr (by simp [pc, LazyPc.critical]) hlast hp ?_ ?_
    · simp [CopiesTo, copySize, htData, hcmd]
    · simp [LazyPc.writing]
  | writeData pc =>
    obtain ⟨htData, hcmd, hsize⟩ : (s.threads i).tData = p.ctrl ∧ s.gData.cmd = p.ctrl.cmd ∧
        s.gData.size = p.ctrl.size := by simpa [CopiesTo, pc] using hi
    refine h.advance hr (by simp [pc, LazyPc.critical]) hlast hp ?_ fun _ => ?_
    · simp [CopiesTo]
    · rw [htData]
      exact copyData_agrees hcmd hsize

private theorem sharedInv_step {a : LazyAction ℤ ι} (h : SharedInv s) (hs : lazyStep s a = some s') :
    SharedInv s' := by
  have hlock := lockOk_lazyStep h.lock hs
  cases a with
  | run i => exact sharedInv_run h hs
  | assign i tVersion tData =>
    obtain ⟨hidle, rfl⟩ := lazyStep_assign hs
    exact h.frame hlock ⟨rfl, rfl, rfl⟩ (fun _ => LazyState.setThread_threads_of_ne _ _)
      (by simp [hidle, LazyPc.writing]) (by simp [LazyPc.writing])
  | call i call =>
    obtain ⟨hidle, rfl⟩ := lazyStep_call hs
    exact h.frame hlock ⟨rfl, rfl, rfl⟩ (fun _ => LazyState.setThread_threads_of_ne _ _)
      (by simp [hidle, LazyPc.writing]) (by simp [LazyPc.writing])

omit [DecidableEq ι] in
theorem sharedInv_initial (v₀ : ℤ) (gData : WCtrl) (tVersion : ι → ℤ) (tData : ι → WCtrl) :
    SharedInv (LazyState.initial v₀ gData tVersion tData) :=
  ⟨lockOk_initial _ _ _ _, ⟨v₀, gData⟩, rfl, rfl, fun _ => trivial, fun _ => .refl _⟩

theorem SharedInv.written {i : ι} (h : SharedInv s) (hr : runThread s i = some s')
    (hdata : s'.gData ≠ s.gData) :
    s.gLock = some i ∧ s.published.getLast? = some ⟨s.gVersion, (s.threads i).tData⟩ := by
  obtain ⟨p, hlast, hp, hcopies, _⟩ := h.newest
  have hi := hcopies i
  suffices hwrites : (s.threads i).pc.critical = true ∧ (s.threads i).tData = p.ctrl by
    refine ⟨(h.lock i).mpr hwrites.1, ?_⟩
    rw [hlast, ← hp, hwrites.2]
  cases accesses_of_runThread hr with
  | writeCmd pc | writeSize pc | writeData pc =>
    simp only [CopiesTo, pc] at hi
    exact ⟨by simp [pc, LazyPc.critical], by simp [hi]⟩
  | _ => exact absurd rfl hdata

private theorem compareAndSetInv_step {a : LazyAction ℤ ι} (h : CompareAndSetInv v₀ s)
    (ha : ComparesAlone s a) (hs : lazyStep s a = some s') : CompareAndSetInv v₀ s' := by
  cases a with
  | run i => exact compareAndSetInv_run h ha hs
  | assign i tVersion tData =>
    obtain ⟨_, rfl⟩ := lazyStep_assign hs
    exact h.setThread i _ (by simp)
  | call i call =>
    obtain ⟨_, rfl⟩ := lazyStep_call hs
    exact h.setThread i _ (by simp)

omit [DecidableEq ι] in
theorem compareAndSetInv_initial (v₀ : ℤ) (gData : WCtrl) (tVersion : ι → ℤ) (tData : ι → WCtrl) :
    CompareAndSetInv v₀ (LazyState.initial v₀ gData tVersion tData) := by
  refine ⟨numbered_initial _ _ _ _, ?_, ?_⟩ <;> intro i <;>
    simp [PassedCompare, LazyState.initial]

theorem CompareAndSetInv.law (h : CompareAndSetInv v₀ s) (hshared : SharedInv s) :
    CompareAndSetLaw v₀ s where
  consecutive := h.numbered.version
  distinct := h.numbered.nodup
  current i hi := h.passed i (.inr hi)
  written _ _ hr hdata := hshared.written hr hdata
  settled hnone := by
    obtain ⟨p, hlast, hp, _, hsettled⟩ := hshared.newest
    exact ⟨p, hlast, hp, hsettled hnone⟩
  refused _ _ hr := runThread_refused hr

/-- In a run whose calls pass the comparison one at a time, from any initial version and
with any versions and data passed, the compare-and-set law holds in every state. -/
theorem lazyUpdateGlobalIfOwner_compareAndSet (v₀ : ℤ) (gData : WCtrl) (tVersion : ι → ℤ)
    (tData : ι → WCtrl) (as : List (LazyAction ℤ ι)) (s : LazyState ℤ ι)
    (run : Run lazyStep ComparesAlone (.initial v₀ gData tVersion tData) as s) :
    CompareAndSetLaw v₀ s := by
  have hinv := run.invariant (CompareAndSetInv v₀) (compareAndSetInv_initial _ _ _ _)
    (fun _ _ _ => compareAndSetInv_step)
  have hshared := run.invariant SharedInv (sharedInv_initial _ _ _ _)
    (fun _ _ _ ht _ => sharedInv_step ht)
  exact hinv.law hshared

end Steps

/-- The second thread compares after the first has written. -/
def successiveUpdates : List (LazyAction ℤ Bool) :=
  [.call false .updateGlobalIfOwner, .call true .updateGlobalIfOwner] ++
    List.replicate 8 (.run false) ++ List.replicate 3 (.run true)

theorem lazyUpdateGlobalIfOwner_compareAndSet_bool : ∃ s : LazyState ℤ Bool,
    Run lazyStep ComparesAlone
      (.initial 0 ⟨4, fun _ => 0, 0⟩ (fun _ => 0) (fun _ => ⟨3, fun _ => 0, 0⟩))
      successiveUpdates s ∧
    s.published.map (·.version) = [0, 1] ∧ CompareAndSetLaw 0 s := by
  obtain ⟨s, run, hs⟩ := exists_run_of_foldlM_map lazyStep ComparesAlone
    (.initial 0 ⟨4, fun _ => 0, 0⟩ (fun _ : Bool => 0) (fun _ => ⟨3, fun _ => 0, 0⟩))
    successiveUpdates (fun s => s.published.map (·.version)) (b := [0, 1]) (by decide)
  exact ⟨s, run, hs, lazyUpdateGlobalIfOwner_compareAndSet 0 _ _ _ _ s run⟩

/-- Both threads compare before either takes the lock. -/
def overlappingUpdates : List (LazyAction ℤ Bool) :=
  [.call false .updateGlobalIfOwner, .call true .updateGlobalIfOwner, .run false, .run true] ++
    List.replicate 7 (.run false) ++ List.replicate 7 (.run true)

/-- Two threads that hold the current version 0 both write version 1, the second over
the data of the first. -/
theorem lazyUpdateGlobalIfOwner_not_compareAndSet :
    ∃ s : LazyState ℤ Bool,
      Run lazyStep unguarded
        (.initial 0 ⟨4, fun _ => 0, 0⟩ (fun _ => 0) (fun _ => ⟨3, fun _ => 0, 0⟩))
        overlappingUpdates s ∧ ¬ CompareAndSetLaw 0 s := by
  obtain ⟨s, hrun, hs⟩ := exists_run_of_foldlM_map lazyStep unguarded
    (.initial 0 ⟨4, fun _ => 0, 0⟩ (fun _ : Bool => 0) (fun _ => ⟨3, fun _ => 0, 0⟩))
    overlappingUpdates (fun s => s.published.map (·.version)) (b := [0, 1, 1]) (by decide)
  refine ⟨s, hrun, fun hlaw => ?_⟩
  have hdistinct := hlaw.distinct
  rw [hs] at hdistinct
  exact absurd hdistinct (by decide)

end Wineing
