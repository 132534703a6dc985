import Wineing.LazySingleWriter

/-!
# The shared record is an atomic register

A refresh takes effect at one access: where the compared versions are equal, or where
`g_version` is read under the lock. From there on the reader's version is fixed and is
the newest of that moment, so results are never older than the call and never go back.
-/

namespace Wineing
open WCtrl GuardedRuns

namespace LazyPc

/-- The points of a call at which the returned version is not fixed yet. -/
def pending : LazyPc → Bool
  | compare _ | reread | lock _ | version _ => true
  | _ => false

end LazyPc

variable {ι : Type*}

namespace LazyState

def newestCmd {V : Type*} (s : LazyState V ι) : ℤ :=
  (s.published.getLast?.map (·.ctrl.cmd)).getD wineingCtrlCmdInit

theorem newestCmd_of_last {V : Type*} {s : LazyState V ι} {k : ℕ} {p : Publication V}
    (hk : s.published.length = k + 1) (hp : s.published[k]? = some p) :
    s.newestCmd = p.ctrl.cmd := by
  have hlast : s.published.getLast? = some p := by
    rw [List.getLast?_eq_getElem?, hk]
    exact hp
  simp [newestCmd, hlast]

/-- Publications whose call to `lazy_update_global_if_owner` has begun. -/
def begun (w : ι) (s : LazyState ℤ ι) : ℤ := s.gVersion + (s.threads w).pc.pending.toNat

/-- Publications whose copy is complete and visible: all that have begun but the one whose
call still holds or awaits the lock. -/
def completed (w : ι) (s : LazyState ℤ ι) : ℤ :=
  s.begun w - match (s.threads w).pc with
    | .idle | .ret => 0
    | _ => 1

theorem completed_le_gVersion (w : ι) (s : LazyState ℤ ι) : s.completed w ≤ s.gVersion := by
  unfold completed begun
  cases (s.threads w).pc <;> simp [LazyPc.pending]

end LazyState

variable {w : ι} {s s' : LazyState ℤ ι}

theorem Recorded.version_mem {v : ℤ} {c : WCtrl} (h : Recorded s.published v c)
    (hn : Numbered 0 s) : ∃ (k : ℕ) (p : Publication ℤ), v = k ∧ s.published[k]? = some p ∧
      Agrees c p.ctrl := by
  obtain ⟨p, hp, hv, hc⟩ := h
  obtain ⟨k, hk⟩ := List.mem_iff_getElem?.mp hp
  exact ⟨k, p, by rw [← hv, hn.version k p hk, zero_add], hk, hc⟩

theorem Recorded.le_gVersion {v : ℤ} {c : WCtrl} (h : Recorded s.published v c)
    (hn : Numbered 0 s) : 0 ≤ v ∧ v ≤ s.gVersion := by
  obtain ⟨k, p, hv, hk, _⟩ := h.version_mem hn
  have hlen := (List.getElem?_eq_some_iff.mp hk).1
  have hnew := hn.newest
  omega

theorem Recorded.cmd_eq_newestCmd {c : WCtrl} (h : Recorded s.published s.gVersion c)
    (hn : Numbered 0 s) : c.cmd = s.newestCmd := by
  obtain ⟨k, p, hv, hk, hc⟩ := h.version_mem hn
  have hnew := hn.newest
  rw [LazyState.newestCmd_of_last (by omega) hk, hc.cmd]

theorem SingleWriterInv.reader_le (h : SingleWriterInv w s) {i : ι} (hi : i ≠ w) :
    (s.threads i).tVersion ≤ s.gVersion := by
  have hok := h.reader i hi
  have hnonneg := h.numbered.le_newest
  have hsynced : ((s.threads i).tVersion = -1 ∨
      Recorded s.published (s.threads i).tVersion (s.threads i).tData) →
      (s.threads i).tVersion ≤ s.gVersion := by
    rintro (hv | hv)
    · omega
    · exact (hv.le_gVersion h.numbered).2
  cases hpc : (s.threads i).pc with
  | idle => exact hsynced (by simpa only [ReaderOk, hpc] using hok)
  | ret => exact hsynced (.inr (by simpa only [ReaderOk, hpc] using hok))
  | reread => simp [ReaderOk, hpc] at hok
  | compare call | lock call | version call =>
    cases call <;> simp only [ReaderOk, hpc] at hok
    exact hsynced hok
  | cmd call =>
    cases call <;> simp only [ReaderOk, hpc] at hok
    exact hok.le
  | size call | data call | unlock call =>
    cases call <;> simp only [ReaderOk, hpc] at hok
    exact hok.1.le

theorem SingleWriterInv.shared_cmd (h : SingleWriterInv w s) {i : ι} (hi : i ≠ w)
    (hc : (s.threads i).pc.critical = true) : s.gData.cmd = s.newestCmd :=
  (h.shared_complete (h.writer_outside hi hc)).cmd_eq_newestCmd h.numbered

section Steps

variable [DecidableEq ι]

/-- The access at which a refresh takes effect: the versions compare equal, or
`g_version` is read under the lock. -/
def Settles (s : LazyState ℤ ι) (i : ι) : Prop :=
  ((s.threads i).pc = .compare .updateLocalIfChanged ∧ (s.threads i).tVersion = s.gVersion) ∨
    (s.threads i).pc = .version .updateLocalIfChanged

instance (s : LazyState ℤ ι) (i : ι) : Decidable (Settles s i) :=
  inferInstanceAs (Decidable ((_ ∧ _) ∨ _))

/-- A reader's version changes at one access of its call only, and becomes the newest. -/
theorem reader_settles {i : ι} (h : ReaderOk s (s.threads i)) (hr : runThread s i = some s') :
    ((s'.threads i).pc.pending = (s.threads i).pc.pending ∧
      (s'.threads i).tVersion = (s.threads i).tVersion) ∨
    (Settles s i ∧ (s'.threads i).pc.pending = false ∧ (s'.threads i).tVersion = s.gVersion) := by
  cases accesses_of_runThread hr with
  | owns pc | refuse pc | reread pc | writeVersion pc | writeCmd pc | writeSize pc | writeData pc =>
    simp [ReaderOk, pc] at h
  | unchanged pc current => exact .inr ⟨.inl ⟨pc, current⟩, by simp [LazyPc.pending, current]⟩
  | readVersion pc => exact .inr ⟨.inr pc, by simp [LazyPc.pending]⟩
  | changed pc | lock pc | readCmd pc | readSize pc | readData pc | unlock pc | ret pc =>
    exact .inl (by simp [pc, LazyPc.pending])

theorem singleWriter_published {a : LazyAction ℤ ι} (hs : lazyStep s a = some s') :
    ∃ qs, s'.published = s.published ++ qs := by
  cases a with
  | run i => exact runThread_published hs
  | assign i tVersion tData =>
    obtain ⟨_, rfl⟩ := lazyStep_assign hs
    exact ⟨[], by simp⟩
  | call i call =>
    obtain ⟨_, rfl⟩ := lazyStep_call hs
    exact ⟨[], by simp⟩

theorem gVersion_mono {a : LazyAction ℤ ι} (h : SingleWriterInv w s)
    (ha : SingleWriter w s a) (hs : lazyStep s a = some s') : s.gVersion ≤ s'.gVersion := by
  obtain ⟨qs, hqs⟩ := singleWriter_published hs
  have hold := h.numbered.newest
  have hnew := (singleWriterInv_step h ha hs).numbered.newest
  rw [hqs, List.length_append] at hnew
  omega

theorem reader_tVersion_mono {a : LazyAction ℤ ι} (h : SingleWriterInv w s)
    (ha : SingleWriter w s a) (hs : lazyStep s a = some s') {i : ι} (hi : i ≠ w) :
    (s.threads i).tVersion ≤ (s'.threads i).tVersion := by
  by_cases hia : i = a.thread
  · cases a with
    | run j =>
      obtain rfl : i = j := hia
      rcases reader_settles (h.reader i hi) hs with ⟨_, hv⟩ | ⟨_, _, hv⟩
      · rw [hv]
      · rw [hv]
        exact h.reader_le hi
    | assign j tVersion tData => exact absurd (hia.trans ha.1) hi
    | call j call =>
      obtain rfl : i = j := hia
      obtain ⟨_, rfl⟩ := lazyStep_call hs
      simp
  · rw [lazyStep_threads_of_ne hs hia]

theorem reader_cmd {i : ι} (h : SingleWriterInv w s) (hi : i ≠ w) (hr : runThread s i = some s') :
    (s'.threads i).tData.cmd = (s.threads i).tData.cmd ∨
    ((s.threads i).pc = .cmd .updateLocalIfChanged ∧
      (s'.threads i).tData.cmd = s.gData.cmd ∧ s.gData.cmd = s.newestCmd) := by
  have hok := h.reader i hi
  cases accesses_of_runThread hr with
  | owns pc | refuse pc | reread pc | writeVersion pc | writeCmd pc | writeSize pc | writeData pc =>
    simp [ReaderOk, pc] at hok
  | readCmd pc =>
    exact .inr ⟨pc, by simp [copyCmd], h.shared_cmd hi (by simp [pc, LazyPc.critical])⟩
  | unchanged | changed | lock | readVersion | readSize | readData | unlock | ret =>
    exact .inl (by simp [copySize])

/-- A publication is made at one access of the writer's call only, with the record the
call was made with. -/
theorem runThread_publishes {i : ι} (h : SingleWriterInv w s) (hr : runThread s i = some s') :
    (s'.threads w).tData = (s.threads w).tData ∧
    (((s'.threads w).pc.pending = (s.threads w).pc.pending ∧ s'.published = s.published) ∨
    (i = w ∧ (s.threads w).pc = .version .updateGlobalIfOwner ∧
      (s'.threads w).pc.pending = false ∧
      s'.published = s.published ++ [⟨s.gVersion + 1, (s.threads w).tData⟩])) := by
  by_cases hi : i = w
  · subst hi
    obtain ⟨hv, hok⟩ := h.writer
    cases accesses_of_runThread hr with
    | refuse pc stale => exact absurd hv stale
    | unchanged pc | changed pc | reread pc | readVersion pc | readCmd pc | readSize pc
    | readData pc => simp only [pc] at hok
    | writeVersion pc =>
      exact ⟨by simp, .inr ⟨rfl, pc, by simp [LazyPc.pending, LazyState.writeVersion, hv]⟩⟩
    | owns pc | lock pc | writeCmd pc | writeSize pc | writeData pc | unlock pc | ret pc =>
      exact ⟨by simp, .inl (by simp [pc, LazyPc.pending])⟩
  · have hsame := runThread_threads_of_ne hr (Ne.symm hi)
    obtain ⟨_, _, hp⟩ := reader_frame (h.reader i hi) hr
    exact ⟨by rw [hsame], .inl ⟨by rw [hsame], hp⟩⟩

/-- What has been published when a reader's call has not fixed its version yet will be
seen by it and by the calls after it. -/
def Fresh (n : ℤ) (i : ι) (s : LazyState ℤ ι) : Prop :=
  n ≤ s.gVersion ∧ ((s.threads i).pc.pending = true ∨ n ≤ (s.threads i).tVersion)

instance (n : ℤ) (i : ι) (s : LazyState ℤ ι) : Decidable (Fresh n i s) :=
  inferInstanceAs (Decidable (_ ∧ (_ ∨ _)))

theorem fresh_step {a : LazyAction ℤ ι} {n : ℤ} {i : ι} (h : SingleWriterInv w s)
    (ha : SingleWriter w s a) (hs : lazyStep s a = some s') (hi : i ≠ w) (hf : Fresh n i s) :
    Fresh n i s' := by
  obtain ⟨hn, hread⟩ := hf
  refine ⟨hn.trans (gVersion_mono h ha hs), ?_⟩
  rcases hread with hpending | hread
  · by_cases hia : i = a.thread
    · have hbusy : (s.threads i).pc ≠ .idle := by
        intro hidle
        simp [hidle, LazyPc.pending] at hpending
      cases a with
      | run j =>
        obtain rfl : i = j := hia
        rcases reader_settles (h.reader i hi) hs with ⟨hp, _⟩ | ⟨_, _, hv⟩
        · exact .inl (hp.trans hpending)
        · exact .inr (hv ▸ hn)
      | assign j tVersion tData =>
        obtain rfl : i = j := hia
        exact absurd (lazyStep_assign hs).1 hbusy
      | call j call =>
        obtain rfl : i = j := hia
        exact absurd (lazyStep_call hs).1 hbusy
    · exact .inl (by rw [lazyStep_threads_of_ne hs hia]; exact hpending)
  · exact .inr (hread.trans (reader_tVersion_mono h ha hs hi))

theorem fresh_of_call {i : ι} {n : ℤ} (hn : n ≤ s.gVersion)
    (hcall : lazyStep s (.call i .updateLocalIfChanged) = some s') : Fresh n i s' := by
  obtain ⟨_, rfl⟩ := lazyStep_call hcall
  exact ⟨hn, .inl (by simp [LazyPc.pending])⟩

variable {gData : WCtrl} {tData : ι → WCtrl} {as : List (LazyAction ℤ ι)}

theorem singleWriterInv_of_run
    (h : Run lazyStep (SingleWriter w) (singleWriterInitial w gData tData) as s) :
    SingleWriterInv w s :=
  h.invariant _ (singleWriterInv_initial w gData tData) (fun _ _ _ => singleWriterInv_step)

theorem fresh_run {n : ℤ} {i : ι} (h : SingleWriterInv w s) (hi : i ≠ w) (hf : Fresh n i s)
    (hr : Run lazyStep (SingleWriter w) s as s') : Fresh n i s' :=
  (hr.invariant (fun s => SingleWriterInv w s ∧ Fresh n i s) ⟨h, hf⟩
    (fun _ _ _ hs ha hstep =>
      ⟨singleWriterInv_step hs.1 ha hstep, fresh_step hs.1 ha hstep hi hs.2⟩)).2

def LazyAction.isUpdate (w : ι) : LazyAction ℤ ι → Bool
  | .call i .updateGlobalIfOwner => i = w
  | _ => false

private theorem begun_step {a : LazyAction ℤ ι} (h : SingleWriterInv w s) (ha : SingleWriter w s a)
    (hs : lazyStep s a = some s') : s'.begun w = s.begun w + (a.isUpdate w).toNat := by
  have hold := h.numbered.newest
  have hnew := (singleWriterInv_step h ha hs).numbered.newest
  unfold LazyState.begun
  cases a with
  | run i =>
    rcases (runThread_publishes h hs).2 with ⟨hpending, hsame⟩ | ⟨_, hversion, hsettled, hpublished⟩
    · rw [hsame] at hnew
      simp only [hpending, LazyAction.isUpdate, Bool.toNat_false]
      omega
    · rw [hpublished, List.length_append] at hnew
      have hpending : (s.threads w).pc.pending = true := by simp [hversion, LazyPc.pending]
      simp only [hpending, hsettled, LazyAction.isUpdate, Bool.toNat_false, Bool.toNat_true,
        List.length_singleton] at hnew ⊢
      omega
  | assign i tVersion tData =>
    obtain ⟨rfl, _⟩ := ha
    obtain ⟨hidle, rfl⟩ := lazyStep_assign hs
    simp [LazyPc.pending, LazyAction.isUpdate, hidle]
  | call i call =>
    obtain ⟨hidle, rfl⟩ := lazyStep_call hs
    cases call with
    | updateGlobalIfOwner =>
      obtain rfl : i = w := ha
      simp [LazyPc.pending, LazyAction.isUpdate, hidle]
    | updateLocalIfChanged =>
      have hi : w ≠ i := Ne.symm ha
      simp [LazyState.setThread_threads_of_ne _ _ hi, LazyAction.isUpdate]

theorem begun_eq_countP
    (h : Run lazyStep (SingleWriter w) (singleWriterInitial w gData tData) as s) :
    s.begun w = as.countP (LazyAction.isUpdate w) := by
  refine (h.history (fun as s => SingleWriterInv w s ∧
    s.begun w = as.countP (LazyAction.isUpdate w)) ⟨singleWriterInv_initial _ _ _, ?_⟩ ?_).2
  · rfl
  · rintro as t a u ⟨ht, hcount⟩ ha hstep
    refine ⟨singleWriterInv_step ht ha hstep, ?_⟩
    rw [begun_step ht ha hstep, hcount, List.countP_append, List.countP_singleton]
    cases a.isUpdate w <;> simp

/-- One writer and any number of readers use the lazily versioned record as an atomic
register. A returning refresh carries exactly the publication of the version it returns,
versions never go back, and every result lies between the publications completed before
the call and those begun before the return. -/
theorem lazy_record_atomic_register (w : ι) (gData : WCtrl) (tData : ι → WCtrl)
    (as : List (LazyAction ℤ ι)) (s : LazyState ℤ ι)
    (run : Run lazyStep (SingleWriter w) (singleWriterInitial w gData tData) as s)
    (i : ι) (hi : i ≠ w) :
    ((s.threads i).pc = .ret → ∃ (k : ℕ) (p : Publication ℤ), (s.threads i).tVersion = k ∧
      s.published[k]? = some p ∧ Agrees (s.threads i).tData p.ctrl) ∧
    (∀ bs s', Run lazyStep (SingleWriter w) s bs s' → (s.threads i).pc = .ret →
      (s'.threads i).pc = .ret → (s.threads i).tVersion ≤ (s'.threads i).tVersion) ∧
    (∀ s₁ bs s', lazyStep s (.call i .updateLocalIfChanged) = some s₁ →
      Run lazyStep (SingleWriter w) s₁ bs s' → (s'.threads i).pc = .ret →
      s.completed w ≤ (s'.threads i).tVersion ∧ (s'.threads i).tVersion ≤
        (as ++ .call i .updateLocalIfChanged :: bs).countP (LazyAction.isUpdate w)) := by
  have hinv := singleWriterInv_of_run run
  refine ⟨?_, ?_, ?_⟩
  · intro hret
    have hok := hinv.reader i hi
    simp only [ReaderOk, hret] at hok
    exact hok.version_mem hinv.numbered
  · intro bs s' hrun hret hret'
    have hfresh : Fresh (s.threads i).tVersion i s := ⟨hinv.reader_le hi, .inr (le_refl _)⟩
    rcases (fresh_run hinv hi hfresh hrun).2 with hpending | hle
    · simp [hret', LazyPc.pending] at hpending
    · exact hle
  · intro s₁ bs s' hcall hrun hret'
    have hallowed : SingleWriter w s (.call i .updateLocalIfChanged) := hi
    have hinv₁ := singleWriterInv_step hinv hallowed hcall
    have hfresh : Fresh s.gVersion i s₁ := fresh_of_call (le_refl _) hcall
    have hwhole := run.trans (.cons hallowed hcall hrun)
    have hnewest : (s'.threads i).tVersion ≤ s'.gVersion :=
      (singleWriterInv_of_run hwhole).reader_le hi
    rcases (fresh_run hinv₁ hi hfresh hrun).2 with hpending | hle
    · simp [hret', LazyPc.pending] at hpending
    · refine ⟨(s.completed_le_gVersion w).trans hle, ?_⟩
      rw [← begun_eq_countP hwhole]
      unfold LazyState.begun
      omega

/-- A writer publishes, and a reader comes back with its publication. -/
def publishAndRead : List (LazyAction ℤ Bool) :=
  List.flatten [[.assign false 0 ⟨wineingCtrlCmdMarketRun, fun _ => 97, 2⟩,
      .call false .updateGlobalIfOwner],
    List.replicate 8 (.run false), [.call true .updateLocalIfChanged],
    List.replicate 7 (.run true)]

theorem lazy_record_atomic_register_bool : ∃ s : LazyState ℤ Bool,
    Run lazyStep (SingleWriter false) (singleWriterInitial false ⟨wineingCtrlCmdInit, fun _ => 0, 0⟩
      (fun _ => ⟨wineingCtrlCmdInit, fun _ => 0, 0⟩)) publishAndRead s ∧
    (s.threads true).pc = .ret ∧ (s.threads true).tVersion = 1 ∧
    ∃ (k : ℕ) (p : Publication ℤ), (s.threads true).tVersion = k ∧
      s.published[k]? = some p ∧ Agrees (s.threads true).tData p.ctrl := by
  have hrun := exists_run_of_foldlM_map lazyStep (SingleWriter false)
    (singleWriterInitial false ⟨wineingCtrlCmdInit, fun _ => 0, 0⟩
      (fun _ : Bool => ⟨wineingCtrlCmdInit, fun _ => 0, 0⟩))
    publishAndRead (fun s => ((s.threads true).pc, (s.threads true).tVersion)) (b := (.ret, 1))
    (by decide)
  obtain ⟨s, run, hs⟩ := hrun
  obtain ⟨hret, hversion⟩ := Prod.mk.inj hs
  exact ⟨s, run, hret, hversion,
    (lazy_record_atomic_register false _ _ _ s run true (by decide)).1 hret⟩

end Steps

end Wineing
