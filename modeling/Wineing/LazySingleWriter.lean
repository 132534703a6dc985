import Wineing.GuardedRuns
import Wineing.LazyVersioning

/-!
# One writer and any number of readers

Only thread `w` calls `lazy_update_global_if_owner`, only the others call
`lazy_update_local_if_changed`, and every thread passes the version its previous call
returned. Versions are integers. The invariant relates the program point of each
thread to the shared record: outside the critical section a reader's record is the
publication its version names, and outside the writer's critical section the shared
record is the newest publication.
-/

namespace Wineing
open WCtrl GuardedRuns

variable {ι : Type*}

/-- Calls and assignments that follow the sharing rules of `g_data`. -/
def SingleWriter (w : ι) (s : LazyState ℤ ι) : LazyAction ℤ ι → Prop
  | .assign i tVersion _ => i = w ∧ tVersion = (s.threads i).tVersion
  | .call i .updateGlobalIfOwner => i = w
  | .call i .updateLocalIfChanged => i ≠ w
  | .run _ => True

instance [DecidableEq ι] (w : ι) (s : LazyState ℤ ι) :
    (a : LazyAction ℤ ι) → Decidable (SingleWriter w s a)
  | .assign _ _ _ => inferInstanceAs (Decidable (_ ∧ _))
  | .call _ .updateGlobalIfOwner => inferInstanceAs (Decidable (_ = _))
  | .call _ .updateLocalIfChanged => inferInstanceAs (Decidable (_ ≠ _))
  | .run _ => isTrue trivial

/-- Record `c` carries the publication of version `v`. -/
def Recorded (ps : List (Publication ℤ)) (v : ℤ) (c : WCtrl) : Prop :=
  ∃ p ∈ ps, p.version = v ∧ Agrees c p.ctrl

theorem Recorded.append {ps : List (Publication ℤ)} {v : ℤ} {c : WCtrl} (h : Recorded ps v c)
    (qs : List (Publication ℤ)) : Recorded (ps ++ qs) v c := by
  obtain ⟨p, hp, hv⟩ := h
  exact ⟨p, List.mem_append_left _ hp, hv⟩

theorem Recorded.of_agrees {ps : List (Publication ℤ)} {v : ℤ} {c d : WCtrl}
    (h : Recorded ps v d) (hc : Agrees c d) : Recorded ps v c := by
  obtain ⟨p, hp, hv, hd⟩ := h
  exact ⟨p, hp, hv, hc.trans hd⟩

/-- The shared record and the writer, at every program point of the writer. -/
def WriterOk (s : LazyState ℤ ι) (t : LazyThread ℤ) : Prop :=
  t.tVersion = s.gVersion ∧
  match t.pc with
  | .idle | .compare .updateGlobalIfOwner | .lock .updateGlobalIfOwner
  | .version .updateGlobalIfOwner | .ret => Recorded s.published s.gVersion s.gData
  | .cmd .updateGlobalIfOwner => Recorded s.published s.gVersion t.tData
  | .size .updateGlobalIfOwner =>
    Recorded s.published s.gVersion t.tData ∧ s.gData.cmd = t.tData.cmd
  | .data .updateGlobalIfOwner => Recorded s.published s.gVersion t.tData ∧
      s.gData.cmd = t.tData.cmd ∧ s.gData.size = t.tData.size
  | .unlock .updateGlobalIfOwner =>
    Recorded s.published s.gVersion s.gData ∧ Agrees s.gData t.tData
  | _ => False

/-- A reader's own record, at every program point of the reader. -/
def ReaderOk (s : LazyState ℤ ι) (t : LazyThread ℤ) : Prop :=
  match t.pc with
  | .idle | .compare .updateLocalIfChanged | .lock .updateLocalIfChanged
  | .version .updateLocalIfChanged => t.tVersion = -1 ∨ Recorded s.published t.tVersion t.tData
  | .ret => Recorded s.published t.tVersion t.tData
  | .cmd .updateLocalIfChanged => t.tVersion = s.gVersion
  | .size .updateLocalIfChanged => t.tVersion = s.gVersion ∧ t.tData.cmd = s.gData.cmd
  | .data .updateLocalIfChanged =>
    t.tVersion = s.gVersion ∧ t.tData.cmd = s.gData.cmd ∧ t.tData.size = s.gData.size
  | .unlock .updateLocalIfChanged =>
    t.tVersion = s.gVersion ∧ Recorded s.published t.tVersion t.tData
  | _ => False

structure SingleWriterInv (w : ι) (s : LazyState ℤ ι) : Prop where
  lock : LockOk s
  numbered : Numbered 0 s
  writer : WriterOk s (s.threads w)
  reader : ∀ i, i ≠ w → ReaderOk s (s.threads i)

theorem WriterOk.frame {s s' : LazyState ℤ ι} {t : LazyThread ℤ} (h : WriterOk s t)
    (hs : s'.gVersion = s.gVersion ∧ s'.gData = s.gData ∧ s'.published = s.published) :
    WriterOk s' t := by
  obtain ⟨hv, hd, hp⟩ := hs
  simpa only [WriterOk, hv, hd, hp] using h

theorem ReaderOk.append {s s' : LazyState ℤ ι} {t : LazyThread ℤ} {qs : List (Publication ℤ)}
    (h : ReaderOk s t) (ht : t.pc.critical = false) (hs : s'.published = s.published ++ qs) :
    ReaderOk s' t := by
  cases hpc : t.pc with
  | idle =>
    simp only [ReaderOk, hpc, hs] at h ⊢
    exact h.imp_right (·.append qs)
  | ret =>
    simp only [ReaderOk, hpc, hs] at h ⊢
    exact h.append qs
  | compare call | lock call =>
    cases call <;> simp only [ReaderOk, hpc, hs] at h ⊢
    exact h.imp_right (·.append qs)
  | reread => simp only [ReaderOk, hpc] at h
  | version call | cmd call | size call | data call | unlock call =>
    simp [hpc, LazyPc.critical] at ht

theorem ReaderOk.frame {s s' : LazyState ℤ ι} {t : LazyThread ℤ} (h : ReaderOk s t)
    (hs : s'.gVersion = s.gVersion ∧ s'.gData = s.gData ∧ s'.published = s.published) :
    ReaderOk s' t := by
  obtain ⟨hv, hd, hp⟩ := hs
  simpa only [ReaderOk, hv, hd, hp] using h

/-- While another thread is in the critical section, the shared record is complete. -/
theorem SingleWriterInv.shared_complete {w : ι} {s : LazyState ℤ ι} (h : SingleWriterInv w s)
    (hw : (s.threads w).pc.critical = false) : Recorded s.published s.gVersion s.gData := by
  have hok := h.writer.2
  cases hpc : (s.threads w).pc with
  | idle | ret => simpa only [hpc] using hok
  | compare call | lock call => cases call <;> simp only [hpc] at hok; exact hok
  | reread => simp only [hpc] at hok
  | version call | cmd call | size call | data call | unlock call =>
    simp [hpc, LazyPc.critical] at hw

theorem SingleWriterInv.eq_of_critical {w : ι} {s : LazyState ℤ ι} (h : SingleWriterInv w s)
    {i j : ι} (hi : (s.threads i).pc.critical = true) (hj : (s.threads j).pc.critical = true) :
    i = j :=
  Option.some.inj (((h.lock i).mpr hi).symm.trans ((h.lock j).mpr hj))

theorem SingleWriterInv.writer_outside {w : ι} {s : LazyState ℤ ι} (h : SingleWriterInv w s)
    {i : ι} (hi : i ≠ w) (hc : (s.threads i).pc.critical = true) :
    (s.threads w).pc.critical = false := by
  by_contra hw
  exact hi (h.eq_of_critical hc (by simpa using hw))

theorem recorded_writeVersion (s : LazyState ℤ ι) (ctrl : WCtrl) (v : ℤ) :
    Recorded (s.writeVersion v ctrl).published (s.writeVersion v ctrl).gVersion ctrl :=
  ⟨⟨v, ctrl⟩, by simp [LazyState.writeVersion], rfl, .refl ctrl⟩

section Steps

variable [DecidableEq ι] {w : ι} {s s' : LazyState ℤ ι}

/-- The writer starts with version 0, a reader with version -1. -/
def singleWriterInitial (w : ι) (gData : WCtrl) (tData : ι → WCtrl) : LazyState ℤ ι :=
  .initial 0 gData (fun i => if i = w then 0 else -1) tData

theorem singleWriterInv_initial (w : ι) (gData : WCtrl) (tData : ι → WCtrl) :
    SingleWriterInv w (singleWriterInitial w gData tData) := by
  refine ⟨lockOk_initial _ _ _ _, numbered_initial _ _ _ _, ?_, ?_⟩
  · refine ⟨by simp [singleWriterInitial, LazyState.initial], ?_⟩
    exact ⟨⟨0, gData⟩, by simp [singleWriterInitial, LazyState.initial], rfl, .refl gData⟩
  · intro i hi
    exact .inl (by simp [singleWriterInitial, LazyState.initial, hi])

/-- The owner check passes, and each further step of the writer completes a part of
the new publication. -/
private theorem writer_runThread (h : SingleWriterInv w s) (hr : runThread s w = some s') :
    WriterOk s' (s'.threads w) ∧ Numbered 0 s' := by
  obtain ⟨hv, hok⟩ := h.writer
  have hn := h.numbered
  cases accesses_of_runThread hr with
  | owns pc | ret pc =>
    simp only [pc] at hok
    exact ⟨by simpa [WriterOk] using ⟨hv, hok⟩, hn.frame rfl rfl⟩
  | refuse pc stale => exact absurd hv stale
  | unchanged pc | changed pc | reread pc | readVersion pc | readCmd pc | readSize pc
  | readData pc => simp only [pc] at hok
  | @lock call pc free =>
    cases call <;> simp only [pc] at hok
    exact ⟨by simpa [WriterOk] using ⟨hv, hok⟩, hn.frame rfl rfl⟩
  | writeVersion pc =>
    rw [hv]
    have hnew := hn.writeVersion (s.threads w).tData
    refine ⟨⟨?_, ?_⟩, hnew.frame rfl rfl⟩
    · simp [LazyState.writeVersion]
    · simpa using recorded_writeVersion s (s.threads w).tData (s.gVersion + 1)
  | writeCmd pc =>
    simp only [pc] at hok
    exact ⟨by simpa [WriterOk, copyCmd] using ⟨hv, hok⟩, hn.frame rfl rfl⟩
  | writeSize pc =>
    simp only [pc] at hok
    exact ⟨by simpa [WriterOk, copySize] using ⟨hv, hok⟩, hn.frame rfl rfl⟩
  | writeData pc =>
    simp only [pc] at hok
    have hcopied := copyData_agrees hok.2.1 hok.2.2
    refine ⟨?_, hn.frame rfl rfl⟩
    simpa [WriterOk] using ⟨hv, hok.1.of_agrees hcopied, hcopied⟩
  | @unlock call pc =>
    cases call <;> simp only [pc] at hok
    exact ⟨by simpa [WriterOk] using ⟨hv, hok.1⟩, hn.frame rfl rfl⟩

theorem reader_frame {i : ι} (h : ReaderOk s (s.threads i)) (hr : runThread s i = some s') :
    s'.gVersion = s.gVersion ∧ s'.gData = s.gData ∧ s'.published = s.published := by
  cases accesses_of_runThread hr with
  | writeVersion pc | writeCmd pc | writeSize pc | writeData pc => simp [ReaderOk, pc] at h
  | _ => exact ⟨rfl, rfl, rfl⟩

private theorem reader_runThread {i : ι} (h : SingleWriterInv w s) (hi : i ≠ w)
    (hr : runThread s i = some s') : ReaderOk s' (s'.threads i) := by
  have hok := h.reader i hi
  cases accesses_of_runThread hr with
  | owns pc | refuse pc | reread pc | writeVersion pc | writeCmd pc | writeSize pc | writeData pc =>
    simp [ReaderOk, pc] at hok
  | unchanged pc current =>
    -- no version below 0 is current, so this reader has synchronised before
    simp only [ReaderOk, pc] at hok
    have hnonneg := h.numbered.le_newest
    have hsync := hok.resolve_left (by omega)
    simpa [ReaderOk] using hsync
  | changed pc stale =>
    simp only [ReaderOk, pc] at hok
    simpa [ReaderOk] using hok
  | @lock call pc free =>
    cases call <;> simp only [ReaderOk, pc] at hok
    simpa [ReaderOk] using hok
  | readVersion pc => simp [ReaderOk]
  | readCmd pc | readSize pc =>
    simp only [ReaderOk, pc] at hok
    simpa [ReaderOk, copyCmd, copySize] using hok
  | readData pc =>
    simp only [ReaderOk, pc] at hok
    have hw := h.writer_outside hi (by simp [pc, LazyPc.critical])
    have hcopied := copyData_agrees hok.2.1 hok.2.2
    have hshared := (h.shared_complete hw).of_agrees hcopied
    simpa [ReaderOk, hok.1] using hshared
  | @unlock call pc =>
    cases call <;> simp only [ReaderOk, pc] at hok
    simpa [ReaderOk] using hok.2
  | ret pc =>
    simp only [ReaderOk, pc] at hok
    simpa [ReaderOk] using Or.inr hok

theorem singleWriterInv_run {i : ι} (h : SingleWriterInv w s) (hr : runThread s i = some s') :
    SingleWriterInv w s' := by
  by_cases hi : i = w
  · subst hi
    obtain ⟨hwriter, hnumbered⟩ := writer_runThread h hr
    refine ⟨lockOk_runThread h.lock hr, hnumbered, hwriter, ?_⟩
    intro j hj
    rw [runThread_threads_of_ne hr hj]
    cases hc : (s.threads j).pc.critical with
    | true => exact (h.reader j hj).frame (runThread_frame_of_held h.lock hr hc hj)
    | false =>
      obtain ⟨qs, hqs⟩ := runThread_published hr
      exact (h.reader j hj).append hc hqs
  · obtain ⟨hv, hd, hp⟩ := reader_frame (h.reader i hi) hr
    refine ⟨lockOk_runThread h.lock hr, ?_, ?_, ?_⟩
    · exact h.numbered.frame hv hp
    · rw [runThread_threads_of_ne hr (Ne.symm hi)]
      exact h.writer.frame ⟨hv, hd, hp⟩
    · intro j hj
      by_cases hji : j = i
      · subst hji
        exact reader_runThread h hj hr
      · rw [runThread_threads_of_ne hr hji]
        exact (h.reader j hj).frame ⟨hv, hd, hp⟩

theorem singleWriterInv_step {a : LazyAction ℤ ι} (h : SingleWriterInv w s)
    (ha : SingleWriter w s a) (hs : lazyStep s a = some s') : SingleWriterInv w s' := by
  cases a with
  | run i => exact singleWriterInv_run h hs
  | assign i tVersion tData =>
    obtain ⟨rfl, rfl⟩ := ha
    have hlock := lockOk_lazyStep h.lock hs
    obtain ⟨hidle, rfl⟩ := lazyStep_assign hs
    refine ⟨hlock, h.numbered.frame rfl rfl, ?_, ?_⟩
    · simpa [WriterOk, hidle] using h.writer
    · intro j hj
      rw [LazyState.setThread_threads_of_ne _ _ hj]
      exact (h.reader j hj).frame ⟨rfl, rfl, rfl⟩
  | call i call =>
    have hlock := lockOk_lazyStep h.lock hs
    obtain ⟨hidle, rfl⟩ := lazyStep_call hs
    refine ⟨hlock, h.numbered.frame rfl rfl, ?_, ?_⟩
    · by_cases hi : i = w
      · subst hi
        cases call with
        | updateGlobalIfOwner => simpa [WriterOk, hidle] using h.writer
        | updateLocalIfChanged => exact absurd rfl ha
      · rw [LazyState.setThread_threads_of_ne _ _ (Ne.symm hi)]
        exact h.writer.frame ⟨rfl, rfl, rfl⟩
    · intro j hj
      by_cases hji : j = i
      · subst hji
        cases call with
        | updateGlobalIfOwner => exact absurd ha hj
        | updateLocalIfChanged => simpa [ReaderOk, hidle] using h.reader j hj
      · rw [LazyState.setThread_threads_of_ne _ _ hji]
        exact (h.reader j hj).frame ⟨rfl, rfl, rfl⟩

end Steps

end Wineing
