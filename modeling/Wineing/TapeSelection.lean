import Wineing.MarketReplay

/-!
# Which tape a replay is started with

The path of a tape goes through three buffers that are reused from request to request and
copied only when bytes are in use. A start with a tape always brings its own path. A start
without one brings no bytes, and NxCore is handed whatever the buffer of `market_thread`
holds: nothing only if that buffer was zeroed and no tape was ever named before.
-/

namespace Wineing
open CStringMemory GuardedRuns WCtrl

section Buffers

variable {ι : Type*} [DecidableEq ι] {w : ι} {s s' : LazyState ℤ ι}

/-- A byte of a reader's buffer is what it was at first, or comes from a publication that
is not newer than the reader's version. -/
def Sourced (k : ℕ) (first : UInt8) (s : LazyState ℤ ι) (t : LazyThread ℤ) : Prop :=
  t.tData.data k = first ∨
  ∃ q ∈ s.published, q.version ≤ t.tVersion ∧ k < q.ctrl.size ∧ t.tData.data k = q.ctrl.data k

omit [DecidableEq ι] in
theorem Sourced.append {k : ℕ} {first : UInt8} {t : LazyThread ℤ} (h : Sourced k first s t)
    (hs : ∃ qs, s'.published = s.published ++ qs) : Sourced k first s' t := by
  obtain ⟨qs, hs⟩ := hs
  refine h.imp_right ?_
  rintro ⟨q, hq, hsource⟩
  exact ⟨q, hs ▸ List.mem_append_left qs hq, hsource⟩

theorem reader_sourced {i : ι} {k : ℕ} {first : UInt8} (h : SingleWriterInv w s) (hi : i ≠ w)
    (hr : runThread s i = some s') (hsource : Sourced k first s (s.threads i)) :
    Sourced k first s' (s'.threads i) := by
  have hok := h.reader i hi
  have hkeep : (s'.threads i).tData.data k = (s.threads i).tData.data k →
      (s.threads i).tVersion ≤ (s'.threads i).tVersion → Sourced k first s' (s'.threads i) := by
    intro hdata hversion
    refine Sourced.append ?_ (runThread_published hr)
    rw [Sourced, hdata]
    refine hsource.imp_right ?_
    rintro ⟨q, hq, hle, hbyte⟩
    exact ⟨q, hq, hle.trans hversion, hbyte⟩
  cases accesses_of_runThread hr with
  | owns pc | refuse pc | reread pc | writeVersion pc | writeCmd pc | writeSize pc | writeData pc =>
    simp [ReaderOk, pc] at hok
  | readVersion pc => exact hkeep (by simp) (by simpa using h.reader_le hi)
  | readData pc =>
    simp only [ReaderOk, pc] at hok
    have hshared := h.shared_complete (h.writer_outside hi (by simp [pc, LazyPc.critical]))
    rcases Nat.lt_or_ge k s.gData.size with hlt | hge
    · obtain ⟨q, hq, hversion, hagrees⟩ := hshared
      have hsize : k < q.ctrl.size := hagrees.size ▸ hlt
      refine .inr ⟨q, hq, ?_, hsize, ?_⟩
      · rw [LazyState.setThread_threads_self, hversion]
        exact hok.1.ge
      · simpa [copyData_data_of_lt _ _ hlt] using hagrees.data k hsize
    · exact hkeep (by simp [copyData_data_of_le _ _ hge]) (by simp)
  | unchanged | changed | lock | readCmd | readSize | unlock | ret =>
    exact hkeep (by simp [copyCmd, copySize]) (by simp)

end Buffers

/-- A start without a tape is only acknowledged when the buffer of `market_thread` began
with a NUL and nothing published so far began with another byte. -/
def RealTimeClean (first : UInt8) (s : State) (a : Action) : Prop :=
  ∀ x ∈ a.request, x.1.type = .marketStart → x.1.tapeFile = none →
    s.cmd .cchanIn ≠ wineingCtrlCmdMarketRun →
    first = 0 ∧ ∀ q ∈ s.lazy.published, 0 < q.ctrl.size → q.ctrl.data 0 = 0

instance (first : UInt8) (s : State) (a : Action) : Decidable (RealTimeClean first s a) :=
  inferInstanceAs (Decidable (∀ x ∈ a.request, _))

/-- What a start without a tape was acknowledged on top of. -/
def RealTimeInv (first : UInt8) (as : List Action) (s : State) : Prop :=
  ∀ (k : ℕ) req, (controlLog as).acknowledged[k]? = some req → req.type = .marketStart →
    req.tapeFile = none →
    first = 0 ∧ ∀ q ∈ s.lazy.published, q.version ≤ k → 0 < q.ctrl.size → q.ctrl.data 0 = 0

section Steps

variable {tapeBasedir : Bytes} {as : List Action} {s s' : State} {a : Action} {first : UInt8}

private theorem sourced_moves {p : Party} {k : ℕ} (hs : ThreadsInv s) (hp : p ≠ .cchanIn)
    (hsource : Sourced k first s.lazy (s.thread p)) (h : Moves tapeBasedir s a s') :
    Sourced k first s'.lazy (s'.thread p) := by
  by_cases hparty : a.party = some p
  · have hcall : ∀ {call l}, lazyStep s.lazy (.call p call) = some l →
        Sourced k first l (l.threads p) := by
      intro call l called
      obtain ⟨_, rfl⟩ := lazyStep_call called
      rw [LazyState.setThread_threads_self]
      exact hsource
    cases h with
    | lazy ran =>
      obtain rfl := Option.some.inj hparty
      exact reader_sourced hs.lazy hp ran hsource
    | outRead pc called | marketRead pc called | marketCallback pc called =>
      obtain rfl := Option.some.inj hparty
      exact hcall called
    | inRefuse | inAnswer | inPublish => exact absurd (Option.some.inj hparty).symm hp
    | _ => cases hparty
  · rw [thread_of_moves h hparty]
    refine hsource.append ?_
    rcases published_of_moves hs h with hsame | ⟨_, _, hnew⟩
    · exact ⟨[], by simp [hsame]⟩
    · exact ⟨_, hnew⟩

private theorem realTimeInv_step (hs : ControlInv tapeBasedir as s) (hr : RealTimeInv first as s)
    (hguard : RealTimeClean first s a) (h : step tapeBasedir s a = some s') :
    RealTimeInv first (as ++ [a]) s' := by
  intro k req hreq htype hfile
  have hcount := hs.count
  have hnewest := hs.threads.lazy.numbered.newest
  -- what is published now is newer than the start, which was acknowledged before
  have hold : (controlLog as).acknowledged[k]? = some req → first = 0 ∧
      ∀ q ∈ s'.lazy.published, q.version ≤ k → 0 < q.ctrl.size → q.ctrl.data 0 = 0 := by
    intro hreq
    obtain ⟨hfirst, hclean⟩ := hr k req hreq htype hfile
    have hk := (List.getElem?_eq_some_iff.mp hreq).1
    refine ⟨hfirst, fun q hq hle hsize => ?_⟩
    rcases published_of_moves hs.threads (moves_of_step h) with hsame | ⟨_, hversion, hnew⟩
    · exact hclean q (hsame ▸ hq) hle hsize
    · rw [hnew] at hq
      rcases List.mem_append.mp hq with hq | hq
      · exact hclean q hq hle hsize
      · obtain rfl := List.mem_singleton.mp hq
        have hle : s.lazy.gVersion + 1 ≤ k := hle
        have hone : s.unpublished ≤ 1 := s.unpublished_le_one
        omega
  cases ha : a.request with
  | none => exact hold (controlLog_snoc_none as ha ▸ hreq)
  | some x =>
    obtain ⟨req', fileExists⟩ := x
    rw [controlLog_snoc_some as ha, ControlLog.acknowledged_respond] at hreq
    split at hreq
    · rename_i hok
      rcases getElem?_concat_cases hreq with hbefore | ⟨_, rfl⟩
      · exact hold hbefore
      · have hlast : (controlLog as).last ≠ some .marketStart := by
          intro hlast
          simp [ControlLog.answer, htype, hlast, ResponseType.isOk] at hok
        have hcmd : s.cmd .cchanIn ≠ wineingCtrlCmdMarketRun := by
          rw [hs.command]
          exact fun h => hlast ((controlLog as).command_eq_run_iff.mp h)
        obtain ⟨hfirst, hclean⟩ := hguard _ ha htype hfile hcmd
        have hsame : s'.lazy.published = s.lazy.published := by
          refine (published_of_moves hs.threads (moves_of_step h)).resolve_right ?_
          rintro ⟨rfl, _⟩
          cases ha
        rw [hsame]
        exact ⟨hfirst, fun q hq _ hsize => hclean q hq hsize⟩
    · exact hold (by simpa using hreq)

theorem market_start_request (hs : ControlInv tapeBasedir as s) (hr : ReplayInv s)
    (hpc : s.marketPc = .nxRun) : ∃ (k : ℕ) (req : Request) (q : Publication ℤ),
      (s.thread .market).tVersion = k + 1 ∧ (controlLog as).acknowledged[k]? = some req ∧
      req.type = .marketStart ∧ s.lazy.published[k + 1]? = some q ∧
      Agrees (s.thread .market).tData q.ctrl ∧ Publishes tapeBasedir req q.ctrl := by
  obtain ⟨hnonneg, hmarket⟩ := hr.started (by rw [hpc]; rfl)
  have hidle : s.Idle .market := hs.threads.calls .market (by simp [State.waiting, hpc])
  have hrecorded := hs.threads.recorded (by decide) hidle hnonneg
  obtain ⟨k, q, hk, hq, hagrees⟩ := hrecorded.version_mem hs.threads.lazy.numbered
  have hcmd : q.ctrl.cmd = wineingCtrlCmdMarketRun := hagrees.cmd.symm.trans hmarket
  cases k with
  | zero => exact absurd ((hs.origin q hq).symm.trans hcmd) (by decide)
  | succ k =>
    obtain ⟨req, hreq, hrecord⟩ := hs.publications k q hq
    have htype : req.type = .marketStart := by
      have hcommand := hrecord.cmd.symm.trans hcmd
      cases htype : req.type with
      | marketStart => rfl
      | marketStop | shutdown =>
        rw [htype] at hcommand
        exact absurd hcommand (by decide)
    exact ⟨k, req, q, by simpa using hk, hreq, htype, hq, hagrees, hrecord⟩

theorem market_realTime (hs : ControlInv tapeBasedir as s) (hr : RealTimeInv first as s)
    (hsource : Sourced 0 first s.lazy (s.thread .market)) {k : ℕ} {req : Request}
    {q : Publication ℤ} (hk : (s.thread .market).tVersion = k + 1)
    (hreq : (controlLog as).acknowledged[k]? = some req) (htype : req.type = .marketStart)
    (hfile : req.tapeFile = none) (hq : s.lazy.published[k + 1]? = some q)
    (hrecord : Publishes tapeBasedir req q.ctrl) : (s.thread .market).tData.data 0 = 0 := by
  obtain ⟨hfirst, hclean⟩ := hr k req hreq htype hfile
  rcases hsource with hfresh | ⟨q', hq', hle, hsize, hbyte⟩
  · exact hfresh.trans hfirst
  · rw [hbyte]
    refine hclean q' hq' ?_ hsize
    -- the start itself brings no bytes
    obtain ⟨j, hj⟩ := List.mem_iff_getElem?.mp hq'
    have hversion := hs.threads.lazy.numbered.version j q' hj
    have hne : j ≠ k + 1 := by
      rintro rfl
      obtain rfl : q' = q := Option.some.inj (hj.symm.trans hq)
      have hzero := hrecord.realTime htype hfile
      omega
    omega

end Steps

/-- Every replay is started with the tape of the start it is for, or with no tape if that
start names none, when starts without a tape meet a clean buffer. -/
theorem market_thread_selects_tape (tapeBasedir : Bytes) (gBuffer : Memory)
    (buffer : Party → Memory) (as : List Action) (s : State)
    (run : Run (step tapeBasedir) (RealTimeClean (buffer .market 0)) (initial gBuffer buffer) as s)
    (hpc : s.marketPc = .nxRun) : ∃ (k : ℕ) (req : Request),
      (s.thread .market).tVersion = k + 1 ∧ (controlLog as).acknowledged[k]? = some req ∧
      req.type = .marketStart ∧
      (∀ tapeFile, req.tapeFile = some tapeFile →
        IsCString (s.thread .market).tData.data (untilNul (tapeBasedir ++ tapeFile))) ∧
      (req.tapeFile = none → IsCString (s.thread .market).tData.data []) := by
  obtain ⟨hs, hr, hclean, hsource⟩ := run.history
    (fun as t => ControlInv tapeBasedir as t ∧ ReplayInv t ∧
      RealTimeInv (buffer .market 0) as t ∧ Sourced 0 (buffer .market 0) t.lazy (t.thread .market))
    ⟨controlInv_initial _ _ _, replayInv_initial _ _,
      fun k req h => by simp [controlLog, ControlLog.acknowledged] at h, .inl rfl⟩ (by
      rintro as t a u ⟨ht, hr, hclean, hsource⟩ hguard hstep
      exact ⟨controlInv_step ht hstep, replayInv_step ht.threads hr hstep,
        realTimeInv_step ht hclean hguard hstep,
        sourced_moves ht.threads (by decide) hsource (moves_of_step hstep)⟩)
  obtain ⟨k, req, q, hk, hreq, htype, hq, hagrees, hrecord⟩ := market_start_request hs hr hpc
  refine ⟨k, req, hk, hreq, htype, ?_, ?_⟩
  · exact fun tapeFile hfile => (hrecord.of_agrees hagrees).isCString htype hfile
  · intro hfile
    rw [isCString_nil_iff]
    exact market_realTime hs hclean hsource hk hreq htype hfile hq hrecord

/-- A replay of the real-time feed, from zeroed buffers and before any tape. -/
theorem market_thread_selects_tape_realTime : ∃ s : State,
    Run (step []) (RealTimeClean 0) (initial (fun _ => 0) (fun _ _ => 0))
      (serve ⟨1, .marketStart, none⟩ 0 ++ marketRefresh) s ∧ s.marketPc = .nxRun ∧
    (s.thread .market).tVersion = 1 ∧ IsCString (s.thread .market).tData.data [] := by
  have hrun := exists_run_of_foldlM_map (step []) (RealTimeClean 0)
    (initial (fun _ => 0) (fun _ _ => 0))
    (serve ⟨1, .marketStart, none⟩ 0 ++ marketRefresh)
    (fun s => (s.marketPc, (s.thread .market).tVersion)) (b := (.nxRun, 1)) (by decide)
  obtain ⟨s, run, hs⟩ := hrun
  obtain ⟨hpc, hversion⟩ := Prod.mk.inj hs
  obtain ⟨k, req, hk, hreq, _, _, hnone⟩ :=
    market_thread_selects_tape [] (fun _ => 0) (fun _ _ => 0) _ s run hpc
  obtain rfl : k = 0 := by omega
  obtain rfl : (⟨1, .marketStart, none⟩ : Request) = req :=
    Option.some.inj (Eq.trans (by decide) hreq)
  exact ⟨s, run, hpc, hversion, hnone rfl⟩

/-- A start without a tape comes after one with a tape. -/
def startWithoutTape : List Action :=
  serve ⟨1, .marketStart, some (ascii "a.nxc")⟩ 0 ++ marketRefresh ++
    [.marketRun true, .marketReturn] ++ serve ⟨2, .marketStop, none⟩ 0 ++
    serve ⟨3, .marketStart, none⟩ 0 ++ marketRefresh

/-- It replays the tape of the earlier start. -/
theorem market_thread_replays_stale_tape : ∃ s : State,
    Run (step []) unguarded (initial (fun _ => 0) (fun _ _ => 0)) startWithoutTape s ∧
    s.marketPc = .nxRun ∧ (s.thread .market).tVersion = 3 ∧
    (controlLog startWithoutTape).acknowledged[2]? = some ⟨3, .marketStart, none⟩ ∧
    IsCString (s.thread .market).tData.data (ascii "a.nxc") ∧
    ¬ IsCString (s.thread .market).tData.data [] := by
  have hrun := exists_run_of_foldlM_map (step []) unguarded
    (initial (fun _ => 0) (fun _ _ => 0)) startWithoutTape
    (fun s => (s.marketPc, (s.thread .market).tVersion,
      decide (IsCString (s.thread .market).tData.data (ascii "a.nxc"))))
    (b := (.nxRun, 3, true)) (by decide)
  obtain ⟨s, run, hs⟩ := hrun
  simp only [Prod.mk.injEq, decide_eq_true_eq] at hs
  obtain ⟨hpc, hversion, htape⟩ := hs
  refine ⟨s, run, hpc, hversion, by decide, htape, ?_⟩
  intro hnil
  exact absurd (htape.unique hnil) (by decide)

end Wineing
