import Wineing.ControlLog

/-!
# `cchan_in_thread` keeps the control log

The requests a run has received determine a log. The responses pushed, and the one in
hand, are those of the log, and the publications are those of its acknowledged
requests: behind the last of them the thread has at most one still to make, with the
record its own buffer holds.
-/

namespace Wineing
open CStringMemory GuardedRuns

/-- The well-formed request a step receives, with the answer of `wininf_file_exists`. -/
def Action.request : Action → Option (Request × ℤ)
  | .inRecv message fileExists => (message.bind Frame.request).map (·, fileExists)
  | _ => none

def controlLog (as : List Action) : ControlLog :=
  (as.filterMap Action.request).foldl ControlLog.respond []

theorem controlLog_snoc_none (as : List Action) {a : Action} (h : a.request = none) :
    controlLog (as ++ [a]) = controlLog as := by
  simp [controlLog, List.filterMap_append, h]

theorem controlLog_snoc_some (as : List Action) {a : Action} {x : Request × ℤ}
    (h : a.request = some x) : controlLog (as ++ [a]) = (controlLog as).respond x := by
  simp [controlLog, List.filterMap_append, h]

/-- Nothing is answered after a shutdown. -/
def ShutdownLast (log : ControlLog) : Prop :=
  ∀ xs x ys, log = xs ++ x :: ys → x.1.type = .shutdown → ys = [] ∧ log.last = some .shutdown

theorem ShutdownLast.respond {log : ControlLog} (h : ShutdownLast log)
    (hlive : log.last ≠ some .shutdown) (x : Request × ℤ) : ShutdownLast (log.respond x) := by
  obtain ⟨req, fileExists⟩ := x
  intro xs y ys heq hy
  rcases List.eq_nil_or_concat ys with rfl | ⟨zs, z, rfl⟩
  · obtain ⟨_, hlast⟩ := List.append_inj' heq rfl
    obtain rfl : (req, log.answer req fileExists) = y := by simpa using hlast
    have hy : req.type = .shutdown := hy
    have hanswer : log.answer req fileExists = .shutdownOk := by simp [ControlLog.answer, hy]
    refine ⟨rfl, ?_⟩
    simp [ControlLog.last, ControlLog.acknowledged_respond, hanswer, ResponseType.isOk, hy]
  · have hassoc : xs ++ y :: zs.concat z = (xs ++ y :: zs) ++ [z] := by simp
    obtain ⟨hlog, _⟩ := List.append_inj' (heq.trans hassoc) rfl
    exact absurd (h xs y zs hlog hy).2 hlive

namespace State

def inHand (s : State) : List Response :=
  match s.inPc with
  | .publish res | .push res => [res]
  | _ => []

/-- How many acknowledged requests have not written their version yet. -/
def unpublished (s : State) : ℕ :=
  match s.inPc with
  | .publish _ => 1
  | _ => (s.thread .cchanIn).pc.pending.toNat

theorem unpublished_le_one (s : State) : s.unpublished ≤ 1 := by
  unfold unpublished
  cases s.inPc <;> cases (s.thread .cchanIn).pc.pending <;> simp

end State

structure ControlInv (tapeBasedir : Bytes) (as : List Action) (s : State) : Prop where
  threads : ThreadsInv s
  responses : (s.pushed ++ s.inHand).map (fun res => (res.requestId, res.type)) =
    (controlLog as).map fun x => (x.1.requestId, x.2)
  command : s.cmd .cchanIn = (controlLog as).command
  live : s.inPc = .recv → wineingCtrlCmdShutdown < s.cmd .cchanIn
  ended : s.inPc = .finished → s.cmd .cchanIn ≤ wineingCtrlCmdShutdown
  shutdown_last : ShutdownLast (controlLog as)
  count : s.lazy.published.length + s.unpublished = (controlLog as).acknowledged.length + 1
  origin : ∀ q, s.lazy.published[0]? = some q → q.ctrl.cmd = wineingCtrlCmdInit
  publications : ∀ k q, s.lazy.published[k + 1]? = some q →
    ∃ req, (controlLog as).acknowledged[k]? = some req ∧ Publishes tapeBasedir req q.ctrl
  current : s.unpublished = 1 → ∃ req, (controlLog as).acknowledged.getLast? = some req ∧
    Publishes tapeBasedir req (s.thread .cchanIn).tData
  awaited : s.unpublished = 1 → s.lazy.newestCmd ≠ wineingCtrlCmdShutdown

section Steps

variable {tapeBasedir : Bytes} {as : List Action} {s s' : State} {a : Action}

theorem controlInv_initial (tapeBasedir : Bytes) (gBuffer : Memory) (buffer : Party → Memory) :
    ControlInv tapeBasedir [] (initial gBuffer buffer) := by
  have hzero : (initial gBuffer buffer).unpublished = 0 := rfl
  refine ⟨threadsInv_initial _ _, rfl, rfl, ?_, ?_, ?_, rfl, ?_, ?_, ?_, ?_⟩
  · exact CchanInPc.noConfusion
  · exact CchanInPc.noConfusion
  · intro xs x ys h
    simp [controlLog] at h
  · intro q h
    obtain rfl : (⟨0, ⟨wineingCtrlCmdInit, gBuffer, 0⟩⟩ : Publication ℤ) = q := by
      simpa [initial, singleWriterInitial, LazyState.initial] using h
    rfl
  · intro k q h
    simp [initial, singleWriterInitial, LazyState.initial] at h
  · intro h
    omega
  · intro h
    omega

theorem ControlInv.frame (hs : ControlInv tapeBasedir as s) (ha : a.request = none)
    (hthreads : ThreadsInv s') (hhand : s'.pushed ++ s'.inHand = s.pushed ++ s.inHand)
    (hunpublished : s'.unpublished = s.unpublished)
    (hpublished : s'.lazy.published = s.lazy.published)
    (hdata : (s'.thread .cchanIn).tData = (s.thread .cchanIn).tData)
    (hlive : s'.inPc = .recv → wineingCtrlCmdShutdown < s.cmd .cchanIn)
    (hended : s'.inPc = .finished → s.cmd .cchanIn ≤ wineingCtrlCmdShutdown) :
    ControlInv tapeBasedir (as ++ [a]) s' := by
  have hcmd : s'.cmd .cchanIn = s.cmd .cchanIn := congrArg WCtrl.cmd hdata
  constructor
  · exact hthreads
  · rw [hhand, controlLog_snoc_none as ha]
    exact hs.responses
  · rw [hcmd, controlLog_snoc_none as ha]
    exact hs.command
  · rw [hcmd]
    exact hlive
  · rw [hcmd]
    exact hended
  · rw [controlLog_snoc_none as ha]
    exact hs.shutdown_last
  · rw [hpublished, hunpublished, controlLog_snoc_none as ha]
    exact hs.count
  · rw [hpublished]
    exact hs.origin
  · rw [hpublished, controlLog_snoc_none as ha]
    exact hs.publications
  · rw [hunpublished, hdata, controlLog_snoc_none as ha]
    exact hs.current
  · rw [hunpublished, LazyState.newestCmd, hpublished]
    exact hs.awaited

/-- A step of another thread, or of the control thread's call before and after the
access that publishes. -/
theorem ControlInv.frame_lazy (hs : ControlInv tapeBasedir as s) (ha : a.request = none)
    (hthreads : ThreadsInv s') (hpc : s'.inPc = s.inPc) (hpushed : s'.pushed = s.pushed)
    (hpublished : s'.lazy.published = s.lazy.published)
    (hdata : (s'.thread .cchanIn).tData = (s.thread .cchanIn).tData)
    (hpending : (s'.thread .cchanIn).pc.pending = (s.thread .cchanIn).pc.pending) :
    ControlInv tapeBasedir (as ++ [a]) s' := by
  refine hs.frame ha hthreads ?_ ?_ hpublished hdata ?_ ?_
  · simp only [State.inHand, hpc, hpushed]
  · simp only [State.unpublished, hpc, hpending]
  · rw [hpc]
    exact hs.live
  · rw [hpc]
    exact hs.ended

theorem ControlInv.pc_of_pending (hs : ControlInv tapeBasedir as s)
    (hpending : (s.thread .cchanIn).pc.pending = true) : ∃ res, s.inPc = .push res := by
  by_contra hpc
  have hwaiting : s.waiting .cchanIn = false := by
    cases hin : s.inPc <;> simp_all [State.waiting]
  have hidle : (s.thread .cchanIn).pc = .idle := hs.threads.calls .cchanIn hwaiting
  simp [hidle, LazyPc.pending] at hpending

theorem ControlInv.publish (hs : ControlInv tapeBasedir as s) (ha : a.request = none)
    (hthreads : ThreadsInv s') (hpc : s'.inPc = s.inPc) (hpushed : s'.pushed = s.pushed)
    (hdata : (s'.thread .cchanIn).tData = (s.thread .cchanIn).tData)
    (hpending : (s.thread .cchanIn).pc.pending = true)
    (hsettled : (s'.thread .cchanIn).pc.pending = false)
    (hpublished : s'.lazy.published =
      s.lazy.published ++ [⟨s.lazy.gVersion + 1, (s.thread .cchanIn).tData⟩]) :
    ControlInv tapeBasedir (as ++ [a]) s' := by
  obtain ⟨res, hpush⟩ := hs.pc_of_pending hpending
  have hpush' : s'.inPc = .push res := hpc.trans hpush
  have hcmd : s'.cmd .cchanIn = s.cmd .cchanIn := congrArg WCtrl.cmd hdata
  have hbefore : s.unpublished = 1 := by simp [State.unpublished, hpush, hpending]
  have hafter : s'.unpublished = 0 := by simp [State.unpublished, hpush', hsettled]
  have hcount := hs.count
  constructor
  · exact hthreads
  · simp only [State.inHand, hpc, hpushed, controlLog_snoc_none as ha]
    exact hs.responses
  · rw [hcmd, controlLog_snoc_none as ha]
    exact hs.command
  · simp [hpush']
  · simp [hpush']
  · rw [controlLog_snoc_none as ha]
    exact hs.shutdown_last
  · rw [hpublished, hafter, controlLog_snoc_none as ha, List.length_append, List.length_singleton]
    omega
  · intro q hq
    rw [hpublished] at hq
    rcases getElem?_concat_cases hq with hold | ⟨hk, _⟩
    · exact hs.origin q hold
    · have hnonempty := hs.threads.lazy.numbered.newest
      have hversion := hs.threads.lazy.numbered.le_newest
      omega
  · intro k q hq
    rw [controlLog_snoc_none as ha]
    rw [hpublished] at hq
    rcases getElem?_concat_cases hq with hold | ⟨hk, rfl⟩
    · exact hs.publications k q hold
    · obtain ⟨req, hreq, hrecord⟩ := hs.current hbefore
      refine ⟨req, ?_, hrecord⟩
      rw [List.getLast?_eq_getElem?] at hreq
      rwa [show k = (controlLog as).acknowledged.length - 1 by omega]
  · intro h
    omega
  · intro h
    omega

theorem ControlInv.newestCmd_eq (hs : ControlInv tapeBasedir as s) (hnone : s.unpublished = 0) :
    s.lazy.newestCmd = (controlLog as).command := by
  have hcount := hs.count
  have hlength : s.lazy.published.length = (controlLog as).acknowledged.length + 1 := by omega
  obtain ⟨q, hq⟩ : ∃ q, s.lazy.published[(controlLog as).acknowledged.length]? = some q :=
    ⟨_, List.getElem?_eq_getElem (by omega)⟩
  rw [LazyState.newestCmd_of_last hlength hq]
  cases hacks : (controlLog as).acknowledged.getLast? with
  | none =>
    rw [List.getLast?_eq_none_iff] at hacks
    rw [hacks] at hq
    rw [hs.origin q hq]
    simp [ControlLog.command, ControlLog.last, hacks]
  | some req =>
    rw [ControlLog.command_of_getLast? hacks]
    rw [List.getLast?_eq_getElem?] at hacks
    have hpos := (List.getElem?_eq_some_iff.mp hacks).1
    rw [show (controlLog as).acknowledged.length = (controlLog as).acknowledged.length - 1 + 1
      by omega] at hq
    obtain ⟨req', hreq', hrecord⟩ := hs.publications _ q hq
    obtain rfl : req' = req := Option.some.inj (hreq'.symm.trans hacks)
    exact hrecord.cmd

private theorem controlInv_answer (hs : ControlInv tapeBasedir as s) {message : Option Frame}
    {fileExists : ℤ} {req : Request} {out : Switched} {l : LazyState ℤ Party}
    (hthreads : ThreadsInv
      { s with lazy := l, inPc := if out.publish then .publish out.res else .push out.res })
    (hpc : s.inPc = .recv) (hreceived : receivedRequest message = some req)
    (hswitched : cchanInSwitch tapeBasedir (s.thread .cchanIn).tData req fileExists = out)
    (hassigned : lazyStep s.lazy
      (.assign .cchanIn (s.thread .cchanIn).tVersion out.tData) = some l) :
    ControlInv tapeBasedir (as ++ [.inRecv message fileExists])
      { s with lazy := l, inPc := if out.publish then .publish out.res else .push out.res } := by
  have ha : Action.request (.inRecv message fileExists) = some (req, fileExists) := by
    rw [receivedRequest_eq] at hreceived
    simp [Action.request, hreceived]
  have hanswers := cchanInSwitch_answers tapeBasedir hs.command req fileExists
  rw [hswitched] at hanswers
  obtain ⟨hidle, rfl⟩ := lazyStep_assign hassigned
  have hnone : s.unpublished = 0 := by
    simp [State.unpublished, State.thread, hpc, hidle, LazyPc.pending]
  have hlast : (controlLog as).last ≠ some .shutdown := by
    rw [← ControlLog.shutdown_lt_command_iff, ← hs.command]
    exact hs.live hpc
  generalize hs' : ({ s with
    lazy := s.lazy.setThread .cchanIn ⟨(s.thread .cchanIn).tVersion, out.tData, .idle⟩
    inPc := if out.publish then .publish out.res else .push out.res } : State) = s' at hthreads ⊢
  have hpublished : s'.lazy.published = s.lazy.published := by rw [← hs']; rfl
  have hdata : (s'.thread .cchanIn).tData = out.tData := by simp [← hs', State.thread]
  have hhand : s'.pushed ++ s'.inHand = (s.pushed ++ s.inHand) ++ [out.res] := by
    cases hpub : out.publish <;> simp [← hs', State.inHand, hpub, hpc]
  have hunpublished : s'.unpublished = out.publish.toNat := by
    cases hpub : out.publish <;>
      simp [← hs', State.unpublished, State.thread, hpub, LazyPc.pending]
  have hlog := controlLog_snoc_some as ha
  have hacks := (controlLog as).acknowledged_respond req fileExists
  have hcount := hs.count
  constructor
  · exact hthreads
  · rw [hhand, List.map_append, hs.responses, hlog]
    simp [ControlLog.respond, hanswers.requestId, hanswers.type]
  · rw [hlog, ← hanswers.cmd]
    exact congrArg WCtrl.cmd hdata
  · intro hrecv
    cases hpub : out.publish <;> simp [← hs', hpub] at hrecv
  · intro hfinished
    cases hpub : out.publish <;> simp [← hs', hpub] at hfinished
  · rw [hlog]
    exact hs.shutdown_last.respond hlast _
  · rw [hpublished, hunpublished, hlog, hacks, hanswers.publish, List.length_append]
    cases hok : ((controlLog as).answer req fileExists).isOk <;> simp <;> omega
  · rw [hpublished]
    exact hs.origin
  · intro k q hq
    rw [hpublished] at hq
    obtain ⟨old, hold, hrecord⟩ := hs.publications k q hq
    refine ⟨old, ?_, hrecord⟩
    rw [hlog, hacks, List.getElem?_append_left (List.getElem?_eq_some_iff.mp hold).1]
    exact hold
  · intro hone
    have hpub : out.publish = true := by
      by_contra hpub
      simp [hunpublished, hpub] at hone
    refine ⟨req, ?_, hdata ▸ hanswers.record hpub⟩
    rw [hlog, hacks, ← hanswers.publish, hpub]
    simp
  · intro _
    have hlive := hs.live hpc
    rw [LazyState.newestCmd, hpublished, ← LazyState.newestCmd, hs.newestCmd_eq hnone,
      ← hs.command]
    omega

theorem controlInv_step (hs : ControlInv tapeBasedir as s) (h : step tapeBasedir s a = some s') :
    ControlInv tapeBasedir (as ++ [a]) s' := by
  have hthreads := threadsInv_step hs.threads h
  cases moves_of_step h with
  | @lazy p l ran =>
    obtain ⟨hdata, ⟨hpending, hpublished⟩ | ⟨_, hversion, hsettled, hpublished⟩⟩ :=
      runThread_publishes hs.threads.lazy ran
    · exact hs.frame_lazy rfl hthreads rfl rfl hpublished hdata hpending
    · have hpending : (s.thread .cchanIn).pc.pending = true := by
        simp [State.thread, hversion, LazyPc.pending]
      exact hs.publish rfl hthreads rfl rfl hdata hpending hsettled hpublished
  | inLoop pc live =>
    refine hs.frame rfl hthreads ?_ ?_ rfl rfl (fun _ => live) CchanInPc.noConfusion
    · simp [State.inHand, pc]
    · simp [State.unpublished, State.thread, pc]
  | inFinish pc dead =>
    refine hs.frame rfl hthreads ?_ ?_ rfl rfl CchanInPc.noConfusion (fun _ => dead)
    · simp [State.inHand, pc]
    · simp [State.unpublished, State.thread, pc]
  | @inRefuse message fileExists pc refused =>
    have ha : Action.request (.inRecv message fileExists) = none := by
      rw [receivedRequest_eq] at refused
      simp [Action.request, refused]
    refine hs.frame ha hthreads ?_ ?_ rfl rfl CchanInPc.noConfusion CchanInPc.noConfusion
    · simp [State.inHand, pc]
    · simp [State.unpublished, State.thread, pc]
  | inAnswer pc received switched assigned =>
    exact controlInv_answer hs hthreads pc received switched assigned
  | inPublish pc called =>
    obtain ⟨hidle, rfl⟩ := lazyStep_call called
    refine hs.frame rfl hthreads ?_ ?_ rfl ?_ CchanInPc.noConfusion CchanInPc.noConfusion
    · simp [State.inHand, pc]
    · simp [State.unpublished, State.thread, pc, LazyPc.pending]
    · simp [State.thread]
  | inPush pc idle =>
    refine hs.frame rfl hthreads ?_ ?_ rfl rfl CchanInPc.noConfusion CchanInPc.noConfusion
    · simp [State.inHand, pc]
    · simp [State.unpublished, State.thread, pc]
  | outRead pc called | marketRead pc called | marketCallback pc called =>
    obtain ⟨_, rfl⟩ := lazyStep_call called
    exact hs.frame_lazy rfl hthreads rfl rfl rfl rfl rfl
  | outFinish | outTest | outRefuse | outRecv | outSend | marketTest | marketRun | marketProcess
  | marketStop | marketContinue | marketTapeEnd | marketStopped =>
    exact hs.frame_lazy rfl hthreads rfl rfl rfl rfl rfl

theorem controlInv_run {guard : State → Action → Prop} {gBuffer : Memory} {buffer : Party → Memory}
    (run : Run (step tapeBasedir) guard (initial gBuffer buffer) as s) :
    ControlInv tapeBasedir as s :=
  run.history _ (controlInv_initial tapeBasedir gBuffer buffer)
    (fun _ _ _ _ ht _ => controlInv_step ht)

/-- Once a shutdown is published the control thread has its response to push, or is done. -/
theorem ControlInv.after_shutdown (hs : ControlInv tapeBasedir as s)
    (hshutdown : s.lazy.newestCmd = wineingCtrlCmdShutdown) :
    s.unpublished = 0 ∧ s.cmd .cchanIn = wineingCtrlCmdShutdown ∧
    ((∃ res, s.inPc = .push res) ∨ s.inPc = .loop ∨ s.inPc = .finished) := by
  have hone : s.unpublished ≠ 1 := fun h => hs.awaited h hshutdown
  have hnone : s.unpublished = 0 := by
    cases hpc : s.inPc <;> cases hpending : (s.thread .cchanIn).pc.pending <;>
      simp_all [State.unpublished]
  have hcmd : s.cmd .cchanIn = wineingCtrlCmdShutdown := by
    rw [hs.command, ← hs.newestCmd_eq hnone, hshutdown]
  refine ⟨hnone, hcmd, ?_⟩
  cases hpc : s.inPc with
  | loop => exact .inr (.inl rfl)
  | recv =>
    have hlive := hs.live hpc
    omega
  | publish res => simp [State.unpublished, hpc] at hone
  | push res => exact .inl ⟨res, rfl⟩
  | finished => exact .inr (.inr rfl)

theorem ControlInv.not_pending_after_shutdown (hs : ControlInv tapeBasedir as s)
    (hshutdown : s.lazy.newestCmd = wineingCtrlCmdShutdown) :
    (s.thread .cchanIn).pc.pending ≠ true := by
  intro hpending
  obtain ⟨res, hpush⟩ := hs.pc_of_pending hpending
  have hnone := (hs.after_shutdown hshutdown).1
  simp [State.unpublished, hpush, hpending] at hnone

theorem ControlInv.published_after_shutdown (hs : ControlInv tapeBasedir as s)
    (hshutdown : s.lazy.newestCmd = wineingCtrlCmdShutdown) (h : Moves tapeBasedir s a s') :
    s'.lazy.published = s.lazy.published ∧ s'.lazy.gVersion = s.lazy.gVersion := by
  have hsame : s'.lazy.published = s.lazy.published := by
    refine (published_of_moves hs.threads h).resolve_right ?_
    rintro ⟨_, hversion, _⟩
    exact hs.not_pending_after_shutdown hshutdown (by simp [hversion, LazyPc.pending])
  have hold := hs.threads.lazy.numbered.newest
  have hnew := (lazyInv_moves hs.threads.lazy h).numbered.newest
  rw [hsame] at hnew
  exact ⟨hsame, by omega⟩

theorem ControlInv.newestCmd_shutdown (hs : ControlInv tapeBasedir as s)
    (hshutdown : s.lazy.newestCmd = wineingCtrlCmdShutdown) (h : Moves tapeBasedir s a s') :
    s'.lazy.newestCmd = wineingCtrlCmdShutdown := by
  rw [LazyState.newestCmd, (hs.published_after_shutdown hshutdown h).1]
  exact hshutdown

theorem Publishes.of_agrees {req : Request} {c d : WCtrl} (h : Publishes tapeBasedir req d)
    (hc : WCtrl.Agrees c d) : Publishes tapeBasedir req c := by
  refine ⟨hc.cmd.trans h.cmd, ?_, fun htype hfile => hc.size.trans (h.realTime htype hfile)⟩
  intro tapeFile htype hfile
  obtain ⟨hsize, hdata⟩ := h.tape tapeFile htype hfile
  rw [hc.size]
  exact ⟨hsize, fun k hk => (hc.data k hk).trans (hdata k hk)⟩

theorem Publishes.isCString {req : Request} {c : WCtrl} (h : Publishes tapeBasedir req c)
    (htype : req.type = .marketStart) {tapeFile : Bytes} (hfile : req.tapeFile = some tapeFile) :
    IsCString c.data (untilNul (tapeBasedir ++ tapeFile)) := by
  obtain ⟨hsize, hdata⟩ := h.tape tapeFile htype hfile
  refine isCString_of_agrees fun i hi => hdata i ?_
  omega

/-- Between the pushes every acknowledged request is published, the last of them in the
shared record. -/
theorem ControlInv.published_of_idle (hs : ControlInv tapeBasedir as s)
    (hidle : s.Idle .cchanIn) (hpc : ∀ res, s.inPc ≠ .publish res) :
    s.lazy.gVersion = (controlLog as).acknowledged.length ∧
    ∀ req, (controlLog as).acknowledged.getLast? = some req →
      Publishes tapeBasedir req s.lazy.gData := by
  have hidle : (s.lazy.threads .cchanIn).pc = .idle := hidle
  have hnone : s.unpublished = 0 := by
    cases hin : s.inPc <;> simp_all [State.unpublished, State.thread, LazyPc.pending]
  have hcount := hs.count
  have hnewest := hs.threads.lazy.numbered.newest
  have hversion : s.lazy.gVersion = (controlLog as).acknowledged.length := by omega
  refine ⟨hversion, ?_⟩
  intro req hreq
  have hshared := hs.threads.lazy.shared_complete (by simp [hidle, LazyPc.critical])
  obtain ⟨k, q, hk, hq, hagrees⟩ := hshared.version_mem hs.threads.lazy.numbered
  have hpos : 0 < (controlLog as).acknowledged.length :=
    List.length_pos_iff.mpr (by rintro h; simp [h] at hreq)
  obtain ⟨j, rfl⟩ : ∃ j, k = j + 1 := ⟨k - 1, by omega⟩
  obtain ⟨req', hreq', hrecord⟩ := hs.publications j q hq
  rw [List.getLast?_eq_getElem?, show (controlLog as).acknowledged.length - 1 = j by omega,
    hreq'] at hreq
  obtain rfl : req' = req := Option.some.inj hreq
  exact hrecord.of_agrees hagrees

theorem ControlInv.no_recv_after_shutdown (hs : ControlInv tapeBasedir as s)
    (hlast : (controlLog as).last = some .shutdown) (message : Option Frame) (fileExists : ℤ) :
    step tapeBasedir s (.inRecv message fileExists) = none := by
  have hpc : s.inPc ≠ .recv := by
    intro hpc
    have hlive := hs.live hpc
    rw [hs.command, ControlLog.shutdown_lt_command_iff] at hlive
    exact hlive hlast
  cases hin : s.inPc <;> simp_all [step]

/-- A frame that is not a request costs the control thread a turn of its loop. -/
theorem step_refused (hs : ControlInv tapeBasedir as s) {message : Option Frame} {fileExists : ℤ}
    (hrefused : message.bind Frame.request = none)
    (hstep : step tapeBasedir s (.inRecv message fileExists) = some s') :
    s' = { s with inPc := .loop } ∧ step tapeBasedir s' .inLoop = some s := by
  rw [← receivedRequest_eq] at hrefused
  cases moves_of_step hstep with
  | inRefuse pc =>
    have hlive : wineingCtrlCmdShutdown < s.cmd .cchanIn := hs.live pc
    refine ⟨rfl, ?_⟩
    have hcmd : State.cmd { s with inPc := .loop } .cchanIn = s.cmd .cchanIn := rfl
    simp only [step, hcmd, if_pos hlive, ← pc]
  | inAnswer pc received => cases hrefused.symm.trans received

end Steps

end Wineing
