import Wineing.ControlLoopRefinement

/-!
# Is every response forwarded?

Responses reach the client through the inproc queue, in order and none twice. The last
of them can stay behind: `cchan_out_thread` learns of the shutdown from the shared record,
which is published before the response is pushed, and leaves its loop without looking at
the queue. Nothing is lost exactly when it reads the shutdown from a drained queue.
-/

namespace Wineing
open CStringMemory GuardedRuns

namespace State

def outHand (s : State) : List Response :=
  match s.outPc with
  | .send res => [res]
  | _ => []

def AnsweredShutdown (s : State) : Prop :=
  s.cmd .cchanIn = wineingCtrlCmdShutdown ∧ (s.inPc = .loop ∨ s.inPc = .finished)

instance (s : State) : Decidable s.AnsweredShutdown := inferInstanceAs (Decidable (_ ∧ _))

end State

/-- `cchan_out_thread` takes the shutdown from the shared record only when the response
to it has been pushed and the queue is empty. -/
def DrainsFirst (s : State) (a : Action) : Prop :=
  a.access = some .cchanOut → (s.thread .cchanOut).pc = .cmd .updateLocalIfChanged →
    s.lazy.gData.cmd = wineingCtrlCmdShutdown → s.inproc = [] ∧ s.AnsweredShutdown

structure OutInv (s : State) : Prop where
  fifo : s.pushed = s.cchanOut ++ s.outHand ++ s.inproc
  live : s.outPc = .recv → s.cmd .cchanOut ≠ wineingCtrlCmdShutdown
  ended : s.outPc = .finished → s.cmd .cchanOut = wineingCtrlCmdShutdown

section Steps

variable {tapeBasedir : Bytes} {as : List Action} {s s' : State} {a : Action}

theorem outInv_initial (gBuffer : Memory) (buffer : Party → Memory) :
    OutInv (initial gBuffer buffer) :=
  ⟨rfl, CchanOutPc.noConfusion, CchanOutPc.noConfusion⟩

theorem cmd_cchanOut_of_idle (hs : ThreadsInv s) (h : Moves tapeBasedir s a s')
    (hpc : s.outPc ≠ .test) : s'.cmd .cchanOut = s.cmd .cchanOut := by
  have hidle : s.Idle .cchanOut := hs.calls .cchanOut (by
    cases hout : s.outPc <;> simp_all [State.waiting])
  rcases cmd_of_moves hs.lazy (p := .cchanOut) (by decide) h with hsame | ⟨_, hcopy, _⟩
  · exact hsame
  · have hpc : (s.thread .cchanOut).pc = .idle := hidle
    simp [hpc] at hcopy

theorem outInv_step (hs : ThreadsInv s) (ho : OutInv s) (h : step tapeBasedir s a = some s') :
    OutInv s' := by
  have hmoves := moves_of_step h
  have hcmd := cmd_cchanOut_of_idle hs hmoves
  have hsame : s'.outPc = s.outPc →
      (s'.outPc = .recv → s'.cmd .cchanOut ≠ wineingCtrlCmdShutdown) ∧
      (s'.outPc = .finished → s'.cmd .cchanOut = wineingCtrlCmdShutdown) := by
    intro hpc
    rw [hpc]
    refine ⟨fun hrecv => ?_, fun hfinished => ?_⟩
    · rw [hcmd (by simp [hrecv])]
      exact ho.live hrecv
    · rw [hcmd (by simp [hfinished])]
      exact ho.ended hfinished
  have hfifo := ho.fifo
  cases hmoves with
  | lazy | inLoop | inFinish | inRefuse | inAnswer | inPublish | marketRead | marketTest
  | marketRun | marketCallback | marketProcess | marketStop | marketContinue | marketTapeEnd
  | marketStopped => exact ⟨hfifo, (hsame rfl).1, (hsame rfl).2⟩
  | inPush =>
    refine ⟨?_, (hsame rfl).1, (hsame rfl).2⟩
    simp [hfifo, State.outHand]
  | outRead pc | outRefuse pc =>
    refine ⟨?_, CchanOutPc.noConfusion, CchanOutPc.noConfusion⟩
    simpa [State.outHand, pc] using hfifo
  | outFinish pc idle dead =>
    refine ⟨?_, CchanOutPc.noConfusion, fun _ => dead⟩
    simpa [State.outHand, pc] using hfifo
  | outTest pc idle live =>
    refine ⟨?_, fun _ => live, CchanOutPc.noConfusion⟩
    simpa [State.outHand, pc] using hfifo
  | outRecv pc queue =>
    refine ⟨?_, CchanOutPc.noConfusion, CchanOutPc.noConfusion⟩
    simpa [State.outHand, pc, queue] using hfifo
  | outSend pc =>
    refine ⟨?_, CchanOutPc.noConfusion, CchanOutPc.noConfusion⟩
    simpa [State.outHand, pc] using hfifo

/-- The shutdown has been read from a drained queue, if it has been read. -/
def Drained (s : State) : Prop :=
  s.cmd .cchanOut = wineingCtrlCmdShutdown → s.inproc = [] ∧ s.AnsweredShutdown

theorem drained_initial (gBuffer : Memory) (buffer : Party → Memory) :
    Drained (initial gBuffer buffer) := by
  intro h
  have hinit : wineingCtrlCmdInit = wineingCtrlCmdShutdown := h
  exact absurd hinit (by decide)

private theorem answeredShutdown_moves (hs : ThreadsInv s) (ha : s.AnsweredShutdown)
    (h : Moves tapeBasedir s a s') :
    s'.AnsweredShutdown ∧ (s.inproc = [] → s'.inproc = []) := by
  obtain ⟨hcmd, hpc⟩ := ha
  cases h with
  | lazy ran =>
    obtain ⟨hdata, _⟩ := runThread_publishes hs.lazy ran
    have hsame : State.cmd { s with lazy := _ } .cchanIn = s.cmd .cchanIn := congrArg WCtrl.cmd hdata
    exact ⟨⟨hsame.trans hcmd, hpc⟩, id⟩
  | outRead _ called | marketRead _ called | marketCallback _ called =>
    obtain ⟨_, rfl⟩ := lazyStep_call called
    exact ⟨⟨hcmd, hpc⟩, id⟩
  | inLoop _ live => omega
  | inFinish => exact ⟨⟨hcmd, .inr rfl⟩, id⟩
  | inRefuse pc | inAnswer pc | inPublish pc | inPush pc => simp [pc] at hpc
  | outRecv _ queue => exact ⟨⟨hcmd, hpc⟩, fun hnil => by simp [queue] at hnil⟩
  | outFinish | outTest | outRefuse | outSend | marketTest | marketRun | marketProcess
  | marketStop | marketContinue | marketTapeEnd | marketStopped => exact ⟨⟨hcmd, hpc⟩, id⟩

private theorem drained_step (hs : ThreadsInv s) (hd : Drained s) (hguard : DrainsFirst s a)
    (h : step tapeBasedir s a = some s') : Drained s' := by
  have hmoves := moves_of_step h
  have hkeep : s.inproc = [] ∧ s.AnsweredShutdown → s'.inproc = [] ∧ s'.AnsweredShutdown := by
    rintro ⟨hnil, hanswered⟩
    obtain ⟨hanswered', hnil'⟩ := answeredShutdown_moves hs hanswered hmoves
    exact ⟨hnil' hnil, hanswered'⟩
  intro hread
  rcases cmd_of_moves hs.lazy (p := .cchanOut) (by decide) hmoves with hsame | ⟨rfl, hpc, hcopied, _⟩
  · exact hkeep (hd (hsame.symm.trans hread))
  · exact hkeep (hguard rfl hpc (hcopied.symm.trans hread))

/-- A response is left in the queue, or about to be pushed, when the shutdown has been read. -/
structure Lost (s : State) : Prop where
  published : s.lazy.newestCmd = wineingCtrlCmdShutdown
  read : s.cmd .cchanOut = wineingCtrlCmdShutdown
  pc : s.outPc = .test ∨ s.outPc = .finished
  left : s.inproc ≠ [] ∨ ∃ res, s.inPc = .push res

theorem lost_of_not_drainsFirst (hs : ControlInv tapeBasedir as s)
    (hguard : ¬ DrainsFirst s a) (h : step tapeBasedir s a = some s') : Lost s' := by
  simp only [DrainsFirst, Classical.not_imp] at hguard
  obtain ⟨haccess, hpc, hcmd, hnot⟩ := hguard
  obtain rfl := Action.eq_lazy_of_access haccess
  have hpc' : (s.lazy.threads .cchanOut).pc = .cmd .updateLocalIfChanged := hpc
  have hnewest := hs.threads.lazy.shared_cmd (i := .cchanOut) (by decide)
    (by simp [hpc', LazyPc.critical])
  cases moves_of_step h with
  | lazy ran =>
    simp only [runThread, hpc', Option.some.injEq] at ran
    subst ran
    refine ⟨?_, ?_, .inl ?_, ?_⟩
    · exact hnewest.symm.trans hcmd
    · simpa [State.cmd, State.thread, WCtrl.copyCmd] using hcmd
    · by_contra hout
      have hidle : (s.thread .cchanOut).pc = .idle := hs.threads.calls .cchanOut (by
        cases hcase : s.outPc <;> simp_all [State.waiting])
      simp [hidle] at hpc
    · obtain ⟨_, hin, hpush | hdone⟩ := hs.after_shutdown (hnewest.symm.trans hcmd)
      · exact .inr hpush
      · exact .inl (fun hnil => hnot ⟨hnil, hin, hdone⟩)

private theorem lost_step (hs : ControlInv tapeBasedir as s) (hl : Lost s)
    (h : step tapeBasedir s a = some s') : Lost s' := by
  have hmoves := moves_of_step h
  have hpublished := hs.newestCmd_shutdown hl.published hmoves
  have hread : s'.cmd .cchanOut = wineingCtrlCmdShutdown := by
    rcases cmd_of_moves hs.threads.lazy (p := .cchanOut) (by decide) hmoves with
      hsame | ⟨_, _, hcopied, hnewest⟩
    · exact hsame.trans hl.read
    · exact hcopied.trans (hnewest.trans hl.published)
  obtain ⟨_, hold, hpc, hleft⟩ := hl
  cases hmoves with
  | lazy | marketRead | marketTest | marketRun | marketCallback | marketProcess | marketStop
  | marketContinue | marketTapeEnd | marketStopped => exact ⟨hpublished, hread, hpc, hleft⟩
  | inLoop pc | inFinish pc | inRefuse pc | inAnswer pc | inPublish pc =>
    exact ⟨hpublished, hread, hpc, .inl (hleft.resolve_right (by simp [pc]))⟩
  | inPush => exact ⟨hpublished, hread, hpc, .inl (by simp)⟩
  | outFinish => exact ⟨hpublished, hread, .inr rfl, hleft⟩
  | outTest _ _ live => exact absurd hold live
  | outRead pc | outRefuse pc | outRecv pc | outSend pc => simp [pc] at hpc

end Steps

/-- What `cchan_out_thread` has sent when both threads are done are the responses pushed,
each once and in their order, exactly when it read the shutdown from a drained queue. -/
theorem cchanOutThread_forwards_all_iff (tapeBasedir : Bytes) (gBuffer : Memory)
    (buffer : Party → Memory) (as : List Action) (s : State)
    (run : Run (step tapeBasedir) unguarded (initial gBuffer buffer) as s)
    (hin : s.inPc = .finished) (hout : s.outPc = .finished) :
    s.cchanOut = s.pushed ↔ Run (step tapeBasedir) DrainsFirst (initial gBuffer buffer) as s := by
  constructor
  · intro hall
    obtain ⟨⟨_, ho⟩, hdrained | hlost⟩ := run.guarded_or DrainsFirst
      (fun as t => ControlInv tapeBasedir as t ∧ OutInv t) Lost
      ⟨controlInv_initial _ _ _, outInv_initial _ _⟩
      (fun as t a u ⟨ht, ho⟩ hstep => ⟨controlInv_step ht hstep, outInv_step ht.threads ho hstep⟩)
      (fun as t a u ⟨ht, _⟩ hguard hstep => lost_of_not_drainsFirst ht hguard hstep)
      (fun as t a u ⟨ht, _⟩ hl hstep => lost_step ht hl hstep)
    · exact hdrained
    · have hfifo := ho.fifo
      have hleft := hlost.left.resolve_right (by simp [hin])
      simp [State.outHand, hout, hall] at hfifo
      exact absurd hfifo hleft
  · intro hguarded
    have hdrained := hguarded.invariant (fun t => ThreadsInv t ∧ OutInv t ∧ Drained t)
      ⟨threadsInv_initial _ _, outInv_initial _ _, drained_initial _ _⟩ (by
        rintro t a u ⟨ht, ho, hd⟩ hguard hstep
        exact ⟨threadsInv_step ht hstep, outInv_step ht ho hstep, drained_step ht hd hguard hstep⟩)
    obtain ⟨_, ho, hd⟩ := hdrained
    have hnil := (hd (ho.ended hout)).1
    simpa [State.outHand, hout, hnil] using ho.fifo.symm

/-- A shutdown whose response the client gets: the queue was waited on before it. -/
def shutdownAwaited : List Action :=
  List.flatten [[.outRead], calls .cchanOut 8, [.outTest], serve ⟨1, .shutdown, none⟩ 0,
    [.outRecv true, .outSend, .outRead], calls .cchanOut 8, [.outTest, .inLoop]]

theorem cchanOutThread_forwards_all_iff_shutdown : ∃ s : State,
    s.cchanOut.map (fun res => (res.requestId, res.type)) = [(1, .shutdownOk)] ∧
    Run (step []) DrainsFirst (initial (fun _ => 0) (fun _ _ => 0)) shutdownAwaited s := by
  have hrun := exists_run_of_foldlM_map (step []) unguarded
    (initial (fun _ => 0) (fun _ _ => 0)) shutdownAwaited
    (fun s => (s.inPc, s.outPc, s.cchanOut, s.pushed))
    (b := (.finished, .finished, [⟨1, .shutdownOk, none⟩], [⟨1, .shutdownOk, none⟩])) (by decide)
  obtain ⟨s, run, hs⟩ := hrun
  simp only [Prod.mk.injEq] at hs
  obtain ⟨hin, hout, hsent, hpushed⟩ := hs
  have hiff := cchanOutThread_forwards_all_iff [] _ _ _ s run hin hout
  exact ⟨s, by simp [hsent], hiff.mp (hsent.trans hpushed.symm)⟩

/-- A shutdown whose response nobody sends: `cchan_out_thread` reads the shared record
between the publication and the push. -/
def shutdownOvertaken : List Action :=
  List.flatten [[.inLoop, .inRecv (some (Request.frame ⟨1, .shutdown, none⟩)) 0, .inPublish],
    calls .cchanIn 8, [.outRead], calls .cchanOut 8, [.outTest, .inPush, .inLoop]]

theorem cchanOutThread_loses_shutdownOk : ∃ s : State,
    Run (step []) unguarded (initial (fun _ => 0) (fun _ _ => 0)) shutdownOvertaken s ∧
    s.inPc = .finished ∧ s.outPc = .finished ∧
    s.pushed = [⟨1, .shutdownOk, none⟩] ∧ s.cchanOut = [] := by
  have hrun := exists_run_of_foldlM_map (step []) unguarded
    (initial (fun _ => 0) (fun _ _ => 0)) shutdownOvertaken
    (fun s => (s.inPc, s.outPc, s.pushed, s.cchanOut))
    (b := (.finished, .finished, [⟨1, .shutdownOk, none⟩], [])) (by decide)
  obtain ⟨s, run, hs⟩ := hrun
  simp only [Prod.mk.injEq] at hs
  exact ⟨s, run, hs⟩

end Wineing
