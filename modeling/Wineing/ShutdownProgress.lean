import Wineing.MarketOverrun
import Wineing.ResponseForwarding

/-!
# Shutdown cannot get stuck

After a shutdown is published nothing else is, so a party whose read of the shared record
starts later comes back with the shutdown. `cchan_out_thread` can be one receive away from
its next read; then the response to the shutdown is still in the queue for it, or is yet
to be pushed.
-/

namespace Wineing
open CStringMemory GuardedRuns

namespace State

def Done (s : State) : Party → Prop
  | .cchanIn => s.inPc = .finished
  | .cchanOut => s.outPc = .finished
  | .market | .callback => s.marketPc = .finished

/-- `cchan_out_thread` waits for a response, or will without another read of the newest
publication. -/
def WillReceive (s : State) : Prop :=
  s.outPc = .recv ∨ (s.outPc = .test ∧ ¬ Fresh s.lazy.gVersion .cchanOut s.lazy)

instance (s : State) : Decidable s.WillReceive := inferInstanceAs (Decidable (_ ∨ (_ ∧ ¬ _)))

end State

def Action.isOutRecv : Action → Bool
  | .outRecv _ => true
  | _ => false

section Steps

variable {tapeBasedir : Bytes} {as bs : List Action} {s s' : State} {a : Action} {p : Party}

theorem not_done_of_gLock (hs : ThreadsInv s) (hlock : s.lazy.gLock = some p) : ¬ s.Done p := by
  intro hdone
  have hcritical := (hs.lazy.lock p).mp hlock
  have hwaiting : s.waiting p = false := by
    cases p <;> simp_all [State.Done, State.waiting]
  have hidle : (s.lazy.threads p).pc = .idle := hs.calls p hwaiting
  simp [hidle, LazyPc.critical] at hcritical

private theorem willReceive_of_step (hs : ControlInv tapeBasedir as s)
    (hshutdown : s.lazy.newestCmd = wineingCtrlCmdShutdown) (h : step tapeBasedir s a = some s')
    (hwill : s'.WillReceive) : s.WillReceive ∧ a.isOutRecv = false := by
  have hmoves := moves_of_step h
  have hversion := (hs.published_after_shutdown hshutdown hmoves).2
  have hstale : s'.outPc = s.outPc → s.WillReceive := by
    intro hpc
    unfold State.WillReceive at hwill
    rw [hpc, hversion] at hwill
    rcases hwill with hrecv | ⟨htest, hnot⟩
    · exact .inl hrecv
    · exact .inr ⟨htest, fun hf => hnot (fresh_moves hs.threads.lazy (by decide) hf hmoves)⟩
  cases hmoves with
  | lazy | inLoop | inFinish | inRefuse | inAnswer | inPublish | inPush | marketRead | marketTest
  | marketRun | marketCallback | marketProcess | marketStop | marketContinue | marketTapeEnd
  | marketStopped => exact ⟨hstale rfl, rfl⟩
  | outRead pc called =>
    have hfresh := fresh_of_call (n := s.lazy.gVersion) (le_refl _) called
    rw [← hversion] at hfresh
    rcases hwill with hrecv | ⟨_, hnot⟩
    · cases hrecv
    · exact absurd hfresh hnot
  | outTest pc idle live =>
    refine ⟨.inr ⟨pc, fun hfresh => live ?_⟩, rfl⟩
    rw [hs.threads.cmd_of_fresh (by decide) idle hfresh]
    exact hshutdown
  | outFinish | outRefuse | outRecv | outSend => simp [State.WillReceive] at hwill

/-- Who is on the way to the queue finds a response there, once the shutdown is answered. -/
def Queued (s : State) : Prop := s.AnsweredShutdown → s.WillReceive → s.inproc ≠ []

theorem newestCmd_of_answeredShutdown (hs : ControlInv tapeBasedir as s)
    (hanswered : s.AnsweredShutdown) : s.lazy.newestCmd = wineingCtrlCmdShutdown := by
  obtain ⟨hcmd, hpc⟩ := hanswered
  have hidle : (s.thread .cchanIn).pc = .idle := hs.threads.calls .cchanIn (by
    rcases hpc with hpc | hpc <;> simp [State.waiting, hpc])
  have hnone : s.unpublished = 0 := by
    rcases hpc with hpc | hpc <;> simp [State.unpublished, hpc, hidle, LazyPc.pending]
  rw [hs.newestCmd_eq hnone, ← hs.command]
  exact hcmd

private theorem answeredShutdown_of_step (hs : ControlInv tapeBasedir as s)
    (hanswered : s'.AnsweredShutdown) (h : step tapeBasedir s a = some s') :
    s'.inproc ≠ [] ∨
    (s.AnsweredShutdown ∧ (a.isOutRecv = false → s'.inproc = s.inproc)) := by
  obtain ⟨hcmd, hpc⟩ := hanswered
  cases moves_of_step h with
  | lazy ran =>
    obtain ⟨hdata, _⟩ := runThread_publishes hs.threads.lazy ran
    have hsame : State.cmd { s with lazy := _ } .cchanIn = s.cmd .cchanIn := congrArg WCtrl.cmd hdata
    exact .inr ⟨⟨hsame.symm.trans hcmd, hpc⟩, fun _ => rfl⟩
  | outRead _ called | marketRead _ called | marketCallback _ called =>
    obtain ⟨_, rfl⟩ := lazyStep_call called
    exact .inr ⟨⟨hcmd, hpc⟩, fun _ => rfl⟩
  | inFinish pc => exact .inr ⟨⟨hcmd, .inl pc⟩, fun _ => rfl⟩
  | inRefuse pc =>
    have hlive : wineingCtrlCmdShutdown < s.cmd .cchanIn := hs.live pc
    have hcmd : s.cmd .cchanIn = wineingCtrlCmdShutdown := hcmd
    omega
  | inLoop | inPublish => simp at hpc
  | @inAnswer _ _ _ out => cases hpub : out.publish <;> simp [hpub] at hpc
  | inPush => exact .inl (by simp)
  | outRecv => exact .inr ⟨⟨hcmd, hpc⟩, fun hnot => by simp [Action.isOutRecv] at hnot⟩
  | outFinish | outTest | outRefuse | outSend | marketTest | marketRun | marketProcess
  | marketStop | marketContinue | marketTapeEnd | marketStopped =>
    exact .inr ⟨⟨hcmd, hpc⟩, fun _ => rfl⟩

theorem queued_step (hs : ControlInv tapeBasedir as s) (hq : Queued s)
    (h : step tapeBasedir s a = some s') : Queued s' := by
  intro hanswered hwill
  rcases answeredShutdown_of_step hs hanswered h with hpushed | ⟨hbefore, hsame⟩
  · exact hpushed
  · have hshutdown := newestCmd_of_answeredShutdown hs hbefore
    obtain ⟨hwilled, hnot⟩ := willReceive_of_step hs hshutdown h hwill
    rw [hsame hnot]
    exact hq hbefore hwilled

/-- No thread is left waiting for a response when the control thread has finished. -/
theorem not_stuck (hs : ControlInv tapeBasedir as s) (hq : Queued s) :
    ¬ (s.inPc = .finished ∧ s.outPc = .recv ∧ s.inproc = []) := by
  rintro ⟨hfinished, hrecv, hnil⟩
  have hended := hs.ended hfinished
  have hnonneg : wineingCtrlCmdShutdown ≤ s.cmd .cchanIn := by
    rw [hs.command]
    exact (controlLog as).shutdown_le_command
  have hcmd : s.cmd .cchanIn = wineingCtrlCmdShutdown := le_antisymm hended hnonneg
  exact hq ⟨hcmd, .inr hfinished⟩ (.inl hrecv) hnil

/-- The states a run goes through from the publication of a shutdown on. -/
def ShuttingDown (tapeBasedir : Bytes) (s : State) : Prop :=
  (∃ as, ControlInv tapeBasedir as s) ∧ s.lazy.newestCmd = wineingCtrlCmdShutdown

theorem shuttingDown_step (hs : ShuttingDown tapeBasedir s)
    (h : step tapeBasedir s a = some s') : ShuttingDown tapeBasedir s' := by
  obtain ⟨⟨as, hcontrol⟩, hshutdown⟩ := hs
  exact ⟨⟨_, controlInv_step hcontrol h⟩, hcontrol.newestCmd_shutdown hshutdown (moves_of_step h)⟩

private theorem outRecv_count_le (hs : ShuttingDown tapeBasedir s)
    (run : Run (step tapeBasedir) unguarded s bs s') : bs.countP Action.isOutRecv ≤ 1 := by
  have hcount := run.countP_add_le _ hs (fun _ _ _ ht _ => shuttingDown_step ht) Action.isOutRecv
    (fun t => if t.WillReceive then 1 else 0) (by
      rintro t a u ⟨⟨as, ht⟩, hshutdown⟩ _ hstep
      have hwill := willReceive_of_step ht hshutdown hstep
      by_cases hrecv : a.isOutRecv
      · have hbefore : t.WillReceive := by
          cases moves_of_step hstep with
          | outRefuse pc | outRecv pc => exact .inl pc
          | _ => simp [Action.isOutRecv] at hrecv
        have hafter : ¬ u.WillReceive := fun hu => by simp [(hwill hu).2] at hrecv
        simp [hrecv, hbefore, hafter]
      · by_cases hafter : u.WillReceive
        · simp [hrecv, hafter, (hwill hafter).1]
        · simp [hrecv, hafter])
  have hone : (if s.WillReceive then 1 else 0) ≤ 1 := by split <;> omega
  omega

theorem noStart_of_shuttingDown (hs : ShuttingDown tapeBasedir s)
    (run : Run (step tapeBasedir) unguarded s bs s') : Run (step tapeBasedir) NoStart s bs s' := by
  refine (run.reguard _ hs (fun _ _ _ ht _ => shuttingDown_step ht) ?_).1
  rintro t a u ⟨⟨as, ht⟩, hshutdown⟩ _ _ _ hversion
  exact absurd (by simp [hversion, LazyPc.pending]) (ht.not_pending_after_shutdown hshutdown)

/-- A party whose read of the shared record begins after the publication of a shutdown has
the shutdown when it comes back. -/
theorem reads_shutdown (hs : ShuttingDown tapeBasedir s) (hp : p ≠ .cchanIn)
    (hfresh : Fresh s.lazy.gVersion p s.lazy)
    (run : Run (step tapeBasedir) unguarded s bs s') (hidle : s'.Idle p) :
    s'.cmd p = wineingCtrlCmdShutdown := by
  obtain ⟨⟨⟨cs, ht⟩, hshutdown⟩, hsame⟩ := run.invariant
    (fun t => ShuttingDown tapeBasedir t ∧ t.lazy.gVersion = s.lazy.gVersion) ⟨hs, rfl⟩ (by
      rintro t a u ⟨ht, hsame⟩ _ hstep
      refine ⟨shuttingDown_step ht hstep, ?_⟩
      obtain ⟨⟨as, hcontrol⟩, hshutdown⟩ := ht
      exact (hcontrol.published_after_shutdown hshutdown (moves_of_step hstep)).2.trans hsame)
  -- freshness is carried along the run of the shared record alone
  obtain ⟨⟨as, hcontrol⟩, _⟩ := hs
  obtain ⟨_, hlazy⟩ := lazyRun_of_run run
  have hfresh' := fresh_run hcontrol.threads.lazy hp hfresh hlazy
  rw [← hsame] at hfresh'
  rw [ht.threads.cmd_of_fresh hp hidle hfresh']
  exact hshutdown

private theorem reads_shutdown_of_call (hs : ShuttingDown tapeBasedir s) (hp : p ≠ .cchanIn)
    (h : step tapeBasedir s a = some s')
    (hcall : lazyStep s.lazy (.call p .updateLocalIfChanged) = some s'.lazy) {u : State}
    (run : Run (step tapeBasedir) unguarded s' bs u) (hidle : u.Idle p) :
    u.cmd p = wineingCtrlCmdShutdown := by
  refine reads_shutdown (shuttingDown_step hs h) hp ?_ run hidle
  obtain ⟨⟨as, hcontrol⟩, hshutdown⟩ := hs
  rw [(hcontrol.published_after_shutdown hshutdown (moves_of_step h)).2]
  exact fresh_of_call (le_refl _) hcall

theorem callback_stops (hs : ShuttingDown tapeBasedir s) {message : NxMessage} {s₁ s₂ s₃ : State}
    (hcallback : step tapeBasedir s (.marketCallback message) = some s₁)
    (run : Run (step tapeBasedir) unguarded s₁ bs s₂)
    (hreturn : step tapeBasedir s₂ .marketCallbackReturn = some s₃) :
    s₃.marketPc = .stopping := by
  have hthreads : ThreadsInv s₂ := by
    obtain ⟨⟨as, hcontrol⟩, _⟩ := hs
    exact threadsInv_run (threadsInv_step hcontrol.threads hcallback) run
  cases moves_of_step hcallback with
  | marketCallback pc called =>
    cases moves_of_step hreturn with
    | marketStop => rfl
    | marketContinue pc' continued =>
      have hidle : s₂.Idle .callback := hthreads.calls .callback (by simp [State.waiting, pc'])
      have hcmd := reads_shutdown_of_call hs (by decide) hcallback called run hidle
      rw [hcmd] at continued
      exact absurd continued (by decide)

theorem cchanOut_finishes (hs : ShuttingDown tapeBasedir s) {s₁ s₂ s₃ : State}
    (hread : step tapeBasedir s .outRead = some s₁)
    (run : Run (step tapeBasedir) unguarded s₁ bs s₂)
    (htest : step tapeBasedir s₂ .outTest = some s₃) : s₃.outPc = .finished := by
  cases moves_of_step hread with
  | outRead pc called =>
    cases moves_of_step htest with
    | outFinish => rfl
    | outTest _ idle live =>
      exact absurd (reads_shutdown_of_call hs (by decide) hread called run idle) live

theorem market_finishes (hs : ShuttingDown tapeBasedir s) {s₁ s₂ s₃ : State}
    (hread : step tapeBasedir s .marketRead = some s₁)
    (run : Run (step tapeBasedir) unguarded s₁ bs s₂)
    (htest : step tapeBasedir s₂ .marketTest = some s₃) : s₃.marketPc = .finished := by
  cases moves_of_step hread with
  | marketRead pc called =>
    cases moves_of_step htest with
    | marketTest _ idle =>
      rw [reads_shutdown_of_call hs (by decide) hread called run idle]
      rfl

end Steps

/-- Shutdown cannot get stuck: nobody waits for a response that will not come or for a lock
that will not be released, and after the publication of a shutdown there is at most one
more receive and one more replay, callbacks stop the replay, and both loops are left at
the next read of the shared record. -/
theorem shutdown_progress (tapeBasedir : Bytes) (gBuffer : Memory) (buffer : Party → Memory)
    (as : List Action) (s : State)
    (run : Run (step tapeBasedir) unguarded (initial gBuffer buffer) as s) :
    ¬ (s.inPc = .finished ∧ s.outPc = .recv ∧ s.inproc = []) ∧
    (∀ p, s.lazy.gLock = some p → ¬ s.Done p) ∧
    (s.lazy.newestCmd = wineingCtrlCmdShutdown →
      (∀ bs s', Run (step tapeBasedir) unguarded s bs s' →
        bs.countP Action.isOutRecv ≤ 1 ∧ bs.countP Action.isMarketRun ≤ 1) ∧
      (∀ message s₁ bs s₂ s₃, step tapeBasedir s (.marketCallback message) = some s₁ →
        Run (step tapeBasedir) unguarded s₁ bs s₂ →
        step tapeBasedir s₂ .marketCallbackReturn = some s₃ → s₃.marketPc = .stopping) ∧
      (∀ s₁ bs s₂ s₃, step tapeBasedir s .outRead = some s₁ →
        Run (step tapeBasedir) unguarded s₁ bs s₂ →
        step tapeBasedir s₂ .outTest = some s₃ → s₃.outPc = .finished) ∧
      (∀ s₁ bs s₂ s₃, step tapeBasedir s .marketRead = some s₁ →
        Run (step tapeBasedir) unguarded s₁ bs s₂ →
        step tapeBasedir s₂ .marketTest = some s₃ → s₃.marketPc = .finished)) := by
  obtain ⟨hs, hqueued⟩ := run.history (fun as t => ControlInv tapeBasedir as t ∧ Queued t)
    ⟨controlInv_initial _ _ _, fun _ hwill => by simp [initial, State.WillReceive] at hwill⟩ (by
      rintro as t a u ⟨ht, hq⟩ _ hstep
      exact ⟨controlInv_step ht hstep, queued_step ht hq hstep⟩)
  refine ⟨not_stuck hs hqueued, fun p => not_done_of_gLock hs.threads, ?_⟩
  intro hshutdown
  have hdown : ShuttingDown tapeBasedir s := ⟨⟨as, hs⟩, hshutdown⟩
  have hover : Overrun tapeBasedir s.lazy.gVersion s :=
    overrun_of_newestCmd hs (by rw [hshutdown]; decide)
  refine ⟨?_, ?_, ?_, ?_⟩
  · intro bs s' hrun
    exact ⟨outRecv_count_le hdown hrun, marketRun_count_le hover (noStart_of_shuttingDown hdown hrun)⟩
  · intro message s₁ bs s₂ s₃ hcallback hrun hreturn
    exact callback_stops hdown hcallback hrun hreturn
  · intro s₁ bs s₂ s₃ hread hrun htest
    exact cchanOut_finishes hdown hread hrun htest
  · intro s₁ bs s₂ s₃ hread hrun htest
    exact market_finishes hdown hread hrun htest

/-- A shutdown published while `cchan_out_thread` waits for a response. -/
def shutdownWhileWaiting : List Action :=
  List.flatten [[.outRead], calls .cchanOut 8,
    [.outTest, .inLoop, .inRecv (some (Request.frame ⟨1, .shutdown, none⟩)) 0, .inPublish],
    calls .cchanIn 3]

theorem shutdown_progress_waiting : ∃ s : State,
    Run (step []) unguarded (initial (fun _ => 0) (fun _ _ => 0)) shutdownWhileWaiting s ∧
    s.lazy.newestCmd = wineingCtrlCmdShutdown ∧ s.outPc = .recv ∧
    ∀ bs s', Run (step []) unguarded s bs s' →
      bs.countP Action.isOutRecv ≤ 1 ∧ bs.countP Action.isMarketRun ≤ 1 := by
  obtain ⟨s, run, hs⟩ := exists_run_of_foldlM_map (step []) unguarded
    (initial (fun _ => 0) (fun _ _ => 0)) shutdownWhileWaiting
    (fun s => (s.lazy.newestCmd, s.outPc)) (b := (wineingCtrlCmdShutdown, .recv)) (by decide)
  obtain ⟨hcmd, hpc⟩ := Prod.mk.inj hs
  obtain ⟨_, _, hafter⟩ := shutdown_progress [] _ _ _ s run
  exact ⟨s, run, hcmd, hpc, (hafter hcmd).1⟩

end Wineing
