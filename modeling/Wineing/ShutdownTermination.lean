import Wineing.ControlProgress
import Wineing.ShutdownProgress

/-!
# Shutdown ends every thread

From the publication of a shutdown on, the places of the three threads and the calls under way
leave a bounded number of steps. As a thread that has not finished can always go on, or waits
for one that can, every schedule ends with all three finished, whatever the other threads and
NxCore do.
-/

namespace Wineing
open CStringMemory GuardedRuns

namespace State

/-- The steps of `cchan_in_thread` that are left after a shutdown, besides accesses. -/
def inStepsLeft (s : State) : ℕ :=
  match s.inPc with
  | .push _ => 2
  | .loop => 1
  | _ => 0

/-- Those of `cchan_out_thread`, with the accesses of the calls it will still make. A call that
reads version `n` is its last one. -/
def outStepsLeft (n : ℤ) (s : State) : ℕ :=
  match s.outPc with
  | .finished => 0
  | .test => if Fresh n .cchanOut s.lazy then 1 else 13
  | .read => 10
  | .send _ => 11
  | .recv => 12

/-- Those of `market_thread`. A callback that reads version `n` stops the replay. -/
def marketStepsLeft (n : ℤ) (s : State) : ℕ :=
  match s.marketPc with
  | .finished => 0
  | .test => if Fresh n .market s.lazy then 1 else 24
  | .read => 10
  | .stopping => 11
  | .callbackReturn => if Fresh n .callback s.lazy then 12 else 23
  | .process _ => if Fresh n .callback s.lazy then 13 else 24
  | .running => 22
  | .nxRun => 23

def stepsLeft (n : ℤ) (s : State) : ℕ :=
  s.inStepsLeft + s.outStepsLeft n + s.marketStepsLeft n + s.accessesLeft

def AllFinished (s : State) : Prop :=
  s.inPc = .finished ∧ s.outPc = .finished ∧ s.marketPc = .finished

instance (s : State) : Decidable s.AllFinished := inferInstanceAs (Decidable (_ ∧ _ ∧ _))

end State

section Steps

variable {tapeBasedir : Bytes} {as bs : List Action} {s s' : State} {a : Action} {n : ℤ}

theorem outStepsLeft_of_outPc_eq (hs : ThreadsInv s) (h : Moves tapeBasedir s a s')
    (hpc : s'.outPc = s.outPc) : s'.outStepsLeft n ≤ s.outStepsLeft n := by
  have hfresh : Fresh n .cchanOut s.lazy → Fresh n .cchanOut s'.lazy :=
    fun hf => fresh_moves hs.lazy Party.noConfusion hf h
  unfold State.outStepsLeft
  rw [hpc]
  cases s.outPc <;> split_ifs <;> simp_all

theorem marketStepsLeft_of_marketPc_eq (hs : ThreadsInv s) (h : Moves tapeBasedir s a s')
    (hpc : s'.marketPc = s.marketPc) : s'.marketStepsLeft n ≤ s.marketStepsLeft n := by
  have hmarket : Fresh n .market s.lazy → Fresh n .market s'.lazy :=
    fun hf => fresh_moves hs.lazy Party.noConfusion hf h
  have hcallback : Fresh n .callback s.lazy → Fresh n .callback s'.lazy :=
    fun hf => fresh_moves hs.lazy Party.noConfusion hf h
  unfold State.marketStepsLeft
  rw [hpc]
  cases s.marketPc <;> split_ifs <;> simp_all

private theorem inStepsLeft_lt (hs : ControlInv tapeBasedir as s)
    (hshutdown : s.lazy.newestCmd = wineingCtrlCmdShutdown) (h : Moves tapeBasedir s a s')
    (hpc : s'.inPc ≠ s.inPc) :
    s'.inStepsLeft + s'.accessesLeft < s.inStepsLeft + s.accessesLeft := by
  obtain ⟨_, hcmd, hplace⟩ := hs.after_shutdown hshutdown
  cases h with
  | inLoop pc live => omega
  | inRefuse pc | inAnswer pc | inPublish pc => simp [pc] at hplace
  | inFinish pc | inPush pc =>
    simp only [State.inStepsLeft, pc]
    exact Nat.add_lt_add_right (by decide) s.accessesLeft
  | _ => exact absurd rfl hpc

private theorem outStepsLeft_lt (hs : ThreadsInv s)
    (hshutdown : s.lazy.newestCmd = wineingCtrlCmdShutdown) (h : Moves tapeBasedir s a s')
    (hpc : s'.outPc ≠ s.outPc) :
    s'.outStepsLeft s.lazy.gVersion + s'.accessesLeft <
      s.outStepsLeft s.lazy.gVersion + s.accessesLeft := by
  cases h with
  | outRead pc called =>
    have hfresh := fresh_of_call (n := s.lazy.gVersion) le_rfl called
    have haccesses := accessesLeft_of_call called
    have haccesses' : ∀ pc', State.accessesLeft { s with lazy := _, outPc := pc' } =
      s.accessesLeft + 8 := fun _ => haccesses
    simp only [State.outStepsLeft, pc, hfresh, if_true, haccesses']
    omega
  | outFinish pc idle dead =>
    change 0 + s.accessesLeft < _
    simp only [State.outStepsLeft, pc]
    split <;> omega
  | outTest pc idle live =>
    have hstale : ¬ Fresh s.lazy.gVersion .cchanOut s.lazy := fun hfresh =>
      live ((hs.cmd_of_fresh Party.noConfusion idle hfresh).trans hshutdown)
    change 12 + s.accessesLeft < _
    simp only [State.outStepsLeft, pc, hstale, if_false]
    omega
  | outRefuse pc | outRecv pc | outSend pc =>
    simp only [State.outStepsLeft, pc]
    exact Nat.add_lt_add_right (by decide) s.accessesLeft
  | _ => exact absurd rfl hpc

private theorem marketStepsLeft_lt (hs : ThreadsInv s)
    (hshutdown : s.lazy.newestCmd = wineingCtrlCmdShutdown) (h : Moves tapeBasedir s a s')
    (hpc : s'.marketPc ≠ s.marketPc) :
    s'.marketStepsLeft s.lazy.gVersion + s'.accessesLeft <
      s.marketStepsLeft s.lazy.gVersion + s.accessesLeft := by
  cases h with
  | marketRead pc called | marketCallback pc called =>
    have hfresh := fresh_of_call (n := s.lazy.gVersion) le_rfl called
    have haccesses := accessesLeft_of_call called
    have haccesses' : ∀ pc', State.accessesLeft { s with lazy := _, marketPc := pc' } =
      s.accessesLeft + 8 := fun _ => haccesses
    simp only [State.marketStepsLeft, pc, hfresh, if_true, haccesses']
    omega
  | marketTest pc idle =>
    change State.marketStepsLeft _ _ + s.accessesLeft < _
    by_cases hfresh : Fresh s.lazy.gVersion .market s.lazy
    · have hcmd := (hs.cmd_of_fresh Party.noConfusion idle hfresh).trans hshutdown
      have hnext : marketNext (s.cmd .market) = .finished := by rw [hcmd]; rfl
      simp only [State.marketStepsLeft, pc, hfresh, hnext, if_true]
      omega
    · rcases marketNext_cases (s.cmd .market) with hnext | hnext | hnext <;>
        simp only [State.marketStepsLeft, pc, hfresh, hnext, if_false] <;> omega
  | @marketRun loaded pc =>
    cases loaded <;> simp only [State.marketStepsLeft, pc, Bool.false_eq_true, if_true, if_false] <;>
      exact Nat.add_lt_add_right (by decide) s.accessesLeft
  | marketProcess pc idle =>
    change State.marketStepsLeft _ _ + s.accessesLeft < _
    simp only [State.marketStepsLeft, pc]
    split <;> omega
  | marketStop pc stop =>
    change 11 + s.accessesLeft < _
    simp only [State.marketStepsLeft, pc]
    split <;> omega
  | marketContinue pc run =>
    have hstale : ¬ Fresh s.lazy.gVersion .callback s.lazy := by
      intro hfresh
      have hidle : s.Idle .callback := hs.calls .callback (by simp [State.waiting, pc])
      rw [(hs.cmd_of_fresh Party.noConfusion hidle hfresh).trans hshutdown] at run
      exact absurd run (by decide)
    change 22 + s.accessesLeft < _
    simp only [State.marketStepsLeft, pc, hstale, if_false]
    omega
  | marketTapeEnd pc | marketStopped pc =>
    simp only [State.marketStepsLeft, pc]
    exact Nat.add_lt_add_right (by decide) s.accessesLeft
  | _ => exact absurd rfl hpc

/-- Every step after the publication of a shutdown is one of those left. -/
private theorem stepsLeft_step (hs : ShuttingDown tapeBasedir s) (h : step tapeBasedir s a = some s') :
    s'.stepsLeft s.lazy.gVersion < s.stepsLeft s.lazy.gVersion := by
  obtain ⟨⟨as, hcontrol⟩, hshutdown⟩ := hs
  have hthreads := hcontrol.threads
  have hmoves := moves_of_step h
  have hin := inStepsLeft_lt hcontrol hshutdown hmoves
  have hout := outStepsLeft_lt hthreads hshutdown hmoves
  have hmarket := marketStepsLeft_lt hthreads hshutdown hmoves
  have hin' : s'.inPc = s.inPc → s'.inStepsLeft = s.inStepsLeft := by
    intro hsame
    rw [State.inStepsLeft, hsame, State.inStepsLeft]
  have hout' := outStepsLeft_of_outPc_eq (n := s.lazy.gVersion) hthreads hmoves
  have hmarket' := marketStepsLeft_of_marketPc_eq (n := s.lazy.gVersion) hthreads hmoves
  unfold State.stepsLeft
  cases hmoves with
  | lazy ran =>
    have haccesses := accessesLeft_of_runThread ran
    have hplaces := And.intro (hin' rfl) (And.intro (hout' rfl) (hmarket' rfl))
    omega
  | @inAnswer _ _ _ out _ pc =>
    have hplaces := And.intro (hin (by cases out.publish <;> simp [pc]))
      (And.intro (hout' rfl) (hmarket' rfl))
    omega
  | inLoop pc | inFinish pc | inRefuse pc | inPublish pc | inPush pc =>
    have hplaces := And.intro (hin (by simp [pc])) (And.intro (hout' rfl) (hmarket' rfl))
    omega
  | outRead pc | outFinish pc | outTest pc | outRefuse pc | outRecv pc | outSend pc =>
    have hplaces := And.intro (hin' rfl) (And.intro (hout (by simp [pc])) (hmarket' rfl))
    omega
  | marketTest pc =>
    have hmoved : marketNext (s.cmd .market) ≠ s.marketPc := by
      rcases marketNext_cases (s.cmd .market) with hnext | hnext | hnext <;> simp [hnext, pc]
    have hplaces := And.intro (hin' rfl) (And.intro (hout' rfl) (hmarket hmoved))
    omega
  | @marketRun loaded pc =>
    have hplaces := And.intro (hin' rfl)
      (And.intro (hout' rfl) (hmarket (by cases loaded <;> simp [pc])))
    omega
  | marketRead pc | marketCallback pc | marketProcess pc | marketStop pc | marketContinue pc
  | marketTapeEnd pc | marketStopped pc =>
    have hplaces := And.intro (hin' rfl) (And.intro (hout' rfl) (hmarket (by simp [pc])))
    omega

theorem remaining_le (pc : LazyPc) : pc.remaining ≤ 8 := by
  cases pc <;> simp [LazyPc.remaining]

private theorem stepsLeft_le (hs : ControlInv tapeBasedir as s)
    (hshutdown : s.lazy.newestCmd = wineingCtrlCmdShutdown) (n : ℤ) : s.stepsLeft n ≤ 63 := by
  have hidle : ∀ p, s.waiting p = false → (s.thread p).pc.remaining = 0 := by
    intro p hwaiting
    have hpc : (s.thread p).pc = .idle := hs.threads.calls p hwaiting
    rw [hpc]
    rfl
  have hin : s.inStepsLeft + (s.thread .cchanIn).pc.remaining ≤ 10 := by
    have hle := remaining_le (s.thread .cchanIn).pc
    obtain ⟨_, _, ⟨res, hpc⟩ | hpc | hpc⟩ := hs.after_shutdown hshutdown <;>
      simp only [State.inStepsLeft, hpc] <;> omega
  have hout : s.outStepsLeft n + (s.thread .cchanOut).pc.remaining ≤ 21 := by
    have hle := remaining_le (s.thread .cchanOut).pc
    have hzero := hidle .cchanOut
    by_cases hfresh : Fresh n .cchanOut s.lazy <;> cases hpc : s.outPc <;>
      simp only [State.outStepsLeft, State.waiting, hpc, hfresh, if_true, if_false,
        forall_const] at hzero ⊢ <;>
      omega
  have hmarket : s.marketStepsLeft n +
      ((s.thread .market).pc.remaining + (s.thread .callback).pc.remaining) ≤ 32 := by
    have hle := remaining_le (s.thread .market).pc
    have hle' := remaining_le (s.thread .callback).pc
    have hzero := hidle .market
    have hzero' := hidle .callback
    by_cases hfresh : Fresh n .market s.lazy <;> by_cases hfresh' : Fresh n .callback s.lazy <;>
      cases hpc : s.marketPc <;>
      simp only [State.marketStepsLeft, State.waiting, hpc, hfresh, hfresh', if_true, if_false,
        forall_const] at hzero hzero' ⊢ <;>
      omega
  unfold State.stepsLeft State.accessesLeft
  omega

private theorem idle_of_stuck (hs : ThreadsInv s) (hstuck : ∀ p, step tapeBasedir s (.lazy p) = none)
    (p : Party) : s.Idle p := by
  by_contra hbusy
  obtain ⟨q, l, ran⟩ := exists_runThread hs.lazy.lock hbusy
  simpa [step, ran] using hstuck q

private theorem allFinished_of_stuck (hs : ControlInv tapeBasedir as s) (hq : Queued s)
    (hshutdown : s.lazy.newestCmd = wineingCtrlCmdShutdown)
    (hstuck : ∀ a, a ≠ .outRecv false → step tapeBasedir s a = none) : s.AllFinished := by
  have hidle := idle_of_stuck hs.threads (fun p => hstuck (.lazy p) Action.noConfusion)
  have hcalled : ∀ p call, lazyStep s.lazy (.call p call) ≠ none := by
    intro p call
    have hpc : (s.lazy.threads p).pc = .idle := hidle p
    simp [lazyStep, hpc]
  obtain ⟨_, _, hplace⟩ := hs.after_shutdown hshutdown
  have hin : s.inPc = .finished := by
    rcases hplace with ⟨res, hpc⟩ | hpc | hpc
    · have hpush := hstuck .inPush Action.noConfusion
      simp [step, hpc, hidle] at hpush
    · have hloop := hstuck .inLoop Action.noConfusion
      simp [step, hpc] at hloop
    · exact hpc
  refine ⟨hin, ?_, ?_⟩
  · cases hpc : s.outPc with
    | finished => rfl
    | read =>
      have hread := hstuck .outRead Action.noConfusion
      simp [step, hpc, hcalled] at hread
    | test =>
      have htest := hstuck .outTest Action.noConfusion
      simp [step, hpc, hidle] at htest
    | send res =>
      have hsend := hstuck .outSend Action.noConfusion
      simp [step, hpc] at hsend
    | recv =>
      -- the response to the shutdown is still in the queue
      obtain ⟨res, inproc, hqueue⟩ := List.exists_cons_of_ne_nil
        (fun hnil => not_stuck hs hq ⟨hin, hpc, hnil⟩)
      have hrecv := hstuck (.outRecv true) (by simp)
      simp [step, hpc, hqueue] at hrecv
  · cases hpc : s.marketPc with
    | finished => rfl
    | read =>
      have hread := hstuck .marketRead Action.noConfusion
      simp [step, hpc, hcalled] at hread
    | test =>
      have htest := hstuck .marketTest Action.noConfusion
      simp [step, hpc, hidle] at htest
    | nxRun =>
      have hrun := hstuck (.marketRun true) Action.noConfusion
      simp [step, hpc] at hrun
    | process message =>
      have hprocess := hstuck .marketProcess Action.noConfusion
      simp [step, hpc, hidle] at hprocess
    | callbackReturn =>
      have hreturn := hstuck .marketCallbackReturn Action.noConfusion
      simp [step, hpc] at hreturn
    | running | stopping =>
      have hreturn := hstuck .marketReturn Action.noConfusion
      simp [step, hpc] at hreturn

end Steps

/-- Shutdown ends every thread: from its publication on a run has at most 63 more steps, and
where no thread can go on, but for a receive that fails, all three have finished. -/
theorem shutdown_terminates (tapeBasedir : Bytes) (gBuffer : Memory) (buffer : Party → Memory)
    (as : List Action) (s : State)
    (run : Run (step tapeBasedir) unguarded (initial gBuffer buffer) as s)
    (hshutdown : s.lazy.newestCmd = wineingCtrlCmdShutdown) (bs : List Action) (s' : State)
    (later : Run (step tapeBasedir) unguarded s bs s') :
    bs.length ≤ 63 ∧
      ((∀ a, a ≠ .outRecv false → step tapeBasedir s' a = none) → s'.AllFinished) := by
  have hqueued : ∀ {cs t}, Run (step tapeBasedir) unguarded (initial gBuffer buffer) cs t →
      ControlInv tapeBasedir cs t ∧ Queued t := fun run =>
    run.history (fun as t => ControlInv tapeBasedir as t ∧ Queued t)
      ⟨controlInv_initial _ _ _, fun _ hwill => by simp [initial, State.WillReceive] at hwill⟩
      (fun _ _ _ _ ht _ moved => ⟨controlInv_step ht.1 moved, queued_step ht.1 ht.2 moved⟩)
  have hs := (hqueued run).1
  obtain ⟨hs', hq'⟩ := hqueued (run.trans later)
  have hstep : ∀ t a u, (ShuttingDown tapeBasedir t ∧ t.lazy.gVersion = s.lazy.gVersion) →
      unguarded t a → step tapeBasedir t a = some u →
      ShuttingDown tapeBasedir u ∧ u.lazy.gVersion = s.lazy.gVersion := by
    rintro t a u ⟨ht, hsame⟩ _ moved
    refine ⟨shuttingDown_step ht moved, ?_⟩
    obtain ⟨⟨cs, hcontrol⟩, hnewest⟩ := ht
    exact (hcontrol.published_after_shutdown hnewest (moves_of_step moved)).2.trans hsame
  have hdown : ShuttingDown tapeBasedir s := ⟨⟨as, hs⟩, hshutdown⟩
  refine ⟨?_, fun hstuck => ?_⟩
  · have hcount := later.countP_add_le _ ⟨hdown, rfl⟩ hstep (fun _ => true)
      (State.stepsLeft s.lazy.gVersion) (by
        rintro t a u ⟨ht, hsame⟩ _ moved
        have hlt := stepsLeft_step ht moved
        rw [hsame] at hlt
        simp only [if_true]
        omega)
    have hle := stepsLeft_le hs hshutdown s.lazy.gVersion
    rw [List.countP_true] at hcount
    omega
  · have hnewest := (later.invariant _ ⟨hdown, rfl⟩ hstep).1.2
    exact allFinished_of_stuck hs' hq' hnewest hstuck

/-- A shutdown up to its publication. -/
def publishShutdown : List Action :=
  [.inLoop, .inRecv (some (Request.frame ⟨1, .shutdown, none⟩)) 0, .inPublish] ++ calls .cchanIn 3

/-- From there to the end of the last thread. -/
def endThreads : List Action :=
  List.flatten [calls .cchanIn 5, [.inPush, .inLoop, .outRead], calls .cchanOut 8, [.outTest],
    marketRefresh]

theorem shutdown_terminates_at_once : ∃ s s' : State,
    Run (step []) unguarded (initial (fun _ => 0) (fun _ _ => 0)) publishShutdown s ∧
    Run (step []) unguarded s endThreads s' ∧
    s.lazy.newestCmd = wineingCtrlCmdShutdown ∧ s'.AllFinished ∧ endThreads.length ≤ 63 := by
  obtain ⟨s, s', run, later, h⟩ := exists_runs_of_foldlM_map (step []) unguarded unguarded
    (initial (fun _ => 0) (fun _ _ => 0)) publishShutdown endThreads
    (fun s s' => (s.lazy.newestCmd, decide s'.AllFinished))
    (b := (wineingCtrlCmdShutdown, true)) (by decide)
  obtain ⟨hcmd, hfinished⟩ := Prod.mk.inj h
  exact ⟨s, s', run, later, hcmd, of_decide_eq_true hfinished,
    (shutdown_terminates [] _ _ _ s run hcmd _ s' later).1⟩

end Wineing
