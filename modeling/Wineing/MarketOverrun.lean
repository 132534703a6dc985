import Wineing.ControlLoopRefinement

/-!
# How far a replay runs on after a stop

From the publication of a stop or a shutdown until the next start is published, a
potential of the market thread bounds its calls of `wininf_nxcore_run` and the messages
on `mchan`. It depends on where the thread stands and on whether the snapshot it acts on
can still be older than the publication.
-/

namespace Wineing
open CStringMemory GuardedRuns

/-- No step publishes a start. -/
def NoStart (s : State) (a : Action) : Prop :=
  a.access = some .cchanIn → (s.thread .cchanIn).pc = .version .updateGlobalIfOwner →
    s.cmd .cchanIn ≠ wineingCtrlCmdMarketRun

instance (s : State) (a : Action) : Decidable (NoStart s a) :=
  inferInstanceAs (Decidable (_ → _ → _))

/-- From version `n` on everything published tells the market thread to stop. -/
structure Stopped (n : ℤ) (s : State) : Prop where
  published : n ≤ s.lazy.gVersion
  cmd_lt : ∀ (k : ℕ) q, s.lazy.published[k]? = some q → n ≤ k →
    q.ctrl.cmd < wineingCtrlCmdMarketRun

def Action.isMarketRun : Action → Bool
  | .marketRun _ => true
  | _ => false

def runBudget (n : ℤ) (s : State) : ℕ :=
  match s.marketPc with
  | .nxRun => 1
  | .test => if Fresh n .market s.lazy then 0 else 1
  | _ => 0

def sendBudget (n : ℤ) (s : State) : ℕ :=
  match s.marketPc with
  | .nxRun | .running => 1
  | .test => if Fresh n .market s.lazy then 0 else 1
  | .process _ => if Fresh n .callback s.lazy then 1 else 2
  | .callbackReturn => if Fresh n .callback s.lazy then 0 else 1
  | _ => 0

private theorem runBudget_le_one (n : ℤ) (s : State) : runBudget n s ≤ 1 := by
  unfold runBudget
  split <;> try split
  all_goals omega

private theorem sendBudget_le_two (n : ℤ) (s : State) : sendBudget n s ≤ 2 := by
  unfold sendBudget
  split <;> try split
  all_goals omega

section Steps

variable {tapeBasedir : Bytes} {as : List Action} {s s' : State} {a : Action} {n : ℤ}

theorem ControlInv.cmd_le_of_pending (hs : ControlInv tapeBasedir as s)
    (hpending : (s.thread .cchanIn).pc.pending = true) :
    s.cmd .cchanIn ≤ wineingCtrlCmdMarketRun := by
  obtain ⟨res, hpush⟩ := hs.pc_of_pending hpending
  obtain ⟨req, _, hrecord⟩ := hs.current (by simp [State.unpublished, hpush, hpending])
  have hcmd : s.cmd .cchanIn = req.type.command := hrecord.cmd
  rw [hcmd]
  cases req.type <;> decide

theorem stopped_of_newestCmd (hs : ThreadsInv s)
    (hstop : s.lazy.newestCmd < wineingCtrlCmdMarketRun) : Stopped s.lazy.gVersion s := by
  refine ⟨le_refl _, ?_⟩
  intro k q hq hk
  have hlen := (List.getElem?_eq_some_iff.mp hq).1
  have hnewest := hs.lazy.numbered.newest
  rwa [LazyState.newestCmd_of_last (by omega) hq] at hstop

private theorem stopped_step (hs : ControlInv tapeBasedir as s) (hstop : Stopped n s)
    (hguard : NoStart s a) (h : step tapeBasedir s a = some s') : Stopped n s' := by
  have hmoves := moves_of_step h
  have hmono : s.lazy.gVersion ≤ s'.lazy.gVersion := by
    have hold := hs.threads.lazy.numbered.newest
    have hnew := (threadsInv_step hs.threads h).lazy.numbered.newest
    rcases published_of_moves hs.threads hmoves with hsame | ⟨_, _, hpublished⟩
    · rw [hsame] at hnew
      omega
    · rw [hpublished, List.length_append] at hnew
      omega
  refine ⟨hstop.published.trans hmono, ?_⟩
  intro k q hq hk
  rcases published_of_moves hs.threads hmoves with hsame | ⟨rfl, hversion, hpublished⟩
  · rw [hsame] at hq
    exact hstop.cmd_lt k q hq hk
  · rw [hpublished] at hq
    rcases getElem?_concat_cases hq with hold | ⟨_, rfl⟩
    · exact hstop.cmd_lt k q hold hk
    · have hle := hs.cmd_le_of_pending (by simp [hversion, LazyPc.pending])
      have hne : s.cmd .cchanIn ≠ wineingCtrlCmdMarketRun := hguard rfl hversion
      exact lt_of_le_of_ne hle hne

theorem Stopped.party_cmd_lt (hstop : Stopped n s) (hs : ThreadsInv s) (hn : 0 ≤ n) {p : Party}
    (hp : p ≠ .cchanIn) (hidle : s.Idle p) (hfresh : Fresh n p s.lazy) :
    s.cmd p < wineingCtrlCmdMarketRun := by
  have hversion := hidle.le_tVersion hfresh
  have hrecorded := hs.recorded hp hidle (hn.trans hversion)
  obtain ⟨k, q, hk, hq, hagrees⟩ := hrecorded.version_mem hs.lazy.numbered
  have hcmd : s.cmd p = q.ctrl.cmd := hagrees.cmd
  rw [hcmd]
  exact hstop.cmd_lt k q hq (by omega)

/-- Both budgets only depend on the place of the market thread and on which of its
snapshots are fresh. -/
theorem budgets_of_marketPc_eq (hs : ThreadsInv s) (h : Moves tapeBasedir s a s')
    (hpc : s'.marketPc = s.marketPc) :
    runBudget n s' ≤ runBudget n s ∧ sendBudget n s' ≤ sendBudget n s := by
  have hmarket : Fresh n .market s.lazy → Fresh n .market s'.lazy :=
    fun hf => fresh_moves hs.lazy Party.noConfusion hf h
  have hcallback : Fresh n .callback s.lazy → Fresh n .callback s'.lazy :=
    fun hf => fresh_moves hs.lazy Party.noConfusion hf h
  unfold runBudget sendBudget
  rw [hpc]
  cases s.marketPc <;> split_ifs <;> simp_all

private theorem budgets_step (hs : ThreadsInv s) (hstop : Stopped n s) (hn : 0 ≤ n)
    (h : step tapeBasedir s a = some s') :
    (if a.isMarketRun then 1 else 0) + runBudget n s' ≤ runBudget n s ∧
    s'.mchan.length + sendBudget n s' ≤ s.mchan.length + sendBudget n s := by
  have hmoves := moves_of_step h
  have hsame := budgets_of_marketPc_eq (n := n) hs hmoves
  cases hmoves with
  | lazy | inLoop | inFinish | inRefuse | inAnswer | inPublish | inPush | outRead | outFinish
  | outTest | outRefuse | outRecv | outSend =>
    have hle := hsame rfl
    simpa [Action.isMarketRun] using hle
  | marketRead pc called =>
    have hfresh := fresh_of_call hstop.published called
    simp [runBudget, sendBudget, pc, hfresh, Action.isMarketRun]
  | marketTest pc idle =>
    by_cases hfresh : Fresh n .market s.lazy
    · have hcmd := hstop.party_cmd_lt hs hn Party.noConfusion idle hfresh
      have hnext : marketNext (s.cmd .market) ≠ .nxRun := by
        unfold marketNext
        split_ifs <;> simp
        omega
      rcases marketNext_cases (s.cmd .market) with hread | hfinished | hrun
      · simp [runBudget, sendBudget, hread, Action.isMarketRun]
      · simp [runBudget, sendBudget, hfinished, Action.isMarketRun]
      · exact absurd hrun hnext
    · rcases marketNext_cases (s.cmd .market) with hnext | hnext | hnext <;>
        simp [runBudget, sendBudget, pc, hnext, hfresh, Action.isMarketRun]
  | @marketRun loaded pc =>
    cases loaded <;> simp [runBudget, sendBudget, pc, Action.isMarketRun]
  | marketCallback pc called =>
    have hfresh := fresh_of_call hstop.published called
    simp [runBudget, sendBudget, pc, hfresh, Action.isMarketRun]
  | @marketProcess message pc idle =>
    have hsent : (marketData message).length ≤ 1 := by cases message <;> decide
    by_cases hfresh : Fresh n .callback s.lazy
    · simp [runBudget, sendBudget, pc, hfresh, Action.isMarketRun]
      omega
    · simp [runBudget, sendBudget, pc, hfresh, Action.isMarketRun]
      omega
  | marketStop pc stop =>
    simp [runBudget, sendBudget, Action.isMarketRun]
  | marketContinue pc run =>
    have hidle : s.Idle .callback := hs.calls .callback (by simp [State.waiting, pc])
    have hstale : ¬ Fresh n .callback s.lazy := by
      intro hfresh
      have hcmd := hstop.party_cmd_lt hs hn Party.noConfusion hidle hfresh
      omega
    simp [runBudget, sendBudget, pc, hstale, Action.isMarketRun]
  | marketTapeEnd pc => simp [runBudget, sendBudget, pc, Action.isMarketRun]
  | marketStopped pc => simp [runBudget, sendBudget, pc, Action.isMarketRun]

section Window

variable {bs : List Action}

def Overrun (tapeBasedir : Bytes) (n : ℤ) (s : State) : Prop :=
  (∃ as, ControlInv tapeBasedir as s) ∧ 0 ≤ n ∧ Stopped n s

theorem overrun_of_newestCmd (hs : ControlInv tapeBasedir as s)
    (hstop : s.lazy.newestCmd < wineingCtrlCmdMarketRun) :
    Overrun tapeBasedir s.lazy.gVersion s :=
  ⟨⟨as, hs⟩, hs.threads.lazy.numbered.le_newest, stopped_of_newestCmd hs.threads hstop⟩

private theorem overrun_step (hs : Overrun tapeBasedir n s) (hguard : NoStart s a)
    (h : step tapeBasedir s a = some s') : Overrun tapeBasedir n s' := by
  obtain ⟨⟨as, hcontrol⟩, hn, hstop⟩ := hs
  exact ⟨⟨_, controlInv_step hcontrol h⟩, hn, stopped_step hcontrol hstop hguard h⟩

theorem marketRun_count_le (hs : Overrun tapeBasedir n s)
    (window : Run (step tapeBasedir) NoStart s bs s') : bs.countP Action.isMarketRun ≤ 1 := by
  have hruns := window.countP_add_le _ hs (fun _ _ _ => overrun_step) Action.isMarketRun
    (runBudget n) (by
      rintro t a u ⟨⟨as, ht⟩, hn, hstop⟩ _ hstep
      exact (budgets_step ht.threads hstop hn hstep).1)
  have hone := runBudget_le_one n s
  omega

theorem mchan_length_le (hs : Overrun tapeBasedir n s)
    (window : Run (step tapeBasedir) NoStart s bs s') :
    s'.mchan.length ≤ s.mchan.length + 2 := by
  have hsends := window.invariant (fun t => Overrun tapeBasedir n t ∧
      t.mchan.length + sendBudget n t ≤ s.mchan.length + sendBudget n s) ⟨hs, le_refl _⟩ (by
        rintro t a u ⟨ht, hle⟩ hguard hstep
        obtain ⟨⟨as, hcontrol⟩, hn, hstop⟩ := ht
        have hcost := (budgets_step hcontrol.threads hstop hn hstep).2
        exact ⟨overrun_step ⟨⟨as, hcontrol⟩, hn, hstop⟩ hguard hstep, hcost.trans hle⟩)
  have htwo := sendBudget_le_two n s
  omega

end Window

end Steps

/-- Until the next start is published, the replay that a stop or a shutdown finds running
sends at most two more messages, and `wininf_nxcore_run` is called at most once more. -/
theorem market_overrun_bounded (tapeBasedir : Bytes) (gBuffer : Memory) (buffer : Party → Memory)
    (as : List Action) (s : State)
    (run : Run (step tapeBasedir) unguarded (initial gBuffer buffer) as s)
    (hstop : s.lazy.newestCmd = wineingCtrlCmdMarketStop ∨
      s.lazy.newestCmd = wineingCtrlCmdShutdown)
    (bs : List Action) (s' : State) (window : Run (step tapeBasedir) NoStart s bs s') :
    s'.mchan.length ≤ s.mchan.length + 2 ∧ bs.countP Action.isMarketRun ≤ 1 := by
  have hlt : s.lazy.newestCmd < wineingCtrlCmdMarketRun := by
    rcases hstop with h | h <;> rw [h] <;> decide
  have hs := overrun_of_newestCmd (controlInv_run run) hlt
  exact ⟨mchan_length_le hs window, marketRun_count_le hs window⟩

/-- A stop published inside a callback. -/
def stopInCallback : List Action :=
  List.flatten [serve ⟨1, .marketStart, none⟩ 0, marketRefresh,
    [.marketRun true, .marketCallback .status], calls .callback 8,
    [.inLoop, .inRecv (some (Request.frame ⟨2, .marketStop, none⟩)) 0, .inPublish],
    calls .cchanIn 3]

/-- The message of that callback and the one of the next are still sent. -/
def afterStopInCallback : List Action :=
  List.flatten [calls .cchanIn 5, [.marketProcess, .marketCallbackReturn],
    callbackRefresh .status, [.marketCallbackReturn, .marketReturn]]

theorem market_overrun_bounded_two : ∃ s s' : State,
    Run (step []) unguarded (initial (fun _ => 0) (fun _ _ => 0)) stopInCallback s ∧
    Run (step []) NoStart s afterStopInCallback s' ∧
    s.lazy.newestCmd = wineingCtrlCmdMarketStop ∧ s.mchan.length = 0 ∧ s'.mchan.length = 2 ∧
    s'.mchan.length ≤ s.mchan.length + 2 ∧
    afterStopInCallback.countP Action.isMarketRun ≤ 1 := by
  obtain ⟨s, s', run, window, hs⟩ := exists_runs_of_foldlM_map (step []) unguarded NoStart
    (initial (fun _ => 0) (fun _ _ => 0)) stopInCallback afterStopInCallback
    (fun s s' => (s.lazy.newestCmd, s.mchan.length, s'.mchan.length))
    (b := (wineingCtrlCmdMarketStop, 0, 2)) (by decide)
  obtain ⟨hcmd, hrest⟩ := Prod.mk.inj hs
  obtain ⟨hbefore, hafter⟩ := Prod.mk.inj hrest
  exact ⟨s, s', run, window, hcmd, hbefore, hafter,
    market_overrun_bounded [] _ _ _ s run (.inl hcmd) _ s' window⟩

end Wineing
