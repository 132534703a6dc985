import Wineing.ControlProgress

/-!
# Which replay a callback belongs to

`market_thread` calls `wininf_nxcore_run` for the start its own snapshot holds, and the
callback goes by a later snapshot. Only the newest publication is ever read, so a stop
with a start behind it is taken for the start, and the old replay goes on in its place.
Every replay that goes on is that of the latest start as long as no start is published
between the read that a replay follows from and the read of the callback that ends it, and
a start that is published in that time may be taken for the one that runs.
-/

namespace Wineing
open CStringMemory GuardedRuns

def LazyState.Published {ι : Type*} (l : LazyState ℤ ι) (v cmd : ℤ) : Prop :=
  ∃ q ∈ l.published, q.version = v ∧ q.ctrl.cmd = cmd

instance {ι : Type*} (l : LazyState ℤ ι) (v cmd : ℤ) : Decidable (l.Published v cmd) :=
  inferInstanceAs (Decidable (∃ q ∈ l.published, _ ∧ _))

namespace MarketPc

def replaying : MarketPc → Bool
  | nxRun | running | process _ | callbackReturn | stopping => true
  | _ => false

def inCallback : MarketPc → Bool
  | process _ | callbackReturn => true
  | _ => false

end MarketPc

/-- `market_thread` has read a start, and since then no callback has read anything else
and the replay has not ended. -/
def ReplayUnderWay (s : State) : Prop :=
  match s.marketPc with
  | .test => (s.thread .market).pc.pending = false ∧
      s.lazy.Published (s.thread .market).tVersion wineingCtrlCmdMarketRun
  | .nxRun | .running => True
  | .process _ | .callbackReturn => (s.thread .callback).pc.pending = true ∨
      s.lazy.Published (s.thread .callback).tVersion wineingCtrlCmdMarketRun
  | .read | .stopping | .finished => False

instance (s : State) : Decidable (ReplayUnderWay s) := by
  unfold ReplayUnderWay
  cases s.marketPc <;> infer_instance

/-- No start is published while a replay is under way. -/
def StartsBetweenReplays (s : State) (a : Action) : Prop :=
  a.access = some .cchanIn → (s.thread .cchanIn).pc = .version .updateGlobalIfOwner →
    s.cmd .cchanIn = wineingCtrlCmdMarketRun → ¬ ReplayUnderWay s

instance (s : State) (a : Action) : Decidable (StartsBetweenReplays s a) :=
  inferInstanceAs (Decidable (_ → _ → _ → ¬ _))

structure ReplayInv (s : State) : Prop where
  read : s.marketPc = .test → Fresh 0 .market s.lazy
  started : s.marketPc.replaying = true →
    0 ≤ (s.thread .market).tVersion ∧ s.cmd .market = wineingCtrlCmdMarketRun
  fresh : s.marketPc.inCallback = true → Fresh (s.thread .market).tVersion .callback s.lazy

/-- A callback that lets the replay go on runs under the one for the latest start it has
read, and passes no stop over. -/
def ContinuesLatest (s : State) : Prop :=
  s.marketPc = .callbackReturn → wineingCtrlCmdMarketRun ≤ s.cmd .callback →
    IsGreatest {v | v ≤ (s.thread .callback).tVersion ∧
        s.lazy.Published v wineingCtrlCmdMarketRun} (s.thread .market).tVersion ∧
    ∀ v, (s.thread .market).tVersion < v → v ≤ (s.thread .callback).tVersion →
      ¬ s.lazy.Published v wineingCtrlCmdMarketStop

/-- A replay under way is that of the latest start. -/
def ReplayLatest (s : State) : Prop :=
  ReplayUnderWay s → ∀ v, s.lazy.Published v wineingCtrlCmdMarketRun →
    v ≤ (s.thread .market).tVersion

section Steps

variable {tapeBasedir : Bytes} {as : List Action} {s s' : State} {a : Action}

theorem Published.of_recorded {v : ℤ} {c : WCtrl} (h : Recorded s.lazy.published v c) :
    s.lazy.Published v c.cmd := by
  obtain ⟨q, hq, hv, hc⟩ := h
  exact ⟨q, hq, hv, hc.cmd.symm⟩

theorem Published.le_newest {v cmd : ℤ} (hs : LazyInv s) (h : s.lazy.Published v cmd) :
    v ≤ s.lazy.gVersion := by
  obtain ⟨q, hq, rfl, _⟩ := h
  obtain ⟨k, hk⟩ := List.mem_iff_getElem?.mp hq
  have hversion := hs.numbered.version k q hk
  have hnewest := hs.numbered.newest
  have hlt := (List.getElem?_eq_some_iff.mp hk).1
  omega

theorem ControlInv.cmd_of_published (hs : ControlInv tapeBasedir as s) {v cmd : ℤ}
    (h : s.lazy.Published v cmd) :
    (v = 0 ∧ cmd = wineingCtrlCmdInit) ∨ (0 < v ∧ cmd ≤ wineingCtrlCmdMarketRun) := by
  obtain ⟨q, hq, rfl, rfl⟩ := h
  obtain ⟨k, hk⟩ := List.mem_iff_getElem?.mp hq
  have hversion := hs.threads.lazy.numbered.version k q hk
  cases k with
  | zero => exact .inl ⟨by simpa using hversion, hs.origin q hk⟩
  | succ k =>
    obtain ⟨req, _, hrecord⟩ := hs.publications k q hk
    refine .inr ⟨by omega, ?_⟩
    rw [hrecord.cmd]
    cases req.type <;> decide

theorem market_of_replaying (hs : ThreadsInv s) (hpc : s.marketPc.replaying = true)
    (h : Moves tapeBasedir s a s') : s'.thread .market = s.thread .market := by
  apply thread_of_moves h
  intro hparty
  have hidle : (s.lazy.threads .market).pc = .idle := hs.calls .market (by
    cases hcase : s.marketPc <;> simp_all [State.waiting, MarketPc.replaying])
  cases h with
  | @lazy p l ran =>
    obtain rfl : p = .market := by simpa [Action.party] using hparty
    exact absurd hidle (pc_ne_idle_of_runThread ran)
  | marketRead pc => simp [pc, MarketPc.replaying] at hpc
  | _ => simp [Action.party] at hparty

theorem MarketPc.replaying_of_inCallback {pc : MarketPc} (h : pc.inCallback = true) :
    pc.replaying = true := by
  cases pc <;> simp_all [inCallback, replaying]

theorem MarketPc.eq_nxRun_of_replaying {cmd : ℤ} (h : (marketNext cmd).replaying = true) :
    marketNext cmd = .nxRun ∧ cmd = wineingCtrlCmdMarketRun := by
  unfold marketNext at h ⊢
  split_ifs at h ⊢ with hstop hshutdown hrun
  all_goals first | exact Bool.noConfusion h | exact ⟨rfl, hrun⟩

theorem replayInv_initial (gBuffer : Memory) (buffer : Party → Memory) :
    ReplayInv (initial gBuffer buffer) :=
  ⟨MarketPc.noConfusion, Bool.noConfusion, Bool.noConfusion⟩

theorem replayInv_step (hs : ThreadsInv s) (hr : ReplayInv s)
    (h : step tapeBasedir s a = some s') : ReplayInv s' := by
  have hmoves := moves_of_step h
  have hstarted : s.marketPc.replaying = true →
      0 ≤ (s'.thread .market).tVersion ∧ s'.cmd .market = wineingCtrlCmdMarketRun := by
    intro hreplaying
    rw [State.cmd, market_of_replaying hs hreplaying hmoves]
    exact hr.started hreplaying
  have hkeep : s'.marketPc = s.marketPc → ReplayInv s' := by
    intro hpc
    constructor
    · intro htest
      rw [hpc] at htest
      exact fresh_moves hs.lazy (by decide) (hr.read htest) hmoves
    · intro hreplaying
      rw [hpc] at hreplaying
      exact hstarted hreplaying
    · intro hcallback
      rw [hpc] at hcallback
      rw [market_of_replaying hs (MarketPc.replaying_of_inCallback hcallback) hmoves]
      exact fresh_moves hs.lazy (by decide) (hr.fresh hcallback) hmoves
  cases hmoves with
  | lazy | inLoop | inFinish | inRefuse | inAnswer | inPublish | inPush | outRead | outFinish
  | outTest | outRefuse | outRecv | outSend => exact hkeep rfl
  | marketRead pc called =>
    have hfresh := fresh_of_call hs.lazy.numbered.le_newest called
    exact ⟨fun _ => hfresh, Bool.noConfusion, Bool.noConfusion⟩
  | marketTapeEnd | marketStopped =>
    exact ⟨MarketPc.noConfusion, Bool.noConfusion, Bool.noConfusion⟩
  | marketTest pc idle =>
    refine ⟨?_, fun hreplaying => ?_, fun hcallback => ?_⟩
    · intro htest
      rcases marketNext_cases (s.cmd .market) with hnext | hnext | hnext <;>
        exact MarketPc.noConfusion (hnext.symm.trans htest)
    · exact ⟨idle.le_tVersion (hr.read pc), (MarketPc.eq_nxRun_of_replaying hreplaying).2⟩
    · have hrun := MarketPc.eq_nxRun_of_replaying (MarketPc.replaying_of_inCallback hcallback)
      rw [hrun.1] at hcallback
      exact Bool.noConfusion hcallback
  | @marketRun loaded pc =>
    have hstarted := hstarted (by rw [pc]; rfl)
    cases loaded <;> exact ⟨MarketPc.noConfusion, fun _ => hstarted, Bool.noConfusion⟩
  | marketCallback pc called =>
    have hreplaying : s.marketPc.replaying = true := by rw [pc]; rfl
    have hle : (s.thread .market).tVersion ≤ s.lazy.gVersion := hs.lazy.reader_le (by decide)
    refine ⟨MarketPc.noConfusion, fun _ => hstarted hreplaying, fun _ => ?_⟩
    rw [market_of_replaying hs hreplaying (moves_of_step h)]
    exact fresh_of_call hle called
  | marketProcess pc idle =>
    exact ⟨MarketPc.noConfusion, fun _ => hstarted (by rw [pc]; rfl),
      fun _ => hr.fresh (by rw [pc]; rfl)⟩
  | marketStop pc | marketContinue pc =>
    exact ⟨MarketPc.noConfusion, fun _ => hstarted (by rw [pc]; rfl), Bool.noConfusion⟩

/-- What the callback has read when it lets the replay continue is a start. -/
private theorem callback_published_start (hs : ControlInv tapeBasedir as s) (hr : ReplayInv s)
    (hpc : s.marketPc = .callbackReturn) (hcontinue : wineingCtrlCmdMarketRun ≤ s.cmd .callback) :
    s.lazy.Published (s.thread .market).tVersion wineingCtrlCmdMarketRun ∧
    s.lazy.Published (s.thread .callback).tVersion wineingCtrlCmdMarketRun := by
  have hthreads := hs.threads
  obtain ⟨hnonneg, hmarket⟩ := hr.started (by rw [hpc]; rfl)
  have hidle : s.Idle .market := hthreads.calls .market (by simp [State.waiting, hpc])
  have hidle' : s.Idle .callback := hthreads.calls .callback (by simp [State.waiting, hpc])
  have hle := hidle'.le_tVersion (hr.fresh (by rw [hpc]; rfl))
  have hstart := Published.of_recorded (hthreads.recorded (by decide) hidle hnonneg)
  have hread := Published.of_recorded
    (hthreads.recorded (by decide) hidle' (hnonneg.trans hle))
  change s.lazy.Published _ (s.cmd .market) at hstart
  change s.lazy.Published _ (s.cmd .callback) at hread
  rw [hmarket] at hstart
  refine ⟨hstart, ?_⟩
  rcases hs.cmd_of_published hread with ⟨hzero, _⟩ | ⟨_, hle'⟩
  · rcases hs.cmd_of_published hstart with ⟨_, hinit⟩ | ⟨hpos, _⟩
    · exact absurd hinit (by decide)
    · omega
  · rwa [le_antisymm hle' hcontinue] at hread

theorem published_of_read {p : Party} (hs : ThreadsInv s) (hp : p ≠ .cchanIn) {cmd : ℤ}
    (h : Moves tapeBasedir s a s') (hread : s'.lazy.Published (s.thread p).tVersion cmd) :
    s.lazy.Published (s.thread p).tVersion cmd := by
  obtain ⟨q, hq, hv, hcmd⟩ := hread
  rcases published_of_moves hs h with hsame | ⟨_, _, hpublished⟩
  · exact ⟨q, hsame ▸ hq, hv, hcmd⟩
  · rw [hpublished] at hq
    rcases List.mem_append.mp hq with hq | hq
    · exact ⟨q, hq, hv, hcmd⟩
    · have hle : (s.thread p).tVersion ≤ s.lazy.gVersion := hs.lazy.reader_le hp
      obtain rfl := List.mem_singleton.mp hq
      have hnew : s.lazy.gVersion + 1 = (s.thread p).tVersion := hv
      omega

theorem Settles.pending {l : LazyState ℤ Party} {p : Party} (h : Settles l p) :
    (l.threads p).pc.pending = true := by
  rcases h with ⟨hpc, _⟩ | hpc <;> rw [hpc] <;> rfl

/-- What is under way only depends on the place of the market thread and on the reads it and
its callback have made. -/
theorem ReplayUnderWay.imp (h : ReplayUnderWay s) (hpc : s'.marketPc = s.marketPc)
    (hmarket : (s.thread .market).pc.pending = false ∧
        s.lazy.Published (s.thread .market).tVersion wineingCtrlCmdMarketRun →
      (s'.thread .market).pc.pending = false ∧
        s'.lazy.Published (s'.thread .market).tVersion wineingCtrlCmdMarketRun)
    (hcallback : (s.thread .callback).pc.pending = true ∨
        s.lazy.Published (s.thread .callback).tVersion wineingCtrlCmdMarketRun →
      (s'.thread .callback).pc.pending = true ∨
        s'.lazy.Published (s'.thread .callback).tVersion wineingCtrlCmdMarketRun) :
    ReplayUnderWay s' := by
  unfold ReplayUnderWay at h ⊢
  rw [hpc]
  cases hcase : s.marketPc with
  | test =>
    rw [hcase] at h
    exact hmarket h
  | process | callbackReturn =>
    rw [hcase] at h
    exact hcallback h
  | nxRun | running => trivial
  | read | stopping | finished =>
    rw [hcase] at h
    exact h

private theorem replayUnderWay_of_same (hs : ThreadsInv s) (h : Moves tapeBasedir s a s')
    (hpc : s'.marketPc = s.marketPc)
    (hmarket : (s'.thread .market).pc.pending = (s.thread .market).pc.pending ∧
      (s'.thread .market).tVersion = (s.thread .market).tVersion)
    (hcallback : (s.thread .callback).pc.pending = true ∨
      (s'.thread .callback).pc.pending = (s.thread .callback).pc.pending ∧
        (s'.thread .callback).tVersion = (s.thread .callback).tVersion)
    (hunder : ReplayUnderWay s') : ReplayUnderWay s := by
  refine hunder.imp hpc.symm ?_ ?_
  · rw [hmarket.1, hmarket.2]
    exact And.imp_right (published_of_read hs (by decide) h)
  · rcases hcallback with hpending | ⟨hpending, htVersion⟩
    · exact fun _ => .inl hpending
    · rw [hpending, htVersion]
      exact Or.imp_right (published_of_read hs (by decide) h)

/-- A replay comes under way where `market_thread` reads the newest publication. -/
private theorem replayUnderWay_of_moves (hs : ControlInv tapeBasedir as s) (hr : ReplayInv s)
    (h : Moves tapeBasedir s a s') (hunder : ReplayUnderWay s') :
    ReplayUnderWay s ∨ (s'.thread .market).tVersion = s'.lazy.gVersion := by
  have hthreads := hs.threads
  have hsame : ∀ p, a.party ≠ some p → (s'.thread p).pc.pending = (s.thread p).pc.pending ∧
      (s'.thread p).tVersion = (s.thread p).tVersion := by
    intro p hp
    rw [thread_of_moves h hp]
    exact ⟨rfl, rfl⟩
  cases hmoves : h with
  | @lazy p l ran =>
    cases p with
    | market =>
      have hreader := hthreads.lazy.reader .market (by decide)
      rcases reader_settles hreader ran with hkeep | ⟨_, _, htVersion⟩
      · exact .inl (replayUnderWay_of_same hthreads h rfl hkeep
          (.inr (hsame .callback (by simp [Action.party]))) hunder)
      · exact .inr (htVersion.trans (reader_frame hreader ran).1.symm)
    | callback =>
      have hcallback := reader_settles (hthreads.lazy.reader .callback (by decide)) ran
      exact .inl (replayUnderWay_of_same hthreads h rfl (hsame .market (by simp [Action.party]))
        (hcallback.symm.imp (fun hsettled => hsettled.1.pending) id) hunder)
    | cchanIn | cchanOut =>
      exact .inl (replayUnderWay_of_same hthreads h rfl (hsame .market (by simp [Action.party]))
        (.inr (hsame .callback (by simp [Action.party]))) hunder)
  | inLoop | inFinish | inRefuse | inAnswer | inPublish | inPush | outRead | outFinish
  | outTest | outRefuse | outRecv | outSend =>
    exact .inl (replayUnderWay_of_same hthreads h rfl (hsame .market (by simp [Action.party]))
      (.inr (hsame .callback (by simp [Action.party]))) hunder)
  | marketRead pc called =>
    obtain ⟨_, rfl⟩ := lazyStep_call called
    simp [ReplayUnderWay, State.thread, LazyPc.pending] at hunder
  | marketTest pc idle =>
    have hrun : s.cmd .market = wineingCtrlCmdMarketRun := by
      rcases marketNext_cases (s.cmd .market) with hnext | hnext | hnext
      · simp [ReplayUnderWay, hnext] at hunder
      · simp [ReplayUnderWay, hnext] at hunder
      · exact (MarketPc.eq_nxRun_of_replaying (by rw [hnext]; rfl)).2
    have hrecorded := hthreads.recorded (by decide) idle (idle.le_tVersion (hr.read pc))
    have hstart := Published.of_recorded hrecorded
    change s.lazy.Published _ (s.cmd .market) at hstart
    rw [hrun] at hstart
    have hidle : (s.thread .market).pc = .idle := idle
    simp [ReplayUnderWay, pc, hidle, LazyPc.pending, hstart]
  | marketRun pc | marketCallback pc called => simp [ReplayUnderWay, pc]
  | marketProcess pc idle =>
    simp only [ReplayUnderWay, pc] at hunder ⊢
    exact .inl hunder
  | marketContinue pc run =>
    simp only [ReplayUnderWay, pc]
    exact .inl (.inr (callback_published_start hs hr pc run).2)
  | marketStop | marketTapeEnd | marketStopped => exact hunder.elim

private theorem replayLatest_step (hs : ControlInv tapeBasedir as s) (hr : ReplayInv s)
    (hl : ReplayLatest s) (hguard : StartsBetweenReplays s a)
    (h : step tapeBasedir s a = some s') : ReplayLatest s' := by
  have hmoves := moves_of_step h
  intro hunder v hpublished
  rcases replayUnderWay_of_moves hs hr hmoves hunder with hold | hread
  · refine (hl hold v ?_).trans (tVersion_mono hs.threads.lazy (by decide) hmoves)
    rcases published_of_moves hs.threads hmoves with hsame | ⟨rfl, hpc, hnew⟩
    · obtain ⟨q, hq, hv, hcmd⟩ := hpublished
      exact ⟨q, hsame ▸ hq, hv, hcmd⟩
    · obtain ⟨q, hq, hv, hcmd⟩ := hpublished
      rw [hnew] at hq
      rcases List.mem_append.mp hq with hq | hq
      · exact ⟨q, hq, hv, hcmd⟩
      · obtain rfl := List.mem_singleton.mp hq
        exact absurd hold (hguard rfl hpc hcmd)
  · rw [hread]
    exact Published.le_newest (threadsInv_step hs.threads h).lazy hpublished

end Steps

section Overtaken

variable {tapeBasedir : Bytes} {s s' : State} {a : Action} {n : ℤ} {p : Party}

/-- A replay is under way, and a newer start is the newest publication. -/
structure ReplayOvertaken (n : ℤ) (s : State) : Prop where
  threads : ThreadsInv s
  newest : s.lazy.gVersion = n
  start : s.lazy.Published n wineingCtrlCmdMarketRun
  older : (s.thread .market).tVersion < n
  quiet : (s.thread .cchanIn).pc.pending = false
  underWay : ReplayUnderWay s

/-- The steps up to the return of a callback that has read version `n`. -/
def State.stepsToReturn (n : ℤ) (s : State) : ℕ :=
  (match s.marketPc with
    | .test => 12
    | .nxRun => 11
    | .running => 10
    | .process _ => if Fresh n .callback s.lazy then 1 else 12
    | .callbackReturn => if Fresh n .callback s.lazy then 0 else 11
    | _ => 0) + s.accessesLeft

theorem ThreadsInv.cmd_eq_of_published (hs : ThreadsInv s) (hp : p ≠ .cchanIn)
    (hidle : s.Idle p) {cmd : ℤ} (h : s.lazy.Published (s.thread p).tVersion cmd) :
    s.cmd p = cmd := by
  obtain ⟨q, hq, hv, rfl⟩ := h
  obtain ⟨k, hk⟩ := List.mem_iff_getElem?.mp hq
  have hversion := hs.lazy.numbered.version k q hk
  obtain ⟨j, q', hj, hq', hagrees⟩ :=
    (hs.recorded hp hidle (by omega)).version_mem hs.lazy.numbered
  obtain rfl : k = j := by omega
  obtain rfl : q = q' := Option.some.inj (hk.symm.trans hq')
  exact hagrees.cmd

/-- Nothing is on its way to be published. -/
theorem ReplayOvertaken.published (h : ReplayOvertaken n s) (hmoves : Moves tapeBasedir s a s') :
    s'.lazy.published = s.lazy.published := by
  refine (published_of_moves h.threads hmoves).resolve_right ?_
  rintro ⟨_, hversion, _⟩
  have hpending := h.quiet
  simp [hversion, LazyPc.pending] at hpending

theorem ReplayOvertaken.market_read (h : ReplayOvertaken n s) :
    (s.thread .market).pc.pending = false := by
  have hunder := h.underWay
  cases hpc : s.marketPc with
  | test =>
    simp only [ReplayUnderWay, hpc] at hunder
    exact hunder.1
  | _ =>
    have hidle : (s.thread .market).pc = .idle :=
      h.threads.calls .market (by simp [State.waiting, hpc])
    simp [hidle, LazyPc.pending]

private theorem ReplayOvertaken.keep (h : ReplayOvertaken n s)
    (hstep : step tapeBasedir s a = some s')
    (hquiet : (s'.thread .cchanIn).pc.pending = false)
    (hmarket : (s'.thread .market).tVersion = (s.thread .market).tVersion)
    (hunder : ReplayUnderWay s') : ReplayOvertaken n s' := by
  have hthreads := threadsInv_step h.threads hstep
  have hpublished := h.published (moves_of_step hstep)
  have hnewest := h.threads.lazy.numbered.newest
  have hnewest' := hthreads.lazy.numbered.newest
  have hstart := h.start
  rw [hpublished] at hnewest'
  rw [LazyState.Published, ← hpublished] at hstart
  exact ⟨hthreads, by rw [← h.newest]; omega, hstart, hmarket ▸ h.older, hquiet, hunder⟩

/-- The accesses of the calls under way leave the replay overtaken. -/
private theorem ReplayOvertaken.access (h : ReplayOvertaken n s) {l : LazyState ℤ Party}
    (ran : runThread s.lazy p = some l) : ReplayOvertaken n { s with lazy := l } := by
  have hlazy := h.threads.lazy
  have hstep : step [] s (.lazy p) = some { s with lazy := l } := by simp [step, ran]
  have hmoves := moves_of_step hstep
  have hkeep : ∀ v cmd, s.lazy.Published v cmd → l.Published v cmd := by
    rintro v cmd ⟨q, hq, h'⟩
    exact ⟨q, (h.published hmoves).symm ▸ hq, h'⟩
  have hquiet : (l.threads .cchanIn).pc.pending = false := by
    rcases (runThread_publishes hlazy ran).2 with ⟨hsame, _⟩ | ⟨_, _, hread, _⟩
    · exact hsame.trans h.quiet
    · exact hread
  have hmarket : (l.threads .market).pc.pending = false ∧
      (l.threads .market).tVersion = (s.thread .market).tVersion := by
    by_cases hp : p = .market
    · subst hp
      rcases reader_settles (hlazy.reader .market (by decide)) ran with hsame | ⟨hsettles, _⟩
      · exact ⟨hsame.1.trans h.market_read, hsame.2⟩
      · exact Bool.noConfusion (h.market_read.symm.trans hsettles.pending)
    · rw [runThread_threads_of_ne ran (Ne.symm hp)]
      exact ⟨h.market_read, rfl⟩
  have hcallback : (s.thread .callback).pc.pending = true ∨
      s.lazy.Published (s.thread .callback).tVersion wineingCtrlCmdMarketRun →
      (l.threads .callback).pc.pending = true ∨
        l.Published (l.threads .callback).tVersion wineingCtrlCmdMarketRun := by
    by_cases hp : p = .callback
    · subst hp
      rcases reader_settles (hlazy.reader .callback (by decide)) ran with hsame | ⟨_, _, hnewest⟩
      · rw [hsame.1, hsame.2]
        exact fun hunder => hunder.imp_right (hkeep _ _)
      · rw [hnewest, h.newest]
        exact fun _ => .inr (hkeep _ _ h.start)
    · rw [runThread_threads_of_ne ran (Ne.symm hp)]
      exact fun hunder => hunder.imp_right (hkeep _ _)
  refine h.keep hstep hquiet hmarket.2 (h.underWay.imp rfl ?_ hcallback)
  rintro ⟨_, hstart⟩
  exact ⟨hmarket.1, by rw [State.thread, hmarket.2]; exact hkeep _ _ hstart⟩

private theorem stepsToReturn_access (h : ReplayOvertaken n s) {l : LazyState ℤ Party}
    (ran : runThread s.lazy p = some l) :
    State.stepsToReturn n { s with lazy := l } < s.stepsToReturn n := by
  have hlt := accessesLeft_of_runThread ran
  have hmoves : Moves [] s (.lazy p) { s with lazy := l } := .lazy ran
  have hfresh : Fresh n .callback s.lazy → Fresh n .callback l :=
    fun hf => fresh_moves h.threads.lazy (by decide) hf hmoves
  refine Nat.add_lt_add_of_le_of_lt ?_ hlt
  cases s.marketPc with
  | process | callbackReturn =>
    by_cases hf : Fresh n .callback s.lazy
    · simp only [hf, hfresh hf, if_true, le_refl]
    · simp only [hf, if_false]
      split <;> decide
  | _ => exact le_rfl

/-- A callback on its return has read a start. -/
private theorem ReplayOvertaken.callback_cmd (h : ReplayOvertaken n s)
    (hpc : s.marketPc = .callbackReturn) :
    s.Idle .callback ∧ s.cmd .callback = wineingCtrlCmdMarketRun := by
  have hidle : s.Idle .callback := h.threads.calls .callback (by simp [State.waiting, hpc])
  have hidle' : (s.thread .callback).pc = .idle := hidle
  have hunder := h.underWay
  simp only [ReplayUnderWay, hpc, hidle', LazyPc.pending, Bool.false_eq_true, false_or] at hunder
  exact ⟨hidle, h.threads.cmd_eq_of_published (by decide) hidle hunder⟩

/-- The market thread and its callbacks go on, or whoever holds up a call does. -/
private theorem ReplayOvertaken.exists_step (tapeBasedir : Bytes) (h : ReplayOvertaken n s)
    (hbusy : ¬ (s.marketPc = .callbackReturn ∧ Fresh n .callback s.lazy)) :
    ∃ a s', step tapeBasedir s a = some s' ∧ ReplayOvertaken n s' ∧
      s'.stepsToReturn n < s.stepsToReturn n := by
  have hcall : ∀ p, ¬ s.Idle p → ∃ a s', step tapeBasedir s a = some s' ∧
      ReplayOvertaken n s' ∧ s'.stepsToReturn n < s.stepsToReturn n := by
    intro p hidle
    obtain ⟨q, l, ran⟩ := exists_runThread h.threads.lazy.lock hidle
    exact ⟨.lazy q, { s with lazy := l }, by simp [step, ran], h.access ran,
      stepsToReturn_access h ran⟩
  have hunder := h.underWay
  cases hpc : s.marketPc with
  | test =>
    by_cases hidle : s.Idle .market
    · simp only [ReplayUnderWay, hpc] at hunder
      have hcmd := h.threads.cmd_eq_of_published (by decide) hidle hunder.2
      have hstep : step tapeBasedir s .marketTest = some { s with marketPc := .nxRun } := by
        simp only [step, hpc, hidle, hcmd, if_true]
        rfl
      refine ⟨.marketTest, _, hstep, h.keep hstep h.quiet rfl trivial, ?_⟩
      simp only [State.stepsToReturn, hpc]
      exact Nat.add_lt_add_right (by decide) s.accessesLeft
    · exact hcall .market hidle
  | nxRun =>
    have hstep : step tapeBasedir s (.marketRun true) = some { s with marketPc := .running } := by
      simp [step, hpc]
    refine ⟨.marketRun true, _, hstep, h.keep hstep h.quiet rfl trivial, ?_⟩
    simp only [State.stepsToReturn, hpc]
    exact Nat.add_lt_add_right (by decide) s.accessesLeft
  | running =>
    have hidle : (s.lazy.threads .callback).pc = .idle :=
      h.threads.calls .callback (by simp [State.waiting, hpc])
    obtain ⟨l, called⟩ : ∃ l, lazyStep s.lazy (.call .callback .updateLocalIfChanged) = some l :=
      ⟨_, if_pos hidle⟩
    have hstep : step tapeBasedir s (.marketCallback .other) =
        some { s with lazy := l, marketPc := .process .other } := by
      simp [step, hpc, called]
    have hother : ∀ q, q ≠ .callback → l.threads q = s.lazy.threads q :=
      fun q hq => lazyStep_threads_of_ne called hq
    have hfresh : Fresh n .callback l := fresh_of_call h.newest.ge called
    have haccesses : State.accessesLeft { s with lazy := l, marketPc := .process .other } =
        s.accessesLeft + 8 := accessesLeft_of_call called
    refine ⟨.marketCallback .other, _, hstep, h.keep hstep ?_ ?_ (.inl ?_), ?_⟩
    · rw [State.thread, hother .cchanIn (by decide)]
      exact h.quiet
    · rw [State.thread, hother .market (by decide)]
      rfl
    · obtain ⟨_, rfl⟩ := lazyStep_call called
      simp [State.thread, LazyPc.pending]
    · simp only [State.stepsToReturn, hpc, hfresh, if_true, haccesses]
      omega
  | process message =>
    by_cases hidle : s.Idle .callback
    · have hstep : step tapeBasedir s .marketProcess = some { s with
          marketPc := .callbackReturn, mchan := s.mchan ++ marketData message } := by
        simp only [step, hpc, hidle, if_true]
      simp only [ReplayUnderWay, hpc] at hunder
      refine ⟨.marketProcess, _, hstep, h.keep hstep h.quiet rfl hunder, ?_⟩
      simp only [State.stepsToReturn, hpc]
      refine Nat.add_lt_add_right ?_ s.accessesLeft
      split_ifs <;> decide
    · exact hcall .callback hidle
  | callbackReturn =>
    have hstale : ¬ Fresh n .callback s.lazy := fun hfresh => hbusy ⟨hpc, hfresh⟩
    have hstep : step tapeBasedir s .marketCallbackReturn =
        some { s with marketPc := .running } := by
      simp [step, hpc, (h.callback_cmd hpc).2]
    refine ⟨.marketCallbackReturn, _, hstep, h.keep hstep h.quiet rfl trivial, ?_⟩
    simp only [State.stepsToReturn, hpc, hstale, if_false]
    exact Nat.add_lt_add_right (by decide) s.accessesLeft
  | read | stopping | finished =>
    simp only [ReplayUnderWay, hpc] at hunder

private theorem ReplayOvertaken.exists_run (tapeBasedir : Bytes) (h : ReplayOvertaken n s) :
    ∃ as s', Run (step tapeBasedir) unguarded s as s' ∧ ¬ ContinuesLatest s' := by
  obtain ⟨as, s', run, h', hpc, hfresh⟩ : ∃ as s', Run (step tapeBasedir) unguarded s as s' ∧
      ReplayOvertaken n s' ∧ s'.marketPc = .callbackReturn ∧ Fresh n .callback s'.lazy := by
    refine Run.exists_of_potential (ReplayOvertaken n) _ (State.stepsToReturn n)
      (fun t ht hbusy => ?_) h
    obtain ⟨a, u, hstep, hu, hlt⟩ := ht.exists_step tapeBasedir (fun hdone => hbusy ⟨ht, hdone⟩)
    exact ⟨a, u, trivial, hstep, hu, hlt⟩
  obtain ⟨hidle, hcmd⟩ := h'.callback_cmd hpc
  refine ⟨as, s', run, fun hlatest => ?_⟩
  have hle := (hlatest hpc hcmd.ge).1.2 ⟨hidle.le_tVersion hfresh, h'.start⟩
  exact absurd h'.older (not_lt.mpr hle)

private theorem replayOvertaken_of_step (hs : ThreadsInv s) (h : step tapeBasedir s a = some s')
    (hbreak : ¬ StartsBetweenReplays s a) : ReplayOvertaken s'.lazy.gVersion s' := by
  simp only [StartsBetweenReplays, not_forall, not_not] at hbreak
  obtain ⟨haccess, hpc, hcmd, hunder⟩ := hbreak
  obtain rfl := Action.eq_lazy_of_access haccess
  have hmoves := moves_of_step h
  have hthreads := threadsInv_step hs h
  obtain ⟨l, ran, rfl⟩ := Option.map_eq_some_iff.mp h
  have hother : ∀ q, q ≠ .cchanIn → l.threads q = s.lazy.threads q :=
    fun q hq => runThread_threads_of_ne ran hq
  have hpending : (s.lazy.threads .cchanIn).pc.pending = true := by
    change (s.thread .cchanIn).pc.pending = true
    rw [hpc]
    rfl
  have hquiet : (l.threads .cchanIn).pc.pending = false := by
    have hpc' : (s.lazy.threads .cchanIn).pc = .version .updateGlobalIfOwner := hpc
    simp only [runThread, hpc', Option.some.injEq] at ran
    simp [← ran, LazyPc.pending]
  have hpublished : l.published =
      s.lazy.published ++ [⟨s.lazy.gVersion + 1, (s.thread .cchanIn).tData⟩] := by
    rcases (runThread_publishes hs.lazy ran).2 with ⟨hsame, _⟩ | ⟨_, _, _, hnew⟩
    · exact Bool.noConfusion (hquiet.symm.trans (hsame.trans hpending))
    · exact hnew
  have hversion : l.gVersion = s.lazy.gVersion + 1 := by
    have hnewest := hs.lazy.numbered.newest
    have hnewest' : l.gVersion + 1 = 0 + l.published.length := hthreads.lazy.numbered.newest
    rw [hpublished, List.length_append] at hnewest'
    simp at hnewest'
    omega
  have hkeep : ∀ v cmd, s.lazy.Published v cmd → l.Published v cmd := by
    rintro v cmd ⟨q, hq, h'⟩
    exact ⟨q, hpublished ▸ List.mem_append_left _ hq, h'⟩
  have hle : (s.thread .market).tVersion ≤ s.lazy.gVersion := hs.lazy.reader_le (by decide)
  refine ⟨hthreads, rfl, ?_, ?_, hquiet, ?_⟩
  · exact ⟨_, hpublished ▸ List.mem_append_right _ (List.mem_singleton.mpr rfl), hversion.symm, hcmd⟩
  · change (l.threads .market).tVersion < l.gVersion
    rw [hother .market (by decide), hversion]
    exact Int.lt_add_one_of_le hle
  · refine hunder.imp rfl ?_ ?_
    · rw [State.thread, State.thread, hother .market (by decide)]
      exact And.imp_right (hkeep _ _)
    · rw [State.thread, State.thread, hother .callback (by decide)]
      exact Or.imp_right (hkeep _ _)

end Overtaken

/-- The callbacks let only the replay of the latest start go on, and pass no stop over, as long
as no start is published while a replay is under way. Each start that is published then can
be followed by a callback that lets the replay of an older one go on. -/
theorem nxtapeProcess_continues_latest (tapeBasedir : Bytes) (gBuffer : Memory)
    (buffer : Party → Memory) (as : List Action) (s : State)
    (run : Run (step tapeBasedir) unguarded (initial gBuffer buffer) as s) :
    (Run (step tapeBasedir) StartsBetweenReplays (initial gBuffer buffer) as s →
      ContinuesLatest s) ∧
    ∀ a s', step tapeBasedir s a = some s' → ¬ StartsBetweenReplays s a →
      ∃ bs t, Run (step tapeBasedir) unguarded s' bs t ∧ ¬ ContinuesLatest t := by
  have hthreads := threadsInv_run (threadsInv_initial gBuffer buffer) run
  refine ⟨fun guarded hpc hcontinue => ?_, fun a s' hstep hbreak =>
    (replayOvertaken_of_step hthreads hstep hbreak).exists_run tapeBasedir⟩
  obtain ⟨hs, hr, hl⟩ := guarded.history
    (fun as t => ControlInv tapeBasedir as t ∧ ReplayInv t ∧ ReplayLatest t)
    ⟨controlInv_initial _ _ _, replayInv_initial _ _, False.elim⟩ (by
      rintro as t a u ⟨ht, hr, hl⟩ hguard hstep
      exact ⟨controlInv_step ht hstep, replayInv_step ht.threads hr hstep,
        replayLatest_step ht hr hl hguard hstep⟩)
  have hidle : s.Idle .callback := hs.threads.calls .callback (by simp [State.waiting, hpc])
  have hle := hidle.le_tVersion (hr.fresh (by rw [hpc]; rfl))
  obtain ⟨hstarted, hread⟩ := callback_published_start hs hr hpc hcontinue
  have hlatest := hl (by simp only [ReplayUnderWay, hpc]; exact .inr hread)
  refine ⟨⟨⟨hle, hstarted⟩, fun v hv => hlatest v hv.2⟩, ?_⟩
  intro v hlt hle
  have hread_le := hlatest _ hread
  omega

/-- A replay that is told to stop, and the next one up to the first return of its callback. -/
def replayAfterStop : List Action :=
  List.flatten [serve ⟨1, .marketStart, some (ascii "a.nxc")⟩ 0, marketRefresh,
    [.marketRun true], serve ⟨2, .marketStop, none⟩ 0, callbackRefresh .status,
    [.marketCallbackReturn, .marketReturn],
    serve ⟨3, .marketStart, some (ascii "b.nxc")⟩ 0, marketRefresh,
    [.marketRun true], callbackRefresh .status]

/-- A second start up to its publication, with the replay of the first under way. -/
def startUnderReplay : List Action :=
  List.flatten [serve ⟨1, .marketStart, some (ascii "a.nxc")⟩ 0, marketRefresh,
    serve ⟨2, .marketStop, none⟩ 0, [.inLoop,
      .inRecv (some (Request.frame ⟨3, .marketStart, some (ascii "b.nxc")⟩)) 0, .inPublish],
    calls .cchanIn 2]

theorem nxtapeProcess_continues_latest_afterStop :
    (∃ s : State, Run (step []) StartsBetweenReplays (initial (fun _ => 0) (fun _ _ => 0))
        replayAfterStop s ∧ s.marketPc = .callbackReturn ∧
      IsGreatest {v | v ≤ (s.thread .callback).tVersion ∧
        s.lazy.Published v wineingCtrlCmdMarketRun} 3) ∧
    ∃ s s' t : State, ∃ bs, Run (step []) unguarded (initial (fun _ => 0) (fun _ _ => 0))
        startUnderReplay s ∧ step [] s (.lazy .cchanIn) = some s' ∧
      Run (step []) unguarded s' bs t ∧ ¬ ContinuesLatest t := by
  obtain ⟨s, run, hs⟩ := exists_run_of_foldlM_map (step []) StartsBetweenReplays
    (initial (fun _ => 0) (fun _ _ => 0)) replayAfterStop
    (fun s => (s.marketPc, s.cmd .callback, (s.thread .market).tVersion))
    (b := (.callbackReturn, wineingCtrlCmdMarketRun, 3)) (by decide +kernel)
  simp only [Prod.mk.injEq] at hs
  obtain ⟨hpc, hcmd, hversion⟩ := hs
  have hlatest := (nxtapeProcess_continues_latest [] _ _ _ s (run.mono fun _ _ _ => trivial)).1
    run hpc hcmd.ge
  rw [hversion] at hlatest
  refine ⟨⟨s, run, hpc, hlatest.1⟩, ?_⟩
  obtain ⟨u, run', hu⟩ := exists_run_of_foldlM_map (step []) unguarded
    (initial (fun _ => 0) (fun _ _ => 0)) startUnderReplay
    (fun u => (decide (StartsBetweenReplays u (.lazy .cchanIn)),
      (step [] u (.lazy .cchanIn)).isSome)) (b := (false, true)) (by decide +kernel)
  simp only [Prod.mk.injEq, decide_eq_false_iff_not] at hu
  obtain ⟨u', hstep⟩ := Option.isSome_iff_exists.mp hu.2
  obtain ⟨bs, t, rest, hstale⟩ :=
    (nxtapeProcess_continues_latest [] _ _ _ u run').2 _ u' hstep hu.1
  exact ⟨u, u', t, bs, run', hstep, rest, hstale⟩

/-- A stop is published and covered by a second start before the callback reads. -/
def stopCovered : List Action :=
  serve ⟨1, .marketStart, some (ascii "a.nxc")⟩ 0 ++ marketRefresh ++ [.marketRun true] ++
    serve ⟨2, .marketStop, none⟩ 0 ++ serve ⟨3, .marketStart, some (ascii "b.nxc")⟩ 0 ++
    callbackRefresh .status

/-- The replay of the first start goes on in place of the second. -/
theorem nxtapeProcess_skips_stop : ∃ s : State,
    Run (step []) unguarded (initial (fun _ => 0) (fun _ _ => 0)) stopCovered s ∧
    s.marketPc = .callbackReturn ∧ wineingCtrlCmdMarketRun ≤ s.cmd .callback ∧
    (s.thread .market).tVersion = 1 ∧ (s.thread .callback).tVersion = 3 ∧
    s.lazy.Published 2 wineingCtrlCmdMarketStop ∧ s.lazy.Published 3 wineingCtrlCmdMarketRun ∧
    ¬ ContinuesLatest s := by
  have hrun := exists_run_of_foldlM_map (step []) unguarded
    (initial (fun _ => 0) (fun _ _ => 0)) stopCovered
    (fun s => (s.marketPc, [s.cmd .callback, (s.thread .market).tVersion,
      (s.thread .callback).tVersion], s.lazy.published.map fun q => (q.version, q.ctrl.cmd)))
    (b := (.callbackReturn, [3, 1, 3], [(0, 4), (1, 3), (2, 2), (3, 3)])) (by decide)
  obtain ⟨s, run, hs⟩ := hrun
  simp only [Prod.mk.injEq, List.cons.injEq, and_true] at hs
  obtain ⟨hpc, ⟨hcmd, hmarket, hcallback⟩, hpublished⟩ := hs
  have hmem : ∀ v cmd, (v, cmd) ∈ s.lazy.published.map (fun q => (q.version, q.ctrl.cmd)) →
      s.lazy.Published v cmd := by
    intro v cmd h
    obtain ⟨q, hq, heq⟩ := List.mem_map.mp h
    exact ⟨q, hq, congrArg Prod.fst heq, congrArg Prod.snd heq⟩
  rw [hpublished] at hmem
  have hsecond : s.lazy.Published 3 wineingCtrlCmdMarketRun := hmem 3 3 (by decide)
  refine ⟨s, run, hpc, hcmd.ge, hmarket, hcallback, hmem 2 2 (by decide), hsecond, ?_⟩
  intro hlatest
  have hle := (hlatest hpc hcmd.ge).1.2 ⟨hcallback.ge, hsecond⟩
  omega

end Wineing
