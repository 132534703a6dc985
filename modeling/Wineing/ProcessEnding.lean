import Wineing.FailedSends

/-!
# How the threads of `wineing_run` come to be joined

Only `cchan_out_thread` binds the inproc endpoint that the two other threads connect to before
their loops, in a loop of their own that has no other end. If it gets to its loop the threads
are joined only after a shutdown. If one of its binds fails nothing is ever served, and a
thread that has bound its own channel by then is never joined.
-/

namespace Wineing
open CStringMemory GuardedRuns

section Loops

variable {tapeBasedir : Bytes} {as : List Action} {s s' : State} {a : Action} {p : Pthread}

theorem shutdown_of_marketNext {cmd : ℤ} (h : marketNext cmd = .finished) :
    cmd = wineingCtrlCmdShutdown := by
  unfold marketNext at h
  split_ifs at h with _ hshutdown
  exact hshutdown

/-- A command that a thread has read as a shutdown is the newest, and a thread that has left
its loop has read one. -/
structure EndsByShutdown (s : State) : Prop where
  read : ∀ p, p ≠ .cchanIn → s.cmd p = wineingCtrlCmdShutdown →
    s.lazy.newestCmd = wineingCtrlCmdShutdown
  out : s.outPc = .finished → s.lazy.newestCmd = wineingCtrlCmdShutdown
  market : s.marketPc = .finished → s.lazy.newestCmd = wineingCtrlCmdShutdown

theorem endsByShutdown_initial (gBuffer : Memory) (buffer : Party → Memory) :
    EndsByShutdown (initial gBuffer buffer) where
  read _ _ h := absurd (show wineingCtrlCmdInit = wineingCtrlCmdShutdown from h) (by decide)
  out := CchanOutPc.noConfusion
  market := MarketPc.noConfusion

private theorem endsByShutdown_moves (hs : ControlInv tapeBasedir as s) (he : EndsByShutdown s)
    (h : Moves tapeBasedir s a s') : EndsByShutdown s' := by
  have hkeep := fun hshutdown => hs.newestCmd_shutdown hshutdown h
  refine ⟨fun p hp hcmd => ?read, fun hout => ?out, fun hmarket => ?market⟩
  case read =>
    rcases cmd_of_moves hs.threads.lazy hp h with heq | ⟨_, _, hcopied, hnewest⟩
    · exact hkeep (he.read p hp (heq.symm.trans hcmd))
    · exact hkeep (hnewest.symm.trans (hcopied.symm.trans hcmd))
  case out =>
    cases h with
    | outFinish pc idle dead => exact he.read .cchanOut (by decide) dead
    | outRead | outTest | outRefuse | outRecv | outSend => cases hout
    | _ => exact hkeep (he.out hout)
  case market =>
    cases h with
    | marketTest pc idle => exact he.read .market (by decide) (shutdown_of_marketNext hmarket)
    | @marketRun loaded pc => cases loaded <;> cases hmarket
    | marketRead | marketCallback | marketProcess | marketStop | marketContinue
    | marketTapeEnd | marketStopped => cases hmarket
    | _ => exact hkeep (he.market hmarket)

theorem last_of_finished {gBuffer : Memory} {buffer : Party → Memory}
    (run : Run (step tapeBasedir) unguarded (initial gBuffer buffer) as s)
    (hfinished : s.Finished p) : (controlLog as).last = some .shutdown := by
  obtain ⟨hs, he⟩ := run.history (fun as s => ControlInv tapeBasedir as s ∧ EndsByShutdown s)
    ⟨controlInv_initial _ _ _, endsByShutdown_initial _ _⟩
    (fun _ _ _ _ ht _ moved => ⟨controlInv_step ht.1 moved,
      endsByShutdown_moves ht.1 ht.2 (moves_of_step moved)⟩)
  have hcmd : s.cmd .cchanIn ≤ wineingCtrlCmdShutdown := by
    cases p with
    | cchanIn => exact hs.ended hfinished
    | cchanOut => exact (hs.after_shutdown (he.out hfinished)).2.1.le
    | market => exact (hs.after_shutdown (he.market hfinished)).2.1.le
  by_contra hlive
  rw [hs.command] at hcmd
  exact hcmd.not_gt ((controlLog as).shutdown_lt_command_iff.mpr hlive)

private theorem finished_of_moves (h : Moves tapeBasedir s a s') (hp : s.Finished p) : s'.Finished p := by
  cases p with
  | cchanIn =>
    cases h with
    | inLoop pc | inFinish pc | inRefuse pc | inAnswer pc | inPublish pc | inPush pc =>
      exact absurd (pc.symm.trans hp) CchanInPc.noConfusion
    | _ => exact hp
  | cchanOut =>
    cases h with
    | outRead pc | outFinish pc | outTest pc | outRefuse pc | outRecv pc | outSend pc =>
      exact absurd (pc.symm.trans hp) CchanOutPc.noConfusion
    | _ => exact hp
  | market =>
    cases h with
    | marketRead pc | marketTest pc | marketRun pc | marketCallback pc | marketProcess pc
    | marketStop pc | marketContinue pc | marketTapeEnd pc | marketStopped pc =>
      exact absurd (pc.symm.trans hp) MarketPc.noConfusion
    | _ => exact hp

private theorem finished_of_sendFails {q : Pthread} (h : s.sendFails q = some s') (hp : s.Finished p) :
    s'.Finished p := by
  obtain ⟨b, t, _, moves, hst⟩ := @shadows_sendFails [] _ _ _ _ _ (.refl s) h
  have ht : t.Finished p := finished_of_moves moves hp
  cases p with
  | cchanIn => exact hst.inPc.symm.trans ht
  | cchanOut =>
    rcases hst.outPc with heq | ⟨_, res, _, hres⟩
    · exact heq.symm.trans ht
    · exact absurd (hres.symm.trans ht) CchanOutPc.noConfusion
  | market => exact hst.marketPc.symm.trans ht

end Loops

def Process.Entered (s : Process) (p : Pthread) : Prop :=
  s.life p = .looping ∨ s.life p = .destroySecond ∨ s.threads.Finished p

def ProcessAction.loops (p : Pthread) : ProcessAction → Bool
  | .run a => a.pthread = p
  | .newBuffer q | .sendFails q => q = p
  | _ => false

theorem ProcessAction.request_of_loops {a : ProcessAction} (h : a.loops .cchanIn = false) :
    a.request = none := by
  cases a with
  | run b =>
    cases b with
    | inRecv => cases h
    | _ => rfl
  | _ => rfl

/-- Before `cchan_out_thread` gets to its loop nothing happens, and each thread acts in its
loop only. -/
structure EndingInv (gBuffer : Memory) (buffer : Party → Memory) (as : List ProcessAction)
    (s : Process) : Prop where
  inproc : s.inprocBound = true → s.life .cchanOut = .looping
  peer : ∀ p, s.Entered p → s.Entered .cchanOut
  start : ¬ s.Entered .cchanOut → s.threads = initial gBuffer buffer
  leaving : ∀ p, s.life p = .destroySecond → s.threads.Finished p
  acts : ∀ p, ¬ s.Entered p → ∀ a ∈ as, a.loops p = false
  market : ¬ s.Entered .market → s.threads.mchan = []

section Steps

variable {tapeBasedir : Bytes} {gBuffer : Memory} {buffer : Party → Memory}
variable {as : List ProcessAction} {s s' : Process} {a : ProcessAction} {p q : Pthread}

theorem endingInv_initial (gBuffer : Memory) (buffer : Party → Memory) :
    EndingInv gBuffer buffer [] (processInitial gBuffer buffer) where
  inproc := Bool.noConfusion
  peer p h := by
    rcases h with h | h | h
    · cases h
    · cases h
    · cases p <;> cases h
  start _ := rfl
  leaving _ := Life.noConfusion
  acts _ _ _ ha := nomatch ha
  market _ := rfl

/-- A step of a loop: the thread is in it, and leaves the rest to the others. -/
structure LoopStep (s : Process) (a : ProcessAction) (s' : Process) (p : Pthread) : Prop where
  looping : s.life p = .looping
  life : s'.life = s.life
  inproc : s'.inprocBound = s.inprocBound
  finished : ∀ q, s.threads.Finished q → s'.threads.Finished q
  acts : ∀ q, q ≠ p → a.loops q = false
  market : p ≠ .market → s'.threads.mchan = s.threads.mchan

private theorem loopStep_run {b : Action} (h : processStep tapeBasedir s (.run b) = some s') :
    LoopStep s (.run b) s' b.pthread := by
  have hlooping : s.life b.pthread = .looping := by
    by_contra hlife
    simp [processStep, hlife] at h
  obtain ⟨threads, buffers, hstep, _, rfl⟩ := processStep_run h
  have hmoves := moves_of_step hstep
  refine ⟨hlooping, rfl, rfl, fun q hq => finished_of_moves hmoves hq,
    fun q hq => decide_eq_false hq.symm, fun hp => ?_⟩
  cases hmoves with
  | marketProcess => exact absurd rfl hp
  | _ => rfl

private theorem loopStep_sendFails (h : processStep tapeBasedir s (.sendFails p) = some s') :
    LoopStep s (.sendFails p) s' p := by
  have hlooping : s.life p = .looping := by
    by_contra hlife
    simp [processStep, hlife] at h
  obtain ⟨threads, buffers, hfails, _, rfl⟩ := processStep_sendFails h
  refine ⟨hlooping, rfl, rfl, fun q hq => finished_of_sendFails hfails hq,
    fun q hq => decide_eq_false hq.symm, fun hp => ?_⟩
  rcases State.sendFails_cases hfails with ⟨rfl, rfl⟩ | ⟨rfl, rfl⟩ | ⟨rfl, rfl⟩
  · rfl
  · rfl
  · exact absurd rfl hp

private theorem loopStep_newBuffer (h : processStep tapeBasedir s (.newBuffer p) = some s') :
    LoopStep s (.newBuffer p) s' p := by
  have hlooping : s.life p = .looping := by
    by_contra hlife
    simp [processStep, hlife] at h
  obtain ⟨_, buffers, _, rfl⟩ := processStep_newBuffer h
  exact ⟨hlooping, rfl, rfl, fun _ hq => hq, fun q hq => decide_eq_false hq.symm, fun _ => rfl⟩

private theorem finished_of_destroy (h : processStep tapeBasedir s (.destroy p) = some s')
    (hlife : s.life p = .looping) : s.threads.Finished p := by
  by_contra hp
  simp [processStep, hlife, hp] at h

theorem LoopStep.entered (hl : LoopStep s a s' p) (hq : s.Entered q) : s'.Entered q := by
  unfold Process.Entered
  rw [hl.life]
  exact hq.imp_right (Or.imp_right (hl.finished q))

private theorem endingInv_loopStep (hs : EndingInv gBuffer buffer as s) (hl : LoopStep s a s' p) :
    EndingInv gBuffer buffer (as ++ [a]) s' := by
  have hentered : s'.Entered p := hl.entered (.inl hl.looping)
  have hout : s'.Entered .cchanOut := hl.entered (hs.peer p (.inl hl.looping))
  refine ⟨?_, fun _ _ => hout, fun h => absurd hout h, fun q hq => ?_, fun q hq b hb => ?_,
    fun hm => ?_⟩
  · rw [hl.inproc, hl.life]
    exact hs.inproc
  · rw [hl.life] at hq
    exact hl.finished q (hs.leaving q hq)
  · rcases List.mem_append.mp hb with hold | hnew
    · exact hs.acts q (mt hl.entered hq) b hold
    · obtain rfl := List.mem_singleton.mp hnew
      exact hl.acts q fun heq => hq (heq ▸ hentered)
  · have hp : p ≠ .market := fun heq => hm (heq ▸ hentered)
    rw [hl.market hp]
    exact hs.market (mt hl.entered hm)

theorem EndingInv.outside (hs : EndingInv gBuffer buffer as s)
    (hthreads : s'.threads = s.threads) (ha : ∀ p, a.loops p = false)
    (hinproc : s'.inprocBound = true → s'.life .cchanOut = .looping)
    (hleaving : ∀ q, s'.life q = .destroySecond → s.threads.Finished q)
    (hmono : ∀ q, s.Entered q → s'.Entered q)
    (hpeer : ∀ q, s'.Entered q → s.Entered q ∨ s'.Entered .cchanOut) :
    EndingInv gBuffer buffer (as ++ [a]) s' := by
  refine ⟨hinproc, fun q hq => ?_, fun h => ?_, hthreads ▸ hleaving, fun q hq b hb => ?_,
    fun h => ?_⟩
  · exact (hpeer q hq).elim (fun hold => hmono _ (hs.peer q hold)) id
  · exact hthreads.trans (hs.start (mt (hmono _) h))
  · rcases List.mem_append.mp hb with hold | hnew
    · exact hs.acts q (mt (hmono q) hq) b hold
    · exact List.mem_singleton.mp hnew ▸ ha q
  · exact hthreads ▸ hs.market (mt (hmono _) h)

private theorem entered_update {life : Life} (hlife : s'.life = Function.update s.life p life)
    (hthreads : s'.threads = s.threads) :
    s'.Entered q ↔ if q = p then life = .looping ∨ life = .destroySecond ∨ s.threads.Finished p
      else s.Entered q := by
  unfold Process.Entered
  rw [hlife, hthreads]
  by_cases hq : q = p
  · subst hq
    simp
  · simp [hq]

private theorem endingInv_start (hs : EndingInv gBuffer buffer as s)
    (h : processStep tapeBasedir s (.start p) = some s') :
    EndingInv gBuffer buffer (as ++ [.start p]) s' := by
  obtain ⟨hcreated, rfl⟩ := processStep_start h
  have hentered : ∀ q, (s.setLife p .bindFirst).Entered q ↔ s.Entered q := by
    intro q
    have hupdate : (s.setLife p .bindFirst).Entered q ↔ if q = p then Life.bindFirst = .looping ∨
        Life.bindFirst = .destroySecond ∨ s.threads.Finished p else s.Entered q :=
      entered_update rfl rfl
    rw [hupdate]
    by_cases hq : q = p
    · subst hq
      simp [Process.Entered, hcreated]
    · simp [hq]
  refine hs.outside rfl (fun _ => rfl) (fun hbound => ?_) (fun q hq => ?_) (fun q => (hentered q).mpr)
    (fun q hq => .inl ((hentered q).mp hq))
  · have hout := hs.inproc hbound
    have hp : .cchanOut ≠ p := fun heq => Life.noConfusion ((heq ▸ hout).symm.trans hcreated)
    simpa [Process.setLife, hp] using hout
  · refine hs.leaving q ?_
    by_cases hqp : q = p <;> simp_all [Process.setLife]

private theorem lifeAfterBind_ne (p : Pthread) (first bound : Bool) :
    lifeAfterBind p first bound ≠ .destroySecond := by
  cases p <;> cases first <;> cases bound <;> decide

theorem second_of_looping {first bound : Bool} (h : lifeAfterBind p first bound = .looping) :
    first = false ∧ bound = true := by
  revert h
  cases p <;> cases first <;> cases bound <;> decide

theorem secondChan_type (hp : p ≠ .cchanOut) : p.secondChan.type = .pushConnect := by
  cases p with
  | cchanOut => exact absurd rfl hp
  | cchanIn | market => rfl

/-- A thread gets to its loop with its second bind: `cchan_out_thread` with the inproc
endpoint, the others with a connect that has found it. -/
private theorem endingInv_bind {created bound : Bool} (hs : EndingInv gBuffer buffer as s)
    (h : processStep tapeBasedir s (.bind p created bound) = some s') :
    EndingInv gBuffer buffer (as ++ [.bind p created bound]) s' := by
  obtain ⟨first, hlife, hcan, rfl⟩ := processStep_bind h
  generalize hchan : (if first then p.firstChan else p.secondChan) = c at hcan
  have hentered : ∀ q, (s.chanBind p c created bound (lifeAfterBind p first bound)).Entered q ↔
      if q = p then lifeAfterBind p first bound = .looping ∨
        lifeAfterBind p first bound = .destroySecond ∨ s.threads.Finished p
      else s.Entered q := fun q => entered_update rfl rfl
  have hmono : ∀ q, s.Entered q →
      (s.chanBind p c created bound (lifeAfterBind p first bound)).Entered q := by
    intro q hq
    rw [hentered]
    split
    · subst q
      cases first <;> simp_all [Process.Entered]
    · exact hq
  refine hs.outside rfl (fun _ => rfl) (fun hbound => ?inproc) (fun q hq => ?leaving) hmono
    (fun q hq => ?peer)
  case inproc =>
    by_cases hc : c = .cchanInMem
    · obtain rfl : bound = true := by simpa [Process.chanBind, hc] using hbound
      obtain ⟨rfl, rfl⟩ : p = .cchanOut ∧ first = false := by
        revert hchan
        rw [hc]
        cases p <;> cases first <;> decide
      rfl
    · have hout := hs.inproc (by simpa [Process.chanBind, hc] using hbound)
      have hp : .cchanOut ≠ p := by
        rintro rfl
        cases first <;> simp [hout] at hlife
      simpa [Process.chanBind, hp] using hout
  case leaving =>
    refine hs.leaving q ?_
    by_cases hqp : q = p
    · subst q
      exact absurd (by simpa [Process.chanBind] using hq) (lifeAfterBind_ne p first bound)
    · simpa [Process.chanBind, hqp] using hq
  case peer =>
    rw [hentered] at hq
    split at hq
    · subst q
      rcases hq with hloop | hdestroy | hfinished
      · obtain ⟨rfl, rfl⟩ := second_of_looping hloop
        by_cases hp : p = .cchanOut
        · exact .inr (by rw [hentered, if_pos hp.symm]; exact .inl hloop)
        · have hinproc := (hcan rfl).2 (hchan ▸ secondChan_type hp)
          exact .inr (hmono _ (.inl (hs.inproc hinproc)))
      · exact absurd hdestroy (lifeAfterBind_ne p first bound)
      · exact .inl (.inr (.inr hfinished))
    · exact .inl hq

private theorem endingInv_destroy (hs : EndingInv gBuffer buffer as s)
    (h : processStep tapeBasedir s (.destroy p) = some s') :
    EndingInv gBuffer buffer (as ++ [.destroy p]) s' := by
  have hfinished : s.threads.Finished p := by
    rcases processStep_destroy h with ⟨hlife, _⟩ | ⟨hlife, _⟩
    · exact finished_of_destroy h hlife
    · exact hs.leaving p hlife
  obtain ⟨c, life, hlife, hc, rfl⟩ : ∃ c life, (s.life p = .looping ∨ s.life p = .destroySecond) ∧
      (s.life .cchanOut = .looping → p = .cchanOut → c = .cchanInMem) ∧
      s' = s.chanDestroy p c life := by
    rcases processStep_destroy h with ⟨hlife, rfl⟩ | ⟨hlife, rfl⟩
    · exact ⟨_, _, .inl hlife, by rintro _ rfl; rfl, rfl⟩
    · refine ⟨_, _, .inr hlife, ?_, rfl⟩
      rintro hout rfl
      exact absurd (hout.symm.trans hlife) Life.noConfusion
  have hentered : ∀ q, (s.chanDestroy p c life).Entered q ↔ s.Entered q := by
    intro q
    have hupdate : (s.chanDestroy p c life).Entered q ↔ if q = p then life = .looping ∨
        life = .destroySecond ∨ s.threads.Finished p else s.Entered q := entered_update rfl rfl
    rw [hupdate]
    by_cases hq : q = p
    · subst q
      simp [Process.Entered, hfinished]
    · simp [hq]
  refine hs.outside rfl (fun _ => rfl) (fun hbound => ?inproc) (fun q hq => ?leaving)
    (fun q => (hentered q).mpr) (fun q hq => .inl ((hentered q).mp hq))
  case inproc =>
    obtain ⟨hne, hold⟩ : c ≠ .cchanInMem ∧ s.inprocBound = true := by
      by_cases hne : c = .cchanInMem <;> simp_all [Process.chanDestroy]
    have hout := hs.inproc hold
    have hp : .cchanOut ≠ p := fun heq => hne (hc hout heq.symm)
    simpa [Process.chanDestroy, hp] using hout
  case leaving =>
    by_cases hqp : q = p
    · exact hqp ▸ hfinished
    · exact hs.leaving q (by simpa [Process.chanDestroy, hqp] using hq)

private theorem endingInv_step (hs : EndingInv gBuffer buffer as s)
    (h : processStep tapeBasedir s a = some s') : EndingInv gBuffer buffer (as ++ [a]) s' := by
  cases a with
  | start p => exact endingInv_start hs h
  | bind p created bound => exact endingInv_bind hs h
  | run b => exact endingInv_loopStep hs (loopStep_run h)
  | sendFails p => exact endingInv_loopStep hs (loopStep_sendFails h)
  | destroy p => exact endingInv_destroy hs h
  | newBuffer p => exact endingInv_loopStep hs (loopStep_newBuffer h)
  | zmqDone r freeFn =>
    obtain ⟨buffers, _, rfl⟩ := processStep_zmqDone h
    exact hs.outside rfl (fun _ => rfl) hs.inproc hs.leaving (fun _ => id) (fun _ => .inl)

private theorem endingInv_run
    (run : Run (processStep tapeBasedir) unguarded (processInitial gBuffer buffer) as s) :
    EndingInv gBuffer buffer as s :=
  run.history _ (endingInv_initial gBuffer buffer) (fun _ _ _ _ ht _ => endingInv_step ht)

theorem Process.Joined.finished (hjoined : s.Joined) (hp : s.Entered p) : s.threads.Finished p := by
  rcases hp with hloop | hdestroy | hfinished
  · exact absurd (hloop.symm.trans (hjoined p)) Life.noConfusion
  · exact absurd (hdestroy.symm.trans (hjoined p)) Life.noConfusion
  · exact hfinished

/-- `cchan_out_thread` has returned because one of its binds failed. -/
structure Stranded (s : Process) : Prop where
  returned : s.life .cchanOut = .returned
  outside : ¬ s.Entered .cchanOut

/-- Without the inproc endpoint no connect succeeds. -/
private theorem stranded_step (hs : EndingInv gBuffer buffer as s) (hx : Stranded s)
    (h : processStep tapeBasedir s a = some s') :
    Stranded s' ∧ ∀ p, p ≠ .cchanOut → s.life p = .bindSecond → s'.life p = .bindSecond := by
  have houtside : ∀ p, ¬ s.Entered p := fun p hp => hx.outside (hs.peer p hp)
  have hout : ∀ {p life}, p ≠ .cchanOut → s'.life = Function.update s.life p life →
      s'.threads = s.threads → Stranded s' := by
    intro p life hp hlife hthreads
    have hreturned : s'.life .cchanOut = .returned := by simp [hlife, hp.symm, hx.returned]
    refine ⟨hreturned, ?_⟩
    rw [entered_update hlife hthreads, if_neg hp.symm]
    exact hx.outside
  cases a with
  | start p =>
    obtain ⟨hcreated, rfl⟩ := processStep_start h
    have hp : p ≠ .cchanOut := by
      rintro rfl
      exact Life.noConfusion (hcreated.symm.trans hx.returned)
    refine ⟨hout hp rfl rfl, fun q _ hq => ?_⟩
    have hqp : q ≠ p := by
      rintro rfl
      exact Life.noConfusion (hcreated.symm.trans hq)
    simpa [Process.setLife, hqp] using hq
  | bind p created bound =>
    obtain ⟨first, hlife, hcan, rfl⟩ := processStep_bind h
    have hp : p ≠ .cchanOut := by
      rintro rfl
      cases first <;> simp [hx.returned] at hlife
    refine ⟨hout hp rfl rfl, fun q _ hq => ?_⟩
    by_cases hqp : q = p
    · subst q
      obtain rfl : first = false := by
        cases first with
        | true => simp [hq] at hlife
        | false => rfl
      obtain rfl : bound = false := by
        by_contra hbound
        have hbound : bound = true := by simpa using hbound
        have hinproc := (hcan hbound).2 (secondChan_type hp)
        exact Life.noConfusion ((hs.inproc hinproc).symm.trans hx.returned)
      simp [Process.chanBind, lifeAfterBind, hp]
    · simpa [Process.chanBind, hqp] using hq
  | run b => exact absurd (.inl (loopStep_run h).looping) (houtside _)
  | sendFails p => exact absurd (.inl (loopStep_sendFails h).looping) (houtside _)
  | destroy p =>
    rcases processStep_destroy h with ⟨hlife, _⟩ | ⟨hlife, _⟩
    · exact absurd (.inl hlife) (houtside p)
    · exact absurd (.inr (.inl hlife)) (houtside p)
  | newBuffer p =>
    obtain ⟨_, buffers, _, rfl⟩ := processStep_newBuffer h
    exact ⟨⟨hx.returned, hx.outside⟩, fun _ _ => id⟩
  | zmqDone r freeFn =>
    obtain ⟨buffers, _, rfl⟩ := processStep_zmqDone h
    exact ⟨⟨hx.returned, hx.outside⟩, fun _ _ => id⟩

end Steps

/-- The threads are joined after a shutdown that has been acknowledged, all at the end of
their loops but for a `market_thread` that never got to its own, or without any of them ever
having been in its loop. Where `cchan_out_thread` has returned because a bind failed, nothing
happens any more but the connects of the threads that have bound their own channel, and they
never succeed. -/
theorem joined_after_shutdown (tapeBasedir : Bytes) (gBuffer : Memory) (buffer : Party → Memory)
    (as : List ProcessAction) (s : Process)
    (run : Run (processStep tapeBasedir) unguarded (processInitial gBuffer buffer) as s) :
    (s.Joined →
      (processLog as).last = some .shutdown ∧ s.threads.Finished .cchanIn ∧
        s.threads.Finished .cchanOut ∧ (s.threads.Finished .market ∨
          s.threads.mchan = [] ∧ ∀ a ∈ as, a.loops .market = false) ∨
      s.threads = initial gBuffer buffer ∧ ∀ p, ∀ a ∈ as, a.loops p = false) ∧
    (s.life .cchanOut = .returned → ¬ s.threads.Finished .cchanOut →
      ∀ bs t, Run (processStep tapeBasedir) unguarded s bs t →
        t.threads = initial gBuffer buffer ∧ (∀ p, ∀ a ∈ as ++ bs, a.loops p = false) ∧
        ∀ p, p ≠ .cchanOut → s.life p = .bindSecond → t.life p = .bindSecond) := by
  have hs := endingInv_run run
  constructor
  · intro hjoined
    by_cases hout : s.Entered .cchanOut
    · refine .inl ?_
      have hfinished := hjoined.finished hout
      obtain ⟨bs, t, loops, hlog, hst⟩ := shadows_of_run run
      have hlast : (processLog as).last = some .shutdown := by
        rw [← hlog]
        exact last_of_finished loops (p := .cchanOut) (hst.outPc_eq hfinished nofun)
      have hin : s.Entered .cchanIn := by
        by_contra hin
        have hnone := List.filterMap_eq_nil_iff.mpr fun b hb =>
          ProcessAction.request_of_loops (hs.acts .cchanIn hin b hb)
        simp [processLog, hnone, ControlLog.last, ControlLog.acknowledged] at hlast
      refine ⟨hlast, hjoined.finished hin, hfinished, ?_⟩
      by_cases hmarket : s.Entered .market
      · exact .inl (hjoined.finished hmarket)
      · exact .inr ⟨hs.market hmarket, hs.acts .market hmarket⟩
    · exact .inr ⟨hs.start hout, fun p => hs.acts p fun hp => hout (hs.peer p hp)⟩
  · intro hreturned hunfinished bs t later
    have hoff : ¬ s.Entered .cchanOut := by
      rintro (hlife | hlife | hfinished)
      · exact Life.noConfusion (hlife.symm.trans hreturned)
      · exact Life.noConfusion (hlife.symm.trans hreturned)
      · exact hunfinished hfinished
    obtain ⟨ht, hx, hlife⟩ := later.history (fun bs t => EndingInv gBuffer buffer (as ++ bs) t ∧
        Stranded t ∧ ∀ p, p ≠ .cchanOut → s.life p = .bindSecond → t.life p = .bindSecond)
      ⟨(List.append_nil as).symm ▸ hs, ⟨hreturned, hoff⟩, fun _ _ => id⟩ (by
        rintro bs t a u ⟨ht, hx, hlife⟩ _ moved
        obtain ⟨hx', hlife'⟩ := stranded_step ht hx moved
        exact ⟨List.append_assoc as bs [a] ▸ endingInv_step ht moved, hx',
          fun p hp hq => hlife' p hp (hlife p hp hq)⟩)
    exact ⟨ht.start hx.outside, fun p => ht.acts p fun hp => hx.outside (ht.peer p hp), hlife⟩

def bindOutFails : List ProcessAction :=
  [.start .cchanIn, .bind .cchanIn true true, .start .cchanOut, .bind .cchanOut true false]

/-- A shutdown ends the one process; in the other the control thread tries to connect for
ever. -/
theorem joined_after_shutdown_or_never : (∃ s : Process,
      Run (processStep []) unguarded (processInitial (fun _ => 0) (fun _ _ => 0)) bindsInOrder s ∧
      s.Joined ∧ (processLog bindsInOrder).last = some .shutdown ∧ s.threads.Finished .market) ∧
    ∃ s : Process,
      Run (processStep []) unguarded (processInitial (fun _ => 0) (fun _ _ => 0)) bindOutFails s ∧
      s.life .cchanIn = .bindSecond ∧
      ∀ bs t, Run (processStep []) unguarded s bs t → ¬ t.Joined := by
  constructor
  · obtain ⟨s, run, hs⟩ := exists_run_of_foldlM_map (processStep []) unguarded
      (processInitial (fun _ => 0) (fun _ _ => 0))
      bindsInOrder (fun s => (s.socketsLeft, s.threads.pushed.length, s.threads.marketPc))
      (b := (([.returned, .returned, .returned], [], [2, 3, 4, 5, 1, 0]), 1, .finished))
      (by decide)
    simp only [Prod.mk.injEq] at hs
    obtain ⟨hs, hpushed, hmarket⟩ := hs
    have hjoined := (Process.joined_of_socketsLeft hs).1
    refine ⟨s, run, hjoined, ?_, hmarket⟩
    rcases (joined_after_shutdown [] _ _ _ s run).1 hjoined with ⟨hlast, _⟩ | hinitial
    · exact hlast
    · simp [hinitial.1, initial] at hpushed
  · obtain ⟨s, run, hs⟩ := exists_run_of_foldlM_map (processStep []) unguarded
      (processInitial (fun _ => 0) (fun _ _ => 0)) bindOutFails
      (fun s => (s.life .cchanIn, s.life .cchanOut, s.threads.outPc))
      (b := (.bindSecond, .returned, .read)) (by decide)
    simp only [Prod.mk.injEq] at hs
    obtain ⟨hin, hout, hpc⟩ := hs
    refine ⟨s, run, hin, fun bs t later hjoined => ?_⟩
    have hfinished : ¬ s.threads.Finished .cchanOut := fun h =>
      CchanOutPc.noConfusion (hpc.symm.trans h)
    have hnever := (joined_after_shutdown [] _ _ _ s run).2 hout hfinished bs t later
    exact Life.noConfusion ((hjoined .cchanIn).symm.trans (hnever.2.2 .cchanIn (by decide) hin))

end Wineing
