import Wineing.ControlSequence

/-!
# The control thread finishes its answers

A call is a bounded number of accesses, and the only one that can block is the one that
takes the lock. Whoever holds the lock can go on and release it, so from every reachable
state the control thread can be brought to rest without a further request. What it has
pushed then is the control log.
-/

namespace Wineing
open CStringMemory GuardedRuns

namespace LazyPc

def remaining : LazyPc → ℕ
  | idle => 0
  | ret => 1
  | reread | unlock _ => 2
  | data _ => 3
  | size _ => 4
  | cmd _ => 5
  | version _ => 6
  | lock _ => 7
  | compare _ => 8

end LazyPc

section Lazy

variable {V ι : Type*} [DecidableEq ι] [Ring V] [DecidableEq V] {l l' : LazyState V ι} {i : ι}

theorem remaining_lt_of_runThread (ran : runThread l i = some l') :
    (l'.threads i).pc.remaining < (l.threads i).pc.remaining := by
  cases accesses_of_runThread ran with
  | owns pc | refuse pc | unchanged pc | changed pc | reread pc | lock pc | writeVersion pc
  | readVersion pc | writeCmd pc | readCmd pc | writeSize pc | readSize pc | writeData pc
  | readData pc | unlock pc | ret pc => simp [pc, LazyPc.remaining]

theorem remaining_of_call {j : ι} {call : LazyCall}
    (called : lazyStep l (.call i call) = some l') :
    (l'.threads j).pc.remaining = (l.threads j).pc.remaining + if j = i then 8 else 0 := by
  obtain ⟨hidle, rfl⟩ := lazyStep_call called
  by_cases hj : j = i
  · subst hj
    simp [hidle, LazyPc.remaining]
  · rw [LazyState.setThread_threads_of_ne _ _ hj]
    simp [hj]

theorem runThread_isSome (hbusy : (l.threads i).pc ≠ .idle)
    (hlock : ∀ call, (l.threads i).pc = .lock call → l.gLock = none) :
    ∃ l', runThread l i = some l' := by
  cases hpc : (l.threads i).pc with
  | idle => exact absurd hpc hbusy
  | reread => exact ⟨_, runThread_of_accesses (.reread hpc)⟩
  | ret => exact ⟨_, runThread_of_accesses (.ret hpc)⟩
  | lock call => exact ⟨_, runThread_of_accesses (.lock hpc (hlock call hpc))⟩
  | unlock call => exact ⟨_, runThread_of_accesses (.unlock hpc)⟩
  | compare call =>
    by_cases hv : (l.threads i).tVersion = l.gVersion <;> cases call
    · exact ⟨_, runThread_of_accesses (.owns hpc hv)⟩
    · exact ⟨_, runThread_of_accesses (.unchanged hpc hv)⟩
    · exact ⟨_, runThread_of_accesses (.refuse hpc hv)⟩
    · exact ⟨_, runThread_of_accesses (.changed hpc hv)⟩
  | version call =>
    cases call
    · exact ⟨_, runThread_of_accesses (.writeVersion hpc)⟩
    · exact ⟨_, runThread_of_accesses (.readVersion hpc)⟩
  | cmd call =>
    cases call
    · exact ⟨_, runThread_of_accesses (.writeCmd hpc)⟩
    · exact ⟨_, runThread_of_accesses (.readCmd hpc)⟩
  | size call =>
    cases call
    · exact ⟨_, runThread_of_accesses (.writeSize hpc)⟩
    · exact ⟨_, runThread_of_accesses (.readSize hpc)⟩
  | data call =>
    cases call
    · exact ⟨_, runThread_of_accesses (.writeData hpc)⟩
    · exact ⟨_, runThread_of_accesses (.readData hpc)⟩

/-- A thread in a call can go on, or the holder of the lock can. -/
theorem exists_runThread (hlock : LockOk l) (hbusy : (l.threads i).pc ≠ .idle) :
    ∃ j l', runThread l j = some l' := by
  cases hheld : l.gLock with
  | none =>
    obtain ⟨l', ran⟩ := runThread_isSome hbusy (fun _ _ => hheld)
    exact ⟨i, l', ran⟩
  | some j =>
    have hcritical := (hlock j).mp hheld
    have hbusy' : (l.threads j).pc ≠ .idle := by
      rintro hpc
      simp [hpc, LazyPc.critical] at hcritical
    obtain ⟨l', ran⟩ := runThread_isSome hbusy' (by
      intro call hpc
      simp [hpc, LazyPc.critical] at hcritical)
    exact ⟨j, l', ran⟩

end Lazy

/-- The accesses that the calls under way will still make. -/
def State.accessesLeft (s : State) : ℕ :=
  (s.thread .cchanIn).pc.remaining + (s.thread .cchanOut).pc.remaining +
    ((s.thread .market).pc.remaining + (s.thread .callback).pc.remaining)

/-- The steps up to the control thread's rest, if nothing but the calls under way and its
answer goes on. -/
def State.stepsToRest (s : State) : ℕ :=
  (match s.inPc with
    | .publish _ => 10
    | .push _ => 1
    | _ => 0) + s.accessesLeft

section Steps

variable {tapeBasedir : Bytes} {s : State}

theorem accessesLeft_of_runThread {p : Party} {l : LazyState ℤ Party}
    (ran : runThread s.lazy p = some l) :
    State.accessesLeft { s with lazy := l } < s.accessesLeft := by
  have hlt := remaining_lt_of_runThread ran
  have hother : ∀ q, q ≠ p → l.threads q = s.lazy.threads q :=
    fun q hq => runThread_threads_of_ne ran hq
  cases p <;> simp_all [State.accessesLeft, State.thread]

theorem accessesLeft_of_call {p : Party} {call : LazyCall} {l : LazyState ℤ Party}
    (called : lazyStep s.lazy (.call p call) = some l) :
    State.accessesLeft { s with lazy := l } = s.accessesLeft + 8 := by
  have hcalled := fun q => remaining_of_call (j := q) called
  simp only [State.accessesLeft, State.thread, hcalled]
  cases p <;> simp <;> omega

theorem exists_step_to_rest (hs : ThreadsInv s) (hrest : ¬ s.AtRest) :
    ∃ a s', a.request = none ∧ step tapeBasedir s a = some s' ∧ ThreadsInv s' ∧
      s'.stepsToRest < s.stepsToRest := by
  suffices h : ∃ a s', a.request = none ∧ step tapeBasedir s a = some s' ∧
      s'.stepsToRest < s.stepsToRest by
    obtain ⟨a, s', ha, hstep, hlt⟩ := h
    exact ⟨a, s', ha, hstep, threadsInv_step hs hstep, hlt⟩
  cases hpc : s.inPc with
  | loop | recv | finished => simp [State.AtRest, State.inHand, hpc] at hrest
  | publish res =>
    have hidle : (s.lazy.threads .cchanIn).pc = .idle :=
      hs.calls .cchanIn (by simp [State.waiting, hpc])
    obtain ⟨l, called⟩ : ∃ l, lazyStep s.lazy (.call .cchanIn .updateGlobalIfOwner) = some l :=
      ⟨_, if_pos hidle⟩
    refine ⟨.inPublish, { s with lazy := l, inPc := .push res }, rfl, ?_, ?_⟩
    · simp [step, hpc, called]
    · have haccesses : State.accessesLeft { s with lazy := l, inPc := .push res } =
          s.accessesLeft + 8 := accessesLeft_of_call called
      simp only [State.stepsToRest, hpc, haccesses]
      omega
  | push res =>
    by_cases hidle : s.Idle .cchanIn
    · refine ⟨.inPush, { s with
        inPc := .loop, inproc := s.inproc ++ [res], pushed := s.pushed ++ [res] }, rfl, ?_, ?_⟩
      · simp [step, hpc, hidle]
      · simp only [State.stepsToRest, hpc]
        exact Nat.add_lt_add_right (by decide) s.accessesLeft
    · obtain ⟨p, l, ran⟩ := exists_runThread hs.lazy.lock hidle
      exact ⟨.lazy p, { s with lazy := l }, rfl, by simp [step, ran],
        Nat.add_lt_add_left (accessesLeft_of_runThread ran) _⟩

/-- From every reachable state the control thread comes to rest in some run without a
request. -/
theorem exists_run_to_rest (tapeBasedir : Bytes) (hs : ThreadsInv s) : ∃ as s',
    Run (step tapeBasedir) unguarded s as s' ∧ requests as = [] ∧ s'.AtRest := by
  obtain ⟨as, s', run, hrest⟩ : ∃ as s',
      Run (step tapeBasedir) (fun _ a => a.request = none) s as s' ∧ s'.AtRest :=
    Run.exists_of_potential ThreadsInv State.AtRest State.stepsToRest
      (fun _ ht hbusy => exists_step_to_rest ht hbusy) hs
  refine ⟨as, s', run.mono (fun _ _ _ => trivial), ?_, hrest⟩
  refine run.history (fun as _ => requests as = []) rfl ?_
  intro as t a u has ha _
  rw [requests_snoc_none as ha, has]

theorem controlLog_append_none (as : List Action) {bs : List Action} (h : requests bs = []) :
    controlLog (as ++ bs) = controlLog as := by
  have hbs : bs.filterMap Action.request = [] := h
  rw [controlLog, controlLog, List.filterMap_append, hbs, List.append_nil]

theorem ControlInv.pushed_of_atRest {as : List Action} (hs : ControlInv tapeBasedir as s)
    (hrest : s.AtRest) :
    s.pushed.map (fun res => (res.requestId, res.type)) =
      (controlLog as).map (fun x => (x.1.requestId, x.2)) ∧
    s.lazy.gVersion = (controlLog as).acknowledged.length := by
  have hresponses := hs.responses
  have hhand : s.inHand = [] := hrest
  rw [hhand, List.append_nil] at hresponses
  have hnone := unpublished_of_atRest hs.threads hrest
  have hcount := hs.count
  have hnewest := hs.threads.lazy.numbered.newest
  exact ⟨hresponses, by omega⟩

end Steps

/-- The control loop implements the control log, in any interleaving with the other
threads. It answers the requests received as the log does, in their order and up to the
first shutdown, and from every state it can go on, without a further request, until all the
answers are pushed. Frames that are no requests leave no trace; the owner check passes; and
before an answer is pushed each acknowledged request has been published, as the next
version and with the command and the tape of the request. -/
theorem cchanInThread_keeps_controlLog (tapeBasedir : Bytes) (gBuffer : Memory)
    (buffer : Party → Memory) (as : List Action) (s : State)
    (run : Run (step tapeBasedir) unguarded (initial gBuffer buffer) as s) :
    (s.pushed ++ s.inHand).map (fun res => (res.requestId, res.type)) =
      (controlLog as).map (fun x => (x.1.requestId, x.2)) ∧
    (∃ bs t, Run (step tapeBasedir) unguarded s bs t ∧ requests bs = [] ∧ t.AtRest ∧
      t.pushed.map (fun res => (res.requestId, res.type)) =
        (controlLog as).map (fun x => (x.1.requestId, x.2)) ∧
      t.lazy.gVersion = (controlLog as).acknowledged.length) ∧
    (∀ xs x ys, controlLog as = xs ++ x :: ys → x.1.type = .shutdown →
      ys = [] ∧ ∀ message fileExists, step tapeBasedir s (.inRecv message fileExists) = none) ∧
    (∀ message fileExists s', message.bind Frame.request = none →
      step tapeBasedir s (.inRecv message fileExists) = some s' →
      s' = { s with inPc := .loop } ∧ step tapeBasedir s' .inLoop = some s) ∧
    ((s.thread .cchanIn).tVersion = s.lazy.gVersion ∧ (s.thread .cchanIn).pc ≠ .reread) ∧
    (∀ (k : ℕ) q, s.lazy.published[k + 1]? = some q → q.version = k + 1 ∧
      ∃ req, (controlLog as).acknowledged[k]? = some req ∧ Publishes tapeBasedir req q.ctrl) ∧
    (∀ s', step tapeBasedir s .inPush = some s' →
      s.lazy.gVersion = (controlLog as).acknowledged.length ∧
      ∀ req, (controlLog as).acknowledged.getLast? = some req →
        Publishes tapeBasedir req s.lazy.gData) := by
  have hs := controlInv_run run
  obtain ⟨hversion, hwriter⟩ := hs.threads.lazy.writer
  refine ⟨hs.responses, ?_, ?_, ?_, ⟨hversion, ?_⟩, ?_, ?_⟩
  · obtain ⟨bs, t, rest, hnone, hrest⟩ := exists_run_to_rest tapeBasedir hs.threads
    have hpushed := (controlInv_run (run.trans rest)).pushed_of_atRest hrest
    rw [controlLog_append_none as hnone] at hpushed
    exact ⟨bs, t, rest, hnone, hrest, hpushed⟩
  · intro xs x ys hlog hx
    obtain ⟨hys, hlast⟩ := hs.shutdown_last xs x ys hlog hx
    exact ⟨hys, hs.no_recv_after_shutdown hlast⟩
  · intro message fileExists s' hrefused hstep
    exact step_refused hs hrefused hstep
  · intro hreread
    have hreread : (s.lazy.threads .cchanIn).pc = .reread := hreread
    simp [hreread] at hwriter
  · intro k q hq
    have hnumber := hs.threads.lazy.numbered.version (k + 1) q hq
    exact ⟨by simpa using hnumber, hs.publications k q hq⟩
  · intro s' hstep
    cases moves_of_step hstep with
    | inPush pc idle => exact hs.published_of_idle idle (by simp [pc])

/-- A start with a tape, bytes that are no request, and a shutdown. -/
def startGarbageShutdown : List Action :=
  serve ⟨7, .marketStart, some (ascii "a.nxc")⟩ 0 ++ [.inLoop, .inRecv garbage 0] ++
    serve ⟨8, .shutdown, none⟩ 0

theorem cchanInThread_keeps_controlLog_shutdown : ∃ s : State,
    Run (step []) unguarded (initial (fun _ => 0) (fun _ _ => 0)) startGarbageShutdown s ∧
    s.pushed.map (fun res => (res.requestId, res.type)) =
      [(7, .marketStartOk), (8, .shutdownOk)] ∧
    s.lazy.gVersion = 2 ∧ s.inHand = [] ∧
    ∀ message fileExists, step [] s (.inRecv message fileExists) = none := by
  obtain ⟨s, run, hs⟩ := exists_run_of_foldlM_map (step []) unguarded
    (initial (fun _ => 0) (fun _ _ => 0)) startGarbageShutdown
    (fun s => (s.pushed.map (fun res => (res.requestId, res.type)), s.lazy.gVersion, s.inHand))
    (b := ([(7, .marketStartOk), (8, .shutdownOk)], 2, [])) (by decide)
  simp only [Prod.mk.injEq] at hs
  obtain ⟨hpushed, hversion, hhand⟩ := hs
  have hlast := (cchanInThread_keeps_controlLog [] _ _ _ s run).2.2.1
    [(⟨7, .marketStart, some (ascii "a.nxc")⟩, .marketStartOk)] (⟨8, .shutdown, none⟩, .shutdownOk)
    [] (by decide) rfl
  exact ⟨s, run, hpushed, hversion, hhand, hlast.2⟩

end Wineing
