import Wineing.ResponseForwarding
import Wineing.SocketLifetimes

/-!
# The threads do not notice a failed send

All three threads log a failed `chan_send`, if that, and go on. A run of the process in which
sends fail stands, in its threads and in the shared record, where a run of the loops alone
stands in which all succeed; only what the channels carry is less. So what is proved of the
loops holds of the process, and the responses that are missing are as many as failed sends.
-/

namespace Wineing
open CStringMemory GuardedRuns

section Moves

variable {tapeBasedir : Bytes} {s s' t : State} {a : Action} {n : ℕ}

private theorem step_of_moves (h : Moves tapeBasedir s a s') : step tapeBasedir s a = some s' := by
  cases h with
  | lazy ran => simp [step, ran]
  | inLoop pc live => simp [step, pc, live]
  | inFinish pc dead => simp [step, pc, dead.not_gt]
  | inRefuse pc refused => simp [step, pc, refused]
  | inAnswer pc received switched assigned => simp [step, pc, received, switched, assigned]
  | inPublish pc called | outRead pc called | marketRead pc called | marketCallback pc called =>
    simp [step, pc, called]
  | inPush pc idle | marketTest pc idle | marketProcess pc idle => simp [step, pc, idle]
  | outFinish pc idle dead => simp [step, pc, idle, dead]
  | outTest pc idle live => simp [step, pc, idle, live.symm]
  | outRecv pc queue => simp [step, pc, queue]
  | outRefuse pc | outSend pc | marketRun pc | marketTapeEnd pc | marketStopped pc =>
    simp [step, pc]
  | marketStop pc stop => simp [step, pc, stop]
  | marketContinue pc run => simp [step, pc, run.not_gt]

/-- The threads and the shared record of `s`, where no send has failed: there may be more
responses on their way, and `n` have been pushed that `s` could not push. -/
structure Shadows (n : ℕ) (s t : State) : Prop where
  lazy : t.lazy = s.lazy
  inPc : t.inPc = s.inPc
  outPc : t.outPc = s.outPc ∨ ∃ res res', s.outPc = .send res ∧ t.outPc = .send res'
  marketPc : t.marketPc = s.marketPc
  inproc : s.inproc.length ≤ t.inproc.length
  pushed : s.pushed.Sublist t.pushed
  missing : t.pushed.length = s.pushed.length + n

namespace Shadows

theorem refl (s : State) : Shadows 0 s s := ⟨rfl, rfl, .inl rfl, rfl, le_rfl, .refl _, rfl⟩

theorem outPc_eq {pc : CchanOutPc} (h : Shadows n s t) (hs : s.outPc = pc)
    (hsend : ∀ res, pc ≠ .send res) : t.outPc = pc := by
  rcases h.outPc with heq | ⟨res, _, hres, _⟩
  · exact heq.trans hs
  · exact absurd (hs.symm.trans hres) (hsend res)

private theorem exists_send {res : Response} (h : Shadows n s t) (hs : s.outPc = .send res) :
    ∃ res', t.outPc = .send res' := by
  rcases h.outPc with heq | ⟨_, res', _, ht⟩
  · exact ⟨res, heq.trans hs⟩
  · exact ⟨res', ht⟩

end Shadows

/-- A step leads both to the same places. Where a send has failed, the response that
`cchan_out_thread` receives is another one. -/
private theorem shadows_moves (hst : Shadows n s t) (h : Moves tapeBasedir s a s') :
    ∃ t', Moves tapeBasedir t a t' ∧ Shadows n s' t' := by
  have hout : ∀ {pc}, s.outPc = pc → (∀ res, pc ≠ .send res) → t.outPc = pc := hst.outPc_eq
  have hsend : ∀ {res}, s.outPc = .send res → ∃ res', t.outPc = .send res' := hst.exists_send
  obtain ⟨l, inPc, outPc, marketPc, inproc, pushed, cchanOut, mchan⟩ := t
  obtain ⟨rfl, rfl, hplace, rfl, hinproc, hpushed, hn⟩ := hst
  cases h with
  | inPush pc idle =>
    exact ⟨_, .inPush pc idle, rfl, rfl, hplace, rfl, by simpa using hinproc,
      hpushed.append_right _, by simp at hn ⊢; omega⟩
  | outRead pc called =>
    exact ⟨_, .outRead (hout pc nofun) called, rfl, rfl, .inl rfl, rfl, hinproc, hpushed, hn⟩
  | outFinish pc idle dead =>
    exact ⟨_, .outFinish (hout pc nofun) idle dead, rfl, rfl, .inl rfl, rfl, hinproc, hpushed, hn⟩
  | outTest pc idle live =>
    exact ⟨_, .outTest (hout pc nofun) idle live, rfl, rfl, .inl rfl, rfl, hinproc, hpushed, hn⟩
  | outRefuse pc =>
    exact ⟨_, .outRefuse (hout pc nofun), rfl, rfl, .inl rfl, rfl, hinproc, hpushed, hn⟩
  | outRecv pc queue =>
    cases inproc with
    | nil => simp [queue] at hinproc
    | cons res inproc =>
      exact ⟨_, .outRecv (hout pc nofun) rfl, rfl, rfl, .inr ⟨_, _, rfl, rfl⟩, rfl,
        by simpa [queue] using hinproc, hpushed, hn⟩
  | outSend pc =>
    obtain ⟨res, hres⟩ := hsend pc
    exact ⟨_, .outSend hres, rfl, rfl, .inl rfl, rfl, hinproc, hpushed, hn⟩
  | lazy ran => exact ⟨_, .lazy ran, rfl, rfl, hplace, rfl, hinproc, hpushed, hn⟩
  | inLoop pc live => exact ⟨_, .inLoop pc live, rfl, rfl, hplace, rfl, hinproc, hpushed, hn⟩
  | inFinish pc dead => exact ⟨_, .inFinish pc dead, rfl, rfl, hplace, rfl, hinproc, hpushed, hn⟩
  | inRefuse pc refused =>
    exact ⟨_, .inRefuse pc refused, rfl, rfl, hplace, rfl, hinproc, hpushed, hn⟩
  | inAnswer pc received switched assigned =>
    exact ⟨_, .inAnswer pc received switched assigned, rfl, rfl, hplace, rfl, hinproc, hpushed, hn⟩
  | inPublish pc called =>
    exact ⟨_, .inPublish pc called, rfl, rfl, hplace, rfl, hinproc, hpushed, hn⟩
  | marketRead pc called =>
    exact ⟨_, .marketRead pc called, rfl, rfl, hplace, rfl, hinproc, hpushed, hn⟩
  | marketTest pc idle =>
    exact ⟨_, .marketTest pc idle, rfl, rfl, hplace, rfl, hinproc, hpushed, hn⟩
  | marketRun pc => exact ⟨_, .marketRun pc, rfl, rfl, hplace, rfl, hinproc, hpushed, hn⟩
  | marketCallback pc called =>
    exact ⟨_, .marketCallback pc called, rfl, rfl, hplace, rfl, hinproc, hpushed, hn⟩
  | marketProcess pc idle =>
    exact ⟨_, .marketProcess pc idle, rfl, rfl, hplace, rfl, hinproc, hpushed, hn⟩
  | marketStop pc stop =>
    exact ⟨_, .marketStop pc stop, rfl, rfl, hplace, rfl, hinproc, hpushed, hn⟩
  | marketContinue pc run =>
    exact ⟨_, .marketContinue pc run, rfl, rfl, hplace, rfl, hinproc, hpushed, hn⟩
  | marketTapeEnd pc => exact ⟨_, .marketTapeEnd pc, rfl, rfl, hplace, rfl, hinproc, hpushed, hn⟩
  | marketStopped pc => exact ⟨_, .marketStopped pc, rfl, rfl, hplace, rfl, hinproc, hpushed, hn⟩

theorem shadows_sendFails {p : Pthread} (hst : Shadows n s t) (h : s.sendFails p = some s') :
    ∃ b t', b.request = none ∧ Moves tapeBasedir t b t' ∧
      Shadows (n + if p = .cchanIn then 1 else 0) s' t' := by
  have hsend : ∀ {res}, s.outPc = .send res → ∃ res', t.outPc = .send res' := hst.exists_send
  obtain ⟨l, inPc, outPc, marketPc, inproc, pushed, cchanOut, mchan⟩ := t
  obtain ⟨rfl, rfl, hplace, rfl, hinproc, hpushed, hn⟩ := hst
  cases p with
  | cchanIn =>
    cases hpc : s.inPc <;> simp only [State.sendFails, hpc, Option.ite_none_right_eq_some,
      Option.some.injEq, reduceCtorEq] at h
    obtain ⟨idle, rfl⟩ := h
    exact ⟨.inPush, _, rfl, .inPush rfl idle, rfl, rfl, hplace, rfl, hinproc.trans (by simp),
      hpushed.trans (List.sublist_append_left ..), by simp at hn ⊢; omega⟩
  | cchanOut =>
    cases hpc : s.outPc <;>
      simp only [State.sendFails, hpc, Option.some.injEq, reduceCtorEq] at h
    obtain ⟨res, hres⟩ := hsend hpc
    subst h
    exact ⟨.outSend, _, rfl, .outSend hres, rfl, rfl, .inl rfl, rfl, hinproc, hpushed, hn⟩
  | market =>
    cases hpc : s.marketPc with
    | process message =>
      cases message <;> simp only [State.sendFails, hpc, Option.ite_none_right_eq_some,
        Option.some.injEq, reduceCtorEq] at h
      obtain ⟨idle, rfl⟩ := h
      exact ⟨.marketProcess, _, rfl, .marketProcess rfl idle, rfl, rfl, hplace, rfl, hinproc,
        hpushed, hn⟩
    | _ => simp [State.sendFails, hpc] at h

def ProcessAction.request : ProcessAction → Option (Request × ℤ)
  | .run a => a.request
  | _ => none

def processLog (as : List ProcessAction) : ControlLog :=
  (as.filterMap ProcessAction.request).foldl ControlLog.respond []

def ProcessAction.fails (p : Pthread) : ProcessAction → Bool
  | .sendFails q => q = p
  | _ => false

def failedSends (p : Pthread) (as : List ProcessAction) : ℕ := as.countP (ProcessAction.fails p)

private theorem failedSends_snoc (p : Pthread) (as : List ProcessAction) (b : ProcessAction) :
    failedSends p (as ++ [b]) = failedSends p as + if b.fails p then 1 else 0 := by
  simp [failedSends, List.countP_append, List.countP_cons]

theorem shadows_processStep {b : ProcessAction} (hst : Shadows n s t)
    (h : s.processStep tapeBasedir b = some s') :
    ∃ bs t', Run (step tapeBasedir) unguarded t bs t' ∧
      bs.filterMap Action.request = [b].filterMap ProcessAction.request ∧
      Shadows (n + if b.fails .cchanIn then 1 else 0) s' t' := by
  cases b with
  | run a =>
    obtain ⟨t', moves, hst'⟩ := shadows_moves hst (moves_of_step h)
    exact ⟨[a], t', .single trivial (step_of_moves moves), rfl, hst'⟩
  | sendFails p =>
    obtain ⟨b, t', hnone, moves, hst'⟩ := shadows_sendFails hst h
    exact ⟨[b], t', .single trivial (step_of_moves moves),
      by simp [hnone, ProcessAction.request], by simpa [ProcessAction.fails] using hst'⟩
  | start | bind | newBuffer | zmqDone | destroy =>
    exact ⟨[], t, .refl, rfl, Option.some.inj h ▸ hst⟩

end Moves

/-- A run of the process is in its threads a run of the loops in which all sends succeed, on
the same requests. -/
theorem shadows_of_run {tapeBasedir : Bytes} {gBuffer : Memory} {buffer : Party → Memory}
    {as : List ProcessAction} {s : Process}
    (run : Run (processStep tapeBasedir) unguarded (processInitial gBuffer buffer) as s) :
    ∃ bs t, Run (step tapeBasedir) unguarded (initial gBuffer buffer) bs t ∧
      controlLog bs = processLog as ∧ Shadows (failedSends .cchanIn as) s.threads t := by
  have hrun := run.history (fun as s => ∃ bs t,
    Run (step tapeBasedir) unguarded (initial gBuffer buffer) bs t ∧
      bs.filterMap Action.request = as.filterMap ProcessAction.request ∧
      Shadows (failedSends .cchanIn as) s.threads t)
    ⟨[], _, .refl, rfl, .refl _⟩ (by
      rintro as s a s' ⟨bs, t, run, hrequests, hst⟩ _ moved
      obtain ⟨cs, t', run', hmore, hst'⟩ := shadows_processStep hst (threads_of_processStep moved)
      refine ⟨bs ++ cs, t', run.trans run', ?_, failedSends_snoc .. ▸ hst'⟩
      rw [List.filterMap_append, List.filterMap_append, hrequests, hmore])
  obtain ⟨bs, t, run, hrequests, hst⟩ := hrun
  exact ⟨bs, t, run, congrArg (List.foldl ControlLog.respond []) hrequests, hst⟩

/-- What `cchan_out_thread` has sent, has in hand and will find in the queue. -/
def State.onward (s : State) : List Response := s.cchanOut ++ s.outHand ++ s.inproc

private theorem onward_of_moves {tapeBasedir : Bytes} {s s' : State} {a : Action}
    (h : Moves tapeBasedir s a s') :
    ∃ new, s'.pushed = s.pushed ++ new ∧ s'.onward = s.onward ++ new := by
  cases h with
  | @inPush res => exact ⟨[res], rfl, by simp [State.onward, State.outHand]⟩
  | outRead pc | outFinish pc | outTest pc | outRefuse pc | outSend pc =>
    exact ⟨[], by simp, by simp [State.onward, State.outHand, pc]⟩
  | outRecv pc queue => exact ⟨[], by simp, by simp [State.onward, State.outHand, pc, queue]⟩
  | _ => exact ⟨[], by simp, by simp [State.onward, State.outHand]⟩

/-- All of it has been pushed, in this order, and the rest of what has been pushed was lost in
failed sends of `cchan_out_thread`. -/
structure ForwardInv (lost : ℕ) (s : State) : Prop where
  fifo : s.onward.Sublist s.pushed
  length : s.pushed.length = s.onward.length + lost

private theorem forwardInv_step {tapeBasedir : Bytes} {s s' : State} {b : ProcessAction} {lost : ℕ}
    (hs : ForwardInv lost s) (h : s.processStep tapeBasedir b = some s') :
    ForwardInv (lost + if b.fails .cchanOut then 1 else 0) s' := by
  obtain ⟨hfifo, hlength⟩ := hs
  cases b with
  | run a =>
    obtain ⟨new, hpushed, honward⟩ := onward_of_moves (moves_of_step h)
    refine ⟨hpushed ▸ honward ▸ hfifo.append_right new, ?_⟩
    simp only [hpushed, honward, List.length_append, ProcessAction.fails, Bool.false_eq_true,
      ↓reduceIte]
    omega
  | sendFails p =>
    rcases State.sendFails_cases h with ⟨rfl, rfl⟩ | ⟨rfl, rfl⟩ | ⟨rfl, rfl⟩
    · exact ⟨hfifo, hlength⟩
    · cases hpc : s.outPc <;> simp only [State.processStep, State.sendFails, hpc, reduceCtorEq] at h
      simp only [State.onward, State.outHand, hpc, List.append_assoc] at hfifo hlength
      constructor
      · simp only [State.onward, State.outHand, List.append_nil]
        exact ((List.sublist_append_right ..).append_left _).trans hfifo
      · simp [State.onward, State.outHand, ProcessAction.fails] at hlength ⊢
        omega
    · exact ⟨hfifo, hlength⟩
  | start | bind | newBuffer | zmqDone | destroy => exact Option.some.inj h ▸ ⟨hfifo, hlength⟩

/-- Whatever binds, receives and sends fail, the responses on `cchan_out` are some of those to
the requests received, as the control log answers them and in its order, none twice. Those
missing are on their way or have been lost, each in a failed send. -/
theorem responses_under_failures (tapeBasedir : Bytes) (gBuffer : Memory)
    (buffer : Party → Memory) (as : List ProcessAction) (s : Process)
    (run : Run (processStep tapeBasedir) unguarded (processInitial gBuffer buffer) as s) :
    (s.threads.cchanOut.map fun res => (res.requestId, res.type)).Sublist
      ((processLog as).map fun x => (x.1.requestId, x.2)) ∧
    (processLog as).length = s.threads.onward.length + s.threads.inHand.length +
      failedSends .cchanIn as + failedSends .cchanOut as := by
  obtain ⟨bs, t, loops, hlog, hst⟩ := shadows_of_run run
  have hforward : ForwardInv (failedSends .cchanOut as) s.threads :=
    run.history (fun as s => ForwardInv (failedSends .cchanOut as) s.threads)
      ⟨.refl _, rfl⟩ fun as t a u ht _ moved =>
        failedSends_snoc .. ▸ forwardInv_step ht (threads_of_processStep moved)
  have hresponses := (controlInv_run loops).responses
  have hhand : t.inHand = s.threads.inHand := by simp only [State.inHand, hst.inPc]
  rw [hlog, hhand] at hresponses
  constructor
  · rw [← hresponses]
    have hsent : s.threads.cchanOut.Sublist s.threads.onward := by simp [State.onward]
    have hpushed := (hsent.trans hforward.fifo).trans hst.pushed
    exact (hpushed.trans (List.sublist_append_left ..)).map _
  · have hlength := congrArg List.length hresponses
    have hmissing := hst.missing
    have hlost := hforward.length
    simp only [List.length_map, List.length_append] at hlength
    omega

/-- The control thread cannot push the first of two responses; the second is sent. -/
def firstPushFails : List ProcessAction :=
  binds .cchanOut ++ binds .cchanIn ++ (serve ⟨1, .marketStop, none⟩ 0).dropLast.map .run ++
    [.newBuffer .cchanIn, .sendFails .cchanIn] ++ serveRequest ⟨2, .marketStop, none⟩ 0 ++
    List.map ProcessAction.run ([.outRead] ++ calls .cchanOut 8 ++ [.outTest]) ++
    [.newBuffer .cchanOut, .run (.outRecv true), .run .outSend]

theorem responses_under_failures_one : ∃ s : Process,
    Run (processStep []) unguarded (processInitial (fun _ => 0) (fun _ _ => 0)) firstPushFails s ∧
    failedSends .cchanIn firstPushFails = 1 ∧ s.threads.cchanOut.map Response.requestId = [2] ∧
    (processLog firstPushFails).length = 2 := by
  obtain ⟨s, run, hs⟩ := exists_run_of_foldlM_map (processStep []) unguarded
    (processInitial (fun _ => 0) (fun _ _ => 0)) firstPushFails
    (fun s => (s.threads.cchanOut.map Response.requestId, s.threads.onward.length,
      s.threads.inHand.length))
    (b := ([2], 1, 0)) (by decide)
  simp only [Prod.mk.injEq] at hs
  obtain ⟨hsent, honward, hhand⟩ := hs
  have hlength := (responses_under_failures [] _ _ _ s run).2
  rw [honward, hhand] at hlength
  exact ⟨s, run, rfl, hsent, hlength⟩

end Wineing
