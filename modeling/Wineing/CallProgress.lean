import Wineing.ProcessEnding
import Wineing.RemoteSession
import Wineing.ShutdownTermination

/-!
# Every call is answered

A request goes through a bounded number of steps of the client's worker and of the two control
threads on its way to the response on `cchan_out`, whatever the market thread does. As long as
no shutdown is called none of these can be stuck for good: they wait for each other only where
there is nothing left to answer.
-/

namespace Wineing
open CStringMemory GuardedRuns

/-- The steps of the control threads, but for receives that fail or get what is no request. -/
def Action.forwards : Action → Bool
  | .lazy p => decide (p = .cchanIn ∨ p = .cchanOut)
  | .inLoop | .inPublish | .inPush | .outRead | .outTest | .outSend => true
  | .outRecv received => received
  | _ => false

def Action.disturbs : Action → Bool
  | .inRecv _ _ => true
  | .outRecv received => !received
  | _ => false

def ClientAction.forwards : ClientAction → Bool
  | .take | .send => true
  | _ => false

/-- The steps of the worker that sends, of the control threads and of the requests. -/
def SessionAction.forwards : SessionAction → Bool
  | .client a => a.forwards
  | .server a => a.forwards
  | .request _ => true

/-- A new call is queued, or a receive does not get what has been sent. -/
def SessionAction.disturbs : SessionAction → Bool
  | .client (.addRequest _) => true
  | .server a => a.disturbs
  | _ => false

namespace State

def inWork (s : State) : ℕ :=
  match s.inPc with
  | .publish _ => 23
  | .push _ => 14
  | .loop => 1
  | _ => 0

def outWork (s : State) : ℕ :=
  match s.outPc with
  | .send _ => 11
  | .read => 10
  | .test => 1
  | _ => 0

def controlWork (s : State) : ℕ :=
  s.inWork + s.outWork + 12 * s.inproc.length +
    ((s.thread .cchanIn).pc.remaining + (s.thread .cchanOut).pc.remaining)

end State

/-- The steps that are left to the last response: those of a request in the queue, in the
worker's hands and on its way, and those of the control threads. -/
def Session.work (s : Session) : ℕ :=
  26 * s.client.ctrlQueue.length + 25 * s.client.ctrlOut.held.length +
    24 * (s.client.sent.length - s.received) + s.server.controlWork

section Server

variable {tapeBasedir : Bytes} {s s' : State} {a : Action}

theorem remaining_of_assign {p q : Party} {version : ℤ} {data : WCtrl} {l : LazyState ℤ Party}
    (assigned : lazyStep s.lazy (.assign p version data) = some l) :
    (l.threads q).pc.remaining = (s.lazy.threads q).pc.remaining := by
  obtain ⟨hidle, rfl⟩ := lazyStep_assign assigned
  by_cases hq : q = p
  · subst hq
    simp [hidle]
  · rw [LazyState.setThread_threads_of_ne _ _ hq]

private theorem controlWork_of_runThread {p : Party} {l : LazyState ℤ Party}
    (ran : runThread s.lazy p = some l) :
    (if Action.forwards (.lazy p) then 1 else 0) + State.controlWork { s with lazy := l } ≤
      s.controlWork := by
  have hlt := remaining_lt_of_runThread ran
  have hother : ∀ q, q ≠ p → l.threads q = s.lazy.threads q :=
    fun q hq => runThread_threads_of_ne ran hq
  have hwork : ∀ l, State.controlWork { s with lazy := l } =
      s.inWork + s.outWork + 12 * s.inproc.length +
        ((l.threads .cchanIn).pc.remaining + (l.threads .cchanOut).pc.remaining) := fun _ => rfl
  rw [hwork l, show s.controlWork = _ from hwork s.lazy]
  cases p with
  | cchanIn =>
    rw [hother .cchanOut (by decide)]
    simp only [Action.forwards, true_or, decide_true, if_true]
    omega
  | cchanOut =>
    rw [hother .cchanIn (by decide)]
    simp only [Action.forwards, or_true, decide_true, if_true]
    omega
  | market | callback =>
    rw [hother .cchanIn (by decide), hother .cchanOut (by decide)]
    simp [Action.forwards]

private theorem controlWork_moves (h : Moves tapeBasedir s a s') :
    (if a.forwards then 1 else 0) + s'.controlWork ≤
      s.controlWork + if a.disturbs then 23 else 0 := by
  cases h with
  | lazy ran =>
    have hwork := controlWork_of_runThread ran
    simp only [Action.disturbs, Bool.false_eq_true, if_false]
    omega
  | @inAnswer _ _ _ out _ pc received switched assigned =>
    have hsame := fun q => remaining_of_assign (q := q) assigned
    cases hpub : out.publish <;>
      simp [State.controlWork, State.thread, State.inWork, State.outWork, pc, hsame,
        Action.forwards, Action.disturbs] <;> omega
  | inPublish pc called | outRead pc called =>
    have hcalled := fun q => remaining_of_call (j := q) called
    simp [State.controlWork, State.thread, State.inWork, State.outWork, pc, hcalled,
      Action.forwards, Action.disturbs]
    omega
  | marketRead _ called | marketCallback _ called =>
    have hcalled := fun q => remaining_of_call (j := q) called
    simp [State.controlWork, State.thread, State.inWork, State.outWork, hcalled,
      Action.forwards, Action.disturbs]
  | inLoop pc | inFinish pc | inRefuse pc | inPush pc | outFinish pc | outTest pc | outRefuse pc
  | outSend pc =>
    simp [State.controlWork, State.thread, State.inWork, State.outWork, pc,
      Action.forwards, Action.disturbs]
    omega
  | outRecv pc queue =>
    simp [State.controlWork, State.thread, State.inWork, State.outWork, pc, queue,
      Action.forwards, Action.disturbs]
    omega
  | marketTest | marketRun | marketProcess | marketStop | marketContinue | marketTapeEnd
  | marketStopped =>
    simp [State.controlWork, State.thread, State.inWork, State.outWork,
      Action.forwards, Action.disturbs]

end Server

private theorem clientWork_moves {s s' : ClientState} {a : ClientAction} (own : a.isAnswer = false)
    (h : ClientMoves s a s') : s.sent <+: s'.sent ∧
      (if a.forwards then 1 else 0) + (26 * s'.ctrlQueue.length + 25 * s'.ctrlOut.held.length +
        24 * s'.sent.length) ≤
      26 * s.ctrlQueue.length + 25 * s.ctrlOut.held.length + 24 * s.sent.length +
        if SessionAction.disturbs (.client a) then 26 else 0 := by
  cases h with
  | answer => cases own
  | @send i call pc is =>
    have hheld : (if call.request.type = .shutdown then WorkerCtrlOutPc.finished
        else .take).held.length = 0 := by
      split <;> rfl
    have hone : s.ctrlOut.held.length = 1 := by rw [pc]; rfl
    refine ⟨List.prefix_append .., ?_⟩
    simp only [hheld, hone, ClientAction.forwards, SessionAction.disturbs, List.length_append,
      List.length_singleton, Bool.false_eq_true, if_false, if_true]
    omega
  | take pc queue =>
    refine ⟨List.prefix_refl _, ?_⟩
    simp [pc, queue, WorkerCtrlOutPc.held, ClientAction.forwards, SessionAction.disturbs]
    omega
  | add =>
    refine ⟨List.prefix_refl _, ?_⟩
    simp [ClientAction.forwards, SessionAction.disturbs]
    omega
  | _ => exact ⟨List.prefix_refl _, by simp [ClientAction.forwards, SessionAction.disturbs]⟩

section Session

variable {codec : RequestCodec} {tapeBasedir : Bytes} {s s' : Session} {a : SessionAction}

/-- A step that forwards is one of those that are left; a new call or a failed receive adds at
most 26. -/
private theorem work_step (h : sessionStep codec tapeBasedir s a = some s') :
    (if a.forwards then 1 else 0) + s'.work ≤ s.work + if a.disturbs then 26 else 0 := by
  cases sessionMoves_of_step h with
  | @client a client own stepped =>
    obtain ⟨hsent, hwork⟩ := clientWork_moves own (clientMoves_of_step stepped)
    have hsent := hsent.length_le
    change (if a.forwards then 1 else 0) + Session.work _ ≤ _
    simp only [Session.work]
    omega
  | @server a server other stepped =>
    have hwork := controlWork_moves (moves_of_step stepped)
    have hraised : (if a.disturbs then 23 else 0) ≤ if a.disturbs then 26 else 0 := by
      split <;> omega
    change (if a.forwards then 1 else 0) + Session.work _ ≤ _ + if a.disturbs then 26 else 0
    simp only [Session.work]
    omega
  | request next is stepped =>
    have hwork := controlWork_moves (moves_of_step stepped)
    have hlt := (List.getElem?_eq_some_iff.mp next).1
    simp only [Action.forwards, Action.disturbs, Bool.false_eq_true, if_false, if_true] at hwork
    simp only [Session.work, SessionAction.forwards, SessionAction.disturbs, Bool.false_eq_true,
      if_false, if_true]
    omega

variable {gBuffer : Memory} {buffer : Party → Memory} {as : List Action}

theorem SessionInv.received_eq (hs : SessionInv tapeBasedir gBuffer buffer as s) :
    s.received = s.server.cchanOut.length + s.server.outHand.length + s.server.inproc.length +
      s.server.inHand.length := by
  have hlog := congrArg List.length hs.control.responses
  have hrequests := congrArg List.length (controlLog_requests as)
  have hasked := hs.length_requests
  have hfifo := congrArg List.length hs.outInv.fifo
  have hreceived := hs.received
  simp only [Session.asked, List.length_map, List.length_append, List.length_take]
    at hlog hrequests hasked hfifo
  omega

private theorem inWork_le {s : State} (hs : ThreadsInv s) :
    s.inWork + (s.thread .cchanIn).pc.remaining ≤ 26 * s.inHand.length + 1 := by
  have hle := remaining_le (s.thread .cchanIn).pc
  have hidle : s.waiting .cchanIn = false → (s.thread .cchanIn).pc.remaining = 0 := by
    intro hwaiting
    rw [show (s.thread .cchanIn).pc = .idle from hs.calls .cchanIn hwaiting]
    rfl
  cases hpc : s.inPc <;>
    simp only [State.inWork, State.inHand, State.waiting, hpc, List.length_singleton,
      List.length_nil, forall_const] at hidle ⊢ <;>
    omega

private theorem outWork_le {s : State} (hs : ThreadsInv s) :
    s.outWork + (s.thread .cchanOut).pc.remaining ≤ 26 * s.outHand.length + 10 := by
  have hle := remaining_le (s.thread .cchanOut).pc
  have hidle : s.waiting .cchanOut = false → (s.thread .cchanOut).pc.remaining = 0 := by
    intro hwaiting
    rw [show (s.thread .cchanOut).pc = .idle from hs.calls .cchanOut hwaiting]
    rfl
  cases hpc : s.outPc <;>
    simp only [State.outWork, State.outHand, State.waiting, hpc, List.length_singleton,
      List.length_nil, forall_const] at hidle ⊢ <;>
    omega

theorem SessionInv.work_le (hs : SessionInv tapeBasedir gBuffer buffer as s) :
    s.work ≤ 26 * (s.queued.length - s.server.cchanOut.length) + 11 := by
  have hqueued := congrArg List.length hs.fifo
  have hreceived := hs.received_eq
  have hle := hs.received
  have hthreads := hs.control.threads
  have hin := inWork_le hthreads
  have hout := outWork_le hthreads
  simp only [ClientState.outgoing, List.length_append] at hqueued
  simp only [Session.work, State.controlWork]
  omega

end Session

def ClientState.StopsAfterShutdown (s : ClientState) : Prop :=
  s.ctrlOut = .finished → ∃ call ∈ s.calls, call.request.type = .shutdown

private theorem stopsAfterShutdown_moves {s s' : ClientState} {a : ClientAction}
    (hs : s.StopsAfterShutdown) (h : ClientMoves s a s') : s'.StopsAfterShutdown := by
  cases h with
  | call =>
    intro hfinished
    obtain ⟨call, hcall, hshutdown⟩ := hs hfinished
    exact ⟨call, List.mem_append_left _ hcall, hshutdown⟩
  | take => exact fun hfinished => WorkerCtrlOutPc.noConfusion hfinished
  | @send i call pc is =>
    intro hfinished
    refine ⟨call, List.mem_of_getElem? is, ?_⟩
    by_contra hlive
    simp [hlive] at hfinished
  | _ => exact hs

section Stuck

variable {codec : RequestCodec} {tapeBasedir : Bytes} {gBuffer : Memory} {buffer : Party → Memory}
variable {as : List Action} {s : Session}

theorem SessionInv.shutdown_called (hs : SessionInv tapeBasedir gBuffer buffer as s) {p : Pthread}
    (hfinished : s.server.Finished p) : ∃ call ∈ s.client.calls, call.request.type = .shutdown := by
  obtain ⟨req, hreq, htype⟩ := Option.map_eq_some_iff.mp (last_of_finished hs.server hfinished)
  obtain ⟨x, hx, rfl⟩ := List.mem_map.mp (List.mem_of_getLast? hreq)
  obtain ⟨k, hk⟩ := List.mem_iff_getElem?.mp (List.mem_of_mem_filter hx)
  obtain ⟨i, _, hi⟩ := hs.call_of_log hk
  obtain ⟨call, hcall, hrequest⟩ := Option.map_eq_some_iff.mp hi
  exact ⟨call, List.mem_of_getElem? hcall, hrequest ▸ htype⟩

def Session.Stuck (codec : RequestCodec) (tapeBasedir : Bytes) (s : Session) : Prop :=
  ∀ a, SessionAction.forwards a = true → sessionStep codec tapeBasedir s a = none

theorem Session.Stuck.client (hstuck : s.Stuck codec tapeBasedir) {a : ClientAction}
    (hforwards : a.forwards = true) : clientStep s.client a = none := by
  have hnone := hstuck (.client a) hforwards
  have hown : a.isAnswer = false := by
    cases a <;> first | rfl | cases hforwards
  simpa [sessionStep, hown] using hnone

theorem Session.Stuck.server (hstuck : s.Stuck codec tapeBasedir) {a : Action}
    (hforwards : a.forwards = true) : step tapeBasedir s.server a = none := by
  have hnone := hstuck (.server a) hforwards
  have hother : a.request = none := by
    cases a <;> first | rfl | cases hforwards
  simpa [sessionStep, hother] using hnone

private theorem ctrlOut_of_stuck (hs : SessionInv tapeBasedir gBuffer buffer as s)
    (hstuck : s.Stuck codec tapeBasedir) (hrunning : s.client.ctrlOut ≠ .finished) :
    s.client.ctrlOut = .take ∧ s.client.ctrlQueue = [] := by
  cases hpc : s.client.ctrlOut with
  | finished => exact absurd hpc hrunning
  | take =>
    have htake := hstuck.client (a := .take) rfl
    cases hqueue : s.client.ctrlQueue with
    | nil => exact ⟨rfl, rfl⟩
    | cons i rest => simp [clientStep, hpc, hqueue] at htake
  | send i =>
    have hsend := hstuck.client (a := .send) rfl
    have hqueued : i ∈ s.queued := by
      rw [hs.fifo]
      simp [ClientState.outgoing, hpc, WorkerCtrlOutPc.held]
    simp [clientStep, hpc, List.getElem?_eq_getElem (hs.lt_length hqueued)] at hsend

private theorem idle_of_stuck_of_unlocked (hstuck : s.Stuck codec tapeBasedir)
    (hlock : s.server.lazy.gLock = none) {p : Party} (hp : p = .cchanIn ∨ p = .cchanOut) :
    s.server.Idle p := by
  by_contra hbusy
  obtain ⟨l, ran⟩ := runThread_isSome hbusy (fun _ _ => hlock)
  have hlazy := hstuck.server (a := .lazy p) (by simpa [Action.forwards] using hp)
  simp [step, ran] at hlazy

private theorem inPc_of_stuck (hstuck : s.Stuck codec tapeBasedir) (hlock : s.server.lazy.gLock = none)
    (hrunning : s.server.inPc ≠ .finished) : s.server.inPc = .recv := by
  have hidle := idle_of_stuck_of_unlocked hstuck hlock (.inl rfl)
  have hpc : (s.server.lazy.threads .cchanIn).pc = .idle := hidle
  cases hin : s.server.inPc with
  | recv => rfl
  | finished => exact absurd hin hrunning
  | loop =>
    have hloop := hstuck.server (a := .inLoop) rfl
    simp [step, hin] at hloop
  | publish res =>
    have hpublish := hstuck.server (a := .inPublish) rfl
    simp [step, hin, lazyStep, hpc] at hpublish
  | push res =>
    have hpush := hstuck.server (a := .inPush) rfl
    simp [step, hin, hidle] at hpush

private theorem outPc_of_stuck (hstuck : s.Stuck codec tapeBasedir) (hlock : s.server.lazy.gLock = none)
    (hrunning : s.server.outPc ≠ .finished) : s.server.outPc = .recv ∧ s.server.inproc = [] := by
  have hidle := idle_of_stuck_of_unlocked hstuck hlock (.inr rfl)
  have hpc : (s.server.lazy.threads .cchanOut).pc = .idle := hidle
  cases hout : s.server.outPc with
  | finished => exact absurd hout hrunning
  | read =>
    have hread := hstuck.server (a := .outRead) rfl
    simp [step, hout, lazyStep, hpc] at hread
  | test =>
    have htest := hstuck.server (a := .outTest) rfl
    simp [step, hout, hidle] at htest
  | send res =>
    have hsend := hstuck.server (a := .outSend) rfl
    simp [step, hout] at hsend
  | recv =>
    have hrecv := hstuck.server (a := .outRecv true) rfl
    cases hqueue : s.server.inproc with
    | nil => exact ⟨rfl, rfl⟩
    | cons res inproc => simp [step, hout, hqueue] at hrecv

private theorem received_of_stuck (hs : SessionInv tapeBasedir gBuffer buffer as s)
    (hstuck : s.Stuck codec tapeBasedir) (hlock : s.server.lazy.gLock = none)
    (hpc : s.server.inPc = .recv) : s.received = s.client.sent.length := by
  have hidle : (s.server.lazy.threads .cchanIn).pc = .idle :=
    idle_of_stuck_of_unlocked hstuck hlock (.inl rfl)
  refine le_antisymm hs.received (Nat.not_lt.mp fun hlt => ?_)
  have hqueued : s.client.sent[s.received] ∈ s.queued := by
    rw [hs.fifo]
    simp [ClientState.outgoing]
  have hcalls := hs.lt_length hqueued
  have hrequest := hstuck (.request 0) rfl
  simp only [sessionStep, Session.frame, Session.request, List.getElem?_eq_getElem hlt,
    List.getElem?_eq_getElem hcalls, Option.map_eq_none_iff, Option.map_some, Option.bind_some,
    step, hpc] at hrequest
  split at hrequest <;> simp [lazyStep, hidle] at hrequest

theorem SessionInv.requestIds (hs : SessionInv tapeBasedir gBuffer buffer as s)
    (hall : s.server.cchanOut.length = s.asked.length) :
    s.server.cchanOut.map (fun res => some res.requestId) =
      s.asked.map fun i => (s.request i).map Request.requestId := by
  refine List.ext_getElem (by simpa using hall) fun k hk hk' => ?_
  simp only [List.length_map] at hk hk'
  obtain ⟨i, call, hi, hcall, hid⟩ := hs.call_of_cchanOut (List.getElem?_eq_getElem hk)
  obtain rfl : s.asked[k] = i := Option.some.inj ((List.getElem?_eq_getElem hk').symm.trans hi)
  simp [Session.request, hcall, hid]

private theorem answered_of_stuck (hs : SessionInv tapeBasedir gBuffer buffer as s)
    (hworker : s.client.StopsAfterShutdown)
    (hlive : ∀ call ∈ s.client.calls, call.request.type ≠ .shutdown)
    (hlock : s.server.lazy.gLock = none) (hstuck : s.Stuck codec tapeBasedir) :
    s.asked = s.queued ∧ s.server.cchanOut.map (fun res => some res.requestId) =
      s.queued.map fun i => (s.request i).map Request.requestId := by
  have hno : ¬ ∃ call ∈ s.client.calls, call.request.type = .shutdown := by
    rintro ⟨call, hcall, hshutdown⟩
    exact hlive call hcall hshutdown
  obtain ⟨hctrlOut, hctrlQueue⟩ := ctrlOut_of_stuck hs hstuck (fun h => hno (hworker h))
  have hin := inPc_of_stuck hstuck hlock (fun h => hno (hs.shutdown_called (p := .cchanIn) h))
  obtain ⟨hout, hinproc⟩ := outPc_of_stuck hstuck hlock
    (fun h => hno (hs.shutdown_called (p := .cchanOut) h))
  have hreceived := received_of_stuck hs hstuck hlock hin
  have hasked : s.asked = s.queued := by
    rw [hs.fifo, Session.asked, hreceived, List.take_length]
    simp [ClientState.outgoing, hctrlOut, hctrlQueue, WorkerCtrlOutPc.held]
  have hall : s.server.cchanOut.length = s.asked.length := by
    have heq := hs.received_eq
    simp only [State.outHand, State.inHand, hout, hin, hinproc, List.length_nil] at heq
    rw [Session.asked, hreceived, List.take_length]
    omega
  exact ⟨hasked, hasked ▸ hs.requestIds hall⟩

end Stuck

/-- Every call is answered. Each call without its response leaves at most 26 steps to the
worker that sends and to the control threads, as does each new call and each receive that
fails; and when none of them can take a step, while nobody holds the lock, the responses of all
calls that have been queued have left on `cchan_out`, unless a shutdown has been called. -/
theorem every_call_is_answered (codec : RequestCodec) (tapeBasedir : Bytes) (gBuffer : Memory)
    (buffer : Party → Memory) (as : List SessionAction) (s : Session)
    (run : Run (sessionStep codec tapeBasedir) (RequestsFit tapeBasedir)
      (sessionInitial gBuffer buffer) as s)
    (bs : List SessionAction) (t : Session)
    (later : Run (sessionStep codec tapeBasedir) (RequestsFit tapeBasedir) s bs t) :
    bs.countP SessionAction.forwards ≤
      26 * (s.queued.length - s.server.cchanOut.length) + 11 +
        26 * bs.countP SessionAction.disturbs ∧
    ((∀ call ∈ t.client.calls, call.request.type ≠ .shutdown) → t.server.lazy.gLock = none →
      t.Stuck codec tapeBasedir →
      t.asked = t.queued ∧ t.server.cchanOut.map (fun res => some res.requestId) =
        t.queued.map fun i => (t.request i).map Request.requestId) := by
  obtain ⟨cs, hs⟩ := sessionOk_of_run run
  obtain ⟨ds, ht⟩ := sessionOk_of_run (run.trans later)
  have hworker : t.client.StopsAfterShutdown := by
    refine (run.trans later).invariant (fun u => u.client.StopsAfterShutdown)
      (fun h => WorkerCtrlOutPc.noConfusion h) ?_
    intro u a v hu _ moved
    cases sessionMoves_of_step moved with
    | client own stepped => exact stopsAfterShutdown_moves hu (clientMoves_of_step stepped)
    | server | request => exact hu
  refine ⟨?_, fun hlive hlock hstuck => answered_of_stuck ht hworker hlive hlock hstuck⟩
  have hcount := later.countP_add_le_of_raises SessionAction.forwards SessionAction.disturbs 26
    Session.work (fun _ _ _ _ moved => work_step moved)
  have hwork := hs.work_le
  omega

structure Session.Waiting (s : Session) : Prop where
  ctrlOut : s.client.ctrlOut = .take ∧ s.client.ctrlQueue = []
  inPc : s.server.inPc = .recv ∧ s.server.Idle .cchanIn
  outPc : s.server.outPc = .recv ∧ s.server.Idle .cchanOut
  inproc : s.server.inproc = []
  received : s.received = s.client.sent.length

instance (s : Session) : Decidable s.Waiting :=
  decidable_of_iff (_ ∧ _ ∧ _ ∧ _ ∧ _)
    ⟨fun ⟨h₁, h₂, h₃, h₄, h₅⟩ => ⟨h₁, h₂, h₃, h₄, h₅⟩,
      fun h => ⟨h.ctrlOut, h.inPc, h.outPc, h.inproc, h.received⟩⟩

theorem Session.Waiting.stuck {codec : RequestCodec} {tapeBasedir : Bytes} {s : Session}
    (hs : s.Waiting) : s.Stuck codec tapeBasedir := by
  obtain ⟨⟨hctrlOut, hctrlQueue⟩, ⟨hin, hidle⟩, ⟨hout, hidle'⟩, hinproc, hreceived⟩ := hs
  have hpc : (s.server.lazy.threads .cchanIn).pc = .idle := hidle
  have hpc' : (s.server.lazy.threads .cchanOut).pc = .idle := hidle'
  intro a hforwards
  cases a with
  | request => simp [sessionStep, Session.frame, hreceived]
  | client a =>
    cases a with
    | take | send =>
      simp [sessionStep, ClientAction.isAnswer, clientStep, hctrlOut, hctrlQueue]
    | _ => cases hforwards
  | server a =>
    have hstep : step tapeBasedir s.server a = none := by
      cases a with
      | lazy p =>
        rcases of_decide_eq_true hforwards with rfl | rfl
        · simp [step, runThread, hpc]
        · simp [step, runThread, hpc']
      | inLoop | inPublish | inPush => simp [step, hin]
      | outRead | outTest | outSend => simp [step, hout]
      | outRecv received =>
        obtain rfl : received = true := hforwards
        simp [step, hout, hinproc]
      | _ => cases hforwards
    simp [sessionStep, hstep]

/-- A call of stop up to the queue, and what follows until all wait for more. -/
def queueStop : List SessionAction :=
  [.call .stop (some 4) 5, .setResponseProcessor 0, .addRequest 0].map .client

def answerStop : List SessionAction :=
  [.client .take, .client .send] ++ serveNext ++
    [.inLoop, .outRead, .lazy .cchanOut, .lazy .cchanOut, .outTest].map .server

theorem every_call_is_answered_stop : ∃ s t : Session,
    Run (sessionStep wireCodec []) (RequestsFit []) (sessionInitial (fun _ => 0) (fun _ _ => 0))
      queueStop s ∧
    Run (sessionStep wireCodec []) (RequestsFit []) s answerStop t ∧
    s.queued = [0] ∧ answerStop.countP SessionAction.forwards ≤ 26 * 1 + 11 ∧
    t.server.cchanOut.map (fun res => some res.requestId) = [some 5] := by
  obtain ⟨s, t, run, later, h⟩ := exists_runs_of_foldlM_map (sessionStep wireCodec [])
    (RequestsFit []) (RequestsFit []) (sessionInitial (fun _ => 0) (fun _ _ => 0))
    queueStop answerStop
    (fun s t => (s.queued, s.server.cchanOut.length,
      t.queued.map (fun i => (t.request i).map Request.requestId),
      decide (t.Waiting ∧ t.server.lazy.gLock = none ∧
        ∀ call ∈ t.client.calls, call.request.type ≠ .shutdown)))
    (b := ([0], 0, [some 5], true)) (by decide +kernel)
  simp only [Prod.mk.injEq] at h
  obtain ⟨hqueued, hsent, hids, hend⟩ := h
  obtain ⟨hwaiting, hlock, hlive⟩ := of_decide_eq_true hend
  have hanswered := every_call_is_answered wireCodec [] _ _ _ s run _ t later
  rw [hqueued, hsent, hids] at hanswered
  exact ⟨s, t, run, later, hqueued, hanswered.1, (hanswered.2 hlive hlock hwaiting.stuck).2⟩

end Wineing
