import Wineing.ResourceLedger
import Wineing.WineingThreads

/-!
# The process: sockets, buffers and the life of the threads

Around the loops of the three threads: their initialisation and clean-up with the sockets
of their chans, and the message buffers that the loops allocate and hand over to ZMQ.
Binds, connects, receives and sends may fail. A connect to the inproc endpoint succeeds
only while its peer is bound.
-/

namespace Wineing
open CStringMemory GuardedRuns ResourceLedger

inductive Pthread
  | cchanIn
  | cchanOut
  | market
  deriving DecidableEq

inductive Chan
  | cchanIn
  | cchanInOutInmem
  | cchanOut
  | cchanInMem
  | mchan
  | marketOutInmem
  deriving DecidableEq

inductive ChanType
  | pub
  | pullBind
  | pushConnect
  deriving DecidableEq

def Chan.type : Chan → ChanType
  | cchanIn | cchanInMem => .pullBind
  | cchanOut | mchan => .pub
  | cchanInOutInmem | marketOutInmem => .pushConnect

namespace Pthread

def firstChan : Pthread → Chan
  | cchanIn => .cchanIn
  | cchanOut => .cchanOut
  | market => .mchan

def secondChan : Pthread → Chan
  | cchanIn => .cchanInOutInmem
  | cchanOut => .cchanInMem
  | market => .marketOutInmem

/-- The two calls of `chan_destroy`, in their order. -/
def destroyed : Pthread → Chan × Chan
  | cchanIn => (.cchanIn, .cchanInOutInmem)
  | cchanOut => (.cchanInMem, .cchanOut)
  | market => (.mchan, .marketOutInmem)

end Pthread

/-- Where a thread stands: before its first statement, at its first and second `chan_bind`,
in its loop, between its calls of `chan_destroy`, or joined. -/
inductive Life
  | created
  | bindFirst
  | bindSecond
  | looping
  | destroySecond
  | returned
  deriving DecidableEq

structure Sockets where
  handles : Ledger
  sock : Chan → Option ℕ

namespace Sockets

/-- `c->sock = zmq_socket(..)`; whether it fails is given. -/
def socket (s : Sockets) (c : Chan) (created : Bool) : Sockets :=
  if created then ⟨s.handles.acquire, Function.update s.sock c (some s.handles.next)⟩
  else ⟨s.handles, Function.update s.sock c none⟩

def close (s : Sockets) (c : Chan) : Sockets :=
  match s.sock c with
  | some h => { s with handles := s.handles.release h }
  | none => s

@[simp] theorem close_sock (s : Sockets) (c : Chan) : (s.close c).sock = s.sock := by
  unfold close
  split <;> rfl

theorem close_handles {s : Sockets} {c : Chan} {h : ℕ} (hc : s.sock c = some h) :
    (s.close c).handles = s.handles.release h := by
  simp [close, hc]

theorem socket_handles (s : Sockets) (c : Chan) (created : Bool) :
    (s.socket c created).handles = if created then s.handles.acquire else s.handles := by
  cases created <;> rfl

end Sockets

/-- The message buffers: those not deleted, the one a thread works on, and those that ZMQ
has been given, with whether it was given a free function. -/
structure Buffers where
  allocated : Ledger
  held : Pthread → Option ℕ
  inFlight : List (ℕ × Bool)

inductive BufferOp
  | new (p : Pthread)
  | fill (p : Pthread)
  | send (p : Pthread) (freeFn : Bool)
  | forget (p : Pthread)
  | done (buffer : ℕ) (freeFn : Bool)
  deriving DecidableEq

/-- `fill` writes to a buffer. A thread forgets its buffer where it goes on without having
handed it over. `done` is ZMQ's end of a message; it calls the free function, if any. -/
def Buffers.apply (b : Buffers) : BufferOp → Option Buffers
  | .new p =>
    if b.held p = none then some { b with
      allocated := b.allocated.acquire
      held := Function.update b.held p (some b.allocated.next) }
    else none
  | .fill p => if (b.held p).isSome then some b else none
  | .send p freeFn => (b.held p).map fun r =>
      { b with held := Function.update b.held p none, inFlight := b.inFlight ++ [(r, freeFn)] }
  | .forget p => (b.held p).map fun _ => { b with held := Function.update b.held p none }
  | .done r freeFn =>
    if (r, freeFn) ∈ b.inFlight then some { b with
      allocated := if freeFn then b.allocated.release r else b.allocated
      inFlight := b.inFlight.erase (r, freeFn) }
    else none

structure Process where
  threads : State
  life : Pthread → Life
  inprocBound : Bool
  sockets : Sockets
  buffers : Buffers

/-- `bind` is a call of `chan_bind`, given whether `zmq_socket` and the bind or connect
succeed, `send` fails where `chan_send` returns -1. -/
inductive ProcessAction
  | start (p : Pthread)
  | bind (p : Pthread) (created bound : Bool)
  | run (a : Action)
  | newBuffer (p : Pthread)
  | sendFails (p : Pthread)
  | zmqDone (buffer : ℕ) (freeFn : Bool)
  | destroy (p : Pthread)

def Action.pthread : Action → Pthread
  | .lazy .cchanIn | .inLoop | .inRecv _ _ | .inPublish | .inPush => .cchanIn
  | .lazy .cchanOut | .outRead | .outTest | .outRecv _ | .outSend => .cchanOut
  | _ => .market

def State.bufferOp (s : State) : Action → Option BufferOp
  | .inPush => some (.send .cchanIn true)
  | .outRecv true => some (.fill .cchanOut)
  | .outRecv false => some (.forget .cchanOut)
  | .outSend => some (.send .cchanOut true)
  | .marketProcess => if s.marketPc = .process .status then some (.send .market false) else none
  | _ => none

/-- The thread is where it allocates a buffer. -/
def State.AllocatesBuffer (s : State) : Pthread → Prop
  | .cchanIn => s.waiting .cchanIn = true ∧ s.Idle .cchanIn
  | .cchanOut => s.outPc = .recv
  | .market => s.marketPc = .process .status ∧ s.Idle .callback

instance (s : State) : (p : Pthread) → Decidable (s.AllocatesBuffer p)
  | .cchanIn => inferInstanceAs (Decidable (_ ∧ _))
  | .cchanOut => inferInstanceAs (Decidable (_ = _))
  | .market => inferInstanceAs (Decidable (_ ∧ _))

/-- The loops go on after a failed send. -/
def State.sendFails (s : State) : Pthread → Option State
  | .cchanIn =>
    match s.inPc with
    | .push _ => if s.Idle .cchanIn then some { s with inPc := .loop } else none
    | _ => none
  | .cchanOut =>
    match s.outPc with
    | .send _ => some { s with outPc := .read }
    | _ => none
  | .market =>
    match s.marketPc with
    | .process .status =>
      if s.Idle .callback then some { s with marketPc := .callbackReturn } else none
    | _ => none

theorem State.sendFails_cases {s s' : State} {p : Pthread} (h : s.sendFails p = some s') :
    (p = .cchanIn ∧ s' = { s with inPc := .loop }) ∨
    (p = .cchanOut ∧ s' = { s with outPc := .read }) ∨
    (p = .market ∧ s' = { s with marketPc := .callbackReturn }) := by
  cases p with
  | cchanIn =>
    cases hpc : s.inPc <;>
      simp only [sendFails, hpc, Option.ite_none_right_eq_some, Option.some.injEq, reduceCtorEq] at h
    exact .inl ⟨rfl, h.2.symm⟩
  | cchanOut =>
    cases hpc : s.outPc <;> simp only [sendFails, hpc, Option.some.injEq, reduceCtorEq] at h
    exact .inr (.inl ⟨rfl, h.symm⟩)
  | market =>
    cases hpc : s.marketPc with
    | process message =>
      cases message <;> simp only [sendFails, hpc, Option.ite_none_right_eq_some, Option.some.injEq,
        reduceCtorEq] at h
      exact .inr (.inr ⟨rfl, h.2.symm⟩)
    | _ => simp [sendFails, hpc] at h

def State.Finished (s : State) : Pthread → Prop
  | .cchanIn => s.inPc = .finished
  | .cchanOut => s.outPc = .finished
  | .market => s.marketPc = .finished

instance (s : State) : (p : Pthread) → Decidable (s.Finished p)
  | .cchanIn => inferInstanceAs (Decidable (_ = _))
  | .cchanOut => inferInstanceAs (Decidable (_ = _))
  | .market => inferInstanceAs (Decidable (_ = _))

namespace Process

def setLife (s : Process) (p : Pthread) (life : Life) : Process :=
  { s with life := Function.update s.life p life }

/-- No `chan_bind` binds or connects what `zmq_socket` did not create, and only a bound
inproc endpoint is connected to. -/
def CanBind (s : Process) (c : Chan) (created bound : Bool) : Prop :=
  bound = true → created = true ∧ (c.type = .pushConnect → s.inprocBound = true)

instance (s : Process) (c : Chan) (created bound : Bool) : Decidable (s.CanBind c created bound) :=
  inferInstanceAs (Decidable (_ → _ ∧ (_ → _)))

/-- `chan_bind(c)`, after which the thread goes on as given. -/
def chanBind (s : Process) (p : Pthread) (c : Chan) (created bound : Bool) (life : Life) :
    Process :=
  { s with
    sockets := s.sockets.socket c created
    inprocBound := if c = .cchanInMem then bound else s.inprocBound
    life := Function.update s.life p life }

/-- `chan_destroy(c)`, after which the thread goes on as given. -/
def chanDestroy (s : Process) (p : Pthread) (c : Chan) (life : Life) : Process :=
  { s with
    sockets := s.sockets.close c
    inprocBound := if c = .cchanInMem then false else s.inprocBound
    life := Function.update s.life p life }

end Process

/-- A failed first bind ends a thread. A failed second one ends `cchan_out_thread`; the
others try again. -/
def lifeAfterBind (p : Pthread) (first bound : Bool) : Life :=
  match bound, first with
  | true, true => .bindSecond
  | true, false => .looping
  | false, true => .returned
  | false, false => if p = .cchanOut then .returned else .bindSecond

def processStep (tapeBasedir : Bytes) (s : Process) : ProcessAction → Option Process
  | .start p => if s.life p = .created then some (s.setLife p .bindFirst) else none
  | .bind p created bound =>
    match s.life p with
    | .bindFirst =>
      if s.CanBind p.firstChan created bound then
        some (s.chanBind p p.firstChan created bound (lifeAfterBind p true bound))
      else none
    | .bindSecond =>
      if s.CanBind p.secondChan created bound then
        some (s.chanBind p p.secondChan created bound (lifeAfterBind p false bound))
      else none
    | _ => none
  | .run a =>
    if s.life a.pthread = .looping then
      (step tapeBasedir s.threads a).bind fun threads =>
        match s.threads.bufferOp a with
        | none => some { s with threads }
        | some op => (s.buffers.apply op).map fun buffers => { s with threads, buffers }
    else none
  | .newBuffer p =>
    if s.life p = .looping ∧ s.threads.AllocatesBuffer p then
      (s.buffers.apply (.new p)).map fun buffers => { s with buffers }
    else none
  | .sendFails p =>
    if s.life p = .looping then
      (s.threads.sendFails p).bind fun threads =>
        (s.buffers.apply (.forget p)).map fun buffers => { s with threads, buffers }
    else none
  | .zmqDone r freeFn => (s.buffers.apply (.done r freeFn)).map fun buffers => { s with buffers }
  | .destroy p =>
    match s.life p with
    | .looping =>
      if s.threads.Finished p then some (s.chanDestroy p p.destroyed.1 .destroySecond) else none
    | .destroySecond => some (s.chanDestroy p p.destroyed.2 .returned)
    | _ => none

def processInitial (gBuffer : Memory) (buffer : Party → Memory) : Process where
  threads := initial gBuffer buffer
  life _ := .created
  inprocBound := false
  sockets := ⟨.empty, fun _ => none⟩
  buffers := ⟨.empty, fun _ => none, []⟩

/-- The steps in which the control thread serves a request, with the buffer of its response. -/
def serveRequest (req : Request) (fileExists : ℤ) : List ProcessAction :=
  (serve req fileExists).dropLast.map .run ++ [.newBuffer .cchanIn, .run .inPush]

def Process.Joined (s : Process) : Prop := ∀ p, s.life p = .returned

section Steps

variable {tapeBasedir : Bytes} {s s' : Process}

theorem processStep_bind {p : Pthread} {created bound : Bool}
    (h : processStep tapeBasedir s (.bind p created bound) = some s') :
    ∃ first : Bool, s.life p = (if first then .bindFirst else .bindSecond) ∧
      s.CanBind (if first then p.firstChan else p.secondChan) created bound ∧
      s' = s.chanBind p (if first then p.firstChan else p.secondChan) created bound
        (lifeAfterBind p first bound) := by
  cases hlife : s.life p with
  | bindFirst =>
    simp only [processStep, hlife, Option.ite_none_right_eq_some, Option.some.injEq] at h
    exact ⟨true, rfl, h.1, h.2.symm⟩
  | bindSecond =>
    simp only [processStep, hlife, Option.ite_none_right_eq_some, Option.some.injEq] at h
    exact ⟨false, rfl, h.1, h.2.symm⟩
  | created | looping | destroySecond | returned => simp [processStep, hlife] at h

theorem processStep_destroy {p : Pthread} (h : processStep tapeBasedir s (.destroy p) = some s') :
    (s.life p = .looping ∧ s' = s.chanDestroy p p.destroyed.1 .destroySecond) ∨
    (s.life p = .destroySecond ∧ s' = s.chanDestroy p p.destroyed.2 .returned) := by
  cases hlife : s.life p with
  | looping =>
    simp only [processStep, hlife, Option.ite_none_right_eq_some, Option.some.injEq] at h
    exact .inl ⟨rfl, h.2.symm⟩
  | destroySecond =>
    simp only [processStep, hlife, Option.some.injEq] at h
    exact .inr ⟨rfl, h.symm⟩
  | created | bindFirst | bindSecond | returned => simp [processStep, hlife] at h

theorem processStep_start {p : Pthread} (h : processStep tapeBasedir s (.start p) = some s') :
    s.life p = .created ∧ s' = s.setLife p .bindFirst := by
  simp only [processStep, Option.ite_none_right_eq_some, Option.some.injEq] at h
  exact ⟨h.1, h.2.symm⟩

/-- A step of a loop works on the thread's buffer where it says so. -/
theorem processStep_run {a : Action} (h : processStep tapeBasedir s (.run a) = some s') :
    ∃ threads buffers, step tapeBasedir s.threads a = some threads ∧
      (s.threads.bufferOp a).elim (buffers = s.buffers) (s.buffers.apply · = some buffers) ∧
      s' = { s with threads, buffers } := by
  simp only [processStep, Option.ite_none_right_eq_some, Option.bind_eq_some_iff] at h
  obtain ⟨_, threads, hstep, h⟩ := h
  cases hop : s.threads.bufferOp a with
  | none =>
    simp only [hop, Option.some.injEq] at h
    exact ⟨threads, s.buffers, hstep, rfl, h.symm⟩
  | some op =>
    simp only [hop] at h
    obtain ⟨buffers, happly, rfl⟩ := Option.map_eq_some_iff.mp h
    exact ⟨threads, buffers, hstep, happly, rfl⟩

theorem processStep_newBuffer {p : Pthread}
    (h : processStep tapeBasedir s (.newBuffer p) = some s') :
    s.threads.AllocatesBuffer p ∧
      ∃ buffers, s.buffers.apply (.new p) = some buffers ∧ s' = { s with buffers } := by
  simp only [processStep, Option.ite_none_right_eq_some] at h
  obtain ⟨buffers, happly, rfl⟩ := Option.map_eq_some_iff.mp h.2
  exact ⟨h.1.2, buffers, happly, rfl⟩

theorem processStep_sendFails {p : Pthread}
    (h : processStep tapeBasedir s (.sendFails p) = some s') :
    ∃ threads buffers, s.threads.sendFails p = some threads ∧
      s.buffers.apply (.forget p) = some buffers ∧ s' = { s with threads, buffers } := by
  simp only [processStep, Option.ite_none_right_eq_some, Option.bind_eq_some_iff] at h
  obtain ⟨_, threads, hfails, h⟩ := h
  obtain ⟨buffers, happly, rfl⟩ := Option.map_eq_some_iff.mp h
  exact ⟨threads, buffers, hfails, happly, rfl⟩

theorem processStep_zmqDone {r : ℕ} {freeFn : Bool}
    (h : processStep tapeBasedir s (.zmqDone r freeFn) = some s') :
    ∃ buffers, s.buffers.apply (.done r freeFn) = some buffers ∧ s' = { s with buffers } := by
  obtain ⟨buffers, happly, rfl⟩ := Option.map_eq_some_iff.mp h
  exact ⟨buffers, happly, rfl⟩

/-- What a step of the process does in the loops. -/
def State.processStep (tapeBasedir : Bytes) (s : State) : ProcessAction → Option State
  | .run a => step tapeBasedir s a
  | .sendFails p => s.sendFails p
  | _ => some s

theorem threads_of_processStep {a : ProcessAction} (h : processStep tapeBasedir s a = some s') :
    s.threads.processStep tapeBasedir a = some s'.threads := by
  cases a with
  | start p =>
    obtain ⟨_, rfl⟩ := processStep_start h
    rfl
  | bind p created bound =>
    obtain ⟨first, _, _, rfl⟩ := processStep_bind h
    rfl
  | run b =>
    obtain ⟨threads, buffers, hstep, _, rfl⟩ := processStep_run h
    exact hstep
  | newBuffer p =>
    obtain ⟨_, buffers, _, rfl⟩ := processStep_newBuffer h
    rfl
  | sendFails p =>
    obtain ⟨threads, buffers, hfails, _, rfl⟩ := processStep_sendFails h
    exact hfails
  | zmqDone r freeFn =>
    obtain ⟨buffers, _, rfl⟩ := processStep_zmqDone h
    rfl
  | destroy p => rcases processStep_destroy h with ⟨_, rfl⟩ | ⟨_, rfl⟩ <;> rfl

/-- What a step of the process does with the message buffers. -/
def Process.bufferOp (s : Process) : ProcessAction → Option BufferOp
  | .run a => s.threads.bufferOp a
  | .newBuffer p => some (.new p)
  | .sendFails p => some (.forget p)
  | .zmqDone r freeFn => some (.done r freeFn)
  | _ => none

theorem buffers_of_processStep {a : ProcessAction} (h : processStep tapeBasedir s a = some s') :
    match s.bufferOp a with
    | none => s'.buffers = s.buffers
    | some op => s.buffers.apply op = some s'.buffers := by
  cases a with
  | start p =>
    obtain ⟨_, rfl⟩ := processStep_start h
    rfl
  | bind p created bound =>
    obtain ⟨first, _, _, rfl⟩ := processStep_bind h
    rfl
  | run b =>
    obtain ⟨threads, buffers, _, hbuffers, rfl⟩ := processStep_run h
    cases hop : s.threads.bufferOp b <;> simpa [Process.bufferOp, hop] using hbuffers
  | newBuffer p =>
    obtain ⟨_, buffers, happly, rfl⟩ := processStep_newBuffer h
    exact happly
  | sendFails p =>
    obtain ⟨threads, buffers, _, happly, rfl⟩ := processStep_sendFails h
    exact happly
  | zmqDone r freeFn =>
    obtain ⟨buffers, happly, rfl⟩ := processStep_zmqDone h
    exact happly
  | destroy p => rcases processStep_destroy h with ⟨_, rfl⟩ | ⟨_, rfl⟩ <;> rfl

/-- The steps that open or close a socket. -/
def ProcessAction.opensOrCloses : ProcessAction → Bool
  | .bind _ _ _ | .destroy _ => true
  | _ => false

theorem sockets_of_processStep {a : ProcessAction} (h : processStep tapeBasedir s a = some s')
    (ha : a.opensOrCloses = false) :
    s'.sockets = s.sockets ∧ (s'.life = s.life ∨ ∃ p, a = .start p ∧ s.life p = .created ∧
      s' = s.setLife p .bindFirst) := by
  cases a with
  | bind p created bound | destroy p => cases ha
  | start p =>
    obtain ⟨hcreated, rfl⟩ := processStep_start h
    exact ⟨rfl, .inr ⟨p, rfl, hcreated, rfl⟩⟩
  | run a =>
    obtain ⟨threads, buffers, _, _, rfl⟩ := processStep_run h
    exact ⟨rfl, .inl rfl⟩
  | newBuffer p =>
    obtain ⟨_, buffers, _, rfl⟩ := processStep_newBuffer h
    exact ⟨rfl, .inl rfl⟩
  | sendFails p =>
    obtain ⟨threads, buffers, _, _, rfl⟩ := processStep_sendFails h
    exact ⟨rfl, .inl rfl⟩
  | zmqDone r freeFn =>
    obtain ⟨buffers, _, rfl⟩ := processStep_zmqDone h
    exact ⟨rfl, .inl rfl⟩

end Steps

end Wineing
