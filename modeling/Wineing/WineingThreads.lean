import Wineing.ControlProtocol
import Wineing.LazyAtomicRegister

/-!
# The threads of `wineing_run`

`cchan_in_thread`, `cchan_out_thread`, `market_thread` and the NxCore callback
`nxtape_process` over the lazily versioned record, the inproc queue of responses and
the two outgoing channels, in any interleaving. Binds and sends succeed and the inproc
queue is a reliable FIFO; a receive may fail. NxCore calls back only inside
`wininf_nxcore_run`, on the thread that is in it, and not again after a callback that
returned `NxCALLBACKRETURN_STOP`.
-/

namespace Wineing
open CStringMemory GuardedRuns

/-- The owners of a `t_version` and a `t_data`. The callback keeps its own, although
`market_thread` runs it. -/
inductive Party
  | cchanIn
  | cchanOut
  | market
  | callback
  deriving DecidableEq

inductive CchanInPc
  | loop
  | recv
  | publish (res : Response)
  | push (res : Response)
  | finished
  deriving DecidableEq

inductive CchanOutPc
  | read
  | test
  | recv
  | send (res : Response)
  | finished
  deriving DecidableEq

inductive NxMessage
  | status
  | other
  deriving DecidableEq

/-- From `running` to `stopping` the thread is inside `wininf_nxcore_run`. -/
inductive MarketPc
  | read
  | test
  | nxRun
  | running
  | process (message : NxMessage)
  | callbackReturn
  | stopping
  | finished
  deriving DecidableEq

inductive MarketData
  | status
  deriving DecidableEq

/-- `pushed` records what was pushed to the inproc queue, oldest first. No step reads it. -/
structure State where
  lazy : LazyState ℤ Party
  inPc : CchanInPc
  outPc : CchanOutPc
  marketPc : MarketPc
  inproc : List Response
  pushed : List Response
  cchanOut : List Response
  mchan : List MarketData

/-- `lazy` is the next access of a call that is under way. A receive is given what
arrives, and a request also the answer of `wininf_file_exists`; `marketRun` is given
whether `sNxCoreProcessTape` was found. -/
inductive Action
  | lazy (p : Party)
  | inLoop
  | inRecv (message : Option Frame) (fileExists : ℤ)
  | inPublish
  | inPush
  | outRead
  | outTest
  | outRecv (received : Bool)
  | outSend
  | marketRead
  | marketTest
  | marketRun (loaded : Bool)
  | marketCallback (message : NxMessage)
  | marketProcess
  | marketCallbackReturn
  | marketReturn

namespace State

def thread (s : State) (p : Party) : LazyThread ℤ := s.lazy.threads p

def cmd (s : State) (p : Party) : ℤ := (s.thread p).tData.cmd

def Idle (s : State) (p : Party) : Prop := (s.thread p).pc = .idle

instance (s : State) (p : Party) : Decidable (s.Idle p) := inferInstanceAs (Decidable (_ = _))

end State

/-- All records have `WINEING_CTRL_CMD_INIT` and no bytes in use. Their buffers come from
`new char[]` and may hold anything. -/
def initial (gBuffer : Memory) (buffer : Party → Memory) : State where
  lazy := singleWriterInitial .cchanIn ⟨wineingCtrlCmdInit, gBuffer, 0⟩
    (fun p => ⟨wineingCtrlCmdInit, buffer p, 0⟩)
  inPc := .loop
  outPc := .read
  marketPc := .read
  inproc := []
  pushed := []
  cchanOut := []
  mchan := []

/-- Where the inner loop of `market_thread` goes on from its tests of `t_data.cmd`. -/
def marketNext (cmd : ℤ) : MarketPc :=
  if cmd = wineingCtrlCmdMarketStop then .read
  else if cmd = wineingCtrlCmdShutdown then .finished
  else if cmd = wineingCtrlCmdMarketRun then .nxRun
  else .read

theorem marketNext_cases (cmd : ℤ) :
    marketNext cmd = .read ∨ marketNext cmd = .finished ∨ marketNext cmd = .nxRun := by
  unfold marketNext
  split_ifs <;> simp

/-- What `nxtape_process` sends on `mchan` for a message. -/
def marketData : NxMessage → List MarketData
  | .status => [.status]
  | .other => []

/-- A step of the thread the action names, none where it is blocked or elsewhere. -/
def step (tapeBasedir : Bytes) (s : State) : Action → Option State
  | .lazy p => (runThread s.lazy p).map fun l => { s with lazy := l }
  | .inLoop =>
    match s.inPc with
    | .loop => some { s with
        inPc := if wineingCtrlCmdShutdown < s.cmd .cchanIn then .recv else .finished }
    | _ => none
  | .inRecv message fileExists =>
    match s.inPc with
    | .recv =>
      match receivedRequest message with
      | none => some { s with inPc := .loop }
      | some req =>
        let t := s.thread .cchanIn
        let out := cchanInSwitch tapeBasedir t.tData req fileExists
        (lazyStep s.lazy (.assign .cchanIn t.tVersion out.tData)).map fun l =>
          { s with lazy := l, inPc := if out.publish then .publish out.res else .push out.res }
    | _ => none
  | .inPublish =>
    match s.inPc with
    | .publish res => (lazyStep s.lazy (.call .cchanIn .updateGlobalIfOwner)).map fun l =>
        { s with lazy := l, inPc := .push res }
    | _ => none
  | .inPush =>
    match s.inPc with
    | .push res =>
      if s.Idle .cchanIn then
        some { s with inPc := .loop, inproc := s.inproc ++ [res], pushed := s.pushed ++ [res] }
      else none
    | _ => none
  | .outRead =>
    match s.outPc with
    | .read => (lazyStep s.lazy (.call .cchanOut .updateLocalIfChanged)).map fun l =>
        { s with lazy := l, outPc := .test }
    | _ => none
  | .outTest =>
    match s.outPc with
    | .test =>
      if s.Idle .cchanOut then
        some { s with
          outPc := if wineingCtrlCmdShutdown = s.cmd .cchanOut then .finished else .recv }
      else none
    | _ => none
  | .outRecv received =>
    match s.outPc, received, s.inproc with
    | .recv, false, _ => some { s with outPc := .read }
    | .recv, true, res :: inproc => some { s with outPc := .send res, inproc := inproc }
    | _, _, _ => none
  | .outSend =>
    match s.outPc with
    | .send res => some { s with outPc := .read, cchanOut := s.cchanOut ++ [res] }
    | _ => none
  | .marketRead =>
    match s.marketPc with
    | .read => (lazyStep s.lazy (.call .market .updateLocalIfChanged)).map fun l =>
        { s with lazy := l, marketPc := .test }
    | _ => none
  | .marketTest =>
    match s.marketPc with
    | .test =>
      if s.Idle .market then
        some { s with marketPc := marketNext (s.cmd .market) }
      else none
    | _ => none
  | .marketRun loaded =>
    match s.marketPc with
    | .nxRun => some { s with marketPc := if loaded then .running else .read }
    | _ => none
  | .marketCallback message =>
    match s.marketPc with
    | .running => (lazyStep s.lazy (.call .callback .updateLocalIfChanged)).map fun l =>
        { s with lazy := l, marketPc := .process message }
    | _ => none
  | .marketProcess =>
    match s.marketPc with
    | .process message =>
      if s.Idle .callback then
        some { s with marketPc := .callbackReturn, mchan := s.mchan ++ marketData message }
      else none
    | _ => none
  | .marketCallbackReturn =>
    match s.marketPc with
    | .callbackReturn => some { s with
        marketPc := if s.cmd .callback < wineingCtrlCmdMarketRun then .stopping else .running }
    | _ => none
  | .marketReturn =>
    match s.marketPc with
    | .running | .stopping => some { s with marketPc := .read }
    | _ => none

def Request.frame (req : Request) : Frame := ⟨4, some req, fun h => absurd h (by decide)⟩

def garbage : Option Frame := some ⟨4, none, fun _ => rfl⟩

/-- The next accesses of a party's call. A call that copies the record makes eight. -/
def calls (p : Party) (accesses : ℕ) : List Action := List.replicate accesses (.lazy p)

/-- The steps in which the control thread answers an acknowledged request. -/
def serve (req : Request) (fileExists : ℤ) : List Action :=
  [.inLoop, .inRecv (some req.frame) fileExists, .inPublish] ++ calls .cchanIn 8 ++ [.inPush]

/-- The steps in which `market_thread` reads a new publication. -/
def marketRefresh : List Action := [.marketRead] ++ calls .market 8 ++ [.marketTest]

/-- The steps of a callback that reads a new publication, up to its return. -/
def callbackRefresh (message : NxMessage) : List Action :=
  [.marketCallback message] ++ calls .callback 8 ++ [.marketProcess]

inductive Moves (tapeBasedir : Bytes) (s : State) : Action → State → Prop where
  | lazy {p l} (ran : runThread s.lazy p = some l) :
      Moves tapeBasedir s (.lazy p) { s with lazy := l }
  | inLoop (pc : s.inPc = .loop) (live : wineingCtrlCmdShutdown < s.cmd .cchanIn) :
      Moves tapeBasedir s .inLoop { s with inPc := .recv }
  | inFinish (pc : s.inPc = .loop) (dead : s.cmd .cchanIn ≤ wineingCtrlCmdShutdown) :
      Moves tapeBasedir s .inLoop { s with inPc := .finished }
  | inRefuse {message fileExists} (pc : s.inPc = .recv) (refused : receivedRequest message = none) :
      Moves tapeBasedir s (.inRecv message fileExists) { s with inPc := .loop }
  | inAnswer {message fileExists req out l} (pc : s.inPc = .recv)
      (received : receivedRequest message = some req)
      (switched : cchanInSwitch tapeBasedir (s.thread .cchanIn).tData req fileExists = out)
      (assigned : lazyStep s.lazy
        (.assign .cchanIn (s.thread .cchanIn).tVersion out.tData) = some l) :
      Moves tapeBasedir s (.inRecv message fileExists)
        { s with lazy := l, inPc := if out.publish then .publish out.res else .push out.res }
  | inPublish {res l} (pc : s.inPc = .publish res)
      (called : lazyStep s.lazy (.call .cchanIn .updateGlobalIfOwner) = some l) :
      Moves tapeBasedir s .inPublish { s with lazy := l, inPc := .push res }
  | inPush {res} (pc : s.inPc = .push res) (idle : s.Idle .cchanIn) :
      Moves tapeBasedir s .inPush
        { s with inPc := .loop, inproc := s.inproc ++ [res], pushed := s.pushed ++ [res] }
  | outRead {l} (pc : s.outPc = .read)
      (called : lazyStep s.lazy (.call .cchanOut .updateLocalIfChanged) = some l) :
      Moves tapeBasedir s .outRead { s with lazy := l, outPc := .test }
  | outFinish (pc : s.outPc = .test) (idle : s.Idle .cchanOut)
      (dead : s.cmd .cchanOut = wineingCtrlCmdShutdown) :
      Moves tapeBasedir s .outTest { s with outPc := .finished }
  | outTest (pc : s.outPc = .test) (idle : s.Idle .cchanOut)
      (live : s.cmd .cchanOut ≠ wineingCtrlCmdShutdown) :
      Moves tapeBasedir s .outTest { s with outPc := .recv }
  | outRefuse (pc : s.outPc = .recv) : Moves tapeBasedir s (.outRecv false) { s with outPc := .read }
  | outRecv {res inproc} (pc : s.outPc = .recv) (queue : s.inproc = res :: inproc) :
      Moves tapeBasedir s (.outRecv true) { s with outPc := .send res, inproc := inproc }
  | outSend {res} (pc : s.outPc = .send res) :
      Moves tapeBasedir s .outSend { s with outPc := .read, cchanOut := s.cchanOut ++ [res] }
  | marketRead {l} (pc : s.marketPc = .read)
      (called : lazyStep s.lazy (.call .market .updateLocalIfChanged) = some l) :
      Moves tapeBasedir s .marketRead { s with lazy := l, marketPc := .test }
  | marketTest (pc : s.marketPc = .test) (idle : s.Idle .market) :
      Moves tapeBasedir s .marketTest { s with marketPc := marketNext (s.cmd .market) }
  | marketRun {loaded} (pc : s.marketPc = .nxRun) :
      Moves tapeBasedir s (.marketRun loaded)
        { s with marketPc := if loaded then .running else .read }
  | marketCallback {message l} (pc : s.marketPc = .running)
      (called : lazyStep s.lazy (.call .callback .updateLocalIfChanged) = some l) :
      Moves tapeBasedir s (.marketCallback message)
        { s with lazy := l, marketPc := .process message }
  | marketProcess {message} (pc : s.marketPc = .process message) (idle : s.Idle .callback) :
      Moves tapeBasedir s .marketProcess
        { s with marketPc := .callbackReturn, mchan := s.mchan ++ marketData message }
  | marketStop (pc : s.marketPc = .callbackReturn)
      (stop : s.cmd .callback < wineingCtrlCmdMarketRun) :
      Moves tapeBasedir s .marketCallbackReturn { s with marketPc := .stopping }
  | marketContinue (pc : s.marketPc = .callbackReturn)
      (run : wineingCtrlCmdMarketRun ≤ s.cmd .callback) :
      Moves tapeBasedir s .marketCallbackReturn { s with marketPc := .running }
  | marketTapeEnd (pc : s.marketPc = .running) :
      Moves tapeBasedir s .marketReturn { s with marketPc := .read }
  | marketStopped (pc : s.marketPc = .stopping) :
      Moves tapeBasedir s .marketReturn { s with marketPc := .read }

variable {tapeBasedir : Bytes} {s s' : State} {a : Action}

theorem moves_of_step (h : step tapeBasedir s a = some s') : Moves tapeBasedir s a s' := by
  cases a with
  | lazy p =>
    obtain ⟨l, ran, rfl⟩ := Option.map_eq_some_iff.mp h
    exact .lazy ran
  | inLoop =>
    cases hpc : s.inPc <;> simp only [step, hpc, Option.some.injEq, reduceCtorEq] at h
    subst h
    split
    · exact .inLoop hpc ‹_›
    · exact .inFinish hpc (Int.not_lt.mp ‹_›)
  | inRecv message fileExists =>
    cases hpc : s.inPc <;> simp only [step, hpc, reduceCtorEq] at h
    cases hreq : receivedRequest message with
    | none =>
      simp only [hreq, Option.some.injEq] at h
      subst h
      exact .inRefuse hpc hreq
    | some req =>
      simp only [hreq] at h
      obtain ⟨l, assigned, rfl⟩ := Option.map_eq_some_iff.mp h
      exact .inAnswer hpc hreq rfl assigned
  | inPublish =>
    cases hpc : s.inPc <;> simp only [step, hpc, reduceCtorEq] at h
    obtain ⟨l, called, rfl⟩ := Option.map_eq_some_iff.mp h
    exact .inPublish hpc called
  | inPush =>
    cases hpc : s.inPc <;> simp only [step, hpc, reduceCtorEq] at h
    split at h
    · cases h
      exact .inPush hpc ‹_›
    · cases h
  | outRead =>
    cases hpc : s.outPc <;> simp only [step, hpc, reduceCtorEq] at h
    obtain ⟨l, called, rfl⟩ := Option.map_eq_some_iff.mp h
    exact .outRead hpc called
  | outTest =>
    cases hpc : s.outPc <;> simp only [step, hpc, reduceCtorEq] at h
    split at h
    · cases h
      split
      · exact .outFinish hpc ‹_› (Eq.symm ‹_›)
      · exact .outTest hpc ‹_› (Ne.symm ‹_›)
    · cases h
  | outRecv received =>
    cases hpc : s.outPc <;> cases received <;> simp only [step, hpc, reduceCtorEq] at h
    · cases h
      exact .outRefuse hpc
    · cases hqueue : s.inproc <;> simp only [hqueue, Option.some.injEq, reduceCtorEq] at h
      subst h
      exact .outRecv hpc hqueue
  | outSend =>
    cases hpc : s.outPc <;> simp only [step, hpc, Option.some.injEq, reduceCtorEq] at h
    subst h
    exact .outSend hpc
  | marketRead =>
    cases hpc : s.marketPc <;> simp only [step, hpc, reduceCtorEq] at h
    obtain ⟨l, called, rfl⟩ := Option.map_eq_some_iff.mp h
    exact .marketRead hpc called
  | marketTest =>
    cases hpc : s.marketPc <;> simp only [step, hpc, reduceCtorEq] at h
    split at h
    · cases h
      exact .marketTest hpc ‹_›
    · cases h
  | marketRun loaded =>
    cases hpc : s.marketPc <;> simp only [step, hpc, Option.some.injEq, reduceCtorEq] at h
    subst h
    exact .marketRun hpc
  | marketCallback message =>
    cases hpc : s.marketPc <;> simp only [step, hpc, reduceCtorEq] at h
    obtain ⟨l, called, rfl⟩ := Option.map_eq_some_iff.mp h
    exact .marketCallback hpc called
  | marketProcess =>
    cases hpc : s.marketPc <;> simp only [step, hpc, reduceCtorEq] at h
    split at h
    · cases h
      exact .marketProcess hpc ‹_›
    · cases h
  | marketCallbackReturn =>
    cases hpc : s.marketPc <;> simp only [step, hpc, Option.some.injEq, reduceCtorEq] at h
    subst h
    split
    · exact .marketStop hpc ‹_›
    · exact .marketContinue hpc (Int.not_lt.mp ‹_›)
  | marketReturn =>
    cases hpc : s.marketPc <;> simp only [step, hpc, Option.some.injEq, reduceCtorEq] at h <;> subst h
    · exact .marketTapeEnd hpc
    · exact .marketStopped hpc

private theorem lazy_of_moves (h : Moves tapeBasedir s a s') : s'.lazy = s.lazy ∨
    ∃ b, SingleWriter .cchanIn s.lazy b ∧ lazyStep s.lazy b = some s'.lazy := by
  cases h with
  | @lazy p l ran => exact .inr ⟨.run p, trivial, ran⟩
  | @inAnswer _ _ _ out l pc received switched assigned =>
    have allowed : SingleWriter .cchanIn s.lazy
        (.assign .cchanIn (s.thread .cchanIn).tVersion out.tData) := ⟨rfl, rfl⟩
    exact .inr ⟨_, allowed, assigned⟩
  | inPublish pc called => exact .inr ⟨.call .cchanIn .updateGlobalIfOwner, rfl, called⟩
  | outRead pc called =>
    exact .inr ⟨.call .cchanOut .updateLocalIfChanged, Party.noConfusion, called⟩
  | marketRead pc called =>
    exact .inr ⟨.call .market .updateLocalIfChanged, Party.noConfusion, called⟩
  | marketCallback pc called =>
    exact .inr ⟨.call .callback .updateLocalIfChanged, Party.noConfusion, called⟩
  | inLoop | inFinish | inRefuse | inPush | outFinish | outTest | outRefuse | outRecv | outSend
  | marketTest | marketRun | marketProcess | marketStop | marketContinue | marketTapeEnd
  | marketStopped => exact .inl rfl

abbrev LazyInv (s : State) : Prop := SingleWriterInv .cchanIn s.lazy

theorem lazyInv_initial (gBuffer : Memory) (buffer : Party → Memory) :
    LazyInv (initial gBuffer buffer) :=
  singleWriterInv_initial _ _ _

theorem lazyInv_moves (hs : LazyInv s) (h : Moves tapeBasedir s a s') : LazyInv s' := by
  rcases lazy_of_moves h with heq | ⟨b, allowed, moved⟩
  · unfold LazyInv
    rwa [heq]
  · exact singleWriterInv_step hs allowed moved

/-- The threads use the shared record as one writer and three readers: what a run does to
it is a run of the record alone. -/
theorem lazyRun_of_run {guard : State → Action → Prop} {as : List Action}
    (run : Run (step tapeBasedir) guard s as s') :
    ∃ bs, Run lazyStep (SingleWriter .cchanIn) s.lazy bs s'.lazy :=
  run.simulates State.lazy (fun _ _ _ _ moved => lazy_of_moves (moves_of_step moved))

/-- The party whose version, record or call a step may change. -/
def Action.party : Action → Option Party
  | .lazy p => some p
  | .inRecv _ _ | .inPublish => some .cchanIn
  | .outRead => some .cchanOut
  | .marketRead => some .market
  | .marketCallback _ => some .callback
  | _ => none

theorem thread_of_moves {p : Party} (h : Moves tapeBasedir s a s') (hp : a.party ≠ some p) :
    s'.thread p = s.thread p := by
  cases h with
  | @lazy i l ran =>
    exact runThread_threads_of_ne ran (by rintro rfl; exact hp rfl)
  | inAnswer pc received switched assigned =>
    exact lazyStep_threads_of_ne assigned (by rintro rfl; exact hp rfl)
  | inPublish pc called | outRead pc called | marketRead pc called | marketCallback pc called =>
    exact lazyStep_threads_of_ne called (by rintro rfl; exact hp rfl)
  | inLoop | inFinish | inRefuse | inPush | outFinish | outTest | outRefuse | outRecv | outSend
  | marketTest | marketRun | marketProcess | marketStop | marketContinue | marketTapeEnd
  | marketStopped => rfl

def Action.access : Action → Option Party
  | .lazy p => some p
  | _ => none

theorem Action.eq_lazy_of_access {a : Action} {p : Party} (h : a.access = some p) :
    a = .lazy p := by
  cases a <;> simp_all [access]

/-- The thread stands where a call of the party has been made. -/
def State.waiting (s : State) : Party → Bool
  | .cchanIn => match s.inPc with | .push _ => true | _ => false
  | .cchanOut => match s.outPc with | .test => true | _ => false
  | .market => match s.marketPc with | .test => true | _ => false
  | .callback => match s.marketPc with | .process _ => true | _ => false

/-- Calls are under way only where a thread has made them. -/
def CallsOk (s : State) : Prop := ∀ p, s.waiting p = false → s.Idle p

theorem callsOk_initial (gBuffer : Memory) (buffer : Party → Memory) :
    CallsOk (initial gBuffer buffer) :=
  fun _ _ => rfl

theorem CallsOk.change (hs : CallsOk s) (p : Party)
    (hthreads : ∀ q, q ≠ p → s'.lazy.threads q = s.lazy.threads q)
    (hwaiting : ∀ q, q ≠ p → s'.waiting q = s.waiting q)
    (hp : s'.waiting p = true ∨ s'.Idle p) : CallsOk s' := by
  intro q hq
  by_cases hqp : q = p
  · subst hqp
    exact hp.resolve_left (by simp [hq])
  · unfold State.Idle State.thread
    rw [hthreads q hqp]
    exact hs q ((hwaiting q hqp).symm.trans hq)

theorem waiting_of_inPc (hout : s'.outPc = s.outPc) (hmarket : s'.marketPc = s.marketPc) :
    ∀ q, q ≠ .cchanIn → s'.waiting q = s.waiting q := by
  intro q hq
  cases q <;> simp_all [State.waiting]

theorem waiting_of_outPc (hin : s'.inPc = s.inPc) (hmarket : s'.marketPc = s.marketPc) :
    ∀ q, q ≠ .cchanOut → s'.waiting q = s.waiting q := by
  intro q hq
  cases q <;> simp_all [State.waiting]

private theorem callsOk_moves (hs : CallsOk s) (h : Moves tapeBasedir s a s') : CallsOk s' := by
  cases h with
  | @lazy p l ran =>
    refine hs.change p (fun q hq => runThread_threads_of_ne ran hq) (fun q _ => by cases q <;> rfl)
      (.inl ?_)
    cases hp : s.waiting p with
    | true => cases p <;> exact hp
    | false =>
      have hidle : (s.lazy.threads p).pc = .idle := hs p hp
      exact absurd hidle (pc_ne_idle_of_runThread ran)
  | inAnswer pc received switched assigned =>
    refine hs.change .cchanIn (fun q hq => lazyStep_threads_of_ne assigned hq)
      (waiting_of_inPc rfl rfl) (.inr ?_)
    obtain ⟨_, rfl⟩ := lazyStep_assign assigned
    simp [State.Idle, State.thread]
  | inPublish pc called =>
    exact hs.change .cchanIn (fun q hq => lazyStep_threads_of_ne called hq)
      (waiting_of_inPc rfl rfl) (.inl rfl)
  | inLoop pc | inFinish pc | inRefuse pc =>
    exact hs.change .cchanIn (fun _ _ => rfl) (waiting_of_inPc rfl rfl)
      (.inr (hs .cchanIn (by simp [State.waiting, pc])))
  | inPush pc idle =>
    exact hs.change .cchanIn (fun _ _ => rfl) (waiting_of_inPc rfl rfl) (.inr idle)
  | outRead pc called =>
    exact hs.change .cchanOut (fun q hq => lazyStep_threads_of_ne called hq)
      (waiting_of_outPc rfl rfl) (.inl rfl)
  | outFinish pc idle | outTest pc idle =>
    exact hs.change .cchanOut (fun _ _ => rfl) (waiting_of_outPc rfl rfl) (.inr idle)
  | outRefuse pc | outRecv pc | outSend pc =>
    exact hs.change .cchanOut (fun _ _ => rfl) (waiting_of_outPc rfl rfl)
      (.inr (hs .cchanOut (by simp [State.waiting, pc])))
  | marketRead pc called =>
    exact hs.change .market (fun q hq => lazyStep_threads_of_ne called hq)
      (fun q hq => by cases q <;> simp_all [State.waiting]) (.inl rfl)
  | marketTest pc idle =>
    refine hs.change .market (fun _ _ => rfl) (fun q hq => ?_) (.inr idle)
    rcases marketNext_cases (s.cmd .market) with hnext | hnext | hnext <;>
      cases q <;> simp_all [State.waiting]
  | @marketRun loaded pc =>
    refine hs.change .market (fun _ _ => rfl) (fun q hq => ?_)
      (.inr (hs .market (by simp [State.waiting, pc])))
    cases loaded <;> cases q <;> simp_all [State.waiting]
  | marketCallback pc called =>
    exact hs.change .callback (fun q hq => lazyStep_threads_of_ne called hq)
      (fun q hq => by cases q <;> simp_all [State.waiting]) (.inl rfl)
  | marketProcess pc idle =>
    exact hs.change .callback (fun _ _ => rfl)
      (fun q hq => by cases q <;> simp_all [State.waiting]) (.inr idle)
  | marketStop pc | marketContinue pc | marketTapeEnd pc | marketStopped pc =>
    exact hs.change .market (fun _ _ => rfl) (fun q hq => by cases q <;> simp_all [State.waiting])
      (.inr (hs .market (by simp [State.waiting, pc])))

/-- What every proof about the threads starts from. -/
structure ThreadsInv (s : State) : Prop where
  lazy : LazyInv s
  calls : CallsOk s

theorem threadsInv_initial (gBuffer : Memory) (buffer : Party → Memory) :
    ThreadsInv (initial gBuffer buffer) :=
  ⟨lazyInv_initial _ _, callsOk_initial _ _⟩

theorem threadsInv_step (hs : ThreadsInv s) (h : step tapeBasedir s a = some s') : ThreadsInv s' :=
  ⟨lazyInv_moves hs.lazy (moves_of_step h), callsOk_moves hs.calls (moves_of_step h)⟩

theorem threadsInv_run {guard : State → Action → Prop} {as : List Action} (hs : ThreadsInv s)
    (run : Run (step tapeBasedir) guard s as s') : ThreadsInv s' :=
  run.invariant _ hs (fun _ _ _ ht _ => threadsInv_step ht)

/-- Only the control thread publishes, where its call writes `g_version`. -/
theorem published_of_moves (hs : ThreadsInv s) (h : Moves tapeBasedir s a s') :
    s'.lazy.published = s.lazy.published ∨ (a = .lazy .cchanIn ∧
      (s.thread .cchanIn).pc = .version .updateGlobalIfOwner ∧ s'.lazy.published =
        s.lazy.published ++ [⟨s.lazy.gVersion + 1, (s.thread .cchanIn).tData⟩]) := by
  cases h with
  | @lazy p l ran =>
    obtain ⟨_, ⟨_, hsame⟩ | ⟨rfl, hversion, _, hpublished⟩⟩ := runThread_publishes hs.lazy ran
    · exact .inl hsame
    · exact .inr ⟨rfl, hversion, hpublished⟩
  | inAnswer pc received switched assigned =>
    obtain ⟨_, rfl⟩ := lazyStep_assign assigned
    exact .inl rfl
  | inPublish pc called | outRead pc called | marketRead pc called | marketCallback pc called =>
    obtain ⟨_, rfl⟩ := lazyStep_call called
    exact .inl rfl
  | inLoop | inFinish | inRefuse | inPush | outFinish | outTest | outRefuse | outRecv | outSend
  | marketTest | marketRun | marketProcess | marketStop | marketContinue | marketTapeEnd
  | marketStopped => exact .inl rfl

section Readers

variable {p : Party} {n : ℤ}

theorem fresh_moves (hs : LazyInv s) (hp : p ≠ .cchanIn) (hf : Fresh n p s.lazy)
    (h : Moves tapeBasedir s a s') : Fresh n p s'.lazy := by
  rcases lazy_of_moves h with heq | ⟨b, allowed, moved⟩
  · rwa [heq]
  · exact fresh_step hs allowed moved hp hf

theorem tVersion_mono (hs : LazyInv s) (hp : p ≠ .cchanIn) (h : Moves tapeBasedir s a s') :
    (s.thread p).tVersion ≤ (s'.thread p).tVersion := by
  rcases lazy_of_moves h with heq | ⟨b, allowed, moved⟩
  · simp only [State.thread, heq, le_refl]
  · exact reader_tVersion_mono hs allowed moved hp

/-- Once its call has returned, a fresh party has the version it was waiting for. -/
theorem State.Idle.le_tVersion (hidle : s.Idle p) (hf : Fresh n p s.lazy) :
    n ≤ (s.thread p).tVersion := by
  refine hf.2.resolve_left ?_
  have hpc : (s.lazy.threads p).pc = .idle := hidle
  simp [hpc, LazyPc.pending]

theorem ThreadsInv.recorded (hs : ThreadsInv s) (hp : p ≠ .cchanIn) (hidle : s.Idle p)
    (hread : 0 ≤ (s.thread p).tVersion) :
    Recorded s.lazy.published (s.thread p).tVersion (s.thread p).tData := by
  have hok := hs.lazy.reader p hp
  have hpc : (s.lazy.threads p).pc = .idle := hidle
  simp only [ReaderOk, hpc] at hok
  refine hok.resolve_left ?_
  intro hv
  have hread' : 0 ≤ (s.lazy.threads p).tVersion := hread
  omega

/-- A party that has read the newest publication has its command. -/
theorem ThreadsInv.cmd_of_fresh (hs : ThreadsInv s) (hp : p ≠ .cchanIn) (hidle : s.Idle p)
    (hf : Fresh s.lazy.gVersion p s.lazy) : s.cmd p = s.lazy.newestCmd := by
  have hle : (s.thread p).tVersion ≤ s.lazy.gVersion := hs.lazy.reader_le hp
  have hge := hidle.le_tVersion hf
  have hnumbered := hs.lazy.numbered
  have hnonneg := hnumbered.le_newest
  have hrecorded := hs.recorded hp hidle (by omega)
  rw [show (s.thread p).tVersion = s.lazy.gVersion by omega] at hrecorded
  exact hrecorded.cmd_eq_newestCmd hnumbered

/-- What a party believes the command to be only changes where its call copies the newest. -/
theorem cmd_of_moves (hs : LazyInv s) (hp : p ≠ .cchanIn) (h : Moves tapeBasedir s a s') :
    s'.cmd p = s.cmd p ∨ (a = .lazy p ∧ (s.thread p).pc = .cmd .updateLocalIfChanged ∧
      s'.cmd p = s.lazy.gData.cmd ∧ s.lazy.gData.cmd = s.lazy.newestCmd) := by
  have hcall : ∀ {i call l}, lazyStep s.lazy (.call i call) = some l →
      (l.threads p).tData.cmd = s.cmd p := by
    intro i call l called
    obtain ⟨_, rfl⟩ := lazyStep_call called
    by_cases hpi : p = i
    · subst hpi
      simp [State.cmd, State.thread]
    · rw [LazyState.setThread_threads_of_ne _ _ hpi]
      rfl
  cases h with
  | @lazy i l ran =>
    by_cases hpi : p = i
    · subst hpi
      rcases reader_cmd hs hp ran with hsame | ⟨hpc, hcopied, hnewest⟩
      · exact .inl hsame
      · exact .inr ⟨rfl, hpc, hcopied, hnewest⟩
    · have hsame := runThread_threads_of_ne ran hpi
      exact .inl (by simp only [State.cmd, State.thread, hsame])
  | inAnswer pc received switched assigned =>
    have hsame := lazyStep_threads_of_ne assigned hp
    exact .inl (by simp only [State.cmd, State.thread, hsame])
  | inPublish pc called | outRead pc called | marketRead pc called | marketCallback pc called =>
    exact .inl (hcall called)
  | inLoop | inFinish | inRefuse | inPush | outFinish | outTest | outRefuse | outRecv | outSend
  | marketTest | marketRun | marketProcess | marketStop | marketContinue | marketTapeEnd
  | marketStopped => exact .inl rfl

end Readers

end Wineing
