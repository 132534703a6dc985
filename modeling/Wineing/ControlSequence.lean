import Mathlib.Data.List.Induction
import Wineing.ControlLoopRefinement
import Wineing.LazyCalls

/-!
# Sequences of requests without the threads

The control thread makes of a sequence of requests what its switch makes of them one
after the other: its own record, the responses, and the records published. In any
interleaving a run of the threads has the record and the responses of the requests it has
received, and publishes the same records in the same order; and every sequence that ends
with its first shutdown is served by some run.
-/

namespace Wineing
open CStringMemory GuardedRuns

/-- What the control thread has made of the requests so far. -/
structure Served where
  tData : WCtrl
  responses : List Response
  published : List WCtrl

def Served.serve (tapeBasedir : Bytes) (served : Served) (x : Request × ℤ) : Served :=
  let out := cchanInSwitch tapeBasedir served.tData x.1 x.2
  { tData := out.tData
    responses := served.responses ++ [out.res]
    published := if out.publish then served.published ++ [out.tData] else served.published }

/-- `origin` is the shared record before the first publication. -/
def served (tapeBasedir : Bytes) (origin tData : WCtrl) (xs : List (Request × ℤ)) : Served :=
  xs.foldl (Served.serve tapeBasedir) ⟨tData, [], [origin]⟩

def requests (as : List Action) : List (Request × ℤ) := as.filterMap Action.request

def State.AtRest (s : State) : Prop := s.inHand = []

instance (s : State) : Decidable s.AtRest := inferInstanceAs (Decidable (_ = _))

section Served

variable {tapeBasedir : Bytes} {origin tData : WCtrl}

theorem served_snoc (xs : List (Request × ℤ)) (x : Request × ℤ) :
    served tapeBasedir origin tData (xs ++ [x]) =
      (served tapeBasedir origin tData xs).serve tapeBasedir x := by
  simp [served, List.foldl_append]

theorem length_served_responses (tapeBasedir : Bytes) (origin tData : WCtrl)
    (xs : List (Request × ℤ)) :
    (served tapeBasedir origin tData xs).responses.length = xs.length := by
  induction xs using List.reverseRecOn with
  | nil => rfl
  | append_singleton xs x ih => simp [served_snoc, Served.serve, ih]

theorem cchanInSwitch_publish (tapeBasedir : Bytes) (tData : WCtrl) (req : Request)
    (fileExists : ℤ) :
    (cchanInSwitch tapeBasedir tData req fileExists).publish =
      (cchanInSwitch tapeBasedir tData req fileExists).res.type.isOk := by
  unfold cchanInSwitch
  split
  · split
    · rfl
    · split
      · dsimp only
        split <;> rfl
      · rfl
  · rfl
  · rfl

end Served

theorem requests_snoc_none (as : List Action) {a : Action} (h : a.request = none) :
    requests (as ++ [a]) = requests as := by
  simp [requests, List.filterMap_append, h]

theorem requests_snoc_some (as : List Action) {a : Action} {x : Request × ℤ}
    (h : a.request = some x) : requests (as ++ [a]) = requests as ++ [x] := by
  simp [requests, List.filterMap_append, h]

section Steps

variable {tapeBasedir : Bytes} {as : List Action} {s s' : State} {a : Action}

theorem request_of_inRecv {message : Option Frame} {fileExists : ℤ} {req : Request}
    (received : receivedRequest message = some req) :
    Action.request (.inRecv message fileExists) = some (req, fileExists) := by
  rw [receivedRequest_eq] at received
  simp [Action.request, received]

private theorem cchanIn_tData_of_moves (hs : ThreadsInv s) (h : Moves tapeBasedir s a s')
    (ha : a.request = none) : (s'.thread .cchanIn).tData = (s.thread .cchanIn).tData := by
  cases h with
  | lazy ran => exact (runThread_publishes hs.lazy ran).1
  | @inAnswer message fileExists req out l pc received switched assigned =>
    rw [receivedRequest_eq] at received
    simp [Action.request, received] at ha
  | inPublish pc called =>
    obtain ⟨_, rfl⟩ := lazyStep_call called
    simp [State.thread]
  | outRead pc called | marketRead pc called | marketCallback pc called =>
    obtain ⟨_, rfl⟩ := lazyStep_call called
    rfl
  | inLoop | inFinish | inRefuse | inPush | outFinish | outTest | outRefuse | outRecv | outSend
  | marketTest | marketRun | marketProcess | marketStop | marketContinue | marketTapeEnd
  | marketStopped => rfl

private theorem responses_of_moves (h : Moves tapeBasedir s a s') (ha : a.request = none) :
    s'.pushed ++ s'.inHand = s.pushed ++ s.inHand := by
  cases h with
  | @inAnswer message fileExists req out l pc received switched assigned =>
    rw [receivedRequest_eq] at received
    simp [Action.request, received] at ha
  | inLoop pc | inFinish pc | inRefuse pc | inPush pc | inPublish pc => simp [State.inHand, pc]
  | lazy | outRead | marketRead | marketCallback | outFinish | outTest | outRefuse | outRecv
  | outSend | marketTest | marketRun | marketProcess | marketStop | marketContinue | marketTapeEnd
  | marketStopped => rfl

/-- The run has the record and the responses of the sequence, and its publications up to
one still to make. -/
structure SequenceInv (tapeBasedir : Bytes) (origin tData : WCtrl) (as : List Action)
    (s : State) : Prop where
  control : ControlInv tapeBasedir as s
  record : (s.thread .cchanIn).tData = (served tapeBasedir origin tData (requests as)).tData
  responses : s.pushed ++ s.inHand = (served tapeBasedir origin tData (requests as)).responses
  published : s.lazy.published.map Publication.ctrl ++
      (if s.unpublished = 1 then [(s.thread .cchanIn).tData] else []) =
    (served tapeBasedir origin tData (requests as)).published

theorem sequenceInv_initial (tapeBasedir : Bytes) (gBuffer : Memory) (buffer : Party → Memory) :
    SequenceInv tapeBasedir ⟨wineingCtrlCmdInit, gBuffer, 0⟩
      ⟨wineingCtrlCmdInit, buffer .cchanIn, 0⟩ [] (initial gBuffer buffer) :=
  ⟨controlInv_initial _ _ _, rfl, rfl, rfl⟩

variable {origin tData : WCtrl}

theorem SequenceInv.frame (hs : SequenceInv tapeBasedir origin tData as s)
    (hcontrol : ControlInv tapeBasedir (as ++ [a]) s') (h : Moves tapeBasedir s a s')
    (ha : a.request = none) : SequenceInv tapeBasedir origin tData (as ++ [a]) s' := by
  have htData := cchanIn_tData_of_moves hs.control.threads h ha
  have hbefore := hs.control.count
  have hafter := hcontrol.count
  rw [controlLog_snoc_none as ha] at hafter
  have hone := s.unpublished_le_one
  refine ⟨hcontrol, ?_, ?_, ?_⟩
  · rw [htData, requests_snoc_none as ha]
    exact hs.record
  · rw [responses_of_moves h ha, requests_snoc_none as ha]
    exact hs.responses
  · rw [htData, requests_snoc_none as ha, ← hs.published]
    rcases published_of_moves hs.control.threads h with hsame | ⟨_, _, hnew⟩
    · rw [hsame] at hafter ⊢
      rw [show s'.unpublished = s.unpublished by omega]
    · rw [hnew, List.length_append, List.length_singleton] at hafter
      rw [hnew, if_pos (show s.unpublished = 1 by omega), if_neg (by omega)]
      simp

theorem unpublished_of_atRest (hs : ThreadsInv s) (hrest : s.AtRest) : s.unpublished = 0 := by
  have hcall := hs.calls .cchanIn
  cases hpc : s.inPc with
  | publish res | push res => simp [State.AtRest, State.inHand, hpc] at hrest
  | loop | recv | finished =>
    have hidle : (s.thread .cchanIn).pc = .idle := hcall (by simp [State.waiting, hpc])
    simp [State.unpublished, hpc, hidle, LazyPc.pending]

private theorem sequenceInv_answer (hs : SequenceInv tapeBasedir origin tData as s)
    {message : Option Frame} {fileExists : ℤ} {req : Request} {out : Switched}
    {l : LazyState ℤ Party}
    (hcontrol : ControlInv tapeBasedir (as ++ [.inRecv message fileExists])
      { s with lazy := l, inPc := if out.publish then .publish out.res else .push out.res })
    (hpc : s.inPc = .recv) (hreceived : receivedRequest message = some req)
    (hswitched : cchanInSwitch tapeBasedir (s.thread .cchanIn).tData req fileExists = out)
    (hassigned : lazyStep s.lazy
      (.assign .cchanIn (s.thread .cchanIn).tVersion out.tData) = some l) :
    SequenceInv tapeBasedir origin tData (as ++ [.inRecv message fileExists])
      { s with lazy := l, inPc := if out.publish then .publish out.res else .push out.res } := by
  have ha : Action.request (.inRecv message fileExists) = some (req, fileExists) := by
    rw [receivedRequest_eq] at hreceived
    simp [Action.request, hreceived]
  have hnone : s.unpublished = 0 :=
    unpublished_of_atRest hs.control.threads (by simp [State.AtRest, State.inHand, hpc])
  obtain ⟨hidle, rfl⟩ := lazyStep_assign hassigned
  have hresponses := hs.responses
  have hpublished := hs.published
  simp only [State.inHand, hpc, List.append_nil] at hresponses
  simp only [hnone, zero_ne_one, if_false, List.append_nil] at hpublished
  refine ⟨hcontrol, ?_, ?_, ?_⟩
  · rw [requests_snoc_some as ha, served_snoc, Served.serve, ← hs.record, hswitched]
    simp [State.thread]
  · rw [requests_snoc_some as ha, served_snoc, Served.serve, ← hs.record, hswitched, ← hresponses]
    cases hpub : out.publish <;> simp [State.inHand]
  · rw [requests_snoc_some as ha, served_snoc, Served.serve, ← hs.record, hswitched, ← hpublished]
    cases hpub : out.publish <;> simp [State.unpublished, State.thread, LazyPc.pending]

theorem sequenceInv_step (hs : SequenceInv tapeBasedir origin tData as s)
    (h : step tapeBasedir s a = some s') : SequenceInv tapeBasedir origin tData (as ++ [a]) s' := by
  have hcontrol := controlInv_step hs.control h
  have hmoves := moves_of_step h
  cases ha : a.request with
  | none => exact hs.frame hcontrol hmoves ha
  | some x =>
    cases hmoves with
    | inRefuse pc refused =>
      rw [receivedRequest_eq] at refused
      simp [Action.request, refused] at ha
    | inAnswer pc received switched assigned =>
      exact sequenceInv_answer hs hcontrol pc received switched assigned
    | _ => cases ha

theorem sequenceInv_run {guard : State → Action → Prop} {gBuffer : Memory} {buffer : Party → Memory}
    (run : Run (step tapeBasedir) guard (initial gBuffer buffer) as s) :
    SequenceInv tapeBasedir ⟨wineingCtrlCmdInit, gBuffer, 0⟩
      ⟨wineingCtrlCmdInit, buffer .cchanIn, 0⟩ as s :=
  run.history _ (sequenceInv_initial tapeBasedir gBuffer buffer)
    (fun _ _ _ _ ht _ => sequenceInv_step ht)

/-- Between two requests, responses and publications are those of the sequence. -/
theorem SequenceInv.of_atRest (hs : SequenceInv tapeBasedir origin tData as s) (hrest : s.AtRest) :
    s.pushed = (served tapeBasedir origin tData (requests as)).responses ∧
    s.lazy.published.map Publication.ctrl =
      (served tapeBasedir origin tData (requests as)).published := by
  have hresponses := hs.responses
  have hpublished := hs.published
  have hhand : s.inHand = [] := hrest
  rw [hhand, List.append_nil] at hresponses
  simp only [unpublished_of_atRest hs.control.threads hrest, zero_ne_one, if_false,
    List.append_nil] at hpublished
  exact ⟨hresponses, hpublished⟩

theorem atRest_of_request {x : Request × ℤ} (hx : a.request = some x)
    (h : step tapeBasedir s a = some s') : s.AtRest := by
  cases moves_of_step h with
  | inRefuse pc | inAnswer pc => simp [State.AtRest, State.inHand, pc]
  | _ => cases hx

/-- One request, from its receive to the next rest: its response is pushed, and its record
published if the switch says so. -/
theorem answer_of_run {gBuffer : Memory} {buffer : Party → Memory} {x : Request × ℤ}
    {bs : List Action} {t : State}
    (run : Run (step tapeBasedir) unguarded (initial gBuffer buffer) as s)
    (hx : a.request = some x) (h : step tapeBasedir s a = some s')
    (rest : Run (step tapeBasedir) unguarded s' bs t) (hbs : requests bs = [])
    (hrest : t.AtRest) {out : Switched}
    (hout : cchanInSwitch tapeBasedir (s.thread .cchanIn).tData x.1 x.2 = out) :
    t.pushed = s.pushed ++ [out.res] ∧
    t.lazy.published.map Publication.ctrl = s.lazy.published.map Publication.ctrl ++
      if out.publish then [out.tData] else [] := by
  have hs := sequenceInv_run run
  obtain ⟨hpushed, hpublished⟩ := hs.of_atRest (atRest_of_request hx h)
  obtain ⟨hpushed', hpublished'⟩ :=
    (sequenceInv_run ((run.snoc trivial h).trans rest)).of_atRest hrest
  have hrequests : requests ((as ++ [a]) ++ bs) = requests as ++ [x] := by
    rw [requests, List.filterMap_append]
    exact (congrArg₂ _ (requests_snoc_some as hx) hbs).trans (List.append_nil _)
  rw [hrequests, served_snoc, Served.serve, ← hs.record, hout] at hpushed' hpublished'
  refine ⟨by rw [hpushed', hpushed], ?_⟩
  rw [hpublished', hpublished]
  cases out.publish <;> simp

/-- The control thread is at its loop, and no call is under way. -/
def State.Quiet (s : State) : Prop := s.inPc = .loop ∧ s.lazy.Quiescent

theorem State.Quiet.atRest (hs : s.Quiet) : s.AtRest := by
  simp [State.AtRest, State.inHand, hs.1]

/-- The state in which a request has been answered, with no step of another thread. -/
def State.answer (tapeBasedir : Bytes) (s : State) (x : Request × ℤ) : State :=
  let out := cchanInSwitch tapeBasedir (s.thread .cchanIn).tData x.1 x.2
  { s with
    lazy := if out.publish then s.lazy.update .cchanIn out.tData
      else s.lazy.setThread .cchanIn ⟨(s.thread .cchanIn).tVersion, out.tData, .idle⟩
    inproc := s.inproc ++ [out.res]
    pushed := s.pushed ++ [out.res] }

private theorem quiet_answer (hs : s.Quiet) (x : Request × ℤ) : (s.answer tapeBasedir x).Quiet := by
  refine ⟨hs.1, ?_⟩
  simp only [State.answer]
  split
  · exact quiescent_update hs.2 .cchanIn _
  · exact quiescent_setThread hs.2 .cchanIn _ _

theorem answer_tData (s : State) (x : Request × ℤ) :
    ((s.answer tapeBasedir x).thread .cchanIn).tData =
      (cchanInSwitch tapeBasedir (s.thread .cchanIn).tData x.1 x.2).tData := by
  cases hpub : (cchanInSwitch tapeBasedir (s.thread .cchanIn).tData x.1 x.2).publish <;>
    simp [State.answer, State.thread, LazyState.update] at hpub ⊢ <;> simp [hpub]

private theorem run_answer (tapeBasedir : Bytes) (hs : LazyInv s) (hquiet : s.Quiet)
    (hlive : wineingCtrlCmdShutdown < s.cmd .cchanIn) (x : Request × ℤ) :
    ∃ as, Run (step tapeBasedir) unguarded s as (s.answer tapeBasedir x) ∧ requests as = [x] := by
  obtain ⟨req, fileExists⟩ := x
  obtain ⟨hpc, hfree, hidle⟩ := hquiet
  have hi := hidle .cchanIn
  have hv := hs.writer.1
  have hlive : wineingCtrlCmdShutdown < (s.lazy.threads .cchanIn).tData.cmd := hlive
  have hreceived : receivedRequest (some req.frame) = some req := receivedRequest_eq _
  generalize hout : cchanInSwitch tapeBasedir (s.lazy.threads .cchanIn).tData req fileExists = out
  cases hpub : out.publish with
  | false =>
    refine ⟨[.inLoop, .inRecv (some req.frame) fileExists, .inPush], Run.of_foldlM ?_, rfl⟩
    simp [guardedStep, unguarded, step, State.answer, State.cmd, State.thread, State.Idle, lazyStep,
      hpc, hi, hlive, hreceived, hout, hpub]
  | true =>
    refine ⟨serve req fileExists, Run.of_foldlM ?_, rfl⟩
    simp [serve, calls, guardedStep, unguarded, step, State.answer, State.cmd, State.thread,
      State.Idle, lazyStep, runThread, LazyState.update, lazyUpdateGlobalIfOwner, LazyState.shared,
      LazyState.setThread, LazyState.writeVersion, copyLocalToShared, hpc, hi, hlive, hreceived,
      hout, hpub, hv, hfree]

theorem cchanInSwitch_live (tapeBasedir : Bytes) {tData : WCtrl} {req : Request} (fileExists : ℤ)
    (hlive : wineingCtrlCmdShutdown < tData.cmd) (htype : req.type ≠ .shutdown) :
    wineingCtrlCmdShutdown < (cchanInSwitch tapeBasedir tData req fileExists).tData.cmd := by
  have hrun : wineingCtrlCmdShutdown < wineingCtrlCmdMarketRun := by decide
  unfold cchanInSwitch
  split
  · split
    · exact hlive
    · split
      · dsimp only
        split
        · exact hlive
        · exact hrun
      · exact hrun
  · exact (by decide : wineingCtrlCmdShutdown < wineingCtrlCmdMarketStop)
  · exact absurd ‹_› htype

/-- Every sequence with nothing after a shutdown is served by a run. -/
theorem exists_run_of_requests (tapeBasedir : Bytes) (gBuffer : Memory) (buffer : Party → Memory)
    (xs : List (Request × ℤ)) (hxs : xs.Pairwise fun x _ => x.1.type ≠ .shutdown) :
    ∃ as s, Run (step tapeBasedir) unguarded (initial gBuffer buffer) as s ∧ requests as = xs ∧
      s.Quiet ∧
      ((∀ x ∈ xs, x.1.type ≠ .shutdown) → wineingCtrlCmdShutdown < s.cmd .cchanIn) := by
  induction xs using List.reverseRecOn with
  | nil =>
    exact ⟨[], _, .refl, rfl, ⟨rfl, rfl, fun _ => rfl⟩,
      fun _ => (by decide : wineingCtrlCmdShutdown < wineingCtrlCmdInit)⟩
  | append_singleton xs x ih =>
    obtain ⟨hbefore, _, hlast⟩ := List.pairwise_append.mp hxs
    have hnone : ∀ y ∈ xs, y.1.type ≠ .shutdown := fun y hy => hlast y hy x (by simp)
    obtain ⟨as, s, run, hrequests, hquiet, hlive⟩ := ih hbefore
    have hinv := (threadsInv_run (threadsInv_initial _ _) run).lazy
    obtain ⟨bs, hanswer, hx⟩ :=
      run_answer tapeBasedir hinv hquiet (hlive hnone) x
    refine ⟨as ++ bs, _, run.trans hanswer, ?_, quiet_answer hquiet x, fun hall => ?_⟩
    · rw [← hrequests, ← hx]
      exact List.filterMap_append
    · have hswitch := cchanInSwitch_live tapeBasedir x.2 (hlive hnone)
        (hall x (by simp))
      rwa [State.cmd, answer_tData]

theorem controlLog_requests (as : List Action) :
    (controlLog as).map Prod.fst = (requests as).map Prod.fst := by
  have hlog : ∀ xs : List (Request × ℤ), (xs.foldl ControlLog.respond []).map Prod.fst =
      xs.map Prod.fst := by
    intro xs
    induction xs using List.reverseRecOn with
    | nil => rfl
    | append_singleton xs x ih => simp [List.foldl_append, ControlLog.respond, ih]
  exact hlog _

theorem ControlInv.requests_pairwise (hs : ControlInv tapeBasedir as s) :
    (requests as).Pairwise fun x _ => x.1.type ≠ .shutdown := by
  have hlog : (controlLog as).Pairwise fun x _ => x.1.type ≠ .shutdown := by
    rw [List.pairwise_iff_getElem]
    intro i j hi hj hij htype
    have hsplit : controlLog as =
        (controlLog as).take i ++ (controlLog as)[i] :: (controlLog as).drop (i + 1) := by
      simp
    have hnil := (hs.shutdown_last _ _ _ hsplit htype).1
    rw [List.drop_eq_nil_iff] at hnil
    omega
  have hmap : ((controlLog as).map Prod.fst).Pairwise fun x _ => x.type ≠ .shutdown :=
    List.pairwise_map.mpr hlog
  rw [controlLog_requests] at hmap
  exact List.pairwise_map.mp hmap

end Steps

end Wineing
