import Wineing.RequestCodec
import Wineing.RemoteApiClient
import Wineing.ControlSequence
import Wineing.ResponseForwarding
import Wineing.ResponseSizes

/-!
# An application and the server

The client of the remote API and the threads of the server, with the requests on their way
between them as bytes. Requests reach the server in the order in which they are sent; it may
also receive what is no request. Responses are followed up to `cchan_out`.

The two sides only know the bytes. Which call a request or a response belongs to is told by
its place: the calls of the first `received` requests sent are those the server has answered
or is answering.
-/

namespace Wineing
open CStringMemory GuardedRuns ProtobufWire

/-- `queued` records the calls in the order in which they were added to the queue. No step
reads it. -/
structure Session where
  client : ClientState
  server : State
  queued : List ℕ
  received : ℕ

/-- A step of one side alone, or the arrival of a request, with the answer of
`wininf_file_exists`. -/
inductive SessionAction
  | client (a : ClientAction)
  | server (a : Action)
  | request (fileExists : ℤ)

def ClientAction.isAnswer : ClientAction → Bool
  | .answer _ _ _ => true
  | _ => false

/-- The calls whose request a step adds to the queue. -/
def ClientState.puts (s : ClientState) : ClientAction → List ℕ
  | .addRequest i => if s.ctrlQueue.length < ctrlQueueCapacity then [i] else []
  | _ => []

namespace Session

def request (s : Session) (i : ℕ) : Option Request := (s.client.calls[i]?).map Call.request

/-- The next request to arrive, from `_ctrl_out.send(request.toByteArray())`. -/
def frame (codec : RequestCodec) (s : Session) : Option Frame :=
  (s.client.sent[s.received]?).bind fun i =>
    (s.request i).map fun req => codec.frame (codec.serialize req)

/-- The calls whose request the server has received, in their order. -/
def asked (s : Session) : List ℕ := s.client.sent.take s.received

end Session

def sessionStep (codec : RequestCodec) (tapeBasedir : Bytes) (s : Session) :
    SessionAction → Option Session
  | .client a =>
    if a.isAnswer then none
    else (clientStep s.client a).map fun client =>
      { s with client, queued := s.queued ++ s.client.puts a }
  | .server a =>
    if a.request.isSome then none
    else (step tapeBasedir s.server a).map fun server => { s with server }
  | .request fileExists =>
    (s.frame codec).bind fun frame =>
      (step tapeBasedir s.server (.inRecv (some frame) fileExists)).map fun server =>
        { s with server, received := s.received + 1 }

def sessionInitial (gBuffer : Memory) (buffer : Party → Memory) : Session where
  client := clientInitial
  server := initial gBuffer buffer
  queued := []
  received := 0

/-- The path of the tape fits the buffers of the server, also in an error text. -/
def Request.Fits (tapeBasedir : Bytes) (req : Request) : Prop :=
  ∀ tapeFile ∈ req.tapeFile, tapeBasedir.length + tapeFile.length +
    (varint req.requestId.toUInt64.toNat).length ≤ 1000

def RequestsFit (tapeBasedir : Bytes) (_ : Session) : SessionAction → Prop
  | .client (.call method _ nanoTime) => (method.build nanoTime).Fits tapeBasedir
  | _ => True

instance (tapeBasedir : Bytes) (req : Request) : Decidable (req.Fits tapeBasedir) :=
  inferInstanceAs (Decidable (∀ tapeFile ∈ req.tapeFile, _ ≤ 1000))

instance (tapeBasedir : Bytes) (s : Session) :
    (a : SessionAction) → Decidable (RequestsFit tapeBasedir s a)
  | .client (.call method _ nanoTime) =>
    inferInstanceAs (Decidable ((method.build nanoTime).Fits tapeBasedir))
  | .client (.setResponseProcessor _) | .client (.addRequest _) | .client .take | .client .send
  | .client (.answer ..) | .client (.receive _) | .client .processResponse
  | .client (.setDefaultResponseProcessor _) | .server _ | .request _ => isTrue trivial

inductive SessionMoves (codec : RequestCodec) (tapeBasedir : Bytes) (s : Session) :
    SessionAction → Session → Prop where
  | client {a client} (own : a.isAnswer = false) (moved : clientStep s.client a = some client) :
      SessionMoves codec tapeBasedir s (.client a)
        { s with client, queued := s.queued ++ s.client.puts a }
  | server {a server} (other : a.request = none)
      (moved : step tapeBasedir s.server a = some server) :
      SessionMoves codec tapeBasedir s (.server a) { s with server }
  | request {i req fileExists server} (next : s.client.sent[s.received]? = some i)
      (is : s.request i = some req)
      (moved : step tapeBasedir s.server
        (.inRecv (some (codec.frame (codec.serialize req))) fileExists) = some server) :
      SessionMoves codec tapeBasedir s (.request fileExists)
        { s with server, received := s.received + 1 }

variable {codec : RequestCodec} {tapeBasedir : Bytes} {s s' : Session} {a : SessionAction}

theorem sessionMoves_of_step (h : sessionStep codec tapeBasedir s a = some s') :
    SessionMoves codec tapeBasedir s a s' := by
  cases a with
  | client a =>
    simp only [sessionStep] at h
    cases hown : a.isAnswer with
    | true => simp [hown] at h
    | false =>
      simp only [hown, Bool.false_eq_true, if_false] at h
      obtain ⟨client, moved, rfl⟩ := Option.map_eq_some_iff.mp h
      exact .client hown moved
  | server a =>
    simp only [sessionStep] at h
    cases hother : a.request with
    | some x => simp [hother] at h
    | none =>
      simp only [hother, Option.isSome_none, Bool.false_eq_true, if_false] at h
      obtain ⟨server, moved, rfl⟩ := Option.map_eq_some_iff.mp h
      exact .server hother moved
  | request fileExists =>
    obtain ⟨frame, hframe, h⟩ := Option.bind_eq_some_iff.mp h
    obtain ⟨server, moved, rfl⟩ := Option.map_eq_some_iff.mp h
    obtain ⟨i, next, hframe⟩ := Option.bind_eq_some_iff.mp hframe
    obtain ⟨req, is, rfl⟩ := Option.map_eq_some_iff.mp hframe
    exact .request next is moved

theorem Request.Fits.short {req : Request} (h : req.Fits tapeBasedir) : req.Short := by
  intro tapeFile hfile
  have hfits := h tapeFile hfile
  omega

/-- The calls that have been added to the queue, oldest first. -/
def ClientState.outgoing (s : ClientState) : List ℕ := s.sent ++ s.ctrlOut.held ++ s.ctrlQueue

/-- A step of a client that is given no responses. -/
structure Continues (s s' : ClientState) (puts : List ℕ) : Prop where
  calls : s.calls <+: s'.calls
  sent : s.sent <+: s'.sent
  outgoing : s'.outgoing = s.outgoing ++ puts
  unanswered : s'.answers = []

private theorem continues_of_moves {s s' : ClientState} {a : ClientAction} (h : ClientMoves s a s')
    (own : a.isAnswer = false) (hs : s.answers = []) : Continues s s' (s.puts a) := by
  have hnone : s.responses = [] ∧ s.ctrlIn.held = [] := List.append_eq_nil_iff.mp hs
  have hkeep : ∀ {puts : List ℕ}, puts = [] → s.outgoing = s.outgoing ++ puts := by
    rintro _ rfl
    simp
  cases h with
  | call => exact ⟨List.prefix_append .., List.prefix_refl _, hkeep rfl, hs⟩
  | register | setDefault =>
    exact ⟨List.prefix_refl _, List.prefix_refl _, hkeep rfl, hs⟩
  | add mem room =>
    refine ⟨List.prefix_refl _, List.prefix_refl _, ?_, hs⟩
    simp [ClientState.outgoing, ClientState.puts, room]
  | throw mem full =>
    exact ⟨List.prefix_refl _, List.prefix_refl _, hkeep (if_neg (Nat.not_lt.mpr full)), hs⟩
  | take pc queue =>
    refine ⟨List.prefix_refl _, List.prefix_refl _, ?_, hs⟩
    simp [ClientState.outgoing, ClientState.puts, WorkerCtrlOutPc.held, pc, queue]
  | @send i call pc is =>
    refine ⟨List.prefix_refl _, List.prefix_append .., ?_, hs⟩
    have hheld : (if call.request.type = .shutdown then WorkerCtrlOutPc.finished
        else .take).held = [] := by
      split <;> rfl
    simp only [ClientState.outgoing, ClientState.puts, hheld]
    simp [WorkerCtrlOutPc.held, pc]
  | answer => cases own
  | receive pc mem => simp [hnone.1] at mem
  | contains pc | missing pc | process pc | removeNull pc | checkDefault pc | drop pc
  | processDefault pc | defaultNull pc => simp [pc, WorkerCtrlInPc.held] at hnone

/-- `as` is what the server has done. -/
structure SessionInv (tapeBasedir : Bytes) (gBuffer : Memory) (buffer : Party → Memory)
    (as : List Action) (s : Session) : Prop where
  server : Run (step tapeBasedir) unguarded (initial gBuffer buffer) as s.server
  requests : (requests as).map (fun x => some x.1) = s.asked.map s.request
  received : s.received ≤ s.client.sent.length
  fifo : s.queued = s.client.outgoing
  once : s.client.Once
  unanswered : s.client.answers = []
  fits : ∀ call ∈ s.client.calls, call.request.Fits tapeBasedir

section Steps

variable {gBuffer : Memory} {buffer : Party → Memory} {as : List Action}

theorem sessionInv_initial (tapeBasedir : Bytes) (gBuffer : Memory) (buffer : Party → Memory) :
    SessionInv tapeBasedir gBuffer buffer [] (sessionInitial gBuffer buffer) where
  server := .refl
  requests := rfl
  received := le_rfl
  fifo := rfl
  once := .refl _
  unanswered := rfl
  fits _ hcall := nomatch hcall

theorem SessionInv.mem_pending (hs : SessionInv tapeBasedir gBuffer buffer as s) {i : ℕ}
    (hi : i ∈ s.queued) : i ∈ s.client.pending := by
  refine List.mem_append_right _ ?_
  rw [hs.fifo] at hi
  simp only [ClientState.outgoing, ClientState.awaiting, List.mem_append] at hi ⊢
  tauto

theorem SessionInv.lt_length (hs : SessionInv tapeBasedir gBuffer buffer as s) {i : ℕ}
    (hi : i ∈ s.queued) : i < s.client.calls.length :=
  hs.once.lt_length (hs.mem_pending hi)

theorem SessionInv.asked_prefix (hs : SessionInv tapeBasedir gBuffer buffer as s) :
    s.asked <+: s.queued := by
  rw [hs.fifo]
  exact (List.take_prefix ..).trans ((List.prefix_append ..).trans (List.prefix_append ..))

theorem SessionInv.nodup (hs : SessionInv tapeBasedir gBuffer buffer as s) : s.queued.Nodup := by
  rw [hs.fifo, List.nodup_iff_count_le_one]
  intro i
  have honce := List.nodup_iff_count_le_one.mp hs.once.nodup_pending.of_append_right i
  simp only [ClientState.count_awaiting] at honce
  simp only [ClientState.outgoing, List.count_append]
  omega

theorem asked_of_continues {client : ClientState} {puts : List ℕ}
    (h : Continues s.client client puts) (hs : SessionInv tapeBasedir gBuffer buffer as s) :
    client.sent.take s.received = s.asked ∧
      ∀ i ∈ s.asked, (client.calls[i]?).map Call.request = s.request i := by
  obtain ⟨sent, hsent⟩ := h.sent
  obtain ⟨calls, hcalls⟩ := h.calls
  refine ⟨?_, fun i hi => ?_⟩
  · rw [← hsent, List.take_append_of_le_length hs.received, Session.asked]
  · rw [← hcalls, List.getElem?_append_left (hs.lt_length (hs.asked_prefix.subset hi)),
      Session.request]

private theorem fits_of_moves {s s' : ClientState} {a : ClientAction} (h : ClientMoves s a s')
    (hguard : ∀ method processor nanoTime, a = .call method processor nanoTime →
      (method.build nanoTime).Fits tapeBasedir)
    (hs : ∀ call ∈ s.calls, call.request.Fits tapeBasedir) :
    ∀ call ∈ s'.calls, call.request.Fits tapeBasedir := by
  cases h with
  | @call method processor nanoTime =>
    intro call hcall
    rcases List.mem_append.mp hcall with hold | hnew
    · exact hs call hold
    · obtain rfl := List.mem_singleton.mp hnew
      exact hguard method processor nanoTime rfl
  | _ => exact hs

theorem sessionInv_step (hs : SessionInv tapeBasedir gBuffer buffer as s)
    (hguard : RequestsFit tapeBasedir s a) (h : sessionStep codec tapeBasedir s a = some s') :
    ∃ bs, SessionInv tapeBasedir gBuffer buffer (as ++ bs) s' := by
  cases sessionMoves_of_step h with
  | @client a client own moved =>
    have hmoves := clientMoves_of_step moved
    have hcontinues := continues_of_moves hmoves own hs.unanswered
    obtain ⟨hasked, hrequest⟩ := asked_of_continues hcontinues hs
    refine ⟨[], ?_⟩
    rw [List.append_nil]
    exact {
      server := hs.server
      requests := by
        change _ = List.map _ (client.sent.take s.received)
        rw [hs.requests, hasked]
        exact (List.map_congr_left hrequest).symm
      received := hs.received.trans hcontinues.sent.length_le
      fifo := by rw [hcontinues.outgoing, ← hs.fifo]
      once := once_moves hs.once hmoves
      unanswered := hcontinues.unanswered
      fits := fits_of_moves hmoves (by rintro method processor nanoTime rfl; exact hguard) hs.fits }
  | @server a server other moved =>
    refine ⟨[a], hs.server.snoc trivial moved, ?_, hs.received, hs.fifo, hs.once, hs.unanswered,
      hs.fits⟩
    rw [requests_snoc_none as other]
    exact hs.requests
  | @request i req fileExists server next is moved =>
    obtain ⟨call, hcall, rfl⟩ := Option.map_eq_some_iff.mp is
    have hparse := codec.frame_serialize (hs.fits call (List.mem_of_getElem? hcall)).short
    have hrequest : Action.request
        (.inRecv (some (codec.frame (codec.serialize call.request))) fileExists) =
          some (call.request, fileExists) := by
      simp [Action.request, hparse]
    have hlt := (List.getElem?_eq_some_iff.mp next).1
    refine ⟨[_], hs.server.snoc trivial moved, ?_, hlt, hs.fifo, hs.once, hs.unanswered, hs.fits⟩
    rw [requests_snoc_some as hrequest, List.map_append, hs.requests]
    have hasked : s.client.sent.take (s.received + 1) = s.asked ++ [i] := by
      rw [List.take_add_one, next]
      rfl
    change _ = List.map s.request (s.client.sent.take (s.received + 1))
    rw [hasked, List.map_append, List.map_singleton, List.map_singleton, is]

theorem queued_prefix_of_step (hs : SessionInv tapeBasedir gBuffer buffer as s)
    (h : sessionStep codec tapeBasedir s a = some s') :
    s.queued <+: s'.queued ∧ s.client.calls <+: s'.client.calls := by
  cases sessionMoves_of_step h with
  | client own moved =>
    have hcontinues := continues_of_moves (clientMoves_of_step moved) own hs.unanswered
    exact ⟨List.prefix_append .., hcontinues.calls⟩
  | server | request => exact ⟨List.prefix_refl _, List.prefix_refl _⟩

end Steps

def SessionOk (tapeBasedir : Bytes) (gBuffer : Memory) (buffer : Party → Memory) (s : Session) :
    Prop :=
  ∃ as, SessionInv tapeBasedir gBuffer buffer as s

section Runs

variable {gBuffer : Memory} {buffer : Party → Memory} {bs : List SessionAction} {t : Session}

private theorem sessionOk_step (hs : SessionOk tapeBasedir gBuffer buffer s)
    (hguard : RequestsFit tapeBasedir s a) (h : sessionStep codec tapeBasedir s a = some s') :
    SessionOk tapeBasedir gBuffer buffer s' := by
  obtain ⟨as, hs⟩ := hs
  obtain ⟨cs, hs'⟩ := sessionInv_step hs hguard h
  exact ⟨_, hs'⟩

private theorem queued_prefix_of_run (hs : SessionOk tapeBasedir gBuffer buffer s)
    (run : Run (sessionStep codec tapeBasedir) (RequestsFit tapeBasedir) s bs t) :
    SessionOk tapeBasedir gBuffer buffer t ∧ s.queued <+: t.queued := by
  refine run.invariant (fun t => SessionOk tapeBasedir gBuffer buffer t ∧ s.queued <+: t.queued)
    ⟨hs, List.prefix_refl _⟩ ?_
  rintro t a u ⟨ht, hprefix⟩ hguard moved
  obtain ⟨as, hinv⟩ := ht
  exact ⟨sessionOk_step ⟨as, hinv⟩ hguard moved,
    hprefix.trans (queued_prefix_of_step hinv moved).1⟩

private theorem queued_before_later_call (hs : SessionOk tapeBasedir gBuffer buffer s)
    (run : Run (sessionStep codec tapeBasedir) (RequestsFit tapeBasedir) s bs t) {k i : ℕ}
    (hi : t.queued[k]? = some i) (hlater : s.client.calls.length ≤ i) : s.queued.length ≤ k := by
  obtain ⟨as, hinv⟩ := hs
  obtain ⟨_, later, hqueued⟩ := queued_prefix_of_run ⟨as, hinv⟩ run
  by_contra hlt
  rw [← hqueued, List.getElem?_append_left (by omega)] at hi
  have hmem := hinv.lt_length (List.mem_of_getElem? hi)
  omega

section Responses

variable {cs : List Action}

theorem SessionInv.control (hs : SessionInv tapeBasedir gBuffer buffer cs s) :
    ControlInv tapeBasedir cs s.server :=
  controlInv_run hs.server

theorem SessionInv.outInv (hs : SessionInv tapeBasedir gBuffer buffer cs s) : OutInv s.server :=
  (hs.server.invariant (fun t => ThreadsInv t ∧ OutInv t)
    ⟨threadsInv_initial _ _, outInv_initial _ _⟩
    (fun _ _ _ ht _ moved => ⟨threadsInv_step ht.1 moved, outInv_step ht.1 ht.2 moved⟩)).2

theorem SessionInv.cchanOut_prefix (hs : SessionInv tapeBasedir gBuffer buffer cs s) :
    s.server.cchanOut <+: s.server.pushed := by
  rw [hs.outInv.fifo, List.append_assoc]
  exact List.prefix_append ..

theorem SessionInv.cchanOut_prefix_responses (hs : SessionInv tapeBasedir gBuffer buffer cs s) :
    s.server.cchanOut <+: (served tapeBasedir ⟨wineingCtrlCmdInit, gBuffer, 0⟩
      ⟨wineingCtrlCmdInit, buffer .cchanIn, 0⟩ (Wineing.requests cs)).responses :=
  (sequenceInv_run hs.server).responses ▸
    hs.cchanOut_prefix.trans (List.prefix_append _ s.server.inHand)

theorem SessionInv.length_requests (hs : SessionInv tapeBasedir gBuffer buffer cs s) :
    (Wineing.requests cs).length = s.asked.length := by
  simpa using congrArg List.length hs.requests

theorem SessionInv.length_cchanOut_le (hs : SessionInv tapeBasedir gBuffer buffer cs s) :
    s.server.cchanOut.length ≤ s.asked.length := by
  have hserved := hs.cchanOut_prefix_responses.length_le
  rw [length_served_responses] at hserved
  rwa [← hs.length_requests]

theorem SessionInv.log_of_cchanOut (hs : SessionInv tapeBasedir gBuffer buffer cs s) {k : ℕ}
    {res : Response} (hres : s.server.cchanOut[k]? = some res) :
    ∃ x, (controlLog cs)[k]? = some x ∧ x.1.requestId = res.requestId ∧ x.2 = res.type := by
  obtain ⟨rest, hrest⟩ := hs.cchanOut_prefix.trans (List.prefix_append _ s.server.inHand)
  have hpushed : (s.server.pushed ++ s.server.inHand)[k]? = some res := by
    rw [← hrest, List.getElem?_append_left (List.getElem?_eq_some_iff.mp hres).1, hres]
  have hlog := congrArg (·[k]?) hs.control.responses
  simp only [List.getElem?_map, hpushed, Option.map_some] at hlog
  obtain ⟨x, hx, hsame⟩ := Option.map_eq_some_iff.mp hlog.symm
  exact ⟨x, hx, (Prod.mk.inj hsame).1, (Prod.mk.inj hsame).2⟩

theorem SessionInv.call_of_log (hs : SessionInv tapeBasedir gBuffer buffer cs s) {k : ℕ}
    {x : Request × ResponseType} (hx : (controlLog cs)[k]? = some x) :
    ∃ i, s.asked[k]? = some i ∧ s.request i = some x.1 := by
  have hrequest := congrArg (·[k]?) (controlLog_requests cs)
  simp only [List.getElem?_map, hx, Option.map_some] at hrequest
  obtain ⟨y, hy, hsame⟩ := Option.map_eq_some_iff.mp hrequest.symm
  have hasked := congrArg (·[k]?) hs.requests
  simp only [List.getElem?_map, hy, Option.map_some, hsame] at hasked
  exact Option.map_eq_some_iff.mp hasked.symm

theorem SessionInv.call_of_cchanOut (hs : SessionInv tapeBasedir gBuffer buffer cs s) {k : ℕ}
    {res : Response} (hres : s.server.cchanOut[k]? = some res) :
    ∃ i call, s.asked[k]? = some i ∧ s.client.calls[i]? = some call ∧
      res.requestId = call.request.requestId := by
  obtain ⟨x, hx, hid, _⟩ := hs.log_of_cchanOut hres
  obtain ⟨i, hi, hrequest⟩ := hs.call_of_log hx
  obtain ⟨call, hcall, hmade⟩ := Option.map_eq_some_iff.mp hrequest
  exact ⟨i, call, hi, hcall, by rw [hmade, hid]⟩

end Responses

theorem sessionOk_of_run
    (run : Run (sessionStep codec tapeBasedir) (RequestsFit tapeBasedir)
      (sessionInitial gBuffer buffer) bs s) : SessionOk tapeBasedir gBuffer buffer s :=
  (queued_prefix_of_run ⟨[], sessionInv_initial tapeBasedir gBuffer buffer⟩ run).1

end Runs

/-- The calls of an application take effect one after the other, in the order in which they
were added to the queue and none twice. The responses on `cchan_out` are those of serving their
requests so, with the ids of their calls; nothing is received after a shutdown; and a call that
is made later is served after those in the queue, with all that have been answered. -/
theorem session_linearizable (codec : RequestCodec) (tapeBasedir : Bytes) (gBuffer : Memory)
    (buffer : Party → Memory) (as : List SessionAction) (s : Session)
    (run : Run (sessionStep codec tapeBasedir) (RequestsFit tapeBasedir)
      (sessionInitial gBuffer buffer) as s) :
    s.asked <+: s.queued ∧ s.queued.Nodup ∧
    (∃ xs : List (Request × ℤ), xs.map (fun x => some x.1) = s.asked.map s.request ∧
      (xs.Pairwise fun x _ => x.1.type ≠ .shutdown) ∧
      s.server.cchanOut <+: (served tapeBasedir ⟨wineingCtrlCmdInit, gBuffer, 0⟩
        ⟨wineingCtrlCmdInit, buffer .cchanIn, 0⟩ xs).responses) ∧
    (∀ (k : ℕ) (res : Response), s.server.cchanOut[k]? = some res →
      ∃ i call, s.asked[k]? = some i ∧ s.client.calls[i]? = some call ∧
        res.requestId = call.request.requestId) ∧
    s.server.cchanOut.length ≤ s.queued.length ∧
    ∀ bs t, Run (sessionStep codec tapeBasedir) (RequestsFit tapeBasedir) s bs t →
      ∀ (k i : ℕ), t.asked[k]? = some i → s.client.calls.length ≤ i → s.queued.length ≤ k := by
  obtain ⟨cs, hs⟩ := sessionOk_of_run run
  refine ⟨hs.asked_prefix, hs.nodup,
    ⟨_, hs.requests, hs.control.requests_pairwise, hs.cchanOut_prefix_responses⟩,
    fun k res hres => hs.call_of_cchanOut hres,
    hs.length_cchanOut_le.trans hs.asked_prefix.length_le, ?_⟩
  intro bs t later k i hi hmade
  obtain ⟨⟨ds, ht⟩, _⟩ := queued_prefix_of_run ⟨cs, hs⟩ later
  obtain ⟨rest, hrest⟩ := ht.asked_prefix
  refine queued_before_later_call ⟨cs, hs⟩ later ?_ hmade
  rw [← hrest, List.getElem?_append_left (List.getElem?_eq_some_iff.mp hi).1, hi]

def sendRequest (i : ℕ) (method : ApiMethod) (nanoTime : Int64) : List SessionAction :=
  [.call method none nanoTime, .setResponseProcessor i, .addRequest i, .take, .send].map .client

/-- The steps in which a request that is acknowledged arrives and its response leaves. -/
def serveNext : List SessionAction :=
  [.server .inLoop, .request 0] ++ List.map .server ([.inPublish] ++ calls .cchanIn 8 ++
    [.inPush, .outRead] ++ calls .cchanOut 8 ++ [.outTest, .outRecv true, .outSend])

/-- A stop that is answered, and a shutdown called after it. -/
theorem session_linearizable_stop : ∃ s t : Session,
    Run (sessionStep wireCodec []) (RequestsFit []) (sessionInitial (fun _ => 0) (fun _ _ => 0))
      (sendRequest 0 .stop 5 ++ serveNext) s ∧
    Run (sessionStep wireCodec []) (RequestsFit []) s
      (sendRequest 1 .shutdown 6 ++ [.server .inLoop, .request 0]) t ∧
    s.server.cchanOut = [⟨5, .marketStopOk, none⟩] ∧ s.client.calls.length = 1 ∧
    t.asked = [0, 1] ∧ s.queued.length ≤ 1 := by
  obtain ⟨s, t, run, later, h⟩ := exists_runs_of_foldlM_map (sessionStep wireCodec [])
    (RequestsFit []) (RequestsFit []) (sessionInitial (fun _ => 0) (fun _ _ => 0))
    (sendRequest 0 .stop 5 ++ serveNext)
    (sendRequest 1 .shutdown 6 ++ [.server .inLoop, .request 0])
    (fun s t => (s.server.cchanOut, s.client.calls.length, t.asked))
    (b := ([⟨5, .marketStopOk, none⟩], 1, [0, 1])) (by decide +kernel)
  simp only [Prod.mk.injEq] at h
  obtain ⟨hresponses, hcalls, hasked⟩ := h
  have horder := (session_linearizable wireCodec [] _ _ _ s run).2.2.2.2.2 _ t later 1 1
  exact ⟨s, t, run, later, hresponses, hcalls, hasked, horder (by rw [hasked]; rfl) hcalls.le⟩

end Wineing
