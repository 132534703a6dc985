import Wineing.ControlProtocol
import Wineing.GuardedRuns
import Mathlib.Data.List.Nodup
import Mathlib.Data.List.Perm.Basic

/-!
# The client of the remote API

The calls of `WineingRemoteAPIImpl` by any number of threads, the worker that sends the
requests and the one that hands the responses to processors. The server answers what is
sent, each request once with its id, and its responses arrive in any order.

A call is named by its position among all calls. The queue, the messages and what the
workers hold are given by the names of the calls they belong to; the program itself only
knows the request ids.
-/

namespace Wineing
open CStringMemory GuardedRuns

inductive ApiMethod
  | start (tapeFile : Option Bytes)
  | stop
  | shutdown

def ApiMethod.build (requestId : Int64) : ApiMethod → Request
  | .start tapeFile => ⟨requestId, .marketStart, tapeFile⟩
  | .stop => ⟨requestId, .marketStop, none⟩
  | .shutdown => ⟨requestId, .shutdown, none⟩

@[simp] theorem ApiMethod.build_requestId (method : ApiMethod) (requestId : Int64) :
    (method.build requestId).requestId = requestId := by
  cases method <;> rfl

/-- Processors are numbered; none is null. -/
abbrev ResponseProcessor := ℕ

structure Call where
  request : Request
  processor : Option ResponseProcessor
  deriving DecidableEq

abbrev Answer := ℕ × Response

inductive WorkerCtrlOutPc
  | take
  | send (call : ℕ)
  | finished
  deriving DecidableEq

/-- `WorkerCtrlIn.run`, and the statements of `processResponse`. A `NullPointerException`
ends the thread at the answer it has. -/
inductive WorkerCtrlInPc
  | receive
  | containsKey (answer : Answer)
  | remove (answer : Answer)
  | checkDefault (answer : Answer)
  | processDefault (answer : Answer)
  | dead (answer : Answer)
  deriving DecidableEq

/-- A response that `processResponse` is done with: the processor it went to, and the default
processor at that time. -/
structure Processed where
  call : ℕ
  response : Response
  processor : Option ResponseProcessor
  default : Option ResponseProcessor
  deriving DecidableEq

/-- `new ArrayBlockingQueue<Request>(20)` -/
def ctrlQueueCapacity : ℕ := 20

/-- `building` are the calls with a request that is not registered yet, `registered` those
about to add it to the queue, and `thrown` those that could not. -/
structure ClientState where
  calls : List Call
  building : List ℕ
  registered : List ℕ
  thrown : List ℕ
  responseProcessors : Int64 → Option ResponseProcessor
  ctrlQueue : List ℕ
  ctrlOut : WorkerCtrlOutPc
  sent : List ℕ
  responses : List Answer
  defaultResponseProcessor : Option ResponseProcessor
  ctrlIn : WorkerCtrlInPc
  processed : List Processed

/-- A call begins with its request, for which it reads the clock. -/
inductive ClientAction
  | call (method : ApiMethod) (processor : Option ResponseProcessor) (nanoTime : Int64)
  | setResponseProcessor (call : ℕ)
  | addRequest (call : ℕ)
  | take
  | send
  | answer (call : ℕ) (type : ResponseType) (errText : Option Bytes)
  | receive (answer : Answer)
  | processResponse
  | setDefaultResponseProcessor (processor : Option ResponseProcessor)

def WorkerCtrlOutPc.held : WorkerCtrlOutPc → List ℕ
  | .send call => [call]
  | _ => []

def WorkerCtrlInPc.held : WorkerCtrlInPc → List Answer
  | .receive => []
  | .containsKey answer | .remove answer | .checkDefault answer | .processDefault answer
  | .dead answer => [answer]

namespace ClientState

def answers (s : ClientState) : List Answer := s.responses ++ s.ctrlIn.held

/-- The calls that have registered their processor, up to the end of `processResponse`. -/
def awaiting (s : ClientState) : List ℕ :=
  s.registered ++ s.ctrlQueue ++ s.ctrlOut.held ++ s.sent ++ s.answers.map Prod.fst

def pending (s : ClientState) : List ℕ := s.building ++ s.awaiting

def ClockAllows (s : ClientState) (nanoTime : Int64) : Prop :=
  ∀ last ∈ s.calls.getLast?, last.request.requestId ≤ nanoTime

instance (s : ClientState) (nanoTime : Int64) : Decidable (s.ClockAllows nanoTime) :=
  inferInstanceAs (Decidable (∀ last ∈ s.calls.getLast?, _))

def processResponse (s : ClientState) : Option ClientState :=
  match s.ctrlIn with
  | .containsKey answer =>
    some { s with
      ctrlIn := if (s.responseProcessors answer.2.requestId).isSome then .remove answer
        else .checkDefault answer }
  | .remove answer =>
    match s.responseProcessors answer.2.requestId with
    | some p => some { s with
        responseProcessors := Function.update s.responseProcessors answer.2.requestId none
        ctrlIn := .receive
        processed := s.processed ++ [⟨answer.1, answer.2, some p, s.defaultResponseProcessor⟩] }
    | none => some { s with ctrlIn := .dead answer }
  | .checkDefault answer =>
    if s.defaultResponseProcessor.isSome then some { s with ctrlIn := .processDefault answer }
    else some { s with
      ctrlIn := .receive
      processed := s.processed ++ [⟨answer.1, answer.2, none, none⟩] }
  | .processDefault answer =>
    match s.defaultResponseProcessor with
    | some p => some { s with
        ctrlIn := .receive
        processed := s.processed ++ [⟨answer.1, answer.2, some p, some p⟩] }
    | none => some { s with ctrlIn := .dead answer }
  | _ => none

end ClientState

/-- `setResponseProcessor`, where the call has a processor. -/
def Call.register (call : Call) (processors : Int64 → Option ResponseProcessor) :
    Int64 → Option ResponseProcessor :=
  match call.processor with
  | some p => Function.update processors call.request.requestId (some p)
  | none => processors

theorem Call.register_eq (call : Call) (processors : Int64 → Option ResponseProcessor)
    (id : Int64) : call.register processors id =
      if call.processor.isSome = true ∧ id = call.request.requestId then call.processor
      else processors id := by
  unfold register
  cases call.processor with
  | none => simp
  | some p => simp [Function.update_apply]

def clientStep (s : ClientState) : ClientAction → Option ClientState
  | .call method processor nanoTime =>
    if s.ClockAllows nanoTime then some { s with
      calls := s.calls ++ [⟨method.build nanoTime, processor⟩]
      building := s.building ++ [s.calls.length] }
    else none
  | .setResponseProcessor i =>
    if i ∈ s.building then (s.calls[i]?).map fun call => { s with
      building := s.building.erase i
      registered := s.registered ++ [i]
      responseProcessors := call.register s.responseProcessors }
    else none
  | .addRequest i =>
    if i ∈ s.registered then
      if s.ctrlQueue.length < ctrlQueueCapacity then some { s with
        registered := s.registered.erase i
        ctrlQueue := s.ctrlQueue ++ [i] }
      else some { s with
        registered := s.registered.erase i
        thrown := s.thrown ++ [i] }
    else none
  | .take =>
    match s.ctrlOut, s.ctrlQueue with
    | .take, i :: ctrlQueue => some { s with ctrlQueue, ctrlOut := .send i }
    | _, _ => none
  | .send =>
    match s.ctrlOut with
    | .send i => (s.calls[i]?).map fun call => { s with
        ctrlOut := if call.request.type = .shutdown then .finished else .take
        sent := s.sent ++ [i] }
    | _ => none
  | .answer i type errText =>
    if i ∈ s.sent then (s.calls[i]?).map fun call => { s with
      sent := s.sent.erase i
      responses := s.responses ++ [(i, ⟨call.request.requestId, type, errText⟩)] }
    else none
  | .receive answer =>
    match s.ctrlIn with
    | .receive =>
      if answer ∈ s.responses then some { s with
        responses := s.responses.erase answer
        ctrlIn := .containsKey answer }
      else none
    | _ => none
  | .processResponse => s.processResponse
  | .setDefaultResponseProcessor p => some { s with defaultResponseProcessor := p }

def clientInitial : ClientState where
  calls := []
  building := []
  registered := []
  thrown := []
  responseProcessors _ := none
  ctrlQueue := []
  ctrlOut := .take
  sent := []
  responses := []
  defaultResponseProcessor := none
  ctrlIn := .receive
  processed := []

/-- What the steps do, with the conditions they are taken under. -/
inductive ClientMoves (s : ClientState) : ClientAction → ClientState → Prop where
  | call {method processor nanoTime} (clock : s.ClockAllows nanoTime) :
      ClientMoves s (.call method processor nanoTime) { s with
        calls := s.calls ++ [⟨method.build nanoTime, processor⟩]
        building := s.building ++ [s.calls.length] }
  | register {i call} (mem : i ∈ s.building) (is : s.calls[i]? = some call) :
      ClientMoves s (.setResponseProcessor i) { s with
        building := s.building.erase i
        registered := s.registered ++ [i]
        responseProcessors := call.register s.responseProcessors }
  | add {i} (mem : i ∈ s.registered) (room : s.ctrlQueue.length < ctrlQueueCapacity) :
      ClientMoves s (.addRequest i) { s with
        registered := s.registered.erase i
        ctrlQueue := s.ctrlQueue ++ [i] }
  | throw {i} (mem : i ∈ s.registered) (full : ctrlQueueCapacity ≤ s.ctrlQueue.length) :
      ClientMoves s (.addRequest i) { s with
        registered := s.registered.erase i
        thrown := s.thrown ++ [i] }
  | take {i ctrlQueue} (pc : s.ctrlOut = .take) (queue : s.ctrlQueue = i :: ctrlQueue) :
      ClientMoves s .take { s with ctrlQueue, ctrlOut := .send i }
  | send {i call} (pc : s.ctrlOut = .send i) (is : s.calls[i]? = some call) :
      ClientMoves s .send { s with
        ctrlOut := if call.request.type = .shutdown then .finished else .take
        sent := s.sent ++ [i] }
  | answer {i call type errText} (mem : i ∈ s.sent) (is : s.calls[i]? = some call) :
      ClientMoves s (.answer i type errText) { s with
        sent := s.sent.erase i
        responses := s.responses ++ [(i, ⟨call.request.requestId, type, errText⟩)] }
  | receive {answer} (pc : s.ctrlIn = .receive) (mem : answer ∈ s.responses) :
      ClientMoves s (.receive answer) { s with
        responses := s.responses.erase answer
        ctrlIn := .containsKey answer }
  | contains {answer p} (pc : s.ctrlIn = .containsKey answer)
      (found : s.responseProcessors answer.2.requestId = some p) :
      ClientMoves s .processResponse { s with ctrlIn := .remove answer }
  | missing {answer} (pc : s.ctrlIn = .containsKey answer)
      (missing : s.responseProcessors answer.2.requestId = none) :
      ClientMoves s .processResponse { s with ctrlIn := .checkDefault answer }
  | process {answer p} (pc : s.ctrlIn = .remove answer)
      (found : s.responseProcessors answer.2.requestId = some p) :
      ClientMoves s .processResponse { s with
        responseProcessors := Function.update s.responseProcessors answer.2.requestId none
        ctrlIn := .receive
        processed := s.processed ++ [⟨answer.1, answer.2, some p, s.defaultResponseProcessor⟩] }
  | removeNull {answer} (pc : s.ctrlIn = .remove answer)
      (missing : s.responseProcessors answer.2.requestId = none) :
      ClientMoves s .processResponse { s with ctrlIn := .dead answer }
  | checkDefault {answer p} (pc : s.ctrlIn = .checkDefault answer)
      (set : s.defaultResponseProcessor = some p) :
      ClientMoves s .processResponse { s with ctrlIn := .processDefault answer }
  | drop {answer} (pc : s.ctrlIn = .checkDefault answer)
      (unset : s.defaultResponseProcessor = none) :
      ClientMoves s .processResponse { s with
        ctrlIn := .receive
        processed := s.processed ++ [⟨answer.1, answer.2, none, none⟩] }
  | processDefault {answer p} (pc : s.ctrlIn = .processDefault answer)
      (set : s.defaultResponseProcessor = some p) :
      ClientMoves s .processResponse { s with
        ctrlIn := .receive
        processed := s.processed ++ [⟨answer.1, answer.2, some p, some p⟩] }
  | defaultNull {answer} (pc : s.ctrlIn = .processDefault answer)
      (unset : s.defaultResponseProcessor = none) :
      ClientMoves s .processResponse { s with ctrlIn := .dead answer }
  | setDefault {p} :
      ClientMoves s (.setDefaultResponseProcessor p) { s with defaultResponseProcessor := p }

variable {s s' : ClientState} {a : ClientAction}

theorem clientMoves_of_processResponse (h : s.processResponse = some s') :
    ClientMoves s .processResponse s' := by
  unfold ClientState.processResponse at h
  cases hpc : s.ctrlIn with
  | receive | dead => simp [hpc] at h
  | containsKey answer =>
    cases hfound : s.responseProcessors answer.2.requestId <;>
      simp only [hpc, hfound, Option.some.injEq] at h <;> subst h
    · exact .missing hpc hfound
    · exact .contains hpc hfound
  | remove answer =>
    cases hfound : s.responseProcessors answer.2.requestId <;>
      simp only [hpc, hfound, Option.some.injEq] at h <;> subst h
    · exact .removeNull hpc hfound
    · exact .process hpc hfound
  | checkDefault answer =>
    cases hset : s.defaultResponseProcessor <;>
      simp only [hpc, hset, Option.isSome, Bool.false_eq_true, ↓reduceIte, Option.some.injEq] at h <;>
      subst h
    · exact hset ▸ .drop hpc hset
    · exact hset ▸ .checkDefault hpc hset
  | processDefault answer =>
    cases hset : s.defaultResponseProcessor <;>
      simp only [hpc, hset, Option.some.injEq] at h <;> subst h
    · exact hset ▸ .defaultNull hpc hset
    · exact hset ▸ .processDefault hpc hset

theorem clientMoves_of_step (h : clientStep s a = some s') : ClientMoves s a s' := by
  cases a with
  | call method processor nanoTime =>
    simp only [clientStep, Option.ite_none_right_eq_some, Option.some.injEq] at h
    obtain ⟨clock, rfl⟩ := h
    exact .call clock
  | setResponseProcessor i =>
    simp only [clientStep, Option.ite_none_right_eq_some] at h
    obtain ⟨mem, h⟩ := h
    obtain ⟨call, is, rfl⟩ := Option.map_eq_some_iff.mp h
    exact .register mem is
  | addRequest i =>
    simp only [clientStep, Option.ite_none_right_eq_some] at h
    obtain ⟨mem, h⟩ := h
    split at h <;> cases h
    · exact .add mem ‹_›
    · exact .throw mem (Nat.le_of_not_lt ‹_›)
  | take =>
    cases hpc : s.ctrlOut <;> cases hqueue : s.ctrlQueue <;>
      simp only [clientStep, hpc, hqueue, Option.some.injEq, reduceCtorEq] at h
    subst h
    exact .take hpc hqueue
  | send =>
    cases hpc : s.ctrlOut <;> simp only [clientStep, hpc, reduceCtorEq] at h
    obtain ⟨call, is, rfl⟩ := Option.map_eq_some_iff.mp h
    exact .send hpc is
  | answer i type errText =>
    simp only [clientStep, Option.ite_none_right_eq_some] at h
    obtain ⟨mem, h⟩ := h
    obtain ⟨call, is, rfl⟩ := Option.map_eq_some_iff.mp h
    exact .answer mem is
  | receive answer =>
    cases hpc : s.ctrlIn <;>
      simp only [clientStep, hpc, Option.ite_none_right_eq_some, Option.some.injEq, reduceCtorEq] at h
    obtain ⟨mem, rfl⟩ := h
    exact .receive hpc mem
  | processResponse => exact clientMoves_of_processResponse h
  | setDefaultResponseProcessor p =>
    simp only [clientStep, Option.some.injEq] at h
    exact h ▸ .setDefault

/-- Every call is pending, has thrown, or has been processed, and only one of these once. -/
def ClientState.Once (s : ClientState) : Prop :=
  (s.pending ++ s.thrown ++ s.processed.map Processed.call).Perm (List.range s.calls.length)

/-- A step that leaves the calls where they are or hands them on. -/
structure Moved (s s' : ClientState) : Prop where
  calls : s'.calls = s.calls
  building : s'.building = s.building
  awaiting : s'.awaiting.Perm s.awaiting
  thrown : s'.thrown = s.thrown
  processors : s'.responseProcessors = s.responseProcessors
  processed : s'.processed = s.processed

/-- A step that is done with an answer. -/
structure Finished (s s' : ClientState) (v : Processed) : Prop where
  calls : s'.calls = s.calls
  building : s'.building = s.building
  awaiting : s.awaiting.Perm (v.call :: s'.awaiting)
  thrown : s'.thrown = s.thrown
  processed : s'.processed = s.processed ++ [v]

theorem ClientState.count_awaiting (s : ClientState) (k : ℕ) :
    s.awaiting.count k = s.registered.count k + s.ctrlQueue.count k + s.ctrlOut.held.count k +
      s.sent.count k + (s.responses.map Prod.fst).count k +
      (s.ctrlIn.held.map Prod.fst).count k := by
  simp only [awaiting, answers, List.map_append, List.count_append]
  omega

theorem moved_add {i : ℕ} (mem : i ∈ s.registered) : Moved s { s with
    registered := s.registered.erase i
    ctrlQueue := s.ctrlQueue ++ [i] } := by
  refine ⟨rfl, rfl, List.perm_iff_count.mpr fun k => ?_, rfl, rfl, rfl⟩
  have herase := (List.perm_cons_erase mem).count_eq k
  simp only [ClientState.count_awaiting, List.count_append, List.count_cons, List.count_nil]
    at herase ⊢
  omega

theorem moved_take {i : ℕ} {ctrlQueue : List ℕ} (pc : s.ctrlOut = .take)
    (queue : s.ctrlQueue = i :: ctrlQueue) : Moved s { s with ctrlQueue, ctrlOut := .send i } := by
  refine ⟨rfl, rfl, List.perm_iff_count.mpr fun k => ?_, rfl, rfl, rfl⟩
  simp only [ClientState.count_awaiting, pc, queue, WorkerCtrlOutPc.held, List.count_cons,
    List.count_nil]
  omega

theorem moved_send {i : ℕ} {pc : WorkerCtrlOutPc} (hpc : s.ctrlOut = .send i)
    (held : pc.held = []) : Moved s { s with ctrlOut := pc, sent := s.sent ++ [i] } := by
  refine ⟨rfl, rfl, List.perm_iff_count.mpr fun k => ?_, rfl, rfl, rfl⟩
  simp only [ClientState.count_awaiting, hpc, held, List.count_append, List.count_nil]
  simp only [WorkerCtrlOutPc.held]
  omega

theorem moved_answer {i : ℕ} {res : Response} (mem : i ∈ s.sent) : Moved s { s with
    sent := s.sent.erase i
    responses := s.responses ++ [(i, res)] } := by
  refine ⟨rfl, rfl, List.perm_iff_count.mpr fun k => ?_, rfl, rfl, rfl⟩
  have herase := (List.perm_cons_erase mem).count_eq k
  simp only [ClientState.count_awaiting, List.map_append, List.map_cons, List.map_nil,
    List.count_append, List.count_cons, List.count_nil] at herase ⊢
  omega

theorem moved_receive {answer : Answer} (pc : s.ctrlIn = .receive) (mem : answer ∈ s.responses) :
    Moved s { s with
      responses := s.responses.erase answer
      ctrlIn := .containsKey answer } := by
  refine ⟨rfl, rfl, List.perm_iff_count.mpr fun k => ?_, rfl, rfl, rfl⟩
  have herase := ((List.perm_cons_erase mem).map Prod.fst).count_eq k
  simp only [ClientState.count_awaiting, pc, WorkerCtrlInPc.held, List.map_cons, List.map_nil,
    List.count_cons, List.count_nil] at herase ⊢
  omega

theorem moved_ctrlIn {pc : WorkerCtrlInPc} (held : pc.held = s.ctrlIn.held) :
    Moved s { s with ctrlIn := pc } := by
  refine ⟨rfl, rfl, List.perm_iff_count.mpr fun k => ?_, rfl, rfl, rfl⟩
  simp only [ClientState.count_awaiting, held]

theorem finished_ctrlIn {v : Processed} {processors : Int64 → Option ResponseProcessor}
    (held : s.ctrlIn.held = [(v.call, v.response)]) : Finished s { s with
      responseProcessors := processors
      ctrlIn := .receive
      processed := s.processed ++ [v] } v := by
  refine ⟨rfl, rfl, List.perm_iff_count.mpr fun k => ?_, rfl, rfl⟩
  have hreceive : WorkerCtrlInPc.receive.held = [] := rfl
  simp only [ClientState.count_awaiting, List.count_cons, held, hreceive, List.map_cons,
    List.map_nil, List.count_nil]
  omega

theorem awaiting_register (s : ClientState) (i : ℕ)
    (processors : Int64 → Option ResponseProcessor) :
    (ClientState.awaiting { s with
      building := s.building.erase i
      registered := s.registered ++ [i]
      responseProcessors := processors }).Perm (i :: s.awaiting) := by
  refine List.perm_iff_count.mpr fun k => ?_
  simp only [ClientState.count_awaiting, List.count_append, List.count_cons, List.count_nil]
  omega

theorem ClientState.once_iff : s.Once ↔ ∀ k, s.building.count k + s.awaiting.count k +
    s.thrown.count k + (s.processed.map Processed.call).count k =
      (List.range s.calls.length).count k := by
  simp only [Once, pending, List.perm_iff_count, List.count_append]

theorem Moved.once (h : Moved s s') (hs : s.Once) : s'.Once := by
  simp only [ClientState.once_iff, h.calls, h.building, h.thrown, h.processed,
    h.awaiting.count_eq] at hs ⊢
  exact hs

theorem Finished.once {v : Processed} (h : Finished s s' v) (hs : s.Once) : s'.Once := by
  simp only [ClientState.once_iff, h.calls, h.building, h.thrown, h.processed,
    h.awaiting.count_eq, List.map_append, List.map_cons, List.map_nil, List.count_append,
    List.count_cons, List.count_nil] at hs ⊢
  intro k
  have hk := hs k
  omega

theorem once_moves (hs : s.Once) (h : ClientMoves s a s') : s'.Once := by
  cases h with
  | @call method processor nanoTime clock =>
    rw [ClientState.once_iff] at hs ⊢
    intro k
    have hk := hs k
    simp only [ClientState.count_awaiting, List.length_append, List.length_singleton,
      List.range_succ, List.count_append, List.count_cons, List.count_nil] at hk ⊢
    omega
  | @register i call mem is =>
    rw [ClientState.once_iff] at hs ⊢
    intro k
    have hk := hs k
    have herase := (List.perm_cons_erase mem).count_eq k
    have hawaiting := (awaiting_register s i (call.register s.responseProcessors)).count_eq k
    simp only [List.count_cons] at herase hawaiting ⊢
    omega
  | @throw i mem =>
    rw [ClientState.once_iff] at hs ⊢
    intro k
    have hk := hs k
    have herase := (List.perm_cons_erase mem).count_eq k
    simp only [ClientState.count_awaiting, List.count_append, List.count_cons,
      List.count_nil] at hk herase ⊢
    omega
  | add mem => exact (moved_add mem).once hs
  | take pc queue => exact (moved_take pc queue).once hs
  | send pc => exact (moved_send pc (by split <;> rfl)).once hs
  | answer mem => exact (moved_answer mem).once hs
  | receive pc mem => exact (moved_receive pc mem).once hs
  | contains pc | missing pc | removeNull pc | checkDefault pc | defaultNull pc =>
    exact (moved_ctrlIn (by rw [pc]; rfl)).once hs
  | process pc | drop pc | processDefault pc =>
    exact (finished_ctrlIn (by rw [pc]; rfl)).once hs
  | setDefault => exact hs

theorem calls_of_moves (h : ClientMoves s a s') {i : ℕ} {call : Call}
    (hi : s.calls[i]? = some call) : s'.calls[i]? = some call := by
  cases h with
  | call =>
    obtain ⟨hlt, _⟩ := List.getElem?_eq_some_iff.mp hi
    simpa [List.getElem?_append_left hlt] using hi
  | _ => exact hi

def ClientState.Echoed (s : ClientState) : Prop :=
  ∀ v ∈ s.answers, ∃ call, s.calls[v.1]? = some call ∧ v.2.requestId = call.request.requestId

/-- An answer that a step finds is one that it found, or the server has just made it. -/
private theorem answers_of_moves (h : ClientMoves s a s') {v : Answer} (hv : v ∈ s'.answers) :
    v ∈ s.answers ∨ ∃ i call type errText, s.calls[i]? = some call ∧
      v = (i, ⟨call.request.requestId, type, errText⟩) := by
  cases h with
  | @answer i call type errText mem is =>
    rcases List.mem_append.mp hv with hv | hv
    · rcases List.mem_append.mp hv with hv | hv
      · exact .inl (List.mem_append_left _ hv)
      · exact .inr ⟨i, call, type, errText, is, List.mem_singleton.mp hv⟩
    · exact .inl (List.mem_append_right _ hv)
  | receive pc mem =>
    rcases List.mem_append.mp hv with hv | hv
    · exact .inl (List.mem_append_left _ (List.mem_of_mem_erase hv))
    · exact .inl (List.mem_append_left _ (List.mem_singleton.mp hv ▸ mem))
  | contains pc | missing pc | removeNull pc | checkDefault pc | defaultNull pc =>
    refine .inl ?_
    simpa [ClientState.answers, pc, WorkerCtrlInPc.held] using hv
  | process | drop | processDefault =>
    refine .inl (List.mem_append_left _ ?_)
    simpa [ClientState.answers, WorkerCtrlInPc.held] using hv
  | _ => exact .inl hv

theorem echoed_moves (hs : s.Echoed) (h : ClientMoves s a s') : s'.Echoed := by
  intro v hv
  rcases answers_of_moves h hv with hold | ⟨i, call, type, errText, is, rfl⟩
  · obtain ⟨call, hcall, hid⟩ := hs v hold
    exact ⟨call, calls_of_moves h hcall, hid⟩
  · exact ⟨call, calls_of_moves h is, rfl⟩

theorem ClientState.Once.nodup_pending (hs : s.Once) : s.pending.Nodup :=
  (hs.nodup_iff.mpr List.nodup_range).of_append_left.of_append_left

theorem ClientState.Once.lt_length (hs : s.Once) {i : ℕ} (hi : i ∈ s.pending) :
    i < s.calls.length :=
  List.mem_range.mp (hs.subset (List.mem_append_left _ (List.mem_append_left _ hi)))

end Wineing
