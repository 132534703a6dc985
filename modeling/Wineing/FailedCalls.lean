import Wineing.ClientCorrelation

/-!
# Calls that fail

A call registers its processor and then adds its request to the queue, which throws when
the queue is full. The registration is not taken back: the processor stays in the map
under an id that no request has. As long as no call with a processor finds the queue full,
every processor in the map belongs to a request that is queued or has been taken.
-/

namespace Wineing
open GuardedRuns

namespace ClientState

/-- A call that is not interrupted: the request is built, its processor registered, and the
request added to the queue. -/
def put (s : ClientState) (method : ApiMethod) (processor : Option ResponseProcessor)
    (nanoTime : Int64) : Option ClientState :=
  [.call method processor nanoTime, .setResponseProcessor s.calls.length,
    .addRequest s.calls.length].foldlM clientStep s

def taken (s : ClientState) : List ℕ :=
  s.ctrlOut.held ++ s.sent ++ s.answers.map Prod.fst ++ s.processed.map Processed.call

/-- The request of the call is queued or has been taken, or is just about to be queued. -/
def Underway (s : ClientState) (i : ℕ) : Prop :=
  i ∈ s.registered ∨ i ∈ s.ctrlQueue ∨ i ∈ s.taken

/-- Every pending processor belongs to such a request. -/
def PendingOwned (s : ClientState) : Prop :=
  ∀ id p, s.responseProcessors id = some p → ∃ i, s.Underway i ∧
    ∃ call, s.calls[i]? = some call ∧ call.request.requestId = id ∧ call.processor = some p

theorem underway_iff (s : ClientState) (i : ℕ) :
    s.Underway i ↔ i ∈ s.awaiting ∨ i ∈ s.processed.map Processed.call := by
  simp only [Underway, taken, awaiting, List.mem_append]
  tauto

end ClientState

variable {s s' : ClientState} {a : ClientAction}

theorem put_cases {method : ApiMethod} {processor : Option ResponseProcessor} {nanoTime : Int64}
    (h : s.put method processor nanoTime = some s') :
    s'.responseProcessors = Call.register ⟨method.build nanoTime, processor⟩ s.responseProcessors ∧
    (s.ctrlQueue.length < ctrlQueueCapacity ∧ s'.thrown = s.thrown ∧
        s'.ctrlQueue = s.ctrlQueue ++ [s.calls.length] ∨
      ctrlQueueCapacity ≤ s.ctrlQueue.length ∧ s'.thrown = s.thrown ++ [s.calls.length] ∧
        s'.ctrlQueue = s.ctrlQueue) := by
  simp only [ClientState.put, List.foldlM_cons, List.foldlM_nil, Option.bind_eq_bind,
    Option.bind_eq_some_iff] at h
  obtain ⟨s₁, h₁, s₂, h₂, s₃, h₃, hs'⟩ := h
  obtain rfl := Option.some.inj hs'
  cases clientMoves_of_step h₁ with
  | call clock =>
    cases clientMoves_of_step h₂ with
    | @register i call mem is =>
      obtain rfl : (⟨method.build nanoTime, processor⟩ : Call) = call := by simpa using is
      cases clientMoves_of_step h₃ with
      | add mem room => exact ⟨rfl, .inl ⟨room, rfl, rfl⟩⟩
      | throw mem full => exact ⟨rfl, .inr ⟨full, rfl, rfl⟩⟩

/-- A call that throws leaves map and queue as they were, exactly when it does not throw or
its processor was registered for its id before. -/
theorem put_unchanged_iff {method : ApiMethod} {p : ResponseProcessor} {nanoTime : Int64}
    (h : s.put method (some p) nanoTime = some s') :
    (s'.thrown ≠ s.thrown →
        s'.responseProcessors = s.responseProcessors ∧ s'.ctrlQueue = s.ctrlQueue) ↔
      s.ctrlQueue.length < ctrlQueueCapacity ∨ s.responseProcessors nanoTime = some p := by
  obtain ⟨hmap, hroom | hfull⟩ := put_cases h
  · simp [hroom.1, hroom.2.1]
  · have hthrown : s'.thrown ≠ s.thrown := by simp [hfull.2.1]
    simp only [hthrown, ne_eq, not_false_eq_true, forall_const, hmap, hfull.2.2, and_true,
      Nat.not_lt.mpr hfull.1, false_or, Call.register, ApiMethod.build_requestId,
      Function.update_eq_self_iff]
    exact eq_comm

/-- A call with a processor does not find the queue full, unless another call of the same tick
with the same processor is under way. -/
def RoomForCall (s : ClientState) : ClientAction → Prop
  | .addRequest i => s.ctrlQueue.length < ctrlQueueCapacity ∨
      ∀ call ∈ s.calls[i]?, call.processor = none ∨ ∃ j ≠ i, s.Underway j ∧
        ∃ c, s.calls[j]? = some c ∧ c.request.requestId = call.request.requestId ∧
          c.processor = call.processor
  | _ => True

theorem Moved.underway (h : Moved s s') {i : ℕ} (hi : s.Underway i) : s'.Underway i := by
  rw [ClientState.underway_iff] at hi ⊢
  rw [h.processed]
  exact hi.imp_left fun hi => h.awaiting.symm.subset hi

theorem Finished.underway {v : Processed} (h : Finished s s' v) {i : ℕ} (hi : s.Underway i) :
    s'.Underway i := by
  rw [ClientState.underway_iff] at hi ⊢
  rw [h.processed, List.map_append, List.mem_append]
  rcases hi with hi | hi
  · rcases List.mem_cons.mp (h.awaiting.subset hi) with rfl | hi
    · exact .inr (.inr (List.mem_singleton_self _))
    · exact .inl hi
  · exact .inr (.inl hi)

private theorem underway_of_moves (h : ClientMoves s a s') {i : ℕ} (hi : s.Underway i) :
    s'.Underway i ∨ a = .addRequest i ∧ ctrlQueueCapacity ≤ s.ctrlQueue.length := by
  cases h with
  | call | setDefault => exact .inl hi
  | register => exact .inl (hi.imp_left (List.mem_append_left _))
  | @throw j mem full =>
    by_cases hij : i = j
    · exact .inr ⟨by rw [hij], full⟩
    · exact .inl (hi.imp_left (List.mem_erase_of_ne hij).mpr)
  | add mem => exact .inl ((moved_add mem).underway hi)
  | take pc queue => exact .inl ((moved_take pc queue).underway hi)
  | send pc => exact .inl ((moved_send pc (by split <;> rfl)).underway hi)
  | answer mem => exact .inl ((moved_answer mem).underway hi)
  | receive pc mem => exact .inl ((moved_receive pc mem).underway hi)
  | contains pc | missing pc | removeNull pc | checkDefault pc | defaultNull pc =>
    exact .inl ((moved_ctrlIn (by rw [pc]; rfl)).underway hi)
  | process pc | drop pc | processDefault pc =>
    exact .inl ((finished_ctrlIn (by rw [pc]; rfl)).underway hi)

private theorem processors_of_moves (h : ClientMoves s a s') {id : Int64} {p : ResponseProcessor}
    (hp : s'.responseProcessors id = some p) : s.responseProcessors id = some p ∨
      ∃ i call, i ∈ s'.registered ∧ s.calls[i]? = some call ∧ call.request.requestId = id ∧
        call.processor = some p := by
  cases h with
  | @register i call mem is =>
    have hregister : call.register s.responseProcessors id = some p := hp
    rw [Call.register_eq] at hregister
    split at hregister
    case isTrue heq =>
      exact .inr ⟨i, call, List.mem_append_right _ (List.mem_singleton_self i), is, heq.2.symm,
        hregister⟩
    case isFalse hne => exact .inl hregister
  | @process v q pc found =>
    have hupdate : Function.update s.responseProcessors v.2.requestId none id = some p := hp
    by_cases heq : id = v.2.requestId
    · simp [heq] at hupdate
    · exact .inl (by simpa [heq] using hupdate)
  | _ => exact .inl hp

private theorem pendingOwned_step (hs : s.PendingOwned) (hroom : RoomForCall s a)
    (h : clientStep s a = some s') : s'.PendingOwned := by
  have hmoves := clientMoves_of_step h
  intro id p hp
  rcases processors_of_moves hmoves hp with hold | ⟨i, call, hi, hcall, hid, hcp⟩
  · obtain ⟨i, hi, call, hcall, hid, hcp⟩ := hs id p hold
    rcases underway_of_moves hmoves hi with hi | ⟨rfl, full⟩
    · exact ⟨i, hi, call, calls_of_moves hmoves hcall, hid, hcp⟩
    · -- the request is refused, and the processor is also that of another call
      obtain ⟨j, hji, hj, c, hc, hcid, hcp'⟩ :=
        ((hroom.resolve_left (Nat.not_lt.mpr full)) call hcall).resolve_left (by simp [hcp])
      refine ⟨j, ?_, c, calls_of_moves hmoves hc, hcid.trans hid, hcp'.trans hcp⟩
      refine (underway_of_moves hmoves hj).resolve_right fun heq => ?_
      exact hji (ClientAction.addRequest.inj heq.1).symm
  · exact ⟨i, .inl hi, call, calls_of_moves hmoves hcall, hid, hcp⟩

/-- A call that throws changes neither map nor queue, exactly when it does not find the queue
full or its processor is registered for its id already; and as long as no call with a
processor finds the queue full, every processor in the map belongs to a request under way. -/
theorem failed_call_leaves_no_processor_iff (s : ClientState) :
    (∀ method p nanoTime s', s.put method (some p) nanoTime = some s' →
      ((s'.thrown ≠ s.thrown →
          s'.responseProcessors = s.responseProcessors ∧ s'.ctrlQueue = s.ctrlQueue) ↔
        s.ctrlQueue.length < ctrlQueueCapacity ∨ s.responseProcessors nanoTime = some p)) ∧
    ∀ as, Run clientStep RoomForCall clientInitial as s → s.PendingOwned := by
  refine ⟨fun method p nanoTime s' h => put_unchanged_iff h, fun as run => ?_⟩
  refine run.invariant ClientState.PendingOwned ?_ fun _ _ _ => pendingOwned_step
  intro id p hp
  cases hp

theorem roomForCall_of_accepted (h : Accepted s a) : RoomForCall s a := by
  cases a with
  | addRequest i => exact .inl h
  | _ => trivial

theorem failed_call_leaves_no_processor_iff_stop :
    (∃ s', clientInitial.put .stop (some 4) 5 = some s' ∧ (s'.thrown ≠ clientInitial.thrown →
      s'.responseProcessors = clientInitial.responseProcessors ∧
        s'.ctrlQueue = clientInitial.ctrlQueue)) ∧
    ∃ s : ClientState, Run clientStep Accepted clientInitial (request 0 .stop (some 4) 5) s ∧
      s.responseProcessors 5 = some 4 ∧ s.PendingOwned := by
  refine ⟨⟨_, rfl, ((failed_call_leaves_no_processor_iff _).1 _ _ _ _ rfl).mpr
    (.inl (by decide))⟩, ?_⟩
  obtain ⟨s, run, hs⟩ := exists_run_of_foldlM_map clientStep Accepted clientInitial
    (request 0 .stop (some 4) 5) (fun s => s.responseProcessors 5) (b := some 4) (by decide)
  exact ⟨s, run, hs, (failed_call_leaves_no_processor_iff s).2 _
    (run.mono fun t a => roomForCall_of_accepted)⟩

/-- The worker has sent a shutdown and takes nothing more. Twenty requests fill the queue. -/
def fullQueue : List ClientAction :=
  request 0 .shutdown none 0 ++
    (List.range 21).flatMap fun i => [.call .stop (if i = 20 then some 1 else none)
      (Int64.ofNat (i + 1)), .setResponseProcessor (i + 1), .addRequest (i + 1)]

/-- The processor of the next call stays behind. -/
theorem failed_call_leaves_processor : ∃ s : ClientState,
    Run clientStep unguarded clientInitial fullQueue s ∧ s.thrown = [21] ∧
    s.responseProcessors 21 = some 1 ∧ ¬ s.PendingOwned := by
  obtain ⟨s, run, hs⟩ := exists_run_of_foldlM_map clientStep unguarded clientInitial fullQueue
    (fun s => (s.thrown, s.responseProcessors 21,
      (s.registered ++ s.ctrlQueue ++ s.taken).map fun i => (s.calls[i]?).map Call.processor))
    (b := ([21], some 1, List.replicate 21 (some none))) (by decide)
  simp only [Prod.mk.injEq] at hs
  obtain ⟨hthrown, hpending, howners⟩ := hs
  refine ⟨s, run, hthrown, hpending, fun howned => ?_⟩
  obtain ⟨i, hi, call, hcall, _, hcp⟩ := howned 21 1 hpending
  have hmem : i ∈ s.registered ++ s.ctrlQueue ++ s.taken := by
    simpa [ClientState.Underway, or_assoc] using hi
  have hnone : some call.processor ∈ List.replicate 21 (some (none : Option ResponseProcessor)) := by
    rw [← howners]
    exact List.mem_map.mpr ⟨i, hmem, by rw [hcall]; rfl⟩
  rw [hcp] at hnone
  exact absurd (List.eq_of_mem_replicate hnone) (by decide)

end Wineing
