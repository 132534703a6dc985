import Wineing.RemoteApiClient

/-!
# Responses and the calls they answer

The client tells its calls apart by the time they were made. A response finds the processor
of its call as long as no two calls that wait for their answers have the same id, unless
neither of them has a processor.
-/

namespace Wineing
open GuardedRuns

def Accepted (s : ClientState) : ClientAction → Prop
  | .addRequest _ => s.ctrlQueue.length < ctrlQueueCapacity
  | _ => True

def WorkerCtrlInPc.usesDefault : WorkerCtrlInPc → Bool
  | .processDefault _ => true
  | _ => false

/-- A call is not made in the same tick of the clock as one that waits for its answer, unless
neither has a processor. The default processor is not taken away between the test for it and
its use. -/
def KeptApart (s : ClientState) : ClientAction → Prop
  | .call _ processor nanoTime => ∀ i ∈ s.pending, ∀ call ∈ s.calls[i]?,
      call.request.requestId = nanoTime → call.processor = none ∧ processor = none
  | .setDefaultResponseProcessor processor =>
    s.ctrlIn.usesDefault = true → processor.isSome = true
  | _ => True

instance (s : ClientState) : (a : ClientAction) → Decidable (Accepted s a)
  | .addRequest _ => inferInstanceAs (Decidable (_ < _))
  | .call .. | .setResponseProcessor _ | .take | .send | .answer .. | .receive _
  | .processResponse | .setDefaultResponseProcessor _ => isTrue trivial

instance (s : ClientState) : (a : ClientAction) → Decidable (KeptApart s a)
  | .call _ _ nanoTime => inferInstanceAs (Decidable (∀ i ∈ s.pending, ∀ call ∈ s.calls[i]?,
      call.request.requestId = nanoTime → _ ∧ _))
  | .setDefaultResponseProcessor _ => inferInstanceAs (Decidable (_ → _))
  | .setResponseProcessor _ | .addRequest _ | .take | .send | .answer .. | .receive _
  | .processResponse => isTrue trivial

/-- What `processResponse` knows at its statements about the call of its answer. -/
def ClientState.AtAnswer (s : ClientState) : WorkerCtrlInPc → Prop
  | .receive | .containsKey _ => True
  | .remove v => ∃ call p, s.calls[v.1]? = some call ∧ call.processor = some p
  | .checkDefault v => ∃ call, s.calls[v.1]? = some call ∧ call.processor = none
  | .processDefault v => (∃ call, s.calls[v.1]? = some call ∧ call.processor = none) ∧
      ∃ p, s.defaultResponseProcessor = some p
  | .dead _ => False

/-- The map has the processors of the calls that wait for their answers, and no others. -/
structure Paired (s : ClientState) : Prop where
  apart : ∀ i ∈ s.pending, ∀ j ∈ s.pending, ∀ c d, s.calls[i]? = some c → s.calls[j]? = some d →
    c.request.requestId = d.request.requestId → i = j ∨ c.processor = none ∧ d.processor = none
  registered : ∀ i ∈ s.awaiting, ∀ c p, s.calls[i]? = some c → c.processor = some p →
    s.responseProcessors c.request.requestId = some p
  owned : ∀ id p, s.responseProcessors id = some p →
    ∃ i ∈ s.awaiting, ∃ c, s.calls[i]? = some c ∧ c.request.requestId = id ∧ c.processor = some p

/-- A response went to the processor of its call, or to the default one where it has none. -/
def ClientState.Delivered (s : ClientState) (v : Processed) : Prop :=
  ∃ call, s.calls[v.call]? = some call ∧ v.response.requestId = call.request.requestId ∧
    v.processor = call.processor.or v.default

variable {s s' : ClientState} {a : ClientAction}

theorem Moved.paired (h : Moved s s') (hs : Paired s) : Paired s' := by
  have hpending : s'.pending.Perm s.pending := by
    unfold ClientState.pending
    rw [h.building]
    exact h.awaiting.append_left _
  refine ⟨fun i hi j hj => ?_, fun i hi => ?_, fun id p hp => ?_⟩
  · rw [h.calls]
    exact hs.apart i (hpending.subset hi) j (hpending.subset hj)
  · rw [h.calls, h.processors]
    exact hs.registered i (h.awaiting.subset hi)
  · obtain ⟨i, hi, hc⟩ := hs.owned id p (h.processors ▸ hp)
    exact ⟨i, h.awaiting.symm.subset hi, h.calls ▸ hc⟩

theorem Finished.paired {v : Processed} (h : Finished s s' v) (hs : Paired s) (honce : s.Once)
    (hkept : ∀ i ∈ s.awaiting, i ≠ v.call → ∀ c p, s.calls[i]? = some c → c.processor = some p →
      s'.responseProcessors c.request.requestId = s.responseProcessors c.request.requestId)
    (hremoved : ∀ id p, s'.responseProcessors id = some p → s.responseProcessors id = some p ∧
      ∀ c, s.calls[v.call]? = some c → c.request.requestId = id → c.processor = none) :
    Paired s' := by
  have hsub : ∀ {i}, i ∈ s'.awaiting → i ∈ s.awaiting := fun hi =>
    h.awaiting.symm.subset (List.mem_cons_of_mem _ hi)
  have hne : ∀ {i}, i ∈ s'.awaiting → i ≠ v.call := by
    intro i hi heq
    have hnodup := honce.nodup_pending.of_append_right
    exact (List.nodup_cons.mp (h.awaiting.nodup_iff.mp hnodup)).1 (heq ▸ hi)
  have hpending : ∀ {i}, i ∈ s'.pending → i ∈ s.pending := fun hi => by
    rcases List.mem_append.mp hi with hi | hi
    · exact List.mem_append_left _ (h.building ▸ hi)
    · exact List.mem_append_right _ (hsub hi)
  refine ⟨fun i hi j hj => ?_, fun i hi c p hc hp => ?_, fun id p hp => ?_⟩
  · rw [h.calls]
    exact hs.apart i (hpending hi) j (hpending hj)
  · rw [h.calls] at hc
    rw [hkept i (hsub hi) (hne hi) c p hc hp]
    exact hs.registered i (hsub hi) c p hc hp
  · obtain ⟨hold, hnone⟩ := hremoved id p hp
    obtain ⟨i, hi, c, hc, hid, hcp⟩ := hs.owned id p hold
    refine ⟨i, ?_, c, h.calls ▸ hc, hid, hcp⟩
    refine (List.mem_cons.mp (h.awaiting.subset hi)).resolve_left fun heq => ?_
    simp [hnone c (heq ▸ hc) hid] at hcp

private theorem paired_call (hs : Paired s) (honce : s.Once) {method : ApiMethod}
    {processor : Option ResponseProcessor} {nanoTime : Int64}
    (hapart : KeptApart s (.call method processor nanoTime)) : Paired { s with
      calls := s.calls ++ [⟨method.build nanoTime, processor⟩]
      building := s.building ++ [s.calls.length] } := by
  have hcalls : ∀ {i}, i ∈ s.pending →
      (s.calls ++ [⟨method.build nanoTime, processor⟩])[i]? = s.calls[i]? := fun hi =>
    List.getElem?_append_left (honce.lt_length hi)
  have hnew : (s.calls ++ [⟨method.build nanoTime, processor⟩])[s.calls.length]? =
      some ⟨method.build nanoTime, processor⟩ := by simp
  -- a call is the new one or among those before
  have hcases : ∀ {i}, i ∈ s.building ++ [s.calls.length] ++ s.awaiting →
      i ∈ s.pending ∨ i = s.calls.length := by
    intro i hi
    simp only [List.mem_append, List.mem_singleton] at hi
    rcases hi with (hi | hi) | hi
    · exact .inl (List.mem_append_left _ hi)
    · exact .inr hi
    · exact .inl (List.mem_append_right _ hi)
  refine ⟨fun i hi j hj c d hc hd heq => ?_, fun i hi c p hc hp => ?_, fun id p hp => ?_⟩
  · rcases hcases hi with hi | rfl
    · rw [hcalls hi] at hc
      rcases hcases hj with hj | rfl
      · exact hs.apart i hi j hj c d hc (hcalls hj ▸ hd) heq
      · obtain rfl := Option.some.inj (hnew.symm.trans hd)
        exact .inr (hapart i hi c hc (heq.trans (method.build_requestId nanoTime)))
    · obtain rfl := Option.some.inj (hnew.symm.trans hc)
      rcases hcases hj with hj | rfl
      · rw [hcalls hj] at hd
        exact .inr (hapart j hj d hd (heq.symm.trans (method.build_requestId nanoTime))).symm
      · exact .inl rfl
  · have hi : i ∈ s.awaiting := hi
    rw [hcalls (List.mem_append_right _ hi)] at hc
    exact hs.registered i hi c p hc hp
  · obtain ⟨i, hi, c, hc, hcid, hcp⟩ := hs.owned id p hp
    exact ⟨i, hi, c, (hcalls (List.mem_append_right _ hi)).trans hc, hcid, hcp⟩

private theorem paired_register (hs : Paired s) {i : ℕ} {call : Call} (mem : i ∈ s.building)
    (is : s.calls[i]? = some call) : Paired { s with
      building := s.building.erase i
      registered := s.registered ++ [i]
      responseProcessors := call.register s.responseProcessors } := by
  have hawaiting := awaiting_register s i (call.register s.responseProcessors)
  have hcases : ∀ {j}, j ∈ ClientState.awaiting { s with
      building := s.building.erase i
      registered := s.registered ++ [i]
      responseProcessors := call.register s.responseProcessors } → j = i ∨ j ∈ s.awaiting :=
    fun hj => List.mem_cons.mp (hawaiting.subset hj)
  have hi : i ∈ s.pending := List.mem_append_left _ mem
  have hpending : ∀ {j}, j ∈ s.building.erase i ++ ClientState.awaiting { s with
      building := s.building.erase i
      registered := s.registered ++ [i]
      responseProcessors := call.register s.responseProcessors } → j ∈ s.pending := by
    intro j hj
    rcases List.mem_append.mp hj with hj | hj
    · exact List.mem_append_left _ (List.mem_of_mem_erase hj)
    · rcases hcases hj with rfl | hj
      · exact hi
      · exact List.mem_append_right _ hj
  refine ⟨fun j hj k hk => hs.apart j (hpending hj) k (hpending hk), fun j hj c p hc hp => ?_,
    fun id p hp => ?_⟩
  · have hregister : call.register s.responseProcessors c.request.requestId = some p := by
      rw [Call.register_eq]
      split
      case isTrue heq =>
        -- calls with one id are one call
        rcases hs.apart j (hpending (List.mem_append_right _ hj)) i hi c call hc is heq.2 with
          rfl | hnone
        · obtain rfl := Option.some.inj (is.symm.trans hc)
          exact hp
        · simp [hnone.1] at hp
      case isFalse hne =>
        rcases hcases hj with rfl | hj
        · obtain rfl := Option.some.inj (is.symm.trans hc)
          exact absurd ⟨by rw [hp]; rfl, rfl⟩ hne
        · exact hs.registered j hj c p hc hp
    exact hregister
  · have hregister : call.register s.responseProcessors id = some p := hp
    rw [Call.register_eq] at hregister
    split at hregister
    case isTrue heq =>
      exact ⟨i, hawaiting.symm.subset (List.mem_cons_self ..), call, is, heq.2.symm, hregister⟩
    case isFalse hne =>
      obtain ⟨j, hj, hc⟩ := hs.owned id p hregister
      exact ⟨j, hawaiting.symm.subset (List.mem_cons_of_mem _ hj), hc⟩

structure ClientInv (s : ClientState) : Prop where
  once : s.Once
  echoed : s.Echoed
  paired : Paired s
  atAnswer : s.AtAnswer s.ctrlIn
  delivered : ∀ v ∈ s.processed, s.Delivered v
  accepted : s.thrown = []

theorem clientInv_initial : ClientInv clientInitial where
  once := .refl _
  echoed _ hv := nomatch hv
  paired :=
    { apart := fun _ hi => nomatch hi
      registered := fun _ hi => nomatch hi
      owned := fun _ _ hp => nomatch hp }
  atAnswer := trivial
  delivered _ hv := nomatch hv
  accepted := rfl

theorem ClientInv.held (hs : ClientInv s) {v : Answer} (hheld : s.ctrlIn.held = [v]) :
    v.1 ∈ s.awaiting ∧
      ∃ call, s.calls[v.1]? = some call ∧ v.2.requestId = call.request.requestId := by
  have hanswer : v ∈ s.answers := List.mem_append_right _ (hheld ▸ List.mem_singleton_self v)
  exact ⟨List.mem_append_right _ (List.mem_map_of_mem hanswer), hs.echoed v hanswer⟩

theorem ClientInv.processor_of_found (hs : ClientInv s) {v : Answer} {p : ResponseProcessor}
    (hheld : s.ctrlIn.held = [v]) (found : s.responseProcessors v.2.requestId = some p) :
    ∃ call, s.calls[v.1]? = some call ∧ v.2.requestId = call.request.requestId ∧
      call.processor = some p := by
  obtain ⟨hwaits, call, hcall, hid⟩ := hs.held hheld
  obtain ⟨i, hi, c, hc, hcid, hcp⟩ := hs.paired.owned _ p found
  rcases hs.paired.apart i (List.mem_append_right _ hi) v.1 (List.mem_append_right _ hwaits) c call
    hc hcall (hcid.trans hid) with rfl | hnone
  · obtain rfl := Option.some.inj (hc.symm.trans hcall)
    exact ⟨c, hc, hid, hcp⟩
  · simp [hnone.1] at hcp

theorem ClientInv.processor_of_missing (hs : ClientInv s) {v : Answer}
    (hheld : s.ctrlIn.held = [v]) (missing : s.responseProcessors v.2.requestId = none) :
    ∃ call, s.calls[v.1]? = some call ∧ v.2.requestId = call.request.requestId ∧
      call.processor = none := by
  obtain ⟨hwaits, call, hcall, hid⟩ := hs.held hheld
  refine ⟨call, hcall, hid, ?_⟩
  cases hp : call.processor with
  | none => rfl
  | some p => simp [hid, hs.paired.registered v.1 hwaits call p hcall hp] at missing

private theorem paired_default (hs : ClientInv s) {v : Answer} {p d : Option ResponseProcessor}
    (hheld : s.ctrlIn.held = [v]) (hnone : s.AtAnswer (.checkDefault v)) : Paired { s with
      ctrlIn := .receive
      processed := s.processed ++ [⟨v.1, v.2, p, d⟩] } := by
  obtain ⟨call, hcall, hnone⟩ := hnone
  refine (finished_ctrlIn hheld).paired hs.paired hs.once (fun _ _ _ _ _ _ _ => rfl) ?_
  intro id q hq
  refine ⟨hq, fun c hc _ => ?_⟩
  obtain rfl := Option.some.inj (hc.symm.trans hcall)
  exact hnone

/-- The processor of a response is removed, and that of no other call. -/
private theorem paired_process (hs : ClientInv s) {v : Answer} {p : ResponseProcessor}
    {d : Option ResponseProcessor} (hheld : s.ctrlIn.held = [v])
    (found : s.responseProcessors v.2.requestId = some p) : Paired { s with
      responseProcessors := Function.update s.responseProcessors v.2.requestId none
      ctrlIn := .receive
      processed := s.processed ++ [⟨v.1, v.2, some p, d⟩] } := by
  obtain ⟨call, hcall, hid, hp⟩ := hs.processor_of_found hheld found
  refine (finished_ctrlIn hheld).paired hs.paired hs.once ?_ ?_
  · intro i hi hne c q hc hq
    -- another call with this id would have no processor
    have hid' : c.request.requestId ≠ v.2.requestId := by
      intro heq
      rcases hs.paired.apart i (List.mem_append_right _ hi) v.1
        (List.mem_append_right _ (hs.held hheld).1) c call hc hcall (heq.trans hid) with heq | hnone
      · exact hne heq
      · simp [hnone.1] at hq
    exact Function.update_of_ne hid' ..
  · intro id q hq
    by_cases heq : id = v.2.requestId
    · simp [heq] at hq
    · refine ⟨by simpa [heq] using hq, fun c hc hcid => ?_⟩
      obtain rfl := Option.some.inj (hc.symm.trans hcall)
      exact absurd (hcid.symm.trans hid.symm) heq

private theorem paired_moves (hs : ClientInv s) (haccepted : Accepted s a) (hapart : KeptApart s a)
    (h : ClientMoves s a s') : Paired s' := by
  cases h with
  | call => exact paired_call hs.paired hs.once hapart
  | register mem is => exact paired_register hs.paired mem is
  | add mem => exact (moved_add mem).paired hs.paired
  | throw mem full => exact absurd haccepted (Nat.not_lt.mpr full)
  | take pc queue => exact (moved_take pc queue).paired hs.paired
  | send pc => exact (moved_send pc (by split <;> rfl)).paired hs.paired
  | answer mem => exact (moved_answer mem).paired hs.paired
  | receive pc mem => exact (moved_receive pc mem).paired hs.paired
  | contains pc | missing pc | removeNull pc | checkDefault pc | defaultNull pc =>
    exact (moved_ctrlIn (by rw [pc]; rfl)).paired hs.paired
  | process pc found => exact paired_process hs (by rw [pc]; rfl) found
  | @drop v pc =>
    have hnone : s.AtAnswer (.checkDefault v) := pc ▸ hs.atAnswer
    exact paired_default hs (by rw [pc]; rfl) hnone
  | @processDefault v p pc =>
    have hanswer : s.AtAnswer (.processDefault v) := pc ▸ hs.atAnswer
    exact paired_default hs (by rw [pc]; rfl) hanswer.1
  | setDefault => exact ⟨hs.paired.apart, hs.paired.registered, hs.paired.owned⟩

theorem AtAnswer.moves {pc : WorkerCtrlInPc} (hs : s.AtAnswer pc) (h : ClientMoves s a s')
    (hdefault : s'.defaultResponseProcessor = s.defaultResponseProcessor) : s'.AtAnswer pc := by
  cases pc with
  | receive | containsKey => trivial
  | remove v =>
    obtain ⟨call, p, hcall, hp⟩ := hs
    exact ⟨call, p, calls_of_moves h hcall, hp⟩
  | checkDefault v =>
    obtain ⟨call, hcall, hp⟩ := hs
    exact ⟨call, calls_of_moves h hcall, hp⟩
  | processDefault v =>
    obtain ⟨⟨call, hcall, hp⟩, hset⟩ := hs
    exact ⟨⟨call, calls_of_moves h hcall, hp⟩, hdefault ▸ hset⟩
  | dead => exact hs

private theorem atAnswer_moves (hs : ClientInv s) (hapart : KeptApart s a) (h : ClientMoves s a s') :
    s'.AtAnswer s'.ctrlIn := by
  cases h with
  | receive | process | drop | processDefault => trivial
  | @contains v p pc found =>
    have hheld : s.ctrlIn.held = [v] := by rw [pc]; rfl
    obtain ⟨call, hcall, _, hp⟩ := hs.processor_of_found hheld found
    exact ⟨call, p, hcall, hp⟩
  | @missing v pc missing =>
    have hheld : s.ctrlIn.held = [v] := by rw [pc]; rfl
    obtain ⟨call, hcall, _, hnone⟩ := hs.processor_of_missing hheld missing
    exact ⟨call, hcall, hnone⟩
  | @removeNull v pc missing =>
    have hheld : s.ctrlIn.held = [v] := by rw [pc]; rfl
    obtain ⟨call, p, hcall, hp⟩ : s.AtAnswer (.remove v) := pc ▸ hs.atAnswer
    obtain ⟨call', hcall', _, hnone⟩ := hs.processor_of_missing hheld missing
    obtain rfl := Option.some.inj (hcall.symm.trans hcall')
    simp [hnone] at hp
  | @checkDefault v p pc set =>
    have hnone : s.AtAnswer (.checkDefault v) := pc ▸ hs.atAnswer
    exact ⟨hnone, p, set⟩
  | @defaultNull v pc unset =>
    obtain ⟨_, p, set⟩ : s.AtAnswer (.processDefault v) := pc ▸ hs.atAnswer
    simp [unset] at set
  | @setDefault p =>
    cases hpc : s.ctrlIn with
    | processDefault v =>
      have hanswer : s.AtAnswer (.processDefault v) := hpc ▸ hs.atAnswer
      have hset : p.isSome = true := hapart (by rw [hpc]; rfl)
      exact ⟨hanswer.1, Option.isSome_iff_exists.mp hset⟩
    | receive | containsKey => trivial
    | remove v | checkDefault v | dead v =>
      simpa [hpc, ClientState.AtAnswer] using hs.atAnswer
  | call clock => exact AtAnswer.moves hs.atAnswer (.call clock) rfl
  | _ => exact hs.atAnswer

private theorem delivered_default (hs : ClientInv s) {v : Answer} (hheld : s.ctrlIn.held = [v])
    (hnone : s.AtAnswer (.checkDefault v)) (d : Option ResponseProcessor) :
    s.Delivered ⟨v.1, v.2, d, d⟩ := by
  obtain ⟨_, call, hcall, hid⟩ := hs.held hheld
  obtain ⟨call', hcall', hnone⟩ := hnone
  obtain rfl := Option.some.inj (hcall.symm.trans hcall')
  exact ⟨call, hcall, hid, by rw [hnone]; rfl⟩

private theorem delivered_moves (hs : ClientInv s) (h : ClientMoves s a s') :
    ∀ v ∈ s'.processed, s'.Delivered v := by
  have hkeep : ∀ v, s.Delivered v → s'.Delivered v := by
    rintro v ⟨call, hcall, hp⟩
    exact ⟨call, calls_of_moves h hcall, hp⟩
  have hnew : ∀ v, s.Delivered v → ∀ w ∈ s.processed ++ [v], s'.Delivered w := by
    intro v hv w hw
    rcases List.mem_append.mp hw with hw | hw
    · exact hkeep w (hs.delivered w hw)
    · exact hkeep w (List.mem_singleton.mp hw ▸ hv)
  cases h with
  | @process v p pc found =>
    obtain ⟨call, hcall, hid, hp⟩ := hs.processor_of_found (by rw [pc]; rfl) found
    exact hnew _ ⟨call, hcall, hid, by rw [hp]; rfl⟩
  | @drop v pc =>
    have hnone : s.AtAnswer (.checkDefault v) := pc ▸ hs.atAnswer
    exact hnew _ (delivered_default hs (by rw [pc]; rfl) hnone none)
  | @processDefault v p pc =>
    have hanswer : s.AtAnswer (.processDefault v) := pc ▸ hs.atAnswer
    exact hnew _ (delivered_default hs (by rw [pc]; rfl) hanswer.1 (some p))
  | _ => exact fun v hv => hkeep v (hs.delivered v hv)

private theorem clientInv_step (hs : ClientInv s) (haccepted : Accepted s a) (hapart : KeptApart s a)
    (h : clientStep s a = some s') : ClientInv s' := by
  have hmoves := clientMoves_of_step h
  refine ⟨once_moves hs.once hmoves, echoed_moves hs.echoed hmoves,
    paired_moves hs haccepted hapart hmoves, atAnswer_moves hs hapart hmoves,
    delivered_moves hs hmoves, ?_⟩
  cases hmoves with
  | throw mem full => exact absurd haccepted (Nat.not_lt.mpr full)
  | _ => exact hs.accepted

def WorkerCtrlInPc.work : WorkerCtrlInPc → ℕ
  | .containsKey _ => 3
  | .checkDefault _ => 2
  | .remove _ | .processDefault _ => 1
  | .receive | .dead _ => 0

def ClientAction.processes : ClientAction → Bool
  | .receive _ | .processResponse => true
  | _ => false

def ClientAction.isProcessResponse : ClientAction → Bool
  | .processResponse => true
  | _ => false

def ClientState.answered (s : ClientState) : List ℕ :=
  s.processed.map Processed.call ++ s.answers.map Prod.fst

theorem WorkerCtrlInPc.work_le (pc : WorkerCtrlInPc) : pc.work ≤ 3 := by
  cases pc <;> simp [work]

private theorem held_moves {v : Answer} (hv : v ∈ s.ctrlIn.held) (h : ClientMoves s a s') :
    v.1 ∈ s'.processed.map Processed.call ∨ v ∈ s'.ctrlIn.held ∧
      s'.ctrlIn.work + (if a.isProcessResponse then 1 else 0) ≤ s.ctrlIn.work := by
  cases h with
  | receive pc => simp [pc, WorkerCtrlInPc.held] at hv
  | contains pc | missing pc | removeNull pc | checkDefault pc | defaultNull pc =>
    rw [pc] at hv ⊢
    exact .inr ⟨hv, by simp [WorkerCtrlInPc.work, ClientAction.isProcessResponse]⟩
  | process pc | drop pc | processDefault pc =>
    rw [pc] at hv
    obtain rfl := List.mem_singleton.mp hv
    exact .inl (by simp)
  | _ => exact .inr ⟨hv, by simp [ClientAction.isProcessResponse]⟩

private theorem processed_of_moves (h : ClientMoves s a s') {i : ℕ}
    (hi : i ∈ s.processed.map Processed.call) : i ∈ s'.processed.map Processed.call := by
  cases h with
  | process | drop | processDefault =>
    rw [List.map_append]
    exact List.mem_append_left _ hi
  | _ => exact hi

/-- An answer takes three statements at most, whatever else is done between them. -/
theorem ClientInv.processed_of_held (hs : ClientInv s) {v : Answer} (hv : v ∈ s.ctrlIn.held)
    {bs : List ClientAction}
    (run : Run clientStep (fun s a => Accepted s a ∧ KeptApart s a) s bs s')
    (hthree : 3 ≤ bs.countP ClientAction.isProcessResponse) :
    v.1 ∈ s'.processed.map Processed.call := by
  obtain ⟨hs', hprogress⟩ := run.history
    (fun bs t => ClientInv t ∧ (v.1 ∈ t.processed.map Processed.call ∨ v ∈ t.ctrlIn.held ∧
      t.ctrlIn.work + bs.countP ClientAction.isProcessResponse ≤ s.ctrlIn.work))
    ⟨hs, .inr ⟨hv, le_rfl⟩⟩ (by
      rintro bs t a u ⟨ht, hprogress⟩ ⟨haccepted, hapart⟩ hstep
      have hmoves := clientMoves_of_step hstep
      refine ⟨clientInv_step ht haccepted hapart hstep, ?_⟩
      rcases hprogress with hprocessed | ⟨hheld, hwork⟩
      · exact .inl (processed_of_moves hmoves hprocessed)
      · refine (held_moves hheld hmoves).imp_right fun ⟨hheld, hless⟩ => ⟨hheld, ?_⟩
        rw [List.countP_append, List.countP_singleton]
        omega)
  refine hprogress.resolve_right fun ⟨hheld, hwork⟩ => ?_
  have hle := s.ctrlIn.work_le
  have hnone : s'.ctrlIn.work = 0 := by omega
  have hanswer := hs'.atAnswer
  cases hpc : s'.ctrlIn <;>
    simp_all [WorkerCtrlInPc.work, WorkerCtrlInPc.held, ClientState.AtAnswer]

theorem ClientInv.exists_processes (hs : ClientInv s) (hanswers : s.answers ≠ []) :
    ∃ a t, ClientAction.processes a = true ∧ clientStep s a = some t := by
  cases hpc : s.ctrlIn with
  | receive =>
    have hresponses : s.responses ≠ [] := by
      simpa [ClientState.answers, hpc, WorkerCtrlInPc.held] using hanswers
    obtain ⟨v, hv⟩ := List.exists_mem_of_ne_nil _ hresponses
    refine ⟨.receive v, ?_⟩
    simp only [clientStep, hpc, hv, if_true]
    exact ⟨_, rfl, rfl⟩
  | containsKey v =>
    refine ⟨.processResponse, ?_⟩
    simp only [clientStep, ClientState.processResponse, hpc]
    exact ⟨_, rfl, rfl⟩
  | remove v | checkDefault v | processDefault v =>
    refine ⟨.processResponse, ?_⟩
    simp only [clientStep, ClientState.processResponse, hpc]
    split <;> exact ⟨_, rfl, rfl⟩
  | dead v =>
    have hanswer : s.AtAnswer (.dead v) := hpc ▸ hs.atAnswer
    exact hanswer.elim

private theorem processes_moves (h : ClientMoves s a s') (ha : a.processes = true) :
    s'.calls = s.calls ∧ s'.answered.Perm s.answered ∧
      4 * s'.responses.length + s'.ctrlIn.work < 4 * s.responses.length + s.ctrlIn.work := by
  cases h with
  | @receive v pc mem =>
    refine ⟨rfl, List.perm_iff_count.mpr fun k => ?_, ?_⟩
    · have herase := ((List.perm_cons_erase mem).map Prod.fst).count_eq k
      simp only [List.map_cons, List.count_cons] at herase
      simp only [ClientState.answered, ClientState.answers, pc, WorkerCtrlInPc.held, List.map_append,
        List.map_cons, List.map_nil, List.count_append, List.count_cons, List.count_nil]
      omega
    · have hlength := List.length_erase_of_mem mem
      have hpos := List.length_pos_of_mem mem
      simp only [pc, WorkerCtrlInPc.work]
      omega
  | contains pc | missing pc | removeNull pc | checkDefault pc | defaultNull pc =>
    refine ⟨rfl, ?_, by simp [pc, WorkerCtrlInPc.work]⟩
    simp only [ClientState.answered, ClientState.answers, pc, WorkerCtrlInPc.held]
    rfl
  | process pc | drop pc | processDefault pc =>
    refine ⟨rfl, List.perm_iff_count.mpr fun k => ?_, by simp [pc, WorkerCtrlInPc.work]⟩
    simp only [ClientState.answered, ClientState.answers, pc, WorkerCtrlInPc.held, List.map_append,
      List.map_cons, List.map_nil, List.count_append, List.count_cons, List.count_nil]
    omega
  | _ => exact Bool.noConfusion ha

/-- What has been answered can be processed, with nothing else done. -/
theorem ClientInv.exists_run_to_processed (hs : ClientInv s) :
    ∃ bs t, Run clientStep (fun _ a => a.processes = true) s bs t ∧ t.answers = [] ∧
      t.calls = s.calls ∧ (t.processed.map Processed.call).Perm s.answered := by
  have hprocessed : ∃ bs t, Run clientStep (fun _ a => a.processes = true) s bs t ∧
      t.answers = [] := by
    refine Run.exists_of_potential ClientInv (fun t => t.answers = [])
      (fun t => 4 * t.responses.length + t.ctrlIn.work) (fun t ht hanswers => ?_) hs
    obtain ⟨a, u, ha, hstep⟩ := ht.exists_processes hanswers
    have hallowed : Accepted t a ∧ KeptApart t a := by
      cases a <;> first | exact ⟨trivial, trivial⟩ | exact Bool.noConfusion ha
    exact ⟨a, u, ha, hstep, clientInv_step ht hallowed.1 hallowed.2 hstep,
      (processes_moves (clientMoves_of_step hstep) ha).2.2⟩
  obtain ⟨bs, t, run, hnone⟩ := hprocessed
  obtain ⟨hcalls, hperm⟩ := run.invariant
    (fun t => t.calls = s.calls ∧ t.answered.Perm s.answered) ⟨rfl, .refl _⟩ (by
      rintro t a u ⟨hcalls, hperm⟩ ha hstep
      obtain ⟨hsame, hkeep, _⟩ := processes_moves (clientMoves_of_step hstep) ha
      exact ⟨hsame.trans hcalls, hkeep.trans hperm⟩)
  refine ⟨bs, t, run, hnone, hcalls, ?_⟩
  simpa [ClientState.answered, hnone] using hperm

def request (i : ℕ) (method : ApiMethod) (processor : Option ResponseProcessor)
    (nanoTime : Int64) : List ClientAction :=
  [.call method processor nanoTime, .setResponseProcessor i, .addRequest i, .take, .send]

def respond (i : ℕ) (res : Response) : List ClientAction :=
  [.answer i res.type res.errText, .receive (i, res), .processResponse, .processResponse]

/-- A start without a processor and a stop with one, answered in the other order. -/
def startAndStop : List ClientAction :=
  request 0 (.start none) none 3 ++ request 1 .stop (some 4) 5 ++
    respond 1 ⟨5, .marketStopOk, none⟩ ++ [.setDefaultResponseProcessor (some 9)] ++
    respond 0 ⟨3, .marketStartOk, none⟩ ++ [.processResponse]

def startsInOneTick : List ClientAction :=
  request 0 (.start none) (some 1) 7 ++ request 1 (.start none) (some 2) 7 ++
    respond 0 ⟨7, .marketStartOk, none⟩ ++ respond 1 ⟨7, .marketStartErrRunning, none⟩

end Wineing
