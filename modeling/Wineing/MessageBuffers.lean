import Wineing.WineingProcess

/-!
# The message buffers and who deletes them

A buffer belongs to the thread that fills it and, once sent with a free function, to ZMQ.
A thread that goes on without its buffer, or hands it to ZMQ without a free function,
leaves it to nobody. `cchan_out_thread` does so when a receive fails, all three do when a
send fails, and `nxtape_process` does with every message.
-/

namespace Wineing
open CStringMemory GuardedRuns ResourceLedger

/-- After the operation nobody will delete the buffer it is about. -/
def BufferOp.Loses : BufferOp → Prop
  | .send _ freeFn => freeFn = false
  | .forget _ => True
  | _ => False

def BufferOp.Takes (p : Pthread) : BufferOp → Prop
  | .send q _ | .forget q => q = p
  | _ => False

namespace Buffers

/-- The buffer will be deleted by the free function of a message or is still to be sent. -/
def Owner (b : Buffers) (r : ℕ) : Prop := (∃ p, b.held p = some r) ∨ (r, true) ∈ b.inFlight

/-- A buffer that is not deleted is with one thread or in one message. -/
structure Ok (b : Buffers) : Prop where
  balanced : b.allocated.Balanced
  heldLive : ∀ p r, b.held p = some r → r ∈ b.allocated.live
  heldOnce : ∀ p q r, b.held p = some r → b.held q = some r → p = q
  heldApart : ∀ p r f, b.held p = some r → (r, f) ∉ b.inFlight
  inFlightLive : ∀ r f, (r, f) ∈ b.inFlight → r ∈ b.allocated.live
  inFlightOnce : (b.inFlight.map Prod.fst).Nodup

variable {b b' : Buffers} {p q : Pthread} {r : ℕ} {f freeFn : Bool} {op : BufferOp}

/-- What an operation does, one case for each kind of operation. -/
theorem apply_cases (h : b.apply op = some b') :
    (∃ p, op = .new p ∧ b.held p = none ∧ b' = { b with
      allocated := b.allocated.acquire
      held := Function.update b.held p (some b.allocated.next) }) ∨
    (∃ p, op = .fill p ∧ b' = b) ∨
    (∃ p freeFn r, op = .send p freeFn ∧ b.held p = some r ∧ b' = { b with
      held := Function.update b.held p none
      inFlight := b.inFlight ++ [(r, freeFn)] }) ∨
    (∃ p r, op = .forget p ∧ b.held p = some r ∧
      b' = { b with held := Function.update b.held p none }) ∨
    (∃ r freeFn, op = .done r freeFn ∧ (r, freeFn) ∈ b.inFlight ∧ b' = { b with
      allocated := if freeFn then b.allocated.release r else b.allocated
      inFlight := b.inFlight.erase (r, freeFn) }) := by
  cases op with
  | new p =>
    simp only [apply, Option.ite_none_right_eq_some, Option.some.injEq] at h
    exact .inl ⟨p, rfl, h.1, h.2.symm⟩
  | fill p =>
    simp only [apply, Option.ite_none_right_eq_some, Option.some.injEq] at h
    exact .inr (.inl ⟨p, rfl, h.2.symm⟩)
  | send p freeFn =>
    obtain ⟨r, hr, rfl⟩ := Option.map_eq_some_iff.mp h
    exact .inr (.inr (.inl ⟨p, freeFn, r, rfl, hr, rfl⟩))
  | forget p =>
    obtain ⟨r, hr, rfl⟩ := Option.map_eq_some_iff.mp h
    exact .inr (.inr (.inr (.inl ⟨p, r, rfl, hr, rfl⟩)))
  | done r freeFn =>
    simp only [apply, Option.ite_none_right_eq_some, Option.some.injEq] at h
    exact .inr (.inr (.inr (.inr ⟨r, freeFn, rfl, h.1, h.2.symm⟩)))

theorem held_of_update_none (h : Function.update b.held p none q = some r) :
    b.held q = some r ∧ q ≠ p := by
  by_cases hq : q = p
  · subst hq
    simp at h
  · exact ⟨by simpa [hq] using h, hq⟩

theorem held_of_update_some {n : ℕ} (h : Function.update b.held p (some n) q = some r) :
    b.held q = some r ∨ q = p ∧ r = n := by
  by_cases hq : q = p
  · subst hq
    exact .inr ⟨rfl, by simpa using h.symm⟩
  · exact .inl (by simpa [hq] using h)

theorem Ok.ne_of_mem_erase (hok : Ok b) (hr : (r, freeFn) ∈ b.inFlight) {n : ℕ}
    (hn : (n, f) ∈ b.inFlight.erase (r, freeFn)) : n ≠ r := by
  have hperm := (List.perm_cons_erase hr).map Prod.fst
  have hnodup := hperm.nodup_iff.mp hok.inFlightOnce
  intro heq
  exact (List.nodup_cons.mp hnodup).1 (List.mem_map.mpr ⟨(n, f), hn, heq⟩)

theorem ok_new (hok : Ok b) : Ok { b with
    allocated := b.allocated.acquire
    held := Function.update b.held p (some b.allocated.next) } := by
  have hfresh : ∀ r ∈ b.allocated.live, r ≠ b.allocated.next := fun r hr =>
    Nat.ne_of_lt (hok.balanced.lt_next hr)
  refine ⟨hok.balanced.acquire, fun q r hq => ?_, fun q₁ q₂ r h₁ h₂ => ?_, fun q r f hq hf => ?_,
    fun r f hf => Ledger.mem_live_acquire.mpr (.inl (hok.inFlightLive r f hf)), hok.inFlightOnce⟩
  · rcases held_of_update_some hq with hold | ⟨_, rfl⟩
    · exact Ledger.mem_live_acquire.mpr (.inl (hok.heldLive q r hold))
    · exact Ledger.mem_live_acquire.mpr (.inr rfl)
  · rcases held_of_update_some h₁ with hold₁ | ⟨rfl, hnew₁⟩
    · rcases held_of_update_some h₂ with hold₂ | ⟨_, hnew₂⟩
      · exact hok.heldOnce q₁ q₂ r hold₁ hold₂
      · exact absurd hnew₂ (hfresh r (hok.heldLive q₁ r hold₁))
    · rcases held_of_update_some h₂ with hold₂ | ⟨rfl, _⟩
      · exact absurd hnew₁ (hfresh r (hok.heldLive q₂ r hold₂))
      · rfl
  · rcases held_of_update_some hq with hold | ⟨_, rfl⟩
    · exact hok.heldApart q r f hold hf
    · exact hfresh _ (hok.inFlightLive _ f hf) rfl

private theorem ok_send (hok : Ok b) (hr : b.held p = some r) : Ok { b with
    held := Function.update b.held p none
    inFlight := b.inFlight ++ [(r, freeFn)] } := by
  refine ⟨hok.balanced, fun q n hq => ?_, fun q₁ q₂ n h₁ h₂ => ?_, fun q n f hq hf => ?_,
    fun n f hf => ?_, ?_⟩
  · exact hok.heldLive q n (held_of_update_none hq).1
  · exact hok.heldOnce q₁ q₂ n (held_of_update_none h₁).1 (held_of_update_none h₂).1
  · obtain ⟨hold, hne⟩ := held_of_update_none hq
    rcases List.mem_append.mp hf with hf | hf
    · exact hok.heldApart q n f hold hf
    · obtain ⟨rfl, _⟩ := Prod.mk.inj (List.mem_singleton.mp hf)
      exact hne (hok.heldOnce q p n hold hr)
  · rcases List.mem_append.mp hf with hf | hf
    · exact hok.inFlightLive n f hf
    · obtain ⟨rfl, _⟩ := Prod.mk.inj (List.mem_singleton.mp hf)
      exact hok.heldLive p n hr
  · simp only [List.map_append, List.map_cons, List.map_nil, List.nodup_append, List.mem_singleton]
    refine ⟨hok.inFlightOnce, List.nodup_singleton r, fun n hn m hm heq => ?_⟩
    obtain ⟨⟨_, f⟩, hf, rfl⟩ := List.mem_map.mp hn
    exact hok.heldApart p r f hr (hm ▸ heq ▸ hf)

private theorem ok_forget (hok : Ok b) : Ok { b with held := Function.update b.held p none } where
  balanced := hok.balanced
  heldLive q n hq := hok.heldLive q n (held_of_update_none hq).1
  heldOnce q₁ q₂ n h₁ h₂ := hok.heldOnce q₁ q₂ n (held_of_update_none h₁).1 (held_of_update_none h₂).1
  heldApart q n f hq := hok.heldApart q n f (held_of_update_none hq).1
  inFlightLive := hok.inFlightLive
  inFlightOnce := hok.inFlightOnce

private theorem ok_done (hok : Ok b) (hr : (r, freeFn) ∈ b.inFlight) : Ok { b with
    allocated := if freeFn then b.allocated.release r else b.allocated
    inFlight := b.inFlight.erase (r, freeFn) } := by
  have hlive : ∀ n ∈ b.allocated.live, n ≠ r →
      n ∈ (if freeFn then b.allocated.release r else b.allocated).live := by
    intro n hn hne
    split
    · exact hok.balanced.mem_live_release.mpr ⟨hne, hn⟩
    · exact hn
  refine ⟨?_, fun q n hq => hlive n (hok.heldLive q n hq) ?_, hok.heldOnce,
    fun q n f hq hf => hok.heldApart q n f hq (List.mem_of_mem_erase hf),
    fun n f hf => hlive n (hok.inFlightLive n f (List.mem_of_mem_erase hf))
      (hok.ne_of_mem_erase hr hf), ?_⟩
  · split
    · exact hok.balanced.release (hok.inFlightLive r _ hr)
    · exact hok.balanced
  · rintro rfl
    exact hok.heldApart q n freeFn hq hr
  · exact hok.inFlightOnce.sublist ((List.erase_sublist ..).map _)

private theorem ok_apply (hok : Ok b) (h : b.apply op = some b') : Ok b' := by
  obtain ⟨p, rfl, _, rfl⟩ | ⟨p, rfl, rfl⟩ | ⟨p, freeFn, r, rfl, hr, rfl⟩ | ⟨p, r, rfl, hr, rfl⟩ |
    ⟨r, freeFn, rfl, hr, rfl⟩ := apply_cases h
  · exact ok_new hok
  · exact hok
  · exact ok_send hok hr
  · exact ok_forget hok
  · exact ok_done hok hr

private theorem owned_apply (hok : Ok b) (howned : b.allocated.Owned b.Owner) (hkeeps : ¬ op.Loses)
    (h : b.apply op = some b') : b'.allocated.Owned b'.Owner := by
  obtain ⟨p, rfl, hnone, rfl⟩ | ⟨p, rfl, rfl⟩ | ⟨p, freeFn, r, rfl, hr, rfl⟩ |
    ⟨p, r, rfl, hr, rfl⟩ | ⟨r, freeFn, rfl, hr, rfl⟩ := apply_cases h
  · refine howned.acquire (fun n _ hn => ?_) (.inl ⟨p, Function.update_self ..⟩)
    refine hn.imp_left fun ⟨q, hq⟩ => ⟨q, ?_⟩
    have hne : q ≠ p := fun heq => by simp [heq, hnone] at hq
    simpa [hne] using hq
  · exact howned
  · obtain rfl : freeFn = true := by simpa [BufferOp.Loses] using hkeeps
    refine howned.mono fun n _ hn => ?_
    rcases hn with ⟨q, hq⟩ | hn
    · by_cases hqp : q = p
      · obtain rfl : n = r := Option.some.inj (hq.symm.trans (hqp ▸ hr))
        exact .inr (by simp)
      · exact .inl ⟨q, by simpa [hqp] using hq⟩
    · exact .inr (List.mem_append_left _ hn)
  · exact absurd trivial hkeeps
  · cases freeFn with
    | true =>
      refine howned.release hok.balanced fun n _ hne hn => hn.imp_right fun hn => ?_
      exact (List.mem_erase_of_ne (by simpa using hne)).mpr hn
    | false =>
      refine howned.mono fun n _ hn => hn.imp_right fun hn => ?_
      exact (List.mem_erase_of_ne (by simp)).mpr hn

private theorem lost_apply (hok : Ok b) (hlost : b.allocated.Lost b.Owner) (h : b.apply op = some b') :
    b'.allocated.Lost b'.Owner := by
  obtain ⟨p, rfl, _, rfl⟩ | ⟨p, rfl, rfl⟩ | ⟨p, freeFn, r, rfl, hr, rfl⟩ | ⟨p, r, rfl, hr, rfl⟩ |
    ⟨r, freeFn, rfl, hr, rfl⟩ := apply_cases h
  · refine hlost.acquire fun n hn howner => howner.imp_left fun ⟨q, hq⟩ => ⟨q, ?_⟩
    refine (held_of_update_some hq).resolve_right fun ⟨_, hnext⟩ => ?_
    exact Nat.ne_of_lt (hok.balanced.lt_next hn) hnext
  · exact hlost
  · refine hlost.mono fun n _ howner => ?_
    rcases howner with ⟨q, hq⟩ | hn
    · exact .inl ⟨q, (held_of_update_none hq).1⟩
    · rcases List.mem_append.mp hn with hn | hn
      · exact .inr hn
      · obtain ⟨rfl, _⟩ := Prod.mk.inj (List.mem_singleton.mp hn)
        exact .inl ⟨p, hr⟩
  · refine hlost.mono fun n _ howner => howner.imp_left fun ⟨q, hq⟩ => ⟨q, ?_⟩
    exact (held_of_update_none hq).1
  · have hkeep : ∀ n, (∃ q, b.held q = some n) ∨ (n, true) ∈ b.inFlight.erase (r, freeFn) →
        b.Owner n := fun n howner => howner.imp_right List.mem_of_mem_erase
    cases freeFn with
    | true => exact hlost.release hok.balanced (.inr hr) fun n _ howner => hkeep n howner
    | false => exact hlost.mono fun n _ howner => hkeep n howner

theorem lost_of_loses (hok : Ok b) (hloses : op.Loses) (h : b.apply op = some b') :
    b'.allocated.Lost b'.Owner := by
  have hgone : ∀ p r, b.held p = some r → ∀ q, Function.update b.held p none q ≠ some r := by
    intro p r hr q hq
    obtain ⟨hold, hne⟩ := held_of_update_none hq
    exact hne (hok.heldOnce q p r hold hr)
  obtain ⟨p, rfl, _, rfl⟩ | ⟨p, rfl, rfl⟩ | ⟨p, freeFn, r, rfl, hr, rfl⟩ | ⟨p, r, rfl, hr, rfl⟩ |
    ⟨r, freeFn, rfl, hr, rfl⟩ := apply_cases h
  · exact hloses.elim
  · exact hloses.elim
  · obtain rfl : freeFn = false := hloses
    refine ⟨r, hok.heldLive p r hr, ?_⟩
    rintro (⟨q, hq⟩ | hmem)
    · exact hgone p r hr q hq
    · rcases List.mem_append.mp hmem with hold | hnew
      · exact hok.heldApart p r true hr hold
      · simp at hnew
  · refine ⟨r, hok.heldLive p r hr, ?_⟩
    rintro (⟨q, hq⟩ | hmem)
    · exact hgone p r hr q hq
    · exact hok.heldApart p r true hr hmem
  · exact hloses.elim

private theorem held_apply (h : b.apply op = some b') (hp : b'.held p ≠ none) :
    op = .new p ∨ b.held p ≠ none ∧ ¬ op.Takes p := by
  obtain ⟨q, rfl, _, rfl⟩ | ⟨q, rfl, rfl⟩ | ⟨q, freeFn, r, rfl, hr, rfl⟩ | ⟨q, r, rfl, hr, rfl⟩ |
    ⟨r, freeFn, rfl, hr, rfl⟩ := apply_cases h
  · by_cases hpq : p = q
    · exact .inl (by rw [hpq])
    · exact .inr ⟨by simpa [hpq] using hp, id⟩
  · exact .inr ⟨hp, id⟩
  · have hpq : p ≠ q := fun heq => by simp [heq] at hp
    exact .inr ⟨by simpa [hpq] using hp, fun heq => hpq heq.symm⟩
  · have hpq : p ≠ q := fun heq => by simp [heq] at hp
    exact .inr ⟨by simpa [hpq] using hp, fun heq => hpq heq.symm⟩
  · exact .inr ⟨hp, id⟩

end Buffers

def State.InIteration (s : State) : Pthread → Prop
  | .cchanIn => s.waiting .cchanIn = true
  | .cchanOut => s.outPc = .recv ∨ ∃ res, s.outPc = .send res
  | .market => s.marketPc = .process .status

/-- No receive of `cchan_out_thread` and no send fails, and `nxtape_process` gets no message
that it sends on. -/
def NoBufferLost (s : Process) : ProcessAction → Prop
  | .run (.outRecv received) => received = true
  | .run .marketProcess => s.threads.marketPc ≠ .process .status
  | .sendFails _ => False
  | _ => True

section Steps

variable {tapeBasedir : Bytes} {s s' : Process} {a : ProcessAction} {p : Pthread}

theorem noBufferLost_iff : NoBufferLost s a ↔ ∀ op, s.bufferOp a = some op → ¬ op.Loses := by
  cases a with
  | sendFails p => simp [NoBufferLost, Process.bufferOp, BufferOp.Loses]
  | start | bind | newBuffer | zmqDone | destroy =>
    simp [NoBufferLost, Process.bufferOp, BufferOp.Loses]
  | run b =>
    cases b with
    | outRecv received =>
      cases received <;> simp [NoBufferLost, Process.bufferOp, State.bufferOp, BufferOp.Loses]
    | marketProcess => simp [NoBufferLost, Process.bufferOp, State.bufferOp, BufferOp.Loses]
    | inPush | outSend => simp [NoBufferLost, Process.bufferOp, State.bufferOp, BufferOp.Loses]
    | _ => simp [NoBufferLost, Process.bufferOp, State.bufferOp]

private theorem inIteration_of_moves {s s' : State} {a : Action} (h : Moves tapeBasedir s a s')
    (hp : s.InIteration p) :
    s'.InIteration p ∨ ∃ op, s.bufferOp a = some op ∧ op.Takes p := by
  cases p with
  | cchanIn =>
    cases h with
    | inPush => exact .inr ⟨_, rfl, rfl⟩
    | inLoop pc | inFinish pc | inRefuse pc | inAnswer pc | inPublish pc =>
      simp [State.InIteration, State.waiting, pc] at hp
    | _ => exact .inl hp
  | cchanOut =>
    cases h with
    | outRefuse | outSend => exact .inr ⟨_, rfl, rfl⟩
    | @outRecv res => exact .inl (.inr ⟨res, rfl⟩)
    | outRead pc | outFinish pc | outTest pc => simp [State.InIteration, pc] at hp
    | _ => exact .inl hp
  | market =>
    cases h with
    | @marketProcess message pc =>
      have hstatus : s.marketPc = .process .status := hp
      exact .inr ⟨_, if_pos hstatus, rfl⟩
    | marketRead pc | marketTest pc | marketRun pc | marketCallback pc | marketStop pc
    | marketContinue pc | marketTapeEnd pc | marketStopped pc =>
      simp [State.InIteration, pc] at hp
    | _ => exact .inl hp

theorem inIteration_of_processStep (h : processStep tapeBasedir s a = some s')
    (hp : s.threads.InIteration p) :
    s'.threads.InIteration p ∨ ∃ op, s.bufferOp a = some op ∧ op.Takes p := by
  have hthreads := threads_of_processStep h
  cases a with
  | run b => exact inIteration_of_moves (moves_of_step hthreads) hp
  | sendFails q =>
    by_cases hq : q = p
    · exact .inr ⟨_, rfl, hq⟩
    · refine .inl ?_
      rcases State.sendFails_cases hthreads with ⟨rfl, hs'⟩ | ⟨rfl, hs'⟩ | ⟨rfl, hs'⟩ <;>
        cases p <;> rw [hs'] <;> first | exact absurd rfl hq | exact hp
  | start | bind | newBuffer | zmqDone | destroy => exact .inl (Option.some.inj hthreads ▸ hp)

theorem eq_newBuffer_of_bufferOp (h : s.bufferOp a = some (.new p)) : a = .newBuffer p := by
  cases a with
  | newBuffer q => simpa [Process.bufferOp] using h
  | run b =>
    cases b with
    | outRecv received => cases received <;> simp [Process.bufferOp, State.bufferOp] at h
    | marketProcess => simp [Process.bufferOp, State.bufferOp] at h
    | _ => simp [Process.bufferOp, State.bufferOp] at h
  | _ => simp [Process.bufferOp] at h

private theorem inIteration_of_newBuffer (h : processStep tapeBasedir s (.newBuffer p) = some s') :
    s'.threads.InIteration p := by
  obtain ⟨hallocates, buffers, _, rfl⟩ := processStep_newBuffer h
  cases p with
  | cchanIn => exact hallocates.1
  | cchanOut => exact .inl hallocates
  | market => exact hallocates.1

/-- The buffers are with threads that are in their iteration. -/
structure BuffersInv (s : Process) : Prop where
  ok : s.buffers.Ok
  inIteration : ∀ p, s.buffers.held p ≠ none → s.threads.InIteration p

theorem buffersInv_initial (gBuffer : Memory) (buffer : Party → Memory) :
    BuffersInv (processInitial gBuffer buffer) where
  ok :=
    { balanced := Ledger.balanced_empty
      heldLive := fun _ _ h => nomatch h
      heldOnce := fun _ _ _ h => nomatch h
      heldApart := fun _ _ _ h => nomatch h
      inFlightLive := fun _ _ h => nomatch h
      inFlightOnce := List.nodup_nil }
  inIteration _ h := absurd rfl h

private theorem buffersInv_step (hinv : BuffersInv s) (h : processStep tapeBasedir s a = some s') :
    BuffersInv s' := by
  have hbuffers := buffers_of_processStep h
  cases hop : s.bufferOp a with
  | none =>
    simp only [hop] at hbuffers
    refine ⟨hbuffers ▸ hinv.ok, fun p hp => ?_⟩
    have hmoved := inIteration_of_processStep h (hinv.inIteration p (hbuffers ▸ hp))
    simpa [hop] using hmoved
  | some op =>
    simp only [hop] at hbuffers
    refine ⟨Buffers.ok_apply hinv.ok hbuffers, fun p hp => ?_⟩
    rcases Buffers.held_apply hbuffers hp with rfl | ⟨hold, hkept⟩
    · obtain rfl := eq_newBuffer_of_bufferOp hop
      exact inIteration_of_newBuffer h
    · rcases inIteration_of_processStep h (hinv.inIteration p hold) with hin | ⟨_, hop', htakes⟩
      · exact hin
      · exact absurd (Option.some.inj (hop.symm.trans hop') ▸ htakes) hkept

private theorem buffersOwned_step (hinv : BuffersInv s)
    (howned : s.buffers.allocated.Owned s.buffers.Owner) (hguard : NoBufferLost s a)
    (h : processStep tapeBasedir s a = some s') :
    s'.buffers.allocated.Owned s'.buffers.Owner := by
  have hbuffers := buffers_of_processStep h
  cases hop : s.bufferOp a with
  | none => simpa only [show s'.buffers = s.buffers by simpa [hop] using hbuffers] using howned
  | some op =>
    simp only [hop] at hbuffers
    exact Buffers.owned_apply hinv.ok howned (noBufferLost_iff.mp hguard op hop) hbuffers

private theorem bufferLost_step (hinv : BuffersInv s)
    (hlost : s.buffers.allocated.Lost s.buffers.Owner)
    (h : processStep tapeBasedir s a = some s') : s'.buffers.allocated.Lost s'.buffers.Owner := by
  have hbuffers := buffers_of_processStep h
  cases hop : s.bufferOp a with
  | none => simpa only [show s'.buffers = s.buffers by simpa [hop] using hbuffers] using hlost
  | some op =>
    simp only [hop] at hbuffers
    exact Buffers.lost_apply hinv.ok hlost hbuffers

theorem bufferLost_of_guard (hinv : BuffersInv s) (hguard : ¬ NoBufferLost s a)
    (h : processStep tapeBasedir s a = some s') : s'.buffers.allocated.Lost s'.buffers.Owner := by
  simp only [noBufferLost_iff, not_forall, not_not] at hguard
  obtain ⟨op, hop, hloses⟩ := hguard
  have hbuffers := buffers_of_processStep h
  simp only [hop] at hbuffers
  exact Buffers.lost_of_loses hinv.ok hloses hbuffers

end Steps

/-- Buffers are lost by the steps that `NoBufferLost` excludes, and by no others. -/
theorem bufferCustody (tapeBasedir : Bytes) : Custody (processStep tapeBasedir) NoBufferLost
    (fun s => s.buffers.allocated) (fun s => s.buffers.Owner) BuffersInv where
  inv _ _ _ := buffersInv_step
  owned _ _ _ := buffersOwned_step
  leak _ _ _ := bufferLost_of_guard
  lost _ _ _ := bufferLost_step

/-- Every buffer has been deleted once, or a thread in its iteration is about to send it, or
it is in a message with its free function. -/
structure Process.HandedOver (s : Process) : Prop where
  balanced : s.buffers.allocated.Balanced
  owned : ∀ r ∈ s.buffers.allocated.live,
    (∃ p, s.threads.InIteration p ∧ s.buffers.held p = some r) ∨ (r, true) ∈ s.buffers.inFlight

def Process.Quiescent (s : Process) : Prop :=
  (∀ p, ¬ s.threads.InIteration p) ∧ s.buffers.inFlight = []

/-- As long as none is lost the buffers are handed over exactly once; and when no iteration
and no message has a buffer all have been deleted, exactly when none was lost. -/
theorem buffers_deleted_iff (tapeBasedir : Bytes) (gBuffer : Memory) (buffer : Party → Memory)
    (as : List ProcessAction) (s : Process)
    (run : Run (processStep tapeBasedir) unguarded (processInitial gBuffer buffer) as s) :
    (Run (processStep tapeBasedir) NoBufferLost (processInitial gBuffer buffer) as s →
      s.HandedOver) ∧
    (s.Quiescent → (s.buffers.allocated.live = [] ↔
      Run (processStep tapeBasedir) NoBufferLost (processInitial gBuffer buffer) as s)) := by
  have hinitial := buffersInv_initial gBuffer buffer
  constructor
  · intro noneLost
    obtain ⟨hinv, howned⟩ := (bufferCustody tapeBasedir).owned_run hinitial rfl noneLost
    refine ⟨hinv.ok.balanced, fun r hr => (howned r hr).imp_left fun ⟨p, hp⟩ => ⟨p, ?_, hp⟩⟩
    exact hinv.inIteration p (by simp [hp])
  · rintro ⟨hidle, hnone⟩
    have hinv := run.invariant BuffersInv hinitial (fun _ _ _ ht _ => buffersInv_step ht)
    refine (bufferCustody tapeBasedir).live_nil_iff hinitial rfl run fun r => ?_
    rintro (⟨p, hp⟩ | hmem)
    · exact hidle p (hinv.inIteration p (by simp [hp]))
    · simp [hnone] at hmem

def Process.buffersLeft (s : Process) :
    (CchanInPc × CchanOutPc × MarketPc) × List (ℕ × Bool) × List ℕ × List ℕ :=
  ((s.threads.inPc, s.threads.outPc, s.threads.marketPc), s.buffers.inFlight,
    s.buffers.allocated.live, s.buffers.allocated.released)

theorem Process.quiescent_of_buffersLeft {s : Process} {live released : List ℕ}
    (h : s.buffersLeft = ((.loop, .read, .read), [], live, released)) :
    s.Quiescent ∧ s.buffers.allocated.live = live ∧ s.buffers.allocated.released = released := by
  simp only [Process.buffersLeft, Prod.mk.injEq] at h
  obtain ⟨⟨hin, hout, hmarket⟩, hinFlight, hlive, hreleased⟩ := h
  refine ⟨⟨fun p => ?_, hinFlight⟩, hlive, hreleased⟩
  cases p <;> simp [State.InIteration, State.waiting, hin, hout, hmarket]

/-- The steps in which `cchan_out_thread` gets to its receive, with a buffer for it. -/
def awaitResponse : List ProcessAction :=
  List.map .run (.outRead :: calls .cchanOut 8) ++ [.run .outTest, .newBuffer .cchanOut]

/-- A stop is answered and the answer sent on: ZMQ deletes both buffers. -/
def stopSentOn : List ProcessAction :=
  [.start .cchanOut, .bind .cchanOut true true, .bind .cchanOut true true,
    .start .cchanIn, .bind .cchanIn true true, .bind .cchanIn true true] ++
  serveRequest ⟨1, .marketStop, none⟩ 0 ++ awaitResponse ++
  [.run (.outRecv true), .zmqDone 0 true, .run .outSend, .zmqDone 1 true]

theorem buffers_deleted_iff_stop : ∃ s : Process,
    s.buffers.allocated.released = [0, 1] ∧
    Run (processStep []) NoBufferLost (processInitial (fun _ => 0) (fun _ _ => 0)) stopSentOn s := by
  obtain ⟨s, run, hs⟩ := exists_run_of_foldlM_map (processStep []) unguarded
    (processInitial (fun _ => 0) (fun _ _ => 0)) stopSentOn
    Process.buffersLeft (b := ((.loop, .read, .read), [], [], [0, 1])) (by decide)
  obtain ⟨hquiescent, hlive, hreleased⟩ := Process.quiescent_of_buffersLeft hs
  exact ⟨s, hreleased, ((buffers_deleted_iff [] _ _ _ s run).2 hquiescent).mp hlive⟩

def receiveFails : List ProcessAction :=
  [.start .cchanOut, .bind .cchanOut true true, .bind .cchanOut true true] ++ awaitResponse ++
  [.run (.outRecv false)]

/-- Nothing is under way or in flight any more, and the buffer has not been deleted. -/
theorem buffer_lost_on_failed_receive : ∃ s : Process,
    Run (processStep []) unguarded (processInitial (fun _ => 0) (fun _ _ => 0)) receiveFails s ∧
    s.Quiescent ∧ s.buffers.allocated.live = [0] ∧ s.buffers.allocated.released = [] := by
  obtain ⟨s, run, hs⟩ := exists_run_of_foldlM_map (processStep []) unguarded
    (processInitial (fun _ => 0) (fun _ _ => 0)) receiveFails Process.buffersLeft
    (b := ((.loop, .read, .read), [], [0], [])) (by decide)
  obtain ⟨hquiescent, hlive, hreleased⟩ := Process.quiescent_of_buffersLeft hs
  exact ⟨s, run, hquiescent, hlive, hreleased⟩

end Wineing
