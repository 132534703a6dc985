import Wineing.SocketLifetimes

/-!
# `main` around the threads

From `wineing_init`, after `cmd_parse`, to the end of `main`: it sets up what the threads
share, creates them, joins them and takes down again what they have shared. `zmq_term`
returns when all sockets of the context have been closed and all messages have left it. The
calls of `pthread_create` succeed; their results are not looked at.
-/

namespace Wineing
open CStringMemory GuardedRuns ResourceLedger

/-- Where `main` stands: before a call, or ended with an exit status. -/
inductive MainPc
  | init
  | create (p : Pthread)
  | join (p : Pthread)
  | term
  | destroy
  | ended (status : ℤ)
  deriving DecidableEq

/-- What the threads share: `my_zmq_ctx`, `g_lock`, `g_market_sync_mutex` with
`g_market_sync_cond`, and the dll behind `g_hlib`. -/
inductive Resource
  | zmqCtx
  | gLock
  | marketSync
  | hlib
  deriving DecidableEq

structure Main where
  process : Process
  pc : MainPc
  created : Pthread → Bool
  live : Resource → Bool

/-- `init` is given whether the dll could be loaded. -/
inductive MainAction
  | init (loaded : Bool)
  | create
  | join
  | term
  | destroy
  | thread (a : ProcessAction)

/-- `wineing_run` creates the threads in this order. -/
def afterCreate : Pthread → MainPc
  | .cchanOut => .create .cchanIn
  | .cchanIn => .create .market
  | .market => .join .market

/-- And joins them in this one. -/
def afterJoin : Pthread → MainPc
  | .market => .join .cchanOut
  | .cchanOut => .join .cchanIn
  | .cchanIn => .term

/-- The thread that takes the step; those of ZMQ have none. -/
def ProcessAction.pthread : ProcessAction → Option Pthread
  | .start p | .bind p _ _ | .newBuffer p | .sendFails p | .destroy p => some p
  | .run a => some a.pthread
  | .zmqDone _ _ => none

namespace Main

/-- The threads run once they have been created, and those of ZMQ while the context lives. -/
def Runs (s : Main) (a : ProcessAction) : Prop :=
  match a.pthread with
  | some p => s.created p = true
  | none => s.live .zmqCtx = true

instance (s : Main) (a : ProcessAction) : Decidable (s.Runs a) := by
  unfold Runs
  cases a.pthread <;> infer_instance

/-- `lazy_init`, before the dll is loaded. -/
def lazyInit (s : Main) : Main := { s with live := Function.update s.live .gLock true }

def wineingInit (s : Main) (loaded : Bool) : Main :=
  if loaded then { s with
    pc := .create .cchanOut
    live := Function.update (Function.update s.live .hlib true) .marketSync true }
  else { s with pc := .ended 1 }

def CanTerm (s : Main) : Prop :=
  s.process.sockets.handles.live = [] ∧ s.process.buffers.inFlight = []

instance (s : Main) : Decidable s.CanTerm := inferInstanceAs (Decidable (_ ∧ _))

end Main

def mainStep (tapeBasedir : Bytes) (s : Main) : MainAction → Option Main
  | .init loaded =>
    match s.pc with
    | .init => some (s.lazyInit.wineingInit loaded)
    | _ => none
  | .create =>
    match s.pc with
    | .create p => some { s with
        pc := afterCreate p
        created := Function.update s.created p true }
    | _ => none
  | .join =>
    match s.pc with
    | .join p => if s.process.life p = .returned then some { s with pc := afterJoin p } else none
    | _ => none
  | .term =>
    match s.pc with
    | .term =>
      if s.CanTerm then some { s with
        pc := .destroy
        live := Function.update s.live .zmqCtx false }
      else none
    | _ => none
  | .destroy =>
    match s.pc with
    -- the mutexes and the condition variable are destroyed and the dll is freed
    | .destroy => some { s with pc := .ended 0, live := fun r => r = .zmqCtx && s.live r }
    | _ => none
  | .thread a =>
    if s.Runs a then (processStep tapeBasedir s.process a).map fun process => { s with process }
    else none

def mainInitial (gBuffer : Memory) (buffer : Party → Memory) : Main where
  process := processInitial gBuffer buffer
  pc := .init
  created _ := false
  live r := r = .zmqCtx

/-- The threads that are still to be created where `p` is next. -/
def toCreate : Pthread → List Pthread
  | .cchanOut => [.cchanOut, .cchanIn, .market]
  | .cchanIn => [.cchanIn, .market]
  | .market => [.market]

def joined : Pthread → List Pthread
  | .market => []
  | .cchanOut => [.market]
  | .cchanIn => [.market, .cchanOut]

namespace Main

def Untouched (gBuffer : Memory) (buffer : Party → Memory) (s : Main) : Prop :=
  s.process = processInitial gBuffer buffer ∧ ∀ p, s.created p = false

def Cleared (s : Main) : Prop := s.process.Joined ∧ s.CanTerm ∧ s.live .zmqCtx = false

/-- What holds where `main` stands. -/
def Place (gBuffer : Memory) (buffer : Party → Memory) (s : Main) : Prop :=
  match s.pc with
  | .init => s.Untouched gBuffer buffer ∧ s.live .zmqCtx = true
  | .create p => (∀ r, s.live r = true) ∧ ∀ q ∈ toCreate p, s.created q = false
  | .join p => (∀ r, s.live r = true) ∧ ∀ q ∈ joined p, s.process.life q = .returned
  | .term => (∀ r, s.live r = true) ∧ s.process.Joined
  | .destroy => s.Cleared
  | .ended status => status = 1 ∧ s.Untouched gBuffer buffer ∨
      status = 0 ∧ s.Cleared ∧ ∀ r, s.live r = false

end Main

structure MainInv (gBuffer : Memory) (buffer : Party → Memory) (s : Main) : Prop where
  uncreated : ∀ p, s.created p = false → s.process.life p = .created
  place : s.Place gBuffer buffer

section Steps

variable {tapeBasedir : Bytes} {gBuffer : Memory} {buffer : Party → Memory}
variable {as : List MainAction} {s s' : Main} {t t' : Process} {a : ProcessAction} {p : Pthread}

theorem life_of_processStep (h : processStep tapeBasedir t a = some t')
    (hp : a.pthread ≠ some p) : t'.life p = t.life p := by
  cases a with
  | start q =>
    obtain ⟨_, rfl⟩ := processStep_start h
    exact Function.update_of_ne (fun heq => hp (congrArg some heq.symm)) ..
  | bind q created bound =>
    obtain ⟨first, _, _, rfl⟩ := processStep_bind h
    exact Function.update_of_ne (fun heq => hp (congrArg some heq.symm)) ..
  | destroy q =>
    have hne : p ≠ q := fun heq => hp (congrArg some heq.symm)
    rcases processStep_destroy h with ⟨_, rfl⟩ | ⟨_, rfl⟩ <;> exact Function.update_of_ne hne ..
  | run b =>
    obtain ⟨threads, buffers, _, _, rfl⟩ := processStep_run h
    rfl
  | newBuffer q =>
    obtain ⟨_, buffers, _, rfl⟩ := processStep_newBuffer h
    rfl
  | sendFails q =>
    obtain ⟨threads, buffers, _, _, rfl⟩ := processStep_sendFails h
    rfl
  | zmqDone r freeFn =>
    obtain ⟨buffers, _, rfl⟩ := processStep_zmqDone h
    rfl

theorem pthread_ne_of_returned (h : processStep tapeBasedir t a = some t')
    (hlife : t.life p = .returned) : a.pthread ≠ some p := by
  intro hp
  cases a with
  | start q | bind q created bound | newBuffer q | sendFails q | destroy q =>
    obtain rfl := Option.some.inj hp
    simp [processStep, hlife] at h
  | run b =>
    have hb : b.pthread = p := Option.some.inj hp
    simp [processStep, hb, hlife] at h
  | zmqDone r freeFn => cases hp

theorem returned_of_processStep (h : processStep tapeBasedir t a = some t')
    (hlife : t.life p = .returned) : t'.life p = .returned :=
  (life_of_processStep h (pthread_ne_of_returned h hlife)).trans hlife

theorem Process.Joined.step (hjoined : t.Joined) (h : processStep tapeBasedir t a = some t') :
    t'.Joined :=
  fun p => returned_of_processStep h (hjoined p)

private theorem mainStep_thread (h : mainStep tapeBasedir s (.thread a) = some s') :
    s.Runs a ∧ ∃ t, processStep tapeBasedir s.process a = some t ∧ s' = { s with process := t } := by
  simp only [mainStep, Option.ite_none_right_eq_some] at h
  obtain ⟨t, hstep, rfl⟩ := Option.map_eq_some_iff.mp h.2
  exact ⟨h.1, t, hstep, rfl⟩

theorem mainInv_initial (gBuffer : Memory) (buffer : Party → Memory) :
    MainInv gBuffer buffer (mainInitial gBuffer buffer) :=
  ⟨fun _ _ => rfl, ⟨rfl, fun _ => rfl⟩, rfl⟩

theorem Main.Untouched.no_step (hs : s.Untouched gBuffer buffer) (hruns : s.Runs a) :
    processStep tapeBasedir s.process a = none := by
  obtain ⟨hprocess, hcreated⟩ := hs
  cases hp : a.pthread with
  | some p => simp [Main.Runs, hp, hcreated] at hruns
  | none =>
    cases a with
    | zmqDone r freeFn => simp [hprocess, processStep, processInitial, Buffers.apply]
    | _ => cases hp

theorem Main.Cleared.no_step (hs : s.Cleared) (hruns : s.Runs a) :
    processStep tapeBasedir s.process a = none := by
  obtain ⟨hjoined, _, hctx⟩ := hs
  cases hp : a.pthread with
  | some p =>
    cases h : processStep tapeBasedir s.process a with
    | none => rfl
    | some t => exact absurd hp (pthread_ne_of_returned h (hjoined p))
  | none => simp [Main.Runs, hp, hctx] at hruns

private theorem mainInv_thread (hs : MainInv gBuffer buffer s)
    (h : mainStep tapeBasedir s (.thread a) = some s') : MainInv gBuffer buffer s' := by
  obtain ⟨hruns, t, hstep, rfl⟩ := mainStep_thread h
  have hsome : processStep tapeBasedir s.process a ≠ none := by simp [hstep]
  constructor
  · intro p hp
    refine (life_of_processStep hstep ?_).trans (hs.uncreated p hp)
    intro ha
    have hcreated : s.created p = true := by simpa [Main.Runs, ha] using hruns
    exact Bool.noConfusion (hp.symm.trans hcreated)
  · have hplace := hs.place
    unfold Main.Place at hplace ⊢
    cases hpc : s.pc with
    | init =>
      simp only [hpc] at hplace
      exact absurd (hplace.1.no_step hruns) hsome
    | create p => simpa only [hpc] using hplace
    | join p =>
      simp only [hpc] at hplace ⊢
      exact ⟨hplace.1, fun q hq => returned_of_processStep hstep (hplace.2 q hq)⟩
    | term =>
      simp only [hpc] at hplace ⊢
      exact ⟨hplace.1, hplace.2.step hstep⟩
    | destroy =>
      simp only [hpc] at hplace
      exact absurd (hplace.no_step hruns) hsome
    | ended status =>
      simp only [hpc] at hplace
      rcases hplace with ⟨_, huntouched⟩ | ⟨_, hcleared, _⟩
      · exact absurd (huntouched.no_step hruns) hsome
      · exact absurd (hcleared.no_step hruns) hsome

private theorem mainInv_init {loaded : Bool} (hs : MainInv gBuffer buffer s)
    (h : mainStep tapeBasedir s (.init loaded) = some s') : MainInv gBuffer buffer s' := by
  cases hpc : s.pc <;> simp only [mainStep, hpc, Option.some.injEq, reduceCtorEq] at h
  have hplace := hs.place
  simp only [Main.Place, hpc] at hplace
  obtain ⟨⟨hprocess, hcreated⟩, hctx⟩ := hplace
  subst h
  cases loaded with
  | false => exact ⟨hs.uncreated, .inl ⟨rfl, hprocess, hcreated⟩⟩
  | true =>
    refine ⟨hs.uncreated, fun r => ?_, fun q _ => hcreated q⟩
    cases r <;> simp [Main.wineingInit, Main.lazyInit, hctx]

private theorem mainInv_create (hs : MainInv gBuffer buffer s)
    (h : mainStep tapeBasedir s .create = some s') : MainInv gBuffer buffer s' := by
  cases hpc : s.pc with
  | create p =>
    have hplace := hs.place
    simp only [Main.Place, hpc] at hplace
    simp only [mainStep, hpc, Option.some.injEq] at h
    subst h
    constructor
    · intro q hq
      by_cases hqp : q = p
      · simp [hqp] at hq
      · exact hs.uncreated q (by simpa [hqp] using hq)
    · cases p <;> simp_all [Main.Place, afterCreate, toCreate, joined]
  | _ => simp [mainStep, hpc] at h

private theorem mainInv_join (hs : MainInv gBuffer buffer s)
    (h : mainStep tapeBasedir s .join = some s') : MainInv gBuffer buffer s' := by
  cases hpc : s.pc with
  | join p =>
    have hplace := hs.place
    simp only [Main.Place, hpc] at hplace
    simp only [mainStep, hpc, Option.ite_none_right_eq_some, Option.some.injEq] at h
    obtain ⟨hreturned, rfl⟩ := h
    refine ⟨hs.uncreated, ?_⟩
    cases p with
    | market | cchanOut => simp_all [Main.Place, afterJoin, joined]
    | cchanIn =>
      refine ⟨hplace.1, fun q => ?_⟩
      cases q with
      | cchanIn => exact hreturned
      | cchanOut | market => exact hplace.2 _ (by simp [joined])
  | _ => simp [mainStep, hpc] at h

private theorem mainInv_term (hs : MainInv gBuffer buffer s)
    (h : mainStep tapeBasedir s .term = some s') : MainInv gBuffer buffer s' := by
  cases hpc : s.pc <;> simp only [mainStep, hpc, Option.ite_none_right_eq_some, Option.some.injEq,
    reduceCtorEq] at h
  have hplace := hs.place
  simp only [Main.Place, hpc] at hplace
  obtain ⟨hcan, rfl⟩ := h
  exact ⟨hs.uncreated, hplace.2, hcan, by simp⟩

private theorem mainInv_destroy (hs : MainInv gBuffer buffer s)
    (h : mainStep tapeBasedir s .destroy = some s') : MainInv gBuffer buffer s' := by
  cases hpc : s.pc <;> simp only [mainStep, hpc, Option.some.injEq, reduceCtorEq] at h
  have hplace := hs.place
  simp only [Main.Place, hpc] at hplace
  obtain ⟨hjoined, hcan, hctx⟩ := hplace
  subst h
  refine ⟨hs.uncreated, .inr ⟨rfl, ⟨hjoined, hcan, ?_⟩, fun r => ?_⟩⟩
  · simp [hctx]
  · cases r <;> simp [hctx]

private theorem mainInv_step {b : MainAction} (hs : MainInv gBuffer buffer s)
    (h : mainStep tapeBasedir s b = some s') : MainInv gBuffer buffer s' := by
  cases b with
  | init loaded => exact mainInv_init hs h
  | create => exact mainInv_create hs h
  | join => exact mainInv_join hs h
  | term => exact mainInv_term hs h
  | destroy => exact mainInv_destroy hs h
  | thread a => exact mainInv_thread hs h

private theorem mainInv_run (run : Run (mainStep tapeBasedir) unguarded (mainInitial gBuffer buffer) as s) :
    MainInv gBuffer buffer s :=
  run.invariant _ (mainInv_initial gBuffer buffer) (fun _ _ _ ht _ => mainInv_step ht)

/-- While a thread can take a step, all that it may use is there. -/
theorem MainInv.live_of_thread (hs : MainInv gBuffer buffer s)
    (h : mainStep tapeBasedir s (.thread a) = some s') (r : Resource) : s.live r = true := by
  obtain ⟨hruns, t, hstep, _⟩ := mainStep_thread h
  have hsome : processStep tapeBasedir s.process a ≠ none := by simp [hstep]
  have hplace := hs.place
  unfold Main.Place at hplace
  cases hpc : s.pc with
  | create p | join p | term =>
    simp only [hpc] at hplace
    exact hplace.1 r
  | init =>
    simp only [hpc] at hplace
    exact absurd (hplace.1.no_step hruns) hsome
  | destroy =>
    simp only [hpc] at hplace
    exact absurd (hplace.no_step hruns) hsome
  | ended status =>
    simp only [hpc] at hplace
    rcases hplace with ⟨_, huntouched⟩ | ⟨_, hcleared, _⟩
    · exact absurd (huntouched.no_step hruns) hsome
    · exact absurd (hcleared.no_step hruns) hsome

theorem MainInv.cleared (hs : MainInv gBuffer buffer s) (hend : s.pc = .ended 0) :
    s.process.Joined ∧ s.CanTerm ∧ ∀ r, s.live r = false := by
  have hplace := hs.place
  simp only [Main.Place, hend] at hplace
  rcases hplace with ⟨hstatus, _⟩ | ⟨_, hcleared, hlive⟩
  · cases hstatus
  · exact ⟨hcleared.1, hcleared.2.1, hlive⟩

/-- The steps that lose no socket. -/
def Main.NoBindLeak (s : Main) : MainAction → Prop
  | .thread a => Wineing.NoBindLeak s.process a
  | _ => True

theorem process_of_mainStep {b : MainAction} (h : mainStep tapeBasedir s b = some s') :
    (s'.process = s.process ∧ s.NoBindLeak b) ∨
    ∃ a, processStep tapeBasedir s.process a = some s'.process ∧
      (s.NoBindLeak b ↔ NoBindLeak s.process a) := by
  cases b with
  | thread a =>
    obtain ⟨_, t, hstep, rfl⟩ := mainStep_thread h
    exact .inr ⟨a, hstep, .rfl⟩
  | init loaded =>
    refine .inl ⟨?_, trivial⟩
    cases hpc : s.pc <;> simp only [mainStep, hpc, Option.some.injEq, reduceCtorEq] at h
    subst h
    cases loaded <;> rfl
  | create | destroy =>
    refine .inl ⟨?_, trivial⟩
    cases hpc : s.pc <;> simp only [mainStep, hpc, Option.some.injEq, reduceCtorEq] at h
    subst h
    rfl
  | join | term =>
    refine .inl ⟨?_, trivial⟩
    cases hpc : s.pc <;> simp only [mainStep, hpc, Option.ite_none_right_eq_some,
      Option.some.injEq, reduceCtorEq] at h
    obtain ⟨_, rfl⟩ := h
    rfl

theorem mainCustody (tapeBasedir : Bytes) : Custody (mainStep tapeBasedir) Main.NoBindLeak
    (fun s => s.process.sockets.handles) (fun s => s.process.HandleOwner)
    (fun s => SocketsInv s.process) :=
  (socketCustody tapeBasedir).comap Main.process fun _ _ _ => process_of_mainStep

theorem Main.sockets_closed
    (run : Run (mainStep tapeBasedir) unguarded (mainInitial gBuffer buffer) as s)
    (hjoined : s.process.Joined) : s.process.sockets.handles.live = [] ↔
      Run (mainStep tapeBasedir) Main.NoBindLeak (mainInitial gBuffer buffer) as s := by
  refine (mainCustody tapeBasedir).live_nil_iff (socketsInv_initial gBuffer buffer) rfl run
    fun h => ?_
  rintro ⟨c, hbound, _⟩
  simp [Process.Bound, hjoined c.pthread, Pthread.bound] at hbound

def MainPc.callsLeft : MainPc → ℕ
  | .join .market => 5
  | .join .cchanOut => 4
  | .join .cchanIn => 3
  | .term => 2
  | .destroy => 1
  | _ => 0

theorem callsLeft_afterJoin (p : Pthread) :
    (afterJoin p).callsLeft < (MainPc.join p).callsLeft := by
  cases p <;> decide

theorem Buffers.exists_done {b : Buffers} (h : b.inFlight ≠ []) :
    ∃ r freeFn b', b.apply (.done r freeFn) = some b' ∧ b'.inFlight.length < b.inFlight.length := by
  obtain ⟨x, hx⟩ := List.exists_mem_of_ne_nil _ h
  refine ⟨x.1, x.2, _, if_pos hx, ?_⟩
  have hlength := List.length_erase_of_mem hx
  have hpos := List.length_pos_of_mem hx
  simp only [hlength]
  omega

/-- What `main` waits for, when the threads have returned and the sockets are closed, comes. -/
theorem exists_mainStep (tapeBasedir : Bytes) (hs : MainInv gBuffer buffer s)
    (hjoined : s.process.Joined) (hclosed : s.process.sockets.handles.live = [])
    (hend : s.pc ≠ .ended 0) :
    ∃ b s', mainStep tapeBasedir s b = some s' ∧ s'.process.Joined ∧
      s'.process.sockets.handles.live = [] ∧
      s'.pc.callsLeft + s'.process.buffers.inFlight.length <
        s.pc.callsLeft + s.process.buffers.inFlight.length := by
  have hplace := hs.place
  have hcreated : ∀ p, s.created p ≠ false := fun p hp =>
    Life.noConfusion ((hs.uncreated p hp).symm.trans (hjoined p))
  unfold Main.Place at hplace
  cases hpc : s.pc with
  | init =>
    simp only [hpc] at hplace
    exact absurd (hplace.1.2 .market) (hcreated _)
  | create p =>
    simp only [hpc] at hplace
    exact absurd (hplace.2 p (by cases p <;> simp [toCreate])) (hcreated p)
  | join p =>
    refine ⟨.join, { s with pc := afterJoin p }, by simp [mainStep, hpc, hjoined p], hjoined,
      hclosed, ?_⟩
    exact Nat.add_lt_add_right (callsLeft_afterJoin p) _
  | term =>
    simp only [hpc] at hplace
    by_cases hflight : s.process.buffers.inFlight = []
    · refine ⟨.term, { s with pc := .destroy, live := Function.update s.live .zmqCtx false },
        by simp [mainStep, hpc, Main.CanTerm, hclosed, hflight], hjoined, hclosed, ?_⟩
      exact Nat.add_lt_add_right (Nat.lt_succ_self 1) _
    · obtain ⟨r, freeFn, buffers, happly, hlt⟩ := Buffers.exists_done hflight
      refine ⟨.thread (.zmqDone r freeFn), { s with process := { s.process with buffers } }, ?_,
        hjoined, hclosed, ?_⟩
      · simp [mainStep, Main.Runs, ProcessAction.pthread, hplace.1, processStep, happly]
      · simpa [hpc] using hlt
  | destroy =>
    refine ⟨.destroy, { s with pc := .ended 0, live := fun r => r = .zmqCtx && s.live r },
      by simp [mainStep, hpc], hjoined, hclosed, ?_⟩
    exact Nat.add_lt_add_right Nat.zero_lt_one _
  | ended status =>
    simp only [hpc] at hplace
    rcases hplace with ⟨_, huntouched⟩ | ⟨rfl, _⟩
    · exact absurd (huntouched.2 .market) (hcreated _)
    · exact absurd hpc hend

theorem exists_run_to_end (tapeBasedir : Bytes) (hs : MainInv gBuffer buffer s)
    (hjoined : s.process.Joined) (hclosed : s.process.sockets.handles.live = []) :
    ∃ bs t, Run (mainStep tapeBasedir) unguarded s bs t ∧ t.pc = .ended 0 := by
  refine Run.exists_of_potential (fun t => MainInv gBuffer buffer t ∧ t.process.Joined ∧
    t.process.sockets.handles.live = []) (fun t => t.pc = .ended 0)
    (fun t => t.pc.callsLeft + t.process.buffers.inFlight.length) ?_ ⟨hs, hjoined, hclosed⟩
  rintro t ⟨ht, hjoined, hclosed⟩ hend
  obtain ⟨b, u, moved, hjoined', hclosed', hlt⟩ := exists_mainStep tapeBasedir ht hjoined hclosed hend
  exact ⟨b, u, trivial, moved, ⟨mainInv_step ht moved, hjoined', hclosed'⟩, hlt⟩

theorem sockets_of_joined {bs : List MainAction} {u : Main}
    (run : Run (mainStep tapeBasedir) unguarded s bs u) (hjoined : s.process.Joined) :
    u.process.sockets = s.process.sockets := by
  refine (run.invariant (fun u => u.process.Joined ∧ u.process.sockets = s.process.sockets)
    ⟨hjoined, rfl⟩ ?_).2
  rintro u b v ⟨hu, hsockets⟩ _ moved
  rcases process_of_mainStep moved with ⟨heq, _⟩ | ⟨a, hstep, _⟩
  · exact ⟨heq ▸ hu, heq ▸ hsockets⟩
  · refine ⟨hu.step hstep, ?_⟩
    have ha : a.opensOrCloses = false := by
      cases a with
      | bind p | destroy p => exact absurd rfl (pthread_ne_of_returned hstep (hu p))
      | _ => rfl
    exact (sockets_of_processStep hstep ha).1.trans hsockets

end Steps

/-- As long as a thread can take a step, the context, the locks and the dll it uses are there.
`main` returns only after all threads have, with every socket closed, every message gone and
all that they shared taken down. And once they have been joined it still returns exactly when
no bind has leaked a socket. -/
theorem main_returns_iff (tapeBasedir : Bytes) (gBuffer : Memory) (buffer : Party → Memory)
    (as : List MainAction) (s : Main)
    (run : Run (mainStep tapeBasedir) unguarded (mainInitial gBuffer buffer) as s) :
    (∀ a s', mainStep tapeBasedir s (.thread a) = some s' → ∀ r, s.live r = true) ∧
    (s.pc = .ended 1 → s.process = processInitial gBuffer buffer) ∧
    (s.pc = .ended 0 → s.process.Joined ∧ s.CanTerm ∧ ∀ r, s.live r = false) ∧
    (s.process.Joined →
      ((∃ bs t, Run (mainStep tapeBasedir) unguarded s bs t ∧ t.pc = .ended 0) ↔
        Run (mainStep tapeBasedir) Main.NoBindLeak (mainInitial gBuffer buffer) as s)) := by
  have hs := mainInv_run run
  have hplace := hs.place
  unfold Main.Place at hplace
  refine ⟨fun a s' h => hs.live_of_thread h, fun hpc => ?_, hs.cleared, fun hjoined => ?_⟩
  · simp only [hpc] at hplace
    rcases hplace with ⟨_, huntouched⟩ | ⟨hstatus, _⟩
    · exact huntouched.1
    · cases hstatus
  · rw [← Main.sockets_closed run hjoined]
    refine ⟨fun ⟨bs, t, later, hend⟩ => ?_, exists_run_to_end tapeBasedir hs hjoined⟩
    rw [← sockets_of_joined later hjoined]
    exact ((mainInv_run (run.trans later)).cleared hend).2.1.1

/-- The steps of `main` up to its joins, and those of the threads up to their ends. -/
def untilJoined (threads : List ProcessAction) : List MainAction :=
  [.init true, .create, .create, .create] ++ threads.map .thread

/-- The threads start in an order in which every connect finds its peer, and `main` returns; or
a connect comes too early, and it never does. -/
theorem main_returns_iff_in_order :
    (∃ bs s, Run (mainStep []) unguarded (mainInitial (fun _ => 0) (fun _ _ => 0))
        (untilJoined bindsInOrder ++ bs) s ∧ s.pc = .ended 0) ∧
    ∃ s, Run (mainStep []) unguarded (mainInitial (fun _ => 0) (fun _ _ => 0))
        (untilJoined earlyConnect) s ∧
      s.process.Joined ∧ ∀ bs t, Run (mainStep []) unguarded s bs t → t.pc ≠ .ended 0 := by
  constructor
  · obtain ⟨s, run, hs⟩ := exists_run_of_foldlM_map (mainStep []) unguarded
      (mainInitial (fun _ => 0) (fun _ _ => 0))
      (untilJoined bindsInOrder) (fun s => s.process.socketsLeft)
      (b := ([.returned, .returned, .returned], [], [2, 3, 4, 5, 1, 0])) (by decide)
    obtain ⟨hjoined, hlive, _⟩ := Process.joined_of_socketsLeft hs
    obtain ⟨bs, t, later, hend⟩ := ((main_returns_iff [] _ _ _ s run).2.2.2 hjoined).mpr
      ((Main.sockets_closed run hjoined).mp hlive)
    exact ⟨bs, t, run.trans later, hend⟩
  · obtain ⟨s, run, hs⟩ := exists_run_of_foldlM_map (mainStep []) unguarded
      (mainInitial (fun _ => 0) (fun _ _ => 0))
      (untilJoined earlyConnect) (fun s => s.process.socketsLeft)
      (b := ([.returned, .returned, .returned], [1], [0, 4, 5, 6, 3, 2])) (by decide)
    obtain ⟨hjoined, hlive, _⟩ := Process.joined_of_socketsLeft hs
    refine ⟨s, run, hjoined, fun bs t later hend => ?_⟩
    have noLeak := ((main_returns_iff [] _ _ _ s run).2.2.2 hjoined).mp ⟨bs, t, later, hend⟩
    simp [(Main.sockets_closed run hjoined).mpr noLeak] at hlive

end Wineing
