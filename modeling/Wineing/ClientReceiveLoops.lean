import Mathlib.Data.List.Induction
import Wineing.ControlProtocol
import Wineing.GuardedRuns

/-!
# The receive loops of the client

`WorkerCtrlIn.run` and `WorkerMarket.run` receive a frame, parse it and use the message. An
`IOException` is logged and a `ZMQException` ignored; anything else that is thrown in the
loop ends it. Over a channel that delivers its frames the loops use every well-formed one and
skip the others. `ZMQChannel.receive` into a buffer throws an `IllegalStateException`, so
both end at their first receive.
-/

namespace Wineing
open CStringMemory GuardedRuns

inductive Throwable
  | ioException
  | zmqException
  | illegalStateException (message : Bytes)
  | runtimeException
  deriving DecidableEq

/-- What a receive into a buffer does with the frames that have arrived: it waits for one, it
throws, or it reads one, with the number of bytes read. -/
inductive Received
  | waits
  | throws (e : Throwable)
  | reads (count : ℕ) (buffer : Bytes) (frames : List Bytes)

abbrev Receive := List Bytes → Bytes → ℕ → ℕ → Received

def ZMQChannel.receive : Receive := fun _ _ _ _ =>
  .throws (.illegalStateException (ascii "Method not implemented."))

/-- What a loop does with the messages: `parseFrom` of the generated class, the effect of a
message on what the loop keeps, and what the use of a message throws. -/
structure Worker (M U : Type*) where
  parseFrom : Bytes → Except Throwable M
  use : U → M → U
  thrown : M → Option Throwable

/-- `WorkerCtrlIn.run` keeps nothing; the messages it has passed to `processResponse` are
recorded. -/
def workerCtrlIn (parseFrom : Bytes → Except Throwable Response)
    (processResponse : Response → Option Throwable) : Worker Response (List Response) where
  parseFrom
  use passed res := passed ++ [res]
  thrown := processResponse

/-- `WorkerMarket.run` keeps its `count`. -/
def workerMarket {M : Type*} (parseFrom : Bytes → Except Throwable M) : Worker M Int64 where
  parseFrom
  use count _ := count + 1
  thrown _ := none

/-- Where a loop stands. A dead one has thrown out of `run`. -/
inductive WorkerPc (M : Type*)
  | test
  | receive
  | parse (count : ℕ)
  | use (message : M)
  | returned
  | dead (e : Throwable)
  deriving DecidableEq

/-- `arrived` are all frames that have arrived, `frames` those not received. -/
structure WorkerState (M U : Type*) where
  running : Bool
  pc : WorkerPc M
  buffer : Bytes
  frames : List Bytes
  arrived : List Bytes
  used : U
  logged : ℕ

inductive WorkerAction
  | arrive (frame : Bytes)
  | run
  | shutdown

section Loops

variable {M U : Type*}

def WorkerState.catch (s : WorkerState M U) (e : Throwable) : WorkerState M U :=
  match e with
  | .ioException => { s with pc := .test, logged := s.logged + 1 }
  | .zmqException => { s with pc := .test }
  | e => { s with pc := .dead e }

def workerRun (receive : Receive) (w : Worker M U) (s : WorkerState M U) :
    Option (WorkerState M U) :=
  match s.pc with
  | .test => some { s with pc := if s.running then .receive else .returned }
  | .receive =>
    match receive s.frames s.buffer 0 s.buffer.length with
    | .waits => none
    | .throws e => some (s.catch e)
    | .reads count buffer frames => some { s with pc := .parse count, buffer, frames }
  | .parse count =>
    match w.parseFrom (s.buffer.take count) with
    | .error e => some (s.catch e)
    | .ok message => some { s with pc := .use message }
  | .use message =>
    match w.thrown message with
    | some e => some ({ s with used := w.use s.used message }.catch e)
    | none => some { s with pc := .test, used := w.use s.used message }
  | .returned | .dead _ => none

def workerStep (receive : Receive) (w : Worker M U) (s : WorkerState M U) :
    WorkerAction → Option (WorkerState M U)
  | .arrive frame =>
    some { s with frames := s.frames ++ [frame], arrived := s.arrived ++ [frame] }
  | .run => workerRun receive w s
  | .shutdown => some { s with running := false }

def workerInitial (u : U) : WorkerState M U where
  running := true
  pc := .test
  buffer := List.replicate 1024 0
  frames := []
  arrived := []
  used := u
  logged := 0

def BeforeShutdown (_ : WorkerState M U) : WorkerAction → Prop
  | .shutdown => False
  | _ => True

instance (s : WorkerState M U) : (a : WorkerAction) → Decidable (BeforeShutdown s a)
  | .shutdown => isFalse id
  | .arrive _ | .run => isTrue trivial

def AtRest (receive : Receive) (w : Worker M U) (s : WorkerState M U) : Prop :=
  workerRun receive w s = none

namespace Worker

def wellFormed (w : Worker M U) (frames : List Bytes) : List M :=
  frames.filterMap fun frame => (w.parseFrom frame).toOption

def malformed (w : Worker M U) (frames : List Bytes) : List Bytes :=
  frames.filter fun frame => !(w.parseFrom frame).isOk

/-- The loop has made of exactly the well-formed messages, in their order, what is expected
of them, every other frame has been logged, and no frame has ended the loop. -/
structure HandlesAll (w : Worker M U) (expected : List M → U) (s : WorkerState M U) : Prop where
  used : s.used = expected (w.wellFormed s.arrived)
  logged : s.logged = (w.malformed s.arrived).length
  survives : s.arrived ≠ [] → s.pc ≠ .returned ∧ ∀ e, s.pc ≠ .dead e

end Worker

/-- What the loop has made of the frames so far: those it is done with, the one it has in
hand, and those it has not received. -/
structure Handled (w : Worker M U) (u : U) (s : WorkerState M U) (done : List Bytes)
    (inHand : List Bytes) : Prop where
  arrived : s.arrived = done ++ inHand ++ s.frames
  used : s.used = (w.wellFormed done).foldl w.use u
  logged : s.logged = (w.malformed done).length
  running : s.running = true
  buffer : s.buffer.length = 1024

/-- The frame in hand at each statement. A live loop is at one of the first four. -/
def InHand (w : Worker M U) (s : WorkerState M U) (inHand : List Bytes) : WorkerPc M → Prop
  | .test | .receive => inHand = []
  | .parse count => inHand = [s.buffer.take count]
  | .use message => ∃ frame, inHand = [frame] ∧ w.parseFrom frame = .ok message
  | .returned | .dead _ => False

def LoopInv (w : Worker M U) (u : U) (s : WorkerState M U) : Prop :=
  ∃ done inHand, Handled w u s done inHand ∧ InHand w s inHand s.pc

/-- A receive that waits for a frame and reads every frame that fits the buffer as it is. -/
structure Delivers (receive : Receive) : Prop where
  waits : ∀ buffer len, receive [] buffer 0 len = .waits
  reads : ∀ frame frames buffer, frame.length ≤ buffer.length →
    ∃ rest, receive (frame :: frames) buffer 0 buffer.length =
        .reads frame.length (frame ++ rest) frames ∧
      (frame ++ rest).length = buffer.length

/-- No shutdown is requested and every frame fits the buffer. -/
def Fitting (s : WorkerState M U) : WorkerAction → Prop
  | .arrive frame => frame.length ≤ 1024
  | a => BeforeShutdown s a

variable {receive : Receive} {w : Worker M U} {u : U} {s s' : WorkerState M U} {a : WorkerAction}

theorem Worker.wellFormed_snoc_ok {frame : Bytes} {message : M}
    (h : w.parseFrom frame = .ok message) (frames : List Bytes) :
    w.wellFormed (frames ++ [frame]) = w.wellFormed frames ++ [message] := by
  simp [wellFormed, List.filterMap_append, h, Except.toOption]

theorem Worker.wellFormed_snoc_error {frame : Bytes} {e : Throwable}
    (h : w.parseFrom frame = .error e) (frames : List Bytes) :
    w.wellFormed (frames ++ [frame]) = w.wellFormed frames := by
  simp [wellFormed, List.filterMap_append, h, Except.toOption]

theorem Worker.malformed_snoc_ok {frame : Bytes} {message : M}
    (h : w.parseFrom frame = .ok message) (frames : List Bytes) :
    w.malformed (frames ++ [frame]) = w.malformed frames := by
  simp [malformed, List.filter_append, h, Except.isOk, Except.toBool]

theorem Worker.malformed_snoc_error {frame : Bytes} {e : Throwable}
    (h : w.parseFrom frame = .error e) (frames : List Bytes) :
    w.malformed (frames ++ [frame]) = w.malformed frames ++ [frame] := by
  simp [malformed, List.filter_append, h, Except.isOk, Except.toBool]

@[simp] theorem WorkerState.catch_arrived (s : WorkerState M U) (e : Throwable) :
    (s.catch e).arrived = s.arrived := by
  cases e <;> rfl

@[simp] theorem WorkerState.catch_frames (s : WorkerState M U) (e : Throwable) :
    (s.catch e).frames = s.frames := by
  cases e <;> rfl

inductive WorkerMoves (receive : Receive) (w : Worker M U) (s : WorkerState M U) :
    WorkerState M U → Prop where
  | enter (pc : s.pc = .test) (running : s.running = true) :
      WorkerMoves receive w s { s with pc := .receive }
  | leave (pc : s.pc = .test) (stopped : s.running = false) :
      WorkerMoves receive w s { s with pc := .returned }
  | receiveThrows {e} (pc : s.pc = .receive)
      (received : receive s.frames s.buffer 0 s.buffer.length = .throws e) :
      WorkerMoves receive w s (s.catch e)
  | read {count buffer frames} (pc : s.pc = .receive)
      (received : receive s.frames s.buffer 0 s.buffer.length = .reads count buffer frames) :
      WorkerMoves receive w s { s with pc := .parse count, buffer, frames }
  | malformed {count e} (pc : s.pc = .parse count)
      (parsed : w.parseFrom (s.buffer.take count) = .error e) :
      WorkerMoves receive w s (s.catch e)
  | wellFormed {count message} (pc : s.pc = .parse count)
      (parsed : w.parseFrom (s.buffer.take count) = .ok message) :
      WorkerMoves receive w s { s with pc := .use message }
  | useThrows {message e} (pc : s.pc = .use message) (thrown : w.thrown message = some e) :
      WorkerMoves receive w s ({ s with used := w.use s.used message }.catch e)
  | use {message} (pc : s.pc = .use message) (thrown : w.thrown message = none) :
      WorkerMoves receive w s { s with pc := .test, used := w.use s.used message }

private theorem workerMoves_of_run (h : workerRun receive w s = some s') :
    WorkerMoves receive w s s' := by
  unfold workerRun at h
  cases hpc : s.pc with
  | test =>
    cases hrunning : s.running <;>
      simp only [hpc, hrunning, Bool.false_eq_true, if_true, if_false, Option.some.injEq] at h <;>
      subst h
    · exact hrunning ▸ .leave hpc hrunning
    · exact hrunning ▸ .enter hpc hrunning
  | receive =>
    cases hreceived : receive s.frames s.buffer 0 s.buffer.length <;>
      simp only [hpc, hreceived, Option.some.injEq, reduceCtorEq] at h <;> subst h
    · exact .receiveThrows hpc hreceived
    · exact .read hpc hreceived
  | parse count =>
    cases hparsed : w.parseFrom (s.buffer.take count) <;>
      simp only [hpc, hparsed, Option.some.injEq] at h <;> subst h
    · exact .malformed hpc hparsed
    · exact .wellFormed hpc hparsed
  | use message =>
    cases hthrown : w.thrown message <;>
      simp only [hpc, hthrown, Option.some.injEq] at h <;> subst h
    · exact .use hpc hthrown
    · exact .useThrows hpc hthrown
  | returned | dead => simp [hpc] at h

private theorem arrived_of_moves (h : WorkerMoves receive w s s') : s'.arrived = s.arrived := by
  cases h with
  | enter | leave | read | wellFormed | use => rfl
  | receiveThrows | malformed | useThrows => exact WorkerState.catch_arrived _ _

theorem loopInv_initial (w : Worker M U) (u : U) : LoopInv w u (workerInitial u) :=
  ⟨[], [], ⟨rfl, rfl, rfl, rfl, List.length_replicate⟩, rfl⟩

theorem Delivers.cases (hreceive : Delivers receive) {frames : List Bytes} {buffer : Bytes}
    (hfits : ∀ frame ∈ frames, frame.length ≤ buffer.length) :
    frames = [] ∧ receive frames buffer 0 buffer.length = .waits ∨
    ∃ frame frames' rest, frames = frame :: frames' ∧
      receive frames buffer 0 buffer.length = .reads frame.length (frame ++ rest) frames' ∧
      (frame ++ rest).length = buffer.length := by
  cases frames with
  | nil => exact .inl ⟨rfl, hreceive.waits _ _⟩
  | cons frame frames =>
    obtain ⟨rest, hreads, hlength⟩ :=
      hreceive.reads frame frames buffer (hfits frame List.mem_cons_self)
    exact .inr ⟨frame, frames, rest, rfl, hreads, hlength⟩

private theorem loopInv_moves (hreceive : Delivers receive)
    (hparse : ∀ frame e, w.parseFrom frame = .error e → e = .ioException)
    (huse : ∀ message, w.thrown message = none)
    (hfits : ∀ frame ∈ s.frames, frame.length ≤ s.buffer.length)
    (hs : LoopInv w u s) (h : WorkerMoves receive w s s') : LoopInv w u s' := by
  obtain ⟨done, inHand, hhandled, hhand⟩ := hs
  have hdelivered := hreceive.cases hfits
  cases h with
  | enter pc =>
    rw [pc] at hhand
    exact ⟨done, inHand, ⟨hhandled.arrived, hhandled.used, hhandled.logged, hhandled.running,
      hhandled.buffer⟩, hhand⟩
  | leave pc stopped => simp [hhandled.running] at stopped
  | receiveThrows pc received => simp [received] at hdelivered
  | @read count buffer frames pc received =>
    rw [pc] at hhand
    obtain rfl : inHand = [] := hhand
    rw [received] at hdelivered
    obtain ⟨_, hwaits⟩ | ⟨frame, frames', rest, hframes, hreads, hlength⟩ := hdelivered
    · cases hwaits
    · obtain ⟨rfl, rfl, rfl⟩ := Received.reads.inj hreads
      have harrived := hhandled.arrived
      rw [hframes] at harrived
      refine ⟨done, [frame], ⟨by simpa using harrived, hhandled.used, hhandled.logged,
        hhandled.running, hlength.trans hhandled.buffer⟩, ?_⟩
      simp [InHand]
  | @malformed count e pc parsed =>
    rw [pc] at hhand
    obtain rfl : inHand = [s.buffer.take count] := hhand
    obtain rfl := hparse _ e parsed
    refine ⟨done ++ [s.buffer.take count], [], ⟨by simpa using hhandled.arrived, ?_, ?_,
      hhandled.running, hhandled.buffer⟩, rfl⟩
    · rw [w.wellFormed_snoc_error parsed]
      exact hhandled.used
    · rw [w.malformed_snoc_error parsed, List.length_append, List.length_singleton,
        ← hhandled.logged]
      rfl
  | wellFormed pc parsed =>
    rw [pc] at hhand
    obtain rfl := hhand
    exact ⟨done, _, ⟨hhandled.arrived, hhandled.used, hhandled.logged, hhandled.running,
      hhandled.buffer⟩, _, rfl, parsed⟩
  | useThrows pc thrown => simp [huse] at thrown
  | use pc =>
    rw [pc] at hhand
    obtain ⟨frame, rfl, hparsed⟩ := hhand
    refine ⟨done ++ [frame], [], ⟨by simpa using hhandled.arrived, ?_, ?_, hhandled.running,
      hhandled.buffer⟩, rfl⟩
    · rw [w.wellFormed_snoc_ok hparsed, List.foldl_append, ← hhandled.used]
      rfl
    · rw [w.malformed_snoc_ok hparsed]
      exact hhandled.logged

theorem LoopInv.frames_le (hs : LoopInv w u s)
    (hfits : ∀ frame ∈ s.arrived, frame.length ≤ 1024) :
    ∀ frame ∈ s.frames, frame.length ≤ s.buffer.length := by
  obtain ⟨done, inHand, hhandled, _⟩ := hs
  intro frame hframe
  rw [hhandled.buffer]
  exact hfits frame (hhandled.arrived ▸ List.mem_append_right _ hframe)

theorem loopInv_arrive (hs : LoopInv w u s) (frame : Bytes) : LoopInv w u { s with
    frames := s.frames ++ [frame]
    arrived := s.arrived ++ [frame] } := by
  obtain ⟨done, inHand, hhandled, hhand⟩ := hs
  refine ⟨done, inHand, ⟨?_, hhandled.used, hhandled.logged, hhandled.running, hhandled.buffer⟩,
    hhand⟩
  simp [hhandled.arrived]

private theorem loopInv_of_run (hreceive : Delivers receive)
    (hparse : ∀ frame e, w.parseFrom frame = .error e → e = .ioException)
    (huse : ∀ message, w.thrown message = none) {as : List WorkerAction}
    (run : Run (workerStep receive w) Fitting (workerInitial u) as s) :
    LoopInv w u s ∧ ∀ frame ∈ s.arrived, frame.length ≤ 1024 := by
  refine run.invariant (fun s => LoopInv w u s ∧ ∀ frame ∈ s.arrived, frame.length ≤ 1024)
    ⟨loopInv_initial w u, fun _ h => nomatch h⟩ ?_
  rintro t a t' ⟨ht, hfits⟩ hguard moved
  cases a with
  | arrive frame =>
    obtain rfl := Option.some.inj moved
    refine ⟨loopInv_arrive ht frame, fun f hf => ?_⟩
    rcases List.mem_append.mp hf with hf | hf
    · exact hfits f hf
    · exact List.mem_singleton.mp hf ▸ hguard
  | run =>
    have hmoves := workerMoves_of_run moved
    refine ⟨loopInv_moves hreceive hparse huse (ht.frames_le hfits) ht hmoves, ?_⟩
    rwa [arrived_of_moves hmoves]
  | shutdown => exact hguard.elim

theorem LoopInv.waits (hs : LoopInv w u s) (hreceive : Delivers receive)
    (huse : ∀ message, w.thrown message = none)
    (hfits : ∀ frame ∈ s.arrived, frame.length ≤ 1024) (hrest : AtRest receive w s) :
    s.pc = .receive ∧ Handled w u s s.arrived [] := by
  have hdelivered := hreceive.cases (hs.frames_le hfits)
  obtain ⟨done, inHand, hhandled, hhand⟩ := hs
  have hpc : s.pc = .receive := by
    cases hpc : s.pc with
    | receive => rfl
    | test => simp [AtRest, workerRun, hpc] at hrest
    | parse count =>
      cases hparsed : w.parseFrom (s.buffer.take count) <;>
        simp [AtRest, workerRun, hpc, hparsed] at hrest
    | use message => simp [AtRest, workerRun, hpc, huse] at hrest
    | returned | dead => simp [hpc, InHand] at hhand
  rw [hpc] at hhand
  obtain rfl : inHand = [] := hhand
  have hframes : s.frames = [] := by
    obtain ⟨hnil, _⟩ | ⟨_, _, _, _, hreads, _⟩ := hdelivered
    · exact hnil
    · simp [AtRest, workerRun, hpc, hreads] at hrest
  have harrived : s.arrived = done := by simpa [hframes] using hhandled.arrived
  exact ⟨hpc, harrived ▸ hhandled⟩

/-- Over a channel that delivers its frames the loop handles all of them before it comes to
rest. -/
theorem handlesAll_of_delivers {expected : List M → U} (hreceive : Delivers receive)
    (hparse : ∀ frame e, w.parseFrom frame = .error e → e = .ioException)
    (huse : ∀ message, w.thrown message = none)
    (hexpected : ∀ messages, messages.foldl w.use u = expected messages) {as : List WorkerAction}
    (run : Run (workerStep receive w) Fitting (workerInitial u) as s)
    (hrest : AtRest receive w s) : w.HandlesAll expected s := by
  obtain ⟨hinv, hfits⟩ := loopInv_of_run hreceive hparse huse run
  obtain ⟨hpc, hhandled⟩ := hinv.waits hreceive huse hfits hrest
  refine ⟨?_, hhandled.logged, fun _ => by simp [hpc]⟩
  rw [hhandled.used, hexpected]

/-- What both loops come to over `ZMQChannel.receive`: nothing is received. -/
structure NotImplemented (u : U) (s : WorkerState M U) : Prop where
  running : s.running = true
  used : s.used = u
  logged : s.logged = 0
  pc : s.pc = .test ∨ s.pc = .receive ∨
    s.pc = .dead (.illegalStateException (ascii "Method not implemented."))

private theorem notImplemented_moves (hs : NotImplemented u s)
    (h : WorkerMoves ZMQChannel.receive w s s') : NotImplemented u s' := by
  cases h with
  | enter => exact ⟨hs.running, hs.used, hs.logged, .inr (.inl rfl)⟩
  | leave pc stopped => simp [hs.running] at stopped
  | receiveThrows pc received =>
    obtain rfl := Received.throws.inj received
    exact ⟨hs.running, hs.used, hs.logged, .inr (.inr rfl)⟩
  | read pc received => cases received
  | malformed pc | wellFormed pc | useThrows pc | use pc => simpa [pc] using hs.pc

private theorem notImplemented_of_run {as : List WorkerAction}
    (run : Run (workerStep ZMQChannel.receive w) BeforeShutdown (workerInitial u) as s) :
    NotImplemented u s := by
  refine run.invariant (NotImplemented u) ⟨rfl, rfl, rfl, .inl rfl⟩ fun t a t' ht hguard moved => ?_
  cases a with
  | arrive frame =>
    obtain rfl := Option.some.inj moved
    exact ⟨ht.running, ht.used, ht.logged, ht.pc⟩
  | run => exact notImplemented_moves ht (workerMoves_of_run moved)
  | shutdown => exact hguard.elim

theorem exists_atRest (hs : NotImplemented u s) : ∃ bs t,
    Run (workerStep ZMQChannel.receive w) BeforeShutdown s bs t ∧
      AtRest ZMQChannel.receive w t ∧ t.arrived = s.arrived := by
  have hdies : ∀ t : WorkerState M U, t.pc = .receive → ∃ t',
      Run (workerStep ZMQChannel.receive w) BeforeShutdown t [.run] t' ∧
        AtRest ZMQChannel.receive w t' ∧ t'.arrived = t.arrived := by
    intro t hpc
    have hstep : workerRun ZMQChannel.receive w t =
        some { t with pc := .dead (.illegalStateException (ascii "Method not implemented.")) } := by
      simp [workerRun, hpc, ZMQChannel.receive, WorkerState.catch]
    exact ⟨_, .single trivial hstep, rfl, rfl⟩
  rcases hs.pc with hpc | hpc | hpc
  · have hstep : workerRun ZMQChannel.receive w s = some { s with pc := .receive } := by
      simp [workerRun, hpc, hs.running]
    obtain ⟨t, run, hrest, harrived⟩ := hdies { s with pc := .receive } rfl
    have hallowed : BeforeShutdown s .run := trivial
    exact ⟨_, t, .cons hallowed hstep run, hrest, harrived⟩
  · obtain ⟨t, run, hrest, harrived⟩ := hdies s hpc
    exact ⟨_, t, run, hrest, harrived⟩
  · exact ⟨[], s, .refl, by simp [AtRest, workerRun, hpc], rfl⟩

/-- At rest the loop is dead, and it has handled what has arrived exactly when nothing has. -/
theorem handlesAll_iff_of_atRest {expected : List M → U} (hexpected : expected [] = u)
    (hs : NotImplemented u s) (hrest : AtRest ZMQChannel.receive w s) :
    s.pc = .dead (.illegalStateException (ascii "Method not implemented.")) ∧
      (w.HandlesAll expected s ↔ s.arrived = []) := by
  have hpc : s.pc = .dead (.illegalStateException (ascii "Method not implemented.")) := by
    rcases hs.pc with hpc | hpc | hpc
    · simp [AtRest, workerRun, hpc] at hrest
    · simp [AtRest, workerRun, hpc, ZMQChannel.receive] at hrest
    · exact hpc
  refine ⟨hpc, fun h => ?_, fun hnone => ?_⟩
  · by_contra harrived
    exact (h.survives harrived).2 _ hpc
  · refine ⟨?_, by rw [hs.logged, hnone]; rfl, fun h => absurd hnone h⟩
    rw [hs.used, hnone]
    exact hexpected.symm

end Loops

theorem workerCtrlIn_foldl (parseFrom : Bytes → Except Throwable Response)
    (processResponse : Response → Option Throwable) (messages : List Response) :
    messages.foldl (workerCtrlIn parseFrom processResponse).use [] = messages := by
  induction messages using List.reverseRecOn with
  | nil => rfl
  | append_singleton messages message ih =>
    rw [List.foldl_append, ih]
    rfl

theorem workerMarket_foldl {M : Type*} (parseFrom : Bytes → Except Throwable M)
    (messages : List M) :
    messages.foldl (workerMarket parseFrom).use 0 = Int64.ofNat messages.length := by
  induction messages using List.reverseRecOn with
  | nil => rfl
  | append_singleton messages message ih =>
    rw [List.foldl_append, ih, List.length_append, List.length_singleton, Int64.ofNat_add]
    rfl

/-- Over a channel that delivers its frames `WorkerCtrlIn.run` passes on, and
`WorkerMarket.run` counts, exactly the well-formed messages. -/
theorem receive_loops_handle_delivered {M : Type*} {receive : Receive}
    (hreceive : Delivers receive) :
    (∀ parseFrom, (∀ frame e, parseFrom frame = .error e → e = .ioException) → ∀ as s,
      Run (workerStep receive (workerCtrlIn parseFrom fun _ => none)) Fitting
        (workerInitial []) as s →
      AtRest receive (workerCtrlIn parseFrom fun _ => none) s →
      (workerCtrlIn parseFrom fun _ => none).HandlesAll id s) ∧
    ∀ parseFrom : Bytes → Except Throwable M,
      (∀ frame e, parseFrom frame = .error e → e = .ioException) → ∀ as s,
      Run (workerStep receive (workerMarket parseFrom)) Fitting (workerInitial 0) as s →
      AtRest receive (workerMarket parseFrom) s →
      (workerMarket parseFrom).HandlesAll (fun messages => Int64.ofNat messages.length) s := by
  refine ⟨fun parseFrom hparse as s run hrest => ?_, fun parseFrom hparse as s run hrest => ?_⟩
  · exact handlesAll_of_delivers hreceive hparse (fun _ => rfl)
      (workerCtrlIn_foldl parseFrom _) run hrest
  · exact handlesAll_of_delivers hreceive hparse (fun _ => rfl)
      (workerMarket_foldl parseFrom) run hrest

def copyFrame : Receive := fun frames buffer offset len =>
  match frames with
  | [] => .waits
  | frame :: frames =>
    .reads (min frame.length len)
      (buffer.take offset ++ frame.take len ++ buffer.drop (offset + min frame.length len)) frames

theorem delivers_copyFrame : Delivers copyFrame where
  waits _ _ := rfl
  reads frame frames buffer hle := by
    refine ⟨buffer.drop frame.length, ?_, by simp [hle]⟩
    simp [copyFrame, hle, List.take_of_length_le hle]

/-- Before a shutdown both loops come to rest, dead of an `IllegalStateException`. There
`WorkerCtrlIn.run` has passed on, and `WorkerMarket.run` has counted, what has arrived exactly
when nothing has. -/
theorem receive_loops_survive_iff {M : Type*} :
    (∀ parseFrom processResponse as s,
      Run (workerStep ZMQChannel.receive (workerCtrlIn parseFrom processResponse)) BeforeShutdown
        (workerInitial []) as s →
      (∃ bs t, Run (workerStep ZMQChannel.receive (workerCtrlIn parseFrom processResponse))
          BeforeShutdown s bs t ∧
        AtRest ZMQChannel.receive (workerCtrlIn parseFrom processResponse) t ∧
        t.arrived = s.arrived) ∧
      (AtRest ZMQChannel.receive (workerCtrlIn parseFrom processResponse) s →
        s.pc = .dead (.illegalStateException (ascii "Method not implemented.")) ∧
        ((workerCtrlIn parseFrom processResponse).HandlesAll id s ↔ s.arrived = []))) ∧
    ∀ (parseFrom : Bytes → Except Throwable M) as s,
      Run (workerStep ZMQChannel.receive (workerMarket parseFrom)) BeforeShutdown
        (workerInitial 0) as s →
      (∃ bs t, Run (workerStep ZMQChannel.receive (workerMarket parseFrom))
          BeforeShutdown s bs t ∧
        AtRest ZMQChannel.receive (workerMarket parseFrom) t ∧ t.arrived = s.arrived) ∧
      (AtRest ZMQChannel.receive (workerMarket parseFrom) s →
        s.pc = .dead (.illegalStateException (ascii "Method not implemented.")) ∧
        ((workerMarket parseFrom).HandlesAll (fun messages => Int64.ofNat messages.length) s ↔
          s.arrived = [])) := by
  refine ⟨fun parseFrom processResponse as s run => ?_, fun parseFrom as s run => ?_⟩
  · have hs := notImplemented_of_run run
    exact ⟨exists_atRest hs, handlesAll_iff_of_atRest rfl hs⟩
  · have hs := notImplemented_of_run run
    exact ⟨exists_atRest hs, handlesAll_iff_of_atRest rfl hs⟩

def parsesOnly (res : Response) (frame : Bytes) : Except Throwable Response :=
  if frame = res.serialize then .ok res else .error .ioException

/-- The response to a start arrives. The loop has ended without having received it. -/
theorem receive_loop_ends_with_response : ∃ s,
    Run (workerStep ZMQChannel.receive
      (workerCtrlIn (parsesOnly ⟨1, .marketStartOk, none⟩) fun _ => none)) BeforeShutdown
      (workerInitial []) [.arrive (Response.serialize ⟨1, .marketStartOk, none⟩), .run, .run] s ∧
    (workerCtrlIn (parsesOnly ⟨1, .marketStartOk, none⟩) fun _ => none).wellFormed s.arrived =
      [⟨1, .marketStartOk, none⟩] ∧
    s.used = [] ∧ s.pc = .dead (.illegalStateException (ascii "Method not implemented.")) := by
  obtain ⟨s, run, hs⟩ := exists_run_of_foldlM_map
    (workerStep ZMQChannel.receive
      (workerCtrlIn (parsesOnly ⟨1, .marketStartOk, none⟩) fun _ => none)) BeforeShutdown
    (workerInitial []) [.arrive (Response.serialize ⟨1, .marketStartOk, none⟩), .run, .run]
    (fun s => (s.arrived, s.used, s.pc)) rfl
  simp only [Prod.mk.injEq] at hs
  obtain ⟨harrived, hused, hpc⟩ := hs
  have harrived : s.arrived = [Response.serialize ⟨1, .marketStartOk, none⟩] := harrived
  refine ⟨s, run, ?_, hused, hpc⟩
  simp [harrived, Worker.wellFormed, workerCtrlIn, parsesOnly, Except.toOption]

end Wineing
