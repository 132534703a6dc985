import Wineing.ControlProgress

/-!
# What the lazy versions save

A call takes the lock at most once, and a refresh only where it finds a newer version. In all
a reader takes the lock no more often than there are updates, and once for its first version,
however often it refreshes: a callback for every message costs a lock for every command.
-/

namespace Wineing
open CStringMemory GuardedRuns

namespace LazyPc

/-- The points of a call that has found another version than its own, up to the read of
`g_version` under the lock. -/
def outdated : LazyPc → Bool
  | lock _ | version _ => true
  | _ => false

def beforeLock : LazyPc → Bool
  | compare _ | lock _ => true
  | _ => false

end LazyPc

section Calls

variable {V ι : Type*} [DecidableEq ι] {i : ι}

def LazyAction.isRun (i : ι) : LazyAction V ι → Bool
  | .run j => j = i
  | _ => false

def LazyAction.isCall (i : ι) : LazyAction V ι → Bool
  | .call j _ => j = i
  | _ => false

def acquires (i : ι) (s : LazyState V ι) : LazyAction V ι → ℕ
  | .run j =>
    match (s.threads i).pc with
    | .lock _ => if j = i then 1 else 0
    | _ => 0
  | _ => 0

variable [Ring V] [DecidableEq V] {s s' : LazyState V ι} {a : LazyAction V ι}

private theorem accesses_step (h : lazyStep s a = some s') :
    (a.isRun i).toNat + (s'.threads i).pc.remaining ≤
      (s.threads i).pc.remaining + 8 * (a.isCall i).toNat := by
  by_cases hi : i = a.thread
  · cases a with
    | run j =>
      obtain rfl : i = j := hi
      have hlt := remaining_lt_of_runThread h
      simp only [LazyAction.isRun, decide_true, Bool.toNat_true]
      omega
    | assign j tVersion tData =>
      obtain rfl : i = j := hi
      obtain ⟨hidle, rfl⟩ := lazyStep_assign h
      simp [LazyAction.isRun, LazyAction.isCall, LazyPc.remaining]
    | call j call =>
      obtain rfl : i = j := hi
      obtain ⟨hidle, rfl⟩ := lazyStep_call h
      simp [LazyAction.isRun, LazyAction.isCall, LazyPc.remaining, hidle]
  · rw [lazyStep_threads_of_ne h hi]
    cases a with
    | run j =>
      have hji : j ≠ i := Ne.symm hi
      simp [LazyAction.isRun, hji]
    | assign | call => simp [LazyAction.isRun]

private theorem acquires_step (h : lazyStep s a = some s') :
    acquires i s a + (s'.threads i).pc.beforeLock.toNat ≤
      (s.threads i).pc.beforeLock.toNat + (a.isCall i).toNat := by
  by_cases hi : i = a.thread
  · cases a with
    | run j =>
      obtain rfl : i = j := hi
      cases accesses_of_runThread h with
      | owns pc | refuse pc | unchanged pc | changed pc | reread pc | lock pc | writeVersion pc
      | readVersion pc | writeCmd pc | readCmd pc | writeSize pc | readSize pc | writeData pc
      | readData pc | unlock pc | ret pc => simp [acquires, pc, LazyPc.beforeLock]
    | assign j tVersion tData =>
      obtain rfl : i = j := hi
      obtain ⟨_, rfl⟩ := lazyStep_assign h
      simp [acquires, LazyPc.beforeLock]
    | call j call =>
      obtain rfl : i = j := hi
      obtain ⟨_, rfl⟩ := lazyStep_call h
      simp [acquires, LazyAction.isCall, LazyPc.beforeLock]
  · rw [lazyStep_threads_of_ne h hi]
    cases a with
    | run j =>
      have hji : j ≠ i := Ne.symm hi
      cases hpc : (s.threads i).pc <;> simp [acquires, hpc, hji]
    | assign | call => simp [acquires]

private theorem accesses_of_run {as : List (LazyAction V ι)} (run : Run lazyStep unguarded s as s') :
    as.countP (LazyAction.isRun i) + (s'.threads i).pc.remaining ≤
      (s.threads i).pc.remaining + 8 * as.countP (LazyAction.isCall i) ∧
    weigh lazyStep (acquires i) s as + (s'.threads i).pc.beforeLock.toNat ≤
      (s.threads i).pc.beforeLock.toNat + as.countP (LazyAction.isCall i) := by
  refine run.weighed (acquires i) (fun as n t =>
    as.countP (LazyAction.isRun i) + (t.threads i).pc.remaining ≤
      (s.threads i).pc.remaining + 8 * as.countP (LazyAction.isCall i) ∧
    n + (t.threads i).pc.beforeLock.toNat ≤
      (s.threads i).pc.beforeLock.toNat + as.countP (LazyAction.isCall i)) (by simp) ?_
  rintro as n t a u ⟨hruns, hlocks⟩ _ moved
  have haccesses := accesses_step (i := i) moved
  have hacquires := acquires_step (i := i) moved
  simp only [List.countP_append, List.countP_singleton]
  cases hrun : a.isRun i <;> cases hcall : a.isCall i <;>
    simp only [hrun, hcall, Bool.toNat_true, Bool.toNat_false, Bool.false_eq_true, if_true,
      if_false] at haccesses hacquires ⊢ <;> omega

/-- Any number of threads may call both functions with any version and any data. Only one of
them is between taking and releasing the lock; one in a call can go on, or waits for one that
can; and up to its next call a thread makes eight accesses at most, and takes the lock once at
most. -/
theorem lazy_calls_complete (gVersion : V) (gData : WCtrl) (tVersion : ι → V) (tData : ι → WCtrl)
    (as : List (LazyAction V ι)) (s : LazyState V ι)
    (run : Run lazyStep unguarded (LazyState.initial gVersion gData tVersion tData) as s) :
    (∀ i j, (s.threads i).pc.critical = true → (s.threads j).pc.critical = true → i = j) ∧
    (∀ i, (s.threads i).pc ≠ .idle → ∃ j s', runThread s j = some s') ∧
    (∀ i call t, lazyStep s (.call i call) = some t →
      ∀ bs u, Run lazyStep unguarded t bs u → bs.countP (LazyAction.isCall i) = 0 →
        bs.countP (LazyAction.isRun i) ≤ 8 ∧ weigh lazyStep (acquires i) t bs ≤ 1) ∧
    ∀ i, as.countP (LazyAction.isRun i) ≤ 8 * as.countP (LazyAction.isCall i) ∧
      weigh lazyStep (acquires i) (LazyState.initial gVersion gData tVersion tData) as ≤
        as.countP (LazyAction.isCall i) := by
  have hlock : LockOk s := run.invariant LockOk (lockOk_initial _ _ _ _)
    (fun _ _ _ ht _ moved => lockOk_lazyStep ht moved)
  refine ⟨fun i j hi hj => ?_, fun i hbusy => exists_runThread hlock hbusy,
    fun i call t called bs u later hnone => ?_, fun i => ?_⟩
  · exact Option.some.inj (((hlock i).mpr hi).symm.trans ((hlock j).mpr hj))
  · obtain ⟨haccesses, hacquires⟩ := accesses_of_run (i := i) later
    have hleft : (t.threads i).pc.remaining = 8 ∧ (t.threads i).pc.beforeLock.toNat = 1 := by
      obtain ⟨_, rfl⟩ := lazyStep_call called
      rw [LazyState.setThread_threads_self]
      exact ⟨rfl, rfl⟩
    omega
  · obtain ⟨haccesses, hacquires⟩ := accesses_of_run (i := i) run
    have hleft : ((LazyState.initial gVersion gData tVersion tData).threads i).pc.remaining = 0 ∧
        ((LazyState.initial gVersion gData tVersion tData).threads i).pc.beforeLock.toNat = 0 :=
      ⟨rfl, rfl⟩
    omega

def waitForLock : List (LazyAction ℤ Bool) :=
  [.call true .updateGlobalIfOwner, .call false .updateLocalIfChanged, .run false, .run true,
    .run true]

theorem lazy_calls_complete_waiting : ∃ s : LazyState ℤ Bool,
    Run lazyStep unguarded (LazyState.initial 0 ⟨wineingCtrlCmdInit, fun _ => 0, 0⟩
      (fun i => if i then 0 else -1) (fun _ => ⟨wineingCtrlCmdInit, fun _ => 0, 0⟩)) waitForLock s ∧
    s.gLock = some true ∧ (s.threads false).pc = .lock .updateLocalIfChanged ∧
    ∃ j s', runThread s j = some s' := by
  obtain ⟨s, run, h⟩ := exists_run_of_foldlM_map lazyStep unguarded
    (LazyState.initial 0 ⟨wineingCtrlCmdInit, fun _ => 0, 0⟩ (fun i : Bool => if i then 0 else -1)
      (fun _ => ⟨wineingCtrlCmdInit, fun _ => 0, 0⟩))
    waitForLock (fun s => (s.gLock, (s.threads false).pc))
    (b := (some true, .lock .updateLocalIfChanged)) (by decide)
  obtain ⟨hlock, hpc⟩ := Prod.mk.inj h
  exact ⟨s, run, hlock, hpc, (lazy_calls_complete _ _ _ _ _ s run).2.1 false (by simp [hpc])⟩

end Calls

section Readers

variable {ι : Type*} {w i : ι} {n : ℕ} {s s' : LazyState ℤ ι} {a : LazyAction ℤ ι}

/-- A reader has taken the lock `n` times, each time for a version newer than its own. -/
structure LockingInv (w i : ι) (n : ℕ) (s : LazyState ℤ ι) : Prop where
  single : SingleWriterInv w s
  outdated : (s.threads i).pc.outdated = true → (s.threads i).tVersion < s.gVersion
  count : (n : ℤ) ≤ (s.threads i).tVersion + 1 +
    if (s.threads i).pc = .version .updateLocalIfChanged then 1 else 0

theorem LockingInv.le_published (h : LockingInv w i n s) (hi : i ≠ w) :
    n ≤ s.published.length := by
  have hcount := h.count
  have hle := h.single.reader_le hi
  have hnewest := h.single.numbered.newest
  by_cases hpc : (s.threads i).pc = .version .updateLocalIfChanged
  · have hlt := h.outdated (by simp [hpc, LazyPc.outdated])
    rw [if_pos hpc] at hcount
    omega
  · rw [if_neg hpc] at hcount
    omega

variable [DecidableEq ι]

private theorem lockingInv_run (h : LockingInv w i n s) (hi : i ≠ w) (ran : runThread s i = some s') :
    LockingInv w i (n + acquires i s (.run i)) s' := by
  have hsingle := singleWriterInv_run h.single ran
  have hok := h.single.reader i hi
  have hle := h.single.reader_le hi
  have hcount := h.count
  have hlt := h.outdated
  cases accesses_of_runThread ran with
  | owns pc | refuse pc | reread pc | writeVersion pc | writeCmd pc | writeSize pc | writeData pc =>
    simp [ReaderOk, pc] at hok
  | unchanged pc | readCmd pc | readSize pc | readData pc | unlock pc | ret pc =>
    refine ⟨hsingle, by simp [LazyPc.outdated], ?_⟩
    simpa [acquires, pc] using hcount
  | changed pc stale =>
    refine ⟨hsingle, fun _ => ?_, by simpa [acquires, pc] using hcount⟩
    simpa using lt_of_le_of_ne hle stale
  | @lock call pc free =>
    simp only [ReaderOk, pc] at hok
    cases call with
    | updateGlobalIfOwner => simp at hok
    | updateLocalIfChanged =>
      have hbehind : (s.threads i).tVersion < s.gVersion := hlt (by simp [pc, LazyPc.outdated])
      refine ⟨hsingle, fun _ => by simpa using hbehind, ?_⟩
      simp only [pc, reduceCtorEq, if_false, add_zero] at hcount
      simp [acquires, pc]
      omega
  | readVersion pc =>
    have hbehind : (s.threads i).tVersion < s.gVersion := hlt (by simp [pc, LazyPc.outdated])
    refine ⟨hsingle, by simp [LazyPc.outdated], ?_⟩
    simp only [pc, if_true] at hcount
    simp [acquires, pc]
    omega

private theorem lockingInv_step (h : LockingInv w i n s) (hi : i ≠ w) (allowed : SingleWriter w s a)
    (moved : lazyStep s a = some s') : LockingInv w i (n + acquires i s a) s' := by
  have hsingle := singleWriterInv_step h.single allowed moved
  by_cases hia : i = a.thread
  · cases a with
    | run j =>
      obtain rfl : i = j := hia
      exact lockingInv_run h hi moved
    | assign j tVersion tData => exact absurd (hia.trans allowed.1) hi
    | call j call =>
      obtain rfl : i = j := hia
      have hcount := h.count
      obtain ⟨hidle, rfl⟩ := lazyStep_call moved
      refine ⟨hsingle, by simp [LazyPc.outdated], ?_⟩
      simpa [acquires, hidle] using hcount
  · have hmono := gVersion_mono h.single allowed moved
    have hnone : acquires i s a = 0 := by
      cases a with
      | run j =>
        have hji : j ≠ i := Ne.symm hia
        cases hpc : (s.threads i).pc <;> simp [acquires, hpc, hji]
      | assign | call => rfl
    have hsame := lazyStep_threads_of_ne moved hia
    refine ⟨hsingle, ?_, ?_⟩
    · rw [hsame]
      exact fun houtdated => (h.outdated houtdated).trans_le hmono
    · rw [hsame, hnone]
      exact h.count

variable {gData : WCtrl} {tData : ι → WCtrl} {as : List (LazyAction ℤ ι)}

private theorem lockingInv_of_run (hi : i ≠ w)
    (run : Run lazyStep (SingleWriter w) (singleWriterInitial w gData tData) as s) :
    LockingInv w i (weigh lazyStep (acquires i) (singleWriterInitial w gData tData) as) s := by
  refine run.weighed (acquires i) (fun _ n t => LockingInv w i n t)
    ⟨singleWriterInv_initial w gData tData, Bool.noConfusion, ?_⟩
    (fun _ _ _ _ _ h allowed moved => lockingInv_step h hi allowed moved)
  simp [singleWriterInitial, LazyState.initial, hi]

/-- However often a reader refreshes its record, it takes the lock at most once for every update
of the writer, and once for its first version. -/
theorem lazy_refresh_locks (w : ι) (gData : WCtrl) (tData : ι → WCtrl)
    (as : List (LazyAction ℤ ι)) (s : LazyState ℤ ι)
    (run : Run lazyStep (SingleWriter w) (singleWriterInitial w gData tData) as s)
    (i : ι) (hi : i ≠ w) :
    weigh lazyStep (acquires i) (singleWriterInitial w gData tData) as ≤
      as.countP (LazyAction.isUpdate w) + 1 := by
  have hinv := lockingInv_of_run hi run
  have hle := hinv.le_published hi
  have hbegun := begun_eq_countP run
  have hnewest := hinv.single.numbered.newest
  unfold LazyState.begun at hbegun
  omega

/-- A reader refreshes three times around one update. -/
def threeRefreshes : List (LazyAction ℤ Bool) :=
  List.flatten [[.call true .updateLocalIfChanged], List.replicate 8 (.run true),
    [.call false .updateGlobalIfOwner], List.replicate 8 (.run false),
    [.call true .updateLocalIfChanged], List.replicate 8 (.run true),
    [.call true .updateLocalIfChanged], List.replicate 2 (.run true)]

theorem lazy_refresh_locks_three :
    threeRefreshes.countP (LazyAction.isCall true) = 3 ∧
    threeRefreshes.countP (LazyAction.isUpdate false) = 1 ∧
    weigh lazyStep (acquires true) (singleWriterInitial false ⟨wineingCtrlCmdInit, fun _ => 0, 0⟩
      (fun _ => ⟨wineingCtrlCmdInit, fun _ => 0, 0⟩)) threeRefreshes ≤ 1 + 1 := by
  obtain ⟨s, run, _⟩ := exists_run_of_foldlM_map lazyStep (SingleWriter false)
    (singleWriterInitial false ⟨wineingCtrlCmdInit, fun _ => 0, 0⟩
      (fun _ : Bool => ⟨wineingCtrlCmdInit, fun _ => 0, 0⟩))
    threeRefreshes (fun s => (s.threads true).tVersion) (b := 1) (by decide)
  exact ⟨by decide, by decide, lazy_refresh_locks false _ _ _ s run true (by decide)⟩

end Readers

section Threads

variable {tapeBasedir : Bytes} {as : List Action} {s s' : State} {p : Party}

def State.acquires (p : Party) (s : State) : Action → ℕ
  | .lazy q => Wineing.acquires p s.lazy (.run q)
  | _ => 0

private theorem acquires_of_moves {a : Action} (h : Moves tapeBasedir s a s') :
    (s'.lazy = s.lazy ∧ s.acquires p a = 0) ∨ ∃ b, SingleWriter .cchanIn s.lazy b ∧
      lazyStep s.lazy b = some s'.lazy ∧ acquires p s.lazy b = s.acquires p a := by
  cases h with
  | @lazy q l ran => exact .inr ⟨.run q, trivial, ran, rfl⟩
  | @inAnswer _ _ _ out l pc received switched assigned =>
    have allowed : SingleWriter .cchanIn s.lazy
        (.assign .cchanIn (s.thread .cchanIn).tVersion out.tData) := ⟨rfl, rfl⟩
    exact .inr ⟨_, allowed, assigned, rfl⟩
  | inPublish pc called => exact .inr ⟨.call .cchanIn .updateGlobalIfOwner, rfl, called, rfl⟩
  | outRead pc called =>
    exact .inr ⟨.call .cchanOut .updateLocalIfChanged, Party.noConfusion, called, rfl⟩
  | marketRead pc called =>
    exact .inr ⟨.call .market .updateLocalIfChanged, Party.noConfusion, called, rfl⟩
  | marketCallback pc called =>
    exact .inr ⟨.call .callback .updateLocalIfChanged, Party.noConfusion, called, rfl⟩
  | inLoop | inFinish | inRefuse | inPush | outFinish | outTest | outRefuse | outRecv | outSend
  | marketTest | marketRun | marketProcess | marketStop | marketContinue | marketTapeEnd
  | marketStopped => exact .inl ⟨rfl, rfl⟩

/-- However many messages NxCore calls `nxtape_process` with, and however often the other loops
turn, each of the readers takes the lock at most once for every acknowledged request, and once
for its first version. -/
theorem readers_lock_per_command (tapeBasedir : Bytes) (gBuffer : Memory) (buffer : Party → Memory)
    (as : List Action) (s : State)
    (run : Run (step tapeBasedir) unguarded (initial gBuffer buffer) as s)
    (p : Party) (hp : p ≠ .cchanIn) :
    weigh (step tapeBasedir) (State.acquires p) (initial gBuffer buffer) as ≤
      (controlLog as).acknowledged.length + 1 := by
  obtain ⟨bs, lazyRun, hsame⟩ := run.simulates_weigh (State.acquires p) (SingleWriter .cchanIn)
    (acquires p) State.lazy
    (fun _ _ _ _ moved => acquires_of_moves (moves_of_step moved))
  have hle : weigh lazyStep (acquires p) (initial gBuffer buffer).lazy bs ≤
      s.lazy.published.length := (lockingInv_of_run hp lazyRun).le_published hp
  have hcount := (controlInv_run run).count
  calc weigh (step tapeBasedir) (State.acquires p) (initial gBuffer buffer) as
      = weigh lazyStep (acquires p) (initial gBuffer buffer).lazy bs := hsame.symm
    _ ≤ s.lazy.published.length := hle
    _ ≤ (controlLog as).acknowledged.length + 1 := by omega

def twoCallbacks : List Action :=
  List.flatten [serve ⟨1, .marketStart, none⟩ 0, marketRefresh, [.marketRun true],
    callbackRefresh .status, [.marketCallbackReturn, .marketCallback .other], calls .callback 2,
    [.marketProcess]]

theorem readers_lock_per_command_callbacks :
    (controlLog twoCallbacks).acknowledged.length = 1 ∧
    weigh (step []) (State.acquires .callback) (initial (fun _ => 0) (fun _ _ => 0))
      twoCallbacks ≤ 2 := by
  obtain ⟨s, run, _⟩ := exists_run_of_foldlM_map (step []) unguarded
    (initial (fun _ => 0) (fun _ _ => 0)) twoCallbacks
    (fun s => s.mchan.length) (b := 1) (by decide)
  exact ⟨by decide, readers_lock_per_command [] _ _ _ s run .callback (by decide)⟩

end Threads

end Wineing
