import Wineing.ControlLoopRefinement

/-!
# Does every tape path fit the data buffers?

All records have buffers of the same size. The control thread copies the path of an
accepted tape into its own without looking at the length, and the two copy functions pass
the number of bytes on. Every copy of a run stays within its buffers exactly when the
path of every accepted tape does.
-/

namespace Wineing
open CStringMemory GuardedRuns WCtrl

/-- The start of a tape that the switch takes over: outside the running state, for a tape
that `wininf_file_exists` finds. -/
def AcceptsTape (tData : WCtrl) (req : Request) (fileExists : ℤ) (tapeFile : Bytes) : Prop :=
  req.type = .marketStart ∧ tData.cmd ≠ wineingCtrlCmdMarketRun ∧
    req.tapeFile = some tapeFile ∧ 0 ≤ fileExists

/-- Directory, file name and NUL of every accepted tape fit a data buffer. -/
def Fits (tapeBasedir : Bytes) (s : State) (a : Action) : Prop :=
  ∀ x ∈ a.request, ∀ tapeFile, AcceptsTape (s.thread .cchanIn).tData x.1 x.2 tapeFile →
    tapeBasedir.length + tapeFile.length + 1 ≤ wineingCtrlDefaultDataSize

/-- The number of bytes a step copies from one data buffer, or from a path, to another. -/
inductive Copies (tapeBasedir : Bytes) (s : State) : Action → ℕ → Prop
  | tape {message fileExists req tapeFile} (received : receivedRequest message = some req)
      (accepted : AcceptsTape (s.thread .cchanIn).tData req fileExists tapeFile) :
      Copies tapeBasedir s (.inRecv message fileExists) ((tapeBasedir ++ tapeFile).length + 1)
  | localToShared {p} (pc : (s.thread p).pc = .data .updateGlobalIfOwner) :
      Copies tapeBasedir s (.lazy p) (s.thread p).tData.size
  | sharedToLocal {p} (pc : (s.thread p).pc = .data .updateLocalIfChanged) :
      Copies tapeBasedir s (.lazy p) s.lazy.gData.size

structure SizesLe {V ι : Type*} (n : ℕ) (l : LazyState V ι) : Prop where
  shared : l.gData.size ≤ n
  own : ∀ i, (l.threads i).tData.size ≤ n

/-- No record uses more bytes than its buffer has. -/
abbrev Bounded (s : State) : Prop := SizesLe wineingCtrlDefaultDataSize s.lazy

/-- The step copies within the buffers and leaves the sizes within them. -/
structure InBounds (tapeBasedir : Bytes) (s : State) (a : Action) : Prop where
  copies : ∀ n, Copies tapeBasedir s a n → n ≤ wineingCtrlDefaultDataSize
  bounded : ∀ s', step tapeBasedir s a = some s' → Bounded s'

section Sizes

variable {V ι : Type*} [DecidableEq ι] {n : ℕ} {l l' : LazyState V ι} {i : ι}

theorem SizesLe.setThread (hl : SizesLe n l) {t : LazyThread V} (ht : t.tData.size ≤ n) :
    SizesLe n (l.setThread i t) := by
  refine ⟨hl.shared, fun j => ?_⟩
  by_cases hj : j = i
  · subst hj
    rwa [LazyState.setThread_threads_self]
  · rw [LazyState.setThread_threads_of_ne _ _ hj]
    exact hl.own j

private theorem sizesLe_runThread [Ring V] [DecidableEq V] (hl : SizesLe n l)
    (ran : runThread l i = some l') : SizesLe n l' := by
  have hi := hl.own i
  cases accesses_of_runThread ran with
  | owns | refuse | unchanged | changed | reread | lock | writeVersion | readVersion | unlock
  | ret =>
    refine SizesLe.setThread ?_ ?_
    · exact ⟨hl.shared, hl.own⟩
    · exact hi
  | readCmd | readData => exact hl.setThread (by simpa [copyCmd] using hi)
  | readSize => exact hl.setThread hl.shared
  | writeCmd | writeData =>
    refine SizesLe.setThread ?_ ?_
    · exact ⟨by simpa [copyCmd] using hl.shared, hl.own⟩
    · exact hi
  | writeSize =>
    refine SizesLe.setThread ?_ ?_
    · exact ⟨hi, hl.own⟩
    · exact hi

end Sizes

section Steps

variable {tapeBasedir : Bytes} {s s' : State} {a : Action}

theorem cchanInSwitch_size (tapeBasedir : Bytes) (tData : WCtrl) (req : Request) (fileExists : ℤ) :
    (∃ tapeFile, AcceptsTape tData req fileExists tapeFile ∧
      (cchanInSwitch tapeBasedir tData req fileExists).tData.size =
        (tapeBasedir ++ tapeFile).length + 1) ∨
    (cchanInSwitch tapeBasedir tData req fileExists).tData.size ≤ tData.size := by
  unfold cchanInSwitch
  cases htype : req.type with
  | marketStop | shutdown => exact .inr (le_refl _)
  | marketStart =>
    by_cases hcmd : tData.cmd = wineingCtrlCmdMarketRun
    · exact .inr (by simp [hcmd])
    · cases hfile : req.tapeFile with
      | none => exact .inr (by simp [hcmd])
      | some tapeFile =>
        by_cases hrc : 0 > fileExists
        · exact .inr (by simp [hcmd, hrc])
        · exact .inl ⟨tapeFile, ⟨htype, hcmd, hfile, Int.not_lt.mp hrc⟩, by simp [hcmd, hrc]⟩

theorem bounded_initial (gBuffer : Memory) (buffer : Party → Memory) :
    Bounded (initial gBuffer buffer) :=
  ⟨Nat.zero_le _, fun _ => Nat.zero_le _⟩

private theorem bounded_step (hs : Bounded s) (hfits : Fits tapeBasedir s a)
    (h : step tapeBasedir s a = some s') : Bounded s' := by
  cases moves_of_step h with
  | lazy ran => exact sizesLe_runThread hs ran
  | @inAnswer message fileExists req out l pc received switched assigned =>
    obtain ⟨_, rfl⟩ := lazyStep_assign assigned
    refine hs.setThread ?_
    show out.tData.size ≤ wineingCtrlDefaultDataSize
    have hsize := cchanInSwitch_size tapeBasedir (s.thread .cchanIn).tData req fileExists
    rw [switched] at hsize
    rcases hsize with ⟨tapeFile, haccepts, hsize⟩ | hle
    · rw [receivedRequest_eq] at received
      have hrequest : (req, fileExists) ∈ Action.request (.inRecv message fileExists) := by
        simp [Action.request, received]
      have hfit := hfits _ hrequest tapeFile haccepts
      rw [hsize, List.length_append]
      exact hfit
    · exact hle.trans (hs.own .cchanIn)
  | inPublish pc called | outRead pc called | marketRead pc called | marketCallback pc called =>
    obtain ⟨_, rfl⟩ := lazyStep_call called
    exact hs.setThread (hs.own _)
  | inLoop | inFinish | inRefuse | inPush | outFinish | outTest | outRefuse | outRecv | outSend
  | marketTest | marketRun | marketProcess | marketStop | marketContinue | marketTapeEnd
  | marketStopped => exact hs

theorem inBounds_of_fits (hs : Bounded s) (hfits : Fits tapeBasedir s a) :
    InBounds tapeBasedir s a := by
  refine ⟨fun n hn => ?_, fun s' h => bounded_step hs hfits h⟩
  cases hn with
  | @tape message fileExists req tapeFile received accepted =>
    rw [receivedRequest_eq] at received
    rw [List.length_append]
    exact hfits (req, fileExists) (by simp [Action.request, received]) tapeFile accepted
  | localToShared => exact hs.own _
  | sharedToLocal => exact hs.shared

theorem fits_of_inBounds (hbounds : InBounds tapeBasedir s a) : Fits tapeBasedir s a := by
  intro x hx tapeFile haccepts
  cases a with
  | inRecv message fileExists =>
    obtain ⟨req, hreq, rfl⟩ := Option.map_eq_some_iff.mp hx
    have hreceived : receivedRequest message = some req := by
      rw [receivedRequest_eq]
      exact hreq
    have hcopies := hbounds.copies _ (.tape hreceived haccepts)
    rwa [List.length_append] at hcopies
  | _ => cases hx

end Steps

/-- The copies of a run and the sizes they leave stay within the data buffers exactly when
every accepted tape path fits one. -/
theorem tape_path_in_bounds_iff (tapeBasedir : Bytes) (gBuffer : Memory) (buffer : Party → Memory)
    (as : List Action) (s : State) :
    Run (step tapeBasedir) (InBounds tapeBasedir) (initial gBuffer buffer) as s ↔
      Run (step tapeBasedir) (Fits tapeBasedir) (initial gBuffer buffer) as s := by
  constructor
  · intro run
    exact run.mono (fun _ _ => fits_of_inBounds)
  · intro run
    exact (run.reguard Bounded (bounded_initial gBuffer buffer)
      (fun _ _ _ ht hfits hstep => bounded_step ht hfits hstep)
      (fun _ _ _ ht hfits _ => inBounds_of_fits ht hfits)).1

/-- A found file name with more NUL bytes behind it than a buffer holds: they end up in the
shared record. -/
theorem tape_path_overflows : ∃ s : State,
    Run (step []) unguarded (initial (fun _ => 0) (fun _ _ => 0))
      (serve ⟨1, .marketStart, some (ascii "x.nxc" ++ List.replicate 1100 0)⟩ 0) s ∧
    wineingCtrlDefaultDataSize < s.lazy.gData.size := by
  have hrun := exists_run_of_foldlM_map (step []) unguarded
    (initial (fun _ => 0) (fun _ _ => 0))
    (serve ⟨1, .marketStart, some (ascii "x.nxc" ++ List.replicate 1100 0)⟩ 0)
    (fun s => s.lazy.gData.size) (b := 1106) (by decide +kernel)
  obtain ⟨s, run, hs⟩ := hrun
  exact ⟨s, run, by rw [hs]; decide⟩

end Wineing
