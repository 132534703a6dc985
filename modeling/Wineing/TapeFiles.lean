import Wineing.ControlProgress

/-!
# Which files are replayed as tapes

`wininf_file_exists` asks for the attributes of a path. Its test for a directory can only
hold where the attributes are invalid anyway, so a start is accepted for every path that
names something, and whether only regular files are replayed depends on whether clients
name directories.
-/

namespace Wineing
open CStringMemory GuardedRuns

structure Path where
  bytes : Bytes
  nul_free : 0 ∉ bytes

def cPath (str : Bytes) : Path := ⟨untilNul str, untilNul_nul_free str⟩

/-- `GetFileAttributes` -/
abbrev FileSystem := Path → UInt32

def invalidFileAttributes : UInt32 := 0xFFFFFFFF
def fileAttributeDirectory : UInt32 := 0x10

def wininfFileExists (fs : FileSystem) (str : Bytes) : ℤ :=
  let attrs := fs (cPath str)
  if attrs = invalidFileAttributes ∧ attrs &&& fileAttributeDirectory ≠ 0 then -1 else 0

def IsRegular (attrs : UInt32) : Prop :=
  attrs ≠ invalidFileAttributes ∧ attrs &&& fileAttributeDirectory = 0

def IsDirectory (attrs : UInt32) : Prop :=
  attrs ≠ invalidFileAttributes ∧ attrs &&& fileAttributeDirectory ≠ 0

theorem wininfFileExists_neg_iff (fs : FileSystem) (str : Bytes) :
    wininfFileExists fs str < 0 ↔ fs (cPath str) = invalidFileAttributes := by
  have hall : invalidFileAttributes &&& fileAttributeDirectory ≠ 0 := by decide
  unfold wininfFileExists
  by_cases hattrs : fs (cPath str) = invalidFileAttributes
  · simp [hattrs, hall]
  · simp [hattrs]

instance (attrs : UInt32) : Decidable (IsRegular attrs) := inferInstanceAs (Decidable (_ ∧ _))

instance (attrs : UInt32) : Decidable (IsDirectory attrs) := inferInstanceAs (Decidable (_ ∧ _))

theorem not_directory_iff (attrs : UInt32) :
    (IsRegular attrs ↔ attrs ≠ invalidFileAttributes) ↔ ¬ IsDirectory attrs := by
  unfold IsRegular IsDirectory
  tauto

/-- Between `s` and `t` the start of a tape was answered with OK and published. -/
structure Starts (tapeBasedir : Bytes) (req : Request) (s t : State) : Prop where
  answered : t.pushed = s.pushed ++ [⟨req.requestId, .marketStartOk, none⟩]
  published : ∃ ctrl, t.lazy.published.map Publication.ctrl =
    s.lazy.published.map Publication.ctrl ++ [ctrl] ∧ Publishes tapeBasedir req ctrl

/-- Between `s` and `t` it was answered with an error and nothing was published. -/
structure Refuses (req : Request) (s t : State) : Prop where
  answered : ∃ errText, t.pushed = s.pushed ++ [⟨req.requestId, .err, some errText⟩]
  published : t.lazy.published.map Publication.ctrl = s.lazy.published.map Publication.ctrl

section Steps

variable {tapeBasedir : Bytes} {gBuffer : Memory} {buffer : Party → Memory}
variable {as bs : List Action} {s s' t : State} {message : Option Frame} {req : Request}
variable {tapeFile : Bytes} {fileExists : ℤ}

theorem starts_of_found (run : Run (step tapeBasedir) unguarded (initial gBuffer buffer) as s)
    (received : receivedRequest message = some req) (htype : req.type = .marketStart)
    (hfile : req.tapeFile = some tapeFile) (hcmd : s.cmd .cchanIn ≠ wineingCtrlCmdMarketRun)
    (h : step tapeBasedir s (.inRecv message fileExists) = some s') (hexists : 0 ≤ fileExists)
    (rest : Run (step tapeBasedir) unguarded s' bs t) (hbs : requests bs = []) (hrest : t.AtRest) :
    Starts tapeBasedir req s t := by
  obtain ⟨hpushed, hpublished⟩ := answer_of_run run (request_of_inRecv received) h rest hbs hrest
    (cchanInSwitch_found tapeBasedir htype hcmd hfile hexists)
  exact ⟨hpushed, _, hpublished, publishes_tape htype hfile⟩

theorem refuses_of_missing (run : Run (step tapeBasedir) unguarded (initial gBuffer buffer) as s)
    (received : receivedRequest message = some req) (htype : req.type = .marketStart)
    (hfile : req.tapeFile = some tapeFile) (hcmd : s.cmd .cchanIn ≠ wineingCtrlCmdMarketRun)
    (h : step tapeBasedir s (.inRecv message fileExists) = some s') (hexists : fileExists < 0)
    (rest : Run (step tapeBasedir) unguarded s' bs t) (hbs : requests bs = []) (hrest : t.AtRest) :
    Refuses req s t := by
  obtain ⟨hpushed, hpublished⟩ := answer_of_run run (request_of_inRecv received) h rest hbs hrest
    (cchanInSwitch_missing tapeBasedir htype hcmd hfile hexists)
  exact ⟨⟨_, hpushed⟩, by simpa using hpublished⟩

theorem Starts.not_refuses (hstarts : Starts tapeBasedir req s t) : ¬ Refuses req s t := by
  rintro ⟨⟨errText, herr⟩, _⟩
  have hres := List.append_cancel_left (hstarts.answered.symm.trans herr)
  simp at hres

end Steps

/-- A start with a tape, received while not running, is answered with OK and published
when the path names a regular file, and else answered with ERR, exactly when the path does
not name a directory. -/
theorem tape_accepted_iff (tapeBasedir : Bytes) (gBuffer : Memory) (buffer : Party → Memory)
    (as : List Action) (s s' : State)
    (run : Run (step tapeBasedir) unguarded (initial gBuffer buffer) as s) (fs : FileSystem)
    (message : Option Frame) (req : Request) (tapeFile : Bytes)
    (received : receivedRequest message = some req) (htype : req.type = .marketStart)
    (hfile : req.tapeFile = some tapeFile) (hcmd : s.cmd .cchanIn ≠ wineingCtrlCmdMarketRun)
    (h : step tapeBasedir s (.inRecv message (wininfFileExists fs (tapeBasedir ++ tapeFile))) =
      some s') :
    (∀ bs t, Run (step tapeBasedir) unguarded s' bs t → requests bs = [] → t.AtRest →
      (IsRegular (fs (cPath (tapeBasedir ++ tapeFile))) → Starts tapeBasedir req s t) ∧
      (¬ IsRegular (fs (cPath (tapeBasedir ++ tapeFile))) → Refuses req s t)) ↔
    ¬ IsDirectory (fs (cPath (tapeBasedir ++ tapeFile))) := by
  have hneg := wininfFileExists_neg_iff fs (tapeBasedir ++ tapeFile)
  constructor
  · intro hanswers hdirectory
    have hexists := Int.not_lt.mp (mt hneg.mp hdirectory.1)
    have hinv := threadsInv_step (threadsInv_run (threadsInv_initial gBuffer buffer) run) h
    obtain ⟨bs, t, rest, hbs, hrest⟩ := exists_run_to_rest tapeBasedir hinv
    have hstarts := starts_of_found run received htype hfile hcmd h hexists rest hbs hrest
    exact hstarts.not_refuses
      ((hanswers bs t rest hbs hrest).2 (fun hregular => hdirectory.2 hregular.2))
  · intro hdirectory bs t rest hbs hrest
    have hregular := (not_directory_iff _).mpr hdirectory
    refine ⟨fun hr => ?_, fun hr => ?_⟩
    · have hexists := Int.not_lt.mp (mt hneg.mp (hregular.mp hr))
      exact starts_of_found run received htype hfile hcmd h hexists rest hbs hrest
    · have hmissing := hneg.mpr (not_not.mp (mt hregular.mpr hr))
      exact refuses_of_missing run received htype hfile hcmd h hmissing rest hbs hrest

/-- The directory of the tapes and one tape in it. -/
def oneTape : FileSystem := fun path =>
  if path.bytes = ascii "C:\\md\\" then 0x10
  else if path.bytes = ascii "C:\\md\\a.nxc" then 0x20
  else invalidFileAttributes

theorem tape_accepted_iff_oneTape : ∃ s s' : State,
    Run (step (ascii "C:\\md\\")) unguarded (initial (fun _ => 0) (fun _ _ => 0)) [.inLoop] s ∧
    step (ascii "C:\\md\\") s
      (.inRecv (some (Request.frame ⟨1, .marketStart, some (ascii "a.nxc")⟩))
        (wininfFileExists oneTape (ascii "C:\\md\\" ++ ascii "a.nxc"))) = some s' ∧
    ∀ bs t, Run (step (ascii "C:\\md\\")) unguarded s' bs t → requests bs = [] → t.AtRest →
      Starts (ascii "C:\\md\\") ⟨1, .marketStart, some (ascii "a.nxc")⟩ s t := by
  obtain ⟨s, s', run, start, hs⟩ := exists_runs_of_foldlM_map (step (ascii "C:\\md\\")) unguarded
    unguarded (initial (fun _ => 0) (fun _ _ => 0)) [.inLoop]
    [.inRecv (some (Request.frame ⟨1, .marketStart, some (ascii "a.nxc")⟩))
      (wininfFileExists oneTape (ascii "C:\\md\\" ++ ascii "a.nxc"))]
    (fun s _ => s.cmd .cchanIn) (b := wineingCtrlCmdInit) (by decide)
  have haccepted := tape_accepted_iff (ascii "C:\\md\\") _ _ [.inLoop] s s' run oneTape _ _ _ rfl
    rfl rfl (by rw [hs]; decide) start.single_inv.2
  exact ⟨s, s', run, start.single_inv.2, fun bs t rest hbs hrest =>
    (haccepted.mpr (by decide) bs t rest hbs hrest).1 (by decide)⟩

/-- An empty tape file is the directory itself, and is answered with OK and published. -/
theorem tape_directory_accepted : ∃ s : State,
    Run (step (ascii "C:\\md\\")) unguarded (initial (fun _ => 0) (fun _ _ => 0))
      (serve ⟨1, .marketStart, some []⟩ (wininfFileExists oneTape (ascii "C:\\md\\" ++ []))) s ∧
    ¬ IsRegular (oneTape (cPath (ascii "C:\\md\\" ++ []))) ∧
    s.pushed = [⟨1, .marketStartOk, none⟩] ∧
    s.lazy.published.map (fun p => (p.ctrl.cmd, p.ctrl.size)) = [(4, 0), (3, 7)] := by
  obtain ⟨s, run, hs⟩ := exists_run_of_foldlM_map (step (ascii "C:\\md\\")) unguarded
    (initial (fun _ => 0) (fun _ _ => 0))
    (serve ⟨1, .marketStart, some []⟩ (wininfFileExists oneTape (ascii "C:\\md\\" ++ [])))
    (fun s => (s.pushed, s.lazy.published.map fun p => (p.ctrl.cmd, p.ctrl.size)))
    (b := ([⟨1, .marketStartOk, none⟩], [(4, 0), (3, 7)])) (by decide)
  obtain ⟨hpushed, hpublished⟩ := Prod.mk.inj hs
  exact ⟨s, run, by decide, hpushed, hpublished⟩

end Wineing
