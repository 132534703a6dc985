import Wineing.FormatStrings
import Wineing.WineingProcess

/-!
# What `cchan_in_thread` logs

The `log` macro gives its message to `fprintf` as the format. All messages of the control
thread are literals, except the text of the error for a tape that is not found: it is made
from the directory of the tapes and what the client sent, and given as a message without
arguments.
-/

namespace Wineing
open CStringMemory FormatStrings GuardedRuns

inductive LogLevel
  | debug
  | warn
  | info
  | error
  deriving DecidableEq

namespace LogLevel

def number : LogLevel → ℤ
  | debug => 1
  | warn => 2
  | info => 3
  | error => 4

def str : LogLevel → Bytes
  | debug => ascii "DEBUG"
  | warn => ascii "WARN"
  | info => ascii "INFO"
  | error => ascii "ERROR"

end LogLevel

def logLevel : ℤ := 0

/-- A use of the `log` macro: the level, the message and its arguments. -/
structure LogCall where
  level : LogLevel
  msg : Bytes
  args : List Arg

/-- What the macro and its arguments take from the surroundings: the formatted time, the
place in the source, and `chan_error()`. -/
structure LogEnv where
  now : Bytes
  file : Bytes
  line : ℤ
  chanError : Bytes

/-- The calls of `fprintf`, each with its format and its arguments. -/
def LogCall.fprintfs (env : LogEnv) (call : LogCall) : List (Bytes × List Arg) :=
  if call.level.number > logLevel - 1 then
    [(ascii "%s: [%-5s] ", [.string env.now, .string call.level.str]),
      (call.msg, call.args),
      (ascii " (%s:%d)\n", [.string env.file, .int env.line])]
  else []

def defaultsIchanName : Bytes := ascii "inproc://ctrl.out"

/-- The text of the error in a step that refuses a start because its tape does not exist. -/
def notFoundError (tapeBasedir : Bytes) (s : Process) : ProcessAction → Option Bytes
  | .run (.inRecv message fileExists) => (receivedRequest message).bind fun req =>
    let res := (cchanInSwitch tapeBasedir (s.threads.thread .cchanIn).tData req fileExists).res
    if res.type = .err then res.errText else none
  | _ => none

/-- The uses of `log` in `cchan_in_thread` and in `_recv_ctrl`, which it hands to
`chan_recv`. -/
def cchanInLogs (tapeBasedir cchanInFqcn : Bytes) (env : LogEnv) (s : Process) :
    ProcessAction → List LogCall
  | .start .cchanIn =>
    [⟨.info, ascii "Initializing control_in thread (%s)", [.string cchanInFqcn]⟩]
  | .bind .cchanIn _ bound =>
    match s.life .cchanIn, bound with
    | .bindFirst, false => [⟨.error, ascii "Failed binding to cchan_in (%s). Error [%s]",
        [.string cchanInFqcn, .string env.chanError]⟩]
    | .bindSecond, true => [⟨.debug, ascii "Ready to accept client requests", []⟩]
    | _, _ => []
  | .run (.inRecv (some frame) fileExists) =>
    if frame.request = none then [⟨.error, ascii "Failed parsing message", []⟩]
    else (notFoundError tapeBasedir s (.run (.inRecv (some frame) fileExists))).toList.map
      -- err.str().c_str() is the format
      fun errText => ⟨.debug, untilNul errText, []⟩
  | .sendFails .cchanIn =>
    [⟨.warn, ascii "Failed sending message to inproc channel (%s). Error %s",
      [.string defaultsIchanName, .string env.chanError]⟩]
  | .destroy .cchanIn =>
    if s.life .cchanIn = .destroySecond then
      [⟨.info, ascii "Shutting down control_in thread", []⟩]
    else []
  | _ => []

def LogCall.Matched (env : LogEnv) (call : LogCall) : Prop :=
  ∀ f ∈ call.fprintfs env, (fprintf f.1 f.2).isSome = true

/-- In a step all logging of the control thread is well, and what it writes for a tape that
is not found is the text of the error. -/
structure LogsWell (tapeBasedir cchanInFqcn : Bytes) (s : Process) (a : ProcessAction) : Prop where
  matched : ∀ env, ∀ call ∈ cchanInLogs tapeBasedir cchanInFqcn env s a, call.Matched env
  verbatim : ∀ errText, notFoundError tapeBasedir s a = some errText →
    fprintf (untilNul errText) [] = some errText

/-- The directory and the name of a tape that is not found have no percent sign and no NUL. -/
def PlainPaths (tapeBasedir : Bytes) (s : Process) : ProcessAction → Prop
  | .run (.inRecv message fileExists) => ∀ req tapeFile, receivedRequest message = some req →
      req.type = .marketStart → s.threads.cmd .cchanIn ≠ wineingCtrlCmdMarketRun →
      req.tapeFile = some tapeFile → fileExists < 0 →
      percent ∉ tapeBasedir ++ tapeFile ∧ 0 ∉ tapeBasedir ++ tapeFile
  | _ => True

section Steps

variable {tapeBasedir cchanInFqcn : Bytes} {s : Process} {a : ProcessAction} {env : LogEnv}
variable {call : LogCall} {message : Option Frame} {fileExists : ℤ} {errText : Bytes}

theorem matched_of_isSome (h : (fprintf call.msg call.args).isSome = true) : call.Matched env := by
  intro f hf
  unfold LogCall.fprintfs at hf
  split at hf
  · simp only [List.mem_cons, List.not_mem_nil, or_false] at hf
    rcases hf with rfl | rfl | rfl
    · rfl
    · exact h
    · rfl
  · simp at hf

theorem matched_or_notFound (h : call ∈ cchanInLogs tapeBasedir cchanInFqcn env s a) :
    call.Matched env ∨ ∃ errText, notFoundError tapeBasedir s a = some errText ∧
      call = ⟨.debug, untilNul errText, []⟩ := by
  unfold cchanInLogs at h
  split at h
  case h_1 =>
    obtain rfl := List.mem_singleton.mp h
    exact .inl (matched_of_isSome rfl)
  case h_2 =>
    split at h
    · obtain rfl := List.mem_singleton.mp h
      exact .inl (matched_of_isSome rfl)
    · obtain rfl := List.mem_singleton.mp h
      exact .inl (matched_of_isSome rfl)
    · cases h
  case h_3 =>
    split at h
    · obtain rfl := List.mem_singleton.mp h
      exact .inl (matched_of_isSome rfl)
    · obtain ⟨errText, herr, rfl⟩ := List.mem_map.mp h
      exact .inr ⟨errText, Option.mem_toList.mp herr, rfl⟩
  case h_4 =>
    obtain rfl := List.mem_singleton.mp h
    exact .inl (matched_of_isSome rfl)
  case h_5 =>
    split at h
    · obtain rfl := List.mem_singleton.mp h
      exact .inl (matched_of_isSome rfl)
    · cases h
  case h_6 => cases h

theorem notFoundError_eq_some : notFoundError tapeBasedir s (.run (.inRecv message fileExists)) =
      some errText ↔ ∃ req tapeFile, receivedRequest message = some req ∧ req.type = .marketStart ∧
        s.threads.cmd .cchanIn ≠ wineingCtrlCmdMarketRun ∧ req.tapeFile = some tapeFile ∧
        fileExists < 0 ∧ errText = notFoundText (tapeBasedir ++ tapeFile) := by
  constructor
  · intro h
    obtain ⟨req, hreq, h⟩ := Option.bind_eq_some_iff.mp h
    cases htype : req.type with
    | marketStop | shutdown => simp [cchanInSwitch, htype] at h
    | marketStart =>
      have hcmd : (s.threads.thread .cchanIn).tData.cmd ≠ wineingCtrlCmdMarketRun := fun hrun => by
        simp [cchanInSwitch, htype, hrun] at h
      cases hfile : req.tapeFile with
      | none => simp [cchanInSwitch, htype, hfile, hcmd] at h
      | some tapeFile =>
        by_cases hexists : fileExists < 0
        · rw [cchanInSwitch_missing tapeBasedir htype hcmd hfile hexists] at h
          exact ⟨req, tapeFile, hreq, htype, hcmd, hfile, hexists, by simpa using h.symm⟩
        · rw [cchanInSwitch_found tapeBasedir htype hcmd hfile (Int.not_lt.mp hexists)] at h
          simp at h
  · rintro ⟨req, tapeFile, hreq, htype, hcmd, hfile, hexists, rfl⟩
    simp [notFoundError, hreq, cchanInSwitch_missing tapeBasedir htype hcmd hfile hexists]

theorem plain_notFoundText (tape : Bytes) :
    (percent ∉ notFoundText tape ∧ 0 ∉ notFoundText tape) ↔ percent ∉ tape ∧ 0 ∉ tape := by
  have hbefore : percent ∉ ascii "File '" ∧ 0 ∉ ascii "File '" := by decide
  have hafter : percent ∉ ascii "' not found." ∧ 0 ∉ ascii "' not found." := by decide
  simp [notFoundText, hbefore, hafter]

theorem logsWell_iff : LogsWell tapeBasedir cchanInFqcn s a ↔ PlainPaths tapeBasedir s a := by
  have hplain : PlainPaths tapeBasedir s a ↔ ∀ errText, notFoundError tapeBasedir s a = some errText →
      percent ∉ errText ∧ 0 ∉ errText := by
    unfold PlainPaths
    split
    · constructor
      · intro h errText herr
        obtain ⟨req, tapeFile, hreq, htype, hcmd, hfile, hexists, rfl⟩ := notFoundError_eq_some.mp herr
        exact (plain_notFoundText _).mpr (h req tapeFile hreq htype hcmd hfile hexists)
      · intro h req tapeFile hreq htype hcmd hfile hexists
        refine (plain_notFoundText _).mp (h _ (notFoundError_eq_some.mpr ?_))
        exact ⟨req, tapeFile, hreq, htype, hcmd, hfile, hexists, rfl⟩
    · refine ⟨fun _ errText herr => ?_, fun _ => trivial⟩
      unfold notFoundError at herr
      split at herr
      · simp_all
      · cases herr
  rw [hplain]
  constructor
  · intro h errText herr
    exact (fprintf_untilNul_iff errText).mp (h.verbatim errText herr)
  · intro h
    have hverbatim : ∀ errText, notFoundError tapeBasedir s a = some errText →
        fprintf (untilNul errText) [] = some errText :=
      fun errText herr => (fprintf_untilNul_iff errText).mpr (h errText herr)
    refine ⟨fun env call hcall => ?_, hverbatim⟩
    rcases matched_or_notFound hcall with hmatched | ⟨errText, herr, rfl⟩
    · exact hmatched
    · exact matched_of_isSome (by rw [hverbatim errText herr]; rfl)

end Steps

/-- In a run all logging of the control thread is well, exactly when every tape that was not
found has a path without percent sign and NUL. -/
theorem cchanInThread_logs_well_iff (tapeBasedir cchanInFqcn : Bytes) (gBuffer : Memory)
    (buffer : Party → Memory) (as : List ProcessAction) (s : Process) :
    Run (processStep tapeBasedir) (LogsWell tapeBasedir cchanInFqcn)
        (processInitial gBuffer buffer) as s ↔
      Run (processStep tapeBasedir) (PlainPaths tapeBasedir) (processInitial gBuffer buffer) as s :=
  Run.guard_congr fun _ _ _ _ => logsWell_iff

/-- Both control threads have bound their channels, and one is in its loop. -/
def bindControlThreads : List ProcessAction :=
  [.start .cchanOut, .bind .cchanOut true true, .bind .cchanOut true true,
    .start .cchanIn, .bind .cchanIn true true, .bind .cchanIn true true, .run .inLoop]

/-- A start of the tape `%s`, which does not exist: the format wants an argument, and
there is none. -/
theorem tapeFile_read_as_format : ∃ s s' errText,
    Run (processStep (ascii "C:\\md\\")) unguarded
      (processInitial (fun _ => 0) (fun _ _ => 0)) bindControlThreads s ∧
    processStep (ascii "C:\\md\\") s (.run (.inRecv
      (some (Request.frame ⟨1, .marketStart, some (ascii "%s")⟩)) (-1))) = some s' ∧
    notFoundError (ascii "C:\\md\\") s (.run (.inRecv
      (some (Request.frame ⟨1, .marketStart, some (ascii "%s")⟩)) (-1))) = some errText ∧
    errText = ascii "File 'C:\\md\\%s' not found." ∧ fprintf (untilNul errText) [] = none := by
  obtain ⟨s, s', run, moved, hs⟩ := exists_runs_of_foldlM_map (processStep (ascii "C:\\md\\"))
    unguarded unguarded (processInitial (fun _ => 0) (fun _ _ => 0)) bindControlThreads
    [.run (.inRecv (some (Request.frame ⟨1, .marketStart, some (ascii "%s")⟩)) (-1))]
    (fun s _ => notFoundError (ascii "C:\\md\\") s
      (.run (.inRecv (some (Request.frame ⟨1, .marketStart, some (ascii "%s")⟩)) (-1))))
    (b := some (ascii "File 'C:\\md\\%s' not found.")) (by decide)
  exact ⟨s, s', _, run, moved.single_inv.2, hs, rfl, by decide⟩

end Wineing
