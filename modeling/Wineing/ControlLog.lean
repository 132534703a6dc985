import Wineing.WineingThreads

/-!
# Requests and responses as a log

What the control thread is for, without threads or buffers: every request is answered
from the last acknowledged command alone, and an acknowledged request publishes its
command. One pass through the switch of `cchan_in_thread` answers as the log does.
-/

namespace Wineing
open CStringMemory

/-- The requests answered so far, with the types of their responses, oldest first. -/
abbrev ControlLog := List (Request × ResponseType)

/-- The command an acknowledged request stands for. -/
def RequestType.command : RequestType → ℤ
  | .marketStart => wineingCtrlCmdMarketRun
  | .marketStop => wineingCtrlCmdMarketStop
  | .shutdown => wineingCtrlCmdShutdown

namespace ControlLog

def acknowledged (log : ControlLog) : List Request :=
  (log.filter fun x => x.2.isOk).map Prod.fst

def last (log : ControlLog) : Option RequestType := log.acknowledged.getLast?.map Request.type

def command (log : ControlLog) : ℤ := (log.last.map RequestType.command).getD wineingCtrlCmdInit

/-- The type of the response to a request, given whether a tape file is found. -/
def answer (log : ControlLog) (req : Request) (fileExists : ℤ) : ResponseType :=
  match req.type with
  | .marketStart =>
    if log.last = some .marketStart then .marketStartErrRunning
    else if req.tapeFile.isSome ∧ fileExists < 0 then .err
    else .marketStartOk
  | .marketStop => .marketStopOk
  | .shutdown => .shutdownOk

def respond (log : ControlLog) (x : Request × ℤ) : ControlLog :=
  log ++ [(x.1, log.answer x.1 x.2)]

theorem acknowledged_respond (log : ControlLog) (req : Request) (fileExists : ℤ) :
    (log.respond (req, fileExists)).acknowledged =
      log.acknowledged ++ if (log.answer req fileExists).isOk then [req] else [] := by
  simp only [respond, acknowledged, List.filter_append, List.map_append]
  cases hok : (log.answer req fileExists).isOk <;> simp [hok]

theorem command_respond (log : ControlLog) (req : Request) (fileExists : ℤ) :
    (log.respond (req, fileExists)).command =
      if (log.answer req fileExists).isOk then req.type.command else log.command := by
  cases hok : (log.answer req fileExists).isOk <;>
    simp [command, last, acknowledged_respond, hok]

theorem command_of_getLast? {log : ControlLog} {req : Request}
    (h : log.acknowledged.getLast? = some req) : log.command = req.type.command := by
  simp [command, last, h]

theorem command_eq_run_iff (log : ControlLog) :
    log.command = wineingCtrlCmdMarketRun ↔ log.last = some .marketStart := by
  unfold command
  cases log.last with
  | none => decide
  | some type => cases type <;> decide

theorem shutdown_lt_command_iff (log : ControlLog) :
    wineingCtrlCmdShutdown < log.command ↔ log.last ≠ some .shutdown := by
  unfold command
  cases log.last with
  | none => decide
  | some type => cases type <;> decide

theorem shutdown_le_command (log : ControlLog) : wineingCtrlCmdShutdown ≤ log.command := by
  unfold command
  cases log.last with
  | none => decide
  | some type => cases type <;> decide

end ControlLog

/-- The record that the acknowledgement of a request publishes: its command and, for a
start, the path of the tape or no bytes at all. -/
structure Publishes (tapeBasedir : Bytes) (req : Request) (ctrl : WCtrl) : Prop where
  cmd : ctrl.cmd = req.type.command
  tape : ∀ tapeFile, req.type = .marketStart → req.tapeFile = some tapeFile →
    ctrl.size = (tapeBasedir ++ tapeFile).length + 1 ∧
      ∀ k < ctrl.size, ctrl.data k = cStr (tapeBasedir ++ tapeFile) k
  realTime : req.type = .marketStart → req.tapeFile = none → ctrl.size = 0

/-- What a pass through the switch has to do. -/
structure Answers (tapeBasedir : Bytes) (log : ControlLog) (req : Request) (fileExists : ℤ)
    (out : Switched) : Prop where
  requestId : out.res.requestId = req.requestId
  type : out.res.type = log.answer req fileExists
  publish : out.publish = (log.answer req fileExists).isOk
  cmd : out.tData.cmd = (log.respond (req, fileExists)).command
  record : out.publish = true → Publishes tapeBasedir req out.tData

section Answers

variable {tapeBasedir : Bytes} {log : ControlLog} {req : Request} {fileExists : ℤ}
variable {tData : WCtrl} {type : ResponseType} {errText : Option Bytes}

theorem answers_ok (htype : log.answer req fileExists = type) (hok : type.isOk = true)
    (hrecord : Publishes tapeBasedir req tData) :
    Answers tapeBasedir log req fileExists ⟨tData, ⟨req.requestId, type, errText⟩, true⟩ := by
  refine ⟨rfl, htype.symm, ?_, ?_, fun _ => hrecord⟩
  · rw [htype, hok]
  · rw [ControlLog.command_respond, htype, if_pos hok, hrecord.cmd]

theorem answers_error (htype : log.answer req fileExists = type) (hok : type.isOk = false)
    (hcmd : tData.cmd = log.command) :
    Answers tapeBasedir log req fileExists ⟨tData, ⟨req.requestId, type, errText⟩, false⟩ := by
  refine ⟨rfl, htype.symm, ?_, ?_, fun h => absurd h Bool.noConfusion⟩
  · rw [htype, hok]
  · rw [ControlLog.command_respond, htype, hok]
    exact hcmd

theorem publishes_tape {tapeFile : Bytes} {data : Memory} (htype : req.type = .marketStart)
    (hfile : req.tapeFile = some tapeFile) :
    Publishes tapeBasedir req ⟨wineingCtrlCmdMarketRun,
      memcpy data (cStr (tapeBasedir ++ tapeFile)) ((tapeBasedir ++ tapeFile).length + 1),
      (tapeBasedir ++ tapeFile).length + 1⟩ := by
  refine ⟨by rw [htype]; rfl, ?_, ?_⟩
  · intro other _ hother
    obtain rfl : tapeFile = other := Option.some.inj (hfile.symm.trans hother)
    exact ⟨rfl, fun k hk => memcpy_of_lt _ _ hk⟩
  · intro _ hnone
    cases hfile.symm.trans hnone

theorem publishes_command (hcmd : tData.cmd = req.type.command)
    (hstart : req.type = .marketStart → req.tapeFile = none ∧ tData.size = 0) :
    Publishes tapeBasedir req tData := by
  refine ⟨hcmd, ?_, fun htype _ => (hstart htype).2⟩
  intro tapeFile htype hfile
  cases (hstart htype).1.symm.trans hfile

/-- The switch reads the last acknowledged command off its own record. -/
theorem cchanInSwitch_answers (tapeBasedir : Bytes) (htData : tData.cmd = log.command)
    (req : Request) (fileExists : ℤ) :
    Answers tapeBasedir log req fileExists (cchanInSwitch tapeBasedir tData req fileExists) := by
  have hrun : tData.cmd = wineingCtrlCmdMarketRun ↔ log.last = some .marketStart := by
    rw [htData]
    exact log.command_eq_run_iff
  cases htype : req.type with
  | marketStop =>
    simp only [cchanInSwitch, htype]
    refine answers_ok (by simp [ControlLog.answer, htype]) rfl ?_
    exact publishes_command (by rw [htype]; rfl) (fun h => by simp [htype] at h)
  | shutdown =>
    simp only [cchanInSwitch, htype]
    refine answers_ok (by simp [ControlLog.answer, htype]) rfl ?_
    exact publishes_command (by rw [htype]; rfl) (fun h => by simp [htype] at h)
  | marketStart =>
    simp only [cchanInSwitch, htype]
    split
    · rename_i hcmd
      exact answers_error (by simp [ControlLog.answer, htype, hrun.mp hcmd]) rfl htData
    · rename_i hcmd
      have hlast : log.last ≠ some .marketStart := fun h => hcmd (hrun.mpr h)
      cases hfile : req.tapeFile with
      | none =>
        refine answers_ok (by simp [ControlLog.answer, htype, hlast, hfile]) rfl ?_
        exact publishes_command (by rw [htype]; rfl) (fun _ => ⟨hfile, rfl⟩)
      | some tapeFile =>
        dsimp only
        split
        · rename_i hexists
          refine answers_error ?_ rfl htData
          simp [ControlLog.answer, htype, hlast, hfile, hexists]
        · rename_i hexists
          refine answers_ok ?_ rfl (publishes_tape htype hfile)
          simp [ControlLog.answer, htype, hlast, hfile, hexists]

end Answers

end Wineing
