import Wineing.ControlRecord
import Wineing.ProtobufWire

/-!
# Requests, responses and the switch of `cchan_in_thread`

The messages of `WineingCtrlProto`, the reception of a request and what the control
thread makes of it: the response, the new value of its own record, and whether the
record is published.
-/

namespace Wineing
open CStringMemory ProtobufWire

inductive RequestType
  | marketStart
  | marketStop
  | shutdown
  deriving DecidableEq

structure Request where
  requestId : Int64
  type : RequestType
  tapeFile : Option Bytes
  deriving DecidableEq

inductive ResponseType
  | marketStartOk
  | marketStopOk
  | shutdownOk
  | err
  | marketStartErrRunning
  deriving DecidableEq

namespace ResponseType

def number : ResponseType → ℕ
  | marketStartOk => 0
  | marketStopOk => 1
  | shutdownOk => 2
  | err => 3
  | marketStartErrRunning => 4

def isOk : ResponseType → Bool
  | marketStartOk | marketStopOk | shutdownOk => true
  | _ => false

end ResponseType

structure Response where
  requestId : Int64
  type : ResponseType
  errText : Option Bytes
  deriving DecidableEq

/-- `SerializeToZeroCopyStream`. A negative id is sent as its 64 bit pattern. -/
def Response.serialize (r : Response) : Bytes :=
  varintField 1 r.requestId.toUInt64.toNat ++ varintField 2 r.type.number ++
    (r.errText.map (bytesField 3)).getD []

/-- `int read = zmq_msg_size(..)`: the low 32 bits of a size, as a signed number. -/
def readSize (size : ℕ) : ℤ := Int.bmod size (2 ^ 32)

/-- A message on `cchan_in`: its size and what `ParseFromZeroCopyStream` makes of the bytes
that it is given, `readSize size` of them. Without bytes the two required fields are missing. -/
structure Frame where
  size : ℕ
  request : Option Request
  empty_unparsable : readSize size ≤ 0 → request = none

/-- `chan_recv`: -1 where `zmq_recv` fails or `fn` rejects the message, else its size. -/
def chanRecv {μ : Type} (size : μ → ℕ) (fn : μ → ℤ) : Option μ → ℤ
  | none => -1
  | some message => if 0 > fn message then -1 else readSize (size message)

def recvCtrl (frame : Frame) : ℤ := if frame.request.isSome then 0 else -1

/-- The request the control thread goes on to process, none where it starts over. -/
def receivedRequest (message : Option Frame) : Option Request :=
  if 0 < chanRecv Frame.size recvCtrl message then message.bind Frame.request else none

theorem receivedRequest_eq (message : Option Frame) :
    receivedRequest message = message.bind Frame.request := by
  cases message with
  | none => rfl
  | some frame =>
    cases hreq : frame.request with
    | none => simp [receivedRequest, hreq]
    | some req =>
      have hsize : 0 < readSize frame.size := by
        by_contra h
        simp [frame.empty_unparsable (not_lt.mp h)] at hreq
      simp [receivedRequest, chanRecv, recvCtrl, hreq, hsize]

def ascii (text : String) : Bytes := text.toList.map (fun c => UInt8.ofNat c.toNat)

def alreadyRunningText : Bytes := ascii "Already in RUNNING state."

def notFoundText (tape : Bytes) : Bytes := ascii "File '" ++ tape ++ ascii "' not found."

/-- What a pass through the switch leaves behind. -/
structure Switched where
  tData : WCtrl
  res : Response
  publish : Bool

/-- The switch on `req.type()`. `fileExists` is the answer of `wininf_file_exists`, used
where the switch asks for it. The signals on `g_market_sync_cond` have no waiter and are
left out. -/
def cchanInSwitch (tapeBasedir : Bytes) (tData : WCtrl) (req : Request) (fileExists : ℤ) :
    Switched :=
  match req.type with
  | .marketStart =>
    if tData.cmd = wineingCtrlCmdMarketRun then
      ⟨tData, ⟨req.requestId, .marketStartErrRunning, some alreadyRunningText⟩, false⟩
    else
      match req.tapeFile with
      | some tapeFile =>
        let tape := tapeBasedir ++ tapeFile
        if 0 > fileExists then
          ⟨{ tData with size := 0 }, ⟨req.requestId, .err, some (notFoundText tape)⟩, false⟩
        else
          -- string length plus NUL byte
          ⟨⟨wineingCtrlCmdMarketRun, memcpy tData.data (cStr tape) (tape.length + 1),
            tape.length + 1⟩, ⟨req.requestId, .marketStartOk, none⟩, true⟩
      | none => ⟨{ tData with cmd := wineingCtrlCmdMarketRun, size := 0 },
          ⟨req.requestId, .marketStartOk, none⟩, true⟩
  | .marketStop => ⟨{ tData with cmd := wineingCtrlCmdMarketStop },
      ⟨req.requestId, .marketStopOk, none⟩, true⟩
  | .shutdown => ⟨{ tData with cmd := wineingCtrlCmdShutdown },
      ⟨req.requestId, .shutdownOk, none⟩, true⟩

section Switch

variable {tData : WCtrl} {req : Request} {tapeFile : Bytes} {fileExists : ℤ}

theorem cchanInSwitch_found (tapeBasedir : Bytes) (htype : req.type = .marketStart)
    (hcmd : tData.cmd ≠ wineingCtrlCmdMarketRun) (hfile : req.tapeFile = some tapeFile)
    (hexists : 0 ≤ fileExists) :
    cchanInSwitch tapeBasedir tData req fileExists = ⟨⟨wineingCtrlCmdMarketRun,
      memcpy tData.data (cStr (tapeBasedir ++ tapeFile)) ((tapeBasedir ++ tapeFile).length + 1),
      (tapeBasedir ++ tapeFile).length + 1⟩, ⟨req.requestId, .marketStartOk, none⟩, true⟩ := by
  simp [cchanInSwitch, htype, hcmd, hfile, Int.not_lt.mpr hexists]

theorem cchanInSwitch_missing (tapeBasedir : Bytes) (htype : req.type = .marketStart)
    (hcmd : tData.cmd ≠ wineingCtrlCmdMarketRun) (hfile : req.tapeFile = some tapeFile)
    (hexists : fileExists < 0) :
    cchanInSwitch tapeBasedir tData req fileExists = ⟨{ tData with size := 0 },
      ⟨req.requestId, .err, some (notFoundText (tapeBasedir ++ tapeFile))⟩, false⟩ := by
  simp [cchanInSwitch, htype, hcmd, hfile, hexists]

end Switch

end Wineing
