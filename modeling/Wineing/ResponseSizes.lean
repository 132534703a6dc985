import Wineing.ControlProtocol

/-!
# Does every response fit the forwarding buffer?

`cchan_in_thread` sends a response with its own size, `cchan_out_thread` copies it into
a buffer of fixed size. All responses are small but the one that quotes the path of a
tape that was not found.
-/

namespace Wineing
open ProtobufWire CStringMemory

/-- `new char[1024]` in `cchan_out_thread` -/
def cchanOutBufferSize : ℕ := 1024

theorem Response.serialize_length (r : Response) :
    r.serialize.length = 3 + (varint r.requestId.toUInt64.toNat).length +
      (r.errText.map fun text => 1 + (varint text.length).length + text.length).getD 0 := by
  have hnumber : (varint r.type.number).length = 1 := by
    apply varint_length_of_lt
    cases r.type <;> decide
  cases herr : r.errText with
  | none => simp [serialize, herr, varintField_length, hnumber]; omega
  | some text => simp [serialize, herr, varintField_length, bytesField_length, hnumber]; omega

theorem requestId_varint_length (id : Int64) : (varint id.toUInt64.toNat).length ≤ 10 := by
  apply varint_length_le (by decide)
  have := id.toUInt64.toNat_lt
  omega

@[simp] theorem notFoundText_length (tape : Bytes) :
    (notFoundText tape).length = tape.length + 18 := by
  have hl : (ascii "File '").length = 6 := rfl
  have hr : (ascii "' not found.").length = 12 := rfl
  simp only [notFoundText, List.length_append, hl, hr]
  omega

/-- The request that is answered with an error text of its own length: a start outside
the running state, for a tape that `wininf_file_exists` rejects. -/
def QuotesTape (tData : WCtrl) (req : Request) (fileExists : ℤ) (tapeFile : Bytes) : Prop :=
  req.type = .marketStart ∧ tData.cmd ≠ wineingCtrlCmdMarketRun ∧
    req.tapeFile = some tapeFile ∧ fileExists < 0

theorem cchanInSwitch_quotes {tapeBasedir : Bytes} {tData : WCtrl} {req : Request}
    {fileExists : ℤ} {tapeFile : Bytes} (h : QuotesTape tData req fileExists tapeFile) :
    (cchanInSwitch tapeBasedir tData req fileExists).res =
      ⟨req.requestId, .err, some (notFoundText (tapeBasedir ++ tapeFile))⟩ := by
  obtain ⟨htype, hcmd, hfile, hrc⟩ := h
  simp [cchanInSwitch, htype, hcmd, hfile, hrc]

theorem cchanInSwitch_errText (tapeBasedir : Bytes) {tData : WCtrl} {req : Request}
    {fileExists : ℤ} (h : ∀ tapeFile, ¬ QuotesTape tData req fileExists tapeFile) :
    (cchanInSwitch tapeBasedir tData req fileExists).res.errText = none ∨
    (cchanInSwitch tapeBasedir tData req fileExists).res.errText = some alreadyRunningText := by
  unfold cchanInSwitch
  cases htype : req.type with
  | marketStop | shutdown => exact .inl rfl
  | marketStart =>
    by_cases hcmd : tData.cmd = wineingCtrlCmdMarketRun
    · exact .inr (by simp [hcmd])
    · cases hfile : req.tapeFile with
      | none => exact .inl (by simp [hcmd])
      | some tapeFile =>
        by_cases hrc : 0 > fileExists
        · exact absurd ⟨htype, hcmd, hfile, hrc⟩ (h tapeFile)
        · exact .inl (by simp [hcmd, hrc])

/-- A quoted tape fits up to 1000 bytes of directory, file name and request id. -/
theorem notFound_serialize_length (id : Int64) (tape : Bytes) :
    (Response.serialize ⟨id, .err, some (notFoundText tape)⟩).length ≤ cchanOutBufferSize ↔
      tape.length + (varint id.toUInt64.toNat).length ≤ 1000 := by
  have hid := requestId_varint_length id
  rw [Response.serialize_length]
  simp only [Option.map_some, Option.getD_some, notFoundText_length, cchanOutBufferSize]
  rcases Nat.lt_or_ge (tape.length + 18) 128 with hone | htwo
  · rw [varint_length_of_lt hone]
    omega
  · rcases Nat.lt_or_ge (tape.length + 18) 16384 with hlt | hge
    · rw [varint_length_two htwo hlt]
      omega
    · have := varint_length_three hge
      omega

/-- The response to a request fits the forwarding buffer exactly when it quotes no tape
path, or one that takes at most 1000 bytes together with the request id. -/
theorem cchanInSwitch_response_fits (tapeBasedir : Bytes) (tData : WCtrl) (req : Request)
    (fileExists : ℤ) :
    (cchanInSwitch tapeBasedir tData req fileExists).res.serialize.length ≤ cchanOutBufferSize ↔
      ∀ tapeFile, QuotesTape tData req fileExists tapeFile →
        tapeBasedir.length + tapeFile.length +
          (varint req.requestId.toUInt64.toNat).length ≤ 1000 := by
  by_cases hquotes : ∃ tapeFile, QuotesTape tData req fileExists tapeFile
  · obtain ⟨tapeFile, h⟩ := hquotes
    rw [cchanInSwitch_quotes h, notFound_serialize_length, List.length_append]
    constructor
    · intro hle other hother
      obtain rfl : tapeFile = other := Option.some.inj (h.2.2.1.symm.trans hother.2.2.1)
      exact hle
    · intro hall
      exact hall tapeFile h
  · have hnone : ∀ tapeFile, ¬ QuotesTape tData req fileExists tapeFile :=
      fun tapeFile h => hquotes ⟨tapeFile, h⟩
    refine ⟨fun _ tapeFile h => absurd h (hnone tapeFile), fun _ => ?_⟩
    have hid := requestId_varint_length (cchanInSwitch tapeBasedir tData req fileExists).res.requestId
    have htext : alreadyRunningText.length = 25 := rfl
    have hfixed : (varint 25).length = 1 := varint_length_of_lt (by decide)
    rw [Response.serialize_length, cchanOutBufferSize]
    rcases cchanInSwitch_errText tapeBasedir hnone with herr | herr
    · simp only [herr, Option.map_none, Option.getD_none]
      omega
    · simp only [herr, Option.map_some, Option.getD_some, htext, hfixed]
      omega

/-- A start of a tape with a name of 1100 bytes that does not exist. -/
theorem cchanInSwitch_response_overflows :
    cchanOutBufferSize < (cchanInSwitch (ascii "C:\\md\\")
      ⟨wineingCtrlCmdInit, fun _ => 0, 0⟩ ⟨1, .marketStart, some (List.replicate 1100 97)⟩
      (-1)).res.serialize.length := by
  have hquotes : QuotesTape ⟨wineingCtrlCmdInit, fun _ => 0, 0⟩
      ⟨1, .marketStart, some (List.replicate 1100 97)⟩ (-1) (List.replicate 1100 97) :=
    ⟨rfl, by decide, rfl, by decide⟩
  rw [cchanInSwitch_quotes hquotes, ← Nat.not_le, notFound_serialize_length, List.length_append,
    List.length_replicate]
  omega

end Wineing
