import Wineing.ControlProtocol

/-!
# Requests as bytes

`toByteArray` of the application and `ParseFromZeroCopyStream` of the server are generated
by `protoc` and belong to the protocol buffer library. All that is relied on is that a
request of ordinary size is read back from its bytes, and none from no bytes at all.
-/

namespace Wineing
open CStringMemory ProtobufWire

/-- The path of the tape has at most 1000 bytes. -/
def Request.Short (req : Request) : Prop := ∀ tapeFile ∈ req.tapeFile, tapeFile.length ≤ 1000

/-- The generated code for `Request`. -/
structure RequestCodec where
  serialize : Request → Bytes
  parse : Bytes → Option Request
  parse_nil : parse [] = none
  length_lt : ∀ req : Request, req.Short → (serialize req).length < 2 ^ 31
  parse_serialize : ∀ req : Request, req.Short → parse (serialize req) = some req

private theorem readSize_of_lt {size : ℕ} (h : size < 2 ^ 31) : readSize size = size := by
  unfold readSize
  rw [Int.bmod_eq_of_le] <;> omega

def RequestCodec.frame (codec : RequestCodec) (bytes : Bytes) : Frame where
  size := bytes.length
  request := codec.parse (bytes.take (readSize bytes.length).toNat)
  empty_unparsable h := by
    rw [Int.toNat_of_nonpos h, List.take_zero, codec.parse_nil]

theorem RequestCodec.frame_serialize (codec : RequestCodec) {req : Request} (h : req.Short) :
    (codec.frame (codec.serialize req)).request = some req := by
  change codec.parse ((codec.serialize req).take (readSize (codec.serialize req).length).toNat) = _
  rw [readSize_of_lt (codec.length_lt req h), Int.toNat_natCast, List.take_length,
    codec.parse_serialize req h]

section Wire

def RequestType.number : RequestType → ℕ
  | .marketStart => 0
  | .marketStop => 1
  | .shutdown => 2

def RequestType.ofNumber : ℕ → Option RequestType
  | 0 => some .marketStart
  | 1 => some .marketStop
  | 2 => some .shutdown
  | _ => none

/-- The fields of a request in the order of their numbers, for `wireCodec`. -/
def wireBytes (req : Request) : Bytes :=
  varintField 1 req.requestId.toUInt64.toNat ++ (varintField 2 req.type.number ++
    (req.tapeFile.map (bytesField 3)).getD [])

/-- Reads the fields in that order only. -/
def wireRequest (bytes : Bytes) : Option Request :=
  (parseVarintField 1 bytes).bind fun id => (parseVarintField 2 id.2).bind fun number =>
    (RequestType.ofNumber number.1).bind fun type =>
      if number.2 = [] then some ⟨(UInt64.ofNat id.1).toInt64, type, none⟩
      else (parseBytesField 3 number.2).map fun tapeFile =>
        ⟨(UInt64.ofNat id.1).toInt64, type, some tapeFile.1⟩

theorem RequestType.number_lt (type : RequestType) : type.number < 128 := by
  cases type <;> decide

private theorem wireBytes_length_lt {req : Request} (h : req.Short) :
    (wireBytes req).length < 2 ^ 31 := by
  have hid : (varint req.requestId.toUInt64.toNat).length ≤ 10 :=
    varint_length_le (by decide) (req.requestId.toUInt64.toNat_lt.trans (by decide))
  have hnumber := varint_length_of_lt req.type.number_lt
  rw [wireBytes]
  cases hfile : req.tapeFile with
  | none =>
    simp only [Option.map_none, Option.getD_none, List.length_append, varintField_length,
      Nat.reduceLT, hnumber, List.length_nil]
    omega
  | some tapeFile =>
    have hshort := h tapeFile hfile
    have hlength : (varint tapeFile.length).length ≤ 2 := varint_length_le (by decide) (by omega)
    simp only [Option.map_some, Option.getD_some, List.length_append, varintField_length,
      Nat.reduceLT, hnumber, bytesField_length]
    omega

theorem wireRequest_wireBytes {req : Request} (h : req.Short) :
    wireRequest (wireBytes req) = some req := by
  have hnumber : req.type.number < 2 ^ 64 := req.type.number_lt.trans (by decide)
  have htype : RequestType.ofNumber req.type.number = some req.type := by
    cases req.type <;> rfl
  have hid : (UInt64.ofNat req.requestId.toUInt64.toNat).toInt64 = req.requestId := by
    rw [UInt64.ofNat_toNat, Int64.toInt64_toUInt64]
  rw [wireRequest, wireBytes, parseVarintField_append (by decide) req.requestId.toUInt64.toNat_lt,
    Option.bind_some, parseVarintField_append (by decide) hnumber, Option.bind_some, htype,
    Option.bind_some]
  obtain ⟨requestId, type, tapeFile⟩ := req
  cases tapeFile with
  | none => simp only [Option.map_none, Option.getD_none, if_true, hid]
  | some tapeFile =>
    have hshort := h tapeFile rfl
    have hne : bytesField 3 tapeFile ≠ [] :=
      List.ne_nil_of_length_pos (by rw [bytesField_length (by decide)]; omega)
    have hparse : parseBytesField 3 (bytesField 3 tapeFile) = some (tapeFile, []) := by
      simpa using parseBytesField_append (show 3 < 15 by decide)
        (show tapeFile.length < 2 ^ 64 by omega) []
    simp only [Option.map_some, Option.getD_some, hne, if_false, hparse, hid]

def wireCodec : RequestCodec where
  serialize := wireBytes
  parse := wireRequest
  parse_nil := rfl
  length_lt _ := wireBytes_length_lt
  parse_serialize _ := wireRequest_wireBytes

end Wire

end Wineing
