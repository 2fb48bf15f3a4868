import Medusa.Messages

/-! # Outcomes of a call

The error of a handler travels in a frame of its own type, as a protobuf message (`Error` of `transport.proto`),
and the sender makes a `RemoteError` of it.

* `unmarshalError_marshalError`: an error message is read back.
* `received_eq`: **a sender takes the frame of an outcome for that outcome.** -/

namespace Medusa

namespace Transport

/-! ### Error messages -/

/-- `Error`, without unknown fields. -/
structure ErrorMessage where
  code : UInt32
  message : Bytes
deriving DecidableEq, Repr

/-- The message with these fields. -/
def ErrorMessage.msg (e : ErrorMessage) : Proto.error.Msg := ⟨(e.code, e.message, ()), []⟩

/-- `MarshalVT` of an error. -/
def marshalError (e : ErrorMessage) : Bytes := (Proto.error.marshalVT e.msg).toOption.getD []

/-- `Error.UnmarshalVT`, into an empty message. -/
def unmarshalError (bs : Bytes) : Option ErrorMessage :=
  (Proto.error.unmarshalVT bs Proto.error.empty).toOption.map fun m => ⟨m.values.1, m.values.2.1⟩

/-- **An error message is read back.** -/
theorem unmarshalError_marshalError {e : ErrorMessage} (hlength : (marshalError e).length < 2 ^ 63) :
    unmarshalError (marshalError e) = some e := by
  have hbytes : marshalError e = Proto.error.bytes e.msg := by
    rw [marshalError, Proto.Schema.marshalVT_eq]
    rfl
  have hvalid : Proto.error.Valid e.msg := ⟨⟨trivial, trivial, trivial⟩, Proto.Schema.Foreign.nil⟩
  rw [hbytes] at hlength
  rw [unmarshalError, hbytes, Proto.Schema.unmarshalVT_bytes hvalid hlength]
  rfl

/-! ### Outcomes -/

/-- `MESSAGE_TYPE_ERROR`. -/
def messageTypeError : ℕ := 1

/-- What a handler returns: a response or an error. -/
inductive Outcome where
  | reply (type : ℕ) (payload : Bytes)
  | error (message : Bytes)
deriving DecidableEq, Repr

/-- What a `Send` returns: a transport error, a response or a `RemoteError`. -/
inductive Result where
  | failed
  | response (type : ℕ) (payload : Bytes)
  | remote (e : ErrorMessage)
deriving DecidableEq, Repr

namespace Outcome

/-- The type of the response frame. -/
def type : Outcome → ℕ
  | reply type _ => type
  | error _ => messageTypeError

/-- The payload of the response frame; errors of handlers have code 1. -/
def payload : Outcome → Bytes
  | reply _ payload => payload
  | error message => marshalError ⟨1, message⟩

end Outcome

/-- The text `undecodable remote error`. -/
def undecodable : Bytes :=
  [117, 110, 100, 101, 99, 111, 100, 97, 98, 108, 101, 32, 114, 101, 109, 111, 116, 101, 32, 101, 114,
    114, 111, 114]

/-- What `Send` makes of a response frame. -/
def received (type : ℕ) (payload : Bytes) : Result :=
  if type = messageTypeError then .remote ((unmarshalError payload).getD ⟨0, undecodable⟩)
  else .response type payload

/-- What a `Send` is to return, by the outcome of the handler: its error, or its response (a response of
the type of errors is read as one). -/
def Outcome.result : Outcome → Result
  | reply type payload => received type payload
  | error message => .remote ⟨1, message⟩

/-- **The frame of an outcome is taken for that outcome.** -/
theorem received_eq {o : Outcome} (hpayload : o.payload.length < 2 ^ 32) :
    received o.type o.payload = o.result := by
  cases o with
  | reply type payload => rfl
  | error message =>
    have hlength : (marshalError ⟨1, message⟩).length < 2 ^ 63 := lt_trans hpayload (by norm_num)
    change received messageTypeError (marshalError ⟨1, message⟩) = _
    rw [received, if_pos rfl, unmarshalError_marshalError hlength]
    rfl

end Transport

end Medusa
