import RoutineHttp.Text

/-! Body storages: raw bytes or a JSON value. -/
namespace RoutineHttp

/-- A `tao::json::value`; numbers are kept as the text they were read from. -/
inductive JsonValue where
  | uninitialized
  | null
  | boolean (b : Bool)
  | number (text : Str)
  | string (text : Str)
  | array (elements : List JsonValue)
  | object (members : List (Str × JsonValue))

/-- `get_string`, which throws unless the value is a string. -/
def JsonValue.getString : JsonValue → Except Fault Str
  | .string text => .ok text
  | _ => .error .wrongJsonType

/-- The implemented storages behind `I_BodyStorage`. -/
inductive BodyStorage where
  | memory (data : Str)
  | json (data : JsonValue)

namespace BodyStorage

def emptyMemory : BodyStorage := .memory []

def emptyJson : BodyStorage := .json .uninitialized

/-- `write`: memory grows by the buffer, a JSON value is replaced unless parsing throws.
`fromString` stands for `tao::json::from_string`. -/
def write (fromString : Str → Option JsonValue) : BodyStorage → Str → BodyStorage
  | .memory data, buffer => .memory (data ++ buffer)
  | .json data, buffer => .json ((fromString buffer).getD data)

/-- Assignment from a string: memory is overwritten. -/
def assign (fromString : Str → Option JsonValue) : BodyStorage → Str → BodyStorage
  | .memory _, str => .memory str
  | .json data, str => write fromString (.json data) str

def size : BodyStorage → Except Fault Nat
  | .memory data => .ok data.length
  | .json data => data.getString.map List.length

def asString : BodyStorage → Except Fault Str
  | .memory data => .ok data
  | .json data => data.getString

end BodyStorage
end RoutineHttp
