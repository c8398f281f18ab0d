import MetricMQ.ByteString

/-! RESP values, `RespParser::parse` and `RespParser::serialize`. The recursion of `parse` has the
frames of the native stack; running out of them and every `substr` behind the end of a buffer are
faults. -/
namespace MetricMQ

open ByteString

def maxBulkLen : Int64 := 16 * 1024 * 1024
def maxArrayCount : Int64 := 10000

inductive RespValue
  | simpleString (str : Bytes)
  | error (msg : Bytes)
  | integer (num : Int64)
  | bulkString (str : Bytes)
  | array (arr : List RespValue)
  | null

namespace RespValue

def isArray : RespValue → Bool
  | .array _ => true
  | _ => false

def asString : RespValue → Bytes
  | .simpleString str => str
  | .error msg => msg
  | .bulkString str => str
  | _ => []

def asInteger : RespValue → Int64
  | .integer num => num
  | _ => 0

def asArray : RespValue → List RespValue
  | .array arr => arr
  | _ => []

end RespValue

/-- The type bytes `parse` switches on. -/
inductive RespType
  | simpleString
  | error
  | integer
  | bulkString
  | array
deriving DecidableEq

def RespType.ofByte (c : UInt8) : Option RespType :=
  if c = 43 then some .simpleString
  else if c = 45 then some .error
  else if c = 58 then some .integer
  else if c = 36 then some .bulkString
  else if c = 42 then some .array
  else none

namespace RespParser

def crlf : Bytes := [13, 10]

def findCRLFIn : Bytes → Option ℕ
  | [] => none
  | c :: r => if c = 13 ∧ r.head? = some 10 then some 0 else (findCRLFIn r).map (· + 1)

/-- `buffer.find("\r\n", start)`. -/
def findCRLF (buffer : Bytes) (start : ℕ) : Option ℕ :=
  (findCRLFIn (buffer.drop start)).map (· + start)

/-- The start of every case: the text after the type byte up to CRLF, and the position
behind that CRLF. -/
def readLine (buffer : Bytes) : Except Fault (Option (Bytes × ℕ)) :=
  match findCRLF buffer 1 with
  | none => .ok none
  | some pos => do
    let line ← substrE buffer 1 (pos - 1)
    return some (line, pos + 2)

def parseInteger (line : Bytes) (next : ℕ) : Option (RespValue × ℕ) :=
  match stoll line with
  | none => none
  | some num => some (.integer num, next)

/-- The bulk body is cut by its length; the two bytes behind it are skipped unread. -/
def parseBulk (buffer line : Bytes) (dataStart : ℕ) : Except Fault (Option (RespValue × ℕ)) :=
  match stoll line with
  | none => .ok none
  | some len =>
    -- the null bulk string has no body and no second CRLF
    if len = -1 then .ok (some (.null, dataStart))
    else if len < 0 ∨ len > maxBulkLen then .ok none
    else
      let n := len.toInt.toNat
      if buffer.length < dataStart + n + 2 then .ok none
      else do
        let str ← substrE buffer dataStart n
        return some (.bulkString str, dataStart + n + 2)

/-- The element loop of an array; `parse` is the recursive call. -/
def parseElems (parse : Bytes → Except Fault (Option (RespValue × ℕ))) (buffer : Bytes) :
    ℕ → ℕ → List RespValue → Except Fault (Option (RespValue × ℕ))
  | 0, offset, arr => .ok (some (.array arr, offset))
  | count + 1, offset, arr => do
    let tail ← substrE buffer offset (buffer.length - offset)
    match ← parse tail with
    -- elements parsed so far are given up: an array is parsed again from its start
    | none => return none
    | some (elem, n) => parseElems parse buffer count (offset + n) (arr ++ [elem])

def parseArray (parse : Bytes → Except Fault (Option (RespValue × ℕ))) (buffer line : Bytes)
    (next : ℕ) : Except Fault (Option (RespValue × ℕ)) :=
  match stoll line with
  | none => .ok none
  | some count =>
    if count = -1 then .ok (some (.null, next))
    else if count < 0 ∨ count > maxArrayCount then .ok none
    else parseElems parse buffer count.toInt.toNat next []

/-- The cases of the `switch`, once the line behind the type byte is there. -/
def parseTyped (parse : Bytes → Except Fault (Option (RespValue × ℕ))) (type : RespType)
    (buffer line : Bytes) (next : ℕ) : Except Fault (Option (RespValue × ℕ)) :=
  match type with
  | .simpleString => .ok (some (.simpleString line, next))
  | .error => .ok (some (.error line, next))
  | .integer => .ok (parseInteger line next)
  | .bulkString => parseBulk buffer line next
  | .array => parseArray parse buffer line next

/-- `RespParser::parse` in a process that has room for `frames` nested calls. -/
def parseAux : ℕ → Bytes → Except Fault (Option (RespValue × ℕ))
  -- the code has no check of its own: the process ends
  | 0, _ => .error .depth
  | frames + 1, buffer =>
    match buffer with
    | [] => .ok none
    | typeChar :: _ =>
      match RespType.ofByte typeChar with
      -- inline text without a type byte is never consumed
      | none => .ok none
      | some type => do
        match ← readLine buffer with
        | none => return none
        | some (line, next) => parseTyped (parseAux frames) type buffer line next

/-- Every nested call gets a strictly shorter buffer: this is `parse` with all the frames that a
buffer can ask for. -/
def parseE (buffer : Bytes) : Except Fault (Option (RespValue × ℕ)) :=
  parseAux (buffer.length + 1) buffer

/-- What the callers see as long as the stack holds, see `parsesSafely_iff`: no path of `parseE`
faults. -/
def parse (buffer : Bytes) : Option (RespValue × ℕ) :=
  match parseE buffer with
  | .ok r => r
  | .error _ => none

mutual

def serialize : RespValue → Bytes
  | .simpleString str => 43 :: (str ++ crlf)
  | .error msg => 45 :: (msg ++ crlf)
  | .integer num => 58 :: (toDecimalInt num.toInt ++ crlf)
  | .bulkString str => 36 :: (toDecimal str.length ++ crlf ++ (str ++ crlf))
  | .array arr => 42 :: (toDecimal arr.length ++ crlf ++ serializeAll arr)
  | .null => lit "$-1\r\n"

def serializeAll : List RespValue → Bytes
  | [] => []
  | elem :: arr => serialize elem ++ serializeAll arr

end

def makeArray (strings : List Bytes) : RespValue := .array (strings.map .bulkString)

end RespParser

end MetricMQ
