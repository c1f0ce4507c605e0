/-
The handshake (`src/handshake.c`).

`parse_http_request` cuts the request buffer into strings: `strtok` puts a zero behind each
line and the parser one over each colon. A `RequestBuffer` is the buffer between two calls
of `strtok`, as what it has passed, with the zeros, and what it has not. A pointer into the
buffer is a place, and a place behind the last byte has no string.

A word that does not fit into its array has no result, nor has the comparison of an array
that was never written. The digest in base 64 and `send` are parameters.
-/
import ArmKernel.Support.Chars
import ArmKernel.Support.Lines

namespace ArmKernel.Ws

open ArmKernel.Support

/-- `WS_GUID`. -/
def wsGuid : List (BitVec 8) := ascii "258EAFA5-E914-47DA-95CA-C5AB0DC85B11"

/-- `MAX_HEADERS`. -/
def maxHeaders : Nat := 100

def colonChar : BitVec 8 := 58

/-- The request buffer: what `strtok` has passed, and what follows its saved pointer. -/
structure RequestBuffer where
  before : List (BitVec 8)
  rest : List (BitVec 8)

/-- The memory of the buffer, with the zero behind the request. -/
def RequestBuffer.memory (b : RequestBuffer) : List (BitVec 8) := b.before ++ (b.rest ++ [0])

/-- `strtok(…, "\r\n")`: the place of the token, the token, and the buffer with the zero behind
it. -/
def strtok (b : RequestBuffer) : Option (Nat × List (BitVec 8) × RequestBuffer) :=
  let skipped := b.rest.takeWhile isBreak
  let rest := b.rest.dropWhile isBreak
  let token := rest.takeWhile fun c => !isBreak c
  let passed := b.before ++ skipped ++ token
  if rest = [] then none
  else some (b.before.length + skipped.length, token,
    match rest.dropWhile fun c => !isBreak c with
    | [] => ⟨passed, []⟩
    | _ :: rest => ⟨passed ++ [0], rest⟩)

/-- `http_header_t`: two places in the buffer. -/
structure HttpHeader where
  name : Nat
  value : Nat

/-- `http_request_t`. An array without a value was not written; `header_count` is the length of
`headers`. -/
structure HttpRequest where
  method : Option (List (BitVec 8))
  path : Option (List (BitVec 8))
  version : Option (List (BitVec 8))
  headers : List HttpHeader

/-- The first word of a line. -/
def firstWord (line : List (BitVec 8)) : List (BitVec 8) :=
  (line.dropWhile isSpace).takeWhile fun c => !isSpace c

/-- What follows the first word. -/
def afterWord (line : List (BitVec 8)) : List (BitVec 8) :=
  (line.dropWhile isSpace).dropWhile fun c => !isSpace c

/-- What `%s` stores. Without a word it does not write. -/
def wordOf (line : List (BitVec 8)) : Option (List (BitVec 8)) :=
  if firstWord line = [] then none else some (firstWord line)

/-- `%s` into an array of `size` bytes. -/
def scanWord (size : Nat) (line : List (BitVec 8)) : Option (Option (List (BitVec 8))) :=
  if (firstWord line).length < size then some (wordOf line) else none

/-- `sscanf(line, "%s %s %s", method, path, version)`. -/
def scanRequestLine (line : List (BitVec 8)) : Option HttpRequest := do
  let method ← scanWord 16 line
  let path ← scanWord 1024 (afterWord line)
  let version ← scanWord 16 (afterWord (afterWord line))
  some { method, path, version, headers := [] }

/-- `parse_http_request`: the loop over the lines. Every call of `strtok` but the last passes a
byte. -/
def headerLoop : Nat → RequestBuffer → List HttpHeader → Option (RequestBuffer × List HttpHeader)
  | 0, _, _ => none
  | rounds + 1, b, headers =>
    match strtok b with
    | none => some (b, headers)
    | some (start, line, b) =>
      if line = [] then some (b, headers)
      else if colonChar ∈ line ∧ headers.length < maxHeaders then
        let colon := start + (line.takeWhile (· ≠ colonChar)).length
        headerLoop rounds { b with before := b.before.set colon 0 }
          (headers ++ [{ name := start, value := colon + 2 }])
      else headerLoop rounds b headers

/-- `parse_http_request`, with the memory of the buffer after it. The inner `none` is -1. -/
def parseHttpRequest (buffer : List (BitVec 8)) : Option (Option (List (BitVec 8) × HttpRequest)) :=
  match strtok ⟨[], buffer⟩ with
  | none => some none
  | some (_, line, b) => do
    let request ← scanRequestLine line
    let (b, headers) ← headerLoop (b.rest.length + 1) b []
    some (some (b.memory, { request with headers }))

/-- The string at a place. -/
def stringAt (memory : List (BitVec 8)) (place : Nat) : Option (List (BitVec 8)) :=
  if place < memory.length then some ((memory.drop place).takeWhile (· ≠ 0)) else none

/-- `get_header_value`. The inner `none` is NULL. -/
def getHeaderValue (memory : List (BitVec 8)) (name : List (BitVec 8)) :
    List HttpHeader → Option (Option Nat)
  | [] => some none
  | header :: headers =>
    (stringAt memory header.name).bind fun text =>
      if equalIgnoringCase text name then some (some header.value)
      else getHeaderValue memory name headers

/-- What a handshake does: its result, the accept key, what it sends, and whether it completes the
handshake of the connection. -/
structure HandshakeOutcome where
  result : Int
  acceptKey : Option (List (BitVec 8))
  sent : Option (List (BitVec 8))
  completed : Bool
deriving DecidableEq

def rejected : HandshakeOutcome := ⟨-1, none, none, false⟩

/-- `generate_websocket_key`. The digest takes 28 bytes. -/
def generateWebsocketKey (digest : List (BitVec 8) → Fin 28 → BitVec 8)
    (clientKey : List (BitVec 8)) : List (BitVec 8) :=
  List.ofFn (digest ((clientKey ++ wsGuid).take 255))

/-- The response. -/
def handshakeResponse (acceptKey : List (BitVec 8)) : List (BitVec 8) :=
  ascii "HTTP/1.1 101 Switching Protocols\r\n" ++ ascii "Upgrade: websocket\r\n" ++
    ascii "Connection: Upgrade\r\n" ++ ascii "Sec-WebSocket-Accept: " ++ acceptKey ++
    ascii "\r\n\r\n"

/-- `ws_handle_handshake`: what follows the checks. `send` answers what it does on the bytes. -/
def acceptHandshake (digest : List (BitVec 8) → Fin 28 → BitVec 8) (send : List (BitVec 8) → Int)
    (clientKey : List (BitVec 8)) : HandshakeOutcome :=
  let acceptKey := generateWebsocketKey digest clientKey
  let response := handshakeResponse acceptKey
  if send response ≠ response.length then ⟨-1, some acceptKey, some response, false⟩
  else ⟨0, some acceptKey, some response, true⟩

/-- `ws_handle_handshake`: there is a header of this name, and its value passes the test. -/
def headerPasses (memory : List (BitVec 8)) (headers : List HttpHeader) (name : List (BitVec 8))
    (test : List (BitVec 8) → Bool) : Option Bool :=
  (getHeaderValue memory name headers).bind fun
    | none => some false
    | some place => (stringAt memory place).map test

/-- `ws_handle_handshake`: the key and the version. The key is read last. -/
def checkKey (digest : List (BitVec 8) → Fin 28 → BitVec 8) (send : List (BitVec 8) → Int)
    (memory : List (BitVec 8)) (headers : List HttpHeader) : Option HandshakeOutcome :=
  (getHeaderValue memory (ascii "Sec-WebSocket-Key") headers).bind fun
    | none => some rejected
    | some wsKey =>
      (headerPasses memory headers (ascii "Sec-WebSocket-Version") fun v => v = ascii "13").bind
        fun passes =>
          if passes then (stringAt memory wsKey).map (acceptHandshake digest send)
          else some rejected

/-- `ws_handle_handshake`: the checks of the headers. -/
def checkHeaders (digest : List (BitVec 8) → Fin 28 → BitVec 8) (send : List (BitVec 8) → Int)
    (memory : List (BitVec 8)) (headers : List HttpHeader) : Option HandshakeOutcome :=
  (headerPasses memory headers (ascii "Upgrade") (equalIgnoringCase · (ascii "websocket"))).bind
    fun passes =>
      if passes then
        (headerPasses memory headers (ascii "Connection") (containsString · (ascii "Upgrade"))).bind
          fun passes =>
            if passes then checkKey digest send memory headers else some rejected
      else some rejected

/-- `ws_handle_handshake`. -/
def wsHandleHandshake (digest : List (BitVec 8) → Fin 28 → BitVec 8) (send : List (BitVec 8) → Int)
    (requestBuffer : List (BitVec 8)) : Option HandshakeOutcome := do
  let some (memory, request) ← parseHttpRequest requestBuffer | some rejected
  let method ← request.method
  if method ≠ ascii "GET" then some rejected
  else checkHeaders digest send memory request.headers

end ArmKernel.Ws
