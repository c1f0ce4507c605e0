/-
Building a request (`src/http.c`, `build_request`).

The text is written by one `snprintf` after another; `appendText` is one of them and a request is a
run over its pieces. A write outside the block has no result, and neither has a position that is
not an `int`. The remaining size is a difference of 32-bit words.

`StaysInside` is the law for one request and `staysInside_iff` says which requests it holds for:
the header budget is not compared with the header.
-/
import ArmKernel.Support.OutBuffer
import ArmKernel.Support.Decimal
import ArmKernel.Support.Run
import ArmKernel.Http.Response

namespace ArmKernel.Http

open ArmKernel.Support

/-- `MAX_HEADER_SIZE`. -/
def maxHeaderSize : Nat := 8192

/-- `mcurl_method_t`; `other` is any other value. -/
inductive Method where
  | get
  | post
  | put
  | delete
  | head
  | options
  | patch
  | other

/-- `build_request`: the `switch`. -/
def Method.text : Method → List (BitVec 8)
  | .get => ascii "GET"
  | .post => ascii "POST"
  | .put => ascii "PUT"
  | .delete => ascii "DELETE"
  | .head => ascii "HEAD"
  | .options => ascii "OPTIONS"
  | .patch => ascii "PATCH"
  | .other => ascii "GET"

/-- `body` and `body_length`. -/
structure Body where
  bytes : List (BitVec 8)
  length_lt : bytes.length < 2 ^ 32

/-- `http_request_t`, as far as `build_request` reads it. -/
structure HttpRequest where
  method : Method
  host : CString
  path : CString
  body : Option Body

/-- `mcurl_options_t`, as far as `build_request` reads it. -/
structure Options where
  headers : List (CString × CString)
  userAgent : Option CString
  cookie : Option CString

/-- `body_length`, where the request has a body. -/
def HttpRequest.bodyBytes (request : HttpRequest) : List (BitVec 8) :=
  (request.body.map Body.bytes).getD []

/-- The request line and the host. -/
def requestLine (request : HttpRequest) : List (BitVec 8) :=
  request.method.text ++ ascii " " ++ request.path.bytes ++ ascii " HTTP/1.1\r\n" ++
    ascii "Host: " ++ request.host.bytes ++ crlf

/-- A custom header. -/
def headerLine (header : CString × CString) : List (BitVec 8) :=
  header.1.bytes ++ ascii ": " ++ header.2.bytes ++ crlf

def userAgentLine (userAgent : CString) : List (BitVec 8) :=
  ascii "User-Agent: " ++ userAgent.bytes ++ crlf

def cookieLine (cookie : CString) : List (BitVec 8) := ascii "Cookie: " ++ cookie.bytes ++ crlf

def contentLengthLine (body : Body) : List (BitVec 8) :=
  ascii "Content-Length: " ++ decimal body.bytes.length ++ crlf

/-- The pieces of the text, in the order in which they are printed. -/
def pieces (request : HttpRequest) (options : Options) : List (List (BitVec 8)) :=
  requestLine request :: (options.headers.map headerLine ++
    (options.userAgent.map userAgentLine).toList ++ (options.cookie.map cookieLine).toList ++
    (request.body.map contentLengthLine).toList ++ [crlf])

/-- `buffer` and `pos`. -/
structure Building where
  buffer : OutBuffer
  pos : Nat

/-- `snprintf(buffer + pos, n, …)`: what is written of the text, and its NUL. -/
def snprintf (buffer : OutBuffer) (pos n : Nat) (text : List (BitVec 8)) : Option OutBuffer :=
  if n = 0 then some buffer else buffer.writeAll pos (text.take (n - 1) ++ [0])

/-- `pos += snprintf(buffer + pos, size - pos, …)`. -/
def appendText (st : Building) (text : List (BitVec 8)) : Option Building :=
  (snprintf st.buffer st.pos (sub32 st.buffer.size st.pos) text).bind fun buffer =>
    (int32 (st.pos + text.length)).map fun pos => { buffer, pos := pos.toNat }

/-- The size of the block. -/
def requestSize (request : HttpRequest) : Nat := wrap32 (maxHeaderSize + request.bodyBytes.length)

/-- The block before the first piece. -/
def newBuilding (request : HttpRequest) (before : Nat → BitVec 8) : Building where
  buffer := { size := requestSize request, bytes := before }
  pos := 0

/-- `build_request`; `given` is the result of `malloc`. The inner `none` is NULL, and the number is
`*length`. -/
def buildRequest (given : Option (Nat → BitVec 8)) (request : HttpRequest) (options : Options) :
    Option (Option (OutBuffer × Nat)) :=
  match given with
  | none => some none
  | some before =>
    (run appendText (newBuilding request before) (pieces request options)).bind fun st =>
      match request.body with
      | none => some (some (st.buffer, st.pos))
      | some body =>
        (st.buffer.writeAll st.pos body.bytes).map fun buffer =>
          some (buffer, wrap32 (st.pos + body.bytes.length))

/-- The text of a request, in front of its body. -/
def requestText (request : HttpRequest) (options : Options) : List (BitVec 8) :=
  (pieces request options).flatten

/-- The length of a request. -/
def requestLength (request : HttpRequest) (options : Options) : Nat :=
  (requestText request options).length + request.bodyBytes.length

/-- **The law of a request**, in a block that `malloc` gave: the position stays in the block, every
write does, and the answer is NULL when the parts do not fit, or else has the length of the
request. -/
structure StaysInside (request : HttpRequest) (options : Options) (before : Nat → BitVec 8) :
    Prop where
  positions : Along appendText (fun st => st.pos ≤ st.buffer.size) (newBuilding request before)
    (pieces request options)
  writes : ∃ result, buildRequest (some before) request options = some result ∧
    (requestSize request < requestLength request options → result = none) ∧
    (requestLength request options ≤ requestSize request →
      ∃ buffer, result = some (buffer, requestLength request options))

section Append

variable {st st' : Building} {text : List (BitVec 8)} {texts : List (List (BitVec 8))}

/-- **One piece** that ends inside the block. -/
theorem appendText_inside (hsize : st.buffer.size < 2 ^ 32)
    (hroom : st.pos + text.length ≤ st.buffer.size) (hint : st.pos + text.length < 2 ^ 31) :
    ∃ st', appendText st text = some st' ∧ st'.buffer.size = st.buffer.size ∧
      st'.pos = st.pos + text.length := by
  have hleft : sub32 st.buffer.size st.pos = st.buffer.size - st.pos :=
    sub32_of_le hsize (by omega)
  have hpos : int32 ((st.pos : Int) + text.length) = some ((st.pos : Int) + text.length) :=
    if_pos ⟨by omega, by omega⟩
  obtain ⟨buffer, hprint, hbuffer⟩ : ∃ buffer,
      snprintf st.buffer st.pos (st.buffer.size - st.pos) text = some buffer ∧
        buffer.size = st.buffer.size := by
    rw [snprintf]
    split
    · exact ⟨st.buffer, rfl, rfl⟩
    · apply OutBuffer.writeAll_inside
      rw [List.length_append, List.length_take, List.length_singleton]
      omega
  refine ⟨{ buffer, pos := st.pos + text.length }, ?_, hbuffer, rfl⟩
  rw [appendText, hleft, hprint, Option.bind_some, hpos, Option.map_some]
  congr 1

/-- **The pieces** that end inside the block. -/
theorem run_inside (hsize : st.buffer.size < 2 ^ 32)
    (hroom : st.pos + texts.flatten.length ≤ st.buffer.size)
    (hint : st.pos + texts.flatten.length < 2 ^ 31) :
    (∃ st', run appendText st texts = some st' ∧ st'.buffer.size = st.buffer.size ∧
      st'.pos = st.pos + texts.flatten.length) ∧
    Along appendText (fun st => st.pos ≤ st.buffer.size) st texts := by
  induction texts generalizing st with
  | nil => exact ⟨⟨st, rfl, rfl, rfl⟩, Nat.le_trans (Nat.le_add_right _ _) hroom⟩
  | cons text texts ih =>
    rw [List.flatten_cons, List.length_append] at *
    obtain ⟨st₁, hstep, hsize₁, hpos₁⟩ := @appendText_inside st text hsize (by omega) (by omega)
    obtain ⟨⟨st', hrun, hsize', hpos'⟩, halong⟩ :=
      @ih st₁ (hsize₁ ▸ hsize) (by omega) (by omega)
    refine ⟨⟨st', ?_, hsize'.trans hsize₁, by omega⟩, by omega, ?_⟩
    · rw [run_cons_eq_some]
      exact ⟨st₁, hstep, hrun⟩
    · intro st₂ hstep₂
      rw [hstep] at hstep₂
      exact Option.some.inj hstep₂ ▸ halong

end Append

section Law

variable {request : HttpRequest} {options : Options} {before : Nat → BitVec 8}

theorem bodyBytes_none (h : request.body = none) : request.bodyBytes = [] := by
  rw [HttpRequest.bodyBytes, h]
  rfl

theorem bodyBytes_some {body : Body} (h : request.body = some body) :
    request.bodyBytes = body.bytes := by
  rw [HttpRequest.bodyBytes, h]
  rfl

theorem bodyBytes_lt (request : HttpRequest) : request.bodyBytes.length < 2 ^ 32 := by
  cases h : request.body with
  | none =>
    rw [bodyBytes_none h]
    exact Nat.two_pow_pos 32
  | some body =>
    rw [bodyBytes_some h]
    exact body.length_lt

/-- A call in a block that `malloc` gave never answers NULL. -/
theorem buildRequest_ne_null : buildRequest (some before) request options ≠ some none := by
  intro h
  rw [buildRequest, Option.bind_eq_some_iff] at h
  obtain ⟨st, -, hrest⟩ := h
  split at hrest
  · cases hrest
  · obtain ⟨buffer, -, hresult⟩ := Option.map_eq_some_iff.mp hrest
    cases hresult

/-- **What the law needs**: a request that obeys it has a header within the budget, and a body that
leaves room for the budget. -/
theorem StaysInside.fits (h : StaysInside request options before) :
    (requestText request options).length ≤ maxHeaderSize ∧
      request.bodyBytes.length + maxHeaderSize < 2 ^ 32 := by
  obtain ⟨result, hresult, hnull, -⟩ := h.writes
  have hbody := bodyBytes_lt request
  have hfits : requestLength request options ≤ requestSize request := by
    refine Nat.not_lt.mp ?_
    intro hlong
    rw [hnull hlong] at hresult
    exact buildRequest_ne_null hresult
  have hmax : maxHeaderSize = 8192 := rfl
  rw [requestLength, requestSize, wrap32] at hfits
  omega

/-- **Building a request.** The law holds exactly for the requests with a header of at most 8192
bytes and a body that leaves room for as many. -/
theorem staysInside_iff (request : HttpRequest) (options : Options) (before : Nat → BitVec 8) :
    StaysInside request options before ↔
      (requestText request options).length ≤ maxHeaderSize ∧
        request.bodyBytes.length + maxHeaderSize < 2 ^ 32 := by
  constructor
  · exact StaysInside.fits
  · rintro ⟨hheader, hbody⟩
    have hsize : requestSize request = maxHeaderSize + request.bodyBytes.length :=
      wrap32_of_lt (by omega)
    have hmax : maxHeaderSize = 8192 := rfl
    have hstart : (newBuilding request before).buffer.size = requestSize request := rfl
    have hzero : (newBuilding request before).pos = 0 := rfl
    obtain ⟨⟨st, hrun, hbuffer, hpos⟩, halong⟩ :=
      @run_inside (newBuilding request before) (pieces request options) (by omega)
        (by rw [requestText] at hheader; omega) (by rw [requestText] at hheader; omega)
    rw [hzero, Nat.zero_add] at hpos
    have htext : st.pos = (requestText request options).length := hpos
    refine ⟨halong, ?_⟩
    obtain ⟨buffer, hcall⟩ : ∃ buffer, buildRequest (some before) request options =
        some (some (buffer, requestLength request options)) := by
      rw [buildRequest, hrun, Option.bind_some]
      cases hcases : request.body with
      | none =>
        have hlength : requestLength request options = st.pos := by
          rw [requestLength, bodyBytes_none hcases, List.length_nil, htext, Nat.add_zero]
        exact ⟨st.buffer, by rw [hlength]⟩
      | some body =>
        have hbytes := bodyBytes_some hcases
        obtain ⟨buffer, hwrite, -⟩ := @OutBuffer.writeAll_inside st.buffer body.bytes st.pos
          (by rw [← hbytes]; omega)
        have hlength : wrap32 (st.pos + body.bytes.length) = requestLength request options := by
          rw [← hbytes, htext]
          exact wrap32_of_lt (by omega)
        refine ⟨buffer, ?_⟩
        simp only
        rw [hwrite, Option.map_some, hlength]
    refine ⟨some (buffer, requestLength request options), hcall, ?_, fun _ => ⟨buffer, rfl⟩⟩
    intro hlong
    rw [requestLength] at hlong
    omega

def longPath (n : Nat) : CString where
  bytes := List.replicate n (chr 'a')
  noNul h := absurd (List.eq_of_mem_replicate h) (by decide)

/-- A request for a long path. -/
def longRequest (n : Nat) : HttpRequest where
  method := .get
  host := { bytes := ascii "h", noNul := by decide }
  path := longPath n
  body := none

def noOptions : Options where
  headers := []
  userAgent := none
  cookie := none

theorem le_length_requestText (n : Nat) :
    n < (requestText (longRequest n) noOptions).length := by
  have hpath : (longRequest n).path.bytes.length = n := List.length_replicate
  rw [requestText, pieces, List.flatten_cons, requestLine]
  simp only [List.length_append, hpath]
  have hhost : (ascii "Host: ").length = 6 := rfl
  omega

/-- A path of 8192 bytes does not fit, and the answer is not NULL. -/
theorem longRequest_escapes : ¬StaysInside (longRequest 8192) noOptions fun _ => 0 := by
  intro h
  exact absurd h.fits.1 (Nat.not_le.mpr (le_length_requestText 8192))

end Law

end ArmKernel.Http
