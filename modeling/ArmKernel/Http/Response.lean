/-
Reading a response (`src/http.c`, `parse_response`).

A pointer is the memory from it on, and `behind` is what of the memory stands behind `end`, so a
pointer has reached `end` when no more than that is left. Every `malloc` succeeds: the source
does not look at the results. `none` in place of a result stands for a read behind the memory, or
for a number that is not an `int`.

`headerLoop_line` is one round of the loop, `headerLoop_lines` a run of it over the lines of a
head. `Reply` is what a server renders, and `parseResponse_render` says that parsing undoes it.
-/
import ArmKernel.Support.Cursor
import ArmKernel.Support.Decimal
import ArmKernel.Http.Url
import Mathlib.Data.List.TakeWhile

namespace ArmKernel.Http

open ArmKernel.Support

/-- `MAX_LINE_LENGTH`. -/
def maxLineLength : Nat := 1024

/-- The end of a line. -/
def crlf : List (BitVec 8) := [13, 10]

/-- `mcurl_header_t`, less its link. -/
structure Header where
  name : List (BitVec 8)
  value : List (BitVec 8)

/-- `mcurl_response_t`, less its error text. -/
structure Response where
  statusCode : Int
  headers : List Header
  body : Option (List (BitVec 8))
  bodyLength : Nat

def isBlank (c : BitVec 8) : Bool := c = chr ' '

def notColon (c : BitVec 8) : Bool := c ≠ chr ':'

/-- `parse_response`: a line that has a colon becomes a header. -/
def storeHeader (line : List (BitVec 8)) (response : Response) : Option Response := do
  let sep ← strchr (chr ':') (line ++ [0])
  match sep with
  | none => some response
  | some sep => do
    let name ← stringAt (line.take (line.length + 1 - sep.length) ++ [0])
    let value ← stringAt ((sep.drop 1).dropWhile isBlank)
    some { response with headers := { name, value } :: response.headers }

/-- `parse_response`: the loop over the lines. The inner `none` is the refusal of a long line. Every
round moves `pos` on, so there are not more rounds than bytes. -/
def headerLoop (behind : Nat) : (rounds : Nat) → List (BitVec 8) → Response →
    Option (Option (List (BitVec 8)) × Response)
  | 0, _, _ => none
  | rounds + 1, pos, response =>
    if pos.length ≤ behind then some (some pos, response)
    else
      match strstr crlf pos with
      | none => none
      | some none => some (some pos, response)
      | some (some lineEnd) =>
        if lineEnd.length ≤ behind then some (some pos, response)
        else
          let lineLength := pos.length - lineEnd.length
          if lineLength = 0 then some (some (lineEnd.drop 2), response)
          else if lineLength ≥ maxLineLength then some (none, response)
          else
            match storeHeader (pos.take lineLength) response with
            | none => none
            | some response => headerLoop behind rounds (lineEnd.drop 2) response

/-- `parse_response`: the body. -/
def copyBody (behind : Nat) (pos : List (BitVec 8)) (response : Response) : Option Response :=
  let bodyLength := sub32 pos.length behind
  if bodyLength > 0 then
    if pos.length < bodyLength then none
    else some { response with body := some (pos.take bodyLength), bodyLength }
  else some response

/-- `parse_response`: what follows the loop. -/
def finishResponse (behind : Nat) :
    Option (Option (List (BitVec 8)) × Response) → Option (Int × Response)
  | none => none
  | some (none, response) => some (mcurlErrorProtocol, response)
  | some (some pos, response) =>
    (copyBody behind pos response).map fun response => (mcurlOk, response)

/-- `parse_response`. -/
def parseResponse (buffer : List (BitVec 8)) (length : Nat) (response : Response) :
    Option (Int × Response) :=
  let behind := buffer.length - length
  match strchr (chr ' ') buffer with
  | none => none
  | some none => some (mcurlErrorProtocol, response)
  | some (some pos) =>
    if pos.length ≤ behind then some (mcurlErrorProtocol, response)
    else
      match atoi (pos.drop 1) with
      | none => none
      | some statusCode =>
        match strstr crlf (pos.drop 1) with
        | none => none
        | some none => some (mcurlErrorProtocol, { response with statusCode })
        | some (some pos) =>
          if pos.length ≤ behind then some (mcurlErrorProtocol, { response with statusCode })
          else
            finishResponse behind
              (headerLoop behind buffer.length (pos.drop 2) { response with statusCode })

/-- Text without the end of a line or of a string. -/
def Plain (l : List (BitVec 8)) : Prop := ∀ x ∈ l, x ≠ 13 ∧ x ≠ 10 ∧ x ≠ 0

instance (l : List (BitVec 8)) : Decidable (Plain l) := inferInstanceAs (Decidable (∀ x ∈ l, _))

/-- A response as it is sent. A line of its head is not empty. -/
structure Message where
  version : List (BitVec 8)
  code : Int
  reason : List (BitVec 8)
  lines : List (List (BitVec 8))
  body : List (BitVec 8)
  version_plain : Plain version
  version_noSpace : chr ' ' ∉ version
  code_low : -2 ^ 31 ≤ code
  code_high : code < 2 ^ 31
  reason_plain : Plain reason
  lines_plain : ∀ line ∈ lines, Plain line
  lines_ne_nil : ∀ line ∈ lines, line ≠ []

/-- What stands behind the first space of the status line. -/
def Message.status (message : Message) : List (BitVec 8) :=
  decimalInt message.code ++ chr ' ' :: message.reason

def Message.statusLine (message : Message) : List (BitVec 8) :=
  message.version ++ chr ' ' :: message.status

/-- Lines, each with its end, and the empty line. -/
def headerText (lines : List (List (BitVec 8))) : List (BitVec 8) :=
  lines.flatMap (fun line => line ++ crlf) ++ crlf

/-- The message up to and including the empty line. -/
def Message.head (message : Message) : List (BitVec 8) :=
  message.statusLine ++ crlf ++ headerText message.lines

def Message.text (message : Message) : List (BitVec 8) := message.head ++ message.body

/-- What a line puts in front of the headers. -/
def fieldOf (line : List (BitVec 8)) : List Header :=
  match line.dropWhile notColon with
  | [] => []
  | _ :: rest =>
    [ { name := line.takeWhile notColon,
        value := rest.dropWhile isBlank } ]

section Lines

variable {line rest : List (BitVec 8)} {lines : List (List (BitVec 8))} {behind rounds : Nat}
  {response : Response}

theorem Plain.ne_zero (h : Plain line) : ∀ x ∈ line, x ≠ 0 := fun x hx => (h x hx).2.2

/-- A string keeps its end behind the bytes that are skipped. -/
theorem dropWhile_string (p : BitVec 8 → Bool) (h0 : p 0 = false) (l : List (BitVec 8)) :
    (l ++ [0]).dropWhile p = l.dropWhile p ++ [0] := by
  induction l with
  | nil => exact List.dropWhile_cons_of_neg (by rw [h0]; decide)
  | cons x l ih =>
    rw [List.cons_append]
    cases hx : p x with
    | true => rw [List.dropWhile_cons_of_pos hx, List.dropWhile_cons_of_pos hx, ih]
    | false =>
      rw [List.dropWhile_cons_of_neg (by rw [hx]; decide),
        List.dropWhile_cons_of_neg (by rw [hx]; decide), List.cons_append]

theorem fieldOf_none (h : chr ':' ∉ line) : fieldOf line = [] := by
  have hall : ∀ x ∈ line, notColon x = true := by
    intro x hx
    exact decide_eq_true fun heq => h (heq ▸ hx)
  rw [fieldOf, List.dropWhile_eq_nil_iff.mpr hall]

/-- The header of a line with a colon is split at the first one. -/
theorem fieldOf_colon {name : List (BitVec 8)} (h : chr ':' ∉ name) :
    fieldOf (name ++ chr ':' :: rest) =
      [ { name, value := rest.dropWhile isBlank } ] := by
  have hall : ∀ x ∈ name, notColon x = true := by
    intro x hx
    exact decide_eq_true fun heq => h (heq ▸ hx)
  have hcolon : ¬notColon (chr ':') = true := by decide
  rw [fieldOf, List.dropWhile_append_of_pos hall, List.dropWhile_cons_of_neg hcolon,
    List.takeWhile_append_of_pos hall, List.takeWhile_cons_of_neg hcolon, List.append_nil]

/-- **One line** becomes a header, or none. -/
theorem storeHeader_plain (h : Plain line) (response : Response) :
    storeHeader line response =
      some { response with headers := fieldOf line ++ response.headers } := by
  by_cases hcolon : chr ':' ∈ line
  · obtain ⟨name, rest, rfl, hname⟩ := List.eq_append_cons_of_mem hcolon
    have hplain : ∀ x ∈ name, x ≠ chr ':' ∧ x ≠ 0 := by
      intro x hx
      exact ⟨fun heq => hname (heq ▸ hx), h.ne_zero x (List.mem_append_left _ hx)⟩
    have htext : name ++ chr ':' :: rest ++ [0] = name ++ chr ':' :: (rest ++ [0]) := by
      rw [List.append_assoc, List.cons_append]
    have hlength : (name ++ chr ':' :: rest).length + 1 - (chr ':' :: (rest ++ [0])).length =
        name.length := by
      simp only [List.length_append, List.length_cons, List.length_nil]
      omega
    have hvalue : ∀ x ∈ rest.dropWhile isBlank, x ≠ 0 := by
      intro x hx
      have hmem : x ∈ rest := (List.dropWhile_sublist _).mem hx
      exact h.ne_zero x (List.mem_append_right _ (List.mem_cons_of_mem _ hmem))
    rw [fieldOf_colon hname, storeHeader, htext, strchr_found hplain]
    simp only [bind, Option.bind_some]
    rw [hlength, List.take_left, stringAt_append fun x hx => (hplain x hx).2, List.drop_succ_cons,
      List.drop_zero, dropWhile_string _ (by decide), Option.bind_some, stringAt_append hvalue]
    rfl
  · have hplain : ∀ x ∈ line, x ≠ chr ':' ∧ x ≠ 0 := by
      intro x hx
      exact ⟨fun heq => hcolon (heq ▸ hx), h.ne_zero x hx⟩
    rw [fieldOf_none hcolon, storeHeader, strchr_missing hplain (by decide)]
    rfl

/-- The search for the end of a line of the head. -/
theorem strstr_crlf (h : Plain line) :
    strstr crlf (line ++ (crlf ++ rest)) = some (some (crlf ++ rest)) :=
  strstr_found fun x hx => ⟨(h x hx).1, (h x hx).2.2⟩

theorem length_crlf_append : (crlf ++ rest).length = rest.length + 2 := rfl

/-- **One round** of the loop, at a line. -/
theorem headerLoop_line (h : Plain line) (hnil : line ≠ []) (hend : behind < rest.length + 2)
    (response : Response) :
    headerLoop behind (rounds + 1) (line ++ (crlf ++ rest)) response =
      if maxLineLength ≤ line.length then some (none, response)
      else headerLoop behind rounds rest
        { response with headers := fieldOf line ++ response.headers } := by
  have hpos : 0 < line.length := List.length_pos_iff.mpr hnil
  have hmore : ¬(line ++ (crlf ++ rest)).length ≤ behind := by
    rw [List.length_append, length_crlf_append]
    omega
  have hinside : ¬(crlf ++ rest).length ≤ behind := Nat.not_le.mpr hend
  have hlength : (line ++ (crlf ++ rest)).length - (crlf ++ rest).length = line.length := by
    rw [List.length_append, Nat.add_sub_cancel]
  have hfull : ¬line.length = 0 := Nat.ne_of_gt hpos
  rw [headerLoop, if_neg hmore, strstr_crlf h]
  simp only
  rw [if_neg hinside, hlength, if_neg hfull]
  refine if_congr Iff.rfl rfl ?_
  rw [List.take_left, storeHeader_plain h]
  rfl

/-- The empty line ends the loop. -/
theorem headerLoop_blank (hend : behind < rest.length + 2) (response : Response) :
    headerLoop behind (rounds + 1) (crlf ++ rest) response = some (some rest, response) := by
  have hinside : ¬(crlf ++ rest).length ≤ behind := Nat.not_le.mpr hend
  have hsearch : strstr crlf (crlf ++ rest) = some (some (crlf ++ rest)) :=
    @strstr_crlf [] rest fun x hx => absurd hx List.not_mem_nil
  rw [headerLoop, if_neg hinside, hsearch]
  simp only
  rw [if_neg hinside, Nat.sub_self, if_pos rfl]
  rfl

theorem headerText_cons (line : List (BitVec 8)) (lines : List (List (BitVec 8))) :
    headerText (line :: lines) = line ++ (crlf ++ headerText lines) := by
  rw [headerText, headerText, List.flatMap_cons, List.append_assoc, List.append_assoc]

/-- A line takes its end, so there are not more lines than bytes. -/
theorem length_le_headerText (lines : List (List (BitVec 8))) :
    lines.length < (headerText lines).length := by
  induction lines with
  | nil => exact Nat.zero_lt_succ _
  | cons line lines ih =>
    rw [headerText_cons, List.length_append, length_crlf_append, List.length_cons]
    omega

/-- **The loop** over the lines of a head: each puts its header in front of the others. -/
theorem headerLoop_lines (hplain : ∀ line ∈ lines, Plain line) (hnil : ∀ line ∈ lines, line ≠ [])
    (hshort : ∀ line ∈ lines, line.length < maxLineLength) (hrounds : lines.length < rounds)
    (hend : behind ≤ rest.length) (response : Response) :
    headerLoop behind rounds (headerText lines ++ rest) response = some (some rest, { response with
      headers := lines.foldl (fun headers line => fieldOf line ++ headers) response.headers }) := by
  induction lines generalizing rounds response with
  | nil =>
    obtain ⟨rounds, rfl⟩ : ∃ k, rounds = k + 1 := ⟨rounds - 1, by omega⟩
    exact headerLoop_blank (by omega) response
  | cons line lines ih =>
    obtain ⟨rounds, rfl⟩ : ∃ k, rounds = k + 1 := ⟨rounds - 1, by omega⟩
    rw [List.length_cons] at hrounds
    have hbehind : behind < (headerText lines ++ rest).length + 2 := by
      rw [List.length_append]
      omega
    have hfits : ¬maxLineLength ≤ line.length := Nat.not_le.mpr (hshort line List.mem_cons_self)
    rw [headerText_cons, List.append_assoc, List.append_assoc,
      headerLoop_line (hplain line List.mem_cons_self) (hnil line List.mem_cons_self) hbehind,
      if_neg hfits, ih (fun l hl => hplain l (List.mem_cons_of_mem line hl))
        (fun l hl => hnil l (List.mem_cons_of_mem line hl))
        (fun l hl => hshort l (List.mem_cons_of_mem line hl)) (by omega), List.foldl_cons]

end Lines

section Status

variable {message : Message} {rest : List (BitVec 8)} {length : Nat} {response : Response}

theorem decimalInt_plain (z : Int) : Plain (decimalInt z) := by
  have hdigit : ∀ c, isDigit c = true → c ≠ 13 ∧ c ≠ 10 ∧ c ≠ 0 := by decide
  intro x hx
  rw [decimalInt] at hx
  split at hx
  · rcases List.mem_cons.mp hx with rfl | hx
    · decide
    · exact hdigit x (isDigit_of_mem_decimal hx)
  · exact hdigit x (isDigit_of_mem_decimal hx)

theorem status_plain (message : Message) : Plain message.status := by
  intro x hx
  rcases List.mem_append.mp hx with hx | hx
  · exact decimalInt_plain message.code x hx
  · rcases List.mem_cons.mp hx with rfl | hx
    · decide
    · exact message.reason_plain x hx

theorem version_search (message : Message) : ∀ x ∈ message.version, x ≠ chr ' ' ∧ x ≠ 0 := by
  intro x hx
  exact ⟨fun heq => message.version_noSpace (heq ▸ hx), (message.version_plain x hx).2.2⟩

theorem statusLine_append (message : Message) (rest : List (BitVec 8)) :
    message.statusLine ++ rest = message.version ++ chr ' ' :: (message.status ++ rest) := by
  rw [Message.statusLine, List.append_assoc, List.cons_append]

/-- **The status line** gives the code, and the lines behind it are left. -/
theorem parseResponse_status (message : Message) (rest : List (BitVec 8)) {length : Nat}
    (hlength : message.statusLine.length < length)
    (hle : length ≤ (message.statusLine ++ (crlf ++ rest)).length) (response : Response) :
    parseResponse (message.statusLine ++ (crlf ++ rest)) length response =
      finishResponse ((message.statusLine ++ (crlf ++ rest)).length - length)
        (headerLoop ((message.statusLine ++ (crlf ++ rest)).length - length)
          (message.statusLine ++ (crlf ++ rest)).length rest
          { response with statusCode := message.code }) := by
  have hsum : (message.statusLine ++ (crlf ++ rest)).length =
      message.statusLine.length + (crlf ++ rest).length := List.length_append
  have hinside : ¬(crlf ++ rest).length ≤
      (message.statusLine ++ (crlf ++ rest)).length - length := by omega
  have hspace : ¬(chr ' ' :: (message.status ++ (crlf ++ rest))).length ≤
      (message.statusLine ++ (crlf ++ rest)).length - length := by
    rw [List.length_cons, List.length_append]
    omega
  have hsearch : strchr (chr ' ') (message.statusLine ++ (crlf ++ rest)) =
      some (some (chr ' ' :: (message.status ++ (crlf ++ rest)))) := by
    rw [statusLine_append]
    exact strchr_found (version_search message)
  have hcode : atoi (message.status ++ (crlf ++ rest)) = some message.code := by
    rw [Message.status, List.append_assoc, List.cons_append]
    exact atoi_decimalInt message.code_low message.code_high (by decide)
  rw [parseResponse, hsearch]
  simp only
  rw [if_neg hspace, List.drop_succ_cons, List.drop_zero, hcode, strstr_crlf (status_plain message)]
  simp only
  rw [if_neg hinside]
  rfl

end Status

/-- A header as it is sent. -/
structure Field where
  name : List (BitVec 8)
  value : List (BitVec 8)
  name_plain : Plain name
  value_plain : Plain value
  name_noColon : chr ':' ∉ name
  value_trimmed : value.head? ≠ some (chr ' ')

def Field.line (field : Field) : List (BitVec 8) := field.name ++ chr ':' :: chr ' ' :: field.value

def Field.header (field : Field) : Header := { name := field.name, value := field.value }

/-- What a server renders. It fits the address space. -/
structure Reply where
  code : Int
  reason : List (BitVec 8)
  fields : List Field
  body : List (BitVec 8)
  code_low : -2 ^ 31 ≤ code
  code_high : code < 2 ^ 31
  reason_plain : Plain reason
  short : ∀ field ∈ fields, field.line.length < maxLineLength
  body_lt : body.length < 2 ^ 32

section Render

variable {field : Field}

theorem Field.line_plain (field : Field) : Plain field.line := by
  intro x hx
  rcases List.mem_append.mp hx with hx | hx
  · exact field.name_plain x hx
  · rcases List.mem_cons.mp hx with rfl | hx
    · decide
    · rcases List.mem_cons.mp hx with rfl | hx
      · decide
      · exact field.value_plain x hx

theorem Field.line_ne_nil (field : Field) : field.line ≠ [] :=
  List.append_ne_nil_of_right_ne_nil _ (List.cons_ne_nil _ _)

/-- **A header is read as it was sent.** -/
theorem Field.fieldOf_line (field : Field) : fieldOf field.line = [field.header] := by
  have hspace : isBlank (chr ' ') = true := by decide
  have hvalue : field.value.dropWhile isBlank = field.value := by
    have htrimmed := field.value_trimmed
    cases hcases : field.value with
    | nil => rfl
    | cons c rest =>
      rw [hcases] at htrimmed
      have hc : ¬isBlank c = true := by
        intro h
        exact htrimmed (congrArg some (of_decide_eq_true h))
      rw [List.dropWhile_cons_of_neg hc]
  rw [Field.line, fieldOf_colon field.name_noColon, List.dropWhile_cons_of_pos hspace, hvalue]
  rfl

theorem foldl_fields (fields : List Field) (headers : List Header) :
    (fields.map Field.line).foldl (fun headers line => fieldOf line ++ headers) headers =
      (fields.map Field.header).reverse ++ headers := by
  induction fields generalizing headers with
  | nil => rfl
  | cons field fields ih =>
    rw [List.map_cons, List.foldl_cons, field.fieldOf_line, ih, List.map_cons, List.reverse_cons,
      List.append_assoc]

def Reply.message (reply : Reply) : Message where
  version := ascii "HTTP/1.1"
  code := reply.code
  reason := reply.reason
  lines := reply.fields.map Field.line
  body := reply.body
  version_plain := by
    have h : ∀ x ∈ ascii "HTTP/1.1", x ≠ 13 ∧ x ≠ 10 ∧ x ≠ 0 := by decide
    exact h
  version_noSpace := by decide
  code_low := reply.code_low
  code_high := reply.code_high
  reason_plain := reply.reason_plain
  lines_plain := by
    intro line hline
    obtain ⟨field, -, rfl⟩ := List.mem_map.mp hline
    exact field.line_plain
  lines_ne_nil := by
    intro line hline
    obtain ⟨field, -, rfl⟩ := List.mem_map.mp hline
    exact field.line_ne_nil

/-- The text that is sent. -/
def Reply.text (reply : Reply) : List (BitVec 8) :=
  ascii "HTTP/1.1 " ++ decimalInt reply.code ++ ascii " " ++ reply.reason ++ crlf ++
    reply.fields.flatMap (fun field => field.name ++ ascii ": " ++ field.value ++ crlf) ++ crlf ++
    reply.body

/-- A response before the call. -/
def Response.empty : Response where
  statusCode := 0
  headers := []
  body := none
  bodyLength := 0

theorem Reply.text_eq (reply : Reply) : reply.text = reply.message.text := by
  have hhead : ascii "HTTP/1.1 " = ascii "HTTP/1.1" ++ [chr ' '] := rfl
  have hline : ∀ field : Field, field.name ++ ascii ": " ++ field.value ++ crlf =
      field.line ++ crlf := by
    intro field
    have hcolon : ascii ": " = [chr ':', chr ' '] := rfl
    rw [hcolon, Field.line, List.append_assoc field.name]
    rfl
  have hlines : headerText reply.message.lines =
      reply.fields.flatMap (fun field => field.line ++ crlf) ++ crlf := by
    rw [headerText, Reply.message, List.flatMap_map]
  have hspace : ascii " " = [chr ' '] := rfl
  have hstatus : reply.message.statusLine =
      ascii "HTTP/1.1 " ++ decimalInt reply.code ++ ascii " " ++ reply.reason := by
    rw [hhead, hspace, Message.statusLine, Message.status, List.append_assoc, List.append_assoc,
      List.append_assoc]
    rfl
  have hbody : reply.message.body = reply.body := rfl
  rw [Message.text, Message.head, hlines, hstatus, hbody, Reply.text]
  simp only [hline]
  simp only [List.append_assoc]

/-- The body, from the bytes up to `end`. -/
theorem copyBody_eq {body after : List (BitVec 8)} (h : body.length < 2 ^ 32)
    (response : Response) :
    copyBody after.length (body ++ after) response = some (if body = [] then response
      else { response with body := some body, bodyLength := body.length }) := by
  have hlength : sub32 (body ++ after).length after.length = body.length := by
    rw [sub32, wrap32, List.length_append]
    omega
  rw [copyBody, hlength]
  by_cases hbody : body = []
  · subst hbody
    rfl
  · have hpos : body.length > 0 := List.length_pos_iff.mpr hbody
    have hall : ¬(body ++ after).length < body.length := by
      rw [List.length_append]
      omega
    rw [if_pos hpos, if_neg hall, if_neg hbody, List.take_left]

/-- **Parsing inverts rendering**, whatever stands in memory behind the response. -/
theorem parseResponse_render (reply : Reply) (after : List (BitVec 8)) :
    parseResponse (reply.text ++ after) reply.text.length Response.empty =
      some (mcurlOk, Response.mk reply.code (reply.fields.map Field.header).reverse
        (if reply.body = [] then none else some reply.body) reply.body.length) := by
  have htext : reply.text ++ after = reply.message.statusLine ++
      (crlf ++ (headerText reply.message.lines ++ (reply.body ++ after))) := by
    have hbody : reply.message.body = reply.body := rfl
    rw [reply.text_eq, Message.text, Message.head, hbody]
    simp only [List.append_assoc]
  have hlength : reply.text.length = reply.message.statusLine.length +
      (2 + ((headerText reply.message.lines).length + reply.body.length)) := by
    have hbody : reply.message.body = reply.body := rfl
    rw [reply.text_eq, Message.text, Message.head, hbody]
    simp only [List.length_append]
    have hcrlf : crlf.length = 2 := rfl
    omega
  have hbehind : (reply.text ++ after).length - reply.text.length = after.length := by
    rw [List.length_append, Nat.add_sub_cancel_left]
  have hlong : reply.message.statusLine.length < reply.text.length := by omega
  have hle : reply.text.length ≤ (reply.text ++ after).length := by
    rw [List.length_append]
    exact Nat.le_add_right _ _
  have hlines : reply.message.lines.length < (reply.text ++ after).length := by
    have hle' := length_le_headerText reply.message.lines
    omega
  have hshort : ∀ line ∈ reply.message.lines, line.length < maxLineLength := by
    intro line hline
    obtain ⟨field, hfield, rfl⟩ := List.mem_map.mp hline
    exact reply.short field hfield
  have hend : after.length ≤ (reply.body ++ after).length := by
    rw [List.length_append]
    exact Nat.le_add_left _ _
  have hstatus := parseResponse_status reply.message
    (headerText reply.message.lines ++ (reply.body ++ after)) hlong (htext ▸ hle) Response.empty
  rw [← htext, hbehind, headerLoop_lines reply.message.lines_plain reply.message.lines_ne_nil hshort
    hlines hend, finishResponse, copyBody_eq reply.body_lt, Option.map_some] at hstatus
  rw [hstatus]
  have hheaders : reply.message.lines.foldl (fun headers line => fieldOf line ++ headers) [] =
      (reply.fields.map Field.header).reverse :=
    (foldl_fields reply.fields []).trans (List.append_nil _)
  simp only [Response.empty, hheaders]
  split
  · rename_i hbody
    rw [hbody]
    rfl
  · rfl

end Render

/-- A reply with two headers, whose body looks like another head. -/
def okReply : Reply where
  code := 200
  reason := ascii "OK"
  fields := [⟨ascii "Server", ascii "a:b", by decide, by decide, by decide, by decide⟩,
    ⟨ascii "X", [], by decide, by decide, by decide, by decide⟩]
  body := [88, 58, 13, 10, 13, 10, 0]
  code_low := by decide
  code_high := by decide
  reason_plain := by decide
  short := by decide
  body_lt := by decide

theorem parseResponse_render_ok :
    okReply.text = ascii "HTTP/1.1 200 OK\r\nServer: a:b\r\nX: \r\n\r\nX:\r\n\r\n" ++ [0] ∧
      parseResponse (okReply.text ++ [0]) okReply.text.length Response.empty =
        some (mcurlOk, Response.mk 200 [⟨ascii "X", []⟩, ⟨ascii "Server", ascii "a:b"⟩]
          (some [88, 58, 13, 10, 13, 10, 0]) 7) :=
  ⟨by decide, parseResponse_render okReply [0]⟩

end ArmKernel.Http
