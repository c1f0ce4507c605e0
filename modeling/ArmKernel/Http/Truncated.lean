/-
Responses that are cut off in their head (`src/http.c`, `parse_response`).

The memory holds the beginning of a message and a NUL, and `length` is the length of the beginning.
The loop over the lines ends where it finds no further end of a line, and what is left is taken
for the body as after the empty line. `rejected_iff` says which cuts are refused after all:
those inside the status line, and those behind a line that is too long for the buffer.
-/
import ArmKernel.Http.Response
import Mathlib.Algebra.Order.Group.Nat

namespace ArmKernel.Http

open ArmKernel.Support

/-- The call on the beginning of a message answers `MCURL_ERROR_PROTOCOL`. -/
def Rejected (message : Message) (cut : Nat) (after : List (BitVec 8)) (response : Response) :
    Prop :=
  ∃ response', parseResponse (message.text.take cut ++ 0 :: after) cut response =
    some (mcurlErrorProtocol, response')

/-- A line that is too long for the buffer ends in the first `k` bytes of the lines. -/
def LongLineWithin (lines : List (List (BitVec 8))) (k : Nat) : Prop :=
  ∃ before line later, lines = before ++ line :: later ∧ maxLineLength ≤ line.length ∧
    ((before ++ [line]).flatMap fun line => line ++ crlf).length ≤ k

section Loop

variable {line : List (BitVec 8)} {lines : List (List (BitVec 8))} {k rounds behind : Nat}
  {pos after : List (BitVec 8)}

theorem not_longLineWithin_nil : ¬LongLineWithin [] k := by
  rintro ⟨before, line, later, hlines, -⟩
  exact List.append_ne_nil_of_right_ne_nil before (List.cons_ne_nil line later) hlines.symm

theorem longLineWithin_cons : LongLineWithin (line :: lines) k ↔
    line.length + 2 ≤ k ∧
      (maxLineLength ≤ line.length ∨ LongLineWithin lines (k - (line.length + 2))) := by
  have hcrlf : crlf.length = 2 := rfl
  constructor
  · rintro ⟨before, long, later, hlines, hlong, hk⟩
    cases before with
    | nil =>
      obtain ⟨rfl, rfl⟩ := List.cons.inj hlines
      rw [List.nil_append, List.flatMap_cons, List.flatMap_nil, List.append_nil,
        List.length_append, hcrlf] at hk
      exact ⟨hk, Or.inl hlong⟩
    | cons first before =>
      obtain ⟨rfl, hrest⟩ := List.cons.inj hlines
      rw [List.cons_append, List.flatMap_cons, List.length_append, List.length_append, hcrlf] at hk
      exact ⟨by omega, Or.inr ⟨before, long, later, hrest, hlong, by omega⟩⟩
  · rintro ⟨hk, hlong | ⟨before, long, later, rfl, hlong, hrest⟩⟩
    · refine ⟨[], line, lines, rfl, hlong, ?_⟩
      rw [List.nil_append, List.flatMap_cons, List.flatMap_nil, List.append_nil,
        List.length_append, hcrlf]
      exact hk
    · refine ⟨line :: before, long, later, rfl, hlong, ?_⟩
      rw [List.cons_append, List.flatMap_cons, List.length_append, List.length_append, hcrlf]
      omega

/-- The loop ends where there is no further end of a line. -/
theorem headerLoop_stuck (h : strstr crlf pos = some none) (response : Response) :
    headerLoop behind (rounds + 1) pos response = some (some pos, response) := by
  rw [headerLoop, h]
  split <;> rfl

/-- The search in a line that is cut off, or in its end. -/
theorem strstr_cut (h : Plain line) (hk : k ≤ line.length + 1) :
    strstr crlf ((line ++ [13]).take k ++ 0 :: after) = some none := by
  rcases Nat.lt_or_ge line.length k with hlt | hge
  · have hall : (line ++ [13]).take k = line ++ [13] := by
      apply List.take_of_length_le
      rw [List.length_append, List.length_singleton]
      omega
    rw [hall, List.append_assoc]
    exact strstr_half (fun x hx => ⟨(h x hx).1, (h x hx).2.2⟩) (by decide) (by decide)
  · rw [List.take_append_of_le_length hge]
    refine strstr_missing (fun x hx => ?_) (by decide)
    have hmem := List.mem_of_mem_take hx
    exact ⟨(h x hmem).1, (h x hmem).2.2⟩

/-- **The loop over lines that are cut off** ends, and refuses them exactly when a line that is too
long ends before the cut. -/
theorem headerLoop_cut (hplain : ∀ line ∈ lines, Plain line) (hnil : ∀ line ∈ lines, line ≠ [])
    (hrounds : k < rounds) (hk : k < (headerText lines).length) (response : Response) :
    ∃ pos response', headerLoop (after.length + 1) rounds
        ((headerText lines).take k ++ 0 :: after) response = some (pos, response') ∧
      (pos = none ↔ LongLineWithin lines k) := by
  obtain ⟨rounds, rfl⟩ : ∃ n, rounds = n + 1 := ⟨rounds - 1, by omega⟩
  induction lines generalizing rounds k response with
  | nil =>
    have hshort : (headerText []).take k = (([] : List (BitVec 8)) ++ [13]).take k := by
      have hle : k ≤ [(13 : BitVec 8)].length := Nat.le_of_lt_succ hk
      have hsplit : headerText [] = [13] ++ [10] := rfl
      rw [hsplit, List.take_append_of_le_length hle, List.nil_append]
    have hempty : Plain [] := fun x hx => absurd hx List.not_mem_nil
    rw [hshort]
    refine ⟨_, _, headerLoop_stuck (strstr_cut hempty (Nat.le_of_lt_succ hk)) response, ?_⟩
    exact iff_of_false (Option.some_ne_none _) not_longLineWithin_nil
  | cons line lines ih =>
    have hline := hplain line List.mem_cons_self
    have hcons := @longLineWithin_cons line lines k
    rw [headerText_cons]
    rcases Nat.lt_or_ge k (line.length + 2) with hinside | hbehind
    · have htake : (line ++ (crlf ++ headerText lines)).take k = (line ++ [13]).take k := by
        have hsplit : line ++ (crlf ++ headerText lines) =
            (line ++ [13]) ++ 10 :: headerText lines := by
          rw [List.append_assoc]
          rfl
        rw [hsplit, List.take_append_of_le_length]
        rw [List.length_append, List.length_singleton]
        omega
      rw [htake]
      refine ⟨_, _, headerLoop_stuck (strstr_cut hline (by omega)) response, ?_⟩
      refine iff_of_false (Option.some_ne_none _) ?_
      intro hlong
      exact absurd (hcons.mp hlong).1 (Nat.not_le.mpr hinside)
    · have htake : (line ++ (crlf ++ headerText lines)).take k ++ 0 :: after =
          line ++ (crlf ++ ((headerText lines).take (k - (line.length + 2)) ++ 0 :: after)) := by
        have hsplit : line ++ (crlf ++ headerText lines) = (line ++ crlf) ++ headerText lines := by
          rw [List.append_assoc]
        have hcount : (line ++ crlf).length = line.length + 2 := List.length_append
        have hle : (line ++ crlf).take k = line ++ crlf :=
          List.take_of_length_le (hcount ▸ hbehind)
        rw [hsplit, List.take_append, hle, hcount, List.append_assoc, List.append_assoc]
      have hend : after.length + 1 <
          ((headerText lines).take (k - (line.length + 2)) ++ 0 :: after).length + 2 := by
        rw [List.length_append, List.length_cons]
        omega
      rw [htake, headerLoop_line hline (hnil line List.mem_cons_self) hend]
      split
      · rename_i hlong
        exact ⟨none, response, rfl, iff_of_true rfl (hcons.mpr ⟨hbehind, Or.inl hlong⟩)⟩
      · rename_i hshort
        rw [headerText_cons, List.length_append, length_crlf_append] at hk
        obtain ⟨rounds, rfl⟩ : ∃ n, rounds = n + 1 := ⟨rounds - 1, by omega⟩
        have hleft : k - (line.length + 2) < (headerText lines).length := by omega
        obtain ⟨pos, response', hloop, hrefused⟩ :=
          ih (fun l hl => hplain l (List.mem_cons_of_mem line hl))
            (fun l hl => hnil l (List.mem_cons_of_mem line hl))
            hleft { response with headers := fieldOf line ++ response.headers } rounds
            (by omega)
        refine ⟨pos, response', hloop, hrefused.trans ?_⟩
        rw [hcons]
        exact ⟨fun h => ⟨hbehind, Or.inr h⟩, fun h => h.2.resolve_left hshort⟩

end Loop

section Cuts

variable {message : Message} {cut : Nat} {after : List (BitVec 8)} {response : Response}

theorem statusLine_length (message : Message) : message.statusLine.length =
    message.version.length + (message.status.length + 1) :=
  List.length_append

/-- The text, split behind the status line. -/
theorem text_split (message : Message) :
    message.text = message.statusLine ++ (crlf ++ (headerText message.lines ++ message.body)) := by
  rw [Message.text, Message.head]
  simp only [List.append_assoc]

/-- A cut in the version leaves no space to find. -/
theorem rejected_version (h : cut ≤ message.version.length) :
    Rejected message cut after response := by
  have htake : message.text.take cut = message.version.take cut := by
    rw [text_split, statusLine_append, List.take_append_of_le_length h]
  have hsearch : strchr (chr ' ') (message.version.take cut ++ 0 :: after) = some none :=
    strchr_missing (fun x hx => version_search message x (List.mem_of_mem_take hx)) (by decide)
  refine ⟨response, ?_⟩
  rw [htake, parseResponse, hsearch]

/-- What is left of the code is a number. -/
theorem atoi_status (message : Message) (k : Nat) (after : List (BitVec 8)) :
    ∃ code, atoi ((message.status ++ [13]).take k ++ 0 :: after) = some code := by
  have hsplit : message.status ++ [13] =
      decimalInt message.code ++ chr ' ' :: (message.reason ++ [13]) := by
    rw [Message.status, List.append_assoc, List.cons_append]
  rw [hsplit]
  rcases Nat.lt_or_ge (decimalInt message.code).length k with hlt | hge
  · obtain ⟨j, rfl⟩ : ∃ j, k = (decimalInt message.code).length + (j + 1) :=
      ⟨k - (decimalInt message.code).length - 1, by omega⟩
    rw [List.take_length_add_append, List.take_succ_cons, List.append_assoc, List.cons_append]
    exact ⟨message.code, atoi_decimalInt message.code_low message.code_high (by decide)⟩
  · rw [List.take_append_of_le_length hge]
    exact atoi_of_prefix message.code_low message.code_high rfl (List.take_prefix k _)

/-- A cut behind the space of the version and inside the status line, or in its end. -/
theorem rejected_status (hlow : message.version.length < cut)
    (hhigh : cut < message.statusLine.length + 2) : Rejected message cut after response := by
  have hlength := statusLine_length message
  obtain ⟨k, rfl⟩ : ∃ k, cut = message.version.length + (k + 1) :=
    ⟨cut - message.version.length - 1, by omega⟩
  have hk : k ≤ message.status.length + 1 := by omega
  have htake : message.text.take (message.version.length + (k + 1)) ++ 0 :: after =
      message.version ++ chr ' ' :: ((message.status ++ [13]).take k ++ 0 :: after) := by
    have hsplit : message.text = message.version ++ chr ' ' :: ((message.status ++ [13]) ++
        10 :: (headerText message.lines ++ message.body)) := by
      rw [text_split, statusLine_append, List.append_assoc]
      rfl
    have hle : k ≤ (message.status ++ [13]).length := by
      rw [List.length_append, List.length_singleton]
      exact hk
    rw [hsplit, List.take_length_add_append, List.take_succ_cons, List.take_append_of_le_length hle,
      List.append_assoc, List.cons_append]
  have hsearch : strchr (chr ' ') (message.version ++
      chr ' ' :: ((message.status ++ [13]).take k ++ 0 :: after)) =
      some (some (chr ' ' :: ((message.status ++ [13]).take k ++ 0 :: after))) :=
    strchr_found (version_search message)
  have hinside : ¬(chr ' ' :: ((message.status ++ [13]).take k ++ 0 :: after)).length ≤
      (message.version ++ chr ' ' :: ((message.status ++ [13]).take k ++ 0 :: after)).length -
        (message.version.length + (k + 1)) := by
    have hleft : ((message.status ++ [13]).take k).length = k := by
      rw [List.length_take, List.length_append, List.length_singleton]
      omega
    simp only [List.length_append, List.length_cons, hleft]
    omega
  obtain ⟨code, hcode⟩ := atoi_status message k after
  refine ⟨{ response with statusCode := code }, ?_⟩
  rw [htake, parseResponse, hsearch]
  simp only
  rw [if_neg hinside, List.drop_succ_cons, List.drop_zero, hcode,
    strstr_cut (status_plain message) hk]

theorem finishResponse_protocol {behind : Nat} {pos : Option (List (BitVec 8))}
    {response' : Response} :
    (∃ r, finishResponse behind (some (pos, response')) = some (mcurlErrorProtocol, r)) ↔
      pos = none := by
  cases pos with
  | none => exact iff_of_true ⟨response', rfl⟩ rfl
  | some pos =>
    refine iff_of_false ?_ (Option.some_ne_none pos)
    rintro ⟨r, hr⟩
    obtain ⟨r', -, hpair⟩ := Option.map_eq_some_iff.mp hr
    have hcode : mcurlOk = mcurlErrorProtocol := congrArg Prod.fst hpair
    exact absurd hcode (by decide)

/-- A cut in the lines behind the status line. -/
theorem rejected_lines (hlow : message.statusLine.length + 2 ≤ cut)
    (hhigh : cut < message.head.length) : Rejected message cut after response ↔
      LongLineWithin message.lines (cut - (message.statusLine.length + 2)) := by
  obtain ⟨k, rfl⟩ : ∃ k, cut = message.statusLine.length + 2 + k :=
    ⟨cut - (message.statusLine.length + 2), by omega⟩
  have hhead : message.head.length =
      message.statusLine.length + 2 + (headerText message.lines).length := by
    rw [Message.head, List.length_append, List.length_append]
    rfl
  have hk : k < (headerText message.lines).length := by omega
  have htake : message.text.take (message.statusLine.length + 2 + k) ++ 0 :: after =
      message.statusLine ++ (crlf ++ ((headerText message.lines).take k ++ 0 :: after)) := by
    have hcount : (message.statusLine ++ crlf).length = message.statusLine.length + 2 :=
      List.length_append
    rw [text_split, ← List.append_assoc, ← hcount, List.take_length_add_append,
      List.take_append_of_le_length (Nat.le_of_lt hk), List.append_assoc, List.append_assoc]
  have htotal : (message.statusLine ++
      (crlf ++ ((headerText message.lines).take k ++ 0 :: after))).length =
        message.statusLine.length + 2 + k + (after.length + 1) := by
    rw [List.length_append, length_crlf_append, List.length_append, List.length_cons,
      List.length_take, Nat.min_eq_left (Nat.le_of_lt hk)]
    omega
  have hrounds : k < message.statusLine.length + 2 + k + (after.length + 1) := by omega
  obtain ⟨pos, response', hloop, hrefused⟩ := @headerLoop_cut _ _ _ after
    message.lines_plain message.lines_ne_nil hrounds hk
    { response with statusCode := message.code }
  have hbehind : message.statusLine.length + 2 + k + (after.length + 1) -
      (message.statusLine.length + 2 + k) = after.length + 1 := Nat.add_sub_cancel_left _ _
  rw [Rejected, htake, parseResponse_status message _ (by omega) (by omega), htotal, hbehind,
    hloop, finishResponse_protocol, hrefused, Nat.add_sub_cancel_left]

/-- **Truncated responses.** A message that is cut off in its head is refused exactly when the cut
lies in the status line or in its end, or when a line too long for the buffer ends before it. -/
theorem rejected_iff (message : Message) (cut : Fin message.head.length)
    (after : List (BitVec 8)) (response : Response) :
    Rejected message cut after response ↔ cut.val < message.statusLine.length + 2 ∨
      LongLineWithin message.lines (cut.val - (message.statusLine.length + 2)) := by
  rcases Nat.lt_or_ge cut.val (message.statusLine.length + 2) with hstatus | hlines
  · refine iff_of_true ?_ (Or.inl hstatus)
    rcases Nat.lt_or_ge message.version.length cut.val with hbehind | hversion
    · exact rejected_status hbehind hstatus
    · exact rejected_version hversion
  · rw [rejected_lines hlines cut.isLt]
    exact ⟨Or.inr, fun h => h.resolve_left (Nat.not_lt.mpr hlines)⟩

theorem oneHeader_version_plain : Plain (ascii "HTTP/1.1") := by
  have h : ∀ x ∈ ascii "HTTP/1.1", x ≠ 13 ∧ x ≠ 10 ∧ x ≠ 0 := by decide
  exact h

theorem oneHeader_version : chr ' ' ∉ ascii "HTTP/1.1" := by decide

theorem oneHeader_code_low : -2 ^ 31 ≤ (200 : Int) := by decide

theorem oneHeader_code_high : (200 : Int) < 2 ^ 31 := by decide

theorem oneHeader_reason_plain : Plain (ascii "OK") := by
  have h : ∀ x ∈ ascii "OK", x ≠ 13 ∧ x ≠ 10 ∧ x ≠ 0 := by decide
  exact h

theorem oneHeader_lines_plain : ∀ line ∈ [ascii "Length: 2"], Plain line := by
  have h : ∀ line ∈ [ascii "Length: 2"], ∀ x ∈ line, x ≠ 13 ∧ x ≠ 10 ∧ x ≠ 0 := by decide
  exact h

theorem oneHeader_lines : ∀ line ∈ [ascii "Length: 2"], line ≠ [] := by decide

/-- `HTTP/1.1 200 OK` with one header. -/
def oneHeader : Message where
  version := ascii "HTTP/1.1"
  code := 200
  reason := ascii "OK"
  lines := [ascii "Length: 2"]
  body := ascii "ab"
  version_plain := oneHeader_version_plain
  version_noSpace := oneHeader_version
  code_low := oneHeader_code_low
  code_high := oneHeader_code_high
  reason_plain := oneHeader_reason_plain
  lines_plain := oneHeader_lines_plain
  lines_ne_nil := oneHeader_lines

/-- Cut off in its header, it is accepted, with the beginning of the header as its body. -/
theorem oneHeader_accepted : ¬Rejected oneHeader 21 [] Response.empty := by
  rintro ⟨response', hcall⟩
  have hresult : parseResponse (oneHeader.text.take 21 ++ [0]) 21 Response.empty =
      some (mcurlOk, Response.mk 200 [] (some (ascii "Leng")) 4) := rfl
  rw [hresult] at hcall
  cases hcall

end Cuts

end ArmKernel.Http
