/-
The handshake and the head of the request (`src/handshake.c`).

`FromHead` says that the handshake is defined and that every header it records is a line of
the head, with its name and its value inside the buffer. The loop stops at an empty token,
which `strtok` never gives, so it goes on behind the empty line; and the value pointer is two
places behind the colon, whatever stands there. `HeadRequest` are the requests that none of
this harms (`fromHead_iff`).

Two such requests with one head have one outcome; with `fromHead_iff` this is
`handshake_head_only`.
-/
import ArmKernel.Ws.RequestHead

namespace ArmKernel.Ws

open ArmKernel.Support

/-- The lines that are recorded: the first hundred with a colon behind the request line. -/
def headerLines (request : List (BitVec 8)) : List Line :=
  ((fullLines 0 request).tail.filter hasColon).take maxHeaders

/-- The header is the line: its name stands in front of the first colon, and its value is the text
behind it, with at most one space less in front. Both lie inside the buffer. -/
def HeaderOfLine (memory : List (BitVec 8)) (header : HttpHeader) (line : Line) : Prop :=
  line.start = header.name ∧ header.name < memory.length ∧ header.value < memory.length ∧
    ∃ name text value, line.text = name ++ colonChar :: text ∧ colonChar ∉ name ∧
      stringAt memory header.name = some name ∧ stringAt memory header.value = some value ∧
      (value = text ∨ text = 32 :: value)

/-- The handshake is defined, and its headers are lines before the first empty line. -/
structure FromHead (digest : List (BitVec 8) → Fin 28 → BitVec 8) (send : List (BitVec 8) → Int)
    (request : CString) : Prop where
  defined : ∃ outcome, wsHandleHandshake digest send request.bytes = some outcome
  headers : ∀ memory parsed, parseHttpRequest request.bytes = some (some (memory, parsed)) →
    memory.length = request.bytes.length + 1 ∧
      ∀ header ∈ parsed.headers, ∃ line ∈ headLines request.bytes, HeaderOfLine memory header line

/-- The request line has a word, and its words fit into the arrays. -/
structure FitsRequestLine (line : List (BitVec 8)) : Prop where
  word : firstWord line ≠ []
  method : (firstWord line).length < 16
  path : (firstWord (afterWord line)).length < 1024
  version : (firstWord (afterWord (afterWord line))).length < 16

/-- The request line fits; no recorded line is behind the first empty line; and each has a space
behind its colon, or ends there as `WellSpaced` says. -/
structure HeadRequest (request : List (BitVec 8)) : Prop where
  requestLine : ∀ line, (fullLines 0 request).head? = some line → FitsRequestLine line.text
  inHead : ∀ line ∈ headerLines request, line ∈ headLines request
  spaced : WellSpaced request.length (headerLines request)

section Parse

variable {request : CString} {memory : List (BitVec 8)} {line : Line}

/-- **Parsing a request**: no line at all, or a request line and the headers. -/
theorem parseHttpRequest_cases (request : CString) :
    (fullLines 0 request.bytes = [] ∧ parseHttpRequest request.bytes = some none) ∨
      ∃ first more memory, fullLines 0 request.bytes = first :: more ∧
        parseHttpRequest request.bytes = (scanRequestLine first.text).bind (fun parsed =>
          some (some (memory, { parsed with
            headers := (headerLines request.bytes).map headerOf }))) ∧
        memory.length = request.bytes.length + 1 ∧
        ((∀ line ∈ headerLines request.bytes, ReadsLine memory line) ↔
          WellSpaced request.bytes.length (headerLines request.bytes)) ∧
        ∀ line ∈ headerLines request.bytes, ReadsLine memory line →
          stringAt memory (headerOf line).value = some (headerText line.text).tail := by
  rcases strtok_cases ⟨[], request.bytes⟩ with ⟨hnone, hbreaks⟩ | ⟨skipped, line, stop, rest, h⟩
  · left
    refine ⟨?_, by rw [parseHttpRequest, hnone]⟩
    have hfull := @fullLines_breaks 0 [] request.bytes hbreaks
    rwa [List.append_nil] at hfull
  · right
    have hrest : 0 ∉ rest := fun hmem => request.noNul (h.rest_mem hmem)
    obtain ⟨b', out, hloop, hmem, hlooped⟩ := @headerLoop_spec
      ⟨[] ++ skipped ++ line ++ stop, rest⟩ (rest.length + 1) [] (Nat.lt_succ_self _) hrest
    have hlines := h.fullLines_eq
    have hnext : nextLines ⟨[] ++ skipped ++ line ++ stop, rest⟩ 0 = headerLines request.bytes := by
      rw [headerLines]
      simp only [List.length_nil] at hlines
      rw [hlines, List.tail_cons, nextLines, Nat.sub_zero]
    have hsize := h.size_eq
    simp only [List.length_nil, Nat.zero_add] at hsize
    rw [List.length_nil] at hlooped hloop
    have hloop' : headerLoop (rest.length + 1) ⟨[] ++ skipped ++ line ++ stop, rest⟩ [] =
        some (b', (headerLines request.bytes).map headerOf) := by
      rw [hloop, hnext, List.nil_append]
    refine ⟨_, _, b'.memory, hlines, ?_, ?_, ?_, ?_⟩
    · unfold parseHttpRequest
      rw [h.token]
      simp only [bind]
      congr 1
      funext parsed
      rw [hloop']
      rfl
    · have hout := hlooped.length
      rw [hmem, List.length_append, hout]
      simp only
      omega
    · rw [hmem, ← hnext, hlooped.reads]
      simp only [hsize]
    · rw [hmem, ← hnext]
      exact hlooped.values

theorem length_of_scanWord {size : Nat} {line : List (BitVec 8)} {word : Option (List (BitVec 8))}
    (h : scanWord size line = some word) :
    (firstWord line).length < size ∧ word = wordOf line := by
  unfold scanWord at h
  split at h
  · rename_i hsize
    exact ⟨hsize, (Option.some.inj h).symm⟩
  · cases h

/-- The request line is scanned, up to its first word, exactly when it fits. -/
theorem scanRequestLine_fits {line : List (BitVec 8)} :
    (∃ parsed method, scanRequestLine line = some parsed ∧ parsed.method = some method) ↔
      FitsRequestLine line := by
  unfold scanRequestLine
  constructor
  · rintro ⟨parsed, method, hscan, hmethod⟩
    obtain ⟨word, hword, hscan⟩ := Option.bind_eq_some_iff.mp hscan
    obtain ⟨path, hpath, hscan⟩ := Option.bind_eq_some_iff.mp hscan
    obtain ⟨version, hversion, hscan⟩ := Option.bind_eq_some_iff.mp hscan
    obtain rfl := Option.some.inj hscan
    obtain ⟨hmethodSize, rfl⟩ := length_of_scanWord hword
    refine ⟨?_, hmethodSize, (length_of_scanWord hpath).1, (length_of_scanWord hversion).1⟩
    intro hnil
    simp only [wordOf] at hmethod
    rw [if_pos hnil] at hmethod
    cases hmethod
  · rintro ⟨hword, hmethod, hpath, hversion⟩
    refine ⟨HttpRequest.mk (wordOf line) (wordOf (afterWord line))
      (wordOf (afterWord (afterWord line))) [], firstWord line, ?_, if_neg hword⟩
    rw [scanWord, scanWord, scanWord, if_pos hmethod, if_pos hpath, if_pos hversion]
    rfl

end Parse

section Outcome

variable {digest : List (BitVec 8) → Fin 28 → BitVec 8} {send : List (BitVec 8) → Int}
  {m m' : List (BitVec 8)} {headers : List HttpHeader}

/-- The strings of the header are the same in both memories. -/
def SameStrings (m m' : List (BitVec 8)) (header : HttpHeader) : Prop :=
  ∃ name value, stringAt m header.name = some name ∧ stringAt m' header.name = some name ∧
    stringAt m header.value = some value ∧ stringAt m' header.value = some value

theorem getHeaderValue_same (h : ∀ header ∈ headers, SameStrings m m' header)
    (name : List (BitVec 8)) :
    (getHeaderValue m name headers = some none ∧ getHeaderValue m' name headers = some none) ∨
      ∃ place value, getHeaderValue m name headers = some (some place) ∧
        getHeaderValue m' name headers = some (some place) ∧
        stringAt m place = some value ∧ stringAt m' place = some value := by
  induction headers with
  | nil => exact Or.inl ⟨rfl, rfl⟩
  | cons header headers ih =>
    obtain ⟨text, value, htext, htext', hvalue, hvalue'⟩ := h header List.mem_cons_self
    rw [getHeaderValue, getHeaderValue, htext, htext', Option.bind_some, Option.bind_some]
    by_cases hequal : equalIgnoringCase text name
    · rw [if_pos hequal, if_pos hequal]
      exact Or.inr ⟨header.value, value, rfl, rfl, hvalue, hvalue'⟩
    · rw [if_neg hequal, if_neg hequal]
      exact ih fun header hmem => h header (List.mem_cons_of_mem _ hmem)

theorem headerPasses_same (h : ∀ header ∈ headers, SameStrings m m' header)
    (name : List (BitVec 8)) (test : List (BitVec 8) → Bool) :
    ∃ passes, headerPasses m headers name test = some passes ∧
      headerPasses m' headers name test = some passes := by
  unfold headerPasses
  rcases getHeaderValue_same h name with ⟨hnone, hnone'⟩ | ⟨p, value, hp, hp', hs, hs'⟩
  · exact ⟨false, by rw [hnone, Option.bind_some], by rw [hnone', Option.bind_some]⟩
  · refine ⟨test value, ?_, ?_⟩
    · rw [hp, Option.bind_some]
      simp only
      rw [hs, Option.map_some]
    · rw [hp', Option.bind_some]
      simp only
      rw [hs', Option.map_some]

theorem checkKey_same (h : ∀ header ∈ headers, SameStrings m m' header) :
    ∃ outcome, checkKey digest send m headers = some outcome ∧
      checkKey digest send m' headers = some outcome := by
  unfold checkKey
  rcases getHeaderValue_same h (ascii "Sec-WebSocket-Key") with ⟨hnone, hnone'⟩ |
    ⟨p, value, hp, hp', hs, hs'⟩
  · exact ⟨rejected, by rw [hnone, Option.bind_some], by rw [hnone', Option.bind_some]⟩
  · obtain ⟨passes, hpass, hpass'⟩ := headerPasses_same h (ascii "Sec-WebSocket-Version")
      fun v => v = ascii "13"
    rw [hp, hp', Option.bind_some, Option.bind_some]
    simp only
    rw [hpass, hpass', Option.bind_some, Option.bind_some, hs, hs']
    cases passes with
    | false => exact ⟨rejected, rfl, rfl⟩
    | true => exact ⟨acceptHandshake digest send value, rfl, rfl⟩

/-- **The checks see the strings only.** -/
theorem checkHeaders_same (h : ∀ header ∈ headers, SameStrings m m' header) :
    ∃ outcome, checkHeaders digest send m headers = some outcome ∧
      checkHeaders digest send m' headers = some outcome := by
  obtain ⟨upgrade, hupgrade, hupgrade'⟩ := headerPasses_same h (ascii "Upgrade")
    (equalIgnoringCase · (ascii "websocket"))
  obtain ⟨connection, hconnection, hconnection'⟩ := headerPasses_same h (ascii "Connection")
    (containsString · (ascii "Upgrade"))
  obtain ⟨outcome, hkey, hkey'⟩ := @checkKey_same digest send m m' headers h
  unfold checkHeaders
  rw [hupgrade, hupgrade', Option.bind_some, Option.bind_some]
  cases upgrade with
  | false => exact ⟨rejected, rfl, rfl⟩
  | true =>
    rw [if_pos rfl, if_pos rfl, hconnection, hconnection', Option.bind_some, Option.bind_some]
    cases connection with
    | false => exact ⟨rejected, rfl, rfl⟩
    | true => exact ⟨outcome, hkey, hkey'⟩

end Outcome

section Head

variable {digest : List (BitVec 8) → Fin 28 → BitVec 8} {send : List (BitVec 8) → Int}
  {request : CString} {memory : List (BitVec 8)} {line : Line}

theorem headLines_mem (h : line ∈ headLines request.bytes) : line ∈ lines 0 request.bytes :=
  (List.takeWhile_sublist _).subset h

theorem headerLines_mem (h : line ∈ headerLines request.bytes) :
    line ∈ lines 0 request.bytes ∧ colonChar ∈ line.text := by
  obtain ⟨htail, hcolon⟩ := List.mem_filter.mp (List.mem_of_mem_take h)
  exact ⟨(List.mem_filter.mp (List.mem_of_mem_tail htail)).1, hasColon_iff.mp hcolon⟩

theorem colon_not_mem_headerName (l : List (BitVec 8)) : colonChar ∉ headerName l := by
  intro h
  have hne := List.mem_takeWhile_imp (p := fun c => decide (c ≠ colonChar)) h
  exact absurd rfl (of_decide_eq_true hne)

/-- A line has one first colon. -/
theorem first_colon {l name text : List (BitVec 8)} (h : l = name ++ colonChar :: text)
    (hname : colonChar ∉ name) : headerName l = name ∧ headerText l = text := by
  have hplain : ∀ c ∈ name, decide (c ≠ colonChar) = true := by
    intro c hc
    exact decide_eq_true fun heq => hname (heq ▸ hc)
  have hstop : decide (colonChar ≠ colonChar) = false := by decide
  rw [h, headerName, headerText, List.takeWhile_append_of_pos hplain,
    List.dropWhile_append_of_pos hplain]
  constructor
  · rw [List.takeWhile_cons_of_neg (by rw [hstop]; exact Bool.false_ne_true), List.append_nil]
  · rw [List.dropWhile_cons_of_neg (by rw [hstop]; exact Bool.false_ne_true), List.tail_cons]

theorem lt_of_stringAt {place : Nat} {s : List (BitVec 8)} (h : stringAt memory place = some s) :
    place < memory.length := by
  unfold stringAt at h
  split at h
  · assumption
  · cases h

/-- For a line with a colon, the header of the line has its strings exactly when it is the line. -/
theorem headerOfLine_iff (hcolon : colonChar ∈ line.text) :
    HeaderOfLine memory (headerOf line) line ↔ ReadsLine memory line := by
  constructor
  · rintro ⟨-, -, -, name, text, value, hline, hfirst, hname, hvalue, htext⟩
    obtain ⟨rfl, rfl⟩ := first_colon hline hfirst
    exact ⟨hname, value, hvalue, htext⟩
  · rintro ⟨hname, value, hvalue, htext⟩
    exact ⟨rfl, lt_of_stringAt hname, lt_of_stringAt hvalue, _, _, value,
      name_colon_text hcolon, colon_not_mem_headerName _, hname, hvalue, htext⟩

/-- The handshake of a request with a request line. -/
theorem wsHandleHandshake_eq {first : Line} {headers : List HttpHeader}
    (hparse : parseHttpRequest request.bytes = (scanRequestLine first.text).bind fun parsed =>
      some (some (memory, { parsed with headers }))) :
    wsHandleHandshake digest send request.bytes = (scanRequestLine first.text).bind fun parsed =>
      parsed.method.bind fun method =>
        if method ≠ ascii "GET" then some rejected
        else checkHeaders digest send memory headers := by
  unfold wsHandleHandshake
  rw [hparse]
  cases scanRequestLine first.text with
  | none => rfl
  | some parsed => rfl

/-- The headers of a request that is read as it is written have the strings of their lines. -/
theorem sameStrings_of_reads {m m' : List (BitVec 8)} (hreads : ReadsLine m line)
    (hreads' : ReadsLine m' line)
    (hvalue : stringAt m (headerOf line).value = some (headerText line.text).tail)
    (hvalue' : stringAt m' (headerOf line).value = some (headerText line.text).tail) :
    SameStrings m m' (headerOf line) :=
  ⟨headerName line.text, (headerText line.text).tail, hreads.1, hreads'.1, hvalue, hvalue'⟩

/-- What the handshake takes from the head shows how the request is written. -/
theorem headRequest_of_fromHead (h : FromHead digest send request) : HeadRequest request.bytes := by
  rcases parseHttpRequest_cases request with ⟨hnone, -⟩ |
    ⟨first, more, memory, hlines, hparse, -, hreads, -⟩
  · have hheaders : headerLines request.bytes = [] := by
      rw [headerLines, hnone]
      rfl
    refine ⟨?_, ?_, ?_⟩
    · intro line hline
      rw [hnone] at hline
      cases hline
    · rw [hheaders]
      exact fun _ h => absurd h List.not_mem_nil
    · rw [hheaders]
      trivial
  · obtain ⟨⟨outcome, hrun⟩, hheaders⟩ := h
    rw [wsHandleHandshake_eq hparse] at hrun
    obtain ⟨parsed, hscan, hrun⟩ := Option.bind_eq_some_iff.mp hrun
    obtain ⟨method, hmethod, -⟩ := Option.bind_eq_some_iff.mp hrun
    rw [hscan, Option.bind_some] at hparse
    obtain ⟨-, hheaders⟩ := hheaders memory _ hparse
    have hhead : ∀ line ∈ headerLines request.bytes, line ∈ headLines request.bytes ∧
        ReadsLine memory line := by
      intro line hline
      obtain ⟨hmem, hcolon⟩ := headerLines_mem hline
      obtain ⟨line', hline', hheader⟩ := hheaders _ (List.mem_map_of_mem hline)
      obtain rfl : line' = line := eq_of_start_eq (headLines_mem hline') hmem hheader.1
      exact ⟨hline', (headerOfLine_iff hcolon).mp hheader⟩
    refine ⟨?_, fun line hline => (hhead line hline).1,
      hreads.mp fun line hline => (hhead line hline).2⟩
    intro line hline
    rw [hlines] at hline
    obtain rfl := Option.some.inj hline
    exact scanRequestLine_fits.mp ⟨parsed, method, hscan, hmethod⟩

/-- A request that is written for it is taken from the head. -/
theorem fromHead_of_headRequest (h : HeadRequest request.bytes) : FromHead digest send request := by
  rcases parseHttpRequest_cases request with ⟨-, hparse⟩ |
    ⟨first, more, memory, hlines, hparse, hlength, hreads, hvalues⟩
  · refine ⟨⟨rejected, ?_⟩, ?_⟩
    · unfold wsHandleHandshake
      rw [hparse]
      rfl
    · intro memory parsed hparsed
      rw [hparse] at hparsed
      cases hparsed
  · obtain ⟨parsed, method, hscan, hmethod⟩ :=
      scanRequestLine_fits.mpr (h.requestLine first (by rw [hlines]; rfl))
    have hread := hreads.mpr h.spaced
    constructor
    · rw [wsHandleHandshake_eq hparse, hscan, Option.bind_some, hmethod, Option.bind_some]
      split
      · exact ⟨rejected, rfl⟩
      · have hsame : ∀ header ∈ (headerLines request.bytes).map headerOf,
            SameStrings memory memory header := by
          intro header hheader
          obtain ⟨line, hline, rfl⟩ := List.mem_map.mp hheader
          have hvalue := hvalues line hline (hread line hline)
          exact sameStrings_of_reads (hread line hline) (hread line hline) hvalue hvalue
        obtain ⟨outcome, houtcome, -⟩ := checkHeaders_same hsame
        exact ⟨outcome, houtcome⟩
    · intro memory' parsed' hparse'
      rw [hparse, hscan, Option.bind_some] at hparse'
      obtain ⟨rfl, rfl⟩ := Prod.mk.inj (Option.some.inj (Option.some.inj hparse'))
      refine ⟨hlength, ?_⟩
      intro header hheader
      obtain ⟨line, hline, rfl⟩ := List.mem_map.mp hheader
      exact ⟨line, h.inHead line hline,
        (headerOfLine_iff (headerLines_mem hline).2).mpr (hread line hline)⟩

/-- **Where the handshake takes its headers from.** Both are conditions on one request: what the
handshake does with it, and how it is written. -/
theorem fromHead_iff (digest : List (BitVec 8) → Fin 28 → BitVec 8) (send : List (BitVec 8) → Int)
    (request : CString) : FromHead digest send request ↔ HeadRequest request.bytes :=
  ⟨headRequest_of_fromHead, fromHead_of_headRequest⟩

/-- When no header is behind the head, the head has all of them. -/
theorem headerLines_of_inHead
    (h : ∀ line ∈ headerLines request.bytes, line ∈ headLines request.bytes) :
    headerLines request.bytes =
      ((headLines request.bytes).tail.filter hasColon).take maxHeaders := by
  obtain ⟨others, hlines⟩ : ∃ others, lines 0 request.bytes = headLines request.bytes ++ others :=
    ⟨_, List.takeWhile_append_dropWhile.symm⟩
  have hfull : fullLines 0 request.bytes =
      headLines request.bytes ++ others.filter Line.isFull := by
    rw [fullLines, hlines, List.filter_append, List.filter_eq_self.mpr]
    exact fun line hline => List.mem_takeWhile_imp hline
  cases hhead : headLines request.bytes with
  | nil =>
    rw [hhead] at h
    exact List.eq_nil_iff_forall_not_mem.mpr fun line hline => List.not_mem_nil (h line hline)
  | cons first more =>
    have hall : headerLines request.bytes = (more.filter hasColon).take maxHeaders ++
        ((others.filter Line.isFull).filter hasColon).take
          (maxHeaders - (more.filter hasColon).length) := by
      rw [headerLines, hfull, hhead, List.cons_append, List.tail_cons, List.filter_append,
        List.take_append]
    have hnone : ((others.filter Line.isFull).filter hasColon).take
        (maxHeaders - (more.filter hasColon).length) = [] := by
      refine List.eq_nil_iff_forall_not_mem.mpr fun line hline => ?_
      have hin : line ∈ headLines request.bytes := by
        refine h line ?_
        rw [hall]
        exact List.mem_append_right _ hline
      have hout : line ∈ others :=
        (List.mem_filter.mp (List.mem_filter.mp (List.mem_of_mem_take hline)).1).1
      have horder := lines_pairwise 0 request.bytes
      rw [hlines] at horder
      exact Nat.lt_irrefl _ ((List.pairwise_append.mp horder).2.2 line hin line hout)
    rw [hall, hnone, List.append_nil, List.tail_cons]

/-- The request line is the first line of the head, where there is one. -/
theorem fullLines_head? {first : Line} {more : List Line}
    (h : headLines request.bytes = first :: more) :
    (fullLines 0 request.bytes).head? = some first := by
  have hfull : first.isFull = true := by
    have hfirst : first ∈ headLines request.bytes := h ▸ List.mem_cons_self
    exact List.mem_takeWhile_imp hfirst
  have hlines := List.takeWhile_append_dropWhile (p := Line.isFull) (l := lines 0 request.bytes)
  rw [← headLines, h, List.cons_append] at hlines
  rw [fullLines, ← hlines, List.filter_cons_of_pos hfull, List.head?_cons]

/-- Without headers a request is rejected. -/
theorem rejected_of_no_headers (h : HeadRequest request.bytes)
    (hnone : headerLines request.bytes = []) :
    wsHandleHandshake digest send request.bytes = some rejected := by
  rcases parseHttpRequest_cases request with ⟨-, hparse⟩ |
    ⟨first, more, memory, hlines, hparse, -⟩
  · unfold wsHandleHandshake
    rw [hparse]
    rfl
  · obtain ⟨parsed, method, hscan, hmethod⟩ :=
      scanRequestLine_fits.mpr (h.requestLine first (by rw [hlines]; rfl))
    rw [wsHandleHandshake_eq hparse, hscan, Option.bind_some, hmethod, Option.bind_some, hnone]
    split
    · rfl
    · rfl

/-- **One head, one outcome.** -/
theorem outcome_of_head {r r' : CString} (h : HeadRequest r.bytes) (h' : HeadRequest r'.bytes)
    (hhead : headText r.bytes = headText r'.bytes) :
    wsHandleHandshake digest send r.bytes = wsHandleHandshake digest send r'.bytes := by
  have hlines := headLines_congr hhead
  have hheaders : headerLines r.bytes = headerLines r'.bytes := by
    rw [headerLines_of_inHead h.inHead, headerLines_of_inHead h'.inHead, hlines]
  cases hfirst : headLines r.bytes with
  | nil =>
    have hnone : headerLines r.bytes = [] := by
      rw [headerLines_of_inHead h.inHead, hfirst]
      rfl
    rw [rejected_of_no_headers h hnone, rejected_of_no_headers h' (hheaders ▸ hnone)]
  | cons first more =>
    have hline := fullLines_head? hfirst
    have hline' := fullLines_head? (hlines ▸ hfirst)
    rcases parseHttpRequest_cases r with ⟨hempty, -⟩ | ⟨f, l, m, hfull, hparse, -, hreads, hvalues⟩
    · rw [hempty] at hline
      cases hline
    rcases parseHttpRequest_cases r' with ⟨hempty, -⟩ |
      ⟨f', l', m', hfull', hparse', -, hreads', hvalues'⟩
    · rw [hempty] at hline'
      cases hline'
    rw [hfull] at hline
    rw [hfull'] at hline'
    obtain rfl : f = first := Option.some.inj hline
    obtain rfl : f' = f := Option.some.inj hline'
    have hread := hreads.mpr h.spaced
    have hread' := hreads'.mpr h'.spaced
    have hsame : ∀ header ∈ (headerLines r.bytes).map headerOf, SameStrings m m' header := by
      intro header hheader
      obtain ⟨line, hline, rfl⟩ := List.mem_map.mp hheader
      have hline' : line ∈ headerLines r'.bytes := hheaders ▸ hline
      exact sameStrings_of_reads (hread line hline) (hread' line hline')
        (hvalues line hline (hread line hline)) (hvalues' line hline' (hread' line hline'))
    obtain ⟨outcome, hcheck, hcheck'⟩ := @checkHeaders_same digest send _ _ _ hsame
    obtain ⟨parsed, method, hscan, hmethod⟩ :=
      scanRequestLine_fits.mpr (h.requestLine f' (by rw [hfull]; rfl))
    rw [wsHandleHandshake_eq hparse, wsHandleHandshake_eq hparse', hscan, Option.bind_some,
      Option.bind_some, hmethod, Option.bind_some, Option.bind_some, ← hheaders, hcheck, hcheck']

/-- **The handshake depends only on the head**: exactly for two requests that are written for it.
For both it is defined and takes its headers from the head, and if the heads agree so do the
decision and the accept key. -/
theorem handshake_head_only (digest : List (BitVec 8) → Fin 28 → BitVec 8)
    (send : List (BitVec 8) → Int) (r r' : CString) :
    (FromHead digest send r ∧ FromHead digest send r' ∧ (headText r.bytes = headText r'.bytes →
      wsHandleHandshake digest send r.bytes = wsHandleHandshake digest send r'.bytes)) ↔
      HeadRequest r.bytes ∧ HeadRequest r'.bytes := by
  rw [fromHead_iff, fromHead_iff]
  constructor
  · rintro ⟨h, h', -⟩
    exact ⟨h, h'⟩
  · rintro ⟨h, h'⟩
    exact ⟨h, h', outcome_of_head h h'⟩

end Head

section Body

/-- A request without headers. -/
def bareRequest : List (BitVec 8) := ascii "GET / HTTP/1.1\r\n\r\n"

/-- Headers in the body. -/
def upgradeBody : List (BitVec 8) :=
  ascii "Upgrade: websocket\r\nConnection: Upgrade\r\n" ++
    ascii "Sec-WebSocket-Key: k\r\nSec-WebSocket-Version: 13\r\n"

/-- Two requests with one head: the first is rejected, the second is accepted for what stands in
its body. -/
theorem body_is_accepted :
    headText bareRequest = headText (bareRequest ++ upgradeBody) ∧
      (wsHandleHandshake (fun _ _ => 65) (fun l => l.length) bareRequest).map
        HandshakeOutcome.result = some (-1) ∧
      (wsHandleHandshake (fun _ _ => 65) (fun l => l.length) (bareRequest ++ upgradeBody)).map
        HandshakeOutcome.result = some 0 := by
  refine ⟨?_, ?_, ?_⟩ <;> decide +kernel

end Body

end ArmKernel.Ws
