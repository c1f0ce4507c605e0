/-
What the handshake takes from a request (`src/handshake.c`).

`strtok` passes over empty lines, so the lines it gives are the full lines of the whole
request (`Cut.fullLines_eq`), and the loop records the first hundred with a colon behind the
request line (`nextLines`). In memory the name of such a line ends at the zero over the
colon, and the value pointer stands two places behind the colon, on whatever is there
(`placed_reads`).

The loop is a run of calls of `strtok`, each of which finds breaks only or a `Cut`. `Looped` is
what such a run makes of the rest of the buffer; it holds at the end (`looped_end`), and a line
in front keeps it, recorded or not (`Cut.looped_record`, `Cut.looped_skip`).
-/
import ArmKernel.Ws.Handshake
import Mathlib.Data.List.TakeWhile

namespace ArmKernel.Ws

open ArmKernel.Support

/-- The part of a line in front of its first colon. -/
def headerName (line : List (BitVec 8)) : List (BitVec 8) := line.takeWhile (· ≠ colonChar)

/-- The part of a line behind its first colon. -/
def headerText (line : List (BitVec 8)) : List (BitVec 8) := (line.dropWhile (· ≠ colonChar)).tail

def hasColon (line : Line) : Bool := line.text.contains colonChar

/-- The lines that are recorded when `n` headers are. -/
def nextLines (b : RequestBuffer) (n : Nat) : List Line :=
  ((fullLines b.before.length b.rest).filter hasColon).take (maxHeaders - n)

/-- The header of a line. -/
def headerOf (line : Line) : HttpHeader where
  name := line.start
  value := line.start + (headerName line.text).length + 2

/-- The header of the line has its name, and its text with at most one space less in front. -/
def ReadsLine (memory : List (BitVec 8)) (line : Line) : Prop :=
  stringAt memory (headerOf line).name = some (headerName line.text) ∧
    ∃ value, stringAt memory (headerOf line).value = some value ∧
      (value = headerText line.text ∨ headerText line.text = 32 :: value)

/-- The place behind a line. -/
def Line.stop (line : Line) : Nat := line.start + line.text.length

/-- Behind the colon of each line there is a space, or nothing. In the second case the request ends
with the byte behind the line, or the next header begins there, with its colon. -/
def WellSpaced (size : Nat) : List Line → Prop
  | [] => True
  | line :: more =>
    ((headerText line.text).head? = some 32 ∨
      headerText line.text = [] ∧ (Line.stop line + 1 = size ∨ ∃ next, more.head? = some next ∧
        next.start = Line.stop line + 1 ∧ next.text.head? = some colonChar)) ∧
      WellSpaced size more

theorem hasColon_iff {line : Line} : hasColon line = true ↔ colonChar ∈ line.text :=
  List.contains_iff_mem

section Cut

variable {b : RequestBuffer} {skipped line stop rest : List (BitVec 8)}

/-- A token: the breaks in front of it, the line, the zero behind it if there is a break, and what
is left. -/
structure Cut (b : RequestBuffer) (skipped line stop rest : List (BitVec 8)) : Prop where
  token : strtok b = some (b.before.length + skipped.length, line,
    ⟨b.before ++ skipped ++ line ++ stop, rest⟩)
  breaks : ∀ c ∈ skipped, isBreak c
  plain : ∀ c ∈ line, ¬isBreak c
  full : line ≠ []
  ends : (b.rest = skipped ++ line ∧ stop = [] ∧ rest = []) ∨
    stop = [0] ∧ ∃ c, isBreak c ∧ b.rest = skipped ++ line ++ c :: rest

/-- **A call of `strtok`** finds breaks only, or a token. -/
theorem strtok_cases (b : RequestBuffer) :
    (strtok b = none ∧ ∀ c ∈ b.rest, isBreak c) ∨ ∃ skipped line stop rest,
      Cut b skipped line stop rest := by
  have hsplit : b.rest = b.rest.takeWhile isBreak ++ b.rest.dropWhile isBreak :=
    List.takeWhile_append_dropWhile.symm
  have hbreaks : ∀ c ∈ b.rest.takeWhile isBreak, isBreak c := fun c hc => List.mem_takeWhile_imp hc
  have hplain : ∀ c ∈ (b.rest.dropWhile isBreak).takeWhile fun c => !isBreak c, ¬isBreak c := by
    intro c hc
    have h := List.mem_takeWhile_imp hc
    simpa using h
  by_cases hnil : b.rest.dropWhile isBreak = []
  · left
    refine ⟨if_pos hnil, ?_⟩
    rw [hsplit, hnil, List.append_nil]
    exact hbreaks
  · right
    have htoken : (b.rest.dropWhile isBreak).takeWhile (fun c => !isBreak c) ≠ [] := by
      obtain ⟨c, tail, heq⟩ := List.exists_cons_of_ne_nil hnil
      have hc : isBreak c = false := by
        have h := List.head_dropWhile_not isBreak hnil
        simpa [heq] using h
      rw [heq, List.takeWhile_cons_of_pos (by rw [hc]; rfl)]
      exact List.cons_ne_nil _ _
    have hline := List.takeWhile_append_dropWhile (p := fun c => !isBreak c)
      (l := b.rest.dropWhile isBreak)
    cases hrest : (b.rest.dropWhile isBreak).dropWhile fun c => !isBreak c with
    | nil =>
      refine ⟨_, _, [], [], ?_, hbreaks, hplain, htoken, Or.inl ⟨?_, rfl, rfl⟩⟩
      · unfold strtok
        rw [if_neg hnil, hrest, List.append_nil]
      · rw [hrest, List.append_nil] at hline
        rw [hline]
        exact hsplit
    | cons c rest =>
      refine ⟨_, _, [0], rest, ?_, hbreaks, hplain, htoken, Or.inr ⟨rfl, c, ?_, ?_⟩⟩
      · unfold strtok
        rw [if_neg hnil, hrest]
      · have hne : (b.rest.dropWhile isBreak).dropWhile (fun c => !isBreak c) ≠ [] := by
          rw [hrest]
          exact List.cons_ne_nil _ _
        have h := List.head_dropWhile_not (fun c => !isBreak c) hne
        simpa [hrest] using h
      · rw [hrest] at hline
        rw [List.append_assoc, hline]
        exact hsplit

namespace Cut

variable (h : Cut b skipped line stop rest)
include h

theorem length_eq :
    b.rest.length = skipped.length + line.length + stop.length + rest.length := by
  rcases h.ends with ⟨heq, rfl, rfl⟩ | ⟨rfl, c, -, heq⟩
  all_goals
    rw [heq]
    simp only [List.length_append, List.length_cons, List.length_nil]
    omega

theorem rest_mem {c : BitVec 8} (hc : c ∈ rest) : c ∈ b.rest := by
  rcases h.ends with ⟨-, -, rfl⟩ | ⟨-, d, -, heq⟩
  · cases hc
  · rw [heq]
    exact List.mem_append_right _ (List.mem_cons_of_mem d hc)

theorem passed_mem {c : BitVec 8} (hc : c ∈ skipped ++ line) : c ∈ b.rest := by
  rcases h.ends with ⟨heq, -, -⟩ | ⟨-, d, -, heq⟩
  · rw [heq]
    exact hc
  · rw [heq]
    exact List.mem_append_left _ hc

/-- **The token is the first full line** of what is left. -/
theorem fullLines_eq :
    fullLines b.before.length b.rest = ⟨b.before.length + skipped.length, line⟩ ::
      fullLines (b.before ++ skipped ++ line ++ stop).length rest := by
  rcases h.ends with ⟨heq, rfl, rfl⟩ | ⟨rfl, c, hc, heq⟩
  · have hline := @fullLines_append (b.before.length + skipped.length) [] line h.plain h.full
      (fun c hc => nomatch hc)
    rw [List.append_nil] at hline
    rw [heq, fullLines_breaks _ h.breaks, hline]
    rfl
  · have hline := @fullLines_append (b.before.length + skipped.length) (c :: rest) line
      h.plain h.full (fun d hd => Option.some.inj hd ▸ hc)
    rw [heq, List.append_assoc, fullLines_breaks _ h.breaks, hline, fullLines_break hc]
    simp only [List.length_append, List.length_cons, List.length_nil]

end Cut

end Cut

section Placed

variable {memory : List (BitVec 8)} {line : Line} {tail : List (BitVec 8)}

/-- The line in memory, with a zero over its colon and one behind it. -/
def Placed (memory : List (BitVec 8)) (line : Line) (tail : List (BitVec 8)) : Prop :=
  ∃ pre, pre.length = line.start ∧
    memory = pre ++ (headerName line.text ++ 0 :: (headerText line.text ++ 0 :: tail))

theorem stringAt_append (pre s tail : List (BitVec 8)) (hs : ∀ c ∈ s, c ≠ 0) :
    stringAt (pre ++ (s ++ 0 :: tail)) pre.length = some s := by
  have hinside : pre.length < (pre ++ (s ++ 0 :: tail)).length := by
    simp only [List.length_append, List.length_cons]
    omega
  rw [stringAt, if_pos hinside, List.drop_left, List.takeWhile_append_of_pos]
  · simp
  · intro c hc
    simpa using hs c hc

theorem stringAt_rest (pre tail : List (BitVec 8)) :
    stringAt (pre ++ tail) pre.length =
      if tail = [] then none else some (tail.takeWhile (· ≠ 0)) := by
  cases tail with
  | nil =>
    rw [stringAt, List.append_nil, if_neg (Nat.lt_irrefl _), if_pos rfl]
  | cons c tail =>
    have hinside : pre.length < (pre ++ c :: tail).length := by
      simp only [List.length_append, List.length_cons]
      omega
    rw [stringAt, if_pos hinside, if_neg (List.cons_ne_nil _ _), List.drop_left]

theorem headerName_ne_zero (hnul : ∀ c ∈ line.text, c ≠ 0) : ∀ c ∈ headerName line.text, c ≠ 0 :=
  fun c hc => hnul c ((List.takeWhile_sublist _).subset hc)

theorem headerText_ne_zero (hnul : ∀ c ∈ line.text, c ≠ 0) : ∀ c ∈ headerText line.text, c ≠ 0 :=
  fun c hc => hnul c ((List.dropWhile_sublist _).subset (List.mem_of_mem_tail hc))

theorem placed_name (h : Placed memory line tail) (hnul : ∀ c ∈ line.text, c ≠ 0) :
    stringAt memory (headerOf line).name = some (headerName line.text) := by
  obtain ⟨pre, hpre, hmem⟩ := h
  rw [hmem, headerOf, ← hpre]
  exact stringAt_append pre _ _ (headerName_ne_zero hnul)

/-- With a text, the value is the text less one byte. -/
theorem placed_value {c : BitVec 8} {value : List (BitVec 8)} (h : Placed memory line tail)
    (hnul : ∀ c ∈ line.text, c ≠ 0) (htext : headerText line.text = c :: value) :
    stringAt memory (headerOf line).value = some value := by
  obtain ⟨pre, hpre, hmem⟩ := h
  have hplace : (headerOf line).value = (pre ++ headerName line.text ++ [0, c]).length := by
    simp only [headerOf, List.length_append, List.length_cons, List.length_nil, hpre]
  have hmem' : memory = pre ++ headerName line.text ++ [0, c] ++ (value ++ 0 :: tail) := by
    rw [hmem, htext]
    simp only [List.append_assoc, List.cons_append, List.nil_append]
  rw [hplace, hmem']
  refine stringAt_append _ value tail fun x hx => headerText_ne_zero hnul x ?_
  rw [htext]
  exact List.mem_cons_of_mem c hx

/-- Without a text, the value is what stands behind the zero of the line. -/
theorem placed_value_nil (h : Placed memory line tail) (htext : headerText line.text = []) :
    stringAt memory (headerOf line).value =
      if tail = [] then none else some (tail.takeWhile (· ≠ 0)) := by
  obtain ⟨pre, hpre, hmem⟩ := h
  have hplace : (headerOf line).value = (pre ++ headerName line.text ++ [0, 0]).length := by
    simp only [headerOf, List.length_append, List.length_cons, List.length_nil, hpre]
  have hmem' : memory = pre ++ headerName line.text ++ [0, 0] ++ tail := by
    rw [hmem, htext]
    simp only [List.append_assoc, List.cons_append, List.nil_append]
  rw [hplace, hmem']
  exact stringAt_rest _ tail

/-- Without a text, the value is empty when a zero stands there. -/
theorem placed_value_empty_iff (h : Placed memory line tail) (htext : headerText line.text = []) :
    stringAt memory (headerOf line).value = some [] ↔ tail.head? = some 0 := by
  rw [placed_value_nil h htext]
  cases tail with
  | nil =>
    rw [if_pos rfl]
    exact iff_of_false nofun nofun
  | cons c tail =>
    rw [if_neg (List.cons_ne_nil c tail), Option.some.injEq, List.head?_cons, Option.some.injEq]
    by_cases hzero : c = 0
    · subst hzero
      exact iff_of_true rfl rfl
    · have hcons : (c :: tail).takeWhile (fun x : BitVec 8 => decide (x ≠ 0)) =
          c :: tail.takeWhile fun x => decide (x ≠ 0) :=
        List.takeWhile_cons_of_pos (decide_eq_true hzero)
      rw [hcons]
      exact iff_of_false (List.cons_ne_nil _ _) hzero

/-- **The strings of a header.** Its value is the text of the line less one byte; where the text is
empty, what stands behind the zero. -/
theorem placed_reads (h : Placed memory line tail) (hnul : ∀ c ∈ line.text, c ≠ 0) :
    (ReadsLine memory line ↔
      (headerText line.text).head? = some 32 ∨ headerText line.text = [] ∧ tail.head? = some 0) ∧
      (ReadsLine memory line →
        stringAt memory (headerOf line).value = some (headerText line.text).tail) := by
  have hname := placed_name h hnul
  rw [ReadsLine]
  cases htext : headerText line.text with
  | nil =>
    rw [← placed_value_empty_iff h htext]
    have hempty : (∃ value, stringAt memory (headerOf line).value = some value ∧
        (value = [] ∨ [] = 32 :: value)) → stringAt memory (headerOf line).value = some [] := by
      rintro ⟨value, hsome, rfl | h⟩
      · exact hsome
      · cases h
    refine ⟨⟨fun h => Or.inr ⟨rfl, hempty h.2⟩, ?_⟩, fun h => hempty h.2⟩
    rintro (h | ⟨-, hvalue⟩)
    · cases h
    · exact ⟨hname, [], hvalue, Or.inl rfl⟩
  | cons c value =>
    have hvalue := placed_value h hnul htext
    refine ⟨⟨?_, ?_⟩, fun _ => hvalue⟩
    · rintro ⟨-, v, hsome, hv⟩
      obtain rfl : value = v := Option.some.inj (hvalue.symm.trans hsome)
      rcases hv with hv | hv
      · exact absurd (congrArg List.length hv) (by rw [List.length_cons]; omega)
      · exact Or.inl (congrArg List.head? hv)
    · rintro (h | ⟨h, -⟩)
      · exact ⟨hname, value, hvalue, Or.inr (congrArg (· :: value) (Option.some.inj h))⟩
      · cases h

end Placed

section Loop

variable {b : RequestBuffer} {skipped line stop rest out : List (BitVec 8)} {n : Nat}

/-- What the loop makes of the rest of the buffer: `out`, with the strings of the headers it
records. -/
structure Looped (b : RequestBuffer) (n : Nat) (out : List (BitVec 8)) : Prop where
  length : out.length = b.rest.length + 1
  head : out.head? = some 0 ↔ b.rest = [] ∨ ∃ next, (nextLines b n).head? = some next ∧
    next.start = b.before.length ∧ next.text.head? = some colonChar
  reads : (∀ line ∈ nextLines b n, ReadsLine (b.before ++ out) line) ↔
    WellSpaced (b.before.length + b.rest.length) (nextLines b n)
  values : ∀ line ∈ nextLines b n, ReadsLine (b.before ++ out) line →
    stringAt (b.before ++ out) (headerOf line).value = some (headerText line.text).tail

theorem fullLines_nil (start : Nat) : fullLines start [] = [] := rfl

theorem nextLines_of_breaks (hbreaks : ∀ c ∈ b.rest, isBreak c) : nextLines b n = [] := by
  have hfull : fullLines b.before.length b.rest = [] := by
    have h := @fullLines_breaks b.before.length [] b.rest hbreaks
    rwa [List.append_nil] at h
  rw [nextLines, hfull, List.filter_nil, List.take_nil]

theorem looped_end (hbreaks : ∀ c ∈ b.rest, isBreak c) (hnul : 0 ∉ b.rest) :
    Looped b n (b.rest ++ [0]) := by
  have hnext : nextLines b n = [] := nextLines_of_breaks hbreaks
  refine ⟨List.length_append, ?_, ?_, ?_⟩
  · rw [hnext]
    constructor
    · intro h
      cases hrest : b.rest with
      | nil => exact Or.inl rfl
      | cons c rest =>
        rw [hrest] at h hnul
        exact absurd (Option.some.inj h).symm (List.ne_of_not_mem_cons hnul)
    · rintro (h | ⟨next, h, -⟩)
      · rw [h]
        rfl
      · cases h
  · rw [hnext]
    exact iff_of_true (fun _ h => nomatch h) trivial
  · rw [hnext]
    exact fun _ h => nomatch h

namespace Cut

variable (h : Cut b skipped line stop rest)
include h

/-- The lines behind the token begin behind it. -/
theorem lt_start {next : Line}
    (hnext : next ∈ fullLines (b.before ++ skipped ++ line ++ stop).length rest) :
    b.before.length < next.start := by
  have hle := le_start (List.mem_filter.mp hnext).1
  have hpos := List.length_pos_of_ne_nil h.full
  simp only [List.length_append] at hle
  omega

/-- A recorded line at the saved pointer is the token. -/
theorem next_eq {next : Line} (hnext : (nextLines b n).head? = some next)
    (hstart : next.start = b.before.length) :
    next = ⟨b.before.length, line⟩ ∧ skipped = [] ∧ colonChar ∈ line ∧ n < maxHeaders := by
  have hmem := List.mem_of_mem_head? hnext
  have hcount : n < maxHeaders := by
    by_contra hle
    rw [nextLines, Nat.sub_eq_zero_of_le (Nat.not_lt.mp hle), List.take_zero] at hmem
    cases hmem
  obtain ⟨hfull, hcolon⟩ := List.mem_filter.mp (List.mem_of_mem_take hmem)
  rw [h.fullLines_eq] at hfull
  rcases List.mem_cons.mp hfull with heq | hlater
  · have hzero : skipped.length = 0 := by
      rw [heq] at hstart
      simp only at hstart
      omega
    have hnil := List.eq_nil_of_length_eq_zero hzero
    subst hnil
    rw [heq] at hcolon
    exact ⟨heq, rfl, hasColon_iff.mp hcolon, hcount⟩
  · exact absurd hstart (Nat.ne_of_gt (h.lt_start hlater))

theorem rest_ne_nil : b.rest ≠ [] := by
  intro hnil
  have hlen := h.length_eq
  have hpos := List.length_pos_of_ne_nil h.full
  rw [hnil, List.length_nil] at hlen
  omega

theorem size_eq : (b.before ++ skipped ++ line ++ stop).length + rest.length =
    b.before.length + b.rest.length := by
  have hlen := h.length_eq
  simp only [List.length_append]
  omega

theorem nextLines_skip (hskip : ¬(colonChar ∈ line ∧ n < maxHeaders)) :
    nextLines b n = nextLines ⟨b.before ++ skipped ++ line ++ stop, rest⟩ n := by
  by_cases hcolon : colonChar ∈ line
  · have hzero : maxHeaders - n = 0 :=
      Nat.sub_eq_zero_of_le (Nat.not_lt.mp fun hn => hskip ⟨hcolon, hn⟩)
    rw [nextLines, nextLines, hzero, List.take_zero, List.take_zero]
  · rw [nextLines, nextLines, h.fullLines_eq, List.filter_cons_of_neg]
    rwa [hasColon_iff]

/-- A line that is not recorded stays as it is. -/
theorem looped_skip (hskip : ¬(colonChar ∈ line ∧ n < maxHeaders)) (hnul : 0 ∉ b.rest)
    (hl : Looped ⟨b.before ++ skipped ++ line ++ stop, rest⟩ n out) :
    Looped b n (skipped ++ line ++ stop ++ out) := by
  have hnext := h.nextLines_skip hskip
  have hmem : b.before ++ (skipped ++ line ++ stop ++ out) =
      b.before ++ skipped ++ line ++ stop ++ out := by
    simp only [List.append_assoc]
  refine ⟨?_, ?_, ?_, ?_⟩
  · have hlen := h.length_eq
    have hout := hl.length
    simp only [List.length_append] at hout ⊢
    omega
  · constructor
    · intro hzero
      obtain ⟨c, l, hpassed⟩ : ∃ c l, skipped ++ line = c :: l := by
        refine List.exists_cons_of_ne_nil fun hnil => h.full (List.append_eq_nil_iff.mp hnil).2
      rw [hpassed] at hzero
      have hc : c ∈ skipped ++ line := hpassed ▸ List.mem_cons_self
      exact absurd (Option.some.inj hzero ▸ h.passed_mem hc) hnul
    · rintro (hnil | ⟨next, hhead, hstart, -⟩)
      · exact absurd hnil h.rest_ne_nil
      · exact absurd (h.next_eq hhead hstart).2.2 hskip
  · rw [hnext, hmem, ← h.size_eq]
    exact hl.reads
  · rw [hnext, hmem]
    exact hl.values

end Cut

/-- A line with a colon, around the first one. -/
theorem name_colon_text {l : List (BitVec 8)} (h : colonChar ∈ l) :
    l = headerName l ++ colonChar :: headerText l := by
  have hne : l.dropWhile (· ≠ colonChar) ≠ [] := by
    intro hnil
    have hall := List.dropWhile_eq_nil_iff.mp hnil colonChar h
    exact absurd rfl (of_decide_eq_true hall)
  obtain ⟨c, tail, heq⟩ := List.exists_cons_of_ne_nil hne
  have hc : c = colonChar := by
    have hhead := List.head?_dropWhile_not (fun c => decide (c ≠ colonChar)) l
    rw [heq] at hhead
    simpa using hhead
  have hsplit := List.takeWhile_append_dropWhile (p := (· ≠ colonChar)) (l := l)
  rw [heq, hc] at hsplit
  rw [headerName, headerText, heq, List.tail_cons]
  exact hsplit.symm

/-- The buffer with a zero over the colon. -/
theorem colon_zero (b : RequestBuffer) (skipped stop : List (BitVec 8))
    (hcolon : colonChar ∈ line) :
    (b.before ++ skipped ++ line ++ stop).set
        (b.before.length + skipped.length + (line.takeWhile (· ≠ colonChar)).length) 0 =
      b.before ++ skipped ++ (headerName line ++ 0 :: headerText line) ++ stop := by
  have hplace : b.before.length + skipped.length + (line.takeWhile (· ≠ colonChar)).length =
      (b.before ++ skipped ++ headerName line).length := by
    simp only [List.length_append, headerName]
  have hline : b.before ++ skipped ++ line ++ stop =
      b.before ++ skipped ++ headerName line ++ colonChar :: (headerText line ++ stop) := by
    conv_lhs => rw [name_colon_text hcolon]
    simp only [List.append_assoc, List.cons_append]
  rw [hplace, hline, List.set_append_right _ _ (Nat.le_refl _), Nat.sub_self]
  simp only [List.set_cons_zero, List.append_assoc, List.cons_append]

theorem length_zeroed (hcolon : colonChar ∈ line) :
    (headerName line ++ 0 :: headerText line).length = line.length := by
  have hlen := congrArg List.length (name_colon_text hcolon)
  simp only [List.length_append, List.length_cons] at hlen ⊢
  exact hlen.symm

/-- The zero takes the place of the colon. -/
theorem length_zeroed_buffer (b : RequestBuffer) (skipped stop : List (BitVec 8))
    (hcolon : colonChar ∈ line) :
    (b.before ++ skipped ++ (headerName line ++ 0 :: headerText line) ++ stop).length =
      (b.before ++ skipped ++ line ++ stop).length := by
  have hlen := length_zeroed hcolon
  simp only [List.length_append] at hlen ⊢
  omega

namespace Cut

variable (h : Cut b skipped line stop rest)
include h

theorem nextLines_record (hcolon : colonChar ∈ line) (hn : n < maxHeaders) :
    nextLines b n = ⟨b.before.length + skipped.length, line⟩ :: nextLines
      ⟨b.before ++ skipped ++ (headerName line ++ 0 :: headerText line) ++ stop, rest⟩ (n + 1) := by
  have hbefore := length_zeroed_buffer b skipped stop hcolon
  have hcount : maxHeaders - n = maxHeaders - (n + 1) + 1 := by omega
  have hkeep : hasColon ⟨b.before.length + skipped.length, line⟩ = true :=
    hasColon_iff.mpr hcolon
  simp only [nextLines]
  rw [h.fullLines_eq, List.filter_cons_of_pos hkeep, hcount, List.take_succ_cons, hbefore]

/-- What stands behind a recorded line, after its zero. -/
theorem behind (hcolon : colonChar ∈ line)
    (hl : Looped ⟨b.before ++ skipped ++ (headerName line ++ 0 :: headerText line) ++ stop, rest⟩
      n out) :
    ∃ tail, stop ++ out = 0 :: tail ∧ (tail.head? = some 0 ↔
      b.before.length + skipped.length + line.length + 1 = b.before.length + b.rest.length ∨
        ∃ next, (nextLines
            ⟨b.before ++ skipped ++ (headerName line ++ 0 :: headerText line) ++ stop, rest⟩
              n).head? = some next ∧
          next.start = b.before.length + skipped.length + line.length + 1 ∧
          next.text.head? = some colonChar) := by
  have hlen := h.length_eq
  rcases h.ends with ⟨heq, rfl, rfl⟩ | ⟨rfl, c, -, heq⟩
  · have hout : out.length = 1 := hl.length
    have hhead : out.head? = some 0 := hl.head.mpr (Or.inl rfl)
    obtain ⟨tail, htail⟩ := List.head?_eq_some_iff.mp hhead
    have hnil : tail = [] := by
      rw [htail, List.length_cons] at hout
      exact List.eq_nil_of_length_eq_zero (Nat.succ.inj hout)
    refine ⟨[], by rw [List.nil_append, htail, hnil], iff_of_false nofun ?_⟩
    simp only [List.length_nil] at hlen
    rintro (hstop | ⟨next, hnext, -⟩)
    · omega
    · rw [nextLines, fullLines_nil, List.filter_nil, List.take_nil] at hnext
      cases hnext
  · refine ⟨out, rfl, ?_⟩
    have hbefore :
        (b.before ++ skipped ++ (headerName line ++ 0 :: headerText line) ++ [0]).length =
          b.before.length + skipped.length + line.length + 1 := by
      rw [length_zeroed_buffer b skipped [0] hcolon]
      simp only [List.length_append, List.length_singleton]
    have hrest : rest = [] ↔
        b.before.length + skipped.length + line.length + 1 = b.before.length + b.rest.length := by
      rw [← List.length_eq_zero_iff, hlen, List.length_singleton]
      omega
    have hhead := hl.head
    simp only [hbefore] at hhead
    rw [hhead, hrest]

/-- The zero over the colon is at the saved pointer when the line begins there with its colon. -/
theorem head_zero_iff (hcolon : colonChar ∈ line) (hn : n < maxHeaders) (hnul : 0 ∉ b.rest)
    (out : List (BitVec 8)) :
    (skipped ++ (headerName line ++ 0 :: headerText line) ++ stop ++ out).head? = some 0 ↔
      b.rest = [] ∨ ∃ next, (nextLines b n).head? = some next ∧ next.start = b.before.length ∧
        next.text.head? = some colonChar := by
  have hnext := h.nextLines_record hcolon hn
  have hzero : ∀ c ∈ skipped ++ line, c ≠ 0 := by
    rintro c hc rfl
    exact hnul (h.passed_mem hc)
  constructor
  · intro hhead
    cases hskipped : skipped with
    | cons c l =>
      rw [hskipped] at hhead
      have hc : c ∈ skipped ++ line := hskipped ▸ List.mem_cons_self
      exact absurd (Option.some.inj hhead) (hzero c hc)
    | nil =>
      rw [hskipped] at hhead hnext
      cases hname : headerName line with
      | cons d l =>
        rw [hname] at hhead
        have hd : d ∈ headerName line := hname ▸ List.mem_cons_self
        have hline := List.mem_append_right skipped ((List.takeWhile_sublist _).subset hd)
        exact absurd (Option.some.inj hhead) (hzero d hline)
      | nil =>
        refine Or.inr ⟨_, congrArg List.head? hnext, rfl, ?_⟩
        have hsplit := name_colon_text hcolon
        rw [hname] at hsplit
        exact congrArg List.head? hsplit
  · rintro (hnil | ⟨next, hhead, hstart, htext⟩)
    · exact absurd hnil h.rest_ne_nil
    · obtain ⟨rfl, rfl, -, -⟩ := h.next_eq hhead hstart
      obtain ⟨l, hl⟩ := List.head?_eq_some_iff.mp htext
      have hname : headerName line = [] := by
        simp only at hl
        rw [hl, headerName]
        rfl
      rw [hname]
      rfl

/-- A line that is recorded gets a zero over its colon. -/
theorem looped_record (hcolon : colonChar ∈ line) (hn : n < maxHeaders) (hnul : 0 ∉ b.rest)
    (hl : Looped ⟨b.before ++ skipped ++ (headerName line ++ 0 :: headerText line) ++ stop, rest⟩
      (n + 1) out) :
    Looped b n (skipped ++ (headerName line ++ 0 :: headerText line) ++ stop ++ out) := by
  have hnext := h.nextLines_record hcolon hn
  have hzeroed := length_zeroed hcolon
  have hlen := h.length_eq
  have hline : ∀ c ∈ line, c ≠ 0 := by
    rintro c hc rfl
    exact hnul (h.passed_mem (List.mem_append_right _ hc))
  have hmem : b.before ++ (skipped ++ (headerName line ++ 0 :: headerText line) ++ stop ++ out) =
      b.before ++ skipped ++ (headerName line ++ 0 :: headerText line) ++ stop ++ out := by
    simp only [List.append_assoc]
  obtain ⟨tail, htail, hbehind⟩ := h.behind hcolon hl
  have hplaced : Placed
      (b.before ++ skipped ++ (headerName line ++ 0 :: headerText line) ++ stop ++ out)
      ⟨b.before.length + skipped.length, line⟩ tail := by
    refine ⟨b.before ++ skipped, List.length_append, ?_⟩
    rw [List.append_assoc _ stop out, htail]
    simp only [List.append_assoc, List.cons_append]
  obtain ⟨hreads, hvalue⟩ := placed_reads hplaced hline
  have hsize : (b.before ++ skipped ++ (headerName line ++ 0 :: headerText line) ++ stop).length +
      rest.length = b.before.length + b.rest.length := by
    rw [length_zeroed_buffer b skipped stop hcolon, h.size_eq]
  refine ⟨?_, ?_, ?_, ?_⟩
  · have hout := hl.length
    rw [List.length_append, List.length_append, List.length_append, hzeroed, hout]
    simp only
    omega
  · exact h.head_zero_iff hcolon hn hnul _
  · rw [hnext, hmem, List.forall_mem_cons, WellSpaced, ← hsize, ← hl.reads, hreads, hbehind, hsize]
    rfl
  · rw [hnext, hmem]
    intro l hmem'
    rcases List.mem_cons.mp hmem' with rfl | hmem'
    · exact hvalue
    · exact hl.values l hmem'

end Cut

/-- **The loop over the lines** ends, records the next lines with a colon, and leaves what it has
passed. -/
theorem headerLoop_spec {rounds : Nat} {headers : List HttpHeader}
    (hrounds : b.rest.length < rounds) (hnul : 0 ∉ b.rest) :
    ∃ b' out, headerLoop rounds b headers =
        some (b', headers ++ (nextLines b headers.length).map headerOf) ∧
      b'.memory = b.before ++ out ∧ Looped b headers.length out := by
  induction rounds generalizing b headers with
  | zero => exact absurd hrounds (Nat.not_lt_zero _)
  | succ rounds ih =>
    rcases strtok_cases b with ⟨hnone, hbreaks⟩ | ⟨skipped, line, stop, rest, h⟩
    · refine ⟨b, b.rest ++ [0], ?_, rfl, looped_end hbreaks hnul⟩
      rw [headerLoop, hnone, nextLines_of_breaks hbreaks, List.map_nil, List.append_nil]
    · have hlen := h.length_eq
      have hpos := List.length_pos_of_ne_nil h.full
      have hrest : 0 ∉ rest := fun hmem => hnul (h.rest_mem hmem)
      have hleft : rest.length < rounds := by omega
      by_cases hrecord : colonChar ∈ line ∧ headers.length < maxHeaders
      · obtain ⟨b', out, hloop, hmem, hlooped⟩ := @ih
          ⟨b.before ++ skipped ++ (headerName line ++ 0 :: headerText line) ++ stop, rest⟩
          (headers ++ [headerOf ⟨b.before.length + skipped.length, line⟩]) hleft hrest
        have hcount : (headers ++ [headerOf ⟨b.before.length + skipped.length, line⟩]).length =
            headers.length + 1 := List.length_append
        rw [hcount] at hloop hlooped
        refine ⟨b', _, ?_, ?_, h.looped_record hrecord.1 hrecord.2 hnul hlooped⟩
        · rw [headerLoop, h.token]
          simp only
          rw [if_neg h.full, if_pos hrecord, colon_zero b skipped stop hrecord.1,
            h.nextLines_record hrecord.1 hrecord.2, List.map_cons,
            List.append_cons headers _ (List.map headerOf _)]
          exact hloop
        · rw [hmem]
          simp only [List.append_assoc]
      · obtain ⟨b', out, hloop, hmem, hlooped⟩ :=
          @ih ⟨b.before ++ skipped ++ line ++ stop, rest⟩ headers hleft hrest
        refine ⟨b', _, ?_, ?_, h.looped_skip hrecord hnul hlooped⟩
        · rw [headerLoop, h.token]
          simp only
          rw [if_neg h.full, if_neg hrecord, h.nextLines_skip hrecord]
          exact hloop
        · rw [hmem]
          simp only [List.append_assoc]

end Loop

end ArmKernel.Ws
