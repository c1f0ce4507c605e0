/-
The lines of a text, and its head.

A line ends with a carriage return, a line feed, or the two in this order. `lines` gives
every line with its place, the empty ones too. The head is what stands before the first
empty line: `headLines` are its lines, and `headText` is the text up to and including the
first empty line. The lines of the head are lines of that text (`headLines_headText`), so
texts that agree on it have the same ones.
-/
import Mathlib.Data.List.Nodup

namespace ArmKernel.Support

def cr : BitVec 8 := 13

def lf : BitVec 8 := 10

def isBreak (c : BitVec 8) : Bool := c = cr || c = lf

/-- A line, with the place of its first byte. -/
structure Line where
  start : Nat
  text : List (BitVec 8)
deriving DecidableEq

/-- The byte and the one behind it end a line together. -/
def IsPair (c : BitVec 8) (rest : List (BitVec 8)) : Prop := c = cr ∧ rest.head? = some lf

instance (c : BitVec 8) (rest : List (BitVec 8)) : Decidable (IsPair c rest) :=
  inferInstanceAs (Decidable (_ ∧ _))

/-- The text of the first line. -/
def firstText : List Line → List (BitVec 8)
  | [] => []
  | line :: _ => line.text

/-- The lines of a text that begins at `start`. A byte that ends no line stands in front of the
first line behind it. -/
def lines : Nat → List (BitVec 8) → List Line
  | _, [] => []
  | start, c :: rest =>
    let more := lines (start + 1) rest
    if IsPair c rest then ⟨start, []⟩ :: more.tail
    else if isBreak c then ⟨start, []⟩ :: more
    else ⟨start, c :: firstText more⟩ :: more.tail

def Line.isFull (line : Line) : Bool := line.text ≠ []

/-- The lines before the first empty line. -/
def headLines (text : List (BitVec 8)) : List Line := (lines 0 text).takeWhile Line.isFull

/-- The text up to and including the first empty line; `fresh` says that a line begins here. -/
def headFrom (fresh : Bool) : List (BitVec 8) → List (BitVec 8)
  | [] => []
  | c :: rest =>
    if IsPair c rest then c :: headFrom fresh rest
    else if isBreak c then c :: (if fresh then [] else headFrom true rest)
    else c :: headFrom false rest

def headText (text : List (BitVec 8)) : List (BitVec 8) := headFrom true text

/-- The lines that are not empty. -/
def fullLines (start : Nat) (text : List (BitVec 8)) : List Line :=
  (lines start text).filter Line.isFull

section Places

variable {start : Nat} {c : BitVec 8} {text rest : List (BitVec 8)} {line : Line}

theorem lines_pair (h : IsPair c rest) :
    lines start (c :: rest) = ⟨start, []⟩ :: (lines (start + 1) rest).tail := by
  rw [lines, if_pos h]

theorem lines_break (h : ¬IsPair c rest) (hc : isBreak c) :
    lines start (c :: rest) = ⟨start, []⟩ :: lines (start + 1) rest := by
  rw [lines, if_neg h, if_pos hc]

theorem not_isPair_of_plain (hc : ¬isBreak c) : ¬IsPair c rest := by
  rintro ⟨rfl, -⟩
  exact hc rfl

theorem lines_plain (hc : ¬isBreak c) :
    lines start (c :: rest) =
      ⟨start, c :: firstText (lines (start + 1) rest)⟩ :: (lines (start + 1) rest).tail := by
  rw [lines, if_neg (not_isPair_of_plain hc), if_neg hc]

/-- A line begins inside the text. -/
theorem le_start (h : line ∈ lines start text) : start ≤ line.start := by
  induction text generalizing start with
  | nil => cases h
  | cons c rest ih =>
    have hmore : line ∈ lines (start + 1) rest → start ≤ line.start :=
      fun h => Nat.le_trans (Nat.le_succ start) (ih h)
    unfold lines at h
    split at h
    · rcases List.mem_cons.mp h with rfl | h
      · exact Nat.le_refl _
      · exact hmore (List.mem_of_mem_tail h)
    split at h
    · rcases List.mem_cons.mp h with rfl | h
      · exact Nat.le_refl _
      · exact hmore h
    · rcases List.mem_cons.mp h with rfl | h
      · exact Nat.le_refl _
      · exact hmore (List.mem_of_mem_tail h)

/-- **The lines are in order.** -/
theorem lines_pairwise (start : Nat) (text : List (BitVec 8)) :
    (lines start text).Pairwise fun a b => a.start < b.start := by
  induction text generalizing start with
  | nil => exact List.Pairwise.nil
  | cons c rest ih =>
    have htail : (lines (start + 1) rest).tail.Pairwise fun a b => a.start < b.start :=
      (ih (start + 1)).sublist (List.tail_sublist _)
    unfold lines
    split
    · exact List.pairwise_cons.mpr ⟨fun line h => le_start (List.mem_of_mem_tail h), htail⟩
    split
    · exact List.pairwise_cons.mpr ⟨fun line h => le_start h, ih (start + 1)⟩
    · exact List.pairwise_cons.mpr ⟨fun line h => le_start (List.mem_of_mem_tail h), htail⟩

/-- A line is known by its place. -/
theorem eq_of_start_eq {a b : Line} (ha : a ∈ lines start text) (hb : b ∈ lines start text)
    (h : a.start = b.start) : a = b := by
  have hstarts : ((lines start text).map Line.start).Nodup :=
    List.pairwise_map.mpr ((lines_pairwise start text).imp Nat.ne_of_lt)
  exact List.inj_on_of_nodup_map hstarts ha hb h

/-- The end of a line adds no full line. -/
theorem fullLines_break (hc : isBreak c) :
    fullLines start (c :: rest) = fullLines (start + 1) rest := by
  have hempty : ∀ start, Line.isFull ⟨start, []⟩ = false := fun _ => rfl
  rw [fullLines, fullLines]
  by_cases hpair : IsPair c rest
  · rw [lines_pair hpair, List.filter_cons_of_neg (by rw [hempty]; exact Bool.false_ne_true)]
    obtain ⟨rest', rfl⟩ := List.head?_eq_some_iff.mp hpair.2
    have hlf : ¬IsPair lf rest' := fun h => absurd h.1 (by decide)
    rw [lines_break hlf rfl, List.tail_cons,
      List.filter_cons_of_neg (by rw [hempty]; exact Bool.false_ne_true)]
  · rw [lines_break hpair hc, List.filter_cons_of_neg (by rw [hempty]; exact Bool.false_ne_true)]

theorem fullLines_breaks (l : List (BitVec 8)) (hl : ∀ x ∈ l, isBreak x) :
    fullLines start (l ++ rest) = fullLines (start + l.length) rest := by
  induction l generalizing start with
  | nil => rfl
  | cons c l ih =>
    rw [List.cons_append, fullLines_break (hl c List.mem_cons_self),
      ih fun d hd => hl d (List.mem_cons_of_mem c hd), List.length_cons, Nat.add_assoc,
      Nat.add_comm 1]

theorem lines_append (l : List (BitVec 8)) (hl : ∀ x ∈ l, ¬isBreak x) (hne : l ≠ []) :
    lines start (l ++ rest) =
      ⟨start, l ++ firstText (lines (start + l.length) rest)⟩ ::
        (lines (start + l.length) rest).tail := by
  induction l generalizing start with
  | nil => exact absurd rfl hne
  | cons c l ih =>
    have hc : ¬isBreak c := hl c List.mem_cons_self
    rw [List.cons_append, lines_plain hc]
    cases l with
    | nil => rfl
    | cons d l =>
      rw [ih (fun x hx => hl x (List.mem_cons_of_mem _ hx)) (List.cons_ne_nil d l), firstText,
        List.tail_cons, List.length_cons (a := c), Nat.add_assoc, Nat.add_comm 1]
      rfl

/-- **A full line**, in front of what ends it. -/
theorem fullLines_append {l : List (BitVec 8)} (hl : ∀ x ∈ l, ¬isBreak x) (hne : l ≠ [])
    (hrest : ∀ c ∈ rest.head?, isBreak c) :
    fullLines start (l ++ rest) = ⟨start, l⟩ :: fullLines (start + l.length) rest := by
  have hfull : Line.isFull ⟨start, l⟩ = true := decide_eq_true hne
  rw [fullLines, fullLines, lines_append l hl hne]
  cases rest with
  | nil =>
    rw [lines, firstText, List.append_nil, List.filter_cons_of_pos hfull]
    rfl
  | cons c rest =>
    have hempty : ∀ start, Line.isFull ⟨start, []⟩ = false := fun _ => rfl
    obtain ⟨more, hmore⟩ : ∃ more, lines (start + l.length) (c :: rest) =
        ⟨start + l.length, []⟩ :: more := by
      by_cases hpair : IsPair c rest
      · exact ⟨_, lines_pair hpair⟩
      · exact ⟨_, lines_break hpair (hrest c rfl)⟩
    rw [hmore, firstText, List.append_nil, List.tail_cons, List.filter_cons_of_pos hfull,
      List.filter_cons_of_neg (by rw [hempty]; exact Bool.false_ne_true)]

end Places

section Head

variable {start : Nat}

theorem headFrom_head? (fresh : Bool) (text : List (BitVec 8)) :
    (headFrom fresh text).head? = text.head? := by
  cases text with
  | nil => rfl
  | cons c rest =>
    rw [headFrom]
    split
    · rfl
    split
    · rfl
    · rfl

/-- The two parts of a text see the same ends of lines. -/
theorem isPair_headFrom (fresh : Bool) (c : BitVec 8) (rest : List (BitVec 8)) :
    IsPair c (headFrom fresh rest) ↔ IsPair c rest := by
  rw [IsPair, IsPair, headFrom_head?]

/-- The text of the head has the lines of the head: from the beginning of a line, and from the
middle of one, which ends alike. -/
theorem lines_headFrom (start : Nat) (text : List (BitVec 8)) :
    (lines start (headFrom true text)).takeWhile Line.isFull =
        (lines start text).takeWhile Line.isFull ∧
      firstText (lines start (headFrom false text)) = firstText (lines start text) ∧
      (lines start (headFrom false text)).tail.takeWhile Line.isFull =
        (lines start text).tail.takeWhile Line.isFull := by
  induction text generalizing start with
  | nil => exact ⟨rfl, rfl, rfl⟩
  | cons c rest ih =>
    obtain ⟨hfresh, hfirst, htail⟩ := ih (start + 1)
    have hempty : Line.isFull ⟨start, []⟩ = false := rfl
    by_cases hpair : IsPair c rest
    · have hpair' : ∀ fresh, IsPair c (headFrom fresh rest) :=
        fun fresh => (isPair_headFrom fresh c rest).mpr hpair
      have hhead : ∀ fresh, headFrom fresh (c :: rest) = c :: headFrom fresh rest := by
        intro fresh
        rw [headFrom, if_pos hpair]
      rw [hhead, hhead, lines_pair (hpair' true), lines_pair (hpair' false), lines_pair hpair]
      refine ⟨?_, rfl, htail⟩
      rw [List.takeWhile_cons_of_neg (by rw [hempty]; exact Bool.false_ne_true),
        List.takeWhile_cons_of_neg (by rw [hempty]; exact Bool.false_ne_true)]
    by_cases hbreak : isBreak c
    · have hhead : ∀ fresh, headFrom fresh (c :: rest) =
          c :: (if fresh then [] else headFrom true rest) := by
        intro fresh
        rw [headFrom, if_neg hpair, if_pos hbreak]
      have hlast : ¬IsPair c [] := fun h => nomatch h.2
      have hpair' : ¬IsPair c (headFrom true rest) :=
        fun h => hpair ((isPair_headFrom true c rest).mp h)
      rw [hhead, hhead, if_pos rfl, if_neg Bool.false_ne_true, lines_break hlast hbreak,
        lines_break hpair' hbreak, lines_break hpair hbreak]
      refine ⟨?_, rfl, hfresh⟩
      rw [List.takeWhile_cons_of_neg (by rw [hempty]; exact Bool.false_ne_true),
        List.takeWhile_cons_of_neg (by rw [hempty]; exact Bool.false_ne_true)]
    · have hhead : ∀ fresh, headFrom fresh (c :: rest) = c :: headFrom false rest := by
        intro fresh
        rw [headFrom, if_neg hpair, if_neg hbreak]
      have hfull : Line.isFull ⟨start, c :: firstText (lines (start + 1) rest)⟩ = true := rfl
      rw [hhead, hhead, lines_plain hbreak, lines_plain hbreak, hfirst]
      refine ⟨?_, rfl, htail⟩
      rw [List.takeWhile_cons_of_pos hfull, List.takeWhile_cons_of_pos hfull, htail]

/-- **The head decides its lines.** -/
theorem headLines_headText (text : List (BitVec 8)) : headLines (headText text) = headLines text :=
  (lines_headFrom 0 text).1

theorem headLines_congr {text text' : List (BitVec 8)} (h : headText text = headText text') :
    headLines text = headLines text' := by
  rw [← headLines_headText text, h, headLines_headText]

end Head

end ArmKernel.Support
