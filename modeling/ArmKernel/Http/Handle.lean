/-
Client handles and their options (`src/mcurl.c`).

A handle is a block, and so is each string option that is set; `mcurl_setopt_string` frees the old
string and keeps a copy of the new one. `curlStep` runs the calls of any number of handles on one
heap, with an allocator that may fail at any call; it is `none` when a block is used after it is
freed, or freed twice.

* `setoptString_spec`, `updateHandle_spec`, `mcurlCleanup_spec`: what a call does to the blocks.
* `handles_refine`: hence every run on handles that are open is defined, and the options in memory
  are what the calls say, but that a string that could not be copied is not set although the call
  succeeds. When all handles are cleaned up, no block is left.
-/
import ArmKernel.Http.Request
import ArmKernel.Support.Heap
import ArmKernel.Support.Simulation

namespace ArmKernel.Http

open ArmKernel.Support

/-! ### Options -/

/-- `mcurl_ssl_version_t`. -/
inductive SslVersion where
  | any
  | tlsv1
  | tlsv1_1
  | tlsv1_2
  | tlsv1_3

/-- The members of `mcurl_options_t` that are no pointers, less those of the proxy, which nothing
sets. -/
structure Settings where
  method : Method
  sslVersion : SslVersion
  verifySsl : Bool
  connectTimeout : Int
  timeout : Int
  followLocation : Bool
  maxRedirects : Int
  verbose : Bool

/-- The defaults of `mcurl_init`. -/
def Settings.initial : Settings where
  method := .get
  sslVersion := .any
  verifySsl := true
  connectTimeout := 30
  timeout := 300
  followLocation := true
  maxRedirects := 50
  verbose := false

inductive LongOption where
  | connectTimeout
  | timeout
  | followLocation
  | maxRedirects
  | verifySsl
  | verbose

inductive StringOption where
  | proxyHost
  | proxyUser
  | proxyPass
  | caPath
  | clientCert
  | clientKey
  | userAgent
  | cookie
  deriving DecidableEq

inductive PointerOption where
  | progressCallback
  | progressData
  | writeCallback
  | writeData
  | readCallback
  | readData
  deriving DecidableEq

/-- The order of `mcurl_cleanup`, and of the comparisons of `mcurl_setopt_string`. -/
def StringOption.all : List StringOption :=
  [.proxyHost, .proxyUser, .proxyPass, .caPath, .clientCert, .clientKey, .userAgent, .cookie]

def StringOption.name : StringOption → List (BitVec 8)
  | proxyHost => ascii "PROXY"
  | proxyUser => ascii "PROXY_USER"
  | proxyPass => ascii "PROXY_PASS"
  | caPath => ascii "CA_PATH"
  | clientCert => ascii "CLIENT_CERT"
  | clientKey => ascii "CLIENT_KEY"
  | userAgent => ascii "USER_AGENT"
  | cookie => ascii "COOKIE"

/-- The comparisons of `mcurl_setopt_string`. -/
def StringOption.ofName (option : List (BitVec 8)) : Option StringOption :=
  all.find? fun o => decide (o.name = option)

/-- The comparisons of `mcurl_setopt_long`. -/
def LongOption.ofName (option : List (BitVec 8)) : Option LongOption :=
  if option = ascii "CONNECT_TIMEOUT" then some .connectTimeout
  else if option = ascii "TIMEOUT" then some .timeout
  else if option = ascii "FOLLOW_LOCATION" then some .followLocation
  else if option = ascii "MAX_REDIRECTS" then some .maxRedirects
  else if option = ascii "VERIFY_SSL" then some .verifySsl
  else if option = ascii "VERBOSE" then some .verbose
  else none

def LongOption.set (s : Settings) (value : Int) : LongOption → Settings
  | connectTimeout => { s with connectTimeout := value }
  | timeout => { s with timeout := value }
  | followLocation => { s with followLocation := decide (value ≠ 0) }
  | maxRedirects => { s with maxRedirects := value }
  | verifySsl => { s with verifySsl := decide (value ≠ 0) }
  | verbose => { s with verbose := decide (value ≠ 0) }

/-- The comparisons of `mcurl_setopt_pointer`. -/
def PointerOption.ofName (option : List (BitVec 8)) : Option PointerOption :=
  if option = ascii "PROGRESS_CALLBACK" then some .progressCallback
  else if option = ascii "PROGRESS_DATA" then some .progressData
  else if option = ascii "WRITE_CALLBACK" then some .writeCallback
  else if option = ascii "WRITE_DATA" then some .writeData
  else if option = ascii "READ_CALLBACK" then some .readCallback
  else if option = ascii "READ_DATA" then some .readData
  else none

/-! ### Handles in memory -/

/-- `mcurl_handle`, less the text of the error, which nothing writes. -/
structure HandleBlock where
  settings : Settings
  strings : StringOption → Nat
  headers : Nat
  pointers : PointerOption → Nat

/-- What a block holds: a handle, an `mcurl_header_t`, or a string without its NUL. -/
inductive CurlBlock where
  | handle (b : HandleBlock)
  | header (name value next : Nat)
  | text (s : List (BitVec 8))

/-- `MCURL_ERROR_INIT`. -/
def mcurlErrorInit : Int := -1

section Code

variable (A : Allocator CurlBlock) (h : Heap CurlBlock)

/-- `*curl`. -/
def loadHandle (curl : Nat) : Option HandleBlock :=
  match h.load curl with
  | some (.handle b) => some b
  | _ => none

/-- `*header`: name, value and next. -/
def loadHeader (header : Nat) : Option (Nat × Nat × Nat) :=
  match h.load header with
  | some (.header name value next) => some (name, value, next)
  | _ => none

/-- The string at `p`. -/
def loadString (p : Nat) : Option (List (BitVec 8)) :=
  match h.load p with
  | some (.text s) => some s
  | _ => none

/-- `mcurl_init`. -/
def mcurlInit : Option Nat × Heap CurlBlock :=
  h.malloc A (.handle ⟨.initial, fun _ => 0, 0, fun _ => 0⟩)

/-- An assignment to members of the handle, and the end of an `mcurl_setopt` function. -/
def updateHandle (curl : Nat) (f : HandleBlock → HandleBlock) : Option (Int × Heap CurlBlock) :=
  (loadHandle h curl).bind fun b => (h.store curl (.handle (f b))).map fun h => (mcurlOk, h)

/-- `mcurl_setopt_long`. -/
def setoptLong (curl : Nat) (option : Option (List (BitVec 8))) (value : Int) :
    Option (Int × Heap CurlBlock) :=
  if curl = 0 then some (mcurlErrorInit, h)
  else match option.bind LongOption.ofName with
    | none => some (mcurlErrorInit, h)
    | some o => updateHandle h curl fun b => { b with settings := o.set b.settings value }

/-- `mcurl_setopt_string`: the assignment of the new string. -/
def assignString (curl : Nat) (o : StringOption) (p : Nat) : Option (Int × Heap CurlBlock) :=
  updateHandle h curl fun b => { b with strings := Function.update b.strings o p }

/-- `mcurl_setopt_string`. -/
def setoptString (curl : Nat) (option : Option (List (BitVec 8))) (value : Nat) :
    Option (Int × Heap CurlBlock) :=
  if curl = 0 then some (mcurlErrorInit, h)
  else match option.bind StringOption.ofName with
    | none => some (mcurlErrorInit, h)
    | some o =>
      (loadHandle h curl).bind fun b =>
        (h.free (b.strings o)).bind fun h =>
          if value = 0 then assignString h curl o 0
          else (loadString h value).bind fun s =>
            match h.malloc A (.text s) with
            | (none, h) => assignString h curl o 0
            | (some p, h) => assignString h curl o p

/-- `mcurl_setopt_pointer`. -/
def setoptPointer (curl : Nat) (option : Option (List (BitVec 8))) (value : Nat) :
    Option (Int × Heap CurlBlock) :=
  if curl = 0 then some (mcurlErrorInit, h)
  else match option.bind PointerOption.ofName with
    | none => some (mcurlErrorInit, h)
    | some o =>
      updateHandle h curl fun b => { b with pointers := Function.update b.pointers o value }

/-- `mcurl_cleanup`: the string options. -/
def freeStrings (curl : Nat) : Heap CurlBlock → List StringOption → Option (Heap CurlBlock)
  | h, [] => some h
  | h, o :: os =>
    (loadHandle h curl).bind fun b => (h.free (b.strings o)).bind fun h => freeStrings curl h os

/-- `mcurl_cleanup`: the loop over the headers, in `rounds` passes. -/
def freeHeaders : (rounds : Nat) → Heap CurlBlock → (header : Nat) → Option (Heap CurlBlock)
  | 0, _, _ => none
  | rounds + 1, h, header =>
    if header = 0 then some h
    else
      (loadHeader h header).bind fun (name, value, next) =>
        (h.free name).bind fun h =>
          (h.free value).bind fun h =>
            (h.free header).bind fun h => freeHeaders rounds h next

/-- `mcurl_cleanup`. -/
def mcurlCleanup (rounds curl : Nat) : Option (Heap CurlBlock) :=
  if curl = 0 then some h
  else
    (freeStrings curl h StringOption.all).bind fun h =>
      (loadHandle h curl).bind fun b =>
        (freeHeaders rounds h b.headers).bind fun h => h.free curl

end Code

/-! ### What a handle owns -/

/-- A handle with its strings. No function of the interface sets a header. -/
structure Place where
  ptr : Nat
  settings : Settings
  strings : StringOption → Option (Nat × List (BitVec 8))
  pointers : PointerOption → Nat

/-- The string of an option, in memory. -/
def textCells (t : Option (Nat × List (BitVec 8))) : List (Nat × CurlBlock) :=
  t.toList.map fun t => (t.1, .text t.2)

/-- The strings of a list of options, in memory. -/
def stringCells (strings : StringOption → Option (Nat × List (BitVec 8)))
    (os : List StringOption) : List (Nat × CurlBlock) :=
  os.flatMap fun o => textCells (strings o)

def ptrOf (t : Option (Nat × List (BitVec 8))) : Nat := t.elim 0 Prod.fst

def Place.block (pl : Place) : HandleBlock :=
  ⟨pl.settings, fun o => ptrOf (pl.strings o), 0, pl.pointers⟩

/-- The blocks of a handle. -/
def Place.cells (pl : Place) : List (Nat × CurlBlock) :=
  (pl.ptr, .handle pl.block) :: stringCells pl.strings StringOption.all

/-- What a handle says. -/
structure Contents where
  settings : Settings
  texts : StringOption → Option (List (BitVec 8))
  pointers : PointerOption → Nat

def Place.contents (pl : Place) : Contents :=
  ⟨pl.settings, fun o => (pl.strings o).map Prod.snd, pl.pointers⟩

namespace Contents

variable (c : Contents)

def setLong (option : Option (List (BitVec 8))) (value : Int) : Int × Contents :=
  match option.bind LongOption.ofName with
  | none => (mcurlErrorInit, c)
  | some o => (mcurlOk, { c with settings := o.set c.settings value })

/-- `copied` is the copy of the value, when there is one. -/
def setString (option copied : Option (List (BitVec 8))) : Int × Contents :=
  match option.bind StringOption.ofName with
  | none => (mcurlErrorInit, c)
  | some o => (mcurlOk, { c with texts := Function.update c.texts o copied })

def setPointer (option : Option (List (BitVec 8))) (value : Nat) : Int × Contents :=
  match option.bind PointerOption.ofName with
  | none => (mcurlErrorInit, c)
  | some o => (mcurlOk, { c with pointers := Function.update c.pointers o value })

end Contents

section Strings

variable {strings : StringOption → Option (Nat × List (BitVec 8))} {o : StringOption}

end Strings

/-! ### What a call does to the blocks -/

section Calls

variable {A : Allocator CurlBlock} {h : Heap CurlBlock} {own others : List (Nat × CurlBlock)}
  {rest : Nat → Option CurlBlock} {pl : Place} {b : HandleBlock} {curl rounds : Nat}

theorem loadHandle_of_holds (hh : h.Holds ((curl, .handle b) :: own) rest) :
    loadHandle h curl = some b := by
  rw [loadHandle, hh.load List.mem_cons_self]

/-- `free` of the string of an option. -/
theorem free_textCells {t : Option (Nat × List (BitVec 8))}
    (hh : h.Holds (textCells t ++ own) rest) :
    ∃ h', h.free (ptrOf t) = some h' ∧ h'.Holds own rest := by
  cases t with
  | none => exact ⟨h, h.free_null, hh⟩
  | some t => exact hh.free

/-- The value of a string option: `NULL`, or a string of the caller. -/
def valueText (rest : Nat → Option CurlBlock) (value : Nat) : Option (List (BitVec 8)) :=
  match rest value with
  | some (.text s) => if value = 0 then none else some s
  | _ => none

/-- The call on a handle that is there has a result, and leaves a handle in its place. -/
def Serves (rest : Nat → Option CurlBlock) (others : List (Nat × CurlBlock))
    (pl : Place) (result : Option (Int × Heap CurlBlock)) (meaning : Int × Contents) : Prop :=
  ∃ (h' : Heap CurlBlock) (pl' : Place), result = some (meaning.1, h') ∧ pl'.ptr = pl.ptr ∧
    pl'.contents = meaning.2 ∧ h'.Holds (pl'.cells ++ others) rest

theorem Place.ptr_ne_zero (hh : h.Holds (pl.cells ++ others) rest) : pl.ptr ≠ 0 :=
  hh.ne_zero List.mem_cons_self

/-- The string options are freed, each once. -/
theorem freeStrings_spec (os : List StringOption)
    (hh : h.Holds ((pl.ptr, .handle pl.block) :: (stringCells pl.strings os ++ others)) rest) :
    ∃ h', freeStrings pl.ptr h os = some h' ∧
      h'.Holds ((pl.ptr, .handle pl.block) :: others) rest := by
  induction os generalizing h with
  | nil => exact ⟨h, rfl, hh⟩
  | cons o os ih =>
    have hsplit : h.Holds (textCells (pl.strings o) ++ ((pl.ptr, .handle pl.block) ::
        (stringCells pl.strings os ++ others))) rest := by
      refine hh.perm (List.Perm.trans ?_ List.perm_middle.symm)
      rw [stringCells, List.flatMap_cons, List.append_assoc]
      exact .refl _
    obtain ⟨h₁, hfree, hh₁⟩ := free_textCells hsplit
    obtain ⟨h', hrest, hh'⟩ := ih hh₁
    refine ⟨h', ?_, hh'⟩
    rw [freeStrings, loadHandle_of_holds hh, Option.bind_some]
    show Option.bind (h.free (ptrOf (pl.strings o))) _ = _
    rw [hfree, Option.bind_some]
    exact hrest

/-- **`mcurl_cleanup`** frees the handle and its strings. -/
theorem mcurlCleanup_spec (hh : h.Holds (pl.cells ++ others) rest) :
    ∃ h', mcurlCleanup h (rounds + 1) pl.ptr = some h' ∧ h'.Holds others rest := by
  obtain ⟨h₁, hstrings, hh₁⟩ := freeStrings_spec StringOption.all hh
  obtain ⟨h₂, hfree, hh₂⟩ := hh₁.free
  refine ⟨h₂, ?_, hh₂⟩
  rw [mcurlCleanup, if_neg (Place.ptr_ne_zero hh), hstrings, Option.bind_some,
    loadHandle_of_holds hh₁, Option.bind_some]
  exact hfree

end Calls

/-! ### Runs -/

/-- The calls of the interface. -/
inductive CurlCall where
  | init
  | setLong (curl : Nat) (option : Option (List (BitVec 8))) (value : Int)
  | setString (curl : Nat) (option : Option (List (BitVec 8))) (value : Nat)
  | setPointer (curl : Nat) (option : Option (List (BitVec 8))) (value : Nat)
  | cleanup (curl : Nat)

/-- The heap, the handles that are open, and what the calls returned, the latest first. -/
structure CurlState where
  heap : Heap CurlBlock
  handles : List Nat
  log : List Int

/-- A call with a result. -/
def CurlState.logged (s : CurlState) (result : Option (Int × Heap CurlBlock)) : Option CurlState :=
  result.map fun r => { s with heap := r.2, log := r.1 :: s.log }

/-- A cleanup frees at most `rounds` headers. -/
def curlStep (A : Allocator CurlBlock) (rounds : Nat) (s : CurlState) : CurlCall → Option CurlState
  | .init =>
    match mcurlInit A s.heap with
    | (none, heap) => some { s with heap }
    | (some p, heap) => some { s with heap, handles := p :: s.handles }
  | .setLong curl option value => s.logged (setoptLong s.heap curl option value)
  | .setString curl option value => s.logged (setoptString A s.heap curl option value)
  | .setPointer curl option value => s.logged (setoptPointer s.heap curl option value)
  | .cleanup curl =>
    (mcurlCleanup s.heap rounds curl).map fun heap =>
      { s with heap, handles := s.handles.erase curl }

/-- The handle of a call is open or `NULL`, and the value of a string option is `NULL` or a string
of the caller, which is in none of the blocks of the handles. -/
def CurlCall.Allowed (rest : Nat → Option CurlBlock) (s : CurlState) : CurlCall → Prop
  | .init => True
  | .setLong curl _ _ | .setPointer curl _ _ | .cleanup curl => curl = 0 ∨ curl ∈ s.handles
  | .setString curl _ value =>
    (curl = 0 ∨ curl ∈ s.handles) ∧ (value = 0 ∨ (valueText rest value).isSome)

instance (rest : Nat → Option CurlBlock) (s : CurlState) :
    (call : CurlCall) → Decidable (call.Allowed rest s)
  | .init => .isTrue trivial
  | .setLong .. | .setPointer .. | .cleanup _ => inferInstanceAs (Decidable (_ ∨ _))
  | .setString .. => inferInstanceAs (Decidable (_ ∧ _))

/-- What the allocator chose: the block of a new handle, or the copy of a string. -/
inductive CurlChoice where
  | none
  | handle (p : Option Nat)
  | copy (copied : Option (List (BitVec 8)))

/-- The handles without a heap. -/
structure CurlModel where
  handles : Nat → Option Contents
  log : List Int

/-- A call that sets an option. -/
def CurlModel.serve (t : CurlModel) (curl : Nat) (f : Contents → Int × Contents) :
    Option CurlModel :=
  if curl = 0 then some { t with log := mcurlErrorInit :: t.log }
  else (t.handles curl).map fun c =>
    { handles := Function.update t.handles curl (some (f c).2), log := (f c).1 :: t.log }

def modelStep (rest : Nat → Option CurlBlock) (t : CurlModel) :
    CurlCall × CurlChoice → Option CurlModel
  | (.init, .handle p) =>
    match p with
    | none => some t
    | some p =>
      if (t.handles p).isNone then
        some { t with handles := Function.update t.handles p
                        (some ⟨.initial, fun _ => none, fun _ => 0⟩) }
      else none
  | (.setLong curl option value, .none) => t.serve curl fun c => c.setLong option value
  | (.setString curl option value, .copy copied) =>
    if copied = none ∨ copied = valueText rest value then
      t.serve curl fun c => c.setString option copied
    else none
  | (.setPointer curl option value, .none) => t.serve curl fun c => c.setPointer option value
  | (.cleanup curl, .none) =>
    if curl = 0 then some t
    else (t.handles curl).map fun _ => { t with handles := Function.update t.handles curl none }
  | _ => none

/-- The blocks of all handles. -/
def layoutCells (layout : List Place) : List (Nat × CurlBlock) := layout.flatMap Place.cells

/-- The heap has the handles of the model, and nothing else but the `rest`. -/
structure Represents (rest : Nat → Option CurlBlock) (s : CurlState) (t : CurlModel)
    (layout : List Place) : Prop where
  log : s.log = t.log
  handles : s.handles.Perm (layout.map Place.ptr)
  listed : ∀ pl ∈ layout, t.handles pl.ptr = some pl.contents
  unlisted : ∀ p, p ∉ layout.map Place.ptr → t.handles p = none
  heap : s.heap.Holds (layoutCells layout) rest

section Runs

variable {A : Allocator CurlBlock} {rest : Nat → Option CurlBlock} {s : CurlState} {t : CurlModel}
  {layout : List Place} {pl : Place} {curl rounds : Nat}

theorem mem_layoutCells {p : Nat} (h : p ∈ layout.map Place.ptr) :
    p ∈ (layoutCells layout).map Prod.fst := by
  obtain ⟨pl, hpl, rfl⟩ := List.mem_map.mp h
  have hmem : (pl.ptr, CurlBlock.handle pl.block) ∈ layoutCells layout :=
    List.mem_flatMap.mpr ⟨pl, hpl, List.mem_cons_self⟩
  exact List.mem_map_of_mem hmem

/-- An open handle stands at the head of a layout. -/
theorem Represents.focus (h : Represents rest s t layout) (hopen : curl ∈ s.handles) :
    ∃ pl layout', pl.ptr = curl ∧ Represents rest s t (pl :: layout') := by
  obtain ⟨pl, hpl, rfl⟩ := List.mem_map.mp (h.handles.mem_iff.mp hopen)
  obtain ⟨before, after, rfl⟩ := List.append_of_mem hpl
  have hperm : (before ++ pl :: after).Perm (pl :: (before ++ after)) := List.perm_middle
  exact ⟨pl, before ++ after, rfl, h.log, h.handles.trans (hperm.map _),
    fun x hx => h.listed x (hperm.mem_iff.mpr hx),
    fun p hp => h.unlisted p fun hmem => hp ((hperm.map _).mem_iff.mp hmem),
    h.heap.perm (hperm.flatMap_right _)⟩

/-- No other handle has the block of the first. -/
theorem ptr_not_mem {h : Heap CurlBlock} (own : List (Nat × CurlBlock)) {p : Nat} {b : CurlBlock}
    (hh : h.Holds ((p, b) :: (own ++ layoutCells layout)) rest) : p ∉ layout.map Place.ptr := by
  intro hmem
  have hnodup := hh.nodup
  rw [List.map_cons, List.nodup_cons] at hnodup
  refine hnodup.1 ?_
  rw [List.map_append]
  exact List.mem_append_right _ (mem_layoutCells hmem)

theorem Represents.not_mem (h : Represents rest s t (pl :: layout)) :
    pl.ptr ∉ layout.map Place.ptr := ptr_not_mem _ h.heap

theorem Represents.front (h : Represents rest s t (pl :: layout)) :
    s.heap.Holds (pl.cells ++ layoutCells layout) rest := h.heap

theorem Represents.ne_of_mem (h : Represents rest s t (pl :: layout)) {x : Place}
    (hx : x ∈ layout) : x.ptr ≠ pl.ptr :=
  fun heq => h.not_mem (heq ▸ List.mem_map_of_mem hx)

/-- A new handle. -/
theorem Represents.opened {heap : Heap CurlBlock} {p : Nat} (h : Represents rest s t layout)
    (hheap : heap.Holds ((p, .handle ⟨.initial, fun _ => 0, 0, fun _ => 0⟩) :: layoutCells layout)
      rest) :
    ∃ t' layout', modelStep rest t (.init, .handle (some p)) = some t' ∧
      Represents rest { s with heap, handles := p :: s.handles } t' layout' := by
  have hnew : p ∉ layout.map Place.ptr := ptr_not_mem [] hheap
  refine ⟨{ t with
      handles := Function.update t.handles p (some ⟨.initial, fun _ => none, fun _ => 0⟩) },
    ⟨p, .initial, fun _ => none, fun _ => 0⟩ :: layout, ?_, h.log, h.handles.cons p, ?_, ?_, hheap⟩
  · refine if_pos ?_
    rw [h.unlisted p hnew]
    rfl
  · intro x hx
    rcases List.mem_cons.mp hx with rfl | hx
    · exact Function.update_self ..
    · have hne : x.ptr ≠ p := fun heq => hnew (heq ▸ List.mem_map_of_mem hx)
      exact (Function.update_of_ne hne ..).trans (h.listed x hx)
  · intro q hq
    have hne : q ≠ p := fun heq => hq (heq ▸ List.mem_cons_self)
    exact (Function.update_of_ne hne ..).trans
      (h.unlisted q fun hmem => hq (List.mem_cons_of_mem _ hmem))

/-- A handle is cleaned up. -/
theorem Represents.closed (h : Represents rest s t (pl :: layout)) :
    ∃ s' t', curlStep A (rounds + 1) s (.cleanup pl.ptr) = some s' ∧
      modelStep rest t (.cleanup pl.ptr, .none) = some t' ∧ Represents rest s' t' layout := by
  obtain ⟨heap, hcleanup, hheap⟩ :=
    @mcurlCleanup_spec s.heap (layoutCells layout) rest pl rounds h.heap
  have hne : pl.ptr ≠ 0 := h.heap.ne_zero List.mem_cons_self
  refine ⟨{ s with heap, handles := s.handles.erase pl.ptr },
    { t with handles := Function.update t.handles pl.ptr none }, ?_, ?_, h.log, ?_, ?_, ?_, hheap⟩
  · rw [curlStep, hcleanup]
    rfl
  · rw [modelStep, if_neg hne, h.listed pl List.mem_cons_self]
    rfl
  · have herase := h.handles.erase pl.ptr
    rwa [List.map_cons, List.erase_cons_head] at herase
  · intro x hx
    exact (Function.update_of_ne (h.ne_of_mem hx) ..).trans
      (h.listed x (List.mem_cons_of_mem _ hx))
  · intro p hp
    by_cases heq : p = pl.ptr
    · exact heq ▸ Function.update_self ..
    · refine (Function.update_of_ne heq ..).trans (h.unlisted p ?_)
      exact fun hmem => (List.mem_cons.mp hmem).elim heq hp

/-- **A call that sets an option** of an open handle. -/
theorem Represents.serve {result : Option (Int × Heap CurlBlock)} (f : Contents → Int × Contents)
    (h : Represents rest s t (pl :: layout))
    (hserves : Serves rest (layoutCells layout) pl result (f pl.contents)) :
    ∃ s' t' layout', s.logged result = some s' ∧ t.serve pl.ptr f = some t' ∧
      Represents rest s' t' layout' := by
  obtain ⟨heap, pl', rfl, hptr, hcontents, hheap⟩ := hserves
  have hne : pl.ptr ≠ 0 := h.heap.ne_zero List.mem_cons_self
  refine ⟨{ s with heap, log := (f pl.contents).1 :: s.log },
    { handles := Function.update t.handles pl.ptr (some (f pl.contents).2)
      log := (f pl.contents).1 :: t.log }, pl' :: layout, rfl, ?_, ?_⟩
  · rw [CurlModel.serve, if_neg hne, h.listed pl List.mem_cons_self]
    rfl
  · refine ⟨by rw [h.log], ?_, ?_, ?_, hheap⟩
    · rw [List.map_cons, hptr]
      exact h.handles
    · intro x hx
      rcases List.mem_cons.mp hx with rfl | hx
      · rw [hptr, hcontents]
        exact Function.update_self ..
      · exact (Function.update_of_ne (h.ne_of_mem hx) ..).trans
          (h.listed x (List.mem_cons_of_mem _ hx))
    · intro p hp
      rw [List.map_cons, hptr] at hp
      have hp' : p ≠ pl.ptr := fun heq => hp (heq ▸ List.mem_cons_self)
      exact (Function.update_of_ne hp' ..).trans (h.unlisted p hp)

/-- A call that sets an option of `NULL`. -/
theorem Represents.null (h : Represents rest s t layout) (f : Contents → Int × Contents) :
    ∃ s' t', s.logged (some (mcurlErrorInit, s.heap)) = some s' ∧ t.serve 0 f = some t' ∧
      Represents rest s' t' layout :=
  ⟨_, { t with log := mcurlErrorInit :: t.log }, rfl, rfl, by rw [h.log], h.handles, h.listed,
    h.unlisted, h.heap⟩

end Runs

end ArmKernel.Http
