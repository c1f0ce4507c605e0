/-
Splitting a URL (`src/http.c`, `parse_url`).

The string functions are those of the C library. The port is what `atoi` reads, stored in 16 bits;
the bytes of the host and the port go through a buffer of 256.

`Parses` is the law for one URL and `parses_iff` says which URLs it holds for: the port is never
compared with its range.
-/
import ArmKernel.Support.Cursor
import ArmKernel.Support.Decimal

namespace ArmKernel.Http

open ArmKernel.Support

/-- `MCURL_OK`. -/
def mcurlOk : Int := 0

/-- `MCURL_ERROR_PROTOCOL`. -/
def mcurlErrorProtocol : Int := -2

/-- What `parse_url` stores through its pointers. -/
structure UrlParts where
  host : Option (List (BitVec 8))
  port : Nat
  path : Option (List (BitVec 8))
  useSsl : Bool

/-- The size of `host_str`. -/
def hostSize : Nat := 256

/-- `parse_url`: the scheme, and what follows it. -/
def urlScheme (url : List (BitVec 8)) : Option (Bool × List (BitVec 8)) :=
  if (ascii "http://").isPrefixOf url then some (false, url.drop 7)
  else if (ascii "https://").isPrefixOf url then some (true, url.drop 8)
  else none

/-- `parse_url`: the end of the host, and the path. -/
def urlPath (pathAlloc : Bool) (url : List (BitVec 8)) :
    Option (List (BitVec 8) × Option (List (BitVec 8))) := do
  let hostEnd ← strchr (chr '/') url
  match hostEnd with
  | none => do
    let s ← stringAt url
    let path ← strdup pathAlloc (ascii "/" ++ [0])
    some (url.drop s.length, path)
  | some hostEnd => do
    let path ← strdup pathAlloc hostEnd
    some (hostEnd, path)

/-- `parse_url`: the host and the port in `host_str`. -/
def urlPort (useSsl : Bool) (hostStr : List (BitVec 8)) : Option (List (BitVec 8) × Nat) := do
  let portStr ← strchr (chr ':') hostStr
  match portStr with
  | none => some (hostStr, if useSsl then 443 else 80)
  | some portStr => do
    let port ← atoi (portStr.drop 1)
    some (hostStr.take (hostStr.length - portStr.length) ++ [0], (port % 2 ^ 16).toNat)

/-- `parse_url`. The two results of `strdup` are NULL when `malloc` fails. -/
def parseUrl (pathAlloc hostAlloc : Bool) (url : List (BitVec 8)) (out : UrlParts) :
    Option (Int × UrlParts) :=
  match urlScheme url with
  | none => some (mcurlErrorProtocol, out)
  | some (useSsl, url) => do
    let (hostEnd, path) ← urlPath pathAlloc url
    let hostLen := url.length - hostEnd.length
    if hostLen ≥ hostSize then some (mcurlErrorProtocol, { out with useSsl, path })
    else do
      let (hostStr, port) ← urlPort useSsl (url.take hostLen ++ [0])
      let host ← strdup hostAlloc hostStr
      some (mcurlOk, { host, port, path, useSsl })

/-- A decimal port. -/
structure PortNumeral where
  digits : List (BitVec 8)
  digit : ∀ x ∈ digits, isDigit x = true
  ne_nil : digits ≠ []

/-- A URL of the scheme `http` or `https`. The path is what follows its slash. -/
structure Url where
  secure : Bool
  host : List (BitVec 8)
  port : Option PortNumeral
  path : Option CString
  host_plain : ∀ x ∈ host, x ≠ chr '/' ∧ x ≠ chr ':' ∧ x ≠ 0

def Url.portText (url : Url) : List (BitVec 8) :=
  match url.port with
  | none => []
  | some port => chr ':' :: port.digits

/-- The host and the port. -/
def Url.authority (url : Url) : List (BitVec 8) := url.host ++ url.portText

def Url.text (url : Url) : List (BitVec 8) :=
  ascii (if url.secure then "https://" else "http://") ++
    (url.authority ++ (url.path.map fun path => chr '/' :: path.bytes).getD [])

/-- The path that is asked for. -/
def Url.target (url : Url) : List (BitVec 8) :=
  chr '/' :: (url.path.map CString.bytes).getD []

/-- The port that is meant. -/
def Url.portNumber (url : Url) : Nat :=
  match url.port with
  | none => if url.secure then 443 else 80
  | some port => decimalValue port.digits

def Url.PortInRange (url : Url) : Prop := 1 ≤ url.portNumber ∧ url.portNumber ≤ 65535

/-- **The law of a URL**: what is accepted is split as it was written, with a port in its range,
and a URL that fits the buffer is accepted when its port is in the range. -/
def Parses (url : Url) (pathAlloc hostAlloc : Bool) (out : UrlParts) (after : List (BitVec 8)) :
    Prop :=
  ∃ code parts, parseUrl pathAlloc hostAlloc (url.text ++ 0 :: after) out = some (code, parts) ∧
    (code = mcurlOk → parts.host = some url.host ∧ parts.path = some url.target ∧
      parts.useSsl = url.secure ∧ parts.port = url.portNumber ∧ url.PortInRange) ∧
    (url.authority.length < hostSize → url.PortInRange → code = mcurlOk)

section Pieces

variable {url : Url} {rest : List (BitVec 8)}

theorem isDigit_plain {c : BitVec 8} (h : isDigit c = true) :
    c ≠ chr '/' ∧ c ≠ chr ':' ∧ c ≠ 0 := by
  revert c
  decide

/-- The authority ends at the first slash, or at the end. -/
theorem authority_plain (url : Url) : ∀ x ∈ url.authority, x ≠ chr '/' ∧ x ≠ 0 := by
  intro x hx
  rcases List.mem_append.mp hx with hx | hx
  · exact ⟨(url.host_plain x hx).1, (url.host_plain x hx).2.2⟩
  · rw [Url.portText] at hx
    split at hx
    · cases hx
    · rename_i port _
      rcases List.mem_cons.mp hx with rfl | hx
      · decide
      · obtain ⟨hslash, -, hnul⟩ := isDigit_plain (port.digit x hx)
        exact ⟨hslash, hnul⟩

theorem urlScheme_text (url : Url) (after : List (BitVec 8)) :
    urlScheme (url.text ++ 0 :: after) = some (url.secure, url.authority ++
      ((url.path.map fun path => chr '/' :: path.bytes).getD [] ++ 0 :: after)) := by
  have hassoc : url.text ++ 0 :: after = ascii (if url.secure then "https://" else "http://") ++
      (url.authority ++ ((url.path.map fun path => chr '/' :: path.bytes).getD [] ++
        0 :: after)) := by
    rw [Url.text, List.append_assoc, List.append_assoc]
  rw [hassoc]
  cases url.secure with
  | false => rfl
  | true => rfl

/-- **The path** and the bytes in front of it. -/
theorem urlPath_text (url : Url) (pathAlloc : Bool) (after : List (BitVec 8)) :
    ∃ hostEnd, urlPath pathAlloc (url.authority ++
        ((url.path.map fun path => chr '/' :: path.bytes).getD [] ++ 0 :: after)) =
        some (hostEnd, if pathAlloc then some url.target else none) ∧
      url.authority ++ ((url.path.map fun path => chr '/' :: path.bytes).getD [] ++ 0 :: after) =
        url.authority ++ hostEnd := by
  cases hpath : url.path with
  | none =>
    refine ⟨0 :: after, ?_, rfl⟩
    have hsearch : strchr (chr '/') (url.authority ++ 0 :: after) = some none :=
      strchr_missing (authority_plain url) (by decide)
    have hstring : stringAt (url.authority ++ 0 :: after) = some url.authority :=
      stringAt_append fun x hx => (authority_plain url x hx).2
    have hroot : strdup pathAlloc (ascii "/" ++ [0]) =
        some (if pathAlloc then some url.target else none) := by
      have htarget : url.target = ascii "/" := by
        rw [Url.target, hpath]
        rfl
      rw [htarget]
      exact strdup_append (by decide) pathAlloc
    rw [Option.map_none, Option.getD_none, List.nil_append, urlPath, hsearch]
    simp only [bind, Option.bind_some]
    rw [hstring, hroot]
    simp only [Option.bind_some]
    rw [List.drop_left]
  | some path =>
    refine ⟨chr '/' :: (path.bytes ++ 0 :: after), ?_, rfl⟩
    have hsearch : strchr (chr '/') (url.authority ++ chr '/' :: (path.bytes ++ 0 :: after)) =
        some (some (chr '/' :: (path.bytes ++ 0 :: after))) := strchr_found (authority_plain url)
    have hcopy : strdup pathAlloc (chr '/' :: (path.bytes ++ 0 :: after)) =
        some (if pathAlloc then some url.target else none) := by
      have htarget : url.target = chr '/' :: path.bytes := by
        rw [Url.target, hpath]
        rfl
      have hplain : ∀ x ∈ chr '/' :: path.bytes, x ≠ 0 := by
        intro x hx
        rcases List.mem_cons.mp hx with rfl | hx
        · decide
        · exact path.ne_zero x hx
      rw [htarget]
      exact strdup_append hplain pathAlloc
    rw [Option.map_some, Option.getD_some, List.cons_append, urlPath, hsearch]
    simp only [bind, Option.bind_some]
    rw [hcopy]
    simp only [Option.bind_some]

/-- What `atoi` makes of the port, if it has a value at all. -/
def Url.portRead (url : Url) : Option Nat :=
  match url.port with
  | none => some url.portNumber
  | some _ => (int32 url.portNumber).map fun port => (port % 2 ^ 16).toNat

/-- **The host and the port.** -/
theorem urlPort_text (url : Url) :
    urlPort url.secure (url.authority ++ [0]) =
      url.portRead.map fun port => (url.host ++ [0], port) := by
  have hhost : ∀ x ∈ url.host, x ≠ chr ':' ∧ x ≠ 0 := fun x hx => (url.host_plain x hx).2
  cases hport : url.port with
  | none =>
    have hauthority : url.authority ++ [0] = url.host ++ 0 :: [] := by
      rw [Url.authority, Url.portText, hport, List.append_nil]
    have hread : url.portRead = some (if url.secure then 443 else 80) := by
      simp only [Url.portRead, Url.portNumber, hport]
    rw [hauthority, hread, urlPort, strchr_missing hhost (by decide)]
    rfl
  | some port =>
    have hauthority : url.authority ++ [0] = url.host ++ chr ':' :: (port.digits ++ 0 :: []) := by
      rw [Url.authority, Url.portText, hport, List.append_assoc, List.cons_append]
    have hread : url.portRead =
        (int32 (decimalValue port.digits)).map fun port => (port % 2 ^ 16).toNat := by
      simp only [Url.portRead, Url.portNumber, hport]
    have hatoi : atoi (port.digits ++ 0 :: []) = int32 (decimalValue port.digits) :=
      atoi_digits port.digit port.ne_nil (by decide)
    have hsplit : (url.host ++ chr ':' :: (port.digits ++ 0 :: [])).take
        ((url.host ++ chr ':' :: (port.digits ++ 0 :: [])).length -
          (chr ':' :: (port.digits ++ 0 :: [])).length) = url.host := by
      rw [List.length_append, Nat.add_sub_cancel, List.take_left]
    rw [hauthority, hread, urlPort, strchr_found hhost]
    simp only [bind, Option.bind_some]
    rw [List.drop_succ_cons, List.drop_zero, hatoi, hsplit, Option.map_map, Option.map_eq_bind]
    rfl

/-- **The call** for a URL: too long an authority is refused, and the port is what `atoi` reads. -/
theorem parseUrl_text (url : Url) (pathAlloc hostAlloc : Bool) (out : UrlParts)
    (after : List (BitVec 8)) :
    parseUrl pathAlloc hostAlloc (url.text ++ 0 :: after) out =
      if url.authority.length ≥ hostSize then
        some (mcurlErrorProtocol,
          UrlParts.mk out.host out.port (if pathAlloc then some url.target else none) url.secure)
      else url.portRead.map fun port =>
        (mcurlOk, UrlParts.mk (if hostAlloc then some url.host else none) port
          (if pathAlloc then some url.target else none) url.secure) := by
  obtain ⟨hostEnd, hpath, hsplit⟩ := urlPath_text url pathAlloc after
  have hlength : (url.authority ++ hostEnd).length - hostEnd.length = url.authority.length := by
    rw [List.length_append, Nat.add_sub_cancel]
  have hhost : strdup hostAlloc (url.host ++ [0]) =
      some (if hostAlloc then some url.host else none) :=
    strdup_append (fun x hx => (url.host_plain x hx).2.2) hostAlloc
  rw [parseUrl, urlScheme_text]
  simp only [bind]
  rw [hpath, hsplit]
  simp only [Option.bind_some, hlength, List.take_left]
  split
  · rfl
  · rw [urlPort_text]
    cases url.portRead with
    | none => rfl
    | some port =>
      simp only [Option.map_some, Option.bind_some]
      rw [hhost, Option.bind_some]

end Pieces

section Law

variable {url : Url} {pathAlloc hostAlloc : Bool}

/-- A port in its range is stored as it is. -/
theorem portRead_of_inRange (h : url.PortInRange) : url.portRead = some url.portNumber := by
  obtain ⟨hlow, hhigh⟩ := h
  rw [Url.portRead]
  split
  · rfl
  · have hint : int32 (url.portNumber : Int) = some (url.portNumber : Int) :=
      if_pos ⟨by omega, by omega⟩
    have hmod : (url.portNumber : Int) % 2 ^ 16 = url.portNumber :=
      Int.emod_eq_of_lt (Int.natCast_nonneg _) (by omega)
    rw [hint, Option.map_some, hmod, Int.toNat_natCast]

/-- **Splitting a URL.** The law holds exactly when the host and the port are too long for the
buffer, or when the port is in its range and both copies are made. -/
theorem parses_iff (url : Url) (pathAlloc hostAlloc : Bool) (out : UrlParts)
    (after : List (BitVec 8)) :
    Parses url pathAlloc hostAlloc out after ↔
      hostSize ≤ url.authority.length ∨
        url.PortInRange ∧ pathAlloc = true ∧ hostAlloc = true := by
  rw [Parses, parseUrl_text]
  constructor
  · rintro ⟨code, parts, hcall, haccepted, -⟩
    by_cases hlong : hostSize ≤ url.authority.length
    · exact Or.inl hlong
    · refine Or.inr ?_
      rw [if_neg hlong] at hcall
      obtain ⟨port, -, hresult⟩ := Option.map_eq_some_iff.mp hcall
      cases hresult
      obtain ⟨hhost, hpath, -, -, hrange⟩ := haccepted rfl
      refine ⟨hrange, ?_, ?_⟩
      · cases pathAlloc with
        | true => rfl
        | false => cases hpath
      · cases hostAlloc with
        | true => rfl
        | false => cases hhost
  · rintro (hlong | ⟨hrange, rfl, rfl⟩)
    · refine ⟨_, _, if_pos hlong, fun hok => absurd hok (by decide), ?_⟩
      intro hshort
      exact absurd hlong (Nat.not_le.mpr hshort)
    · by_cases hlong : hostSize ≤ url.authority.length
      · refine ⟨_, _, if_pos hlong, fun hok => absurd hok (by decide), ?_⟩
        intro hshort
        exact absurd hlong (Nat.not_le.mpr hshort)
      · rw [if_neg hlong, portRead_of_inRange hrange]
        exact ⟨mcurlOk, _, rfl, fun _ => ⟨rfl, rfl, rfl, rfl, hrange⟩, fun _ _ => rfl⟩

/-- `http://h:65616/`. -/
def wrappingPort : Url where
  secure := false
  host := ascii "h"
  port := some { digits := ascii "65616", digit := by decide, ne_nil := by decide }
  path := some { bytes := [], noNul := List.not_mem_nil }
  host_plain := by decide

/-- The port 65616 is accepted as port 80. -/
theorem wrappingPort_accepted :
    ¬Parses wrappingPort true true
      { host := none, port := 0, path := none, useSsl := false } [] := by
  rintro ⟨code, parts, hcall, haccepted, -⟩
  have hresult : parseUrl true true (wrappingPort.text ++ 0 :: [])
      { host := none, port := 0, path := none, useSsl := false } =
      some (mcurlOk, UrlParts.mk (some (ascii "h")) 80 (some (ascii "/")) false) := rfl
  rw [hresult] at hcall
  cases hcall
  exact absurd (haccepted rfl).2.2.2.1 (by decide)

end Law

end ArmKernel.Http
