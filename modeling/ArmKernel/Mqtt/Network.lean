/-
The sockets and TLS objects of `src/mqtt_network.c` (`network_new`, `network_connect`,
`network_destroy`).

A `Ledger` says who opened each descriptor and who made each TLS object that is alive; what the
system and the TLS library return is part of an action. A context that `calloc` made has
descriptor 0 in it, and `network_destroy` closes every descriptor that is not negative; a
descriptor that nobody has stays closed. A `network_connect` that gets to `socket` overwrites the
descriptor, and with TLS the pointers.

`tidy_iff` says in which runs nothing is lost and nothing of others is released: those in which no
connect gets to `socket` while the context has a connection, and no context is destroyed with a
descriptor in it that is open and that it did not open.
-/
import ArmKernel.Support.Run
import Mathlib.Logic.Function.Basic

namespace ArmKernel.Mqtt

open ArmKernel.Support

/-- `MQTT_OK`. -/
def mqttOk : Int := 0

/-- `MQTT_ERR_NO_CONN`. -/
def mqttErrNoConn : Int := -4

/-- `MQTT_ERR_TLS`. -/
def mqttErrTls : Int := -8

/-- `network_t`. The pointers are those that the TLS library returned. -/
structure Network where
  socket : Int
  ssl : Option Nat
  sslCtx : Option Nat
  useSsl : Bool
deriving DecidableEq

/-- A context as `calloc` leaves it. -/
def Network.zeroed : Network := ⟨0, none, none, false⟩

/-- Who has a descriptor. -/
inductive Descriptor (N : Type) where
  | closed
  | other
  | net (n : N)
deriving DecidableEq

/-- What a context released that it had not opened. -/
inductive Release where
  | socket (fd : Int)
  | ssl (i : Nat)
  | sslCtx (i : Nat)
deriving DecidableEq

/-- The contexts that are allocated, the descriptors, the TLS objects with the context that made
them, and what was released by the wrong one. -/
structure Ledger (N : Type) where
  nets : N → Option Network
  fds : Int → Descriptor N
  ssls : Nat → Option N
  ctxs : Nat → Option N
  wrong : List Release

/-- The fields of `mqtt_config_t` about TLS: which of them are set. -/
structure TlsConfig where
  useSsl : Bool
  caCert : Bool
  clientCert : Bool
  clientKey : Bool

/-- What `socket` and `connect` return for an address. -/
structure Attempt where
  fd : Int
  connected : Bool

/-- What the TLS library returns. -/
structure TlsResults where
  sslCtx : Option Nat
  loadVerify : Bool
  useCertificate : Bool
  usePrivateKey : Bool
  checkPrivateKey : Bool
  ssl : Option Nat
  handshake : Bool

variable {N : Type} [DecidableEq N]

namespace Ledger

/-- Write a context. -/
def setNet (s : Ledger N) (n : N) (net : Option Network) : Ledger N :=
  { s with nets := Function.update s.nets n net }

def setFd (s : Ledger N) (fd : Int) (d : Descriptor N) : Ledger N :=
  { s with fds := Function.update s.fds fd d }

/-- `close`. For a descriptor that is not open it fails with `EBADF`. -/
def close (s : Ledger N) (n : N) (fd : Int) : Ledger N :=
  if s.fds fd = .closed then s
  else if s.fds fd = .net n then s.setFd fd .closed
  else { s.setFd fd .closed with wrong := s.wrong ++ [.socket fd] }

/-- `SSL_free`. -/
def sslFree (s : Ledger N) (n : N) (i : Nat) : Ledger N :=
  if s.ssls i = some n then { s with ssls := Function.update s.ssls i none }
  else { s with ssls := Function.update s.ssls i none, wrong := s.wrong ++ [.ssl i] }

/-- `SSL_CTX_free`. -/
def sslCtxFree (s : Ledger N) (n : N) (i : Nat) : Ledger N :=
  if s.ctxs i = some n then { s with ctxs := Function.update s.ctxs i none }
  else { s with ctxs := Function.update s.ctxs i none, wrong := s.wrong ++ [.sslCtx i] }

end Ledger

/-- The loop of `network_connect` over the addresses; the flag says that one of them answered.
`socket` returns no descriptor that is open. -/
def tryAddresses (s : Ledger N) (n : N) (net : Network) :
    List Attempt → Option (Ledger N × Network × Bool)
  | [] => some (s, net, false)
  | a :: rest =>
    if a.fd < 0 then tryAddresses s n { net with socket := a.fd } rest
    else if s.fds a.fd ≠ .closed then none
    else
      let s := s.setFd a.fd (.net n)
      if a.connected then some (s, { net with socket := a.fd }, true)
      else tryAddresses (s.close n a.fd) n { net with socket := -1 } rest

/-- The rest of `network_connect`, for a connection with TLS. The library returns no object that
is alive. -/
def startTls (s : Ledger N) (n : N) (net : Network) (config : TlsConfig) (tls : TlsResults) :
    Option (Ledger N × Network × Int) :=
  let net := { net with useSsl := true, sslCtx := tls.sslCtx }
  match tls.sslCtx with
  | none => some (s, net, mqttErrTls)
  | some ctx =>
    if s.ctxs ctx ≠ none then none
    else
      let s := { s with ctxs := Function.update s.ctxs ctx (some n) }
      if config.caCert && !tls.loadVerify then some (s, net, mqttErrTls)
      else if config.clientCert && config.clientKey &&
          !(tls.useCertificate && tls.usePrivateKey && tls.checkPrivateKey) then
        some (s, net, mqttErrTls)
      else
        let net := { net with ssl := tls.ssl }
        match tls.ssl with
        | none => some (s, net, mqttErrTls)
        | some ssl =>
          if s.ssls ssl ≠ none then none
          else
            let s := { s with ssls := Function.update s.ssls ssl (some n) }
            some (s, net, if tls.handshake then mqttOk else mqttErrTls)

/-- `network_connect`; `addresses` is what `getaddrinfo` returns. -/
def networkConnect (s : Ledger N) (n : N) (net : Network) (addresses : Option (List Attempt))
    (config : TlsConfig) (tls : TlsResults) : Option (Ledger N × Network × Int) :=
  match addresses with
  | none => some (s, net, mqttErrNoConn)
  | some addresses =>
    (tryAddresses s n net addresses).bind fun (s, net, connected) =>
      if !connected then some (s, net, mqttErrNoConn)
      else if config.useSsl then startTls s n net config tls
      else some (s, net, mqttOk)

/-- `network_destroy`, of a context that is not null. -/
def networkDestroy (s : Ledger N) (n : N) (net : Network) : Ledger N :=
  let s := match net.ssl with
    | some i => s.sslFree n i
    | none => s
  let s := match net.sslCtx with
    | some i => s.sslCtxFree n i
    | none => s
  let s := if 0 ≤ net.socket then s.close n net.socket else s
  s.setNet n none

/-- A call, or another part of the program that opens or closes a descriptor of its own. -/
inductive NetAction (N : Type) where
  | new (n : N)
  | connect (n : N) (addresses : Option (List Attempt)) (config : TlsConfig) (tls : TlsResults)
  | destroy (n : N)
  | openOther (fd : Int)
  | closeOther (fd : Int)

/-- One step. `new n` is `network_new` with `n` for what `calloc` returns, when it does. -/
def netStep (s : Ledger N) : NetAction N → Option (Ledger N)
  | .new n => if (s.nets n).isNone then some (s.setNet n (some .zeroed)) else none
  | .connect n addresses config tls =>
    (s.nets n).bind fun net =>
      (networkConnect s n net addresses config tls).map fun (s, net, _) => s.setNet n (some net)
  | .destroy n => (s.nets n).map (networkDestroy s n)
  | .openOther fd => if s.fds fd = .closed then some (s.setFd fd .other) else none
  | .closeOther fd => if s.fds fd = .other then some (s.setFd fd .closed) else none

/-- Nothing is lost: what a context opened, it still knows. And nothing of others was released. -/
structure Tidy (s : Ledger N) : Prop where
  sockets : ∀ fd n, s.fds fd = .net n → ∃ net, s.nets n = some net ∧ net.socket = fd
  ctxs : ∀ i n, s.ctxs i = some n → ∃ net, s.nets n = some net ∧ net.sslCtx = some i
  ssls : ∀ i n, s.ssls i = some n → ∃ net, s.nets n = some net ∧ net.ssl = some i
  wrong : s.wrong = []

/-- The context has a connection: it opened the descriptor that it has. -/
def Connected (s : Ledger N) (n : N) : Prop :=
  ∃ net, s.nets n = some net ∧ s.fds net.socket = .net n

/-- A connect that gets to `socket` is made without a connection, and a context is destroyed with
one, or with a descriptor that is negative or that nobody has. -/
def Orderly (s : Ledger N) : NetAction N → Prop
  | .connect n (some (_ :: _)) _ _ => ¬ Connected s n
  | .destroy n => ∀ net, s.nets n = some net → 0 ≤ net.socket →
      s.fds net.socket = .closed ∨ Connected s n
  | .connect _ (some []) _ _ | .connect _ none _ _ => True
  | .new _ | .openOther _ | .closeOther _ => True

/-- The invariant. The TLS objects of a context are alive, and only a connection has them. -/
structure NetInv (s : Ledger N) : Prop extends Tidy s where
  ctxLive : ∀ n net i, s.nets n = some net → net.sslCtx = some i → s.ctxs i = some n
  sslLive : ∀ n net i, s.nets n = some net → net.ssl = some i → s.ssls i = some n
  secured : ∀ n net, s.nets n = some net → net.sslCtx ≠ none ∨ net.ssl ≠ none →
    s.fds net.socket = .net n
  opened : ∀ fd n, s.fds fd = .net n → 0 ≤ fd

/-! ### What a connect does -/

section Connect

variable {s s' : Ledger N} {n : N} {net net' : Network} {connected : Bool}

/-- A descriptor that was opened and closed again. -/
theorem close_setFd {fd : Int} (h : s.fds fd = .closed) :
    (s.setFd fd (.net n)).close n fd = s := by
  have hown : (s.setFd fd (.net n)).fds fd = .net n := Function.update_self ..
  rw [Ledger.close, if_neg (by rw [hown]; nofun), if_pos hown]
  simp only [Ledger.setFd, Function.update_idem]
  rw [← h, Function.update_eq_self]

/-- **The addresses.** The context has a new descriptor, or the ledger is as it was and its
descriptor negative, if there was an address at all. -/
theorem tryAddresses_spec {addresses : List Attempt}
    (h : tryAddresses s n net addresses = some (s', net', connected)) :
    (connected = true ∧ ∃ fd, 0 ≤ fd ∧ s.fds fd = .closed ∧ s' = s.setFd fd (.net n) ∧
        net' = { net with socket := fd }) ∨
      connected = false ∧ s' = s ∧
        ((addresses = [] ∧ net' = net) ∨ ∃ fd < 0, net' = { net with socket := fd }) := by
  induction addresses generalizing net with
  | nil =>
    cases h
    exact .inr ⟨rfl, rfl, .inl ⟨rfl, rfl⟩⟩
  | cons a rest ih =>
    -- The rest of the loop, with a negative descriptor in the context.
    have later {fd : Int} (hfd : fd < 0)
        (hrest : tryAddresses s n { net with socket := fd } rest = some (s', net', connected)) :
        (connected = true ∧ ∃ fd, 0 ≤ fd ∧ s.fds fd = .closed ∧ s' = s.setFd fd (.net n) ∧
            net' = { net with socket := fd }) ∨
          connected = false ∧ s' = s ∧
            ((a :: rest = [] ∧ net' = net) ∨ ∃ fd < 0, net' = { net with socket := fd }) := by
      rcases ih hrest with hfound | ⟨hno, hsame, ⟨-, rfl⟩ | ⟨fd', hfd', rfl⟩⟩
      · exact .inl hfound
      · exact .inr ⟨hno, hsame, .inr ⟨fd, hfd, rfl⟩⟩
      · exact .inr ⟨hno, hsame, .inr ⟨fd', hfd', rfl⟩⟩
    rw [tryAddresses] at h
    split at h
    · rename_i hneg
      exact later hneg h
    · rename_i hpos
      split at h
      · cases h
      · rename_i hclosed
        dsimp only at h
        split at h
        · cases h
          exact .inl ⟨rfl, a.fd, Int.not_lt.mp hpos, not_not.mp hclosed, rfl, rfl⟩
        · rw [close_setFd (not_not.mp hclosed)] at h
          exact later (by decide) h

/-- The TLS objects of a context that gets the objects of `net'`. -/
structure Secures (s s' : Ledger N) (n : N) (net net' : Network) : Prop where
  nets : s'.nets = s.nets
  fds : s'.fds = s.fds
  wrong : s'.wrong = s.wrong
  socket : net'.socket = net.socket
  ctxs : ∀ i, s'.ctxs i = if net'.sslCtx = some i then some n else s.ctxs i
  ssls : ∀ i, s'.ssls i = if net'.ssl = some i then some n else s.ssls i
  ctxFresh : ∀ i, net'.sslCtx = some i → s.ctxs i = none
  sslFresh : ∀ i, net'.ssl = some i → s.ssls i = none

omit [DecidableEq N] in
/-- A context without TLS objects, as it is. -/
theorem Secures.refl (s : Ledger N) (n : N) (hctx : net.sslCtx = none) (hssl : net.ssl = none) :
    Secures s s n net net where
  nets := rfl
  fds := rfl
  wrong := rfl
  socket := rfl
  ctxs i := by rw [hctx]; rfl
  ssls i := by rw [hssl]; rfl
  ctxFresh i h := by rw [hctx] at h; cases h
  sslFresh i h := by rw [hssl] at h; cases h

omit [DecidableEq N] in
/-- **TLS.** Wherever it ends, the objects that were made are in the context. -/
theorem startTls_spec {config : TlsConfig} {tls : TlsResults} {rc : Int} (hssl : net.ssl = none)
    (h : startTls s n net config tls = some (s', net', rc)) : Secures s s' n net net' := by
  rw [startTls] at h
  dsimp only at h
  split at h
  · rename_i hctx
    cases h
    exact ⟨rfl, rfl, rfl, rfl, fun i => by simp [hctx], fun i => by simp [hssl],
      fun i h => by simp [hctx] at h, fun i h => by simp [hssl] at h⟩
  · rename_i ctx hctx
    split at h
    · cases h
    · rename_i hctxFresh
      -- Up to `SSL_new` the context has the TLS context only.
      have early : Secures s { s with ctxs := Function.update s.ctxs ctx (some n) } n net
          { net with useSsl := true, sslCtx := tls.sslCtx } := by
        refine ⟨rfl, rfl, rfl, rfl, fun i => ?_, fun i => by simp [hssl], fun i h => ?_,
          fun i h => by simp [hssl] at h⟩
        · simp only [hctx, Option.some.injEq]
          by_cases hi : ctx = i
          · subst hi
            simp
          · rw [Function.update_of_ne (Ne.symm hi), if_neg hi]
        · obtain rfl : ctx = i := Option.some.inj (hctx.symm.trans h)
          exact not_not.mp hctxFresh
      split at h
      · cases h
        exact early
      · split at h
        · cases h
          exact early
        · split at h
          · rename_i hnone
            cases h
            refine ⟨rfl, rfl, rfl, rfl, early.ctxs, fun i => by simp [hnone], early.ctxFresh,
              fun i h => by simp [hnone] at h⟩
          · rename_i ssl hsome
            split at h
            · cases h
            · rename_i hsslFresh
              cases h
              refine ⟨rfl, rfl, rfl, rfl, early.ctxs, fun i => ?_, early.ctxFresh, fun i h => ?_⟩
              · simp only [hsome, Option.some.injEq]
                by_cases hi : ssl = i
                · subst hi
                  simp
                · rw [Function.update_of_ne (Ne.symm hi), if_neg hi]
              · obtain rfl : ssl = i := Option.some.inj (hsome.symm.trans h)
                exact not_not.mp hsslFresh

omit [DecidableEq N] in
theorem startTls_frame {config : TlsConfig} {tls : TlsResults} {rc : Int}
    (h : startTls s n net config tls = some (s', net', rc)) :
    s'.fds = s.fds ∧ net'.socket = net.socket := by
  rw [startTls] at h
  dsimp only at h
  split at h
  · cases h
    exact ⟨rfl, rfl⟩
  · split at h
    · cases h
    · split at h
      · cases h
        exact ⟨rfl, rfl⟩
      · split at h
        · cases h
          exact ⟨rfl, rfl⟩
        · split at h
          · cases h
            exact ⟨rfl, rfl⟩
          · split at h
            · cases h
            · cases h
              exact ⟨rfl, rfl⟩

/-- A connect that gets to `socket` puts another descriptor into the context, and closes none. -/
theorem networkConnect_overwrites {a : Attempt} {rest : List Attempt} {config : TlsConfig}
    {tls : TlsResults} {rc : Int}
    (h : networkConnect s n net (some (a :: rest)) config tls = some (s', net', rc)) :
    (∀ fd, s.fds fd ≠ .closed → s'.fds fd = s.fds fd) ∧
      (net'.socket < 0 ∨ s.fds net'.socket = .closed) := by
  obtain ⟨⟨s₁, net₁, connected⟩, htry, hrest⟩ := Option.bind_eq_some_iff.mp h
  rcases tryAddresses_spec htry with ⟨rfl, fd, hfd, hclosed, rfl, rfl⟩ | ⟨rfl, rfl, hsame⟩
  · have hkept : ∀ fd', s.fds fd' ≠ .closed → (s.setFd fd (.net n)).fds fd' = s.fds fd' := by
      intro fd' hopen
      refine Function.update_of_ne ?_ _ _
      rintro rfl
      exact hopen hclosed
    simp only [Bool.not_true, Bool.false_eq_true, if_false] at hrest
    split at hrest
    · obtain ⟨hfds, hsocket⟩ := startTls_frame hrest
      exact ⟨fun fd' hopen => by rw [hfds, hkept fd' hopen], .inr (by rw [hsocket]; exact hclosed)⟩
    · cases hrest
      exact ⟨hkept, .inr hclosed⟩
  · cases hrest
    refine ⟨fun _ _ => rfl, .inl ?_⟩
    rcases hsame with ⟨hnil, -⟩ | ⟨fd, hfd, rfl⟩
    · cases hnil
    · exact hfd

/-- **A connect** of a context without TLS objects. -/
theorem networkConnect_spec {addresses : Option (List Attempt)} {config : TlsConfig}
    {tls : TlsResults} {rc : Int} (hctx : net.sslCtx = none) (hssl : net.ssl = none)
    (h : networkConnect s n net addresses config tls = some (s', net', rc)) :
    (s' = s ∧ (net' = net ∨ ∃ fd < 0, net' = { net with socket := fd })) ∨
      ∃ fd, 0 ≤ fd ∧ s.fds fd = .closed ∧
        Secures (s.setFd fd (.net n)) s' n { net with socket := fd } net' := by
  cases addresses with
  | none =>
    cases h
    exact .inl ⟨rfl, .inl rfl⟩
  | some addresses =>
    obtain ⟨⟨s₁, net₁, connected⟩, htry, hrest⟩ := Option.bind_eq_some_iff.mp h
    rcases tryAddresses_spec htry with ⟨rfl, fd, hfd, hclosed, rfl, rfl⟩ | ⟨rfl, rfl, hsame⟩
    · simp only [Bool.not_true, Bool.false_eq_true, if_false] at hrest
      refine .inr ⟨fd, hfd, hclosed, ?_⟩
      split at hrest
      · exact startTls_spec hssl hrest
      · cases hrest
        exact .refl _ n hctx hssl
    · cases hrest
      exact .inl ⟨rfl, hsame.imp And.right id⟩

end Connect

/-! ### What a destroy does -/

section Destroy

variable {s : Ledger N} {n : N} {net : Network}

/-- A close of a descriptor that is one's own, or nobody's. -/
theorem close_own {fd : Int} (h : s.fds fd = .closed ∨ s.fds fd = .net n) :
    s.close n fd = s.setFd fd .closed := by
  unfold Ledger.close
  by_cases hclosed : s.fds fd = .closed
  · rw [if_pos hclosed, Ledger.setFd, ← hclosed, Function.update_eq_self]
  · rw [if_neg hclosed, if_pos (h.resolve_left hclosed)]

/-- **A destroy** of a context that owns what it has. -/
theorem networkDestroy_spec (hssl : ∀ i, net.ssl = some i → s.ssls i = some n)
    (hctx : ∀ i, net.sslCtx = some i → s.ctxs i = some n)
    (hsocket : 0 ≤ net.socket → s.fds net.socket = .closed ∨ s.fds net.socket = .net n) :
    let s' := networkDestroy s n net
    s'.nets = Function.update s.nets n none ∧ s'.wrong = s.wrong ∧
      (∀ fd, s'.fds fd = if 0 ≤ net.socket ∧ fd = net.socket then .closed else s.fds fd) ∧
      (∀ i, s'.ssls i = if net.ssl = some i then none else s.ssls i) ∧
      ∀ i, s'.ctxs i = if net.sslCtx = some i then none else s.ctxs i := by
  -- Each of the three releases is a write of one map.
  have hfirst : ∃ s₁ : Ledger N, (match net.ssl with | some i => s.sslFree n i | none => s) = s₁ ∧
      s₁.nets = s.nets ∧ s₁.wrong = s.wrong ∧ s₁.fds = s.fds ∧ s₁.ctxs = s.ctxs ∧
      ∀ i, s₁.ssls i = if net.ssl = some i then none else s.ssls i := by
    cases h : net.ssl with
    | none => exact ⟨s, rfl, rfl, rfl, rfl, rfl, fun i => by simp⟩
    | some j =>
      refine ⟨s.sslFree n j, rfl, ?_⟩
      rw [Ledger.sslFree, if_pos (hssl j h)]
      refine ⟨rfl, rfl, rfl, rfl, fun i => ?_⟩
      by_cases hi : j = i
      · subst hi
        simp
      · simp [hi, Ne.symm hi]
  obtain ⟨s₁, hs₁, hnets₁, hwrong₁, hfds₁, hctxs₁, hssls₁⟩ := hfirst
  have hsecond : ∃ s₂ : Ledger N,
      (match net.sslCtx with | some i => s₁.sslCtxFree n i | none => s₁) = s₂ ∧
      s₂.nets = s₁.nets ∧ s₂.wrong = s₁.wrong ∧ s₂.fds = s₁.fds ∧ s₂.ssls = s₁.ssls ∧
      ∀ i, s₂.ctxs i = if net.sslCtx = some i then none else s₁.ctxs i := by
    cases h : net.sslCtx with
    | none => exact ⟨s₁, rfl, rfl, rfl, rfl, rfl, fun i => by simp⟩
    | some j =>
      refine ⟨s₁.sslCtxFree n j, rfl, ?_⟩
      rw [Ledger.sslCtxFree, if_pos ((congrFun hctxs₁ j).trans (hctx j h))]
      refine ⟨rfl, rfl, rfl, rfl, fun i => ?_⟩
      by_cases hi : j = i
      · subst hi
        simp
      · simp [hi, Ne.symm hi]
  obtain ⟨s₂, hs₂, hnets₂, hwrong₂, hfds₂, hssls₂, hctxs₂⟩ := hsecond
  simp only [networkDestroy, hs₁, hs₂]
  by_cases hpos : 0 ≤ net.socket
  · have hown : s₂.fds net.socket = .closed ∨ s₂.fds net.socket = .net n := by
      rw [hfds₂, hfds₁]
      exact hsocket hpos
    rw [if_pos hpos, close_own hown]
    refine ⟨?_, ?_, fun fd => ?_, fun i => ?_, fun i => ?_⟩
    · simp only [Ledger.setNet, Ledger.setFd, hnets₂, hnets₁]
    · simp only [Ledger.setNet, Ledger.setFd, hwrong₂, hwrong₁]
    · simp only [Ledger.setNet, Ledger.setFd, hfds₂, hfds₁, hpos, true_and]
      by_cases hfd : fd = net.socket
      · subst hfd
        simp
      · rw [Function.update_of_ne hfd, if_neg hfd]
    · simp only [Ledger.setNet, Ledger.setFd, hssls₂, hssls₁]
    · simp only [Ledger.setNet, Ledger.setFd, hctxs₂, hctxs₁]
  · rw [if_neg hpos]
    refine ⟨?_, ?_, fun fd => ?_, fun i => ?_, fun i => ?_⟩
    · simp only [Ledger.setNet, hnets₂, hnets₁]
    · simp only [Ledger.setNet, hwrong₂, hwrong₁]
    · simp only [Ledger.setNet, hfds₂, hfds₁, hpos, false_and, if_false]
    · simp only [Ledger.setNet, hssls₂, hssls₁]
    · simp only [Ledger.setNet, hctxs₂, hctxs₁]

/-- A destroy that closes a descriptor of others. -/
theorem networkDestroy_wrong (hpos : 0 ≤ net.socket) (hopen : s.fds net.socket ≠ .closed)
    (hother : s.fds net.socket ≠ .net n) : (networkDestroy s n net).wrong ≠ [] := by
  simp only [networkDestroy, if_pos hpos]
  have hfirst : (match net.ssl with | some i => s.sslFree n i | none => s).fds = s.fds := by
    split
    · rw [Ledger.sslFree]
      split <;> rfl
    · rfl
  generalize (match net.ssl with | some i => s.sslFree n i | none => s) = s₁ at hfirst ⊢
  have hsecond :
      (match net.sslCtx with | some i => s₁.sslCtxFree n i | none => s₁).fds = s₁.fds := by
    split
    · rw [Ledger.sslCtxFree]
      split <;> rfl
    · rfl
  generalize (match net.sslCtx with | some i => s₁.sslCtxFree n i | none => s₁) = s₂ at hsecond ⊢
  have hsame : s₂.fds net.socket = s.fds net.socket := by rw [hsecond, hfirst]
  rw [Ledger.close, if_neg (hsame ▸ hopen), if_neg (hsame ▸ hother)]
  exact List.append_ne_nil_of_right_ne_nil _ (List.cons_ne_nil _ _)

end Destroy

/-! ### Runs -/

section Runs

variable {s s' : Ledger N} {n : N} {net net' : Network}

omit [DecidableEq N] in
theorem connected_iff (hnet : s.nets n = some net) : Connected s n ↔ s.fds net.socket = .net n := by
  constructor
  · rintro ⟨net', hnet', hfd⟩
    cases hnet.symm.trans hnet'
    exact hfd
  · exact fun hfd => ⟨net, hnet, hfd⟩

omit [DecidableEq N] in
/-- A context without a connection has no TLS objects, and no descriptor is its own. -/
theorem NetInv.unconnected (h : NetInv s) (hnet : s.nets n = some net) (hfree : ¬ Connected s n) :
    net.sslCtx = none ∧ net.ssl = none ∧ (∀ fd, s.fds fd ≠ .net n) ∧ (∀ i, s.ctxs i ≠ some n) ∧
      ∀ i, s.ssls i ≠ some n := by
  have hnone : net.sslCtx = none ∧ net.ssl = none := by
    by_contra hsome
    rw [connected_iff hnet] at hfree
    exact hfree (h.secured n net hnet (not_and_or.mp hsome))
  refine ⟨hnone.1, hnone.2, fun fd hfd => ?_, fun i hi => ?_, fun i hi => ?_⟩
  · obtain ⟨net', hnet', hsocket⟩ := h.sockets fd n hfd
    exact hfree ⟨net', hnet', hsocket ▸ hfd⟩
  · obtain ⟨net', hnet', hctx⟩ := h.ctxs i n hi
    cases hnet.symm.trans hnet'
    cases hnone.1.symm.trans hctx
  · obtain ⟨net', hnet', hssl⟩ := h.ssls i n hi
    cases hnet.symm.trans hnet'
    cases hnone.2.symm.trans hssl

omit [DecidableEq N] in
/-- No descriptor and no TLS object is of a context that is not allocated. -/
theorem NetInv.unallocated (h : NetInv s) (hnet : s.nets n = none) :
    (∀ fd, s.fds fd ≠ .net n) ∧ (∀ i, s.ctxs i ≠ some n) ∧ ∀ i, s.ssls i ≠ some n := by
  refine ⟨fun fd hfd => ?_, fun i hi => ?_, fun i hi => ?_⟩
  · obtain ⟨net', hnet', -⟩ := h.sockets fd n hfd
    cases hnet.symm.trans hnet'
  · obtain ⟨net', hnet', -⟩ := h.ctxs i n hi
    cases hnet.symm.trans hnet'
  · obtain ⟨net', hnet', -⟩ := h.ssls i n hi
    cases hnet.symm.trans hnet'

/-- A context that owns nothing is written, and still has no TLS objects. -/
theorem NetInv.unreached (h : NetInv s) (hfds : ∀ fd, s.fds fd ≠ .net n)
    (hctxs : ∀ i, s.ctxs i ≠ some n) (hssls : ∀ i, s.ssls i ≠ some n) (hctx : net'.sslCtx = none)
    (hssl : net'.ssl = none) : NetInv (s.setNet n (some net')) := by
  have hother : ∀ m, m ≠ n → (s.setNet n (some net')).nets m = s.nets m := fun m hm =>
    Function.update_of_ne hm _ _
  have hself : (s.setNet n (some net')).nets n = some net' := Function.update_self ..
  refine ⟨⟨fun fd m hfd => ?_, fun i m hi => ?_, fun i m hi => ?_, h.wrong⟩, ?_, ?_, ?_, h.opened⟩
  · rw [hother m fun hm => hfds fd (hm ▸ hfd)]
    exact h.sockets fd m hfd
  · rw [hother m fun hm => hctxs i (hm ▸ hi)]
    exact h.ctxs i m hi
  · rw [hother m fun hm => hssls i (hm ▸ hi)]
    exact h.ssls i m hi
  · intro m net₁ i hm hi
    by_cases hmn : m = n
    · subst hmn
      cases hself.symm.trans hm
      cases hctx.symm.trans hi
    · exact h.ctxLive m net₁ i (hother m hmn ▸ hm) hi
  · intro m net₁ i hm hi
    by_cases hmn : m = n
    · subst hmn
      cases hself.symm.trans hm
      cases hssl.symm.trans hi
    · exact h.sslLive m net₁ i (hother m hmn ▸ hm) hi
  · intro m net₁ hm htls
    by_cases hmn : m = n
    · subst hmn
      cases hself.symm.trans hm
      exact absurd htls (not_or.mpr ⟨not_not.mpr hctx, not_not.mpr hssl⟩)
    · exact h.secured m net₁ (hother m hmn ▸ hm) htls

/-- A context without connection gets one. -/
theorem NetInv.reached (h : NetInv s) (hnet : s.nets n = some net) (hfree : ¬ Connected s n)
    {fd : Int} (hfd : 0 ≤ fd) (hclosed : s.fds fd = .closed)
    (hsecures : Secures (s.setFd fd (.net n)) s' n { net with socket := fd } net') :
    NetInv (s'.setNet n (some net')) := by
  obtain ⟨-, -, hfds, hctxs, hssls⟩ := h.unconnected hnet hfree
  have hother : ∀ m, m ≠ n → (s'.setNet n (some net')).nets m = s.nets m := fun m hm =>
    (Function.update_of_ne hm _ _).trans (congrFun hsecures.nets m)
  have hself : (s'.setNet n (some net')).nets n = some net' := Function.update_self ..
  have hfds' : ∀ fd', (s'.setNet n (some net')).fds fd' =
      if fd' = fd then .net n else s.fds fd' := fun fd' => by
    change s'.fds fd' = _
    rw [hsecures.fds]
    exact Function.update_apply s.fds fd (.net n) fd'
  have hctxs' : ∀ i, (s'.setNet n (some net')).ctxs i =
      if net'.sslCtx = some i then some n else s.ctxs i := hsecures.ctxs
  have hssls' : ∀ i, (s'.setNet n (some net')).ssls i =
      if net'.ssl = some i then some n else s.ssls i := hsecures.ssls
  refine ⟨⟨fun fd' m hm => ?_, fun i m hi => ?_, fun i m hi => ?_, hsecures.wrong.trans h.wrong⟩,
    ?_, ?_, ?_, fun fd' m hm => ?_⟩
  · rw [hfds'] at hm
    split at hm
    · cases hm
      exact ⟨net', hself, hsecures.socket.trans (Eq.symm ‹_›)⟩
    · rw [hother m fun hmn => hfds fd' (hmn ▸ hm)]
      exact h.sockets fd' m hm
  · rw [hctxs'] at hi
    split at hi
    · cases hi
      exact ⟨net', hself, ‹_›⟩
    · rw [hother m fun hmn => hctxs i (hmn ▸ hi)]
      exact h.ctxs i m hi
  · rw [hssls'] at hi
    split at hi
    · cases hi
      exact ⟨net', hself, ‹_›⟩
    · rw [hother m fun hmn => hssls i (hmn ▸ hi)]
      exact h.ssls i m hi
  · intro m net₁ i hm hi
    rw [hctxs']
    by_cases hmn : m = n
    · subst hmn
      cases hself.symm.trans hm
      rw [if_pos hi]
    · have hlive := h.ctxLive m net₁ i (hother m hmn ▸ hm) hi
      rw [if_neg fun hsame => Option.some_ne_none _ (hlive.symm.trans (hsecures.ctxFresh i hsame))]
      exact hlive
  · intro m net₁ i hm hi
    rw [hssls']
    by_cases hmn : m = n
    · subst hmn
      cases hself.symm.trans hm
      rw [if_pos hi]
    · have hlive := h.sslLive m net₁ i (hother m hmn ▸ hm) hi
      rw [if_neg fun hsame => Option.some_ne_none _ (hlive.symm.trans (hsecures.sslFresh i hsame))]
      exact hlive
  · intro m net₁ hm htls
    rw [hfds']
    by_cases hmn : m = n
    · subst hmn
      cases hself.symm.trans hm
      rw [if_pos hsecures.socket]
    · have hown := h.secured m net₁ (hother m hmn ▸ hm) htls
      rw [if_neg, hown]
      rintro rfl
      cases hclosed.symm.trans hown
  · rw [hfds'] at hm
    split at hm
    · subst fd'
      exact hfd
    · exact h.opened fd' m hm

/-- A context is destroyed that owns the descriptor it has, if somebody does. -/
theorem NetInv.destroyed (h : NetInv s) (hnet : s.nets n = some net)
    (hok : 0 ≤ net.socket → s.fds net.socket = .closed ∨ Connected s n) :
    NetInv (networkDestroy s n net) := by
  obtain ⟨hnets, hwrong, hfds, hssls, hctxs⟩ := networkDestroy_spec
    (h.sslLive n net · hnet) (h.ctxLive n net · hnet)
    fun hpos => (hok hpos).imp_right (connected_iff hnet).mp
  generalize networkDestroy s n net = s' at *
  have hother : ∀ m, m ≠ n → s'.nets m = s.nets m := fun m hm => by
    rw [hnets, Function.update_of_ne hm]
  have hself : s'.nets n = none := by rw [hnets, Function.update_self]
  have hkept : ∀ m net₁, s'.nets m = some net₁ → m ≠ n ∧ s.nets m = some net₁ := by
    intro m net₁ hm
    have hmn : m ≠ n := by
      rintro rfl
      cases hself.symm.trans hm
    exact ⟨hmn, hother m hmn ▸ hm⟩
  refine ⟨⟨fun fd m hm => ?_, fun i m hi => ?_, fun i m hi => ?_, hwrong.trans h.wrong⟩,
    fun m net₁ i hm hi => ?_, fun m net₁ i hm hi => ?_, fun m net₁ hm htls => ?_, fun fd m hm => ?_⟩
  · rw [hfds] at hm
    split at hm
    · cases hm
    · rename_i hkeep
      obtain ⟨net₁, hnet₁, hsocket⟩ := h.sockets fd m hm
      have hmn : m ≠ n := by
        rintro rfl
        cases hnet.symm.trans hnet₁
        exact hkeep ⟨hsocket ▸ h.opened fd m hm, hsocket.symm⟩
      exact ⟨net₁, (hother m hmn).trans hnet₁, hsocket⟩
  · rw [hctxs] at hi
    split at hi
    · cases hi
    · rename_i hkeep
      obtain ⟨net₁, hnet₁, hctx⟩ := h.ctxs i m hi
      have hmn : m ≠ n := by
        rintro rfl
        cases hnet.symm.trans hnet₁
        exact hkeep hctx
      exact ⟨net₁, (hother m hmn).trans hnet₁, hctx⟩
  · rw [hssls] at hi
    split at hi
    · cases hi
    · rename_i hkeep
      obtain ⟨net₁, hnet₁, hssl⟩ := h.ssls i m hi
      have hmn : m ≠ n := by
        rintro rfl
        cases hnet.symm.trans hnet₁
        exact hkeep hssl
      exact ⟨net₁, (hother m hmn).trans hnet₁, hssl⟩
  · obtain ⟨hmn, hnet₁⟩ := hkept m net₁ hm
    have hlive := h.ctxLive m net₁ i hnet₁ hi
    rw [hctxs, if_neg]
    · exact hlive
    · intro hsame
      have hmine := h.ctxLive n net i hnet hsame
      exact hmn (Option.some.inj (hlive.symm.trans hmine))
  · obtain ⟨hmn, hnet₁⟩ := hkept m net₁ hm
    have hlive := h.sslLive m net₁ i hnet₁ hi
    rw [hssls, if_neg]
    · exact hlive
    · intro hsame
      have hmine := h.sslLive n net i hnet hsame
      exact hmn (Option.some.inj (hlive.symm.trans hmine))
  · obtain ⟨hmn, hnet₁⟩ := hkept m net₁ hm
    have hown := h.secured m net₁ hnet₁ htls
    rw [hfds, if_neg]
    · exact hown
    · rintro ⟨hpos, hsame⟩
      rcases hok hpos with hclosed | hmine
      · rw [hsame, hclosed] at hown
        cases hown
      · rw [hsame, (connected_iff hnet).mp hmine] at hown
        exact hmn (Descriptor.net.inj hown).symm
  · rw [hfds] at hm
    split at hm
    · cases hm
    · exact h.opened fd m hm

omit [DecidableEq N] in
/-- The rest of the program opens or closes a descriptor of its own. -/
theorem NetInv.others (h : NetInv s) {fd : Int} {d : Descriptor N} (hfd : ∀ n, s.fds fd ≠ .net n)
    (hd : ∀ n, d ≠ .net n) : NetInv (s.setFd fd d) := by
  have hfds : ∀ fd' n, (s.setFd fd d).fds fd' = .net n ↔ s.fds fd' = .net n := by
    intro fd' n
    by_cases hsame : fd' = fd
    · subst hsame
      have hnew : (s.setFd fd' d).fds fd' = d := Function.update_self ..
      rw [hnew]
      exact iff_of_false (hd n) (hfd n)
    · have hkept : (s.setFd fd d).fds fd' = s.fds fd' := Function.update_of_ne hsame _ _
      rw [hkept]
  exact ⟨⟨fun fd' n hn => h.sockets fd' n ((hfds fd' n).mp hn), h.ctxs, h.ssls, h.wrong⟩, h.ctxLive,
    h.sslLive, fun n net hnet htls => (hfds _ n).mpr (h.secured n net hnet htls),
    fun fd' n hn => h.opened fd' n ((hfds fd' n).mp hn)⟩

/-- A connect that does not get to `socket`. -/
theorem networkConnect_nowhere {addresses : Option (List Attempt)}
    {config : TlsConfig} {tls : TlsResults} {rc : Int} (hno : addresses.getD [] = [])
    (h : networkConnect s n net addresses config tls = some (s', net', rc)) :
    s' = s ∧ net' = net := by
  cases addresses with
  | none =>
    cases h
    exact ⟨rfl, rfl⟩
  | some addresses =>
    obtain rfl : addresses = [] := hno
    cases h
    exact ⟨rfl, rfl⟩

/-- **An orderly step** keeps the invariant. -/
theorem NetInv.step (h : NetInv s) {a : NetAction N} (hok : Orderly s a)
    (hstep : netStep s a = some s') : NetInv s' := by
  cases a with
  | new n =>
    obtain ⟨hfresh, hrest⟩ := Option.ite_none_right_eq_some.mp hstep
    cases hrest
    obtain ⟨hfds, hctxs, hssls⟩ := h.unallocated (Option.isNone_iff_eq_none.mp hfresh)
    exact h.unreached hfds hctxs hssls rfl rfl
  | connect n addresses config tls =>
    obtain ⟨net, hnet, hrest⟩ := Option.bind_eq_some_iff.mp hstep
    obtain ⟨⟨s₁, net₁, rc⟩, hconnect, rfl⟩ := Option.map_eq_some_iff.mp hrest
    by_cases hfree : Connected s n
    · have hno : addresses.getD [] = [] := by
        match addresses, hok with
        | none, _ => rfl
        | some [], _ => rfl
        | some (_ :: _), hok => exact absurd hfree hok
      obtain ⟨rfl, rfl⟩ := networkConnect_nowhere hno hconnect
      have hsame : s₁.setNet n (some net₁) = s₁ := by
        rw [Ledger.setNet, ← hnet, Function.update_eq_self]
      change NetInv (s₁.setNet n (some net₁))
      rwa [hsame]
    · obtain ⟨hctx, hssl, hfds, hctxs, hssls⟩ := h.unconnected hnet hfree
      rcases networkConnect_spec hctx hssl hconnect with
        ⟨rfl, rfl | ⟨fd, -, rfl⟩⟩ | ⟨fd, hfd, hclosed, hsecures⟩
      · exact h.unreached hfds hctxs hssls hctx hssl
      · exact h.unreached hfds hctxs hssls hctx hssl
      · exact h.reached hnet hfree hfd hclosed hsecures
  | destroy n =>
    obtain ⟨net, hnet, rfl⟩ := Option.map_eq_some_iff.mp hstep
    exact h.destroyed hnet (hok net hnet)
  | openOther fd =>
    obtain ⟨hclosed, hrest⟩ := Option.ite_none_right_eq_some.mp hstep
    cases hrest
    exact h.others (fun n hn => nomatch hclosed.symm.trans hn) fun n hn => nomatch hn
  | closeOther fd =>
    obtain ⟨hother, hrest⟩ := Option.ite_none_right_eq_some.mp hstep
    cases hrest
    exact h.others (fun n hn => nomatch hother.symm.trans hn) fun n hn => nomatch hn

/-- **Any other step** loses a descriptor, or closes one of others. -/
theorem NetInv.not_tidy (h : NetInv s) {a : NetAction N} (hbad : ¬ Orderly s a)
    (hstep : netStep s a = some s') : ¬ Tidy s' := by
  match a, hbad with
  | .new _, hbad | .openOther _, hbad | .closeOther _, hbad | .connect _ none _ _, hbad
  | .connect _ (some []) _ _, hbad => exact absurd trivial hbad
  | .connect n (some (a :: rest)) config tls, hbad =>
    obtain ⟨net, hnet, hown⟩ := not_not.mp hbad
    obtain ⟨net', hnet', hrest⟩ := Option.bind_eq_some_iff.mp hstep
    cases hnet.symm.trans hnet'
    obtain ⟨⟨s₁, net₁, rc⟩, hconnect, rfl⟩ := Option.map_eq_some_iff.mp hrest
    obtain ⟨hkept, hnew⟩ := networkConnect_overwrites hconnect
    intro htidy
    -- The descriptor is still open, and the context has another one.
    have hopen : s₁.fds net.socket = .net n := by
      rw [hkept net.socket (by rw [hown]; exact nofun), hown]
    obtain ⟨net₂, hnet₂, hsocket⟩ := htidy.sockets net.socket n hopen
    have hself : (s₁.setNet n (some net₁)).nets n = some net₁ := Function.update_self ..
    cases hself.symm.trans hnet₂
    rw [hsocket] at hnew
    rcases hnew with hneg | hclosed
    · exact absurd (h.opened net.socket n hown) (Int.not_le.mpr hneg)
    · cases hclosed.symm.trans hown
  | .destroy n, hbad =>
    obtain ⟨net, hnet, rfl⟩ := Option.map_eq_some_iff.mp hstep
    have hexists : 0 ≤ net.socket ∧ ¬ (s.fds net.socket = .closed ∨ Connected s n) := by
      by_contra hnot
      refine hbad fun net' hnet' hpos => ?_
      cases hnet.symm.trans hnet'
      exact not_not.mp fun hfree => hnot ⟨hpos, hfree⟩
    obtain ⟨hpos, hopen⟩ := hexists
    obtain ⟨hopen, hfree⟩ := not_or.mp hopen
    rw [connected_iff hnet] at hfree
    exact fun htidy => networkDestroy_wrong hpos hopen hfree htidy.wrong

/-- No context yet; the rest of the program has the descriptors that `open` says. -/
def Ledger.start (opened : Int → Bool) : Ledger N where
  nets _ := none
  fds fd := if opened fd then .other else .closed
  ssls _ := none
  ctxs _ := none
  wrong := []

omit [DecidableEq N] in
theorem netInv_start (opened : Int → Bool) : NetInv (Ledger.start opened : Ledger N) := by
  have hfds : ∀ fd n, (Ledger.start opened : Ledger N).fds fd ≠ .net n := by
    intro fd n
    change (if opened fd then Descriptor.other else .closed) ≠ .net n
    split <;> nofun
  exact ⟨⟨fun fd n hn => absurd hn (hfds fd n), nofun, nofun, rfl⟩, nofun, nofun, nofun,
    fun fd n hn => absurd hn (hfds fd n)⟩

/-- **Exactly the orderly runs are tidy.** -/
theorem tidy_iff (opened : Int → Bool) (actions : List (NetAction N)) :
    Along netStep Tidy (Ledger.start opened) actions ↔
      Meets netStep Orderly (Ledger.start opened) actions :=
  along_iff_meets (fun _ h => h.toTidy) (fun _ _ _ h hok hstep => h.step hok hstep)
    (fun _ _ _ h hbad hstep => h.not_tidy hbad hstep) (netInv_start opened) actions

/-- A context that is destroyed before it connects closes descriptor 0, which the rest of the
program opened. -/
example : ((run netStep (Ledger.start fun fd => fd = 0) [.new (), .destroy ()]).map
    fun s => (s.fds 0, s.wrong)) = some (.closed, [.socket 0]) := by decide

end Runs

end ArmKernel.Mqtt
