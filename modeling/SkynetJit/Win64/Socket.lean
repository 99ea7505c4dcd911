import SkynetJit.Win64.Registry

/-!
# SkynetJit.Win64.Socket

The socket calls of the Windows layer (`win_compat.c`) over tokens.  A token
that is not in the registry is taken for a native handle of that number, for
callers that still pass one; so a token nobody holds reaches the native handle
it spells, whoever holds that one under a token of its own.

`dead_token_reaches_only_its_number` says that this is all it reaches, in every
run and whatever handles the operating system returns.  `select` and the
`epoll` calls are modelled as far as they use tokens; pipes are made of the
calls here.
-/

namespace SkynetJit.Win64

open Transition

/-- What a call can hand to the system: a socket, a poller, or a descriptor of
the C library. -/
inductive Native where
  | socket (value : UInt64)
  | poller (value : UInt64)
  | crt (fd : Int)
deriving DecidableEq, Repr

/-- The bridge that carries standard input over a pair of sockets. -/
inductive Bridge where
  | idle
  | started (reader writer : UInt64)
  | closed
deriving DecidableEq, Repr

/-- The process: its registry and its bridge, and the native handles the
system has open for it. -/
structure Process where
  registry : Registry
  bridge : Bridge
  sockets : List UInt64
  pollers : List UInt64
deriving DecidableEq, Repr

/-- What the system does during a call: the handle it returns for a socket,
an accepted socket or a poller, the pair of sockets it returns for the bridge,
and whether the registry starts and finds room. -/
structure Outcome where
  native : Option UInt64
  pair : Option (UInt64 × UInt64)
  started : Bool
  room : Bool
deriving DecidableEq, Repr

/-- The handles the system returns. -/
def Outcome.opened (e : Outcome) : List UInt64 :=
  e.native.toList ++ match e.pair with
    | some (reader, writer) => [reader, writer]
    | none => []

/-- `INVALID_SOCKET`. -/
def invalidSocket : UInt64 := 0xFFFFFFFFFFFFFFFF

/-- The system returns no handle that is open. -/
def Outcome.Fresh (e : Outcome) (s : Process) : Prop :=
  e.opened.Nodup ∧ ∀ v ∈ e.opened, v ≠ invalidSocket ∧ v ∉ s.sockets ∧ v ∉ s.pollers

instance (e : Outcome) (s : Process) : Decidable (e.Fresh s) :=
  @instDecidableAnd _ _ _ (List.decidableBAll _ e.opened)

/-- The process before its first call. -/
def newProcess : Process := ⟨[], .idle, [], []⟩

/-- `(SOCKET)(uintptr_t)(unsigned int)fd`. -/
def rawSocket (fd : Int) : UInt64 := UInt64.ofNat (fd % 2 ^ 32).toNat

/-- `(HANDLE)(intptr_t)token`. -/
def rawHandle (token : Int) : UInt64 := UInt64.ofNat (token % 2 ^ 64).toNat

/-- The handles that a call closes or uses for its tokens.  A socket that the
call itself opens is not among them. -/
abbrev Touched := List (Int × Native)

/-! ## The values of tokens -/

/-- `stdin_socket_value`. -/
def stdinSocketValue (e : Outcome) (s : Process) : UInt64 × Process :=
  match s.bridge with
  | .started reader _ => (reader, s)
  | .closed => (invalidSocket, s)
  | .idle =>
      match e.pair with
      | none => (invalidSocket, s)
      | some (reader, writer) =>
          (reader, { s with bridge := .started reader writer, sockets := reader :: writer :: s.sockets })

/-- `socket_value`. -/
def socketValue (e : Outcome) (s : Process) (fd : Int) : UInt64 × Process :=
  if fd = 0 then stdinSocketValue e s
  else match registryGet s.registry fd .socket with
    | some value => (value, s)
    | none => (rawSocket fd, s)

/-- `epoll_value`. -/
def epollValue (s : Process) (token : Int) : UInt64 :=
  match registryGet s.registry token .epoll with
  | some value => value
  | none => rawHandle token

/-! ## Opening -/

/-- Enter a new socket in the registry, or close it. -/
def addSocket (e : Outcome) (s : Process) (value : UInt64) : Process :=
  match registryAdd e.started e.room s.registry value .socket with
  | (-1, r) => { s with registry := r }
  | (_, r) => { s with registry := r, sockets := value :: s.sockets }

/-- `skynetjit_socket`. -/
def skynetjitSocket (e : Outcome) (s : Process) : Touched × Process :=
  if !e.started then ([], s)
  else match e.native with
    | none => ([], s)
    | some value => ([], addSocket e s value)

/-- `skynetjit_accept`. -/
def skynetjitAccept (e : Outcome) (s : Process) (fd : Int) : Touched × Process :=
  let v := socketValue e s fd
  match e.native with
  | none => ([(fd, .socket v.1)], v.2)
  | some value => ([(fd, .socket v.1)], addSocket e v.2 value)

/-- `skynetjit_epoll_create`. -/
def skynetjitEpollCreate (e : Outcome) (s : Process) : Touched × Process :=
  match e.native with
  | none => ([], s)
  | some value =>
      match registryAdd e.started e.room s.registry value .epoll with
      | (-1, r) => ([], { s with registry := r })
      | (_, r) => ([], { s with registry := r, pollers := value :: s.pollers })

/-! ## Closing -/

/-- `closesocket`: whether there was such a socket. -/
def closesocket (s : Process) (value : UInt64) : Bool × Process :=
  (value ∈ s.sockets, { s with sockets := s.sockets.erase value })

/-- `stdin_bridge_close`. -/
def stdinBridgeClose (s : Process) : Touched × Process :=
  match s.bridge with
  | .started reader writer =>
      ([(0, .socket writer), (0, .socket reader)],
        { (closesocket (closesocket s writer).2 reader).2 with bridge := .closed })
  | _ => ([(0, .crt 0)], s)

/-- `skynetjit_close`. -/
def skynetjitClose (s : Process) (fd : Int) : Touched × Process :=
  if fd = 0 then stdinBridgeClose s
  else
    let t := registryTake s.registry fd
    match t.1 with
    | some (.socket, value) => ([(fd, .socket value)], (closesocket { s with registry := t.2 } value).2)
    | some (.epoll, value) =>
        ([(fd, .poller value)], { s with registry := t.2, pollers := s.pollers.erase value })
    | _ =>
        let c := closesocket { s with registry := t.2 } (rawSocket fd)
        if c.1 then ([(fd, .socket (rawSocket fd))], c.2)
        else ([(fd, .socket (rawSocket fd)), (fd, .crt fd)], c.2)

/-! ## Using -/

/-- The calls that do something with one socket. -/
inductive SocketOp where
  | bind | listen | connect | shutdown | getpeername | getsockname | sendto | recvfrom
  | setsockopt | getsockopt | ioctlsocket
deriving DecidableEq, Repr

/-- A call of `SOCKET_CALL`'s kind. -/
def socketOp (e : Outcome) (s : Process) (fd : Int) : Touched × Process :=
  let v := socketValue e s fd
  ([(fd, .socket v.1)], v.2)

/-- `skynetjit_send`. -/
def skynetjitSend (e : Outcome) (s : Process) (fd : Int) (len : Nat) : Touched × Process :=
  if len = 0 then ([], s) else socketOp e s fd

/-- `skynetjit_recv`. -/
def skynetjitRecv (e : Outcome) (s : Process) (fd : Int) (len : Nat) : Touched × Process :=
  if len = 0 then ([], s) else socketOp e s fd

/-- `skynetjit_read`. -/
def skynetjitRead (e : Outcome) (s : Process) (fd : Int) (size : Nat) : Touched × Process :=
  if size = 0 then ([], s)
  else if fd = 0 then skynetjitRecv e s fd size
  else match registryGet s.registry fd .socket with
    | some _ => skynetjitRecv e s fd size
    | none => ([(fd, .crt fd)], s)

/-- `skynetjit_write`. -/
def skynetjitWrite (e : Outcome) (s : Process) (fd : Int) (size : Nat) : Touched × Process :=
  if size = 0 then ([], s)
  else match registryGet s.registry fd .socket with
    | some _ => skynetjitSend e s fd size
    | none => ([(fd, .crt fd)], s)

/-- `skynetjit_fcntl`, which sets a socket to non-blocking or does nothing. -/
def skynetjitFcntl (e : Outcome) (s : Process) (fd : Int) (nonblock : Bool) : Touched × Process :=
  if nonblock then socketOp e s fd else ([], s)

/-- `translate_fd_set` over the tokens of the three sets of `skynetjit_select`. -/
def skynetjitSelect (e : Outcome) : Process → List Int → Touched × Process
  | s, [] => ([], s)
  | s, fd :: fds =>
      let v := socketValue e s fd
      let rest := skynetjitSelect e v.2 fds
      ((fd, .socket v.1) :: rest.1, rest.2)

/-- `skynetjit_epoll_ctl`. -/
def skynetjitEpollCtl (e : Outcome) (s : Process) (epfd sock : Int) : Touched × Process :=
  let v := socketValue e s sock
  ([(epfd, .poller (epollValue s epfd)), (sock, .socket v.1)], v.2)

/-- `skynetjit_epoll_wait`. -/
def skynetjitEpollWait (s : Process) (epfd : Int) : Touched × Process :=
  ([(epfd, .poller (epollValue s epfd))], s)

/-! ## The calls as steps -/

/-- A call. -/
inductive SocketCall where
  | socket | accept (fd : Int) | epollCreate | close (fd : Int)
  | op (op : SocketOp) (fd : Int) | send (fd : Int) (len : Nat) | recv (fd : Int) (len : Nat)
  | read (fd : Int) (size : Nat) | write (fd : Int) (size : Nat) | fcntl (fd : Int) (nonblock : Bool)
  | select (fds : List Int) | epollCtl (epfd sock : Int) | epollWait (epfd : Int)
deriving DecidableEq, Repr

/-- What a call touches, and the process behind it. -/
def socketCall (e : Outcome) (s : Process) : SocketCall → Touched × Process
  | .socket => skynetjitSocket e s
  | .accept fd => skynetjitAccept e s fd
  | .epollCreate => skynetjitEpollCreate e s
  | .close fd => skynetjitClose s fd
  | .op _ fd => socketOp e s fd
  | .send fd len => skynetjitSend e s fd len
  | .recv fd len => skynetjitRecv e s fd len
  | .read fd size => skynetjitRead e s fd size
  | .write fd size => skynetjitWrite e s fd size
  | .fcntl fd nonblock => skynetjitFcntl e s fd nonblock
  | .select fds => skynetjitSelect e s fds
  | .epollCtl epfd sock => skynetjitEpollCtl e s epfd sock
  | .epollWait epfd => skynetjitEpollWait s epfd

/-- A call as a step, if the system returns only handles that are not open. -/
def socketStep (s : Process) (a : SocketCall × Outcome) : Option Process :=
  if a.2.Fresh s then some (socketCall a.2 s a.1).2 else none

/-! ## What the registry holds -/

/-- The registry fits, and its sockets are sockets. -/
structure Process.Ok (s : Process) : Prop where
  fits : s.registry.Fits
  valid : ∀ t v, live s.registry t = some (.socket, v) → v ≠ invalidSocket

theorem Process.Ok.of_registry {s s' : Process} (h : s.Ok) (hsame : s'.registry = s.registry) : s'.Ok where
  fits := by
    rw [hsame]
    exact h.fits
  valid := by
    rw [hsame]
    exact h.valid

/-- Entering a handle that is no invalid socket. -/
theorem Process.Ok.add {s s' : Process} (h : s.Ok) {started room : Bool} {value : UInt64} {kind : HandleKind}
    (hkind : kind ≠ .none) (hvalue : value ≠ invalidSocket)
    (hadd : s'.registry = (registryAdd started room s.registry value kind).2) : s'.Ok := by
  obtain ⟨hfits, hstep⟩ := registryAdd_spec h.fits started room value hkind
  rw [← hadd] at hfits hstep
  refine ⟨hfits, fun t v hlive => ?_⟩
  generalize live s'.registry = m at hstep hlive
  generalize (registryAdd started room s.registry value kind).1 = id at hstep
  cases hstep with
  | addFails => exact h.valid t v hlive
  | adds =>
      by_cases ht : t = id
      · rw [ht, HandleMap.put_self, Option.some.injEq, Prod.mk.injEq] at hlive
        rw [← hlive.2]
        exact hvalue
      · rw [HandleMap.put_of_ne _ _ ht] at hlive
        exact h.valid t v hlive

theorem Process.Ok.take {s s' : Process} (h : s.Ok) {fd : Int}
    (htake : s'.registry = (registryTake s.registry fd).2) : s'.Ok := by
  obtain ⟨hfits, -, hmap⟩ := registryTake_spec h.fits fd
  rw [← htake] at hfits hmap
  refine ⟨hfits, fun t v hlive => ?_⟩
  rw [hmap] at hlive
  by_cases ht : t = fd
  · rw [ht, HandleMap.put_self] at hlive
    contradiction
  · rw [HandleMap.put_of_ne _ _ ht] at hlive
    exact h.valid t v hlive

@[simp] theorem socketValue_registry (e : Outcome) (s : Process) (fd : Int) :
    (socketValue e s fd).2.registry = s.registry := by
  rw [socketValue]
  split
  · rw [stdinSocketValue]
    split
    · rfl
    · rfl
    · split <;> rfl
  · split <;> rfl

theorem addSocket_registry (e : Outcome) (s : Process) (value : UInt64) :
    (addSocket e s value).registry = (registryAdd e.started e.room s.registry value .socket).2 := by
  rw [addSocket]
  split
  · next h => rw [h]
  · next h => rw [h]

theorem stdinBridgeClose_registry (s : Process) : (stdinBridgeClose s).2.registry = s.registry := by
  rw [stdinBridgeClose]
  split <;> rfl

theorem skynetjitSelect_registry (e : Outcome) (s : Process) (fds : List Int) :
    (skynetjitSelect e s fds).2.registry = s.registry := by
  induction fds generalizing s with
  | nil => rfl
  | cons fd fds ih =>
      simp only [skynetjitSelect]
      rw [ih, socketValue_registry]

theorem skynetjitSend_registry (e : Outcome) (s : Process) (fd : Int) (len : Nat) :
    (skynetjitSend e s fd len).2.registry = s.registry := by
  rw [skynetjitSend]
  split
  · rfl
  · exact socketValue_registry e s fd

theorem skynetjitRecv_registry (e : Outcome) (s : Process) (fd : Int) (len : Nat) :
    (skynetjitRecv e s fd len).2.registry = s.registry := by
  rw [skynetjitRecv]
  split
  · rfl
  · exact socketValue_registry e s fd

theorem skynetjitRead_registry (e : Outcome) (s : Process) (fd : Int) (size : Nat) :
    (skynetjitRead e s fd size).2.registry = s.registry := by
  rw [skynetjitRead]
  split
  · rfl
  · split
    · exact skynetjitRecv_registry e s fd size
    · split
      · exact skynetjitRecv_registry e s fd size
      · rfl

theorem skynetjitWrite_registry (e : Outcome) (s : Process) (fd : Int) (size : Nat) :
    (skynetjitWrite e s fd size).2.registry = s.registry := by
  rw [skynetjitWrite]
  split
  · rfl
  · split
    · exact skynetjitSend_registry e s fd size
    · rfl

theorem skynetjitFcntl_registry (e : Outcome) (s : Process) (fd : Int) (nonblock : Bool) :
    (skynetjitFcntl e s fd nonblock).2.registry = s.registry := by
  rw [skynetjitFcntl]
  split
  · exact socketValue_registry e s fd
  · rfl

theorem skynetjitClose_ok {s : Process} (h : s.Ok) (fd : Int) : (skynetjitClose s fd).2.Ok := by
  rw [skynetjitClose]
  by_cases hfd : fd = 0
  · rw [if_pos hfd]
    exact h.of_registry (stdinBridgeClose_registry s)
  · simp only [if_neg hfd]
    split
    · exact h.take rfl
    · exact h.take rfl
    · split
      · exact h.take rfl
      · exact h.take rfl

/-- One call keeps the registry in order. -/
theorem socketCall_ok {e : Outcome} {s : Process} (h : s.Ok) (hfresh : e.Fresh s) (call : SocketCall) :
    (socketCall e s call).2.Ok := by
  have hnative : ∀ v, e.native = some v → v ≠ invalidSocket := by
    intro v hv
    refine (hfresh.2 v ?_).1
    rw [Outcome.opened, hv]
    exact List.mem_append_left _ (List.mem_singleton.mpr rfl)
  have hsocket : HandleKind.socket ≠ .none := by decide
  have hepoll : HandleKind.epoll ≠ .none := by decide
  cases call with
  | socket =>
      rw [socketCall, skynetjitSocket]
      split
      · exact h
      · cases hn : e.native with
        | none => exact h
        | some value => exact h.add hsocket (hnative value hn) (addSocket_registry e s value)
  | accept fd =>
      rw [socketCall, skynetjitAccept]
      cases hn : e.native with
      | none => exact h.of_registry (socketValue_registry e s fd)
      | some value =>
          exact h.add hsocket (hnative value hn)
            ((addSocket_registry e _ value).trans (by rw [socketValue_registry]))
  | epollCreate =>
      rw [socketCall, skynetjitEpollCreate]
      cases hn : e.native with
      | none => exact h
      | some value =>
          simp only
          split
          · next hadd => exact h.add hepoll (hnative value hn) (by rw [hadd])
          · next hadd => exact h.add hepoll (hnative value hn) (by rw [hadd])
  | close fd => exact skynetjitClose_ok h fd
  | op op fd => exact h.of_registry (socketValue_registry e s fd)
  | send fd len => exact h.of_registry (skynetjitSend_registry e s fd len)
  | recv fd len => exact h.of_registry (skynetjitRecv_registry e s fd len)
  | read fd size => exact h.of_registry (skynetjitRead_registry e s fd size)
  | write fd size => exact h.of_registry (skynetjitWrite_registry e s fd size)
  | fcntl fd nonblock => exact h.of_registry (skynetjitFcntl_registry e s fd nonblock)
  | select fds => exact h.of_registry (skynetjitSelect_registry e s fds)
  | epollCtl epfd sock => exact h.of_registry (socketValue_registry e s sock)
  | epollWait epfd => exact h

theorem ok_of_run {calls : List (SocketCall × Outcome)} {s : Process}
    (hrun : run socketStep newProcess calls = some s) : s.Ok := by
  refine run_invariant (fun s a s' hs hstep => ?_) ?_ hrun
  · rw [socketStep] at hstep
    split_ifs at hstep with hfresh
    rw [← Option.some.inj hstep]
    exact socketCall_ok hs hfresh a.1
  · refine ⟨Nat.zero_le _, fun t v hlive => ?_⟩
    have hnone : live newProcess.registry t = none := by
      rw [live, newProcess, List.getElem?_nil]
      split_ifs <;> rfl
    rw [hnone] at hlive
    contradiction

/-! ## What a token reaches -/

/-- The sockets of the bridge, if it is up or comes up during the call. -/
def bridgeSockets (e : Outcome) (s : Process) : List UInt64 :=
  match s.bridge with
  | .started reader writer => [reader, writer]
  | .closed => []
  | .idle =>
      match e.pair with
      | some (reader, writer) => [reader, writer]
      | none => []

/-- What a token that is not live reaches: the handle that its number spells,
or standard input. -/
inductive Spelled (e : Outcome) (s : Process) (t : Int) : Native → Prop where
  | socket (ht : t ≠ 0) : Spelled e s t (.socket (rawSocket t))
  | poller : Spelled e s t (.poller (rawHandle t))
  | crt : Spelled e s t (.crt t)
  | bridge {v : UInt64} (ht : t = 0) (hv : v = invalidSocket ∨ v ∈ bridgeSockets e s) : Spelled e s t (.socket v)

theorem registryGet_dead {r : Registry} {t : Int} (h : live r t = none) {kind : HandleKind}
    (hkind : kind ≠ .none) : registryGet r t kind = none := by
  cases hget : registryGet r t kind with
  | none => rfl
  | some value =>
      rw [registryGet_eq_some_iff hkind, h] at hget
      contradiction

/-- `socket_value` of a token that is not live. -/
theorem socketValue_dead (e : Outcome) {s : Process} {t : Int} (h : live s.registry t = none) :
    Spelled e s t (.socket (socketValue e s t).1) := by
  rw [socketValue]
  by_cases ht : t = 0
  · rw [if_pos ht, stdinSocketValue]
    cases hbridge : s.bridge with
    | started reader writer =>
        exact .bridge ht (.inr (by rw [bridgeSockets, hbridge]; exact List.mem_cons_self))
    | closed => exact .bridge ht (.inl rfl)
    | idle =>
        cases hpair : e.pair with
        | none => exact .bridge ht (.inl rfl)
        | some pair =>
            exact .bridge ht (.inr (by rw [bridgeSockets, hbridge, hpair]; exact List.mem_cons_self))
  · rw [if_neg ht, registryGet_dead h (by decide)]
    exact .socket ht

theorem epollValue_dead (e : Outcome) {s : Process} {t : Int} (h : live s.registry t = none) :
    Spelled e s t (.poller (epollValue s t)) := by
  rw [epollValue, registryGet_dead h (by decide)]
  exact .poller

/-- The bridge keeps its sockets while tokens are translated. -/
theorem bridgeSockets_socketValue (e : Outcome) (s : Process) (fd : Int) :
    bridgeSockets e (socketValue e s fd).2 = bridgeSockets e s := by
  rw [socketValue]
  split
  · rw [stdinSocketValue]
    cases hbridge : s.bridge with
    | started reader writer => rfl
    | closed => rfl
    | idle =>
        cases hpair : e.pair with
        | none => rfl
        | some pair => simp only [bridgeSockets, hbridge, hpair]
  · split <;> rfl

theorem Spelled.of_bridge {e : Outcome} {s s' : Process} {t : Int} {n : Native} (h : Spelled e s' t n)
    (hsame : bridgeSockets e s' = bridgeSockets e s) : Spelled e s t n := by
  cases h with
  | socket ht => exact .socket ht
  | poller => exact .poller
  | crt => exact .crt
  | bridge ht hv => exact .bridge ht (hsame ▸ hv)

/-- What a call reaches for its dead tokens is what they spell. -/
def SpellsDead (e : Outcome) (s : Process) (touched : Touched) : Prop :=
  ∀ t n, (t, n) ∈ touched → live s.registry t = none → Spelled e s t n

theorem spellsDead_nil (e : Outcome) (s : Process) : SpellsDead e s [] :=
  fun _ _ h => absurd h List.not_mem_nil

theorem SpellsDead.cons {e : Outcome} {s : Process} {touched : Touched} {fd : Int} {n : Native}
    (hfd : live s.registry fd = none → Spelled e s fd n) (h : SpellsDead e s touched) :
    SpellsDead e s ((fd, n) :: touched) := by
  intro t n' hmem hdead
  rcases List.mem_cons.mp hmem with heq | hmem
  · obtain ⟨rfl, rfl⟩ := Prod.mk.inj heq
    exact hfd hdead
  · exact h t n' hmem hdead

theorem spellsDead_one {e : Outcome} {s : Process} {fd : Int} {n : Native}
    (hfd : live s.registry fd = none → Spelled e s fd n) : SpellsDead e s [(fd, n)] :=
  (spellsDead_nil e s).cons hfd

theorem socketOp_spells (e : Outcome) (s : Process) (fd : Int) : SpellsDead e s (socketOp e s fd).1 :=
  spellsDead_one (socketValue_dead e)

theorem skynetjitSend_spells (e : Outcome) (s : Process) (fd : Int) (len : Nat) :
    SpellsDead e s (skynetjitSend e s fd len).1 := by
  rw [skynetjitSend]
  split
  · exact spellsDead_nil e s
  · exact socketOp_spells e s fd

theorem skynetjitRecv_spells (e : Outcome) (s : Process) (fd : Int) (len : Nat) :
    SpellsDead e s (skynetjitRecv e s fd len).1 := by
  rw [skynetjitRecv]
  split
  · exact spellsDead_nil e s
  · exact socketOp_spells e s fd

theorem skynetjitRead_spells (e : Outcome) (s : Process) (fd : Int) (size : Nat) :
    SpellsDead e s (skynetjitRead e s fd size).1 := by
  rw [skynetjitRead]
  split
  · exact spellsDead_nil e s
  · split
    · exact skynetjitRecv_spells e s fd size
    · split
      · exact skynetjitRecv_spells e s fd size
      · exact spellsDead_one fun _ => .crt

theorem skynetjitWrite_spells (e : Outcome) (s : Process) (fd : Int) (size : Nat) :
    SpellsDead e s (skynetjitWrite e s fd size).1 := by
  rw [skynetjitWrite]
  split
  · exact spellsDead_nil e s
  · split
    · exact skynetjitSend_spells e s fd size
    · exact spellsDead_one fun _ => .crt

theorem skynetjitFcntl_spells (e : Outcome) (s : Process) (fd : Int) (nonblock : Bool) :
    SpellsDead e s (skynetjitFcntl e s fd nonblock).1 := by
  rw [skynetjitFcntl]
  split
  · exact socketOp_spells e s fd
  · exact spellsDead_nil e s

theorem skynetjitSelect_spells (e : Outcome) (s : Process) (fds : List Int) :
    SpellsDead e s (skynetjitSelect e s fds).1 := by
  induction fds generalizing s with
  | nil => exact spellsDead_nil e s
  | cons fd fds ih =>
      refine SpellsDead.cons (socketValue_dead e) fun t n hmem hdead => ?_
      -- the bridge may have come up, and the registry is the same
      have hspelled := ih (socketValue e s fd).2 t n hmem (by rwa [socketValue_registry])
      exact hspelled.of_bridge (bridgeSockets_socketValue e s fd)

theorem stdinBridgeClose_spells (e : Outcome) (s : Process) :
    SpellsDead e s (stdinBridgeClose s).1 := by
  rw [stdinBridgeClose]
  cases hbridge : s.bridge with
  | started reader writer =>
      have hsockets : bridgeSockets e s = [reader, writer] := by rw [bridgeSockets, hbridge]
      refine SpellsDead.cons (fun _ => .bridge rfl (.inr ?_)) (spellsDead_one fun _ => .bridge rfl (.inr ?_))
      · rw [hsockets]
        exact List.mem_cons_of_mem _ List.mem_cons_self
      · rw [hsockets]
        exact List.mem_cons_self
  | idle => exact spellsDead_one fun _ => .crt
  | closed => exact spellsDead_one fun _ => .crt

theorem skynetjitClose_spells {s : Process} (h : s.Ok) (e : Outcome) (fd : Int) :
    SpellsDead e s (skynetjitClose s fd).1 := by
  rw [skynetjitClose]
  by_cases hfd : fd = 0
  · rw [if_pos hfd]
    exact stdinBridgeClose_spells e s
  · simp only [if_neg hfd]
    have htake := (registryTake_spec h.fits fd).2.1
    split
    · next hsome =>
        rw [htake] at hsome
        exact spellsDead_one fun hdead => absurd (hsome.symm.trans hdead) (Option.some_ne_none _)
    · next hsome =>
        rw [htake] at hsome
        exact spellsDead_one fun hdead => absurd (hsome.symm.trans hdead) (Option.some_ne_none _)
    · split
      · exact spellsDead_one fun _ => .socket hfd
      · exact SpellsDead.cons (fun _ => .socket hfd) (spellsDead_one fun _ => .crt)

theorem socketCall_spells {s : Process} (h : s.Ok) (e : Outcome) (call : SocketCall) :
    SpellsDead e s (socketCall e s call).1 := by
  cases call with
  | socket =>
      rw [socketCall, skynetjitSocket]
      split
      · exact spellsDead_nil e s
      · split <;> exact spellsDead_nil e s
  | accept fd =>
      rw [socketCall, skynetjitAccept]
      split <;> exact spellsDead_one (socketValue_dead e)
  | epollCreate =>
      rw [socketCall, skynetjitEpollCreate]
      split
      · exact spellsDead_nil e s
      · split <;> exact spellsDead_nil e s
  | close fd => exact skynetjitClose_spells h e fd
  | op op fd => exact socketOp_spells e s fd
  | send fd len => exact skynetjitSend_spells e s fd len
  | recv fd len => exact skynetjitRecv_spells e s fd len
  | read fd size => exact skynetjitRead_spells e s fd size
  | write fd size => exact skynetjitWrite_spells e s fd size
  | fcntl fd nonblock => exact skynetjitFcntl_spells e s fd nonblock
  | select fds => exact skynetjitSelect_spells e s fds
  | epollCtl epfd sock =>
      exact SpellsDead.cons (epollValue_dead e) (spellsDead_one (socketValue_dead e))
  | epollWait epfd => exact spellsDead_one (epollValue_dead e)

/-- **A dead token reaches only the handle that its number spells.**  In every
state that any sequence of calls reaches, whatever handles the system returns,
if a call reaches for a token that is not live a native socket that is
registered under a live token, the dead token's number is that of the socket;
standard input, which is descriptor 0, reaches only the sockets of its
bridge. -/
theorem dead_token_reaches_only_its_number (calls : List (SocketCall × Outcome)) (s : Process)
    (hrun : run socketStep newProcess calls = some s) (call : SocketCall) (e : Outcome) (t t' : Int)
    (v : UInt64) (htouched : (t, .socket v) ∈ (socketCall e s call).1)
    (hdead : live s.registry t = none) (hlive : live s.registry t' = some (.socket, v)) :
    if t = 0 then v ∈ bridgeSockets e s else v = rawSocket t := by
  have hok := ok_of_run hrun
  have hspelled := socketCall_spells hok e call t _ htouched hdead
  generalize hn : Native.socket v = n at hspelled
  cases hspelled with
  | socket ht =>
      rw [if_neg ht]
      exact Native.socket.inj hn
  | poller => contradiction
  | crt => contradiction
  | bridge ht hv =>
      obtain rfl := Native.socket.inj hn
      rw [if_pos ht]
      exact hv.resolve_left (hok.valid t' v hlive)

/-- A socket whose native handle has a low number. -/
def lowSocket : List (SocketCall × Outcome) := [(.socket, ⟨some 100, none, true, true⟩)]

/-- Where the call leads: closing 100, which nobody was given, reaches the
socket registered under 256. -/
theorem lowSocket_outcome :
    ((run socketStep newProcess lowSocket).map fun s =>
      decide ((⟨none, none, true, true⟩ : Outcome).Fresh s ∧ live s.registry 100 = none ∧
        live s.registry 256 = some (.socket, 100) ∧
        (100, .socket 100) ∈ (socketCall ⟨none, none, true, true⟩ s (.close 100)).1)) = some true := by
  decide

theorem dead_token_reaches_only_its_number_sample :
    ∃ s, run socketStep newProcess lowSocket = some s ∧
      (if (100 : Int) = 0 then (100 : UInt64) ∈ bridgeSockets ⟨none, none, true, true⟩ s
        else 100 = rawSocket 100) := by
  obtain ⟨s, hs, hfacts⟩ := Option.map_eq_some_iff.mp lowSocket_outcome
  obtain ⟨-, hdead, hlive, htouched⟩ := of_decide_eq_true hfacts
  exact ⟨s, hs, dead_token_reaches_only_its_number lowSocket s hs (.close 100)
    ⟨none, none, true, true⟩ 100 256 100 htouched hdead hlive⟩

/-- **Closing a number nobody was given** closes the socket of a live token
with that native handle. -/
theorem dead_token_closes_live_socket :
    ¬ ∀ (calls : List (SocketCall × Outcome)) (s : Process), run socketStep newProcess calls = some s →
      ∀ (call : SocketCall) (e : Outcome), e.Fresh s → ∀ (t t' : Int) (v : UInt64), t ≠ t' →
        live s.registry t = none → live s.registry t' = some (.socket, v) →
        (t, .socket v) ∉ (socketCall e s call).1 := by
  intro h
  obtain ⟨s, hs, hfacts⟩ := Option.map_eq_some_iff.mp lowSocket_outcome
  obtain ⟨hfresh, hdead, hlive, htouched⟩ := of_decide_eq_true hfacts
  exact h lowSocket s hs (.close 100) ⟨none, none, true, true⟩ hfresh 100 256 100 (by decide)
    hdead hlive htouched

end SkynetJit.Win64
