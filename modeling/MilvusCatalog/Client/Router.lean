import MilvusCatalog.Coordinator
import MilvusCatalog.Lib.Transition

/-! The discovery client. A router is shared by any number of calls; a call runs
from one of the router's locked sections, or one exchange with the network, to
the next, so that every interleaving of such sections is a run. -/
namespace MilvusCatalog.Client
open Go

/-! ## Errors -/

/-- The gRPC status codes that the client tells apart. -/
inductive Code
  | unavailable
  | deadlineExceeded
  | other
  deriving DecidableEq, Repr

/-- What the client asks `merr` and `status` about errors of type `E` and about
the statuses of responses of type `R`. -/
structure Errors (E R : Type) where
  isRetryableErr : E → Bool
  code : E → Code
  statusErr : R → Option E
  serviceUnavailable : Str → E

variable {E R : Type}

def isRetriableRejection (er : Errors E R) (e : E) : Bool := er.isRetryableErr e

def isAmbiguousTransport (er : Errors E R) (e : E) : Bool :=
  match er.code e with
  | .unavailable | .deadlineExceeded => true
  | .other => false

/-- A response that is absent has no status, which `merr.Error` takes for success. -/
def callErr (er : Errors E R) (transport : Option E) (out : Option R) : Option E :=
  match transport with
  | some e => some e
  | none => out.bind er.statusErr

/-- How one invocation of an RPC ends, and whether the server applied it. -/
inductive Reply (E R : Type)
  | answered (response : R) (applied : Bool)
  | broken (transport : E) (applied : Bool)

def Reply.applied : Reply E R → Bool
  | .answered _ applied | .broken _ applied => applied

def Reply.out : Reply E R → Option R
  | .answered response _ => some response
  | .broken _ _ => none

def Reply.err (er : Errors E R) : Reply E R → Option E
  | .answered response _ => callErr er none (some response)
  | .broken e _ => callErr er (some e) none

/-! ## The router -/

abbrev Owners := Std.ExtTreeMap Nat Str
abbrev Terms := Std.ExtTreeMap Nat Nat

/-- A `grpc.ClientConn`. -/
structure Conn where
  id : Nat
  addr : Str
  deriving DecidableEq, Repr

/-- `dialed` counts the connections made so far and `closed` lists those that
were shut. -/
structure Router where
  bootstrap : List Str
  shardOwner : Owners
  shardTerm : Terms
  conns : Std.ExtTreeMap Str Conn
  dialed : Nat
  closed : List Nat

namespace Router

/-- `NewRouter`. -/
def new (bootstrap : List Str) : Router := ⟨bootstrap, ∅, ∅, ∅, 0, []⟩

def live (r : Router) (owner : Owners) (addr : Str) : Bool :=
  owner.values.contains addr || r.bootstrap.contains addr

def evictStaleConnsLocked (r : Router) (owner : Owners) : Router :=
  { r with
    conns := r.conns.filter fun addr _ => r.live owner addr
    closed := r.closed ++
      (r.conns.toList.filter fun e => !r.live owner e.1).map fun e => e.2.id }

/-- The last locked section of `Refresh`. -/
def install (r : Router) (owner : Owners) (term : Terms) : Router :=
  { r with shardOwner := owner, shardTerm := term }.evictStaleConnsLocked owner

/-- `conn`, given the error with which a dial would end. -/
def conn (r : Router) (addr : Str) (dial : Option E) : Except E (Router × Conn) :=
  match r.conns[addr]? with
  | some c => .ok (r, c)
  | none =>
    match dial with
    | some e => .error e
    | none =>
      let c : Conn := ⟨r.dialed, addr⟩
      .ok ({ r with conns := r.conns.insert addr c, dialed := r.dialed + 1 }, c)

/-- The identifiers of the connections in the pool. -/
def pooled (r : Router) : List Nat := r.conns.toList.map fun e => e.2.id

/-- `Close` shuts what is in the pool and empties it. The router stays usable. -/
def close (r : Router) : Router := { r with conns := ∅, closed := r.closed ++ r.pooled }

/-- A shard that is not in a map reads as the zero value. -/
def routeFor (cfg : Config) (r : Router) (ns : Str) : Str × Nat :=
  (r.shardOwner.getD (cfg.shardOf ns) [], r.shardTerm.getD (cfg.shardOf ns) 0)

end Router

/-! ## Calls -/

def maxAttempts : Nat := 4

/-- What a caller asks for: a route map refresh, a call through `Do`, or one of
the two reference count deltas, which go through `DoNonIdempotent`. -/
inductive Kind
  | refresh
  | idempotent
  | incFileResourceRefCnt
  | decFileResourceRefCnt
  deriving DecidableEq, Repr

def Kind.retryAmbiguous : Kind → Bool
  | .incFileResourceRefCnt | .decFileResourceRefCnt => false
  | _ => true

/-- What one application of the call adds to the stored count. -/
def Kind.delta : Kind → Int
  | .incFileResourceRefCnt => 1
  | .decFileResourceRefCnt => -1
  | _ => 0

/-- Where `Refresh` stands: before the owners are collected, before the next
address, waiting for an answer, before the answer is installed. -/
inductive Refresh (E : Type)
  | collect
  | next (addrs : List Str) (lastErr : Option E)
  | asking (c : Conn) (rest : List Str) (lastErr : Option E)
  | install (owner : Owners) (term : Terms)

/-- What follows a `Refresh`: a second look at the route, the next attempt
whatever the result, or the return of the result. -/
inductive Then
  | reroute
  | retry
  | finish
  deriving DecidableEq, Repr

inductive Pc (E : Type)
  | attempt
  | route
  | refresh (at_ : Refresh E) (next : Then)
  | reroute
  | dial (owner : Str) (term : Nat)
  | invoking (c : Conn) (term : Nat)
  | returned (err : Option E)

/-- `replies` are the invocations of the RPC so far, oldest first. -/
structure Call (E R : Type) where
  ns : Str
  kind : Kind
  attempt : Nat
  lastErr : Option E
  out : Option R
  replies : List (Reply E R)
  pc : Pc E

namespace Call

def start (ns : Str) (kind : Kind) : Call E R :=
  ⟨ns, kind, 0, none, none, [], if kind = .refresh then .refresh .collect .finish else .attempt⟩

/-- `continue`, which ends the loop after the last attempt. -/
def continue_ (c : Call E R) : Call E R :=
  { c with
    attempt := c.attempt + 1
    pc := if c.attempt + 1 < maxAttempts then .attempt else .returned c.lastErr }

/-- `Refresh` returns `err`. -/
def refreshed (c : Call E R) (next : Then) (err : Option E) : Call E R :=
  match next, err with
  | .reroute, some e => { c with lastErr := some e }.continue_
  | .reroute, none => { c with pc := .reroute }
  | .retry, _ => c.continue_
  | .finish, err => { c with pc := .returned err }

def retry (c : Call E R) (e : E) : Call E R :=
  { c with lastErr := some e, pc := .refresh .collect .retry }

/-- The connection and the term of a call that is being made. -/
def stamped (c : Call E R) : Option (Conn × Nat) :=
  match c.pc with
  | .invoking conn term => some (conn, term)
  | _ => none

/-- The maps that a call is about to install. -/
def installing (c : Call E R) : Option (Owners × Terms) :=
  match c.pc with
  | .refresh (.install owner term) _ => some (owner, term)
  | _ => none

theorem stamped_eq_some {c : Call E R} {conn : Conn} {term : Nat} :
    c.stamped = some (conn, term) ↔ c.pc = .invoking conn term := by
  unfold stamped
  split
  · next at_ => simp [at_]
  · next other => exact iff_of_false nofun (other conn term)

theorem installing_eq_some {c : Call E R} {owner : Owners} {term : Terms} :
    c.installing = some (owner, term) ↔ ∃ next, c.pc = .refresh (.install owner term) next := by
  unfold installing
  split
  · next at_ => simp [at_]
  · next other =>
    refine iff_of_false nofun ?_
    rintro ⟨next, at_⟩
    exact other owner term next at_

/-- The invocations that the server has applied. -/
def applied (c : Call E R) : Nat := c.replies.countP Reply.applied

end Call

/-- What the environment decides at a step of a call. -/
inductive Input (E R : Type)
  | none
  | ctx (err : Option E)
  | order (owners : List Str)
  | dial (err : Option E)
  | failed (err : E)
  | routes (owner : Owners) (term : Terms)
  | reply (r : Reply E R)

/-- The delta that an input adds to the stored count. -/
def Input.effect (kind : Kind) : Input E R → Int
  | .reply r => if r.applied then kind.delta else 0
  | _ => 0

/-- One step of a call. -/
def step (er : Errors E R) (cfg : Config) (r : Router) (c : Call E R) (i : Input E R) :
    Option (Router × Call E R) :=
  match c.pc, i with
  | .attempt, .ctx (some e) => some (r, { c with pc := .returned (some e) })
  | .attempt, .ctx none => some (r, { c with pc := .route })
  | .route, .none =>
    let (owner, term) := r.routeFor cfg c.ns
    if owner = [] then some (r, { c with pc := .refresh .collect .reroute })
    else some (r, { c with pc := .dial owner term })
  | .reroute, .none =>
    let (owner, term) := r.routeFor cfg c.ns
    if owner = [] then
      let e := er.serviceUnavailable (str "namespace " ++ c.ns ++ str " has no owner yet")
      some (r, { c with lastErr := some e }.continue_)
    else some (r, { c with pc := .dial owner term })
  | .dial owner term, .dial err =>
    match r.conn owner err with
    | .ok (r, conn) => some (r, { c with pc := .invoking conn term })
    | .error e => some (r, c.retry e)
  | .invoking _ _, .reply reply =>
    let c := { c with out := reply.out, replies := c.replies ++ [reply] }
    match reply.err er with
    | none => some (r, { c with pc := .returned none })
    | some e =>
      if isRetriableRejection er e || (c.kind.retryAmbiguous && isAmbiguousTransport er e) then
        some (r, c.retry e)
      else some (r, { c with pc := .returned (some e) })
  | .refresh .collect next, .order owners =>
    if owners.Perm r.shardOwner.values then
      some (r, { c with pc := .refresh (.next (r.bootstrap ++ owners) none) next })
    else none
  | .refresh (.next [] lastErr) next, .none =>
    let e := lastErr.getD (er.serviceUnavailable (str "no catalog node reachable for route map"))
    some (r, c.refreshed next (some e))
  | .refresh (.next (addr :: rest) lastErr) next, .dial err =>
    match r.conn addr err with
    | .ok (r, conn) => some (r, { c with pc := .refresh (.asking conn rest lastErr) next })
    | .error e => some (r, { c with pc := .refresh (.next rest (some e)) next })
  -- The call failed, or the response carries an error status.
  | .refresh (.asking _ rest _) next, .failed e =>
    some (r, { c with pc := .refresh (.next rest (some e)) next })
  | .refresh (.asking _ _ _) next, .routes owner term =>
    some (r, { c with pc := .refresh (.install owner term) next })
  | .refresh (.install owner term) next, .none =>
    some (r.install owner term, c.refreshed next none)
  | _, _ => none

/-! What a step computes, by where the call stands. -/

section
variable {er : Errors E R} {cfg : Config} {r : Router} {c : Call E R}

theorem step_attempt (at_ : c.pc = .attempt) :
    step er cfg r c (.ctx none) = some (r, { c with pc := .route }) := by
  cases c
  cases at_
  rfl

theorem step_route (at_ : c.pc = .route) : step er cfg r c .none =
    if (r.routeFor cfg c.ns).1 = [] then some (r, { c with pc := .refresh .collect .reroute })
    else some (r, { c with pc := .dial (r.routeFor cfg c.ns).1 (r.routeFor cfg c.ns).2 }) := by
  cases c
  cases at_
  rfl

theorem step_reroute (at_ : c.pc = .reroute) (owned : (r.routeFor cfg c.ns).1 ≠ []) :
    step er cfg r c .none =
      some (r, { c with pc := .dial (r.routeFor cfg c.ns).1 (r.routeFor cfg c.ns).2 }) := by
  cases c
  cases at_
  exact if_neg owned

theorem step_dial {owner : Str} {term : Nat} (at_ : c.pc = .dial owner term) (err : Option E) :
    step er cfg r c (.dial err) = match r.conn owner err with
      | .ok (r, conn) => some (r, { c with pc := .invoking conn term })
      | .error e => some (r, c.retry e) := by
  cases c
  cases at_
  rfl

theorem step_invoking {conn : Conn} {term : Nat} (at_ : c.pc = .invoking conn term)
    (reply : Reply E R) :
    step er cfg r c (.reply reply) =
      let c := { c with out := reply.out, replies := c.replies ++ [reply] }
      match reply.err er with
      | none => some (r, { c with pc := .returned none })
      | some e =>
        if isRetriableRejection er e || (c.kind.retryAmbiguous && isAmbiguousTransport er e) then
          some (r, c.retry e)
        else some (r, { c with pc := .returned (some e) }) := by
  cases c
  cases at_
  rfl

theorem step_collect {next : Then} {owners : List Str} (at_ : c.pc = .refresh .collect next)
    (visits : owners.Perm r.shardOwner.values) : step er cfg r c (.order owners) =
      some (r, { c with pc := .refresh (.next (r.bootstrap ++ owners) none) next }) := by
  cases c
  cases at_
  exact if_pos visits

theorem step_next {next : Then} {addr : Str} {rest : List Str} {lastErr : Option E}
    (at_ : c.pc = .refresh (.next (addr :: rest) lastErr) next) (err : Option E) :
    step er cfg r c (.dial err) = match r.conn addr err with
      | .ok (r, conn) => some (r, { c with pc := .refresh (.asking conn rest lastErr) next })
      | .error e => some (r, { c with pc := .refresh (.next rest (some e)) next }) := by
  cases c
  cases at_
  rfl

theorem step_install {next : Then} {owner : Owners} {term : Terms}
    (at_ : c.pc = .refresh (.install owner term) next) :
    step er cfg r c .none = some (r.install owner term, c.refreshed next none) := by
  cases c
  cases at_
  rfl

end

/-- The calls of one process on its router, and the count that their deltas
change. -/
structure Process (E R : Type) where
  router : Router
  calls : List (Call E R)
  stored : Int

inductive Action (E R : Type)
  | start (ns : Str) (kind : Kind)
  | step (k : Nat) (i : Input E R)

def exec (er : Errors E R) (cfg : Config) (σ : Process E R) : Action E R → Option (Process E R)
  | .start ns kind => some { σ with calls := σ.calls ++ [.start ns kind] }
  | .step k i =>
    match σ.calls[k]? with
    | none => none
    | some c =>
      (step er cfg σ.router c i).map fun s =>
        ⟨s.1, σ.calls.set k s.2, σ.stored + i.effect c.kind⟩

/-! ## What a step can do -/

/-- The steps of a call, with the router and the call after each. -/
inductive Stepped (er : Errors E R) (cfg : Config) (r : Router) (c : Call E R) :
    Input E R → Router → Call E R → Prop
  | cancelled {e : E} (at_ : c.pc = .attempt) :
      Stepped er cfg r c (.ctx (some e)) r { c with pc := .returned (some e) }
  | proceeds (at_ : c.pc = .attempt) : Stepped er cfg r c (.ctx none) r { c with pc := .route }
  | unrouted (at_ : c.pc = .route) :
      Stepped er cfg r c .none r { c with pc := .refresh .collect .reroute }
  | routed {owner : Str} {term : Nat} (at_ : c.pc = .route ∨ c.pc = .reroute)
      (found : r.routeFor cfg c.ns = (owner, term)) (owned : owner ≠ []) :
      Stepped er cfg r c .none r { c with pc := .dial owner term }
  | unowned (e : E) (at_ : c.pc = .reroute) :
      Stepped er cfg r c .none r { c with lastErr := some e }.continue_
  | dials {owner : Str} {term : Nat} {err : Option E} {r' : Router} {conn : Conn}
      (at_ : c.pc = .dial owner term) (ok : r.conn owner err = .ok (r', conn)) :
      Stepped er cfg r c (.dial err) r' { c with pc := .invoking conn term }
  | undialed {owner : Str} {term : Nat} {err : Option E} {e : E} (at_ : c.pc = .dial owner term) :
      Stepped er cfg r c (.dial err) r (c.retry e)
  | succeeds {conn : Conn} {term : Nat} {reply : Reply E R} (at_ : c.pc = .invoking conn term)
      (nil : reply.err er = none) :
      Stepped er cfg r c (.reply reply) r
        { c with out := reply.out, replies := c.replies ++ [reply], pc := .returned none }
  | retries {conn : Conn} {term : Nat} {reply : Reply E R} {e : E}
      (at_ : c.pc = .invoking conn term) (err : reply.err er = some e)
      (again : isRetriableRejection er e ∨
        c.kind.retryAmbiguous = true ∧ isAmbiguousTransport er e = true) :
      Stepped er cfg r c (.reply reply) r
        ({ c with out := reply.out, replies := c.replies ++ [reply] }.retry e)
  | surfaces {conn : Conn} {term : Nat} {reply : Reply E R} {e : E}
      (at_ : c.pc = .invoking conn term) :
      Stepped er cfg r c (.reply reply) r
        { c with out := reply.out, replies := c.replies ++ [reply], pc := .returned (some e) }
  | collects {next : Then} {owners : List Str} (at_ : c.pc = .refresh .collect next)
      (visits : owners.Perm r.shardOwner.values) :
      Stepped er cfg r c (.order owners) r
        { c with pc := .refresh (.next (r.bootstrap ++ owners) none) next }
  | exhausted {next : Then} {lastErr : Option E} (e : E)
      (at_ : c.pc = .refresh (.next [] lastErr) next) :
      Stepped er cfg r c .none r (c.refreshed next (some e))
  | connects {next : Then} {addr : Str} {rest : List Str} {lastErr err : Option E} {r' : Router}
      {conn : Conn} (at_ : c.pc = .refresh (.next (addr :: rest) lastErr) next)
      (ok : r.conn addr err = .ok (r', conn)) :
      Stepped er cfg r c (.dial err) r' { c with pc := .refresh (.asking conn rest lastErr) next }
  | skips {next : Then} {addr : Str} {rest : List Str} {lastErr err : Option E} {e : E}
      (at_ : c.pc = .refresh (.next (addr :: rest) lastErr) next) :
      Stepped er cfg r c (.dial err) r { c with pc := .refresh (.next rest (some e)) next }
  | refused {next : Then} {conn : Conn} {rest : List Str} {lastErr : Option E} {e : E}
      (at_ : c.pc = .refresh (.asking conn rest lastErr) next) :
      Stepped er cfg r c (.failed e) r { c with pc := .refresh (.next rest (some e)) next }
  | answered {next : Then} {conn : Conn} {rest : List Str} {lastErr : Option E} {owner : Owners}
      {term : Terms} (at_ : c.pc = .refresh (.asking conn rest lastErr) next) :
      Stepped er cfg r c (.routes owner term) r { c with pc := .refresh (.install owner term) next }
  | installs {next : Then} {owner : Owners} {term : Terms}
      (at_ : c.pc = .refresh (.install owner term) next) :
      Stepped er cfg r c .none (r.install owner term) (c.refreshed next none)

theorem step_stepped {er : Errors E R} {cfg : Config} {r r' : Router} {c c' : Call E R}
    {i : Input E R} (h : step er cfg r c i = some (r', c')) : Stepped er cfg r c i r' c' := by
  unfold step at h
  split at h
  · next at_ => cases h; exact .cancelled at_
  · next at_ => cases h; exact .proceeds at_
  · next at_ =>
    split at h
    next found =>
    split at h
    · cases h; exact .unrouted at_
    · next owned => cases h; exact .routed (.inl at_) found owned
  · next at_ =>
    split at h
    next found =>
    split at h
    · cases h; exact .unowned _ at_
    · next owned => cases h; exact .routed (.inr at_) found owned
  · next at_ =>
    split at h
    · next ok => cases h; exact .dials at_ ok
    · cases h; exact .undialed at_
  · next at_ =>
    split at h
    · next nil => cases h; exact .succeeds at_ nil
    · next err =>
      dsimp only at h
      split at h
      · next again => cases h; exact .retries at_ err (by simpa using again)
      · cases h; exact .surfaces at_
  · next at_ =>
    split at h
    · next visits => cases h; exact .collects at_ visits
    · cases h
  · next at_ => cases h; exact .exhausted _ at_
  · next at_ =>
    split at h
    · next ok => cases h; exact .connects at_ ok
    · cases h; exact .skips at_
  · next at_ => cases h; exact .refused at_
  · next at_ => cases h; exact .answered at_
  · next at_ => cases h; exact .installs at_
  · cases h

/-- How a call gets a connection: it is in the pool already, or dialed and put
there. -/
inductive Connected (r : Router) (addr : Str) : Router → Conn → Prop
  | pooled {conn : Conn} (found : r.conns[addr]? = some conn) : Connected r addr r conn
  | dialed (absent : r.conns[addr]? = none) : Connected r addr
      { r with conns := r.conns.insert addr ⟨r.dialed, addr⟩, dialed := r.dialed + 1 }
      ⟨r.dialed, addr⟩

theorem conn_connected {r r' : Router} {addr : Str} {dial : Option E} {conn : Conn}
    (ok : r.conn addr dial = .ok (r', conn)) : Connected r addr r' conn := by
  unfold Router.conn at ok
  split at ok
  · next found => cases ok; exact .pooled found
  · next absent =>
    split at ok
    · cases ok
    · cases ok; exact .dialed absent

theorem Connected.conns {r r' : Router} {addr : Str} {conn : Conn} (h : Connected r addr r' conn)
    {a : Str} {x : Conn} (found : r'.conns[a]? = some x) :
    r.conns[a]? = some x ∨ a = addr ∧ x = conn := by
  cases h with
  | pooled => exact .inl found
  | dialed =>
    rw [Std.ExtTreeMap.getElem?_insert] at found
    split at found
    · next eq =>
      cases found
      exact .inr ⟨(Std.LawfulEqCmp.eq_of_compare eq).symm, rfl⟩
    · exact .inl found

theorem Router.install_conns {r : Router} {owner : Owners} {term : Terms} {a : Str} :
    (r.install owner term).conns[a]? = (r.conns[a]?).filter fun _ => r.live owner a := by
  simp only [Router.install, Router.evictStaleConnsLocked, Std.ExtTreeMap.getElem?_filter']
  rfl

/-- Connections are pooled under the address that they were dialed to. -/
def Router.Keyed (r : Router) : Prop :=
  ∀ (addr : Str) (conn : Conn), r.conns[addr]? = some conn → conn.addr = addr

theorem Router.Keyed.new (bootstrap : List Str) : (Router.new bootstrap).Keyed := by
  intro addr conn found
  simp [Router.new] at found

theorem Router.Keyed.connected {r r' : Router} {addr : Str} {conn : Conn} (h : r.Keyed)
    (connected : Connected r addr r' conn) : r'.Keyed ∧ conn.addr = addr := by
  have own : conn.addr = addr := by
    cases connected with
    | pooled found => exact h addr conn found
    | dialed => rfl
  constructor
  · intro a x found
    cases connected.conns found with
    | inl old => exact h a x old
    | inr new => rw [new.1, new.2, own]
  · exact own

theorem Router.Keyed.install {r : Router} (h : r.Keyed) (owner : Owners) (term : Terms) :
    (r.install owner term).Keyed := by
  intro a conn found
  rw [Router.install_conns, Option.filter_eq_some_iff] at found
  exact h a conn found.1

/-- The call holds neither a connection nor an answer. -/
def Call.Paused (c : Call E R) : Prop :=
  c.pc = .attempt ∨ c.pc = .reroute ∨ ∃ err, c.pc = .returned err

theorem Call.continue_paused (c : Call E R) : c.continue_.Paused := by
  unfold Call.continue_
  by_cases again : c.attempt + 1 < maxAttempts
  · rw [if_pos again]
    exact .inl rfl
  · rw [if_neg again]
    exact .inr (.inr ⟨c.lastErr, rfl⟩)

theorem Call.refreshed_paused (c : Call E R) (next : Then) (err : Option E) :
    (c.refreshed next err).Paused := by
  cases next with
  | reroute =>
    cases err with
    | some e => exact Call.continue_paused _
    | none => exact .inr (.inl rfl)
  | retry => exact c.continue_paused
  | finish => exact .inr (.inr ⟨err, rfl⟩)

/-- A step of the process is a new call or a step of one call. -/
theorem exec_cases {er : Errors E R} {cfg : Config} {σ σ' : Process E R} {a : Action E R}
    (h : exec er cfg σ a = some σ') :
    (∃ ns kind, a = .start ns kind ∧ σ' = { σ with calls := σ.calls ++ [.start ns kind] }) ∨
    ∃ k i c r' c', a = .step k i ∧ σ.calls[k]? = some c ∧ Stepped er cfg σ.router c i r' c' ∧
      σ' = ⟨r', σ.calls.set k c', σ.stored + i.effect c.kind⟩ := by
  cases a with
  | start ns kind =>
    cases h
    exact .inl ⟨ns, kind, rfl, rfl⟩
  | step k i =>
    simp only [exec] at h
    split at h
    · cases h
    · next c hc =>
      obtain ⟨⟨r', c'⟩, hs, rfl⟩ := Option.map_eq_some_iff.mp h
      exact .inr ⟨k, i, c, r', c', rfl, hc, step_stepped hs, rfl⟩

/-- A call after a step was there before, is new, or is the one that stepped. -/
theorem exec_call {er : Errors E R} {cfg : Config} {σ σ' : Process E R} {a : Action E R}
    (h : exec er cfg σ a = some σ') {d : Call E R} (hd : d ∈ σ'.calls) :
    d ∈ σ.calls ∨ (∃ ns kind, d = .start ns kind) ∨ ∃ k i c, a = .step k i ∧
      σ.calls[k]? = some c ∧ Stepped er cfg σ.router c i σ'.router d := by
  obtain ⟨ns, kind, rfl, rfl⟩ | ⟨k, i, c, r', c', rfl, hc, stepped, rfl⟩ := exec_cases h
  · cases List.mem_append.mp hd with
    | inl old => exact .inl old
    | inr new => exact .inr (.inl ⟨ns, kind, List.mem_singleton.mp new⟩)
  · cases List.mem_or_eq_of_mem_set hd with
    | inl old => exact .inl old
    | inr new => exact .inr (.inr ⟨k, i, c, rfl, hc, new ▸ stepped⟩)

end MilvusCatalog.Client
