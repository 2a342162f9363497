import MilvusCatalog.Client.Discovery
import MilvusCatalog.Client.RefCount

/-! A call through `Do` against nodes whose ownership does not change meanwhile.
Whatever the router believes at first, one refresh corrects it. -/
namespace MilvusCatalog.Client
open Go

variable {E R : Type}

/-- What holds of the nodes during the call: the maps that every answered
`GetRouteMap` returns, the owner and the term of the call's shard in them, and a
bootstrap address that answers. -/
structure World where
  owners : Owners
  terms : Terms
  owner : Str
  term : Nat
  good : Str

/-- What may happen at each point of the call. Other addresses than the good one
may fail to dial or to answer; every invocation but the right one is rejected or
fails in transport. -/
def World.admits (w : World) (er : Errors E R) (r : Router) (c : Call E R) (i : Input E R) :
    Prop :=
  match c.pc with
  | .attempt => i = .ctx none
  | .route | .reroute | .refresh (.next [] _) _ | .refresh (.install _ _) _ => i = .none
  | .refresh .collect _ => ∃ owners, i = .order owners ∧ owners.Perm r.shardOwner.values
  | .refresh (.next (addr :: _) _) _ => ∃ err, i = .dial err ∧ (addr = w.good → err = none)
  | .refresh (.asking conn _ _) _ =>
    i = .routes w.owners w.terms ∨ ∃ e, i = .failed e ∧ conn.addr ≠ w.good
  | .dial owner _ => ∃ err, i = .dial err ∧ (owner = w.owner → err = none)
  | .invoking conn term => ∃ reply, i = .reply reply ∧
    if conn.addr = w.owner ∧ term = w.term then reply.err er = none
    else ∃ e, reply.err er = some e ∧
      (isRetriableRejection er e = true ∨ isAmbiguousTransport er e = true)
  | .returned _ => True

/-- The shard of the namespace has the owner and the term of the maps. -/
structure World.Owned (w : World) (cfg : Config) (ns : Str) : Prop where
  owner : w.owners[cfg.shardOf ns]? = some w.owner
  term : w.terms[cfg.shardOf ns]? = some w.term
  named : w.owner ≠ []

/-- One step of a call that has the router for itself. -/
def alone (er : Errors E R) (cfg : Config) (s : Router × Call E R) (i : Input E R) :
    Option (Router × Call E R) := step er cfg s.1 s.2 i

/-- Connections are pooled under their address, and the good one is tried. -/
structure Usable (w : World) (r : Router) : Prop where
  pool : r.Keyed
  good : w.good ∈ r.bootstrap

def UpToDate (w : World) (r : Router) : Prop := r.shardOwner = w.owners ∧ r.shardTerm = w.terms

section
variable {w : World} {er : Errors E R} {cfg : Config} {r r' : Router} {c : Call E R}

theorem Usable.connected (h : Usable w r) {addr : Str} {conn : Conn}
    (connected : Connected r addr r' conn) : Usable w r' ∧ conn.addr = addr := by
  have keyed := h.pool.connected connected
  cases connected with
  | pooled => exact ⟨h, keyed.2⟩
  | dialed => exact ⟨⟨keyed.1, h.good⟩, keyed.2⟩

theorem Usable.installed (h : Usable w r) (owner : Owners) (term : Terms) :
    Usable w (r.install owner term) where
  pool := h.pool.install owner term
  good := h.good

/-- A call reaches a point with `goal`, whatever the nodes do that `w` admits. -/
abbrev Arrives (w : World) (er : Errors E R) (cfg : Config)
    (goal : Router × Call E R → Prop) (r : Router) (c : Call E R) : Prop :=
  Transition.Surely (alone er cfg) (fun s i => w.admits er s.1 s.2 i) goal (r, c)

/-- `fn` is invoked at the owner with its term, for the `n + 1`st time at most. -/
def AtOwner (w : World) (ns : Str) (n : Nat) (s : Router × Call E R) : Prop :=
  ∃ conn, s.2.pc = .invoking conn w.term ∧ conn.addr = w.owner ∧ s.2.ns = ns ∧
    s.2.replies.length ≤ n

/-- A dial that does not fail ends with a connection to the address. -/
theorem Usable.dials (h : Usable w r) (addr : Str) :
    ∃ r' conn, r.conn addr (none : Option E) = .ok (r', conn) ∧ Usable w r' ∧ conn.addr = addr := by
  cases ok : r.conn addr (none : Option E) with
  | error e =>
    unfold Router.conn at ok
    split at ok
    · cases ok
    · cases ok
  | ok s => exact ⟨s.1, s.2, rfl, h.connected (conn_connected ok)⟩

theorem dial_arrives (h : Usable w r) (at_ : c.pc = .dial w.owner w.term) {n : Nat}
    (few : c.replies.length ≤ n) : Arrives w er cfg (AtOwner w c.ns n) r c := by
  apply Transition.Surely.step
  intro i admitted
  simp only [World.admits, at_, forall_const] at admitted
  obtain ⟨err, rfl, rfl⟩ := admitted
  obtain ⟨r', conn, ok, -, addr⟩ := h.dials (E := E) w.owner
  refine ⟨(r', { c with pc := .invoking conn w.term }), ?_, .now ⟨conn, rfl, addr, rfl, few⟩⟩
  rw [alone, step_dial at_, ok]

/-- With the maps in force that the nodes have, the next look at the route leads
to the owner. -/
theorem route_arrives (h : Usable w r) (current : UpToDate w r) (owned : w.Owned cfg c.ns)
    (at_ : c.pc = .route ∨ c.pc = .reroute) {n : Nat} (few : c.replies.length ≤ n) :
    Arrives w er cfg (AtOwner w c.ns n) r c := by
  have found : r.routeFor cfg c.ns = (w.owner, w.term) := by
    simp only [Router.routeFor, current.1, current.2, Std.ExtTreeMap.getD_eq_getD_getElem?,
      owned.owner, owned.term, Option.getD_some]
  apply Transition.Surely.step
  intro i admitted
  have none : i = .none := by
    cases at_ with
    | inl at_ => simpa only [World.admits, at_] using admitted
    | inr at_ => simpa only [World.admits, at_] using admitted
  subst none
  refine ⟨(r, { c with pc := .dial w.owner w.term }), ?_,
    dial_arrives (c := { c with pc := .dial w.owner w.term }) h rfl few⟩
  cases at_ with
  | inl at_ => rw [alone, step_route at_, found, if_neg owned.named]
  | inr at_ => rw [alone, step_reroute at_ (found ▸ owned.named), found]

theorem attempt_arrives (h : Usable w r) (current : UpToDate w r) (owned : w.Owned cfg c.ns)
    (at_ : c.pc = .attempt) {n : Nat} (few : c.replies.length ≤ n) :
    Arrives w er cfg (AtOwner w c.ns n) r c := by
  apply Transition.Surely.step
  intro i admitted
  simp only [World.admits, at_] at admitted
  subst admitted
  refine ⟨(r, { c with pc := .route }), ?_,
    route_arrives (c := { c with pc := .route }) h current owned (.inl rfl) few⟩
  exact step_attempt at_

/-- What a refresh leaves behind: the maps of the nodes. -/
def Refreshed (w : World) (c : Call E R) (next : Then) (s : Router × Call E R) : Prop :=
  Usable w s.1 ∧ UpToDate w s.1 ∧ s.2 = c.refreshed next none

theorem refreshed_pc (w : World) (c : Call E R) (pc : Pc E) (next : Then) :
    Refreshed w { c with pc } next = Refreshed w c next := by
  cases next <;> rfl

theorem install_refreshes {next : Then} (h : Usable w r)
    (at_ : c.pc = .refresh (.install w.owners w.terms) next) :
    Arrives w er cfg (Refreshed w c next) r c := by
  apply Transition.Surely.step
  intro i admitted
  simp only [World.admits, at_] at admitted
  subst admitted
  refine ⟨(r.install w.owners w.terms, c.refreshed next none), ?_,
    .now ⟨h.installed _ _, ⟨rfl, rfl⟩, rfl⟩⟩
  exact step_install at_

/-- The loop over the addresses stops at the good one at the latest. -/
theorem next_refreshes {addrs : List Str} {next : Then} (listed : w.good ∈ addrs)
    {lastErr : Option E} (h : Usable w r) (at_ : c.pc = .refresh (.next addrs lastErr) next) :
    Arrives w er cfg (Refreshed w c next) r c := by
  induction addrs generalizing r c lastErr with
  | nil => cases listed
  | cons addr rest ih =>
    -- An address that fails is not the good one, which is then still to come.
    have onward : ∀ (r : Router) (e : E), addr ≠ w.good → Usable w r →
        Arrives w er cfg (Refreshed w c next) r
          { c with pc := .refresh (.next rest (some e)) next } := by
      intro r e other usable
      have listed := (List.mem_cons.mp listed).resolve_left (Ne.symm other)
      have rest := ih (c := { c with pc := .refresh (.next rest (some e)) next }) listed usable rfl
      rwa [refreshed_pc] at rest
    apply Transition.Surely.step
    intro i admitted
    simp only [World.admits, at_] at admitted
    obtain ⟨err, rfl, reachable⟩ := admitted
    cases dial : r.conn addr err with
    | error e =>
      have other : addr ≠ w.good := by
        intro same
        obtain ⟨r', conn, ok, -⟩ := h.dials (E := E) addr
        rw [reachable same, ok] at dial
        cases dial
      refine ⟨(r, { c with pc := .refresh (.next rest (some e)) next }), ?_, onward r e other h⟩
      rw [alone, step_next at_, dial]
    | ok s =>
      obtain ⟨r', conn⟩ := s
      obtain ⟨usable, addr_eq⟩ := h.connected (conn_connected dial)
      refine ⟨(r', { c with pc := .refresh (.asking conn rest lastErr) next }), ?_, ?_⟩
      · rw [alone, step_next at_, dial]
      · apply Transition.Surely.step
        intro i admitted
        simp only [World.admits] at admitted
        obtain rfl | ⟨e, rfl, other⟩ := admitted
        · refine ⟨(r', { c with pc := .refresh (.install w.owners w.terms) next }), rfl, ?_⟩
          have installed : Arrives w er cfg _ _ _ := install_refreshes
            (c := { c with pc := .refresh (.install w.owners w.terms) next }) usable rfl
          rwa [refreshed_pc] at installed
        · exact ⟨(r', { c with pc := .refresh (.next rest (some e)) next }), rfl,
            onward r' e (addr_eq ▸ other) usable⟩

theorem refresh_refreshes {next : Then} (h : Usable w r) (at_ : c.pc = .refresh .collect next) :
    Arrives w er cfg (Refreshed w c next) r c := by
  apply Transition.Surely.step
  intro i admitted
  simp only [World.admits, at_] at admitted
  obtain ⟨owners, rfl, visits⟩ := admitted
  have listed : w.good ∈ r.bootstrap ++ owners := List.mem_append_left owners h.good
  refine ⟨(r, { c with pc := .refresh (.next (r.bootstrap ++ owners) none) next }), ?_, ?_⟩
  · exact step_collect at_ visits
  · have rest : Arrives w er cfg _ _ _ := next_refreshes
      (c := { c with pc := .refresh (.next (r.bootstrap ++ owners) none) next }) listed h rfl
    rwa [refreshed_pc] at rest

/-- After a failed first attempt the second one is at the owner. -/
theorem retry_arrives (h : Usable w r) (owned : w.Owned cfg c.ns)
    (at_ : c.pc = .refresh .collect .retry) (first : c.attempt = 0) {n : Nat}
    (few : c.replies.length ≤ n) : Arrives w er cfg (AtOwner w c.ns n) r c := by
  apply (refresh_refreshes h at_).bind
  rintro ⟨r', c'⟩ ⟨usable, current, rfl⟩
  have again : (c.refreshed .retry none).pc = .attempt := by
    simp [Call.refreshed, Call.continue_, first, maxAttempts]
  exact attempt_arrives (c := c.refreshed .retry none) usable current owned again few

theorem reroute_arrives (h : Usable w r) (owned : w.Owned cfg c.ns)
    (at_ : c.pc = .refresh .collect .reroute) {n : Nat} (few : c.replies.length ≤ n) :
    Arrives w er cfg (AtOwner w c.ns n) r c := by
  apply (refresh_refreshes h at_).bind
  rintro ⟨r', c'⟩ ⟨usable, current, rfl⟩
  exact route_arrives (c := c.refreshed .reroute none) usable current owned (.inr rfl) few

/-- A first invocation is the right one, or it is refused and tried again. -/
theorem invoking_arrives (h : Usable w r) (owned : w.Owned cfg c.ns) {conn : Conn} {term : Nat}
    (at_ : c.pc = .invoking conn term) (first : c.attempt = 0) (none : c.replies = [])
    (idempotent : c.kind = .idempotent) : Arrives w er cfg (AtOwner w c.ns 1) r c := by
  by_cases right : conn.addr = w.owner ∧ term = w.term
  · exact .now ⟨conn, right.2 ▸ at_, right.1, rfl, by simp [none]⟩
  · apply Transition.Surely.step
    intro i admitted
    simp only [World.admits, at_, right, ↓reduceIte] at admitted
    obtain ⟨reply, rfl, e, err, again⟩ := admitted
    refine ⟨(r, { c with out := reply.out, replies := c.replies ++ [reply] }.retry e), ?_, ?_⟩
    · have retries : (isRetriableRejection er e ||
          (c.kind.retryAmbiguous && isAmbiguousTransport er e)) = true := by
        simpa [idempotent, Kind.retryAmbiguous] using again
      simp only [alone, step_invoking at_, err, retries, ↓reduceIte]
    · exact retry_arrives (n := 1)
        (c := { c with out := reply.out, replies := c.replies ++ [reply] }.retry e) h owned rfl
        first (by simp [Call.retry, none])

/-- The first dial goes to whatever owner the router has for the shard. -/
theorem stale_arrives (h : Usable w r) (owned : w.Owned cfg c.ns) {owner : Str} {term : Nat}
    (at_ : c.pc = .dial owner term) (first : c.attempt = 0) (none : c.replies = [])
    (idempotent : c.kind = .idempotent) : Arrives w er cfg (AtOwner w c.ns 1) r c := by
  apply Transition.Surely.step
  intro i admitted
  simp only [World.admits, at_] at admitted
  obtain ⟨err, rfl, -⟩ := admitted
  cases dial : r.conn owner err with
  | error e =>
    refine ⟨(r, c.retry e), by rw [alone, step_dial at_, dial], ?_⟩
    exact retry_arrives (n := 1) (c := c.retry e) h owned rfl first (by simp [Call.retry, none])
  | ok s =>
    obtain ⟨r', conn⟩ := s
    refine ⟨(r', { c with pc := .invoking conn term }), by rw [alone, step_dial at_, dial], ?_⟩
    exact invoking_arrives (c := { c with pc := .invoking conn term })
      (h.connected (conn_connected dial)).1 owned rfl first none idempotent

theorem start_arrives {ns : Str} (h : Usable w r) (owned : w.Owned cfg ns) :
    Arrives w er cfg (AtOwner w ns 1) r (.start ns .idempotent) := by
  let c : Call E R := .start ns .idempotent
  apply Transition.Surely.step
  intro i admitted
  obtain rfl : i = .ctx none := admitted
  refine ⟨(r, { c with pc := .route }), rfl, ?_⟩
  apply Transition.Surely.step
  intro i admitted
  obtain rfl : i = .none := admitted
  by_cases unknown : (r.routeFor cfg ns).1 = []
  · refine ⟨(r, { c with pc := .refresh .collect .reroute }), ?_, ?_⟩
    · exact (step_route rfl).trans (if_pos unknown)
    · exact reroute_arrives (n := 1) (c := { c with pc := .refresh .collect .reroute }) h owned rfl
        (Nat.zero_le 1)
  · refine ⟨(r, { c with pc := .dial (r.routeFor cfg ns).1 (r.routeFor cfg ns).2 }), ?_, ?_⟩
    · exact (step_route rfl).trans (if_neg unknown)
    · exact stale_arrives (c := { c with pc := .dial _ _ }) h owned rfl rfl rfl rfl

end

/-- **A call recovers from any stale route map.** Against nodes as `w` describes
them, a call that has the router for itself returns nil after finitely many
steps, its last invocation is at the owner with the owner's term and the call's
namespace, and there are at most two. -/
theorem do_recovers {w : World} {er : Errors E R} {cfg : Config} {r : Router} {ns : Str}
    {env : Nat → Router × Call E R → Input E R}
    (pool : ∀ (addr : Str) (conn : Conn), r.conns[addr]? = some conn → conn.addr = addr)
    (answers : w.good ∈ r.bootstrap) (owned : w.Owned cfg ns)
    (admitted : ∀ n s, Transition.after (alone er cfg) env (r, .start ns .idempotent) n = some s →
      w.admits er s.1 s.2 (env n s)) :
    ∃ n s s' conn reply,
      Transition.after (alone er cfg) env (r, .start ns .idempotent) n = some s ∧
      s.2.pc = .invoking conn w.term ∧ conn.addr = w.owner ∧ s.2.ns = ns ∧
      env n s = .reply reply ∧
      Transition.after (alone er cfg) env (r, .start ns .idempotent) (n + 1) = some s' ∧
      s'.2.pc = .returned none ∧ s'.2.replies = s.2.replies ++ [reply] ∧
      s'.2.replies.length ≤ 2 := by
  have arrives : Arrives w er cfg (AtOwner w ns 1) r (.start ns .idempotent) :=
    start_arrives ⟨pool, answers⟩ owned
  obtain ⟨n, s, at_, conn, pc, addr, named, few⟩ := arrives.reached (n := 0) rfl admitted
  have last := admitted n s at_
  simp only [World.admits, pc, addr, and_self, ↓reduceIte] at last
  obtain ⟨reply, chosen, nil⟩ := last
  have short : (s.2.replies ++ [reply]).length ≤ 2 := by
    simp only [List.length_append, List.length_singleton]
    omega
  refine ⟨n, s, (s.1, { s.2 with
    out := reply.out, replies := s.2.replies ++ [reply], pc := .returned none }), conn, reply, at_,
    pc, addr, named, chosen, ?_, rfl, rfl, short⟩
  simp only [Transition.after, at_, Option.bind_some, chosen, alone, step_invoking pc, nil]

/-- Only the good address and the owner can be reached. -/
def othersDown (w : World) (_ : Nat) (s : Router × Call Bool (Option Bool)) :
    Input Bool (Option Bool) :=
  match s.2.pc with
  | .attempt => .ctx none
  | .refresh .collect _ => .order s.1.shardOwner.values
  | .refresh (.next (addr :: _) _) _ => .dial (if addr = w.good then none else some false)
  | .refresh (.asking _ _ _) _ => .routes w.owners w.terms
  | .dial owner _ => .dial (if owner = w.owner then none else some false)
  | .invoking conn term =>
    .reply (.answered (if conn.addr = w.owner ∧ term = w.term then none else some true) false)
  | _ => .none

theorem othersDown_admitted (w : World) (n : Nat) (s : Router × Call Bool (Option Bool)) :
    w.admits sampleErrors s.1 s.2 (othersDown w n s) := by
  unfold World.admits othersDown
  generalize s.2.pc = pc
  cases pc with
  | attempt | route | reroute => rfl
  | returned => trivial
  | dial => exact ⟨_, rfl, fun same => if_pos same⟩
  | invoking conn term =>
    refine ⟨_, rfl, ?_⟩
    by_cases right : conn.addr = w.owner ∧ term = w.term
    · rw [if_pos right, if_pos right]
      rfl
    · rw [if_neg right, if_neg right]
      exact ⟨true, rfl, .inl rfl⟩
  | refresh refresh next =>
    cases refresh with
    | collect => exact ⟨_, rfl, .refl _⟩
    | asking => exact .inl rfl
    | install => rfl
    | next addrs lastErr =>
      cases addrs with
      | nil => rfl
      | cons => exact ⟨_, rfl, fun same => if_pos same⟩

/-- The router believes in an owner that is gone, and of its two bootstrap
addresses the first is down. -/
theorem do_recovers_stale :
    let w : World := ⟨.ofList [(0, str "b")], .ofList [(0, 7)], str "b", 7, str "seed"⟩
    let r : Router := { Router.new [str "down", str "seed"] with
      shardOwner := .ofList [(0, str "gone")], shardTerm := .ofList [(0, 3)] }
    ∃ n s, Transition.after (alone sampleErrors sampleConfig) (othersDown w)
      (r, .start (str "ns") .idempotent) n = some s ∧ s.2.pc = .returned none ∧
      s.2.replies.length ≤ 2 := by
  intro w r
  obtain ⟨n, -, s', -, -, -, -, -, -, -, at_, nil, -, few⟩ :=
    @do_recovers Bool (Option Bool) w sampleErrors sampleConfig r (str "ns") (othersDown w)
      (fun addr conn found => by simp [r, Router.new] at found) (by decide +kernel)
      ⟨by decide +kernel, by decide +kernel, by decide +kernel⟩
      (fun n s _ => othersDown_admitted w n s)
  exact ⟨n + 1, s', at_, nil, few⟩

end MilvusCatalog.Client
