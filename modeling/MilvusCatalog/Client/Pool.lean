import MilvusCatalog.Client.Discovery

/-! The pool of connections. A call takes its connection out of the pool in one
locked section and uses it later, outside any lock; in between another call may
install a route map and close the connection. -/
namespace MilvusCatalog.Client
open Go Transition

variable {E R : Type} {er : Errors E R} {cfg : Config}

/-- The connection is in the pool, or a call is about to run or running on it. -/
inductive Held (σ : Process E R) (conn : Conn) : Prop
  | pooled {addr : Str} (found : σ.router.conns[addr]? = some conn)
  | used {c : Call E R} {term : Nat} (mem : c ∈ σ.calls) (pc : c.pc = .invoking conn term)

/-- An identifier names one connection for good, and a held one is not closed. -/
structure PoolInv (σ : Process E R) : Prop where
  addr : σ.router.Keyed
  old : ∀ conn, Held σ conn → conn.id < σ.router.dialed
  same : ∀ c d, Held σ c → Held σ d → c.id = d.id → c.addr = d.addr
  closed : ∀ i ∈ σ.router.closed, i < σ.router.dialed
  opened : ∀ conn, Held σ conn → conn.id ∉ σ.router.closed

/-- An install keeps the addresses of the connections that calls are using. -/
def keepsUsed (σ : Process E R) : Action E R → Prop
  | .step k _ => ∀ (c : Call E R) owner term next, σ.calls[k]? = some c →
      c.pc = .refresh (.install owner term) next →
      ∀ d ∈ σ.calls, ∀ conn t, d.pc = .invoking conn t → σ.router.live owner conn.addr = true
  | .start _ _ => True

section
variable {σ σ' : Process E R}

/-- A step that leaves the router as it is and takes no connection. -/
theorem PoolInv.of_held (h : PoolInv σ) (router : σ'.router = σ.router)
    (held : ∀ conn, Held σ' conn → Held σ conn) : PoolInv σ' where
  addr := router ▸ h.addr
  old conn hc := router ▸ h.old conn (held conn hc)
  same c d hc hd := h.same c d (held c hc) (held d hd)
  closed := router ▸ h.closed
  opened conn hc := router ▸ h.opened conn (held conn hc)

theorem PoolInv.connected (h : PoolInv σ) {addr : Str} {conn : Conn}
    (connected : Connected σ.router addr σ'.router conn)
    (used : ∀ c ∈ σ'.calls, ∀ x t, c.pc = .invoking x t → Held σ x ∨ x = conn) : PoolInv σ' := by
  have held : ∀ x, Held σ' x → Held σ x ∨ x = conn := by
    rintro x (found | ⟨mem, pc⟩)
    · exact (connected.conns found).imp .pooled And.right
    · exact used _ mem x _ pc
  have keyed := (h.addr.connected connected).1
  generalize same : σ'.router = r' at connected
  cases connected with
  | pooled found =>
    apply h.of_held same
    intro x hx
    cases held x hx with
    | inl old => exact old
    | inr eq => exact eq ▸ .pooled found
  | dialed absent =>
    -- The new identifier is above all that are held or closed.
    have fresh : ∀ x, Held σ x → x.id ≠ σ.router.dialed := fun x hx => (h.old x hx).ne
    constructor
    · exact keyed
    · intro x hx
      rw [same]
      cases held x hx with
      | inl old => exact Nat.lt_succ_of_lt (h.old x old)
      | inr eq => subst eq; exact Nat.lt_succ_self _
    · intro x y hx hy ids
      cases held x hx with
      | inl oldx =>
        cases held y hy with
        | inl oldy => exact h.same x y oldx oldy ids
        | inr eq => subst eq; exact absurd ids (fresh x oldx)
      | inr eq =>
        subst eq
        cases held y hy with
        | inl oldy => exact absurd ids.symm (fresh y oldy)
        | inr eq => rw [eq]
    · intro i hi
      rw [same] at hi ⊢
      exact Nat.lt_succ_of_lt (h.closed i hi)
    · intro x hx
      rw [same]
      cases held x hx with
      | inl old => exact h.opened x old
      | inr eq =>
        subst eq
        intro hi
        exact absurd (h.closed _ hi) (Nat.lt_irrefl _)

/-- The connections that an install closes have other identifiers than those that
stay held, since they have other addresses. -/
theorem PoolInv.installed (h : PoolInv σ) {owner : Owners} {term : Terms}
    (router : σ'.router = σ.router.install owner term)
    (used : ∀ c ∈ σ'.calls, ∀ x t, c.pc = .invoking x t →
      Held σ x ∧ σ.router.live owner x.addr = true) : PoolInv σ' := by
  have pool : ∀ (a : Str) (x : Conn), σ'.router.conns[a]? = some x →
      σ.router.conns[a]? = some x ∧ σ.router.live owner a = true := by
    intro a x found
    rwa [router, Router.install_conns, Option.filter_eq_some_iff] at found
  have held : ∀ x, Held σ' x → Held σ x ∧ σ.router.live owner x.addr = true := by
    rintro x (found | ⟨mem, pc⟩)
    · obtain ⟨old, live⟩ := pool _ x found
      exact ⟨.pooled old, (h.addr _ x old).symm ▸ live⟩
    · exact used _ mem x _ pc
  have evicted : ∀ i ∈ σ'.router.closed, i ∈ σ.router.closed ∨
      ∃ a conn, σ.router.conns[a]? = some conn ∧ σ.router.live owner a = false ∧ conn.id = i := by
    intro i hi
    simpa [router, Router.install, Router.evictStaleConnsLocked, Router.live,
      Std.ExtTreeMap.mem_toList_iff_getElem?_eq_some, and_assoc] using hi
  have dialed : σ'.router.dialed = σ.router.dialed := by rw [router]; rfl
  constructor
  · exact router ▸ h.addr.install owner term
  · intro x hx
    exact dialed ▸ h.old x (held x hx).1
  · intro x y hx hy
    exact h.same x y (held x hx).1 (held y hy).1
  · intro i hi
    rw [dialed]
    cases evicted i hi with
    | inl old => exact h.closed i old
    | inr new =>
      obtain ⟨a, conn, found, -, rfl⟩ := new
      exact h.old conn (.pooled found)
  · intro x hx hi
    obtain ⟨before, live⟩ := held x hx
    cases evicted x.id hi with
    | inl old => exact h.opened x before old
    | inr new =>
      obtain ⟨a, conn, found, stale, ids⟩ := new
      rw [← h.same conn x (.pooled found) before ids, h.addr a conn found, stale] at live
      cases live

/-- What a step does to the pool and to the connection of its call. -/
theorem stepped_pool {r r' : Router} {c c' : Call E R} {i : Input E R}
    (step : Stepped er cfg r c i r' c') :
    (r' = r ∧ ∀ conn t, c'.pc ≠ .invoking conn t) ∨
    (∃ addr conn, Connected r addr r' conn ∧ ∀ x t, c'.pc = .invoking x t → x = conn) ∨
    ∃ owner term next, c.pc = .refresh (.install owner term) next ∧
      r' = r.install owner term ∧ ∀ conn t, c'.pc ≠ .invoking conn t := by
  have paused : ∀ {d : Call E R}, d.Paused → ∀ conn t, d.pc ≠ .invoking conn t := by
    rintro d (pc | pc | ⟨err, pc⟩) conn t
    all_goals
      rw [pc]
      nofun
  cases step with
  | dials at_ ok =>
    refine .inr (.inl ⟨_, _, conn_connected ok, ?_⟩)
    rintro x t ⟨⟩
    rfl
  | connects at_ ok => exact .inr (.inl ⟨_, _, conn_connected ok, nofun⟩)
  | installs at_ =>
    exact .inr (.inr ⟨_, _, _, at_, rfl, paused (c.refreshed_paused _ none)⟩)
  | unowned => exact .inl ⟨rfl, paused (Call.continue_paused _)⟩
  | exhausted e => exact .inl ⟨rfl, paused (c.refreshed_paused _ (some e))⟩
  | _ => exact .inl ⟨rfl, nofun⟩

theorem exec_pool {a : Action E R} (h : PoolInv σ) (kept : keepsUsed σ a)
    (step : exec er cfg σ a = some σ') : PoolInv σ' := by
  obtain ⟨ns, kind, rfl, rfl⟩ | ⟨k, i, c, r', c', rfl, hc, stepped, rfl⟩ := exec_cases step
  · refine h.of_held rfl ?_
    rintro conn (found | ⟨mem, pc⟩)
    · exact .pooled found
    · cases List.mem_append.mp mem with
      | inl old => exact .used old pc
      | inr new =>
        rw [List.mem_singleton.mp new] at pc
        cases kind <;> cases pc
  · have calls : ∀ d ∈ σ.calls.set k c', d ∈ σ.calls ∨ d = c' :=
      fun d mem => List.mem_or_eq_of_mem_set mem
    obtain ⟨rfl, idle⟩ | ⟨addr, conn, connected, own⟩ | ⟨owner, term, next, at_, rfl, idle⟩ :=
      stepped_pool stepped
    · refine h.of_held rfl ?_
      rintro conn (found | ⟨mem, pc⟩)
      · exact .pooled found
      · cases calls _ mem with
        | inl old => exact .used old pc
        | inr new => exact absurd (new ▸ pc) (idle conn _)
    · refine h.connected connected ?_
      intro d mem x t pc
      cases calls d mem with
      | inl old => exact .inl (.used old pc)
      | inr new => exact .inr (own x t (new ▸ pc))
    · refine h.installed rfl ?_
      intro d mem x t pc
      cases calls d mem with
      | inl old => exact ⟨.used old pc, kept c owner term next hc at_ d old x t pc⟩
      | inr new => exact absurd (new ▸ pc) (idle x t)

end

/-- A router as `NewRouter` makes it, before any call. -/
def Process.Initial (σ : Process E R) : Prop :=
  (∃ bootstrap, σ.router = .new bootstrap) ∧ σ.calls = []

theorem initial_pool {σ : Process E R} (h : σ.Initial) : PoolInv σ := by
  obtain ⟨⟨bootstrap, router⟩, calls⟩ := h
  have none : ∀ conn, ¬ Held σ conn := by
    rintro conn (found | ⟨mem, pc⟩)
    · simp [router, Router.new] at found
    · simp [calls] at mem
  constructor
  · exact router ▸ .new bootstrap
  · intro conn held
    exact absurd held (none conn)
  · intro c d held
    exact absurd held (none c)
  · simp [router, Router.new]
  · intro conn held
    exact absurd held (none conn)

/-- As long as no install drops the address of a connection that a call is using,
no call runs on a closed connection. -/
theorem invoked_open {σ : Process E R}
    (h : Reachable Process.Initial (Next (exec er cfg) keepsUsed) σ) :
    ∀ c ∈ σ.calls, ∀ conn term, c.pc = .invoking conn term → conn.id ∉ σ.router.closed := by
  have pool : PoolInv σ := by
    induction h with
    | start initial => exact initial_pool initial
    | step _ next ih =>
      obtain ⟨a, kept, step⟩ := next
      exact exec_pool ih kept step
  intro c mem conn term pc
  exact pool.opened conn (.used mem pc)

/-! A call is about to run on node `a`; meanwhile a second caller refreshes. -/

instance (σ : Process E R) : DecidablePred (keepsUsed σ)
  | .start _ _ => inferInstanceAs (Decidable True)
  | .step k _ => decidable_of_iff (∀ c ∈ σ.calls[k]?, ∀ maps ∈ c.installing, ∀ d ∈ σ.calls,
      ∀ s ∈ d.stamped, σ.router.live maps.1 s.1.addr = true) (by
    constructor
    · intro h c owner term next hc at_ d mem conn t pc
      exact h c hc (owner, term) (Call.installing_eq_some.mpr ⟨next, at_⟩) d mem (conn, t)
        (Call.stamped_eq_some.mpr pc)
    · intro h c hc maps about d mem s using_
      obtain ⟨next, at_⟩ := Call.installing_eq_some.mp about
      exact h c maps.1 maps.2 next hc at_ d mem s.1 s.2 (Call.stamped_eq_some.mp using_))

def overlapping (owner : Owners) (term : Terms) : List (Action Unit Unit) :=
  (.start (str "x") .idempotent :: [.ctx none, .none, .order [], .dial none,
    .routes (.ofList [(0, str "a")]) (.ofList [(0, 4)]), .none, .none, .dial none].map (.step 0)) ++
  .start [] .refresh :: [.order [str "a"], .dial none, .routes owner term, .none].map (.step 1)

def sampleRouter : Process Unit Unit := ⟨.new [str "seed"], [], 0⟩

theorem invoked_open_refreshed : ∃ σ c,
    execute (exec sampleUnit sample) (fun σ a => decide (keepsUsed σ a)) sampleRouter (overlapping
      (.ofList [(0, str "a"), (1, str "b")]) (.ofList [(0, 4), (1, 6)])) = some σ ∧
    c ∈ σ.calls ∧ c.pc = .invoking ⟨1, str "a"⟩ 4 ∧ 1 ∉ σ.router.closed := by
  have ran : (execute (exec sampleUnit sample) (fun σ a => decide (keepsUsed σ a)) sampleRouter
      (overlapping (.ofList [(0, str "a"), (1, str "b")]) (.ofList [(0, 4), (1, 6)]))).any (fun σ =>
        σ.calls.any fun c => c.stamped = some (⟨1, str "a"⟩, 4)) = true := by
    decide +kernel
  obtain ⟨σ, hσ, calls⟩ := (Option.any_eq_true _ _).mp ran
  obtain ⟨c, hc, facts⟩ := List.any_eq_true.mp calls
  have pc := Call.stamped_eq_some.mp (of_decide_eq_true facts)
  have reached : Reachable Process.Initial (Next (exec sampleUnit sample) keepsUsed) σ := by
    apply (reachable_of_execute hσ).mono
    · rintro _ rfl
      exact ⟨⟨_, rfl⟩, rfl⟩
    · intro _ _ allowed
      exact of_decide_eq_true allowed
  exact ⟨σ, c, hσ, hc, pc, invoked_open reached c hc ⟨1, str "a"⟩ 4 pc⟩

/-- The second caller learns that `b` has taken over. The first one then runs on
a closed connection and returns the error with which gRPC reports that. -/
theorem invoked_closed : ∃ σ c,
    execute (exec sampleUnit sample) (fun _ _ => true) sampleRouter
      (overlapping (.ofList [(0, str "b")]) (.ofList [(0, 6)])) = some σ ∧
    σ.calls[0]? = some c ∧ c.pc = .invoking ⟨1, str "a"⟩ 4 ∧ 1 ∈ σ.router.closed ∧
    ∃ c', step sampleUnit sample σ.router c (.reply (.broken () false)) = some (σ.router, c') ∧
      c'.pc = .returned (some ()) := by
  have ran : (execute (exec sampleUnit sample) (fun _ _ => true) sampleRouter
      (overlapping (.ofList [(0, str "b")]) (.ofList [(0, 6)]))).any (fun σ =>
        1 ∈ σ.router.closed ∧ (σ.calls[0]?).any fun c => c.stamped = some (⟨1, str "a"⟩, 4)) =
      true := by
    decide +kernel
  obtain ⟨σ, hσ, facts⟩ := (Option.any_eq_true _ _).mp ran
  obtain ⟨closed, call⟩ := of_decide_eq_true facts
  obtain ⟨c, hc, stamp⟩ := (Option.any_eq_true _ _).mp call
  have pc := Call.stamped_eq_some.mp (of_decide_eq_true stamp)
  have surfaces : step sampleUnit sample σ.router c (.reply (.broken () false)) =
      some (σ.router, { c with
        out := none, replies := c.replies ++ [.broken () false], pc := .returned (some ()) }) := by
    simp only [step_invoking pc, Reply.err, callErr, isRetriableRejection, isAmbiguousTransport,
      sampleUnit, Bool.and_false, Bool.or_self, Bool.false_eq_true, ↓reduceIte, Reply.out]
  exact ⟨σ, c, hσ, hc, pc, closed, _, surfaces, rfl⟩

end MilvusCatalog.Client
