import MilvusCatalog.Client.Router
import MilvusCatalog.Cluster

/-! Catalog nodes and the calls of one client process together. The routes that
the process stamps on its requests come from etcd through a node's route map,
the answer to a refresh and the router's two maps. -/
namespace MilvusCatalog.Client
open Go Etcd Transition

variable {E R : Type} {er : Errors E R} {cfg : Config}

structure System (E R : Type) where
  cluster : Cluster
  process : Process E R

inductive Event (E R : Type)
  | cluster (a : MilvusCatalog.Action)
  | process (a : Action E R)

def System.exec (er : Errors E R) (cfg : Config) (σ : System E R) :
    Event E R → Option (System E R)
  | .cluster a => (MilvusCatalog.exec cfg σ.cluster a).map fun cluster => { σ with cluster }
  | .process a => (Client.exec er cfg σ.process a).map fun process => { σ with process }

/-- The Go map with the entries of `f` below a bound. -/
def tabulate {α : Type} (f : Nat → Option α) : Nat → Std.ExtTreeMap Nat α
  | 0 => ∅
  | n + 1 =>
    match f n with
    | some a => (tabulate f n).insert n a
    | none => tabulate f n

/-- The handler ships the maps of one `RouteMap` call of a node as they are. -/
def ships (σ : System E R) : Event E R → Prop
  | .process (.step _ (.routes owner term)) => ∃ rm ∈ σ.cluster.routeMaps,
      owner = tabulate rm.shardOwner shardCount ∧ term = tabulate rm.shardTerm shardCount
  | _ => True

/-- A new router next to nodes that have not started. -/
structure System.Initial (cfg : Config) (σ : System E R) : Prop where
  cluster : MilvusCatalog.Initial cfg σ.cluster
  router : ∃ bootstrap, σ.process.router = .new bootstrap
  calls : σ.process.calls = []

abbrev System.Next (er : Errors E R) (cfg : Config) : System E R → System E R → Prop :=
  Transition.Next (System.exec er cfg) ships

theorem tabulate_get {α : Type} (f : Nat → Option α) (n s : Nat) :
    (tabulate f n)[s]? = if s < n then f s else none := by
  induction n with
  | zero => simp [tabulate]
  | succ n ih =>
    have more : s < n + 1 ↔ s = n ∨ s < n := by omega
    cases at_ : f n with
    | some a =>
      by_cases same : n = s
      · subst same
        simp [tabulate, at_]
      · simp [tabulate, at_, Std.ExtTreeMap.getElem?_insert, ih, more, same, Ne.symm same]
    | none =>
      by_cases same : n = s
      · subst same
        simp [tabulate, at_, ih]
      · simp [tabulate, at_, ih, more, Ne.symm same]

/-! ## Moments of a run -/

/-- At some moment of a run up to `σ` the ownership key of the shard had this
value and this revision. -/
structure Past (er : Errors E R) (cfg : Config) (σ : System E R) (s : Nat) (owner : Str)
    (term : Nat) : Prop where
  moment : ∃ τ kv, Reachable (System.Initial cfg) (System.Next er cfg) τ ∧
    Reachable (· = τ) (System.Next er cfg) σ ∧
    τ.cluster.etcd.get (shardKey cfg.pfx s) = some kv ∧ kv.value = owner ∧ kv.modRevision = term

theorem Past.next {σ σ' : System E R} {s : Nat} {owner : Str} {term : Nat}
    (h : Past er cfg σ s owner term) (next : System.Next er cfg σ σ') :
    Past er cfg σ' s owner term := by
  obtain ⟨τ, kv, reached, before, record⟩ := h.moment
  exact ⟨τ, kv, reached, before.step next, record⟩

/-- The two maps give each owner a term that was read with it. -/
def Paired (real : Nat → Str → Nat → Prop) (owner : Nat → Option Str) (term : Nat → Option Nat) :
    Prop :=
  ∀ s a, owner s = some a → ∃ t, term s = some t ∧ real s a t

section
variable {real real' : Nat → Str → Nat → Prop}

theorem Paired.mono {owner : Nat → Option Str} {term : Nat → Option Nat}
    (h : Paired real owner term) (le : ∀ s a t, real s a t → real' s a t) :
    Paired real' owner term := by
  intro s a ha
  obtain ⟨t, ht, hr⟩ := h s a ha
  exact ⟨t, ht, le s a t hr⟩

theorem Paired.tabulate {rm : RouteMap} (h : Paired real rm.shardOwner rm.shardTerm) :
    Paired real (fun s => (Client.tabulate rm.shardOwner shardCount)[s]?)
      (fun s => (Client.tabulate rm.shardTerm shardCount)[s]?) := by
  intro s a ha
  simp only [tabulate_get] at ha ⊢
  split at ha
  · next hs =>
    simp only [hs, ↓reduceIte]
    exact h s a ha
  · cases ha

/-- A route map is read from the ownership keys of one moment. -/
theorem routeMap_paired {e : Store} (layout : Layout cfg.pfx e) (members : List Str)
    (current : ∀ s kv, e.get (shardKey cfg.pfx s) = some kv → real s kv.value kv.modRevision) :
    Paired real (routeMap members (loadOwnershipMap cfg.pfx e)).shardOwner
      (routeMap members (loadOwnershipMap cfg.pfx e)).shardTerm := by
  intro s a ha
  simp only [routeMap, Option.ite_none_right_eq_some] at ha ⊢
  obtain ⟨⟨hs, owned⟩, ha⟩ := ha
  refine ⟨_, ⟨⟨hs, owned⟩, rfl⟩, ?_⟩
  rw [loadOwnershipMap_eq layout hs] at owned ha ⊢
  cases found : e.get (shardKey cfg.pfx s) with
  | none =>
    rw [found] at owned
    exact absurd rfl owned
  | some kv =>
    rw [found] at ha
    cases ha
    exact current s kv found

/-- What a call knows of the route it is about to take. -/
def CallReal (real : Nat → Str → Nat → Prop) (cfg : Config) (c : Call E R) : Prop :=
  match c.pc with
  | .refresh (.install owner term) _ => Paired real (fun s => owner[s]?) (fun s => term[s]?)
  | .dial owner term => real (cfg.shardOf c.ns) owner term
  | .invoking conn term => real (cfg.shardOf c.ns) conn.addr term
  | _ => True

structure RouterReal (real : Nat → Str → Nat → Prop) (r : Router) : Prop where
  maps : Paired real (fun s => r.shardOwner[s]?) (fun s => r.shardTerm[s]?)
  conns : r.Keyed

theorem RouterReal.routeFor {r : Router} (h : RouterReal real r) {ns owner : Str} {term : Nat}
    (found : r.routeFor cfg ns = (owner, term)) (owned : owner ≠ []) :
    real (cfg.shardOf ns) owner term := by
  obtain ⟨ho, ht⟩ := Prod.mk.inj found
  rw [Std.ExtTreeMap.getD_eq_getD_getElem?] at ho ht
  cases present : r.shardOwner[cfg.shardOf ns]? with
  | none =>
    rw [present] at ho
    exact absurd ho.symm owned
  | some a =>
    rw [present] at ho
    obtain ⟨t, term_at, hr⟩ := h.maps _ _ present
    dsimp only at term_at
    rw [term_at] at ht
    cases ho
    cases ht
    exact hr

theorem conn_ok {r r' : Router} {addr : Str} {dial : Option E} {conn : Conn}
    (h : RouterReal real r) (ok : r.conn addr dial = .ok (r', conn)) :
    RouterReal real r' ∧ conn.addr = addr := by
  have connected := conn_connected ok
  have keyed := h.conns.connected connected
  cases connected with
  | pooled => exact ⟨h, keyed.2⟩
  | dialed => exact ⟨⟨h.maps, keyed.1⟩, keyed.2⟩

theorem install_real {r : Router} (h : RouterReal real r) {owner : Owners} {term : Terms}
    (paired : Paired real (fun s => owner[s]?) (fun s => term[s]?)) :
    RouterReal real (r.install owner term) where
  maps := paired
  conns := h.conns.install owner term

theorem paused_real {c : Call E R} (h : c.Paused) : CallReal real cfg c := by
  obtain pc | pc | ⟨err, pc⟩ := h
  all_goals
    simp only [CallReal, pc]

/-- A step of a call passes on only what it found. -/
theorem stepped_real {r r' : Router} {c c' : Call E R} {i : Input E R} (hr : RouterReal real r)
    (hc : CallReal real cfg c) (step : Stepped er cfg r c i r' c')
    (shipped : ∀ owner term, i = .routes owner term →
      Paired real (fun s => owner[s]?) (fun s => term[s]?)) :
    RouterReal real r' ∧ CallReal real cfg c' := by
  cases step with
  | routed at_ found owned => exact ⟨hr, hr.routeFor found owned⟩
  | dials at_ ok =>
    obtain ⟨hr', addr⟩ := conn_ok hr ok
    simp only [CallReal, at_] at hc
    exact ⟨hr', by simpa only [CallReal, addr] using hc⟩
  | connects at_ ok => exact ⟨(conn_ok hr ok).1, True.intro⟩
  | answered => exact ⟨hr, shipped _ _ rfl⟩
  | installs at_ =>
    simp only [CallReal, at_] at hc
    exact ⟨install_real hr hc, paused_real (c.refreshed_paused _ none)⟩
  | unowned => exact ⟨hr, paused_real (Call.continue_paused _)⟩
  | exhausted e => exact ⟨hr, paused_real (c.refreshed_paused _ (some e))⟩
  | _ => exact ⟨hr, True.intro⟩

/-! ## The system -/

structure Real (real : Nat → Str → Nat → Prop) (cfg : Config) (σ : System E R) : Prop where
  layout : Layout cfg.pfx σ.cluster.etcd
  routeMaps : ∀ rm ∈ σ.cluster.routeMaps, Paired real rm.shardOwner rm.shardTerm
  router : RouterReal real σ.process.router
  calls : ∀ c ∈ σ.process.calls, CallReal real cfg c

theorem CallReal.mono {c : Call E R} (h : CallReal real cfg c)
    (le : ∀ s a t, real s a t → real' s a t) : CallReal real' cfg c := by
  unfold CallReal at h ⊢
  split
  · next at_ => simp only [at_] at h; exact h.mono le
  · next at_ => simp only [at_] at h; exact le _ _ _ h
  · next at_ => simp only [at_] at h; exact le _ _ _ h
  · exact True.intro

theorem Real.mono {σ : System E R} (h : Real real cfg σ)
    (le : ∀ s a t, real s a t → real' s a t) : Real real' cfg σ where
  layout := h.layout
  routeMaps rm hrm := (h.routeMaps rm hrm).mono le
  router := ⟨h.router.maps.mono le, h.router.conns⟩
  calls c hc := (h.calls c hc).mono le

theorem initial_real {σ : System E R} (h : System.Initial cfg σ) : Real real cfg σ := by
  obtain ⟨bootstrap, new⟩ := h.router
  constructor
  · exact reachable_layout (.start h.cluster)
  · simp [h.cluster.routeMaps]
  · rw [new]
    constructor
    · intro s a ha
      simp [Router.new] at ha
    · exact .new bootstrap
  · simp [h.calls]

theorem start_real (ns : Str) (kind : Kind) :
    CallReal real cfg (.start ns kind : Call E R) := by
  cases kind <;> exact True.intro

theorem cluster_real {σ : System E R} {cluster : Cluster} {a : MilvusCatalog.Action}
    (h : Real real cfg σ) (step : MilvusCatalog.exec cfg σ.cluster a = some cluster)
    (current : ∀ s kv, σ.cluster.etcd.get (shardKey cfg.pfx s) = some kv →
      real s kv.value kv.modRevision) : Real real cfg { σ with cluster } where
  layout := by
    obtain ⟨_, moved, -⟩ := exec_moved step
    exact moved_layout h.layout moved
  routeMaps rm hrm := by
    cases exec_routeMaps step with
    | inl same => exact h.routeMaps rm (same ▸ hrm)
    | inr more =>
      obtain ⟨members, -, eq⟩ := more
      dsimp only at hrm
      rw [eq] at hrm
      cases List.mem_append.mp hrm with
      | inl old => exact h.routeMaps rm old
      | inr new => exact List.mem_singleton.mp new ▸ routeMap_paired h.layout members current
  router := h.router
  calls := h.calls

theorem process_real {σ : System E R} {process : Process E R} {a : Action E R}
    (h : Real real cfg σ) (step : Client.exec er cfg σ.process a = some process)
    (shipped : ships σ (.process a)) : Real real cfg { σ with process } := by
  have paired : ∀ k owner term, a = .step k (.routes owner term) →
      Paired real (fun s => owner[s]?) (fun s => term[s]?) := by
    rintro k owner term rfl
    obtain ⟨rm, hrm, rfl, rfl⟩ := shipped
    exact (h.routeMaps rm hrm).tabulate
  refine ⟨h.layout, h.routeMaps, ?_, ?_⟩
  · obtain ⟨_, _, -, rfl⟩ | ⟨k, i, c, r', c', rfl, hc, stepped, rfl⟩ := exec_cases step
    · exact h.router
    · exact (stepped_real h.router (h.calls c (List.mem_of_getElem? hc)) stepped
        fun owner term eq => paired k owner term (eq ▸ rfl)).1
  · intro d hd
    obtain old | ⟨ns, kind, rfl⟩ | ⟨k, i, c, rfl, hc, stepped⟩ := exec_call step hd
    · exact h.calls d old
    · exact start_real ns kind
    · exact (stepped_real h.router (h.calls c (List.mem_of_getElem? hc)) stepped
        fun owner term eq => paired k owner term (eq ▸ rfl)).2

end

/-- The record of this moment, and all that was known before it, lie in the past
of the next state. -/
theorem next_real {σ σ' : System E R}
    (reached : Reachable (System.Initial cfg) (System.Next er cfg) σ)
    (next : System.Next er cfg σ σ') (h : Real (Past er cfg σ) cfg σ) :
    Real (Past er cfg σ') cfg σ' := by
  have known : Real (Past er cfg σ') cfg σ := h.mono fun _ _ _ past => past.next next
  have current : ∀ s kv, σ.cluster.etcd.get (shardKey cfg.pfx s) = some kv →
      Past er cfg σ' s kv.value kv.modRevision :=
    fun s kv record => ⟨σ, kv, reached, .step (.start rfl) next, record, rfl, rfl⟩
  obtain ⟨event, shipped, step⟩ := next
  cases event with
  | cluster a =>
    obtain ⟨cluster, ran, rfl⟩ := Option.map_eq_some_iff.mp step
    exact cluster_real known ran current
  | process a =>
    obtain ⟨process, ran, rfl⟩ := Option.map_eq_some_iff.mp step
    exact process_real known ran shipped

theorem reachable_real {σ : System E R}
    (h : Reachable (System.Initial cfg) (System.Next er cfg) σ) :
    Real (Past er cfg σ) cfg σ := by
  induction h with
  | start initial => exact initial_real initial
  | step reached next ih => exact next_real reached next ih

/-! ## One refresh -/

/-- Call `k` runs one `Refresh` from `before` on, among any steps of the other
calls; `own` lists the router before and after each of its own steps. -/
inductive Refreshing (er : Errors E R) (cfg : Config) (k : Nat) (before : Process E R) :
    List (Router × Router) → Process E R → Prop
  | begins {c : Call E R} {next : Then} (at_ : before.calls[k]? = some c)
      (pc : c.pc = .refresh .collect next) : Refreshing er cfg k before [] before
  | own {own : List (Router × Router)} {σ σ' : Process E R} {c : Call E R} {at_ : Refresh E}
      {next : Then} {i : Input E R} (run : Refreshing er cfg k before own σ)
      (found : σ.calls[k]? = some c) (pc : c.pc = .refresh at_ next)
      (step : exec er cfg σ (.step k i) = some σ') :
      Refreshing er cfg k before (own ++ [(σ.router, σ'.router)]) σ'
  | other {own : List (Router × Router)} {σ σ' : Process E R} {a : Action E R}
      (run : Refreshing er cfg k before own σ) (others : ∀ i, a ≠ .step k i)
      (step : exec er cfg σ a = some σ') : Refreshing er cfg k before own σ'

def SameMaps (r r' : Router) : Prop :=
  r'.shardOwner = r.shardOwner ∧ r'.shardTerm = r.shardTerm

theorem conn_same {r r' : Router} {addr : Str} {dial : Option E} {conn : Conn}
    (ok : r.conn addr dial = .ok (r', conn)) : SameMaps r r' := by
  cases conn_connected ok <;> exact ⟨rfl, rfl⟩

theorem paused_not_refresh {c : Call E R} (h : c.Paused) (at_ : Refresh E) (next : Then) :
    c.pc ≠ .refresh at_ next := by
  obtain pc | pc | ⟨err, pc⟩ := h
  all_goals
    rw [pc]
    nofun

/-- Only the step that ends a `Refresh` can change the maps. -/
theorem refresh_step_same {r r' : Router} {c c' : Call E R} {i : Input E R} {at_ : Refresh E}
    {next : Then} (pc : c.pc = .refresh at_ next) (step : Stepped er cfg r c i r' c')
    {then_ : Refresh E} {next' : Then} (still : c'.pc = .refresh then_ next') : SameMaps r r' := by
  cases step with
  | connects _ ok => exact conn_same ok
  | dials at_ => rw [pc] at at_; cases at_
  | installs => exact absurd still (paused_not_refresh (c.refreshed_paused _ none) then_ next')
  | _ => exact ⟨rfl, rfl⟩

theorem exhausted_same {r r' : Router} {c c' : Call E R} {lastErr : Option E} {next : Then}
    (pc : c.pc = .refresh (.next [] lastErr) next)
    (step : Stepped er cfg r c .none r' c') : SameMaps r r' := by
  cases step with
  | installs at_ => rw [pc] at at_; cases at_
  | _ => exact ⟨rfl, rfl⟩

theorem refreshing_same {k : Nat} {before σ : Process E R} {own : List (Router × Router)}
    (h : Refreshing er cfg k before own σ) : ∃ c, σ.calls[k]? = some c ∧
      ∀ at_ next, c.pc = .refresh at_ next → ∀ s ∈ own, SameMaps s.1 s.2 := by
  induction h with
  | begins at_ => exact ⟨_, at_, by simp⟩
  | @own own σ σ' c at_ next i run found pc step ih =>
    obtain ⟨d, hd, same⟩ := ih
    obtain rfl : c = d := Option.some.inj (found.symm.trans hd)
    obtain ⟨_, _, ⟨⟩, -⟩ | ⟨_, _, c₁, r', c', ⟨⟩, hc, stepped, rfl⟩ := exec_cases step
    obtain rfl : c = c₁ := Option.some.inj (found.symm.trans hc)
    have lt := (List.getElem?_eq_some_iff.mp found).1
    refine ⟨c', List.getElem?_set_self lt, ?_⟩
    intro then_ next' still s hs
    cases List.mem_append.mp hs with
    | inl hs => exact same at_ next pc s hs
    | inr hs =>
      rw [List.mem_singleton.mp hs]
      exact refresh_step_same pc stepped still
  | @other own σ σ' a run others step ih =>
    obtain ⟨c, hc, same⟩ := ih
    refine ⟨c, ?_, same⟩
    obtain ⟨ns, kind, -, rfl⟩ | ⟨j, i, d, r', d', rfl, hd, -, rfl⟩ := exec_cases step
    · exact List.getElem?_append_left (List.getElem?_eq_some_iff.mp hc).1 ▸ hc
    · have ne : j ≠ k := by
        rintro rfl
        exact others i rfl
      simpa [ne] using hc

/-- Whenever a call is about to run on a connection with a term, the ownership
key of its shard once held that address at that revision: owner and term are of
one generation. And a `Refresh` that returns an error has left the two maps as
they were in each of its own steps, whatever other calls did meanwhile. -/
theorem stamped_route_real {σ : System E R}
    (h : Reachable (System.Initial cfg) (System.Next er cfg) σ) :
    (∀ c ∈ σ.process.calls, ∀ conn term, c.pc = .invoking conn term →
      ∃ τ kv, Reachable (System.Initial cfg) (System.Next er cfg) τ ∧
        Reachable (· = τ) (System.Next er cfg) σ ∧
        τ.cluster.etcd.get (shardKey cfg.pfx (cfg.shardOf c.ns)) = some kv ∧
        kv.value = conn.addr ∧ kv.modRevision = term) ∧
    ∀ (k : Nat) (own : List (Router × Router)) (τ τ' : Process E R) (c : Call E R)
      (lastErr : Option E) (next : Then), Refreshing er cfg k σ.process own τ →
      τ.calls[k]? = some c → c.pc = .refresh (.next [] lastErr) next →
      exec er cfg τ (.step k .none) = some τ' →
      ∀ s ∈ own ++ [(τ.router, τ'.router)],
        s.2.shardOwner = s.1.shardOwner ∧ s.2.shardTerm = s.1.shardTerm := by
  constructor
  · intro c hc conn term pc
    have real := (reachable_real h).calls c hc
    simp only [CallReal, pc] at real
    exact real.moment
  · intro k own τ τ' c lastErr next run found pc step s hs
    obtain ⟨d, hd, same⟩ := refreshing_same run
    obtain rfl : c = d := Option.some.inj (found.symm.trans hd)
    cases List.mem_append.mp hs with
    | inl hs => exact same _ next pc s hs
    | inr hs =>
      rw [List.mem_singleton.mp hs]
      obtain ⟨_, _, ⟨⟩, -⟩ | ⟨_, _, c₁, r', c', ⟨⟩, hc, stepped, rfl⟩ := exec_cases step
      obtain rfl : c = c₁ := Option.some.inj (found.symm.trans hc)
      exact exhausted_same pc stepped

/-! Calls on a new router: the first one fetches the route map and is sent to the
owner. -/

/-- Where a call stands in a `Refresh`. -/
def Call.atRefresh (c : Call E R) : Option (Refresh E × Then) :=
  match c.pc with
  | .refresh at_ next => some (at_, next)
  | _ => none

theorem Call.atRefresh_eq_some {c : Call E R} {at_ : Refresh E} {next : Then} :
    c.atRefresh = some (at_, next) ↔ c.pc = .refresh at_ next := by
  unfold Call.atRefresh
  split
  · next pc => simp [pc]
  · next other => exact iff_of_false nofun (other at_ next)

def Refresh.collecting : Refresh E → Bool
  | .collect => true
  | _ => false

theorem Refresh.collecting_iff {at_ : Refresh E} : at_.collecting = true ↔ at_ = .collect := by
  cases at_ <;> simp [Refresh.collecting]

/-- No address is left. -/
def Refresh.exhausted : Refresh E → Bool
  | .next [] _ => true
  | _ => false

theorem Refresh.exhausted_iff {at_ : Refresh E} :
    at_.exhausted = true ↔ ∃ lastErr, at_ = .next [] lastErr := by
  cases at_ with
  | next addrs lastErr => cases addrs <;> simp [Refresh.exhausted]
  | _ => simp [Refresh.exhausted]

/-- Call `k` takes only steps of its `Refresh`. -/
def inRefresh (k : Nat) (σ : Process E R) : Action E R → Bool
  | .step j _ => j ≠ k ∨ (σ.calls[k]?.any fun c => c.atRefresh.isSome)
  | .start _ _ => true

theorem refreshing_of_reachable {k : Nat} {σ τ : Process E R} {c : Call E R} {next : Then}
    (at_ : σ.calls[k]? = some c) (pc : c.pc = .refresh .collect next)
    (h : Reachable (· = σ) (Transition.Next (exec er cfg) fun σ a => inRefresh k σ a = true) τ) :
    ∃ own, Refreshing er cfg k σ own τ := by
  induction h with
  | start same =>
    subst same
    exact ⟨[], .begins at_ pc⟩
  | @step τ τ' _ next ih =>
    obtain ⟨own, run⟩ := ih
    obtain ⟨a, ha, step⟩ := next
    cases a with
    | start =>
      refine ⟨own, run.other (fun i same => ?_) step⟩
      cases same
    | step j i =>
      by_cases mine : j = k
      · subst mine
        simp only [inRefresh, ne_eq, not_true_eq_false, false_or, decide_eq_true_eq,
          Option.any_eq_true, Option.isSome_iff_exists, Prod.exists] at ha
        obtain ⟨d, hd, at_', next', there⟩ := ha
        exact ⟨_, run.own hd (Call.atRefresh_eq_some.mp there) step⟩
      · refine ⟨own, run.other (fun i same => ?_) step⟩
        cases same
        exact mine rfl

instance (σ : System E R) : DecidablePred (ships σ)
  | .process (.step _ (.routes _ _)) => inferInstanceAs (Decidable (∃ rm ∈ _, _))
  | .process (.step _ .none) | .process (.step _ (.ctx _)) | .process (.step _ (.order _))
  | .process (.step _ (.dial _)) | .process (.step _ (.failed _))
  | .process (.step _ (.reply _)) | .process (.start _ _) | .cluster _ =>
    inferInstanceAs (Decidable True)

def sampleUnit : Errors Unit Unit := ⟨fun _ => false, fun _ => .other, fun _ => none, fun _ => ()⟩

def sampleSystem : System Unit Unit := ⟨sampleStart, ⟨.new [str "a"], [], 0⟩⟩

def nodesUp : List MilvusCatalog.Action :=
  sampleJoin 0 "a" ++ sampleJoin 1 "b" ++ List.replicate 8 (.call 0 .ok) ++
    [.routeMembers, .routeMap 0]

def firstCall : List (Event Unit Unit) :=
  nodesUp.map .cluster ++
    (.start (str "x") .idempotent :: [.ctx none, .none, .order [], .dial none,
      .routes (.ofList [(0, str "a")]) (.ofList [(0, 4)]), .none, .none, .dial none].map
        (.step 0)).map .process

theorem sampleSystem_initial : System.Initial sample sampleSystem :=
  ⟨sampleStart_initial, ⟨_, rfl⟩, rfl⟩

/-- Node `A` joins, which is to have shard 0: `a` releases it and `A` claims it. -/
def movesToA : List MilvusCatalog.Action :=
  sampleJoin 2 "A" ++ List.replicate 10 (.call 0 .ok) ++ List.replicate 8 (.call 2 .ok) ++
    [.routeMembers, .routeMap 0]

/-- A `Refresh` fetches the new maps, a call goes to the new owner, and another
`Refresh` begins. -/
def callsAgain : List (Action Unit Unit) :=
  [.start (str "x") .refresh, .step 1 (.order [str "a"]), .step 1 (.dial none),
    .step 1 (.routes (.ofList [(0, str "A")]) (.ofList [(0, 7)])), .step 1 .none,
    .start (str "x") .idempotent, .step 2 (.ctx none), .step 2 .none, .step 2 (.dial none),
    .start (str "x") .refresh]

/-- Both addresses fail to answer, and in between the call returns. -/
def refreshFails : List (Action Unit Unit) :=
  [.step 3 (.order [str "A"]), .step 3 (.dial none), .step 3 (.failed ()),
    .step 2 (.reply (.answered () true)), .step 3 (.dial none), .step 3 (.failed ())]

/-- The shard moves while the first call is on its way. -/
theorem stamped_route_real_moved : ∃ (σ : System Unit Unit) (c d : Call Unit Unit)
    (own : List (Router × Router)) (τ τ' : Process Unit Unit),
    Reachable (System.Initial sample) (System.Next sampleUnit sample) σ ∧
    c ∈ σ.process.calls ∧ c.ns = str "x" ∧ c.pc = .invoking ⟨0, str "a"⟩ 4 ∧
    d ∈ σ.process.calls ∧ d.ns = str "x" ∧ d.pc = .invoking ⟨1, str "A"⟩ 7 ∧
    (∃ before kv, Reachable (· = before) (System.Next sampleUnit sample) σ ∧
      before.cluster.etcd.get (shardKey sample.pfx 0) = some kv ∧ kv.value = str "a" ∧
      kv.modRevision = 4) ∧
    (∃ before kv, Reachable (· = before) (System.Next sampleUnit sample) σ ∧
      before.cluster.etcd.get (shardKey sample.pfx 0) = some kv ∧ kv.value = str "A" ∧
      kv.modRevision = 7) ∧
    Refreshing sampleUnit sample 3 σ.process own τ ∧
    exec sampleUnit sample τ (.step 3 .none) = some τ' ∧
    ∀ s ∈ own ++ [(τ.router, τ'.router)],
      s.2.shardOwner = s.1.shardOwner ∧ s.2.shardTerm = s.1.shardTerm := by
  have ran : (execute (System.exec sampleUnit sample) (fun σ e => decide (ships σ e)) sampleSystem
      (firstCall ++ movesToA.map .cluster ++ callsAgain.map .process)).any (fun σ =>
        (σ.process.calls.any fun c => c.ns = str "x" ∧ c.stamped = some (⟨0, str "a"⟩, 4)) ∧
        (σ.process.calls.any fun d => d.ns = str "x" ∧ d.stamped = some (⟨1, str "A"⟩, 7)) ∧
        (σ.process.calls[3]?.any fun c => c.atRefresh.any fun s => s.1.collecting) ∧
        (execute (exec sampleUnit sample) (inRefresh 3) σ.process refreshFails).any fun τ =>
          (τ.calls[3]?.any fun c => c.atRefresh.any fun s => s.1.exhausted) ∧
          (exec sampleUnit sample τ (.step 3 .none)).isSome) = true := by
    decide +kernel
  obtain ⟨σ, hσ, test⟩ := (Option.any_eq_true _ _).mp ran
  simp only [decide_eq_true_eq, Option.any_eq_true, List.any_eq_true] at test
  obtain ⟨⟨c, hc, nsC, first⟩, ⟨d, hd, nsD, second⟩, ⟨f, hf, ⟨_, next⟩, atF, collecting⟩, τ, hτ,
    ⟨g, hg, ⟨_, next'⟩, atG, exhausted⟩, ended⟩ := test
  obtain ⟨τ', last⟩ := Option.isSome_iff_exists.mp ended
  obtain rfl := Refresh.collecting_iff.mp collecting
  obtain ⟨lastErr, rfl⟩ := Refresh.exhausted_iff.mp exhausted
  have pcC := Call.stamped_eq_some.mp first
  have pcD := Call.stamped_eq_some.mp second
  have reached : Reachable (System.Initial sample) (System.Next sampleUnit sample) σ :=
    (reachable_of_execute hσ).mono (fun _ hs => hs ▸ sampleSystem_initial)
      fun _ _ => of_decide_eq_true
  obtain ⟨own, refreshing⟩ := refreshing_of_reachable hf (Call.atRefresh_eq_some.mp atF)
    (reachable_of_execute hτ)
  obtain ⟨real, same⟩ := stamped_route_real reached
  have shard : sample.shardOf (str "x") = 0 := by decide +kernel
  obtain ⟨before, kv, -, later, record, value, term⟩ := real c hc _ _ pcC
  obtain ⟨before', kv', -, later', record', value', term'⟩ := real d hd _ _ pcD
  rw [nsC, shard] at record
  rw [nsD, shard] at record'
  exact ⟨σ, c, d, own, τ, τ', reached, hc, nsC, pcC, hd, nsD, pcD,
    ⟨before, kv, later, record, value, term⟩, ⟨before', kv', later', record', value', term'⟩,
    refreshing, last, same 3 own τ τ' g lastErr next' refreshing hg
      (Call.atRefresh_eq_some.mp atG) last⟩

end MilvusCatalog.Client
