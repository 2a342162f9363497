import MilvusCatalog.Client.Closing
import MilvusCatalog.Client.Returns

/-! Discovery from the bootstrap addresses. A refresh may close connections that other
calls are about to use, but never one to a bootstrap address, so one such address that
answers is enough for every `Refresh`. -/
namespace MilvusCatalog.Client
open Go Transition

variable {E R : Type} {er : Errors E R} {cfg : Config}

/-- The node at `good` answers: a dial to it succeeds, and `GetRouteMap` on a
connection to it fails only after the connection has been shut. -/
def answering (good : Str) (σ : Process E R) : Action E R → Prop
  | .start _ _ => True
  | .step k i => ∀ c, σ.calls[k]? = some c →
      (∀ rest lastErr next e, c.pc = .refresh (.next (good :: rest) lastErr) next →
        i ≠ .dial (some e)) ∧
      ∀ conn rest lastErr next e, c.pc = .refresh (.asking conn rest lastErr) next →
        conn.addr = good → conn.id ∉ σ.router.closed → i ≠ .failed e

/-! ## The router -/

structure Seeded (good : Str) (r : Router) : Prop where
  seed : good ∈ r.bootstrap
  addr : r.Keyed
  accounted : r.Accounted

section
variable {good : Str} {r r' : Router}

/-- A pooled connection is open. -/
theorem Router.Accounted.opened (h : r.Accounted) {a : Str} {conn : Conn}
    (found : r.conns[a]? = some conn) : conn.id ∉ r.closed := by
  have distinct : (r.pooled ++ r.closed).Nodup := h.nodup_iff.mpr List.nodup_range
  refine fun closed => (List.nodup_append.mp distinct).2.2 conn.id ?_ conn.id closed rfl
  exact List.mem_map.mpr ⟨(a, conn), Std.ExtTreeMap.mem_toList_iff_getElem?_eq_some.mpr found, rfl⟩

theorem Seeded.connected (h : Seeded good r) {addr : Str} {conn : Conn}
    (connected : Connected r addr r' conn) : Seeded good r' := by
  have accounted := h.accounted.connected connected
  have keyed := (h.addr.connected connected).1
  cases connected with
  | pooled => exact h
  | dialed => exact ⟨h.seed, keyed, accounted⟩

theorem Seeded.installed (h : Seeded good r) (owner : Owners) (term : Terms) :
    Seeded good (r.install owner term) :=
  ⟨h.seed, h.addr.install owner term, h.accounted.installed owner term⟩

/-- The router keeps its connection to a bootstrap address, whatever a call does. -/
theorem Seeded.step (h : Seeded good r) {c c' : Call E R} {i : Input E R}
    (stepped : Stepped er cfg r c i r' c') : Seeded good r' ∧
      ∀ conn, r.conns[good]? = some conn → r'.conns[good]? = some conn := by
  obtain ⟨rfl, -⟩ | ⟨addr, x, connected, -⟩ | ⟨owner, term, _, -, rfl, -⟩ := stepped_pool stepped
  · exact ⟨h, fun _ found => found⟩
  · refine ⟨h.connected connected, fun conn found => ?_⟩
    cases connected with
    | pooled => exact found
    | dialed absent =>
      have other : addr ≠ good := by
        rintro rfl
        rw [found] at absent
        cases absent
      rw [Std.ExtTreeMap.getElem?_insert, if_neg, found]
      exact fun eq => other (Std.LawfulEqCmp.eq_of_compare eq)
  · refine ⟨h.installed owner term, fun conn found => ?_⟩
    have live : r.live owner good = true := by simp [Router.live, h.seed]
    rw [Router.install_conns, found, Option.filter_some, if_pos live]

end

/-! ## The calls -/

/-- A `Refresh` on its way has still to ask `good`, or is asking it over the connection
in the pool. -/
def Looking (good : Str) (r : Router) (c : Call E R) : Prop :=
  match c.pc with
  | .refresh (.next addrs _) _ => good ∈ addrs
  | .refresh (.asking conn rest _) _ => good ∈ rest ∨ r.conns[good]? = some conn
  | _ => True

theorem Looking.router {good : Str} {r r' : Router} {c : Call E R} (h : Looking good r c)
    (kept : ∀ conn, r.conns[good]? = some conn → r'.conns[good]? = some conn) :
    Looking good r' c := by
  unfold Looking at h ⊢
  split
  · next at_ => simpa only [at_] using h
  · next conn _ _ _ at_ =>
    simp only [at_] at h
    exact h.imp id (kept conn)
  · trivial

theorem looking_paused {good : Str} {r : Router} {c : Call E R} (h : c.Paused) :
    Looking good r c := by
  rcases h with pc | pc | ⟨err, pc⟩ <;> simp [Looking, pc]

section
variable {good : Str} {r r' : Router} {c c' : Call E R} {i : Input E R}

theorem step_looking (seeded : Seeded good r) (h : Looking good r c)
    (dials : ∀ rest lastErr next e, c.pc = .refresh (.next (good :: rest) lastErr) next →
      i ≠ .dial (some e))
    (answers : ∀ conn rest lastErr next e, c.pc = .refresh (.asking conn rest lastErr) next →
      conn.addr = good → conn.id ∉ r.closed → i ≠ .failed e)
    (step : Client.step er cfg r c i = some (r', c')) : Looking good r' c' := by
  cases step_stepped step with
  | unowned => exact looking_paused (Call.continue_paused _)
  | exhausted e => exact looking_paused (c.refreshed_paused _ (some e))
  | installs => exact looking_paused (c.refreshed_paused _ none)
  | collects => exact List.mem_append_left _ seeded.seed
  | connects at_ ok =>
    simp only [Looking, at_] at h
    rcases List.mem_cons.mp h with rfl | later
    · refine .inr ?_
      cases conn_connected ok with
      | pooled found => exact found
      | dialed => exact Std.ExtTreeMap.getElem?_insert_self
    · exact .inl later
  | @skips next addr rest lastErr err e at_ =>
    simp only [Looking, at_] at h
    rcases List.mem_cons.mp h with rfl | later
    · -- Only a dial can fail here, and a dial to `good` does not.
      cases err with
      | some e => exact absurd rfl (dials rest lastErr next e at_)
      | none =>
        obtain ⟨s, ok⟩ := conn_dials (E := E) r good
        rw [step_next at_, ok, Option.some.injEq, Prod.mk.injEq] at step
        cases congrArg Call.pc step.2
    · exact later
  | @refused next conn rest lastErr e at_ =>
    simp only [Looking, at_] at h
    rcases h with later | pooled
    · exact later
    · exact absurd rfl (answers conn rest lastErr next e at_ (seeded.addr good conn pooled)
        (seeded.accounted.opened pooled))
  | _ => trivial

/-- A caller of `Refresh` itself is in it or has got no error. -/
def Answered (c : Call E R) : Prop :=
  c.kind = .refresh → (∃ at_, c.pc = .refresh at_ .finish) ∨ c.pc = .returned none

theorem step_answered (looking : Looking good r c) (h : Answered c)
    (stepped : Stepped er cfg r c i r' c') : Answered c' := by
  intro kind
  rw [(stepped_replies stepped).1] at kind
  have pc := h kind
  cases stepped with
  | collects at_ | connects at_ | skips at_ | refused at_ | answered at_ =>
    simp only [at_, Pc.refresh.injEq, reduceCtorEq, or_false] at pc
    obtain ⟨_, -, finish⟩ := pc
    exact .inl ⟨_, by rw [finish]⟩
  | exhausted e at_ =>
    simp only [Looking, at_] at looking
    cases looking
  | installs at_ =>
    simp only [at_, Pc.refresh.injEq, reduceCtorEq, or_false] at pc
    obtain ⟨_, -, finish⟩ := pc
    exact .inr (by rw [finish]; rfl)
  | routed at_ => rcases at_ with at_ | at_ <;> simp [at_] at pc
  | cancelled at_ | proceeds at_ | unrouted at_ | unowned _ at_ | dials at_ | undialed at_
    | succeeds at_ | retries at_ | surfaces at_ => simp [at_] at pc

end

structure SeedInv (good : Str) (σ : Process E R) : Prop where
  router : Seeded good σ.router
  looking : ∀ c ∈ σ.calls, Looking good σ.router c
  answered : ∀ c ∈ σ.calls, Answered c

theorem exec_seeds {good : Str} {σ σ' : Process E R} {a : Action E R} (h : SeedInv good σ)
    (ha : answering good σ a) (step : exec er cfg σ a = some σ') : SeedInv good σ' := by
  cases a with
  | start ns kind =>
    cases step
    refine ⟨h.router, fun c mem => ?_, fun c mem => ?_⟩
    · cases List.mem_append.mp mem with
      | inl old => exact h.looking c old
      | inr new =>
        rw [List.mem_singleton.mp new]
        cases kind <;> trivial
    · cases List.mem_append.mp mem with
      | inl old => exact h.answered c old
      | inr new =>
        rw [List.mem_singleton.mp new]
        rintro rfl
        exact .inl ⟨_, rfl⟩
  | step k i =>
    obtain ⟨c, d, hc, stepped, calls⟩ := exec_own step
    have mem := List.mem_of_getElem? hc
    obtain ⟨dials, answers⟩ := ha c hc
    obtain ⟨router, kept⟩ := h.router.step (step_stepped stepped)
    have own := step_looking h.router (h.looking c mem) dials answers stepped
    refine ⟨router, fun x hx => ?_, fun x hx => ?_⟩
    · cases List.mem_or_eq_of_mem_set (calls ▸ hx) with
      | inl old => exact (h.looking x old).router kept
      | inr new => exact new ▸ own
    · cases List.mem_or_eq_of_mem_set (calls ▸ hx) with
      | inl old => exact h.answered x old
      | inr new =>
        exact new ▸ step_answered (h.looking c mem) (h.answered c mem) (step_stepped stepped)

/-- **One seed is enough.** In every run of any calls on one router, as long as one of
its bootstrap addresses answers over connections that have not been shut: no `Refresh`
runs out of addresses, in whatever call it is made, and one that was called for itself
returns no error. The other addresses may fail at any time, and any calls may evict
connections in between. -/
theorem one_seed_suffices {good : Str} {bootstrap : List Str} (seed : good ∈ bootstrap)
    {σ : Process E R}
    (h : Reachable (fun σ => σ.router = .new bootstrap ∧ σ.calls = [])
      (Next (exec er cfg) (answering good)) σ) {c : Call E R} (mem : c ∈ σ.calls) :
    (∀ lastErr next, c.pc ≠ .refresh (.next [] lastErr) next) ∧
      (c.kind = .refresh → ∀ err, c.pc = .returned err → err = none) := by
  have inv : SeedInv good σ := by
    refine h.invariant (fun σ start => ?_) fun _ _ _ => exec_seeds
    obtain ⟨router, calls⟩ := start
    exact ⟨router ▸ ⟨seed, .new bootstrap, .refl []⟩, by simp [calls], by simp [calls]⟩
  refine ⟨fun lastErr next pc => ?_, fun kind err pc => ?_⟩
  · have looking := inv.looking c mem
    simp only [Looking, pc] at looking
    cases looking
  · simpa [pc] using inv.answered c mem kind

/-! The first bootstrap address is down, and the second one answers. -/

/-- A dial or a request of the call that fails at `good`. -/
def failsAt (good : Str) (r : Router) (c : Call E R) (i : Input E R) : Bool :=
  match c.pc, i with
  | .refresh (.next (addr :: _) _) _, .dial (some _) => addr = good
  | .refresh (.asking conn _ _) _, .failed _ => conn.addr = good ∧ conn.id ∉ r.closed
  | _, _ => false

theorem failsAt_eq_false {good : Str} {r : Router} {c : Call E R} {i : Input E R} :
    failsAt good r c i = false ↔
      (∀ rest lastErr next e, c.pc = .refresh (.next (good :: rest) lastErr) next →
        i ≠ .dial (some e)) ∧
      ∀ conn rest lastErr next e, c.pc = .refresh (.asking conn rest lastErr) next →
        conn.addr = good → conn.id ∉ r.closed → i ≠ .failed e := by
  unfold failsAt
  split
  · next addr rest lastErr next e pc =>
    rw [decide_eq_false_iff_not]
    constructor
    · intro other
      refine ⟨fun _ _ _ _ at_ => ?_, fun _ _ _ _ _ at_ => ?_⟩ <;> rw [pc] at at_ <;> cases at_
      exact absurd rfl other
    · rintro ⟨dials, -⟩ rfl
      exact dials rest lastErr next e pc rfl
  · next conn rest lastErr next e pc =>
    rw [decide_eq_false_iff_not]
    constructor
    · intro other
      refine ⟨fun _ _ _ _ at_ => ?_, fun _ _ _ _ _ at_ addr opened => ?_⟩ <;> rw [pc] at at_ <;>
        cases at_
      exact absurd ⟨addr, opened⟩ other
    · rintro ⟨-, answers⟩ ⟨addr, opened⟩
      exact answers conn rest lastErr next e pc addr opened rfl
  · next dials asks =>
    refine iff_of_true rfl ⟨?_, ?_⟩
    · rintro rest lastErr next e pc rfl
      exact dials good rest lastErr next e pc rfl
    · rintro conn rest lastErr next e pc - - rfl
      exact asks conn rest lastErr next e pc rfl

instance (good : Str) (σ : Process E R) : DecidablePred (answering good σ)
  | .start _ _ => inferInstanceAs (Decidable True)
  | .step k i => decidable_of_iff (∀ c ∈ σ.calls[k]?, failsAt good σ.router c i = false)
      (forall₂_congr fun _ _ => failsAt_eq_false)

def hasReturned (c : Call E R) : Bool :=
  match c.pc with
  | .returned _ => true
  | _ => false

theorem hasReturned_pc {c : Call E R} (h : hasReturned c = true) : ∃ err, c.pc = .returned err := by
  unfold hasReturned at h
  split at h
  · next err pc => exact ⟨err, pc⟩
  · cases h

/-- A call refreshes from `seed` and gets to node `a`; a direct refresh has no answer
from `down`, asks `seed` and evicts the connection to `a`. -/
def seedAnswers : List (Action Unit Unit) :=
  (.start (str "x") .idempotent :: [.ctx none, .none, .order [], .dial (some ()), .dial none,
    .routes (.ofList [(0, str "a")]) (.ofList [(0, 4)]), .none, .none, .dial none].map (.step 0)) ++
  .start [] .refresh :: [.order [str "a"], .dial none, .failed (), .dial none,
    .routes (.ofList [(0, str "b")]) (.ofList [(0, 6)]), .none].map (.step 1)

theorem one_seed_suffices_seedAnswers : ∃ (σ : Process Unit Unit) (c : Call Unit Unit),
    σ.calls[1]? = some c ∧ c.kind = .refresh ∧ σ.router.closed = [1] ∧
      c.pc = .returned none := by
  have ran : (execute (exec sampleUnit sample) (fun σ a => decide (answering (str "seed") σ a))
      ⟨.new [str "down", str "seed"], [], 0⟩ seedAnswers).any (fun σ =>
        σ.router.closed = [1] ∧ (σ.calls[1]?).any fun c =>
          c.kind = .refresh ∧ hasReturned c) = true := by decide +kernel
  obtain ⟨σ, hσ, facts⟩ := (Option.any_eq_true _ _).mp ran
  obtain ⟨closed, call⟩ := of_decide_eq_true facts
  obtain ⟨c, hc, ended⟩ := (Option.any_eq_true _ _).mp call
  obtain ⟨kind, ended⟩ := of_decide_eq_true ended
  obtain ⟨err, pc⟩ := hasReturned_pc ended
  have reached : Reachable (fun σ : Process Unit Unit =>
      σ.router = .new [str "down", str "seed"] ∧ σ.calls = [])
      (Next (exec sampleUnit sample) (answering (str "seed"))) σ := by
    apply (reachable_of_execute hσ).mono
    · rintro _ rfl
      exact ⟨rfl, rfl⟩
    · intro _ _ allowed
      exact of_decide_eq_true allowed
  have noError := (one_seed_suffices (by simp) reached (List.mem_of_getElem? hc)).2 kind
  exact ⟨σ, c, hc, kind, closed, by rw [pc, noError err pc]⟩

end MilvusCatalog.Client
