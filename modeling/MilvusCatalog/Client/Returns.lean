import MilvusCatalog.Client.RefCount

/-! Every call returns, with the result of its last invocation. The other calls of
the process may change the router's maps and its pool at every step in between. -/
namespace MilvusCatalog.Client
open Go Transition

variable {E R : Type} {er : Errors E R} {cfg : Config}

/-! ## Calls end -/

/-- The stages that a `Refresh` has before it, and the exchanges within the loop
over the addresses. -/
def Refresh.ahead : Refresh E → Nat × Nat
  | .collect => (2, 0)
  | .next addrs _ => (1, 2 * addrs.length)
  | .asking _ rest _ => (1, 2 * rest.length + 1)
  | .install _ _ => (0, 0)

/-- The same for an attempt. -/
def Pc.ahead : Pc E → Nat × Nat
  | .attempt => (11, 0)
  | .route => (10, 0)
  | .refresh at_ .reroute => (at_.ahead.1 + 7, at_.ahead.2)
  | .reroute => (6, 0)
  | .dial _ _ => (5, 0)
  | .invoking _ _ => (4, 0)
  | .refresh at_ _ => (at_.ahead.1 + 1, at_.ahead.2)
  | .returned _ => (0, 0)

/-- What a call has before it: attempts, the stages of this one, and addresses. -/
def Call.rank (c : Call E R) : ℕ ×ₗ ℕ :=
  toLex ((maxAttempts - c.attempt) * 12 + c.pc.ahead.1, c.pc.ahead.2)

theorem continue_rank {c d : Call E R} (same : d.attempt = c.attempt) (stage : 0 < c.pc.ahead.1) :
    d.continue_.rank < c.rank := by
  simp only [Call.rank, Call.continue_, same, Prod.Lex.toLex_lt_toLex]
  left
  generalize c.pc.ahead.1 = n at stage ⊢
  by_cases again : c.attempt + 1 < maxAttempts
  · rw [if_pos again]
    simp only [Pc.ahead]
    omega
  · rw [if_neg again]
    simp only [Pc.ahead]
    omega

theorem refresh_ahead (at_ : Refresh E) (next : Then) :
    0 < (Pc.refresh at_ next).ahead.1 := by
  cases next <;> simp [Pc.ahead]

theorem refreshed_rank {c : Call E R} {at_ : Refresh E} {next : Then}
    (pc : c.pc = .refresh at_ next) (err : Option E) : (c.refreshed next err).rank < c.rank := by
  have stage := pc ▸ refresh_ahead at_ next
  cases next with
  | retry => exact continue_rank rfl stage
  | finish =>
    simp only [Call.rank, Call.refreshed, pc, Pc.ahead, Prod.Lex.toLex_lt_toLex]
    omega
  | reroute =>
    cases err with
    | some e => exact continue_rank rfl stage
    | none =>
      simp only [Call.rank, Call.refreshed, pc, Pc.ahead, Prod.Lex.toLex_lt_toLex]
      omega

/-- Within a `Refresh`, whatever it is part of. -/
theorem refreshing_rank {c : Call E R} {at_ later : Refresh E} {next : Then}
    (pc : c.pc = .refresh at_ next) (less : toLex later.ahead < toLex at_.ahead) :
    ({ c with pc := .refresh later next } : Call E R).rank < c.rank := by
  simp only [Prod.Lex.lt_iff, ofLex_toLex] at less
  cases next <;> simp only [Call.rank, pc, Pc.ahead, Prod.Lex.toLex_lt_toLex] <;> omega

/-- Every step of a call leaves less before it. -/
theorem stepped_rank {r r' : Router} {c c' : Call E R} {i : Input E R}
    (step : Stepped er cfg r c i r' c') : c'.rank < c.rank := by
  cases step with
  | unowned e at_ => exact continue_rank rfl (by simp [at_, Pc.ahead])
  | exhausted e at_ => exact refreshed_rank at_ (some e)
  | installs at_ => exact refreshed_rank at_ none
  | collects at_ => exact refreshing_rank at_ (by simp [Refresh.ahead, Prod.Lex.toLex_lt_toLex])
  | connects at_ | skips at_ | refused at_ | answered at_ =>
    exact refreshing_rank at_ (by simp [Refresh.ahead, Prod.Lex.toLex_lt_toLex]; try omega)
  | routed at_ =>
    cases at_ with
    | inl at_ => simp [Call.rank, at_, Pc.ahead, Prod.Lex.toLex_lt_toLex]
    | inr at_ => simp [Call.rank, at_, Pc.ahead, Prod.Lex.toLex_lt_toLex]
  | unrouted at_ | undialed at_ | retries at_ =>
    simp [Call.rank, Call.retry, at_, Pc.ahead, Refresh.ahead, Prod.Lex.toLex_lt_toLex]
  | cancelled at_ | proceeds at_ | dials at_ | succeeds at_ | surfaces at_ =>
    simp [Call.rank, at_, Pc.ahead, Prod.Lex.toLex_lt_toLex]

/-- Nothing but a dial that fails keeps a call from its connection. -/
theorem conn_dials (r : Router) (addr : Str) : ∃ s, r.conn addr (none : Option E) = .ok s := by
  unfold Router.conn
  split
  · exact ⟨_, rfl⟩
  · exact ⟨_, rfl⟩

/-- No call is ever stuck: where it stands, some input takes it on. -/
theorem step_possible (er : Errors E R) (cfg : Config) (r : Router) (c : Call E R) (e : E) :
    (∃ err, c.pc = .returned err) ∨ ∃ i s, step er cfg r c i = some s := by
  cases at_ : c.pc with
  | returned err => exact .inl ⟨err, rfl⟩
  | attempt => exact .inr ⟨_, _, step_attempt at_⟩
  | route =>
    by_cases unknown : (r.routeFor cfg c.ns).1 = []
    · exact .inr ⟨_, _, (step_route at_).trans (if_pos unknown)⟩
    · exact .inr ⟨_, _, (step_route at_).trans (if_neg unknown)⟩
  | reroute =>
    by_cases unknown : (r.routeFor cfg c.ns).1 = []
    · cases c
      cases at_
      exact .inr ⟨.none, _, if_pos unknown⟩
    · exact .inr ⟨_, _, step_reroute at_ unknown⟩
  | dial owner term =>
    obtain ⟨s, ok⟩ := conn_dials (E := E) r owner
    exact .inr ⟨_, _, by rw [step_dial at_, ok]⟩
  | invoking conn term =>
    refine .inr ⟨.reply (.broken e false), ?_⟩
    rw [step_invoking at_]
    dsimp only [Reply.err, callErr]
    split
    · exact ⟨_, rfl⟩
    · exact ⟨_, rfl⟩
  | refresh refresh next =>
    cases refresh with
    | collect => exact .inr ⟨_, _, step_collect at_ (.refl _)⟩
    | install => exact .inr ⟨_, _, step_install at_⟩
    | asking =>
      cases c
      cases at_
      exact .inr ⟨.failed e, _, rfl⟩
    | next addrs lastErr =>
      cases addrs with
      | nil =>
        cases c
        cases at_
        exact .inr ⟨.none, _, rfl⟩
      | cons addr rest =>
        obtain ⟨s, ok⟩ := conn_dials (E := E) r addr
        exact .inr ⟨_, _, by rw [step_next at_, ok]⟩

theorem exec_others {σ σ' : Process E R} {a : Action E R} {k : Nat} {c : Call E R}
    (step : exec er cfg σ a = some σ') (hc : σ.calls[k]? = some c) (others : ∀ i, a ≠ .step k i) :
    σ'.calls[k]? = some c := by
  have lt := (List.getElem?_eq_some_iff.mp hc).1
  obtain ⟨_, _, -, rfl⟩ | ⟨j, i, _, _, _, rfl, -, -, rfl⟩ := exec_cases step
  · rw [List.getElem?_append_left lt, hc]
  · have other : j ≠ k := fun same => others i (same ▸ rfl)
    rw [List.getElem?_set_ne other, hc]

/-- A call's own step, in the process. -/
theorem exec_own {σ σ' : Process E R} {k : Nat} {i : Input E R}
    (step : exec er cfg σ (.step k i) = some σ') : ∃ c d, σ.calls[k]? = some c ∧
      Client.step er cfg σ.router c i = some (σ'.router, d) ∧ σ'.calls = σ.calls.set k d := by
  simp only [exec] at step
  split at step
  · cases step
  · next c hc =>
    obtain ⟨s, stepped, rfl⟩ := Option.map_eq_some_iff.mp step
    exact ⟨c, s.2, hc, stepped, rfl⟩

/-! ## What they return -/

/-- An invocation after which the call goes on: it was refused, or its outcome is
unknown and the call may be sent twice. -/
def Retried (er : Errors E R) (kind : Kind) (reply : Reply E R) : Prop :=
  ∃ e, reply.err er = some e ∧ (isRetriableRejection er e = true ∨
    kind.retryAmbiguous = true ∧ isAmbiguousTransport er e = true)

/-- The last invocation ended with `err`, and the call went on after all before. -/
def EndsWith (er : Errors E R) (c : Call E R) (err : Option E) : Prop :=
  ∃ earlier reply, c.replies = earlier ++ [reply] ∧ (∀ x ∈ earlier, Retried er c.kind x) ∧
    reply.err er = err ∧ c.out = reply.out

/-- What a call may return. An error is the one of the last invocation, or stands
for invocations that have all been retried. -/
def Explained (er : Errors E R) (c : Call E R) : Prop :=
  match c.pc with
  | .returned none => c.kind = .refresh ∨ EndsWith er c none
  | .returned (some e) => EndsWith er c (some e) ∨ ∀ reply ∈ c.replies, Retried er c.kind reply
  | .refresh _ .finish => c.kind = .refresh ∧ c.replies = []
  | _ => ∀ reply ∈ c.replies, Retried er c.kind reply

theorem start_explained (ns : Str) (kind : Kind) : Explained er (.start ns kind : Call E R) := by
  cases kind with
  | refresh => exact ⟨rfl, rfl⟩
  | _ => exact nofun

theorem continue_explained {c : Call E R} (h : ∀ reply ∈ c.replies, Retried er c.kind reply)
    (failed : c.lastErr ≠ none) : Explained er c.continue_ := by
  unfold Call.continue_
  by_cases again : c.attempt + 1 < maxAttempts
  · rw [if_pos again]
    exact h
  · rw [if_neg again]
    obtain ⟨e, last⟩ := Option.ne_none_iff_exists'.mp failed
    rw [last]
    exact .inr h

theorem refreshed_explained {c : Call E R} {at_ : Refresh E} {next : Then} (inv : Inv er c)
    (h : Explained er c) (pc : c.pc = .refresh at_ next) (err : Option E) :
    Explained er (c.refreshed next err) := by
  simp only [Explained, pc] at h
  cases next with
  | reroute =>
    cases err with
    | some e => exact continue_explained h (by simp)
    | none => exact h
  | retry =>
    simp only [Inv, pc] at inv
    exact continue_explained h inv.2
  | finish =>
    cases err with
    | some e => exact .inr (by simp [Call.refreshed, h.2])
    | none => exact .inl h.1

theorem refreshing_explained {c : Call E R} {at_ : Refresh E} {next : Then} (h : Explained er c)
    (pc : c.pc = .refresh at_ next) (then_ : Refresh E) :
    Explained er { c with pc := .refresh then_ next } := by
  simp only [Explained, pc] at h
  cases next <;> exact h

theorem step_explained {r r' : Router} {c c' : Call E R} {i : Input E R} (inv : Inv er c)
    (h : Explained er c) (step : Client.step er cfg r c i = some (r', c')) : Explained er c' := by
  cases step_stepped step with
  | cancelled at_ =>
    simp only [Explained, at_] at h
    exact .inr h
  | proceeds at_ | unrouted at_ | dials at_ | undialed at_ =>
    simp only [Explained, at_] at h
    exact h
  | routed at_ =>
    cases at_ with
    | inl at_ => simpa only [Explained, at_] using h
    | inr at_ => simpa only [Explained, at_] using h
  | unowned e at_ =>
    simp only [Explained, at_] at h
    exact continue_explained h (by simp)
  | @succeeds _ _ reply at_ nil =>
    simp only [Explained, at_] at h
    exact .inr ⟨c.replies, reply, rfl, h, nil, rfl⟩
  | @retries _ _ reply e at_ err again =>
    simp only [Explained, at_] at h
    intro earlier mem
    cases List.mem_append.mp mem with
    | inl old => exact h earlier old
    | inr new =>
      obtain rfl := List.mem_singleton.mp new
      exact ⟨e, err, again⟩
  | @surfaces _ _ reply e at_ =>
    simp only [Explained, at_] at h
    -- The error that is surfaced is the one that this invocation ended with.
    have err : reply.err er = some e := by
      rw [step_invoking at_] at step
      dsimp only at step
      split at step
      · cases step
      · next e' err =>
        split at step
        · rw [Option.some.injEq, Prod.mk.injEq] at step
          cases congrArg Call.pc step.2
        · cases step
          exact err
    exact .inl ⟨c.replies, reply, rfl, h, err, rfl⟩
  | collects at_ | connects at_ | skips at_ | refused at_ | answered at_ =>
    exact refreshing_explained h at_ _
  | exhausted e at_ => exact refreshed_explained inv h at_ (some e)
  | installs at_ => exact refreshed_explained inv h at_ none

/-! ## The runs -/

/-- From any route maps and any pool, any calls in any order. -/
abbrev AnyCalls (er : Errors E R) (cfg : Config) : Process E R → Prop :=
  Reachable (fun σ => σ.calls = []) (Next (exec er cfg) fun _ _ => True)

theorem reachable_explained {σ : Process E R} (h : AnyCalls er cfg σ) :
    ∀ c ∈ σ.calls, Inv er c ∧ Explained er c := by
  induction h with
  | start none => simp [none]
  | @step σ σ' _ next ih =>
    obtain ⟨a, -, step⟩ := next
    intro d hd
    cases a with
    | start ns kind =>
      cases step
      cases List.mem_append.mp hd with
      | inl old => exact ih d old
      | inr new =>
        obtain rfl := List.mem_singleton.mp new
        exact ⟨start_inv ns kind, start_explained ns kind⟩
    | step k i =>
      obtain ⟨c, d', hc, stepped, calls⟩ := exec_own step
      rw [calls] at hd
      cases List.mem_or_eq_of_mem_set hd with
      | inl old => exact ih d old
      | inr new =>
        subst new
        obtain ⟨inv, explained⟩ := ih c (List.mem_of_getElem? hc)
        exact ⟨stepped_inv inv (step_stepped stepped), step_explained inv explained stepped⟩

section Runs

variable {allowed : Process E R → Action E R → Prop} (run : Run (exec er cfg) allowed) {k : Nat}
  {c₀ : Call E R}

theorem call_at (hc : (run.state 0).calls[k]? = some c₀) (t : Nat) :
    ∃ c, (run.state t).calls[k]? = some c := by
  induction t with
  | zero => exact ⟨c₀, hc⟩
  | succ t ih =>
    obtain ⟨c, hc⟩ := ih
    by_cases own : ∃ i, run.action t = .step k i
    · obtain ⟨i, own⟩ := own
      obtain ⟨_, d, -, -, calls⟩ := exec_own (own ▸ run.step t)
      exact ⟨d, calls ▸ List.getElem?_set_self (List.getElem?_eq_some_iff.mp hc).1⟩
    · exact ⟨c, exec_others (run.step t) hc fun i same => own ⟨i, same⟩⟩

/-- What call `k` has before it. -/
def rankAt (k : Nat) (σ : Process E R) : ℕ ×ₗ ℕ := (σ.calls[k]?.map Call.rank).getD (toLex (0, 0))

def Returned (k : Nat) (σ : Process E R) : Prop :=
  ∃ c err, σ.calls[k]? = some c ∧ c.pc = .returned err

theorem comes_to_return (hc : (run.state 0).calls[k]? = some c₀)
    (scheduled : ∀ t c, (run.state t).calls[k]? = some c → (∀ err, c.pc ≠ .returned err) →
      ∃ n i, run.action (t + n) = .step k i) :
    ∃ u, Returned k (run.state u) := by
  let mine (a : Action E R) : Prop := ∃ i, a = .step k i
  have others (t : Nat) (other : ¬ mine (run.action t)) :
      rankAt k (run.state (t + 1)) = rankAt k (run.state t) := by
    obtain ⟨c, hc⟩ := call_at run hc t
    have same := exec_others (run.step t) hc fun i own => other ⟨i, own⟩
    simp only [rankAt, same, hc]
  have drops (t : Nat) (own : mine (run.action t)) :
      rankAt k (run.state (t + 1)) < rankAt k (run.state t) := by
    obtain ⟨i, own⟩ := own
    obtain ⟨c, d, hc, stepped, calls⟩ := exec_own (own ▸ run.step t)
    have hd : (run.state (t + 1)).calls[k]? = some d :=
      calls ▸ List.getElem?_set_self (List.getElem?_eq_some_iff.mp hc).1
    simpa only [rankAt, hc, hd, Option.map_some, Option.getD_some] using
      stepped_rank (step_stepped stepped)
  have fair (t : Nat) (on : ¬ Returned k (run.state t)) : ∃ n, mine (run.action (t + n)) := by
    obtain ⟨c, hc⟩ := call_at run hc t
    exact scheduled t c hc fun err returned => on ⟨c, err, hc, returned⟩
  obtain ⟨u, -, reached⟩ := run.eventually (rankAt k) others drops fair 0
  exact ⟨u, reached⟩

end Runs

/-- **Every call returns.** A call that the process keeps running is never stuck and
comes to its end, whatever the nodes answer and the other calls do to the router.
It has then invoked its RPC at most four times. Success is that of the last
invocation, with its response; an error is that of the last invocation too, or
every invocation has been retried. -/
theorem call_returns [Nonempty E] {allowed : Process E R → Action E R → Prop}
    (run : Run (exec er cfg) allowed) (history : AnyCalls er cfg (run.state 0)) {k : Nat}
    {c₀ : Call E R} (hc : (run.state 0).calls[k]? = some c₀)
    (scheduled : ∀ t c, (run.state t).calls[k]? = some c → (∀ err, c.pc ≠ .returned err) →
      ∃ n i, run.action (t + n) = .step k i) :
    (∀ t c, (run.state t).calls[k]? = some c → (∃ err, c.pc = .returned err) ∨
      ∃ i, (exec er cfg (run.state t) (.step k i)).isSome) ∧
    ∃ u c err, (run.state u).calls[k]? = some c ∧ c.pc = .returned err ∧
      c.replies.length ≤ maxAttempts ∧ Explained er c := by
  constructor
  · intro t c hc
    obtain returned | ⟨i, s, step⟩ :=
      step_possible er cfg (run.state t).router c (Classical.arbitrary E)
    · exact .inl returned
    · exact .inr ⟨i, by simp [exec, hc, step]⟩
  · obtain ⟨u, c, err, hc, returned⟩ := comes_to_return run hc scheduled
    have reached := run.reachable (fun _ _ _ => trivial) history u
    obtain ⟨inv, explained⟩ := reachable_explained reached c (List.mem_of_getElem? hc)
    simp only [Inv, returned] at inv
    exact ⟨u, c, err, hc, returned, inv.replies, explained⟩

/-- The call of `redirected` after its start. -/
def redirectedCall : Process Bool (Option Bool) :=
  { sampleProcess with calls := [.start (str "ns") .incFileResourceRefCnt] }

theorem call_returns_redirected :
    ∃ run : Run (exec sampleErrors sampleConfig) fun _ _ => true = true,
      run.state 0 = redirectedCall ∧
      (∃ t c, (run.state t).calls[0]? = some c ∧ c.pc = .returned none ∧ c.replies.length = 2) ∧
      ∃ u c err, (run.state u).calls[0]? = some c ∧ c.pc = .returned err ∧
        c.replies.length ≤ maxAttempts ∧ Explained sampleErrors c := by
  have ran : (execute (exec sampleErrors sampleConfig) (fun _ _ => true) redirectedCall
      redirected.tail).any (fun σ => σ.calls[0]?.any fun c =>
        returnsNil c && c.replies.length == 2) = true := by
    decide +kernel
  have length : redirected.tail.length = 12 := rfl
  have reply : redirected.tail[11]? = some (.step 0 (.reply (.answered none true))) := rfl
  generalize redirected.tail = as at ran length reply
  obtain ⟨σ, hσ, test⟩ := (Option.any_eq_true _ _).mp ran
  obtain ⟨c, hc, facts⟩ := (Option.any_eq_true _ _).mp test
  simp only [Bool.and_eq_true, beq_iff_eq] at facts
  obtain ⟨nil, two⟩ := facts
  have returned := returnsNil_pc nil
  -- Once the call has returned, the process starts others.
  let pad : Action Bool (Option Bool) := .start (str "ns") .refresh
  let run := Run.padded hσ (fun _ => ⟨rfl, rfl⟩ : ∀ σ : Process Bool (Option Bool),
    true = true ∧ (exec sampleErrors sampleConfig σ pad).isSome)
  have last : run.state 12 = σ := length ▸ padded_length hσ pad
  have later (t : Nat) (ht : 12 ≤ t) : (run.state t).calls[0]? = some c := by
    induction t, ht using Nat.le_induction with
    | base => rw [last, hc]
    | succ t ht ih =>
      have act : run.action t = .start (str "ns") .refresh := by
        simp only [run, Run.padded, Run.along, List.getElem?_eq_none (length ▸ ht),
          Option.getD_none, pad]
      refine exec_others (run.step t) ih fun i own => ?_
      rw [act] at own
      cases own
  have history : AnyCalls sampleErrors sampleConfig (run.state 0) :=
    .step (.start (rfl : sampleProcess.calls = []))
      ⟨.start (str "ns") .incFileResourceRefCnt, trivial, rfl⟩
  obtain ⟨-, ends⟩ := call_returns run history (k := 0) rfl (by
    intro t d hd on
    by_cases ht : 12 ≤ t
    · rw [later t ht, Option.some.injEq] at hd
      exact absurd (hd ▸ returned) (on none)
    · refine ⟨11 - t, .reply (.answered none true), ?_⟩
      rw [show t + (11 - t) = 11 by omega]
      simp only [run, Run.padded, Run.along, reply, Option.getD_some])
  exact ⟨run, rfl, ⟨12, c, later 12 (Nat.le_refl 12), returned, two⟩, ends⟩

end MilvusCatalog.Client
