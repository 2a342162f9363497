import MilvusCatalog.Client.Router

/-! Reference count deltas are sent again only after a rejection that says they
were not applied, so a call applies its delta at most once. -/
namespace MilvusCatalog.Client
open Go Transition

variable {E R : Type} {er : Errors E R} {cfg : Config}

/-- The server refused the call with a retriable status. -/
def Rejected (er : Errors E R) (reply : Reply E R) : Prop :=
  ∃ e, reply.err er = some e ∧ er.isRetryableErr e = true

/-- What the client relies on: a success has been applied, a retriable status
has not, and a transport error is a bare gRPC status, which is not retryable. -/
def Reply.Honest (er : Errors E R) : Reply E R → Prop
  | .answered response applied =>
    match er.statusErr response with
    | none => applied = true
    | some e => er.isRetryableErr e = true → applied = false
  | .broken e _ => er.isRetryableErr e = false

theorem Rejected.not_applied {reply : Reply E R} (h : Rejected er reply)
    (honest : reply.Honest er) : reply.applied = false := by
  obtain ⟨e, err, retryable⟩ := h
  cases reply with
  | answered response applied =>
    have status : er.statusErr response = some e := err
    simp only [Reply.Honest, status] at honest
    exact honest retryable
  | broken e' applied =>
    cases err
    rw [Reply.Honest, retryable] at honest
    cases honest

theorem Reply.Honest.success {reply : Reply E R} (honest : reply.Honest er)
    (nil : reply.err er = none) : reply.applied = true ∧ ∃ response, reply.out = some response := by
  cases reply with
  | answered response applied =>
    have status : er.statusErr response = none := nil
    simp only [Reply.Honest, status] at honest
    exact ⟨honest, response, rfl⟩
  | broken e applied => cases nil

/-- A call that changes the count. -/
def Kind.IsDelta (k : Kind) : Prop := k = .incFileResourceRefCnt ∨ k = .decFileResourceRefCnt

theorem Kind.IsDelta.not_retryAmbiguous {k : Kind} (h : k.IsDelta) : k.retryAmbiguous = false := by
  cases h with
  | inl h => rw [h]; rfl
  | inr h => rw [h]; rfl

/-! ## One call -/

/-- Between two invocations; `n` of them may belong to the current attempt. -/
structure Looping (er : Errors E R) (n : Nat) (c : Call E R) : Prop where
  attempt : c.attempt < maxAttempts
  replies : c.replies.length ≤ c.attempt + n
  rejected : c.kind.IsDelta → ∀ reply ∈ c.replies, Rejected er reply

/-- After the return of `err`. -/
structure Ended (er : Errors E R) (err : Option E) (c : Call E R) : Prop where
  replies : c.replies.length ≤ maxAttempts
  rejected : c.kind.IsDelta → ∀ reply ∈ c.replies.dropLast, Rejected er reply
  success : err = none → c.kind.IsDelta → ∃ reply, c.replies.getLast? = some reply ∧
    reply.err er = none ∧ c.out = reply.out

def Inv (er : Errors E R) (c : Call E R) : Prop :=
  match c.pc with
  | .returned err => Ended er err c
  | .refresh _ .finish => ¬ c.kind.IsDelta ∧ c.replies = []
  | .refresh _ .retry => Looping er 1 c ∧ c.lastErr ≠ none
  | _ => Looping er 0 c

theorem start_inv (ns : Str) (kind : Kind) : Inv er (.start ns kind : Call E R) := by
  cases kind with
  | refresh => exact ⟨by simp [Kind.IsDelta, Call.start], rfl⟩
  | _ => exact ⟨Nat.zero_lt_succ 3, Nat.le_refl 0, by simp [Call.start]⟩

theorem Looping.bounded {c : Call E R} {n : Nat} (h : Looping er n c) (hn : n ≤ 1) :
    c.replies.length ≤ maxAttempts ∧
      (c.kind.IsDelta → ∀ reply ∈ c.replies.dropLast, Rejected er reply) := by
  have := h.attempt
  have := h.replies
  constructor
  · omega
  · intro hd reply hr
    exact h.rejected hd reply (List.mem_of_mem_dropLast hr)

theorem Looping.ended {c : Call E R} {n : Nat} (h : Looping er n c) (hn : n ≤ 1) {err : Option E}
    (failed : err ≠ none) : Ended er err c where
  replies := (h.bounded hn).1
  rejected := (h.bounded hn).2
  success nil := absurd nil failed

theorem continue_inv {c : Call E R} {n : Nat} (h : Looping er n c) (hn : n ≤ 1)
    (failed : c.lastErr ≠ none) : Inv er c.continue_ := by
  unfold Call.continue_
  by_cases again : c.attempt + 1 < maxAttempts
  · rw [if_pos again]
    exact ⟨again, by have := h.replies; dsimp only; omega, h.rejected⟩
  · rw [if_neg again]
    obtain ⟨replies, rejected, success⟩ := h.ended hn failed
    exact ⟨replies, rejected, success⟩

theorem refreshed_inv {c : Call E R} {at_ : Refresh E} {next : Then} (h : Inv er c)
    (pc : c.pc = .refresh at_ next) (err : Option E) : Inv er (c.refreshed next err) := by
  simp only [Inv, pc] at h
  cases next with
  | reroute =>
    cases err with
    | some e => exact continue_inv ⟨h.attempt, h.replies, h.rejected⟩ (Nat.zero_le 1) (by simp)
    | none => exact ⟨h.attempt, h.replies, h.rejected⟩
  | retry => exact continue_inv h.1 (Nat.le_refl 1) h.2
  | finish =>
    refine ⟨by simp [Call.refreshed, h.2], by simp [Call.refreshed, h.2], ?_⟩
    intro _ hd
    exact absurd hd h.1

theorem refreshing_inv {c : Call E R} {at_ : Refresh E} {next : Then} (h : Inv er c)
    (pc : c.pc = .refresh at_ next) (then_ : Refresh E) :
    Inv er { c with pc := .refresh then_ next } := by
  simp only [Inv, pc] at h
  cases next with
  | reroute => exact ⟨h.attempt, h.replies, h.rejected⟩
  | retry => exact ⟨⟨h.1.attempt, h.1.replies, h.1.rejected⟩, h.2⟩
  | finish => exact h

/-- An invocation that ends the call. -/
theorem Looping.returned {c : Call E R} {reply : Reply E R} {err : Option E}
    (h : Looping er 0 c) (success : err = none → reply.err er = none) :
    Inv er { c with out := reply.out, replies := c.replies ++ [reply], pc := .returned err } where
  replies := by
    have := h.attempt
    have := h.replies
    simp only [List.length_append, List.length_singleton]
    omega
  rejected hd := by
    simp only [List.dropLast_concat]
    exact h.rejected hd
  success nil _ := ⟨reply, by simp, success nil, rfl⟩

theorem stepped_inv {r r' : Router} {c c' : Call E R} {i : Input E R} (h : Inv er c)
    (step : Stepped er cfg r c i r' c') : Inv er c' := by
  cases step with
  | cancelled at_ =>
    simp only [Inv, at_] at h
    obtain ⟨replies, rejected, success⟩ := h.ended (Nat.zero_le 1) (Option.some_ne_none _)
    exact ⟨replies, rejected, success⟩
  | proceeds at_ | unrouted at_ | dials at_ _ =>
    simp only [Inv, at_] at h
    exact ⟨h.attempt, h.replies, h.rejected⟩
  | routed at_ found owned =>
    have h : Looping er 0 c := by
      cases at_ with
      | inl at_ => simpa only [Inv, at_] using h
      | inr at_ => simpa only [Inv, at_] using h
    exact ⟨h.attempt, h.replies, h.rejected⟩
  | unowned e at_ =>
    simp only [Inv, at_] at h
    exact continue_inv ⟨h.attempt, h.replies, h.rejected⟩ (Nat.zero_le 1) (by simp)
  | undialed at_ =>
    simp only [Inv, at_] at h
    exact ⟨⟨h.attempt, Nat.le_succ_of_le h.replies, h.rejected⟩, by simp [Call.retry]⟩
  | succeeds at_ nil =>
    simp only [Inv, at_] at h
    exact h.returned fun _ => nil
  | surfaces at_ =>
    simp only [Inv, at_] at h
    exact h.returned nofun
  | @retries _ _ reply e at_ err again =>
    simp only [Inv, at_] at h
    refine ⟨⟨h.attempt, ?_, ?_⟩, by simp [Call.retry]⟩
    · simpa [Call.retry] using h.replies
    · intro (hd : c.kind.IsDelta)
      -- A delta is not sent again for an ambiguous error, so this is a rejection.
      have rejected : Rejected er reply := by
        cases again with
        | inl again => exact ⟨e, err, again⟩
        | inr again => exact absurd again.1 (by simp [hd.not_retryAmbiguous])
      intro earlier hr
      cases List.mem_append.mp hr with
      | inl hr => exact h.rejected hd earlier hr
      | inr hr => exact List.mem_singleton.mp hr ▸ rejected
  | collects at_ _ | connects at_ _ | skips at_ | refused at_ | answered at_ =>
    exact refreshing_inv h at_ _
  | exhausted e at_ => exact refreshed_inv h at_ (some e)
  | installs at_ => exact refreshed_inv h at_ none

/-! ## All calls of a process -/

/-- What a call has added to the stored count. -/
def contribution (c : Call E R) : Int := c.kind.delta * c.applied

theorem refreshed_kept (c : Call E R) (next : Then) (err : Option E) :
    (c.refreshed next err).kind = c.kind ∧ (c.refreshed next err).replies = c.replies := by
  cases next <;> cases err <;> exact ⟨rfl, rfl⟩

/-- A step keeps the kind of its call and adds the reply it got, if any. -/
theorem stepped_replies {r r' : Router} {c c' : Call E R} {i : Input E R}
    (step : Stepped er cfg r c i r' c') : c'.kind = c.kind ∧
      (c'.replies = c.replies ∧ i.effect c.kind = 0 ∨
        ∃ reply, i = .reply reply ∧ c'.replies = c.replies ++ [reply]) := by
  cases step with
  | succeeds | surfaces | retries => exact ⟨rfl, .inr ⟨_, rfl, rfl⟩⟩
  | exhausted e =>
    obtain ⟨kind, replies⟩ := refreshed_kept c _ (some e)
    exact ⟨kind, .inl ⟨replies, rfl⟩⟩
  | installs =>
    obtain ⟨kind, replies⟩ := refreshed_kept c _ none
    exact ⟨kind, .inl ⟨replies, rfl⟩⟩
  | _ => exact ⟨rfl, .inl ⟨rfl, rfl⟩⟩

theorem stepped_contribution {r r' : Router} {c c' : Call E R} {i : Input E R}
    (step : Stepped er cfg r c i r' c') : contribution c' = contribution c + i.effect c.kind := by
  obtain ⟨kind, ⟨same, zero⟩ | ⟨reply, rfl, more⟩⟩ := stepped_replies step
  · simp [contribution, Call.applied, kind, same, zero]
  · cases applied : reply.applied with
    | true =>
      simp only [contribution, Call.applied, kind, more, List.countP_append, List.countP_singleton,
        applied, ↓reduceIte, Input.effect, Nat.cast_add, Nat.cast_one]
      ring
    | false => simp [contribution, Call.applied, kind, more, applied, Input.effect]

theorem sum_set {α : Type} (f : α → Int) {l : List α} {k : Nat} {a : α} (h : l[k]? = some a)
    (b : α) : ((l.set k b).map f).sum = (l.map f).sum + (f b - f a) := by
  induction l generalizing k with
  | nil => cases h
  | cons x l ih =>
    cases k with
    | zero =>
      cases h
      simp only [List.set_cons_zero, List.map_cons, List.sum_cons]
      ring
    | succ k =>
      simp only [List.set_cons_succ, List.map_cons, List.sum_cons, ih h]
      ring

/-- Replies to deltas are honest; everything else is arbitrary. -/
def honest (er : Errors E R) (σ : Process E R) : Action E R → Prop
  | .step k (.reply reply) => ∀ c, σ.calls[k]? = some c → c.kind.IsDelta → reply.Honest er
  | _ => True

structure Counted (er : Errors E R) (before : Int) (σ : Process E R) : Prop where
  calls : ∀ c ∈ σ.calls, Inv er c
  honest : ∀ c ∈ σ.calls, c.kind.IsDelta → ∀ reply ∈ c.replies, reply.Honest er
  stored : σ.stored = before + (σ.calls.map contribution).sum

theorem step_counted {before : Int} {σ σ' : Process E R} (h : Counted er before σ)
    (next : Next (exec er cfg) (honest er) σ σ') : Counted er before σ' := by
  obtain ⟨a, allowed, step⟩ := next
  constructor
  · intro d hd
    obtain old | ⟨ns, kind, rfl⟩ | ⟨k, i, c, -, hc, stepped⟩ := exec_call step hd
    · exact h.calls d old
    · exact start_inv ns kind
    · exact stepped_inv (h.calls c (List.mem_of_getElem? hc)) stepped
  · intro d hd delta reply hr
    obtain old | ⟨ns, kind, rfl⟩ | ⟨k, i, c, rfl, hc, stepped⟩ := exec_call step hd
    · exact h.honest d old delta reply hr
    · cases hr
    · have earlier := h.honest c (List.mem_of_getElem? hc)
      obtain ⟨kind, ⟨same, -⟩ | ⟨last, rfl, more⟩⟩ := stepped_replies stepped
      · exact earlier (kind ▸ delta) reply (same ▸ hr)
      · rw [more] at hr
        cases List.mem_append.mp hr with
        | inl hr => exact earlier (kind ▸ delta) reply hr
        | inr hr => exact List.mem_singleton.mp hr ▸ allowed c hc (kind ▸ delta)
  · obtain ⟨ns, kind, -, rfl⟩ | ⟨k, i, c, r', c', -, hc, stepped, rfl⟩ := exec_cases step
    · simp [h.stored, contribution, Call.applied, Call.start]
    · simp only [h.stored, sum_set contribution hc, stepped_contribution stepped]
      ring

theorem dropLast_not_applied {c : Call E R}
    (rejected : ∀ reply ∈ c.replies.dropLast, Rejected er reply)
    (honest : ∀ reply ∈ c.replies, reply.Honest er) :
    c.replies.dropLast.countP Reply.applied = 0 := by
  rw [List.countP_eq_zero]
  intro reply hr
  have := (rejected reply hr).not_applied (honest reply (List.mem_of_mem_dropLast hr))
  simp [this]

theorem Inv.bounded {c : Call E R} (h : Inv er c) : c.replies.length ≤ maxAttempts ∧
    (c.kind.IsDelta → ∀ reply ∈ c.replies.dropLast, Rejected er reply) := by
  unfold Inv at h
  split at h
  · exact ⟨h.replies, h.rejected⟩
  · simp [h.2]
  · exact h.1.bounded (Nat.le_refl 1)
  · exact h.bounded (Nat.zero_le 1)

theorem applied_eq {c : Call E R} (rejected : ∀ reply ∈ c.replies.dropLast, Rejected er reply)
    (honest : ∀ reply ∈ c.replies, reply.Honest er) :
    c.applied = c.replies.getLast?.toList.countP Reply.applied := by
  have none_before := dropLast_not_applied rejected honest
  rcases List.eq_nil_or_concat c.replies with nil | ⟨earlier, last, eq⟩
  · simp [Call.applied, nil]
  · rw [eq, List.concat_eq_append, List.dropLast_concat] at none_before
    simp [Call.applied, eq, none_before]

/-- In every run of any calls on one router, from any route map and with any
outcomes: a reference count call invokes its RPC at most four times, every time
but the last ends in a retriable rejection, at most one invocation is applied,
and when the call returns no error exactly one is and its response is returned.
The stored count has changed by those deltas. -/
theorem delta_at_most_once {σ₀ σ : Process E R} (idle : σ₀.calls = [])
    (h : Reachable (· = σ₀) (Next (exec er cfg) (honest er)) σ) :
    σ.stored = σ₀.stored + (σ.calls.map fun c => c.kind.delta * (c.applied : Int)).sum ∧
    ∀ c ∈ σ.calls, c.kind = .incFileResourceRefCnt ∨ c.kind = .decFileResourceRefCnt →
      c.replies.length ≤ 4 ∧
      (∀ reply ∈ c.replies.dropLast, ∃ e, reply.err er = some e ∧ er.isRetryableErr e = true) ∧
      c.applied ≤ 1 ∧
      (c.pc = .returned none → c.applied = 1 ∧ ∃ reply response,
        c.replies.getLast? = some reply ∧ reply.applied = true ∧
        reply.out = some response ∧ c.out = some response) := by
  have counted : Counted er σ₀.stored σ := by
    induction h with
    | start hs =>
      subst hs
      exact ⟨by simp [idle], by simp [idle], by simp [idle]⟩
    | step _ next ih => exact step_counted ih next
  refine ⟨counted.stored, ?_⟩
  intro c hc delta
  have inv := counted.calls c hc
  have honest := counted.honest c hc delta
  obtain ⟨length, rejected⟩ := inv.bounded
  have applied := applied_eq (rejected delta) honest
  refine ⟨length, rejected delta, ?_, ?_⟩
  · rw [applied]
    refine (List.countP_le_length).trans ?_
    cases c.replies.getLast? <;> simp
  · intro returned
    simp only [Inv, returned] at inv
    obtain ⟨reply, last, nil, out⟩ := inv.success rfl delta
    obtain ⟨was, response, eq⟩ := (honest reply (List.mem_of_getLast? last)).success nil
    refine ⟨?_, reply, response, last, was, eq, out.trans eq⟩
    simp [applied, last, was]

/-! An increment meets a node that has lost the shard, refreshes the route map
and is applied by the new owner. -/

/-- An error is whether it is retriable; a response carries one or none. -/
def sampleErrors : Errors Bool (Option Bool) := ⟨id, fun _ => .unavailable, id, fun _ => true⟩

def sampleConfig : Config := ⟨str "p", fun _ => 0⟩

def sampleProcess : Process Bool (Option Bool) :=
  ⟨{ Router.new [str "a"] with
      shardOwner := .ofList [(0, str "a")]
      shardTerm := .ofList [(0, 3)] }, [], 7⟩

def redirected : List (Action Bool (Option Bool)) :=
  .start (str "ns") .incFileResourceRefCnt ::
    [.ctx none, .none, .dial none, .reply (.answered (some true) false),
      .order [str "a"], .dial none, .routes (.ofList [(0, str "b")]) (.ofList [(0, 5)]), .none,
      .ctx none, .none, .dial none, .reply (.answered none true)].map (.step 0)

instance (er : Errors E R) : DecidablePred (Reply.Honest er)
  | .answered response applied =>
    match status : er.statusErr response with
    | none => decidable_of_iff (applied = true) (by simp [Reply.Honest, status])
    | some e => decidable_of_iff (er.isRetryableErr e = true → applied = false) (by
        simp [Reply.Honest, status])
  | .broken _ _ => inferInstanceAs (Decidable (_ = _))

instance : DecidablePred Kind.IsDelta := fun _ => inferInstanceAs (Decidable (_ ∨ _))

instance (er : Errors E R) (σ : Process E R) : DecidablePred (honest er σ)
  | .step k (.reply reply) =>
    inferInstanceAs (Decidable (∀ c ∈ σ.calls[k]?, c.kind.IsDelta → reply.Honest er))
  | .step _ .none | .step _ (.ctx _) | .step _ (.order _) | .step _ (.dial _)
  | .step _ (.failed _) | .step _ (.routes _ _) | .start _ _ => inferInstanceAs (Decidable True)

def returnsNil (c : Call E R) : Bool :=
  match c.pc with
  | .returned none => true
  | _ => false

theorem returnsNil_pc {c : Call E R} (h : returnsNil c = true) : c.pc = .returned none := by
  unfold returnsNil at h
  split at h
  · assumption
  · cases h

theorem delta_at_most_once_redirected : ∃ σ c,
    execute (exec sampleErrors sampleConfig) (fun σ a => decide (honest sampleErrors σ a))
      sampleProcess redirected = some σ ∧
    c ∈ σ.calls ∧ c.pc = .returned none ∧ c.replies.length = 2 ∧ c.applied = 1 := by
  have ran : (execute (exec sampleErrors sampleConfig) (fun σ a => decide (honest sampleErrors σ a))
      sampleProcess redirected).any (fun σ => σ.calls.any fun c =>
        returnsNil c && c.kind == .incFileResourceRefCnt && c.replies.length == 2) = true := by
    decide +kernel
  obtain ⟨σ, hσ, calls⟩ := (Option.any_eq_true _ _).mp ran
  obtain ⟨c, hc, facts⟩ := List.any_eq_true.mp calls
  simp only [Bool.and_eq_true, beq_iff_eq] at facts
  obtain ⟨⟨returned, kind⟩, length⟩ := facts
  have reached : Reachable (· = sampleProcess)
      (Next (exec sampleErrors sampleConfig) (honest sampleErrors)) σ :=
    (reachable_of_execute hσ).mono (fun _ hs => hs) fun _ _ => of_decide_eq_true
  obtain ⟨-, facts⟩ := delta_at_most_once rfl reached
  obtain ⟨-, -, -, nil⟩ := facts c hc (.inl kind)
  exact ⟨σ, c, hσ, hc, returnsNil_pc returned, length, (nil (returnsNil_pc returned)).1⟩

end MilvusCatalog.Client
