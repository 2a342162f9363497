import MilvusCatalog.Cluster

/-! The gate after a round. A round that installs its view opens the gate for
exactly the shards that are the node's in the loaded map and by rendezvous; one
that ends early can only have closed it for some. The three reads of a round see
different moments, so this rests on who can write the node's id in between. -/
namespace MilvusCatalog.Gate
open Go Etcd Transition

/-- Only a claim gives a shard a new owner. -/
theorem applied_owner {pfx : Str} {e e' : Store} {r : Request} {cs : List Commit}
    (ha : Applied pfx e r e' cs) {s : Nat} {id : Str} (own : shardOwner pfx e' s = some id) :
    shardOwner pfx e s = some id ∨ ∃ l, r = .claim s id l := by
  unfold shardOwner at own ⊢
  have write {s' : Nat} {kv : Option KeyValue} (wrote : e.Wrote e' (shardKey pfx s') kv) :
      (e.get (shardKey pfx s)).map KeyValue.value = some id ∨
        s = s' ∧ kv.map KeyValue.value = some id := by
    rw [wrote.get] at own
    split at own
    · next es => exact .inr ⟨by simpa using es, own⟩
    · exact .inl own
  cases ha with
  | refused => exact .inl own
  | @claim _ _ l _ _ _ wrote =>
    cases write wrote with
    | inl old => exact .inl old
    | inr new =>
      obtain ⟨rfl, value⟩ := new
      cases value
      exact .inr ⟨l, rfl⟩
  | rebind own' value _ wrote =>
    cases write wrote with
    | inl old => exact .inl old
    | inr new =>
      obtain ⟨rfl, same⟩ := new
      cases same
      exact .inl (by rw [own', Option.map_some, value])
  | release _ _ wrote =>
    cases write wrote with
    | inl old => exact .inl old
    | inr new => cases new.2
  | @register nodeID _ _ _ wrote =>
    rw [wrote.get_ne (memberKey_ne_shardKey pfx nodeID s)] at own
    exact .inl own

theorem revoke_owner {pfx : Str} {e : Store} {l s : Nat} {id : Str}
    (own : shardOwner pfx (e.revoke l) s = some id) : shardOwner pfx e s = some id := by
  obtain ⟨kv, hk, value⟩ := Option.map_eq_some_iff.mp own
  exact Option.map_eq_some_iff.mpr ⟨kv, Store.get_of_revoke hk, value⟩

/-- Around a round of node `p`, a shard becomes the node's only by a claim of the
node, made now or still in flight. -/
theorem solo_owner {cfg : Config} {σ σ' : Cluster} {a : Action} {p : Nat} {c : Coordinator}
    (hp : σ.procs[p]? = some c) (ha : solo p c.nodeID σ a = true)
    (step : exec cfg σ a = some σ') {s : Nat}
    (own : shardOwner cfg.pfx σ'.etcd s = some c.nodeID) :
    shardOwner cfg.pfx σ.etcd s = some c.nodeID ∨
      ∃ l, c.request = some (.claim s c.nodeID l) ∨ .claim s c.nodeID l ∈ σ.inflight := by
  cases exec_step step with
  | @call q o d hq =>
    simp only [solo, hq, Option.mem_def, Option.some.injEq, forall_eq', decide_eq_true_eq] at ha
    simp only [Cluster.update, Cluster.wrote] at own
    obtain ⟨he, -⟩ | ⟨-, he, -⟩ | ⟨l, -, he, -⟩ | ⟨r, hr, happ⟩ := d.issue_cases cfg σ.etcd o
    · exact .inl (he ▸ own)
    · rw [he] at own
      exact .inl own
    · rw [he] at own
      exact .inl (revoke_owner own)
    · cases applied_owner happ own with
      | inl old => exact .inl old
      | inr new =>
        obtain ⟨l, rfl⟩ := new
        refine .inr ⟨l, .inl ?_⟩
        split at ha
        · next e =>
          subst e
          obtain rfl := Option.some.inj (hp.symm.trans hq)
          exact hr
        · exact absurd (Coordinator.request_nodeID hr).symm ha
  | @deliver k r hk =>
    cases applied_owner (r.applied cfg.pfx σ.etcd) own with
    | inl old => exact .inl old
    | inr new =>
      obtain ⟨l, rfl⟩ := new
      exact .inr ⟨l, .inr (List.mem_of_getElem? hk)⟩
  | expire | revoked => exact .inl (revoke_owner own)
  | @request r o =>
    simp only [solo, decide_eq_true_eq] at ha
    cases applied_owner (r.issued cfg.pfx σ.etcd o) own with
    | inl old => exact .inl old
    | inr new =>
      obtain ⟨l, rfl⟩ := new
      exact absurd rfl ha
  | _ => exact .inl own

/-! ## What holds where the round stands -/

/-- The round of node `id` keeps the shard, or it has decided to release it. -/
def Settled (cfg : Config) (id : Str) (round : Round) (s : Nat) : Prop :=
  cfg.rendezvous s round.members = id ∨ s ∈ round.release

/-- After the shard map has been loaded: what the store has for the node is
settled, and claims under way keep it so. -/
structure Decided (cfg : Config) (id : Str) (round : Round) (σ : Cluster) : Prop where
  release : ∀ s ∈ round.release, cfg.rendezvous s round.members ≠ id
  records : ∀ s < shardCount, shardOwner cfg.pfx σ.etcd s = some id → Settled cfg id round s
  sent : ∀ s l, .claim s id l ∈ σ.inflight → cfg.rendezvous s round.members = id

/-- The owned map of the round's start, and no mark less. -/
def Narrowed (c₀ c : Coordinator) : Prop :=
  c.owned = c₀.owned ∧ ∀ s, c₀.releasing s = true → c.releasing s = true

def At (cfg : Config) (c₀ : Coordinator) (σ : Cluster) (c : Coordinator) : Prop :=
  match c.pc with
  | .listMembers | .loadShardMap => Narrowed c₀ c ∧ ∀ r ∈ σ.inflight, r.nodeID ≠ c.nodeID
  | .claiming todo =>
    Narrowed c₀ c ∧ Decided cfg c.nodeID c.round σ ∧
      ∀ s ∈ todo, cfg.rendezvous s c.round.members = c.nodeID
  | .marking _ | .releasing _ | .loadOwnershipMap => Narrowed c₀ c ∧ Decided cfg c.nodeID c.round σ
  | .rebinding _ | .installing => Narrowed c₀ c ∧ Decided cfg c.nodeID c.round σ ∧
      ∀ s < shardCount, (c.round.om s).owner = c.nodeID → Settled cfg c.nodeID c.round s
  | .idle | .stopped => True
  | _ => False

theorem Narrowed.serves {c₀ c : Coordinator} (h : Narrowed c₀ c) {s : Nat}
    (served : c.serves s = true) : c₀.serves s = true := by
  simp only [Coordinator.serves, Bool.and_eq_true, Bool.not_eq_true', h.1] at served ⊢
  refine ⟨served.1, ?_⟩
  cases mark : c₀.releasing s with
  | false => rfl
  | true => rw [h.2 s mark] at served; exact served.2

theorem Narrowed.marked {c₀ c : Coordinator} (h : Narrowed c₀ c) (s : Nat) :
    Narrowed c₀ (c.markReleasing s) := by
  refine ⟨h.1, fun t mark => ?_⟩
  simp only [Coordinator.markReleasing, Function.update_apply]
  split
  · rfl
  · exact h.2 t mark

/-- The node's own claims go to shards that are its own by rendezvous. -/
theorem At.claims {cfg : Config} {c₀ c : Coordinator} {σ : Cluster} (h : At cfg c₀ σ c)
    {s l : Nat} (request : c.request = some (.claim s c.nodeID l)) :
    cfg.rendezvous s c.round.members = c.nodeID := by
  unfold Coordinator.request at request
  split at request <;> cases request
  next hpc =>
    simp only [At, hpc] at h
    exact h.2.2 s List.mem_cons_self

section
variable {cfg : Config} {σ σ' : Cluster} {a : Action} {p : Nat} {c₀ c : Coordinator}

theorem Decided.step (h : Decided cfg c.nodeID c.round σ) (hp : σ.procs[p]? = some c)
    (ha : solo p c.nodeID σ a = true) (step : exec cfg σ a = some σ')
    (claims : ∀ s l, c.request = some (.claim s c.nodeID l) →
      cfg.rendezvous s c.round.members = c.nodeID) : Decided cfg c.nodeID c.round σ' where
  release := h.release
  records s hs own := by
    obtain old | ⟨l, request | sent⟩ := solo_owner hp ha step own
    · exact h.records s hs old
    · exact .inl (claims s l request)
    · exact .inl (h.sent s l sent)
  sent s l hr := by
    obtain old | other | request := solo_inflight hp ha step hr
    · exact h.sent s l old
    · exact absurd rfl other
    · exact claims s l request

/-- No step around the round disturbs what holds where the node stood before it. -/
theorem At.stable (h : At cfg c₀ σ c) (hp : σ.procs[p]? = some c)
    (ha : solo p c.nodeID σ a = true) (step : exec cfg σ a = some σ') : At cfg c₀ σ' c := by
  have decided (d : Decided cfg c.nodeID c.round σ) : Decided cfg c.nodeID c.round σ' :=
    d.step hp ha step fun s l request => h.claims request
  have quiet (none : c.request = none) (old : ∀ r ∈ σ.inflight, r.nodeID ≠ c.nodeID) :
      ∀ r ∈ σ'.inflight, r.nodeID ≠ c.nodeID := by
    intro r hr
    obtain old' | other | request := solo_inflight hp ha step hr
    · exact old r old'
    · exact other
    · rw [none] at request; cases request
  cases hpc : c.pc with
  | granting | putting | keepingAlive | revoking => simp only [At, hpc] at h
  | idle | stopped => simp only [At, hpc]
  | listMembers | loadShardMap =>
    simp only [At, hpc] at h ⊢
    exact ⟨h.1, quiet (by simp only [Coordinator.request, hpc]) h.2⟩
  | claiming | rebinding | installing =>
    simp only [At, hpc] at h ⊢
    exact ⟨h.1, decided h.2.1, h.2.2⟩
  | marking | releasing | loadOwnershipMap =>
    simp only [At, hpc] at h ⊢
    exact ⟨h.1, decided h.2⟩

/-- The claims and releases of a round, against the store they are decided on. -/
theorem decided_now {id : Str} {round : Round} (layout : Layout cfg.pfx σ.etcd)
    (quiet : ∀ r ∈ σ.inflight, r.nodeID ≠ id)
    (release : round.release =
      (reconcile (weight cfg.xxhash) id round.members (loadShardMap cfg.pfx σ.etcd)).2) :
    Decided cfg id round σ where
  release s hs := by
    rw [release] at hs
    exact (mem_release.mp hs).2.2
  records s hs own := by
    by_cases keep : cfg.rendezvous s round.members = id
    · exact .inl keep
    · refine .inr ?_
      rw [release, mem_release, loadShardMap_eq layout hs]
      rw [shardOwner] at own
      exact ⟨hs, by rw [own, Option.getD_some], keep⟩
  sent s l hr := absurd rfl (quiet _ hr)

/-- Each call of the round leads from what holds at its point to what holds at
the next one. -/
theorem At.resume (layout : Layout cfg.pfx σ.etcd) (named : c.nodeID ≠ []) (h : At cfg c₀ σ c)
    (after : At cfg c₀ σ' c) (same : c.pc = .loadShardMap → σ'.etcd = σ.etcd) (busy : c.pc ≠ .idle)
    (o : Outcome) : At cfg c₀ σ' (c.resume cfg σ.etcd σ.now o) := by
  cases hpc : c.pc with
  | granting | putting | keepingAlive | revoking => simp only [At, hpc] at h
  | idle => exact absurd hpc busy
  | stopped => simp only [At, Coordinator.resume, hpc]
  | listMembers =>
    by_cases ok : o = .ok
    · simp only [At, hpc] at after
      simp only [At, Coordinator.resume, hpc, ok, if_true]
      exact after
    · simp only [At, Coordinator.resume, hpc, ok, if_false]
  | loadShardMap =>
    by_cases ok : o = .ok
    · simp only [At, hpc] at after
      simp only [At, Coordinator.resume, hpc, ok, if_true]
      refine ⟨after.1, decided_now ?_ after.2 ?_, fun s hs => (mem_claim.mp hs).2.2⟩
      · rwa [same hpc]
      · rw [same hpc]
    · simp only [At, Coordinator.resume, hpc, ok, if_false]
  | claiming todo =>
    simp only [At, hpc] at after
    cases todo with
    | nil =>
      simp only [At, Coordinator.resume, hpc]
      exact ⟨after.1, after.2.1⟩
    | cons s todo =>
      simp only [At, Coordinator.resume, hpc]
      exact ⟨after.1, after.2.1, fun s hs => after.2.2 s (List.mem_cons_of_mem _ hs)⟩
  | marking todo =>
    simp only [At, hpc] at after
    cases todo with
    | nil =>
      simp only [At, Coordinator.resume, hpc]
      exact after
    | cons s todo =>
      simp only [At, Coordinator.resume, hpc]
      exact ⟨after.1.marked s, after.2⟩
  | releasing todo =>
    simp only [At, hpc] at after
    cases todo <;> simp only [At, Coordinator.resume, hpc] <;> exact after
  | loadOwnershipMap =>
    by_cases ok : o = .ok
    · simp only [At, hpc] at h after
      simp only [At, Coordinator.resume, hpc, ok, if_true]
      refine ⟨after.1, ⟨after.2.release, after.2.records, after.2.sent⟩, fun s hs own => ?_⟩
      -- A shard without a record would be loaded as owned by the empty id.
      rw [loadOwnershipMap_eq layout hs] at own
      cases hk : σ.etcd.get (shardKey cfg.pfx s) with
      | none =>
        rw [hk] at own
        exact absurd own.symm named
      | some kv =>
        rw [hk] at own
        exact h.2.records s hs (by rw [shardOwner, hk, Option.map_some]; exact congrArg some own)
    · simp only [At, Coordinator.resume, hpc, ok, if_false]
  | rebinding todo =>
    simp only [At, hpc] at after
    cases todo <;> simp only [At, Coordinator.resume, hpc] <;> exact after
  | installing => simp only [At, Coordinator.resume, hpc, Coordinator.install]

theorem At.step (layout : Layout cfg.pfx σ.etcd) (named : c.nodeID ≠ []) (h : At cfg c₀ σ c)
    (hp : σ.procs[p]? = some c) (ha : solo p c.nodeID σ a = true)
    (step : exec cfg σ a = some σ') {d : Coordinator} (stepped : Stepped cfg σ p c a d) :
    At cfg c₀ σ' d := by
  have after := h.stable hp ha step
  cases stepped with
  | stays => exact after
  | exits => exact trivial
  | records | ends | closes | leaves =>
    cases hpc : c.pc <;> simp only [At, hpc] at after ⊢
    all_goals exact after
  | @calls o =>
    simp only [solo, hp, Option.mem_def, Option.some.injEq, forall_eq', if_true,
      decide_eq_true_eq] at ha
    refine h.resume layout named after (fun hpc => ?_) ha o
    simp only [exec, hp, Option.some.injEq] at step
    simp only [← step, Cluster.update, Cluster.wrote, Coordinator.issue, Coordinator.request, hpc,
      Issued.quiet]

end

/-! ## The round -/

/-- The start of a round: the node has the members to list next, and none of its
earlier writes is still under way. The rest is the outcome of any history. -/
structure Start (cfg : Config) (σ : Cluster) (p : Nat) (c : Coordinator) : Prop where
  history : Reachable (Initial cfg) (Any cfg) σ
  at_ : σ.procs[p]? = some c
  pc : c.pc = .listMembers
  idle : ∀ r ∈ σ.inflight, r.nodeID ≠ c.nodeID

/-- Histories in which one node acts under `id`, and each of its calls has had
its effect by the time it returns or never has one. -/
def prompt (id : Str) (σ : Cluster) : Action → Bool
  | .call q o => ∀ d ∈ σ.procs[q]?, d.nodeID = id → o ≠ .late
  | .request r _ => r.nodeID ≠ id
  | _ => true

/-- After such a history every round starts as `Start` asks. -/
theorem start_of_prompt {cfg : Config} {σ : Cluster} {p : Nat} {c : Coordinator}
    (history : Reachable (Initial cfg) (Next (exec cfg) fun σ a => prompt c.nodeID σ a = true) σ)
    (at_ : σ.procs[p]? = some c) (pc : c.pc = .listMembers) : Start cfg σ p c where
  history := history.mono (fun _ h => h) fun _ _ _ => trivial
  at_ := at_
  pc := pc
  idle := by
    clear at_ pc
    induction history with
    | start initial => simp [initial.inflight]
    | step _ next ih =>
      obtain ⟨a, ha, step⟩ := next
      intro r hr
      cases exec_step step with
      | @call q o d hq =>
        simp only [prompt, hq, Option.mem_def, Option.some.injEq, forall_eq',
          decide_eq_true_eq] at ha
        cases List.mem_append.mp hr with
        | inl old => exact ih r old
        | inr new =>
          obtain ⟨late, request⟩ := Coordinator.mem_issue_sent new
          rw [Coordinator.request_nodeID request]
          exact fun same => ha same late
      | deliver => exact ih r (List.mem_of_mem_eraseIdx hr)
      | @request r' o =>
        simp only [prompt, decide_eq_true_eq] at ha
        cases List.mem_append.mp hr with
        | inl old => exact ih r old
        | inr new => exact (Request.issue_sent new).2 ▸ ha
      | _ => exact ih r hr

/-- The states that a round of node `p` passes through. -/
def InRound (cfg : Config) (p : Nat) (c₀ : Coordinator) (σ₀ : Cluster) : Cluster → Prop :=
  Reachable (· = σ₀) (Next (exec cfg) fun σ a => solo p c₀.nodeID σ a = true)

theorem round_at {cfg : Config} {σ₀ σ : Cluster} {p : Nat} {c₀ : Coordinator}
    (start : Start cfg σ₀ p c₀) (named : c₀.nodeID ≠ []) (run : InRound cfg p c₀ σ₀ σ) :
    Layout cfg.pfx σ.etcd ∧ ∃ c, σ.procs[p]? = some c ∧ c.nodeID = c₀.nodeID ∧ At cfg c₀ σ c := by
  induction run with
  | start e =>
    subst e
    refine ⟨reachable_layout start.history, c₀, start.at_, rfl, ?_⟩
    simp only [At, start.pc]
    exact ⟨⟨rfl, fun _ mark => mark⟩, start.idle⟩
  | step _ next ih =>
    obtain ⟨layout, c, hp, id, h⟩ := ih
    obtain ⟨a, ha, step⟩ := next
    obtain ⟨_, moved, -⟩ := exec_moved step
    obtain ⟨d, hd, stepped⟩ := exec_survives step hp
    refine ⟨moved_layout layout moved, d, hd, stepped.nodeID.trans id, ?_⟩
    exact h.step layout (id ▸ named) hp (id ▸ ha) step stepped

/-- The calls that end a round: the locked section, or a read that fails. -/
theorem ends_round {cfg : Config} {c : Coordinator} {e : Store} {now : Nat} {o : Outcome}
    (ended : (c.resume cfg e now o).pc = .idle) : c.pc = .installing ∨
      ((c.pc = .listMembers ∨ c.pc = .loadShardMap ∨ c.pc = .loadOwnershipMap) ∧ o ≠ .ok ∧
        c.resume cfg e now o = { c with pc := .idle }) := by
  cases hpc : c.pc with
  | installing => exact .inl rfl
  | listMembers | loadShardMap | loadOwnershipMap =>
    by_cases ok : o = .ok
    · simp only [Coordinator.resume, hpc, ok, if_true] at ended
      cases ended
    · refine .inr ⟨by simp, ok, ?_⟩
      simp only [Coordinator.resume, hpc, ok, if_false]
  | keepingAlive =>
    by_cases ok : o = .ok <;> simp [Coordinator.resume, hpc, ok] at ended
  | granting =>
    by_cases ok : o = .ok <;> simp [Coordinator.resume, hpc, ok] at ended
  | putting =>
    simp only [Coordinator.resume, hpc] at ended
    split at ended <;> cases ended
  | claiming todo | marking todo | releasing todo | rebinding todo =>
    cases todo <;> simp [Coordinator.resume, hpc] at ended
  | revoking | stopped | idle => simp [Coordinator.resume, hpc] at ended

/-- **After a completed round the gate does not depend on what came before, and
an aborted one only narrows it.** Whatever call ends the round of a node with an
id of its own, it is the install, and the gate is open for exactly the shards
that are the node's in the loaded map and by rendezvous over the listed members;
or it is a read that failed, the owned map with its terms is the one of the
round's start, and so is every shard still served. -/
theorem round_gate {cfg : Config} {σ₀ σ σ' : Cluster} {p : Nat} {c₀ c d : Coordinator} {o : Outcome}
    (start : Start cfg σ₀ p c₀) (named : c₀.nodeID ≠ []) (run : InRound cfg p c₀ σ₀ σ)
    (hp : σ.procs[p]? = some c) (step : exec cfg σ (.call p o) = some σ')
    (hd : σ'.procs[p]? = some d) (ended : d.pc = .idle) :
    (c.pc = .installing ∧ ∀ s < shardCount, d.serves s = true ↔
      (c.round.om s).owner = c₀.nodeID ∧ cfg.rendezvous s c.round.members = c₀.nodeID) ∨
    ((c.pc = .listMembers ∨ c.pc = .loadShardMap ∨ c.pc = .loadOwnershipMap) ∧ o ≠ .ok ∧
      d.owned = c₀.owned ∧ ∀ s, d.serves s = true → c₀.serves s = true) := by
  obtain ⟨-, c', hc', id, h⟩ := round_at start named run
  obtain rfl := Option.some.inj (hp.symm.trans hc')
  have resumed : d = c.resume cfg σ.etcd σ.now o := by
    simp only [exec, hp, Option.some.injEq] at step
    have there : p < σ.procs.length := (List.getElem?_eq_some_iff.mp hp).1
    simp only [← step, Cluster.update, Cluster.wrote, List.getElem?_set_self there] at hd
    exact (Option.some.inj hd).symm
  subst resumed
  cases ends_round ended with
  | inl installs =>
    refine .inl ⟨installs, fun s hs => ?_⟩
    simp only [At, installs] at h
    obtain ⟨-, decided, loaded⟩ := h
    simp only [Coordinator.resume, installs, Coordinator.install_serves, hs, true_and, ← id]
    constructor
    · rintro ⟨own, kept⟩
      exact ⟨own, (loaded s hs own).resolve_right kept⟩
    · rintro ⟨own, keep⟩
      exact ⟨own, fun released => decided.release s released keep⟩
  | inr fails =>
    obtain ⟨at_, failed, back⟩ := fails
    have narrowed : Narrowed c₀ c := by
      obtain at_ | at_ | at_ := at_
      all_goals
        simp only [At, at_] at h
        exact h.1
    refine .inr ⟨at_, failed, ?_, fun s served => ?_⟩
    · rw [back]
      exact narrowed.1
    · rw [back] at served
      exact narrowed.serves served

/-- A history of the sample deployment and a round of its first node, up to the
install. -/
def sampleRound (id : Str) (before round : List Action) (check : Coordinator → Bool) : Bool :=
  (execute (exec sample) (prompt id) sampleStart before).any fun σ₀ =>
    σ₀.procs[0]?.any fun c₀ => c₀.nodeID = id ∧ c₀.pc = .listMembers ∧
      (execute (exec sample) (solo 0 id) σ₀ round).any fun σ =>
        σ.procs[0]?.any fun c => c.pc = .installing ∧ check c

theorem sampleRound_run {id : Str} {before round : List Action} {check : Coordinator → Bool}
    (ran : sampleRound id before round check = true) :
    ∃ (σ₀ σ σ' : Cluster) (c₀ c : Coordinator), c₀.nodeID = id ∧ Start sample σ₀ 0 c₀ ∧
      InRound sample 0 c₀ σ₀ σ ∧ σ.procs[0]? = some c ∧ c.pc = .installing ∧ check c = true ∧
      exec sample σ (.call 0 .ok) = some σ' ∧ σ'.procs[0]? = some c.install := by
  obtain ⟨σ₀, history, rest⟩ := (Option.any_eq_true _ _).mp ran
  obtain ⟨c₀, hc₀, rest⟩ := (Option.any_eq_true _ _).mp rest
  obtain ⟨rfl, pc, rest⟩ := of_decide_eq_true rest
  obtain ⟨σ, run, rest⟩ := (Option.any_eq_true _ _).mp rest
  obtain ⟨c, hc, rest⟩ := (Option.any_eq_true _ _).mp rest
  obtain ⟨installs, checked⟩ := of_decide_eq_true rest
  have start := start_of_prompt (sample_reachable history) hc₀ pc
  have step : exec sample σ (.call 0 .ok) = some ((σ.wrote (c.issue sample σ.etcd .ok)).update 0
      (c.resume sample σ.etcd σ.now .ok)) := by
    simp only [exec, hc]
  refine ⟨σ₀, σ, _, c₀, c, rfl, start, reachable_of_execute run, hc, installs, checked, step, ?_⟩
  have there : 0 < σ.procs.length := (List.getElem?_eq_some_iff.mp hc).1
  simp only [Cluster.update, Cluster.wrote, List.getElem?_set_self there, Coordinator.resume,
    installs]

/-- Of two members the first claims its one shard while the other node's lease
ends, and serves it after the round. -/
theorem round_gate_claimed : ∃ (σ₀ σ σ' : Cluster) (c₀ c d : Coordinator),
    Start sample σ₀ 0 c₀ ∧ c₀.nodeID ≠ [] ∧ InRound sample 0 c₀ σ₀ σ ∧ c.pc = .installing ∧
    exec sample σ (.call 0 .ok) = some σ' ∧ σ'.procs[0]? = some d ∧ d.serves 0 = true := by
  have ran : sampleRound (str "a") (sampleJoin 0 "a" ++ sampleJoin 1 "b")
      (List.replicate 4 (.call 0 .ok) ++ .expire 2 :: List.replicate 3 (.call 0 .ok))
      (fun c => (c.round.om 0).owner = str "a" ∧ sample.rendezvous 0 c.round.members = str "a") =
      true := by decide +kernel
  obtain ⟨σ₀, σ, σ', c₀, c, id, start, run, hc, installs, checked, step, hd⟩ := sampleRound_run ran
  have named : c₀.nodeID ≠ [] := by rw [id]; decide
  refine ⟨σ₀, σ, σ', c₀, c, c.install, start, named, run, installs, step, hd, ?_⟩
  obtain ⟨-, gate⟩ | ⟨early, -⟩ := round_gate start named run hc step hd rfl
  · rw [gate 0 (by decide), id]
    exact of_decide_eq_true checked
  · simp [installs] at early

/-- A node without an id takes a shard for its own whose owner's lease ends
between the two loads of its round. -/
theorem unnamed_serves_unowned : ∃ (σ₀ σ σ' : Cluster) (c₀ c d : Coordinator),
    Start sample σ₀ 0 c₀ ∧ InRound sample 0 c₀ σ₀ σ ∧ σ.procs[0]? = some c ∧
    c.pc = .installing ∧ exec sample σ (.call 0 .ok) = some σ' ∧ σ'.procs[0]? = some d ∧
    d.serves 1 = true ∧ sample.rendezvous 1 c.round.members ≠ c₀.nodeID := by
  have ran : sampleRound (str "")
      (sampleJoin 0 "" ++ sampleJoin 1 "b" ++ [.request (.claim 1 (str "b") 2) .ok])
      (List.replicate 3 (.call 0 .ok) ++ List.replicate 511 (.call 0 (.failed false)) ++
        .expire 2 :: List.replicate 3 (.call 0 .ok))
      (fun c => c.install.serves 1 ∧ sample.rendezvous 1 c.round.members ≠ str "") = true := by
    decide +kernel
  obtain ⟨σ₀, σ, σ', c₀, c, id, start, run, hc, installs, checked, step, hd⟩ := sampleRound_run ran
  obtain ⟨served, other⟩ := of_decide_eq_true checked
  exact ⟨σ₀, σ, σ', c₀, c, c.install, start, run, hc, installs, step, hd, served, id ▸ other⟩

end MilvusCatalog.Gate
