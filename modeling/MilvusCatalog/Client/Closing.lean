import MilvusCatalog.Client.Pool

/-! No connection is lost. The router dials, shares, evicts and in the end closes
connections from any number of calls at once, and each one that was ever dialed is
either in the pool or has been shut, once. -/
namespace MilvusCatalog.Client
open Go Transition

variable {E R : Type} {er : Errors E R} {cfg : Config}

/-- Every connection that was dialed is pooled or closed, and only once. -/
def Router.Accounted (r : Router) : Prop := (r.pooled ++ r.closed).Perm (List.range r.dialed)

/-- What a process does with its router: steps of its calls, and `Close`. -/
inductive Op (E R : Type)
  | act (a : Action E R)
  | close

def execOp (er : Errors E R) (cfg : Config) (σ : Process E R) : Op E R → Option (Process E R)
  | .act a => exec er cfg σ a
  | .close => some { σ with router := σ.router.close }

theorem toList_insert_perm {α β : Type} {cmp : α → α → Ordering} [Std.TransCmp cmp]
    [Std.LawfulEqCmp cmp] {m : Std.ExtTreeMap α β cmp} {k : α} (absent : m[k]? = none) (v : β) :
    (m.insert k v).toList.Perm ((k, v) :: m.toList) := by
  have distinct (m : Std.ExtTreeMap α β cmp) : m.toList.Nodup :=
    Std.ExtTreeMap.distinct_keys_toList.imp fun other same => other (by simp [same])
  refine (List.perm_ext_iff_of_nodup (distinct _) (List.nodup_cons.mpr ⟨?_, distinct m⟩)).mpr ?_
  · rw [Std.ExtTreeMap.mem_toList_iff_getElem?_eq_some, absent]
    nofun
  · rintro ⟨a, x⟩
    rw [List.mem_cons, Std.ExtTreeMap.mem_toList_iff_getElem?_eq_some,
      Std.ExtTreeMap.mem_toList_iff_getElem?_eq_some, Std.ExtTreeMap.getElem?_insert]
    by_cases same : k = a
    · subst same
      rw [if_pos Std.ReflCmp.compare_self]
      simp [absent, eq_comm]
    · have other : cmp k a ≠ .eq := fun eq => same (Std.LawfulEqCmp.eq_of_compare eq)
      simp [other, Ne.symm same]

theorem Router.Accounted.connected {r r' : Router} {addr : Str} {conn : Conn} (h : r.Accounted)
    (connected : Connected r addr r' conn) : r'.Accounted := by
  cases connected with
  | pooled => exact h
  | dialed absent =>
    have pool := (toList_insert_perm absent ⟨r.dialed, addr⟩).map fun e => e.2.id
    have more : List.range (r.dialed + 1) = List.range r.dialed ++ [r.dialed] := List.range_succ
    unfold Router.Accounted
    dsimp only
    rw [more]
    exact (pool.append_right r.closed).trans
      ((h.cons r.dialed).trans (List.perm_append_singleton r.dialed _).symm)

theorem Router.Accounted.installed {r : Router} (h : r.Accounted) (owner : Owners) (term : Terms) :
    (r.install owner term).Accounted := by
  let stays (e : Str × Conn) : Bool := r.live owner e.1
  let id (e : Str × Conn) : Nat := e.2.id
  have split : ((r.conns.toList.filter stays).map id ++
      (r.conns.toList.filter fun e => !stays e).map id).Perm r.pooled := by
    rw [← List.map_append]
    exact (List.filter_append_perm stays r.conns.toList).map id
  have moved : ((r.install owner term).pooled ++ (r.install owner term).closed).Perm
      (r.pooled ++ r.closed) := by
    simp only [Router.pooled, Router.install, Router.evictStaleConnsLocked,
      Std.ExtTreeMap.toList_filter]
    refine .trans ?_ (split.append_right r.closed)
    rw [List.append_assoc]
    exact .append_left _ List.perm_append_comm
  exact moved.trans h

theorem Router.Accounted.close {r : Router} (h : r.Accounted) : r.close.Accounted := by
  have empty : r.close.pooled = [] := by simp [Router.pooled, Router.close]
  unfold Router.Accounted
  rw [empty, List.nil_append]
  exact List.perm_append_comm.trans h

theorem execOp_accounted {σ σ' : Process E R} {o : Op E R} (h : σ.router.Accounted)
    (step : execOp er cfg σ o = some σ') : σ'.router.Accounted := by
  cases o with
  | close => cases step; exact h.close
  | act a =>
    obtain ⟨_, _, rfl, rfl⟩ | ⟨_, _, _, r', _, rfl, -, stepped, rfl⟩ := exec_cases step
    · exact h
    · obtain ⟨rfl, -⟩ | ⟨_, _, connected, -⟩ | ⟨owner, term, _, -, rfl, -⟩ := stepped_pool stepped
      · exact h
      · exact h.connected connected
      · exact h.installed owner term

/-- **No connection is lost or shut twice.** In every run of any calls, with `Close`
at any moments, the connections in the pool and those that have been shut are
together exactly the ones that were dialed, each once. So after a `Close` all that
were dialed before it are shut. -/
theorem connections_accounted {σ : Process E R}
    (h : Reachable Process.Initial (Next (execOp er cfg) fun _ _ => True) σ) :
    (σ.router.pooled ++ σ.router.closed).Perm (List.range σ.router.dialed) ∧
      ∀ σ', execOp er cfg σ .close = some σ' →
        σ'.router.closed.Perm (List.range σ.router.dialed) := by
  have accounted : σ.router.Accounted := by
    refine h.invariant (fun σ initial => ?_) fun σ o σ' accounted _ step =>
      execOp_accounted accounted step
    obtain ⟨⟨bootstrap, router⟩, -⟩ := initial
    rw [router]
    exact .refl []
  refine ⟨accounted, ?_⟩
  rintro σ' ⟨⟩
  exact List.perm_append_comm.trans accounted

/-- One caller's connection is evicted by the other's refresh, and then the process
closes the router. -/
theorem connections_accounted_evicted : ∃ σ : Process Unit Unit,
    Reachable Process.Initial (Next (execOp sampleUnit sample) fun _ _ => True) σ ∧
    σ.router.pooled = [0] ∧ σ.router.closed = [1] ∧ σ.router.dialed = 2 ∧
    σ.router.close.closed.Perm (List.range 2) := by
  have ran : (execute (execOp sampleUnit sample) (fun _ _ => true) sampleRouter
      ((overlapping (.ofList [(0, str "b")]) (.ofList [(0, 6)])).map .act)).any (fun σ =>
        σ.router.pooled = [0] ∧ σ.router.closed = [1] ∧ σ.router.dialed = 2) = true := by
    decide +kernel
  obtain ⟨σ, hσ, facts⟩ := (Option.any_eq_true _ _).mp ran
  obtain ⟨pooled, closed, dialed⟩ := of_decide_eq_true facts
  have reached : Reachable Process.Initial (Next (execOp sampleUnit sample) fun _ _ => True) σ := by
    apply (reachable_of_execute hσ).mono
    · rintro _ rfl
      exact ⟨⟨_, rfl⟩, rfl⟩
    · intro _ _ _
      trivial
  exact ⟨σ, reached, pooled, closed, dialed, dialed ▸ (connections_accounted reached).2 _ rfl⟩

end MilvusCatalog.Client
