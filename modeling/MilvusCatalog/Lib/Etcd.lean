import MilvusCatalog.Lib.GoString

/-! A revisioned key-value store with leases, as an etcd client sees it. Every
transaction that writes raises the store revision by one and stamps the keys it
writes; a key bound to a lease is removed together with that lease. -/
namespace Etcd
open Go (Str)

/-- Lease zero stands for no lease. -/
structure KeyValue where
  value : Str
  createRevision : Nat
  modRevision : Nat
  lease : Nat
  deriving DecidableEq, Repr

/-- What holds of every stored record. Revision zero is never used, so it can
stand for an absent key in a comparison. -/
structure KeyValue.Sound (revision : Nat) (leases : List Nat) (kv : KeyValue) : Prop where
  created : 0 < kv.createRevision
  modified : kv.modRevision ≤ revision
  bound : kv.lease = 0 ∨ kv.lease ∈ leases

/-- Lease ids are positive and not reused. -/
structure Store where
  revision : Nat
  kvs : Std.ExtTreeMap Str KeyValue
  leases : List Nat
  nextLease : Nat
  sound : ∀ k : Str, ∀ kv, kvs[k]? = some kv → kv.Sound revision leases
  granted : ∀ l ∈ leases, 0 < l ∧ l < nextLease
  positive : 0 < nextLease

namespace Store

/-- A fresh server has revision 1. -/
def empty : Store where
  revision := 1
  kvs := ∅
  leases := []
  nextLease := 1
  sound := by simp
  granted := by simp
  positive := by decide

def get (e : Store) (k : Str) : Option KeyValue := e.kvs[k]?

/-- All keys that start with `p`, in key order. -/
def getPrefix (e : Store) (p : Str) : List (Str × KeyValue) :=
  e.kvs.toList.filter fun kv => p.isPrefixOf kv.1

/-- The target of `Compare(CreateRevision(k), ...)`; zero for an absent key. -/
def createRevision (e : Store) (k : Str) : Nat :=
  match e.get k with
  | some kv => kv.createRevision
  | none => 0

/-- `Compare(Value(k), "=", v)`, which fails on an absent key. -/
def valueIs (e : Store) (k v : Str) : Bool :=
  match e.get k with
  | some kv => kv.value == v
  | none => false

/-- The record that a put leaves under `k`. -/
def written (e : Store) (k v : Str) (l : Nat) : KeyValue where
  value := v
  createRevision := match e.get k with
    | some kv => kv.createRevision
    | none => e.revision + 1
  modRevision := e.revision + 1
  lease := l

theorem written_created (e : Store) (k v : Str) (l : Nat) :
    0 < (e.written k v l).createRevision := by
  simp only [written]
  split
  · next kv h => exact (e.sound k kv h).created
  · omega

/-- `OpPut(k, v, WithLease(l))`; it fails when the lease does not exist. -/
def put (e : Store) (k v : Str) (l : Nat) : Option Store :=
  if h : l = 0 ∨ l ∈ e.leases then
    some
      { e with
        revision := e.revision + 1
        kvs := e.kvs.insert k (e.written k v l)
        sound := by
          intro k' kv hk
          rw [Std.ExtTreeMap.getElem?_insert] at hk
          split at hk
          · obtain rfl := Option.some.inj hk
            exact ⟨e.written_created k v l, Nat.le_refl _, h⟩
          · obtain ⟨hc, hm, hb⟩ := e.sound k' kv hk
            exact ⟨hc, by omega, hb⟩ }
  else none

/-- `OpDelete(k)`; deleting an absent key writes nothing. -/
def delete (e : Store) (k : Str) : Store :=
  match e.get k with
  | none => e
  | some _ =>
    { e with
      revision := e.revision + 1
      kvs := e.kvs.erase k
      sound := by
        intro k' kv hk
        rw [Std.ExtTreeMap.getElem?_erase] at hk
        split at hk
        · cases hk
        · obtain ⟨hc, hm, hb⟩ := e.sound k' kv hk
          exact ⟨hc, by omega, hb⟩ }

/-- `Grant`. -/
def grant (e : Store) : Store × Nat :=
  ({ e with
      leases := e.nextLease :: e.leases
      nextLease := e.nextLease + 1
      sound := by
        intro k kv hk
        obtain ⟨hc, hm, hb⟩ := e.sound k kv hk
        exact ⟨hc, hm, hb.imp id (List.mem_cons_of_mem _)⟩
      granted := by
        intro l hl
        have := e.positive
        rcases List.mem_cons.mp hl with rfl | hl
        · omega
        · have := e.granted l hl
          omega
      positive := by omega },
    e.nextLease)

/-- `Revoke`, and what the server does when a lease runs out: the lease and
all keys bound to it go in one transaction. -/
def revoke (e : Store) (l : Nat) : Store :=
  if l ∈ e.leases then
    { e with
      revision :=
        if e.kvs.toList.any (fun kv => kv.2.lease == l) then e.revision + 1 else e.revision
      kvs := e.kvs.filter fun _ kv => kv.lease != l
      leases := e.leases.filter (· != l)
      sound := by
        intro k kv hk
        rw [Std.ExtTreeMap.getElem?_filter', Option.filter_eq_some_iff] at hk
        obtain ⟨hc, hm, hb⟩ := e.sound k kv hk.1
        exact ⟨hc, by split <;> omega, hb.imp id fun h => List.mem_filter.mpr ⟨h, hk.2⟩⟩
      granted := fun l' hl => e.granted l' (List.mem_filter.mp hl).1 }
  else e

/-! ## What each operation does to one key -/

theorem mem_getPrefix (e : Store) (p k : Str) (kv : KeyValue) :
    (k, kv) ∈ e.getPrefix p ↔ e.get k = some kv ∧ p <+: k := by
  simp [getPrefix, get, Std.ExtTreeMap.mem_toList_iff_getElem?_eq_some]

theorem createRevision_eq_zero (e : Store) (k : Str) :
    e.createRevision k = 0 ↔ e.get k = none := by
  simp only [createRevision]
  split
  · next kv h =>
    have := (e.sound k kv h).created
    simp [h]
    omega
  · next h => simp [h]

theorem valueIs_iff (e : Store) (k v : Str) :
    e.valueIs k v = true ↔ ∃ kv, e.get k = some kv ∧ kv.value = v := by
  simp only [valueIs]
  split <;> next h => simp [h]

/-- One transaction that leaves `kv` under `k` and nothing else changed. -/
structure Wrote (e e' : Store) (k : Str) (kv : Option KeyValue) : Prop where
  revision : e'.revision = e.revision + 1
  leases : e'.leases = e.leases
  nextLease : e'.nextLease = e.nextLease
  get : ∀ k', e'.get k' = if k' = k then kv else e.get k'

theorem Wrote.get_self {e e' : Store} {k : Str} {kv : Option KeyValue} (h : Wrote e e' k kv) :
    e'.get k = kv := by simp [h.get]

theorem Wrote.get_ne {e e' : Store} {k k' : Str} {kv : Option KeyValue} (h : Wrote e e' k kv)
    (hk : k' ≠ k) : e'.get k' = e.get k' := by simp [h.get, hk]

theorem getPrefix_sorted (e : Store) (p : Str) :
    (e.getPrefix p).Pairwise fun a b => compare a.1 b.1 = .lt :=
  (Std.ExtTreeMap.ordered_keys_toList).filter _

/-- A listing reads nothing but the keys of its directory. -/
theorem getPrefix_congr {e e' : Store} {p : Str} (same : ∀ k, p <+: k → e'.get k = e.get k) :
    e'.getPrefix p = e.getPrefix p := by
  have irrefl : Std.Irrefl fun a b : Str × KeyValue => compare a.1 b.1 = .lt := ⟨fun a => by simp⟩
  have antisymm : Std.Antisymm fun a b : Str × KeyValue => compare a.1 b.1 = .lt := by
    constructor
    intro a b hab hba
    rw [Std.OrientedCmp.gt_iff_lt.mpr hba] at hab
    cases hab
  apply (e'.getPrefix_sorted p).eq_of_mem_iff (e.getPrefix_sorted p)
  rintro ⟨k, kv⟩
  rw [mem_getPrefix, mem_getPrefix]
  exact and_congr_left fun hp => by rw [same k hp]

/-- A write outside a directory leaves the directory's listing as it was. -/
theorem Wrote.getPrefix {e e' : Store} {k : Str} {kv : Option KeyValue} (h : Wrote e e' k kv)
    {p : Str} (outside : ¬ p <+: k) : e'.getPrefix p = e.getPrefix p :=
  getPrefix_congr fun _ hp => h.get_ne fun e => outside (e ▸ hp)

theorem put_wrote {e e' : Store} {k v : Str} {l : Nat} (h : e.put k v l = some e') :
    (l = 0 ∨ l ∈ e.leases) ∧ Wrote e e' k (some (e.written k v l)) := by
  unfold put at h
  split at h
  · next hl =>
    obtain rfl := Option.some.inj h
    refine ⟨hl, rfl, rfl, rfl, fun k' => ?_⟩
    simp only [Store.get, Std.ExtTreeMap.getElem?_insert, Std.LawfulEqCmp.compare_eq_iff_eq,
      eq_comm (a := k)]
  · cases h

theorem delete_wrote {e : Store} {k : Str} {kv : KeyValue} (h : e.get k = some kv) :
    Wrote e (e.delete k) k none := by
  unfold delete
  rw [h]
  refine ⟨rfl, rfl, rfl, fun k' => ?_⟩
  simp only [Store.get, Std.ExtTreeMap.getElem?_erase, Std.LawfulEqCmp.compare_eq_iff_eq,
    eq_comm (a := k)]

theorem put_isSome (e : Store) (k v : Str) (l : Nat) :
    (e.put k v l).isSome ↔ l = 0 ∨ l ∈ e.leases := by
  unfold put
  split <;> simp_all

@[simp] theorem get_grant (e : Store) (k : Str) : e.grant.1.get k = e.get k := rfl

@[simp] theorem nextLease_grant (e : Store) : e.grant.1.nextLease = e.nextLease + 1 := rfl

/-- No stored key carries a lease that is not live, so a revocation of one
changes nothing. -/
@[simp] theorem get_revoke (e : Store) (l : Nat) (k : Str) (hl : l ≠ 0) :
    (e.revoke l).get k = (e.get k).filter fun kv => kv.lease != l := by
  unfold revoke
  split
  · simp only [get, Std.ExtTreeMap.getElem?_filter']
  · next hm =>
    cases hk : e.get k with
    | none => rfl
    | some kv =>
      have other : (kv.lease != l) = true := by
        rcases (e.sound k kv hk).bound with h | h
        · simp [h, hl.symm]
        · exact bne_iff_ne.mpr fun eq => hm (eq ▸ h)
      rw [Option.filter_some, if_pos other]

theorem ne_zero_of_live {e : Store} {l : Nat} (live : l ∈ e.leases) : l ≠ 0 :=
  Nat.ne_of_gt (e.granted l live).1

theorem revoke_dead {e : Store} {l : Nat} (dead : l ∉ e.leases) : e.revoke l = e :=
  if_neg dead

@[simp] theorem revoke_zero (e : Store) : e.revoke 0 = e :=
  revoke_dead fun live => ne_zero_of_live live rfl

/-- The end of a lease spares what is not bound to it. -/
theorem get_revoke_other {e : Store} {l : Nat} {k : Str}
    (other : ∀ kv, e.get k = some kv → kv.lease ≠ l) : (e.revoke l).get k = e.get k := by
  by_cases hl : l = 0
  · rw [hl, revoke_zero]
  · rw [e.get_revoke l k hl]
    cases hk : e.get k with
    | none => rfl
    | some kv => rw [Option.filter_some, if_pos (bne_iff_ne.mpr (other kv hk))]

theorem get_of_revoke {e : Store} {l : Nat} {k : Str} {kv : KeyValue}
    (h : (e.revoke l).get k = some kv) : e.get k = some kv := by
  by_cases hl : l = 0
  · subst hl
    rwa [revoke_zero] at h
  · rw [e.get_revoke l k hl, Option.filter_eq_some_iff] at h
    exact h.1

@[simp] theorem mem_leases_revoke (e : Store) (l l' : Nat) :
    l' ∈ (e.revoke l).leases ↔ l' ∈ e.leases ∧ l' ≠ l := by
  unfold revoke
  split
  · simp
  · next hm =>
    exact ⟨fun h => ⟨h, fun eq => hm (eq ▸ h)⟩, And.left⟩

theorem leases_revoke_sublist (e : Store) (l : Nat) : (e.revoke l).leases.Sublist e.leases := by
  unfold revoke
  split
  · exact List.filter_sublist
  · exact .refl _

theorem length_leases_revoke {e : Store} {l : Nat} (live : l ∈ e.leases) :
    (e.revoke l).leases.length < e.leases.length := by
  rw [revoke, if_pos live]
  exact List.length_filter_lt_length_iff_exists.mpr ⟨l, live, by simp⟩

@[simp] theorem nextLease_revoke (e : Store) (l : Nat) :
    (e.revoke l).nextLease = e.nextLease := by
  unfold revoke
  split <;> rfl

theorem revision_revoke_le (e : Store) (l : Nat) : e.revision ≤ (e.revoke l).revision := by
  unfold revoke
  split
  · dsimp only
    split <;> omega
  · exact Nat.le_refl _

end Store

end Etcd
