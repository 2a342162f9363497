import MilvusCatalog.Lib.Etcd
import MilvusCatalog.Placement

/-! Ownership keys: `routing/ownership.go`. A call that reaches etcd runs as one
transaction on the store; calls that fail on the way are modelled where they
are made. -/
namespace MilvusCatalog
open Go Etcd

def shardKey (pfx : Str) (shard : Nat) : Str :=
  join [pfx, str "ownership", str "shard", itoa shard]

/-- The errors an etcd call can return: the server refused the lease, or the
call failed without an answer. -/
inductive EtcdError
  | leaseNotFound
  | unavailable
  deriving DecidableEq, Repr

/-- On success the second result is the term, the revision of the claim. -/
def claimShard (pfx : Str) (e : Store) (shard : Nat) (nodeID : Str) (lease : Nat) :
    Store × Except EtcdError (Bool × Nat) :=
  let key := shardKey pfx shard
  if e.createRevision key = 0 then
    match e.put key nodeID lease with
    | none => (e, .error .leaseNotFound)
    | some e' => (e', .ok (true, e'.revision))
  else (e, .ok (false, 0))

structure OwnerInfo where
  owner : Str
  term : Nat
  lease : Nat
  deriving DecidableEq, Repr

/-- The entry of an unowned shard. -/
def OwnerInfo.zero : OwnerInfo := ⟨[], 0, 0⟩

def rebindShard (pfx : Str) (e : Store) (shard : Nat) (nodeID : Str) (lease : Nat) :
    Store × Except EtcdError (Bool × Nat) :=
  let key := shardKey pfx shard
  if e.valueIs key nodeID then
    match e.put key nodeID lease with
    | none => (e, .error .leaseNotFound)
    | some e' => (e', .ok (true, e'.revision))
  else (e, .ok (false, 0))

def releaseShard (pfx : Str) (e : Store) (shard : Nat) (nodeID : Str) : Store :=
  let key := shardKey pfx shard
  if e.valueIs key nodeID then e.delete key else e

def shardOwner (pfx : Str) (e : Store) (shard : Nat) : Option Str :=
  (e.get (shardKey pfx shard)).map KeyValue.value

def shardBase (pfx : Str) : Str := join [pfx, str "ownership", str "shard"] ++ [slash]

/-- One key of a load: keys whose rest is not a shard number are skipped. -/
def scanShard {β : Type} (pfx : Str) (read : KeyValue → β) (m : Nat → β) (kv : Str × KeyValue) :
    Nat → β :=
  match atoi (kv.1.drop (shardBase pfx).length) with
  | none => m
  | some s => if s < 0 ∨ s ≥ shardCount then m else Function.update m s.toNat (read kv.2)

def ownerInfo (kv : KeyValue) : OwnerInfo := ⟨kv.value, kv.modRevision, kv.lease⟩

def loadOwnershipMap (pfx : Str) (e : Store) : Nat → OwnerInfo :=
  (e.getPrefix (shardBase pfx)).foldl (scanShard pfx ownerInfo) fun _ => .zero

def loadShardMap (pfx : Str) (e : Store) : Nat → Str :=
  (e.getPrefix (shardBase pfx)).foldl (scanShard pfx KeyValue.value) fun _ => []

/-! ## The keys -/

theorem shard_names (s : Nat) :
    ∀ name ∈ [str "ownership", str "shard", itoa s], Plain name := by
  intro name h
  simp only [List.mem_cons, List.not_mem_nil, or_false] at h
  rcases h with rfl | rfl | rfl
  · exact ⟨by decide +kernel, by decide +kernel, by decide +kernel, by decide +kernel⟩
  · exact ⟨by decide +kernel, by decide +kernel, by decide +kernel, by decide +kernel⟩
  · exact itoa_plain s

theorem shardBase_eq (pfx : Str) :
    shardBase pfx = dir pfx ++ (str "ownership" ++ slash :: (str "shard" ++ [slash])) := by
  have names : ∀ name ∈ [str "ownership", str "shard"], Plain name := fun name h =>
    shard_names 0 name (by simp only [List.mem_cons, List.not_mem_nil, or_false] at h ⊢; tauto)
  simp [shardBase, join_plain pfx names, List.intercalate_cons_cons]

theorem shardKey_eq (pfx : Str) (s : Nat) : shardKey pfx s = shardBase pfx ++ itoa s := by
  rw [shardBase_eq, shardKey, join_plain pfx (shard_names s) (by simp)]
  simp [List.intercalate_cons_cons]

theorem shardKey_injective {pfx : Str} {s s' : Nat} (h : shardKey pfx s = shardKey pfx s') :
    s = s' := by
  simp only [shardKey_eq, List.append_cancel_left_eq] at h
  exact itoa_injective h

@[simp] theorem shardKey_inj {pfx : Str} {s s' : Nat} :
    shardKey pfx s = shardKey pfx s' ↔ s = s' :=
  ⟨shardKey_injective, fun h => h ▸ rfl⟩

theorem shardBase_isPrefix (pfx : Str) (s : Nat) : shardBase pfx <+: shardKey pfx s :=
  ⟨itoa s, (shardKey_eq pfx s).symm⟩

/-- Every key under the ownership directory is the key of some shard. -/
def Layout (pfx : Str) (e : Store) : Prop :=
  ∀ k kv, e.get k = some kv → shardBase pfx <+: k → ∃ s, k = shardKey pfx s

/-! ## Loads -/

theorem scanShard_key {β : Type} (pfx : Str) (read : KeyValue → β) (m : Nat → β) (s' : Nat)
    (kv : KeyValue) (s : Nat) (hs : s < shardCount) :
    scanShard pfx read m (shardKey pfx s', kv) s = if s' = s then read kv else m s := by
  have drop : (shardKey pfx s').drop (shardBase pfx).length = itoa s' := by
    rw [shardKey_eq, List.drop_left]
  have small : shardCount < 2 ^ 63 := by decide
  simp only [scanShard, drop, atoi_itoa]
  by_cases h63 : s' < 2 ^ 63
  · simp only [h63, ↓reduceIte]
    by_cases hc : s' < shardCount
    · rw [if_neg (by omega)]
      by_cases e : s' = s
      · subst e; simp
      · simp [e, Function.update_of_ne (Ne.symm e)]
    · rw [if_pos (by omega), if_neg (by omega)]
  · simp only [h63, ↓reduceIte]
    rw [if_neg (by omega)]

/-- A scan over stored shard keys gives each shard its stored record, or keeps
what the map had when the shard's key is not among them. -/
theorem scanShards_eq {β : Type} {pfx : Str} (read : KeyValue → β) (m : Nat → β)
    {kvs : List (Str × KeyValue)} (keys : ∀ kv ∈ kvs, ∃ s, kv.1 = shardKey pfx s)
    {s : Nat} (hs : s < shardCount) {v : β}
    (same : ∀ kv ∈ kvs, kv.1 = shardKey pfx s → read kv.2 = v)
    (found : m s = v ∨ ∃ kv ∈ kvs, kv.1 = shardKey pfx s) :
    kvs.foldl (scanShard pfx read) m s = v := by
  induction kvs generalizing m with
  | nil => simpa using found
  | cons kv kvs ih =>
    obtain ⟨s', hk⟩ := keys kv List.mem_cons_self
    have step := scanShard_key pfx read m s' kv.2 s hs
    rw [← hk] at step
    apply ih _ (fun x hx => keys x (List.mem_cons_of_mem kv hx))
      (fun x hx => same x (List.mem_cons_of_mem kv hx))
    by_cases e : s' = s
    · left
      rw [step, if_pos e, same kv List.mem_cons_self (e ▸ hk)]
    · rw [step, if_neg e]
      rcases found with h | ⟨x, hx, hxk⟩
      · exact .inl h
      · rcases List.mem_cons.mp hx with rfl | hx
        · exact absurd (shardKey_injective (hk ▸ hxk)) e
        · exact .inr ⟨x, hx, hxk⟩

theorem load_eq {β : Type} {pfx : Str} {e : Store} (h : Layout pfx e) (read : KeyValue → β)
    (zero : β) {s : Nat} (hs : s < shardCount) :
    (e.getPrefix (shardBase pfx)).foldl (scanShard pfx read) (fun _ => zero) s =
      ((e.get (shardKey pfx s)).map read).getD zero := by
  have stored (kv : Str × KeyValue) (hkv : kv ∈ e.getPrefix (shardBase pfx)) :=
    (e.mem_getPrefix _ kv.1 kv.2).mp hkv
  apply scanShards_eq read _ (fun kv hkv => h kv.1 kv.2 (stored kv hkv).1 (stored kv hkv).2) hs
  · intro kv hkv hk
    simp [← hk, (stored kv hkv).1]
  · cases hg : e.get (shardKey pfx s) with
    | none => exact .inl rfl
    | some kv =>
      exact .inr ⟨(shardKey pfx s, kv), (e.mem_getPrefix _ _ _).mpr
        ⟨hg, shardBase_isPrefix pfx s⟩, rfl⟩

/-- A load reports for each shard exactly what is stored under its key. -/
theorem loadOwnershipMap_eq {pfx : Str} {e : Store} (h : Layout pfx e) {s : Nat}
    (hs : s < shardCount) :
    loadOwnershipMap pfx e s = ((e.get (shardKey pfx s)).map ownerInfo).getD .zero :=
  load_eq h ownerInfo .zero hs

theorem loadShardMap_eq {pfx : Str} {e : Store} (h : Layout pfx e) {s : Nat}
    (hs : s < shardCount) :
    loadShardMap pfx e s = ((e.get (shardKey pfx s)).map KeyValue.value).getD [] :=
  load_eq h KeyValue.value [] hs

/-! ## What each transaction can do -/

/-- A claim either fails and changes nothing, or writes a new record at the
next revision under a key that was absent. -/
theorem claimShard_cases (pfx : Str) (e : Store) (s : Nat) (nodeID : Str) (l : Nat) :
    (e.get (shardKey pfx s) = none ∧ (l = 0 ∨ l ∈ e.leases) ∧
      (claimShard pfx e s nodeID l).2 = .ok (true, e.revision + 1) ∧
      e.Wrote (claimShard pfx e s nodeID l).1 (shardKey pfx s)
        (some ⟨nodeID, e.revision + 1, e.revision + 1, l⟩)) ∨
    ((claimShard pfx e s nodeID l).1 = e ∧
      ∀ t, (claimShard pfx e s nodeID l).2 ≠ .ok (true, t)) := by
  simp only [claimShard, Store.createRevision_eq_zero]
  split
  · next absent =>
    cases hput : e.put (shardKey pfx s) nodeID l with
    | none => exact .inr ⟨rfl, by simp⟩
    | some e' =>
      obtain ⟨live, wrote⟩ := Store.put_wrote hput
      simp only [Store.written, absent] at wrote
      exact .inl ⟨absent, live, by simp only [wrote.revision], wrote⟩
  · exact .inr ⟨rfl, by simp⟩

/-- A claim succeeds on an absent key, under a lease that exists. -/
theorem claimShard_ok_iff (pfx : Str) (e : Store) (s : Nat) (nodeID : Str) (l : Nat) :
    (∃ term, (claimShard pfx e s nodeID l).2 = .ok (true, term)) ↔
      e.get (shardKey pfx s) = none ∧ (l = 0 ∨ l ∈ e.leases) := by
  constructor
  · rintro ⟨term, ok⟩
    cases claimShard_cases pfx e s nodeID l with
    | inl success => exact ⟨success.1, success.2.1⟩
    | inr failure => exact absurd ok (failure.2 term)
  · rintro ⟨absent, live⟩
    obtain ⟨e', put⟩ := Option.isSome_iff_exists.mp
      ((e.put_isSome (shardKey pfx s) nodeID l).mpr live)
    refine ⟨e'.revision, ?_⟩
    simp only [claimShard, Store.createRevision_eq_zero, absent, ↓reduceIte, put]

/-- A rebind either fails and changes nothing, or rewrites a record that
already carried the node's id. -/
theorem rebindShard_cases (pfx : Str) (e : Store) (s : Nat) (nodeID : Str) (l : Nat) :
    (∃ kv, e.get (shardKey pfx s) = some kv ∧ kv.value = nodeID ∧ (l = 0 ∨ l ∈ e.leases) ∧
      (rebindShard pfx e s nodeID l).2 = .ok (true, e.revision + 1) ∧
      e.Wrote (rebindShard pfx e s nodeID l).1 (shardKey pfx s)
        (some ⟨nodeID, kv.createRevision, e.revision + 1, l⟩)) ∨
    ((rebindShard pfx e s nodeID l).1 = e ∧
      ∀ t, (rebindShard pfx e s nodeID l).2 ≠ .ok (true, t)) := by
  simp only [rebindShard]
  split
  · next own =>
    obtain ⟨kv, hkv, hv⟩ := (e.valueIs_iff _ _).mp own
    cases hput : e.put (shardKey pfx s) nodeID l with
    | none => exact .inr ⟨rfl, by simp⟩
    | some e' =>
      obtain ⟨live, wrote⟩ := Store.put_wrote hput
      simp only [Store.written, hkv] at wrote
      exact .inl ⟨kv, hkv, hv, live, by simp only [wrote.revision], wrote⟩
  · exact .inr ⟨rfl, by simp⟩

/-- A release deletes a record of the releasing node, whatever its term. -/
theorem releaseShard_cases (pfx : Str) (e : Store) (s : Nat) (nodeID : Str) :
    (∃ kv, e.get (shardKey pfx s) = some kv ∧ kv.value = nodeID ∧
      e.Wrote (releaseShard pfx e s nodeID) (shardKey pfx s) none) ∨
    releaseShard pfx e s nodeID = e ∧
      ∀ kv, e.get (shardKey pfx s) = some kv → kv.value ≠ nodeID := by
  simp only [releaseShard]
  split
  · next own =>
    obtain ⟨kv, hkv, hv⟩ := (e.valueIs_iff _ _).mp own
    exact .inl ⟨kv, hkv, hv, Store.delete_wrote hkv⟩
  · next other =>
    exact .inr ⟨rfl, fun kv hkv hv => other ((e.valueIs_iff _ _).mpr ⟨kv, hkv, hv⟩)⟩

end MilvusCatalog
