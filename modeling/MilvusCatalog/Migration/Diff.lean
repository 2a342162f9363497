import MilvusCatalog.Migration.Copy

/-! What the comparison reports: for each key that the two stores do not hold
alike under the roots one entry, in key order. -/
namespace MilvusCatalog.Migration
open Go

section
variable {roots : List Str} {env : Env}

/-- The loads of all roots together. -/
def LoadedRoots (m : MetaKv) (roots : List Str) (out : Map) : Prop :=
  ∀ k v, out[k]? = some v ↔ Wanted m roots k v

theorem visited_nodup (o : Order) (m : Map) : ((o.visit m.toList).map Prod.fst).Nodup :=
  ((o.perm m.toList).map Prod.fst).nodup_iff.mpr (Map.keys_nodup m)

/-- The keys that a loop over a map has still to come to are distinct, and none of them
is pending. -/
structure Ahead (rest : List (Str × Str)) (batch : Map) : Prop where
  distinct : (rest.map Prod.fst).Nodup
  fresh : ∀ k ∈ rest.map Prod.fst, k ∉ batch

theorem Ahead.start (o : Order) (m : Map) : Ahead (o.visit m.toList) ∅ :=
  ⟨visited_nodup o m, by simp⟩

section
variable {e : Str × Str} {rest : List (Str × Str)} {batch : Map}

theorem Ahead.insert (h : Ahead (e :: rest) batch) :
    (batch.insert e.1 e.2).size = batch.size + 1 ∧ Ahead rest (batch.insert e.1 e.2) := by
  have distinct := h.distinct
  rw [List.map_cons, List.nodup_cons] at distinct
  have absent : e.1 ∉ batch := h.fresh e.1 (by simp)
  refine ⟨by simp [Std.ExtTreeMap.size_insert, absent], distinct.2, ?_⟩
  intro k hk
  have ne : e.1 ≠ k := by
    rintro rfl
    exact distinct.1 hk
  simpa [Std.ExtTreeMap.mem_insert, ne] using h.fresh k (List.mem_cons_of_mem _ hk)

theorem Ahead.flushed (h : Ahead (e :: rest) batch) : Ahead rest ∅ :=
  ⟨h.insert.2.distinct, by simp⟩

end

theorem LoadedRoots.add {m : MetaKv} {done : List Str} {root : Str} {out part : Map}
    (h : LoadedRoots m done out) (hp : Loaded m root part) (o : Order) :
    LoadedRoots m (done ++ [root]) (out.insertMany (o.visit part.toList)) := by
  have mem : ∀ k v, (k, v) ∈ o.visit part.toList ↔ Beneath root k ∧ m.load k = some v := by
    intro k v
    rw [(o.perm part.toList).mem_iff, Std.ExtTreeMap.mem_toList_iff_getElem?_eq_some, hp.get]
  intro k v
  rw [Map.insertMany_get (visited_nodup o part), mem, h]
  constructor
  · rintro (⟨hb, hv⟩ | ⟨-, ⟨r, hr, hb⟩, hv⟩)
    · exact ⟨⟨root, by simp, hb⟩, hv⟩
    · exact ⟨⟨r, by simp [hr], hb⟩, hv⟩
  · rintro ⟨⟨r, hr, hb⟩, hv⟩
    by_cases beneath : Beneath root k
    · exact .inl ⟨beneath, hv⟩
    · right
      constructor
      · intro hk
        obtain ⟨⟨k', w⟩, hw, rfl⟩ := List.mem_map.mp hk
        exact beneath ((mem k' w).mp hw).1
      · cases List.mem_append.mp hr with
        | inl hd => exact ⟨⟨r, hd, hb⟩, hv⟩
        | inr he => exact absurd (List.mem_singleton.mp he ▸ hb) beneath

theorem loadLogicalRoots_loaded {m : MetaKv} (h : Readable m roots)
    (answers : ∀ n, env.answers n = true) (start : Nat) :
    ∃ out, loadLogicalRoots env start m roots = .ok out ∧ LoadedRoots m roots out := by
  -- Each turn adds one root's entries to those of the roots before it.
  have go : ∀ (rest done : List Str) (n : Nat) (out : Map), done ++ rest = roots →
      LoadedRoots m done out → ∃ out', (rest.zipIdx n).foldlM (fun out r => do
        let part ← loadLogical (env.answers r.2) m r.1
        .ok (out.insertMany ((env.order r.2).visit part.toList))) out = .ok out' ∧
        LoadedRoots m roots out' := by
    intro rest
    induction rest with
    | nil =>
      intro done n out hd loaded
      rw [List.append_nil] at hd
      exact ⟨out, rfl, hd ▸ loaded⟩
    | cons root rest ih =>
      intro done n out hd loaded
      have hr : root ∈ roots := by simp [← hd]
      obtain ⟨part, ok, hp⟩ := loadLogical_loaded h.rooted (h.unambiguous root hr)
        (h.segmented root hr)
      obtain ⟨out', rest_ok, all⟩ := ih (done ++ [root]) (n + 1)
        (out.insertMany ((env.order n).visit part.toList)) (by simp [hd]) (loaded.add hp _)
      refine ⟨out', ?_, all⟩
      rw [List.zipIdx_cons, List.foldlM_cons, answers, ok]
      exact rest_ok
  apply go roots [] start ∅ rfl
  intro k v
  constructor
  · intro h
    simp at h
  · rintro ⟨⟨r, hr, -⟩, -⟩
    cases hr

/-- The reason to report a key, from what the two maps hold under it. -/
def differs : Option Str → Option Str → Option Reason
  | some _, none => some .missingInDst
  | none, some _ => some .missingInSrc
  | some sv, some dv => if dv ≠ sv then some .valueDiffers else none
  | none, none => none

theorem compareSrc_some {dst : Map} {k v : Str} {m : Mismatch}
    (h : compareSrc dst (k, v) = some m) :
    m.key = k ∧ differs (some v) dst[k]? = some m.reason := by
  unfold compareSrc at h
  split at h
  · next hd =>
    cases h
    exact ⟨rfl, by rw [hd]; rfl⟩
  · next dv hd =>
    split at h
    · next hne =>
      cases h
      exact ⟨rfl, by rw [hd]; exact if_pos hne⟩
    · cases h

theorem compareDst_some {src : Map} {k v : Str} {m : Mismatch}
    (h : compareDst src (k, v) = some m) :
    m.key = k ∧ src[k]? = none ∧ m.reason = .missingInSrc := by
  unfold compareDst at h
  split at h
  · next hs =>
    cases h
    exact ⟨rfl, hs, rfl⟩
  · cases h

section Diff
variable (overSrc overDst : Order) (src dst : Map)

theorem mem_diffMaps (m : Mismatch) :
    m ∈ diffMaps overSrc overDst src dst ↔ differs src[m.key]? dst[m.key]? = some m.reason := by
  simp only [diffMaps, List.mem_insertionSort, List.mem_append, List.mem_filterMap, Prod.exists,
    (overSrc.perm src.toList).mem_iff, (overDst.perm dst.toList).mem_iff,
    Std.ExtTreeMap.mem_toList_iff_getElem?_eq_some]
  constructor
  · rintro (⟨k, sv, hs, h⟩ | ⟨k, dv, hd, h⟩)
    · obtain ⟨rfl, hr⟩ := compareSrc_some h
      rw [hs, hr]
    · obtain ⟨rfl, hs, hr⟩ := compareDst_some h
      rw [hs, hd, hr]
      rfl
  · intro h
    obtain ⟨k, reason⟩ := m
    cases hs : src[k]? with
    | some sv =>
      left
      refine ⟨k, sv, hs, ?_⟩
      cases hd : dst[k]? with
      | none =>
        rw [hs, hd] at h
        cases h
        simp [compareSrc, hd]
      | some dv =>
        simp only [hs, hd, differs] at h
        split at h
        · next hne => cases h; simp [compareSrc, hd, hne]
        · cases h
    | none =>
      right
      cases hd : dst[k]? with
      | none => rw [hs, hd] at h; cases h
      | some dv =>
        rw [hs, hd] at h
        cases h
        exact ⟨k, dv, hd, if_pos hs⟩

theorem filterMap_keys (l : List (Str × Str)) {f : Str × Str → Option Mismatch}
    (own : ∀ e m, f e = some m → m.key = e.1) :
    ((l.filterMap f).map Mismatch.key).Sublist (l.map Prod.fst) := by
  induction l with
  | nil => exact List.Sublist.refl []
  | cons e l ih =>
    cases h : f e with
    | none =>
      rw [List.filterMap_cons_none h]
      exact ih.cons _
    | some m =>
      rw [List.filterMap_cons_some h, List.map_cons, List.map_cons, own e m h]
      exact ih.cons_cons _

/-- The second pass reports only keys that the first does not visit. -/
theorem diffMaps_nodup : ((diffMaps overSrc overDst src dst).map Mismatch.key).Nodup := by
  have ownSrc : ∀ e m, compareSrc dst e = some m → m.key = e.1 :=
    fun _ _ h => (compareSrc_some h).1
  have ownDst : ∀ e m, compareDst src e = some m → m.key = e.1 :=
    fun _ _ h => (compareDst_some h).1
  have fromSrc := filterMap_keys (overSrc.visit src.toList) ownSrc
  have fromDst := filterMap_keys (overDst.visit dst.toList) ownDst
  rw [diffMaps, ((List.perm_insertionSort _ _).map _).nodup_iff, List.map_append,
    List.nodup_append']
  refine ⟨fromSrc.nodup (visited_nodup overSrc src), fromDst.nodup (visited_nodup overDst dst), ?_⟩
  intro k hs hd
  obtain ⟨⟨k', v⟩, hv, rfl⟩ := List.mem_map.mp (fromSrc.subset hs)
  obtain ⟨m, hm, same⟩ := List.mem_map.mp hd
  obtain ⟨e, -, he⟩ := List.mem_filterMap.mp hm
  obtain ⟨key, absent, -⟩ := compareDst_some he
  rw [(overSrc.perm src.toList).mem_iff, Std.ExtTreeMap.mem_toList_iff_getElem?_eq_some] at hv
  rw [← key, same, hv] at absent
  cases absent

/-- Without repeated keys, sorted by key is strictly sorted. -/
theorem sorted_strict {l : List Mismatch} (le : l.Pairwise Mismatch.le)
    (distinct : (l.map Mismatch.key).Nodup) :
    l.Pairwise fun a b => compare a.key b.key = .lt := by
  apply (le.and (List.pairwise_map.mp distinct)).imp
  rintro a b ⟨hle, hne⟩
  rw [Mismatch.le] at hle
  cases h : compare a.key b.key with
  | lt => rfl
  | eq => exact absurd (Std.LawfulEqCmp.eq_of_compare h) hne
  | gt => rw [h] at hle; cases hle

theorem diffMaps_sorted : (diffMaps overSrc overDst src dst).Pairwise
    fun a b => compare a.key b.key = .lt := by
  have : Std.Total Mismatch.le := ⟨fun a b => by
    simp only [Mismatch.le]
    rw [show compare b.key a.key = (compare a.key b.key).swap from Std.OrientedCmp.eq_swap]
    cases compare a.key b.key <;> decide⟩
  have : IsTrans Mismatch Mismatch.le := ⟨fun a b c hab hbc => Std.TransCmp.isLE_trans hab hbc⟩
  exact sorted_strict (List.pairwise_insertionSort _ _) (diffMaps_nodup overSrc overDst src dst)

/-- Lists in strict key order are equal when they have the same members. -/
theorem sorted_ext {a b : List Mismatch} (ha : a.Pairwise fun x y => compare x.key y.key = .lt)
    (hb : b.Pairwise fun x y => compare x.key y.key = .lt) (h : ∀ m, m ∈ a ↔ m ∈ b) : a = b := by
  have : Std.Irrefl fun x y : Mismatch => compare x.key y.key = .lt :=
    ⟨fun x hx => by simp at hx⟩
  have : Std.Asymm fun x y : Mismatch => compare x.key y.key = .lt :=
    ⟨fun x y hx hy => by
      rw [show compare y.key x.key = (compare x.key y.key).swap from Std.OrientedCmp.eq_swap,
        hx] at hy
      cases hy⟩
  exact ha.eq_of_mem_iff hb h

/-- The reason for the same key when the two maps change places. -/
def Reason.exchanged : Reason → Reason
  | .missingInDst => .missingInSrc
  | .missingInSrc => .missingInDst
  | .valueDiffers => .valueDiffers

def Mismatch.exchanged (m : Mismatch) : Mismatch := { m with reason := m.reason.exchanged }

theorem differs_swap (s d : Option Str) : differs d s = (differs s d).map Reason.exchanged := by
  cases s with
  | none => cases d <;> rfl
  | some sv =>
    cases d with
    | none => rfl
    | some dv =>
      by_cases h : sv = dv
      · simp [differs, h]
      · simp [differs, h, Ne.symm h, Reason.exchanged]

theorem differs_eq_none {s d : Option Str} : differs s d = none ↔ s = d := by
  cases s <;> cases d <;> simp [differs, eq_comm]

theorem diffMaps_eq_nil : diffMaps overSrc overDst src dst = [] ↔ src = dst := by
  simp only [List.eq_nil_iff_forall_not_mem, mem_diffMaps]
  constructor
  · intro h
    apply Std.ExtTreeMap.ext_getElem?
    intro k
    rw [← differs_eq_none, Option.eq_none_iff_forall_ne_some]
    intro reason
    exact h ⟨k, reason⟩
  · rintro rfl m h
    rw [differs_eq_none.mpr rfl] at h
    cases h

/-- Whatever the order of the visits and however the result is sorted by key, it
is the same list. -/
theorem diffMaps_unique {overSrc' overDst' : Order} {l : List Mismatch}
    (perm : l.Perm (diffMaps overSrc' overDst' src dst)) (sorted : l.Pairwise Mismatch.le) :
    l = diffMaps overSrc overDst src dst := by
  have distinct : (l.map Mismatch.key).Nodup :=
    (perm.map Mismatch.key).nodup_iff.mpr (diffMaps_nodup overSrc' overDst' src dst)
  apply sorted_ext (sorted_strict sorted distinct) (diffMaps_sorted overSrc overDst src dst)
  intro m
  rw [perm.mem_iff, mem_diffMaps, mem_diffMaps]

theorem diffMaps_swap (overSrc' overDst' : Order) : diffMaps overDst' overSrc' dst src =
    (diffMaps overSrc overDst src dst).map Mismatch.exchanged := by
  apply sorted_ext (diffMaps_sorted overDst' overSrc' dst src)
  · rw [List.pairwise_map]
    exact diffMaps_sorted overSrc overDst src dst
  · have back : Function.Involutive Mismatch.exchanged := by
      rintro ⟨k, reason⟩
      cases reason <;> rfl
    rintro ⟨k, reason⟩
    rw [List.mem_map_of_involutive back, mem_diffMaps, mem_diffMaps]
    show differs dst[k]? src[k]? = some reason ↔
      differs src[k]? dst[k]? = some reason.exchanged
    rw [differs_swap dst[k]?]
    cases differs dst[k]? src[k]? with
    | none => simp
    | some r => cases r <;> cases reason <;> simp [Reason.exchanged]

end Diff

/-- The list depends on the two maps only: neither on the order in which `range`
visits them nor on how `sort.Slice` arranges what it is given. -/
theorem diffMaps_exact (overSrc overDst : Order) (src dst : Map) :
    (diffMaps overSrc overDst src dst).Pairwise (fun a b => compare a.key b.key = .lt) ∧
    (∀ k, (⟨k, .missingInDst⟩ : Mismatch) ∈ diffMaps overSrc overDst src dst ↔
      k ∈ src ∧ k ∉ dst) ∧
    (∀ k, (⟨k, .missingInSrc⟩ : Mismatch) ∈ diffMaps overSrc overDst src dst ↔
      k ∈ dst ∧ k ∉ src) ∧
    (∀ k, (⟨k, .valueDiffers⟩ : Mismatch) ∈ diffMaps overSrc overDst src dst ↔
      ∃ sv dv, src[k]? = some sv ∧ dst[k]? = some dv ∧ sv ≠ dv) ∧
    (diffMaps overSrc overDst src dst = [] ↔ src = dst) ∧
    (∀ overSrc' overDst' l, l.Perm (diffMaps overSrc' overDst' src dst) →
      l.Pairwise Mismatch.le → l = diffMaps overSrc overDst src dst) ∧
    ∀ overSrc' overDst', diffMaps overDst' overSrc' dst src =
      (diffMaps overSrc overDst src dst).map Mismatch.exchanged := by
  refine ⟨diffMaps_sorted .., ?_, ?_, ?_, ?_, ?_, ?_⟩
  · intro k
    rw [mem_diffMaps, Std.ExtTreeMap.mem_iff_isSome_getElem?,
      Std.ExtTreeMap.mem_iff_isSome_getElem?]
    cases src[k]? <;> cases dst[k]? <;> simp [differs]
  · intro k
    rw [mem_diffMaps, Std.ExtTreeMap.mem_iff_isSome_getElem?,
      Std.ExtTreeMap.mem_iff_isSome_getElem?]
    cases src[k]? <;> cases dst[k]? <;> simp [differs]
  · intro k
    rw [mem_diffMaps]
    cases src[k]? <;> cases dst[k]? <;> simp [differs, eq_comm]
  · exact diffMaps_eq_nil ..
  · intro overSrc' overDst' l perm sorted
    exact diffMaps_unique overSrc overDst src dst perm sorted
  · exact diffMaps_swap overSrc overDst src dst

/-- When all loads are answered, the comparison is that of the entries under the
roots. -/
theorem diffPrefixes_ok {src dst : MetaKv} (hs : Readable src roots) (hd : Readable dst roots)
    (answers : ∀ n, env.answers n = true) :
    ∃ srcKV dstKV ds, LoadedRoots src roots srcKV ∧ LoadedRoots dst roots dstKV ∧
      diffPrefixes env src dst roots = .ok ds ∧
      ds.Pairwise (fun a b => compare a.key b.key = .lt) ∧
      ∀ m : Mismatch, m ∈ ds ↔ differs srcKV[m.key]? dstKV[m.key]? = some m.reason := by
  obtain ⟨srcKV, okSrc, loadedSrc⟩ := loadLogicalRoots_loaded hs answers 0
  obtain ⟨dstKV, okDst, loadedDst⟩ := loadLogicalRoots_loaded hd answers roots.length
  refine ⟨srcKV, dstKV, diffMaps (env.order (2 * roots.length)) (env.order (2 * roots.length + 1))
    srcKV dstKV, loadedSrc, loadedDst, ?_, diffMaps_sorted _ _ _ _, mem_diffMaps _ _ _ _⟩
  rw [diffPrefixes, okSrc, okDst]
  rfl

end

end MilvusCatalog.Migration
