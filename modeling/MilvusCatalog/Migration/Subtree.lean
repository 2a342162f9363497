import MilvusCatalog.Migration.Keys

/-! How far `stripRootPath` undoes the construction of full keys, and how far
`loadLogical` returns the subtree of its root. The backend matches plain strings
and the scan looks for the root in the whole key, so both depend on what the
rest of a key contains. -/
namespace MilvusCatalog.Migration
open Go

/-- `path` contains `root` as a run of whole segments. -/
def HasRun (path root : Str) : Prop := ∃ idx ≤ path.length, Boundary (slash :: path) root idx

instance (path root : Str) : Decidable (HasRun path root) :=
  inferInstanceAs (Decidable (∃ idx ≤ path.length, _))

section
variable {m : MetaKv} {root key : Str}

/-- No boundary of `root` in the full key stands before the logical key. Without
a root path the logical key is the full key, and any boundary is inside it. -/
def Direct (m : MetaKv) (root key : Str) : Prop :=
  ∀ idx, Boundary (m.fullKey key) root idx → m.rootPath ≠ [] ∧ m.rootPath.length ≤ idx

instance : Decidable (Direct m root key) :=
  decidable_of_iff (∀ idx < (m.fullKey key).length, Boundary (m.fullKey key) root idx →
      m.rootPath ≠ [] ∧ m.rootPath.length ≤ idx)
    ⟨fun h idx hb => h idx hb.lt_length hb, fun h idx _ => h idx⟩

/-- A string is empty of boundaries or has a first one. -/
theorem boundary_cases (fullKey root : Str) :
    (∀ idx, ¬ Boundary fullKey root idx) ∨
      ∃ idx, Boundary fullKey root idx ∧ ∀ j < idx, ¬ Boundary fullKey root j := by
  by_cases h : ∃ idx, Boundary fullKey root idx
  · exact .inr ⟨Nat.find h, Nat.find_spec h, fun j hj => Nat.find_min h hj⟩
  · exact .inl (not_exists.mp h)

theorem stripRootPath_fullKey_iff (h : Beneath root key) :
    stripRootPath (m.fullKey key) root = .ok key ↔ Direct m root key := by
  cases boundary_cases (m.fullKey key) root with
  | inl none =>
    -- Only an empty root path leaves the key without a boundary.
    have unrooted : m.rootPath = [] := by
      by_contra rooted
      exact none _ (fullKey_boundary rooted h)
    have same : m.fullKey key = key := if_pos unrooted
    rw [stripRootPath_none none, same, if_pos h]
    exact ⟨fun _ idx hb => absurd hb (none idx), fun _ => rfl⟩
  | inr found =>
    obtain ⟨idx, hb, first⟩ := found
    have inside := hb.lt_length
    rw [stripRootPath_first hb first]
    constructor
    · intro same
      have length := congrArg List.length (Except.ok.inj same)
      rw [List.length_drop] at length
      intro j hj
      have le : idx ≤ j := by
        by_contra lt
        exact first j (by omega) hj
      by_cases unrooted : m.rootPath = []
      · rw [show m.fullKey key = key from if_pos unrooted] at length inside
        omega
      · rw [MetaKv.fullKey_eq unrooted, List.length_append, List.length_cons] at length
        exact ⟨unrooted, by omega⟩
    · intro direct
      obtain ⟨rooted, le⟩ := direct idx hb
      have last : idx ≤ m.rootPath.length := by
        by_contra lt
        exact first _ (by omega) (fullKey_boundary rooted h)
      rw [show idx = m.rootPath.length by omega, MetaKv.drop_fullKey rooted]

/-- `stripRootPath` returns the logical key exactly for the keys that are direct,
and tells those apart. -/
theorem stripRootPath_undoes_iff (m : MetaKv) (root : Str) :
    (∀ key, Beneath root key →
      (stripRootPath (m.fullKey key) root = .ok key ↔ Direct m root key)) ∧
    ∀ k k', Beneath root k → Beneath root k' → Direct m root k → Direct m root k' →
      stripRootPath (m.fullKey k) root = stripRootPath (m.fullKey k') root →
      m.fullKey k = m.fullKey k' := by
  constructor
  · intro key h
    exact stripRootPath_fullKey_iff h
  · intro k k' h h' direct direct' same
    rw [(stripRootPath_fullKey_iff h).mpr direct,
      (stripRootPath_fullKey_iff h').mpr direct'] at same
    rw [Except.ok.inj same]

/-- Two keys that are direct, the rest of one of which has the root again. -/
theorem stripRootPath_undoes_iff_again :
    let m : MetaKv := ⟨str "by-dev/meta", ∅⟩
    let root := str "kv"
    Direct m root (str "kv/x/kv/y") ∧ Direct m root (str "kv/y") ∧
      stripRootPath (m.fullKey (str "kv/x/kv/y")) root = .ok (str "kv/x/kv/y") ∧
      stripRootPath (m.fullKey (str "kv/x/kv/y")) root ≠
        stripRootPath (m.fullKey (str "kv/y")) root := by
  intro m root
  obtain ⟨undoes, tells⟩ := stripRootPath_undoes_iff m root
  have long : Direct m root (str "kv/x/kv/y") := by decide +kernel
  have short : Direct m root (str "kv/y") := by decide +kernel
  have beneath : Beneath root (str "kv/x/kv/y") := by decide +kernel
  refine ⟨long, short, (undoes _ beneath).mpr long, fun same => ?_⟩
  have collapsed := tells _ _ beneath (by decide +kernel) long short same
  exact absurd collapsed (by decide +kernel)

/-- A root that overlaps itself across the end of the root path, and a root that
comes again in a key without a root path: two stored keys then become one. -/
theorem strip_takes_other_run :
    ¬ HasRun (str "x/a") (str "a/a") ∧
    stripRootPath ((⟨str "x/a", ∅⟩ : MetaKv).fullKey (str "a/a")) (str "a/a") =
      .ok (str "a/a/a") ∧
    stripRootPath ((⟨[], ∅⟩ : MetaKv).fullKey (str "kv/kv/x")) (str "kv") = .ok (str "kv/x") ∧
    stripRootPath ((⟨[], ∅⟩ : MetaKv).fullKey (str "kv/x")) (str "kv") = .ok (str "kv/x") := by
  decide +kernel

/-! ## Loading one subtree -/

theorem boundary_below (hm : m.rootPath ≠ []) {j : Nat} :
    Boundary (m.fullKey key) root (m.rootPath.length + 1 + j) ↔ Boundary key root j := by
  rw [boundary_iff, boundary_iff, Nat.add_assoc _ j 1, ← List.drop_drop, MetaKv.drop_fullKey hm,
    ← List.getElem?_drop, MetaKv.drop_fullKey hm]

theorem beneath_of_boundary (hm : m.rootPath ≠ [])
    (h : Boundary (m.fullKey key) root m.rootPath.length) : Beneath root key := by
  rw [boundary_iff, MetaKv.drop_fullKey hm] at h
  exact h.2

/-- A single segment that starts a path is its first segment. -/
theorem beneath_of_append {a b : Str} (segment : slash ∉ root)
    (h : Beneath root (a ++ slash :: b)) : Beneath root a := by
  have whole : a ++ [slash] <+: a ++ slash :: b := by simp
  cases h with
  | inl h => simp [← h] at segment
  | inr h =>
    by_cases longer : root.length < a.length
    · right
      apply List.prefix_of_prefix_length_le h ((List.prefix_append a [slash]).trans whole)
      simpa using longer
    · left
      have starts : a ++ [slash] <+: root ++ [slash] := by
        apply List.prefix_of_prefix_length_le whole h
        simpa using longer
      cases List.prefix_concat_iff.mp starts with
      | inl same => exact List.append_cancel_right same
      | inr inside => exact absurd (inside.subset (by simp)) segment

/-- A segment that the root path does not contain is found at the end of it only. -/
theorem unambiguous_of_segment (hm : m.rootPath ≠ []) (segment : slash ∉ root)
    (apart : ¬ HasRun m.rootPath root) : Unambiguous m root := by
  intro idx hidx hb
  rw [boundary_iff, MetaKv.fullKey_eq hm, List.getElem?_append_left hidx,
    List.drop_append_of_le_length (by omega)] at hb
  apply apart
  refine ⟨idx + 1, by omega, boundary_iff.mpr ⟨hb.1, ?_⟩⟩
  exact beneath_of_append segment hb.2

theorem not_beneath_fullKey (hm : m.rootPath ≠ []) (segment : slash ∉ root)
    (apart : ¬ HasRun m.rootPath root) : ¬ Beneath root (m.fullKey key) := by
  intro h
  rw [MetaKv.fullKey_eq hm] at h
  exact apart ⟨0, Nat.zero_le _, boundary_iff.mpr ⟨rfl, beneath_of_append segment h⟩⟩

/-- The backend returns the entry with those of `root`, but the first segment of
its key is another that merely starts with `root`. -/
structure Sibling (m : MetaKv) (root key value : Str) : Prop where
  stored : m.load key = some value
  starts : root <+: key
  outside : ¬ Beneath root key

/-- `key'` is the rest of `key` from the first later segment on that is `root`. -/
def Tail (root key key' : Str) : Prop :=
  ∃ j, Boundary key root j ∧ (∀ i < j, ¬ Boundary key root i) ∧ key' = key.drop (j + 1)

theorem Tail.beneath {key' : Str} (h : Tail root key key') : Beneath root key' := by
  obtain ⟨j, hb, -, rfl⟩ := h
  exact (boundary_iff.mp hb).2

/-- Where an entry that the backend returns for `root` ends up. -/
def Lands (root key key' : Str) : Prop :=
  Beneath root key ∧ key' = key ∨ ¬ Beneath root key ∧ Tail root key key'

section
variable (hm : m.rootPath ≠ []) (segment : slash ∉ root) (apart : ¬ HasRun m.rootPath root)
include hm segment apart

theorem stripRootPath_lands (starts : root <+: key) {key' : Str} :
    stripRootPath (m.fullKey key) root = .ok key' ↔ Lands root key key' := by
  have unambiguous := unambiguous_of_segment hm segment apart
  by_cases beneath : Beneath root key
  · rw [stripRootPath_fullKey hm unambiguous beneath]
    simp [Lands, beneath, eq_comm]
  · -- A boundary of the full key is one of the logical key.
    have shifted : ∀ idx, Boundary (m.fullKey key) root idx →
        ∃ j, idx = m.rootPath.length + 1 + j ∧ Boundary key root j := by
      intro idx hb
      have after : m.rootPath.length < idx := by
        rcases Nat.lt_trichotomy idx m.rootPath.length with lt | rfl | gt
        · exact absurd hb (unambiguous.before hm starts lt)
        · exact absurd (beneath_of_boundary hm hb) beneath
        · exact gt
      obtain ⟨j, rfl⟩ := Nat.exists_eq_add_of_lt after
      rw [show m.rootPath.length + j + 1 = m.rootPath.length + 1 + j by omega] at hb ⊢
      exact ⟨j, rfl, (boundary_below hm).mp hb⟩
    cases boundary_cases key root with
    | inl none =>
      have clear : ∀ idx, ¬ Boundary (m.fullKey key) root idx := by
        intro idx hb
        obtain ⟨j, -, hj⟩ := shifted idx hb
        exact none j hj
      rw [stripRootPath_none clear, if_neg (not_beneath_fullKey hm segment apart)]
      simp [Lands, beneath, Tail, none]
    | inr found =>
      obtain ⟨j, hb, first⟩ := found
      have firstFull : ∀ idx < m.rootPath.length + 1 + j, ¬ Boundary (m.fullKey key) root idx := by
        intro idx hidx hfull
        obtain ⟨i, rfl, hi⟩ := shifted idx hfull
        exact first i (by omega) hi
      rw [stripRootPath_first ((boundary_below hm).mpr hb) firstFull, Nat.add_assoc _ j 1,
        ← List.drop_drop, MetaKv.drop_fullKey hm]
      constructor
      · intro same
        exact .inr ⟨beneath, j, hb, first, (Except.ok.inj same).symm⟩
      · rintro (⟨h, -⟩ | ⟨-, i, hi, firstI, rfl⟩)
        · exact absurd h beneath
        · rcases Nat.lt_trichotomy i j with lt | rfl | gt
          · exact absurd hi (first i lt)
          · rfl
          · exact absurd hb (firstI j gt)

end

/-- The map that a load builds: under each key the value that was read last of
those that end up there. -/
theorem strip_fold_get {l : List (Str × Str)} {acc out : Map}
    (ok : l.foldlM (fun (out : Map) e => do
      let logical ← stripRootPath e.1 root
      .ok (out.insert logical e.2)) acc = .ok out) (k : Str) :
    out[k]? =
      ((l.reverse.find? fun e => stripRootPath e.1 root = .ok k).map Prod.snd).or acc[k]? := by
  induction l generalizing acc with
  | nil =>
    cases ok
    rfl
  | cons x l ih =>
    rw [List.foldlM_cons] at ok
    cases strip : stripRootPath x.1 root with
    | error e => rw [strip] at ok; cases ok
    | ok kx =>
      rw [strip] at ok
      rw [ih ok, List.reverse_cons, List.find?_append, Std.ExtTreeMap.getElem?_insert]
      cases l.reverse.find? fun e => stripRootPath e.1 root = .ok k with
      | some e => rfl
      | none =>
        by_cases same : kx = k
        · simp [strip, same]
        · simp [strip, same]

theorem strip_fold_ok_iff {l : List (Str × Str)} (acc : Map) :
    (∃ out, l.foldlM (fun (out : Map) e => do
      let logical ← stripRootPath e.1 root
      .ok (out.insert logical e.2)) acc = .ok out) ↔
      ∀ e ∈ l, ∃ k, stripRootPath e.1 root = .ok k := by
  induction l generalizing acc with
  | nil => exact ⟨fun _ => by simp, fun _ => ⟨acc, rfl⟩⟩
  | cons x l ih =>
    rw [List.foldlM_cons, List.forall_mem_cons]
    cases strip : stripRootPath x.1 root with
    | error e =>
      constructor
      · rintro ⟨out, ok⟩
        cases ok
      · rintro ⟨⟨k, impossible⟩, -⟩
        cases impossible
    | ok k =>
      refine (ih (acc.insert k x.2)).trans ?_
      simp

section
variable {l : List (Str × Str)} (sorted : l.Pairwise fun a b => compare a.1 b.1 = .lt)
include sorted

theorem sorted_keys_nodup : (l.map Prod.fst).Nodup := by
  rw [List.Nodup, List.pairwise_map]
  apply sorted.imp
  intro a b lt same
  simp [same] at lt

/-- In key order, the last entry with a property is the one with none after it. -/
theorem find_reverse_iff (p : Str × Str → Bool) (e : Str × Str) : l.reverse.find? p = some e ↔
    e ∈ l ∧ p e = true ∧ ∀ e' ∈ l, compare e.1 e'.1 = .lt → p e' = false := by
  have last : ∀ e, l.reverse.find? p = some e →
      e ∈ l ∧ p e = true ∧ ∀ e' ∈ l, compare e.1 e'.1 = .lt → p e' = false := by
    intro e found
    obtain ⟨he, before, after, split, not⟩ := List.find?_eq_some_iff_append.mp found
    have reversed := List.pairwise_reverse.mpr sorted
    rw [split] at reversed
    refine ⟨List.mem_reverse.mp (List.mem_of_find?_eq_some found), he, ?_⟩
    intro e' he' lt
    rw [← List.mem_reverse, split] at he'
    cases List.mem_append.mp he' with
    | inl h => simpa using not e' h
    | inr h =>
      cases h with
      | head => simp at lt
      | tail _ h =>
        have gt := (List.pairwise_cons.mp (List.pairwise_append.mp reversed).2.1).1 e' h
        exact absurd gt (Std.OrientedCmp.not_lt_of_lt lt)
  refine ⟨last e, ?_⟩
  rintro ⟨he, hp, none⟩
  cases found : l.reverse.find? p with
  | none => exact absurd hp (by simpa using List.find?_eq_none.mp found e (List.mem_reverse.mpr he))
  | some e' =>
    obtain ⟨he', hp', none'⟩ := last e' found
    cases order : compare e.1 e'.1 with
    | lt =>
      rw [none e' he' order] at hp'
      cases hp'
    | eq =>
      have same := Std.LawfulEqCmp.eq_of_compare order
      rw [List.inj_on_of_nodup_map (sorted_keys_nodup sorted) he he' same]
    | gt =>
      rw [none' e he (Std.OrientedCmp.lt_of_gt order)] at hp
      cases hp

end

theorem loadWithPrefix_sorted (m : MetaKv) (root : Str) :
    (m.loadWithPrefix root).Pairwise fun a b => compare a.1 b.1 = .lt :=
  (Std.ExtTreeMap.ordered_keys_toList (t := m.entries)).filter _

theorem mem_loadWithPrefix (hm : m.rootPath ≠ []) {e : Str × Str} :
    e ∈ m.loadWithPrefix root ↔ ∃ k, e.1 = m.fullKey k ∧ root <+: k ∧ m.load k = some e.2 := by
  obtain ⟨ks, eq, -, mem⟩ := loadWithPrefix_eq hm root
  rw [eq, List.mem_map]
  constructor
  · rintro ⟨⟨k, v⟩, hk, rfl⟩
    exact ⟨k, rfl, (mem k v).mp hk⟩
  · rintro ⟨k, hk, h⟩
    exact ⟨(k, e.2), (mem k e.2).mpr h, Prod.ext hk.symm rfl⟩

/-- Every entry of a sibling that a load takes to a key beneath the root carries
the value stored under that key, or is overridden by an entry read after it. -/
def Harmless (m : MetaKv) (root : Str) : Prop :=
  ∀ k v k', Sibling m root k v → Tail root k k' → m.load k' = some v ∨
    ∃ l w, compare (m.fullKey k) (m.fullKey l) = .lt ∧ root <+: l ∧ m.load l = some w ∧
      Lands root l k'

/-- Some entry of a sibling makes a load fail: no later segment of its key is the
root. -/
def Refused (m : MetaKv) (root : Str) : Prop :=
  ∃ k v, Sibling m root k v ∧ ∀ j, ¬ Boundary k root j

section
variable (hm : m.rootPath ≠ []) (segment : slash ∉ root) (apart : ¬ HasRun m.rootPath root)
include hm segment apart

theorem loadLogical_get {out : Map} (ok : loadLogical true m root = .ok out) (k v : Str) :
    out[k]? = some v ↔ ∃ l, root <+: l ∧ m.load l = some v ∧ Lands root l k ∧
      ∀ l' w, compare (m.fullKey l) (m.fullKey l') = .lt → root <+: l' → m.load l' = some w →
        ¬ Lands root l' k := by
  have lands : ∀ l, root <+: l → (stripRootPath (m.fullKey l) root = .ok k ↔ Lands root l k) :=
    fun l starts => stripRootPath_lands hm segment apart starts
  have get : out[k]? = ((m.loadWithPrefix root).reverse.find?
      fun e => stripRootPath e.1 root = .ok k).map Prod.snd :=
    (strip_fold_get ok k).trans (by simp)
  simp only [get, Option.map_eq_some_iff, find_reverse_iff (loadWithPrefix_sorted m root),
    decide_eq_true_eq, decide_eq_false_iff_not]
  constructor
  · rintro ⟨⟨f, w⟩, ⟨he, strip, last⟩, rfl⟩
    obtain ⟨l, rfl, starts, stored⟩ := (mem_loadWithPrefix hm).mp he
    refine ⟨l, starts, stored, (lands l starts).mp strip, ?_⟩
    intro l' w' lt starts' stored' lands'
    exact last (m.fullKey l', w') ((mem_loadWithPrefix hm).mpr ⟨l', rfl, starts', stored'⟩) lt
      ((lands l' starts').mpr lands')
  · rintro ⟨l, starts, stored, landed, last⟩
    refine ⟨(m.fullKey l, v), ⟨?_, (lands l starts).mpr landed, ?_⟩, rfl⟩
    · exact (mem_loadWithPrefix hm).mpr ⟨l, rfl, starts, stored⟩
    · rintro ⟨f, w⟩ he lt strip
      obtain ⟨l', rfl, starts', stored'⟩ := (mem_loadWithPrefix hm).mp he
      exact last l' w lt starts' stored' ((lands l' starts').mp strip)

theorem loadLogical_present {out : Map} (ok : loadLogical true m root = .ok out) {k v : Str}
    (beneath : Beneath root k) (stored : m.load k = some v) : ∃ w, out[k]? = some w := by
  have strip := stripRootPath_fullKey hm (unambiguous_of_segment hm segment apart) beneath
  have mem : (m.fullKey k, v) ∈ m.loadWithPrefix root :=
    (mem_loadWithPrefix hm).mpr ⟨k, rfl, beneath.isPrefix, stored⟩
  have found : ((m.loadWithPrefix root).reverse.find?
      fun e => stripRootPath e.1 root = .ok k).isSome := by
    rw [List.find?_isSome]
    exact ⟨_, List.mem_reverse.mpr mem, decide_eq_true strip⟩
  obtain ⟨e, he⟩ := Option.isSome_iff_exists.mp found
  exact ⟨e.2, (strip_fold_get ok k).trans (by rw [he]; rfl)⟩

/-- A load fails at a sibling without a boundary and at no other entry. -/
theorem loadLogical_ok_iff : (∃ out, loadLogical true m root = .ok out) ↔ ¬ Refused m root := by
  refine Iff.trans (strip_fold_ok_iff (∅ : Map)) ?_
  constructor
  · rintro strips ⟨k, v, sibling, none⟩
    obtain ⟨k', strip⟩ := strips (m.fullKey k, v)
      ((mem_loadWithPrefix hm).mpr ⟨k, rfl, sibling.starts, sibling.stored⟩)
    rcases (stripRootPath_lands hm segment apart sibling.starts).mp strip with
      ⟨h, -⟩ | ⟨-, j, hb, -⟩
    · exact sibling.outside h
    · exact none j hb
  · rintro accepted ⟨f, v⟩ he
    obtain ⟨k, rfl, starts, stored⟩ := (mem_loadWithPrefix hm).mp he
    have lands := @stripRootPath_lands m root k hm segment apart starts
    by_cases beneath : Beneath root k
    · exact ⟨k, lands.mpr (.inl ⟨beneath, rfl⟩)⟩
    · cases boundary_cases k root with
      | inl none => exact absurd ⟨k, v, ⟨stored, starts, beneath⟩, none⟩ accepted
      | inr found =>
        obtain ⟨j, hb, first⟩ := found
        exact ⟨k.drop (j + 1), lands.mpr (.inr ⟨beneath, j, hb, first, rfl⟩)⟩

end

/-- A load that succeeds returns the subtree of its root exactly when no entry of
a sibling gets into it: the load fails at such an entry, or each of them agrees
with what is stored under the key it is taken to or is overridden. -/
theorem loadLogical_subtree_iff {m : MetaKv} {root : Str} (rooted : m.rootPath ≠ [])
    (segment : slash ∉ root) (apart : ¬ HasRun m.rootPath root) :
    (∀ answers out, loadLogical answers m root = .ok out →
      ∀ k v, out[k]? = some v ↔ Beneath root k ∧ m.load k = some v) ↔
      Refused m root ∨ Harmless m root := by
  constructor
  · intro exact_
    by_cases refused : Refused m root
    · exact .inl refused
    · right
      obtain ⟨out, ok⟩ := (loadLogical_ok_iff rooted segment apart).mpr refused
      intro k v k' sibling tail
      by_contra bad
      obtain ⟨differs, last⟩ := not_or.mp bad
      have got : out[k']? = some v := by
        refine (loadLogical_get rooted segment apart ok k' v).mpr
          ⟨k, sibling.starts, sibling.stored, .inr ⟨sibling.outside, tail⟩, ?_⟩
        intro l w lt starts stored lands
        exact last ⟨l, w, lt, starts, stored, lands⟩
      exact differs ((exact_ true out ok k' v).mp got).2
  · intro condition answers out ok
    cases answers with
    | false => cases ok
    | true =>
      have harmless : Harmless m root := by
        apply condition.resolve_left
        exact (loadLogical_ok_iff rooted segment apart).mp ⟨out, ok⟩
      have sound : ∀ k v, out[k]? = some v → Beneath root k ∧ m.load k = some v := by
        intro k v got
        obtain ⟨l, starts, stored, lands, last⟩ :=
          (loadLogical_get rooted segment apart ok k v).mp got
        rcases lands with ⟨beneath, rfl⟩ | ⟨outside, tail⟩
        · exact ⟨beneath, stored⟩
        · refine ⟨tail.beneath, ?_⟩
          rcases harmless l v k ⟨stored, starts, outside⟩ tail with same | ⟨l', w, lt, h⟩
          · exact same
          · exact absurd h.2.2 (last l' w lt h.1 h.2.1)
      intro k v
      refine ⟨sound k v, ?_⟩
      rintro ⟨beneath, stored⟩
      obtain ⟨w, got⟩ := loadLogical_present rooted segment apart ok beneath stored
      rw [got, ← (sound k w got).2, stored]

end

/-- The sibling's entry is read first and then overridden by `kv/x` itself. -/
def overridden : MetaKv where
  rootPath := str "by-dev"
  entries := .ofList [(str "by-dev/kv-store/kv/x", str "2"), (str "by-dev/kv/x", str "1")]

theorem overridden_harmless : Harmless overridden (str "kv") := by
  intro k v k' sibling tail
  have mem : (overridden.fullKey k, v) ∈ overridden.entries.toList :=
    Std.ExtTreeMap.mem_toList_iff_getElem?_eq_some.mpr sibling.stored
  rw [show overridden.entries.toList = [(str "by-dev/kv-store/kv/x", str "2"),
    (str "by-dev/kv/x", str "1")] by decide +kernel, List.mem_cons, List.mem_singleton] at mem
  have key := MetaKv.drop_fullKey (m := overridden) (by decide) k
  cases mem with
  | inl first =>
    obtain ⟨full, rfl⟩ := Prod.mk.inj first
    rw [full] at key
    subst key
    obtain ⟨j, hb, none, rfl⟩ := tail
    have before : ∀ i < 8, ¬ Boundary (str "kv-store/kv/x") (str "kv") i := by decide +kernel
    have found : Boundary (str "kv-store/kv/x") (str "kv") 8 := by decide +kernel
    have at_ : j = 8 := by
      rcases Nat.lt_trichotomy j 8 with lt | eq | gt
      · exact absurd hb (before j lt)
      · exact eq
      · exact absurd found (none 8 gt)
    subst at_
    right
    exact ⟨str "kv/x", str "1", by decide +kernel, by decide +kernel, by decide +kernel,
      .inl ⟨by decide +kernel, by decide +kernel⟩⟩
  | inr second =>
    obtain ⟨full, rfl⟩ := Prod.mk.inj second
    rw [full] at key
    subst key
    exact absurd (by decide +kernel) sibling.outside

theorem loadLogical_subtree_overridden : ∃ out,
    loadLogical true overridden (str "kv") = .ok out ∧
    ∀ k v, out[k]? = some v ↔ Beneath (str "kv") k ∧ overridden.load k = some v := by
  have exact_ := (loadLogical_subtree_iff (m := overridden) (by decide) (by decide)
    (by decide +kernel)).mpr (.inr overridden_harmless)
  have succeeds : (loadLogical true overridden (str "kv")).isOk = true := by decide +kernel
  cases ok : loadLogical true overridden (str "kv") with
  | error e => rw [ok] at succeeds; cases succeeds
  | ok out => exact ⟨out, rfl, exact_ true out ok⟩

/-- The first segment `kv0` comes after `kv` in key order, `kv-store` before it:
one entry overrides a value, the other appears under a key that is not stored. -/
theorem sibling_in_subtree :
    let m : MetaKv := ⟨str "by-dev", .ofList [(str "by-dev/kv-store/kv/y", str "3"),
      (str "by-dev/kv/x", str "1"), (str "by-dev/kv0/kv/x", str "2")]⟩
    ¬ HasRun m.rootPath (str "kv") ∧ m.load (str "kv/x") = some (str "1") ∧
    m.load (str "kv/y") = none ∧
    (loadLogical true m (str "kv")).toOption.map Std.ExtTreeMap.toList =
      some [(str "kv/x", str "2"), (str "kv/y", str "3")] := by
  decide +kernel

end MilvusCatalog.Migration
