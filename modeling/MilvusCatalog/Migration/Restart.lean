import MilvusCatalog.Migration.Diff

/-! A migration as an operator runs it: copy again until a copy returns without
an error, then compare. -/
namespace MilvusCatalog.Migration
open Go Attempt

/-- Copies that have failed so far, each at a point of its own. Nothing else
writes to the two stores. -/
inductive Attempts (roots : List Str) (src dst : MetaKv) : MetaKv → MetaKv → Prop
  | none : Attempts roots src dst src dst
  | failed {src₁ dst₁ : MetaKv} (env : Env) {e : Failure} {c : Copying} :
      Attempts roots src dst src₁ dst₁ → copyPrefixes env src₁ dst₁ roots = .error (e, c) →
      Attempts roots src dst c.src c.dst

section
variable {src dst src₁ dst₁ : MetaKv} {roots : List Str} {env : Env} {c : Copying}

theorem Attempts.within (hs : Readable src roots) (h : Attempts roots src dst src₁ dst₁) :
    src₁ = src ∧ Within src dst roots dst₁ := by
  induction h with
  | none => exact ⟨rfl, rfl, fun _ _ => rfl⟩
  | failed env _ stop ih =>
    obtain ⟨rfl, within⟩ := ih
    have sound := copyPrefixes_sound env hs within
    rw [stop] at sound
    exact ⟨sound.source, sound.dst⟩

theorem Within.load_eq (h : Within src dst roots dst₁) {k : Str}
    (other : ∀ v, ¬ Wanted src roots k v) : dst₁.load k = dst.load k := by
  rw [MetaKv.load, h.fullKey]
  apply h.untouched
  intro k' v hw same
  exact other v (MetaKv.fullKey_injective same ▸ hw)

/-- The destination stays readable: what is added to it was readable in the
source. -/
theorem Within.readable (hs : Readable src roots) (hd : Readable dst roots)
    (h : Within src dst roots dst₁) : Readable dst₁ roots where
  rooted := h.rootPath ▸ hd.rooted
  unambiguous root hr := by
    intro idx hlt
    rw [h.fullKey]
    exact hd.unambiguous root hr idx (h.rootPath ▸ hlt)
  segmented root hr := by
    intro k stored starts
    by_cases wanted : ∃ v, Wanted src roots k v
    · obtain ⟨v, hw⟩ := wanted
      exact hs.segmented root hr k (by simp [hw.stored]) starts
    · rw [h.load_eq (not_exists.mp wanted)] at stored
      exact hd.segmented root hr k stored starts

theorem keys_count {m : MetaKv} (h : Readable m roots) {root : Str} (hr : root ∈ roots) :
    (m.loadWithPrefix root).length = Set.ncard {k | Beneath root k ∧ m.load k ≠ none} := by
  obtain ⟨ks, eq, distinct, mem⟩ := loadWithPrefix_eq h.rooted root
  have keys : {k | Beneath root k ∧ m.load k ≠ none} = ((ks.map Prod.fst).toFinset : Set Str) := by
    ext k
    simp only [Set.mem_ofPred_eq, List.coe_toFinset, List.mem_map, Prod.exists, exists_and_right,
      exists_eq_right, mem]
    constructor
    · rintro ⟨hb, stored⟩
      obtain ⟨v, hv⟩ := Option.ne_none_iff_exists'.mp stored
      exact ⟨v, hb.isPrefix, hv⟩
    · rintro ⟨v, starts, hv⟩
      have stored : m.load k ≠ none := by simp [hv]
      exact ⟨h.segmented root hr k stored starts, stored⟩
  rw [keys, Set.ncard_coe_finset, List.toFinset_card_of_nodup distinct, eq]
  simp

/-- What the comparison has to report once every wanted entry has arrived. -/
theorem differs_copied (h : Within src dst roots dst₁)
    (arrived : ∀ k v, Wanted src roots k v → dst₁.load k = some v) {srcKV dstKV : Map}
    (loadedSrc : LoadedRoots src roots srcKV) (loadedDst : LoadedRoots dst₁ roots dstKV)
    (k : Str) (reason : Reason) : differs srcKV[k]? dstKV[k]? = some reason ↔
      reason = .missingInSrc ∧ Under roots k ∧ src.load k = none ∧ dst.load k ≠ none := by
  cases hk : srcKV[k]? with
  | some v =>
    have hw := (loadedSrc k v).mp hk
    have same : dstKV[k]? = some v := (loadedDst k v).mpr ⟨hw.under, arrived k v hw⟩
    simp [same, differs, hw.stored]
  | none =>
    have other : ∀ v, ¬ Wanted src roots k v := by
      intro v hw
      rw [(loadedSrc k v).mpr hw] at hk
      cases hk
    cases hd : dstKV[k]? with
    | some v =>
      obtain ⟨under, stored⟩ := (loadedDst k v).mp hd
      have absent : src.load k = none := by
        by_contra present
        obtain ⟨w, hw⟩ := Option.ne_none_iff_exists'.mp present
        exact other w ⟨under, hw⟩
      rw [h.load_eq other] at stored
      simp [differs, under, absent, stored, eq_comm]
    | none =>
      simp only [differs, reduceCtorEq, false_iff]
      rintro ⟨-, under, -, present⟩
      rw [← h.load_eq other] at present
      obtain ⟨v, hv⟩ := Option.ne_none_iff_exists'.mp present
      rw [(loadedDst k v).mpr ⟨under, hv⟩] at hd
      cases hd

/-- After any failed attempts, a copy that returns without an error has brought
every key of the source under the roots over and left every other key of the
destination as it was before the first attempt. Its count is the number of
source keys of each root, and a comparison then lists the keys that only the
destination has, in order. -/
theorem restarted_copy_faithful (hs : Readable src roots) (hd : Readable dst roots)
    (earlier : Attempts roots src dst src₁ dst₁) (ok : copyPrefixes env src₁ dst₁ roots = .ok c) :
    (∀ k v, Under roots k → src.load k = some v → c.dst.load k = some v) ∧
    (∀ f, (∀ k, Under roots k → src.load k ≠ none → f ≠ dst.fullKey k) →
      c.dst.entries[f]? = dst.entries[f]?) ∧
    c.src = src ∧
    c.copied = (roots.map fun root => Set.ncard {k | Beneath root k ∧ src.load k ≠ none}).sum ∧
    ∀ later : Env, (∀ n, later.answers n = true) →
      ∃ ds, diffPrefixes later c.src c.dst roots = .ok ds ∧
        ds.Pairwise (fun a b => compare a.key b.key = .lt) ∧
        ∀ m, m ∈ ds ↔ m.reason = .missingInSrc ∧ Under roots m.key ∧ src.load m.key = none ∧
          dst.load m.key ≠ none := by
  obtain ⟨rfl, within⟩ := earlier.within hs
  have sound : Sound src₁ dst roots c := .of_ok (copyPrefixes_sound env hs within) ok
  obtain ⟨count, arrived⟩ := copyPrefixes_ok hs within ok
  refine ⟨fun k v under stored => arrived k v ⟨under, stored⟩, ?_, sound.source, ?_, ?_⟩
  · intro f other
    apply sound.dst.untouched
    intro k v hw
    exact other k hw.under (by simp [hw.stored])
  · rw [count]
    congr 1
    apply List.map_congr_left
    intro root hr
    exact keys_count hs hr
  · intro later answers
    obtain ⟨srcKV, dstKV, ds, loadedSrc, loadedDst, ok, sorted, mem⟩ :=
      diffPrefixes_ok hs (sound.dst.readable hs hd) answers
    refine ⟨ds, sound.source ▸ ok, sorted, ?_⟩
    intro m
    rw [mem]
    exact differs_copied sound.dst arrived loadedSrc loadedDst m.key m.reason

end

/-! The first attempt fails although its one batch is written; the second one
gets through. The two roots overlap, and the destination has a key of its own. -/

def sampleRoots : List Str := [str "db", str "db/1"]

def sampleSrc : MetaKv where
  rootPath := str "by-dev/meta"
  entries := .ofList [(str "by-dev/meta/db/1", str "x"), (str "by-dev/meta/db/1/a", str "y"),
    (str "by-dev/meta/dc", str "z")]

def sampleDst : MetaKv where
  rootPath := str "pooled"
  entries := .ofList [(str "pooled/db/1", str "old"), (str "pooled/db/2", str "w")]

def inOrder : Order := ⟨id, fun l => .refl l⟩

def ends (o : Saved) : Env := ⟨fun _ => true, fun _ => inOrder, fun _ => o⟩

theorem sampleSrc_readable : Readable sampleSrc sampleRoots where
  rooted := by decide
  unambiguous := by decide +kernel
  segmented root hr := by
    apply Segmented.of_entries (by decide)
    revert root
    decide +kernel

theorem sampleDst_readable : Readable sampleDst sampleRoots where
  rooted := by decide
  unambiguous := by decide +kernel
  segmented root hr := by
    apply Segmented.of_entries (by decide)
    revert root
    decide +kernel

theorem restarted_copy_faithful_secondAttempt : ∃ e c₁ c,
    copyPrefixes (ends (.failed true)) sampleSrc sampleDst sampleRoots = .error (e, c₁) ∧
    copyPrefixes (ends .ok) c₁.src c₁.dst sampleRoots = .ok c ∧
    c.dst.load (str "db/1") = some (str "x") ∧ c.src = sampleSrc := by
  obtain ⟨e, stops⟩ := eq_error_final
    (x := copyPrefixes (ends (.failed true)) sampleSrc sampleDst sampleRoots) (by decide +kernel)
  have passes := eq_ok_final (x := copyPrefixes (ends .ok)
    (final (copyPrefixes (ends (.failed true)) sampleSrc sampleDst sampleRoots)).src
    (final (copyPrefixes (ends (.failed true)) sampleSrc sampleDst sampleRoots)).dst sampleRoots)
    (by decide +kernel)
  obtain ⟨arrived, -, same, -⟩ := restarted_copy_faithful sampleSrc_readable sampleDst_readable
    (.failed _ .none stops) passes
  refine ⟨e, _, _, stops, passes, ?_, same⟩
  exact arrived (str "db/1") (str "x") (by decide +kernel) (by decide +kernel)

end MilvusCatalog.Migration
