import Mathlib

/-! Go strings and the parts of `strconv` and `path` that key layouts use. A
string is its bytes; nothing here assumes valid UTF-8. -/
namespace Go

abbrev Str := List UInt8

/-- A string literal of the source, as bytes. -/
def str (s : String) : Str := s.toUTF8.data.toList

def slash : UInt8 := 47

/-! ## Decimal numbers -/

/-- `strconv.FormatUint(n, 10)`. -/
def decimal (n : Nat) : Str :=
  if n = 0 then str "0" else (Nat.digits 10 n).reverse.map fun d => UInt8.ofNat (48 + d)

/-- `strconv.Itoa`, and `strconv.FormatInt` in base 10. -/
def itoa (n : Int) : Str :=
  if n < 0 then 45 :: decimal n.natAbs else decimal n.natAbs

/-- One digit of the accumulating loop; any other byte is a syntax error. -/
def readDigit (n : Nat) (b : UInt8) : Option Nat :=
  if 48 ≤ b.toNat ∧ b.toNat ≤ 57 then some (n * 10 + (b.toNat - 48)) else none

/-- `strconv.Atoi` on a 64-bit platform, and `strconv.ParseInt(s, 10, 64)`:
an optional sign, then at least one digit, then the range check. -/
def atoi (s : Str) : Option Int :=
  let negative := s.head? = some 45
  let digits := if s.head? = some 45 ∨ s.head? = some 43 then s.tail else s
  if digits = [] then none
  else match digits.foldlM readDigit 0 with
    | none => none
    | some n =>
      if negative then (if n ≤ 2 ^ 63 then some (-(n : Int)) else none)
      else if n < 2 ^ 63 then some (n : Int) else none

theorem readDigit_ofNat (n d : Nat) (hd : d < 10) :
    readDigit n (UInt8.ofNat (48 + d)) = some (n * 10 + d) := by
  have hb : (UInt8.ofNat (48 + d)).toNat = 48 + d := by
    rw [UInt8.toNat_ofNat', Nat.mod_eq_of_lt (by omega)]
  simp only [readDigit, hb]
  rw [if_pos (by omega)]
  congr 1
  omega

theorem readDigits_ofDigits (ds : List Nat) (hd : ∀ d ∈ ds, d < 10) :
    (ds.reverse.map fun d => UInt8.ofNat (48 + d)).foldlM readDigit 0 =
      some (Nat.ofDigits 10 ds) := by
  induction ds with
  | nil => rfl
  | cons d ds ih =>
    have hds := ih fun x hx => hd x (List.mem_cons_of_mem d hx)
    rw [List.reverse_cons, List.map_append, List.foldlM_append, hds]
    simp only [List.map_cons, List.map_nil, Option.bind_eq_bind, Option.bind_some,
      List.foldlM_cons, List.foldlM_nil, Option.pure_def, Nat.ofDigits_cons]
    rw [readDigit_ofNat _ _ (hd d List.mem_cons_self), Option.bind_some]
    congr 1
    ring

theorem readDigits_decimal (n : Nat) : (decimal n).foldlM readDigit 0 = some n := by
  unfold decimal
  split
  · next h => subst h; rfl
  · rw [readDigits_ofDigits _ fun d hd => Nat.digits_lt_base (by omega) hd, Nat.ofDigits_digits]

/-- A decimal numeral starts with a digit, so it is never read as a sign. -/
theorem decimal_head (n : Nat) : ∃ b, (decimal n).head? = some b ∧ 48 ≤ b.toNat ∧ b.toNat ≤ 57 := by
  unfold decimal
  split
  · exact ⟨48, rfl, by decide, by decide⟩
  · next h =>
    have hne := Nat.digits_ne_nil_iff_ne_zero (b := 10).mpr h
    have hlt := Nat.digits_lt_base (b := 10) (by omega) (List.getLast_mem hne)
    refine ⟨UInt8.ofNat (48 + (Nat.digits 10 n).getLast hne), ?_, ?_, ?_⟩
    · rw [List.head?_map, List.head?_reverse, List.getLast?_eq_some_getLast hne]
      rfl
    all_goals
      rw [UInt8.toNat_ofNat', Nat.mod_eq_of_lt (by omega)]
      omega

/-- A printed number is read back unless it is out of range. -/
theorem atoi_itoa (n : Nat) : atoi (itoa n) = if n < 2 ^ 63 then some (n : Int) else none := by
  obtain ⟨b, hb, lo, hi⟩ := decimal_head n
  have h45 : b ≠ 45 := by rintro rfl; exact absurd lo (by decide)
  have h43 : b ≠ 43 := by rintro rfl; exact absurd lo (by decide)
  have hne : decimal n ≠ [] := by intro h; simp [h] at hb
  have hi' : itoa n = decimal n := by simp [itoa]
  simp only [atoi, hi', hb, Option.some.injEq, h45, h43, or_self, ↓reduceIte, hne,
    readDigits_decimal]

theorem decimal_ne_nil (n : Nat) : decimal n ≠ [] := by
  obtain ⟨b, hb, -⟩ := decimal_head n
  intro h
  simp [h] at hb

/-- Every `int64` is read back, the least one included. -/
theorem atoi_itoa_int64 {n : Int} (lo : -2 ^ 63 ≤ n) (hi : n < 2 ^ 63) :
    atoi (itoa n) = some n := by
  by_cases negative : n < 0
  · have printed : itoa n = 45 :: decimal n.natAbs := if_pos negative
    have range : n.natAbs ≤ 2 ^ 63 := by omega
    have back : -(n.natAbs : Int) = n := by omega
    simp only [atoi, printed, List.head?_cons, true_or, ↓reduceIte, List.tail_cons,
      decimal_ne_nil, readDigits_decimal, range, back]
  · obtain ⟨k, rfl⟩ := Int.eq_ofNat_of_zero_le (not_lt.mp negative)
    rw [atoi_itoa, if_pos (by omega)]

theorem itoa_injective {m n : Nat} (h : itoa m = itoa n) : m = n := by
  have hm := readDigits_decimal m
  simp only [itoa, Int.natCast_nonneg, not_lt_of_ge, ↓reduceIte, Int.natAbs_natCast] at h
  rw [h, readDigits_decimal] at hm
  exact (Option.some.inj hm).symm

/-! ## Paths -/

/-- One name of the path, against the names kept so far (last one first). -/
def cleanStep (rooted : Bool) (names : List Str) (name : Str) : List Str :=
  if name = [] ∨ name = str "." then names
  else if name = str ".." then
    match names with
    | [] => if rooted then [] else [name]
    | last :: rest => if last = str ".." then name :: names else rest
  else name :: names

def rooted (p : Str) : Bool := p.head? = some slash

/-- The names `path.Clean` keeps of `p`, in order. -/
def names (p : Str) : List Str :=
  ((p.splitOn slash).foldl (cleanStep (rooted p)) []).reverse

/-- `path.Clean`. -/
def clean (p : Str) : Str :=
  let body := [slash].intercalate (names p)
  if rooted p then slash :: body
  else if body = [] then str "."
  else body

/-- `path.Join`. -/
def join (elems : List Str) : Str :=
  let elems := elems.filter (· ≠ [])
  if elems = [] then [] else clean ([slash].intercalate elems)

/-- A name that `path.Clean` keeps as it is. -/
structure Plain (name : Str) : Prop where
  nonempty : name ≠ []
  noSlash : slash ∉ name
  notDot : name ≠ str "."
  notDotDot : name ≠ str ".."

theorem decimal_digits (n : Nat) : ∀ b ∈ decimal n, 48 ≤ b.toNat ∧ b.toNat ≤ 57 := by
  unfold decimal
  split
  · decide +kernel
  · intro b hb
    obtain ⟨d, hd, rfl⟩ := List.mem_map.mp hb
    have hlt := Nat.digits_lt_base (b := 10) (by omega) (List.mem_reverse.mp hd)
    rw [UInt8.toNat_ofNat', Nat.mod_eq_of_lt (by omega)]
    omega

theorem itoa_plain (n : Nat) : Plain (itoa n) := by
  have eq : itoa n = decimal n := by simp [itoa]
  obtain ⟨b, hb, lo, -⟩ := decimal_head n
  rw [eq]
  constructor
  · intro h; simp [h] at hb
  · intro h; exact absurd (decimal_digits n _ h).1 (by decide)
  · intro h
    rw [h, show (str ".").head? = some 46 by decide, Option.some.injEq] at hb
    exact absurd (hb ▸ lo) (by decide)
  · intro h
    rw [h, show (str "..").head? = some 46 by decide, Option.some.injEq] at hb
    exact absurd (hb ▸ lo) (by decide)

theorem cleanStep_plain {name : Str} (h : Plain name) (rooted : Bool) (kept : List Str) :
    cleanStep rooted kept name = name :: kept := by
  simp [cleanStep, h.nonempty, h.notDot, h.notDotDot]

theorem cleanSteps_plain (ns : List Str) (h : ∀ name ∈ ns, Plain name) (rooted : Bool)
    (kept : List Str) : ns.foldl (cleanStep rooted) kept = ns.reverse ++ kept := by
  induction ns generalizing kept with
  | nil => rfl
  | cons name ns ih =>
    rw [List.foldl_cons, cleanStep_plain (h name List.mem_cons_self),
      ih fun n hn => h n (List.mem_cons_of_mem name hn)]
    simp

theorem intercalate_ne_nil {ns : List Str} (h : ∀ name ∈ ns, Plain name) (hne : ns ≠ []) :
    [slash].intercalate ns ≠ [] := by
  obtain ⟨name, rest, rfl⟩ := List.exists_cons_of_ne_nil hne
  have hn := (h name List.mem_cons_self).nonempty
  cases rest with
  | nil => simpa using hn
  | cons => simp [List.intercalate_cons_cons, hn]

theorem plain_not_rooted {ns : List Str} (h : ∀ name ∈ ns, Plain name) (hne : ns ≠ []) :
    rooted ([slash].intercalate ns) = false := by
  obtain ⟨name, rest, rfl⟩ := List.exists_cons_of_ne_nil hne
  have hp := h name List.mem_cons_self
  obtain ⟨b, name, rfl⟩ := List.exists_cons_of_ne_nil hp.nonempty
  have hb : b ≠ slash := fun e => hp.noSlash (e ▸ List.mem_cons_self)
  cases rest <;> simp [rooted, List.intercalate_cons_cons, hb]

/-- What `path.Join` puts before the names that follow its first element. -/
def dir (p : Str) : Str :=
  if p = [] then []
  else (if rooted p then [slash] else []) ++ ((names p).map (· ++ [slash])).flatten

theorem intercalate_append_names (kept : List Str) {ns : List Str} (hne : ns ≠ []) :
    [slash].intercalate (kept ++ ns) =
      (kept.map (· ++ [slash])).flatten ++ [slash].intercalate ns := by
  induction kept with
  | nil => rfl
  | cons k kept ih =>
    obtain ⟨name, rest, e⟩ := List.exists_cons_of_ne_nil (l := kept ++ ns) (by simp [hne])
    rw [List.cons_append, e, List.intercalate_cons_cons, ← e, ih]
    simp

/-- Joining plain names onto any first element only appends them to its
cleaned directory, whatever dots and slashes that element holds. -/
theorem join_plain (p : Str) {ns : List Str} (h : ∀ name ∈ ns, Plain name) (hne : ns ≠ []) :
    join (p :: ns) = dir p ++ [slash].intercalate ns := by
  have keep : ns.filter (· ≠ []) = ns :=
    List.filter_eq_self.mpr fun name hn => by simp [(h name hn).nonempty]
  have split : ([slash].intercalate ns).splitOn slash = ns :=
    List.splitOn_intercalate slash (fun name hn => (h name hn).noSlash) hne
  by_cases hp : p = []
  · subst hp
    have nr := plain_not_rooted h hne
    have body : names ([slash].intercalate ns) = ns := by
      simp [names, split, nr, cleanSteps_plain ns h]
    simp only [join, ne_eq, List.filter_cons, not_true_eq_false, decide_false, Bool.false_eq_true,
      ↓reduceIte, keep, hne, clean, nr, body, intercalate_ne_nil h hne, dir, List.nil_append]
  · obtain ⟨b, p, rfl⟩ := List.exists_cons_of_ne_nil hp
    obtain ⟨name, rest, e⟩ := List.exists_cons_of_ne_nil hne
    have whole : [slash].intercalate ((b :: p) :: ns) =
        (b :: p) ++ slash :: [slash].intercalate ns := by
      rw [e, List.intercalate_cons_cons]
      simp
    have same : rooted ((b :: p) ++ slash :: [slash].intercalate ns) = rooted (b :: p) := by
      simp [rooted]
    have body : names ((b :: p) ++ slash :: [slash].intercalate ns) = names (b :: p) ++ ns := by
      simp only [names, same, List.splitOn_append_cons_self, split, List.foldl_append,
        cleanSteps_plain ns h, List.reverse_append, List.reverse_reverse]
    have nonempty : [slash].intercalate (names (b :: p) ++ ns) ≠ [] := by
      rw [intercalate_append_names _ hne]
      simp [intercalate_ne_nil h hne]
    simp only [join, ne_eq, List.filter_cons, reduceCtorEq, not_false_eq_true, decide_true,
      ↓reduceIte, keep, whole, clean, same, body, nonempty, dir]
    rw [intercalate_append_names _ hne]
    cases rooted (b :: p) <;> simp

example : join [str "/a/../b//", str "members"] = str "/b/members" := by decide +kernel

/-! ## Substrings -/

/-- `strings.Index`, with no result where it returns -1. -/
def index (s sub : Str) : Option Nat :=
  if sub.isPrefixOf s then some 0
  else match s with
    | [] => none
    | _ :: rest => (index rest sub).map (· + 1)

theorem index_some {s sub : Str} {i : Nat} (h : index s sub = some i) : sub <+: s.drop i := by
  induction s generalizing i with
  | nil =>
    unfold index at h
    split at h
    · next hp => cases h; simpa using hp
    · cases h
  | cons b s ih =>
    unfold index at h
    split at h
    · next hp => cases h; simpa using hp
    · obtain ⟨j, hj, rfl⟩ := Option.map_eq_some_iff.mp h
      exact ih hj

/-- The occurrence found is the first one. -/
theorem index_le {s sub : Str} {j : Nat} (h : sub <+: s.drop j) :
    ∃ i ≤ j, index s sub = some i := by
  induction s generalizing j with
  | nil =>
    have : sub = [] := by simpa using h
    subst this
    exact ⟨0, Nat.zero_le j, rfl⟩
  | cons b s ih =>
    unfold index
    by_cases hp : sub.isPrefixOf (b :: s) = true
    · exact ⟨0, Nat.zero_le j, if_pos hp⟩
    · cases j with
      | zero => exact absurd (by simpa using h) hp
      | succ j =>
        obtain ⟨i, hi, found⟩ := ih h
        exact ⟨i + 1, Nat.succ_le_succ hi, by simp [hp, found]⟩

end Go
