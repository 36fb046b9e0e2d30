/-
# Tables: finite maps kept in key order

A table is a finite map whose rows are listed in key order, which is what an
ordered map in memory and a key/value table on disk both are. Lookup after an
insert or an erase is a case split on the key (`getElem?_insert'`,
`getElem?_erase'`), two tables with the same lookups are equal
(`Std.ExtTreeMap.ext_getElem?`), and a sum over the rows moves by the row that
an insert or an erase touches (`total_insert`, `total_erase`).
-/
import Mathlib

/-- A finite map listed in key order. -/
abbrev Table (κ ν : Type) [Ord κ] : Type := Std.ExtTreeMap κ ν compare

/-- Keys of two parts, compared part by part. -/
instance lawfulEqOrdLex {α β : Type} [Ord α] [Ord β] [Std.LawfulEqOrd α] [Std.LawfulEqOrd β] :
    Std.LawfulEqOrd (α ×ₗ β) where
  compare_self := by
    rw [Prod.Lex.compare_def]
    simp [compareLex, compareOn]
  eq_of_compare h := by
    rw [Prod.Lex.compare_def] at h
    simp only [compareLex_eq_eq, compareOn, Std.compare_eq_iff_eq] at h
    exact Prod.ext h.1 h.2

namespace Table

variable {κ ν : Type} [Ord κ] [Std.TransOrd κ]

/-- The sum of `f` over the rows. -/
def total (f : ν → ℕ) (t : Table κ ν) : ℕ := (t.toList.map fun r => f r.2).sum

theorem total_add (f g : ν → ℕ) (t : Table κ ν) :
    total (fun v => f v + g v) t = total f t + total g t :=
  List.sum_map_add

variable {t : Table κ ν}

theorem total_eq_zero {f : ν → ℕ} (h : ∀ r ∈ t.toList, f r.2 = 0) : total f t = 0 :=
  List.sum_eq_zero fun n hn => by
    obtain ⟨r, hr, rfl⟩ := List.mem_map.mp hn
    exact h r hr

/-- The sum of `f` over the keys and values of the rows. -/
def weigh (f : κ → ν → ℕ) (t : Table κ ν) : ℕ := (t.toList.map fun r => f r.1 r.2).sum

theorem weigh_empty (f : κ → ν → ℕ) : weigh f (∅ : Table κ ν) = 0 := by
  rw [weigh, Std.ExtTreeMap.toList_eq_nil_iff.mpr rfl]; rfl

/-- How many rows have a key with `p`. -/
def tally (p : κ → Bool) (t : Table κ ν) : ℕ := t.toList.countP fun r => p r.1

theorem tally_empty (p : κ → Bool) : tally p (∅ : Table κ ν) = 0 := by
  rw [tally, Std.ExtTreeMap.toList_eq_nil_iff.mpr rfl]; rfl

theorem pairwise_filter (t : Table κ ν) (p : κ → Bool) :
    (t.toList.filter fun r => p r.1).Pairwise fun a b => compare a.1 b.1 = .lt :=
  Std.ExtTreeMap.ordered_keys_toList.filter _

variable [Std.LawfulEqOrd κ]

theorem toList_pairwise (t : Table κ ν) : t.toList.Pairwise (fun a b => a.1 ≠ b.1) :=
  (Std.ExtTreeMap.distinct_keys_toList (t := t)).imp fun h he =>
    h (by rw [he]; exact Std.ReflCmp.compare_self)

theorem nodup_toList (t : Table κ ν) : t.toList.Nodup :=
  (toList_pairwise t).imp fun h he => h (by rw [he])

theorem mem_toList {r : κ × ν} : r ∈ t.toList ↔ t[r.1]? = some r.2 :=
  Std.ExtTreeMap.mem_toList_iff_getElem?_eq_some

variable {k : κ}

theorem mem_keys : k ∈ t.toList.map Prod.fst ↔ (t[k]?).isSome := by
  rw [List.mem_map, Option.isSome_iff_exists]
  constructor
  · rintro ⟨row, hrow, rfl⟩
    exact ⟨row.2, mem_toList.mp hrow⟩
  · rintro ⟨value, hvalue⟩
    exact ⟨(k, value), mem_toList.mpr hvalue, rfl⟩

variable {p : κ → Bool}

theorem tally_eq_zero (h : ∀ k, p k = true → t[k]? = none) :
    tally p t = 0 := by
  refine List.countP_eq_zero.mpr fun r hr hp => ?_
  rw [mem_toList, h r.1 hp] at hr
  cases hr

/-- Rows in key order are determined by which rows there are. -/
theorem rows_ext {l₁ l₂ : List (κ × ν)} (h₁ : l₁.Pairwise fun a b => compare a.1 b.1 = .lt)
    (h₂ : l₂.Pairwise fun a b => compare a.1 b.1 = .lt) (h : ∀ r, r ∈ l₁ ↔ r ∈ l₂) : l₁ = l₂ := by
  have hnodup : ∀ {l : List (κ × ν)}, l.Pairwise (fun a b => compare a.1 b.1 = .lt) → l.Nodup :=
    fun hl => hl.imp fun hlt he => by
      rw [he, Std.compare_self] at hlt
      cases hlt
  refine ((List.perm_ext_iff_of_nodup (hnodup h₁) (hnodup h₂)).mpr h).eq_of_pairwise ?_ h₁ h₂
  intro a b _ _ hab hba
  rw [Std.OrientedCmp.gt_of_lt hab] at hba
  cases hba

/-! ### Lookup after an insert or an erase -/

variable [DecidableEq κ]

theorem getElem?_insert' (t : Table κ ν) (k a : κ) (v : ν) :
    (t.insert k v)[a]? = if k = a then some v else t[a]? := by
  rw [Std.ExtTreeMap.getElem?_insert]
  simp only [Std.compare_eq_iff_eq]

theorem getElem?_erase' (t : Table κ ν) (k a : κ) :
    (t.erase k)[a]? = if k = a then none else t[a]? := by
  rw [Std.ExtTreeMap.getElem?_erase]
  simp only [Std.compare_eq_iff_eq]

theorem getElem?_insert_self' (t : Table κ ν) (k : κ) (v : ν) : (t.insert k v)[k]? = some v := by
  rw [getElem?_insert', if_pos rfl]

theorem getElem?_insert_ne (t : Table κ ν) {k a : κ} (v : ν) (h : k ≠ a) :
    (t.insert k v)[a]? = t[a]? := by
  rw [getElem?_insert', if_neg h]

theorem getElem?_erase_self' (t : Table κ ν) (k : κ) : (t.erase k)[k]? = none := by
  rw [getElem?_erase', if_pos rfl]

theorem getElem?_erase_ne (t : Table κ ν) {k a : κ} (h : k ≠ a) : (t.erase k)[a]? = t[a]? := by
  rw [getElem?_erase', if_neg h]

omit [DecidableEq κ] in
theorem getElem?_filter_keys (t : Table κ ν) (p : κ → Bool) (a : κ) :
    (t.filter fun k _ => p k)[a]? = if p a then t[a]? else none := by
  refine Option.ext fun v => ?_
  have hrow := mem_toList (t := t.filter fun k _ => p k) (r := (a, v))
  rw [Std.ExtTreeMap.toList_filter, List.mem_filter, mem_toList] at hrow
  rw [← hrow]
  cases p a <;> simp

omit [DecidableEq κ] in
theorem getElem?_filter_values (t : Table κ ν) (p : ν → Bool) (a : κ) :
    (t.filter fun _ v => p v)[a]? = (t[a]?).filter p := by
  refine Option.ext fun v => ?_
  have hrow := mem_toList (t := t.filter fun _ v => p v) (r := (a, v))
  rw [Std.ExtTreeMap.toList_filter, List.mem_filter, mem_toList] at hrow
  rw [← hrow, Option.filter_eq_some_iff]

theorem getElem?_foldl_erase (ks : List κ) (t : Table κ ν) (a : κ) :
    (ks.foldl (fun t k => t.erase k) t)[a]? = if a ∈ ks then none else t[a]? := by
  induction ks generalizing t with
  | nil => simp
  | cons k ks ih =>
    rw [List.foldl_cons, ih, getElem?_erase']
    by_cases h : k = a
    · simp [h]
    · simp [h, Ne.symm h]

/-! ### The rows as a list -/

/-- The rows after an insert: the new row, and the rows of the other keys. -/
theorem toList_insert_perm (t : Table κ ν) (k : κ) (v : ν) :
    (t.insert k v).toList.Perm ((k, v) :: (t.erase k).toList) := by
  refine (List.perm_ext_iff_of_nodup (nodup_toList _) ?_).mpr ?_
  · refine List.nodup_cons.mpr ⟨fun h => ?_, nodup_toList _⟩
    rw [mem_toList, getElem?_erase_self'] at h
    simp at h
  · rintro ⟨a, b⟩
    rw [List.mem_cons, mem_toList, mem_toList, getElem?_insert', getElem?_erase', Prod.mk.injEq]
    by_cases h : k = a
    · subst h
      simp [eq_comm]
    · simp [h, Ne.symm h]

/-- The rows before an erase: the row erased, and the rows left. -/
theorem toList_perm_erase {v : ν} (h : t[k]? = some v) :
    t.toList.Perm ((k, v) :: (t.erase k).toList) := by
  have hins : (t.erase k).insert k v = t := by
    refine Std.ExtTreeMap.ext_getElem? fun a => ?_
    rw [getElem?_insert', getElem?_erase']
    by_cases hk : k = a
    · subst hk; simp [h]
    · simp [hk]
  have herase : (t.erase k).erase k = t.erase k := by
    refine Std.ExtTreeMap.ext_getElem? fun a => ?_
    rw [getElem?_erase', getElem?_erase']
    by_cases hk : k = a <;> simp [hk]
  have hp := toList_insert_perm (t.erase k) k v
  rwa [hins, herase] at hp

theorem erase_eq_self (h : t[k]? = none) : t.erase k = t := by
  refine Std.ExtTreeMap.ext_getElem? fun a => ?_
  rw [getElem?_erase']
  by_cases hk : k = a
  · subst hk; simp [h]
  · simp [hk]

/-- Among the rows of some keys, a row behind all of them is listed last. -/
theorem filter_insert_last (hk : p k = true)
    (h : ∀ r ∈ t.toList, p r.1 = true → compare r.1 k = .lt) (v : ν) :
    (t.insert k v).toList.filter (fun r => p r.1) = t.toList.filter (fun r => p r.1) ++ [(k, v)] := by
  refine rows_ext (pairwise_filter _ p) ?_ ?_
  · refine List.pairwise_append.mpr ⟨pairwise_filter t p, by simp, fun a ha b hb => ?_⟩
    rw [List.mem_singleton.mp hb]
    exact h a (List.mem_filter.mp ha).1 (List.mem_filter.mp ha).2
  · rintro ⟨a, w⟩
    rw [List.mem_append, List.mem_filter, List.mem_filter, mem_toList, mem_toList, getElem?_insert',
      List.mem_singleton, Prod.mk.injEq]
    by_cases hka : k = a
    · subst hka
      -- no row of this key can have been behind itself
      have hnone : ¬t[k]? = some w := fun hw => by
        have hlt := h (k, w) (mem_toList.mpr hw) hk
        rw [Std.compare_self] at hlt
        cases hlt
      simp [hk, hnone, eq_comm]
    · simp [hka, Ne.symm hka]

/-- A row of another key is not among them. -/
theorem filter_insert_of_neg (t : Table κ ν) (hk : p k = false) (v : ν) :
    (t.insert k v).toList.filter (fun r => p r.1) = t.toList.filter (fun r => p r.1) := by
  refine rows_ext (pairwise_filter _ p) (pairwise_filter t p) ?_
  rintro ⟨a, w⟩
  rw [List.mem_filter, List.mem_filter, mem_toList, mem_toList, getElem?_insert']
  by_cases hka : k = a
  · subst hka
    simp [hk]
  · simp [hka]

/-- A row behind all others is listed last. -/
theorem toList_insert_last (h : ∀ r ∈ t.toList, compare r.1 k = .lt) (v : ν) :
    (t.insert k v).toList = t.toList ++ [(k, v)] := by
  have hf := filter_insert_last (p := fun _ => true) rfl (fun r hr _ => h r hr) v
  rwa [List.filter_true, List.filter_true] at hf

theorem toList_erase (t : Table κ ν) (k : κ) :
    (t.erase k).toList = t.toList.filter fun r => decide (r.1 ≠ k) := by
  refine rows_ext Std.ExtTreeMap.ordered_keys_toList (pairwise_filter t fun a => decide (a ≠ k)) ?_
  rintro ⟨a, v⟩
  rw [List.mem_filter, mem_toList, mem_toList, getElem?_erase']
  by_cases hk : k = a
  · simp [hk]
  · simp [hk, Ne.symm hk]

/-- Erasing the rows of some keys one by one leaves the others. -/
theorem foldl_erase_keys (t : Table κ ν) (p : κ → Bool) :
    ((t.toList.map Prod.fst).filter p).foldl (fun t k => t.erase k) t = t.filter fun k _ => !p k := by
  refine Std.ExtTreeMap.ext_getElem? fun a => ?_
  rw [getElem?_foldl_erase, getElem?_filter_keys t fun k => !p k]
  cases hp : p a with
  | false => simp [hp]
  | true =>
    cases hrow : t[a]? with
    | none => simp
    | some v =>
      have hmem : a ∈ (t.toList.map Prod.fst).filter p :=
        List.mem_filter.mpr ⟨List.mem_map.mpr ⟨(a, v), mem_toList.mpr hrow, rfl⟩, hp⟩
      rw [if_pos hmem]
      rfl

variable {ν' : Type}

theorem getElem?_foldl_insert_of_notMem (f : ν' → ν) {a : κ} : ∀ (rows : List (κ × ν'))
    (t : Table κ ν), a ∉ rows.map Prod.fst →
    (rows.foldl (fun t r => t.insert r.1 (f r.2)) t)[a]? = t[a]?
  | [], _, _ => rfl
  | r :: rows, t, h => by
    obtain ⟨hne, hrest⟩ := not_or.mp (mt List.mem_cons.mpr h)
    rw [List.foldl_cons, getElem?_foldl_insert_of_notMem f rows _ hrest,
      getElem?_insert_ne _ _ (Ne.symm hne)]

/-- Inserting rows of distinct keys one by one. -/
theorem getElem?_foldl_insert_of_mem (f : ν' → ν) {a : κ} {v : ν'} : ∀ (rows : List (κ × ν'))
    (t : Table κ ν), rows.Pairwise (fun x y => x.1 ≠ y.1) → (a, v) ∈ rows →
    (rows.foldl (fun t r => t.insert r.1 (f r.2)) t)[a]? = some (f v)
  | r :: rows, t, hkeys, h => by
    obtain ⟨hfirst, hrest⟩ := List.pairwise_cons.mp hkeys
    rw [List.foldl_cons]
    rcases List.mem_cons.mp h with rfl | h
    · rw [getElem?_foldl_insert_of_notMem f rows, getElem?_insert_self']
      intro hmem
      obtain ⟨x, hx, heq⟩ := List.mem_map.mp hmem
      exact hfirst x hx heq.symm
    · exact getElem?_foldl_insert_of_mem f rows _ hrest h

/-! ### Sums over the rows -/

omit [Std.LawfulEqOrd κ] [DecidableEq κ] in
/-- The sum over the rows of some keys. -/
theorem weigh_filter (f : κ → ν → ℕ) (t : Table κ ν) (p : κ → Bool) :
    weigh f (t.filter fun k _ => p k) = weigh (fun k v => if p k then f k v else 0) t := by
  rw [weigh, weigh, Std.ExtTreeMap.toList_filter]
  induction t.toList with
  | nil => rfl
  | cons r rows ih =>
    rw [List.filter_cons, List.map_cons, List.sum_cons, ← ih]
    cases p r.1 <;> simp

omit [DecidableEq κ] in
/-- The sum over a table that has another's values under `g`. -/
theorem weigh_map {t' : Table κ ν'} (g : ν → ν')
    (h : ∀ k : κ, t'[k]? = (t[k]?).map g) (f : κ → ν' → ℕ) :
    weigh f t' = weigh (fun k v => f k (g v)) t := by
  have hrows : t'.toList = t.toList.map fun r => (r.1, g r.2) := by
    refine rows_ext Std.ExtTreeMap.ordered_keys_toList ?_ ?_
    · exact List.pairwise_map.mpr Std.ExtTreeMap.ordered_keys_toList
    · rintro ⟨k, v⟩
      rw [mem_toList, h, List.mem_map, Option.map_eq_some_iff]
      constructor
      · rintro ⟨w, hw, rfl⟩
        exact ⟨(k, w), mem_toList.mpr hw, rfl⟩
      · rintro ⟨⟨k', w⟩, hw, heq⟩
        obtain ⟨rfl, rfl⟩ := Prod.mk.inj heq
        exact ⟨w, mem_toList.mp hw, rfl⟩
  rw [weigh, hrows, List.map_map]
  rfl

/-- Erasing takes the erased row's part out of the sum. -/
theorem total_erase (f : ν → ℕ) (t : Table κ ν) (k : κ) :
    total f (t.erase k) + (t[k]?.elim 0 f) = total f t := by
  cases h : t[k]? with
  | none => rw [erase_eq_self h]; rfl
  | some v =>
    have hp := ((toList_perm_erase h).map fun r => f r.2).sum_eq
    simp only [List.map_cons, List.sum_cons] at hp
    simp only [total, Option.elim_some]
    omega

/-- Inserting puts the new row's part in place of the old one's. -/
theorem total_insert (f : ν → ℕ) (t : Table κ ν) (k : κ) (v : ν) :
    total f (t.insert k v) + (t[k]?.elim 0 f) = total f t + f v := by
  have hp := ((toList_insert_perm t k v).map fun r => f r.2).sum_eq
  simp only [List.map_cons, List.sum_cons] at hp
  have he := total_erase f t k
  simp only [total] at he ⊢
  omega

/-- A row's part is at most the sum. -/
theorem le_total (f : ν → ℕ) {v : ν} (h : t[k]? = some v) :
    f v ≤ total f t := by
  have he := total_erase f t k
  rw [h, Option.elim_some] at he
  omega

theorem weigh_erase (f : κ → ν → ℕ) (t : Table κ ν) (k : κ) :
    weigh f (t.erase k) + (t[k]?.elim 0 (f k)) = weigh f t := by
  cases h : t[k]? with
  | none => rw [erase_eq_self h]; rfl
  | some v =>
    have hp := ((toList_perm_erase h).map fun r => f r.1 r.2).sum_eq
    simp only [List.map_cons, List.sum_cons] at hp
    simp only [weigh, Option.elim_some]
    omega

theorem weigh_insert (f : κ → ν → ℕ) (t : Table κ ν) (k : κ) (v : ν) :
    weigh f (t.insert k v) + (t[k]?.elim 0 (f k)) = weigh f t + f k v := by
  have hp := ((toList_insert_perm t k v).map fun r => f r.1 r.2).sum_eq
  simp only [List.map_cons, List.sum_cons] at hp
  have he := weigh_erase f t k
  simp only [weigh] at he ⊢
  omega

/-! ### How many rows there are of some keys -/

/-- Erasing takes one row away, if there was one. -/
theorem tally_erase (p : κ → Bool) (t : Table κ ν) (k : κ) :
    tally p (t.erase k) + (if t[k]?.isSome ∧ p k then 1 else 0) = tally p t := by
  cases h : t[k]? with
  | none => simp [erase_eq_self h]
  | some v =>
    have hp := (toList_perm_erase h).countP_eq fun r => p r.1
    rw [List.countP_cons] at hp
    simp only [tally, hp, Option.isSome_some, true_and]

/-- Inserting adds one row, unless the key had one. -/
theorem tally_insert (p : κ → Bool) (t : Table κ ν) (k : κ) (v : ν) :
    tally p (t.insert k v) + (if t[k]?.isSome ∧ p k then 1 else 0) =
      tally p t + (if p k then 1 else 0) := by
  have hp := (toList_insert_perm t k v).countP_eq fun r => p r.1
  simp only [List.countP_cons] at hp
  have he := tally_erase p t k
  simp only [tally] at he ⊢
  omega

end Table
