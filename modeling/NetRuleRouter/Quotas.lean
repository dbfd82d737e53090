import Mathlib

/-!
# A quota for each kind

Going through a list, an entry is taken while fewer than the quota of its kind
were. Entries of one kind put in anywhere add at most a quota to what is taken,
and push no more than that many others behind any place of the list.
-/

set_option autoImplicit false

namespace NetRuleRouter.Quotas

section
variable {α κ : Type} [BEq κ] (kind : α → κ) (quota : ℕ)

/-- The entries taken; `held` has the kinds of those taken before. -/
def taken : List κ → List α → List α
  | _, [] => []
  | held, x :: xs =>
    if held.count (kind x) < quota then x :: taken (kind x :: held) xs else taken held xs

/-- The second list is the first with entries of one kind put in. -/
inductive Inserted (k : κ) : List α → List α → Prop where
  | nil : Inserted k [] []
  | keep (x : α) {xs ys : List α} : Inserted k xs ys → Inserted k (x :: xs) (x :: ys)
  | put {x : α} {xs ys : List α} : kind x = k → Inserted k xs ys → Inserted k xs (x :: ys)

end

section
variable {α κ : Type} [BEq κ] [LawfulBEq κ] {kind : α → κ} {quota : ℕ} {k : κ} {held held' : List κ}
variable {x : α} {xs ys : List α}

theorem taken_of_kind : (taken kind quota held xs).countP (kind · == k) ≤ quota - held.count k := by
  induction xs generalizing held with
  | nil => simp [taken]
  | cons x xs ih =>
    rw [taken]
    split_ifs with hroom
    · have hrest := @ih (kind x :: held)
      by_cases hk : kind x = k
      · subst hk
        rw [List.countP_cons_of_pos (by simp)]
        rw [List.count_cons_self] at hrest
        omega
      · rw [List.countP_cons_of_neg (by simpa using hk)]
        rwa [List.count_cons_of_ne hk] at hrest
    · exact ih

theorem others_behind (hx : kind x = k) :
    ∃ held', (∀ j, j ≠ k → held'.count j = held.count j) ∧
      (taken kind quota held (x :: xs)).filter (kind · != k) =
        (taken kind quota held' xs).filter (kind · != k) := by
  rw [taken]
  split_ifs
  · refine ⟨kind x :: held, fun j hj => ?_, ?_⟩
    · rw [List.count_cons_of_ne (hx ▸ hj.symm)]
    · rw [List.filter_cons_of_neg (by simpa using hx)]
  · exact ⟨held, fun _ _ => rfl, rfl⟩

theorem taken_others (h : Inserted kind k xs ys)
    (hheld : ∀ j, j ≠ k → held.count j = held'.count j) :
    (taken kind quota held xs).filter (kind · != k) =
      (taken kind quota held' ys).filter (kind · != k) := by
  induction h generalizing held held' with
  | nil => rfl
  | @keep x xs ys _ ih =>
    by_cases hx : kind x = k
    · obtain ⟨h₁, hcount₁, heq₁⟩ := @others_behind _ _ _ _ kind quota k held x xs hx
      obtain ⟨h₂, hcount₂, heq₂⟩ := @others_behind _ _ _ _ kind quota k held' x ys hx
      rw [heq₁, heq₂]
      exact ih fun j hj => (hcount₁ j hj).trans ((hheld j hj).trans (hcount₂ j hj).symm)
    · rw [taken, taken, hheld _ hx]
      split_ifs
      · rw [List.filter_cons_of_pos (by simpa using hx), List.filter_cons_of_pos (by simpa using hx)]
        congr 1
        exact ih fun j hj => by rw [List.count_cons, List.count_cons, hheld j hj]
      · exact ih hheld
  | @put x xs ys hx _ ih =>
    obtain ⟨h₂, hcount₂, heq₂⟩ := @others_behind _ _ _ _ kind quota k held' x ys hx
    rw [heq₂]
    exact ih fun j hj => (hheld j hj).trans (hcount₂ j hj).symm

omit [LawfulBEq κ] in
theorem taken_of_early [DecidableEq α] (hx : x ∈ xs)
    (hearly : held.count (kind x) + (xs.takeWhile (· ≠ x)).countP (kind · == kind x) < quota) :
    x ∈ taken kind quota held xs := by
  induction xs generalizing held with
  | nil => cases hx
  | cons y ys ih =>
    rw [taken]
    by_cases hxy : y = x
    · subst hxy
      rw [if_pos (by omega)]
      exact List.mem_cons_self
    · have hin := (List.mem_cons.mp hx).resolve_left (Ne.symm hxy)
      rw [List.takeWhile_cons_of_pos (by simpa using hxy), List.countP_cons] at hearly
      split_ifs
      · refine List.mem_cons_of_mem _ (ih hin ?_)
        rw [List.count_cons]
        omega
      · exact ih hin (by omega)

end

theorem missing_le {α : Type} {p : α → Bool} {xs ys missing : List α} {n q : ℕ}
    (hsame : xs.filter p = ys.filter p) (hfew : ys.countP (!p ·) ≤ q) (hnodup : missing.Nodup)
    (hmissing : ∀ x ∈ missing, p x = true ∧ x ∈ xs.take n ∧ x ∉ ys.take n) :
    missing.length ≤ q := by
  have hxs := List.prefix_iff_eq_take.mp ((List.take_prefix n xs).filter p)
  have hys := List.prefix_iff_eq_take.mp ((List.take_prefix n ys).filter p)
  rw [← hsame] at hys
  -- what is missing lies between two places of the common entries
  have hsub : missing ⊆ ((xs.take n).filter p).drop ((ys.take n).filter p).length := by
    intro x hx
    obtain ⟨hp, hin, hout⟩ := hmissing x hx
    have hmem : x ∈ (xs.take n).filter p := List.mem_filter.mpr ⟨hin, hp⟩
    rw [← List.take_append_drop ((ys.take n).filter p).length ((xs.take n).filter p),
      List.mem_append] at hmem
    refine hmem.resolve_left fun hfirst => hout ?_
    rw [hxs, List.take_take] at hfirst
    have hy : x ∈ (ys.take n).filter p := by
      rw [hys]
      exact List.take_subset_take_left _ (min_le_left _ _) hfirst
    exact (List.mem_filter.mp hy).1
  refine (hnodup.subperm hsub).length_le.trans ?_
  rw [List.length_drop]
  rcases le_total ys.length n with hall | hcut
  · have hle := ((List.take_sublist n xs).filter p).length_le
    rw [List.take_of_length_le hall, ← hsame]
    omega
  · have hle := (List.length_filter_le p (xs.take n)).trans (List.length_take_le n xs)
    have hcount := List.length_eq_length_filter_add (l := ys.take n) p
    have hfewer := (List.take_sublist n ys).countP_le (p := (!p ·))
    rw [List.length_take_of_le hcut] at hcount
    rw [List.countP_eq_length_filter] at hfewer
    omega

end NetRuleRouter.Quotas
