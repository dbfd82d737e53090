import Mathlib

/-!
# Greedy pairing by score

The pair of the highest score is taken first, the earliest among equals,
until one side is used up. Every member ends up in one pair or is left over,
and two members that score higher with each other than with anyone else are
paired.
-/

set_option autoImplicit false

namespace NetRuleRouter.GreedyPairing

variable {α β : Type*} (score : α → β → ℕ)

def better (held : Option (α × β)) (p : α × β) : Option (α × β) :=
  match held with
  | none => some p
  | some q => if score q.1 q.2 < score p.1 p.2 then some p else some q

def bestPair (ls : List α) (rs : List β) : Option (α × β) :=
  (ls ×ˢ rs).foldl (better score) none

structure Pairing (α β : Type*) where
  paired : List (α × β)
  left : List α
  right : List β

variable [DecidableEq α] [DecidableEq β]

def pairUp : ℕ → List α → List β → Pairing α β
  | 0, ls, rs => ⟨[], ls, rs⟩
  | fuel + 1, ls, rs =>
    match bestPair score ls rs with
    | none => ⟨[], ls, rs⟩
    | some (i, j) =>
      let rest := pairUp fuel (ls.erase i) (rs.erase j)
      ⟨(i, j) :: rest.paired, rest.left, rest.right⟩

variable {score}

omit [DecidableEq α] [DecidableEq β] in
theorem best_pair_eq (ls : List α) (rs : List β) :
    bestPair score ls rs = (ls ×ˢ rs).argmax fun p => score p.1 p.2 := by
  unfold bestPair List.argmax
  congr 1
  funext held p
  cases held <;> rfl

omit [DecidableEq α] [DecidableEq β] in
theorem best_pair_some {ls : List α} {rs : List β} {i : α} {j : β}
    (h : bestPair score ls rs = some (i, j)) :
    i ∈ ls ∧ j ∈ rs ∧ ∀ i' ∈ ls, ∀ j' ∈ rs, score i' j' ≤ score i j := by
  rw [best_pair_eq] at h
  obtain ⟨hi, hj⟩ := List.pair_mem_product.mp (List.argmax_mem h)
  exact ⟨hi, hj, fun i' hi' j' hj' =>
    List.le_of_mem_argmax (List.pair_mem_product.mpr ⟨hi', hj'⟩) h⟩

omit [DecidableEq α] [DecidableEq β] in
theorem best_pair_exists {ls : List α} {rs : List β} {i : α} {j : β} (hi : i ∈ ls) (hj : j ∈ rs) :
    ∃ p, bestPair score ls rs = some p := by
  rw [best_pair_eq, ← Option.ne_none_iff_exists', ne_eq, List.argmax_eq_none]
  exact List.ne_nil_of_mem (List.pair_mem_product.mpr ⟨hi, hj⟩)

theorem pair_up_perm (fuel : ℕ) (ls : List α) (rs : List β) :
    ((pairUp score fuel ls rs).paired.map Prod.fst ++ (pairUp score fuel ls rs).left).Perm ls ∧
      ((pairUp score fuel ls rs).paired.map Prod.snd ++ (pairUp score fuel ls rs).right).Perm
        rs := by
  induction fuel generalizing ls rs with
  | zero => exact ⟨List.Perm.refl _, List.Perm.refl _⟩
  | succ fuel ih =>
    rw [pairUp]
    cases hb : bestPair score ls rs with
    | none => exact ⟨List.Perm.refl _, List.Perm.refl _⟩
    | some p =>
      obtain ⟨i, j⟩ := p
      obtain ⟨hi, hj, -⟩ := best_pair_some hb
      obtain ⟨hl, hr⟩ := ih (ls.erase i) (rs.erase j)
      exact ⟨(hl.cons i).trans (List.perm_cons_erase hi).symm,
        (hr.cons j).trans (List.perm_cons_erase hj).symm⟩

theorem mutual_best_paired {i : α} {j : β} (fuel : ℕ) (ls : List α) (rs : List β)
    (hfuel : ls.length ≤ fuel) (hi : i ∈ ls) (hj : j ∈ rs)
    (hleft : ∀ i' ∈ ls, i' ≠ i → score i' j < score i j)
    (hright : ∀ j' ∈ rs, j' ≠ j → score i j' < score i j) :
    (i, j) ∈ (pairUp score fuel ls rs).paired := by
  induction fuel generalizing ls rs with
  | zero =>
    have hnil := List.length_eq_zero_iff.mp (Nat.le_zero.mp hfuel)
    simp [hnil] at hi
  | succ fuel ih =>
    obtain ⟨⟨a, b⟩, hb⟩ := @best_pair_exists _ _ score ls rs i j hi hj
    obtain ⟨ha, hbm, hmost⟩ := best_pair_some hb
    have hbest := hmost i hi j hj
    rw [pairUp, hb]
    by_cases hai : a = i
    · subst hai
      have hbj : b = j := by
        by_contra hne
        exact not_lt.mpr hbest (hright b hbm hne)
      simp [hbj]
    · have hbj : b ≠ j := by
        rintro rfl
        exact not_lt.mpr hbest (hleft a ha hai)
      refine List.mem_cons_of_mem _ (ih _ _ ?_ ?_ ?_ ?_ ?_)
      · rw [List.length_erase_of_mem ha]
        omega
      · exact (List.mem_erase_of_ne (Ne.symm hai)).mpr hi
      · exact (List.mem_erase_of_ne (Ne.symm hbj)).mpr hj
      · exact fun i' hi' => hleft i' (List.mem_of_mem_erase hi')
      · exact fun j' hj' => hright j' (List.mem_of_mem_erase hj')

theorem pair_up_exhausts (fuel : ℕ) (ls : List α) (rs : List β) (hfuel : ls.length ≤ fuel) :
    (pairUp score fuel ls rs).left = [] ∨ (pairUp score fuel ls rs).right = [] := by
  induction fuel generalizing ls rs with
  | zero => exact Or.inl (List.length_eq_zero_iff.mp (Nat.le_zero.mp hfuel))
  | succ fuel ih =>
    rw [pairUp]
    cases hb : bestPair score ls rs with
    | none =>
      by_contra hne
      obtain ⟨hl, hr⟩ := not_or.mp hne
      obtain ⟨i, hi⟩ := List.exists_mem_of_ne_nil _ hl
      obtain ⟨j, hj⟩ := List.exists_mem_of_ne_nil _ hr
      obtain ⟨p, hp⟩ := @best_pair_exists _ _ score ls rs i j hi hj
      rw [hp] at hb
      cases hb
    | some p =>
      obtain ⟨i, j⟩ := p
      obtain ⟨hi, -, -⟩ := best_pair_some hb
      refine ih (ls.erase i) (rs.erase j) ?_
      rw [List.length_erase_of_mem hi]
      omega

theorem pair_up_self {score : α → α → ℕ} (fuel : ℕ) (ls : List α) (hfuel : ls.length ≤ fuel)
    (htop : ∀ k ∈ ls, ∀ i ∈ ls, ∀ j ∈ ls, score i j ≤ score k k) :
    pairUp score fuel ls ls = ⟨ls.map fun i => (i, i), [], []⟩ := by
  induction ls generalizing fuel with
  | nil => cases fuel <;> rfl
  | cons a ls ih =>
    cases fuel with
    | zero => simp at hfuel
    | succ fuel =>
      have hbest : bestPair score (a :: ls) (a :: ls) = some (a, a) := by
        have hle : ∀ q ∈ (a :: ls) ×ˢ (a :: ls), score q.1 q.2 ≤ score a a := fun q hq =>
          htop a (by simp) _ (List.mem_product.mp hq).1 _ (List.mem_product.mp hq).2
        rw [List.product_cons, List.map_cons, List.cons_append] at hle
        rw [best_pair_eq, List.product_cons, List.map_cons, List.cons_append, List.argmax_cons]
        cases hq : (ls.map (a, ·) ++ ls ×ˢ (a :: ls)).argmax fun p => score p.1 p.2 with
        | none => rfl
        | some q => exact if_neg (hle q (List.mem_cons_of_mem _ (List.argmax_mem hq))).not_gt
      have hrest := ih fuel (by simpa using hfuel) fun k hk i hi j hj =>
        htop k (List.mem_cons_of_mem _ hk) i (List.mem_cons_of_mem _ hi) j
          (List.mem_cons_of_mem _ hj)
      simp [pairUp, hbest, hrest]

end NetRuleRouter.GreedyPairing
