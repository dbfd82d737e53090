import Mathlib.Tactic

/-!
# Chains decided at the first match

A chain of rules answers with the verdict of its first rule that matches.
Rules that cannot match may go, a rule behind one that matches wherever it
does may go, and rules may be gathered into groups and so overtake each other,
as long as no two of different verdicts that can match together change places.
-/

set_option autoImplicit false

namespace NetRuleRouter.FirstMatch

variable {ρ γ π ν : Type}

def decision (applies : ρ → π → Bool) (verdict : ρ → ν) (rules : List ρ) (x : π) : Option ν :=
  (rules.find? (applies · x)).map verdict

variable {applies : ρ → π → Bool} {verdict : ρ → ν} {rules : List ρ}

theorem decision_nil (x : π) : decision applies verdict [] x = none := rfl

theorem decision_cons (r : ρ) (rules : List ρ) (x : π) :
    decision applies verdict (r :: rules) x =
      if applies r x then some (verdict r) else decision applies verdict rules x := by
  unfold decision
  rw [List.find?_cons]
  cases applies r x <;> rfl

theorem decision_append (rules rest : List ρ) (x : π) :
    decision applies verdict (rules ++ rest) x =
      (decision applies verdict rules x).or (decision applies verdict rest x) := by
  unfold decision
  rw [List.find?_append]
  cases rules.find? (applies · x) <;> rfl

theorem decision_none {x : π} :
    decision applies verdict rules x = none ↔ ∀ r ∈ rules, applies r x = false := by
  simp [decision]

theorem decision_some {x : π} {v : ν} :
    decision applies verdict rules x = some v ↔
      ∃ front r rest, rules = front ++ r :: rest ∧ applies r x = true ∧ verdict r = v ∧
        ∀ q ∈ front, applies q x = false := by
  simp only [decision, Option.map_eq_some_iff, List.find?_eq_some_iff_append, Bool.not_eq_true']
  constructor
  · rintro ⟨r, ⟨hr, front, rest, rfl, hfront⟩, rfl⟩
    exact ⟨front, r, rest, rfl, hr, rfl, hfront⟩
  · rintro ⟨front, r, rest, rfl, hr, rfl, hfront⟩
    exact ⟨r, ⟨hr, front, rest, rfl, hfront⟩, rfl⟩

theorem decision_flat_map {φ : Type} (pieces : List φ) (rulesOf : φ → List ρ) (x : π) :
    decision applies verdict (pieces.flatMap rulesOf) x =
      pieces.findSome? fun f => decision applies verdict (rulesOf f) x := by
  induction pieces with
  | nil => rfl
  | cons f pieces ih =>
    rw [List.flatMap_cons, decision_append, ih, List.findSome?_cons]
    cases decision applies verdict (rulesOf f) x <;> rfl

def prune (covers : ρ → ρ → Bool) : List ρ → List ρ → List ρ
  | kept, [] => kept
  | kept, r :: rules =>
    prune covers (if kept.any (covers · r) then kept else kept ++ [r]) rules

theorem decision_prune {covers : ρ → ρ → Bool}
    (hcovers : ∀ q r x, covers q r = true → applies r x = true → applies q x = true)
    (rules kept : List ρ) (x : π) :
    decision applies verdict (prune covers kept rules) x =
      decision applies verdict (kept ++ rules) x := by
  induction rules generalizing kept with
  | nil => rw [prune, List.append_nil]
  | cons r rules ih =>
    rw [prune, ih]
    split
    · rename_i hany
      obtain ⟨q, hq, hqr⟩ := List.any_eq_true.mp hany
      rw [decision_append, decision_append, decision_cons]
      cases hkept : decision applies verdict kept x with
      | some v => rfl
      | none =>
        have hr : applies r x = false := by
          by_contra hr
          have happlies := hcovers q r x hqr (by simpa using hr)
          rw [decision_none.mp hkept q hq] at happlies
          cases happlies
        rw [hr]
        rfl
    · rw [List.append_assoc, List.singleton_append]

/-- Groups of rules in the places of which the rules of the chain, each with the index of its
group, are gathered. A group matches where one of its rules does. -/
structure Gathers (applies : ρ → π → Bool) (verdict : ρ → ν) (appliesGroup : γ → π → Bool)
    (verdictGroup : γ → ν) (placed : List (ρ × ℕ)) (groups : List γ) : Prop where
  matched : ∀ k g, groups[k]? = some g → ∀ x,
    appliesGroup g x = true ↔ ∃ q ∈ placed, q.2 = k ∧ applies q.1 x = true
  verdicts : ∀ q ∈ placed, ∃ g, groups[q.2]? = some g ∧ verdictGroup g = verdict q.1
  order : placed.Pairwise fun q r => verdict q.1 ≠ verdict r.1 →
    (∃ x, applies q.1 x = true ∧ applies r.1 x = true) → q.2 < r.2

theorem decision_gathered {appliesGroup : γ → π → Bool} {verdictGroup : γ → ν}
    {placed : List (ρ × ℕ)} {groups : List γ}
    (h : Gathers applies verdict appliesGroup verdictGroup placed groups) (x : π) :
    decision appliesGroup verdictGroup groups x =
      decision applies verdict (placed.map Prod.fst) x := by
  cases hrules : decision applies verdict (placed.map Prod.fst) x with
  | none =>
    refine decision_none.mpr fun g hg => ?_
    obtain ⟨k, hk⟩ := List.mem_iff_getElem?.mp hg
    by_contra happlies
    obtain ⟨q, hq, -, hqx⟩ := (h.matched k g hk x).mp (by simpa using happlies)
    rw [decision_none.mp hrules q.1 (List.mem_map_of_mem hq)] at hqx
    cases hqx
  | some v =>
    obtain ⟨front, r, rest, hsplit, hr, rfl, hfront⟩ := decision_some.mp hrules
    obtain ⟨frontPlaced, tail, rfl, hfrontEq, htail⟩ := List.map_eq_append_iff.mp hsplit
    obtain ⟨q, restPlaced, rfl, hqr, -⟩ := List.map_eq_cons_iff.mp htail
    obtain ⟨g, hg, -⟩ := h.verdicts q (by simp)
    have hgx : appliesGroup g x = true :=
      (h.matched q.2 g hg x).mpr ⟨q, by simp, rfl, hqr ▸ hr⟩
    -- the first group that matches, and a rule in it that does
    cases hgroups : decision appliesGroup verdictGroup groups x with
    | none =>
      rw [decision_none.mp hgroups g (List.mem_of_getElem? hg)] at hgx
      cases hgx
    | some w =>
      obtain ⟨before, e, after, rfl, he, rfl, hbefore⟩ := decision_some.mp hgroups
      have hplace : (before ++ e :: after)[before.length]? = some e := by simp
      obtain ⟨p, hp, hpe, hpx⟩ := (h.matched before.length e hplace x).mp he
      obtain ⟨e', he', hverdict⟩ := h.verdicts p hp
      rw [hpe, hplace, Option.some.injEq] at he'
      rw [he', hverdict, ← hqr, Option.some.injEq]
      by_contra hne
      -- the rule comes later in the chain, so it cannot have gone to an earlier group
      have hlater : p ∈ restPlaced := by
        rcases List.mem_append.mp hp with hp | hp
        · rw [hfront p.1 (hfrontEq ▸ List.mem_map_of_mem hp)] at hpx
          cases hpx
        · rcases List.mem_cons.mp hp with rfl | hp
          · exact absurd rfl hne
          · exact hp
      have hlt : q.2 < p.2 :=
        List.rel_of_pairwise_cons (List.pairwise_append.mp h.order).2.1 hlater (Ne.symm hne)
          ⟨x, hqr ▸ hr, hpx⟩
      have hearly : g ∈ before := by
        rw [hpe] at hlt
        rw [List.getElem?_append_left hlt] at hg
        exact List.mem_of_getElem? hg
      rw [hbefore g hearly] at hgx
      cases hgx

end NetRuleRouter.FirstMatch
