import NetRuleRouter.BestEffort

/-!
# The search for refused rules

The candidates are halved while the check refuses them. A check that refuses
what holds a rule of some set leads the search to that set: it asks about the
parts that hold one and the parts beside those, and stops where the budget
does. An answer that is not a refusal ends it.
-/

set_option autoImplicit false

namespace NetRuleRouter.RefusalSearch
open BestEffort

variable {ω : Type*}

def logged (check : List ℕ → ω → Except NftApplyError Unit × ω) (candidates : List ℕ)
    (w : ω × List (Except NftApplyError Unit)) :
    Except NftApplyError Unit × ω × List (Except NftApplyError Unit) :=
  ((check candidates w.1).1, (check candidates w.1).2, w.2 ++ [(check candidates w.1).1])

def budgetLeft : Except NftApplyError Search → ℕ
  | .ok s => s.budget
  | .error _ => 0

variable {check : List ℕ → ω → Except NftApplyError Unit × ω}

theorem descend_answers (candidates : List ℕ) (budget : ℕ) (found : List ℕ)
    (w : ω × List (Except NftApplyError Unit)) :
    let run := descend (logged check) candidates budget found w
    ∃ answers, run.2.2 = w.2 ++ answers ∧ answers.length + budgetLeft run.1 ≤ budget ∧
      ∀ e, .error e ∈ answers → (∀ detail, e ≠ .rejected detail) → run.1 = .error e := by
  fun_induction descend (logged check) candidates budget found w with
  | case1 | case2 => exact ⟨[], by simp [budgetLeft]⟩
  | case3 | case4 | case5 | case6 | case7 | case8 => grind [logged, budgetLeft]

section
variable (B : Set ℕ) [DecidablePred (· ∈ B)]

def holds (candidates : List ℕ) : Bool := candidates.any (· ∈ B)

/-- The check refuses what holds a rule of the set, and nothing else. -/
def Refuses (check : List ℕ → ω → Except NftApplyError Unit × ω) : Prop :=
  ∀ candidates w, if holds B candidates then
      ∃ detail, (check candidates w).1 = .error (.rejected detail)
    else (check candidates w).1 = .ok ()

/-- Some candidates and the parts that halving makes of them, each with the one beside it. -/
def halvings (candidates beside : List ℕ) : List (List ℕ × List ℕ) :=
  (candidates, beside) ::
    match candidates with
    | first :: second :: others =>
      let all := first :: second :: others
      halvings (all.take (all.length / 2)) (all.drop (all.length / 2)) ++
        halvings (all.drop (all.length / 2)) (all.take (all.length / 2))
    | _ => []
termination_by candidates.length

/-- How many parts hold a rule of the set, or stand beside one that does. -/
def heldParts (candidates beside : List ℕ) : ℕ :=
  (halvings candidates beside).countP fun part => holds B part.1 || holds B part.2

variable {B} {candidates beside : List ℕ}

theorem held_parts_pos (h : (holds B candidates || holds B beside) = true) :
    0 < heldParts B candidates beside := by
  unfold heldParts halvings
  rw [List.countP_cons, if_pos h]
  exact Nat.succ_pos _

theorem held_parts_halves {all : List ℕ} (hlen : 2 ≤ all.length) (h : holds B all = true)
    (beside : List ℕ) :
    (holds B (all.take (all.length / 2)) || holds B (all.drop (all.length / 2))) = true ∧
      heldParts B all beside =
        heldParts B (all.take (all.length / 2)) (all.drop (all.length / 2)) +
          heldParts B (all.drop (all.length / 2)) (all.take (all.length / 2)) + 1 := by
  constructor
  · rw [holds, holds, ← List.any_append, List.take_append_drop]
    exact h
  · match all, hlen with
    | first :: second :: others, _ =>
      rw [heldParts, halvings, List.countP_cons, if_pos (by rw [h]; rfl), List.countP_append]
      rfl

variable {w w' : ω}

theorem refused_holds (h : Refuses B check) {e : NftApplyError}
    (hcheck : check candidates w = (.error e, w')) :
    holds B candidates = true ∧ ∃ detail, e = .rejected detail := by
  have hanswer := h candidates w
  rw [hcheck] at hanswer
  split at hanswer
  · rename_i hholds
    obtain ⟨detail, he⟩ := hanswer
    exact ⟨hholds, detail, Except.error.inj he⟩
  · cases hanswer

/-- What some candidates come to: a settled search found those of the set, and it is settled with
a budget for the parts it asks about. -/
structure Found (B : Set ℕ) [DecidablePred (· ∈ B)] (candidates : List ℕ) (budget : ℕ)
    (found : List ℕ) (s : Search) : Prop where
  exact : s.settled = true → s.found = found ++ candidates.filter (· ∈ B)
  settled : ∀ beside, (holds B candidates || holds B beside) = true →
    heldParts B candidates beside ≤ budget →
    s.settled = true ∧ budget ≤ s.budget + heldParts B candidates beside

theorem descend_found (h : Refuses B check) (candidates : List ℕ) (budget : ℕ) (found : List ℕ)
    (w : ω) : ∃ s, (descend check candidates budget found w).1 = .ok s ∧
      Found B candidates budget found s := by
  fun_induction descend check candidates budget found w with
  | case1 => exact ⟨_, rfl, by simp, by simp⟩
  | case2 =>
    refine ⟨_, rfl, nofun, fun beside hholds hbudget => ?_⟩
    exact absurd (held_parts_pos hholds) (by omega)
  | case3 found w x xs budget w' hcheck =>
    refine ⟨_, rfl, fun _ => ?_, fun beside hholds _ => ⟨rfl, ?_⟩⟩
    · have := h (x :: xs) w
      simp_all [holds]
    · have := held_parts_pos hholds
      dsimp only
      omega
  | case4 found w x budget detail w' hcheck =>
    refine ⟨_, rfl, fun _ => ?_, fun beside hholds _ => ⟨rfl, ?_⟩⟩
    · have := refused_holds h hcheck
      simp_all [holds]
    · have := held_parts_pos hholds
      dsimp only
      omega
  | case5 found w x budget detail w' y ys all error w'' hleft hcheck ih =>
    obtain ⟨s, hs, -⟩ := ih
    rw [hleft] at hs
    cases hs
  | case6 found w x budget detail w' y ys all budget' found' w'' hleft hcheck ih =>
    obtain ⟨s, hs, hfound⟩ := ih
    rw [hleft] at hs
    cases hs
    refine ⟨_, rfl, nofun, fun beside _ (hbudget : heldParts B all beside ≤ _) => ?_⟩
    have hall : holds B all = true := (refused_holds h hcheck).1
    obtain ⟨hholds, hparts⟩ := held_parts_halves (by simp [all]) hall beside
    exact nomatch (hfound.settled _ hholds (by omega)).1
  | case7 found w x budget detail w' y ys all budget' found' w'' hleft hcheck ih ih' =>
    obtain ⟨s, hs, hfound⟩ := ih
    rw [hleft] at hs
    cases hs
    obtain ⟨s, hs, hrest⟩ := ih'
    refine ⟨s, hs, fun hsettled => ?_, fun beside _ (hbudget : heldParts B all beside ≤ _) => ?_⟩
    · have hexact : found' = _ := hfound.exact rfl
      rw [hrest.exact hsettled, hexact, List.append_assoc, ← List.filter_append,
        List.take_append_drop]
    · have hall : holds B all = true := (refused_holds h hcheck).1
      obtain ⟨hholds, hparts⟩ := held_parts_halves (by simp [all]) hall beside
      have hspent : budget ≤ budget' + _ := (hfound.settled _ hholds (by omega)).2
      obtain ⟨hsettled, hleft⟩ := hrest.settled _ (Bool.or_comm _ _ ▸ hholds) (by omega)
      refine ⟨hsettled, ?_⟩
      change budget + 1 ≤ s.budget + heldParts B all beside
      omega
  | case8 found w x xs budget environment w' hother hcheck =>
    obtain ⟨-, detail, rfl⟩ := refused_holds h hcheck
    exact absurd rfl (hother detail)

end

theorem refused_rules_spec (n : ℕ) (refusal : NftApplyError) (budget : ℕ) (w : ω) :
    let search := descend check (List.range n) budget [] w
    let run := refusedRules check n refusal budget w
    run.2 = search.2 ∧ (∀ e, search.1 = .error e → run.1 = .error e) ∧
      ∀ s v, search.1 = .ok s → (run.1 = .ok v ↔ s.settled = true ∧ s.found ≠ [] ∧
        s.found.length ≠ n ∧ s.found.insertionSort (· ≤ ·) = v) := by
  rcases hd : descend check (List.range n) budget [] w with ⟨e | s, w'⟩
  · simp [refusedRules, hd]
  · simp only [refusedRules, hd]
    split_ifs <;> grind

/-- Whatever the check answers, it is asked no more often than the budget allows, and an error
that is no refusal is returned. A check that refuses what holds a rule of a set leads to no other
list than the rules of the set in ascending order, if there are such rules and others; and it
leads there, if the budget covers the parts that hold one and the parts beside those. -/
theorem refused_rules_exact (check : List ℕ → ω → Except NftApplyError Unit × ω) (n : ℕ)
    (refusal : NftApplyError) (budget : ℕ) (w : ω) :
    let run := refusedRules (logged check) n refusal budget (w, [])
    run.2.2.length ≤ budget ∧
      (∀ e, .error e ∈ run.2.2 → (∀ detail, e ≠ .rejected detail) → run.1 = .error e) ∧
      ∀ (B : Set ℕ) [DecidablePred (· ∈ B)], Refuses B check →
        let result := (refusedRules check n refusal budget w).1
        let refused := (List.range n).filter (· ∈ B)
        (∀ v, result = .ok v → v = refused ∧ refused ≠ [] ∧ refused ≠ List.range n) ∧
          (refused ≠ [] → refused ≠ List.range n → heldParts B (List.range n) [] ≤ budget →
            result = .ok refused) := by
  intro run
  obtain ⟨answers, hlog, hspent, hother⟩ :=
    @descend_answers ω check (List.range n) budget [] (w, [])
  obtain ⟨hworld, herror, -⟩ := @refused_rules_spec _ (logged check) n refusal budget (w, [])
  rw [hworld, hlog]
  refine ⟨by simp; omega, fun e he hne => herror e (hother e he hne), fun B _ h => ?_⟩
  intro result refused
  obtain ⟨s, hs, hfound⟩ := descend_found h (List.range n) budget [] w
  have hok (v : List ℕ) := (@refused_rules_spec _ check n refusal budget w).2.2 s v hs
  have hsorted : refused.insertionSort (· ≤ ·) = refused :=
    (List.pairwise_le_range.filter _).insertionSort_eq
  have hlength : refused.length = n ↔ refused = List.range n := by
    rw [← List.filter_sublist.length_eq, List.length_range]
  constructor
  · intro v hv
    obtain ⟨hsettled, hne, hlen, rfl⟩ := (hok v).mp hv
    have hexact : s.found = refused := hfound.exact hsettled
    rw [hexact] at hne hlen ⊢
    exact ⟨hsorted, hne, mt hlength.mpr hlen⟩
  · intro hne hall hbudget
    obtain ⟨i, hi⟩ := List.exists_mem_of_ne_nil _ hne
    have hholds : holds B (List.range n) = true := List.any_eq_true.mpr ⟨i, List.mem_filter.mp hi⟩
    obtain ⟨hsettled, -⟩ := hfound.settled [] (by rw [hholds]; rfl) hbudget
    have hexact : s.found = refused := hfound.exact hsettled
    exact (hok refused).mpr ⟨hsettled, hexact ▸ hne, hexact ▸ mt hlength.mp hall, hexact ▸ hsorted⟩

/-- The second of three rules is refused. -/
theorem one_rule_refused :
    let check (candidates : List ℕ) (w : Unit) : Except NftApplyError Unit × Unit :=
      (if 1 ∈ candidates then .error (.rejected []) else .ok (), w)
    Refuses {1} check ∧ (refusedRules check 3 (.rejected []) 5 ()).1 = .ok [1] := by
  intro check
  have h : Refuses {1} check := by
    intro candidates w
    by_cases hmem : 1 ∈ candidates <;> simp [holds, check, hmem]
  exact ⟨h, ((refused_rules_exact check 3 (.rejected []) 5 ()).2.2 {1} h).2 (by decide) (by decide)
    (by decide +kernel)⟩

end NetRuleRouter.RefusalSearch
