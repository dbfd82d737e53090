import NetRuleRouter.Merge

/-!
# Duplicates across the sets are settled once

A book has one answer per match when no match is enabled in both of its sets.
Where one is, one side is switched off: the secondary copies, or the primary
ones where the user keeps the secondary. Nothing else of the book changes, and
a second pass has nothing left to do.
-/

set_option autoImplicit false

namespace NetRuleRouter.SettledDuplicates
open Sorting Canonical RulePairs Merge

section
variable {book : CanonicalRuleBook} {coverage : SubdomainCoverage} {keep : CrossSetKey → Bool}
variable {key : CrossSetKey} {r : CanonicalRule} {role : RouteRole}

def EnabledIn (book : CanonicalRuleBook) (coverage : SubdomainCoverage) (role : RouteRole)
    (key : CrossSetKey) : Prop :=
  ∃ r ∈ (book.setFor role).rules, r.enabled = true ∧ crossSetKey r coverage = key

def OneAnswer (book : CanonicalRuleBook) (coverage : SubdomainCoverage) : Prop :=
  ∀ key, ¬(EnabledIn book coverage .primary key ∧ EnabledIn book coverage .secondary key)

theorem enabled_primary_is_some :
    (enabledPrimary book coverage key).isSome = true ↔ EnabledIn book coverage .primary key := by
  simp [enabledPrimary, EnabledIn, CanonicalRuleBook.setFor]

theorem primary_copy_is_some :
    (primaryCopy book coverage r).isSome = true ↔
      r.enabled = true ∧ EnabledIn book coverage .primary (crossSetKey r coverage) := by
  unfold primaryCopy
  split
  · rename_i he
    rw [enabled_primary_is_some]
    simp [he]
  · rename_i he
    simp [he]

theorem no_enabled_primary (h : book.primary.rules.any CanonicalRule.enabled = false)
    (key : CrossSetKey) : ¬EnabledIn book coverage .primary key := by
  intro hen
  obtain ⟨r, hr, he, -⟩ := hen
  rw [List.any_eq_false] at h
  exact h r hr he

theorem reports_nothing_iff (keep : CrossSetKey → Bool) :
    (normalizeCrossSetDuplicates book keep coverage).2 = [] ↔ OneAnswer book coverage := by
  unfold normalizeCrossSetDuplicates
  split
  · rename_i hnone
    exact iff_of_true rfl fun key hboth => no_enabled_primary hnone key hboth.1
  · dsimp only
    rw [List.filterMap_eq_nil_iff]
    constructor
    · intro hall key hboth
      obtain ⟨hp, r, hr, he, rfl⟩ := hboth
      have hsome := primary_copy_is_some.mpr ⟨he, hp⟩
      have hnone := hall r hr
      rw [Option.map_eq_none_iff] at hnone
      simp [hnone] at hsome
    · intro hone r hr
      rw [Option.map_eq_none_iff, ← Option.not_isSome_iff_eq_none, primary_copy_is_some]
      intro hsome
      exact hone _ ⟨hsome.2, r, hr, hsome.1, rfl⟩

/-- A copy of a match enabled in both sets, on the side that gives way. -/
def Yields (book : CanonicalRuleBook) (coverage : SubdomainCoverage) (keep : CrossSetKey → Bool)
    (role : RouteRole) (r : CanonicalRule) : Prop :=
  r.enabled = true ∧ EnabledIn book coverage .primary (crossSetKey r coverage) ∧
    EnabledIn book coverage .secondary (crossSetKey r coverage) ∧
    (keep (crossSetKey r coverage) = true ↔ role = .primary)

open Classical in
noncomputable def settled (book : CanonicalRuleBook) (coverage : SubdomainCoverage)
    (keep : CrossSetKey → Bool) (role : RouteRole) (r : CanonicalRule) : CanonicalRule :=
  if Yields book coverage keep role r then { r with enabled := false } else r

theorem settled_spec (role : RouteRole) (r : CanonicalRule) :
    (Yields book coverage keep role r →
      settled book coverage keep role r = { r with enabled := false }) ∧
    (¬ Yields book coverage keep role r → settled book coverage keep role r = r) :=
  ⟨fun h => if_pos h, fun h => if_neg h⟩

theorem mem_disable_primary : key ∈ disablePrimary book keep coverage ↔
    EnabledIn book coverage .primary key ∧ EnabledIn book coverage .secondary key ∧
      keep key = true := by
  simp only [disablePrimary, List.mem_map, List.mem_filter, Bool.and_eq_true,
    primary_copy_is_some]
  constructor
  · rintro ⟨r, ⟨hr, ⟨hon, hp⟩, hkeep⟩, rfl⟩
    exact ⟨hp, ⟨r, hr, hon, rfl⟩, hkeep⟩
  · rintro ⟨hp, ⟨r, hr, hon, rfl⟩, hkeep⟩
    exact ⟨r, ⟨hr, ⟨hon, hp⟩, hkeep⟩, rfl⟩

theorem normalized_secondary_settled : normalizedSecondary book keep coverage =
    book.secondary.rules.map (settled book coverage keep .secondary) := by
  refine List.map_congr_left fun r hr => ?_
  by_cases hy : Yields book coverage keep .secondary r
  · have hgone : keep (crossSetKey r coverage) = false := by
      rw [Bool.eq_false_iff]
      simpa using hy.2.2.2
    rw [(settled_spec _ r).1 hy, if_pos (primary_copy_is_some.mpr ⟨hy.1, hy.2.1⟩), hgone]
  · rw [(settled_spec _ r).2 hy]
    split
    · rename_i hcopy
      obtain ⟨hon, hp⟩ := primary_copy_is_some.mp hcopy
      have hkept : keep (crossSetKey r coverage) = true := by
        by_contra hgone
        exact hy ⟨hon, hp, ⟨r, hr, hon, rfl⟩, by simpa using hgone⟩
      rw [hkept, ← hon]
    · rfl

theorem normalized_primary_settled : normalizedPrimary book keep coverage =
    book.primary.rules.map (settled book coverage keep .primary) := by
  refine List.map_congr_left fun r _ => ?_
  by_cases hy : Yields book coverage keep .primary r
  · rw [(settled_spec _ r).1 hy,
      if_pos (mem_disable_primary.mpr ⟨hy.2.1, hy.2.2.1, hy.2.2.2.mpr rfl⟩)]
  · rw [(settled_spec _ r).2 hy]
    split
    · rename_i hin
      obtain ⟨hp, hs, hkeep⟩ := mem_disable_primary.mp hin
      have hoff : r.enabled = false :=
        Bool.eq_false_iff.mpr fun hon => hy ⟨hon, hp, hs, by simp [hkeep]⟩
      rw [← hoff]
    · rfl

theorem settled_id {l : List CanonicalRule} (h : ∀ r ∈ l, ¬ Yields book coverage keep role r) :
    l.map (settled book coverage keep role) = l :=
  (List.map_congr_left fun r hr => (settled_spec _ r).2 (h r hr)).trans (List.map_id _)

theorem normalized_settled (keep : CrossSetKey → Bool) (role : RouteRole) :
    ((normalizeCrossSetDuplicates book keep coverage).1.setFor role).rules.Perm
      ((book.setFor role).rules.map (settled book coverage keep role)) := by
  unfold normalizeCrossSetDuplicates
  split
  · rename_i hoff
    rw [settled_id fun r _ hy => no_enabled_primary hoff _ hy.2.1]
  · cases role with
    | secondary =>
      rw [show (book.setFor .secondary).rules.map _ = _ from normalized_secondary_settled.symm]
      exact sort_by_perm _ _
    | primary =>
      simp only [CanonicalRuleBook.setFor]
      rw [← normalized_primary_settled]
      split
      · rename_i hnil
        rw [normalized_primary_settled, settled_id fun r _ hy => ?_]
        have hin := mem_disable_primary.mpr ⟨hy.2.1, hy.2.2.1, hy.2.2.2.mpr rfl⟩
        rw [hnil] at hin
        cases hin
      · exact sort_by_perm _ _

theorem normalized_enabled
    (hr : r ∈ ((normalizeCrossSetDuplicates book keep coverage).1.setFor role).rules)
    (he : r.enabled = true) :
    r ∈ (book.setFor role).rules ∧ ¬ Yields book coverage keep role r := by
  obtain ⟨q, hq, rfl⟩ := List.mem_map.mp ((normalized_settled keep role).mem_iff.mp hr)
  by_cases hy : Yields book coverage keep role q
  · rw [(settled_spec _ q).1 hy] at he
    cases he
  · rw [(settled_spec _ q).2 hy]
    exact ⟨hq, hy⟩

theorem normalized_one_answer (keep : CrossSetKey → Bool) :
    OneAnswer (normalizeCrossSetDuplicates book keep coverage).1 coverage := by
  rintro key ⟨⟨p, hp, hpe, hpk⟩, s, hs, hse, hsk⟩
  obtain ⟨hp, hpstays⟩ := normalized_enabled hp hpe
  obtain ⟨hs, hsstays⟩ := normalized_enabled hs hse
  have hprimary : EnabledIn book coverage .primary key := ⟨p, hp, hpe, hpk⟩
  have hsecondary : EnabledIn book coverage .secondary key := ⟨s, hs, hse, hsk⟩
  -- the match would have to be kept on neither side
  cases hkeep : keep key with
  | true => exact hpstays ⟨hpe, hpk ▸ hprimary, hpk ▸ hsecondary, by simp [hpk, hkeep]⟩
  | false => exact hsstays ⟨hse, hsk ▸ hprimary, hsk ▸ hsecondary, by simp [hsk, hkeep]⟩

theorem one_answer_unchanged (h : OneAnswer book coverage) :
    normalizeCrossSetDuplicates book keep coverage = (book, []) := by
  refine Prod.ext ?_ ((reports_nothing_iff keep).mpr h)
  have hdisable : disablePrimary book keep coverage = [] :=
    List.eq_nil_iff_forall_not_mem.mpr fun key hin =>
      h key ⟨(mem_disable_primary.mp hin).1, (mem_disable_primary.mp hin).2.1⟩
  have hsecondary : normalizedSecondary book keep coverage = book.secondary.rules := by
    rw [normalized_secondary_settled, settled_id fun r _ hy => h _ ⟨hy.2.1, hy.2.2.1⟩]
  unfold normalizeCrossSetDuplicates
  split
  · rfl
  · simp only [hsecondary, from_own_rules]

end

/-- Normalising leaves one answer per match, switches off only the copies that give way, and
changes nothing a second time. -/
theorem duplicates_settled (book : CanonicalRuleBook) (keep : CrossSetKey → Bool)
    (coverage : SubdomainCoverage) :
    OneAnswer (normalizeCrossSetDuplicates book keep coverage).1 coverage ∧
    (∀ role, ∃ f : CanonicalRule → CanonicalRule,
      ((normalizeCrossSetDuplicates book keep coverage).1.setFor role).rules.Perm
        ((book.setFor role).rules.map f) ∧
      ∀ r ∈ (book.setFor role).rules,
        (Yields book coverage keep role r → f r = { r with enabled := false }) ∧
        (¬ Yields book coverage keep role r → f r = r)) ∧
    ∀ keep' : CrossSetKey → Bool,
      normalizeCrossSetDuplicates (normalizeCrossSetDuplicates book keep coverage).1 keep' coverage =
        ((normalizeCrossSetDuplicates book keep coverage).1, []) :=
  ⟨normalized_one_answer keep,
    fun role => ⟨_, normalized_settled keep role, fun r _ => settled_spec role r⟩,
    fun _ => one_answer_unchanged (normalized_one_answer keep)⟩

end NetRuleRouter.SettledDuplicates
