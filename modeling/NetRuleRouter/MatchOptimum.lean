import NetRuleRouter.Contenders

/-!
# The decision as one optimum

What the vetoes and the tiers compute in passes is one choice: of all the
rules in play, one that no other comes before, by tier, specificity, class,
action, route and id. A veto only narrows what is in play to its Blocks.
-/

set_option autoImplicit false

namespace NetRuleRouter.MatchOptimum
open IpNetwork Sorting Canonical RuleMatching RuleSelection Contenders

section
variable (input : NormalizedDecisionInput) (lookup : LookupResult) (book : CanonicalRuleBook)

def Vetoed (tier : MatchClass) : Prop :=
  ∃ c, Contender input lookup book tier c ∧ c.action = .block

/-- A veto leaves its own Blocks in play: first that of the address, then that of the
application. -/
def InPlay (tier : MatchClass) (c : RuleMatchCandidate) : Prop :=
  Contender input lookup book tier c ∧
    (Vetoed input lookup book .exactIp → tier = .exactIp ∧ c.action = .block) ∧
    (¬ Vetoed input lookup book .exactIp → Vetoed input lookup book .application →
      tier = .application ∧ c.action = .block)

end

def Before (policy : ZonePriorityPolicy) (tier tier' : MatchClass) (c c' : RuleMatchCandidate) :
    Prop :=
  tierPlace policy tier < tierPlace policy tier' ∨ tier = tier' ∧
    (c'.specificity < c.specificity ∨ c'.specificity = c.specificity ∧
      (apexRank c.matchClass < apexRank c'.matchClass ∨
        apexRank c.matchClass = apexRank c'.matchClass ∧
        (actionRank c.action < actionRank c'.action ∨ actionRank c.action = actionRank c'.action ∧
          (roleRank c.routeRole < roleRank c'.routeRole ∨
            roleRank c.routeRole = roleRank c'.routeRole ∧
              (compare c.ruleId c'.ruleId).isLE = true))))

def Ties (c c' : RuleMatchCandidate) : Prop :=
  c'.routeRole ≠ c.routeRole ∧ c'.specificity = c.specificity ∧
    apexRank c'.matchClass = apexRank c.matchClass

variable {tier : MatchClass} {c : RuleMatchCandidate} {cs : List RuleMatchCandidate}

theorem before_of_order {policy : ZonePriorityPolicy} {c' : RuleMatchCandidate}
    (h : InOrder candidateOrder c c') : Before policy tier tier c c' := by
  refine Or.inr ⟨rfl, ?_⟩
  simpa only [InOrder, candidateOrder, standingOrder, compareLex, compareOn, Ordering.then_assoc,
    compare_then_le] using h

/-- The winner leads the field, and is marked when the field holds its tie. -/
def Chosen (policy : ZonePriorityPolicy) (field : MatchClass → RuleMatchCandidate → Prop)
    (w : RuleMatchCandidate) : Prop :=
  ∃ tier c, field tier c ∧ (∀ tier' c', field tier' c' → Before policy tier tier' c c') ∧
    w = { c with conflict := w.conflict } ∧
    (w.conflict = .detected ↔ ∃ c', field tier c' ∧ Ties c c')

theorem conflicts_with_iff {d : RuleMatchCandidate} : conflictsWith c d = true ↔ Ties c d := by
  simp only [conflictsWith, Ties, Bool.and_eq_true, beq_iff_eq, bne_iff_ne]
  tauto

theorem select_winner_none :
    selectWinner cs = none ↔ eligible cs = [] := by
  rw [← best_eq_none candidateOrder, best, selectWinner, eligible]
  cases sortBy candidateOrder (cs.filter (·.appFilterResult.isEligible)) with
  | nil | cons top rest => simp

variable {w : RuleMatchCandidate} {mode : RouteBehaviorMode}

theorem select_winner_some (h : selectWinner cs = some w) :
    ∃ c, Leads candidateOrder (eligible cs) c ∧ w = { c with conflict := w.conflict } ∧
      (w.conflict = .detected ↔ ∃ d ∈ eligible cs, Ties c d) := by
  rw [selectWinner] at h
  split at h
  · cases h
  · rename_i top rest hsort
    obtain rfl := Option.some.inj h
    have hlead : Leads candidateOrder (eligible cs) top := by
      apply best_leads
      rw [best, eligible, hsort]
      rfl
    refine ⟨top, hlead, rfl, ?_⟩
    have hmem (d : RuleMatchCandidate) : d ∈ eligible cs ↔ d = top ∨ d ∈ rest := by
      rw [← List.mem_cons, ← hsort, mem_sort_by, eligible]
    -- the winner does not tie with itself
    have hany : rest.any (conflictsWith top) = true ↔ ∃ d ∈ eligible cs, Ties top d := by
      simp only [List.any_eq_true, conflicts_with_iff, hmem]
      constructor
      · intro h
        obtain ⟨d, hd, ht⟩ := h
        exact ⟨d, .inr hd, ht⟩
      · intro h
        obtain ⟨d, rfl | hd, ht⟩ := h
        · exact absurd rfl ht.1
        · exact ⟨d, hd, ht⟩
    rw [← hany]
    cases rest.any (conflictsWith top) <;> simp

section
variable {input : NormalizedDecisionInput} {lookup : LookupResult} {book : CanonicalRuleBook}
  {policy : ZonePriorityPolicy}

theorem mem_vetoes :
    c ∈ eligible (blocksOnly (tierList input lookup book tier)) ↔
      Contender input lookup book tier c ∧ c.action = .block :=
  (@mem_round c input lookup book (true, tier)).trans (by simp)

theorem no_veto_iff :
    selectWinner (blocksOnly (tierList input lookup book tier)) = none ↔
      ¬ Vetoed input lookup book tier := by
  simp only [select_winner_none, List.eq_nil_iff_forall_not_mem, mem_vetoes, Vetoed, not_exists]

theorem vetoed_of_winner
    (h : selectWinner (blocksOnly (tierList input lookup book tier)) = some w) :
    Vetoed input lookup book tier := by
  by_contra hno
  rw [no_veto_iff.mpr hno] at h
  cases h

theorem veto_chosen (h : selectWinner (blocksOnly (tierList input lookup book tier)) = some w) :
    Chosen policy (fun tier' c => Contender input lookup book tier' c ∧ tier' = tier ∧
      c.action = .block) w := by
  obtain ⟨c, ⟨hc, hlead⟩, hw, hmark⟩ := select_winner_some h
  obtain ⟨hcontends, hblock⟩ := mem_vetoes.mp hc
  refine ⟨tier, c, ⟨hcontends, rfl, hblock⟩, ?_, hw, ?_⟩
  · intro tier' c' h'
    obtain ⟨hc', rfl, hb'⟩ := h'
    exact before_of_order (hlead c' (mem_vetoes.mpr ⟨hc', hb'⟩))
  · simp only [hmark, mem_vetoes, true_and]

theorem no_tier_iff :
    ((tierOrder policy).map (tierList input lookup book)).findSome? selectWinner = none ↔
      ∀ tier c, ¬ Contender input lookup book tier c := by
  simp only [List.findSome?_eq_none_iff, List.mem_map, forall_exists_index, and_imp,
    forall_apply_eq_imp_iff₂, select_winner_none, List.eq_nil_iff_forall_not_mem, mem_tier_list]
  constructor
  · intro h tier
    exact h tier (mem_tier_order policy tier)
  · intro h tier _
    exact h tier

theorem tier_chosen
    (h : ((tierOrder policy).map (tierList input lookup book)).findSome? selectWinner = some w) :
    Chosen policy (Contender input lookup book) w := by
  rw [List.findSome?_map] at h
  obtain ⟨before, tier, after, horder, hw, hbefore⟩ := List.findSome?_eq_some_iff.mp h
  obtain ⟨c, ⟨hc, hlead⟩, hw, hmark⟩ := select_winner_some hw
  refine ⟨tier, c, mem_tier_list.mp hc, ?_, hw, ?_⟩
  · intro tier' c' h'
    have hmem : tier' ∈ before ++ tier :: after := horder ▸ mem_tier_order policy tier'
    rcases List.mem_append.mp hmem with hb | hb
    · -- an earlier tier has no candidate
      have hnone := select_winner_none.mp (hbefore tier' hb)
      have hc' := mem_tier_list.mpr h'
      rw [hnone] at hc'
      cases hc'
    · rcases List.mem_cons.mp hb with rfl | hb
      · exact before_of_order (hlead c' (mem_tier_list.mpr h'))
      · have hpairs := tiers_in_order policy
        rw [horder, List.pairwise_append, List.pairwise_cons] at hpairs
        exact Or.inl (hpairs.2.1.1 tier' hb)
  · simp only [hmark, mem_tier_list]

theorem chosen_congr {field field' : MatchClass → RuleMatchCandidate → Prop}
    (h : ∀ tier c, field tier c ↔ field' tier c) (hw : Chosen policy field w) :
    Chosen policy field' w := by
  have heq : field = field' := funext fun tier => funext fun c => propext (h tier c)
  exact heq ▸ hw

theorem in_play_all (hip : ¬ Vetoed input lookup book .exactIp)
    (happ : ¬ Vetoed input lookup book .application) (tier : MatchClass) (c : RuleMatchCandidate) :
    Contender input lookup book tier c ↔ InPlay input lookup book tier c :=
  ⟨fun hc => ⟨hc, fun h => absurd h hip, fun _ h => absurd h happ⟩, fun hc => hc.1⟩

theorem passes_chosen (h : (tiers input lookup book policy).findSome? selectWinner = some w) :
    Chosen policy (InPlay input lookup book) w := by
  rw [tiers_eq] at h
  cases hip : selectWinner (blocksOnly (tierList input lookup book .exactIp)) with
  | some v =>
    have hv : v = w := by simpa [hip] using h
    have hveto := vetoed_of_winner hip
    exact chosen_congr (fun tier c => by simp [InPlay, hveto]) (veto_chosen (hv ▸ hip))
  | none =>
    have hnoip := no_veto_iff.mp hip
    cases happ : selectWinner (blocksOnly (tierList input lookup book .application)) with
    | some v =>
      have hv : v = w := by simpa [hip, happ] using h
      have hveto := vetoed_of_winner happ
      exact chosen_congr (fun tier c => by simp [InPlay, hnoip, hveto]) (veto_chosen (hv ▸ happ))
    | none =>
      have htiers : ((tierOrder policy).map (tierList input lookup book)).findSome? selectWinner =
          some w := by
        rwa [List.cons_append, List.findSome?_cons_of_isNone (by simp [hip]), List.cons_append,
          List.findSome?_cons_of_isNone (by simp [happ]), List.nil_append] at h
      exact chosen_congr (in_play_all hnoip (no_veto_iff.mp happ)) (tier_chosen htiers)

theorem passes_none :
    (tiers input lookup book policy).findSome? selectWinner = none ↔
      ∀ tier c, ¬ Contender input lookup book tier c := by
  rw [tiers_eq, List.findSome?_append, Option.or_eq_none_iff, no_tier_iff]
  constructor
  · intro h
    exact h.2
  · intro h
    have hnone (tier : MatchClass) :
        selectWinner (blocksOnly (tierList input lookup book tier)) = none :=
      no_veto_iff.mpr fun hveto => hveto.elim fun c hc => h tier c hc.1
    exact ⟨by simp [hnone], h⟩

theorem matched_iff :
    matchRules input lookup book policy mode = .matchedRoute w ↔
      (tiers input lookup book policy).findSome? selectWinner = some w := by
  rw [matchRules]
  split <;> simp [*]

theorem default_iff :
    matchRules input lookup book policy mode = .defaultRoute (noMatchReason input book) mode ↔
      ∀ tier c, ¬ Contender input lookup book tier c := by
  rw [← @passes_none input lookup book policy, matchRules]
  split <;> simp [*]

end

/-- The decision is the best of what is in play, the default when no rule contends. -/
theorem match_rules_optimum (input : NormalizedDecisionInput) (lookup : LookupResult)
    (book : CanonicalRuleBook) (policy : ZonePriorityPolicy) (mode : RouteBehaviorMode) :
    (∀ w, matchRules input lookup book policy mode = .matchedRoute w →
      Chosen policy (InPlay input lookup book) w ∧
      (Vetoed input lookup book .exactIp → w.action = .block ∧ w.matchClass = .exactIp) ∧
      (¬ Vetoed input lookup book .exactIp → Vetoed input lookup book .application →
        w.action = .block ∧ w.matchClass = .application)) ∧
    ((∃ w, matchRules input lookup book policy mode = .matchedRoute w) ↔
      ∃ tier c, Contender input lookup book tier c) ∧
    (matchRules input lookup book policy mode = .defaultRoute (noMatchReason input book) mode ↔
      ∀ tier c, ¬ Contender input lookup book tier c) := by
  have hclass {tier : MatchClass} {c : RuleMatchCandidate} (hc : Contender input lookup book tier c)
      (htier : tier = .exactIp ∨ tier = .application) : c.matchClass = tier := by
    obtain ⟨role, r, -, -, -, p, hp, rfl⟩ := hc
    cases hp <;> simp_all [makeCandidate]
  refine ⟨fun w hw => ?_, ?_, default_iff⟩
  · have hchosen := passes_chosen (matched_iff.mp hw)
    obtain ⟨tier, c, ⟨hc, hip, happ⟩, -, hw, -⟩ := id hchosen
    refine ⟨hchosen, fun hveto => ?_, fun hno hveto => ?_⟩ <;> rw [hw]
    · obtain ⟨rfl, hb⟩ := hip hveto
      exact ⟨hb, @hclass _ c hc (.inl rfl)⟩
    · obtain ⟨rfl, hb⟩ := happ hno hveto
      exact ⟨hb, @hclass _ c hc (.inr rfl)⟩
  · simp only [matched_iff, ← Option.isSome_iff_exists, ← Option.ne_none_iff_isSome, ne_eq,
      passes_none, not_forall, not_not]

def vetoedAddress : IpAddr := .v4 0xC6336401#32

def blockedAddressBook : CanonicalRuleBook :=
  bookOf [addressRule "R-1" true (.exactIp vetoedAddress) .block]
    [addressRule "R-2" true (.exactIp vetoedAddress) .route]

/-- A vetoed address the other set routes: a contender of the other route ties with the winner,
and the marker is not set. -/
theorem veto_hides_the_tie :
    ∃ w c, matchRules (connection none (some vetoedAddress)) ⟨none⟩ blockedAddressBook ⟨true⟩
        .preferPrimary = .matchedRoute w ∧
      Contender (connection none (some vetoedAddress)) ⟨none⟩ blockedAddressBook .exactIp c ∧
      w.matchClass = .exactIp ∧ Ties w c ∧ w.conflict = .none := by
  refine ⟨⟨"R-1".toList, .primary, .exactIp, 1, .noFilter, .none, .block⟩,
    ⟨"R-2".toList, .secondary, .exactIp, 1, .noFilter, .none, .route⟩, by decide +kernel,
    mem_tier_list.mp (by decide +kernel), rfl, ?_, rfl⟩
  exact ⟨by decide, rfl, rfl⟩

end NetRuleRouter.MatchOptimum
