import NetRuleRouter.Projection

/-!
# What the rewrites of a book keep

Widening adds a twin to each bare name that needs one, and taking the twins
away again gives the book back. A second widening adds nothing, but for a zone
that is switched off, whose twin is off too and so does not count. The
verdicts of check rules move rules between the sets and lose none.
-/

set_option autoImplicit false

namespace NetRuleRouter.BookRewrites
open TextOps Sorting HostMatching Canonical Projection

section
variable {own other : CanonicalRuleSet} {r : CanonicalRule} {d : Text}

def twinsOf (own other : CanonicalRuleSet) : List CanonicalRule :=
  own.rules.filterMap fun r => (coveredName own other r).map (subdomainTwin r)

theorem mem_cover_set : r ∈ (coverSet own other).rules ↔ r ∈ own.rules ∨
    ∃ q ∈ own.rules, ∃ d, coveredName own other q = some d ∧ subdomainTwin q d = r := by
  simp [coverSet]

theorem cover_fixed_iff : coverSet own other = own ↔ twinsOf own other = [] := by
  constructor
  · intro h
    have hlen := congrArg (fun s => s.rules.length) h
    simp only [coverSet, CanonicalRuleSet.fromRules, (sort_by_perm _ _).length_eq,
      List.length_append] at hlen
    exact List.length_eq_zero_iff.mp (Nat.add_eq_left.mp hlen)
  · intro h
    rw [coverSet, show (own.rules.filterMap fun r => _) = [] from h, List.append_nil,
      from_own_rules]

theorem twins_nil_iff :
    twinsOf own other = [] ↔ ∀ r ∈ own.rules, coveredName own other r = none := by
  simp [twinsOf, List.filterMap_eq_nil_iff]

/-- A rule of the set that is on and is, or gains, the suffix rule of the name. -/
def CoveredByAnother (own other : CanonicalRuleSet) (d : Text) (app : Option CanonicalAppMatch) :
    Prop :=
  ∃ s ∈ own.rules, s.enabled = true ∧ s.appMatch = app ∧
    (s.addressMatch = some (.suffixDomain d) ∨ s.addressMatch = some (.zone d) ∨
      s.addressMatch = some (.exactFqdn d) ∧
        ∀ q ∈ own.rules ++ other.rules, isSuffixWith d app q = false)

theorem cover_holds_suffix (hd : zoneRanksAsSuffix d = true) {app : Option CanonicalAppMatch} :
    (coverSet own other).holdsSuffix d app = true ↔ CoveredByAnother own other d app := by
  rw [holds_suffix_iff]
  constructor
  · rintro ⟨s, hs, hon, happ, haddr⟩
    rcases mem_cover_set.mp hs with hs | ⟨q, hq, e, he, rfl⟩
    · exact ⟨s, hs, hon, happ, Or.inl haddr⟩
    · obtain rfl : e = d := by simpa [subdomainTwin] using haddr
      refine ⟨q, hq, hon, happ, Or.inr ?_⟩
      have happ' : q.appMatch = app := happ
      rcases covered_name_iff.mp he with ⟨hexact, hfree⟩ | ⟨hzone, -⟩
      · exact Or.inr ⟨hexact, happ' ▸ hfree⟩
      · exact Or.inl hzone
  · rintro ⟨s, hs, hon, happ, haddr | haddr⟩
    · exact ⟨s, mem_cover_set.mpr (Or.inl hs), hon, happ, haddr⟩
    · by_cases hown : own.holdsSuffix d app = true
      · obtain ⟨q, hq, hqon, hqapp, hqaddr⟩ := holds_suffix_iff.mp hown
        exact ⟨q, mem_cover_set.mpr (Or.inl hq), hqon, hqapp, hqaddr⟩
      · have hname : coveredName own other s = some d := by
          rw [covered_name_iff, happ]
          rcases haddr with hzone | hexact
          · exact Or.inr ⟨hzone, hd, Bool.eq_false_iff.mpr hown⟩
          · exact Or.inl hexact
        exact ⟨subdomainTwin s d, mem_cover_set.mpr (Or.inr ⟨s, hs, d, hname, rfl⟩), hon, happ, rfl⟩

theorem second_twins {other' : CanonicalRuleSet} (hother : ∀ q ∈ other.rules, q ∈ other'.rules) :
    twinsOf (coverSet own other) other' = [] ↔
      ∀ r ∈ own.rules, ∀ d, r.addressMatch = some (.zone d) → zoneRanksAsSuffix d = true →
        r.enabled = false → CoveredByAnother own other d r.appMatch := by
  rw [twins_nil_iff]
  have hapex {r : CanonicalRule} (hr : r ∈ (coverSet own other).rules)
      (hnot : ∀ d, r.addressMatch ≠ some (.suffixDomain d)) : r ∈ own.rules := by
    rcases mem_cover_set.mp hr with hr | ⟨q, -, d, -, rfl⟩
    · exact hr
    · exact (hnot d rfl).elim
  constructor
  · intro h r hr d hzone hd _
    rw [← cover_holds_suffix hd]
    by_contra hfree
    have hnone := h r (mem_cover_set.mpr (Or.inl hr))
    rw [covered_name_iff.mpr (Or.inr ⟨hzone, hd, Bool.eq_false_iff.mpr hfree⟩)] at hnone
    cases hnone
  · intro h r hr
    by_contra hsome
    obtain ⟨d, hd⟩ := Option.ne_none_iff_exists'.mp hsome
    rcases covered_name_iff.mp hd with ⟨hexact, hfree⟩ | ⟨hzone, hranks, hfree⟩
    · -- the first pass left a suffix rule of the name
      have hown := hapex hr (by simp [hexact])
      by_cases hfirst : ∀ q ∈ own.rules ++ other.rules, isSuffixWith d r.appMatch q = false
      · have hname := covered_name_iff.mpr (Or.inl ⟨hexact, hfirst⟩)
        have htwin := hfree (subdomainTwin r d) (List.mem_append_left _
          (mem_cover_set.mpr (Or.inr ⟨r, hown, d, hname, rfl⟩)))
        simp [isSuffixWith, subdomainTwin] at htwin
      · push Not at hfirst
        obtain ⟨q, hq, hsuffix⟩ := hfirst
        refine hsuffix (hfree q (List.mem_append.mpr ?_))
        exact (List.mem_append.mp hq).imp (fun hq => mem_cover_set.mpr (Or.inl hq)) (hother q)
    · have hown := hapex hr (by simp [hzone])
      have hcovered : CoveredByAnother own other d r.appMatch := by
        cases hon : r.enabled with
        | true => exact ⟨r, hown, hon, rfl, Or.inr (Or.inl hzone)⟩
        | false => exact h r hown d hzone hranks hon
      rw [(cover_holds_suffix hranks).mpr hcovered] at hfree
      cases hfree

end

/-- Widening a widened book changes nothing exactly when every zone of several labels that is
switched off stands beside a rule of its set that is on and is, or gains, the same suffix rule. -/
theorem coverage_idempotent_iff (b : CanonicalRuleBook) :
    withSubdomainCoverage (withSubdomainCoverage b) = withSubdomainCoverage b ↔
      ∀ role, ∀ r ∈ (b.setFor role).rules, ∀ d, r.addressMatch = some (.zone d) →
        zoneRanksAsSuffix d = true → r.enabled = false →
          CoveredByAnother (b.setFor role) (b.setFor (otherRole role)) d r.appMatch := by
  have hkept (own other : CanonicalRuleSet) : ∀ q ∈ own.rules, q ∈ (coverSet own other).rules :=
    fun q hq => mem_cover_set.mpr (Or.inl hq)
  rw [withSubdomainCoverage, CanonicalRuleBook.mk.injEq]
  rw [show (withSubdomainCoverage b).primary = coverSet b.primary b.secondary from rfl,
    show (withSubdomainCoverage b).secondary = coverSet b.secondary b.primary from rfl,
    cover_fixed_iff, cover_fixed_iff, second_twins (hkept _ _), second_twins (hkept _ _)]
  constructor
  · intro h role
    cases role with
    | primary => exact h.1
    | secondary => exact h.2
  · intro h
    exact ⟨h .primary, h .secondary⟩

/-- A zone of two labels that is switched off gains its twin again at every pass. -/
theorem disabled_zone_widened_twice :
    let b := bookOf [addressRule "z" false (.zone "co.uk".toList) .route] []
    withSubdomainCoverage (withSubdomainCoverage b) ≠ withSubdomainCoverage b := by
  decide

def isTwin (s : CanonicalRuleSet) (r : CanonicalRule) : Bool :=
  match stripSuf "+sub".toList r.id, r.addressMatch with
  | some apexId, some (.suffixDomain d) => s.rules.any fun apex =>
    apex.id == apexId &&
      (apex.addressMatch == some (.exactFqdn d) || apex.addressMatch == some (.zone d)) &&
      apex.appMatch == r.appMatch && apex.enabled == r.enabled && apex.action == r.action &&
      apex.comment == r.comment && r.origin.isNone
  | _, _ => false

def withoutTwins (s : CanonicalRuleSet) : Option CanonicalRuleSet :=
  if s.rules.any (isTwin s) then some (.fromRules (s.rules.filter fun r => !isTwin s r)) else none

def withoutSubdomainTwins (b : CanonicalRuleBook) : Option CanonicalRuleBook :=
  let primary := withoutTwins b.primary
  let secondary := withoutTwins b.secondary
  if primary.isNone && secondary.isNone then none
  else some ⟨primary.getD b.primary, secondary.getD b.secondary⟩

/-- The rule is what widening derives from the apex. -/
def Derives (apex r : CanonicalRule) : Prop :=
  ∃ d, r.addressMatch = some (.suffixDomain d) ∧ r.id = apex.id ++ "+sub".toList ∧
    (apex.addressMatch = some (.exactFqdn d) ∨ apex.addressMatch = some (.zone d)) ∧
    apex.appMatch = r.appMatch ∧ apex.enabled = r.enabled ∧ apex.action = r.action ∧
    apex.comment = r.comment ∧ r.origin = none

section
variable {own other : CanonicalRuleSet} {r : CanonicalRule}

theorem is_twin_iff {s : CanonicalRuleSet} :
    isTwin s r = true ↔ ∃ apex ∈ s.rules, Derives apex r := by
  unfold isTwin
  split
  next apexId d hid haddr =>
    rw [strip_suf_some] at hid
    simp only [List.any_eq_true, Bool.and_eq_true, Bool.or_eq_true, beq_iff_eq,
      Option.isNone_iff_eq_none]
    refine exists_congr fun apex => and_congr_right fun _ => ?_
    simp only [Derives, haddr, Option.some.injEq, CanonicalAddressMatch.suffixDomain.injEq,
      exists_eq_left', hid, List.append_cancel_right_eq]
    tauto
  next hno =>
    refine iff_of_false (by simp) ?_
    rintro ⟨apex, -, d, haddr, hid, -⟩
    exact hno apex.id d (strip_suf_some.mpr hid) haddr

theorem twin_derived {q : CanonicalRule} {d : Text} (h : coveredName own other q = some d) :
    Derives q (subdomainTwin q d) := by
  refine ⟨d, rfl, rfl, ?_, rfl, rfl, rfl, rfl, rfl⟩
  rcases covered_name_iff.mp h with ⟨hexact, -⟩ | ⟨hzone, -⟩
  · exact Or.inl hexact
  · exact Or.inr hzone

theorem cover_is_twin : isTwin (coverSet own other) r = isTwin own r := by
  rw [Bool.eq_iff_iff, is_twin_iff, is_twin_iff]
  constructor
  · rintro ⟨apex, hapex, hd⟩
    refine ⟨apex, ?_, hd⟩
    rcases mem_cover_set.mp hapex with hapex | ⟨q, -, e, -, rfl⟩
    · exact hapex
    · -- a twin names a suffix, so it is no apex
      obtain ⟨d, -, -, haddr, -⟩ := hd
      simp [subdomainTwin] at haddr
  · rintro ⟨apex, hapex, hd⟩
    exact ⟨apex, mem_cover_set.mpr (Or.inl hapex), hd⟩

theorem without_twins_none : withoutTwins own = none ↔ ∀ r ∈ own.rules, isTwin own r = false := by
  simp [withoutTwins]

theorem without_twins_cover (h : withoutTwins own = none) :
    withoutTwins (coverSet own other) = if twinsOf own other = [] then none else some own := by
  have hplain := without_twins_none.mp h
  have htwin : ∀ t ∈ twinsOf own other, isTwin own t = true := by
    intro t ht
    obtain ⟨q, hq, hmap⟩ := List.mem_filterMap.mp ht
    obtain ⟨d, hd, rfl⟩ := Option.map_eq_some_iff.mp hmap
    exact is_twin_iff.mpr ⟨q, hq, twin_derived hd⟩
  have hperm : (coverSet own other).rules.Perm (own.rules ++ twinsOf own other) :=
    sort_by_perm _ _
  split
  · rename_i hnil
    rw [cover_fixed_iff.mpr hnil, h]
  · rename_i hsome
    obtain ⟨t, ht⟩ := List.exists_mem_of_ne_nil _ hsome
    have hany : (coverSet own other).rules.any (isTwin (coverSet own other)) = true :=
      List.any_eq_true.mpr ⟨t, hperm.mem_iff.mpr (List.mem_append_right _ ht), by
        rw [cover_is_twin, htwin t ht]⟩
    rw [withoutTwins, if_pos hany]
    -- the rules that stay are those of the set, in the order it has them
    have hkept : (coverSet own other).rules.filter (fun r => !isTwin (coverSet own other) r) =
        own.rules := by
      simp only [cover_is_twin]
      have hself : own.rules.filter (fun r => !isTwin own r) = own.rules :=
        List.filter_eq_self.mpr fun r hr => by simp [hplain r hr]
      have hnone : (twinsOf own other).filter (fun r => !isTwin own r) = [] :=
        List.filter_eq_nil_iff.mpr fun t ht => by simp [htwin t ht]
      have hsub : own.rules.Sublist (coverSet own other).rules :=
        List.sublist_insertionSort own.sorted (List.sublist_append_left _ _)
      have hlen := (hperm.filter fun r => !isTwin own r).length_eq
      rw [List.filter_append, hself, hnone, List.append_nil] at hlen
      have hsub' := hsub.filter fun r => !isTwin own r
      rw [hself] at hsub'
      exact (hsub'.eq_of_length hlen.symm).symm
    rw [hkept, from_own_rules]

end

/-- A book without twins comes back from its widening when the twins are taken away. -/
theorem coverage_undone (b : CanonicalRuleBook) (h : withoutSubdomainTwins b = none) :
    withoutSubdomainTwins (withSubdomainCoverage b) =
      if withSubdomainCoverage b = b then none else some b := by
  have hsame : withSubdomainCoverage b = b ↔
      twinsOf b.primary b.secondary = [] ∧ twinsOf b.secondary b.primary = [] := by
    rw [← cover_fixed_iff, ← cover_fixed_iff]
    cases b
    simp [withSubdomainCoverage]
  have hclean : withoutTwins b.primary = none ∧ withoutTwins b.secondary = none := by
    simpa [withoutSubdomainTwins] using h
  have hprimary := @without_twins_cover b.primary b.secondary hclean.1
  have hsecondary := @without_twins_cover b.secondary b.primary hclean.2
  simp only [hsame]
  simp only [withoutSubdomainTwins, withSubdomainCoverage, hprimary, hsecondary]
  by_cases hp : twinsOf b.primary b.secondary = [] <;>
    by_cases hs : twinsOf b.secondary b.primary = []
  · simp [hp, hs]
  · simp [hp, hs, cover_fixed_iff.mpr hp]
  · simp [hp, hs, cover_fixed_iff.mpr hs]
  · simp [hp, hs]

/-- A bare name on each route, the second a zone of several labels. -/
theorem bare_names_restored :
    let b := bookOf [addressRule "a" true (.exactFqdn "example.com".toList) .route]
      [addressRule "z" false (.zone "co.uk".toList) .route]
    withoutSubdomainTwins (withSubdomainCoverage b) = some b := by
  intro b
  rw [coverage_undone b (by decide), if_neg (by decide)]

section
variable {moved : List VerifyMove} {b : CanonicalRuleBook} {role : RouteRole} {r : CanonicalRule}

def goes (moved : List VerifyMove) (written : RouteRole) (r : CanonicalRule) : Bool :=
  oneDestination r && moved.any fun m => m.key.names written r

/-- The check rules of a set for more than one destination, each with the verdicts about it. -/
def widerVerdicts (moved : List VerifyMove) (written : RouteRole) (rules : List CanonicalRule) :
    List (CanonicalRule × VerifyMove) :=
  (rules.filter fun r => isVerify r && !oneDestination r).flatMap fun r =>
    (moved.filter fun m => m.key.names written r).map fun m => (r, m)

theorem is_moved_eq (written : RouteRole) (r : CanonicalRule) :
    isMoved moved written r = (isVerify r && goes moved written r) := by
  have hany : (moved.filter fun m => m.key.names written r).isEmpty =
      !moved.any fun m => m.key.names written r := by
    rw [Bool.eq_iff_iff]
    simp
  cases hv : isVerify r <;> simp [isMoved, movesOf, goes, hv, hany]

theorem proven_hosts_eq (written : RouteRole) (rules : List CanonicalRule) :
    rules.flatMap (provenHosts moved written) = (widerVerdicts moved written rules).map fun e =>
      provenRule e.1 (provenHost e.2.host) := by
  rw [widerVerdicts, List.map_flatMap]
  induction rules with
  | nil => rfl
  | cons r rules ih =>
    rw [List.flatMap_cons, ih, List.filter_cons]
    cases ho : oneDestination r <;> cases hv : isVerify r <;> simp [provenHosts, movesOf, ho, hv]

theorem as_route_plain (rules : List CanonicalRule) :
    (rules.filter fun r => !isVerify r).map asRoute = rules.filter fun r => !isVerify r := by
  refine (List.map_congr_left fun r hr => ?_).trans (List.map_id _)
  have hplain : isVerify r = false := by simpa using (List.mem_filter.mp hr).2
  simp [asRoute, hplain]

theorem as_route_verify (p : CanonicalRule → Bool) (rules : List CanonicalRule) :
    (rules.filter fun r => isVerify r && p r).map asRoute =
      (rules.filter fun r => isVerify r && p r).map fun r => { r with action := .route } := by
  refine List.map_congr_left fun r hr => ?_
  have hverify := (List.mem_filter.mp hr).2
  rw [Bool.and_eq_true] at hverify
  simp [asRoute, hverify.1]

theorem stayed_perm (rules : List CanonicalRule) :
    ((rules.filter fun r => !isMoved moved role r).map asRoute).Perm
      (rules.filter (fun r => !isVerify r) ++
        (rules.filter fun r => isVerify r && !goes moved role r).map
          fun r => { r with action := .route }) := by
  have hplain : (rules.filter fun r => !isMoved moved role r).filter (fun r => !isVerify r) =
      rules.filter fun r => !isVerify r := by
    rw [List.filter_filter]
    refine List.filter_congr fun r _ => ?_
    cases hv : isVerify r <;> simp [is_moved_eq, hv]
  have hverify : (rules.filter fun r => !isMoved moved role r).filter (fun r => !!isVerify r) =
      rules.filter fun r => isVerify r && !goes moved role r := by
    rw [List.filter_filter]
    refine List.filter_congr fun r _ => ?_
    cases hv : isVerify r <;> simp [is_moved_eq, hv]
  have hsplit := List.filter_append_perm (fun r => !isVerify r)
    (rules.filter fun r => !isMoved moved role r)
  rw [hplain, hverify] at hsplit
  rw [← as_route_plain, ← as_route_verify, ← List.map_append]
  exact hsplit.symm.map asRoute

theorem proven_rule_exact (q : CanonicalRule) (host : Text) :
    oneDestination (provenRule q host) = true := by
  rcases proven_address_exact host with ⟨addr, h⟩ | h <;> simp [oneDestination, provenRule, h]

end

/-- Reading the check rules as routes loses no rule: the others stay as they are, each check rule
is a route of one set, and the only new rules are exact routes of the other set, one for each
verdict about a wider check rule. -/
theorem verify_effective_conserves (moved : List VerifyMove) (b : CanonicalRuleBook)
    (role : RouteRole) :
    (∀ r ∈ ((withVerifyEffective moved b).setFor role).rules, r.action ≠ .verify) ∧
    ∃ further : List CanonicalRule,
      ((withVerifyEffective moved b).setFor role).rules.Perm
        ((b.setFor role).rules.filter (fun r => !isVerify r) ++
          ((b.setFor role).rules.filter fun r => isVerify r && !goes moved role r).map
            (fun r => { r with action := .route }) ++
          ((b.setFor (otherRole role)).rules.filter fun r =>
            isVerify r && goes moved (otherRole role) r).map
            (fun r => { r with action := .route }) ++ further) ∧
      List.Forall₂ (fun e r => r.enabled = true ∧ r.action = .route ∧ oneDestination r = true ∧
          r.addressMatch = some (provenAddress (provenHost e.2.host)))
        (widerVerdicts moved (otherRole role) (b.setFor (otherRole role)).rules) further := by
  have hmoved : (b.setFor (otherRole role)).rules.filter (isMoved moved (otherRole role)) =
      (b.setFor (otherRole role)).rules.filter fun r =>
        isVerify r && goes moved (otherRole role) r :=
    List.filter_congr fun r _ => is_moved_eq _ r
  refine ⟨fun r => effective_not_verify, (widerVerdicts moved (otherRole role)
    (b.setFor (otherRole role)).rules).map fun e => provenRule e.1 (provenHost e.2.host), ?_, ?_⟩
  · rw [verify_effective_set]
    refine (sort_by_perm _ _).trans ?_
    rw [List.map_append, hmoved, as_route_verify, proven_hosts_eq]
    exact ((stayed_perm _).append_right _).append_right _
  · rw [List.forall₂_map_right_iff]
    exact List.forall₂_same.mpr fun e _ => ⟨rfl, rfl, proven_rule_exact _ _, rfl⟩

end NetRuleRouter.BookRewrites
