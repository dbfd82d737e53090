import NetRuleRouter.Census
import NetRuleRouter.MatchOptimum

/-!
# The census and the engine

For a book of name rules every claim of the engine has its census score and
every score its contender, so the set with the stronger score is the route
the engine takes, and equal scores are the tie it marks.
-/

set_option autoImplicit false

namespace NetRuleRouter.CensusAgreement
open TextOps HostMatching Canonical RuleMatching Contenders MatchOptimum Census

def Claims (h : Text) (book : CanonicalRuleBook) (role : RouteRole) (m : MatchSpecificity) : Prop :=
  ∃ r ∈ (book.setFor role).rules, r.enabled = true ∧
    claimInSet h r (book.setFor role) book = some m

section
variable {h : Text} {book : CanonicalRuleBook} {role : RouteRole}

theorem mem_claims {m : MatchSpecificity} :
    m ∈ ((book.setFor role).rules.filter CanonicalRule.enabled).filterMap
      (fun r => claimInSet h r (book.setFor role) book) ↔ Claims h book role m := by
  simp only [List.mem_filterMap, List.mem_filter, Claims, and_assoc]

theorem specificity_some {m : MatchSpecificity} :
    matchSpecificity h (book.setFor role) book = some m ↔
      Claims h book role m ∧ ∀ m', Claims h book role m' → m' ≤ m := by
  rw [matchSpecificity, List.max?_eq_some_iff]
  simp only [mem_claims]

theorem specificity_none :
    matchSpecificity h (book.setFor role) book = none ↔ ∀ m, ¬ Claims h book role m := by
  rw [matchSpecificity, List.max?_eq_none_iff, List.eq_nil_iff_forall_not_mem]
  simp only [mem_claims]

end

def NamesOnly (book : CanonicalRuleBook) : Prop :=
  ∀ role, ∀ r ∈ (book.setFor role).rules, r.appMatch = none ∧
    (∀ ip, r.addressMatch ≠ some (.exactIp ip)) ∧ (∀ b, r.addressMatch ≠ some (.subnet b)) ∧
    ∀ range, r.addressMatch ≠ some (.ipRange range)

variable {t : MatchClass} {t' : MatchClass}

theorem reads_tier {h : Text} {p : MatchClass × ℕ} {m : MatchSpecificity}
    (hr : Reads h t p m) : t = .exactFqdn ∨ t = .suffixDomain ∨ t = .zone := by
  cases hr <;> simp

theorem weight_of_place {policy : ZonePriorityPolicy}
    (ht : t = .exactFqdn ∨ t = .suffixDomain ∨ t = .zone)
    (ht' : t' = .exactFqdn ∨ t' = .suffixDomain ∨ t' = .zone)
    (h : tierPlace policy t < tierPlace policy t') : tierWeight t' < tierWeight t := by
  obtain ⟨preferIp⟩ := policy
  revert h
  obtain rfl | rfl | rfl := ht <;> obtain rfl | rfl | rfl := ht' <;> cases preferIp <;> decide

theorem before_score {h : Text} {policy : ZonePriorityPolicy}
    {c c' : RuleMatchCandidate} {m m' : MatchSpecificity}
    (hr : Reads h t (c.matchClass, c.specificity) m)
    (hr' : Reads h t' (c'.matchClass, c'.specificity) m') (hb : Before policy t t' c c') :
    m' ≤ m := by
  rw [le_iff_place hr' hr]
  have hle {w a b w' a' b' : ℕ} (hlex : w < w' ∨ w = w' ∧ (a < a' ∨ a = a' ∧ b ≤ b')) :
      (toLex (w, toLex (a, b)) : ℕ ×ₗ ℕ ×ₗ ℕ) ≤ toLex (w', toLex (a', b')) := by
    simpa [Prod.Lex.toLex_le_toLex, Prod.Lex.toLex_lt_toLex] using hlex
  apply hle
  rcases hb with hplace | ⟨rfl, hs | ⟨hs, ha | ⟨ha, -⟩⟩⟩
  · exact Or.inl (weight_of_place (reads_tier hr) (reads_tier hr') hplace)
  · exact Or.inr ⟨rfl, Or.inl hs⟩
  · exact Or.inr ⟨rfl, Or.inr ⟨hs, Nat.sub_le_sub_left ha.le 1⟩⟩
  · exact Or.inr ⟨rfl, Or.inr ⟨hs, by rw [ha]⟩⟩

structure WinningScore (h : Text) (book : CanonicalRuleBook) (w : RuleMatchCandidate)
    (m : MatchSpecificity) : Prop where
  own : Claims h book w.routeRole m
  top : ∀ role m', Claims h book role m' → m' ≤ m
  marked : w.conflict = .detected ↔ ∃ role, role ≠ w.routeRole ∧ Claims h book role m

section
variable {h : Text} {book : CanonicalRuleBook} {input : NormalizedDecisionInput}
  {lookup : LookupResult} {policy : ZonePriorityPolicy} {mode : RouteBehaviorMode}
  (hbook : NamesOnly book) (hhost : input.hostname = .valid h)
include hbook hhost

theorem contender_reads {c : RuleMatchCandidate} (hc : Contender input lookup book t c) :
    ∃ m, Claims h book c.routeRole m ∧ Reads h t (c.matchClass, c.specificity) m := by
  obtain ⟨role, r, hr, he, -, p, hp, rfl⟩ := hc
  obtain ⟨hnoapp, hnoip, hnonet, hnorange⟩ := hbook role r hr
  have hclaims {m : MatchSpecificity} (hm : claimInSet h r (book.setFor role) book = some m) :
      Claims h book role m := ⟨r, hr, he, hm⟩
  have hsame {host : Text} (hhost' : input.hostname = .valid host) : h = host :=
    NormalizedHostname.valid.inj (hhost.symm.trans hhost')
  cases hp with
  | exactFqdn host hopen hhost' haddr =>
    obtain rfl := hsame hhost'
    exact ⟨.exactFqdn, hclaims (by simp [claimInSet, haddr]), .exactFqdn⟩
  | suffixDomain host label hopen hhost' haddr hnames =>
    obtain rfl := hsame hhost'
    exact ⟨_, hclaims (by simp [claimInSet, haddr, hnames]), .suffixDomain label hnames⟩
  | siteZone host name hopen hhost' haddr hsite hnames halone =>
    obtain rfl := hsame hhost'
    exact ⟨_, hclaims (by simp [claimInSet, haddr, hnames, hsite, halone]),
      .siteZone name (match_zone_suffix hnames)⟩
  | anyZone host base named hopen hhost' haddr hnames halone =>
    obtain rfl := hsame hhost'
    obtain ⟨-, zone, -, -, hcov⟩ := match_any_zone_iff.mp hnames
    exact ⟨_, hclaims (by simp [claimInSet, haddr, hnames, halone, Option.filter]),
      .suffixDomain named hcov⟩
  | zone host name hopen hhost' haddr hsingle hnames =>
    obtain rfl := hsame hhost'
    exact ⟨_, hclaims (by simp [claimInSet, haddr, hnames, hsingle]), .zone name hnames hsingle⟩
  | exactIp ip hopen hip haddr => exact absurd haddr (hnoip ip)
  | subnet ip block hopen hip hblock =>
    obtain ⟨blocks, hblocks, -⟩ := Option.bind_eq_some_iff.mp hblock
    obtain ⟨a, haddr, ha⟩ := Option.bind_eq_some_iff.mp hblocks
    cases a with
    | subnet b => exact absurd haddr (hnonet b)
    | ipRange range => exact absurd haddr (hnorange range)
    | _ => cases ha
  | application identity app specificity hopen hidentity haddr happ hnames =>
    rw [hnoapp] at happ
    cases happ

theorem not_vetoed (ht : t = .exactIp ∨ t = .application) :
    ¬ Vetoed input lookup book t := by
  intro hveto
  obtain ⟨c, hc, -⟩ := hveto
  obtain ⟨m, -, hr⟩ := contender_reads hbook hhost hc
  obtain rfl | rfl := ht <;> cases hr

variable (hopen : input.matchClassAvailability.exactFqdn = none ∧
  input.matchClassAvailability.suffixDomain = none ∧ input.matchClassAvailability.zone = none)
include hopen

theorem claim_contends {role : RouteRole} {m : MatchSpecificity} (hm : Claims h book role m) :
    ∃ t c, Contender input lookup book t c ∧ c.routeRole = role ∧
      Reads h t (c.matchClass, c.specificity) m := by
  obtain ⟨r, hr, he, hclaim⟩ := hm
  have hcontends {r : CanonicalRule} (hr : r ∈ (book.setFor role).rules) (he : r.enabled = true)
      {t : MatchClass} {p : MatchClass × ℕ} {m : MatchSpecificity}
      (hp : Names input lookup book role r t p) (hreads : Reads h t p m) :
      ∃ t c, Contender input lookup book t c ∧ c.routeRole = role ∧
        Reads h t (c.matchClass, c.specificity) m := by
    have hfilter : evalAppFilter r input.appIdentity = .noFilter := by
      simp [evalAppFilter, (hbook role r hr).1]
    exact ⟨t, makeCandidate r role (evalAppFilter r input.appIdentity) p,
      ⟨role, r, hr, he, by rw [hfilter]; rfl, p, hp, rfl⟩, rfl, hreads⟩
  unfold claimInSet at hclaim
  split at hclaim
  · rename_i name haddr
    split at hclaim
    · rename_i hname
      subst hname
      obtain rfl := Option.some.inj hclaim
      exact hcontends hr he (.exactFqdn _ hopen.1 hhost haddr) .exactFqdn
    · cases hclaim
  · rename_i label haddr
    split at hclaim
    · rename_i hnames
      obtain rfl := Option.some.inj hclaim
      exact hcontends hr he (.suffixDomain h label hopen.2.1 hhost haddr hnames)
        (.suffixDomain label hnames)
    · cases hclaim
  · rename_i base haddr
    obtain ⟨named, hnamed, rfl⟩ := Option.map_eq_some_iff.mp hclaim
    obtain ⟨hnames, halone⟩ := Option.filter_eq_some_iff.mp hnamed
    obtain ⟨-, zone, -, -, hcov⟩ := match_any_zone_iff.mp hnames
    exact hcontends hr he
      (.anyZone h base named hopen.2.1 hhost haddr hnames (by simpa using halone))
      (.suffixDomain named hcov)
  · rename_i label haddr
    split at hclaim
    · rename_i hnames
      obtain rfl := Option.some.inj hclaim
      split
      · rename_i hsite
        cases hholds : (book.setFor role).holdsSuffix label r.appMatch with
        | false =>
          exact hcontends hr he (.siteZone h label hopen.2.1 hhost haddr hsite hnames hholds)
            (.siteZone label (match_zone_suffix hnames))
        | true =>
          obtain ⟨q, hq, hqe, -, hqaddr⟩ := holds_suffix_iff.mp hholds
          have hcov := match_zone_suffix hnames
          exact hcontends hq hqe (.suffixDomain h label hopen.2.1 hhost hqaddr hcov)
            (.suffixDomain label hcov)
      · rename_i hsingle
        rw [Bool.not_eq_true] at hsingle
        exact hcontends hr he (.zone h label hopen.2.2 hhost haddr hsingle hnames)
          (.zone label hnames hsingle)
    · cases hclaim
  · cases hclaim

theorem winner_score {w : RuleMatchCandidate}
    (hw : matchRules input lookup book policy mode = .matchedRoute w) :
    ∃ m, WinningScore h book w m := by
  have hall := in_play_all (@not_vetoed _ h book input lookup hbook hhost (.inl rfl))
    (not_vetoed hbook hhost (.inr rfl))
  obtain ⟨t, c, hc, hbefore, hwc, hmark⟩ :=
    chosen_congr (fun t c => (hall t c).symm) (passes_chosen (matched_iff.mp hw))
  have hrole : w.routeRole = c.routeRole := by rw [hwc]
  obtain ⟨m, hclaims, hreads⟩ := contender_reads hbook hhost hc
  refine ⟨m, hrole ▸ hclaims, fun role m' hm' => ?_, ?_⟩
  · obtain ⟨t', c', hc', -, hreads'⟩ := claim_contends hbook hhost hopen hm'
    exact before_score hreads hreads' (hbefore t' c' hc')
  · rw [hmark]
    constructor
    · intro htie
      obtain ⟨c', hc', hne, hspec, hapex⟩ := htie
      obtain ⟨m', hclaims', hreads'⟩ := contender_reads hbook hhost hc'
      have hplace : place t (c'.matchClass, c'.specificity) =
          place t (c.matchClass, c.specificity) := by
        rw [place, place, hspec, hapex]
      have hm : m' = m :=
        le_antisymm ((le_iff_place hreads' hreads).mpr hplace.le)
          ((le_iff_place hreads hreads').mpr hplace.ge)
      exact ⟨c'.routeRole, by rwa [hrole], hm ▸ hclaims'⟩
    · intro hother
      obtain ⟨role, hne, hm⟩ := hother
      obtain ⟨t', c', hc', rfl, hreads'⟩ := claim_contends hbook hhost hopen hm
      obtain ⟨rfl, hspec, hapex⟩ := same_of_eq hreads hreads'
      exact ⟨c', hc', by rwa [← hrole], hspec.symm, hapex.symm⟩

theorem default_iff_no_claim :
    matchRules input lookup book policy mode = .defaultRoute (noMatchReason input book) mode ↔
      ∀ role m, ¬ Claims h book role m := by
  rw [default_iff]
  constructor
  · intro hno role m hm
    obtain ⟨t, c, hc, -⟩ := claim_contends hbook hhost hopen hm
    exact hno t c hc
  · intro hno t c hc
    obtain ⟨m, hm, -⟩ := contender_reads hbook hhost hc
    exact hno _ m hm

end

def score (h : Text) (book : CanonicalRuleBook) (role : RouteRole) : WithBot MatchSpecificity :=
  matchSpecificity h (book.setFor role) book

section
variable {h : Text} {book : CanonicalRuleBook} {w : RuleMatchCandidate} {m : MatchSpecificity}
variable (hw : WinningScore h book w m)
include hw

theorem score_own : score h book w.routeRole = m :=
  specificity_some.mpr ⟨hw.own, hw.top w.routeRole⟩

theorem score_le (role : RouteRole) : score h book role ≤ m := by
  cases hs : matchSpecificity h (book.setFor role) book with
  | none =>
    rw [show score h book role = ⊥ from hs]
    exact bot_le
  | some m' =>
    rw [show score h book role = (m' : WithBot _) from hs]
    exact WithBot.coe_le_coe.mpr (hw.top role m' (specificity_some.mp hs).1)

theorem marked_iff_score :
    w.conflict = .detected ↔ score h book .primary = score h book .secondary := by
  have hown := score_own hw
  have hclaims (role : RouteRole) : Claims h book role m ↔ score h book role = m :=
    ⟨fun hm => specificity_some.mpr ⟨hm, hw.top role⟩, fun hs => (specificity_some.mp hs).1⟩
  rw [hw.marked]
  cases hrole : w.routeRole <;> rw [hrole] at hown <;> simp [exists_role, hclaims, hown, eq_comm]

theorem higher_score_wins {role other : RouteRole}
    (hlt : score h book other < score h book role) (hne : role ≠ other) : w.routeRole = role := by
  by_contra hrole
  have hother : w.routeRole = other := by
    revert hrole hne
    cases w.routeRole <;> cases role <;> cases other <;> simp
  have hle := score_le hw role
  rw [← score_own hw, hother] at hle
  exact absurd hlt hle.not_gt

end

/-- For a book of name rules the census and the engine agree: the higher score is the route
taken, no score the default, and equal scores a marked tie. -/
theorem census_agrees (book : CanonicalRuleBook) (input : NormalizedDecisionInput)
    (lookup : LookupResult) (policy : ZonePriorityPolicy) (mode : RouteBehaviorMode) (h : Text)
    (hopen : input.matchClassAvailability.exactFqdn = none ∧
      input.matchClassAvailability.suffixDomain = none ∧
      input.matchClassAvailability.zone = none)
    (hhost : input.hostname = .valid h) (hbook : NamesOnly book) :
    let decision := matchRules input lookup book policy mode
    let p := score h book .primary
    let s := score h book .secondary
    (s < p → ∃ w, decision = .matchedRoute w ∧ w.routeRole = .primary) ∧
    (p < s → ∃ w, decision = .matchedRoute w ∧ w.routeRole = .secondary) ∧
    (p = ⊥ ∧ s = ⊥ ↔ decision = .defaultRoute (noMatchReason input book) mode) ∧
    (p = s ∧ p ≠ ⊥ ↔ ∃ w, decision = .matchedRoute w ∧ w.conflict = .detected) := by
  intro decision p s
  have hnone : p = ⊥ ∧ s = ⊥ ↔ ∀ role m, ¬ Claims h book role m := by
    constructor
    · intro hps role
      cases role with
      | primary => exact specificity_none.mp hps.1
      | secondary => exact specificity_none.mp hps.2
    · intro hno
      exact ⟨specificity_none.mpr (hno .primary), specificity_none.mpr (hno .secondary)⟩
  have hdefault := @default_iff_no_claim h book input lookup policy mode hbook hhost hopen
  cases hd : decision with
  | defaultRoute reason mode' =>
    have hno : p = ⊥ ∧ s = ⊥ := by
      rw [hnone, ← hdefault]
      unfold decision at hd
      rw [matchRules] at hd ⊢
      split at hd
      · cases hd
      · rfl
    rw [← hd]
    refine ⟨?_, ?_, hnone.trans hdefault.symm, ?_⟩
    · simp [hno]
    · simp [hno]
    · simp [hno, hd]
  | matchedRoute w =>
    obtain ⟨m, hw⟩ := winner_score hbook hhost hopen hd
    have hsome : ¬ (p = ⊥ ∧ s = ⊥) := by
      rw [hnone]
      intro hno
      exact hno _ m hw.own
    refine ⟨fun hlt => ⟨w, rfl, higher_score_wins hw hlt (by simp)⟩,
      fun hlt => ⟨w, rfl, higher_score_wins hw hlt (by simp)⟩, by simp [hsome], ?_⟩
    simp only [RequestedRouteDecision.matchedRoute.injEq, exists_eq_left', marked_iff_score hw]
    exact ⟨And.left, fun hps => ⟨hps, fun hp => hsome ⟨hp, hps.symm.trans hp⟩⟩⟩

def siteBook : CanonicalRuleBook :=
  bookOf [addressRule "R-1" true (.suffixDomain "b.c".toList) .route]
    [addressRule "R-2" true (.zone "b.c".toList) .route]

/-- A zone on the additional route is stronger than the suffix of its name on the main one. -/
theorem census_agrees_at_site :
    score "a.b.c".toList siteBook .primary < score "a.b.c".toList siteBook .secondary ∧
      ∃ w, matchRules (connection (some "a.b.c".toList) none) ⟨none⟩ siteBook ⟨true⟩
        .preferPrimary = .matchedRoute w ∧ w.routeRole = .secondary := by
  have hlt : score "a.b.c".toList siteBook .primary < score "a.b.c".toList siteBook .secondary := by
    rw [show score "a.b.c".toList siteBook .primary =
        ((MatchSpecificity.suffixDomain 3 false : MatchSpecificity) : WithBot _) by decide +kernel,
      show score "a.b.c".toList siteBook .secondary =
        ((MatchSpecificity.suffixDomain 3 true : MatchSpecificity) : WithBot _) by decide +kernel,
      WithBot.coe_lt_coe]
    decide
  refine ⟨hlt, (census_agrees siteBook (connection (some "a.b.c".toList) none) ⟨none⟩ ⟨true⟩
    .preferPrimary "a.b.c".toList ⟨rfl, rfl, rfl⟩ rfl ?_).2.1 hlt⟩
  intro role r hr
  cases role with
  | primary =>
    obtain rfl : r = addressRule "R-1" true (.suffixDomain "b.c".toList) .route :=
      List.mem_singleton.mp hr
    simp [addressRule]
  | secondary =>
    obtain rfl : r = addressRule "R-2" true (.zone "b.c".toList) .route :=
      List.mem_singleton.mp hr
    simp [addressRule]

end NetRuleRouter.CensusAgreement
