import NetRuleRouter.ChainWalk
import NetRuleRouter.KeptChains

/-!
# What a best-effort apply leaves open

When a best-effort apply succeeds the kernel holds the ruleset without the
rules it reports. That is as narrow as the plan where the drops on IPsec
traffic only restate drops that stand without them.
-/

set_option autoImplicit false

namespace NetRuleRouter.KeptDrops
open NftMerge NftBatch BestEffort KeptChains LowerLinux

variable {w w' : World}

theorem run_replace_ok {table : Table} (h : runBatch (.replace table) w = (.ok (), w')) :
    w'.table = some table := by
  unfold runBatch at h
  split at h
  · cases h
  · cases h
  · cases h
    rfl

variable {debug : List NftRule → List UInt8} {ruleset : NftRuleset} {reporting : DropReporting}
variable {outcome : NftApplyOutcome}

theorem apply_ok (h : apply debug ruleset w = (.ok (), w')) :
    ∃ reporting, w'.table = some (renderBatchWith debug ruleset reporting) := by
  unfold apply at h
  split at h
  · rename_i hrun
    cases h
    exact ⟨_, run_replace_ok hrun⟩
  · cases h

theorem retry_silent_ok (h : retrySilent debug ruleset reporting w = (true, w')) :
    w'.table = some (renderBatchWith debug ruleset .silent) := by
  unfold retrySilent at h
  split at h
  · cases h
  · split at h
    · cases h
    · rename_i hrun
      have htable := run_replace_ok hrun
      cases h
      exact htable

theorem keep_congr {offenders others : List ℕ} {chain : List NftRule} {offset : ℕ}
    (h : ∀ q ∈ chain.zipIdx offset, q.2 ∈ offenders ↔ q.2 ∈ others) :
    keepRules offenders chain offset = keepRules others chain offset := by
  unfold keepRules
  rw [List.filter_congr fun q hq => decide_eq_decide.mpr (not_congr (h q hq))]

theorem without_skipped (ruleset : NftRuleset) (offenders : List ℕ) :
    (withoutRules ruleset ((withoutRules ruleset offenders).2.map (·.index))).1 =
      (withoutRules ruleset offenders).1 := by
  have hmem : ∀ q ∈ indexedRules ruleset,
      q.2 ∈ (withoutRules ruleset offenders).2.map (·.index) ↔ q.2 ∈ offenders := by
    intro q hq
    have hat := List.mem_zipIdx_iff_getElem?.mp hq
    rw [List.getElem?_append] at hat
    simp only [withoutRules, List.mem_map, List.mem_filterMap, Option.map_eq_some_iff]
    constructor
    · rintro ⟨_, ⟨i, hi, r, -, rfl⟩, hindex⟩
      exact hindex ▸ hi
    · exact fun hoffends => ⟨_, ⟨q.2, hoffends, q.1, hat, rfl⟩, rfl⟩
  rw [indexed_chains] at hmem
  have houtput := keep_congr fun q hq => hmem q (List.mem_append_left _ hq)
  have hforward := keep_congr fun q hq => hmem q (List.mem_append_right _ hq)
  rw [withoutRules, houtput, hforward]
  rfl

theorem apply_kept_ok {offenders : List ℕ}
    (h : applyKept debug ruleset reporting offenders w = (.ok outcome, w')) :
    outcome.skipped = (withoutRules ruleset offenders).2 ∧
      ∃ reporting, w'.table =
        some (renderBatchWith debug (withoutRules ruleset offenders).1 reporting) := by
  unfold applyKept at h
  dsimp only at h
  split at h
  · cases h
  · split at h
    · rename_i happly
      cases h
      exact ⟨rfl, apply_ok happly⟩
    · split at h
      · rename_i hretry
        cases h
        exact ⟨rfl, _, retry_silent_ok hretry⟩
      · cases h

theorem without_none (ruleset : NftRuleset) : (withoutRules ruleset []).1 = ruleset := by
  have hkeep (rules : List NftRule) (offset : ℕ) : keepRules [] rules offset = rules := by
    rw [keepRules, List.filter_eq_self.mpr (by simp), List.zipIdx_map_fst]
  rw [withoutRules, hkeep, hkeep]

theorem best_effort_ok (h : applyBestEffort debug ruleset w = (.ok outcome, w')) :
    ∃ reporting, w'.table = some (renderBatchWith debug
      (withoutRules ruleset (outcome.skipped.map (·.index))).1 reporting) := by
  unfold applyBestEffort at h
  dsimp only at h
  split at h
  · rename_i hrun
    cases h
    exact ⟨_, by rw [List.map_nil, without_none]; exact run_replace_ok hrun⟩
  · split at h
    · cases h
    · split at h
      · rename_i hretry
        cases h
        exact ⟨_, by rw [List.map_nil, without_none]; exact retry_silent_ok hretry⟩
      · split at h
        · cases h
        · cases h
        · split at h
          · rename_i hsearch
            cases h
            unfold searchAndApply at hsearch
            split at hsearch
            · cases hsearch
            · obtain ⟨hskipped, reporting, htable⟩ := apply_kept_ok hsearch
              refine ⟨reporting, ?_⟩
              rw [hskipped, without_skipped]
              exact htable
          · cases h

/-- A best-effort apply leaves closed whatever a ruleset closes, for every set of refused rules it
would go on without, exactly if what the drops on IPsec traffic decide is dropped without them
too. In any case the table is the one it reports. -/
theorem best_effort_leaves_closed (debug : List NftRule → List UInt8) (ruleset : NftRuleset) :
    ((∀ offenders, wideningRefusals ruleset offenders = [] →
      StaysDropped ruleset (withoutRules ruleset offenders).1) ↔
        Restated ruleset.rules ∧ Restated ruleset.forward) ∧
    ∀ w w' outcome, applyBestEffort debug ruleset w = (.ok outcome, w') →
      ∃ reporting, w'.table = some (renderBatchWith debug
        (withoutRules ruleset (outcome.skipped.map (·.index))).1 reporting) :=
  ⟨stays_dropped_iff ruleset, fun _ _ _ => best_effort_ok⟩

/-- The lockdown of a resolver, restated for IPsec traffic above the permit of a corporate
network. -/
def corporateFlows (user : UserPrincipal) : List FlowRule :=
  let lockdown : FlowRule :=
    { verdict := .block
      precedence := ⟨.dohBlock, 0⟩
      flow := ⟨.hostV4 0x0a000035, some 443, some .tcp⟩
      principal := .user user
      app := .any
      egress := .any }
  [lockdown,
    { lockdown with
      precedence := ⟨.hardBlock, dohForeignVetoOrdinalBase⟩
      egress := .underIpsecPolicy },
    { lockdown with
      verdict := .permit
      precedence := ⟨.catchAllExempt, 0x00100000⟩
      flow := ⟨.subnetV4 0x0a000000 16, none, none⟩
      egress := .underIpsecPolicy }]

def localExemption (user : UserPrincipal) : FlowRule :=
  { verdict := .permit
    precedence := ⟨.catchAllExempt, 0⟩
    flow := ⟨.subnetV4 0x0a000000 8, none, none⟩
    principal := .user user
    app := .any
    egress := .any }

def sampleUser : UserPrincipal := .osUser "unix:uid:1000".toList

def lowered (flows : List FlowRule) : NftRuleset :=
  (lowerScopedWith [⟨⟨sampleUser, flows⟩, ⟨none, none⟩⟩] {}).ruleset

def exemptedRuleset : NftRuleset := lowered (localExemption sampleUser :: corporateFlows sampleUser)

/-- Without the rules on IPsec traffic the exemption lets through what the plan cuts. -/
theorem exemption_opens_lockdown :
    wideningRefusals exemptedRuleset [1, 3] = [] ∧
      ¬ StaysDropped exemptedRuleset (withoutRules exemptedRuleset [1, 3]).1 := by
  refine ⟨by decide +kernel, fun h => ?_⟩
  have hdropped := h.1 ⟨some 1000, 0, .v4 0x0a000035, 6, some 443, "eth0".toList, true, false⟩
    (by decide +kernel)
  revert hdropped
  decide +kernel

def corporateRuleset : NftRuleset := lowered (corporateFlows sampleUser)

def lockdownRules : NftRule × NftRule :=
  let conditions : List NftMatch := [.skUid 1000, .dstV4 0x0a000035 32, .protocol 6, .dstPort 443]
  (⟨conditions, .dropReported ⟨.dnsLockdown, false⟩, "doh-block#0".toList⟩,
    ⟨conditions ++ [.routeIpsec], .dropReported ⟨.dnsLockdown, false⟩,
      "hard-block#1342177280".toList⟩)

theorem corporate_restated : Restated corporateRuleset.rules := by
  have hrules : corporateRuleset.rules = [ownTraffic, lockdownRules.2,
      ⟨[.skUid 1000, .dstV4 0x0a000000 16, .routeIpsec], .accept,
        "catch-all-exempt#1048576".toList⟩, lockdownRules.1] := by decide +kernel
  have hplain : corporateRuleset.rules.filter (!isIpsec ·) = [ownTraffic, lockdownRules.1] := by
    decide +kernel
  intro p r hr hdrop hipsec
  rw [hplain, drops_cons, drops_cons]
  rw [hrules, List.find?_cons] at hr
  cases hown : ownTraffic.applies p with
  | true =>
    rw [hown, Option.some.injEq] at hr
    subst hr
    cases hdrop
  | false =>
    rw [hown, List.find?_cons] at hr
    cases hveto : lockdownRules.2.applies p with
    | true =>
      rw [NftRule.applies, lockdownRules, List.all_append, Bool.and_eq_true] at hveto
      have hlockdown : lockdownRules.1.applies p = true := hveto.1
      rw [hlockdown]
      rfl
    | false =>
      -- no other rule on IPsec traffic drops
      have hmem := List.mem_of_find?_eq_some (hveto ▸ hr)
      simp only [List.mem_cons, List.not_mem_nil, or_false] at hmem
      rcases hmem with rfl | rfl
      · cases hdrop
      · cases hipsec

/-- Without them here the lockdown itself still stands. -/
theorem lockdown_stands :
    wideningRefusals corporateRuleset [1, 2] = [] ∧
      StaysDropped corporateRuleset (withoutRules corporateRuleset [1, 2]).1 := by
  have hforward : corporateRuleset.forward = [] := by decide +kernel
  have hnarrow : wideningRefusals corporateRuleset [1, 2] = [] := by decide +kernel
  refine ⟨hnarrow, (best_effort_leaves_closed (fun _ => []) corporateRuleset).1.mpr
    ⟨corporate_restated, ?_⟩ [1, 2] hnarrow⟩
  rw [hforward]
  intro p r hr
  cases hr

open FirstMatch Sorting ChainWalk

/-- With no rule left out the kernel answers a packet by the first lowered flow that speaks of it,
and lets through what none speaks of. -/
theorem installed_chain_follows_plans (plans : List ScopedPlan) (accounts : ServiceAccountScope)
    (h : applyBestEffort debug (lowerScopedWith plans accounts).ruleset w = (.ok outcome, w'))
    (hwhole : outcome.skipped = []) :
    ∃ table reporting, w'.table = some table ∧ ∀ p mark established, p.mark ≠ ownTrafficMark →
      (established = true → mark &&& flowMarkMask ≠
        flowGeneration debug (lowerScopedWith plans accounts).ruleset) →
      (runChain established p mark table.output).2 =
        (((sortBy flowOrder ((indexed plans).filter (lowers accounts))).filter
          (decide <| ·.flow.principal ≠ .forwarded)).findSome? fun e =>
            if inScope accounts.uids p e.flow.principal then answer e.flow e.source.egress p
            else none).elim .accept (shown reporting) := by
  obtain ⟨reporting, htable⟩ := best_effort_ok h
  rw [hwhole, List.map_nil, without_none] at htable
  refine ⟨_, reporting, htable, fun p mark established hmark hfresh => ?_⟩
  rw [← output_verdict plans accounts hmark, renderBatchWith]
  by_cases hnil : (lowerScopedWith plans accounts).ruleset.rules = []
  · simp only [renderOutput, hnil, if_true]
    rfl
  · rw [run_output established p mark debug hnil, if_neg fun hm => hfresh hm.1 hm.2, firstVerdict,
      decision]
    cases (lowerScopedWith plans accounts).ruleset.rules.find? (·.applies p) <;> rfl

/-- The rules of the sample plans as `Debug` prints them. -/
def sampleDebug : List NftRule → List UInt8 :=
  let tcp := ", DstV4 \x7b net: 10.0.0.0, prefix: 8 \x7d, Protocol(6)"
  let pinned (who system : String) := [
    printedRule (who ++ tcp ++ ", OutInterface(\"wg0\")") "Accept" "route-secondary#0 via",
    printedRule (who ++ tcp) ("DropReported(DropTag \x7b kind: Pin, system: " ++ system ++ " \x7d)")
      "route-secondary#0 leak-guard"]
  printedChain (printedRule ("SkUid(1001)" ++ tcp)
      "DropReported(DropTag \x7b kind: Rule, system: false \x7d)" "hard-block#0" ::
    pinned "SkUid(1000)" "false" ++ pinned "SkUidSet([(1, 999)])" "true")

/-- Traffic of a service account off the tunnel it is pinned to. -/
theorem service_leak_cut : ∃ table reporting,
    (applyBestEffort sampleDebug (lowerScopedWith samplePlans sampleAccounts).ruleset
      ⟨none, false, [.done]⟩).2.table = some table ∧
    (runChain false { samplePacket with skUid := some 7 } 0 table.output).2 =
      shown reporting (.dropReported ⟨.pin, true⟩) := by
  obtain ⟨table, reporting, htable, hruns⟩ := installed_chain_follows_plans samplePlans
    sampleAccounts (rfl : applyBestEffort sampleDebug _ ⟨none, false, [.done]⟩ = _) rfl
  refine ⟨table, reporting, htable, (hruns _ 0 false (by decide) (by simp)).trans ?_⟩
  cases reporting <;> decide +kernel

end NetRuleRouter.KeptDrops
