import NetRuleRouter.BestEffort

/-!
# Chains without their refused rules

Leaving an accept out only narrows a chain. A refused drop on IPsec traffic is
left out with every permit on it, so what it cut must be cut again by the rules
that do not ask for IPsec: where a plain accept stands before such a drop, the
rest is wider than the plan.
-/

set_option autoImplicit false

namespace NetRuleRouter.KeptChains
open FirstMatch NftMerge BestEffort

def dropsPacket (rules : List NftRule) (p : Packet) : Bool := (firstVerdict rules p).any (·.isDrop)

theorem drops_cons (r : NftRule) (rules : List NftRule) (p : Packet) :
    dropsPacket (r :: rules) p = if r.applies p then r.verdict.isDrop else dropsPacket rules p := by
  rw [dropsPacket, firstVerdict, decision_cons]
  split
  · rfl
  · rfl

def StaysDropped (ruleset kept : NftRuleset) : Prop :=
  (∀ p, dropsPacket ruleset.rules p = true → dropsPacket kept.rules p = true) ∧
    ∀ p, dropsPacket ruleset.forward p = true → dropsPacket kept.forward p = true

/-- Whatever a drop on IPsec traffic decides is dropped also by the rules that do not ask for
IPsec. -/
def Restated (rules : List NftRule) : Prop :=
  ∀ p r, rules.find? (·.applies p) = some r → r.verdict.isDrop = true → isIpsec r = true →
    dropsPacket (rules.filter (!isIpsec ·)) p = true

variable {rules : List NftRule} {p : Packet}

theorem restated_drops (h : Restated rules) (hdrops : dropsPacket rules p = true) :
    dropsPacket (rules.filter (!isIpsec ·)) p = true := by
  rw [dropsPacket, Option.any_eq_true] at hdrops
  obtain ⟨verdict, hverdict, hdrop⟩ := hdrops
  obtain ⟨front, r, rest, hsplit, happlies, rfl, hfront⟩ := decision_some.mp hverdict
  have hfind : rules.find? (·.applies p) = some r :=
    List.find?_eq_some_iff_append.mpr ⟨happlies, front, rest, hsplit, fun q hq => by
      rw [hfront q hq]
      rfl⟩
  cases hipsec : isIpsec r with
  | true => exact h p r hfind hdrop hipsec
  | false =>
    have hplain : firstVerdict (rules.filter (!isIpsec ·)) p = some r.verdict := by
      refine decision_some.mpr ⟨front.filter (!isIpsec ·), r, rest.filter (!isIpsec ·), ?_,
        happlies, rfl, fun q hq => hfront q (List.mem_of_mem_filter hq)⟩
      rw [hsplit, List.filter_append, List.filter_cons_of_pos (by rw [hipsec]; rfl)]
    rw [dropsPacket, hplain]
    exact hdrop

variable {offset : ℕ}

section
variable {offenders : List ℕ}

theorem keep_cons (r : NftRule) (rules : List NftRule) (offset : ℕ) :
    keepRules offenders (r :: rules) offset =
      if offset ∈ offenders then keepRules offenders rules (offset + 1)
      else r :: keepRules offenders rules (offset + 1) := by
  rw [keepRules, List.zipIdx_cons, List.filter_cons]
  by_cases hmem : offset ∈ offenders <;> simp [hmem, keepRules]

theorem kept_drops_accepts
    (haccepts : ∀ q ∈ rules.zipIdx offset, q.2 ∈ offenders → q.1.verdict.isDrop = false)
    (hdrops : dropsPacket rules p = true) :
    dropsPacket (keepRules offenders rules offset) p = true := by
  induction rules generalizing offset with
  | nil => exact hdrops
  | cons r rules ih =>
    rw [List.zipIdx_cons] at haccepts
    have hrest := @ih (offset + 1) fun q hq => haccepts q (by simp [hq])
    rw [drops_cons] at hdrops
    rw [keep_cons]
    split
    · rename_i hmem
      have haccept : r.verdict.isDrop = false := haccepts (r, offset) (by simp) hmem
      rw [haccept] at hdrops
      split at hdrops
      · cases hdrops
      · exact hrest hdrops
    · rw [drops_cons]
      split
      · rename_i happlies
        rw [if_pos happlies] at hdrops
        exact hdrops
      · rename_i happlies
        rw [if_neg happlies] at hdrops
        exact hrest hdrops

theorem kept_drops_ipsec
    (hipsec : ∀ q ∈ rules.zipIdx offset, q.2 ∈ offenders → q.1.verdict.isDrop = true →
      isIpsec q.1 = true)
    (hpermits : ∀ q ∈ rules.zipIdx offset, isIpsec q.1 = true → q.2 ∉ offenders →
      q.1.verdict.isDrop = true) (hdrops : dropsPacket (rules.filter (!isIpsec ·)) p = true) :
    dropsPacket (keepRules offenders rules offset) p = true := by
  induction rules generalizing offset with
  | nil => exact hdrops
  | cons r rules ih =>
    rw [List.zipIdx_cons] at hipsec hpermits
    have hrest := @ih (offset + 1) (fun q hq => hipsec q (by simp [hq]))
      fun q hq => hpermits q (by simp [hq])
    rw [keep_cons]
    cases hr : isIpsec r with
    | true =>
      rw [List.filter_cons_of_neg (by rw [hr]; simp)] at hdrops
      split
      · exact hrest hdrops
      · rename_i hmem
        rw [drops_cons, hpermits (r, offset) (by simp) hr hmem]
        split
        · rfl
        · exact hrest hdrops
    | false =>
      rw [List.filter_cons_of_pos (by rw [hr]; rfl), drops_cons] at hdrops
      split at hdrops
      · rename_i happlies
        have hmem : offset ∉ offenders := by
          intro hmem
          rw [hipsec (r, offset) (by simp) hmem hdrops] at hr
          cases hr
        rw [if_neg hmem, drops_cons, if_pos happlies]
        exact hdrops
      · rename_i happlies
        split
        · exact hrest hdrops
        · rw [drops_cons, if_neg happlies]
          exact hrest hdrops

theorem keep_plain (h : ∀ q ∈ rules.zipIdx offset, q.2 ∈ offenders ↔ isIpsec q.1 = true) :
    keepRules offenders rules offset = rules.filter (!isIpsec ·) := by
  induction rules generalizing offset with
  | nil => rfl
  | cons r rules ih =>
    rw [List.zipIdx_cons] at h
    have hrest := @ih (offset + 1) fun q hq => h q (by simp [hq])
    have hr : offset ∈ offenders ↔ isIpsec r = true := h (r, offset) (by simp)
    rw [keep_cons, List.filter_cons, hrest]
    cases hipsec : isIpsec r with
    | true | false => simp [hr, hipsec]

variable {ruleset : NftRuleset}

theorem indexed_chains (ruleset : NftRuleset) :
    indexedRules ruleset =
      ruleset.rules.zipIdx 0 ++ ruleset.forward.zipIdx ruleset.rules.length := by
  rw [indexedRules, List.zipIdx_append, Nat.zero_add]

theorem widening_nil_iff :
    wideningRefusals ruleset offenders = [] ↔ ∀ q ∈ indexedRules ruleset, q.2 ∈ offenders →
      q.1.verdict.isDrop = true →
        isIpsec q.1 = true ∧ everyIpsecPermitRefused ruleset offenders = true := by
  simp only [wideningRefusals, List.map_eq_nil_iff, List.filter_eq_nil_iff, Bool.and_eq_true,
    decide_eq_true_eq, Bool.not_eq_true', not_and, Bool.not_eq_false, and_imp]

theorem every_refused_iff :
    everyIpsecPermitRefused ruleset offenders = true ↔ ∀ q ∈ indexedRules ruleset,
      isIpsec q.1 = true → q.2 ∉ offenders → q.1.verdict.isDrop = true := by
  simp only [everyIpsecPermitRefused, List.all_eq_true, Bool.or_eq_true, Bool.not_eq_true',
    decide_eq_true_eq]
  refine forall₂_congr fun q _ => ?_
  cases isIpsec q.1 <;> by_cases q.2 ∈ offenders <;> simp_all

theorem kept_chain_drops (hwidening : wideningRefusals ruleset offenders = [])
    (hchain : ∀ q ∈ rules.zipIdx offset, q ∈ indexedRules ruleset) (hrestated : Restated rules)
    (hdrops : dropsPacket rules p = true) :
    dropsPacket (keepRules offenders rules offset) p = true := by
  rw [widening_nil_iff] at hwidening
  cases hevery : everyIpsecPermitRefused ruleset offenders with
  | true =>
    refine kept_drops_ipsec (fun q hq hmem hdrop => ?_) (fun q hq => ?_)
      (restated_drops hrestated hdrops)
    · exact (hwidening q (hchain q hq) hmem hdrop).1
    · exact every_refused_iff.mp hevery q (hchain q hq)
  | false =>
    refine kept_drops_accepts (fun q hq hmem => ?_) hdrops
    by_contra hdrop
    rw [Bool.not_eq_false] at hdrop
    rw [(hwidening q (hchain q hq) hmem hdrop).2] at hevery
    cases hevery

end

/-- A kernel that takes no `rt ipsec` rule at all. -/
def ipsecRules (ruleset : NftRuleset) : List ℕ :=
  ((indexedRules ruleset).filter (isIpsec ·.1)).map Prod.snd

theorem mem_ipsec_rules {ruleset : NftRuleset} {q : NftRule × ℕ} (hq : q ∈ indexedRules ruleset) :
    q.2 ∈ ipsecRules ruleset ↔ isIpsec q.1 = true := by
  have hat := List.mem_zipIdx_iff_getElem?.mp hq
  simp only [ipsecRules, List.mem_map, List.mem_filter]
  constructor
  · rintro ⟨r, ⟨hr, hipsec⟩, hindex⟩
    have hrat := List.mem_zipIdx_iff_getElem?.mp hr
    rw [hindex, hat, Option.some.injEq] at hrat
    rw [hrat]
    exact hipsec
  · exact fun hipsec => ⟨q, ⟨hq, hipsec⟩, rfl⟩

theorem ipsec_rules_narrow (ruleset : NftRuleset) :
    wideningRefusals ruleset (ipsecRules ruleset) = [] := by
  refine widening_nil_iff.mpr fun q hq hmem _ => ?_
  refine ⟨(mem_ipsec_rules hq).mp hmem, every_refused_iff.mpr fun r hr hipsec hkept => ?_⟩
  exact absurd ((mem_ipsec_rules hr).mpr hipsec) hkept

theorem stays_dropped_iff (ruleset : NftRuleset) :
    (∀ offenders, wideningRefusals ruleset offenders = [] →
      StaysDropped ruleset (withoutRules ruleset offenders).1) ↔
    Restated ruleset.rules ∧ Restated ruleset.forward := by
  have hrules : ∀ q ∈ ruleset.rules.zipIdx 0, q ∈ indexedRules ruleset := fun q hq => by
    rw [indexed_chains]
    exact List.mem_append_left _ hq
  have hforward : ∀ q ∈ ruleset.forward.zipIdx ruleset.rules.length, q ∈ indexedRules ruleset :=
    fun q hq => by
      rw [indexed_chains]
      exact List.mem_append_right _ hq
  constructor
  · intro h
    obtain ⟨houtput, hforwarded⟩ := h _ (ipsec_rules_narrow ruleset)
    have hkept := keep_plain (fun q hq => mem_ipsec_rules (hrules q hq))
    have hkeptForward := keep_plain (fun q hq => mem_ipsec_rules (hforward q hq))
    have hdecides {rules : List NftRule} {p : Packet} {r : NftRule}
        (hr : rules.find? (·.applies p) = some r) (hdrop : r.verdict.isDrop = true) :
        dropsPacket rules p = true := by
      rw [dropsPacket, firstVerdict, decision, hr]
      exact hdrop
    refine ⟨fun p r hr hdrop _ => ?_, fun p r hr hdrop _ => ?_⟩
    · rw [← hkept]
      exact houtput p (hdecides hr hdrop)
    · rw [← hkeptForward]
      exact hforwarded p (hdecides hr hdrop)
  · rintro ⟨hr, hf⟩ offenders hwidening
    exact ⟨fun p => kept_chain_drops hwidening hrules hr,
      fun p => kept_chain_drops hwidening hforward hf⟩

end NetRuleRouter.KeptChains
