import NetRuleRouter.NftBatch
import NetRuleRouter.Sessions
import NetRuleRouter.LowerLinux

/-!
# What the fast path lets past the rules

A connection keeps the mark a packet left on it, and the mark names a ruleset
that let one of its packets go. The packets of a flow differ in the link they
leave by, so a mark speaks for the next packet only where no rule drops on one
link what the ruleset lets go on another.
-/

set_option autoImplicit false

namespace NetRuleRouter.SteadyFlows
open FirstMatch NftMerge NftBatch Runs LowerLinux TextOps IpNetwork

structure Connection where
  skUid : Option UInt32
  mark : UInt32
  dst : IpAddr
  protocol : UInt8
  dstPort : Option UInt16
  ctReply : Bool

structure Link where
  outInterface : Text
  routeIpsec : Bool

def Connection.packet (c : Connection) (link : Link) : Packet :=
  ⟨c.skUid, c.mark, c.dst, c.protocol, c.dstPort, link.outInterface, link.routeIpsec, c.ctReply⟩

structure State where
  applied : Option (NftRuleset × DropReporting)
  established : Bool
  ctMark : UInt32

inductive Action where
  | apply (ruleset : NftRuleset) (reporting : DropReporting)
  | send (link : Link)

section
variable (debug : List NftRule → List UInt8) (c : Connection)

def judge (s : State) (link : Link) : UInt32 × NftVerdict :=
  match s.applied with
  | none => (s.ctMark, .accept)
  | some (ruleset, reporting) =>
    runChain s.established (c.packet link) s.ctMark (renderBatchWith debug ruleset reporting).output

def step (s : State) : Action → Option State
  | .apply ruleset reporting => some { s with applied := some (ruleset, reporting) }
  | .send link =>
    let judged := judge debug c s link
    let established := s.established || judged.2 == .accept
    some { s with established, ctMark := if established then judged.1 else s.ctMark }

def ruled (s : State) (link : Link) : NftVerdict :=
  match s.applied with
  | none => .accept
  | some (ruleset, reporting) =>
    shown reporting ((firstVerdict ruleset.rules (c.packet link)).getD .accept)

def LetGo (ruleset : NftRuleset) : Prop :=
  ∃ link, (ruleset.rules.find? (·.applies (c.packet link))).all marksItsFlow = true

/-- A ruleset that lets a packet of the connection go for good drops none of its packets,
whatever link they leave by. -/
def Steady (ruleset : NftRuleset) : Prop :=
  LetGo c ruleset → ∀ link, (firstVerdict ruleset.rules (c.packet link)).all (!·.isDrop) = true

end

section
variable {debug : List NftRule → List UInt8} {c : Connection} {Applied : NftRuleset → Prop}
variable {ruleset : NftRuleset} {reporting : DropReporting} {s : State}

/-- A mark in our half names a ruleset that let the connection go. -/
structure Marked (debug : List NftRule → List UInt8) (c : Connection)
    (Applied : NftRuleset → Prop) (s : State) : Prop where
  applied : ∀ ruleset reporting, s.applied = some (ruleset, reporting) → Applied ruleset
  named : s.ctMark &&& flowMarkMask = 0 ∨ ∃ ruleset, Applied ruleset ∧ LetGo c ruleset ∧
    s.ctMark &&& flowMarkMask = flowGeneration debug ruleset

def Applies (Applied : NftRuleset → Prop) (_ : State) : Action → Prop
  | .apply ruleset _ => Applied ruleset
  | .send _ => True

theorem judge_empty
    (hs : s.applied = some (ruleset, reporting)) (hrules : ruleset.rules = []) (link : Link) :
    judge debug c s link = (s.ctMark, .accept) := by
  simp only [judge, hs]
  rw [renderBatchWith, renderOutput, if_pos hrules]
  rfl

theorem judge_rules
    (hs : s.applied = some (ruleset, reporting)) (hrules : ruleset.rules ≠ []) (link : Link) :
    judge debug c s link =
      if s.established = true ∧ s.ctMark &&& flowMarkMask = flowGeneration debug ruleset then
        (s.ctMark, .accept)
      else
        match ruleset.rules.find? (·.applies (c.packet link)) with
        | some rule => (if marksItsFlow rule then setMark (flowGeneration debug ruleset) s.ctMark
            else s.ctMark, shown reporting rule.verdict)
        | none => (setMark (flowGeneration debug ruleset) s.ctMark, .accept) := by
  simp only [judge, hs]
  exact run_output _ _ _ debug hrules reporting

theorem judge_mark (link : Link) :
    (judge debug c s link).1 = s.ctMark ∨
      ∃ ruleset reporting, s.applied = some (ruleset, reporting) ∧ LetGo c ruleset ∧
        (judge debug c s link).1 = setMark (flowGeneration debug ruleset) s.ctMark := by
  cases hs : s.applied with
  | none => exact .inl (by rw [judge, hs])
  | some pair =>
    obtain ⟨ruleset, reporting⟩ := pair
    by_cases hrules : ruleset.rules = []
    · exact .inl (by rw [judge_empty hs hrules])
    · rw [judge_rules hs hrules]
      split
      · exact .inl rfl
      · cases hfind : ruleset.rules.find? (·.applies (c.packet link)) with
        | none =>
          exact .inr ⟨ruleset, reporting, rfl, ⟨link, by rw [hfind]; rfl⟩, rfl⟩
        | some rule =>
          dsimp only
          split
          · rename_i hmarks
            exact .inr ⟨ruleset, reporting, rfl, ⟨link, by rw [hfind]; exact hmarks⟩, rfl⟩
          · exact .inl rfl

theorem marked_step {t : State} {a : Action} (h : Marked debug c Applied s)
    (hallowed : Applies Applied s a) (ht : step debug c s a = some t) :
    Marked debug c Applied t := by
  cases a with
  | apply ruleset reporting =>
    cases ht
    refine ⟨fun other _ hother => ?_, h.named⟩
    cases hother
    exact hallowed
  | send link =>
    cases ht
    refine ⟨h.applied, ?_⟩
    dsimp only
    split
    · rcases @judge_mark debug c s link with hmark | hmark
      · rw [hmark]
        exact h.named
      · obtain ⟨ruleset, reporting, hs, hgo, hmark⟩ := hmark
        rw [hmark, set_mark_masked (generation_masked debug ruleset)]
        exact .inr ⟨ruleset, h.applied ruleset reporting hs, hgo, rfl⟩
    · exact h.named

theorem judge_ruled (link : Link)
    (hfast : ∀ ruleset reporting, s.applied = some (ruleset, reporting) →
      s.ctMark &&& flowMarkMask = flowGeneration debug ruleset →
        (firstVerdict ruleset.rules (c.packet link)).all (!·.isDrop) = true) :
    (judge debug c s link).2 = ruled c s link := by
  cases hs : s.applied with
  | none => simp only [judge, ruled, hs]
  | some pair =>
    obtain ⟨ruleset, reporting⟩ := pair
    by_cases hrules : ruleset.rules = []
    · rw [judge_empty hs hrules]
      simp only [ruled, hs, hrules]
      rfl
    · rw [judge_rules hs hrules]
      simp only [ruled, hs, firstVerdict, decision]
      split
      · rename_i hmarked
        have hopen := hfast ruleset reporting hs hmarked.2
        rw [firstVerdict, decision] at hopen
        cases hfind : ruleset.rules.find? (·.applies (c.packet link)) with
        | none => rfl
        | some rule =>
          rw [hfind, Option.map_some, Option.all_some, Bool.not_eq_true'] at hopen
          cases hverdict : rule.verdict with
          | accept => rw [Option.map_some, Option.getD_some, hverdict]; rfl
          | drop | dropReported tag => rw [hverdict] at hopen; cases hopen
      · cases ruleset.rules.find? (·.applies (c.packet link)) <;> rfl

theorem let_go_marks (hs : s.applied = some (ruleset, reporting)) (hrules : ruleset.rules ≠ [])
    (hnew : s.established = false) {link : Link}
    (hlink : (ruleset.rules.find? (·.applies (c.packet link))).all marksItsFlow = true) :
    judge debug c s link = (setMark (flowGeneration debug ruleset) s.ctMark, .accept) := by
  rw [judge_rules hs hrules, hnew, if_neg (by simp)]
  cases hfind : ruleset.rules.find? (·.applies (c.packet link)) with
  | none => rfl
  | some rule =>
    rw [hfind, Option.all_some] at hlink
    have hverdict : rule.verdict = .accept := by
      rw [marksItsFlow, Bool.and_eq_true, beq_iff_eq] at hlink
      exact hlink.1
    dsimp only
    rw [if_pos hlink, hverdict]
    rfl

theorem let_go_passes (happlied : Applied ruleset) (hrules : ruleset.rules ≠ []) {gone : Link}
    (hgone : (ruleset.rules.find? (·.applies (c.packet gone))).all marksItsFlow = true)
    (reporting : DropReporting) (mark : UInt32) :
    ∃ s, Reached (step debug c) (Applies Applied) ⟨none, false, mark⟩ s ∧
      s.applied = some (ruleset, reporting) ∧ ∀ link, (judge debug c s link).2 = .accept := by
  have hjudged : judge debug c ⟨some (ruleset, reporting), false, mark⟩ gone =
      (setMark (flowGeneration debug ruleset) mark, .accept) :=
    let_go_marks rfl hrules rfl hgone
  refine ⟨⟨some (ruleset, reporting), true, setMark (flowGeneration debug ruleset) mark⟩,
    .next (a := .send gone) (.next (a := .apply ruleset reporting) .rest happlied rfl) trivial ?_,
    rfl, fun link => ?_⟩
  · simp [step, hjudged]
  · rw [judge_rules rfl hrules, if_pos ⟨rfl, set_mark_masked (generation_masked debug _) _⟩]

end

theorem holds_on_any_link {m : NftMatch} (hm : onLink m = false) (c : Connection)
    (link other : Link) : m.holds (c.packet link) = m.holds (c.packet other) := by
  cases m with
  | outInterface device | routeIpsec => cases hm
  | _ => rfl

theorem applies_on_any_link {rule : NftRule} (hrule : rule.conditions.any onLink = false)
    (c : Connection) (link other : Link) :
    rule.applies (c.packet link) = rule.applies (c.packet other) := by
  rw [List.any_eq_false] at hrule
  unfold NftRule.applies
  rw [Bool.eq_iff_iff, List.all_eq_true, List.all_eq_true]
  refine forall₂_congr fun m hm => ?_
  rw [holds_on_any_link (by simpa using hrule m hm) c link other]

theorem steady_of_plain_drops {ruleset : NftRuleset}
    (hplain : ∀ r ∈ ruleset.rules, r.verdict.isDrop = true → r.conditions.any onLink = false)
    (c : Connection) : Steady c ruleset := by
  rintro ⟨gone, hgone⟩ link
  cases hverdict : firstVerdict ruleset.rules (c.packet link) with
  | none => rfl
  | some verdict =>
    obtain ⟨front, rule, rest, hsplit, happlies, rfl, hfront⟩ := decision_some.mp hverdict
    rw [Option.all_some, Bool.not_eq_true']
    by_contra hdrop
    rw [Bool.not_eq_false] at hdrop
    have hrule : rule.applies (c.packet gone) = true := by
      rw [applies_on_any_link (hplain rule (by simp [hsplit]) hdrop) c gone link]
      exact happlies
    -- what was let go met a rule in front of the drop, which then meets this packet too
    have hcons : (rule :: rest).find? (·.applies (c.packet gone)) = some rule :=
      List.find?_cons_of_pos hrule
    rw [hsplit, List.find?_append, hcons] at hgone
    cases hfound : front.find? (·.applies (c.packet gone)) with
    | none =>
      rw [hfound, Option.none_or, Option.all_some, marksItsFlow, Bool.and_eq_true,
        beq_iff_eq] at hgone
      rw [hgone.1] at hdrop
      cases hdrop
    | some early =>
      rw [hfound, Option.some_or, Option.all_some, marksItsFlow, Bool.and_eq_true,
        Bool.not_eq_true'] at hgone
      have hearly := List.find?_some hfound
      rw [applies_on_any_link hgone.2 c gone link,
        hfront early (List.mem_of_find?_eq_some hfound)] at hearly
      cases hearly

/-- Every packet of a connection is judged as the rules in force say, in every run over the
rulesets in use, exactly if none of them lets a packet of it go for good and drops another. -/
theorem fast_path_follows_rules (debug : List NftRule → List UInt8)
    (Applied : NftRuleset → Prop)
    (hgenerations : ∀ r r', Applied r → Applied r' →
      flowGeneration debug r = flowGeneration debug r' → r = r')
    (c : Connection) (mark : UInt32) (hmark : mark &&& flowMarkMask = 0) :
    (∀ s, Reached (step debug c) (Applies Applied) ⟨none, false, mark⟩ s →
      ∀ link, (judge debug c s link).2 = ruled c s link) ↔
    ∀ ruleset, Applied ruleset → Steady c ruleset := by
  constructor
  · rintro hruns ruleset happlied ⟨gone, hgone⟩ link
    by_contra hdrop
    have hrules : ruleset.rules ≠ [] := by
      intro hnil
      rw [hnil] at hdrop
      exact hdrop rfl
    obtain ⟨s, hs, happlies, hpasses⟩ := @let_go_passes debug c Applied ruleset happlied hrules
      gone hgone .silent mark
    have hnext := hruns s hs link
    rw [hpasses link] at hnext
    simp only [ruled, happlies] at hnext
    cases hverdict : firstVerdict ruleset.rules (c.packet link) with
    | none => exact hdrop (by rw [hverdict]; rfl)
    | some verdict =>
      rw [hverdict] at hnext hdrop
      cases verdict with
      | accept => exact hdrop rfl
      | drop | dropReported tag => cases hnext
  · intro hsteady s hs link
    have hmarked : Marked debug c Applied s :=
      hs.keeps ⟨(fun _ _ hnone => by cases hnone), .inl hmark⟩ fun s a t h hallowed ht =>
        marked_step h hallowed ht
    refine judge_ruled link fun ruleset reporting happlied hgeneration => ?_
    have hown := hmarked.applied ruleset reporting happlied
    rcases hmarked.named with hnone | ⟨other, hother, hgo, hnamed⟩
    · rw [hnone] at hgeneration
      exact absurd hgeneration.symm (generation_ne_zero debug ruleset)
    · -- the mark names the ruleset in force
      have heq := hgenerations other ruleset hother hown (hnamed.symm.trans hgeneration)
      subst heq
      exact hsteady other hown hgo link

/-- The lockdown of a resolver in an exempted network, restated for one foreign link. -/
def vetoPlan : ScopedPlan :=
  let user : UserPrincipal := .osUser "unix:uid:1000".toList
  let lockdown : FlowRule :=
    { verdict := .block
      precedence := ⟨.dohBlock, 0⟩
      flow := ⟨.hostV4 0x0a000035, some 443, some .tcp⟩
      principal := .user user
      app := .any
      egress := .any }
  { plan :=
      { principal := user
        flows := [
          lockdown,
          { lockdown with
            precedence := ⟨.hardBlock, dohForeignVetoOrdinalBase⟩
            egress := .onlyVia (.adapter "wg0".toList) },
          { lockdown with
            verdict := .permit
            precedence := ⟨.catchAllExempt, 0⟩
            flow := ⟨.subnetV4 0x0a000000 8, none, none⟩ }] }
    egress := ⟨some "eth0".toList, none⟩ }

def vetoRuleset : NftRuleset := (lowerScopedWith [vetoPlan] {}).ruleset

/-- The rules of `vetoRuleset` as `Debug` prints them. -/
def vetoDebug : List NftRule → List UInt8 :=
  let blocked := "SkUid(1000), DstV4 \x7b net: 10.0.0.53, prefix: 32 \x7d, Protocol(6), DstPort(443)"
  let drop := "DropReported(DropTag \x7b kind: DnsLockdown, system: false \x7d)"
  printedChain
    [printedRule (blocked ++ ", OutInterface(\"wg0\")") drop "hard-block#1342177280",
      printedRule "SkUid(1000), DstV4 \x7b net: 10.0.0.0, prefix: 8 \x7d" "Accept"
        "catch-all-exempt#0",
      printedRule blocked drop "doh-block#0"]

def vetoedFlow : Connection := ⟨some 1000, 0, .v4 0x0a000035, 6, some 443, false⟩

def mainLink : Link := ⟨"eth0".toList, false⟩

def foreignLink : Link := ⟨"wg0".toList, false⟩

/-- A packet that leaves by the foreign link follows one that did not, past the veto. -/
theorem veto_past_fast_path :
    ∃ s, Reached (step vetoDebug vetoedFlow) (Applies (· = vetoRuleset)) ⟨none, false, 0⟩ s ∧
      (judge vetoDebug vetoedFlow s foreignLink).2 = .accept ∧
      ruled vetoedFlow s foreignLink = .dropReported ⟨.dnsLockdown, false⟩ := by
  have hrules : vetoRuleset.rules ≠ [] := by decide +kernel
  have hgone : (vetoRuleset.rules.find? (·.applies (vetoedFlow.packet mainLink))).all
      marksItsFlow = true := by decide +kernel
  have hdropped : firstVerdict vetoRuleset.rules (vetoedFlow.packet foreignLink) =
      some (.dropReported ⟨.dnsLockdown, false⟩) := by decide +kernel
  obtain ⟨s, hs, happlied, hpasses⟩ := @let_go_passes vetoDebug vetoedFlow (· = vetoRuleset)
    vetoRuleset rfl hrules mainLink hgone .logged 0
  refine ⟨s, hs, hpasses foreignLink, ?_⟩
  simp only [ruled, happlied, hdropped]
  rfl

def pinPlan : ScopedPlan :=
  let user : UserPrincipal := .osUser "unix:uid:1000".toList
  { plan :=
      { principal := user
        flows := [
          { verdict := .permit
            precedence := ⟨.killSwitchPermit, 0⟩
            flow := ⟨.hostV4 0xcb007105, none, none⟩
            principal := .user user
            app := .any
            egress := .onlyVia .secondary }] }
    egress := ⟨some "eth0".toList, some "wg0".toList⟩ }

def pinRuleset : NftRuleset := (lowerScopedWith [pinPlan] {}).ruleset

/-- The rules of `pinRuleset` as `Debug` prints them. -/
def pinDebug : List NftRule → List UInt8 :=
  let pinned := "SkUid(1000), DstV4 \x7b net: 203.0.113.5, prefix: 32 \x7d"
  printedChain
    [printedRule (pinned ++ ", OutInterface(\"wg0\")") "Accept" "kill-switch-permit#0 via",
      printedRule pinned "DropReported(DropTag \x7b kind: Pin, system: false \x7d)"
        "kill-switch-permit#0 leak-guard"]

def pinnedFlow : Connection := ⟨some 1000, 0, .v4 0xcb007105, 6, some 443, false⟩

/-- A pinned connection is judged by its pin on every packet of every run. -/
theorem pinned_flow_judged :
    pinRuleset.rules.length = 3 ∧
      ∀ s, Reached (step pinDebug pinnedFlow) (Applies (· = pinRuleset)) ⟨none, false, 0⟩ s →
        ∀ link, (judge pinDebug pinnedFlow s link).2 = ruled pinnedFlow s link := by
  refine ⟨by decide +kernel, ?_⟩
  refine (fast_path_follows_rules pinDebug (· = pinRuleset) ?_ pinnedFlow 0 (by decide)).mpr ?_
  · rintro r r' rfl rfl -
    rfl
  · rintro r rfl
    exact steady_of_plain_drops (by decide +kernel) pinnedFlow

end NetRuleRouter.SteadyFlows
