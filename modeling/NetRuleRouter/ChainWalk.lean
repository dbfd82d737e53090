import NetRuleRouter.FoldedSets
import NetRuleRouter.LowerLinux

/-!
# The chain decides as the plans say

What a user's plans say about a packet is read off their flows alone: they are
asked in order until one decides. The chain every user shares, sorted, pruned
and folded, gives a user's packet the same answer.
-/

set_option autoImplicit false

namespace NetRuleRouter.ChainWalk
open TextOps IpNetwork Sorting FirstMatch NftMerge PlacedRules FoldedSets
open LowerLinux

def dstHolds (p : Packet) : DstMatch → Bool
  | .any => true
  | .hostV4 addr => p.dst == .v4 addr
  | .hostV6 addr => p.dst == .v6 addr
  | .subnetV4 net prefixLen => underPrefix (.v4 net) prefixLen p.dst
  | .subnetV6 net prefixLen => underPrefix (.v6 net) prefixLen p.dst

/-- Whether the packet is of the protocol, by its assigned number. -/
def speaks (p : Packet) : L4Proto → Bool
  | .icmp => p.protocol == 1
  | .igmp => p.protocol == 2
  | .tcp => p.protocol == 6
  | .udp => p.protocol == 17
  | .gre => p.protocol == 47
  | .esp => p.protocol == 50
  | .icmpV6 => p.protocol == 58
  | .other n => p.protocol == n

def flowHolds (p : Packet) (m : FlowMatch) : Bool :=
  dstHolds p m.dst && m.protocol.all (speaks p) && m.dstPort.all (p.dstPort == some ·)

def leavesBy (names : EgressNames) (reference : EgressRef) (p : Packet) : Bool :=
  (names.resolve reference).any (p.outInterface == ·)

def dropped (flow : FlowRule) (kind : DropKind) : NftVerdict :=
  .dropReported ⟨kind, flow.principal == .serviceAccounts⟩

def said (flow : FlowRule) : NftVerdict :=
  match flow.verdict with
  | .permit => .accept
  | .block => dropped flow (dropKind flow)

/-- What a flow says of a packet it matches; `none` leaves it to the flows behind. -/
def egressAnswer (flow : FlowRule) (names : EgressNames) (p : Packet) : Option NftVerdict :=
  match flow.egress with
  | .any => some (said flow)
  | .underIpsecPolicy => if p.routeIpsec then some (said flow) else none
  | .onlyVia reference =>
    if flow.verdict = .block ∧ flow.precedence.band = .hardBlock ∧
        dohForeignVetoOrdinalBase ≤ flow.precedence.ordinal then
      if leavesBy names reference p then some (said flow) else none
    else if leavesBy names reference p then some .accept
    else if flow.flow.dst = .any ∨ flow.verdict = .permit ∧
        flow.precedence.band = .catchAllExempt then none
    else some (dropped flow .pin)

def answer (flow : FlowRule) (names : EgressNames) (p : Packet) : Option NftVerdict :=
  if flow.app = .any ∧ flowHolds p flow.flow = true then egressAnswer flow names p else none

def ownedBy (uid : UInt32) (e : IndexedFlow) : Bool :=
  e.source.plan.principal.asUnixUid == some uid &&
    e.flow.principal == .user e.source.plan.principal

/-- The strongest band is asked first, then the smaller ordinal, the earlier plan and flow. -/
def askedOrder (a b : IndexedFlow) : Ordering :=
  (compare b.flow.precedence.band.rank a.flow.precedence.band.rank).then
    ((compare a.flow.precedence.ordinal.toNat b.flow.precedence.ordinal.toNat).then
      ((compare a.planIdx b.planIdx).then (compare a.flowIdx b.flowIdx)))

def flowsOf (plans : List ScopedPlan) (uid : UInt32) : List IndexedFlow :=
  sortBy askedOrder ((indexed plans).filter (ownedBy uid))

def walk (flows : List IndexedFlow) (p : Packet) : Option NftVerdict :=
  flows.findSome? fun e => answer e.flow e.source.egress p

theorem under_host (addr dst : IpAddr) :
    underPrefix addr (familyBits addr) dst = (dst == addr) := by
  rw [Bool.eq_iff_iff]
  cases addr <;> cases dst <;>
    simp [underPrefix, IpAddr.isIpv4, familyBits, toBits, BitVec.toNat_inj]

theorem lower_flow_match_holds (p : Packet) (m : FlowMatch) :
    (lowerFlowMatch m).all (·.holds p) = flowHolds p m := by
  have hdst : (lowerDst m.dst).all (·.holds p) = dstHolds p m.dst := by
    cases m.dst with
    | any => rfl
    | hostV4 addr | hostV6 addr =>
      simp only [lowerDst, dstHolds, NftMatch.holds, List.all_cons, List.all_nil, Bool.and_true]
      exact under_host _ p.dst
    | subnetV4 net prefixLen | subnetV6 net prefixLen => simp [lowerDst, dstHolds, NftMatch.holds]
  rw [lowerFlowMatch, List.all_append, List.all_append, hdst, flowHolds]
  have hproto (proto : L4Proto) : (p.protocol == protocolNumber proto) = speaks p proto := by
    cases proto <;> rfl
  cases m.protocol <;> cases m.dstPort <;> simp [NftMatch.holds, hproto]

theorem lower_egress_conditions {flow : FlowRule} {names : EgressNames} {base : List NftMatch}
    {r : NftRule} (hr : r ∈ (lowerEgress flow names base).rules) :
    ∃ link, r.conditions = base ++ link := by
  unfold lowerEgress at hr
  cases hegress : flow.egress with
  | any =>
    simp only [hegress, List.mem_singleton] at hr
    exact ⟨[], by rw [hr, List.append_nil]⟩
  | underIpsecPolicy =>
    simp only [hegress, List.mem_singleton] at hr
    exact ⟨_, by rw [hr]⟩
  | onlyVia reference =>
    simp only [hegress] at hr
    cases hresolve : names.resolve reference with
    | none =>
      simp only [hresolve, Option.map_none, Option.toList_none] at hr
      split at hr
      · cases hr
      · split at hr
        · cases hr
        · exact ⟨[], by rw [List.mem_singleton.mp hr, List.append_nil]⟩
    | some device =>
      simp only [hresolve, Option.map_some, Option.toList_some] at hr
      split at hr
      · exact ⟨_, by rw [List.mem_singleton.mp hr]⟩
      · split at hr
        · exact ⟨_, by rw [List.mem_singleton.mp hr]⟩
        · rcases List.mem_cons.mp hr with rfl | hr
          · exact ⟨_, rfl⟩
          · exact ⟨[], by rw [List.mem_singleton.mp hr, List.append_nil]⟩

theorem lower_egress_decision (flow : FlowRule) (names : EgressNames) (base : List NftMatch)
    (p : Packet) :
    firstVerdict (lowerEgress flow names base).rules p =
      if base.all (·.holds p) then egressAnswer flow names p else none := by
  cases hbase : base.all (·.holds p) with
  | false =>
    refine decision_none.mpr fun r hr => ?_
    obtain ⟨link, hlink⟩ := lower_egress_conditions hr
    rw [NftRule.applies, hlink, List.all_append, hbase]
    rfl
  | true =>
    have happlies (link : List NftMatch) (v : NftVerdict) (comment : Text) :
        (⟨base ++ link, v, comment⟩ : NftRule).applies p = link.all (·.holds p) := by
      rw [NftRule.applies, List.all_append, hbase]
      rfl
    have hplain (v : NftVerdict) (comment : Text) :
        (⟨base, v, comment⟩ : NftRule).applies p = true := hbase
    have hveto : (flow.verdict = .block ∧ flow.precedence.band = .hardBlock ∧
        dohForeignVetoOrdinalBase ≤ flow.precedence.ordinal) ↔ isForeignVeto flow = true := by
      simp [isForeignVeto, and_assoc]
    have hspares : (flow.flow.dst = .any ∨ flow.verdict = .permit ∧
        flow.precedence.band = .catchAllExempt) ↔ sparesOnly flow = true := by
      simp [sparesOnly]
    unfold lowerEgress egressAnswer
    simp only [hveto, hspares, show said flow = verdictOf flow from rfl,
      show dropped flow .pin = .dropReported (dropTag flow true) from rfl]
    cases flow.egress with
    | any => simp [firstVerdict, decision_cons, hplain]
    | underIpsecPolicy =>
      simp [firstVerdict, decision_cons, decision_nil, happlies, NftMatch.holds]
    | onlyVia reference =>
      cases hresolve : names.resolve reference with
      | none =>
        cases isForeignVeto flow <;> cases sparesOnly flow <;>
          simp [firstVerdict, decision_cons, decision_nil, leavesBy, hresolve, hplain]
      | some device =>
        cases isForeignVeto flow <;> cases sparesOnly flow <;>
          simp [firstVerdict, decision_cons, decision_nil, leavesBy, hresolve, hplain, happlies,
            NftMatch.holds]

def inScope (serviceUids : List (UInt32 × UInt32)) (p : Packet) : PrincipalScope → Bool
  | .user principal => principal.asUnixUid.any (p.skUid == some ·)
  | .serviceAccounts => NftMatch.holds p (.skUidSet serviceUids)
  | .machine => true
  | .forwarded => true

theorem lower_flow_decision (flow : FlowRule) (names : EgressNames)
    (serviceUids : List (UInt32 × UInt32)) (p : Packet) :
    firstVerdict (lowerFlow flow names serviceUids).rules p =
      if inScope serviceUids p flow.principal then answer flow names p else none := by
  have hok {scope : List NftMatch} (happ : flow.app = .any)
      (hscope : scope.all (·.holds p) = inScope serviceUids p flow.principal) :
      firstVerdict (lowerEgress flow names (scope ++ lowerFlowMatch flow.flow)).rules p =
        if inScope serviceUids p flow.principal then answer flow names p else none := by
    rw [lower_egress_decision, List.all_append, hscope, lower_flow_match_holds, answer]
    cases inScope serviceUids p flow.principal <;> simp [happ]
  cases happ : flow.app with
  | program key =>
    have hsilent : answer flow names p = none := by simp [answer, happ]
    simp [lowerFlow, happ, hsilent, firstVerdict, decision_nil]
  | any =>
    simp only [lowerFlow, happ]
    cases hprincipal : flow.principal with
    | user principal =>
      rw [hprincipal] at hok
      cases huid : principal.asUnixUid with
      | none => simp [lowerScope, huid, inScope, firstVerdict, decision_nil]
      | some uid =>
        simp only [lowerScope, huid]
        exact hok happ (by simp [inScope, huid, NftMatch.holds])
    | serviceAccounts =>
      rw [hprincipal] at hok
      by_cases hnone : serviceUids = []
      · simp [lowerScope, hnone, inScope, NftMatch.holds, firstVerdict, decision_nil]
      · simp only [lowerScope, if_neg hnone]
        exact hok happ (by simp [inScope])
    | machine | forwarded =>
      rw [hprincipal] at hok
      exact hok happ rfl

theorem prune_unreachable_verdict (rules : List NftRule) (p : Packet) :
    firstVerdict (pruneUnreachable rules) p = firstVerdict rules p := by
  refine decision_prune (fun earlier rule q hcovers happlies => ?_) rules [] p
  rw [List.all_eq_true] at hcovers
  unfold NftRule.applies at happlies ⊢
  rw [List.all_eq_true] at happlies ⊢
  exact fun m hm => happlies m (of_decide_eq_true (hcovers m hm))

theorem opened_verdict {opening : NftRule} {p : Packet} (hopening : opening.applies p = false)
    (rules : List NftRule) : firstVerdict (openedBy opening rules) p = firstVerdict rules p := by
  unfold openedBy
  split
  · rename_i hnil
    rw [hnil]
  · rw [firstVerdict, decision_cons, hopening]
    rfl

theorem output_verdict (plans : List ScopedPlan) (accounts : ServiceAccountScope) {p : Packet}
    (hmark : p.mark ≠ ownTrafficMark) :
    firstVerdict (lowerScopedWith plans accounts).ruleset.rules p =
      ((sortBy flowOrder ((indexed plans).filter (lowers accounts))).filter
        (decide <| ·.flow.principal ≠ .forwarded)).findSome? fun e =>
          if inScope accounts.uids p e.flow.principal then answer e.flow e.source.egress p
          else none := by
  have hown : ownTraffic.applies p = false := by
    simp [ownTraffic, NftRule.applies, NftMatch.holds, hmark]
  have hfold (rules : List NftRule) : firstVerdict (foldIntoSets rules) p = firstVerdict rules p :=
    (fold_from_spec placed_nothing rules []).1 p
  rw [lowerScopedWith, opened_verdict hown, hfold, prune_unreachable_verdict, collected_rules,
    List.nil_append, firstVerdict, decision_flat_map]
  exact congrArg (List.findSome? · _) (funext fun e => lower_flow_decision _ _ _ p)

theorem find_some_filter {α β : Type} {l : List α} {f g : α → Option β} {keep : α → Bool}
    (h : ∀ a ∈ l, f a = if keep a then g a else none) :
    l.findSome? f = (l.filter keep).findSome? g := by
  induction l with
  | nil => rfl
  | cons a l ih =>
    have hrest := ih fun b hb => h b (by simp [hb])
    rw [List.filter_cons, List.findSome?_cons, h a (by simp), hrest]
    cases keep a with
    | true => rw [if_pos rfl, if_pos rfl, List.findSome?_cons]
    | false => rfl

theorem mem_indexed {plans : List ScopedPlan} {e : IndexedFlow} (he : e ∈ indexed plans) :
    e.source ∈ plans ∧ e.flow ∈ e.source.plan.flows := by
  obtain ⟨s, hs, he⟩ := List.mem_flatMap.mp he
  obtain ⟨f, hf, rfl⟩ := List.mem_map.mp he
  exact ⟨List.fst_mem_of_mem_zipIdx hs, List.fst_mem_of_mem_zipIdx hf⟩

/-- The chain all users share answers a user's packet as the user's own plans do, whatever the
other plans ask for. -/
theorem chain_follows_plans (plans : List ScopedPlan) (accounts : ServiceAccountScope)
    (hscoped : ∀ s ∈ plans, ∀ f ∈ s.plan.flows, f.principal = .user s.plan.principal ∨
      f.principal = .serviceAccounts ∨ f.principal = .forwarded)
    (p : Packet) (uid : UInt32) (huid : p.skUid = some uid) (hroot : uid ≠ 0)
    (hservice : ∀ r ∈ accounts.uids, ¬(r.1 ≤ uid ∧ uid ≤ r.2))
    (hmark : p.mark ≠ ownTrafficMark) :
    firstVerdict (lowerScopedWith plans accounts).ruleset.rules p = walk (flowsOf plans uid) p := by
  have hservices : inScope accounts.uids p .serviceAccounts = false := by
    simpa [inScope, NftMatch.holds, huid] using hservice
  have hown {e : IndexedFlow} (h : ownedBy uid e = true) :
      decide (e.flow.principal ≠ .forwarded) = true ∧ lowers accounts e = true ∧
        inScope accounts.uids p e.flow.principal = true := by
    rw [ownedBy, Bool.and_eq_true, beq_iff_eq, beq_iff_eq] at h
    simp [lowers, isRootUser, inScope, h.1, h.2, huid, hroot]
  have hkept : (((indexed plans).filter (lowers accounts)).filter
      (decide <| ·.flow.principal ≠ .forwarded)).filter (ownedBy uid) =
        (indexed plans).filter (ownedBy uid) := by
    rw [List.filter_filter, List.filter_filter]
    refine List.filter_congr fun e _ => ?_
    cases hmine : ownedBy uid e with
    | true => rw [(hown hmine).1, (hown hmine).2.1]; rfl
    | false => rfl
  rw [output_verdict plans accounts hmark, walk, flowsOf, ← hkept]
  change _ = List.findSome? _ (sortBy flowOrder _)
  simp only [sort_by_filter]
  refine find_some_filter fun e he => ?_
  cases hmine : ownedBy uid e with
  | true => rw [(hown hmine).2.2]
  | false =>
    rw [List.mem_filter, List.mem_filter, mem_sort_by, decide_eq_true_eq] at he
    obtain ⟨hsource, hflow⟩ := mem_indexed he.1.1
    -- a flow of another user, or of the service accounts
    rcases hscoped e.source hsource e.flow hflow with hprincipal | hprincipal | hprincipal
    · have hother : inScope accounts.uids p e.flow.principal = false := by
        simp only [ownedBy, hprincipal, BEq.rfl, Bool.and_true, beq_eq_false_iff_ne] at hmine
        rw [hprincipal, inScope, huid, Option.any_eq_false]
        intro other hother
        rw [hother] at hmine
        simpa using Ne.symm hmine
      rw [hother]
    · rw [hprincipal, hservices]
    · exact absurd hprincipal he.2

def samplePlans : List ScopedPlan :=
  let owner : UserPrincipal := .osUser "unix:uid:1000".toList
  let other : UserPrincipal := .osUser "unix:uid:1001".toList
  let toTunnel (principal : PrincipalScope) : FlowRule :=
    { verdict := .permit
      precedence := ⟨.routeRule .secondary, 0⟩
      flow := ⟨.subnetV4 0x0a000000 8, none, some .tcp⟩
      principal
      app := .any
      egress := .onlyVia .secondary }
  [⟨⟨other, [{ toTunnel (.user other) with
      verdict := .block, precedence := ⟨.hardBlock, 0⟩, egress := .any }]⟩, ⟨none, none⟩⟩,
    ⟨⟨owner, [toTunnel (.user owner), toTunnel .serviceAccounts]⟩,
      ⟨none, some "wg0".toList⟩⟩]

def sampleAccounts : ServiceAccountScope := ⟨some (.osUser "unix:uid:1000".toList), [(1, 999)]⟩

def samplePacket : Packet :=
  ⟨some 1000, 0, .v4 0x0a010203, 6, some 443, "eth0".toList, false, false⟩

/-- A pinned flow off its link: dropped as a leak, not by the other user's block. -/
theorem pinned_off_link_dropped :
    firstVerdict (lowerScopedWith samplePlans sampleAccounts).ruleset.rules samplePacket =
      some (.dropReported ⟨.pin, false⟩) := by
  have hanswer : walk (flowsOf samplePlans 1000) samplePacket =
      some (.dropReported ⟨.pin, false⟩) := by
    decide +kernel
  exact (chain_follows_plans samplePlans sampleAccounts (by decide +kernel) samplePacket 1000 rfl
    (by decide) (by simp [sampleAccounts]) (by decide)).trans hanswer

end NetRuleRouter.ChainWalk
