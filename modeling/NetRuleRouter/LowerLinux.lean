import NetRuleRouter.Canonical
import NetRuleRouter.RevisionRecords
import NetRuleRouter.NftMerge

/-!
# Lowering plans to a chain

A plan asks for flows, one user at a time: a destination, a verdict, a
precedence and the link they must leave by. The plans of every user become one
chain, which stops at its first match: higher rank first, then the ordinal, the
plan and the place in it. A flow pinned to a link becomes two rules, the permit
on that link and the drop on every other.
-/

set_option autoImplicit false

namespace NetRuleRouter.LowerLinux
open TextOps Numerals Sorting FirstMatch NftMerge Canonical
open RevisionRecords (baselinePrincipal)

inductive UserPrincipal where
  | baseline
  | osUser (stored : Text)
  deriving DecidableEq

def linuxPrincipalScheme : Text := "unix:uid:".toList

def macosPrincipalScheme : Text := "mac:uid:".toList

def UserPrincipal.asStored : UserPrincipal → Text
  | .baseline => baselinePrincipal
  | .osUser stored => stored

def UserPrincipal.asUnixUid : UserPrincipal → Option UInt32
  | .baseline => none
  | .osUser stored => do
    let digits ← (stripPre linuxPrincipalScheme stored).or (stripPre macosPrincipalScheme stored)
    let uid ← parseUnsigned (2 ^ 32) digits
    return UInt32.ofNat uid

inductive PrincipalScope where
  | machine
  | user (principal : UserPrincipal)
  | serviceAccounts
  | forwarded
  deriving DecidableEq

inductive DstMatch where
  | any
  | hostV4 (addr : BitVec 32)
  | hostV6 (addr : BitVec 128)
  | subnetV4 (net : BitVec 32) (prefixLen : ℕ)
  | subnetV6 (net : BitVec 128) (prefixLen : ℕ)
  deriving DecidableEq

inductive L4Proto where
  | tcp
  | udp
  | icmp
  | icmpV6
  | igmp
  | gre
  | esp
  | other (number : UInt8)
  deriving DecidableEq

structure FlowMatch where
  dst : DstMatch
  dstPort : Option UInt16
  protocol : Option L4Proto
  deriving DecidableEq

inductive Verdict where
  | permit
  | block
  deriving DecidableEq

inductive PrecedenceClass where
  | routeRule (role : RouteRole)
  | dohBlock
  | catchAllBlock
  | catchAllExempt
  | killSwitchBlock
  | appTakeover
  | killSwitchPermit
  | fakeIpPool
  | hardBlock
  deriving DecidableEq

def PrecedenceClass.rank : PrecedenceClass → ℕ
  | .catchAllBlock => 10
  | .routeRule .secondary => 20
  | .routeRule .primary => 30
  | .dohBlock => 35
  | .killSwitchBlock => 40
  | .appTakeover => 45
  | .killSwitchPermit => 50
  | .fakeIpPool => 55
  | .catchAllExempt => 60
  | .hardBlock => 70

structure Precedence where
  band : PrecedenceClass
  ordinal : UInt32
  deriving DecidableEq

def foreignPinVetoOrdinalBase : UInt32 := 0x40000000

def dohForeignVetoOrdinalBase : UInt32 := 0x50000000

inductive AppScope where
  | any
  | program (key : Text)
  deriving DecidableEq

inductive EgressRef where
  | primary
  | secondary
  | adapter (id : Text)
  deriving DecidableEq

inductive EgressConstraint where
  | any
  | onlyVia (reference : EgressRef)
  | underIpsecPolicy
  deriving DecidableEq

structure FlowRule where
  verdict : Verdict
  precedence : Precedence
  flow : FlowMatch
  principal : PrincipalScope
  app : AppScope
  egress : EgressConstraint
  deriving DecidableEq

structure EnforcementPlan where
  principal : UserPrincipal
  flows : List FlowRule
  deriving DecidableEq

def nrrTable : Text := "nrr".toList

def nrrChain : Text := "output".toList

def ownTrafficMark : UInt32 := 0x4e525200

structure EgressNames where
  primary : Option Text
  secondary : Option Text
  deriving DecidableEq

def EgressNames.resolve (names : EgressNames) : EgressRef → Option Text
  | .primary => names.primary
  | .secondary => names.secondary
  | .adapter id => some id

inductive UnsupportedReason where
  | appScoped (key : Text)
  | unresolvedEgress
  | unresolvablePrincipal (stored : Text)
  deriving DecidableEq

structure UnsupportedRule where
  index : ℕ
  principal : Text
  reason : UnsupportedReason
  deriving DecidableEq

structure LoweredFlow where
  rules : List NftRule
  unsupported : Option UnsupportedReason

def protocolNumber : L4Proto → UInt8
  | .icmp => 1
  | .igmp => 2
  | .tcp => 6
  | .udp => 17
  | .gre => 47
  | .esp => 50
  | .icmpV6 => 58
  | .other n => n

def lowerDst : DstMatch → List NftMatch
  | .any => []
  | .hostV4 addr => [.dstV4 addr 32]
  | .hostV6 addr => [.dstV6 addr 128]
  | .subnetV4 net prefixLen => [.dstV4 net prefixLen]
  | .subnetV6 net prefixLen => [.dstV6 net prefixLen]

def lowerFlowMatch (flow : FlowMatch) : List NftMatch :=
  lowerDst flow.dst ++ (flow.protocol.map fun proto => .protocol (protocolNumber proto)).toList ++
    (flow.dstPort.map .dstPort).toList

def DstMatch.isIpv6All : DstMatch → Bool
  | .subnetV6 _ prefixLen => prefixLen == 0
  | _ => false

def dropKind (flow : FlowRule) : DropKind :=
  match flow.precedence.band with
  | .killSwitchBlock => .failClosed
  | .appTakeover => .failClosed
  | .catchAllBlock => if DstMatch.isIpv6All flow.flow.dst then .ipv6Cut else .blockAll
  | .dohBlock => .dnsLockdown
  | .hardBlock =>
    if dohForeignVetoOrdinalBase ≤ flow.precedence.ordinal then .dnsLockdown
    else if foreignPinVetoOrdinalBase ≤ flow.precedence.ordinal then .failClosed
    else .rule
  | .fakeIpPool => .relayPool
  | .routeRule _ => .other
  | .catchAllExempt => .other
  | .killSwitchPermit => .other

def dropTag (flow : FlowRule) (leakGuard : Bool) : DropTag where
  kind := if leakGuard then .pin else dropKind flow
  system := flow.principal == .serviceAccounts

def verdictOf (flow : FlowRule) : NftVerdict :=
  match flow.verdict with
  | .permit => .accept
  | .block => .dropReported (dropTag flow false)

def bandSlug : PrecedenceClass → Text
  | .routeRule .primary => "route-primary".toList
  | .routeRule .secondary => "route-secondary".toList
  | .dohBlock => "doh-block".toList
  | .catchAllBlock => "catch-all-block".toList
  | .catchAllExempt => "catch-all-exempt".toList
  | .killSwitchBlock => "kill-switch-block".toList
  | .killSwitchPermit => "kill-switch-permit".toList
  | .appTakeover => "app-takeover".toList
  | .fakeIpPool => "fake-ip-pool".toList
  | .hardBlock => "hard-block".toList

def ruleComment (flow : FlowRule) : Text :=
  bandSlug flow.precedence.band ++ '#' :: numeral 10 flow.precedence.ordinal.toNat

def lowerScope (principal : PrincipalScope) (serviceUids : List (UInt32 × UInt32)) :
    Except LoweredFlow (List NftMatch) :=
  match principal with
  | .user principal =>
    match principal.asUnixUid with
    | none => .error ⟨[], some (.unresolvablePrincipal principal.asStored)⟩
    | some uid => .ok [.skUid uid]
  | .serviceAccounts => if serviceUids = [] then .error ⟨[], none⟩ else .ok [.skUidSet serviceUids]
  | .machine => .ok []
  | .forwarded => .ok []

def isForeignVeto (flow : FlowRule) : Bool :=
  flow.verdict == .block && flow.precedence.band == .hardBlock &&
    decide (dohForeignVetoOrdinalBase ≤ flow.precedence.ordinal)

/-- The cut this flow spares traffic from is stated by another flow. -/
def sparesOnly (flow : FlowRule) : Bool :=
  flow.flow.dst == .any || flow.verdict == .permit && flow.precedence.band == .catchAllExempt

def lowerEgress (flow : FlowRule) (egress : EgressNames) (base : List NftMatch) : LoweredFlow :=
  match flow.egress with
  | .any => ⟨[⟨base, verdictOf flow, ruleComment flow⟩], none⟩
  | .underIpsecPolicy => ⟨[⟨base ++ [.routeIpsec], verdictOf flow, ruleComment flow⟩], none⟩
  | .onlyVia reference =>
    if isForeignVeto flow then
      ⟨((egress.resolve reference).map fun device =>
        ⟨base ++ [.outInterface device], verdictOf flow, ruleComment flow⟩).toList, none⟩
    else
      match egress.resolve reference with
      | none =>
        -- the link is gone: the permit cannot be stated, the guard can
        if sparesOnly flow then ⟨[], some .unresolvedEgress⟩
        else
          ⟨[⟨base, .dropReported (dropTag flow true),
            ruleComment flow ++ " leak-guard (pinned link absent)".toList⟩],
            some .unresolvedEgress⟩
      | some device =>
        let accept : NftRule :=
          ⟨base ++ [.outInterface device], .accept, ruleComment flow ++ " via".toList⟩
        if sparesOnly flow then ⟨[accept], none⟩
        else
          ⟨[accept, ⟨base, .dropReported (dropTag flow true),
            ruleComment flow ++ " leak-guard".toList⟩], none⟩

def lowerFlow (flow : FlowRule) (egress : EgressNames) (serviceUids : List (UInt32 × UInt32)) :
    LoweredFlow :=
  match flow.app with
  | .program key => ⟨[], some (.appScoped key)⟩
  | .any =>
    match lowerScope flow.principal serviceUids with
    | .error lowered => lowered
    | .ok scope => lowerEgress flow egress (scope ++ lowerFlowMatch flow.flow)

def pruneUnreachable (rules : List NftRule) : List NftRule :=
  prune (fun earlier rule => earlier.conditions.all (decide <| · ∈ rule.conditions)) [] rules

structure ScopedPlan where
  plan : EnforcementPlan
  egress : EgressNames
  deriving DecidableEq

structure ServiceAccountScope where
  owner : Option UserPrincipal := none
  uids : List (UInt32 × UInt32) := []
  deriving DecidableEq

def ServiceAccountScope.speaksFor (accounts : ServiceAccountScope) (plan : EnforcementPlan) :
    Bool :=
  accounts.uids != [] && accounts.owner == some plan.principal

def isRootUser (flow : FlowRule) : Bool :=
  match flow.principal with
  | .user principal => principal.asUnixUid == some 0
  | _ => false

structure IndexedFlow where
  planIdx : ℕ
  flowIdx : ℕ
  flow : FlowRule
  source : ScopedPlan
  deriving DecidableEq

def indexed (plans : List ScopedPlan) : List IndexedFlow :=
  plans.zipIdx.flatMap fun s => s.1.plan.flows.zipIdx.map fun f => ⟨s.2, f.2, f.1, s.1⟩

/-- One plan speaks for the accounts and packets no user owns, and nothing is lowered for root. -/
def lowers (accounts : ServiceAccountScope) (e : IndexedFlow) : Bool :=
  (accounts.speaksFor e.source.plan ||
    !(e.flow.principal == .serviceAccounts || e.flow.principal == .forwarded)) &&
    !isRootUser e.flow

def flowOrder : IndexedFlow → IndexedFlow → Ordering :=
  compareLex (fun a b => compare b.flow.precedence.band.rank a.flow.precedence.band.rank)
    (compareLex (compareOn (·.flow.precedence.ordinal.toNat))
      (compareLex (compareOn (·.planIdx)) (compareOn (·.flowIdx))))

structure Collected where
  rules : List NftRule := []
  forward : List NftRule := []
  unsupported : List UnsupportedRule := []

/-- A forwarded packet has no process to tell about its drop. -/
def forwardRule (rule : NftRule) : NftRule :=
  if rule.verdict.isDrop then { rule with verdict := .drop } else rule

def collectFlow (serviceUids : List (UInt32 × UInt32)) (done : Collected) (e : IndexedFlow) :
    Collected :=
  let lowered := lowerFlow e.flow e.source.egress serviceUids
  let unsupported := done.unsupported ++ (lowered.unsupported.map fun reason =>
    ⟨e.flowIdx, e.source.plan.principal.asStored, reason⟩).toList
  if e.flow.principal = .forwarded then
    { done with forward := done.forward ++ lowered.rules.map forwardRule, unsupported }
  else
    { done with rules := done.rules ++ lowered.rules, unsupported }

/-- A chain that holds anything opens with what it must never judge. -/
def openedBy (opening : NftRule) (rules : List NftRule) : List NftRule :=
  if rules = [] then [] else opening :: rules

structure LoweredPlan where
  ruleset : NftRuleset
  unsupported : List UnsupportedRule

def ownTraffic : NftRule := ⟨[.mark ownTrafficMark], .accept, "own-traffic".toList⟩

def forwardedReply : NftRule := ⟨[.ctReply], .accept, "forwarded-reply".toList⟩

def lowerScopedWith (plans : List ScopedPlan) (accounts : ServiceAccountScope) : LoweredPlan :=
  let flows := sortBy flowOrder ((indexed plans).filter (lowers accounts))
  let collected := flows.foldl (collectFlow accounts.uids) {}
  { ruleset :=
      { table := nrrTable
        chain := nrrChain
        rules := openedBy ownTraffic (foldIntoSets (pruneUnreachable collected.rules))
        forward := openedBy forwardedReply (foldIntoSets (pruneUnreachable collected.forward)) }
    unsupported := collected.unsupported }

instance : Std.TransCmp flowOrder :=
  have : Std.TransCmp fun a b : IndexedFlow =>
      compare b.flow.precedence.band.rank a.flow.precedence.band.rank :=
    @Std.TransCmp.opposite _ (compareOn fun e : IndexedFlow => e.flow.precedence.band.rank) _
  inferInstanceAs (Std.TransCmp (compareLex _ (compareLex _ (compareLex _ _))))

theorem collected_rules (serviceUids : List (UInt32 × UInt32)) (flows : List IndexedFlow)
    (done : Collected) :
    (flows.foldl (collectFlow serviceUids) done).rules =
      done.rules ++ (flows.filter (decide <| ·.flow.principal ≠ .forwarded)).flatMap fun e =>
        (lowerFlow e.flow e.source.egress serviceUids).rules := by
  induction flows generalizing done with
  | nil => simp
  | cons e flows ih =>
    rw [List.foldl_cons, ih]
    by_cases hforwarded : e.flow.principal = .forwarded
    · simp [collectFlow, hforwarded]
    · simp [collectFlow, hforwarded]

end NetRuleRouter.LowerLinux
