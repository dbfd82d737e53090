import NetRuleRouter.NetworkRoutes

/-!
# Route generation

The desired routes of a mode: one host route for each address the rules of
the routed link name, the overlay that carries what no rule names, and the
network plan. A host route is made once for an address, never for an address
nothing can be reached at, and never past the cap of its rule.
-/

set_option autoImplicit false

namespace NetRuleRouter.RouteCodegen
open TextOps IpNetwork Canonical FqdnCache LongestPrefix Arbiter SteeringClaims
open NetworkRoutes
open RuleMatching (RouteBehaviorMode)

structure RouteEntry where
  destination : IpAddr
  prefixLength : ℕ
  nextHop : IpAddr
  interfaceIndex : ℕ
  metric : ℕ
  isOurs : Bool
  deriving DecidableEq, Repr

structure SecondaryRouteTarget where
  gateway : BitVec 32
  gatewayV6 : Option (BitVec 128)
  interfaceIndex : ℕ

def secondaryRouteMetric : ℕ := 5

def networkRouteMetric : ℕ := 4

structure RouteCodegenOutput where
  routes : List RouteEntry
  diagnostics : List RouteCodegenDiagnostic

def isUnreachableV4 (ip : BitVec 32) : Bool :=
  let a := ip.toNat / 2 ^ 24
  let b := ip.toNat / 2 ^ 16 % 2 ^ 8
  a = 0 ∨ a = 127 ∨ a = 169 ∧ b = 254 ∨ 224 ≤ a

def isDefaultPoolAddr (ip : BitVec 32) : Bool := ip.toNat / 2 ^ 17 = 0xC6120000 / 2 ^ 17

def isNonRoutable : IpAddr → Bool
  | .v4 bits => isUnreachableV4 bits || isDefaultPoolAddr bits
  | .v6 bits =>
    let head := bits.toNat / 2 ^ 112
    bits = 1 ∨ bits = 0 ∨ head &&& 0xffc0 = 0xfe80 ∨ head &&& 0xff00 = 0xff00

def nextHopFor (ip : IpAddr) (target : SecondaryRouteTarget) : Option IpAddr :=
  match ip with
  | .v4 _ => some (.v4 target.gateway)
  | .v6 _ => target.gatewayV6.map .v6

structure Fanout where
  seen : List IpAddr
  routes : List RouteEntry
  perRule : ℕ

def hostRoute (ip hop : IpAddr) (target : SecondaryRouteTarget) : RouteEntry :=
  ⟨ip, hostPrefixFor ip, hop, target.interfaceIndex, secondaryRouteMetric, true⟩

/-- Appends the host route of an address; `false` once the cap of the rule is hit. -/
def pushRoute (target : SecondaryRouteTarget) (ip : IpAddr) (s : Fanout) : Bool × Fanout :=
  if maxRoutesPerRule ≤ s.perRule then (false, s)
  else if isNonRoutable ip then (true, s)
  else match nextHopFor ip target with
    | none => (true, s)
    | some hop =>
      if ip ∈ s.seen then (true, s)
      else (true, ⟨ip :: s.seen, s.routes ++ [hostRoute ip hop target], s.perRule + 1⟩)

def pushRoutes (target : SecondaryRouteTarget) : List IpAddr → Fanout → Fanout
  | [], s => s
  | ip :: ips, s =>
    let pushed := pushRoute target ip s
    if pushed.1 then pushRoutes target ips pushed.2 else pushed.2

def askedAddresses (cache : FqdnCacheSnapshot) (r : CanonicalRule) : List IpAddr :=
  (literalOf r).toList ++
    (hostsNamed cache r).flatMap fun host => cappedForHost cache host .both

def coldCache (cache : FqdnCacheSnapshot) (r : CanonicalRule) : Option RouteCodegenDiagnostic :=
  match r.addressMatch with
  | some (.exactFqdn host) =>
    if cache.ipsForHostname host = [] then some (.hostnameUnresolved r.id host) else none
  | some (.suffixDomain suffix) =>
    if hostsNamed cache r = [] then some (.suffixEmpty r.id suffix) else none
  | some (.zone zone) => if hostsNamed cache r = [] then some (.zoneEmpty r.id zone) else none
  | _ => none

def heldBack (ips : List IpAddr) : Option (IpAddr × ℕ) := ips.head?.map fun ip => (ip, ips.length)

def reached (target : SecondaryRouteTarget) (steerable : IpAddr → Bool) :
    List IpAddr → Fanout → List IpAddr
  | [], _ => []
  | ip :: ips, s =>
    if steerable ip then
      let pushed := pushRoute target ip s
      ip :: if pushed.1 then reached target steerable ips pushed.2 else []
    else ip :: reached target steerable ips s

section
variable (target : SecondaryRouteTarget) (cache : FqdnCacheSnapshot)
variable (observations : AppObservationLookup) (gate : AppDestinationGate)
variable (o : SettledOwnership) (link : Link)

def appIpv6Routes : Bool := false

/-- The destinations of a program the gate admits, as routes take them. -/
def admittedAddresses (pattern : Text) : List IpAddr :=
  let destinations := gate.admission pattern link
  destinations.admitted.map .v4 ++
    (destinations.admittedV6.filter fun _ => appIpv6Routes).map .v6

def refusalReport (ruleId app : Text) (ip : BitVec 32) :
    AppDestinationRefusal → Option RouteCodegenDiagnostic
  | .claimedByAddressRule => some (.appRuleDestinationClaimedByMainLink ruleId app ip)
  | .usedByOtherProcess => some (.appRuleDestinationUsedByOtherProcess ruleId app ip)
  | .declinedShared => none

/-- A rule for a program: its admitted destinations, or a report that none was seen. -/
def routeApp (r : CanonicalRule) (pattern : Text) (s : Fanout) :
    Fanout × List RouteCodegenDiagnostic :=
  let destinations := gate.admission pattern link
  if destinations.admitted.isEmpty && destinations.admittedV6.isEmpty &&
      destinations.refused.isEmpty then (s, [.appRuleUnobserved r.id pattern])
  else (pushRoutes target (admittedAddresses gate link pattern) s,
    destinations.refused.filterMap fun e => refusalReport r.id pattern e.1 e.2)

/-- A rule for addresses: what it may steer is routed, the rest is reported once. -/
def routeAddresses (r : CanonicalRule) (s : Fanout) : Fanout × List RouteCodegenDiagnostic :=
  let steerable (ip : IpAddr) := o.addressRuleMaySteer ip link
  let asked := askedAddresses cache r
  let held := (reached target steerable asked s).filter fun ip => !steerable ip
  let outside (ip : IpAddr) := link == .additional && o.keepsOutOfTunnel ip
  (pushRoutes target (asked.filter steerable) s,
    (coldCache cache r).toList ++
      ((heldBack (held.filter fun ip => !outside ip)).map fun e =>
        .addressClaimedByMainLink r.id e.1 e.2).toList ++
      ((heldBack (held.filter outside)).map fun e =>
        .privateAddressKeptOutOfTunnel r.id e.1 e.2).toList)

def routeRule (s : Fanout) (r : CanonicalRule) : Fanout × List RouteCodegenDiagnostic :=
  let s := { s with perRule := 0 }
  if !r.enabled || r.action == .block then (s, [])
  else match r.appMatch, r.addressMatch with
    | some _, some _ => (s, [.appRuleAddressAndAppNotRouted r.id])
    | some app, none => routeApp target gate link r app.pattern.asStr s
    | none, _ => routeAddresses target cache o link r s

def routeAll : List CanonicalRule → Fanout → Fanout × List RouteCodegenDiagnostic
  | [], s => (s, [])
  | r :: rules, s =>
    let routed := routeRule target cache gate o link s r
    let rest := routeAll rules routed.1
    (rest.1, routed.2 ++ rest.2)

end

def generateSecondaryRoutes (rules : CanonicalRuleSet) (target : SecondaryRouteTarget)
    (cache : FqdnCacheSnapshot) (observations : AppObservationLookup) (denied : List (BitVec 32))
    (o : SettledOwnership) (link : Link) : RouteCodegenOutput :=
  let gate := AppDestinationGate.forRuleSet o observations rules denied
  let routed := routeAll target cache gate o link rules.rules ⟨[], [], 0⟩
  ⟨routed.1.routes, routed.2⟩

def overlayRoute (half : BitVec 32 × ℕ) (target : SecondaryRouteTarget) : RouteEntry :=
  ⟨.v4 half.1, half.2, .v4 target.gateway, target.interfaceIndex, secondaryRouteMetric, true⟩

def networkRoute (block : IpBlock) (hop : IpAddr) (target : SecondaryRouteTarget) : RouteEntry :=
  ⟨block.network, block.prefixLen, hop, target.interfaceIndex, networkRouteMetric, true⟩

def targetOf (primary : Option SecondaryRouteTarget) (secondary : SecondaryRouteTarget) :
    Link → Option SecondaryRouteTarget
  | .main => primary
  | .additional => some secondary

def hostKeys (routes : List RouteEntry) : List (IpAddr × ℕ) :=
  (routes.filter fun r => r.prefixLength == hostPrefixFor r.destination).map fun r =>
    (r.destination, r.interfaceIndex)

def pushPlanHost (targets : Link → Option SecondaryRouteTarget)
    (s : List (IpAddr × ℕ) × List RouteEntry) (e : Link × IpAddr) :
    List (IpAddr × ℕ) × List RouteEntry :=
  match targets e.1 with
  | none => s
  | some target =>
    if isNonRoutable e.2 || decide ((e.2, target.interfaceIndex) ∈ s.1) then s
    else ((e.2, target.interfaceIndex) :: s.1,
      s.2 ++ ((nextHopFor e.2 target).map fun hop => hostRoute e.2 hop target).toList)

def planNetworkRoute (targets : Link → Option SecondaryRouteTarget) (hosts : List (IpAddr × ℕ))
    (e : Link × IpBlock) : Option RouteEntry :=
  (targets e.1).bind fun target =>
    if e.2.isSingleAddress && decide ((e.2.network, target.interfaceIndex) ∈ hosts) then none
    else (nextHopFor e.2.network target).map fun hop => networkRoute e.2 hop target

def pushNetworkPlan (plan : NetworkRoutePlan) (primary : Option SecondaryRouteTarget)
    (secondary : SecondaryRouteTarget) (out : RouteCodegenOutput) : RouteCodegenOutput :=
  let targets := targetOf primary secondary
  let hosts := plan.hosts.foldl (pushPlanHost targets) (hostKeys out.routes, out.routes)
  ⟨hosts.2 ++ plan.networks.filterMap (planNetworkRoute targets hosts.1),
    out.diagnostics ++ plan.diagnostics⟩

def keptDirectReason (facts : NetworkRouteFacts) (ip : IpAddr) : Bool :=
  facts.lanSegments.any (fun s => s.contains ip) ||
    facts.foreignTunnelRoutes.any fun s => s.contains ip

def keepsHostDirect (facts : NetworkRouteFacts) (rules : CanonicalRuleSet) (ip : IpAddr) : Bool :=
  facts.tunnelServers.contains ip ||
    keptDirectReason facts ip && !(rules.rules.any fun r => r.enabled && literalOf r == some ip)

/-- The host routes and the overlay of a mode, before the network plan. -/
def modeRoutes (mode : RouteBehaviorMode) (book : CanonicalRuleBook)
    (primary : Option SecondaryRouteTarget) (secondary : SecondaryRouteTarget)
    (cache : FqdnCacheSnapshot) (observations : AppObservationLookup) (denied : List (BitVec 32))
    (o : SettledOwnership) (tunnelCatchAlls : List (BitVec 32 × ℕ)) : RouteCodegenOutput :=
  match mode with
  | .preferPrimary =>
    let out := generateSecondaryRoutes book.secondary secondary
      (denylistFilteredCache cache denied) observations denied o .additional
    match primary with
    | some target =>
      ⟨out.routes ++ (counterOverlayFor tunnelCatchAlls).map fun half => overlayRoute half target,
        out.diagnostics⟩
    | none => ⟨out.routes, out.diagnostics ++ [.primaryExceptionsUnavailable]⟩
  | .preferSecondaryWhenAvailable =>
    let overlay := [overlayRoute overlayLow secondary, overlayRoute overlayHigh secondary]
    match primary with
    | some target =>
      let exceptions := generateSecondaryRoutes book.primary target cache observations [] o .main
      ⟨overlay ++ exceptions.routes, exceptions.diagnostics⟩
    | none => ⟨overlay, [.primaryExceptionsUnavailable]⟩

def generateRoutesWith (mode : RouteBehaviorMode) (book : CanonicalRuleBook)
    (primary : Option SecondaryRouteTarget) (secondary : SecondaryRouteTarget)
    (cache : FqdnCacheSnapshot) (observations : AppObservationLookup) (denied : List (BitVec 32))
    (settings : OwnershipSettings) (tunnelCatchAlls : List (BitVec 32 × ℕ))
    (facts : NetworkRouteFacts) (support : RuleShapeSupport) : RouteCodegenOutput :=
  let o := resolveFor book cache settings support observations
  let out := modeRoutes mode book primary secondary cache observations denied o tunnelCatchAlls
  let plan := planNetworkRoutes mode book primary.isSome o.toAddressOwnership facts tunnelCatchAlls
    support
  let lowered := pushNetworkPlan plan primary secondary out
  { lowered with routes := lowered.routes.filter fun r =>
      !(r.interfaceIndex == secondary.interfaceIndex &&
        r.prefixLength == hostPrefixFor r.destination &&
        keepsHostDirect facts book.secondary r.destination) }

end NetRuleRouter.RouteCodegen
