import NetRuleRouter.BlockGeometry
import NetRuleRouter.SteeringClaims

/-!
# Network rules as routes

A network rule is one route per block, and the system picks routes by longest
prefix. Each block is split against the routes that would carry its addresses
over the other link, and its pieces yield to narrower networks of the other
link. The plan also keeps single addresses on their own link where a network
of the other link would carry them.
-/

set_option autoImplicit false

namespace NetRuleRouter.NetworkRoutes
open TextOps Sorting IpNetwork Canonical LongestPrefix Arbiter BlockGeometry
open RuleMatching (RouteBehaviorMode)

structure NetworkRouteFacts where
  tunnelRoutes : List IpBlock
  localNetworks : List IpBlock
  tunnelServers : List IpAddr
  lanSegments : List IpBlock
  foreignTunnelRoutes : List IpBlock

inductive RouteCodegenDiagnostic where
  | hostnameUnresolved (ruleId hostname : Text)
  | suffixEmpty (ruleId suffix : Text)
  | zoneEmpty (ruleId zone : Text)
  | appRuleAddressAndAppNotRouted (ruleId : Text)
  | appRuleUnobserved (ruleId app : Text)
  | appRuleDestinationClaimedByMainLink (ruleId app : Text) (ip : BitVec 32)
  | appRuleDestinationUsedByOtherProcess (ruleId app : Text) (ip : BitVec 32)
  | addressClaimedByMainLink (ruleId : Text) (ip : IpAddr) (count : ℕ)
  | privateAddressKeptOutOfTunnel (ruleId : Text) (ip : IpAddr) (count : ℕ)
  | primaryExceptionsUnavailable
  | networkYieldsToLocalNetwork (ruleId : Text) (network localNetwork : IpBlock)
  | networkRoutedAroundTunnelServer (ruleId : Text) (network : IpBlock) (server : IpAddr)
  | networkClaimedByMainLink (ruleId : Text) (network : IpBlock)
  | networkRoutesCapped (ruleId : Text) (cap : ℕ)
  deriving DecidableEq

/-- The networks of a link in address order; one of both links is listed for both. -/
def linkNetworks (n : NetworkClaims) (link : Link) : List IpBlock :=
  n.sorted.filter fun net => (n.claim net).any fun c => c.has link

def networksInside (n : NetworkClaims) (outer : IpBlock) : List (IpBlock × Link) :=
  (((n.sorted.dropWhile fun net => (addrOrder net.network outer.network).isLT).takeWhile fun net =>
    (addrOrder net.network outer.last).isLE).filter fun net =>
      decide (outer.prefixLen < net.prefixLen) && outer.covers net).filterMap fun net =>
        (n.claim net).map fun c => (net, c.winner)

def explicitInside (o : AddressOwnership) (network : IpBlock) : List IpAddr :=
  ((addressSet (o.routeRank.map Prod.fst ++ o.appTaken.map Prod.fst)).dropWhile fun ip =>
    (addrOrder ip network.network).isLT).takeWhile fun ip => (addrOrder ip network.last).isLE

def tunnelCatchAllMaxPrefix : ℕ := 12

def maxRoutesPerRule : ℕ := 4096

def overlayLow : BitVec 32 × ℕ := (0x00000000, 1)

def overlayHigh : BitVec 32 × ℕ := (0x80000000, 1)

def prefixMask (n : ℕ) : BitVec 32 :=
  if n = 0 then 0 else BitVec.allOnes 32 <<< (32 - n)

def counterOverlayFor (tunnelCatchAlls : List (BitVec 32 × ℕ)) : List (BitVec 32 × ℕ) :=
  let halves := (tunnelCatchAlls.filter fun e => decide (e.2 ≤ tunnelCatchAllMaxPrefix)).flatMap
    fun e =>
      let base := e.1 &&& prefixMask e.2
      let half := 1#32 <<< (31 - e.2)
      [(base, e.2 + 1), (base ||| half, e.2 + 1)]
  (sortBy (compareLex (compareOn fun e => e.1.toNat) (compareOn Prod.snd)) halves).dedup

def v4Blocks (set : List (BitVec 32 × ℕ)) : List IpBlock :=
  set.filterMap fun e => IpBlock.new (.v4 e.1) e.2

def blockSet (blocks : List IpBlock) : List IpBlock := (sortBy blockOrder blocks).dedup

def halvesOf (block : IpBlock) : List IpBlock :=
  match halves block with
  | some (low, high) => [low, high]
  | none => []

def splitAgainst (block : IpBlock) (competitors : List IpBlock) : List IpBlock :=
  let inside := competitors.filter fun c => block.covers c
  blockSet (inside.flatMap halvesOf ++ if inside.contains block then [] else [block])

/-- The siblings along the way down to the hole. The fuel bounds the splits left. -/
def siblings (hole : IpBlock) : ℕ → IpBlock → List IpBlock
  | 0, _ => []
  | fuel + 1, current =>
    if current = hole then []
    else match halves current with
      | none => []
      | some (low, high) =>
        if low.covers hole then high :: siblings hole fuel low else low :: siblings hole fuel high

def without (block hole : IpBlock) : List IpBlock :=
  if !block.overlaps hole then [block]
  else if hole.covers block then []
  else siblings hole (block.hostBits + 1) block

def hostPrefixFor (ip : IpAddr) : ℕ := if ip.isIpv4 then 32 else 128

def serversInside (link : Link) (block : IpBlock) (servers : List IpAddr) :
    List (IpAddr × IpBlock) :=
  match link with
  | .main => []
  | .additional => servers.filterMap fun server =>
    (IpBlock.new server (hostPrefixFor server)).bind fun hole =>
      if block.covers hole then some (server, hole) else none

def piecesFor (ruleId : Text) (block : IpBlock) (link : Link) (competitors : List IpBlock)
    (networks : NetworkClaims) (facts : NetworkRouteFacts) :
    List IpBlock × List RouteCodegenDiagnostic :=
  if link == .additional && (linkNetworks networks .main).contains block then
    ([], [.networkClaimedByMainLink ruleId block])
  else
    let servers := serversInside link block facts.tunnelServers
    let around := servers.foldl (fun pieces e => pieces.flatMap fun p => without p e.2)
      (splitAgainst block competitors)
    let heldBy (p : IpBlock) := facts.localNetworks.find? fun l => l.covers p
    let free := around.filter fun p => (heldBy p).isNone
    let narrower := ((networksInside networks block).filter fun e => e.2 != link).map Prod.fst
    (free.filter fun p => !narrower.any fun n => n.covers p,
      servers.map (fun e => .networkRoutedAroundTunnelServer ruleId block e.1) ++
        ((around.findSome? heldBy).map
          (RouteCodegenDiagnostic.networkYieldsToLocalNetwork ruleId block)).toList)

def networkRules (rules : CanonicalRuleSet) (support : RuleShapeSupport) :
    List (CanonicalRule × List IpBlock) :=
  rules.rules.filterMap fun rule =>
    if !rule.enabled || rule.action == .block || rule.appMatch.isSome ||
        !(ruleVerdict rule support).isSupported then none
    else (rule.addressMatch.bind CanonicalAddressMatch.ipBlocks).map fun blocks => (rule, blocks)

structure NetworkRoutePlan where
  networks : List (Link × IpBlock)
  hosts : List (Link × IpAddr)
  diagnostics : List RouteCodegenDiagnostic

/-- What carries a link's network over the other link unless out-specified. -/
def competitorsOf (mode : RouteBehaviorMode) (hasPrimary : Bool) (facts : NetworkRouteFacts)
    (tunnelCatchAlls : List (BitVec 32 × ℕ)) : Link → List IpBlock
  | .main => facts.tunnelRoutes ++
      if mode = .preferPrimary then [] else v4Blocks [overlayLow, overlayHigh]
  | .additional =>
    if mode = .preferPrimary ∧ hasPrimary = true then v4Blocks (counterOverlayFor tunnelCatchAlls)
    else []

def rulePieces (link : Link) (competitors : List IpBlock) (networks : NetworkClaims)
    (facts : NetworkRouteFacts) (rule : CanonicalRule × List IpBlock) :
    List IpBlock × List RouteCodegenDiagnostic :=
  let parts := rule.2.map fun block =>
    piecesFor rule.1.id block link competitors networks facts
  let pieces := parts.flatMap Prod.fst
  let reported := parts.flatMap Prod.snd
  if pieces.length > maxRoutesPerRule then
    ((sortBy (compareLex (compareOn IpBlock.prefixLen) blockOrder) pieces).take maxRoutesPerRule,
      reported ++ [.networkRoutesCapped rule.1.id maxRoutesPerRule])
  else (pieces, reported)

def pushPieces (link : Link) (networks : List (Link × IpBlock)) (pieces : List IpBlock) :
    List (Link × IpBlock) :=
  pieces.foldl (fun out p => if (link, p) ∈ out then out else out ++ [(link, p)]) networks

def narrowestHolder (networks : List (Link × IpBlock)) (ip : IpAddr) : Option Link :=
  (networks.foldl (fun best e =>
    if e.2.contains ip && best.all fun b => decide (b.2.prefixLen ≤ e.2.prefixLen) then some e
    else best) none).map Prod.fst

/-- The link whose hosts a mode leaves to a wide fallback. -/
def carveLink (mode : RouteBehaviorMode) : Link :=
  if mode = .preferPrimary then .main else .additional

def planNetworkRoutes (mode : RouteBehaviorMode) (book : CanonicalRuleBook) (hasPrimary : Bool)
    (o : AddressOwnership) (facts : NetworkRouteFacts) (tunnelCatchAlls : List (BitVec 32 × ℕ))
    (support : RuleShapeSupport) : NetworkRoutePlan :=
  let rulesOf (link : Link) : List (CanonicalRule × List IpBlock) := match link with
    | .main => if hasPrimary then networkRules book.primary support else []
    | .additional => networkRules book.secondary support
  let parts (link : Link) := (rulesOf link).map
    (rulePieces link (competitorsOf mode hasPrimary facts tunnelCatchAlls link) o.networks facts)
  let planned (link : Link) (networks : List (Link × IpBlock)) :=
    (parts link).foldl (fun out part => pushPieces link out part.1) networks
  let networks := planned .additional (planned .main [])
  let carved := (networks.filter fun e => e.1 != carveLink mode).flatMap fun e =>
    (explicitInside o e.2).filter fun ip =>
      o.ownerOf ip == some (carveLink mode) && narrowestHolder networks ip != some (carveLink mode)
  { networks := networks
    hosts := if carveLink mode = .main ∧ hasPrimary = false then []
      else (addressSet carved).map fun ip => (carveLink mode, ip)
    diagnostics := (parts .main).flatMap Prod.snd ++ (parts .additional).flatMap Prod.snd }

end NetRuleRouter.NetworkRoutes
