import NetRuleRouter.Canonical
import NetRuleRouter.FqdnCache
import NetRuleRouter.LongestPrefix

/-!
# The address arbiter

Rules name hosts, enforcement acts on addresses. The arbiter resolves the
route rules of both sets through the name cache, settles each host by the
more specific claim and each address by the claims of its hosts, literal
rules and networks, and then answers whose address it is and whether a Block
must leave it alone.
-/

set_option autoImplicit false

namespace NetRuleRouter.Arbiter
open TextOps Sorting IpNetwork Canonical StrongestTable FqdnCache LongestPrefix
open HostMatching hiding labelCount

inductive RuleShape where
  | destination
  | networkDestination
  | source
  | sourceAndDestination
  | sourceAndNetwork
  deriving DecidableEq, Repr

def isNetwork (r : CanonicalRule) : Bool :=
  (r.addressMatch.bind CanonicalAddressMatch.ipBlocks).isSome

def shapeOf (r : CanonicalRule) : Option RuleShape :=
  match r.addressMatch.isSome, r.appMatch.isSome with
  | true, false => some (if isNetwork r then .networkDestination else .destination)
  | false, true => some .source
  | true, true => some (if isNetwork r then .sourceAndNetwork else .sourceAndDestination)
  | false, false => none

structure RuleShapeSupport where
  appScopedDestinationBlock : Bool
  appScopedDestinationRoute : Bool
  networkDestination : Bool
  deriving DecidableEq, Repr

def everyShape : RuleShapeSupport := ⟨true, true, true⟩

inductive UnsupportedShapeReason where
  | appScopedDestinationBlock
  | appScopedDestinationRoute
  | networkDestination
  deriving DecidableEq, Repr

inductive ShapeVerdict where
  | supported
  | unsupported (reason : UnsupportedShapeReason)
  deriving DecidableEq, Repr

def ShapeVerdict.isSupported : ShapeVerdict → Bool
  | .supported => true
  | .unsupported _ => false

def shapeVerdict (shape : RuleShape) (action : RuleAction) (support : RuleShapeSupport) :
    ShapeVerdict :=
  if (shape = .networkDestination ∨ shape = .sourceAndNetwork) ∧
      support.networkDestination = false then .unsupported .networkDestination
  else match shape, action with
    | .destination, _ | .networkDestination, _ | .source, _ => .supported
    | .sourceAndDestination, .block | .sourceAndNetwork, .block =>
      if support.appScopedDestinationBlock then .supported
      else .unsupported .appScopedDestinationBlock
    | .sourceAndDestination, _ | .sourceAndNetwork, _ =>
      if support.appScopedDestinationRoute then .supported
      else .unsupported .appScopedDestinationRoute

def ruleVerdict (r : CanonicalRule) (support : RuleShapeSupport) : ShapeVerdict :=
  match shapeOf r with
  | some shape => shapeVerdict shape r.action support
  | none => .supported

inductive NameClaim where
  | zone (labels : ℕ)
  | suffix (labels : ℕ)
  | siteZone (labels : ℕ)
  | exactFqdn
  deriving DecidableEq, Repr

def NameClaim.key : NameClaim → ℕ ×ₗ ℕ
  | .zone labels => toLex (0, labels)
  | .suffix labels => toLex (1, 2 * labels)
  | .siteZone labels => toLex (1, 2 * labels + 1)
  | .exactFqdn => toLex (2, 0)

theorem key_injective : Function.Injective NameClaim.key := by
  intro a b h
  cases a <;> cases b <;> simp [NameClaim.key] at h ⊢ <;> omega

instance : LinearOrder NameClaim := LinearOrder.lift' NameClaim.key key_injective

def NameClaim.isZone : NameClaim → Bool
  | .zone _ => true
  | _ => false

inductive ZoneVsIpOrder where
  | exactIpFirst
  | zoneFirst
  deriving DecidableEq, Repr

abbrev ClaimRank := ℕ ×ₗ ℕ

def hostRank (claim : NameClaim) (order : ZoneVsIpOrder) : ClaimRank :=
  match claim, order with
  | .zone labels, .exactIpFirst => toLex (0, labels)
  | .zone labels, .zoneFirst => toLex (2, labels)
  | .suffix labels, _ => toLex (3, 2 * labels)
  | .siteZone labels, _ => toLex (3, 2 * labels + 1)
  | .exactFqdn, _ => toLex (4, 0)

def subnetRank (prefixLen : ℕ) : ZoneVsIpOrder → ClaimRank
  | .exactIpFirst => toLex (1, prefixLen)
  | .zoneFirst => toLex (0, prefixLen)

def literalRank : ZoneVsIpOrder → ClaimRank
  | .exactIpFirst => toLex (2, 0)
  | .zoneFirst => toLex (1, 0)

def labelCount (name : Text) : ℕ := ((name.splitOn '.').filter (· ≠ [])).length

def zoneClaim (zone : Text) (own : Option (CanonicalRuleSet × Option CanonicalAppMatch)) :
    NameClaim :=
  if !zoneRanksAsSuffix zone then .zone (labelCount zone)
  else match own with
    | some (set, app) =>
      if set.holdsSuffix zone app then .suffix (labelCount zone) else .siteZone (labelCount zone)
    | none => .siteZone (labelCount zone)

/-- A Block's own place at `ip`; a literal one never yields, and a network does not apply outside
itself. -/
def blockRank (block : CanonicalAddressMatch) (ip : IpAddr) (order : ZoneVsIpOrder) :
    Option ClaimRank :=
  match block with
  | .exactIp _ => none
  | .subnet _ | .ipRange _ =>
    (block.ipBlocks.bind (List.find? fun net => net.contains ip)).map fun net =>
      subnetRank net.prefixLen order
  | .exactFqdn _ => some (hostRank .exactFqdn order)
  | .suffixDomain s => some (hostRank (.suffix (labelCount s)) order)
  | .zone z => some (hostRank (zoneClaim z none) order)
  | .anyZoneDomain _ => none

structure SetClaims where
  names : Table Text NameClaim
  literal : List IpAddr
  networks : List IpBlock

/-- Application rules and Block rules claim nothing. -/
def routeRules (rules : CanonicalRuleSet) : List CanonicalRule :=
  rules.rules.filter fun r => r.enabled && r.appMatch.isNone && r.action != .block

def hostsNamed (cache : FqdnCacheSnapshot) (r : CanonicalRule) : List Text :=
  match r.addressMatch with
  | some (.exactFqdn host) => [host]
  | some (.suffixDomain suffix) => cache.hostnamesForSuffixDomain suffix suffixFanoutBackstop
  | some (.zone zone) => cache.hostnamesUnderSuffix zone suffixFanoutBackstop
  | _ => []

def nameClaimOf (rules : CanonicalRuleSet) (r : CanonicalRule) : NameClaim :=
  match r.addressMatch with
  | some (.suffixDomain suffix) => .suffix (labelCount suffix)
  | some (.zone zone) => zoneClaim zone (some (rules, r.appMatch))
  | _ => .exactFqdn

def literalOf (r : CanonicalRule) : Option IpAddr :=
  match r.addressMatch with
  | some (.exactIp ip) => some ip
  | _ => none

def networksOf (support : RuleShapeSupport) (r : CanonicalRule) : List IpBlock :=
  if (ruleVerdict r support).isSupported then
    (r.addressMatch.bind CanonicalAddressMatch.ipBlocks).getD []
  else []

def nameClaims (rules : CanonicalRuleSet) (cache : FqdnCacheSnapshot)
    (support : RuleShapeSupport) : SetClaims where
  names := raiseAll ((routeRules rules).flatMap fun r =>
    (hostsNamed cache r).map fun host => (host, nameClaimOf rules r))
  literal := (routeRules rules).filterMap literalOf
  networks := (routeRules rules).flatMap (networksOf support)

structure AddressOwnership where
  main : List IpAddr
  additional : List IpAddr
  routeRank : Table IpAddr ClaimRank
  networks : NetworkClaims
  mainZoneOnly : List IpAddr
  additionalZoneOnly : List IpAddr
  appTaken : Table IpAddr Link
  order : ZoneVsIpOrder

/-- The link that carries a host, and by which claim; a tie goes to the main one. -/
def carrier (main additional : Option NameClaim) : Option (Link × NameClaim) :=
  match main, additional with
  | some m, some a => if m < a then some (.additional, a) else some (.main, m)
  | some m, none => some (.main, m)
  | none, some a => some (.additional, a)
  | none, none => none

section
variable (cache : FqdnCacheSnapshot) (mainClaims additionalClaims : SetClaims)

def hosts : List Text :=
  (sortBy compare ((mainClaims.names ++ additionalClaims.names).map Prod.fst)).dedup

def carried (host : Text) : Option (Link × NameClaim) :=
  carrier (valueAt mainClaims.names host) (valueAt additionalClaims.names host)

def hostEntries (link : Link) : List (IpAddr × NameClaim) :=
  (hosts mainClaims additionalClaims).flatMap fun host =>
    match carried mainClaims additionalClaims host with
    | some (l, claim) =>
      if l = link then (cappedForHost cache host .both).map fun ip => (ip, claim) else []
    | none => []

/-- The strongest route claim on each address, whichever link holds it. -/
def routeEntries (order : ZoneVsIpOrder) : List (IpAddr × ClaimRank) :=
  (sortBy (compareOn toBits) (mainClaims.literal ++ additionalClaims.literal)).map
    (fun ip => (ip, literalRank order)) ++
  (hosts mainClaims additionalClaims).flatMap fun host =>
    match carried mainClaims additionalClaims host with
    | some (_, claim) =>
      (cappedForHost cache host .both).map fun ip => (ip, hostRank claim order)
    | none => []

/-- A literal of the additional link takes an address the main link holds through a zone alone. -/
def losesToAdditionalLiteral (order : ZoneVsIpOrder) (mainClaim : Table IpAddr NameClaim)
    (ip : IpAddr) : Bool :=
  order == .exactIpFirst && additionalClaims.literal.contains ip &&
    !(mainClaims.literal.contains ip || (valueAt mainClaim ip).any fun c => !c.isZone)

/-- A literal of the main link yields to a name of the additional link the engine reads first. -/
def losesToAdditionalName (order : ZoneVsIpOrder)
    (mainClaim additionalClaim : Table IpAddr NameClaim) (ip : IpAddr) : Bool :=
  mainClaims.literal.contains ip && !additionalClaims.literal.contains ip &&
    (valueAt mainClaim ip).isNone &&
    (valueAt additionalClaim ip).any fun c => !c.isZone || order == .zoneFirst

end

/-- The addresses a link holds through a zone and nothing closer, where networks outrank zones. -/
def zoneOnly (order : ZoneVsIpOrder) (networks : NetworkClaims) (held literal : List IpAddr)
    (claims : Table IpAddr NameClaim) : List IpAddr :=
  if order ≠ .exactIpFirst ∨ networks.isEmpty = true then []
  else (claims.filter fun e => e.2.isZone && held.contains e.1 && !literal.contains e.1).map Prod.fst

def resolveWithSupport (book : CanonicalRuleBook) (cache : FqdnCacheSnapshot)
    (order : ZoneVsIpOrder) (support : RuleShapeSupport) : AddressOwnership :=
  let mainClaims := nameClaims book.primary cache support
  let additionalClaims := nameClaims book.secondary cache support
  let networks := NetworkClaims.new mainClaims.networks additionalClaims.networks
  let mainClaim := raiseAll (hostEntries cache mainClaims additionalClaims .main)
  let additionalClaim := raiseAll (hostEntries cache mainClaims additionalClaims .additional)
  let main := (mainClaims.literal ++ mainClaim.map Prod.fst).filter fun ip =>
    !losesToAdditionalLiteral mainClaims additionalClaims order mainClaim ip &&
      !losesToAdditionalName mainClaims additionalClaims order mainClaim additionalClaim ip
  let additional := additionalClaims.literal ++ additionalClaim.map Prod.fst
  { main := main
    additional := additional
    routeRank := raiseAll (routeEntries cache mainClaims additionalClaims order)
    networks := networks
    mainZoneOnly := zoneOnly order networks main mainClaims.literal mainClaim
    additionalZoneOnly := zoneOnly order networks additional additionalClaims.literal additionalClaim
    appTaken := []
    order := order }

namespace AddressOwnership

def addressOwner (o : AddressOwnership) (ip : IpAddr) : Option Link :=
  let network := o.networks.winner ip
  if ip ∈ o.main then
    if ip ∈ o.mainZoneOnly ∧ network = some .additional then some .additional else some .main
  else if ip ∈ o.additional then
    if ip ∈ o.additionalZoneOnly ∧ network = some .main then some .main else some .additional
  else network

def ownerOf (o : AddressOwnership) (ip : IpAddr) : Option Link :=
  (valueAt o.appTaken ip).or (o.addressOwner ip)

def outranked (o : AddressOwnership) (ip : IpAddr) (own : ClaimRank) : Bool :=
  (valueAt o.routeRank ip).any (own < ·) ||
    (o.networks.longest ip).any fun e => own < subnetRank e.1.prefixLen o.order

def blockYields (o : AddressOwnership) (ip : IpAddr) (block : CanonicalAddressMatch) : Bool :=
  (blockRank block ip o.order).any (o.outranked ip)

end AddressOwnership

end NetRuleRouter.Arbiter
