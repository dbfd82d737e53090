import NetRuleRouter.FilterPacking
import NetRuleRouter.RouteCodegen

/-!
# Filter generation

The desired filters of one user: for each rule set, first the filters its
rules emit themselves, in the order of the set, then the addresses its route
rules permit, packed together. A route rule permits, a Block drops and stands
above every permit.
-/

set_option autoImplicit false

namespace NetRuleRouter.FilterCodegen
open TextOps IpNetwork Canonical FqdnCache LongestPrefix StrongestTable Arbiter CarvedNetworks
open SteeringClaims FilterPacking AppPaths
open RouteCodegen (heldBack)

def appPathFanoutCap : ℕ := 16

def denyLoopbackSlot : ℕ := slotsPerRule - 1

inductive WfpLayerKey where
  | aleAuthConnectV4
  | aleAuthConnectV6
  | outboundIpPacketV4
  | outboundIpPacketV6
  deriving DecidableEq, Repr

inductive WfpAction where
  | permit
  | block
  deriving DecidableEq, Repr

structure WfpFilterSpec where
  layer : WfpLayerKey
  action : WfpAction
  remoteIpSet : List (BitVec 32)
  remoteIpSetV6 : List (BitVec 128)
  weight : ℕ
  id : UInt64
  userSid : Option Text
  appPattern : Option Text
  remoteSubnet : Option (BitVec 32 × ℕ)
  remoteSubnetV6 : Option (BitVec 128 × ℕ)
  deriving DecidableEq

def roleSlug : RouteRole → Text
  | .primary => "primary".toList
  | .secondary => "secondary".toList

def utf8Bytes (s : Text) : List UInt8 := s.flatMap String.utf8EncodeChar

def filterIdFor (sid role ruleId ruleKind target : Text) : UInt64 :=
  fnv1a ([sid, role, ruleId, ruleKind, target].flatMap fun part => utf8Bytes (part ++ ['/']))
    fnvOffset

def aleLayer : FamilyChunk → WfpLayerKey
  | .v4 _ => .aleAuthConnectV4
  | .v6 _ => .aleAuthConnectV6

def packetLayer : FamilyChunk → WfpLayerKey
  | .v4 _ => .outboundIpPacketV4
  | .v6 _ => .outboundIpPacketV6

def chunkSpec (chunk : FamilyChunk) (layer : WfpLayerKey) (action : WfpAction) (weight : ℕ)
    (id : UInt64) : WfpFilterSpec :=
  match chunk with
  | .v4 c => ⟨layer, action, c.members, [], weight, id, none, none, none, none⟩
  | .v6 c => ⟨layer, action, [], c.members, weight, id, none, none, none, none⟩

def networkSpec (piece : IpBlock) (packet : Bool) (action : WfpAction) (weight : ℕ)
    (id : UInt64) : WfpFilterSpec :=
  match piece.network with
  | .v4 net =>
    ⟨if packet then .outboundIpPacketV4 else .aleAuthConnectV4, action, [], [], weight, id, none,
      none, some (net, piece.prefixLen), none⟩
  | .v6 net =>
    ⟨if packet then .outboundIpPacketV6 else .aleAuthConnectV6, action, [], [], weight, id, none,
      none, none, some (net, piece.prefixLen)⟩

def appSpec (layer : WfpLayerKey) (action : WfpAction) (weight : ℕ) (id : UInt64)
    (sid path : Text) (v4 : Option (BitVec 32 × ℕ)) (v6 : Option (BitVec 128 × ℕ)) :
    WfpFilterSpec :=
  ⟨layer, action, [], [], weight, id, some sid, some path, v4, v6⟩

def loopbackV4 : BitVec 32 × ℕ := (0x7f000000, 8)

def loopbackV6 : BitVec 128 × ℕ := (1, 128)

def denyAppCompanions (sid role ruleId appKind path : Text) (blockWeight loopbackWeight : ℕ) :
    List WfpFilterSpec :=
  let id (kind : String) := filterIdFor sid role ruleId (appKind ++ '-' :: kind.toList) path
  [appSpec .aleAuthConnectV6 .block blockWeight (id "v6") sid path none none,
    appSpec .aleAuthConnectV4 .permit loopbackWeight (id "lo4") sid path (some loopbackV4) none,
    appSpec .aleAuthConnectV6 .permit loopbackWeight (id "lo6") sid path none (some loopbackV6)]

def isDenyLoopbackPermit (f : WfpFilterSpec) : Bool :=
  f.action == .permit && f.appPattern.isSome && f.remoteIpSet.isEmpty &&
    f.remoteIpSetV6.isEmpty && match f.remoteSubnet, f.remoteSubnetV6 with
      | some v4, none => v4 == loopbackV4
      | none, some v6 => v6 == loopbackV6
      | _, _ => false

def isWholeAppPermit (f : WfpFilterSpec) : Bool :=
  f.action == .permit && f.remoteIpSet.isEmpty && f.remoteIpSetV6.isEmpty &&
    f.remoteSubnet.isNone && f.remoteSubnetV6.isNone

inductive AppTrafficElsewhere where
  | namedByAddressRules
  | sharedWithOthers
  deriving DecidableEq, Repr

inductive CodegenDiagnostic where
  | skippedDisabled (ruleId : Text)
  | skippedNoMatch (ruleId : Text)
  | unsupportedRuleShape (ruleId : Text) (reason : UnsupportedShapeReason)
  | networkCarvingOverCap (ruleId : Text) (pieces cap : ℕ)
  | hostnameUnresolved (ruleId hostname : Text)
  | suffixEmpty (ruleId suffix : Text)
  | zoneEmpty (ruleId zone : Text)
  | suffixTruncated (ruleId suffix : Text) (cap : ℕ)
  | addressClaimedByPrimary (ruleId : Text) (ip : IpAddr) (count : ℕ)
  | blockYieldedToNarrowerRule (ruleId : Text) (ip : IpAddr) (count : ℕ)
  | privateAddressKeptOutOfTunnel (ruleId : Text) (ip : IpAddr) (count : ℕ)
  | pathRuleProtected (ruleId : Text) (reason : ProtectionReason) (overridePending : Bool)
  | pathInOtherUsersProfile (ruleId : Text)
  | appFolderOverCap (ruleId folder : Text) (covered : ℕ)
  | appUnresolved (ruleId app : Text)
  | appOverCapped (ruleId app : Text) (resolved cap : ℕ)
  | appTrafficTakenElsewhere (ruleId app : Text) (reason : AppTrafficElsewhere)
  | appDestinationClaimedByPrimary (ruleId app : Text) (ip : BitVec 32)
  | appDestinationUsedByOtherProcess (ruleId app : Text) (ip : BitVec 32)
  | appUnobserved (ruleId app : Text)
  deriving DecidableEq, Repr

/-- The observations with what the filters ask of them besides: the addresses seen last, and
whether an address was learnt from a script. -/
structure AppObservationMemory extends AppObservationLookup where
  latestOf : Text → List (BitVec 32) → ℕ → List (BitVec 32)
  learntFromScripts : Text → IpAddr → Bool

structure CodegenInput where
  sid : Text
  ruleBook : CanonicalRuleBook
  fqdnCache : FqdnCacheSnapshot
  appObservations : AppObservationMemory
  appResolver : AppPathResolver
  protection : PlaceProtection
  secondaryIpDenylist : List (BitVec 32)
  zonePriorityOverIp : Bool
  appRulesTakeAllAddresses : Bool
  families : FamilyScope
  packetBlocks : Bool

def OwnershipSettings.fromPolicy (zoneFirst takeAll : Bool) : OwnershipSettings :=
  ⟨if zoneFirst then .zoneFirst else .exactIpFirst, takeAll⟩

structure EnforcementCapabilities where
  perAppBlockLeakproof : Bool
  perAppRoutingTrue : Bool

def emitsAppScopedDestinationBlock : Bool := false

def emitsAppScopedDestinationRoute : Bool := false

def emitsNetworkDestination : Bool := true

def ruleShapeSupport (caps : EnforcementCapabilities) : RuleShapeSupport :=
  ⟨emitsAppScopedDestinationBlock && caps.perAppBlockLeakproof,
    emitsAppScopedDestinationRoute && caps.perAppRoutingTrue, emitsNetworkDestination⟩

structure RolePass where
  sid : Text
  role : RouteRole
  cache : FqdnCacheSnapshot
  gate : AppDestinationGate
  memory : AppObservationMemory
  ownership : SettledOwnership
  carving : NetworkCarving
  resolver : AppPathResolver
  protection : PlaceProtection
  families : FamilyScope
  packetBlocks : Bool
  shapes : RuleShapeSupport

def linkOf : RouteRole → Link
  | .primary => .main
  | .secondary => .additional

structure EmitContext where
  action : WfpAction
  baseWeight : ℕ
  kindPrefix : Text
  packetMirror : Bool

def emitContext (p : RolePass) : RuleAction → EmitContext
  | .block => ⟨.block, baseBlock, "block-".toList, p.packetBlocks⟩
  | _ => ⟨.permit, roleBase p.role, [], false⟩

/-- Filters, addresses for the band's common set, addresses a program's pair covers, reports. -/
structure Emission where
  filters : List WfpFilterSpec
  routeBandIps : List IpAddr
  appObserved : List (BitVec 32)
  diagnostics : List CodegenDiagnostic

def Emission.report (diagnostics : List CodegenDiagnostic) : Emission := ⟨[], [], [], diagnostics⟩

def Emission.append (a b : Emission) : Emission :=
  ⟨a.filters ++ b.filters, a.routeBandIps ++ b.routeBandIps, a.appObserved ++ b.appObserved,
    a.diagnostics ++ b.diagnostics⟩

section
variable (p : RolePass) (ctx : EmitContext) (pos : ℕ) (rule : CanonicalRule)

def emitPackedIpFilters (slotBase : ℕ) (ruleKind : Text) (ips : List IpAddr) : Emission :=
  if ctx.action = .permit then ⟨[], ips, [], []⟩
  else
    let kind := ctx.kindPrefix ++ ruleKind
    let id (kind : Text) (chunk : FamilyChunk) :=
      filterIdFor p.sid (roleSlug p.role) rule.id kind chunk.idSeg
    ⟨(packBoth ips).zipIdx.flatMap fun e =>
      let weight := ruleWeight ctx.baseWeight pos (slotBase + e.2)
      { chunkSpec e.1 (aleLayer e.1) ctx.action weight (id kind e.1) with userSid := some p.sid } ::
        if ctx.packetMirror then
          [chunkSpec e.1 (packetLayer e.1) .block weight (id (kind ++ "-pkt".toList) e.1)]
        else [], [], [], []⟩

def emitNetworkFilters (pieces : List IpBlock) : List WfpFilterSpec :=
  let kind := ctx.kindPrefix ++ "network".toList
  let id (kind : Text) (piece : IpBlock) :=
    filterIdFor p.sid (roleSlug p.role) rule.id kind (blockText piece)
  pieces.zipIdx.flatMap fun e =>
    let weight := ruleWeight ctx.baseWeight pos e.2
    { networkSpec e.1 false ctx.action weight (id kind e.1) with userSid := some p.sid } ::
      if ctx.packetMirror then
        [networkSpec e.1 true .block weight (id (kind ++ "-pkt".toList) e.1)]
      else []

def keeps (addrMatch : CanonicalAddressMatch) (ip : IpAddr) : Bool :=
  match rule.action with
  | .block => !p.ownership.blockYields ip addrMatch
  | _ =>
    match linkOf p.role, valueAt p.ownership.appTaken ip with
    | .main, some .additional => p.ownership.addressOwner ip != some .additional
    | link, _ => p.ownership.addressRuleMaySteer ip link

/-- The rule acts on what it keeps of the addresses; the rest is reported once for each cause. -/
def emitKept (ruleKind : Text) (addrMatch : CanonicalAddressMatch) (ips : List IpAddr) : Emission :=
  let held := ips.filter fun ip => !keeps p rule addrMatch ip
  let outside (ip : IpAddr) : Bool :=
    linkOf p.role == .additional && rule.action != .block && p.ownership.keepsOutOfTunnel ip
  let claimed (e : IpAddr × ℕ) : CodegenDiagnostic :=
    if ctx.action = .block then .blockYieldedToNarrowerRule rule.id e.1 e.2
    else .addressClaimedByPrimary rule.id e.1 e.2
  (emitPackedIpFilters p ctx pos rule 0 ruleKind (ips.filter (keeps p rule addrMatch))).append
    (.report (((heldBack (held.filter fun ip => !outside ip)).map claimed).toList ++
      ((heldBack (held.filter outside)).map fun e =>
        .privateAddressKeptOutOfTunnel rule.id e.1 e.2).toList))

def emitSuffixFanout (ruleKind name : Text) (addrMatch : CanonicalAddressMatch)
    (subdomains : List Text) (empty : CodegenDiagnostic) : Emission :=
  if subdomains.isEmpty then .report [empty]
  else Emission.append
    (.report (if suffixFanoutBackstop ≤ subdomains.length then
      [.suffixTruncated rule.id name suffixFanoutBackstop] else []))
    (emitKept p ctx pos rule ruleKind addrMatch
      (subdomains.flatMap fun sub => cappedForHost p.cache sub p.families))

def emitForAddressMatch (addrMatch : CanonicalAddressMatch) : Emission :=
  match addrMatch with
  | .exactIp addr =>
    if p.families.admits addr then
      emitKept p ctx pos rule "exact-ip".toList addrMatch [addr]
    else .report []
  | .subnet _ | .ipRange _ | .anyZoneDomain _ => .report []
  | .exactFqdn hostname =>
    if (p.cache.ipsForHostname hostname).isEmpty then
      .report [.hostnameUnresolved rule.id hostname]
    else emitKept p ctx pos rule "exact-fqdn".toList addrMatch
      (cappedForHost p.cache hostname p.families)
  | .suffixDomain suffix =>
    emitSuffixFanout p ctx pos rule "suffix-domain".toList suffix addrMatch
      (p.cache.hostnamesForSuffixDomain suffix suffixFanoutBackstop) (.suffixEmpty rule.id suffix)
  | .zone zone =>
    emitSuffixFanout p ctx pos rule "zone".toList zone addrMatch
      (p.cache.hostnamesUnderSuffix zone suffixFanoutBackstop) (.zoneEmpty rule.id zone)

/-- The key of a program rule's observations, the programs its filters name, and what is to
report of them. -/
structure AppTargets where
  key : Text
  paths : List Text
  byPath : Bool
  notes : List CodegenDiagnostic

def effectOf : RuleEffect :=
  if ctx.action = .block then .deny
  else if linkOf p.role = .main then .primaryRoute
  else .secondaryRoute

def appTargets (app : CanonicalAppMatch) : Except CodegenDiagnostic AppTargets :=
  match app.pattern with
  | .exact s | .glob s => .ok ⟨s, p.resolver.resolve s, false, []⟩
  | .path path =>
    let targets := pathRuleTargets path p.sid (effectOf p ctx) app.overrideRequested p.resolver
      p.protection
    match targets.refused with
    | some reason => .error (.pathRuleProtected rule.id reason targets.overridePending)
    | none =>
      if targets.outcome = .otherUsersFolder then .error (.pathInOtherUsersProfile rule.id)
      else .ok ⟨targets.key, targets.programs, true,
        if targets.overCap then [.appFolderOverCap rule.id targets.key targets.programs.length]
        else []⟩

def appFilters (byPath : Bool) (path : Text) (k : ℕ) : List WfpFilterSpec :=
  let appKind := ctx.kindPrefix ++ "app".toList
  let weight := ruleWeight ctx.baseWeight pos (if byPath then 0 else k)
  appSpec .aleAuthConnectV4 ctx.action weight
      (filterIdFor p.sid (roleSlug p.role) rule.id appKind path) p.sid path none none ::
    if ctx.action = .block then
      denyAppCompanions p.sid (roleSlug p.role) rule.id appKind path weight
        (ruleWeight ctx.baseWeight pos denyLoopbackSlot)
    else []

/-- One filter for each program; the programs of a path rule share the first slot. -/
def emitPrograms (targets : AppTargets) : Emission :=
  ⟨((targets.paths.take
      (if targets.byPath then targets.paths.length else appPathFanoutCap)).zipIdx.flatMap fun e =>
        appFilters p ctx pos rule targets.byPath e.1 e.2), [], [],
    targets.notes ++
      if targets.paths.isEmpty then [.appUnresolved rule.id targets.key]
      else if !targets.byPath && appPathFanoutCap < targets.paths.length then
        [.appOverCapped rule.id targets.key targets.paths.length appPathFanoutCap]
      else []⟩

def noneTaken (d : AppDestinations) : Option AppTrafficElsewhere :=
  if !d.admitted.isEmpty || !d.admittedV6.isEmpty || d.refused.isEmpty then none
  else if d.refused.any fun e => e.2 == .claimedByAddressRule then some .namedByAddressRules
  else some .sharedWithOthers

def refusalReport (app : Text) (ip : BitVec 32) :
    AppDestinationRefusal → Option CodegenDiagnostic
  | .claimedByAddressRule => some (.appDestinationClaimedByPrimary rule.id app ip)
  | .usedByOtherProcess => some (.appDestinationUsedByOtherProcess rule.id app ip)
  | .declinedShared => none

/-- The addresses a program was seen to use, mirrored into the band's common set. -/
def emitObserved (targets : AppTargets) : Emission :=
  let destinations := p.gate.admission targets.key (linkOf p.role)
  let taken := if targets.paths.isEmpty then none else noneTaken destinations
  let mirrored := if destinations.admitted.isEmpty then []
    else p.memory.latestOf targets.key destinations.admitted perHostnameIpCap
  let covered := linkOf p.role == .additional && !targets.paths.isEmpty
  let packed := emitPackedIpFilters p ctx pos rule (appPathFanoutCap + 1) "application".toList
    (mirrored.map .v4)
  { packed with
    appObserved := mirrored.filter fun ip =>
      covered && !p.memory.learntFromScripts targets.key (.v4 ip)
    diagnostics :=
      (taken.map (CodegenDiagnostic.appTrafficTakenElsewhere rule.id targets.key)).toList ++
      destinations.refused.filterMap (fun e => refusalReport rule targets.key e.1 e.2) ++
      if destinations.admitted.isEmpty && destinations.refused.isEmpty then
        [.appUnobserved rule.id targets.key] else [] }

def emitForAppMatch (app : CanonicalAppMatch) : Emission :=
  match appTargets p ctx rule app with
  | .error refusal => .report [refusal]
  | .ok targets =>
    let programs := emitPrograms p ctx pos rule targets
    if ctx.action = .block then programs
    else programs.append (emitObserved p ctx pos rule targets)

end

def generateForRule (p : RolePass) (pos : ℕ) (rule : CanonicalRule) : Emission :=
  if !rule.enabled then .report [.skippedDisabled rule.id]
  else if rule.addressMatch.isNone && rule.appMatch.isNone then .report [.skippedNoMatch rule.id]
  else match ruleVerdict rule p.shapes with
    | .unsupported reason => .report [.unsupportedRuleShape rule.id reason]
    | .supported =>
      let ctx := emitContext p rule.action
      match rule.addressMatch.bind CanonicalAddressMatch.ipBlocks with
      | some blocks =>
        let carved := p.carving.pieces blocks (linkOf p.role) rule.action p.families
        ⟨emitNetworkFilters p ctx pos rule carved.pieces, [], [],
          (carved.overCap.map fun n => .networkCarvingOverCap rule.id n networkPieceCap).toList⟩
      | none => match rule.addressMatch, rule.appMatch with
        | some addrMatch, _ => emitForAddressMatch p ctx pos rule addrMatch
        | none, some app => emitForAppMatch p ctx pos rule app
        | none, none => .report []

def emitRules (p : RolePass) : ℕ → List CanonicalRule → Emission
  | _, [] => .report []
  | pos, rule :: rules => (generateForRule p pos rule).append (emitRules p (pos + 1) rules)

def flushRouteBand (p : RolePass) (ips : List IpAddr) : List WfpFilterSpec :=
  (packBoth ips).zipIdx.map fun e =>
    { chunkSpec e.1 (aleLayer e.1) .permit (ruleWeight (roleBase p.role) 0 e.2)
        (filterIdFor p.sid (roleSlug p.role) [] "route-band".toList e.1.idSeg) with
      userSid := some p.sid }

def roleFilters (p : RolePass) (rules : List CanonicalRule) : List WfpFilterSpec :=
  let emitted := emitRules p 0 rules
  emitted.filters ++ flushRouteBand p emitted.routeBandIps

def CodegenInput.rolePass (caps : EnforcementCapabilities) (input : CodegenInput)
    (shapes : RuleShapeSupport) (role : RouteRole) : RolePass :=
  let settings := OwnershipSettings.fromPolicy input.zonePriorityOverIp
    input.appRulesTakeAllAddresses
  let ownership := resolveFor input.ruleBook input.fqdnCache settings (ruleShapeSupport caps)
    input.appObservations.toAppObservationLookup
  { sid := input.sid
    role := role
    cache := match role with
      | .primary => input.fqdnCache
      | .secondary => denylistFilteredCache input.fqdnCache input.secondaryIpDenylist
    gate := .forRuleSet ownership input.appObservations.toAppObservationLookup
      (input.ruleBook.setFor role) input.secondaryIpDenylist
    memory := input.appObservations
    ownership := ownership
    carving := .index input.ruleBook input.fqdnCache ownership.toAddressOwnership settings.order
      shapes input.secondaryIpDenylist
    resolver := input.appResolver
    protection := input.protection
    families := input.families
    packetBlocks := input.packetBlocks
    shapes := shapes }

def destinationIps (f : WfpFilterSpec) : List IpAddr :=
  f.remoteIpSet.map .v4 ++ f.remoteIpSetV6.map .v6

def permittedIps (filters : List WfpFilterSpec) : List IpAddr :=
  ((filters.filter fun f => f.action == .permit).flatMap destinationIps).eraseDups

def destinationNetworks (filters : List WfpFilterSpec) : List IpBlock :=
  ((filters.filter fun f => f.action == .permit && f.appPattern.isNone).filterMap fun f =>
    (f.remoteSubnet.bind fun net => IpBlock.new (.v4 net.1) net.2).or
      (f.remoteSubnetV6.bind fun net => IpBlock.new (.v6 net.1) net.2)).eraseDups

def routedPrograms (filters : List WfpFilterSpec) : List Text :=
  ((filters.filter isWholeAppPermit).filterMap WfpFilterSpec.appPattern).eraseDups

structure CodegenOutput where
  filters : List WfpFilterSpec
  diagnostics : List CodegenDiagnostic
  secondaryDestIps : List IpAddr
  primaryDestIps : List IpAddr
  secondaryAppPatterns : List Text
  primaryAppPatterns : List Text
  appObservedSecondaryIps : List (BitVec 32)
  secondaryDestNetworks : List IpBlock
  primaryDestNetworks : List IpBlock

def generateFiltersWithShapes (caps : EnforcementCapabilities) (input : CodegenInput)
    (shapes : RuleShapeSupport) : CodegenOutput :=
  let emitted (role : RouteRole) :=
    emitRules (input.rolePass caps shapes role) 0 (input.ruleBook.setFor role).rules
  let filters (role : RouteRole) :=
    roleFilters (input.rolePass caps shapes role) (input.ruleBook.setFor role).rules
  { filters := filters .primary ++ filters .secondary
    diagnostics := (emitted .primary).diagnostics ++ (emitted .secondary).diagnostics
    secondaryDestIps := permittedIps (filters .secondary)
    primaryDestIps := permittedIps (filters .primary)
    secondaryAppPatterns := routedPrograms (filters .secondary)
    primaryAppPatterns := routedPrograms (filters .primary)
    appObservedSecondaryIps :=
      ((emitted .primary).appObserved ++ (emitted .secondary).appObserved).eraseDups
    secondaryDestNetworks := destinationNetworks (filters .secondary)
    primaryDestNetworks := destinationNetworks (filters .primary) }

def generateFilters (caps : EnforcementCapabilities) (input : CodegenInput) : CodegenOutput :=
  generateFiltersWithShapes caps input (ruleShapeSupport caps)

end NetRuleRouter.FilterCodegen
