import NetRuleRouter.HostMatching
import NetRuleRouter.Canonical

/-!
# The rule matching engine

Two vetoes and five tiers over the enabled rules of both sets. Each tier
collects the rules that name the connection and hands them to one selection;
the first tier with an eligible candidate decides.
-/

set_option autoImplicit false

namespace NetRuleRouter.RuleMatching
open TextOps IpNetwork AppPaths HostMatching Canonical Sorting

inductive NormalizationError where
  | domainEmpty
  | domainInvalidCharacters (raw : Text)
  | domainIdnaFailed (raw : Text)
  | domainMalformedLabels (raw : Text)
  | zoneNameEmpty
  | zoneNameContainsWhitespace (raw : Text)
  | zoneNameInvalidCharacters (raw : Text)
  | applicationNameEmpty
  deriving DecidableEq, Repr

inductive NormalizedHostname where
  | valid (hostname : Text)
  | unavailable
  | invalid (raw : Text) (error : NormalizationError)
  deriving DecidableEq, Repr

/-- Observed address; the two families of the source are the families of `IpAddr`. -/
inductive NormalizedIp where
  | valid (addr : IpAddr)
  | unavailable
  deriving DecidableEq

structure NormalizedAppIdentity where
  processName : Text
  originalPath : Option Text
  deriving DecidableEq, Repr

structure MatchClassAvailability where
  exactFqdn : Option NormalizationError
  suffixDomain : Option NormalizationError
  zone : Option NormalizationError
  exactIp : Option NormalizationError
  application : Option NormalizationError
  deriving DecidableEq, Repr

def MatchClassAvailability.allAddressClassesBlocked (a : MatchClassAvailability) : Bool :=
  a.exactFqdn.isSome && a.suffixDomain.isSome && a.zone.isSome && a.exactIp.isSome

def MatchClassAvailability.nothingAvailable (a : MatchClassAvailability) : Bool :=
  a.allAddressClassesBlocked && a.application.isSome

structure NormalizedDecisionInput where
  hostname : NormalizedHostname
  ip : NormalizedIp
  appIdentity : Option NormalizedAppIdentity
  matchClassAvailability : MatchClassAvailability
  deriving DecidableEq

inductive CacheEntryState where
  | fresh
  | staleUsable
  | staleNotUsable
  | missing
  | conflicting
  | negativeCached
  deriving DecidableEq, Repr

def CacheEntryState.isUsableForMatching : CacheEntryState → Bool
  | .fresh | .staleUsable => true
  | _ => false

structure SelectedIp where
  addr : IpAddr
  cacheState : CacheEntryState
  deriving DecidableEq

structure LookupResult where
  selectedIp : Option SelectedIp
  deriving DecidableEq

inductive MatchClass where
  | exactFqdn
  | suffixDomain
  | exactIp
  | subnet
  | zone
  | application
  deriving DecidableEq, Repr

inductive AppFilterResult where
  | noFilter
  | matched
  | notMatched
  deriving DecidableEq, Repr

def AppFilterResult.isEligible : AppFilterResult → Bool
  | .noFilter | .matched => true
  | .notMatched => false

inductive ConflictMarker where
  | none
  | detected
  deriving DecidableEq, Repr

structure RuleMatchCandidate where
  ruleId : Text
  routeRole : RouteRole
  matchClass : MatchClass
  specificity : ℕ
  appFilterResult : AppFilterResult
  conflict : ConflictMarker
  action : RuleAction
  deriving DecidableEq, Repr

structure ZonePriorityPolicy where
  preferIp : Bool
  deriving DecidableEq, Repr

def ZonePriorityPolicy.tier3Order (p : ZonePriorityPolicy) : List MatchClass :=
  if p.preferIp then [.exactIp, .subnet, .zone] else [.zone, .exactIp, .subnet]

inductive RouteBehaviorMode where
  | preferPrimary
  | preferSecondaryWhenAvailable
  deriving DecidableEq, Repr

inductive NoMatchReason where
  | allClassesBlocked
  | emptyRuleBook
  | noMatchFound
  deriving DecidableEq, Repr

inductive RequestedRouteDecision where
  | matchedRoute (candidate : RuleMatchCandidate)
  | defaultRoute (reason : NoMatchReason) (behaviorMode : RouteBehaviorMode)
  deriving DecidableEq, Repr

def RequestedRouteDecision.matchedRouteRole : RequestedRouteDecision → Option RouteRole
  | .matchedRoute c => some c.routeRole
  | .defaultRoute _ _ => none

def RequestedRouteDecision.outcome : RequestedRouteDecision → Option (RouteRole × RuleAction)
  | .matchedRoute c => some (c.routeRole, c.action)
  | .defaultRoute _ _ => none

def appExact : ℕ := 1000

def appFile : ℕ := 1001

def appGlob : ℕ := 1

def appFolder (depth : ℕ) (withSubfolders : Bool) : ℕ :=
  2 + 2 * min depth maxPathSegments + (!withSubfolders).toNat

/-- How specifically `pattern` names the observed process. -/
def appMatchSpecificity (pattern : CanonicalAppPattern) (identity : NormalizedAppIdentity) :
    Option ℕ :=
  match pattern with
  | .exact p => if appMatchKey p = appMatchKey identity.processName then some appExact else none
  | .glob p =>
    if globMatch (appMatchKey p) (appMatchKey identity.processName) then some appGlob else none
  | .path path =>
    identity.originalPath.bind fun image =>
      (path.matchImage image).bind fun kind =>
        match kind with
        | .file => some appFile
        | .folder => some (appFolder path.depth false)
        | .folderTree => some (appFolder path.depth true)
        | .fileOrFolder => none

def evalAppFilter (rule : CanonicalRule) (appIdentity : Option NormalizedAppIdentity) :
    AppFilterResult :=
  match rule.appMatch, appIdentity with
  | none, _ => .noFilter
  | some _, none => .notMatched
  | some app, some identity =>
    if (appMatchSpecificity app.pattern identity).isSome then .matched else .notMatched

def makeCandidate (rule : CanonicalRule) (role : RouteRole) (filter : AppFilterResult)
    (claim : MatchClass × ℕ) : RuleMatchCandidate :=
  ⟨rule.id, role, claim.1, claim.2, filter, .none, rule.action⟩

/-- The candidates of one tier: what `claim` says of each enabled rule, the primary set first. -/
def collect (book : CanonicalRuleBook) (filter : CanonicalRule → AppFilterResult)
    (claim : RouteRole → CanonicalRule → Option (MatchClass × ℕ)) : List RuleMatchCandidate :=
  [RouteRole.primary, RouteRole.secondary].flatMap fun role =>
    ((book.setFor role).rules.filter CanonicalRule.enabled).filterMap fun rule =>
      (claim role rule).map (makeCandidate rule role (filter rule))

def exactFqdnClaim (hostname : Text) (_ : RouteRole) (rule : CanonicalRule) :
    Option (MatchClass × ℕ) :=
  match rule.addressMatch with
  | some (.exactFqdn label) =>
    if label = hostname then some (.exactFqdn, labelCount label) else none
  | _ => none

/-- A zone of several labels competes here unless its set already holds the suffix rule of its
name, and a rule for any zone unless some rule names that suffix outright. -/
def suffixDomainClaim (book : CanonicalRuleBook) (hostname : Text) (role : RouteRole)
    (rule : CanonicalRule) : Option (MatchClass × ℕ) :=
  match rule.addressMatch with
  | some (.suffixDomain label) =>
    if matchSuffixDomain hostname label then some (.suffixDomain, labelCount label) else none
  | some (.zone name) =>
    if zoneRanksAsSuffix name && matchZone hostname name &&
        !(book.setFor role).holdsSuffix name rule.appMatch then
      some (.zone, labelCount name)
    else none
  | some (.anyZoneDomain base) =>
    match matchAnyZoneDomain hostname base with
    | some named =>
      if !book.namesSuffixOutright named then some (.suffixDomain, labelCount named) else none
    | none => none
  | _ => none

def zoneClaim (hostname : Text) (_ : RouteRole) (rule : CanonicalRule) : Option (MatchClass × ℕ) :=
  match rule.addressMatch with
  | some (.zone name) =>
    if !zoneRanksAsSuffix name && matchZone hostname name then some (.zone, labelCount name)
    else none
  | _ => none

def exactIpClaim (ip : IpAddr) (_ : RouteRole) (rule : CanonicalRule) : Option (MatchClass × ℕ) :=
  match rule.addressMatch with
  | some (.exactIp addr) => if addr = ip then some (.exactIp, 1) else none
  | _ => none

/-- A range is as narrow as its piece around the address. -/
def subnetClaim (ip : IpAddr) (_ : RouteRole) (rule : CanonicalRule) : Option (MatchClass × ℕ) :=
  ((rule.addressMatch.bind CanonicalAddressMatch.ipBlocks).bind
    (List.find? fun block => block.contains ip)).map fun block => (.subnet, block.prefixLen)

def applicationClaim (identity : NormalizedAppIdentity) (_ : RouteRole) (rule : CanonicalRule) :
    Option (MatchClass × ℕ) :=
  match rule.addressMatch, rule.appMatch with
  | none, some app => (appMatchSpecificity app.pattern identity).map fun s => (.application, s)
  | _, _ => none

section
variable (book : CanonicalRuleBook) (app : Option NormalizedAppIdentity)

def collectExactFqdn (hostname : Text) : List RuleMatchCandidate :=
  collect book (evalAppFilter · app) (exactFqdnClaim hostname)

def collectSuffixDomain (hostname : Text) : List RuleMatchCandidate :=
  collect book (evalAppFilter · app) (suffixDomainClaim book hostname)

def collectZone (hostname : Text) : List RuleMatchCandidate :=
  collect book (evalAppFilter · app) (zoneClaim hostname)

def collectExactIp (ip : IpAddr) : List RuleMatchCandidate :=
  collect book (evalAppFilter · app) (exactIpClaim ip)

def collectSubnet (ip : IpAddr) : List RuleMatchCandidate :=
  collect book (evalAppFilter · app) (subnetClaim ip)

def collectApplication (identity : NormalizedAppIdentity) : List RuleMatchCandidate :=
  collect book (fun _ => .matched) (applicationClaim identity)

end

def roleRank : RouteRole → ℕ
  | .primary => 0
  | .secondary => 1

def apexRank : MatchClass → ℕ
  | .zone => 0
  | _ => 1

def actionRank : RuleAction → ℕ
  | .block => 0
  | .route | .verify => 1

/-- The order of candidates up to the rule id: more specific first, then the zone, the Block and
the main route. -/
def standingOrder : RuleMatchCandidate → RuleMatchCandidate → Ordering :=
  compareLex (fun a b => compare b.specificity a.specificity) <|
  compareLex (compareOn fun c => apexRank c.matchClass) <|
  compareLex (compareOn fun c => actionRank c.action) (compareOn fun c => roleRank c.routeRole)

def candidateOrder : RuleMatchCandidate → RuleMatchCandidate → Ordering :=
  compareLex standingOrder (compareOn RuleMatchCandidate.ruleId)

instance : Std.TransCmp standingOrder := by
  have : Std.TransCmp fun a b : RuleMatchCandidate => compare b.specificity a.specificity :=
    @Std.TransCmp.opposite _ (compareOn RuleMatchCandidate.specificity) _
  unfold standingOrder
  infer_instance

instance : Std.TransCmp candidateOrder := by
  unfold candidateOrder
  infer_instance

/-- Two candidates no tier order tells apart, of different routes. -/
def conflictsWith (top c : RuleMatchCandidate) : Bool :=
  c.specificity == top.specificity && apexRank c.matchClass == apexRank top.matchClass &&
    c.routeRole != top.routeRole

def selectWinner (candidates : List RuleMatchCandidate) : Option RuleMatchCandidate :=
  match sortBy candidateOrder (candidates.filter (·.appFilterResult.isEligible)) with
  | [] => none
  | top :: rest =>
    some { top with conflict := if rest.any (conflictsWith top) then .detected else .none }

def observedIp (input : NormalizedDecisionInput) : Option IpAddr :=
  match input.ip with
  | .valid addr => some addr
  | .unavailable => none

def effectiveIpsForMatching (input : NormalizedDecisionInput) (lookup : LookupResult) :
    List IpAddr :=
  let resolved := match lookup.selectedIp with
    | some selected => if selected.cacheState.isUsableForMatching then [selected.addr] else []
    | none => []
  match observedIp input with
  | some ip => if resolved.contains ip then resolved else resolved ++ [ip]
  | none => resolved

def overHostname (input : NormalizedDecisionInput) (closed : Option NormalizationError)
    (tier : Text → List RuleMatchCandidate) : List RuleMatchCandidate :=
  match closed, input.hostname with
  | none, .valid hostname => tier hostname
  | _, _ => []

def overAddresses (input : NormalizedDecisionInput) (lookup : LookupResult)
    (tier : IpAddr → List RuleMatchCandidate) : List RuleMatchCandidate :=
  match input.matchClassAvailability.exactIp with
  | none => (effectiveIpsForMatching input lookup).flatMap tier
  | some _ => []

def overApplication (input : NormalizedDecisionInput)
    (tier : NormalizedAppIdentity → List RuleMatchCandidate) : List RuleMatchCandidate :=
  match input.matchClassAvailability.application, input.appIdentity with
  | none, some identity => tier identity
  | _, _ => []

def blocksOnly (candidates : List RuleMatchCandidate) : List RuleMatchCandidate :=
  candidates.filter (·.action == .block)

def tiers (input : NormalizedDecisionInput) (lookup : LookupResult) (book : CanonicalRuleBook)
    (policy : ZonePriorityPolicy) : List (List RuleMatchCandidate) :=
  let avail := input.matchClassAvailability
  let app := input.appIdentity
  let tier3 : MatchClass → List RuleMatchCandidate
    | .zone => overHostname input avail.zone (collectZone book app)
    | .exactIp => overAddresses input lookup (collectExactIp book app)
    | .subnet => overAddresses input lookup (collectSubnet book app)
    | _ => []
  [blocksOnly (overAddresses input lookup (collectExactIp book app)),
    blocksOnly (overApplication input (collectApplication book)),
    overHostname input avail.exactFqdn (collectExactFqdn book app),
    overHostname input avail.suffixDomain (collectSuffixDomain book app)] ++
  policy.tier3Order.map tier3 ++
  [overApplication input (collectApplication book)]

def noMatchReason (input : NormalizedDecisionInput) (book : CanonicalRuleBook) : NoMatchReason :=
  if input.matchClassAvailability.nothingAvailable then .allClassesBlocked
  else if book.totalEnabledCount = 0 then .emptyRuleBook
  else .noMatchFound

def matchRules (input : NormalizedDecisionInput) (lookup : LookupResult) (book : CanonicalRuleBook)
    (policy : ZonePriorityPolicy) (mode : RouteBehaviorMode) : RequestedRouteDecision :=
  match (tiers input lookup book policy).findSome? selectWinner with
  | some candidate => .matchedRoute candidate
  | none => .defaultRoute (noMatchReason input book) mode

def connection (hostname : Option Text) (ip : Option IpAddr) : NormalizedDecisionInput where
  hostname := (hostname.map NormalizedHostname.valid).getD .unavailable
  ip := (ip.map NormalizedIp.valid).getD .unavailable
  appIdentity := none
  matchClassAvailability := ⟨none, none, none, none, none⟩

end NetRuleRouter.RuleMatching
