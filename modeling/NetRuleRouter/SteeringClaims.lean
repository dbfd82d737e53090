import NetRuleRouter.NamedAddresses

/-!
# Who may steer an address

The settings of a principal reach the arbiter in one place: an address a
program uses may go to the link of the program's rule, ahead of the address
rules, and a private address the additional link holds only through a public
top-level zone is kept out of the tunnel.
-/

set_option autoImplicit false

namespace NetRuleRouter.SteeringClaims
open TextOps Sorting IpNetwork Canonical
open IpText (isPrivateAddress)
open StrongestTable FqdnCache LongestPrefix Arbiter OwnerTiers

def genericTlds : List String :=
  ["com", "net", "org", "info", "biz", "edu", "gov", "mil", "int", "name", "pro", "mobi", "asia",
    "tel", "travel", "jobs", "aero", "coop", "museum", "cat", "xyz", "top", "online", "site",
    "store", "shop", "app", "dev", "club", "live", "tech", "space", "website", "fun", "icu", "vip",
    "work", "life", "world", "today", "news", "blog", "cloud", "link", "click", "page", "media",
    "art", "one", "group", "global", "digital", "network", "email", "games", "agency",
    "solutions", "services", "company", "center", "zone", "moscow", "tatar"]

def idnCountryTlds : List String :=
  ["xn--p1ai", "xn--p1acf", "xn--90ais", "xn--j1amh", "xn--80ao21a", "xn--d1alf", "xn--90a3ac",
    "xn--l1acc", "xn--90ae", "xn--node", "xn--y9a3aq", "xn--fiqs8s", "xn--fiqz9s", "xn--j6w193g",
    "xn--kprw13d", "xn--3e0b707e", "xn--wgbh1c", "xn--mgberp4a5d4ar", "xn--mgbaam7a8h",
    "xn--h2brj9c", "xn--o3cw4h"]

def isPrivateUseCode (a b : Char) : Bool :=
  (a, b) = ('a', 'a') ∨ a = 'q' ∧ 'm' ≤ b ∧ b ≤ 'z' ∨ a = 'x' ∧ 'a' ≤ b ∧ b ≤ 'z' ∨
    (a, b) = ('z', 'z')

def trimDots (s : Text) : Text := (s.dropWhile (· == '.')).rdropWhile (· == '.')

def isPublicTld (label : Text) : Bool :=
  let label := toAsciiLowercase (trimDots label)
  match label with
  | [a, b] => a.isLower && b.isLower && !isPrivateUseCode a b
  | _ => genericTlds.any (·.toList == label) || idnCountryTlds.any (·.toList == label)

def isPublicZone (zone : Text) : Bool :=
  let zone := trimDots zone
  !zone.isEmpty && !zone.contains '.' && isPublicTld zone

def admitsZoneLearnedAddress (host : Text) (ip : IpAddr) : Bool :=
  let tld := ((host.rdropWhile (· == '.')).splitOn '.').getLast?.getD []
  !(isPublicZone tld && isPrivateAddress ip)

structure AppObservationLookup where
  ipsForApp : Text → List (BitVec 32)
  ipsV6ForApp : Text → List (BitVec 128)
  destinationUsedOutside : List Text → IpAddr → Bool

def routedAppPatterns (set : CanonicalRuleSet) : List Text :=
  (sortBy compare ((set.rules.filter fun r =>
    r.enabled && r.action == .route && r.addressMatch.isNone).filterMap fun r =>
      r.appMatch.map fun app => app.pattern.asStr)).dedup

def observedAddresses (observations : AppObservationLookup) (pattern : Text) : List IpAddr :=
  (observations.ipsForApp pattern).map .v4 ++ (observations.ipsV6ForApp pattern).map .v6

def literalBlocks (book : CanonicalRuleBook) (support : RuleShapeSupport) : List IpAddr :=
  (book.allRules.filter fun r => r.enabled && r.action == .block &&
    (ruleVerdict r support).isSupported).filterMap literalOf

/-- The addresses programs take, the main link's first; the first link to take an address keeps
it, and none takes one a literal Block names. -/
def takenByPrograms (book : CanonicalRuleBook) (observations : AppObservationLookup)
    (blocked : List IpAddr) : Table IpAddr Link :=
  [(book.primary, Link.main), (book.secondary, Link.additional)].flatMap fun (set, link) =>
    (routedAppPatterns set).flatMap fun pattern =>
      ((observedAddresses observations pattern).filter fun ip => !blocked.contains ip).map
        fun ip => (ip, link)

structure OwnershipSettings where
  order : ZoneVsIpOrder
  appTakeover : Bool
  deriving DecidableEq, Repr

/-- The ownership of addresses with what the settings add to it. -/
structure SettledOwnership extends AddressOwnership where
  zoneRefused : List IpAddr
  appTakeover : Bool

section
variable (cache : FqdnCacheSnapshot) (mainClaims additionalClaims : SetClaims)

def zoneLearned : List IpAddr :=
  (hosts mainClaims additionalClaims).flatMap fun host =>
    if valueAt additionalClaims.names host = some (.zone 1) then
      (cappedForHost cache host .both).filter fun ip => !admitsZoneLearnedAddress host ip
    else []

def additionalVouched : List IpAddr :=
  additionalClaims.literal ++ (hosts mainClaims additionalClaims).flatMap fun host =>
    if (valueAt additionalClaims.names host).any (· ≠ .zone 1) then cappedForHost cache host .both
    else []

end

def resolveFor (book : CanonicalRuleBook) (cache : FqdnCacheSnapshot)
    (settings : OwnershipSettings) (support : RuleShapeSupport)
    (observations : AppObservationLookup) : SettledOwnership :=
  let resolved := resolveWithSupport book cache settings.order support
  let mainClaims := nameClaims book.primary cache support
  let additionalClaims := nameClaims book.secondary cache support
  let vouched := additionalVouched cache mainClaims additionalClaims
  { resolved with
    zoneRefused := (zoneLearned cache mainClaims additionalClaims).filter fun ip =>
      !vouched.contains ip && !resolved.networks.names ip .additional
    appTaken := if settings.appTakeover then
      takenByPrograms book observations (literalBlocks book support) else []
    appTakeover := settings.appTakeover }

namespace SettledOwnership

def appRuleMayClaim (o : SettledOwnership) (ip : IpAddr) (forLink : Link) : Bool :=
  (o.ownerOf ip).all (· == forLink)

def keepsOutOfTunnel (o : SettledOwnership) (ip : IpAddr) : Bool := o.zoneRefused.contains ip

def addressRuleMaySteer (o : SettledOwnership) (ip : IpAddr) (forLink : Link) : Bool :=
  match forLink with
  | .main => o.ownerOf ip != some .additional
  | .additional => !o.keepsOutOfTunnel ip && o.ownerOf ip != some .main

end SettledOwnership

inductive AppDestinationRefusal where
  | claimedByAddressRule
  | usedByOtherProcess
  | declinedShared
  deriving DecidableEq, Repr

structure AppDestinations where
  admitted : List (BitVec 32)
  refused : List (BitVec 32 × AppDestinationRefusal)
  admittedV6 : List (BitVec 128)

structure AppDestinationGate where
  ownership : SettledOwnership
  observations : AppObservationLookup
  friendly : List Text
  declined : List (BitVec 32)

def AppDestinationGate.forRuleSet (ownership : SettledOwnership)
    (observations : AppObservationLookup) (rules : CanonicalRuleSet) (declined : List (BitVec 32)) :
    AppDestinationGate :=
  ⟨ownership, observations, routedAppPatterns rules, declined⟩

def AppDestinationGate.refusal (g : AppDestinationGate) (forLink : Link) (ip : BitVec 32) :
    Option AppDestinationRefusal :=
  if !g.ownership.appRuleMayClaim (.v4 ip) forLink then some .claimedByAddressRule
  else if forLink == .additional && g.declined.contains ip then some .declinedShared
  else if !g.ownership.appTakeover &&
      g.observations.destinationUsedOutside g.friendly (.v4 ip) then some .usedByOtherProcess
  else none

def AppDestinationGate.admission (g : AppDestinationGate) (pattern : Text) (forLink : Link) :
    AppDestinations where
  admitted := (g.observations.ipsForApp pattern).filter fun ip => (g.refusal forLink ip).isNone
  refused := (g.observations.ipsForApp pattern).filterMap fun ip =>
    (g.refusal forLink ip).map fun why => (ip, why)
  admittedV6 := (g.observations.ipsV6ForApp pattern).filter fun ip =>
    g.ownership.appRuleMayClaim (.v6 ip) forLink &&
      (g.ownership.appTakeover ||
        !g.observations.destinationUsedOutside g.friendly (.v6 ip))

section
variable {b : CanonicalRuleBook} {cache : FqdnCacheSnapshot} {settings : OwnershipSettings}
variable {support : RuleShapeSupport} {observations : AppObservationLookup} {ip : IpAddr}

theorem settled_owner
    (h : valueAt (resolveFor b cache settings support observations).appTaken ip = none) :
    (resolveFor b cache settings support observations).ownerOf ip =
      (resolveWithSupport b cache settings.order support).ownerOf ip := by
  rw [AddressOwnership.ownerOf, h, Option.none_or]
  rfl

theorem taken_observed {link : Link}
    (h : valueAt (resolveFor b cache settings support observations).appTaken ip = some link) :
    settings.appTakeover = true ∧ ∃ pattern ∈ routedAppPatterns (b.setFor (roleOf link)),
      ip ∈ observedAddresses observations pattern := by
  have hmem := value_at_mem h
  cases htake : settings.appTakeover with
  | false => simp [resolveFor, htake] at hmem
  | true =>
    simp only [resolveFor, htake, if_true, takenByPrograms, List.flatMap_cons, List.flatMap_nil,
      List.append_nil, List.mem_append, List.mem_flatMap, List.mem_map, List.mem_filter,
      Prod.mk.injEq] at hmem
    refine ⟨rfl, ?_⟩
    rcases hmem with ⟨p, hp, a, ⟨ha, -⟩, rfl, rfl⟩ | ⟨p, hp, a, ⟨ha, -⟩, rfl, rfl⟩
    · exact ⟨p, hp, ha⟩
    · exact ⟨p, hp, ha⟩

theorem mem_routed_patterns {set : CanonicalRuleSet} {pattern : Text} :
    pattern ∈ routedAppPatterns set ↔ ∃ r ∈ set.rules, r.enabled = true ∧ r.action = .route ∧
      r.addressMatch = none ∧ ∃ app, r.appMatch = some app ∧ app.pattern.asStr = pattern := by
  simp [routedAppPatterns, and_assoc]

end

end NetRuleRouter.SteeringClaims
