import NetRuleRouter.RuleValues

/-!
# The rules document and its codec

A document holds the rules of both routes. Decoding reads each rule by the
readers of the pipeline; a rule of a kind this build does not know is kept as
it came, and one whose value no book may apply is kept and never applied.
Encoding writes the rules of each route, then the two kinds of kept ones.
-/

set_option autoImplicit false

namespace NetRuleRouter.WireCodec
open TextOps Numerals Sorting IpNetwork IpText AutoRule Canonical RuleValueKinds RuleValues

def rulesJsonSchemaVersion : ℕ := 6

/-- A value of an unknown kind as it came: its kind, when it has one, and its text. -/
structure UnknownValue where
  kind : Option Text
  text : Text
  deriving DecidableEq, Repr

inductive AddressMatchDto where
  | exactFqdn (value : Text)
  | suffixDomain (suffix : Text)
  | anyZoneDomain (base : Text)
  | zone (name : Text)
  | exactIpv4 (address : Text)
  | exactIpv6 (address : Text)
  | subnet (network : Text)
  | ipRange (first last : Text)
  | unrecognized (value : UnknownValue)
  deriving DecidableEq, Repr

inductive AppPatternDto where
  | exact (value : Text)
  | glob (value : Text)
  | path (value : Text)
  | unrecognized (value : UnknownValue)
  deriving DecidableEq, Repr

def AppPatternDto.value : AppPatternDto → Text
  | .exact v | .glob v | .path v => v
  | .unrecognized _ => []

structure AppMatchDto where
  pattern : AppPatternDto
  includeChildProcesses : Bool
  overrideRequested : Bool
  deriving DecidableEq, Repr

inductive WireRuleAction where
  | route
  | block
  | verifyPrimary
  | unrecognized (slug : Text)
  deriving DecidableEq, Repr

structure RuleDto where
  id : Text
  enabled : Bool
  addressMatch : Option AddressMatchDto
  appMatch : Option AppMatchDto
  comment : Text
  action : WireRuleAction
  origin : Option RuleOrigin
  deriving DecidableEq, Repr

structure CanonicalRulesJsonV1 where
  schemaVersion : ℕ
  primary : List RuleDto
  secondary : List RuleDto
  deriving DecidableEq, Repr

def CanonicalRulesJsonV1.route (d : CanonicalRulesJsonV1) : RouteRole → List RuleDto
  | .primary => d.primary
  | .secondary => d.secondary

def isSlug (name : Text) : Bool :=
  name ≠ [] && name.all fun c => c.isLower || isDigit 10 c || c == '-'

def knownKinds : List Text :=
  ["exact-fqdn", "suffix-domain", "any-zone-domain", "zone", "exact-ipv4", "exact-ipv6", "subnet",
    "ip-range"].map String.toList

def AddressMatchDto.isMalformed : AddressMatchDto → Bool
  | .unrecognized value =>
    let kind := value.kind.getD []
    knownKinds.contains kind || !isSlug kind
  | _ => false

def WireRuleAction.isMalformed : WireRuleAction → Bool
  | .unrecognized slug => !isSlug slug
  | _ => false

def AddressMatchDto.isUnrecognized : AddressMatchDto → Bool
  | .unrecognized _ => true
  | _ => false

def AppPatternDto.isUnrecognized : AppPatternDto → Bool
  | .unrecognized _ => true
  | _ => false

def WireRuleAction.isUnrecognized : WireRuleAction → Bool
  | .unrecognized _ => true
  | _ => false

def RuleDto.isUnrecognized (r : RuleDto) : Bool :=
  r.addressMatch.any AddressMatchDto.isUnrecognized || r.action.isUnrecognized ||
    r.appMatch.any fun m => m.pattern.isUnrecognized

def AddressMatchDto.schemaNeeded : AddressMatchDto → ℕ
  | .subnet _ | .ipRange _ _ => 2
  | .anyZoneDomain _ => 4
  | _ => 1

def RuleDto.schemaNeeded (r : RuleDto) : ℕ :=
  let address := (r.addressMatch.map AddressMatchDto.schemaNeeded).getD 1
  let action := if r.action = .verifyPrimary then 3 else 1
  let app := match r.appMatch with
    | none => 1
    | some m => max (match m.pattern with
      | .path _ => 5
      | _ => 1) (if m.overrideRequested then 6 else 1)
  max (max address action) app

def requiredSchemaVersion (d : CanonicalRulesJsonV1) : ℕ :=
  let rules := d.primary ++ d.secondary
  if rules.any RuleDto.isUnrecognized then max rulesJsonSchemaVersion d.schemaVersion
  else rules.foldl (fun needed r => max needed r.schemaNeeded) 1

structure UnrecognizedRules where
  primary : List RuleDto
  secondary : List RuleDto
  deriving DecidableEq, Repr

structure RulesRevisionContent where
  ruleBook : CanonicalRuleBook
  formatVersion : ℕ
  unrecognized : UnrecognizedRules
  inactive : UnrecognizedRules
  deriving DecidableEq

def rulesRevisionFormatVersion : ℕ := 1

def encodeAction : RuleAction → WireRuleAction
  | .route => .route
  | .block => .block
  | .verify => .verifyPrimary

def encodeAddressMatch : CanonicalAddressMatch → AddressMatchDto
  | .exactFqdn value => .exactFqdn value
  | .suffixDomain suffix => .suffixDomain suffix
  | .anyZoneDomain base => .anyZoneDomain base
  | .zone name => .zone name
  | .exactIp ip => if ip.isIpv4 then .exactIpv4 (ipText ip) else .exactIpv6 (ipText ip)
  | .subnet block => .subnet (blockText block)
  | .ipRange range => .ipRange (ipText range.first) (ipText range.last)

def encodeAppPattern : CanonicalAppPattern → AppPatternDto
  | .exact v => .exact v
  | .glob v => .glob v
  | .path p => .path p.text

def encodeAppMatch (m : CanonicalAppMatch) : AppMatchDto :=
  ⟨encodeAppPattern m.pattern, m.includeChildProcesses, m.overrideRequested⟩

def encodeRule (rule : CanonicalRule) : RuleDto where
  id := rule.id
  enabled := rule.enabled
  addressMatch := rule.addressMatch.map encodeAddressMatch
  appMatch := rule.appMatch.map encodeAppMatch
  comment := rule.comment
  action := encodeAction rule.action
  origin := rule.origin

def encodeRoute (set : CanonicalRuleSet) (kept inactive : List RuleDto) : List RuleDto :=
  set.rules.map encodeRule ++ kept ++ inactive

def encode (content : RulesRevisionContent) : CanonicalRulesJsonV1 :=
  let dto : CanonicalRulesJsonV1 :=
    { schemaVersion := rulesJsonSchemaVersion
      primary := encodeRoute content.ruleBook.primary content.unrecognized.primary
        content.inactive.primary
      secondary := encodeRoute content.ruleBook.secondary content.unrecognized.secondary
        content.inactive.secondary }
  { dto with schemaVersion := requiredSchemaVersion dto }

inductive RulesJsonCodecError where
  | unsupportedSchemaVersion (got expected : ℕ)
  | invalidIpv4 (ruleId raw : Text)
  | invalidIpv6 (ruleId raw : Text)
  | emptyMatch (ruleId : Text)
  | appGlobTooWide (ruleId : Text)
  | appNameInvalid (ruleId raw : Text)
  | invalidNetwork (ruleId raw : Text)
  | malformedAddressMatch (ruleId : Text)
  | malformedAction (ruleId : Text)
  deriving DecidableEq, Repr

def decodeAction : WireRuleAction → Option RuleAction
  | .route => some .route
  | .block => some .block
  | .verifyPrimary => some .verify
  | .unrecognized _ => none

def wireAppPattern (pattern : AppPatternDto) (platform : HostPlatform) (ruleId : Text) :
    Except ValidationError CanonicalAppPattern :=
  match pattern with
  | .exact value => canonicalNamePattern value (value.contains '*') platform.executableNaming ruleId
  | .glob value => canonicalNamePattern value true platform.executableNaming ruleId
  | .path value => canonicalAppPattern value (value.contains '*') platform ruleId
  | .unrecognized _ => .error (.appNameInvalid ruleId [])

def refusedOutrightOn (rule : RuleDto) (platform : HostPlatform) : Option Text :=
  let address := match rule.addressMatch with
    | some (.exactIpv4 address) | some (.exactIpv6 address) =>
      match canonicalIpAddress address [] with
      | .error (.ipAddressNotADestination ..) => some address
      | _ => none
    | some (.subnet network) =>
      match canonicalSubnet network [] with
      | .error (.networkCoversReserved ..) => some network
      | _ => none
    | some (.ipRange first last) =>
      match canonicalIpRange (first ++ '-' :: last) [] with
      | .error (.networkCoversReserved ..) => some (first ++ '-' :: last)
      | _ => none
    | _ => none
  address.or (rule.appMatch.bind fun app =>
    match wireAppPattern app.pattern platform [] with
    | .error _ => some app.pattern.value
    | .ok _ => none)

def exactIp (ruleId raw : Text) (v6 : Bool) : Except RulesJsonCodecError IpAddr :=
  match canonicalIpAddress raw ruleId with
  | .ok ip => .ok ip
  | .error _ => .error (if v6 then .invalidIpv6 ruleId raw else .invalidIpv4 ruleId raw)

def domainValueName (value : Text) : Text :=
  match stripSuf ['.', '*'] value with
  | some base => (stripPre ['*', '.'] base).getD base
  | none => (stripPre ['*', '.'] value).getD value

def decodeAppMatch (ruleId : Text) (m : AppMatchDto) (platform : HostPlatform) :
    Except RulesJsonCodecError CanonicalAppMatch :=
  match wireAppPattern m.pattern platform ruleId with
  | .ok pattern => .ok ⟨pattern, m.includeChildProcesses, m.overrideRequested⟩
  | .error (.appGlobTooWide _) => .error (.appGlobTooWide ruleId)
  | .error _ => .error (.appNameInvalid ruleId m.pattern.value)

section
variable (toAscii : Text → Option Text)

def respelled (kind : HostNameKind) (raw : Text) : Text :=
  match canonicalHostName toAscii kind raw [] with
  | .ok name => name
  | .error _ => raw

def decodeAddressMatch (ruleId : Text) (m : AddressMatchDto) :
    Except RulesJsonCodecError CanonicalAddressMatch :=
  match m with
  | .exactFqdn value => .ok (.exactFqdn (respelled toAscii .domain value))
  | .suffixDomain suffix => .ok (suffixOrZone (respelled toAscii .domain suffix))
  | .anyZoneDomain base => .ok (.anyZoneDomain (respelled toAscii .domain (domainValueName base)))
  | .zone name => .ok (.zone (respelled toAscii .zone name))
  | .exactIpv4 address => (exactIp ruleId address false).map .exactIp
  | .exactIpv6 address => (exactIp ruleId address true).map .exactIp
  | .subnet network =>
    match canonicalSubnet network ruleId with
    | .ok block => .ok (.subnet block)
    | .error _ => .error (.invalidNetwork ruleId network)
  | .ipRange first last =>
    match canonicalIpRange (first ++ '-' :: last) ruleId with
    | .ok range => .ok (.ipRange range)
    | .error _ => .error (.invalidNetwork ruleId (first ++ '-' :: last))
  | .unrecognized _ => .error (.malformedAddressMatch ruleId)

def decodeRule (dto : RuleDto) (platform : HostPlatform) :
    Except RulesJsonCodecError CanonicalRule := do
  let addressMatch ← match dto.addressMatch with
    | none => pure none
    | some m => some <$> decodeAddressMatch toAscii dto.id m
  let appMatch ← match dto.appMatch with
    | none => pure none
    | some m => some <$> decodeAppMatch dto.id m platform
  if addressMatch.isNone && appMatch.isNone then .error (.emptyMatch dto.id)
  else match decodeAction dto.action with
    | none => .error (.malformedAction dto.id)
    | some action =>
      return ⟨dto.id, dto.enabled, addressMatch, appMatch, dto.comment, action, dto.origin⟩

inductive Placement where
  | applied (rule : CanonicalRule)
  | kept
  | inactive

def placeRule (platform : HostPlatform) (rule : RuleDto) :
    Except RulesJsonCodecError Placement :=
  if !rule.isUnrecognized then
    if (refusedOutrightOn rule platform).isSome then .ok .inactive
    else (decodeRule toAscii rule platform).map fun decoded => .applied (settleVerify decoded)
  else if rule.addressMatch.any AddressMatchDto.isMalformed then
    .error (.malformedAddressMatch rule.id)
  else if rule.action.isMalformed then .error (.malformedAction rule.id)
  else .ok .kept

structure DecodedRoute where
  applied : List CanonicalRule
  kept : List RuleDto
  inactive : List RuleDto

def DecodedRoute.add (d : DecodedRoute) (rule : RuleDto) : Placement → DecodedRoute
  | .applied decoded => { d with applied := decoded :: d.applied }
  | .kept => { d with kept := rule :: d.kept }
  | .inactive => { d with inactive := rule :: d.inactive }

def placeRules (platform : HostPlatform) : List RuleDto → Except RulesJsonCodecError DecodedRoute
  | [] => .ok ⟨[], [], []⟩
  | rule :: rules => do
    let placed ← placeRule toAscii platform rule
    let rest ← placeRules platform rules
    return rest.add rule placed

def decodeRoute (rules : List RuleDto) (platform : HostPlatform) :
    Except RulesJsonCodecError DecodedRoute :=
  (placeRules toAscii platform rules).map fun d =>
    { d with
      kept := sortBy (compareOn RuleDto.id) d.kept
      inactive := sortBy (compareOn RuleDto.id) d.inactive }

def decode (dto : CanonicalRulesJsonV1) (platform : HostPlatform) :
    Except RulesJsonCodecError RulesRevisionContent :=
  if dto.schemaVersion = 0 then
    .error (.unsupportedSchemaVersion dto.schemaVersion rulesJsonSchemaVersion)
  else do
    let primary ← decodeRoute toAscii dto.primary platform
    let secondary ← decodeRoute toAscii dto.secondary platform
    return {
      ruleBook := bookOf primary.applied secondary.applied
      formatVersion := rulesRevisionFormatVersion
      unrecognized := ⟨primary.kept, secondary.kept⟩
      inactive := ⟨primary.inactive, secondary.inactive⟩ }

end

end NetRuleRouter.WireCodec
