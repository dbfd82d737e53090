import NetRuleRouter.Canonical
import NetRuleRouter.RuleValueKinds

/-!
# The canonical reading of a rule's value

Both entrances to a rule book, the rules file and the wire, read values here:
a name in its encoded lowercase spelling, an address that can be a
destination, a network a rule may name, a program by name, mask or path. The
encoding of international names is an outside function.
-/

set_option autoImplicit false

namespace NetRuleRouter.RuleValues
open TextOps IpNetwork IpText AppPaths Canonical RuleValueKinds
open RuleValueKinds

inductive ValidationError where
  | ruleEmptyMatch (ruleId : Text)
  | domainEmptyValue (ruleId : Text)
  | domainInvalidIdn (ruleId value : Text)
  | wrongSection (ruleId value : Text) (belongsIn : RulesFileSection)
  | invalidSubnet (ruleId value : Text)
  | invalidIpRange (ruleId value : Text)
  | networkTooWide (ruleId value : Text) (widestPrefix : ℕ)
  | networkCoversReserved (ruleId value : Text) (cls : AddressClass)
  | invalidIpAddress (ruleId value : Text)
  | ipAddressNotADestination (ruleId value : Text) (cls : AddressClass)
  | domainInvalidValue (ruleId value : Text)
  | zoneEmptyName (ruleId : Text)
  | appGlobTooWide (ruleId : Text)
  | appNameInvalid (ruleId value : Text)
  | appPathInvalid (ruleId value : Text) (problem : AppPathError)
  deriving DecidableEq, Repr

def misplacedValue (ruleType : ParsedRuleType) (value ruleId : Text) (platform : HostPlatform) :
    Option ValidationError :=
  (misplacedRuleValue ruleType value platform.executableNaming).map fun kind =>
    .wrongSection ruleId (trim value) (sectionOf kind value)

def wrongSection (value ruleId : Text) (ruleType : ParsedRuleType) : Option ValidationError :=
  misplacedValue ruleType value ruleId .windows

def addressRefusal (value ruleId : Text) : ValidationError :=
  (wrongSection value ruleId .exactIp).getD (.invalidIpAddress ruleId value)

/-- Never a destination: this host, this network, the limited broadcast. -/
def neverADestination : AddressClass → Bool
  | .unspecified | .thisNetwork | .broadcast => true
  | _ => false

def canonicalIpAddress (value ruleId : Text) : Except ValidationError IpAddr :=
  match parseIpAddr (trim value) with
  | none => .error (addressRefusal (trim value) ruleId)
  | some addr =>
    let cls := classify (canonicalIp addr)
    if neverADestination cls then .error (.ipAddressNotADestination ruleId (trim value) cls)
    else .ok (canonicalIp addr)

def checkNetworks (value : Text) (blocks : List IpBlock) (ruleId : Text) :
    Except ValidationError Unit :=
  match blocks.find? widerThanRuleAllows with
  | some wide => .error (.networkTooWide ruleId value (widestRulePrefix wide.isIpv4))
  | none =>
    match blocks.findSome? reservedOverlap with
    | some cls => .error (.networkCoversReserved ruleId value cls)
    | none => .ok ()

def canonicalSubnet (value ruleId : Text) : Except ValidationError IpBlock :=
  match IpBlock.parse (trim value) with
  | none =>
    .error ((wrongSection (trim value) ruleId .subnet).getD (.invalidSubnet ruleId (trim value)))
  | some written => do
    checkNetworks (trim value) [canonicalBlock written] ruleId
    return canonicalBlock written

def canonicalBounds (value : Text) : Option IpRange := do
  let (first, last) ← splitOnce '-' (trim value)
  IpRange.new (canonicalIp (← parseIpAddr (trim first))) (canonicalIp (← parseIpAddr (trim last)))

def canonicalIpRange (value ruleId : Text) : Except ValidationError IpRange :=
  match canonicalBounds value with
  | none =>
    .error ((wrongSection (trim value) ruleId .ipRange).getD (.invalidIpRange ruleId (trim value)))
  | some range =>
    let allowed := widestRulePrefix range.first.isIpv4
    if prefixOfWidth range.first.isIpv4 (widthBits range) < allowed then
      .error (.networkTooWide ruleId (trim value) allowed)
    else do
      checkNetworks (trim value) range.blocks ruleId
      return range

def maxHostnameOctets : ℕ := 253

def maxLabelOctets : ℕ := 63

def isValidAsciiDnsLabel (label : Text) : Bool :=
  label ≠ [] && byteLen label ≤ maxLabelOctets && !startsWith ['-'] label &&
    !endsWith ['-'] label && label.all fun c => isAsciiAlphanumeric c || c == '-' || c == '_'

section
variable (toAscii : Text → Option Text)

def isValidHostname (host : Text) : Bool :=
  if isAsciiText host then (host.splitOn '.').all isValidAsciiDnsLabel else (toAscii host).isSome

/-- What a value made of an address is refused as. -/
def addressShapedRefusal (value ruleId : Text) : ValidationError :=
  match canonicalIpAddress value ruleId with
  | .ok _ | .error (.ipAddressNotADestination ..) => .wrongSection ruleId value .ip
  | .error refusal => refusal

def rejectIfNotAHostname (value ruleId : Text) : Except ValidationError Unit :=
  if !value.any Char.isAlpha || (parseIpAddr value).any (fun ip => !ip.isIpv4) then
    .error (addressShapedRefusal value ruleId)
  else if byteLen value ≤ maxHostnameOctets && isValidHostname toAscii value then .ok ()
  else .error (.domainInvalidValue ruleId value)

def normalizeDomainLabel (value ruleId : Text) : Except ValidationError Text :=
  let withoutDot := (trim value).rdropWhile (· == '.')
  if withoutDot = [] then .error (.domainEmptyValue ruleId)
  else if isAsciiText withoutDot then do
    rejectIfNotAHostname toAscii (toAsciiLowercase withoutDot) ruleId
    return toAsciiLowercase withoutDot
  else match toAscii withoutDot with
    | none => .error (.domainInvalidIdn ruleId withoutDot)
    | some ascii => do
      rejectIfNotAHostname toAscii ascii ruleId
      return ascii

inductive HostNameKind where
  | zone
  | domain
  deriving DecidableEq, Repr

def zoneBody (value : Text) : Text :=
  let trimmed := trim value
  let stripped := (stripPre ['*', '.'] trimmed).getD trimmed
  (stripPre ['.'] stripped).getD stripped

def canonicalHostName (kind : HostNameKind) (value ruleId : Text) : Except ValidationError Text :=
  match kind with
  | .domain => normalizeDomainLabel toAscii value ruleId
  | .zone =>
    if zoneBody value = [] then .error (.zoneEmptyName ruleId)
    else normalizeDomainLabel toAscii (zoneBody value) ruleId

end

def suffixOrZone (normalized : Text) : CanonicalAddressMatch :=
  if normalized = [] || normalized.contains '.' then .suffixDomain normalized else .zone normalized

/-- A deny mark left in the value, or the retired flag. -/
def misplacedDeny (raw : Text) : Bool :=
  let trimmed := trim raw
  carriesRetiredBlockFlag trimmed || startsWith ['!'] ((stripPre ['?'] trimmed).getD trimmed)

def refuseUnholdableAppValue (raw ruleId : Text) (limit : ℕ) : Except ValidationError Unit :=
  if limit < byteLen raw || raw.any isForbiddenFieldChar || misplacedDeny raw then
    .error (.appNameInvalid ruleId raw)
  else .ok ()

def reducesToStar (pattern : Text) : Bool :=
  let key := appMatchKey pattern
  key ≠ [] && key.all (· == '*')

def canonicalNamePattern (raw : Text) (glob : Bool) (naming : ExecutableNaming) (ruleId : Text) :
    Except ValidationError CanonicalAppPattern := do
  refuseUnholdableAppValue raw ruleId maxRuleValueBytes
  if glob then
    if reducesToStar (canonicalGlobProcessPattern raw) then .error (.appGlobTooWide ruleId)
    else return .glob (canonicalGlobProcessPattern raw)
  else return .exact (canonicalExactProcessName raw naming).1

def canonicalAppPattern (raw : Text) (glob : Bool) (platform : HostPlatform) (ruleId : Text) :
    Except ValidationError CanonicalAppPattern :=
  if isPathValue raw platform.pathStyle then do
    refuseUnholdableAppValue raw ruleId maxPathValueBytes
    match AppPath.parse raw platform.pathStyle with
    | .ok path => return .path path
    | .error problem => .error (.appPathInvalid ruleId raw problem)
  else canonicalNamePattern raw glob platform.executableNaming ruleId

def verifyApplies (rule : CanonicalRule) : Bool :=
  match rule.addressMatch with
  | some (.exactFqdn _) | some (.suffixDomain _) => true
  | some (.exactIp ip) => ip.isIpv4
  | _ => false

def settleVerify (rule : CanonicalRule) : CanonicalRule :=
  if rule.action = .verify && !verifyApplies rule then { rule with action := .route } else rule

end NetRuleRouter.RuleValues
