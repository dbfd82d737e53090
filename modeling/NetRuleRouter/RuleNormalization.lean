import NetRuleRouter.RuleValues

/-!
# The normalization of one rule of a rules file

A rule read from a file holds its values as written. Normalization reads each
value, refuses one its spelling places elsewhere, and drops the rule whose
value is well formed but no rule can act on.
-/

set_option autoImplicit false

namespace NetRuleRouter.RuleNormalization
open TextOps IpNetwork IpText AutoRule Canonical RuleValueKinds RuleValues

inductive AddressMatch where
  | exactFqdn (label : Text)
  | suffixDomain (label : Text)
  | anyZoneDomain (base : Text)
  | zone (name : Text)
  | exactIp (text : Text)
  | subnet (text : Text)
  | ipRange (text : Text)
  deriving DecidableEq, Repr

def AddressMatch.toDisplayString : AddressMatch → Text
  | .exactFqdn label => label
  | .suffixDomain label => '*' :: '.' :: label
  | .anyZoneDomain base => base ++ ['.', '*']
  | .zone name => name
  | .exactIp text | .subnet text | .ipRange text => text

def AddressMatch.ruleType : AddressMatch → ParsedRuleType
  | .zone _ => .zone
  | .exactFqdn _ | .suffixDomain _ | .anyZoneDomain _ => .domain
  | .exactIp _ => .exactIp
  | .subnet _ => .subnet
  | .ipRange _ => .ipRange

inductive AppMatchPattern where
  | exact (raw : Text)
  | glob (raw : Text)
  deriving DecidableEq, Repr

def AppMatchPattern.asStr : AppMatchPattern → Text
  | .exact raw | .glob raw => raw

def AppMatchPattern.isGlob : AppMatchPattern → Bool
  | .exact _ => false
  | .glob _ => true

structure AppMatch where
  pattern : AppMatchPattern
  includeChildProcesses : Bool
  overrideRequested : Bool
  deriving DecidableEq, Repr

structure Rule where
  id : Text
  enabled : Bool
  addressMatch : Option AddressMatch
  appMatch : Option AppMatch
  comment : Text
  action : RuleAction
  origin : Option RuleOrigin
  deriving DecidableEq, Repr

inductive Refusal where
  | blocking (error : ValidationError)
  | onNoDestination (ruleId value : Text)
  | appPatternRefused (ruleId value : Text)
  deriving DecidableEq, Repr

def singleAddressWritten (value : Text) : Option IpAddr :=
  let value := trim value
  if value.contains '/' then
    (IpBlock.parse value).bind fun block =>
      if block.isSingleAddress then some (canonicalIp block.network) else none
  else
    (IpRange.parse value).bind fun range =>
      if range.first = range.last then some (canonicalIp range.first) else none

/-- One address written as a network or a range is that address. -/
def asOneAddress (m : AddressMatch) : AddressMatch :=
  match m with
  | .subnet text | .ipRange text =>
    match singleAddressWritten text with
    | some address => .exactIp (ipText address)
    | none => m
  | _ => m

def misplacedInRule (rule : Rule) (platform : HostPlatform) : Option ValidationError :=
  (rule.addressMatch.bind fun m =>
    misplacedValue m.ruleType m.toDisplayString rule.id platform).or
  (rule.appMatch.bind fun a =>
    misplacedValue .application a.pattern.asStr rule.id platform)

def addressRefused : ValidationError → Refusal
  | .ipAddressNotADestination ruleId value _ => .onNoDestination ruleId value
  | error => .blocking error

def networkRefused : ValidationError → Refusal
  | .networkCoversReserved ruleId value _ => .onNoDestination ruleId value
  | error => .blocking error

def appRefused (value : Text) : ValidationError → Refusal
  | .appNameInvalid ruleId _ | .appPathInvalid ruleId _ _ | .appGlobTooWide ruleId =>
    .appPatternRefused ruleId value
  | error => .blocking error

def normalizeAppMatch (app : AppMatch) (platform : HostPlatform) (ruleId : Text) :
    Except ValidationError CanonicalAppMatch :=
  (canonicalAppPattern app.pattern.asStr app.pattern.isGlob platform ruleId).map fun pattern =>
    ⟨pattern, app.includeChildProcesses, app.overrideRequested⟩

section
variable (toAscii : Text → Option Text)

def normalizeAddressMatch (m : AddressMatch) (ruleId : Text) :
    Except Refusal CanonicalAddressMatch :=
  match m with
  | .zone name => ((canonicalHostName toAscii .zone name ruleId).mapError .blocking).map .zone
  | .exactFqdn value =>
    ((canonicalHostName toAscii .domain value ruleId).mapError .blocking).map .exactFqdn
  | .suffixDomain value =>
    ((canonicalHostName toAscii .domain value ruleId).mapError .blocking).map suffixOrZone
  | .anyZoneDomain base =>
    ((canonicalHostName toAscii .domain base ruleId).mapError .blocking).map .anyZoneDomain
  | .subnet text => ((canonicalSubnet text ruleId).mapError networkRefused).map .subnet
  | .ipRange text => ((canonicalIpRange text ruleId).mapError networkRefused).map .ipRange
  | .exactIp text => ((canonicalIpAddress text ruleId).mapError addressRefused).map .exactIp

def normalizeRule (rule : Rule) (platform : HostPlatform) : Except Refusal CanonicalRule :=
  if rule.addressMatch.isNone && rule.appMatch.isNone then
    .error (.blocking (.ruleEmptyMatch rule.id))
  else match misplacedInRule rule platform with
    | some misplaced => .error (.blocking misplaced)
    | none => do
      let addressMatch ← match rule.addressMatch with
        | none => pure none
        | some m => some <$> normalizeAddressMatch toAscii (asOneAddress m) rule.id
      let appMatch ← match rule.appMatch with
        | none => pure none
        | some a =>
          some <$> (normalizeAppMatch a platform rule.id).mapError (appRefused a.pattern.asStr)
      return ⟨rule.id, rule.enabled, addressMatch, appMatch, trim rule.comment, rule.action,
        rule.origin⟩

end

end NetRuleRouter.RuleNormalization
