import NetRuleRouter.IpText
import NetRuleRouter.AutoRule
import NetRuleRouter.AppPaths

/-!
# What kind of rule a value is, by its spelling

A section of a rules file is a rule type, and three of the sections hold the
programs of one platform each. A value whose spelling places it in another
section is refused with the section it belongs in; where the spelling settles
nothing, the section decides.
-/

set_option autoImplicit false

namespace NetRuleRouter.RuleValueKinds
open TextOps Numerals AutoRule AppPaths

inductive ParsedRuleType where
  | zone
  | domain
  | exactIp
  | subnet
  | ipRange
  | application
  deriving DecidableEq, Repr

def retiredBlockFlag : Text := "+block".toList

def carriesRetiredBlockFlag (value : Text) : Bool :=
  ((words value).drop 1).any (· == retiredBlockFlag)

def isAsciiAlphanumeric (c : Char) : Bool := isDigit 36 c

def isForbiddenFieldChar (c : Char) : Bool := isControl c && c != '\t'

inductive HostPlatform where
  | windows
  | linux
  | macOS
  deriving DecidableEq, Repr

def HostPlatform.executableNaming : HostPlatform → ExecutableNaming
  | .windows => .windowsExe
  | .linux | .macOS => .asNamed

def HostPlatform.pathStyle : HostPlatform → PathStyle
  | .windows => .windows
  | .linux => .linux
  | .macOS => .macOS

inductive RulesFileSection where
  | zones
  | domains
  | ip
  | cidr
  | ranges
  | windows
  | linux
  | macOS
  | auto
  deriving DecidableEq, Repr

inductive RuleValueClass where
  | address
  | subnet
  | range
  | zone
  | host
  | hostWithSubdomains
  | siteInEveryZone
  | application
  | ambiguous
  | unrecognized
  deriving DecidableEq, Repr

def RuleValueClass.ruleType : RuleValueClass → Option ParsedRuleType
  | .address => some .exactIp
  | .subnet => some .subnet
  | .range => some .ipRange
  | .zone => some .zone
  | .host | .hostWithSubdomains | .siteInEveryZone => some .domain
  | .application => some .application
  | .ambiguous | .unrecognized => none

def isAddressShaped (s : Text) : Bool :=
  let head := s.takeWhile (· != '%')
  (s.contains '.' && s.any (isDigit 10) && s.all fun c => isDigit 10 c || c == '.') ||
    head ≠ [] && 2 ≤ head.count ':' && head.all fun c => isDigit 16 c || c == ':' || c == '.'

/-- The `.exe` ending, or a path. -/
def namesAProgram (v : Text) : Bool :=
  let drive := match v with
    | letter :: ':' :: slash :: _ => letter.isAlpha && (slash == '/' || slash == '\\')
    | _ => false
  endsWith exeSuffix (toAsciiLowercase v) || drive || v.contains '\\' || startsWith ['/'] v ||
    startsWith ['.', '/'] v || startsWith ['.', '.', '/'] v || startsWith ['~', '/'] v

/-- Characters of a host label; the list of those that do not show is the source's. -/
def isNameChar (c : Char) : Bool :=
  if isAscii c then isAsciiAlphanumeric c || c == '-' || c == '_'
  else
    let n := c.toNat
    !(0x80 ≤ n ∧ n ≤ 0xA0 ∨ n = 0x1680 ∨ 0x2000 ≤ n ∧ n ≤ 0x200F ∨ 0x2028 ≤ n ∧ n ≤ 0x202F ∨
      0x205F ≤ n ∧ n ≤ 0x206F ∨ n = 0x3000 ∨ n = 0xFEFF)

def hostLabels (v : Text) : Option (ℕ × Text) :=
  let v := (stripSuf ['.'] v).getD v
  let labels := v.splitOn '.'
  if v ≠ [] && labels.all fun l => l ≠ [] && !startsWith ['-'] l && !endsWith ['-'] l &&
      l.all isNameChar then some (labels.length, labels.getLast?.getD [])
  else none

def tldShaped (label : Text) : Bool :=
  startsWith "xn--".toList (toAsciiLowercase label) || label.all fun c => c.isAlpha || !isAscii c

def patternClass (v : Text) : RuleValueClass :=
  let site (base : Text) : RuleValueClass :=
    if (hostLabels base).isSome then .siteInEveryZone else .unrecognized
  if v.all (· == '*') then .unrecognized
  else match stripPre ['*', '.'] v with
    | some rest =>
      match stripSuf ['.', '*'] rest with
      | some base => site base
      | none =>
        match hostLabels rest with
        | some (count, last) =>
          if tldShaped last then if count = 1 then .zone else .hostWithSubdomains
          else .unrecognized
        | none => .unrecognized
    | none =>
      match stripSuf ['.', '*'] v with
      | some base => site base
      | none => if v.contains '.' then .unrecognized else .application

def nameClass (v : Text) : RuleValueClass :=
  match stripPre ['.'] v with
  | some rest =>
    match hostLabels rest with
    | some (count, last) =>
      if count = 1 && tldShaped last && !endsWith ['.'] rest then .zone else .unrecognized
    | none => .unrecognized
  | none =>
    match hostLabels v with
    | none => .unrecognized
    | some (count, last) =>
      if count = 1 then .ambiguous
      else if count = 4 && ((v.splitOn '.').take 3).all fun l => l.all (isDigit 10) then .address
      else if tldShaped last then .host
      else .unrecognized

def classifyRuleValue (value : Text) : RuleValueClass :=
  let v := trim value
  let subnet := (splitOnce '/' v).any fun e =>
    isAddressShaped (trim e.1) && trim e.2 ≠ [] && (trim e.2).all (isDigit 10)
  let range := (splitOnce '-' v).any fun e =>
    isAddressShaped (trim e.1) && isAddressShaped (trim e.2)
  if v = [] then .unrecognized
  else if isAddressShaped v then .address
  else if subnet then .subnet
  else if range then .range
  else if namesAProgram v then .application
  else if v.contains '*' then patternClass v
  else nameClass v

def sectionHolds (ruleType : ParsedRuleType) (cls : RuleValueClass) (naming : ExecutableNaming) :
    Bool :=
  match ruleType, naming with
  | .exactIp, _ | .subnet, _ | .ipRange, _ => cls.ruleType.all (· == ruleType)
  | .zone, _ => cls ∉ [.address, .subnet, .range, .siteInEveryZone, .application]
  | .domain, _ => cls ∉ [.address, .subnet, .range, .application]
  | .application, .windowsExe =>
    cls ∉ [.address, .subnet, .range, .zone, .host, .hostWithSubdomains, .siteInEveryZone]
  | .application, .asNamed => cls ∉ [.address, .subnet, .range, .hostWithSubdomains]

def misplacedRuleValue (ruleType : ParsedRuleType) (value : Text) (naming : ExecutableNaming) :
    Option ParsedRuleType :=
  let cls := classifyRuleValue value
  if sectionHolds ruleType cls naming then none else cls.ruleType

def appSectionSpelledBy (value : Text) : RulesFileSection :=
  let v := trim value
  let drive := match v with
    | letter :: ':' :: _ => letter.isAlpha
    | _ => false
  let windows := endsWith exeSuffix (toAsciiLowercase v) || drive || v.contains '\\'
  let posixPath := startsWith ['/'] v || startsWith ['.', '/'] v || startsWith ['.', '.', '/'] v ||
    startsWith ['~', '/'] v
  if posixPath && !windows then .linux else .windows

def sectionOf (ruleType : ParsedRuleType) (value : Text) : RulesFileSection :=
  match ruleType with
  | .zone => .zones
  | .domain => .domains
  | .exactIp => .ip
  | .subnet => .cidr
  | .ipRange => .ranges
  | .application => appSectionSpelledBy value

end NetRuleRouter.RuleValueKinds
