import NetRuleRouter.Sorting
import NetRuleRouter.IpText
import NetRuleRouter.AppPaths
import NetRuleRouter.AutoRule

/-!
# Canonical rules, rule sets and rule books

The normalized form of a routing configuration. A rule set keeps its rules in
the canonical order, which compares every field, so a set is determined by
the rules it holds; the order is carried by the type, and the only way to
build a set is to sort.
-/

set_option autoImplicit false

namespace NetRuleRouter.Canonical
open TextOps Numerals IpNetwork IpText AppPaths AutoRule Sorting

inductive RouteRole where
  | primary
  | secondary
  deriving DecidableEq, Repr

inductive CanonicalAppPattern where
  | exact (name : Text)
  | glob (pattern : Text)
  | path (path : AppPath)
  deriving DecidableEq, Repr

def CanonicalAppPattern.asStr : CanonicalAppPattern → Text
  | .exact s | .glob s => s
  | .path p => p.text

inductive RuleAction where
  | route
  | block
  | verify
  deriving DecidableEq, Repr

structure CanonicalAppMatch where
  pattern : CanonicalAppPattern
  includeChildProcesses : Bool
  overrideRequested : Bool
  deriving DecidableEq, Repr

inductive CanonicalAddressMatch where
  | exactFqdn (label : Text)
  | suffixDomain (label : Text)
  | anyZoneDomain (base : Text)
  | zone (name : Text)
  | exactIp (addr : IpAddr)
  | subnet (block : IpBlock)
  | ipRange (range : IpRange)
  deriving DecidableEq

def blockText (b : IpBlock) : Text := ipText b.network ++ '/' :: numeral 10 b.prefixLen

def CanonicalAddressMatch.ipBlocks : CanonicalAddressMatch → Option (List IpBlock)
  | .subnet block => some [block]
  | .ipRange range => some range.blocks
  | _ => none

def ipSortKey : IpAddr → Text
  | .v4 bits => paddedNumeral 10 10 bits.toNat
  | .v6 bits => "v6:".toList ++ paddedNumeral 32 16 bits.toNat

def CanonicalAddressMatch.sortKeyStr : CanonicalAddressMatch → Text
  | .exactFqdn label | .suffixDomain label | .anyZoneDomain label => label
  | .zone name => name
  | .exactIp addr => ipSortKey addr
  | .subnet block => ipSortKey block.network ++ '/' :: paddedNumeral 3 10 block.prefixLen
  | .ipRange range => ipSortKey range.first ++ '-' :: ipSortKey range.last

structure CanonicalRule where
  id : Text
  enabled : Bool
  addressMatch : Option CanonicalAddressMatch
  appMatch : Option CanonicalAppMatch
  comment : Text
  action : RuleAction
  origin : Option RuleOrigin
  deriving DecidableEq

def CanonicalRule.sortGroup (r : CanonicalRule) : ℕ :=
  match r.addressMatch with
  | some (.exactFqdn _) => 0
  | some (.suffixDomain _) => 1
  | some (.zone _) => 2
  | some (.exactIp _) => 3
  | none => 4
  | some (.subnet _) => 5
  | some (.ipRange _) => 6
  | some (.anyZoneDomain _) => 7

def CanonicalRule.sortValue (r : CanonicalRule) : Text :=
  match r.addressMatch with
  | some m => m.sortKeyStr
  | none => (r.appMatch.map fun a => a.pattern.asStr).getD []

def CanonicalRule.appKind (r : CanonicalRule) : ℕ :=
  match r.appMatch with
  | none => 0
  | some ⟨.exact _, _, _⟩ => 1
  | some ⟨.glob _, _, _⟩ => 2
  | some ⟨.path _, _, _⟩ => 3

def CanonicalRule.appText (r : CanonicalRule) : Text :=
  (r.appMatch.map fun a => a.pattern.asStr).getD []

def CanonicalRule.appChildren (r : CanonicalRule) : Bool :=
  r.appMatch.any CanonicalAppMatch.includeChildProcesses

def CanonicalRule.appOverride (r : CanonicalRule) : Bool :=
  r.appMatch.any CanonicalAppMatch.overrideRequested

def RuleAction.sortRank : RuleAction → ℕ
  | .route => 0
  | .block => 1
  | .verify => 2

def CanonicalRule.originSlug (r : CanonicalRule) : Text := (r.origin.map (·.reason.asSlug)).getD []

def CanonicalRule.originAnchor (r : CanonicalRule) : Text := (r.origin.map RuleOrigin.anchor).getD []

def CanonicalRule.originAdded (r : CanonicalRule) : Text := (r.origin.map RuleOrigin.added).getD []

def tieBreak : CanonicalRule → CanonicalRule → Ordering :=
  compareLex (compareOn CanonicalRule.appKind) <|
  compareLex (compareOn CanonicalRule.appText) <|
  compareLex (compareOn CanonicalRule.appChildren) <|
  compareLex (compareOn CanonicalRule.appOverride) <|
  compareLex (compareOn fun r => r.action.sortRank) <|
  compareLex (compareOn CanonicalRule.enabled) <|
  compareLex (compareOn CanonicalRule.id) <|
  compareLex (compareOn CanonicalRule.comment) <|
  compareLex (compareOn fun r => r.origin.isSome) <|
  compareLex (compareOn CanonicalRule.originSlug) <|
  compareLex (compareOn CanonicalRule.originAnchor) (compareOn CanonicalRule.originAdded)

def canonicalOrder : CanonicalRule → CanonicalRule → Ordering :=
  compareLex (compareOn CanonicalRule.sortGroup) <|
  compareLex (compareOn CanonicalRule.sortValue) tieBreak

instance : Std.TransCmp tieBreak := by
  unfold tieBreak
  infer_instance

instance : Std.TransCmp canonicalOrder := by
  unfold canonicalOrder
  infer_instance

structure CanonicalRuleSet where
  rules : List CanonicalRule
  sorted : Sorted canonicalOrder rules
  deriving DecidableEq

def CanonicalRuleSet.fromRules (rules : List CanonicalRule) : CanonicalRuleSet :=
  ⟨sortBy canonicalOrder rules, sort_by_sorted _ rules⟩

theorem from_own_rules (s : CanonicalRuleSet) : .fromRules s.rules = s := by
  cases s with
  | mk rules sorted => simp only [CanonicalRuleSet.fromRules, sort_by_of_sorted _ _ sorted]

@[simp] theorem mem_from_rules (rules : List CanonicalRule) (r : CanonicalRule) :
    r ∈ (CanonicalRuleSet.fromRules rules).rules ↔ r ∈ rules :=
  mem_sort_by _ rules r

structure CanonicalRuleBook where
  primary : CanonicalRuleSet
  secondary : CanonicalRuleSet
  deriving DecidableEq

def CanonicalRuleBook.setFor (b : CanonicalRuleBook) : RouteRole → CanonicalRuleSet
  | .primary => b.primary
  | .secondary => b.secondary

def CanonicalRuleBook.allRules (b : CanonicalRuleBook) : List CanonicalRule :=
  b.primary.rules ++ b.secondary.rules

def CanonicalRuleSet.enabledCount (s : CanonicalRuleSet) : ℕ := s.rules.countP CanonicalRule.enabled

def CanonicalRuleBook.totalEnabledCount (b : CanonicalRuleBook) : ℕ :=
  b.primary.enabledCount + b.secondary.enabledCount

def bookOf (primary secondary : List CanonicalRule) : CanonicalRuleBook :=
  ⟨.fromRules primary, .fromRules secondary⟩

def tenNet : IpBlock := ⟨.v4 0x0A000000, 8, by decide, by decide⟩

def innerNet : IpBlock := ⟨.v4 0x0A010000, 16, by decide, by decide⟩

def addressRule (id : String) (enabled : Bool) (address : CanonicalAddressMatch)
    (action : RuleAction) : CanonicalRule :=
  ⟨id.toList, enabled, some address, none, [], action, none⟩

/-- An enabled rule of the set is the suffix rule of `name` with this application match. -/
def CanonicalRuleSet.holdsSuffix (s : CanonicalRuleSet) (name : Text)
    (appMatch : Option CanonicalAppMatch) : Bool :=
  s.rules.any fun r =>
    r.enabled && r.appMatch == appMatch && r.addressMatch == some (.suffixDomain name)

/-- An enabled rule of either set is the suffix rule of `name`. -/
def CanonicalRuleBook.namesSuffixOutright (b : CanonicalRuleBook) (name : Text) : Bool :=
  b.allRules.any fun r => r.enabled && r.addressMatch == some (.suffixDomain name)

theorem holds_suffix_iff {s : CanonicalRuleSet} {name : Text} {app : Option CanonicalAppMatch} :
    s.holdsSuffix name app = true ↔ ∃ r ∈ s.rules, r.enabled = true ∧ r.appMatch = app ∧
      r.addressMatch = some (.suffixDomain name) := by
  simp [CanonicalRuleSet.holdsSuffix, and_assoc]

theorem exists_role {p : RouteRole → Prop} : (∃ role, p role) ↔ p .primary ∨ p .secondary := by
  constructor
  · rintro ⟨_ | _, h⟩
    · exact Or.inl h
    · exact Or.inr h
  · rintro (h | h)
    · exact ⟨_, h⟩
    · exact ⟨_, h⟩

variable {b : CanonicalRuleBook}

theorem mem_all_rules {r : CanonicalRule} :
    r ∈ b.allRules ↔ ∃ role, r ∈ (b.setFor role).rules := by
  rw [CanonicalRuleBook.allRules, List.mem_append, exists_role]
  rfl

theorem names_suffix_iff {name : Text} :
    b.namesSuffixOutright name = true ↔ ∃ role, ∃ r ∈ (b.setFor role).rules, r.enabled = true ∧
      r.addressMatch = some (.suffixDomain name) := by
  simp only [CanonicalRuleBook.namesSuffixOutright, List.any_eq_true, mem_all_rules,
    Bool.and_eq_true, beq_iff_eq]
  constructor
  · rintro ⟨r, ⟨role, hr⟩, h⟩
    exact ⟨role, r, hr, h⟩
  · rintro ⟨role, r, hr, h⟩
    exact ⟨r, ⟨role, hr⟩, h⟩

end NetRuleRouter.Canonical
