import NetRuleRouter.RulePairs
import NetRuleRouter.StrongestTable

/-!
# Merging a rules file with the service's book

Each book is first given one enabled copy per match. The rules of the two
books are then grouped by what they match and paired; a pair that differs is
a conflict, decided by the user's pick or the policy, and a rule without a
counterpart is always kept.
-/

set_option autoImplicit false

namespace NetRuleRouter.Merge
open TextOps Canonical RulePairs StrongestTable

inductive MergePolicy where
  | union
  | fileWins
  | serviceWins
  deriving DecidableEq, Repr

inductive MergeOrigin where
  | fileOnly
  | serviceOnly
  | both
  deriving DecidableEq, Repr

inductive ConflictSide where
  | file
  | service
  | unresolved
  deriving DecidableEq, Repr

structure ConflictRule where
  route : RouteRole
  enabled : Bool
  action : RuleAction
  comment : Text
  deriving DecidableEq

def ConflictRule.of (p : Placed) : ConflictRule := ⟨p.2, p.1.enabled, p.1.action, p.1.comment⟩

/-- What an entry or a conflict is picked by: the group and, where it holds several rules, the
spelling, action and route of the anchor. -/
structure PairKey where
  group : IdentityKey
  anchor : Option (Option CanonicalAddressMatch × RuleAction × RouteRole)
  deriving DecidableEq

def pairKey (group : IdentityKey) (multi : Bool) (p : Placed) : PairKey :=
  ⟨group, if multi then some (p.1.addressMatch, p.1.action, p.2) else none⟩

structure MergeConflict where
  identityKey : PairKey
  rule : CanonicalRule
  file : ConflictRule
  service : ConflictRule
  resolved : ConflictSide
  deriving DecidableEq

structure MergedRuleEntry where
  identityKey : PairKey
  rule : CanonicalRule
  route : RouteRole
  origin : MergeOrigin
  wasConflict : Bool
  deriving DecidableEq

/-- What makes two enabled copies in opposite sets one rule named twice. -/
abbrev CrossSetKey := IdentityKey × RuleAction

def crossSetKey (r : CanonicalRule) (coverage : SubdomainCoverage) : CrossSetKey :=
  (ruleIdentityKeyUnder r coverage, r.action)

structure NormalizedCrossSetRule where
  identityKey : CrossSetKey
  kept : CanonicalRule
  disabled : CanonicalRule
  deriving DecidableEq

structure MergeResult where
  merged : CanonicalRuleBook
  entries : List MergedRuleEntry
  conflicts : List MergeConflict
  normalizedDuplicates : Table CrossSetKey NormalizedCrossSetRule

section
variable (book : CanonicalRuleBook) (keepSecondary : CrossSetKey → Bool)
variable (coverage : SubdomainCoverage)

def enabledPrimary (key : CrossSetKey) : Option CanonicalRule :=
  book.primary.rules.reverse.find? fun r => r.enabled && crossSetKey r coverage == key

def primaryCopy (r : CanonicalRule) : Option CanonicalRule :=
  if r.enabled then enabledPrimary book coverage (crossSetKey r coverage) else none

def disablePrimary : List CrossSetKey :=
  (book.secondary.rules.filter fun r =>
    (primaryCopy book coverage r).isSome && keepSecondary (crossSetKey r coverage)).map
      (crossSetKey · coverage)

def normalizedSecondary : List CanonicalRule :=
  book.secondary.rules.map fun r =>
    if (primaryCopy book coverage r).isSome then
      { r with enabled := keepSecondary (crossSetKey r coverage) }
    else r

def normalizedPrimary : List CanonicalRule :=
  book.primary.rules.map fun r =>
    if crossSetKey r coverage ∈ disablePrimary book keepSecondary coverage then
      { r with enabled := false }
    else r

def normalizeCrossSetDuplicates : CanonicalRuleBook × List NormalizedCrossSetRule :=
  if book.primary.rules.any CanonicalRule.enabled = false then (book, [])
  else
    let primary :=
      if disablePrimary book keepSecondary coverage = [] then book.primary
      else .fromRules (normalizedPrimary book keepSecondary coverage)
    (⟨primary, .fromRules (normalizedSecondary book keepSecondary coverage)⟩,
      book.secondary.rules.filterMap fun r =>
        (primaryCopy book coverage r).map fun p =>
          if keepSecondary (crossSetKey r coverage) then ⟨crossSetKey r coverage, r, p⟩
          else ⟨crossSetKey r coverage, p, r⟩)

end

def replace {κ α : Type*} [DecidableEq κ] : Table κ α → κ → α → Table κ α
  | [], k, a => [(k, a)]
  | (j, b) :: t, k, a => if j = k then (j, a) :: t else (j, b) :: replace t k a

def mergeNormalized (file service : List NormalizedCrossSetRule) :
    Table CrossSetKey NormalizedCrossSetRule :=
  (service ++ file).foldl (fun t n => replace t n.identityKey n) []

def placed (book : CanonicalRuleBook) : List Placed :=
  book.primary.rules.map (·, .primary) ++ book.secondary.rules.map (·, .secondary)

def groupOf (book : CanonicalRuleBook) (coverage : SubdomainCoverage) (key : IdentityKey) :
    List Placed :=
  (placed book).filter fun p => ruleIdentityKeyUnder p.1 coverage == key

section
variable (policy : MergePolicy) (resolutions : PairKey → Option ConflictSide)

def mergePair (key : PairKey) (f s : Placed) : MergedRuleEntry × Option MergeConflict :=
  let bothBlock := f.1.action == .block && s.1.action == .block
  if (f.2 == s.2 || bothBlock) && !ruleAttributesDiffer f.1 s.1 then
    let kept := if f.1.addressMatch = s.1.addressMatch then f.1 else s.1
    (⟨key, kept, s.2, .both, false⟩, none)
  else
    let (chosen, resolved) :=
      match resolutions key with
      | some .file => (f, ConflictSide.file)
      | some .service => (s, .service)
      | _ =>
        match policy with
        | .serviceWins => (s, .service)
        | .fileWins => (f, .file)
        | .union => (f, .unresolved)
    (⟨key, chosen.1, chosen.2, .both, true⟩,
      some ⟨key, f.1, .of f, .of s, resolved⟩)

def mergeEntry (group : IdentityKey) (fileGroup serviceGroup : List Placed) :
    Option ℕ × Option ℕ → Option (MergedRuleEntry × Option MergeConflict)
  | (some i, some j) =>
    fileGroup[i]?.bind fun f => serviceGroup[j]?.map fun s =>
      mergePair policy resolutions
        (pairKey group (1 < fileGroup.length || 1 < serviceGroup.length) f) f s
  | (some i, none) => fileGroup[i]?.map fun f =>
      (⟨pairKey group (1 < fileGroup.length || 1 < serviceGroup.length) f, f.1, f.2, .fileOnly,
        false⟩, none)
  | (none, some j) => serviceGroup[j]?.map fun s =>
      (⟨pairKey group (1 < fileGroup.length || 1 < serviceGroup.length) s, s.1, s.2, .serviceOnly,
        false⟩, none)
  | (none, none) => none

def mergeGroup (group : IdentityKey) (fileGroup serviceGroup : List Placed) :
    List (MergedRuleEntry × Option MergeConflict) :=
  (pairIdentityGroup fileGroup serviceGroup).filterMap
    (mergeEntry policy resolutions group fileGroup serviceGroup)

/-- The groups of both books, each once. Their order orders the entries; nothing below depends
on it. -/
def groups (file service : CanonicalRuleBook) (coverage : SubdomainCoverage) : List IdentityKey :=
  ((placed file ++ placed service).map fun p => ruleIdentityKeyUnder p.1 coverage).dedup

def mergeEntries (file service : CanonicalRuleBook) (coverage : SubdomainCoverage) :
    List (MergedRuleEntry × Option MergeConflict) :=
  (groups file service coverage).flatMap fun key =>
    mergeGroup policy resolutions key (groupOf file coverage key) (groupOf service coverage key)

def bookOfEntries (entries : List MergedRuleEntry) : CanonicalRuleBook :=
  bookOf ((entries.filter fun e => e.route == .primary).map MergedRuleEntry.rule)
    ((entries.filter fun e => e.route == .secondary).map MergedRuleEntry.rule)

def mergeRuleBooksWithResolutions (file service : CanonicalRuleBook)
    (keepSecondary : CrossSetKey → Bool) (coverage : SubdomainCoverage) : MergeResult :=
  let (file, fileNormalized) := normalizeCrossSetDuplicates file keepSecondary coverage
  let (service, serviceNormalized) := normalizeCrossSetDuplicates service keepSecondary coverage
  let merged := mergeEntries policy resolutions file service coverage
  { merged := bookOfEntries (merged.map Prod.fst)
    entries := merged.map Prod.fst
    conflicts := merged.filterMap Prod.snd
    normalizedDuplicates := mergeNormalized fileNormalized serviceNormalized }

end

end NetRuleRouter.Merge
