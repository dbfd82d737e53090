import NetRuleRouter.RuleMatching
import NetRuleRouter.MergeKeys

/-!
# The review diff of two profiles is exact

Rules are paired group by group; a rule without a counterpart was added or
removed, a pair in two route sets was retargeted, and a pair that differs
otherwise was modified. Where no set holds a match twice the diff is empty
exactly when the two books say the same: the greedy pairing takes exact
partners first, because no other pair scores as high.
-/

set_option autoImplicit false

namespace NetRuleRouter.ReviewDiff
open Sorting Canonical RulePairs Merge MergeAccounts MergeKeys TextOps
open RuleMatching (RouteBehaviorMode)

/-- A binding stands for the stable id of its adapter, all the diff reads of it. -/
structure CanonicalProfile where
  primary : Text
  secondary : Option Text
  behaviorMode : RouteBehaviorMode
  ruleBook : CanonicalRuleBook

inductive RuleChange where
  | added (rule : CanonicalRule) (route : RouteRole)
  | removed (rule : CanonicalRule) (route : RouteRole)
  | modified (prev next : CanonicalRule) (route : RouteRole)
  | retargeted (rule : CanonicalRule) (source target : RouteRole)
  deriving DecidableEq

def RuleChange.kindOrder : RuleChange → ℕ
  | .added _ _ => 0
  | .removed _ _ => 1
  | .modified _ _ _ => 2
  | .retargeted _ _ _ => 3

def RuleChange.subject : RuleChange → CanonicalRule
  | .added rule _ | .removed rule _ | .retargeted rule _ _ => rule
  | .modified _ next _ => next

def RuleChange.isAdded : RuleChange → Bool
  | .added _ _ => true
  | _ => false

def RuleChange.isRemoved : RuleChange → Bool
  | .removed _ _ => true
  | _ => false

def changeOrder : RuleChange → RuleChange → Ordering :=
  compareLex (compareOn RuleChange.kindOrder) <|
  compareLex (compareOn fun c => c.subject.sortGroup) <|
  compareLex (compareOn fun c => c.subject.sortValue) (compareOn fun c => c.subject.id)

structure StructuralDiff where
  bindingChanged : Bool
  behaviorModeChanged : Bool
  prevBehaviorMode : Option RouteBehaviorMode
  nextBehaviorMode : RouteBehaviorMode
  ruleChanges : List RuleChange
  prevTotalRules : ℕ
  nextTotalRules : ℕ
  overlappingApexes : List Text

/-- The change a pair amounts to; moving to the other set absorbs any other difference. -/
def changeOf : RulePair → Option RuleChange
  | .both prev next =>
    if prev.2 ≠ next.2 then some (.retargeted next.1 prev.2 next.2)
    else if ruleAttributesDiffer prev.1 next.1 then some (.modified prev.1 next.1 next.2)
    else none
  | .leftOnly prev => some (.removed prev.1 prev.2)
  | .rightOnly next => some (.added next.1 next.2)

def emptyBook : CanonicalRuleBook := bookOf [] []

def computeRuleChanges (prev next : CanonicalRuleBook) : List RuleChange :=
  (groups prev next .off).flatMap fun k =>
    (matchedPairs (groupOf prev .off k) (groupOf next .off k)).filterMap changeOf

def suffixLabel (r : CanonicalRule) : Option Text :=
  match r.addressMatch with
  | some (.suffixDomain label) => some label
  | _ => none

def exactHost (r : CanonicalRule) : Option Text :=
  match r.addressMatch with
  | some (.exactFqdn host) => some host
  | _ => none

def touchedNames (changes : List RuleChange) : List Text :=
  (changes.filter fun c => !c.isRemoved).filterMap fun c =>
    (suffixLabel c.subject).orElse fun _ => exactHost c.subject

def collectOverlappingApexes (candidate : CanonicalRuleBook) (changes : List RuleChange) :
    List Text :=
  let apexes := sortBy compare (candidate.allRules.filterMap suffixLabel).dedup
  apexes.filter fun apex => (candidate.allRules.filterMap exactHost).any fun host =>
    (host == apex || endsWith ('.' :: apex) host) &&
      (touchedNames changes).any fun name => name == apex || name == host

def asU32 (n : ℕ) : ℕ := n % 2 ^ 32

def computeDiff (prev : Option CanonicalProfile) (candidate : CanonicalProfile) : StructuralDiff :=
  let book := (prev.map CanonicalProfile.ruleBook).getD emptyBook
  let changes := sortBy changeOrder (computeRuleChanges book candidate.ruleBook)
  { bindingChanged := prev.any fun p =>
      p.primary != candidate.primary || p.secondary != candidate.secondary
    behaviorModeChanged := prev.any fun p => p.behaviorMode != candidate.behaviorMode
    prevBehaviorMode := prev.map CanonicalProfile.behaviorMode
    nextBehaviorMode := candidate.behaviorMode
    ruleChanges := changes
    prevTotalRules := asU32 (placed book).length
    nextTotalRules := asU32 (placed candidate.ruleBook).length
    overlappingApexes := collectOverlappingApexes candidate.ruleBook changes }

def placedKey (p : Placed) : MatchKey × RouteRole := (MatchKey.fromRule p.1, p.2)

theorem affinity_top {l r : Placed} : affinity l r = 15 ↔ placedKey l = placedKey r := by
  constructor
  · intro h
    obtain ⟨hkey, hroute⟩ := (affinity_bound l r).2 h
    exact Prod.ext hkey hroute
  · intro h
    obtain ⟨hkey, hroute⟩ := Prod.mk.inj h
    have haction : l.1.action = r.1.action := congrArg MatchKey.action hkey
    have henabled : l.1.enabled = r.1.enabled := congrArg MatchKey.enabled hkey
    simp [affinity, hkey, hroute, haction, henabled]

section
variable {left right : List Placed}

theorem position_unique {l : List Placed} (h : (l.map placedKey).Nodup) {i j : ℕ} {p q : Placed}
    (hi : l[i]? = some p) (hj : l[j]? = some q) (heq : placedKey p = placedKey q) : i = j := by
  have hi' : (l.map placedKey)[i]? = some (placedKey p) := by simp [hi]
  have hj' : (l.map placedKey)[j]? = some (placedKey p) := by simp [hj, heq]
  exact (List.getElem?_inj (List.getElem?_eq_some_iff.mp hi').1 h).mp (hi'.trans hj'.symm)

theorem exact_paired (hl : (left.map placedKey).Nodup) (hr : (right.map placedKey).Nodup)
    {i j : ℕ} {l r : Placed} (hi : left[i]? = some l) (hj : right[j]? = some r)
    (heq : placedKey l = placedKey r) : (i, j) ∈ (pairing left right).paired := by
  have htop : affinity l r = 15 := affinity_top.mpr heq
  refine closest_paired hi hj (fun i' l' hl' hne => ?_) fun j' r' hr' hne => ?_
  · rw [htop]
    refine lt_of_le_of_ne (affinity_bound _ _).1 fun h => hne ?_
    exact position_unique hl hl' hi ((affinity_top.mp h).trans heq.symm)
  · rw [htop]
    refine lt_of_le_of_ne (affinity_bound _ _).1 fun h => hne ?_
    exact position_unique hr hr' hj ((affinity_top.mp h).symm.trans heq)

theorem partner {l m : List Placed} (h : (l.map placedKey).Perm (m.map placedKey)) {i : ℕ}
    {p : Placed} (hi : l[i]? = some p) :
    ∃ (j : ℕ) (q : Placed), m[j]? = some q ∧ placedKey q = placedKey p := by
  have hmem := h.subset (List.mem_map_of_mem (List.mem_of_getElem? hi))
  obtain ⟨q, hq, heq⟩ := List.mem_map.mp hmem
  obtain ⟨j, hj⟩ := List.getElem?_of_mem hq
  exact ⟨j, q, hj, heq⟩

theorem exact_matched (hl : (left.map placedKey).Nodup) (hr : (right.map placedKey).Nodup)
    (hkeys : (left.map placedKey).Perm (right.map placedKey)) :
    ∀ x ∈ matchedPairs left right, ∃ l r, x = .both l r ∧ placedKey l = placedKey r := by
  intro x hx
  obtain ⟨⟨a, b⟩, hab, hx⟩ := List.mem_filterMap.mp hx
  rcases a with _ | i
  · rcases b with _ | j
    · simp [pairOf] at hx
    · -- a rule left over on the right has its partner paired with it
      obtain ⟨r, hjr, -⟩ := Option.map_eq_some_iff.mp hx
      obtain ⟨i, l, hil, heq⟩ := partner hkeys.symm hjr
      exact absurd (right_once (exact_paired hl hr hil hjr heq) hab) (by simp)
  · rcases b with _ | j
    · obtain ⟨l, hil, -⟩ := Option.map_eq_some_iff.mp hx
      obtain ⟨j, r, hjr, heq⟩ := partner hkeys hil
      exact absurd (left_once (exact_paired hl hr hil hjr heq.symm) hab) (by simp)
    · obtain ⟨l, hil, hx⟩ := Option.bind_eq_some_iff.mp hx
      obtain ⟨r, hjr, rfl⟩ := Option.map_eq_some_iff.mp hx
      obtain ⟨j', r', hjr', heq⟩ := partner hkeys hil
      have hj : some j = some j' := left_once (exact_paired hl hr hil hjr' heq.symm) hab
      obtain rfl := Option.some.inj hj
      obtain rfl := Option.some.inj (hjr.symm.trans hjr')
      exact ⟨l, r, rfl, heq.symm⟩

end

def content (r : CanonicalRule) : CanonicalRule := { r with id := [], origin := none }

/-- The same rules on the same routes, up to id and origin. -/
def SameContent (prev next : CanonicalRuleBook) : Prop :=
  ∀ role, ((prev.setFor role).rules.map content).Perm ((next.setFor role).rules.map content)

/-- No set holds two rules with one key, as after validation. -/
def KeyedOnce (book : CanonicalRuleBook) : Prop :=
  ∀ role, ((book.setFor role).rules.map MatchKey.withinSet).Nodup

def placedContent (p : Placed) : Placed := (content p.1, p.2)

theorem key_of_content {p q : Placed} (h : placedContent p = placedContent q) :
    placedKey p = placedKey q := by
  obtain ⟨hc, hroute⟩ := Prod.mk.inj h
  simp only [content, CanonicalRule.mk.injEq, true_and, and_true] at hc
  simp only [placedKey, MatchKey.fromRule, hc, hroute]

section
variable {book prev next : CanonicalRuleBook}

theorem placed_keys_nodup (h : KeyedOnce book) : ((placed book).map placedKey).Nodup := by
  have hkeys (role : RouteRole) : ((book.setFor role).rules.map MatchKey.fromRule).Nodup :=
    nodup_map_of (h role) fun a _ b _ he => by simp only [MatchKey.withinSet, he]
  exact placed_keyed_nodup hkeys

theorem placed_content_perm (h : SameContent prev next) :
    ((placed prev).map placedContent).Perm ((placed next).map placedContent) := by
  have hside (role : RouteRole) (book : CanonicalRuleBook) :
      ((book.setFor role).rules.map (·, role)).map placedContent =
        ((book.setFor role).rules.map content).map (·, role) := by
    rw [List.map_map, List.map_map]
    rfl
  rw [placed, placed, List.map_append, List.map_append]
  refine List.Perm.append ?_ ?_
  · have hp := (h .primary).map fun r => (r, RouteRole.primary)
    rwa [← hside .primary prev, ← hside .primary next] at hp
  · have hs := (h .secondary).map fun r => (r, RouteRole.secondary)
    rwa [← hside .secondary prev, ← hside .secondary next] at hs

theorem same_content_of_perm
    (h : ((placed prev).map placedContent).Perm ((placed next).map placedContent)) :
    SameContent prev next := by
  have hside (role : RouteRole) (book : CanonicalRuleBook) :
      (((placed book).map placedContent).filter fun p => p.2 == role).map Prod.fst =
        (book.setFor role).rules.map content := by
    cases role <;>
      simp [placed, CanonicalRuleBook.setFor, List.filter_map, Function.comp_def, placedContent]
  intro role
  rw [← hside, ← hside]
  exact (h.filter _).map _

end

theorem unchanged_iff {p n : Placed}
    (hkey : ruleIdentityKeyUnder p.1 .off = ruleIdentityKeyUnder n.1 .off) :
    changeOf (.both p n) = none ↔ placedContent p = placedContent n := by
  have haddr : p.1.addressMatch = n.1.addressMatch := congrArg IdentityKey.address hkey
  constructor
  · intro h
    rw [changeOf] at h
    split at h
    · cases h
    · rename_i hroute
      split at h
      · cases h
      · rename_i hattr
        have hagree : agrees p n = true := by
          simp only [ne_eq, not_not] at hroute
          simp [agrees, hroute, hattr]
        obtain ⟨happ, hact, hen, hcomment⟩ := agreed_rules hagree hkey
        simp only [ne_eq, not_not] at hroute
        simp [placedContent, content, haddr, happ, hact, hen, hcomment, hroute]
  · intro h
    obtain ⟨hc, hroute⟩ := Prod.mk.inj h
    simp only [content, CanonicalRule.mk.injEq, true_and, and_true] at hc
    have hattr : ruleAttributesDiffer p.1 n.1 = false := by
      simp [ruleAttributesDiffer, hc]
    simp [changeOf, hroute, hattr]

theorem changes_eq (prev next : CanonicalRuleBook) :
    computeRuleChanges prev next = (bookPairs prev next .off).filterMap changeOf := by
  rw [bookPairs, List.filterMap_flatMap]
  rfl

theorem no_changes_iff (prev next : CanonicalRuleBook) :
    computeRuleChanges prev next = [] ↔
      ∀ x ∈ bookPairs prev next .off, ∃ p n, x = .both p n ∧ placedContent p = placedContent n := by
  rw [changes_eq, List.filterMap_eq_nil_iff]
  refine forall₂_congr fun x hx => ?_
  cases x with
  | leftOnly p | rightOnly n => simp [changeOf]
  | both p n =>
    rw [unchanged_iff (pair_same_key prev next .off hx)]
    constructor
    · intro h
      exact ⟨p, n, rfl, h⟩
    · rintro ⟨p', n', heq, h⟩
      cases heq
      exact h

section
variable {prev next : CanonicalRuleBook}

theorem same_content_of_no_changes (h : computeRuleChanges prev next = []) :
    SameContent prev next := by
  rw [no_changes_iff] at h
  have hsides : ((bookPairs prev next .off).filterMap RulePair.left).map placedContent =
      ((bookPairs prev next .off).filterMap RulePair.right).map placedContent := by
    rw [List.map_filterMap, List.map_filterMap]
    refine List.filterMap_congr fun x hx => ?_
    obtain ⟨p, n, rfl, heq⟩ := h x hx
    simp [RulePair.left, RulePair.right, heq]
  refine same_content_of_perm ?_
  calc ((placed prev).map placedContent).Perm
        (((bookPairs prev next .off).filterMap RulePair.left).map placedContent) :=
        ((file_once prev next .off).map _).symm
    _ = ((bookPairs prev next .off).filterMap RulePair.right).map placedContent := hsides
    List.Perm _ ((placed next).map placedContent) := (service_once prev next .off).map _

theorem group_keys_perm (h : SameContent prev next) (k : IdentityKey) :
    ((groupOf prev .off k).map placedKey).Perm ((groupOf next .off k).map placedKey) := by
  have hgroup (book : CanonicalRuleBook) : (groupOf book .off k).map placedKey =
      (((placed book).map placedContent).filter fun p =>
        ruleIdentityKeyUnder p.1 .off == k).map placedKey := by
    rw [List.filter_map, List.map_map]
    rfl
  rw [hgroup, hgroup]
  exact ((placed_content_perm h).filter _).map _

theorem no_changes_of_same_content (hp : KeyedOnce prev) (hn : KeyedOnce next)
    (h : SameContent prev next) : computeRuleChanges prev next = [] := by
  rw [no_changes_iff]
  intro x hx
  obtain ⟨k, -, hk⟩ := List.mem_flatMap.mp hx
  have hleft : ((groupOf prev .off k).map placedKey).Nodup :=
    (List.filter_sublist.map _).nodup (placed_keys_nodup hp)
  have hright : ((groupOf next .off k).map placedKey).Nodup :=
    (List.filter_sublist.map _).nodup (placed_keys_nodup hn)
  obtain ⟨p, n, rfl, hkey⟩ := exact_matched hleft hright (group_keys_perm h k) x hk
  refine ⟨p, n, rfl, ?_⟩
  -- the rule with the previous one's content is the one with its key
  have hpm : p ∈ placed prev :=
    (file_once prev next .off).subset (List.mem_filterMap.mpr ⟨_, hx, rfl⟩)
  have hnm : n ∈ placed next :=
    (service_once prev next .off).subset (List.mem_filterMap.mpr ⟨_, hx, rfl⟩)
  obtain ⟨m, hm, hmp⟩ :=
    List.mem_map.mp ((placed_content_perm h).subset (List.mem_map_of_mem hpm))
  have hmn : m = n := List.inj_on_of_nodup_map (placed_keys_nodup hn) hm hnm
    ((key_of_content hmp).trans hkey)
  rw [← hmp, hmn]

end

/-- The change concerns exactly the rules of this pair. -/
inductive Concerns : RuleChange → RulePair → Prop
  | added (n : Placed) : Concerns (.added n.1 n.2) (.rightOnly n)
  | removed (p : Placed) : Concerns (.removed p.1 p.2) (.leftOnly p)
  | modified (p n : Placed) (h : p.2 = n.2) : Concerns (.modified p.1 n.1 n.2) (.both p n)
  | retargeted (p n : Placed) (h : p.2 ≠ n.2) : Concerns (.retargeted n.1 p.2 n.2) (.both p n)

theorem change_concerns {x : RulePair} {c : RuleChange} (h : changeOf x = some c) :
    Concerns c x := by
  cases x with
  | leftOnly p =>
    obtain rfl := Option.some.inj h
    exact .removed p
  | rightOnly n =>
    obtain rfl := Option.some.inj h
    exact .added n
  | both p n =>
    rw [changeOf] at h
    split at h
    · rename_i hroute
      obtain rfl := Option.some.inj h
      exact .retargeted p n hroute
    · rename_i hroute
      split at h
      · obtain rfl := Option.some.inj h
        exact .modified p n (by simpa using hroute)
      · cases h

theorem changes_from_pairs (pairs : List RulePair) :
    ∃ sub, sub.Sublist pairs ∧ List.Forall₂ Concerns (pairs.filterMap changeOf) sub := by
  induction pairs with
  | nil => exact ⟨[], List.Sublist.refl _, .nil⟩
  | cons x pairs ih =>
    obtain ⟨sub, hsub, hall⟩ := ih
    cases h : changeOf x with
    | none => exact ⟨sub, hsub.cons _, by rwa [List.filterMap_cons_none h]⟩
    | some c =>
      refine ⟨x :: sub, hsub.cons_cons _, ?_⟩
      rw [List.filterMap_cons_some h]
      exact .cons (change_concerns h) hall

theorem change_counts (pairs : List RulePair) :
    (pairs.filterMap RulePair.left).length + (pairs.filterMap changeOf).countP RuleChange.isAdded =
      (pairs.filterMap RulePair.right).length +
        (pairs.filterMap changeOf).countP RuleChange.isRemoved := by
  induction pairs with
  | nil => rfl
  | cons x pairs ih =>
    cases x with
    | leftOnly _ | rightOnly _ =>
      simp only [List.filterMap_cons, RulePair.left, RulePair.right, changeOf, List.length_cons,
        List.countP_cons, RuleChange.isAdded, RuleChange.isRemoved, reduceIte,
        Bool.false_eq_true]
      omega
    | both p n =>
      have hneither : ∀ c ∈ changeOf (.both p n), c.isAdded = false ∧ c.isRemoved = false := by
        intro c hc
        cases change_concerns hc <;> exact ⟨rfl, rfl⟩
      rw [List.filterMap_cons_some (f := RulePair.left) rfl,
        List.filterMap_cons_some (f := RulePair.right) rfl]
      cases h : changeOf (.both p n) with
      | none =>
        rw [List.filterMap_cons_none h]
        simp only [List.length_cons]
        omega
      | some c =>
        obtain ⟨ha, hr⟩ := hneither c h
        rw [List.filterMap_cons_some h]
        simp only [List.length_cons, List.countP_cons, ha, hr]
        omega

section
variable (prev next : CanonicalRuleBook)

theorem sorted_changes_from_pairs :
    ∃ sub, sub.Subperm (bookPairs prev next .off) ∧
      List.Forall₂ Concerns (sortBy changeOrder (computeRuleChanges prev next)) sub := by
  obtain ⟨sub, hsub, hall⟩ := changes_from_pairs (bookPairs prev next .off)
  rw [← changes_eq] at hall
  obtain ⟨sub', hall', hperm⟩ := List.perm_comp_forall₂ (sort_by_perm changeOrder _) hall
  exact ⟨sub', hperm.subperm.trans hsub.subperm, hall'⟩

theorem added_removed :
    (placed prev).length +
        (sortBy changeOrder (computeRuleChanges prev next)).countP RuleChange.isAdded =
      (placed next).length +
        (sortBy changeOrder (computeRuleChanges prev next)).countP RuleChange.isRemoved := by
  have h := change_counts (bookPairs prev next .off)
  rw [← changes_eq] at h
  rw [(sort_by_perm changeOrder _).countP_eq, (sort_by_perm changeOrder _).countP_eq,
    ← (file_once prev next .off).length_eq, ← (service_once prev next .off).length_eq]
  exact h

end

/-- The diff is exact. Between books whose sets hold a key once it is empty exactly when they say
the same; and between any two books its changes have distinct pairs of a pairing that holds each
rule of either side once, so the totals differ by what was added and what was removed. -/
theorem review_diff_exact (prev : Option CanonicalProfile) (next : CanonicalProfile) :
    let before := (prev.map CanonicalProfile.ruleBook).getD emptyBook
    let diff := computeDiff prev next
    let added := diff.ruleChanges.countP RuleChange.isAdded
    let removed := diff.ruleChanges.countP RuleChange.isRemoved
    (KeyedOnce before → KeyedOnce next.ruleBook →
      (diff.ruleChanges = [] ↔ SameContent before next.ruleBook)) ∧
    (∃ pairs sub : List RulePair,
      (pairs.filterMap RulePair.left).Perm (placed before) ∧
      (pairs.filterMap RulePair.right).Perm (placed next.ruleBook) ∧
      sub.Subperm pairs ∧ List.Forall₂ Concerns diff.ruleChanges sub) ∧
    (added : ℤ) - removed = (placed next.ruleBook).length - (placed before).length ∧
    (added : ℤ) - removed ≡ diff.nextTotalRules - diff.prevTotalRules [ZMOD 2 ^ 32] := by
  intro before diff added removed
  have hcount : (placed before).length + added = (placed next.ruleBook).length + removed :=
    added_removed before next.ruleBook
  have hexact : (added : ℤ) - removed = (placed next.ruleBook).length - (placed before).length := by
    omega
  refine ⟨fun hb hn => ?_, ?_, hexact, ?_⟩
  · have hperm : diff.ruleChanges.Perm (computeRuleChanges before next.ruleBook) :=
      sort_by_perm changeOrder _
    constructor
    · intro h
      rw [h] at hperm
      exact same_content_of_no_changes hperm.nil_eq.symm
    · intro h
      rw [no_changes_of_same_content hb hn h] at hperm
      exact hperm.eq_nil
  · obtain ⟨sub, hsub, hall⟩ := sorted_changes_from_pairs before next.ruleBook
    exact ⟨_, sub, file_once _ _ _, service_once _ _ _, hsub, hall⟩
  · rw [hexact]
    show _ ≡ (asU32 (placed next.ruleBook).length : ℤ) - asU32 (placed before).length [ZMOD _]
    simp only [asU32, Int.natCast_emod]
    exact ((Int.mod_modEq _ _).sub (Int.mod_modEq _ _)).symm

def toolProfile (book : CanonicalRuleBook) : CanonicalProfile := ⟨[], none, .preferPrimary, book⟩

def movedBook : CanonicalRuleBook := bookOf [toolRule "R-0001" false] [toolRule "R-0002" true]

/-- Of two rules of one program the second moves to the other route. -/
theorem moved_tool_is_a_change :
    (computeDiff (some (toolProfile toolBook)) (toolProfile movedBook)).ruleChanges ≠ [] ∧
      ((computeDiff (some (toolProfile toolBook)) (toolProfile movedBook)).ruleChanges = [] ↔
        SameContent toolBook movedBook) :=
  ⟨by decide +kernel,
    (review_diff_exact (some (toolProfile toolBook)) (toolProfile movedBook)).1
      (by intro role; cases role <;> decide +kernel)
      (by intro role; cases role <;> decide +kernel)⟩

end NetRuleRouter.ReviewDiff
