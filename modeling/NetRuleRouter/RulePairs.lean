import NetRuleRouter.Canonical
import NetRuleRouter.GreedyPairing

/-!
# Which rule of one book is which rule of another

Rules of two books are grouped by the traffic they match and paired inside a
group, the closest pair first. A group may hold several rules, and each must
survive as itself.
-/

set_option autoImplicit false

namespace NetRuleRouter.RulePairs
open Sorting Canonical GreedyPairing

inductive SubdomainCoverage where
  | off
  | on
  deriving DecidableEq, Repr

/-- The traffic a rule matches, whatever its route, action and flags. -/
structure IdentityKey where
  address : Option CanonicalAddressMatch
  program : Option CanonicalAppPattern
  deriving DecidableEq

def ruleIdentityKeyUnder (r : CanonicalRule) (coverage : SubdomainCoverage) : IdentityKey where
  address :=
    match coverage, r.addressMatch with
    | .on, some (.exactFqdn d) => some (.suffixDomain d)
    | _, other => other
  program := r.appMatch.map CanonicalAppMatch.pattern

def ruleAttributesDiffer (prev next : CanonicalRule) : Bool :=
  let flags := fun r : CanonicalRule =>
    r.appMatch.map fun m => (m.includeChildProcesses, m.overrideRequested)
  prev.enabled != next.enabled || prev.comment != next.comment || prev.action != next.action ||
    flags prev != flags next

structure MatchKey where
  address : Option CanonicalAddressMatch
  appPattern : Option CanonicalAppPattern
  appChildren : Option Bool
  action : RuleAction
  enabled : Bool
  deriving DecidableEq

def MatchKey.fromRule (r : CanonicalRule) : MatchKey where
  address := r.addressMatch
  appPattern := r.appMatch.map CanonicalAppMatch.pattern
  appChildren := r.appMatch.map CanonicalAppMatch.includeChildProcesses
  action := r.action
  enabled := r.enabled

def MatchKey.withinSet (r : CanonicalRule) : MatchKey :=
  let key := fromRule r
  if key.action = .verify then { key with action := .route } else key

abbrev Placed := CanonicalRule × RouteRole

def affinity (l r : Placed) : ℕ :=
  8 * (MatchKey.fromRule l.1 == MatchKey.fromRule r.1).toNat + 4 * (l.2 == r.2).toNat +
    2 * (l.1.action == r.1.action).toNat + (l.1.enabled == r.1.enabled).toNat

section
variable (left right : List Placed)

def affinityAt (i j : ℕ) : ℕ :=
  match left[i]?, right[j]? with
  | some l, some r => affinity l r
  | _, _ => 0

def pairing : Pairing ℕ ℕ :=
  pairUp (affinityAt left right) left.length (List.range left.length) (List.range right.length)

/-- The pairs in the order of the left side, then what is left over on either side. -/
def pairIdentityGroup : List (Option ℕ × Option ℕ) :=
  let p := pairing left right
  (sortBy (compareOn Prod.fst) p.paired).map (fun e => (some e.1, some e.2)) ++
    p.left.map (fun i => (some i, none)) ++ p.right.map fun j => (none, some j)

end

variable {e : ℕ × ℕ} {l r : Placed} {x : Option ℕ}

section
variable {left right : List Placed}

theorem mem_pair_identity_group {x : Option ℕ × Option ℕ} :
    x ∈ pairIdentityGroup left right ↔
      (∃ e ∈ (pairing left right).paired, (some e.1, some e.2) = x) ∨
      (∃ i ∈ (pairing left right).left, (some i, none) = x) ∨
      ∃ j ∈ (pairing left right).right, (none, some j) = x := by
  simp [pairIdentityGroup]

theorem pairing_left_perm : ((pairing left right).paired.map Prod.fst ++
    (pairing left right).left).Perm (List.range left.length) :=
  (pair_up_perm _ _ _).1

theorem pairing_right_perm : ((pairing left right).paired.map Prod.snd ++
    (pairing left right).right).Perm (List.range right.length) :=
  (pair_up_perm _ _ _).2

theorem pairing_left_nodup :
    ((pairing left right).paired.map Prod.fst ++ (pairing left right).left).Nodup :=
  pairing_left_perm.nodup_iff.mpr List.nodup_range

theorem pairing_right_nodup :
    ((pairing left right).paired.map Prod.snd ++ (pairing left right).right).Nodup :=
  pairing_right_perm.nodup_iff.mpr List.nodup_range

theorem left_once (he : e ∈ (pairing left right).paired)
    (hx : (some e.1, x) ∈ pairIdentityGroup left right) : x = some e.2 := by
  have hnodup := List.nodup_append.mp (@pairing_left_nodup left right)
  have hfst : e.1 ∈ (pairing left right).paired.map Prod.fst := List.mem_map_of_mem he
  rcases mem_pair_identity_group.mp hx with ⟨d, hd, heq⟩ | ⟨i, hi, heq⟩ | ⟨j, -, heq⟩
  · simp only [Prod.mk.injEq, Option.some.injEq] at heq
    rw [← heq.2, List.inj_on_of_nodup_map hnodup.1 hd he heq.1]
  · simp only [Prod.mk.injEq, Option.some.injEq] at heq
    exact (hnodup.2.2 _ hfst _ hi heq.1.symm).elim
  · simp at heq

theorem right_once (he : e ∈ (pairing left right).paired)
    (hx : (x, some e.2) ∈ pairIdentityGroup left right) : x = some e.1 := by
  have hnodup := List.nodup_append.mp (@pairing_right_nodup left right)
  have hsnd : e.2 ∈ (pairing left right).paired.map Prod.snd := List.mem_map_of_mem he
  rcases mem_pair_identity_group.mp hx with ⟨d, hd, heq⟩ | ⟨i, -, heq⟩ | ⟨j, hj, heq⟩
  · simp only [Prod.mk.injEq, Option.some.injEq] at heq
    rw [← heq.1, List.inj_on_of_nodup_map hnodup.1 hd he heq.2]
  · simp at heq
  · simp only [Prod.mk.injEq, Option.some.injEq] at heq
    exact (hnodup.2.2 _ hsnd _ hj heq.2.symm).elim

/-- A pair that is closer than any other of either of its rules is made. -/
theorem closest_paired {i j : ℕ} (hl : left[i]? = some l) (hr : right[j]? = some r)
    (hleft : ∀ i' l', left[i']? = some l' → i' ≠ i → affinity l' r < affinity l r)
    (hright : ∀ j' r', right[j']? = some r' → j' ≠ j → affinity l r' < affinity l r) :
    (i, j) ∈ (pairing left right).paired := by
  have hi := (List.getElem?_eq_some_iff.mp hl).1
  have hj := (List.getElem?_eq_some_iff.mp hr).1
  refine mutual_best_paired _ _ _ (by simp) (List.mem_range.mpr hi) (List.mem_range.mpr hj) ?_ ?_
  · intro i' hi' hne
    have hl' := List.getElem?_eq_getElem (List.mem_range.mp hi')
    rw [affinityAt, affinityAt, hl, hr, hl']
    exact hleft i' _ hl' hne
  · intro j' hj' hne
    have hr' := List.getElem?_eq_getElem (List.mem_range.mp hj')
    rw [affinityAt, affinityAt, hl, hr, hr']
    exact hright j' _ hr' hne

theorem paired_in_range (he : e ∈ (pairing left right).paired) :
    e.1 < left.length ∧ e.2 < right.length :=
  ⟨List.mem_range.mp (pairing_left_perm.subset
      (List.mem_append_left _ (List.mem_map_of_mem he))),
    List.mem_range.mp (pairing_right_perm.subset
      (List.mem_append_left _ (List.mem_map_of_mem he)))⟩

theorem paired_sorted :
    (sortBy (compareOn Prod.fst) (pairing left right).paired).Perm (pairing left right).paired :=
  sort_by_perm _ _

end

/-- Two rules that are one, or a rule without a counterpart. -/
inductive RulePair where
  | both (l r : Placed)
  | leftOnly (l : Placed)
  | rightOnly (r : Placed)

def RulePair.left : RulePair → Option Placed
  | .both l _ | .leftOnly l => some l
  | .rightOnly _ => none

def RulePair.right : RulePair → Option Placed
  | .both _ r | .rightOnly r => some r
  | .leftOnly _ => none

section
variable {left right : List Placed}

def pairOf (left right : List Placed) : Option ℕ × Option ℕ → Option RulePair
  | (some i, some j) => left[i]?.bind fun l => right[j]?.map fun r => .both l r
  | (some i, none) => left[i]?.map .leftOnly
  | (none, some j) => right[j]?.map .rightOnly
  | (none, none) => none

def matchedPairs (left right : List Placed) : List RulePair :=
  (pairIdentityGroup left right).filterMap (pairOf left right)

theorem matched_pairs_eq : matchedPairs left right =
    (sortBy (compareOn Prod.fst) (pairing left right).paired).filterMap
      (fun e => left[e.1]?.bind fun l => right[e.2]?.map fun r => .both l r) ++
    (pairing left right).left.filterMap (fun i => left[i]?.map .leftOnly) ++
    (pairing left right).right.filterMap (fun j => right[j]?.map .rightOnly) := by
  simp [matchedPairs, pairIdentityGroup, List.filterMap_append, List.filterMap_map,
    Function.comp_def, pairOf]

theorem filter_map_get_range (l : List Placed) :
    (List.range l.length).filterMap (l[·]?) = l := by
  have hmap : (List.range l.length).map (l[·]?) = l.map some := by
    refine List.ext_getElem (by simp) fun i hi hi' => ?_
    simp
  calc (List.range l.length).filterMap (l[·]?)
      = ((List.range l.length).map (l[·]?)).filterMap id := by rw [List.filterMap_map]; rfl
    _ = l := by rw [hmap, List.filterMap_map]; exact List.filterMap_some

theorem paired_rules (he : e ∈ sortBy (compareOn Prod.fst) (pairing left right).paired) :
    ∃ l r, left[e.1]? = some l ∧ right[e.2]? = some r := by
  obtain ⟨hl, hr⟩ := paired_in_range ((mem_sort_by _ _ _).mp he)
  exact ⟨left[e.1], right[e.2], List.getElem?_eq_getElem hl, List.getElem?_eq_getElem hr⟩

theorem matched_left_perm : ((matchedPairs left right).filterMap RulePair.left).Perm left := by
  have hpairs : (matchedPairs left right).filterMap RulePair.left =
      ((sortBy (compareOn Prod.fst) (pairing left right).paired).map Prod.fst ++
        (pairing left right).left).filterMap (left[·]?) := by
    rw [matched_pairs_eq]
    simp only [List.filterMap_append, List.filterMap_filterMap, List.filterMap_map]
    rw [List.append_assoc]
    refine congrArg₂ _ (List.filterMap_congr fun e he => ?_) ?_
    · obtain ⟨l, r, hl, hr⟩ := paired_rules he
      simp [hl, hr, RulePair.left]
    · have hright : (pairing left right).right.filterMap
          (fun j => (right[j]?.map RulePair.rightOnly).bind RulePair.left) = [] := by
        refine List.filterMap_eq_nil_iff.mpr fun j _ => ?_
        cases right[j]? <;> rfl
      rw [hright, List.append_nil]
      refine List.filterMap_congr fun i _ => ?_
      cases left[i]? <;> rfl
  have hperm : ((sortBy (compareOn Prod.fst) (pairing left right).paired).map Prod.fst ++
      (pairing left right).left).Perm (List.range left.length) :=
    ((paired_sorted.map _).append_right _).trans pairing_left_perm
  rw [hpairs]
  exact (hperm.filterMap _).trans (List.Perm.of_eq (filter_map_get_range left))

theorem matched_right_perm : ((matchedPairs left right).filterMap RulePair.right).Perm right := by
  have hpairs : (matchedPairs left right).filterMap RulePair.right =
      ((sortBy (compareOn Prod.fst) (pairing left right).paired).map Prod.snd ++
        (pairing left right).right).filterMap (right[·]?) := by
    rw [matched_pairs_eq]
    simp only [List.filterMap_append, List.filterMap_filterMap, List.filterMap_map]
    have hleft : (pairing left right).left.filterMap
        (fun i => (left[i]?.map RulePair.leftOnly).bind RulePair.right) = [] := by
      refine List.filterMap_eq_nil_iff.mpr fun i _ => ?_
      cases left[i]? <;> rfl
    rw [hleft, List.append_nil]
    refine congrArg₂ _ (List.filterMap_congr fun e he => ?_)
      (List.filterMap_congr fun j _ => ?_)
    · obtain ⟨l, r, hl, hr⟩ := paired_rules he
      simp [hl, hr, RulePair.right]
    · cases right[j]? <;> rfl
  have hperm : ((sortBy (compareOn Prod.fst) (pairing left right).paired).map Prod.snd ++
      (pairing left right).right).Perm (List.range right.length) :=
    ((paired_sorted.map _).append_right _).trans pairing_right_perm
  rw [hpairs]
  exact (hperm.filterMap _).trans (List.Perm.of_eq (filter_map_get_range right))

theorem matched_exhausts :
    (∀ x ∈ matchedPairs left right, x.left.isSome = true) ∨
      ∀ x ∈ matchedPairs left right, x.right.isSome = true := by
  have hexhaust : (pairing left right).left = [] ∨ (pairing left right).right = [] :=
    pair_up_exhausts _ _ _ (by simp)
  rw [matched_pairs_eq]
  refine hexhaust.symm.imp (fun h x hx => ?_) fun h x hx => ?_
  -- what is left is made of pairs and of rules of the one side
  all_goals
    rw [h, List.filterMap_nil, List.append_nil] at hx
    rcases List.mem_append.mp hx with hx | hx
    · obtain ⟨e, he, hxe⟩ := List.mem_filterMap.mp hx
      obtain ⟨l, r, hl, hr⟩ := paired_rules he
      simp only [hl, hr, Option.bind_some, Option.map_some, Option.some.injEq] at hxe
      rw [← hxe]
      rfl
    · obtain ⟨i, -, hxi⟩ := List.mem_filterMap.mp hx
      obtain ⟨l, -, rfl⟩ := Option.map_eq_some_iff.mp hxi
      rfl

theorem matched_length : (matchedPairs left right).length = max left.length right.length := by
  have hleft := (@matched_left_perm left right).length_eq
  have hright := (@matched_right_perm left right).length_eq
  have hlemax := List.length_filterMap_le RulePair.left (matchedPairs left right)
  have hremax := List.length_filterMap_le RulePair.right (matchedPairs left right)
  rcases @matched_exhausts left right with h | h
  · have := List.filterMap_length_eq_length.mpr h
    omega
  · have := List.filterMap_length_eq_length.mpr h
    omega

theorem affinity_bound (l r : Placed) : affinity l r ≤ 15 ∧
    (affinity l r = 15 → MatchKey.fromRule l.1 = MatchKey.fromRule r.1 ∧ l.2 = r.2) := by
  have h0 := Bool.toNat_le (MatchKey.fromRule l.1 == MatchKey.fromRule r.1)
  have h1 := Bool.toNat_le (l.2 == r.2)
  have h2 := Bool.toNat_le (l.1.action == r.1.action)
  have h3 := Bool.toNat_le (l.1.enabled == r.1.enabled)
  rw [affinity]
  refine ⟨by omega, fun h => ?_⟩
  have hkey : (MatchKey.fromRule l.1 == MatchKey.fromRule r.1).toNat = 1 := by omega
  have hroute : (l.2 == r.2).toNat = 1 := by omega
  rw [Bool.toNat_eq_one, beq_iff_eq] at hkey hroute
  exact ⟨hkey, hroute⟩

theorem affinity_self (l : Placed) : affinity l l = 15 := by simp [affinity]

theorem matched_self (l : List Placed) : matchedPairs l l = l.map fun p => .both p p := by
  have hself : pairing l l = ⟨(List.range l.length).map fun i => (i, i), [], []⟩ := by
    refine pair_up_self _ _ (by simp) fun k hk i hi j hj => ?_
    have hget (n : ℕ) (hn : n ∈ List.range l.length) := List.getElem?_eq_getElem (List.mem_range.mp hn)
    rw [affinityAt, affinityAt, hget i hi, hget j hj, hget k hk]
    exact (affinity_bound _ _).1.trans_eq (affinity_self _).symm
  have hsorted : sortBy (compareOn Prod.fst) ((List.range l.length).map fun i => (i, i)) =
      (List.range l.length).map fun i => (i, i) := by
    refine sort_by_of_sorted _ _ (List.pairwise_map.mpr ?_)
    refine List.pairwise_lt_range.imp fun h => ?_
    simp [InOrder, compareOn, Nat.isLE_compare, h.le]
  rw [matched_pairs_eq, hself, hsorted]
  simp only [List.filterMap_map, List.filterMap_nil, List.append_nil]
  calc _ = ((List.range l.length).filterMap (l[·]?)).map fun p => RulePair.both p p := by
        rw [List.map_filterMap]
        refine List.filterMap_congr fun i _ => ?_
        cases h : l[i]? <;> simp [h]
    _ = l.map fun p => .both p p := by rw [filter_map_get_range]

end

end NetRuleRouter.RulePairs
