import NetRuleRouter.Merge

/-!
# Duplicates within a set

Of the rules of one set that match the same, the first is kept, or the first
plain one where it waits for a check. Which of them stays can depend on the
order of the lines, and with it whether the override is asked for: the match
does not tell such rules apart.
-/

set_option autoImplicit false

namespace NetRuleRouter.LineOrder
open TextOps Canonical RulePairs
open RulePairs.MatchKey (withinSet)

structure DuplicateRuleInSameSet where
  keptRuleId : Text
  removedRuleId : Text
  role : RouteRole
  deriving DecidableEq

/-- A key met before is at its slot; a plain rule takes the slot of one that waits for a check. -/
def settleRule (role : RouteRole) (rule : CanonicalRule) :
    List CanonicalRule → List CanonicalRule × List DuplicateRuleInSameSet
  | [] => ([rule], [])
  | kept :: rest =>
    if withinSet kept = withinSet rule then
      if kept.action = .verify ∧ rule.action ≠ .verify then
        (rule :: rest, [⟨rule.id, kept.id, role⟩])
      else (kept :: rest, [⟨kept.id, rule.id, role⟩])
    else
      let later := settleRule role rule rest
      (kept :: later.1, later.2)

def deduplicateSet (rules : List CanonicalRule) (role : RouteRole) :
    List CanonicalRule × List DuplicateRuleInSameSet :=
  rules.foldl (fun done rule =>
    ((settleRule role rule done.1).1, done.2 ++ (settleRule role rule done.1).2)) ([], [])

/-- What a rule does; what it is called and who wrote it is left out. -/
structure SameBehaviour (r s : CanonicalRule) : Prop where
  enabled : r.enabled = s.enabled
  addressMatch : r.addressMatch = s.addressMatch
  appMatch : r.appMatch = s.appMatch
  action : r.action = s.action

/-- A rule of its key that may be kept: a plain one, or any where none is plain. -/
def MayStay (rules : List CanonicalRule) (r : CanonicalRule) : Prop :=
  r ∈ rules ∧ (r.action = .verify → ∀ s ∈ rules,
    withinSet s = withinSet r → s.action = .verify)

section
variable {role : RouteRole} {rule k r s : CanonicalRule} {rules kept others : List CanonicalRule}

def takesSlot (rule kept : CanonicalRule) : CanonicalRule :=
  if withinSet kept = withinSet rule ∧ kept.action = .verify ∧
    rule.action ≠ .verify then rule else kept

theorem takes_slot_key (rule kept : CanonicalRule) :
    withinSet (takesSlot rule kept) = withinSet kept := by
  unfold takesSlot
  split_ifs with h
  · exact h.1.symm
  · rfl

theorem settle_rule_eq (h : (kept.map withinSet).Nodup) :
    (settleRule role rule kept).1 =
      if withinSet rule ∈ kept.map withinSet then kept.map (takesSlot rule)
      else kept ++ [rule] := by
  induction kept with
  | nil => rfl
  | cons held back ih =>
    rw [List.map_cons, List.nodup_cons] at h
    rw [settleRule, List.map_cons, List.map_cons]
    by_cases hkey : withinSet held = withinSet rule
    · have hback : back.map (takesSlot rule) = back := by
        refine (List.map_congr_left (g := id) fun k hk => if_neg fun hslot => h.1 ?_).trans
          (List.map_id back)
        rw [hkey, ← hslot.1]
        exact List.mem_map_of_mem hk
      have hin : withinSet rule ∈
          withinSet held :: back.map withinSet := by simp [hkey]
      rw [if_pos hkey, if_pos hin, hback]
      simp only [takesSlot, hkey, true_and]
      split_ifs <;> rfl
    · have hheld : takesSlot rule held = held := if_neg fun hslot => hkey hslot.1
      rw [if_neg hkey, hheld]
      simp only [ih h.2, List.mem_cons, Ne.symm hkey, false_or]
      split_ifs <;> rfl

structure KeptOf (rules kept : List CanonicalRule) : Prop where
  once : (kept.map withinSet).Nodup
  every : ∀ r ∈ rules, withinSet r ∈ kept.map withinSet
  mayStay : ∀ k ∈ kept, MayStay rules k

theorem may_stay_append (hk : MayStay rules k) (hrule : withinSet k =
    withinSet rule → k.action = .verify → rule.action = .verify) :
    MayStay (rules ++ [rule]) k := by
  refine ⟨List.mem_append_left _ hk.1, fun hv s hs hkey => ?_⟩
  rcases List.mem_append.mp hs with hs | hs
  · exact hk.2 hv s hs hkey
  · obtain rfl := List.mem_singleton.mp hs
    exact hrule hkey.symm hv

theorem kept_settle (h : KeptOf rules kept) (role : RouteRole) (rule : CanonicalRule) :
    KeptOf (rules ++ [rule]) (settleRule role rule kept).1 := by
  rw [settle_rule_eq h.once]
  split_ifs with hkey
  · have hkeys : (kept.map (takesSlot rule)).map withinSet =
        kept.map withinSet := by
      rw [List.map_map]
      exact List.map_congr_left fun k _ => takes_slot_key rule k
    refine ⟨hkeys ▸ h.once, fun r hr => ?_, fun k hk => ?_⟩
    · rw [hkeys]
      rcases List.mem_append.mp hr with hr | hr
      · exact h.every r hr
      · exact List.mem_singleton.mp hr ▸ hkey
    · obtain ⟨held, hheld, rfl⟩ := List.mem_map.mp hk
      by_cases hslot : withinSet held = withinSet rule ∧
          held.action = .verify ∧ rule.action ≠ .verify
      · rw [takesSlot, if_pos hslot]
        exact ⟨by simp, fun hv => absurd hv hslot.2.2⟩
      · rw [takesSlot, if_neg hslot]
        exact may_stay_append (h.mayStay held hheld) (by tauto)
  · refine ⟨?_, fun r hr => ?_, fun k hk => ?_⟩
    · rw [List.map_append, List.nodup_append]
      exact ⟨h.once, by simp, by simpa using hkey⟩
    · rw [List.map_append, List.mem_append]
      rcases List.mem_append.mp hr with hr | hr
      · exact .inl (h.every r hr)
      · exact .inr (by simp [List.mem_singleton.mp hr])
    · have hnew {s : CanonicalRule} (hs : s ∈ rules) :
          withinSet s ≠ withinSet rule := fun heq => hkey (heq ▸ h.every s hs)
      rcases List.mem_append.mp hk with hk | hk
      · exact may_stay_append (h.mayStay k hk) fun heq => absurd heq (hnew (h.mayStay k hk).1)
      · obtain rfl := List.mem_singleton.mp hk
        refine ⟨by simp, fun hv s hs heq => ?_⟩
        rcases List.mem_append.mp hs with hs | hs
        · exact absurd heq (hnew hs)
        · rw [List.mem_singleton.mp hs, hv]

theorem deduplicate_concat (rules : List CanonicalRule) (rule : CanonicalRule) (role : RouteRole) :
    (deduplicateSet (rules ++ [rule]) role).1 =
      (settleRule role rule (deduplicateSet rules role).1).1 := by
  simp [deduplicateSet]

theorem deduplicate_kept (rules : List CanonicalRule) (role : RouteRole) :
    KeptOf rules (deduplicateSet rules role).1 := by
  induction rules using List.reverseRecOn with
  | nil => exact ⟨by simp [deduplicateSet], by simp, by simp [deduplicateSet]⟩
  | append_singleton rules rule ih =>
    rw [deduplicate_concat]
    exact kept_settle ih role rule

theorem first_stays (h : MayStay (r :: rules) r) (role : RouteRole) :
    r ∈ (deduplicateSet (r :: rules) role).1 := by
  induction rules using List.reverseRecOn with
  | nil => simp [deduplicateSet, settleRule]
  | append_singleton rules rule ih =>
    have hin := ih ⟨by simp, fun hv s hs => h.2 hv s (List.mem_append_left [rule] hs)⟩
    rw [← List.cons_append, deduplicate_concat, settle_rule_eq (deduplicate_kept _ _).once]
    split_ifs
    · refine List.mem_map.mpr ⟨r, hin, if_neg fun hslot => hslot.2.2 ?_⟩
      exact h.2 hslot.2.1 rule (by simp) hslot.1.symm
    · exact List.mem_append_left _ hin

theorem within_set_eq (r : CanonicalRule) : withinSet r =
    { MatchKey.fromRule r with action := if r.action = .verify then .route else r.action } := by
  by_cases h : r.action = .verify <;> simp [withinSet, MatchKey.fromRule, h]

theorem same_behaviour (hkey : withinSet r = withinSet s)
    (hwaits : r.action = .verify ↔ s.action = .verify) (hask : r.appOverride = s.appOverride) :
    SameBehaviour r s := by
  simp only [within_set_eq, MatchKey.fromRule, MatchKey.mk.injEq, hwaits] at hkey
  obtain ⟨haddress, hpattern, hchildren, haction, henabled⟩ := hkey
  refine ⟨henabled, haddress, ?_, ?_⟩
  · unfold CanonicalRule.appOverride at hask
    rcases hr : r.appMatch with _ | ⟨_, _, _⟩ <;> rcases hs : s.appMatch with _ | ⟨_, _, _⟩ <;>
      simp_all
  · split_ifs at haction with hs
    · rw [hwaits.mpr hs, hs]
    · exact haction

theorem may_stay_perm (h : others.Perm rules) : MayStay others r ↔ MayStay rules r := by
  simp only [MayStay, h.mem_iff]

end

/-- The order of the lines changes nothing a kept rule does just where the rules that may be kept
for one key ask for the same override. -/
theorem line_order_settled_iff (rules : List CanonicalRule) (role : RouteRole) :
    (∀ others, others.Perm rules →
      ((deduplicateSet others role).1.map withinSet).Nodup ∧
      (∀ r ∈ rules, ∃ k ∈ (deduplicateSet others role).1,
        withinSet k = withinSet r ∧ (r.action ≠ .verify → k.action ≠ .verify)) ∧
      (∀ k ∈ (deduplicateSet others role).1, k ∈ rules) ∧
      ∀ k ∈ (deduplicateSet others role).1, ∀ k' ∈ (deduplicateSet rules role).1,
        withinSet k = withinSet k' → SameBehaviour k k') ↔
    ∀ r s, MayStay rules r → MayStay rules s → withinSet r = withinSet s →
      r.appOverride = s.appOverride := by
  constructor
  · intro h r s hr hs hkey
    have hfirst {x : CanonicalRule} (hx : MayStay rules x) :
        ∃ others, others.Perm rules ∧ x ∈ (deduplicateSet others role).1 := by
      have hperm : (x :: rules.erase x).Perm rules := (List.perm_cons_erase hx.1).symm
      exact ⟨_, hperm, first_stays ((may_stay_perm hperm).mpr hx) role⟩
    obtain ⟨left, hleft, hr'⟩ := hfirst hr
    obtain ⟨right, hright, hs'⟩ := hfirst hs
    obtain ⟨k, hk, hkr⟩ := List.mem_map.mp ((deduplicate_kept rules role).every r hr.1)
    have hrk := (h left hleft).2.2.2 r hr' k hk hkr.symm
    have hsk := (h right hright).2.2.2 s hs' k hk (hkey.symm.trans hkr.symm)
    rw [CanonicalRule.appOverride, hrk.appMatch, ← hsk.appMatch, CanonicalRule.appOverride]
  · intro h others hperm
    have hkept := deduplicate_kept others role
    have hstays (k : CanonicalRule) (hk : k ∈ (deduplicateSet others role).1) : MayStay rules k :=
      (may_stay_perm hperm).mp (hkept.mayStay k hk)
    refine ⟨hkept.once, fun r hr => ?_, fun k hk => (hstays k hk).1, fun k hk k' hk' hkey => ?_⟩
    · obtain ⟨k, hk, hkr⟩ := List.mem_map.mp (hkept.every r (hperm.mem_iff.mpr hr))
      exact ⟨k, hk, hkr, fun hplain hv => hplain ((hstays k hk).2 hv r hr hkr.symm)⟩
    · have hk'' := (deduplicate_kept rules role).mayStay k' hk'
      refine same_behaviour hkey ⟨fun hv => ?_, fun hv => ?_⟩ (h k k' (hstays k hk) hk'' hkey)
      · exact (hstays k hk).2 hv k' hk''.1 hkey.symm
      · exact hk''.2 hv k (hstays k hk).1 hkey

/-- One program named twice, once with the request for an override. -/
theorem override_left_to_line_order :
    let plain : CanonicalRule :=
      ⟨[], true, none, some ⟨.exact "a.exe".toList, false, false⟩, [], .block, none⟩
    let asking : CanonicalRule := { plain with appMatch := some ⟨.exact "a.exe".toList, false, true⟩ }
    (deduplicateSet [plain, asking] .primary).1 = [plain] ∧
      (deduplicateSet [asking, plain] .primary).1 = [asking] := by
  decide

end NetRuleRouter.LineOrder
