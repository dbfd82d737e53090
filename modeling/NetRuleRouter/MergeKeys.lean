import NetRuleRouter.MergeAccounts

/-!
# What a conflict is picked by

A conflict's key is its group and, in a group of several rules, the spelling,
action and route of the file's rule. Keys tell the conflicts of a file apart,
whatever the service holds, exactly when no set of the file spells a match
twice with one action.
-/

set_option autoImplicit false

namespace NetRuleRouter.MergeKeys
open TextOps Sorting Canonical RulePairs Merge MergeAccounts

/-- What a rule says but for its enabled state, flags and comment. -/
abbrev Spelling := Option CanonicalAddressMatch × Option CanonicalAppPattern × RuleAction

def spelling (r : CanonicalRule) : Spelling :=
  (r.addressMatch, r.appMatch.map CanonicalAppMatch.pattern, r.action)

/-- No route set spells a match twice with one action. -/
def SpelledOnce (book : CanonicalRuleBook) : Prop :=
  ∀ role, ((book.setFor role).rules.map spelling).Nodup

instance (book : CanonicalRuleBook) : Decidable (SpelledOnce book) :=
  decidable_of_iff ((book.primary.rules.map spelling).Nodup ∧
      (book.secondary.rules.map spelling).Nodup) <| by
    constructor
    · rintro ⟨hp, hs⟩ (_ | _)
      · exact hp
      · exact hs
    · intro h
      exact ⟨h .primary, h .secondary⟩

theorem identity_of_spelling {a b : CanonicalRule} (coverage : SubdomainCoverage)
    (h : spelling a = spelling b) :
    ruleIdentityKeyUnder a coverage = ruleIdentityKeyUnder b coverage := by
  simp only [spelling, Prod.mk.injEq] at h
  simp only [ruleIdentityKeyUnder, h.1, h.2.1]

section
variable {book book' : CanonicalRuleBook} {coverage : SubdomainCoverage}

theorem dimmed_spelling {before after : List CanonicalRule} (h : Dimmed before after) :
    (after.map spelling).Perm (before.map spelling) := by
  obtain ⟨f, hperm, hf⟩ := h
  refine (hperm.map _).trans (List.Perm.of_eq ?_)
  rw [List.map_map]
  refine List.map_congr_left fun r _ => ?_
  obtain ⟨e, he⟩ := hf r
  rw [Function.comp_apply, he]
  rfl

theorem normalized_spelled_once (keep : CrossSetKey → Bool) :
    SpelledOnce (normalizeCrossSetDuplicates book keep coverage).1 ↔ SpelledOnce book :=
  forall_congr' fun role => (dimmed_spelling (dimmed_normalized keep role)).nodup_iff

theorem group_length (key : IdentityKey) :
    (groupOf book coverage key).length =
      book.primary.rules.countP (fun r => ruleIdentityKeyUnder r coverage == key) +
        book.secondary.rules.countP fun r => ruleIdentityKeyUnder r coverage == key := by
  simp [groupOf, placed, ← List.countP_eq_length_filter, List.countP_map, Function.comp_def]

theorem dimmed_group_length
    (hd : ∀ role, Dimmed (book.setFor role).rules (book'.setFor role).rules) (g : IdentityKey) :
    (groupOf book' coverage g).length = (groupOf book coverage g).length := by
  have hside (role : RouteRole) :
      (book'.setFor role).rules.countP (fun r => ruleIdentityKeyUnder r coverage == g) =
        (book.setFor role).rules.countP fun r => ruleIdentityKeyUnder r coverage == g := by
    obtain ⟨f, hperm, hf⟩ := hd role
    rw [hperm.countP_eq, List.countP_map]
    refine List.countP_congr fun r _ => ?_
    obtain ⟨e, he⟩ := hf r
    rw [Function.comp_apply, he]
    rfl
  rw [group_length, group_length]
  exact congrArg₂ _ (hside .primary) (hside .secondary)

theorem nodup_map_of {α β γ : Type*} {l : List α} {f : α → β} {g : α → γ} (hg : (l.map g).Nodup)
    (h : ∀ a ∈ l, ∀ b ∈ l, f a = f b → g a = g b) : (l.map f).Nodup := by
  rw [List.Nodup, List.pairwise_map] at hg ⊢
  exact hg.imp_of_mem fun ha hb hne he => hne (h _ ha _ hb he)

theorem placed_keyed_nodup {κ : Type} {key : CanonicalRule → κ}
    (h : ∀ role, ((book.setFor role).rules.map key).Nodup) :
    ((placed book).map fun p => (key p.1, p.2)).Nodup := by
  rw [placed, List.map_append, List.map_map, List.map_map]
  refine List.Nodup.append ?_ ?_ ?_
  · exact nodup_map_of (h .primary) fun a _ b _ he => (Prod.mk.inj he).1
  · exact nodup_map_of (h .secondary) fun a _ b _ he => (Prod.mk.inj he).1
  · intro x hx hx'
    obtain ⟨a, -, rfl⟩ := List.mem_map.mp hx
    obtain ⟨b, -, hb⟩ := List.mem_map.mp hx'
    simp at hb

theorem group_keys_nodup (h : SpelledOnce book) (k : IdentityKey) {multi : Bool}
    (hmulti : multi = false → (groupOf book coverage k).length ≤ 1) :
    ((groupOf book coverage k).map (pairKey k multi)).Nodup := by
  cases multi with
  | false =>
    have hlen := hmulti rfl
    revert hlen
    rcases groupOf book coverage k with _ | ⟨p, _ | ⟨q, l⟩⟩
    · exact fun _ => List.nodup_nil
    · exact fun _ => List.nodup_singleton _
    · intro hlen
      simp at hlen
  | true =>
    have hgroup : ((groupOf book coverage k).map fun p => (spelling p.1, p.2)).Nodup :=
      (List.filter_sublist.map _).nodup (placed_keyed_nodup h)
    refine nodup_map_of hgroup fun a ha b hb he => ?_
    have hka : ruleIdentityKeyUnder a.1 coverage = k := beq_iff_eq.mp (List.mem_filter.mp ha).2
    have hkb : ruleIdentityKeyUnder b.1 coverage = k := beq_iff_eq.mp (List.mem_filter.mp hb).2
    have hprogram : a.1.appMatch.map CanonicalAppMatch.pattern =
        b.1.appMatch.map CanonicalAppMatch.pattern :=
      congrArg IdentityKey.program (hka.trans hkb.symm)
    simp only [pairKey, if_true, PairKey.mk.injEq, Option.some.injEq, Prod.mk.injEq,
      true_and] at he
    simp only [spelling, he, hprogram]

theorem spelled_once_of_groups {multi : IdentityKey → Bool}
    (hmulti : ∀ k, 1 < (groupOf book coverage k).length → multi k = true)
    (h : ∀ k, ((groupOf book coverage k).map (pairKey k (multi k))).Nodup) : SpelledOnce book := by
  intro role
  by_contra hdup
  obtain ⟨v, hv⟩ := List.exists_duplicate_iff_not_nodup.mpr hdup
  obtain ⟨l, hl, hlv⟩ := List.sublist_map_iff.mp (List.duplicate_iff_sublist.mp hv)
  obtain ⟨a, b, rfl, ha, hb⟩ : ∃ a b, l = [a, b] ∧ spelling a = v ∧ spelling b = v := by
    rcases l with _ | ⟨a, _ | ⟨b, _ | ⟨c, l⟩⟩⟩ <;> simp at hlv
    exact ⟨a, b, rfl, hlv.1.symm, hlv.2.symm⟩
  have hplaced : [(a, role), (b, role)].Sublist (placed book) := by
    cases role with
    | primary => exact (hl.map fun r => (r, RouteRole.primary)).trans (List.sublist_append_left _ _)
    | secondary =>
      exact (hl.map fun r => (r, RouteRole.secondary)).trans (List.sublist_append_right _ _)
  have hkey := identity_of_spelling coverage (hb.trans ha.symm)
  have hgroup : [(a, role), (b, role)].Sublist
      (groupOf book coverage (ruleIdentityKeyUnder a coverage)) := by
    have := hplaced.filter fun p => ruleIdentityKeyUnder p.1 coverage ==
      ruleIdentityKeyUnder a coverage
    simpa [hkey, groupOf] using this
  have hmany := hmulti _ hgroup.length_le
  have hnodup := (hgroup.map (pairKey (ruleIdentityKeyUnder a coverage) true)).nodup
    (hmany ▸ h (ruleIdentityKeyUnder a coverage))
  have hspell : spelling a = spelling b := ha.trans hb.symm
  simp only [spelling, Prod.mk.injEq] at hspell
  simp [pairKey, hspell] at hnodup

end

section
variable (policy : MergePolicy) (resolutions : PairKey → Option ConflictSide)
variable (k : IdentityKey) (multi : Bool)

def conflicts : RulePair → Bool
  | .both f s => !agrees f s
  | _ => false

theorem conflict_key (x : RulePair) :
    (entryOf policy resolutions k multi x).2.map MergeConflict.identityKey =
      if conflicts x then x.left.map (pairKey k multi) else none := by
  cases x with
  | leftOnly f | rightOnly s => rfl
  | both f s =>
    cases h : agrees f s with
    | true =>
      rw [entryOf, merge_pair_agreed _ h]
      simp [conflicts, h]
    | false =>
      obtain ⟨chosen, resolved, -, he⟩ := merge_pair_conflict (pairKey k multi f) h
      rw [entryOf, he]
      simp [conflicts, h, RulePair.left]

def conflictKeys (fg sg : List Placed) : List PairKey :=
  (((matchedPairs fg sg).map (entryOf policy resolutions k multi)).filterMap Prod.snd).map
    MergeConflict.identityKey

theorem conflict_keys_eq (fg sg : List Placed) : conflictKeys policy resolutions k multi fg sg =
    (((matchedPairs fg sg).filter conflicts).filterMap RulePair.left).map (pairKey k multi) := by
  rw [conflictKeys, List.filterMap_map, List.map_filterMap, List.map_filterMap,
    List.filterMap_filter]
  exact List.filterMap_congr fun x _ => conflict_key policy resolutions k multi x

theorem conflict_keys_sublist (fg sg : List Placed) :
    (conflictKeys policy resolutions k multi fg sg).Sublist
      (((matchedPairs fg sg).filterMap RulePair.left).map (pairKey k multi)) := by
  rw [conflict_keys_eq]
  exact (List.filter_sublist.filterMap _).map _

theorem conflict_keys_all {fg sg : List Placed} (hlen : fg.length = sg.length)
    (hdiffer : ∀ f ∈ fg, ∀ s ∈ sg, agrees f s = false) :
    (conflictKeys policy resolutions k multi fg sg).Perm (fg.map (pairKey k multi)) := by
  have hmatched := @matched_length fg sg
  rw [hlen, max_self] at hmatched
  have hboth : ∀ x ∈ matchedPairs fg sg, x.left.isSome = true ∧ x.right.isSome = true := by
    intro x hx
    have hl := (@matched_left_perm fg sg).length_eq
    have hr := (@matched_right_perm fg sg).length_eq
    exact ⟨List.filterMap_length_eq_length.mp (by omega) x hx,
      List.filterMap_length_eq_length.mp (by omega) x hx⟩
  have hall : (matchedPairs fg sg).filter conflicts = matchedPairs fg sg := by
    refine List.filter_eq_self.mpr fun x hx => ?_
    cases x with
    | leftOnly f => exact absurd (hboth _ hx).2 (by simp [RulePair.right])
    | rightOnly s => exact absurd (hboth _ hx).1 (by simp [RulePair.left])
    | both f s =>
      have hf : f ∈ fg := matched_left_perm.subset (List.mem_filterMap.mpr ⟨_, hx, rfl⟩)
      have hs : s ∈ sg := matched_right_perm.subset (List.mem_filterMap.mpr ⟨_, hx, rfl⟩)
      simp [conflicts, hdiffer f hf s hs]
  rw [conflict_keys_eq, hall]
  exact matched_left_perm.map _

end

section
variable (policy : MergePolicy) (resolutions : PairKey → Option ConflictSide)
variable (file service : CanonicalRuleBook) (coverage : SubdomainCoverage)

def severalIn (k : IdentityKey) : Bool :=
  1 < (groupOf file coverage k).length || 1 < (groupOf service coverage k).length

theorem conflicts_by_group :
    ((mergeEntries policy resolutions file service coverage).filterMap Prod.snd).map
        MergeConflict.identityKey =
      (groups file service coverage).flatMap fun k =>
        conflictKeys policy resolutions k (severalIn file service coverage k)
          (groupOf file coverage k) (groupOf service coverage k) := by
  rw [merge_entries_eq, List.filterMap_flatMap, List.map_flatMap]
  rfl

theorem conflict_key_group {k : IdentityKey} {multi : Bool} {fg sg : List Placed} {key : PairKey}
    (h : key ∈ conflictKeys policy resolutions k multi fg sg) : key.group = k := by
  have hmem := (conflict_keys_sublist policy resolutions k multi fg sg).subset h
  obtain ⟨p, -, rfl⟩ := List.mem_map.mp hmem
  rfl

theorem keys_distinct (h : SpelledOnce file) :
    (((mergeEntries policy resolutions file service coverage).filterMap Prod.snd).map
      MergeConflict.identityKey).Nodup := by
  rw [conflicts_by_group, List.nodup_flatMap]
  constructor
  · intro k _
    refine (conflict_keys_sublist policy resolutions k _ _ _).nodup ?_
    refine ((matched_left_perm.map _).nodup_iff).mpr (group_keys_nodup h k fun hmulti => ?_)
    have := (Bool.or_eq_false_iff.mp hmulti).1
    simpa using this
  · refine (groups_nodup file service coverage).imp fun hne => ?_
    intro key hkey hkey'
    exact hne ((conflict_key_group policy resolutions hkey).symm.trans
      (conflict_key_group policy resolutions hkey'))

variable {policy resolutions file service coverage}

theorem spelled_once_of_distinct
    (hsize : ∀ k, (groupOf file coverage k).length = (groupOf service coverage k).length)
    (hdiffer : ∀ f ∈ placed file, ∀ s ∈ placed service, agrees f s = false)
    (hnodup : (((mergeEntries policy resolutions file service coverage).filterMap Prod.snd).map
      MergeConflict.identityKey).Nodup) : SpelledOnce file := by
  rw [conflicts_by_group, List.nodup_flatMap] at hnodup
  refine @spelled_once_of_groups file coverage (severalIn file service coverage) ?_ fun k => ?_
  · intro k hk
    simp [severalIn, hk]
  · by_cases hk : k ∈ groups file service coverage
    · refine (conflict_keys_all policy resolutions k _ (hsize k) ?_).nodup_iff.mp (hnodup.1 k hk)
      exact fun f hf s hs => hdiffer f (List.mem_filter.mp hf).1 s (List.mem_filter.mp hs).1
    · have hempty : groupOf file coverage k = [] := by
        refine List.filter_eq_nil_iff.mpr fun p hp hkey => hk ?_
        rw [← beq_iff_eq.mp hkey]
        exact placed_key_mem file service coverage (Or.inl hp)
      rw [hempty]
      exact List.nodup_nil

end

section
variable (file : CanonicalRuleBook)

def freshComment : Text :=
  List.replicate ((file.allRules.map fun r => r.comment.length).sum + 1) 'x'

def recommented : CanonicalRuleBook :=
  bookOf (file.primary.rules.map fun r => { r with comment := freshComment file })
    (file.secondary.rules.map fun r => { r with comment := freshComment file })

variable {file} {r : CanonicalRule}

theorem comment_ne_fresh (h : r ∈ file.allRules) :
    r.comment ≠ freshComment file := by
  intro heq
  have hle : r.comment.length ≤ (file.allRules.map fun r => r.comment.length).sum :=
    List.le_sum_of_mem (List.mem_map_of_mem h)
  have hlen := congrArg List.length heq
  rw [freshComment, List.length_replicate] at hlen
  omega

theorem recommented_comment {role : RouteRole}
    (h : r ∈ ((recommented file).setFor role).rules) : r.comment = freshComment file := by
  cases role with
  | primary | secondary =>
    obtain ⟨a, -, rfl⟩ := List.mem_map.mp ((mem_from_rules _ _).mp h)
    rfl

variable {coverage : SubdomainCoverage} (keep : CrossSetKey → Bool)

theorem recommented_group (k : IdentityKey) :
    (groupOf (recommented file) coverage k).length = (groupOf file coverage k).length := by
  have hside (l : List CanonicalRule) :
      (CanonicalRuleSet.fromRules (l.map fun r => { r with comment := freshComment file })).rules.countP
        (fun r => ruleIdentityKeyUnder r coverage == k) =
      l.countP fun r => ruleIdentityKeyUnder r coverage == k := by
    rw [CanonicalRuleSet.fromRules, (sort_by_perm _ _).countP_eq, List.countP_map]
    rfl
  rw [group_length, group_length]
  exact congrArg₂ _ (hside file.primary.rules) (hside file.secondary.rules)

theorem normalized_comment {book : CanonicalRuleBook} {p : Placed}
    (h : p ∈ placed (normalizeCrossSetDuplicates book keep coverage).1) :
    ∃ r ∈ (book.setFor p.2).rules, p.1.comment = r.comment := by
  obtain ⟨f, hperm, hf⟩ := @dimmed_normalized book coverage keep p.2
  obtain ⟨r, hr, heq⟩ := List.mem_map.mp (hperm.subset (mem_placed.mp h))
  obtain ⟨e, he⟩ := hf r
  exact ⟨r, hr, by rw [← heq, he]⟩

theorem recommented_differs {f s : Placed}
    (hf : f ∈ placed (normalizeCrossSetDuplicates file keep coverage).1)
    (hs : s ∈ placed (normalizeCrossSetDuplicates (recommented file) keep coverage).1) :
    agrees f s = false := by
  obtain ⟨r, hr, hfr⟩ := normalized_comment keep hf
  obtain ⟨q, hq, hsq⟩ := normalized_comment keep hs
  have hne : f.1.comment ≠ s.1.comment := by
    rw [hfr, hsq, recommented_comment hq]
    exact comment_ne_fresh (mem_all_rules.mpr ⟨_, hr⟩)
  simp [agrees, ruleAttributesDiffer, hne]

end

/-- The keys of a file's conflicts are distinct, whatever the service, the policy and the picks,
exactly when no set of the file spells a match twice with one action. -/
theorem conflict_keys_distinct_iff (file : CanonicalRuleBook) (keep : CrossSetKey → Bool)
    (coverage : SubdomainCoverage) :
    (∀ (policy : MergePolicy) (resolutions : PairKey → Option ConflictSide)
      (service : CanonicalRuleBook),
      ((mergeRuleBooksWithResolutions policy resolutions file service keep coverage).conflicts.map
        MergeConflict.identityKey).Nodup) ↔ SpelledOnce file := by
  constructor
  · intro h
    refine (@normalized_spelled_once file coverage keep).mp ?_
    refine spelled_once_of_distinct (fun k => ?_) (fun f hf s hs => recommented_differs keep hf hs)
      (h .union (fun _ => none) (recommented file))
    rw [dimmed_group_length (dimmed_normalized keep), dimmed_group_length (dimmed_normalized keep),
      recommented_group]
  · intro h policy resolutions service
    exact keys_distinct policy resolutions _ _ coverage
      ((normalized_spelled_once keep).mpr h)

def nameRule (id : String) (enabled : Bool) (comment : String) : CanonicalRule :=
  ⟨id.toList, enabled, some (.exactFqdn "a.b".toList), none, comment.toList, .route, none⟩

/-- A name switched on and the same name switched off, each with another comment on the two
sides, share a key. -/
theorem two_conflicts_one_key :
    ¬ ((mergeRuleBooksWithResolutions .union (fun _ => none)
      (bookOf [nameRule "R-0001" true "file", nameRule "R-0002" false "file"] [])
      (bookOf [nameRule "R-0001" true "service", nameRule "R-0002" false "service"] [])
      (fun _ => false) .off).conflicts.map MergeConflict.identityKey).Nodup := by
  decide +kernel

end NetRuleRouter.MergeKeys
