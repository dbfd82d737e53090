import NetRuleRouter.Grouping
import NetRuleRouter.CanonicalOrder
import NetRuleRouter.SettledDuplicates

/-!
# A merge accounts for every rule

The entries of a merge are the pairs of the two normalised books, each rule
in one of them, and the merged book holds what the entries hold. Merging a
book with itself pairs every rule with itself and changes nothing.
-/

set_option autoImplicit false

namespace NetRuleRouter.MergeAccounts
open Sorting Grouping Canonical RulePairs Merge CanonicalOrder SettledDuplicates

def agrees (f s : Placed) : Bool :=
  (f.2 == s.2 || f.1.action == .block && s.1.action == .block) && !ruleAttributesDiffer f.1 s.1

section
variable (policy : MergePolicy) (resolutions : PairKey → Option ConflictSide) {f s : Placed}

def picksService (key : PairKey) : Bool :=
  match resolutions key with
  | some .file => false
  | some .service => true
  | _ => policy == .serviceWins

variable {policy resolutions}

theorem merge_pair_agreed (key : PairKey) (h : agrees f s = true) :
    mergePair policy resolutions key f s =
      (⟨key, if f.1.addressMatch = s.1.addressMatch then f.1 else s.1, s.2, .both, false⟩, none) :=
  if_pos h

theorem merge_pair_conflict (key : PairKey) (h : agrees f s = false) :
    ∃ chosen resolved, chosen = (if picksService policy resolutions key then s else f) ∧
      mergePair policy resolutions key f s =
        (⟨key, chosen.1, chosen.2, .both, true⟩, some ⟨key, f.1, .of f, .of s, resolved⟩) := by
  have hpair : mergePair policy resolutions key f s = _ := if_neg (Bool.eq_false_iff.mp h)
  rw [hpair, picksService]
  rcases resolutions key with _ | _ | _ | _ <;> cases policy <;> exact ⟨_, _, rfl, rfl⟩

variable (policy resolutions)

def entryOf (group : IdentityKey) (multi : Bool) :
    RulePair → MergedRuleEntry × Option MergeConflict
  | .both f s => mergePair policy resolutions (pairKey group multi f) f s
  | .leftOnly f => (⟨pairKey group multi f, f.1, f.2, .fileOnly, false⟩, none)
  | .rightOnly s => (⟨pairKey group multi s, s.1, s.2, .serviceOnly, false⟩, none)

theorem merge_entry_eq (group : IdentityKey) (fg sg : List Placed) (x : Option ℕ × Option ℕ) :
    mergeEntry policy resolutions group fg sg x =
      (pairOf fg sg x).map (entryOf policy resolutions group (1 < fg.length || 1 < sg.length)) := by
  obtain ⟨_ | i, _ | j⟩ := x
  · rfl
  · rw [mergeEntry, pairOf, Option.map_map]
    rfl
  · rw [mergeEntry, pairOf, Option.map_map]
    rfl
  · rw [mergeEntry, pairOf]
    cases fg[i]? with
    | none => rfl
    | some f =>
      cases sg[j]? with
      | none | some s => rfl

theorem merge_group_eq (group : IdentityKey) (fg sg : List Placed) :
    mergeGroup policy resolutions group fg sg = (matchedPairs fg sg).map
      (entryOf policy resolutions group (1 < fg.length || 1 < sg.length)) := by
  rw [mergeGroup, matchedPairs, List.map_filterMap]
  exact List.filterMap_congr fun x _ => merge_entry_eq policy resolutions group fg sg x

end

variable {f s : Placed}

section
variable (file service : CanonicalRuleBook) (coverage : SubdomainCoverage)

def bookPairs : List RulePair :=
  (groups file service coverage).flatMap fun k =>
    matchedPairs (groupOf file coverage k) (groupOf service coverage k)

theorem groups_nodup : (groups file service coverage).Nodup := List.nodup_dedup _

theorem placed_key_mem {p : Placed} (h : p ∈ placed file ∨ p ∈ placed service) :
    ruleIdentityKeyUnder p.1 coverage ∈ groups file service coverage :=
  List.mem_dedup.mpr (List.mem_map_of_mem (List.mem_append.mpr h))

variable {file service coverage} in
theorem side_once {book : CanonicalRuleBook} {side : RulePair → Option Placed}
    (hbook : ∀ p ∈ placed book, p ∈ placed file ∨ p ∈ placed service)
    (hside : ∀ k, ((matchedPairs (groupOf file coverage k) (groupOf service coverage k)).filterMap
      side).Perm (groupOf book coverage k)) :
    ((bookPairs file service coverage).filterMap side).Perm (placed book) := by
  rw [bookPairs, List.filterMap_flatMap]
  have hgroups := groups_perm (fun p : Placed => ruleIdentityKeyUnder p.1 coverage)
    (groups_nodup file service coverage) fun p hp => placed_key_mem file service coverage (hbook p hp)
  exact (List.Perm.flatMap_left _ fun k _ => hside k).trans hgroups

theorem file_once : ((bookPairs file service coverage).filterMap RulePair.left).Perm
    (placed file) :=
  side_once (fun _ => Or.inl) fun _ => matched_left_perm

theorem service_once : ((bookPairs file service coverage).filterMap RulePair.right).Perm
    (placed service) :=
  side_once (fun _ => Or.inr) fun _ => matched_right_perm

theorem pairs_count : (bookPairs file service coverage).length =
    ((groups file service coverage).map fun k =>
      max (groupOf file coverage k).length (groupOf service coverage k).length).sum := by
  rw [bookPairs, List.length_flatMap]
  exact congrArg List.sum (List.map_congr_left fun k _ => matched_length)

theorem pair_same_key (h : RulePair.both f s ∈ bookPairs file service coverage) :
    ruleIdentityKeyUnder f.1 coverage = ruleIdentityKeyUnder s.1 coverage := by
  obtain ⟨k, -, hk⟩ := List.mem_flatMap.mp h
  have hf : f ∈ groupOf file coverage k :=
    matched_left_perm.subset (List.mem_filterMap.mpr ⟨_, hk, rfl⟩)
  have hs : s ∈ groupOf service coverage k :=
    matched_right_perm.subset (List.mem_filterMap.mpr ⟨_, hk, rfl⟩)
  have hfk : ruleIdentityKeyUnder f.1 coverage = k := by simpa using (List.mem_filter.mp hf).2
  have hsk : ruleIdentityKeyUnder s.1 coverage = k := by simpa using (List.mem_filter.mp hs).2
  rw [hfk, hsk]

end

def Holds : RulePair → MergedRuleEntry → Prop
  | .leftOnly f, e => (e.rule, e.route) = f ∧ e.origin = .fileOnly ∧ e.wasConflict = false
  | .rightOnly s, e => (e.rule, e.route) = s ∧ e.origin = .serviceOnly ∧ e.wasConflict = false
  | .both f s, e => e.origin = .both ∧ e.wasConflict = !agrees f s ∧
      if agrees f s then
        e.rule = (if f.1.addressMatch = s.1.addressMatch then f.1 else s.1) ∧ e.route = s.2
      else (e.rule, e.route) = f ∨ (e.rule, e.route) = s

section
variable (policy : MergePolicy) (resolutions : PairKey → Option ConflictSide)

theorem entry_holds (group : IdentityKey) (multi : Bool) (x : RulePair) :
    Holds x (entryOf policy resolutions group multi x).1 := by
  cases x with
  | leftOnly f | rightOnly s => exact ⟨rfl, rfl, rfl⟩
  | both f s =>
    cases h : agrees f s with
    | true =>
      rw [entryOf, merge_pair_agreed _ h]
      simp [Holds, h]
    | false =>
      obtain ⟨chosen, resolved, hc, he⟩ := merge_pair_conflict (pairKey group multi f) h
      rw [entryOf, he]
      refine ⟨rfl, by simp [h], ?_⟩
      rw [h, if_neg (by simp), hc]
      split <;> simp

variable (file service : CanonicalRuleBook) (coverage : SubdomainCoverage)

theorem merge_entries_eq : mergeEntries policy resolutions file service coverage =
    (groups file service coverage).flatMap fun k =>
      (matchedPairs (groupOf file coverage k) (groupOf service coverage k)).map
        (entryOf policy resolutions k
          (1 < (groupOf file coverage k).length || 1 < (groupOf service coverage k).length)) := by
  unfold mergeEntries
  exact List.flatMap_congr fun k _ => merge_group_eq policy resolutions k _ _

theorem entries_hold : List.Forall₂ Holds (bookPairs file service coverage)
    ((mergeEntries policy resolutions file service coverage).map Prod.fst) := by
  rw [merge_entries_eq, bookPairs, List.map_flatMap]
  induction groups file service coverage with
  | nil => exact List.Forall₂.nil
  | cons k ks ih =>
    rw [List.flatMap_cons, List.flatMap_cons]
    refine List.rel_append ?_ ih
    rw [List.map_map, List.forall₂_map_right_iff, List.forall₂_same]
    exact fun x _ => entry_holds policy resolutions k _ x

end

/-- The rules of `after` are those of `before`, some of them switched on or off. -/
def Dimmed (before after : List CanonicalRule) : Prop :=
  ∃ f : CanonicalRule → CanonicalRule, after.Perm (before.map f) ∧
    ∀ r, ∃ e, f r = { r with enabled := e }

theorem dimmed_normalized {book : CanonicalRuleBook} {coverage : SubdomainCoverage}
    (keep : CrossSetKey → Bool) (role : RouteRole) :
    Dimmed (book.setFor role).rules
      ((normalizeCrossSetDuplicates book keep coverage).1.setFor role).rules := by
  refine ⟨_, normalized_settled keep role, fun r => ?_⟩
  by_cases hy : Yields book coverage keep role r
  · exact ⟨false, (settled_spec role r).1 hy⟩
  · exact ⟨r.enabled, (settled_spec role r).2 hy⟩

theorem mem_placed {book : CanonicalRuleBook} {p : Placed} :
    p ∈ placed book ↔ p.1 ∈ (book.setFor p.2).rules := by
  obtain ⟨r, role⟩ := p
  cases role <;> simp [placed, CanonicalRuleBook.setFor]

theorem entries_side (entries : List MergedRuleEntry) (role : RouteRole) :
    (bookOfEntries entries).setFor role =
      .fromRules ((entries.filter (·.route == role)).map MergedRuleEntry.rule) := by
  cases role <;> rfl

theorem book_of_entries_perm (es : List MergedRuleEntry) :
    (placed (bookOfEntries es)).Perm (es.map fun e => (e.rule, e.route)) := by
  have hside (role : RouteRole) : (((bookOfEntries es).setFor role).rules.map (·, role)).Perm
      ((es.filter fun e => e.route == role).map fun e => (e.rule, e.route)) := by
    rw [entries_side]
    refine ((sort_by_perm _ _).map _).trans (List.Perm.of_eq ?_)
    rw [List.map_map]
    refine List.map_congr_left fun e he => ?_
    have : e.route = role := by simpa using (List.mem_filter.mp he).2
    simp [this]
  have hfilter : (es.filter fun e => e.route == .secondary) =
      es.filter fun e => !(e.route == .primary) :=
    List.filter_congr fun e _ => by cases e.route <;> rfl
  refine ((hside .primary).append (hside .secondary)).trans ?_
  rw [hfilter, ← List.map_append]
  exact (List.filter_append_perm _ es).map _

def Appears (book : CanonicalRuleBook) (r : CanonicalRule) : Prop :=
  ∃ p ∈ placed book, p.1.addressMatch = r.addressMatch ∧ p.1.appMatch = r.appMatch ∧
    p.1.action = r.action ∧ p.1.enabled = r.enabled ∧ p.1.comment = r.comment

theorem agreed_rules {coverage : SubdomainCoverage} (h : agrees f s = true)
    (hkey : ruleIdentityKeyUnder f.1 coverage = ruleIdentityKeyUnder s.1 coverage) :
    f.1.appMatch = s.1.appMatch ∧ f.1.action = s.1.action ∧ f.1.enabled = s.1.enabled ∧
      f.1.comment = s.1.comment := by
  have hattr : ruleAttributesDiffer f.1 s.1 = false := by
    rw [agrees, Bool.and_eq_true, Bool.not_eq_true'] at h
    exact h.2
  simp only [ruleAttributesDiffer, Bool.or_eq_false_iff, bne_eq_false_iff_eq] at hattr
  obtain ⟨⟨⟨hen, hcomment⟩, hact⟩, hflags⟩ := hattr
  have hprogram : f.1.appMatch.map CanonicalAppMatch.pattern =
      s.1.appMatch.map CanonicalAppMatch.pattern := congrArg IdentityKey.program hkey
  refine ⟨?_, hact, hen, hcomment⟩
  rcases hf : f.1.appMatch with _ | ⟨fp, fc, fo⟩ <;> rcases hs : s.1.appMatch with _ | ⟨sp, sc, so⟩
  · rfl
  · simp [hf, hs] at hprogram
  · simp [hf, hs] at hprogram
  · rw [hf, hs] at hprogram hflags
    simp only [Option.map_some, Option.some.injEq, Prod.mk.injEq] at hprogram hflags
    simp [hprogram, hflags]

section
variable {file service merged : CanonicalRuleBook} {coverage : SubdomainCoverage}
variable {pairs : List RulePair} {entries : List MergedRuleEntry}

theorem holding_entry (hold : List.Forall₂ Holds pairs entries)
    (hmerged : (placed merged).Perm (entries.map fun e => (e.rule, e.route))) {x : RulePair}
    (hx : x ∈ pairs) : ∃ e, Holds x e ∧ (e.rule, e.route) ∈ placed merged := by
  obtain ⟨i, hi, rfl⟩ := List.getElem_of_mem hx
  have hi' : i < entries.length := hold.length_eq ▸ hi
  exact ⟨entries[i], List.Forall₂.get hold hi hi',
    hmerged.symm.subset (List.mem_map.mpr ⟨_, List.getElem_mem hi', rfl⟩)⟩

/-- What becomes of the rules of a pair that is no conflict. -/
def Kept (merged : CanonicalRuleBook) : RulePair → Prop
  | .leftOnly f => f ∈ placed merged
  | .rightOnly s => s ∈ placed merged
  | .both f s => agrees f s = true → Appears merged s.1 ∧
      Appears merged { f.1 with addressMatch := s.1.addressMatch }

theorem pair_kept (hold : List.Forall₂ Holds pairs entries)
    (hmerged : (placed merged).Perm (entries.map fun e => (e.rule, e.route)))
    (hkeys : ∀ f s, RulePair.both f s ∈ pairs →
      ruleIdentityKeyUnder f.1 coverage = ruleIdentityKeyUnder s.1 coverage) :
    ∀ x ∈ pairs, Kept merged x := by
  intro x hx
  obtain ⟨e, he, hmem⟩ := holding_entry hold hmerged hx
  cases x with
  | leftOnly f | rightOnly s => exact he.1 ▸ hmem
  | both f s =>
    intro hagree
    obtain ⟨happ, hact, hen, hcomment⟩ := agreed_rules hagree (hkeys f s hx)
    have hrule : e.rule = if f.1.addressMatch = s.1.addressMatch then f.1 else s.1 := by
      have := he.2.2
      rw [if_pos hagree] at this
      exact this.1
    have hsame : e.rule.addressMatch = s.1.addressMatch ∧ e.rule.appMatch = s.1.appMatch ∧
        e.rule.action = s.1.action ∧ e.rule.enabled = s.1.enabled ∧
        e.rule.comment = s.1.comment := by
      by_cases haddr : f.1.addressMatch = s.1.addressMatch
      · rw [hrule, if_pos haddr]
        exact ⟨haddr, happ, hact, hen, hcomment⟩
      · rw [hrule, if_neg haddr]
        exact ⟨rfl, rfl, rfl, rfl, rfl⟩
    obtain ⟨h1, h2, h3, h4, h5⟩ := hsame
    exact ⟨⟨_, hmem, h1, h2, h3, h4, h5⟩, ⟨_, hmem, h1, h2.trans happ.symm, h3.trans hact.symm,
      h4.trans hen.symm, h5.trans hcomment.symm⟩⟩

end

section
variable (policy : MergePolicy) (resolutions : PairKey → Option ConflictSide)
variable (book : CanonicalRuleBook) (coverage : SubdomainCoverage)

theorem agrees_self (p : Placed) : agrees p p = true := by
  simp [agrees, ruleAttributesDiffer]

theorem entry_of_self (group : IdentityKey) (multi : Bool) (p : Placed) :
    entryOf policy resolutions group multi (.both p p) =
      (⟨pairKey group multi p, p.1, p.2, .both, false⟩, none) := by
  rw [entryOf, merge_pair_agreed _ (agrees_self p), if_pos rfl]

theorem self_entries : mergeEntries policy resolutions book book coverage =
    (groups book book coverage).flatMap fun k => (groupOf book coverage k).map fun p =>
      (⟨pairKey k (1 < (groupOf book coverage k).length || 1 < (groupOf book coverage k).length) p,
        p.1, p.2, .both, false⟩, none) := by
  rw [merge_entries_eq]
  refine List.flatMap_congr fun k _ => ?_
  rw [matched_self, List.map_map]
  exact List.map_congr_left fun p _ => entry_of_self policy resolutions k _ p

theorem group_side (role : RouteRole) (k : IdentityKey) :
    ((groupOf book coverage k).filter fun p => p.2 == role).map Prod.fst =
      (book.setFor role).rules.filter fun r => ruleIdentityKeyUnder r coverage == k := by
  cases role <;>
    simp [groupOf, placed, CanonicalRuleBook.setFor, List.filter_append, List.filter_map,
      List.filter_filter, Function.comp_def]

theorem self_side (role : RouteRole) :
    (((mergeEntries policy resolutions book book coverage).map Prod.fst).filter
        fun e => e.route == role).map MergedRuleEntry.rule =
      (groups book book coverage).flatMap fun k =>
        (book.setFor role).rules.filter fun r => ruleIdentityKeyUnder r coverage == k := by
  rw [self_entries, List.map_flatMap, List.filter_flatMap, List.map_flatMap]
  refine List.flatMap_congr fun k _ => ?_
  rw [← group_side, List.map_map, List.filter_map, List.map_map]
  rfl

theorem set_ext {s t : CanonicalRuleSet} (h : s.rules = t.rules) : s = t := by
  cases s
  cases t
  simpa using h

variable (hpaths : PathsBySpelling book.allRules)
include hpaths

theorem tied_same_key {role : RouteRole}
    {a b : CanonicalRule} (ha : a ∈ (book.setFor role).rules) (hb : b ∈ (book.setFor role).rules)
    (htie : canonicalOrder a b = .eq) :
    ruleIdentityKeyUnder b coverage = ruleIdentityKeyUnder a coverage := by
  have hsame := canonical_order_eq htie
  have happ : a.appMatch = b.appMatch :=
    app_of_tie hsame.appKind hsame.appText hsame.appChildren hsame.appOverride
      (hpaths a (mem_all_rules.mpr ⟨_, ha⟩) b (mem_all_rules.mpr ⟨_, hb⟩))
  simp only [ruleIdentityKeyUnder, hsame.addressMatch, happ]

theorem self_set (role : RouteRole) :
    CanonicalRuleSet.fromRules
      ((((mergeEntries policy resolutions book book coverage).map Prod.fst).filter
        fun e => e.route == role).map MergedRuleEntry.rule) = book.setFor role := by
  rw [self_side]
  refine set_ext (sort_groups (groups_nodup book book coverage) (book.setFor role).sorted
    (fun a ha => ?_) fun a ha b hb htie => tied_same_key book coverage hpaths ha hb htie)
  exact placed_key_mem book book coverage (p := (a, role)) (Or.inl (mem_placed.mpr ha))

theorem self_merged :
    bookOfEntries ((mergeEntries policy resolutions book book coverage).map Prod.fst) = book := by
  have hprimary := self_set policy resolutions book coverage hpaths .primary
  have hsecondary := self_set policy resolutions book coverage hpaths .secondary
  rw [bookOfEntries, bookOf, hprimary, hsecondary]
  rfl

omit hpaths

theorem self_entry {x : MergedRuleEntry × Option MergeConflict}
    (h : x ∈ mergeEntries policy resolutions book book coverage) :
    x.1.origin = .both ∧ x.2 = none := by
  rw [self_entries] at h
  obtain ⟨k, -, hk⟩ := List.mem_flatMap.mp h
  obtain ⟨p, -, rfl⟩ := List.mem_map.mp hk
  exact ⟨rfl, rfl⟩

theorem normalized_paths (keep : CrossSetKey → Bool) (hpaths : PathsBySpelling book.allRules) :
    PathsBySpelling (normalizeCrossSetDuplicates book keep coverage).1.allRules := by
  have hsource : ∀ r ∈ (normalizeCrossSetDuplicates book keep coverage).1.allRules,
      ∃ r' ∈ book.allRules, pathOf r' = pathOf r := by
    intro r hr
    obtain ⟨role, hrole⟩ := mem_all_rules.mp hr
    obtain ⟨f, hperm, hf⟩ := @dimmed_normalized book coverage keep role
    obtain ⟨r', hr', rfl⟩ := List.mem_map.mp (hperm.subset hrole)
    obtain ⟨e, he⟩ := hf r'
    exact ⟨r', mem_all_rules.mpr ⟨_, hr'⟩, by rw [he]; rfl⟩
  intro a ha b hb p hp q hq htext
  obtain ⟨a', ha', hpa⟩ := hsource a ha
  obtain ⟨b', hb', hpb⟩ := hsource b hb
  exact hpaths a' ha' b' hb' p (hpa ▸ hp) q (hpb ▸ hq) htext

end

/-- A merge keeps every rule of both normalised books in exactly one entry, and merging a book
with itself changes nothing but the normalisation. -/
theorem merge_keeps_every_rule :
    (∀ (policy : MergePolicy) (resolutions : PairKey → Option ConflictSide)
      (file service : CanonicalRuleBook) (keep : CrossSetKey → Bool)
      (coverage : SubdomainCoverage),
      let file' := (normalizeCrossSetDuplicates file keep coverage).1
      let service' := (normalizeCrossSetDuplicates service keep coverage).1
      let result := mergeRuleBooksWithResolutions policy resolutions file service keep coverage
      (∃ pairs : List RulePair,
        (pairs.filterMap RulePair.left).Perm (placed file') ∧
        (pairs.filterMap RulePair.right).Perm (placed service') ∧
        List.Forall₂ Holds pairs result.entries ∧
        (∀ f s, RulePair.both f s ∈ pairs →
          ruleIdentityKeyUnder f.1 coverage = ruleIdentityKeyUnder s.1 coverage) ∧
        ∀ x ∈ pairs, Kept result.merged x) ∧
      result.entries.length = ((groups file' service' coverage).map fun k =>
        max (groupOf file' coverage k).length (groupOf service' coverage k).length).sum ∧
      (placed result.merged).Perm (result.entries.map fun e => (e.rule, e.route))) ∧
    ∀ (policy : MergePolicy) (resolutions : PairKey → Option ConflictSide)
      (book : CanonicalRuleBook) (keep : CrossSetKey → Bool) (coverage : SubdomainCoverage),
      PathsBySpelling book.allRules →
      let result := mergeRuleBooksWithResolutions policy resolutions book book keep coverage
      result.merged = (normalizeCrossSetDuplicates book keep coverage).1 ∧
        result.conflicts = [] ∧ ∀ e ∈ result.entries, e.origin = .both := by
  constructor
  · intro policy resolutions file service keep coverage file' service' result
    have hold : List.Forall₂ Holds (bookPairs file' service' coverage) result.entries :=
      entries_hold policy resolutions file' service' coverage
    have hmerged : (placed result.merged).Perm (result.entries.map fun e => (e.rule, e.route)) :=
      book_of_entries_perm _
    have hkeys : ∀ f s, RulePair.both f s ∈ bookPairs file' service' coverage →
        ruleIdentityKeyUnder f.1 coverage = ruleIdentityKeyUnder s.1 coverage :=
      fun f s h => pair_same_key file' service' coverage h
    refine ⟨⟨bookPairs file' service' coverage, file_once _ _ _, service_once _ _ _, hold, hkeys,
      pair_kept hold hmerged hkeys⟩, ?_, hmerged⟩
    rw [← hold.length_eq, pairs_count]
  · intro policy resolutions book keep coverage hpaths result
    have hnorm := normalized_paths book coverage keep hpaths
    refine ⟨self_merged policy resolutions _ coverage hnorm, ?_, fun e he => ?_⟩
    · exact List.filterMap_eq_nil_iff.mpr fun x hx => (self_entry _ _ _ _ hx).2
    · obtain ⟨x, hx, rfl⟩ := List.mem_map.mp he
      exact (self_entry _ _ _ _ hx).1

instance (book : CanonicalRuleBook) (r : CanonicalRule) : Decidable (Appears book r) :=
  inferInstanceAs (Decidable (∃ p ∈ placed book, _))

def apexRule : CanonicalRule := addressRule "R-0001" true (.exactFqdn "a.b".toList) .route

def suffixRule : CanonicalRule := addressRule "R-0002" true (.suffixDomain "a.b".toList) .route

def toolRule (id : String) (children : Bool) : CanonicalRule :=
  ⟨id.toList, true, none, some ⟨.path ⟨.linux, .fileOrFolder, ["opt".toList, "tool".toList],
    "/opt/tool".toList, none, none⟩, children, false⟩, [], .route, none⟩

def toolBook : CanonicalRuleBook := bookOf [toolRule "R-0001" false, toolRule "R-0002" true] []

/-- Two rules of one program, merged with themselves. -/
theorem merge_keeps_tool_rules :
    let result := mergeRuleBooksWithResolutions .union (fun _ => none) toolBook toolBook
      (fun _ => false) .off
    result.merged = (normalizeCrossSetDuplicates toolBook (fun _ => false) .off).1 ∧
      result.conflicts = [] ∧ ∀ e ∈ result.entries, e.origin = .both :=
  merge_keeps_every_rule.2 .union (fun _ => none) toolBook (fun _ => false) .off
    (by unfold PathsBySpelling; decide +kernel)

/-- Under coverage a name and its suffix agree, and the file's spelling is gone. -/
theorem agreed_spelling_lost :
    let result := mergeRuleBooksWithResolutions .fileWins (fun _ => none) (bookOf [apexRule] [])
      (bookOf [suffixRule] []) (fun _ => false) .on
    result.conflicts = [] ∧ agrees (apexRule, .primary) (suffixRule, .primary) = true ∧
      result.entries.length = 1 ∧ ¬ Appears result.merged apexRule := by
  decide +kernel

end NetRuleRouter.MergeAccounts
