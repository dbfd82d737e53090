import NetRuleRouter.MergeAccounts

/-!
# One answer per match after a merge

Each book of a merge is first given one answer per match. The merge keeps it
for every match on which the two books do not pull to opposite routes. A
contested match keeps it exactly when one side gives way throughout: every
enabled copy of that side has a counterpart, and every such pair goes to the
other side.
-/

set_option autoImplicit false

namespace NetRuleRouter.MergeInvariant
open Canonical RulePairs Merge SettledDuplicates MergeAccounts

theorem one_answer_role {book : CanonicalRuleBook} {coverage : SubdomainCoverage}
    (h : OneAnswer book coverage) {key : CrossSetKey} {role role' : RouteRole}
    (hr : EnabledIn book coverage role key) (hr' : EnabledIn book coverage role' key) :
    role = role' := by
  cases role with
  | primary =>
    cases role' with
    | primary => rfl
    | secondary => exact (h key ⟨hr, hr'⟩).elim
  | secondary =>
    cases role' with
    | primary => exact (h key ⟨hr', hr⟩).elim
    | secondary => rfl

section
variable (policy : MergePolicy) (resolutions : PairKey → Option ConflictSide)
  (file service : CanonicalRuleBook) (coverage : SubdomainCoverage) (key : CrossSetKey)

/-- The file enables the match on one route and the service on the other. -/
def Contested : Prop :=
  ∃ role role', role ≠ role' ∧ EnabledIn file coverage role key ∧
    EnabledIn service coverage role' key

def Copy (p : Placed) : Prop := p.1.enabled = true ∧ crossSetKey p.1 coverage = key

/-- The conflict of the file's rule, picked by its key, goes to the service. -/
def toService (f : Placed) : Bool :=
  let k := ruleIdentityKeyUnder f.1 coverage
  picksService policy resolutions (pairKey k (1 < (groupOf file coverage k).length ||
    1 < (groupOf service coverage k).length) f)

/-- Every copy of the file is paired, and its pair agrees or goes to the service. -/
def FileYields : Prop :=
  ∀ x ∈ bookPairs file service coverage, ∀ f ∈ x.left, Copy coverage key f →
    ∃ s ∈ x.right, agrees f s = true ∨ toService policy resolutions file service coverage f = true

/-- Every copy of the service is paired, and its pair is a conflict that goes to the file. -/
def ServiceYields : Prop :=
  ∀ x ∈ bookPairs file service coverage, ∀ s ∈ x.right, Copy coverage key s →
    ∃ f ∈ x.left, agrees f s = false ∧ toService policy resolutions file service coverage f = false

/-- The rule of a pair that stays and the route it lands on. -/
def landing : RulePair → Placed
  | .leftOnly f => f
  | .rightOnly s => s
  | .both f s =>
    if agrees f s then (if f.1.addressMatch = s.1.addressMatch then f.1 else s.1, s.2)
    else if toService policy resolutions file service coverage f then s else f

end

section
variable {policy : MergePolicy} {resolutions : PairKey → Option ConflictSide}
  {file service : CanonicalRuleBook} {coverage : SubdomainCoverage} {key : CrossSetKey}
  {role : RouteRole}

theorem merged_landing : (placed (bookOfEntries
      ((mergeEntries policy resolutions file service coverage).map Prod.fst))).Perm
    ((bookPairs file service coverage).map
      (landing policy resolutions file service coverage)) := by
  refine (book_of_entries_perm _).trans (List.Perm.of_eq ?_)
  rw [merge_entries_eq, bookPairs, List.map_flatMap, List.map_flatMap, List.map_flatMap]
  refine List.flatMap_congr fun k _ => ?_
  rw [List.map_map, List.map_map]
  refine List.map_congr_left fun x hx => ?_
  cases x with
  | leftOnly f | rightOnly s => rfl
  | both f s =>
    have hf : f ∈ groupOf file coverage k :=
      matched_left_perm.subset (List.mem_filterMap.mpr ⟨_, hx, rfl⟩)
    obtain rfl : ruleIdentityKeyUnder f.1 coverage = k := by simpa using (List.mem_filter.mp hf).2
    cases h : agrees f s with
    | true => simp [entryOf, merge_pair_agreed _ h, landing, h]
    | false =>
      have hplaced (pick : PairKey) : ((mergePair policy resolutions pick f s).1.rule,
          (mergePair policy resolutions pick f s).1.route) =
            if picksService policy resolutions pick then s else f := by
        obtain ⟨_, _, rfl, he⟩ := merge_pair_conflict pick h
        rw [he]
      rw [landing, if_neg (by simp [h])]
      exact hplaced _

theorem landing_copy {x : RulePair} (hx : x ∈ bookPairs file service coverage) :
    Copy coverage key (landing policy resolutions file service coverage x) ∧
        (landing policy resolutions file service coverage x).2 = role ↔
      (∃ f ∈ x.left, Copy coverage key f ∧ f.2 = role ∧ ∀ s ∈ x.right, agrees f s = false ∧
        toService policy resolutions file service coverage f = false) ∨
      ∃ s ∈ x.right, Copy coverage key s ∧ s.2 = role ∧ ∀ f ∈ x.left, agrees f s = true ∨
        toService policy resolutions file service coverage f = true := by
  cases x with
  | leftOnly f => simp [landing, RulePair.left, RulePair.right]
  | rightOnly s => simp [landing, RulePair.left, RulePair.right]
  | both f s =>
    cases h : agrees f s with
    | true =>
      have hid := pair_same_key file service coverage hx
      obtain ⟨-, hact, hen, -⟩ := agreed_rules h hid
      have hkept : Copy coverage key (landing policy resolutions file service coverage (.both f s)) ↔
          Copy coverage key s := by
        rw [landing, if_pos h]
        split
        · simp [Copy, crossSetKey, hen, hid, hact]
        · rfl
      rw [hkept]
      simp [landing, RulePair.left, RulePair.right, h]
    | false =>
      cases ht : toService policy resolutions file service coverage f <;>
        simp [landing, RulePair.left, RulePair.right, h, ht]

theorem merged_enabled : EnabledIn (bookOfEntries
      ((mergeEntries policy resolutions file service coverage).map Prod.fst)) coverage role key ↔
    ∃ x ∈ bookPairs file service coverage,
      Copy coverage key (landing policy resolutions file service coverage x) ∧
        (landing policy resolutions file service coverage x).2 = role := by
  constructor
  · rintro ⟨r, hr, hcopy⟩
    have hmem : (r, role) ∈ placed _ := mem_placed.mpr hr
    obtain ⟨x, hx, hxr⟩ := List.mem_map.mp (merged_landing.subset hmem)
    exact ⟨x, hx, hxr ▸ hcopy, hxr ▸ rfl⟩
  · rintro ⟨x, hx, hcopy, rfl⟩
    exact ⟨_, mem_placed.mp (merged_landing.symm.subset (List.mem_map_of_mem hx)), hcopy⟩

theorem file_copy {x : RulePair} {f : Placed} (hx : x ∈ bookPairs file service coverage)
    (hf : f ∈ x.left) (hcopy : Copy coverage key f) : EnabledIn file coverage f.2 key :=
  ⟨f.1, mem_placed.mp ((file_once _ _ _).subset (List.mem_filterMap.mpr ⟨x, hx, hf⟩)), hcopy⟩

theorem service_copy {x : RulePair} {s : Placed} (hx : x ∈ bookPairs file service coverage)
    (hs : s ∈ x.right) (hcopy : Copy coverage key s) : EnabledIn service coverage s.2 key :=
  ⟨s.1, mem_placed.mp ((service_once _ _ _).subset (List.mem_filterMap.mpr ⟨x, hx, hs⟩)), hcopy⟩

/-- A copy of the file and one of the service that both stay stay on one route: on two, one of them
would have given way. -/
theorem same_route (hyields : Contested file service coverage key →
      FileYields policy resolutions file service coverage key ∨
        ServiceYields policy resolutions file service coverage key) {x y : RulePair}
    (hx : x ∈ bookPairs file service coverage) (hy : y ∈ bookPairs file service coverage)
    {f s : Placed} (hxf : f ∈ x.left) (hfc : Copy coverage key f)
    (hf : ∀ s ∈ x.right, agrees f s = false ∧
      toService policy resolutions file service coverage f = false)
    (hys : s ∈ y.right) (hsc : Copy coverage key s) (hs : ∀ f ∈ y.left, agrees f s = true ∨
      toService policy resolutions file service coverage f = true) : f.2 = s.2 := by
  by_contra hne
  rcases hyields ⟨f.2, s.2, hne, file_copy hx hxf hfc, service_copy hy hys hsc⟩ with h | h
  · obtain ⟨s', hs', hgoes⟩ := h x hx f hxf hfc
    simp [hf s' hs'] at hgoes
  · obtain ⟨f', hf', hagree, hgoes⟩ := h y hy s hys hsc
    simpa [hagree, hgoes] using hs f' hf'

/-- Merging two books of one answer each leaves one answer exactly when, for each match they
contest, one of them gives way. -/
theorem entries_one_answer_iff (hfile : OneAnswer file coverage)
    (hservice : OneAnswer service coverage) :
    OneAnswer (bookOfEntries
      ((mergeEntries policy resolutions file service coverage).map Prod.fst)) coverage ↔
    ∀ key, Contested file service coverage key →
      FileYields policy resolutions file service coverage key ∨
        ServiceYields policy resolutions file service coverage key := by
  constructor
  · rintro hone key ⟨role, role', hne, hf, hs⟩
    by_contra hnot
    simp only [FileYields, ServiceYields, not_or, not_forall, not_exists, not_and,
      Bool.not_eq_true, Bool.not_eq_false] at hnot
    obtain ⟨⟨x, hx, f, hxf, hfc, hstays⟩, y, hy, s, hys, hsc, hstays'⟩ := hnot
    have hfrole := one_answer_role hfile hf (file_copy hx hxf hfc)
    have hsrole := one_answer_role hservice hs (service_copy hy hys hsc)
    refine hne (one_answer_role hone (merged_enabled.mpr ⟨x, hx, (landing_copy hx).mpr (Or.inl
      ⟨f, hxf, hfc, hfrole.symm, fun s hs => ?_⟩)⟩) (merged_enabled.mpr ⟨y, hy,
      (landing_copy hy).mpr (Or.inr ⟨s, hys, hsc, hsrole.symm, fun f hf => ?_⟩)⟩))
    · simpa using hstays s hs
    · cases hagree : agrees f s with
      | true => exact Or.inl rfl
      | false => exact Or.inr (hstays' f hf hagree)
  · rintro hyields key ⟨hprimary, hsecondary⟩
    obtain ⟨x, hx, hxcopy⟩ := merged_enabled.mp hprimary
    obtain ⟨y, hy, hycopy⟩ := merged_enabled.mp hsecondary
    rcases (landing_copy hx).mp hxcopy with ⟨f, hxf, hfc, hfr, hf⟩ | ⟨s, hxs, hsc, hsr, hs⟩ <;>
      rcases (landing_copy hy).mp hycopy with
        ⟨f', hyf, hfc', hfr', hf'⟩ | ⟨s', hys, hsc', hsr', hs'⟩
    · exact hfile key ⟨hfr ▸ file_copy hx hxf hfc, hfr' ▸ file_copy hy hyf hfc'⟩
    · have hsame := same_route (hyields key) hx hy hxf hfc hf hys hsc' hs'
      simp [hfr, hsr'] at hsame
    · have hsame := same_route (hyields key) hy hx hyf hfc' hf' hxs hsc hs
      simp [hfr', hsr] at hsame
    · exact hservice key ⟨hsr ▸ service_copy hx hxs hsc, hsr' ▸ service_copy hy hys hsc'⟩

end

/-- A merge leaves one answer per match exactly when, for each match the normalised books contest,
one of them gives way. -/
theorem merge_one_answer_iff (policy : MergePolicy) (resolutions : PairKey → Option ConflictSide)
    (file service : CanonicalRuleBook) (keep keep' : CrossSetKey → Bool)
    (coverage : SubdomainCoverage) :
    let file' := (normalizeCrossSetDuplicates file keep coverage).1
    let service' := (normalizeCrossSetDuplicates service keep coverage).1
    (normalizeCrossSetDuplicates
      (mergeRuleBooksWithResolutions policy resolutions file service keep coverage).merged keep'
      coverage).2 = [] ↔
    ∀ key, Contested file' service' coverage key →
      FileYields policy resolutions file' service' coverage key ∨
        ServiceYields policy resolutions file' service' coverage key := by
  rw [reports_nothing_iff]
  exact entries_one_answer_iff (normalized_one_answer keep) (normalized_one_answer keep)

def programRule (id : String) (children : Bool) : CanonicalRule :=
  ⟨id.toList, true, none, some ⟨.exact "x.exe".toList, children, false⟩, [], .route, none⟩

/-- A program with and without its children, on the main route in the file and on the other in the
service: both pairs move. -/
theorem merge_moved_program_one_answer :
    (normalizeCrossSetDuplicates
      (mergeRuleBooksWithResolutions .serviceWins (fun _ => none)
        (bookOf [programRule "R-0001" false, programRule "R-0002" true] [])
        (bookOf [] [programRule "R-0001" false, programRule "R-0002" true]) (fun _ => false)
        .off).merged (fun _ => false) .off).2 = [] := by
  refine (merge_one_answer_iff .serviceWins _ _ _ _ _ _).mpr fun key _ => Or.inl ?_
  intro x hx f hf hcopy
  clear hcopy
  revert x f
  decide +kernel

/-- The copy with its children is left over on the main route while the pair moves. -/
theorem merge_splits_program :
    (normalizeCrossSetDuplicates
      (mergeRuleBooksWithResolutions .serviceWins (fun _ => none)
        (bookOf [programRule "R-0001" false, programRule "R-0002" true] [])
        (bookOf [] [programRule "R-0001" false]) (fun _ => false) .off).merged
      (fun _ => false) .off).2.length = 1 := by
  decide +kernel

end NetRuleRouter.MergeInvariant
