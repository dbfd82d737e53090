import NetRuleRouter.CanonicalOrder
import NetRuleRouter.WireCodec

/-!
# The order a rules document arrives in

The applied rules are put in the canonical order, which ties no two rules whose
bytes differ. The rules kept aside are sorted by their id alone, so two of them
with one id stay in the order they came.
-/

set_option autoImplicit false

namespace NetRuleRouter.WireOrder
open TextOps Sorting AutoRule Canonical CanonicalOrder RuleValueKinds WireCodec

def writtenOrigin (o : RuleOrigin) : RuleOrigin :=
  { o with reason := .fromSlug o.reason.asSlug }

def writtenRule (r : RuleDto) : RuleDto := { r with origin := r.origin.map writtenOrigin }

def written (d : CanonicalRulesJsonV1) : CanonicalRulesJsonV1 :=
  ⟨d.schemaVersion, d.primary.map writtenRule, d.secondary.map writtenRule⟩

theorem written_schema_version (d : CanonicalRulesJsonV1) :
    requiredSchemaVersion (written d) = requiredSchemaVersion d := by
  have hsame (r : RuleDto) : (writtenRule r).isUnrecognized = r.isUnrecognized := rfl
  have hneeded (r : RuleDto) : (writtenRule r).schemaNeeded = r.schemaNeeded := rfl
  simp only [requiredSchemaVersion, written, ← List.map_append, List.any_map, List.foldl_map,
    Function.comp_def, hsame, hneeded]

theorem encode_app_of_tie {a b : CanonicalRule} (h : SameBytes a b) :
    a.appMatch.map encodeAppMatch = b.appMatch.map encodeAppMatch := by
  have hk := h.appKind
  have ht := h.appText
  have hc := h.appChildren
  have ho := h.appOverride
  unfold CanonicalRule.appKind at hk
  unfold CanonicalRule.appText at ht
  unfold CanonicalRule.appChildren at hc
  unfold CanonicalRule.appOverride at ho
  rcases ha : a.appMatch with _ | ⟨x | x | x, ac, ao⟩ <;>
    rcases hb : b.appMatch with _ | ⟨y | y | y, bc, bo⟩ <;>
    rw [ha, hb] at hk ht hc ho <;> try (solve | simp at hk)
  all_goals
    simp only [Option.map_some, Option.getD_some, CanonicalAppPattern.asStr, Option.any_some]
      at ht hc ho
    simp [encodeAppMatch, encodeAppPattern, ht, hc, ho]

theorem encode_rule_of_tie {a b : CanonicalRule} (h : canonicalOrder a b = .eq) :
    writtenRule (encodeRule a) = writtenRule (encodeRule b) := by
  have hbytes := canonical_order_eq h
  have horigin : a.origin.map writtenOrigin = b.origin.map writtenOrigin := by
    have ho := congrArg (Option.map fun t : Text × Text × Text =>
      (⟨.fromSlug t.1, t.2.1, t.2.2⟩ : RuleOrigin)) hbytes.origin
    simp only [originText, Option.map_map] at ho
    exact ho
  simp [writtenRule, encodeRule, hbytes.id, hbytes.enabled, hbytes.addressMatch, hbytes.comment,
    hbytes.action, encode_app_of_tie hbytes, horigin]

variable {r : RuleDto} {rules : List RuleDto} {d : CanonicalRulesJsonV1} {p : DecodedRoute}

section
variable (toAscii : Text → Option Text) (platform : HostPlatform) {q : Placement}

def appliedAs (r : RuleDto) : Option CanonicalRule :=
  match placeRule toAscii platform r with
  | .ok (.applied rule) => some rule
  | _ => none

def IsInactive (r : RuleDto) : Bool :=
  !r.isUnrecognized && (refusedOutrightOn r platform).isSome

def keptRules (rules : List RuleDto) : List RuleDto := rules.filter RuleDto.isUnrecognized

def inactiveRules (rules : List RuleDto) : List RuleDto := rules.filter (IsInactive platform)

def Places (rules : List RuleDto) : Prop :=
  ∀ r ∈ rules, (placeRule toAscii platform r).isOk = true

def placedAs (rules : List RuleDto) : DecodedRoute :=
  ⟨rules.filterMap (appliedAs toAscii platform), keptRules rules, inactiveRules platform rules⟩

theorem place_rule_cases (h : placeRule toAscii platform r = .ok q) :
    (∃ rule, q = .applied rule ∧ r.isUnrecognized = false ∧ IsInactive platform r = false) ∨
      (q = .kept ∧ r.isUnrecognized = true ∧ IsInactive platform r = false) ∨
      (q = .inactive ∧ r.isUnrecognized = false ∧ IsInactive platform r = true) := by
  unfold placeRule at h
  split_ifs at h with hknown hrefused hmalformed haction
  · injection h with hq
    simp_all [IsInactive]
  · cases hd : decodeRule toAscii r platform with
    | error e => simp [hd, Except.map] at h
    | ok rule =>
      rw [hd] at h
      injection h with hq
      exact .inl ⟨_, hq.symm, by simpa using hknown, by simp [IsInactive, hrefused]⟩
  · injection h with hq
    simp_all [IsInactive]

theorem place_rule_ok (h : placeRule toAscii platform r = .ok q) (rest : List RuleDto) :
    (placedAs toAscii platform rest).add r q = placedAs toAscii platform (r :: rest) := by
  unfold placedAs keptRules inactiveRules
  rcases place_rule_cases toAscii platform h with
    ⟨rule, rfl, hk, hi⟩ | ⟨rfl, hk, hi⟩ | ⟨rfl, hk, hi⟩ <;>
    simp [DecodedRoute.add, appliedAs, h, hk, hi]

theorem not_of_error {ε α : Type} {f : Except ε α} {P : Prop} {a : α} {e : ε}
    (hok : ∀ {b}, f = .ok b ↔ P ∧ b = a) (h : f = .error e) : ¬ P := by
  intro hp
  have := hok.mpr ⟨hp, rfl⟩
  rw [h] at this
  cases this

theorem place_rules_ok_iff :
    placeRules toAscii platform rules = .ok p ↔
      Places toAscii platform rules ∧ p = placedAs toAscii platform rules := by
  induction rules generalizing p with
  | nil =>
    have hall : Places toAscii platform [] := fun _ h => absurd h List.not_mem_nil
    rw [placeRules, Except.ok.injEq, and_iff_right hall]
    exact eq_comm
  | cons r rest ih =>
    cases hr : placeRule toAscii platform r with
    | error e => simp [placeRules, Places, hr, Except.isOk, Except.toBool, bind, Except.bind]
    | ok q =>
      have hsplit : Places toAscii platform (r :: rest) ↔ Places toAscii platform rest := by
        simp [Places, hr, Except.isOk, Except.toBool]
      cases hrest : placeRules toAscii platform rest with
      | error e =>
        simp [placeRules, hr, hrest, hsplit, not_of_error ih hrest, bind, Except.bind]
      | ok rp =>
        obtain ⟨hplaces, rfl⟩ := ih.mp hrest
        simp only [placeRules, hr, hrest, bind, Except.bind, pure, Except.pure, Except.ok.injEq,
          hsplit, hplaces, true_and, place_rule_ok toAscii platform hr]
        exact eq_comm

def writtenRoute (rules : List RuleDto) : List RuleDto :=
  encodeRoute (.fromRules (rules.filterMap (appliedAs toAscii platform)))
    (sortBy (compareOn RuleDto.id) (keptRules rules))
    (sortBy (compareOn RuleDto.id) (inactiveRules platform rules))

theorem decode_route_ok_iff :
    decodeRoute toAscii rules platform = .ok p ↔ Places toAscii platform rules ∧
      p = ⟨rules.filterMap (appliedAs toAscii platform),
        sortBy (compareOn RuleDto.id) (keptRules rules),
        sortBy (compareOn RuleDto.id) (inactiveRules platform rules)⟩ := by
  unfold decodeRoute
  cases h : placeRules toAscii platform rules with
  | error e => simp [Except.map, not_of_error (place_rules_ok_iff toAscii platform) h]
  | ok q =>
    obtain ⟨hplaces, rfl⟩ := (place_rules_ok_iff toAscii platform).mp h
    simp only [Except.map, Except.ok.injEq, hplaces, true_and, placedAs]
    exact eq_comm

def decodedContent (d : CanonicalRulesJsonV1) : RulesRevisionContent where
  ruleBook := bookOf (d.primary.filterMap (appliedAs toAscii platform))
    (d.secondary.filterMap (appliedAs toAscii platform))
  formatVersion := rulesRevisionFormatVersion
  unrecognized := ⟨sortBy (compareOn RuleDto.id) (keptRules d.primary),
    sortBy (compareOn RuleDto.id) (keptRules d.secondary)⟩
  inactive := ⟨sortBy (compareOn RuleDto.id) (inactiveRules platform d.primary),
    sortBy (compareOn RuleDto.id) (inactiveRules platform d.secondary)⟩

theorem decode_ok_iff {c : RulesRevisionContent} :
    decode toAscii d platform = .ok c ↔ d.schemaVersion ≠ 0 ∧
      (∀ role, Places toAscii platform (d.route role)) ∧ c = decodedContent toAscii platform d := by
  have hroles : (∀ role, Places toAscii platform (d.route role)) ↔
      Places toAscii platform d.primary ∧ Places toAscii platform d.secondary :=
    ⟨fun h => ⟨h .primary, h .secondary⟩, fun h role => by cases role; exacts [h.1, h.2]⟩
  unfold decode
  rw [hroles]
  by_cases hzero : d.schemaVersion = 0
  · simp [hzero]
  · rw [if_neg hzero]
    cases hp : decodeRoute toAscii d.primary platform with
    | error e =>
      simp [bind, Except.bind, not_of_error (decode_route_ok_iff toAscii platform) hp]
    | ok p =>
      cases hs : decodeRoute toAscii d.secondary platform with
      | error e =>
        simp [bind, Except.bind, not_of_error (decode_route_ok_iff toAscii platform) hs]
      | ok s =>
        obtain ⟨hplacesP, rfl⟩ := (decode_route_ok_iff toAscii platform).mp hp
        obtain ⟨hplacesS, rfl⟩ := (decode_route_ok_iff toAscii platform).mp hs
        simp only [bind, Except.bind, pure, Except.pure, Except.ok.injEq, ne_eq, hzero,
          not_false_eq_true, hplacesP, hplacesS, and_self, true_and, decodedContent]
        exact eq_comm

def Reordered (d d' : CanonicalRulesJsonV1) : Prop :=
  d'.schemaVersion = d.schemaVersion ∧ ∀ role, (d.route role).Perm (d'.route role)

def withRoute (d : CanonicalRulesJsonV1) (role : RouteRole) (rules : List RuleDto) :
    CanonicalRulesJsonV1 :=
  match role with
  | .primary => { d with primary := rules }
  | .secondary => { d with secondary := rules }

theorem with_route_version (d : CanonicalRulesJsonV1) (role : RouteRole) (rules : List RuleDto) :
    (withRoute d role rules).schemaVersion = d.schemaVersion := by
  cases role <;> rfl

theorem with_route_same (d : CanonicalRulesJsonV1) (role : RouteRole) (rules : List RuleDto) :
    (withRoute d role rules).route role = rules := by
  cases role <;> rfl

theorem with_route_other {r role : RouteRole} (h : r ≠ role) :
    (withRoute d role rules).route r = d.route r := by
  cases role <;> cases r <;> first | rfl | exact absurd rfl h

/-- Rules with one id are written alike. -/
def IdsTell (rules : List RuleDto) : Prop :=
  ∀ a ∈ rules, ∀ b ∈ rules, a.id = b.id → writtenRule a = writtenRule b

/-- Every order of the rules is decoded, and encodes to one document. -/
def OrderFree (d : CanonicalRulesJsonV1) : Prop :=
  ∀ d', Reordered d d' → ∀ c, decode toAscii d platform = .ok c →
    ∃ c', decode toAscii d' platform = .ok c' ∧ written (encode c') = written (encode c)

theorem applied_order_free {rules' : List RuleDto} (h : rules.Perm rules') :
    (CanonicalRuleSet.fromRules (rules.filterMap (appliedAs toAscii platform))).rules.map
        (fun r => writtenRule (encodeRule r)) =
      (CanonicalRuleSet.fromRules (rules'.filterMap (appliedAs toAscii platform))).rules.map
        fun r => writtenRule (encodeRule r) := by
  apply sort_by_perm_map canonicalOrder (h.filterMap _)
  intro a _ b _ htie
  exact encode_rule_of_tie htie

end

theorem sorted_first_of_id (p : RuleDto → Bool) {a : RuleDto} (ha : p a = true)
    (rest : List RuleDto) :
    (((sortBy (compareOn RuleDto.id) ((a :: rest).filter p)).map writtenRule).filter
      fun r => r.id = a.id).head? = some (writtenRule a) := by
  have hid : ((fun r : RuleDto => decide (r.id = a.id)) ∘ writtenRule) =
      fun r => decide (r.id = a.id) := rfl
  rw [List.filter_map, hid, sort_by_stable, List.filter_cons_of_pos ha,
    List.filter_cons_of_pos (by simp)]
  rfl

theorem aside_order_free_iff (p : RuleDto → Bool) (rules : List RuleDto) :
    (∀ rules', rules.Perm rules' →
      (sortBy (compareOn RuleDto.id) (rules'.filter p)).map writtenRule =
        (sortBy (compareOn RuleDto.id) (rules.filter p)).map writtenRule) ↔
      IdsTell (rules.filter p) := by
  constructor
  · intro h a ha b hb hid
    -- bring each of the two to the front
    have hfront {r : RuleDto} (hr : r ∈ rules.filter p) :
        (((sortBy (compareOn RuleDto.id) (rules.filter p)).map writtenRule).filter
          fun x => x.id = r.id).head? = some (writtenRule r) := by
      obtain ⟨hmem, hp⟩ := List.mem_filter.mp hr
      rw [← h _ (List.perm_cons_erase hmem)]
      exact sorted_first_of_id p hp _
    have hfirst := hfront ha
    rw [hid, hfront hb] at hfirst
    exact (Option.some.inj hfirst).symm
  · intro h rules' hperm
    refine (sort_by_perm_map (compareOn RuleDto.id) (hperm.filter p) ?_).symm
    intro a ha b hb htie
    exact h a ha b hb (compare_text.mp htie)

section
variable (toAscii : Text → Option Text) (platform : HostPlatform) {d' : CanonicalRulesJsonV1}

theorem written_route_map (rules : List RuleDto) :
    (writtenRoute toAscii platform rules).map writtenRule =
      (CanonicalRuleSet.fromRules (rules.filterMap (appliedAs toAscii platform))).rules.map
          (fun r => writtenRule (encodeRule r)) ++
        (sortBy (compareOn RuleDto.id) (keptRules rules)).map writtenRule ++
        (sortBy (compareOn RuleDto.id) (inactiveRules platform rules)).map writtenRule := by
  simp only [writtenRoute, encodeRoute, List.map_append, List.map_map, Function.comp_def]

theorem route_order_free_iff (rules : List RuleDto) :
    (∀ rules', rules.Perm rules' → (writtenRoute toAscii platform rules').map writtenRule =
      (writtenRoute toAscii platform rules).map writtenRule) ↔
      IdsTell (keptRules rules) ∧ IdsTell (inactiveRules platform rules) := by
  have hkept := aside_order_free_iff RuleDto.isUnrecognized rules
  have hinactive := aside_order_free_iff (IsInactive platform) rules
  unfold keptRules inactiveRules
  rw [← hkept, ← hinactive, ← forall_and]
  refine forall_congr' fun rules' => ?_
  rw [← imp_and]
  refine imp_congr_right fun hperm => ?_
  rw [written_route_map, written_route_map, applied_order_free toAscii platform hperm]
  constructor
  · intro h
    -- the three parts are as long in either order
    have hlength : (sortBy (compareOn RuleDto.id) (inactiveRules platform rules')).length =
        (sortBy (compareOn RuleDto.id) (inactiveRules platform rules)).length := by
      rw [(sort_by_perm _ _).length_eq, (sort_by_perm _ _).length_eq]
      exact (hperm.filter _).length_eq.symm
    obtain ⟨hfront, hback⟩ := List.append_inj' h (by simpa using hlength)
    exact ⟨List.append_cancel_left hfront, hback⟩
  · rintro ⟨hk, hi⟩
    exact congrArg₂ (· ++ ·) (congrArg _ hk) hi

theorem written_encode_eq_iff :
    written (encode (decodedContent toAscii platform d')) =
        written (encode (decodedContent toAscii platform d)) ↔
      ∀ role, (writtenRoute toAscii platform (d'.route role)).map writtenRule =
        (writtenRoute toAscii platform (d.route role)).map writtenRule := by
  -- the schema follows from the rules
  have hencode (d : CanonicalRulesJsonV1) : written (encode (decodedContent toAscii platform d)) =
      ⟨requiredSchemaVersion ⟨rulesJsonSchemaVersion,
          (writtenRoute toAscii platform d.primary).map writtenRule,
          (writtenRoute toAscii platform d.secondary).map writtenRule⟩,
        (writtenRoute toAscii platform d.primary).map writtenRule,
        (writtenRoute toAscii platform d.secondary).map writtenRule⟩ := by
    rw [← show written ⟨rulesJsonSchemaVersion, writtenRoute toAscii platform d.primary,
      writtenRoute toAscii platform d.secondary⟩ = ⟨_, _, _⟩ from rfl, written_schema_version]
    rfl
  rw [hencode, hencode, CanonicalRulesJsonV1.mk.injEq]
  constructor
  · rintro ⟨-, hp, hs⟩ role
    cases role with
    | primary => exact hp
    | secondary => exact hs
  · intro h
    have hp := h .primary
    have hs := h .secondary
    simp only [CanonicalRulesJsonV1.route] at hp hs
    rw [hp, hs]
    exact ⟨rfl, rfl, rfl⟩

theorem reordered_places (h : Reordered d d')
    (hplaces : ∀ role, Places toAscii platform (d.route role)) (role : RouteRole) :
    Places toAscii platform (d'.route role) :=
  fun r hr => hplaces role r ((h.2 role).mem_iff.mpr hr)

/-- A document's bytes are free of the order it came in exactly where the ids tell the rules kept
aside on each route apart. -/
theorem order_free_iff (d : CanonicalRulesJsonV1) :
    OrderFree toAscii platform d ↔ ∀ c, decode toAscii d platform = .ok c → ∀ role,
      IdsTell (keptRules (d.route role)) ∧ IdsTell (inactiveRules platform (d.route role)) := by
  constructor
  · intro h c hc role
    obtain ⟨hzero, hplaces, rfl⟩ := (decode_ok_iff toAscii platform).mp hc
    rw [← route_order_free_iff toAscii platform]
    intro rules hperm
    -- the document with this route alone in another order
    have hother : Reordered d (withRoute d role rules) := by
      refine ⟨with_route_version d role rules, fun r => ?_⟩
      by_cases hr : r = role
      · rwa [hr, with_route_same]
      · rw [with_route_other hr]
    obtain ⟨c', hc', hbytes⟩ := h _ hother _ hc
    obtain ⟨-, -, rfl⟩ := (decode_ok_iff toAscii platform).mp hc'
    have hrole := (written_encode_eq_iff toAscii platform).mp hbytes role
    rwa [with_route_same] at hrole
  · intro h d' hother c hc
    obtain ⟨hzero, hplaces, rfl⟩ := (decode_ok_iff toAscii platform).mp hc
    refine ⟨decodedContent toAscii platform d', (decode_ok_iff toAscii platform).mpr
      ⟨hother.1 ▸ hzero, reordered_places toAscii platform hother hplaces, rfl⟩, ?_⟩
    rw [written_encode_eq_iff]
    intro role
    exact (route_order_free_iff toAscii platform _).mpr (h _ hc role) _ (hother.2 role)

end

def throttledRule (comment : String) : RuleDto where
  id := "r1".toList
  enabled := true
  addressMatch := some (.exactFqdn "example.com".toList)
  appMatch := none
  comment := comment.toList
  action := .unrecognized "throttle".toList
  origin := none

def throttledDocument (comments : List String) : CanonicalRulesJsonV1 :=
  ⟨6, comments.map throttledRule, []⟩

/-- Two rules with one id that are kept as they came stay in the order they came. -/
theorem kept_rules_keep_their_order : let d := throttledDocument ["day", "night"]
    let d' := throttledDocument ["night", "day"]
    Reordered d d' ∧ ∃ c c', decode some d .windows = .ok c ∧ decode some d' .windows = .ok c' ∧
      written (encode c) ≠ written (encode c') := by
  refine ⟨⟨rfl, fun role => ?_⟩, _, _, rfl, rfl, by decide⟩
  cases role with
  | primary => exact .swap _ _ _
  | secondary => exact .nil

end NetRuleRouter.WireOrder
