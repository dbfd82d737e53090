import NetRuleRouter.FilterCodegen

/-!
# Route permits against the blocks that guard them

The permits of the additional link's rules must stay below the blocks that
hold traffic back while the tunnel is gone, and those of the main link's rules
below the blocks of encrypted name resolution. A filter a rule emits itself is
weighed by the rule's position, so the order holds exactly while no rule past
the half band emits one.
-/

set_option autoImplicit false

namespace NetRuleRouter.BandedPermits
open TextOps Sorting Numerals IpNetwork Canonical FqdnCache Arbiter FilterPacking
open AppPaths FilterCodegen

/-- A permit a route rule asks for; the holes of a program's block are none. -/
def RoutePermit (f : WfpFilterSpec) : Prop :=
  f.action = .permit ∧ isDenyLoopbackPermit f = false

section
variable {p : RolePass} {ctx : EmitContext} {pos : ℕ} {rule : CanonicalRule} {f : WfpFilterSpec}
variable {ips : List IpAddr} {addrMatch : CanonicalAddressMatch} {app : CanonicalAppMatch}
variable {pieces : List IpBlock} {kind : Text}

section
variable (chunk : FamilyChunk) (layer : WfpLayerKey) (piece : IpBlock) (packet : Bool)
  (action : WfpAction) (weight : ℕ) (id : UInt64)

@[simp] theorem chunk_spec_action : (chunkSpec chunk layer action weight id).action = action := by
  cases chunk <;> rfl

@[simp] theorem chunk_spec_weight : (chunkSpec chunk layer action weight id).weight = weight := by
  cases chunk <;> rfl

@[simp] theorem network_spec_action :
    (networkSpec piece packet action weight id).action = action := by
  unfold networkSpec
  split <;> rfl

@[simp] theorem network_spec_weight :
    (networkSpec piece packet action weight id).weight = weight := by
  unfold networkSpec
  split <;> rfl

@[simp] theorem network_spec_app :
    (networkSpec piece packet action weight id).appPattern = none := by
  unfold networkSpec
  split <;> rfl

end

theorem route_permit_of_no_app (hpermit : f.action = .permit) (happ : f.appPattern = none) :
    RoutePermit f :=
  ⟨hpermit, by simp [isDenyLoopbackPermit, happ]⟩

theorem packed_not_permit {slotBase : ℕ}
    (hf : f ∈ (emitPackedIpFilters p ctx pos rule slotBase kind ips).filters) :
    f.action ≠ .permit := by
  unfold emitPackedIpFilters at hf
  split at hf
  · cases hf
  · rename_i hblock
    obtain ⟨e, -, hf⟩ := List.mem_flatMap.mp hf
    rcases List.mem_cons.mp hf with rfl | hf
    · simpa using hblock
    · split at hf
      · obtain rfl := List.mem_singleton.mp hf
        simp
      · cases hf

theorem kept_not_permit
    (hf : f ∈ (emitKept p ctx pos rule kind addrMatch ips).filters) : f.action ≠ .permit := by
  rcases List.mem_append.mp hf with hf | hf
  · exact packed_not_permit hf
  · cases hf

theorem address_not_permit
    (hf : f ∈ (emitForAddressMatch p ctx pos rule addrMatch).filters) : f.action ≠ .permit := by
  have hsuffix {kind name : Text} {subdomains : List Text} {empty : CodegenDiagnostic}
      (hf : f ∈ (emitSuffixFanout p ctx pos rule kind name addrMatch subdomains empty).filters) :
      f.action ≠ .permit := by
    unfold emitSuffixFanout at hf
    split at hf
    · cases hf
    · exact kept_not_permit hf
  cases addrMatch with
  | subnet block | ipRange range | anyZoneDomain base => cases hf
  | suffixDomain suffix | zone zone => exact hsuffix hf
  | exactIp addr =>
    simp only [emitForAddressMatch] at hf
    split at hf
    · exact kept_not_permit hf
    · cases hf
  | exactFqdn hostname =>
    simp only [emitForAddressMatch] at hf
    split at hf
    · cases hf
    · exact kept_not_permit hf

theorem network_permit_weight
    (hf : f ∈ emitNetworkFilters p ctx pos rule pieces) (hpermit : f.action = .permit) :
    ctx.action = .permit ∧ pieces ≠ [] ∧ ∃ k, f.weight = ruleWeight ctx.baseWeight pos k := by
  obtain ⟨e, he, hf⟩ := List.mem_flatMap.mp hf
  have hsome : pieces ≠ [] := List.ne_nil_of_mem (List.fst_mem_of_mem_zipIdx he)
  rcases List.mem_cons.mp hf with rfl | hf
  · exact ⟨by simpa using hpermit, hsome, e.2, by simp⟩
  · split at hf
    · obtain rfl := List.mem_singleton.mp hf
      simp at hpermit
    · cases hf

theorem network_permit_exists (hctx : ctx.action = .permit)
    (hsome : pieces ≠ []) : ∃ f ∈ emitNetworkFilters p ctx pos rule pieces, RoutePermit f := by
  obtain ⟨piece, rest, rfl⟩ := List.exists_cons_of_ne_nil hsome
  refine ⟨_, List.mem_flatMap.mpr ⟨(piece, 0), by simp, List.mem_cons_self⟩, ?_⟩
  apply route_permit_of_no_app
  · simpa using hctx
  · simp

theorem app_permit_weight {byPath : Bool} {path : Text} {k : ℕ}
    (hf : f ∈ appFilters p ctx pos rule byPath path k) (hroute : RoutePermit f) :
    ctx.action = .permit ∧ ∃ k, f.weight = ruleWeight ctx.baseWeight pos k := by
  rcases List.mem_cons.mp hf with rfl | hf
  · exact ⟨hroute.1, _, rfl⟩
  · split at hf
    · -- the companions of a deny: a block, and two holes in it
      have hnone := hroute.2
      simp only [denyAppCompanions, List.mem_cons, List.not_mem_nil, or_false] at hf
      rcases hf with rfl | rfl | rfl
      · cases hroute.1
      · cases hnone
      · cases hnone
    · cases hf

def programsOf (p : RolePass) (action : RuleAction) (app : CanonicalAppMatch) : List Text :=
  match app.pattern with
  | .exact s | .glob s => p.resolver.resolve s
  | .path path =>
    (pathRuleTargets path p.sid (effectOf p (emitContext p action)) app.overrideRequested p.resolver
      p.protection).programs

/-- A route rule that emits a filter of its own: a network with a piece left after carving, or a
program found on this machine. -/
structure EmitsOwn (p : RolePass) (rule : CanonicalRule) : Prop where
  enabled : rule.enabled = true
  route : rule.action ≠ .block
  supported : ruleVerdict rule p.shapes = .supported
  targets : (∃ blocks, rule.addressMatch.bind CanonicalAddressMatch.ipBlocks = some blocks ∧
      (p.carving.pieces blocks (linkOf p.role) rule.action p.families).pieces ≠ []) ∨
    rule.addressMatch = none ∧ ∃ app, rule.appMatch = some app ∧ programsOf p rule.action app ≠ []

theorem emit_context_route (h : rule.action ≠ .block) :
    emitContext p rule.action = ⟨.permit, roleBase p.role, [], false⟩ := by
  cases hact : rule.action with
  | block => exact absurd hact h
  | route | verify => rfl

theorem emit_context_permit (h : (emitContext p rule.action).action = .permit) :
    rule.action ≠ .block := by
  intro hblock
  rw [hblock] at h
  cases h

theorem app_targets_cases (p : RolePass) (rule : CanonicalRule) (app : CanonicalAppMatch) :
    (∃ t, appTargets p (emitContext p rule.action) rule app = .ok t ∧
      t.paths = programsOf p rule.action app) ∨
    ∃ d, appTargets p (emitContext p rule.action) rule app = .error d ∧
      programsOf p rule.action app = [] := by
  unfold appTargets programsOf
  cases app.pattern with
  | exact s | glob s => exact Or.inl ⟨_, rfl, rfl⟩
  | path path =>
    dsimp only
    split
    · rename_i reason hrefused
      exact Or.inr ⟨_, rfl, refused_programs hrefused⟩
    · split
      · rename_i hother
        exact Or.inr ⟨_, rfl, unfound_programs (by rw [hother]; decide)⟩
      · exact Or.inl ⟨_, rfl, rfl⟩

theorem program_permit_weight
    (hf : f ∈ (emitForAppMatch p (emitContext p rule.action) pos rule app).filters)
    (hroute : RoutePermit f) :
    rule.action ≠ .block ∧ programsOf p rule.action app ≠ [] ∧
      ∃ k, f.weight = ruleWeight (emitContext p rule.action).baseWeight pos k := by
  unfold emitForAppMatch at hf
  rcases app_targets_cases p rule app with ⟨t, ht, hpaths⟩ | ⟨d, hd, -⟩
  · -- the addresses a program was seen to use go to the band, so only its programs remain
    have hprograms : f ∈ (emitPrograms p (emitContext p rule.action) pos rule t).filters := by
      simp only [ht] at hf
      split at hf
      · exact hf
      · rcases List.mem_append.mp hf with hf | hf
        · exact hf
        · exact absurd hroute.1 (packed_not_permit hf)
    obtain ⟨e, he, hf⟩ := List.mem_flatMap.mp hprograms
    obtain ⟨hctx, hweight⟩ := app_permit_weight hf hroute
    refine ⟨emit_context_permit hctx, ?_, hweight⟩
    rw [← hpaths]
    exact List.ne_nil_of_mem (List.mem_of_mem_take (List.fst_mem_of_mem_zipIdx he))
  · simp only [hd] at hf
    cases hf

theorem program_permit_exists (hroute : rule.action ≠ .block)
    (hsome : programsOf p rule.action app ≠ []) :
    ∃ f ∈ (emitForAppMatch p (emitContext p rule.action) pos rule app).filters, RoutePermit f := by
  rcases app_targets_cases p rule app with ⟨t, ht, hpaths⟩ | ⟨d, -, hnone⟩
  · rw [← hpaths] at hsome
    obtain ⟨path, rest, hcons⟩ := List.exists_cons_of_ne_nil hsome
    have hctx := emit_context_route (p := p) hroute
    have hfirst : (path, 0) ∈ (t.paths.take
        (if t.byPath then t.paths.length else appPathFanoutCap)).zipIdx := by
      rw [hcons]
      split
      · simp
      · simp [appPathFanoutCap]
    have hown : appSpec .aleAuthConnectV4 .permit (ruleWeight (roleBase p.role) pos 0)
        (filterIdFor p.sid (roleSlug p.role) rule.id ([] ++ "app".toList) path) p.sid path none none
          ∈ (emitPrograms p (emitContext p rule.action) pos rule t).filters := by
      refine List.mem_flatMap.mpr ⟨_, hfirst, ?_⟩
      rw [hctx]
      simp [appFilters]
    have hall : (emitPrograms p (emitContext p rule.action) pos rule t).filters ⊆
        (emitForAppMatch p (emitContext p rule.action) pos rule app).filters := by
      simp only [emitForAppMatch, ht]
      rw [if_neg (by simp [hctx])]
      exact List.subset_append_left _ _
    exact ⟨_, hall hown, rfl, rfl⟩
  · exact absurd hnone hsome

theorem own_permit_weight (hf : f ∈ (generateForRule p pos rule).filters) (hroute : RoutePermit f) :
    EmitsOwn p rule ∧ ∃ k, f.weight = ruleWeight (roleBase p.role) pos k := by
  unfold generateForRule at hf
  split at hf
  · cases hf
  rename_i henabled
  split at hf
  · cases hf
  split at hf
  · cases hf
  rename_i hsupported
  have hweight (hact : rule.action ≠ .block) :
      (emitContext p rule.action).baseWeight = roleBase p.role := by
    rw [emit_context_route hact]
  dsimp only at hf
  split at hf
  · rename_i blocks hblocks
    obtain ⟨hctx, hsome, k, hk⟩ := network_permit_weight hf hroute.1
    have hact := emit_context_permit hctx
    exact ⟨⟨by simpa using henabled, hact, hsupported, Or.inl ⟨blocks, hblocks, hsome⟩⟩, k,
      hweight hact ▸ hk⟩
  · split at hf
    · exact absurd hroute.1 (address_not_permit hf)
    · rename_i app haddress happ
      obtain ⟨hact, hsome, k, hk⟩ := program_permit_weight hf hroute
      exact ⟨⟨by simpa using henabled, hact, hsupported,
        Or.inr ⟨haddress, app, happ, hsome⟩⟩, k, hweight hact ▸ hk⟩
    · cases hf

theorem own_permit_exists (pos : ℕ) (h : EmitsOwn p rule) :
    ∃ f ∈ (generateForRule p pos rule).filters, RoutePermit f := by
  have hctx := emit_context_route (p := p) h.route
  unfold generateForRule
  rw [if_neg (by simp [h.enabled])]
  rcases h.targets with ⟨blocks, hblocks, hsome⟩ | ⟨haddress, app, happ, hsome⟩
  · have haddress : rule.addressMatch.isNone = false := by
      cases hnone : rule.addressMatch with
      | none => simp [hnone] at hblocks
      | some m => rfl
    simp only [haddress, Bool.false_and, Bool.false_eq_true, if_false, h.supported, hblocks]
    exact network_permit_exists (by rw [hctx]) hsome
  · simp only [haddress, happ, Option.isNone_none, Option.isNone_some, Bool.and_false,
      Bool.false_eq_true, if_false, h.supported, Option.bind_none]
    exact program_permit_exists h.route hsome

theorem band_permit (hf : f ∈ flushRouteBand p ips) :
    ∃ k, f.weight = ruleWeight (roleBase p.role) 0 k := by
  obtain ⟨e, -, rfl⟩ := List.mem_map.mp hf
  exact ⟨e.2, by simp⟩

theorem mem_emit_rules (rules : List CanonicalRule) :
    f ∈ (emitRules p pos rules).filters ↔
      ∃ i rule, rules[i]? = some rule ∧ f ∈ (generateForRule p (pos + i) rule).filters := by
  induction rules generalizing pos with
  | nil => simp [emitRules, Emission.report]
  | cons rule rules ih =>
    rw [emitRules, Emission.append, List.mem_append, ih]
    constructor
    · rintro (h | ⟨i, r, hr, h⟩)
      · exact ⟨0, rule, rfl, h⟩
      · exact ⟨i + 1, r, hr, by rwa [show pos + (i + 1) = pos + 1 + i by omega]⟩
    · rintro ⟨i, r, hr, h⟩
      cases i with
      | zero =>
        obtain rfl : rule = r := by simpa using hr
        exact Or.inl h
      | succ i => exact Or.inr ⟨i, r, hr, by rwa [show pos + 1 + i = pos + (i + 1) by omega]⟩

theorem role_permit_weight {rules : List CanonicalRule} (hf : f ∈ roleFilters p rules)
    (hroute : RoutePermit f) :
    ∃ pos k, f.weight = ruleWeight (roleBase p.role) pos k ∧
      (pos = 0 ∨ ∃ rule, rules[pos]? = some rule ∧ EmitsOwn p rule) := by
  rcases List.mem_append.mp hf with hf | hf
  · obtain ⟨pos, rule, hrule, hf⟩ := (mem_emit_rules rules).mp hf
    obtain ⟨howns, k, hk⟩ := own_permit_weight hf hroute
    rw [zero_add] at hk
    exact ⟨pos, k, hk, Or.inr ⟨rule, hrule, howns⟩⟩
  · obtain ⟨k, hk⟩ := band_permit hf
    exact ⟨0, k, hk, Or.inl rfl⟩

theorem lower_half_iff (rules : List CanonicalRule) :
    (∀ f ∈ roleFilters p rules, RoutePermit f → f.weight < roleBase p.role + bandWidth / 2) ↔
      ∀ pos rule, rules[pos]? = some rule → halfBandSlots ≤ pos → ¬EmitsOwn p rule := by
  constructor
  · intro h pos rule hrule hpos howns
    obtain ⟨f, hf, hroute⟩ := own_permit_exists pos howns
    have hmem : f ∈ roleFilters p rules := List.mem_append_left _
      ((mem_emit_rules rules).mpr ⟨pos, rule, hrule, by rwa [zero_add]⟩)
    obtain ⟨-, k, hk⟩ := own_permit_weight hf hroute
    have hlow := h f hmem hroute
    rw [hk, rule_weight_lt_half_iff] at hlow
    omega
  · intro h f hf hroute
    obtain ⟨pos, k, hk, hpos⟩ := role_permit_weight hf hroute
    rw [hk, rule_weight_lt_half_iff]
    rcases hpos with rfl | ⟨rule, hrule, howns⟩
    · decide
    · by_contra hpast
      exact h pos rule hrule (by omega) howns

end

section
variable (caps : EnforcementCapabilities) (input : CodegenInput)

def passOf (role : RouteRole) : RolePass := input.rolePass caps (ruleShapeSupport caps) role

def filtersOf (role : RouteRole) : List WfpFilterSpec :=
  roleFilters (passOf caps input role) (input.ruleBook.setFor role).rules

theorem generated_filters :
    (generateFilters caps input).filters =
      filtersOf caps input .primary ++ filtersOf caps input .secondary := rfl

/-- Route permits of the additional link stay below the guards of the tunnel; those of the main
link stay in its band, below the blocks of encrypted name resolution. -/
def GuardsHold : Prop :=
  (∀ f ∈ filtersOf caps input .secondary, RoutePermit f →
    f.weight < catchallBlockWeight ∧ f.weight < appKillswitchBlockBase) ∧
  ∀ f ∈ filtersOf caps input .primary, RoutePermit f →
    basePrimary ≤ f.weight ∧ f.weight < dohBlockBase

/-- The order holds exactly for the books with no rule past the half band that emits a filter of
its own. -/
theorem guards_hold_iff :
    GuardsHold caps input ↔ ∀ role pos rule, (input.ruleBook.setFor role).rules[pos]? = some rule →
      halfBandSlots ≤ pos → ¬EmitsOwn (passOf caps input role) rule := by
  have hguard (w : ℕ) : w < catchallBlockWeight ∧ w < appKillswitchBlockBase ↔
      w < roleBase .secondary + bandWidth / 2 := by
    have hcatchall : catchallBlockWeight = roleBase .secondary + bandWidth / 2 := catchall_half
    have hkill : catchallBlockWeight ≤ appKillswitchBlockBase := by decide
    omega
  have hdoh (w : ℕ) : w < dohBlockBase ↔ w < roleBase .primary + bandWidth / 2 := by
    rw [doh_half]
    rfl
  have hbase {f : WfpFilterSpec} (hf : f ∈ filtersOf caps input .primary) (hroute : RoutePermit f) :
      basePrimary ≤ f.weight := by
    obtain ⟨pos, k, hk, -⟩ := role_permit_weight hf hroute
    exact hk ▸ rule_weight_ge _ pos k
  constructor
  · rintro ⟨hsecondary, hprimary⟩ role
    cases role with
    | primary => exact (lower_half_iff _).mp fun f hf hroute =>
        (hdoh _).mp (hprimary f hf hroute).2
    | secondary =>
      exact (lower_half_iff _).mp fun f hf hroute => (hguard _).mp (hsecondary f hf hroute)
  · intro h
    refine ⟨fun f hf hroute => ?_, fun f hf hroute => ?_⟩
    · exact (hguard _).mpr ((lower_half_iff _).mpr (h .secondary) f hf hroute)
    · exact ⟨hbase hf hroute, (hdoh _).mpr ((lower_half_iff _).mpr (h .primary) f hf hroute)⟩

end

def numberedProgram (n : ℕ) : CanonicalRule :=
  ⟨'r' :: numeral 10 n, true, none, some ⟨.exact (numeral 10 n ++ ".exe".toList), false, false⟩, [],
    .route, none⟩

/-- The additional link routes numbered programs, and each is found on this machine. -/
def numberedInput (programs : List ℕ) : CodegenInput where
  sid := "S-1-5-21".toList
  ruleBook := bookOf [] (programs.map numberedProgram)
  fqdnCache := noNames
  appObservations := ⟨⟨fun _ => [], fun _ => [], fun _ _ => false⟩, fun _ ips n => ips.take n,
    fun _ _ => false⟩
  appResolver :=
    ⟨fun name => ["C:/Apps/".toList ++ name], fun _ _ => ⟨.unsupported, none, [], false⟩⟩
  protection := ⟨fun _ _ => none, fun _ _ => [], fun _ _ _ _ _ => false⟩
  secondaryIpDenylist := []
  zonePriorityOverIp := false
  appRulesTakeAllAddresses := false
  families := .both
  packetBlocks := false

section
variable (caps : EnforcementCapabilities) (programs : List ℕ)

theorem numbered_program_emits (n : ℕ) :
    EmitsOwn (passOf caps (numberedInput programs) .secondary) (numberedProgram n) where
  enabled := rfl
  route := by simp [numberedProgram]
  supported := rfl
  targets := Or.inr ⟨rfl, _, rfl, List.cons_ne_nil _ _⟩

theorem permit_past_guards (h : halfBandSlots < programs.length) :
    ∃ f ∈ filtersOf caps (numberedInput programs) .secondary, RoutePermit f ∧
      catchallBlockWeight ≤ f.weight := by
  have hrules : ((numberedInput programs).ruleBook.setFor .secondary).rules.Perm
      (programs.map numberedProgram) := sort_by_perm _ _
  have hlast : halfBandSlots <
      ((numberedInput programs).ruleBook.setFor .secondary).rules.length := by
    rwa [hrules.length_eq, List.length_map]
  obtain ⟨n, -, hn⟩ := List.mem_map.mp (hrules.mem_iff.mp (List.getElem_mem hlast))
  by_contra hnone
  push Not at hnone
  refine (lower_half_iff _).mp (fun f hf hroute => ?_) halfBandSlots _
    (List.getElem?_eq_getElem hlast) le_rfl (hn ▸ numbered_program_emits caps programs n)
  have hbelow := hnone f hf hroute
  rwa [catchall_half] at hbelow

end

/-- One program too many: its permit stands above the block of everything. -/
theorem crowded_permit_passes_guards :
    ∃ f ∈ (generateFilters ⟨true, true⟩ (numberedInput (List.range 2049))).filters,
      f ∈ filtersOf ⟨true, true⟩ (numberedInput (List.range 2049)) .secondary ∧
        RoutePermit f ∧ catchallBlockWeight ≤ f.weight := by
  obtain ⟨f, hf, h⟩ := permit_past_guards ⟨true, true⟩ (List.range 2049)
    (by rw [List.length_range]; decide)
  rw [generated_filters]
  exact ⟨f, List.mem_append_right _ hf, hf, h⟩

end NetRuleRouter.BandedPermits
