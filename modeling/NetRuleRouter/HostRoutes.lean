import NetRuleRouter.RouteCodegen

/-!
# What the host routes of a link cover

The fan-out is a run over the rules of one link. Every route it makes is a
host route through the link's target for an address the other link does not
own, and below the caps every address a rule asks for, may steer and can be
reached through the link has its route in the end.
-/

set_option autoImplicit false

namespace NetRuleRouter.HostRoutes
open TextOps IpNetwork Canonical FqdnCache LongestPrefix Arbiter
open HostClaims (mem_route_rules)
open NamedAddresses SteeringClaims NetworkRoutes RouteCodegen

/-- The state of a fan-out: host routes through the target for allowed addresses, and the seen
addresses are theirs. -/
structure Fans (target : SecondaryRouteTarget) (allowed : IpAddr → Prop) (s : Fanout) : Prop where
  seen : ∀ ip ∈ s.seen, ∃ r ∈ s.routes, r.destination = ip
  hosts : ∀ r ∈ s.routes, r.prefixLength = hostPrefixFor r.destination ∧
    r.interfaceIndex = target.interfaceIndex ∧ allowed r.destination

/-- What fanning out does to the state: no seen address is forgotten, and `Fans` is kept. -/
def Grows (target : SecondaryRouteTarget) (allowed : IpAddr → Prop) (s s' : Fanout) : Prop :=
  s.seen ⊆ s'.seen ∧ (Fans target allowed s → Fans target allowed s')

def Reachable (target : SecondaryRouteTarget) (ip : IpAddr) : Prop :=
  isNonRoutable ip = false ∧ (nextHopFor ip target).isSome = true

section
variable {target : SecondaryRouteTarget} {allowed : IpAddr → Prop} {s : Fanout} {ip : IpAddr}
variable {ips : List IpAddr}

theorem push_route_cases :
    ((pushRoute target ip s).2 = s ∧
        ((pushRoute target ip s).1 = false → maxRoutesPerRule ≤ s.perRule) ∧
        ((pushRoute target ip s).1 = true → Reachable target ip → ip ∈ s.seen)) ∨
      ∃ hop, pushRoute target ip s =
        (true, ⟨ip :: s.seen, s.routes ++ [hostRoute ip hop target], s.perRule + 1⟩) := by
  unfold pushRoute
  split
  · rename_i hcap
    exact Or.inl ⟨rfl, fun _ => hcap, by simp⟩
  · split
    · rename_i hnon
      exact Or.inl ⟨rfl, by simp, fun _ h => by simp [Reachable, hnon] at h⟩
    · split
      · rename_i hhop
        exact Or.inl ⟨rfl, by simp, fun _ h => by simp [Reachable, hhop] at h⟩
      · rename_i hop hhop
        split
        · rename_i hseen
          exact Or.inl ⟨rfl, by simp, fun _ _ => hseen⟩
        · exact Or.inr ⟨hop, rfl⟩

theorem Grows.rfl : Grows target allowed s s := ⟨fun _ h => h, id⟩

theorem Grows.trans {s' s'' : Fanout} (h : Grows target allowed s s')
    (h' : Grows target allowed s' s'') : Grows target allowed s s'' :=
  ⟨fun _ hin => h'.1 (h.1 hin), fun hfans => h'.2 (h.2 hfans)⟩

theorem push_route_grows (ha : allowed ip) : Grows target allowed s (pushRoute target ip s).2 := by
  rcases push_route_cases with ⟨heq, -⟩ | ⟨hop, heq⟩
  · rw [heq]
    exact .rfl
  · rw [heq]
    refine ⟨fun _ h => List.mem_cons_of_mem _ h, fun h => ⟨fun a hin => ?_, fun r hr => ?_⟩⟩
    · rcases List.mem_cons.mp hin with rfl | hin
      · exact ⟨hostRoute a hop target, by simp, rfl⟩
      · obtain ⟨r, hr, hd⟩ := h.seen a hin
        exact ⟨r, List.mem_append_left _ hr, hd⟩
    · rcases List.mem_append.mp hr with hr | hr
      · exact h.hosts r hr
      · obtain rfl := List.mem_singleton.mp hr
        exact ⟨rfl, rfl, ha⟩

theorem push_routes_grows (ha : ∀ ip ∈ ips, allowed ip) :
    Grows target allowed s (pushRoutes target ips s) := by
  induction ips generalizing s with
  | nil => exact .rfl
  | cons ip ips ih =>
    have hstep := @push_route_grows target allowed s ip (ha ip List.mem_cons_self)
    rw [pushRoutes]
    split
    · exact hstep.trans (ih fun a hmem => ha a (List.mem_cons_of_mem _ hmem))
    · exact hstep

theorem push_routes_covers (hcap : (pushRoutes target ips s).perRule < maxRoutesPerRule)
    (hmem : ip ∈ ips) (hr : Reachable target ip) : ip ∈ (pushRoutes target ips s).seen := by
  induction ips generalizing s with
  | nil => simp at hmem
  | cons a ips ih =>
    rw [pushRoutes] at hcap ⊢
    cases hflag : (pushRoute target a s).1 with
    | false =>
      simp only [hflag, Bool.false_eq_true, if_false] at hcap
      rcases push_route_cases with ⟨heq, hstop, -⟩ | ⟨hop, heq⟩
      · rw [heq] at hcap
        exact absurd (hstop hflag) (not_le.mpr hcap)
      · simp [heq] at hflag
    | true =>
      simp only [hflag, if_true] at hcap ⊢
      rcases List.mem_cons.mp hmem with rfl | hmem
      · apply (@push_routes_grows target (fun _ => True) _ _ fun _ _ => trivial).1
        rcases push_route_cases with ⟨heq, -, hseen⟩ | ⟨hop, heq⟩
        · rw [heq]
          exact hseen hflag hr
        · simp [heq]
      · exact ih hcap hmem

end

section
variable {target : SecondaryRouteTarget} {cache : FqdnCacheSnapshot} {gate : AppDestinationGate}
variable {o : SettledOwnership} {link : Link} {s : Fanout} {r : CanonicalRule} {ip : IpAddr}

def NotOther (o : SettledOwnership) (link : Link) (ip : IpAddr) : Prop :=
  o.ownerOf ip ≠ some (otherLink link)

theorem steer_not_other (h : o.addressRuleMaySteer ip link = true) : NotOther o link ip := by
  cases link with
  | main => simpa [SettledOwnership.addressRuleMaySteer, NotOther, otherLink] using h
  | additional =>
    simp only [SettledOwnership.addressRuleMaySteer, Bool.and_eq_true, bne_iff_ne] at h
    exact h.2

theorem claim_not_other (h : o.appRuleMayClaim ip link = true) : NotOther o link ip := by
  intro hown
  rw [SettledOwnership.appRuleMayClaim, hown] at h
  cases link <;> simp [otherLink] at h

theorem refusal_none {bits : BitVec 32} (h : gate.refusal link bits = none) :
    gate.ownership.appRuleMayClaim (.v4 bits) link = true := by
  by_contra hno
  rw [AppDestinationGate.refusal, if_pos (by simpa using hno)] at h
  cases h

theorem mem_admitted {pattern : Text} :
    ip ∈ admittedAddresses gate link pattern ↔
      ∃ bits ∈ gate.observations.ipsForApp pattern, gate.refusal link bits = none ∧
        ip = .v4 bits := by
  simp only [admittedAddresses, AppDestinationGate.admission, appIpv6Routes, List.filter_false,
    List.map_nil, List.append_nil, List.mem_map, List.mem_filter, Option.isNone_iff_eq_none,
    and_assoc]
  exact exists_congr fun bits => and_congr_right fun _ => and_congr_right fun _ => eq_comm

theorem route_rule_grows (hg : gate.ownership = o) :
    Grows target (NotOther o link) s (routeRule target cache gate o link s r).1 := by
  have hreset : Grows target (NotOther o link) s { s with perRule := 0 } :=
    ⟨fun _ h => h, fun h => ⟨h.seen, h.hosts⟩⟩
  unfold routeRule
  dsimp only
  split
  · exact hreset
  · split
    · exact hreset
    · unfold routeApp
      dsimp only
      split
      · exact hreset
      · refine hreset.trans (push_routes_grows fun ip hip => ?_)
        obtain ⟨bits, -, hok, rfl⟩ := mem_admitted.mp hip
        exact claim_not_other (hg ▸ refusal_none hok)
    · refine hreset.trans (push_routes_grows fun ip hip => ?_)
      exact steer_not_other (List.mem_filter.mp hip).2

theorem address_rule_covers
    (hcap : (routeRule target cache gate o link s r).1.perRule < maxRoutesPerRule)
    (he : r.enabled = true) (hn : r.appMatch = none) (ha : r.action ≠ .block)
    (hip : ip ∈ askedAddresses cache r) (hs : o.addressRuleMaySteer ip link = true)
    (hr : Reachable target ip) : ip ∈ (routeRule target cache gate o link s r).1.seen := by
  have hkeep : ¬(!r.enabled || r.action == .block) = true := by simp [he, ha]
  have heq : routeRule target cache gate o link s r =
      routeAddresses target cache o link r { s with perRule := 0 } := by
    simp only [routeRule, if_neg hkeep, hn]
  rw [heq] at hcap ⊢
  exact push_routes_covers hcap (List.mem_filter.mpr ⟨hip, hs⟩) hr

theorem app_rule_covers {app : CanonicalAppMatch}
    (hcap : (routeRule target cache gate o link s r).1.perRule < maxRoutesPerRule)
    (he : r.enabled = true) (hn : r.appMatch = some app) (hd : r.addressMatch = none)
    (ha : r.action ≠ .block) (hip : ip ∈ admittedAddresses gate link app.pattern.asStr)
    (hr : Reachable target ip) : ip ∈ (routeRule target cache gate o link s r).1.seen := by
  have hkeep : ¬(!r.enabled || r.action == .block) = true := by simp [he, ha]
  have hsome : ¬((gate.admission app.pattern.asStr link).admitted.isEmpty &&
      (gate.admission app.pattern.asStr link).admittedV6.isEmpty &&
      (gate.admission app.pattern.asStr link).refused.isEmpty) = true := by
    obtain ⟨bits, hbits, hok, -⟩ := mem_admitted.mp hip
    have hmem : bits ∈ (gate.admission app.pattern.asStr link).admitted :=
      List.mem_filter.mpr ⟨hbits, by simp [hok]⟩
    simp [List.isEmpty_iff, List.ne_nil_of_mem hmem]
  have heq : (routeRule target cache gate o link s r).1 =
      pushRoutes target (admittedAddresses gate link app.pattern.asStr)
        { s with perRule := 0 } := by
    simp only [routeRule, if_neg hkeep, hn, hd, routeApp, if_neg hsome]
  rw [heq] at hcap ⊢
  exact push_routes_covers hcap hip hr

/-- Along the run no rule comes to its cap. -/
def BelowCap (target : SecondaryRouteTarget) (cache : FqdnCacheSnapshot)
    (gate : AppDestinationGate) (o : SettledOwnership) (link : Link) :
    List CanonicalRule → Fanout → Prop
  | [], _ => True
  | r :: rules, s =>
    (routeRule target cache gate o link s r).1.perRule < maxRoutesPerRule ∧
      BelowCap target cache gate o link rules (routeRule target cache gate o link s r).1

instance decidableBelowCap : (rules : List CanonicalRule) → (s : Fanout) →
    Decidable (BelowCap target cache gate o link rules s)
  | [], _ => inferInstanceAs (Decidable True)
  | r :: rules, s =>
    @instDecidableAnd _ _ (Nat.decLt _ _)
      (decidableBelowCap rules (routeRule target cache gate o link s r).1)

variable {rules : List CanonicalRule}

theorem route_all_grows (hg : gate.ownership = o) :
    Grows target (NotOther o link) s (routeAll target cache gate o link rules s).1 := by
  induction rules generalizing s with
  | nil => exact .rfl
  | cons r rules ih => exact (route_rule_grows hg).trans ih

theorem route_all_covers (hg : gate.ownership = o)
    (hcap : BelowCap target cache gate o link rules s) (hr : r ∈ rules)
    (hrule : ∀ s, (routeRule target cache gate o link s r).1.perRule < maxRoutesPerRule →
      ip ∈ (routeRule target cache gate o link s r).1.seen) :
    ip ∈ (routeAll target cache gate o link rules s).1.seen := by
  induction rules generalizing s with
  | nil => simp at hr
  | cons first rules ih =>
    rcases List.mem_cons.mp hr with rfl | hr
    · exact (@route_all_grows target cache gate o link _ rules hg).1 (hrule s hcap.1)
    · exact ih hcap.2 hr

end

section
variable {rules : CanonicalRuleSet} {target : SecondaryRouteTarget} {cache : FqdnCacheSnapshot}
variable {observations : AppObservationLookup} {denied : List (BitVec 32)} {o : SettledOwnership}
variable {link : Link} {ip : IpAddr}

theorem generated_fans :
    Fans target (NotOther o link) (routeAll target cache
      (AppDestinationGate.forRuleSet o observations rules denied) o link rules.rules
        ⟨[], [], 0⟩).1 := by
  exact (@route_all_grows target cache (.forRuleSet o observations rules denied) o link _ _ rfl).2
    ⟨by simp, by simp⟩

theorem generated_hosts {route : RouteEntry}
    (h : route ∈ (generateSecondaryRoutes rules target cache observations denied o link).routes) :
    route.prefixLength = hostPrefixFor route.destination ∧
      route.interfaceIndex = target.interfaceIndex ∧ NotOther o link route.destination :=
  generated_fans.hosts route h

def SetBelowCap (rules : CanonicalRuleSet) (target : SecondaryRouteTarget)
    (cache : FqdnCacheSnapshot) (observations : AppObservationLookup) (denied : List (BitVec 32))
    (o : SettledOwnership) (link : Link) : Prop :=
  BelowCap target cache (AppDestinationGate.forRuleSet o observations rules denied) o link
    rules.rules ⟨[], [], 0⟩

theorem generated_names {r : CanonicalRule}
    (hcap : SetBelowCap rules target cache observations denied o link)
    (hr : r ∈ Arbiter.routeRules rules) (hip : NamesAddress cache ip r)
    (hs : o.addressRuleMaySteer ip link = true) (hreach : Reachable target ip) :
    ∃ route ∈ (generateSecondaryRoutes rules target cache observations denied o link).routes,
      route.destination = ip := by
  obtain ⟨hmem, he, hn, ha⟩ := mem_route_rules.mp hr
  have hasked : ip ∈ askedAddresses cache r := by
    rw [askedAddresses, List.mem_append, List.mem_flatMap, Option.mem_toList]
    exact hip
  exact generated_fans.seen ip (route_all_covers rfl hcap hmem fun s hs' =>
    address_rule_covers hs' he hn ha hasked hs hreach)

theorem generated_programs {pattern : Text} {bits : BitVec 32}
    (hcap : SetBelowCap rules target cache observations [] o link)
    (hp : pattern ∈ routedAppPatterns rules) (hobs : bits ∈ observations.ipsForApp pattern)
    (htake : o.appTakeover = true) (hown : o.ownerOf (.v4 bits) = some link)
    (hreach : Reachable target (.v4 bits)) :
    ∃ route ∈ (generateSecondaryRoutes rules target cache observations [] o link).routes,
      route.destination = .v4 bits := by
  obtain ⟨r, hmem, he, ha, hd, app, hn, rfl⟩ := mem_routed_patterns.mp hp
  have hclaim : o.appRuleMayClaim (.v4 bits) link = true := by
    simp [SettledOwnership.appRuleMayClaim, hown]
  have hadmitted : (.v4 bits) ∈ admittedAddresses
      (AppDestinationGate.forRuleSet o observations rules []) link app.pattern.asStr := by
    refine mem_admitted.mpr ⟨bits, hobs, ?_, rfl⟩
    simp [AppDestinationGate.refusal, AppDestinationGate.forRuleSet, hclaim, htake]
  exact generated_fans.seen _ (route_all_covers rfl hcap hmem fun s hs' =>
    app_rule_covers hs' he hn hd (by simp [ha]) hadmitted hreach)

end

end NetRuleRouter.HostRoutes
