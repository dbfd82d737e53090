import NetRuleRouter.RoutedNetworks
import NetRuleRouter.HostRoutes

/-!
# The network plan in the route table

Lowering a plan adds the host routes it carves and one route for each planned
network; a network of one address that is routed as a host already is that
route. What the table carries at an address is then read off the plan.
-/

set_option autoImplicit false

namespace NetRuleRouter.LoweredPlan
open Sorting IpNetwork LongestPrefix Arbiter BlockGeometry NetworkRoutes RoutedNetworks
open RouteCodegen

theorem mem_explicit_inside {o : AddressOwnership} {network : IpBlock} {ip : IpAddr} :
    ip ∈ explicitInside o network ↔
      (ip ∈ o.routeRank.map Prod.fst ∨ ip ∈ o.appTaken.map Prod.fst) ∧
        network.contains ip = true := by
  have hsorted : Sorted addrOrder
      (addressSet (o.routeRank.map Prod.fst ++ o.appTaken.map Prod.fst)) :=
    (sort_by_sorted addrOrder _).sublist (List.dedup_sublist _)
  rw [explicitInside, mem_slice addrOrder hsorted, mem_address_set, List.mem_append, not_before_iff,
    in_range_iff]
  · intro a b hab hb
    rw [Ordering.isLT_iff_eq_lt] at hb ⊢
    exact Std.TransCmp.lt_of_isLE_of_lt hab hb
  · intro a b hab hb
    exact Std.TransCmp.isLE_trans hab hb

theorem narrowest_holder_some {networks : List (Link × IpBlock)} {ip : IpAddr} {link : Link}
    (h : narrowestHolder networks ip = some link) :
    ∃ p, (link, p) ∈ networks ∧ p.contains ip = true ∧
      ∀ e ∈ networks, e.2.contains ip = true → e.2.prefixLen ≤ p.prefixLen := by
  have hrun (best : Option (Link × IpBlock)) (hbest : networks.foldl (fun best e =>
        if e.2.contains ip && best.all fun b => decide (b.2.prefixLen ≤ e.2.prefixLen) then some e
        else best) none = best) :
      (∀ b ∈ best, b ∈ networks ∧ b.2.contains ip = true) ∧
        ∀ e ∈ networks, e.2.contains ip = true → ∃ b ∈ best, e.2.prefixLen ≤ b.2.prefixLen := by
    clear h
    induction networks using List.reverseRecOn generalizing best with
    | nil => simp [← hbest]
    | append_singleton networks e ih =>
      obtain ⟨hheld, hmost⟩ := ih _ rfl
      rw [List.foldl_append, List.foldl_cons, List.foldl_nil] at hbest
      split_ifs at hbest with htake
      · subst hbest
        rw [Bool.and_eq_true] at htake
        refine ⟨by simp [htake.1], fun other ho hin => ⟨e, rfl, ?_⟩⟩
        rcases List.mem_append.mp ho with ho | ho
        · obtain ⟨b, hb, hle⟩ := hmost other ho hin
          exact hle.trans (of_decide_eq_true ((Option.all_eq_true _ _).mp htake.2 b hb))
        · rw [List.mem_singleton.mp ho]
      · rw [hbest] at hheld hmost htake
        refine ⟨fun b hb => (hheld b hb).imp_left (List.mem_append_left _), fun other ho hin => ?_⟩
        rcases List.mem_append.mp ho with ho | ho
        · exact hmost other ho hin
        · rw [← List.mem_singleton.mp ho, hin, Bool.true_and, Option.all_eq_true] at htake
          push Not at htake
          obtain ⟨b, hb, hlt⟩ := htake
          exact ⟨b, hb, by simp at hlt; omega⟩
  obtain ⟨⟨l, p⟩, hbest, rfl⟩ := Option.map_eq_some_iff.mp h
  obtain ⟨hheld, hmost⟩ := hrun _ hbest
  refine ⟨p, (hheld _ rfl).1, (hheld _ rfl).2, fun e he hin => ?_⟩
  obtain ⟨b, hb, hle⟩ := hmost e he hin
  rwa [← Option.some.inj hb] at hle

theorem planned_once {main additional : List IpBlock} {competitors : Link → List IpBlock}
    {p : IpBlock} (hm : Planned main additional competitors .main p)
    (ha : Planned main additional competitors .additional p) : False := by
  obtain ⟨bm, hbm, hpm⟩ := hm
  obtain ⟨ba, hba, hpa⟩ := ha
  have hown : ba ∉ main := hpa.own rfl
  have hcm := split_inside hpm.split
  have hca := split_inside hpa.split
  have hinm := contains_of_covers hcm (contains_network p)
  have hina := contains_of_covers hca (contains_network p)
  rcases lt_trichotomy bm.prefixLen ba.prefixLen with hlt | heq | hlt
  · have hout := hpm.kept ba (Or.inr hba) hlt (covers_of_contains hinm hina hlt.le)
      (by simp [hown])
    rw [hca] at hout
    cases hout
  · exact hown (same_length_eq hinm hina heq ▸ hbm)
  · have hout := hpa.kept bm (Or.inl hbm) hlt (covers_of_contains hina hinm hlt.le)
      (by simp [show bm ∈ main from hbm])
    rw [hcm] at hout
    cases hout

def HasHost (routes : List RouteEntry) (ip : IpAddr) (interface : ℕ) : Prop :=
  ∃ r ∈ routes, r.destination = ip ∧ r.prefixLength = hostPrefixFor ip ∧
    r.interfaceIndex = interface

section
variable {targets : Link → Option SecondaryRouteTarget} {ip : IpAddr} {e : Link × IpAddr}
variable {s : List (IpAddr × ℕ) × List RouteEntry} {es : List (Link × IpAddr)}

theorem push_plan_host_cases (targets : Link → Option SecondaryRouteTarget)
    (s : List (IpAddr × ℕ) × List RouteEntry) (e : Link × IpAddr) :
    (pushPlanHost targets s e = s ∧ ∀ target, targets e.1 = some target →
        isNonRoutable e.2 = false → (e.2, target.interfaceIndex) ∈ s.1) ∨
      ∃ target, targets e.1 = some target ∧ pushPlanHost targets s e =
        ((e.2, target.interfaceIndex) :: s.1,
          s.2 ++ ((nextHopFor e.2 target).map fun hop => hostRoute e.2 hop target).toList) := by
  unfold pushPlanHost
  split
  · rename_i hnone
    exact Or.inl ⟨rfl, by simp [hnone]⟩
  · rename_i target hsome
    split
    · rename_i hskip
      refine Or.inl ⟨rfl, fun t ht hnon => ?_⟩
      obtain rfl := Option.some.inj (hsome.symm.trans ht)
      simpa [hnon] using hskip
    · exact Or.inr ⟨target, hsome, rfl⟩

theorem plan_hosts_sound {r : RouteEntry} (h : r ∈ (es.foldl (pushPlanHost targets) s).2) :
    r ∈ s.2 ∨ ∃ e ∈ es, ∃ target hop, targets e.1 = some target ∧ r = hostRoute e.2 hop target := by
  induction es generalizing s with
  | nil => exact Or.inl h
  | cons e es ih =>
    rcases ih h with hin | ⟨e', he', hrest⟩
    · rcases push_plan_host_cases targets s e with ⟨heq, -⟩ | ⟨target, ht, heq⟩
      · rw [heq] at hin
        exact Or.inl hin
      · rw [heq, List.mem_append] at hin
        refine hin.imp_right fun hnew => ?_
        simp only [Option.mem_toList, Option.map_eq_some_iff] at hnew
        obtain ⟨hop, -, rfl⟩ := hnew
        exact ⟨e, List.mem_cons_self, target, hop, ht, rfl⟩
    · exact Or.inr ⟨e', List.mem_cons_of_mem _ he', hrest⟩

theorem plan_hosts_grows : s.2 ⊆ (es.foldl (pushPlanHost targets) s).2 ∧
    s.1 ⊆ (es.foldl (pushPlanHost targets) s).1 := by
  induction es generalizing s with
  | nil => exact ⟨fun _ h => h, fun _ h => h⟩
  | cons e es ih =>
    have hrest := @ih (pushPlanHost targets s e)
    have hstep : s.2 ⊆ (pushPlanHost targets s e).2 ∧ s.1 ⊆ (pushPlanHost targets s e).1 := by
      rcases push_plan_host_cases targets s e with ⟨heq, -⟩ | ⟨target, -, heq⟩
      · rw [heq]
        exact ⟨fun _ h => h, fun _ h => h⟩
      · rw [heq]
        exact ⟨fun _ h => List.mem_append_left _ h, fun _ h => List.mem_cons_of_mem _ h⟩
    exact ⟨fun _ h => hrest.1 (hstep.1 h), fun _ h => hrest.2 (hstep.2 h)⟩

theorem plan_hosts_keys (hhop : ∀ link target, targets link = some target →
      (nextHopFor ip target).isSome = true)
    (hs : ∀ i, (ip, i) ∈ s.1 → HasHost s.2 ip i) :
    ∀ i, (ip, i) ∈ (es.foldl (pushPlanHost targets) s).1 →
      HasHost (es.foldl (pushPlanHost targets) s).2 ip i := by
  induction es generalizing s with
  | nil => exact hs
  | cons e es ih =>
    refine ih fun i hi => ?_
    rcases push_plan_host_cases targets s e with ⟨heq, -⟩ | ⟨target, ht, heq⟩
    · rw [heq] at hi ⊢
      exact hs i hi
    · rw [heq] at hi ⊢
      rcases List.mem_cons.mp hi with hnew | hold
      · obtain ⟨rfl, rfl⟩ := Prod.mk.inj hnew
        obtain ⟨hop, hhop⟩ := Option.isSome_iff_exists.mp (hhop e.1 target ht)
        exact ⟨hostRoute e.2 hop target, by simp [hhop], rfl, rfl, rfl⟩
      · obtain ⟨r, hr, hrest⟩ := hs i hold
        exact ⟨r, List.mem_append_left _ hr, hrest⟩

theorem plan_hosts_key {link : Link} {target : SecondaryRouteTarget} (hmem : (link, ip) ∈ es)
    (ht : targets link = some target) (hnon : isNonRoutable ip = false) :
    (ip, target.interfaceIndex) ∈ (es.foldl (pushPlanHost targets) s).1 := by
  induction es generalizing s with
  | nil => simp at hmem
  | cons e es ih =>
    rcases List.mem_cons.mp hmem with rfl | hmem
    · have hstep : (ip, target.interfaceIndex) ∈ (pushPlanHost targets s (link, ip)).1 := by
        rcases push_plan_host_cases targets s (link, ip) with ⟨heq, hkey⟩ | ⟨t, ht', heq⟩
        · rw [heq]
          exact hkey target ht hnon
        · obtain rfl := Option.some.inj (ht.symm.trans ht')
          rw [heq]
          exact List.mem_cons_self
      exact (@plan_hosts_grows targets (pushPlanHost targets s (link, ip)) es).2 hstep
    · exact ih hmem

end

variable {block : IpBlock}

section
variable {plan : NetworkRoutePlan} {primary secondary : SecondaryRouteTarget}
variable {out : RouteCodegenOutput} {ip : IpAddr}

def linkTarget (primary secondary : SecondaryRouteTarget) : Link → SecondaryRouteTarget
  | .main => primary
  | .additional => secondary

theorem target_of_link (link : Link) :
    targetOf (some primary) secondary link = some (linkTarget primary secondary link) := by
  cases link <;> rfl

theorem host_keys_have (i : ℕ) (h : (ip, i) ∈ hostKeys out.routes) : HasHost out.routes ip i := by
  simp only [hostKeys, List.mem_map, List.mem_filter, beq_iff_eq, Prod.mk.injEq] at h
  obtain ⟨r, ⟨hr, hlen⟩, rfl, rfl⟩ := h
  exact ⟨r, hr, rfl, hlen, rfl⟩

theorem lowered_cases {r : RouteEntry}
    (h : r ∈ (pushNetworkPlan plan (some primary) secondary out).routes) :
    r ∈ out.routes ∨
      (∃ e ∈ plan.hosts, ∃ hop, r = hostRoute e.2 hop (linkTarget primary secondary e.1)) ∨
      ∃ e ∈ plan.networks, ∃ hop, r = networkRoute e.2 hop (linkTarget primary secondary e.1) := by
  rcases List.mem_append.mp h with h | h
  · rcases plan_hosts_sound h with hin | ⟨e, he, target, hop, ht, rfl⟩
    · exact Or.inl hin
    · rw [target_of_link, Option.some.injEq] at ht
      exact Or.inr (Or.inl ⟨e, he, hop, by rw [ht]⟩)
  · obtain ⟨e, he, hr⟩ := List.mem_filterMap.mp h
    rw [planNetworkRoute, target_of_link, Option.bind_some] at hr
    split at hr
    · cases hr
    · obtain ⟨hop, -, rfl⟩ := Option.map_eq_some_iff.mp hr
      exact Or.inr (Or.inr ⟨e, he, hop, rfl⟩)

theorem lowered_keeps (r : RouteEntry) (h : r ∈ out.routes) :
    r ∈ (pushNetworkPlan plan (some primary) secondary out).routes :=
  List.mem_append_left _ (plan_hosts_grows.1 h)

section
variable (hhop : ∀ link, (nextHopFor ip (linkTarget primary secondary link)).isSome = true)
include hhop

theorem lowered_keys (i : ℕ)
    (h : (ip, i) ∈ (plan.hosts.foldl (pushPlanHost (targetOf (some primary) secondary))
      (hostKeys out.routes, out.routes)).1) :
    HasHost (pushNetworkPlan plan (some primary) secondary out).routes ip i := by
  have hway (link : Link) (target : SecondaryRouteTarget)
      (ht : targetOf (some primary) secondary link = some target) :
      (nextHopFor ip target).isSome = true := by
    rw [target_of_link, Option.some.injEq] at ht
    exact ht ▸ hhop link
  obtain ⟨r, hr, hrest⟩ := plan_hosts_keys hway host_keys_have i h
  exact ⟨r, List.mem_append_left _ hr, hrest⟩

theorem lowered_host {link : Link} (hmem : (link, ip) ∈ plan.hosts)
    (hnon : isNonRoutable ip = false) :
    HasHost (pushNetworkPlan plan (some primary) secondary out).routes ip
      (linkTarget primary secondary link).interfaceIndex :=
  lowered_keys hhop _ (plan_hosts_key hmem (target_of_link link) hnon)

theorem lowered_network {link : Link} (hmem : (link, block) ∈ plan.networks)
    (hin : block.contains ip = true) :
    ∃ r ∈ (pushNetworkPlan plan (some primary) secondary out).routes,
      r.destination = block.network ∧ r.prefixLength = block.prefixLen ∧
        r.interfaceIndex = (linkTarget primary secondary link).interfaceIndex := by
  have hfam : (nextHopFor block.network (linkTarget primary secondary link)).isSome =
      (nextHopFor ip (linkTarget primary secondary link)).isSome := by
    have h := ((block_contains_iff block ip).mp hin).1
    cases ip <;> cases hn : block.network <;> simp_all [nextHopFor, IpAddr.isIpv4]
  obtain ⟨hop, hhop'⟩ := Option.isSome_iff_exists.mp (hfam.trans (hhop link))
  by_cases hskip : (block.isSingleAddress && decide ((block.network,
      (linkTarget primary secondary link).interfaceIndex) ∈
        (plan.hosts.foldl (pushPlanHost (targetOf (some primary) secondary))
          (hostKeys out.routes, out.routes)).1)) = true
  · simp only [Bool.and_eq_true, decide_eq_true_eq] at hskip
    have hnet := (single_contains hskip.1).mp hin
    subst hnet
    obtain ⟨r, hr, hd, hlen, hif⟩ := lowered_keys hhop _ hskip.2
    refine ⟨r, hr, hd, hlen.trans ?_, hif⟩
    have hs := hskip.1
    rw [IpBlock.isSingleAddress, beq_iff_eq] at hs
    rw [hs]
    rfl
  · refine ⟨networkRoute block hop (linkTarget primary secondary link), ?_, rfl, rfl, rfl⟩
    refine List.mem_append_right _ (List.mem_filterMap.mpr ⟨(link, block), hmem, ?_⟩)
    rw [planNetworkRoute, target_of_link, Option.bind_some, if_neg hskip, hhop']
    rfl

end

end

def routeCovers (r : RouteEntry) (ip : IpAddr) : Bool :=
  (IpBlock.new r.destination r.prefixLength).any fun block => block.contains ip

def LongestRoute (routes : List RouteEntry) (ip : IpAddr) (r : RouteEntry) : Prop :=
  r ∈ routes ∧ routeCovers r ip = true ∧
    ∀ other ∈ routes, routeCovers other ip = true → other.prefixLength ≤ r.prefixLength

section
variable {r : RouteEntry} {ip : IpAddr}

theorem host_covers (hr : r.prefixLength = hostPrefixFor r.destination) :
    routeCovers r ip = true ↔ r.destination = ip := by
  obtain ⟨block, hblock, hnet, hs⟩ := host_block_some r.destination
  have hnew : IpBlock.new r.destination r.prefixLength = some block := by
    rw [hr]
    exact hblock
  rw [routeCovers, hnew, Option.any_some, single_contains hs, hnet]
  exact eq_comm

theorem network_covers (hd : r.destination = block.network)
    (hl : r.prefixLength = block.prefixLen) : routeCovers r ip = block.contains ip := by
  rw [routeCovers, hd, hl, block_new_self, Option.any_some]

theorem prefix_le_host (hin : block.contains ip = true) : block.prefixLen ≤ hostPrefixFor ip := by
  have hfit := block.fits
  rwa [family_of_contains hin] at hfit

theorem single_of_host (hin : block.contains ip = true) (hl : hostPrefixFor ip ≤ block.prefixLen) :
    block.isSingleAddress = true := by
  have hfit := prefix_le_host hin
  have hmax : block.maxPrefixLen = hostPrefixFor ip := family_of_contains hin
  rw [IpBlock.isSingleAddress, beq_iff_eq, hmax]
  omega

end

end NetRuleRouter.LoweredPlan
