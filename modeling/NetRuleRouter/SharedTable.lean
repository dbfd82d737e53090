import NetRuleRouter.UserRoutes

/-!
# One more user in the shared table

A later user's routes go in behind those of the earlier ones. An address an
earlier rule carries keeps its link, and one an overlay carries keeps it or
falls to a rule of the later user. An address nothing carries stays on the main
link only while an earlier user has no overlay at all.
-/

set_option autoImplicit false

namespace NetRuleRouter.SharedTable
open TextOps IpNetwork LongestPrefix BlockGeometry RouteCodegen UserRoutes

def holds (route : TableRoute) (a : IpAddr) : Bool := (blockOf route).any (·.contains a)

/-- Of the route found so far and the next row the longer one that holds the address. -/
def longer (a : IpAddr) (found : Option TableRoute) (route : TableRoute) : Option TableRoute :=
  if holds route a then
    match found with
    | none => some route
    | some x => if x.prefixLength < route.prefixLength then some route else some x
  else found

def longest (table : List TableRoute) (a : IpAddr) : Option TableRoute :=
  table.foldl (longer a) none

theorem longest_append (table : List TableRoute) (route : TableRoute) (a : IpAddr) :
    longest (table ++ [route]) a = longer a (longest table a) route := by
  rw [longest, List.foldl_append]
  rfl

theorem longest_eq (table : List TableRoute) (a : IpAddr) :
    longest table a = (table.filter (holds · a)).argmax fun r => r.prefixLength := by
  unfold longest List.argmax
  rw [List.foldl_filter]
  congr 1
  funext found route
  unfold longer
  cases found <;> rfl

theorem longest_none {table : List TableRoute} {a : IpAddr} :
    longest table a = none ↔ ∀ r ∈ table, holds r a = false := by
  simp [longest_eq]

theorem longest_some {table : List TableRoute} {a : IpAddr} {r : TableRoute}
    (h : longest table a = some r) :
    r ∈ table ∧ holds r a = true ∧ ∀ q ∈ table, holds q a = true →
      q.prefixLength ≤ r.prefixLength := by
  rw [longest_eq] at h
  obtain ⟨hr, hholds⟩ := List.mem_filter.mp (List.argmax_mem h)
  exact ⟨hr, hholds, fun q hq hqa =>
    List.le_of_mem_argmax (f := fun r => r.prefixLength) (List.mem_filter.mpr ⟨hq, hqa⟩) h⟩

theorem holds_iff {route : TableRoute} {a : IpAddr} : holds route a = true ↔
    ∃ b, blockOf route = some b ∧ b.prefixLen = route.prefixLength ∧ b.contains a = true := by
  rw [holds, Option.any_eq_true]
  constructor
  · rintro ⟨b, hb, ha⟩
    exact ⟨b, hb, (block_new_iff.mp hb).2, ha⟩
  · rintro ⟨b, hb, -, ha⟩
    exact ⟨b, hb, ha⟩

variable {q : TableRoute} {routes : List TableRoute}

theorem holds_same_key {r : TableRoute} {a : IpAddr} (h : sameKey q r = true)
    (hr : holds r a = true) : holds q a = true ∧ q.prefixLength = r.prefixLength := by
  simp only [sameKey, Bool.and_eq_true, beq_iff_eq] at h
  refine ⟨?_, h.2⟩
  rw [holds, blockOf, h.1, h.2]
  exact hr

theorem entering_beside {s : Laying} {sid : Text} {held : Accepted} {a : IpAddr}
    (h : Enters s sid q) (hin : held ∈ s.accepted) (howner : held.owner ≠ sid)
    (hheld : holds held.route a = true) (hq : holds q a = true)
    (hkind : isOverlayRoute held.route = false ∧ held.route.prefixLength < q.prefixLength ∨
      isOverlayRoute held.route = true ∧ isOverlayRoute q = true) :
    q.interfaceIndex = held.route.interfaceIndex := by
  obtain ⟨c, hc, hclen, hca⟩ := holds_iff.mp hq
  obtain ⟨b, hb, hblen, hba⟩ := holds_iff.mp hheld
  by_contra hother
  have htakes := h.takes held hin
  rcases hkind with ⟨hrule, hlt⟩ | ⟨hoverlay, hqoverlay⟩
  · have hcovers : b.covers c = true := covers_of_contains hba hca (by omega)
    have hwide : held.isWide = true := by
      have hsingle : b.isSingleAddress = false := by
        by_contra hs
        have hle := le_single (Bool.not_eq_false _ ▸ hs) hba hca
        omega
      simp [Accepted.isWide, hb, hsingle]
    have hnot := htakes hwide howner (Ne.symm hother)
    simp [takesFrom, hc, hb, hrule, hcovers] at hnot
  · have hoverlaps : c.overlaps b = true := overlaps_iff.mpr ⟨a, hca, hba⟩
    have hnot := htakes (by simp [Accepted.isWide, hoverlay]) howner (Ne.symm hother)
    simp [takesFrom, hc, hb, hoverlay, hqoverlay, hoverlaps] at hnot

def table (s : Laying) : List TableRoute := s.accepted.map Accepted.route

theorem lay_route_longest (s : Laying) (sid : Text) (q : TableRoute) (a : IpAddr) :
    (Enters s sid q ∧ longest (table (layRoute sid s q)) a = longer a (longest (table s) a) q) ∨
      (¬ Enters s sid q ∧ longest (table (layRoute sid s q)) a = longest (table s) a) := by
  rcases (lay_route_cases s sid q).1 with ⟨henters, haccepted⟩ | ⟨hstays, haccepted⟩
  · refine .inl ⟨henters, ?_⟩
    rw [table, haccepted, List.map_append]
    exact longest_append _ _ _
  · exact .inr ⟨hstays, by rw [table, haccepted]; rfl⟩

theorem lay_route_kept {s : Laying} {sid : Text} {held : Accepted}
    (h : held ∈ s.accepted) : held ∈ (layRoute sid s q).accepted := by
  rcases (lay_route_cases s sid q).1 with ⟨-, haccepted⟩ | ⟨-, haccepted⟩
  · rw [haccepted]
    exact List.mem_append_left _ h
  · rw [haccepted]
    exact h

theorem longer_cases (a : IpAddr) (x q : TableRoute) : longer a (some x) q = some x ∨
    longer a (some x) q = some q ∧ holds q a = true ∧ x.prefixLength < q.prefixLength := by
  unfold longer
  split_ifs with hholds
  · dsimp only
    split_ifs with hlt
    · exact .inr ⟨rfl, hholds, hlt⟩
    · exact .inl rfl
  · exact .inl rfl

section
variable {sid : Text} {a : IpAddr} {held : Accepted}

theorem longest_keeps {P : TableRoute → Prop}
    (hstep : ∀ q ∈ routes, ∀ s x, Enters s sid q → held ∈ s.accepted → P x → holds q a = true →
      x.prefixLength < q.prefixLength → P q) {s : Laying} (hin : held ∈ s.accepted)
    {x : TableRoute} (hx : longest (table s) a = some x) (hP : P x) :
    ∃ y, longest (table (routes.foldl (layRoute sid) s)) a = some y ∧ P y := by
  induction routes generalizing s x with
  | nil => exact ⟨x, hx, hP⟩
  | cons q routes ih =>
    obtain ⟨hq, hrest⟩ := List.forall_mem_cons.mp hstep
    have hkept : held ∈ (layRoute sid s q).accepted := lay_route_kept hin
    rw [List.foldl_cons]
    rcases lay_route_longest s sid q a with ⟨henters, hlongest⟩ | ⟨-, hlongest⟩
    · rw [hx] at hlongest
      rcases longer_cases a x q with hsame | ⟨hnext, hholds, hlt⟩
      · exact ih hrest hkept (hlongest.trans hsame) hP
      · exact ih hrest hkept (hlongest.trans hnext) (hq s x henters hin hP hholds hlt)
    · exact ih hrest hkept (hlongest.trans hx) hP

variable (howner : held.owner ≠ sid) (hholds : holds held.route a = true) {s : Laying}
  (hin : held ∈ s.accepted) (hx : longest (table s) a = some held.route)
include howner hholds hin hx

theorem rule_keeps_link (hrule : isOverlayRoute held.route = false) (routes : List TableRoute) :
    ∃ y, longest (table (routes.foldl (layRoute sid) s)) a = some y ∧
      y.interfaceIndex = held.route.interfaceIndex := by
  obtain ⟨y, hy, hlink, -⟩ := longest_keeps (P := fun y =>
    y.interfaceIndex = held.route.interfaceIndex ∧ held.route.prefixLength ≤ y.prefixLength)
    (fun q _ s x henters hin hx hq hlt => ⟨entering_beside henters hin howner hholds hq
      (.inl ⟨hrule, lt_of_le_of_lt hx.2 hlt⟩), hx.2.trans hlt.le⟩) hin hx ⟨rfl, le_rfl⟩
  exact ⟨y, hy, hlink⟩

theorem overlay_keeps_link (hoverlay : isOverlayRoute held.route = true)
    (routes : List TableRoute) :
    ∃ y, longest (table (routes.foldl (layRoute sid) s)) a = some y ∧
      (y.interfaceIndex = held.route.interfaceIndex ∨ isOverlayRoute y = false ∧ y ∈ routes) := by
  refine longest_keeps (fun q hplan s x henters hin _ hq _ => ?_) hin hx (.inl rfl)
  cases hkind : isOverlayRoute q with
  | false => exact .inr ⟨rfl, hplan⟩
  | true => exact .inl (entering_beside henters hin howner hholds hq (.inr ⟨hoverlay, hkind⟩))

end

def overlaid (table : List TableRoute) (q : TableRoute) : Bool :=
  table.any fun h => isOverlayRoute h && h.interfaceIndex != q.interfaceIndex &&
    (blockOf q).any fun c => (blockOf h).any fun b => c.overlaps b

def unopposed (table routes : List TableRoute) : List TableRoute :=
  routes.filter fun q => !(isOverlayRoute q && overlaid table q)

theorem overlaid_iff {table : List TableRoute} : overlaid table q = true ↔
    ∃ h ∈ table, isOverlayRoute h = true ∧ h.interfaceIndex ≠ q.interfaceIndex ∧
      ∃ c b, blockOf q = some c ∧ blockOf h = some b ∧ c.overlaps b = true := by
  simp only [overlaid, List.any_eq_true, Bool.and_eq_true, bne_iff_ne, Option.any_eq_true, and_assoc]
  refine exists_congr fun h => and_congr_right fun _ => and_congr_right fun _ =>
    and_congr_right fun _ => ?_
  constructor
  · rintro ⟨c, hc, b, hb, ho⟩
    exact ⟨c, b, hc, hb, ho⟩
  · rintro ⟨c, b, hc, hb, ho⟩
    exact ⟨c, hc, b, hb, ho⟩

theorem unopposed_singleton (table : List TableRoute) (q : TableRoute) : unopposed table [q] =
    if isOverlayRoute q && overlaid table q then [] else [q] := by
  rw [unopposed, List.filter_singleton]
  cases isOverlayRoute q && overlaid table q <;> rfl

section
variable {start : Laying} {sid : Text} {a : IpAddr}

/-- The merge has gone on from a table that leaves the address alone, for one more user. -/
structure GoneOn (start : Laying) (sid : Text) (s : Laying) : Prop where
  kept : ∀ held ∈ start.accepted, held ∈ s.accepted
  added : ∀ held ∈ s.accepted, held ∈ start.accepted ∨ held.owner = sid
  plain : s.defaultOnMain = none

theorem gone_on_step {s : Laying} (h : GoneOn start sid s) (q : TableRoute) :
    GoneOn start sid (layRoute sid s q) := by
  refine ⟨fun held hheld => lay_route_kept (h.kept held hheld), fun held hheld => ?_, ?_⟩
  · rcases (lay_routes_add sid [q] s).2 held hheld with hin | ⟨howner, -⟩
    · exact h.added held hin
    · exact .inr howner
  · rw [(lay_route_cases s sid q).2, h.plain]

variable (howners : ∀ held ∈ start.accepted, held.owner ≠ sid)
include howners

theorem enters_iff_unopposed
    (hfree : longest (table start) a = none) {s : Laying} (h : GoneOn start sid s)
    (hq : holds q a = true) :
    Enters s sid q ↔ (isOverlayRoute q && overlaid (table start) q) = false ∧
      ∀ held ∈ s.accepted, sameKey held.route q = false := by
  obtain ⟨c, hc, -, hca⟩ := holds_iff.mp hq
  constructor
  · intro henters
    refine ⟨?_, henters.free⟩
    by_contra hopposed
    rw [Bool.not_eq_false, Bool.and_eq_true] at hopposed
    obtain ⟨hoverlay, hover⟩ := hopposed
    obtain ⟨r, hr, hroverlay, hlink, c', b, hc', hb, hoverlaps⟩ := overlaid_iff.mp hover
    obtain ⟨held, hheld, rfl⟩ := List.mem_map.mp hr
    have hnot := henters.takes held (h.kept held hheld) (by simp [Accepted.isWide, hroverlay])
      (howners held hheld) hlink
    rw [hc] at hc'
    obtain rfl := Option.some.inj hc'
    simp [takesFrom, hc, hb, hroverlay, hoverlay, hoverlaps] at hnot
  · rintro ⟨hunopposed, hkeys⟩
    refine ⟨fun _ holder hholder => ?_, hkeys, ?_⟩
    · rw [h.plain] at hholder
      cases hholder
    · intro held hheld _ howner hlink
      have hin : held ∈ start.accepted := (h.added held hheld).resolve_right howner
      have hlone := longest_none.mp hfree held.route (List.mem_map_of_mem hin)
      by_contra htakes
      rw [Bool.not_eq_false] at htakes
      cases hb : blockOf held.route with
      | none => simp [takesFrom, hc, hb] at htakes
      | some b =>
        cases hheldOverlay : isOverlayRoute held.route with
        | false =>
          have hcovers : b.covers c = true := by
            simpa [takesFrom, hc, hb, hheldOverlay] using htakes
          have hba := contains_of_covers hcovers hca
          simp [holds, hb, hba] at hlone
        | true =>
          cases hoverlay : isOverlayRoute q with
          | false => simp [takesFrom, hc, hb, hheldOverlay, hoverlay] at htakes
          | true =>
            have hoverlaps : c.overlaps b = true := by
              simpa [takesFrom, hc, hb, hheldOverlay, hoverlay] using htakes
            have hover : overlaid (table start) q = true :=
              overlaid_iff.mpr ⟨held.route, List.mem_map_of_mem hin, hheldOverlay, hlink, c, b, hc,
                hb, hoverlaps⟩
            simp [hoverlay, hover] at hunopposed

theorem lay_route_unopposed
    (hfree : longest (table start) a = none) {s : Laying} (h : GoneOn start sid s)
    (q : TableRoute) : longest (table (layRoute sid s q)) a =
      (unopposed (table start) [q]).foldl (longer a) (longest (table s) a) := by
  cases hq : holds q a with
  | false =>
    have hsame (found : Option TableRoute) : longer a found q = found := by simp [longer, hq]
    have hlongest : longest (table (layRoute sid s q)) a = longest (table s) a := by
      rcases lay_route_longest s sid q a with ⟨-, hlongest⟩ | ⟨-, hlongest⟩
      · rw [hlongest, hsame]
      · exact hlongest
    rw [hlongest, unopposed_singleton]
    split
    · rfl
    · exact (hsame _).symm
  | true =>
    have henters := enters_iff_unopposed howners hfree h hq
    cases hopposed : isOverlayRoute q && overlaid (table start) q with
    | true =>
      rw [unopposed_singleton, if_pos hopposed]
      rcases lay_route_longest s sid q a with ⟨he, -⟩ | ⟨-, hlongest⟩
      · rw [(henters.mp he).1] at hopposed
        cases hopposed
      · exact hlongest
    | false =>
      rw [unopposed_singleton, if_neg (Bool.eq_false_iff.mp hopposed), List.foldl_cons,
        List.foldl_nil]
      rcases lay_route_longest s sid q a with ⟨-, hlongest⟩ | ⟨hstays, hlongest⟩
      · exact hlongest
      · -- a route with its key is there, and it is not shorter
        have hkey : ∃ held ∈ s.accepted, sameKey held.route q = true := by
          by_contra hnone
          apply hstays
          refine henters.mpr ⟨hopposed, fun held hheld => ?_⟩
          exact Bool.eq_false_iff.mpr fun hsame => hnone ⟨held, hheld, hsame⟩
        obtain ⟨held, hheld, hsame⟩ := hkey
        obtain ⟨hholds, hlen⟩ := holds_same_key hsame hq
        have hmem : held.route ∈ table s := List.mem_map_of_mem hheld
        rw [hlongest]
        cases hx : longest (table s) a with
        | none =>
          rw [longest_none.mp hx _ hmem] at hholds
          cases hholds
        | some x =>
          have hle := (longest_some hx).2.2 _ hmem hholds
          have hnot : ¬ x.prefixLength < q.prefixLength := by omega
          simp [longer, hq, hnot]

theorem longest_of_unopposed
    (hfree : longest (table start) a = none) (routes : List TableRoute) {s : Laying}
    (h : GoneOn start sid s) :
    longest (table (routes.foldl (layRoute sid) s)) a =
      (unopposed (table start) routes).foldl (longer a) (longest (table s) a) := by
  induction routes generalizing s with
  | nil => rfl
  | cons q routes ih =>
    have hcons : unopposed (table start) (q :: routes) =
        unopposed (table start) [q] ++ unopposed (table start) routes := by
      rw [unopposed, ← List.singleton_append, List.filter_append]
      rfl
    rw [List.foldl_cons, ih (gone_on_step h q), lay_route_unopposed howners hfree h, hcons,
      List.foldl_append]

end

/-- The earlier users' traffic at the address stays where it was: under a rule of theirs, under an
overlay of theirs but for the later user's rules, and on the main link. -/
structure Undisturbed (before after : List TableRoute) (plan : List TableRoute) (a : IpAddr) :
    Prop where
  rule : ∀ r, longest before a = some r → isOverlayRoute r = false →
    ∃ r', longest after a = some r' ∧ r'.interfaceIndex = r.interfaceIndex
  overlay : ∀ r, longest before a = some r → isOverlayRoute r = true →
    ∃ r', longest after a = some r' ∧
      (r'.interfaceIndex = r.interfaceIndex ∨ isOverlayRoute r' = false ∧ r' ∈ plan)
  plain : longest before a = none → ∀ r', longest after a = some r' → r' ∈ plan →
    isTunnelOverlay r' = false

theorem undisturbed_of_plain {s : Laying} {sid : Text} {a : IpAddr}
    (howners : ∀ held ∈ s.accepted, held.owner ≠ sid) (hplain : longest (table s) a = none → ∀ r',
      longest (table (routes.foldl (layRoute sid) s)) a = some r' → isTunnelOverlay r' = false) :
    Undisturbed (table s) (table (routes.foldl (layRoute sid) s)) routes a := by
  have hfound {r : TableRoute} (hr : longest (table s) a = some r) :
      ∃ held ∈ s.accepted, held.route = r ∧ holds held.route a = true := by
    obtain ⟨hmem, hholds, -⟩ := longest_some hr
    obtain ⟨held, hheld, rfl⟩ := List.mem_map.mp hmem
    exact ⟨held, hheld, rfl, hholds⟩
  refine ⟨fun r hr hkind => ?_, fun r hr hkind => ?_, fun hnone r' hr' _ => hplain hnone r' hr'⟩
  · obtain ⟨held, hheld, rfl, hholds⟩ := hfound hr
    exact rule_keeps_link (howners held hheld) hholds hheld hr hkind routes
  · obtain ⟨held, hheld, rfl, hholds⟩ := hfound hr
    exact overlay_keeps_link (howners held hheld) hholds hheld hr hkind routes

theorem merged_table (plans : List (Text × List TableRoute)) :
    (mergeUserRoutes plans).routes = table (layUsers plans) := rfl

theorem merged_table_after (plans : List (Text × List TableRoute))
    (plan : Text × List TableRoute) : (mergeUserRoutes (plans ++ [plan])).routes =
      table (plan.2.foldl (layRoute plan.1) (layUsers plans).opened) := by
  rw [merged_table, lay_users_append, table, lay_user_accepted]
  rfl

/-- One more user leaves an address undisturbed exactly when an earlier route holds it, an earlier
user has no overlay, or the longest of the new user's own routes there that no earlier overlay
keeps out is not a tunnel overlay. -/
theorem one_more_user_undisturbed_iff (plans : List (Text × List TableRoute))
    (plan : Text × List TableRoute) (a : IpAddr) (hnew : plan.1 ∉ plans.map Prod.fst) :
    Undisturbed (mergeUserRoutes plans).routes (mergeUserRoutes (plans ++ [plan])).routes plan.2 a ↔
      longest (mergeUserRoutes plans).routes a ≠ none ∨
      (∃ earlier ∈ plans, earlier.2.any isOverlayRoute = false) ∨
      ∀ r, longest (unopposed (mergeUserRoutes plans).routes plan.2) a = some r →
        isTunnelOverlay r = false := by
  have hlaid := laid_for plans
  have howners : ∀ held ∈ (layUsers plans).opened.accepted, held.owner ≠ plan.1 := by
    intro held hheld heq
    exact hnew (heq ▸ hlaid.owners held hheld)
  have hafter := merged_table_after plans plan
  have hbefore : (mergeUserRoutes plans).routes = table (layUsers plans).opened := rfl
  rw [hafter, hbefore]
  cases hfree : longest (table (layUsers plans).opened) a with
  | some x =>
    refine ⟨fun _ => .inl (by simp), fun _ => undisturbed_of_plain howners fun hnone => ?_⟩
    rw [hfree] at hnone
    cases hnone
  | none =>
    cases hdefault : (layUsers plans).defaultOnMain with
    | some holder =>
      have hplain : ∃ earlier ∈ plans, earlier.2.any isOverlayRoute = false := by
        by_contra hall
        have hnone := hlaid.plain.mpr fun earlier hin => by
          by_contra hno
          exact hall ⟨earlier, hin, Bool.eq_false_iff.mpr hno⟩
        rw [hdefault] at hnone
        cases hnone
      have hholder : holder ≠ plan.1 := fun heq =>
        hnew (heq ▸ hlaid.holder holder hdefault)
      refine ⟨fun _ => .inr (.inl hplain), fun _ => undisturbed_of_plain howners ?_⟩
      intro _ r' hr'
      obtain ⟨hmem, hholds, -⟩ := longest_some hr'
      obtain ⟨held, hheld, rfl⟩ := List.mem_map.mp hmem
      rcases (lay_routes_add plan.1 plan.2 (layUsers plans).opened).2 held hheld with
        hin | ⟨-, htunnel⟩
      · rw [longest_none.mp hfree _ (List.mem_map_of_mem hin)] at hholds
        cases hholds
      · exact Bool.eq_false_iff.mpr fun h => hholder (htunnel h holder hdefault)
    | none =>
      have hgone : GoneOn (layUsers plans).opened plan.1 (layUsers plans).opened :=
        ⟨fun _ h => h, fun _ h => .inl h, hdefault⟩
      have hlongest := longest_of_unopposed howners hfree plan.2 hgone
      rw [hfree] at hlongest
      have hnoplain : ¬ ∃ earlier ∈ plans, earlier.2.any isOverlayRoute = false := by
        rintro ⟨earlier, hin, hno⟩
        rw [hlaid.plain.mp hdefault earlier hin] at hno
        cases hno
      have hmem {r : TableRoute}
          (hr : longest (unopposed (table (layUsers plans).opened) plan.2) a = some r) :
          r ∈ plan.2 := List.mem_of_mem_filter (longest_some hr).1
      constructor
      · intro h
        refine .inr (.inr fun r hr => ?_)
        exact h.plain hfree r (hlongest.trans hr) (hmem hr)
      · rintro (hsome | hplain | htunnel)
        · exact absurd rfl hsome
        · exact absurd hplain hnoplain
        · exact undisturbed_of_plain howners fun _ r' hr' => htunnel r' (hlongest.symm.trans hr')

def tableRow (octet prefixLength link : ℕ) : TableRoute :=
  { destination := .v4 (BitVec.ofNat 32 (octet * 2 ^ 24)), prefixLength, nextHop := .v4 0
    interfaceIndex := link, metric := secondaryRouteMetric, isOurs := true, table := .main }

def firstUser : Text := "S-1-5-21-1-2-3-1001".toList

def secondUser : Text := "S-1-5-21-1-2-3-1002".toList

/-- Everything through the tunnel on link 11. -/
def throughTunnel : Text × List TableRoute :=
  (secondUser, [tableRow 0 1 11, tableRow 128 1 11])

/-- A tunnel that takes 8.0.0.0/7 is answered over the main link, and what no route of the user
names stays there. -/
def answersPart : Text × List TableRoute := (firstUser, [tableRow 8 8 3, tableRow 9 8 3])

/-- One host by the tunnel on link 9, the rest where the main link takes it. -/
def namesHost : Text × List TableRoute := (firstUser, [tableRow 8 32 9])

/-- The other half of the addresses leaves the main link for the later user's tunnel. -/
theorem unanswered_half_taken : ¬ Undisturbed (mergeUserRoutes [answersPart]).routes
    (mergeUserRoutes ([answersPart] ++ [throughTunnel])).routes throughTunnel.2
    (.v4 (BitVec.ofNat 32 (200 * 2 ^ 24))) := by
  intro h
  have htunnel := h.plain (by decide +kernel) (tableRow 128 1 11) (by decide +kernel)
    (by decide +kernel)
  revert htunnel
  decide +kernel

/-- A user with no overlay keeps the main link. -/
theorem plain_default_undisturbed :
    Undisturbed (mergeUserRoutes [namesHost]).routes
      (mergeUserRoutes ([namesHost] ++ [throughTunnel])).routes throughTunnel.2
      (.v4 (BitVec.ofNat 32 (200 * 2 ^ 24))) :=
  (one_more_user_undisturbed_iff [namesHost] throughTunnel _ (by decide)).mpr
    (.inr (.inl ⟨namesHost, by simp, rfl⟩))

/-- However many users come later, an address an earlier rule carries keeps its link. -/
theorem later_users_keep_rule_link (plans later : List (Text × List TableRoute)) (a : IpAddr)
    (hnew : ∀ plan ∈ later, plan.1 ∉ plans.map Prod.fst) {r : TableRoute}
    (hr : longest (mergeUserRoutes plans).routes a = some r) (hrule : isOverlayRoute r = false) :
    ∃ r', longest (mergeUserRoutes (plans ++ later)).routes a = some r' ∧
      r'.interfaceIndex = r.interfaceIndex := by
  obtain ⟨hmem, hholds, -⟩ := longest_some hr
  obtain ⟨held, hheld, rfl⟩ := List.mem_map.mp hmem
  -- the answer may be a longer route of a later user, so the held one is carried along
  have hruns : held ∈ (layUsers (plans ++ later)).accepted ∧
      ∃ y, longest (table (layUsers (plans ++ later))) a = some y ∧
        y.interfaceIndex = held.route.interfaceIndex ∧
          held.route.prefixLength ≤ y.prefixLength := by
    induction later using List.reverseRecOn with
    | nil => simpa using ⟨hheld, held.route, hr, rfl, le_rfl⟩
    | append_singleton later plan ih =>
      obtain ⟨hin, x, hx, hstays⟩ := ih fun p hp => hnew p (List.mem_append_left _ hp)
      have hother : held.owner ≠ plan.1 := fun h =>
        hnew plan (by simp) (h ▸ (laid_for plans).owners held hheld)
      rw [← List.append_assoc, lay_users_append, table, lay_user_accepted]
      refine ⟨?_, longest_keeps (fun q _ s x henters hs hx hq hlt => ?_) hin hx hstays⟩
      · exact List.foldlRecOn (motive := fun s : Laying => held ∈ s.accepted) plan.2 _ hin
          fun s hs q _ => lay_route_kept hs
      · have hlonger := hx.2.trans_lt hlt
        exact ⟨entering_beside henters hs hother hholds hq (.inl ⟨hrule, hlonger⟩), hlonger.le⟩
  obtain ⟨-, y, hy, hlink, -⟩ := hruns
  exact ⟨y, hy, hlink⟩

theorem named_host_keeps_link :
    ∃ r', longest (mergeUserRoutes ([namesHost] ++ [throughTunnel])).routes (.v4 0x08000000) =
      some r' ∧ r'.interfaceIndex = 9 :=
  later_users_keep_rule_link [namesHost] [throughTunnel] (.v4 0x08000000) (by decide)
    (r := tableRow 8 32 9) (by decide +kernel) (by decide +kernel)

end NetRuleRouter.SharedTable
