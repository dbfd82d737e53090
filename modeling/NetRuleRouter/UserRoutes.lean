import NetRuleRouter.RouteCodegen

/-!
# Several users' routes in one table

Each served user's plan is laid into the table, longest served first. A route
nobody contests goes in, one already there through its link is shared, and one
that would take a destination from an earlier user stays out as a conflict.
-/

set_option autoImplicit false

namespace NetRuleRouter.UserRoutes
open TextOps IpNetwork RouteCodegen
open NetworkRoutes (tunnelCatchAllMaxPrefix)

inductive RouteTableRef where
  | main
  | principal (user : Text)
  | tagged (mark : ℕ)
  deriving DecidableEq, Repr

structure TableRoute extends RouteEntry where
  table : RouteTableRef
  deriving DecidableEq, Repr

def isOverlayPrefix (prefixLength : ℕ) : Bool :=
  decide (1 ≤ prefixLength) && decide (prefixLength ≤ tunnelCatchAllMaxPrefix + 1)

def isOverlayRoute (route : TableRoute) : Bool :=
  route.metric == secondaryRouteMetric && route.table == .main && route.destination.isIpv4 &&
    isOverlayPrefix route.prefixLength

def isTunnelOverlay (route : TableRoute) : Bool :=
  isOverlayRoute route && route.prefixLength == 1

def blockOf (route : TableRoute) : Option IpBlock :=
  IpBlock.new route.destination route.prefixLength

structure RouteConflict where
  sid : Text
  holder : Text
  destination : IpAddr
  prefixLength : ℕ
  deriving DecidableEq, Repr

structure Accepted where
  route : TableRoute
  owner : Text
  deriving DecidableEq, Repr

/-- A route that can cover a destination other than its own. -/
def Accepted.isWide (a : Accepted) : Bool :=
  isOverlayRoute a.route || (blockOf a.route).any fun b => !b.isSingleAddress

/-- The candidate of a later user takes traffic `held` already carries through another link. A
rule's route beats an overlay by design. -/
def takesFrom (candidate : TableRoute) (candidateOverlay : Bool) (held : Accepted) : Bool :=
  match blockOf candidate, blockOf held.route with
  | some c, some h =>
    match candidateOverlay, isOverlayRoute held.route with
    | false, true => false
    | true, true => c.overlaps h
    | _, false => h.covers c
  | _, _ => false

structure MergedRouteView where
  carried : List (Text × Text)
  hosts : List (IpAddr × Text × ℕ)
  networks : List (IpBlock × Text × ℕ)
  deriving DecidableEq

def MergedRouteView.claim (v : MergedRouteView) (block : IpBlock) (sid : Text) (link : ℕ) :
    MergedRouteView :=
  if block.isSingleAddress then
    if v.hosts.any (·.1 == block.network) then v
    else { v with hosts := v.hosts ++ [(block.network, sid, link)] }
  else if v.networks.any (·.1 == block) then v
  else { v with networks := v.networks ++ [(block, sid, link)] }

/-- The merge under way. The routes to install are those accepted. -/
structure Laying where
  accepted : List Accepted
  contributed : List (Text × TableRoute)
  conflicts : List RouteConflict
  view : MergedRouteView
  defaultCarriedBy : List (Text × Text)
  /-- The first served user whose unnamed traffic follows the main link. -/
  defaultOnMain : Option Text
  /-- The first whose tunnel overlay went in. -/
  tunnelDefault : Option Text
  /-- An overlay of the user being laid is in the table. -/
  overlayIn : Bool
  deriving DecidableEq

def Laying.start : Laying := ⟨[], [], [], ⟨[], [], []⟩, [], none, none, false⟩

def Laying.conflict (s : Laying) (sid holder : Text) (route : TableRoute) : Laying :=
  { s with conflicts := s.conflicts ++ [⟨sid, holder, route.destination, route.prefixLength⟩] }

def Laying.share (s : Laying) (sid : Text) (route : TableRoute) : Laying :=
  { s with
    overlayIn := s.overlayIn || isOverlayRoute route
    contributed := s.contributed ++ [(sid, route)] }

def Laying.accept (s : Laying) (sid : Text) (route : TableRoute) : Laying :=
  { s.share sid route with
    accepted := s.accepted ++ [⟨route, sid⟩]
    view := match isOverlayRoute route, blockOf route with
      | false, some block => s.view.claim block sid route.interfaceIndex
      | _, _ => s.view
    tunnelDefault := if isTunnelOverlay route then s.tunnelDefault.or (some sid)
      else s.tunnelDefault }

def sameKey (a b : TableRoute) : Bool :=
  a.destination == b.destination && a.prefixLength == b.prefixLength

/-- Another user whose unnamed traffic a tunnel overlay would take off the main link. -/
def Laying.defaultHolder (s : Laying) (sid : Text) (route : TableRoute) : Option Text :=
  if isTunnelOverlay route then s.defaultOnMain.filter (· ≠ sid) else none

def Laying.takenFrom (s : Laying) (sid : Text) (route : TableRoute) : Option Accepted :=
  s.accepted.find? fun held => held.isWide && held.owner != sid &&
    held.route.interfaceIndex != route.interfaceIndex &&
      takesFrom route (isOverlayRoute route) held

def layRoute (sid : Text) (s : Laying) (route : TableRoute) : Laying :=
  match s.defaultHolder sid route with
  | some holder => s.conflict sid holder route
  | none =>
    match s.accepted.find? fun held => sameKey held.route route with
    | some held =>
      if held.route.interfaceIndex = route.interfaceIndex then s.share sid route
      else if held.owner ≠ sid then s.conflict sid held.owner route
      else s
    | none =>
      match s.takenFrom sid route with
      | some held => s.conflict sid held.owner route
      | none => s.accept sid route

/-- The user is named as carried when nothing of theirs replaces the tunnel of the one before. -/
def Laying.noteCarried (s : Laying) (sid : Text) (carrier : Option Text) : Laying :=
  match s.overlayIn, carrier with
  | false, some holder => { s with defaultCarriedBy := s.defaultCarriedBy ++ [(sid, holder)] }
  | _, _ => s

def layUser (s : Laying) (plan : Text × List TableRoute) : Laying :=
  let carrier := s.tunnelDefault.filter (· ≠ plan.1)
  let laid := (plan.2.foldl (layRoute plan.1) { s with overlayIn := false }).noteCarried plan.1 carrier
  if plan.2.any isOverlayRoute then laid
  else { laid with defaultOnMain := laid.defaultOnMain.or (some plan.1) }

structure MergedRoutes where
  routes : List TableRoute
  contributed : List (Text × TableRoute)
  conflicts : List RouteConflict
  view : MergedRouteView
  defaultCarriedBy : List (Text × Text)
  deriving DecidableEq

def layUsers (plans : List (Text × List TableRoute)) : Laying := plans.foldl layUser .start

def mergeUserRoutes (plans : List (Text × List TableRoute)) : MergedRoutes :=
  let s := layUsers plans
  { routes := s.accepted.map Accepted.route
    contributed := s.contributed
    conflicts := s.conflicts
    view := { s.view with carried := s.defaultCarriedBy }
    defaultCarriedBy := s.defaultCarriedBy }

/-- The route goes in: no plain default stands against it, its destination is free and nothing of
another user through another link is taken. -/
structure Enters (s : Laying) (sid : Text) (route : TableRoute) : Prop where
  plain : isTunnelOverlay route = true → ∀ holder ∈ s.defaultOnMain, holder = sid
  free : ∀ held ∈ s.accepted, sameKey held.route route = false
  takes : ∀ held ∈ s.accepted, held.isWide = true → held.owner ≠ sid →
    held.route.interfaceIndex ≠ route.interfaceIndex →
      takesFrom route (isOverlayRoute route) held = false

variable {route : TableRoute} {s : Laying} {sid : Text}

theorem default_holder_none :
    s.defaultHolder sid route = none ↔
      (isTunnelOverlay route = true → ∀ holder ∈ s.defaultOnMain, holder = sid) := by
  unfold Laying.defaultHolder
  cases isTunnelOverlay route with
  | false => simp
  | true => simp [Option.filter_eq_none_iff]

theorem taken_from_none :
    s.takenFrom sid route = none ↔ ∀ held ∈ s.accepted, held.isWide = true → held.owner ≠ sid →
      held.route.interfaceIndex ≠ route.interfaceIndex →
        takesFrom route (isOverlayRoute route) held = false := by
  simp only [Laying.takenFrom, List.find?_eq_none, Bool.and_eq_true, bne_iff_ne, not_and,
    Bool.not_eq_true, and_imp]

theorem lay_route_cases (s : Laying) (sid : Text) (route : TableRoute) :
    (Enters s sid route ∧ (layRoute sid s route).accepted = s.accepted ++ [⟨route, sid⟩] ∨
      ¬ Enters s sid route ∧ (layRoute sid s route).accepted = s.accepted) ∧
      (layRoute sid s route).defaultOnMain = s.defaultOnMain := by
  unfold layRoute
  cases hplain : s.defaultHolder sid route with
  | some holder =>
    refine ⟨.inr ⟨fun h => ?_, rfl⟩, rfl⟩
    rw [default_holder_none.mpr h.plain] at hplain
    cases hplain
  | none =>
    cases hkey : s.accepted.find? fun held => sameKey held.route route with
    | some held =>
      have hnot : ¬ Enters s sid route := fun h => by
        have hheld := h.free held (List.mem_of_find?_eq_some hkey)
        simp [List.find?_some hkey] at hheld
      dsimp only
      split_ifs <;> exact ⟨.inr ⟨hnot, rfl⟩, rfl⟩
    | none =>
      cases htaken : s.takenFrom sid route with
      | some held =>
        refine ⟨.inr ⟨fun h => ?_, rfl⟩, rfl⟩
        rw [taken_from_none.mpr h.takes] at htaken
        cases htaken
      | none =>
        refine ⟨.inl ⟨⟨default_holder_none.mp hplain, ?_, taken_from_none.mp htaken⟩, rfl⟩, rfl⟩
        simpa using hkey

theorem note_carried_accepted (s : Laying) (sid : Text) (carrier : Option Text) :
    (s.noteCarried sid carrier).accepted = s.accepted ∧
      (s.noteCarried sid carrier).defaultOnMain = s.defaultOnMain := by
  unfold Laying.noteCarried
  split <;> exact ⟨rfl, rfl⟩

def Laying.opened (s : Laying) : Laying := { s with overlayIn := false }

theorem lay_user_accepted (s : Laying) (plan : Text × List TableRoute) :
    (layUser s plan).accepted = (plan.2.foldl (layRoute plan.1) s.opened).accepted := by
  unfold layUser
  dsimp only
  split <;> exact (note_carried_accepted _ _ _).1

/-- A user's routes leave the plain default as it was, and add to the table only routes of that
user, with a tunnel overlay among them only where no plain default stands against it. -/
theorem lay_routes_add (sid : Text) (routes : List TableRoute) (s : Laying) :
    (routes.foldl (layRoute sid) s).defaultOnMain = s.defaultOnMain ∧
      ∀ a ∈ (routes.foldl (layRoute sid) s).accepted, a ∈ s.accepted ∨ a.owner = sid ∧
        (isTunnelOverlay a.route = true → ∀ holder ∈ s.defaultOnMain, holder = sid) := by
  induction routes generalizing s with
  | nil => exact ⟨rfl, fun a ha => .inl ha⟩
  | cons route routes ih =>
    obtain ⟨hcases, hdefault⟩ := lay_route_cases s sid route
    obtain ⟨hrest, hadded⟩ := ih (layRoute sid s route)
    rw [List.foldl_cons]
    refine ⟨hrest.trans hdefault, fun a ha => ?_⟩
    rcases hadded a ha with hin | hnew
    · rcases hcases with ⟨henters, haccepted⟩ | ⟨-, haccepted⟩
      · rw [haccepted, List.mem_append, List.mem_singleton] at hin
        rcases hin with hin | rfl
        · exact .inl hin
        · exact .inr ⟨rfl, henters.plain⟩
      · exact .inl (haccepted ▸ hin)
    · exact .inr (hdefault ▸ hnew)

theorem lay_user_default (s : Laying) (plan : Text × List TableRoute) :
    (layUser s plan).defaultOnMain =
      if plan.2.any isOverlayRoute then s.defaultOnMain else s.defaultOnMain.or (some plan.1) := by
  have hlaid := (lay_routes_add plan.1 plan.2 s.opened).1
  unfold layUser
  dsimp only
  split
  · rw [(note_carried_accepted _ _ _).2]
    exact hlaid
  · rw [(note_carried_accepted _ _ _).2]
    exact congrArg (Option.or · (some plan.1)) hlaid

/-- Owners and the first plain default are users that were laid, and there is no plain default
only while every plan has an overlay. -/
structure LaidFor (plans : List (Text × List TableRoute)) (s : Laying) : Prop where
  owners : ∀ a ∈ s.accepted, a.owner ∈ plans.map Prod.fst
  holder : ∀ h ∈ s.defaultOnMain, h ∈ plans.map Prod.fst
  plain : s.defaultOnMain = none ↔ ∀ plan ∈ plans, plan.2.any isOverlayRoute = true

theorem lay_users_append (plans : List (Text × List TableRoute)) (plan : Text × List TableRoute) :
    layUsers (plans ++ [plan]) = layUser (layUsers plans) plan := by
  rw [layUsers, List.foldl_append]
  rfl

theorem laid_for (plans : List (Text × List TableRoute)) : LaidFor plans (layUsers plans) := by
  induction plans using List.reverseRecOn with
  | nil => exact ⟨by simp [layUsers, Laying.start], by simp [layUsers, Laying.start],
      by simp [layUsers, Laying.start]⟩
  | append_singleton plans plan ih =>
    rw [lay_users_append]
    refine ⟨?_, ?_, ?_⟩
    · intro a ha
      rw [lay_user_accepted] at ha
      rw [List.map_append, List.mem_append]
      rcases (lay_routes_add plan.1 plan.2 _).2 a ha with hin | ⟨howner, -⟩
      · exact .inl (ih.owners a hin)
      · exact .inr (by simp [howner])
    · intro h hh
      rw [lay_user_default] at hh
      rw [List.map_append, List.mem_append]
      split_ifs at hh with hoverlay
      · exact .inl (ih.holder h hh)
      · cases hdefault : (layUsers plans).defaultOnMain with
        | none => exact .inr (by simpa [hdefault, eq_comm] using hh)
        | some first => exact .inl (ih.holder h (by simpa [hdefault] using hh))
    · rw [lay_user_default]
      by_cases hoverlay : plan.2.any isOverlayRoute = true
      · rw [if_pos hoverlay, ih.plain]
        simp only [List.mem_append, List.mem_singleton, or_imp, forall_and, forall_eq, hoverlay,
          and_true]
      · rw [if_neg hoverlay]
        constructor
        · intro hnone
          cases hdefault : (layUsers plans).defaultOnMain <;> simp [hdefault] at hnone
        · intro hall
          exact absurd (hall plan (by simp)) hoverlay

end NetRuleRouter.UserRoutes
