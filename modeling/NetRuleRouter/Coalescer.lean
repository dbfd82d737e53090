import Mathlib.Logic.Relation
import Mathlib.Tactic

/-!
# One pass for many callers

Any thread may ask for a pass, and its call is over when a pass that began after
it asked is. The pass runs on the thread of one caller, outside the lock; those
who ask meanwhile share the next one. A pass that panics covers nobody. A step
is what a thread does in one hold of the lock, the end of a pass, a wake-up or a
notification. The counters fit their words until the call numbered `2 ^ 64`.
-/

set_option autoImplicit false

namespace NetRuleRouter.Coalescer

/-- A call is named by its request number and a pass by the call that runs it. -/
inductive Event where
  | registered (call : ℕ)
  | began (call : ℕ)
  | ended (thread call : ℕ) (finished : Bool)
  | returned (call : ℕ)
  deriving DecidableEq

/-- Where a thread is: awake and about to look again under the lock, guarding a pass that is over,
or leaving with the lock let go and the others not yet notified. -/
inductive Place where
  | outside
  | waiting (mine : ℕ)
  | awake (mine : ℕ)
  | passing (mine covers : ℕ)
  | guarding (mine covers : ℕ) (finished : Bool)
  | leaving (mine : ℕ) (finished : Bool)
  deriving DecidableEq

structure State where
  requested : ℕ
  completed : ℕ
  running : Bool
  threads : ℕ → Place
  -- the newest event first
  trace : List Event

def initial : State := ⟨0, 0, false, fun _ => .outside, []⟩

def turn (s : State) (i mine : ℕ) : State :=
  if mine ≤ s.completed then
    { s with threads := Function.update s.threads i .outside
             trace := .returned mine :: s.trace }
  else if s.running then
    { s with threads := Function.update s.threads i (.waiting mine) }
  else
    { s with running := true
             threads := Function.update s.threads i (.passing mine s.requested)
             trace := .began mine :: s.trace }

def register (s : State) : State :=
  { s with requested := s.requested + 1
           trace := .registered (s.requested + 1) :: s.trace }

def Place.notified : Place → Place
  | waiting mine => awake mine
  | p => p

theorem notified_eq (p : Place) : (∀ c, p.notified ≠ .waiting c) ∧
    (p.notified = p ∨ ∃ c, p = .waiting c ∧ p.notified = .awake c) := by
  cases p <;> simp [Place.notified]

inductive Step (s : State) : State → Prop where
  | call {i : ℕ} (h : s.threads i = .outside) : Step s (turn (register s) i (s.requested + 1))
  -- a waiting thread may wake up though nobody notified it
  | wake {i mine : ℕ} (h : s.threads i = .waiting mine) :
      Step s { s with threads := Function.update s.threads i (.awake mine) }
  | look {i mine : ℕ} (h : s.threads i = .awake mine) : Step s (turn s i mine)
  | finish {i mine covers : ℕ} (h : s.threads i = .passing mine covers) (finished : Bool) :
      Step s { s with threads := Function.update s.threads i (.guarding mine covers finished)
                      trace := .ended i mine finished :: s.trace }
  | drop {i mine covers : ℕ} {finished : Bool} (h : s.threads i = .guarding mine covers finished) :
      Step s { s with running := false
                      completed := if finished then max s.completed covers else s.completed
                      threads := Function.update s.threads i (.leaving mine finished) }
  | notify {i mine : ℕ} {finished : Bool} (h : s.threads i = .leaving mine finished) :
      Step s { s with threads := fun j => if j = i then if finished then .awake mine else .outside
                        else (s.threads j).notified }

@[grind] def openPass : List Event → Option ℕ
  | [] => none
  | .began p :: _ => some p
  | .ended _ _ _ :: _ => none
  | _ :: past => openPass past

@[grind] def beforePass : List Event → List Event
  | [] => []
  | .began _ :: past => past
  | _ :: past => beforePass past

/-- A pass that began after the call was registered has finished. -/
def Served (call : ℕ) (trace : List Event) : Prop :=
  ∃ i p past, .ended i p true :: past <:+ trace ∧ openPass past = some p ∧
    .registered call ∈ beforePass past

variable {s s' : State} {tr : List Event}

theorem Served.later {c : ℕ} (h : Served c tr) (e : Event) : Served c (e :: tr) := by
  obtain ⟨i, p, past, hsuffix, hopen, hmem⟩ := h
  exact ⟨i, p, past, hsuffix.trans (List.suffix_cons e tr), hopen, hmem⟩

theorem suffix_before_pass {p : ℕ} {earlier : List Event} (hopen : openPass tr = some p)
    (hnone : openPass earlier = none) (h : earlier <:+ tr) : earlier <:+ beforePass tr := by
  induction tr with
  | nil => cases hopen
  | cons e tr ih =>
    rcases List.suffix_cons_iff.mp h with rfl | htail
    · rw [hnone] at hopen
      cases hopen
    · cases e with
      | began q => exact htail
      | ended i q finished => cases hopen
      | registered c | returned c => exact ih hopen htail

@[grind] def Place.guards : Place → Bool
  | passing _ _ => true
  | guarding _ _ _ => true
  | _ => false

@[grind] def Place.call : Place → Option ℕ
  | outside => none
  | waiting c | awake c | passing c _ | guarding c _ _ | leaving c _ => some c

@[grind] def Place.finishing (p : ℕ) : Place → Bool
  | guarding q _ true => q = p
  | _ => false

structure Inv (s : State) : Prop where
  numbered : ∀ c, .registered c ∈ s.trace ↔ 0 < c ∧ c ≤ s.requested
  calls : ∀ i c, (s.threads i).call = some c → 0 < c ∧ c ≤ s.requested
  running : ∀ i, (s.threads i).guards = true → s.running = true
  alone : ∀ i j, (s.threads i).guards = true → (s.threads j).guards = true → i = j
  passing : ∀ i p k, s.threads i = .passing p k → openPass s.trace = some p ∧
    s.completed ≤ k ∧ ∀ c, .registered c ∈ beforePass s.trace ↔ 0 < c ∧ c ≤ k
  finished : ∀ i p k, s.threads i = .guarding p k true → ∀ c, 0 < c → c ≤ k → Served c s.trace
  completed : ∀ c, 0 < c → c ≤ s.completed → Served c s.trace
  returned : ∀ c past, .returned c :: past <:+ s.trace → Served c past
  covers : ∀ i p past c k, .ended i p true :: past <:+ s.trace →
    .registered c ∈ beforePass past → s.threads i = .guarding p k true → c ≤ k
  released : ∀ i p past c, .ended i p true :: past <:+ s.trace → .registered c ∈ beforePass past →
    (s.threads i).finishing p = false → c ≤ s.completed
  woken : ∀ i p past c j, .ended i p true :: past <:+ s.trace →
    .registered c ∈ beforePass past → s.threads j = .waiting c →
    (s.threads i).finishing p = true ∨ s.threads i = .leaving p true

theorem inv_register (h : Inv s) : Inv (register s) := by
  unfold register
  constructor <;> grind -ring -linarith [Inv, Served.later, List.suffix_cons_iff]

theorem inv_turn (h : Inv s) {i mine : ℕ} (hmine : 0 < mine ∧ mine ≤ s.requested)
    (hi : s.threads i = .outside ∨ s.threads i = .awake mine) : Inv (turn s i mine) := by
  unfold turn
  split_ifs
  · constructor <;> grind -ring -linarith [Inv, Served.later, List.suffix_cons_iff]
  · constructor <;> grind -ring -linarith [Inv, Served.later, List.suffix_cons_iff]
  · constructor <;> grind -ring -linarith [Inv, Served.later, List.suffix_cons_iff]

theorem inv_step (h : Inv s) (hstep : Step s s') : Inv s' := by
  cases hstep with
  | call hi => exact inv_turn (inv_register h) ⟨Nat.succ_pos _, le_rfl⟩ (.inl hi)
  | look hi => exact inv_turn h (h.calls _ _ (by rw [hi]; rfl)) (.inr hi)
  | wake hi => constructor <;> grind -ring -linarith [Inv]
  | @finish i p k hi finished =>
    -- the pass covers the calls registered before it began
    have hserved : ∀ c, 0 < c → c ≤ k → Served c (.ended i p true :: s.trace) := by
      intro c hc hk
      obtain ⟨hopen, -, hbefore⟩ := h.passing i p k hi
      exact ⟨i, p, _, List.suffix_refl _, hopen, (hbefore c).mpr ⟨hc, hk⟩⟩
    constructor <;> grind -ring -linarith [Inv, Served.later, List.suffix_cons_iff]
  | @drop i _ _ finished hi =>
    cases finished with
    | false | true => constructor <;> grind -ring -linarith [Inv]
  | notify hi =>
    have hnotified := fun j => notified_eq (s.threads j)
    constructor <;> grind -ring -linarith [Inv]

/-- Two passes never run at once. A call returns when a pass that began after it was registered has
finished. A finished pass whose guard is gone has released the calls registered before it began. A
call not served when a pass panics returns behind a pass that began after that. -/
structure Contract (s : State) : Prop where
  alone : ∀ i j p q k l, s.threads i = .passing p k → s.threads j = .passing q l → i = j
  covered : ∀ c past, .returned c :: past <:+ s.trace → Served c past
  releases : ∀ i p past, .ended i p true :: past <:+ s.trace →
    (s.threads i).finishing p = false → s.threads i ≠ .leaving p true →
    ∀ c, .registered c ∈ beforePass past → c ≤ s.completed ∧ ∀ j, s.threads j ≠ .waiting c
  again : ∀ c past i p earlier, .returned c :: past <:+ s.trace →
    .ended i p false :: earlier <:+ past → ¬ Served c earlier →
    ∃ j q later, .ended j q true :: later <:+ past ∧ openPass later = some q ∧
      .ended i p false :: earlier <:+ beforePass later
  fits : .registered (2 ^ 64) ∉ s.trace → s.requested < 2 ^ 64 ∧ s.completed < 2 ^ 64

theorem Served.registered {c : ℕ} (h : Served c tr) : .registered c ∈ tr := by
  have hbefore (past : List Event) : beforePass past <:+ past := by
    induction past with
    | nil => exact List.suffix_refl _
    | cons e past ih =>
      cases e with
      | began q => exact List.suffix_cons _ _
      | registered c | ended i q finished | returned c => exact ih.trans (List.suffix_cons _ _)
  obtain ⟨i, p, past, hsuffix, -, hmem⟩ := h
  exact hsuffix.subset (List.mem_cons_of_mem _ ((hbefore past).subset hmem))

theorem counters_fit (h : Inv s) (hroom : .registered (2 ^ 64) ∉ s.trace) :
    s.requested < 2 ^ 64 ∧ s.completed < 2 ^ 64 := by
  have hrequested : s.requested < 2 ^ 64 := by
    by_contra hfull
    exact hroom ((h.numbered _).mpr ⟨Nat.two_pow_pos 64, not_lt.mp hfull⟩)
  refine ⟨hrequested, ?_⟩
  rcases Nat.eq_zero_or_pos s.completed with hzero | hpos
  · rw [hzero]
    exact Nat.two_pow_pos 64
  · have hlast := (h.completed s.completed hpos le_rfl).registered
    exact lt_of_le_of_lt ((h.numbered _).mp hlast).2 hrequested

theorem again_of_served {c i p : ℕ} {past earlier : List Event} (h : Served c past)
    (hpanic : .ended i p false :: earlier <:+ past) (hnot : ¬ Served c earlier) :
    ∃ j q later, .ended j q true :: later <:+ past ∧ openPass later = some q ∧
      .ended i p false :: earlier <:+ beforePass later := by
  obtain ⟨j, q, later, hend, hopen, hmem⟩ := h
  refine ⟨j, q, later, hend, hopen, suffix_before_pass hopen rfl ?_⟩
  rcases List.suffix_or_suffix_of_suffix hend hpanic with h | h
  · have hearlier : .ended j q true :: later <:+ earlier := by
      simpa [List.suffix_cons_iff] using h
    exact absurd ⟨j, q, later, hearlier, hopen, hmem⟩ hnot
  · simpa [List.suffix_cons_iff] using h

theorem passes_keep_contract (h : Relation.ReflTransGen Step initial s) : Contract s := by
  have hinv : Inv s := by
    induction h with
    | refl => constructor <;> simp [initial, Place.call, Place.guards] <;> omega
    | tail _ hstep ih => exact inv_step ih hstep
  refine ⟨?_, hinv.returned, ?_, ?_, counters_fit hinv⟩
  · intro i j p q k l hi hj
    exact hinv.alone i j (by rw [hi]; rfl) (by rw [hj]; rfl)
  · intro i p past hend hfinishing hleaving c hc
    refine ⟨hinv.released i p past c hend hc hfinishing, fun j hj => ?_⟩
    have hwoken := hinv.woken i p past c j hend hc hj
    simp [hfinishing, hleaving] at hwoken
  · intro c past i p earlier hreturned
    exact again_of_served (hinv.returned c past hreturned)

/-- The first pass panics, and a caller waiting for it runs the next. -/
theorem second_pass_returns : ∃ s, Relation.ReflTransGen Step initial s ∧
    s.trace = [.returned 2, .ended 1 2 true, .began 2, .ended 0 1 false, .registered 2, .began 1,
      .registered 1] ∧ Contract s := by
  have hrun : Relation.ReflTransGen Step initial _ :=
    .tail (.tail (.tail (.tail (.tail (.tail (.tail (.tail (.tail (.tail .refl
      (.call (i := 0) rfl)) (.call (i := 1) rfl)) (.finish (i := 0) rfl false))
      (.drop (i := 0) rfl)) (.notify (i := 0) rfl)) (.look (i := 1) rfl))
      (.finish (i := 1) rfl true)) (.drop (i := 1) rfl)) (.notify (i := 1) rfl))
      (.look (i := 1) rfl)
  exact ⟨_, hrun, rfl, passes_keep_contract hrun⟩

end NetRuleRouter.Coalescer
