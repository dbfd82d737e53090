import NetRuleRouter.RulesAnchor
import NetRuleRouter.Sessions

/-!
# Runs around the record of the active rules

The database, the stored record and the service with its calls of `change`
between their sections under the lock, which any thread may take at any
moment, with processes lost and started again and with writers from outside.
The counters say which principals a call in flight covers.
-/

set_option autoImplicit false

namespace NetRuleRouter.AnchorRuns
open TextOps Utf8 RulesAnchor

structure Call where
  scope : AnchorScope
  committed : Bool

inductive Held where
  | finishing (scope : AnchorScope) (found : ActiveSet)
  | reRecording (found : ActiveSet)

structure Service where
  state : State
  calls : List Call
  held : Option Held

structure System where
  active : ActiveSet
  stored : Option Bytes
  service : Option Service

inductive Action where
  | enter (scope : AnchorScope)
  | commit (call : ℕ) (active : ActiveSet)
  | finish (call : ℕ) (readable : Bool)
  | reRecord (readable : Bool)
  | write
  | lose
  | boot
  | tamper (active : ActiveSet)

def AnchorScope.agreesOutside (scope : AnchorScope) (old new : ActiveSet) : Prop :=
  ∀ p ∈ old.keys ∪ new.keys, scope.covers p = false → old.lookup p = new.lookup p

instance (scope : AnchorScope) (old new : ActiveSet) :
    Decidable (AnchorScope.agreesOutside scope old new) :=
  inferInstanceAs (Decidable (∀ p ∈ old.keys ∪ new.keys, _))

def recordHeld (s : State) : Held → State
  | .finishing scope found => { s with record := s.record.map (·.touch scope found) }
  | .reRecording found => s.reRecorded found

variable (C : AnchorCodec) (key : Bytes) {scope : AnchorScope}

def System.saved (s : System) (state : State) (calls : List Call) : System :=
  let written := state.tryWrite C key
  { s with
    stored := written.2.or s.stored
    service := some ⟨written.1, calls, none⟩ }

def System.booted (s : System) : System :=
  let check := checkAtBoot C s.active s.stored key
  { s with
    stored := if check.rewrite then check.start.map (·.encode C key) else s.stored
    service := some ⟨{ record := check.start }, [], none⟩ }

def System.step (s : System) (a : Action) : Option System :=
  match a, s.service with
  | .enter scope, some ⟨state, calls, none⟩ =>
    some (s.saved C key (state.raise scope) (calls ++ [⟨scope, false⟩]))
  | .commit i active, some ⟨state, calls, held⟩ =>
    match calls[i]? with
    | some ⟨scope, false⟩ =>
      if AnchorScope.agreesOutside scope s.active active then
        some { s with active := active, service := some ⟨state, calls.set i ⟨scope, true⟩, held⟩ }
      else none
    | _ => none
  | .finish i readable, some ⟨state, calls, none⟩ =>
    match calls[i]? with
    | some ⟨scope, true⟩ =>
      let held := if readable then some (.finishing scope s.active) else none
      some { s with service := some ⟨state.lower scope, calls.eraseIdx i, held⟩ }
    | _ => none
  | .reRecord readable, some ⟨state, calls, none⟩ =>
    let held := if readable then some (.reRecording s.active) else none
    some { s with service := some ⟨state, calls, held⟩ }
  | .write, some ⟨state, calls, some held⟩ => some (s.saved C key (recordHeld state held) calls)
  | .lose, some _ => some { s with service := none }
  | .boot, none => some (s.booted C key)
  | .tamper active, _ => some { s with active := active }
  | _, _ => none

theorem step_commit {s : System} {i : ℕ} {active : ActiveSet} {state : State} {calls : List Call}
    {held : Option Held} (hs : s.service = some ⟨state, calls, held⟩)
    (hc : calls[i]? = some ⟨scope, false⟩)
    (hagrees : AnchorScope.agreesOutside scope s.active active) :
    s.step C key (.commit i active) =
      some ⟨active, s.stored, some ⟨state, calls.set i ⟨scope, true⟩, held⟩⟩ := by
  simp [System.step, hs, hc, hagrees]

inductive Stepped (s : System) : Action → System → Prop where
  | enter (scope : AnchorScope) {state : State} {calls : List Call}
      (hs : s.service = some ⟨state, calls, none⟩) :
      Stepped s (.enter scope) (s.saved C key (state.raise scope) (calls ++ [⟨scope, false⟩]))
  | commit {i : ℕ} {active : ActiveSet} {state : State} {calls : List Call} {held : Option Held}
      {scope : AnchorScope} (hs : s.service = some ⟨state, calls, held⟩)
      (hc : calls[i]? = some ⟨scope, false⟩)
      (hagrees : AnchorScope.agreesOutside scope s.active active) :
      Stepped s (.commit i active) ⟨active, s.stored, some ⟨state, calls.set i ⟨scope, true⟩, held⟩⟩
  | finish {i : ℕ} (readable : Bool) {state : State} {calls : List Call} {scope : AnchorScope}
      (hs : s.service = some ⟨state, calls, none⟩) (hc : calls[i]? = some ⟨scope, true⟩) :
      Stepped s (.finish i readable) ⟨s.active, s.stored, some ⟨state.lower scope,
        calls.eraseIdx i, if readable then some (.finishing scope s.active) else none⟩⟩
  | reRecord (readable : Bool) {state : State} {calls : List Call}
      (hs : s.service = some ⟨state, calls, none⟩) :
      Stepped s (.reRecord readable) ⟨s.active, s.stored, some ⟨state, calls,
        if readable then some (.reRecording s.active) else none⟩⟩
  | write (held : Held) {state : State} {calls : List Call}
      (hs : s.service = some ⟨state, calls, some held⟩) :
      Stepped s .write (s.saved C key (recordHeld state held) calls)
  | lose {v : Service} (hs : s.service = some v) : Stepped s .lose ⟨s.active, s.stored, none⟩
  | boot (hs : s.service = none) : Stepped s .boot (s.booted C key)
  | tamper (active : ActiveSet) : Stepped s (.tamper active) ⟨active, s.stored, s.service⟩

theorem step_stepped {s t : System} {a : Action} (h : s.step C key a = some t) :
    Stepped C key s a t := by
  obtain ⟨active, stored, service⟩ := s
  unfold System.step at h
  split at h
  · rename_i hservice
    cases h
    exact .enter _ hservice
  · rename_i hservice
    split at h
    · rename_i hcall
      split at h
      · rename_i hagrees
        cases h
        exact .commit hservice hcall hagrees
      · cases h
    · cases h
  · rename_i hservice
    split at h
    · rename_i hcall
      cases h
      exact .finish _ hservice hcall
    · cases h
  · rename_i hservice
    cases h
    exact .reRecord _ hservice
  · rename_i hservice
    cases h
    exact .write _ hservice
  · rename_i hservice
    cases h
    exact .lose hservice
  · rename_i hservice
    cases h
    exact .boot hservice
  · cases h
    exact .tamper _
  · cases h

theorem agrees_outside_lookup {old new : ActiveSet}
    (h : AnchorScope.agreesOutside scope old new) {p : Text} (hp : scope.covers p = false) :
    old.lookup p = new.lookup p := by
  by_cases hmem : p ∈ old.keys ∪ new.keys
  · exact h p hmem hp
  · rw [Finset.mem_union, Finmap.mem_keys, Finmap.mem_keys, not_or] at hmem
    rw [Finmap.lookup_eq_none.mpr hmem.1, Finmap.lookup_eq_none.mpr hmem.2]

structure Counted (s : State) (scopes : List AnchorScope) : Prop where
  positive : Positive s.inFlight
  counts : ∀ p, (s.inFlight.lookup p).getD 0 = (scopes.map (·.times p)).sum
  every : s.everyInFlight = scopes.count .every

variable {s : State} {scopes : List AnchorScope}

theorem counted_perm {scopes' : List AnchorScope} (h : Counted s scopes)
    (hperm : scopes.Perm scopes') : Counted s scopes' :=
  ⟨h.positive, fun p => (h.counts p).trans (hperm.map _).sum_eq,
    h.every.trans (hperm.count_eq _)⟩

theorem counted_raise (h : Counted s scopes) (scope : AnchorScope) :
    Counted (s.raise scope) (scope :: scopes) := by
  cases scope with
  | of principals =>
    refine ⟨positive_raise principals h.positive, fun p => ?_, ?_⟩
    · have hraise := lookup_raise principals s.inFlight p
      rw [h.counts p] at hraise
      rw [List.map_cons, List.sum_cons, Nat.add_comm]
      exact hraise
    · simpa [State.raise] using h.every
  | every =>
    refine ⟨h.positive, fun p => ?_, ?_⟩
    · simpa [State.raise, AnchorScope.times] using h.counts p
    · simpa [State.raise] using h.every

theorem counted_lower (h : Counted s (scope :: scopes)) :
    Counted (s.lower scope) scopes := by
  cases scope with
  | of principals =>
    refine ⟨positive_lower principals h.positive, fun p => ?_, ?_⟩
    · have hlower := lookup_lower principals s.inFlight p
      have hcounts := h.counts p
      rw [List.map_cons, List.sum_cons] at hcounts
      rw [hcounts] at hlower
      refine hlower.trans ?_
      simp [AnchorScope.times]
    · simpa [State.lower] using h.every
  | every =>
    refine ⟨h.positive, fun p => ?_, ?_⟩
    · simpa [State.lower, AnchorScope.times] using h.counts p
    · have hevery := h.every
      rw [List.count_cons_self] at hevery
      simp [State.lower, hevery]

theorem in_change_iff (h : Counted s scopes) (p : Text) :
    s.inChange p = true ↔ ∃ scope ∈ scopes, scope.covers p = true := by
  rw [State.inChange, Bool.or_eq_true, decide_eq_true_eq, decide_eq_true_eq,
    positive_mem h.positive, h.counts, h.every, List.count_pos_iff, List.sum_pos_iff_exists_pos_nat]
  constructor
  · rintro (⟨n, hn, hpos⟩ | hevery)
    · obtain ⟨scope, hscope, rfl⟩ := List.mem_map.mp hn
      refine ⟨scope, hscope, ?_⟩
      cases scope with
      | of principals => simpa [AnchorScope.times, AnchorScope.covers, List.count_pos_iff] using hpos
      | every => rfl
    · exact ⟨.every, hevery, rfl⟩
  · rintro ⟨scope, hscope, hcovers⟩
    cases scope with
    | of principals =>
      refine .inl ⟨_, List.mem_map.mpr ⟨_, hscope, rfl⟩, ?_⟩
      simpa [AnchorScope.times, AnchorScope.covers, List.count_pos_iff] using hcovers
    | every => exact .inr hscope

end NetRuleRouter.AnchorRuns
