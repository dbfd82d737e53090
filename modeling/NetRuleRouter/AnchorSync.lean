import NetRuleRouter.AnchorRuns

/-!
# The record on disk and the record in the service

Whatever the threads do, the bytes on disk are the record the service holds,
and every principal that a call in flight covers is pending in them. A boot
that can read the record keeps this, and says which rules it starts from.
-/

set_option autoImplicit false

namespace NetRuleRouter.AnchorSync
open TextOps Utf8 RulesAnchor AnchorRuns

variable (C : AnchorCodec) (key : Bytes)

/-- The record on disk, which is the one a running service holds. -/
structure Kept (s : System) (r : AnchorRecord) : Prop where
  stored : s.stored = some (r.encode C key)
  version : r.version = recordVersion
  held : ∀ v, s.service = some v → v.state.record = some r

/-- Before the first boot there may be no record. From then on there is one, and every principal
that a call in flight covers is pending in it. -/
structure Synced (s : System) : Prop where
  record : s.stored = none ∧ s.service = none ∨ ∃ r, Kept C key s r
  counted : ∀ v, s.service = some v → Counted v.state (v.calls.map (·.scope))
  marked : ∀ v r, s.service = some v → v.state.record = some r → ∀ p,
    v.state.inChange p = true → r.isPending p = true

def Fits (s : System) : Prop := ∀ bytes ∈ s.stored, bytes.length ≤ maxRecordBytes

variable {C key} {s : System} {r : AnchorRecord} {r' : AnchorRecord}

theorem kept_unique (h : Kept C key s r) (h' : Kept C key s r') : r = r' :=
  encode_record_injective (Option.some.inj (h.stored.symm.trans h'.stored))

theorem synced_running (h : Synced C key s) {v : Service} (hv : s.service = some v) :
    ∃ r, Kept C key s r ∧ v.state.record = some r := by
  rcases h.record with ⟨-, hnone⟩ | ⟨r, hr⟩
  · rw [hnone] at hv
    cases hv
  · exact ⟨r, hr, hr.held v hv⟩

theorem kept_down (hdown : s.service = none) (hr : s.stored = some (r.encode C key))
    (hversion : r.version = recordVersion) : Kept C key s r :=
  ⟨hr, hversion, fun v hv => by simp [hdown] at hv⟩

theorem synced_down (hdown : s.service = none) (h : s.stored = none ∨ ∃ r, Kept C key s r) :
    Synced C key s := by
  refine ⟨h.imp_left (⟨·, hdown⟩), fun v hv => ?_, fun v r hv => ?_⟩
  · simp [hdown] at hv
  · simp [hdown] at hv

variable {state : State}

section
variable {state' : State} {calls calls' : List Call} {held held' : Option Held}
variable {active : ActiveSet}

theorem Kept.moved (h : Kept C key s r) (hs : s.service = some ⟨state, calls, held⟩)
    (hrecord : state'.record = state.record) :
    Kept C key ⟨active, s.stored, some ⟨state', calls', held'⟩⟩ r := by
  refine ⟨h.stored, h.version, fun v hv => ?_⟩
  cases hv
  exact hrecord.trans (h.held _ hs)

theorem Synced.moved (h : Synced C key s) (hs : s.service = some ⟨state, calls, held⟩)
    (hrecord : state'.record = state.record) (hcounted : Counted state' (calls'.map (·.scope)))
    (hin : ∀ p, state'.inChange p = true → state.inChange p = true) :
    Synced C key ⟨active, s.stored, some ⟨state', calls', held'⟩⟩ := by
  obtain ⟨r, hr, -⟩ := synced_running h hs
  refine ⟨.inr ⟨r, hr.moved hs hrecord⟩, fun v hv => ?_, fun v r' hv hr' p hp => ?_⟩
  · cases hv
    exact hcounted
  · cases hv
    exact h.marked _ r' hs (hrecord.symm.trans hr') p (hin p hp)

end

variable (hr : state.record = some r)
include hr

theorem saved_eq (calls : List Call) :
    s.saved C key state calls = ⟨s.active, some ((state.marked r).encode C key),
      some ⟨{ state with record := some (state.marked r) }, calls, none⟩⟩ := by
  simp [System.saved, State.tryWrite, hr]

theorem saved_kept (hversion : r.version = recordVersion)
    (calls : List Call) : Kept C key (s.saved C key state calls) (state.marked r) := by
  rw [saved_eq hr]
  refine ⟨rfl, hversion, fun v hv => ?_⟩
  cases hv
  rfl

omit hr

variable {calls : List Call}

theorem saved_synced (hr : state.record = some r) (hversion : r.version = recordVersion)
    (hcounted : Counted state (calls.map (·.scope))) :
    Synced C key (s.saved C key state calls) := by
  refine ⟨.inr ⟨_, saved_kept hr hversion calls⟩, ?_, ?_⟩
  · intro v hv
    rw [saved_eq hr] at hv
    cases hv
    exact ⟨hcounted.positive, hcounted.counts, hcounted.every⟩
  · intro v r' hv hr' p hp
    rw [saved_eq hr] at hv
    cases hv
    cases hr'
    rw [marked_pending]
    exact hp

theorem record_held_version {held : Held} (hr : state.record = some r)
    (hversion : r.version = recordVersion) (hr' : (recordHeld state held).record = some r') :
    r'.version = recordVersion := by
  cases held with
  | finishing scope found =>
    rw [recordHeld, hr] at hr'
    cases hr'
    exact hversion
  | reRecording found =>
    cases hr'
    rfl

theorem record_held_some (hr : state.record = some r) (held : Held) :
    ∃ r', (recordHeld state held).record = some r' := by
  cases held with
  | finishing scope found => exact ⟨r.touch scope found, by rw [recordHeld, hr]; rfl⟩
  | reRecording found => exact ⟨_, rfl⟩

theorem record_held_in_change (state : State) (held : Held) (p : Text) :
    (recordHeld state held).inChange p = state.inChange p := by
  cases held <;> rfl

theorem record_held_counted {scopes : List AnchorScope} (h : Counted state scopes) (held : Held) :
    Counted (recordHeld state held) scopes := by
  cases held with
  | finishing scope found | reRecording found => exact ⟨h.positive, h.counts, h.every⟩

theorem raise_record (state : State) (scope : AnchorScope) :
    (state.raise scope).record = state.record := by
  cases scope <;> rfl

theorem lower_record (state : State) (scope : AnchorScope) :
    (state.lower scope).record = state.record := by
  cases scope <;> rfl

variable {i : ℕ} {c : Call}

theorem scopes_perm (hc : calls[i]? = some c) :
    (calls.map (·.scope)).Perm (c.scope :: (calls.eraseIdx i).map (·.scope)) := by
  obtain ⟨hi, rfl⟩ := List.getElem?_eq_some_iff.mp hc
  exact ((List.getElem_cons_eraseIdx_perm hi).map (·.scope)).symm

theorem committed_scopes {scope : AnchorScope} {before : Bool}
    (hc : calls[i]? = some ⟨scope, before⟩) :
    (calls.set i ⟨scope, true⟩).map (·.scope) = calls.map (·.scope) := by
  obtain ⟨hi, hget⟩ := List.getElem?_eq_some_iff.mp hc
  rw [List.map_set]
  refine List.ext_getElem (by simp) fun j hj _ => ?_
  rw [List.getElem_set]
  split
  · rename_i hij
    subst hij
    simp [hget]
  · rfl

variable (h : Counted state (calls.map (·.scope)))
include h

theorem raised_counted (scope : AnchorScope) (committed : Bool) :
    Counted (state.raise scope) ((calls ++ [Call.mk scope committed]).map (·.scope)) := by
  refine counted_perm (counted_raise h scope) ?_
  rw [List.map_append]
  exact (List.perm_append_singleton _ _).symm

theorem lowered_counted (hc : calls[i]? = some c) :
    Counted (state.lower c.scope) ((calls.eraseIdx i).map (·.scope)) :=
  counted_lower (counted_perm h (scopes_perm hc))

theorem lowered_in_change (hc : calls[i]? = some c)
    {p : Text} (hp : (state.lower c.scope).inChange p = true) : state.inChange p = true := by
  obtain ⟨scope, hscope, hcovers⟩ := (in_change_iff (lowered_counted h hc) p).mp hp
  refine (in_change_iff h p).mpr ⟨scope, ?_, hcovers⟩
  exact (scopes_perm hc).mem_iff.mpr (List.mem_cons_of_mem _ hscope)

omit h

theorem counted_empty (r : Option AnchorRecord) : Counted { record := r } [] :=
  ⟨fun p n h => by simp at h, fun p => by simp, rfl⟩

theorem boot_first (h : s.stored = none) :
    checkAtBoot C s.active s.stored key =
      { start := some (.of s.active), rewrite := true, alert := none } := by
  rw [h]
  rfl

theorem boot_kept (h : Kept C key s r) (hfits : Fits s) :
    ∃ r', (checkAtBoot C s.active s.stored key).start = some r' ∧
      r'.version = recordVersion ∧ r'.pending = ∅ ∧ r'.pendingAll = false ∧
      (∀ p, r'.active.lookup p =
        if r.isPending p then s.active.lookup p else r.active.lookup p) ∧
      ((checkAtBoot C s.active s.stored key).rewrite = false → r' = r) ∧
      (checkAtBoot C s.active s.stored key).alert =
        if disagreements r s.active = [] then none
        else some (.disagrees (disagreements r s.active)) := by
  have hdecode : AnchorRecord.decode C (r.encode C key) key = some r := by
    rw [decode_encode h.version, if_pos (hfits _ h.stored)]
  rw [h.stored]
  simp only [checkAtBoot, hdecode]
  by_cases hpending : (r.pendingAll || !decide (r.pending = ∅)) = true
  · simp only [hpending, if_true]
    refine ⟨_, rfl, h.version, rfl, rfl, fun p => ?_, Bool.noConfusion, trivial⟩
    dsimp only
    by_cases hall : r.pendingAll = true
    · simp [hall, take_found_every, AnchorRecord.isPending]
    · rw [if_neg hall, lookup_take_found]
      simp [AnchorRecord.isPending, hall]
  · simp only [hpending, Bool.false_eq_true, if_false]
    rw [Bool.not_eq_true, Bool.or_eq_false_iff, Bool.not_eq_false', decide_eq_true_eq] at hpending
    refine ⟨_, rfl, h.version, hpending.2, hpending.1, fun p => ?_, fun _ => rfl, trivial⟩
    simp [AnchorRecord.isPending, hpending.1, hpending.2]

theorem boot_unfit (h : Kept C key s r) (hfits : ¬ Fits s) :
    ∃ fingerprint, checkAtBoot C s.active s.stored key =
      { start := none, rewrite := false, alert := some (.unverifiable fingerprint) } := by
  have hlong : ¬ (r.encode C key).length ≤ maxRecordBytes := by
    intro hle
    refine hfits fun bytes hbytes => ?_
    rw [h.stored] at hbytes
    cases hbytes
    exact hle
  have hdecode : AnchorRecord.decode C (r.encode C key) key = none := by
    rw [decode_encode h.version, if_neg hlong]
  refine ⟨shortHex (C.sha256 (r.encode C key)), ?_⟩
  rw [h.stored]
  simp only [checkAtBoot, hdecode]

theorem booted_kept (h : Synced C key s) (hfits : Fits s)
    (hstart : (checkAtBoot C s.active s.stored key).start = some r) :
    Kept C key (s.booted C key) r := by
  rcases h.record with ⟨hnone, -⟩ | ⟨r₀, hr₀⟩
  · have hboot := @boot_first C key s hnone
    rw [hboot] at hstart
    cases hstart
    refine ⟨?_, rfl, fun v hv => ?_⟩
    · simp [System.booted, hboot]
    · simp only [System.booted, hboot, Option.some.injEq] at hv
      subst hv
      rfl
  · obtain ⟨r', hstart', hversion, -, -, -, hsame, -⟩ := boot_kept hr₀ hfits
    rw [hstart] at hstart'
    cases hstart'
    refine ⟨?_, hversion, fun v hv => ?_⟩
    · simp only [System.booted]
      split
      · rw [hstart]
        rfl
      · rename_i hrewrite
        rw [hsame (by simpa using hrewrite), hr₀.stored]
    · simp only [System.booted, Option.some.injEq] at hv
      subst hv
      exact hstart

theorem boot_start (h : Synced C key s) (hfits : Fits s) :
    ∃ r, (checkAtBoot C s.active s.stored key).start = some r := by
  rcases h.record with ⟨hnone, -⟩ | ⟨r, hr⟩
  · exact ⟨_, by rw [boot_first hnone]⟩
  · obtain ⟨r', hstart, -⟩ := boot_kept hr hfits
    exact ⟨r', hstart⟩

theorem booted_service (s : System) :
    (s.booted C key).service =
      some ⟨{ record := (checkAtBoot C s.active s.stored key).start }, [], none⟩ := rfl

theorem synced_step {t : System} {a : Action} (h : Synced C key s) (hboot : a = .boot → Fits s)
    (hstep : s.step C key a = some t) : Synced C key t := by
  cases step_stepped C key hstep with
  | enter scope hs =>
    obtain ⟨r, hr, hstate⟩ := synced_running h hs
    exact saved_synced ((raise_record _ scope).trans hstate) hr.version
      (raised_counted (h.counted _ hs) scope false)
  | commit hs hc _ =>
    refine h.moved hs rfl ?_ fun _ => id
    rw [committed_scopes hc]
    exact h.counted _ hs
  | finish _ hs hc =>
    have hcounted := h.counted _ hs
    exact h.moved hs (lower_record _ _) (lowered_counted hcounted hc)
      fun p => lowered_in_change hcounted hc
  | reRecord _ hs => exact h.moved hs rfl (h.counted _ hs) fun _ => id
  | write held hs =>
    obtain ⟨r, hr, hstate⟩ := synced_running h hs
    obtain ⟨r', hr'⟩ := record_held_some hstate held
    exact saved_synced hr' (record_held_version hstate hr.version hr')
      (record_held_counted (h.counted _ hs) held)
  | lose hs =>
    obtain ⟨r, hr, -⟩ := synced_running h hs
    exact synced_down rfl (.inr ⟨r, kept_down rfl hr.stored hr.version⟩)
  | boot _ =>
    obtain ⟨r, hstart⟩ := boot_start h (hboot rfl)
    refine ⟨.inr ⟨r, booted_kept h (hboot rfl) hstart⟩, ?_, ?_⟩
    · intro v hv
      rw [booted_service] at hv
      cases hv
      exact counted_empty _
    · intro v r' hv hr' p hp
      rw [booted_service] at hv
      cases hv
      rw [in_change_iff (counted_empty _)] at hp
      simp at hp
  | tamper _ =>
    refine ⟨?_, h.counted, h.marked⟩
    rcases h.record with hnone | ⟨r, hr⟩
    · exact .inl hnone
    · exact .inr ⟨r, hr.stored, hr.version, hr.held⟩

end NetRuleRouter.AnchorSync
