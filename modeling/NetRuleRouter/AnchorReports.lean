import NetRuleRouter.AnchorJson
import NetRuleRouter.AnchorSync

/-!
# Changes made past the service

Rules that somebody changed past the service stay different from the record,
through the changes of other principals, lost processes and boots, until they
are acknowledged or put back. So the running service and every boot name the
principal, as long as the boot can read the record.
-/

set_option autoImplicit false

namespace NetRuleRouter.AnchorReports
open TextOps Utf8 Lookups Runs RevisionRecords RulesAnchor AnchorRuns AnchorSync AnchorJson

variable (C : AnchorCodec) (key : Bytes)

/-- A service that is not running, with a record of its own or none. -/
structure Begins (s : System) : Prop where
  down : s.service = none
  record : s.stored = none ∨ ∃ r : AnchorRecord, s.stored = some (r.encode C key) ∧
    r.version = recordVersion

def Reads (_ : System) : Action → Prop
  | .finish _ readable => readable = true
  | .reRecord readable => readable = true
  | _ => True

/-- Besides, a boot can read the record. -/
def Legible (s : System) (a : Action) : Prop := Reads s a ∧ (a = .boot → Fits s)

/-- A call of `change` that covers the principal has entered and has not returned. -/
def InFlight (v : Service) (p : Text) : Prop :=
  (∃ c ∈ v.calls, c.scope.covers p = true) ∨
    ∃ scope found, v.held = some (.finishing scope found) ∧ scope.covers p = true

/-- A change that covers the principal, an acknowledgement, or the recorded rules put back. -/
def Acknowledges (p : Text) (s : System) : Action → Prop
  | .enter scope => scope.covers p = true
  | .write => ∃ v found, s.service = some v ∧ v.held = some (.reRecording found)
  | .tamper active =>
    ∃ r : AnchorRecord, s.stored = some (r.encode C key) ∧ active.lookup p = r.active.lookup p
  | _ => False

def NamedNow (s : System) (p : Text) : Prop :=
  ∀ v, s.service = some v → v.held = none → names p (v.state.disagreementsNow (some s.active))

/-- A boot on what is on disk now names the principal. -/
def NamedAtBoot (s : System) (p : Text) : Prop :=
  ∃ ds, (checkAtBoot C s.active s.stored key).alert = some (.disagrees ds) ∧ names p ds

structure Standing (s : System) (p : Text) : Prop where
  synced : Synced C key s
  differs : ∃ r, Kept C key s r ∧ r.isPending p = false ∧
    r.active.lookup p ≠ s.active.lookup p
  free : ∀ v, s.service = some v → ¬ InFlight v p

variable {C key} {s : System}

theorem begins_synced (h : Begins C key s) : Synced C key s := by
  refine synced_down h.down (h.record.imp_right ?_)
  rintro ⟨r, hr, hversion⟩
  exact ⟨r, kept_down h.down hr hversion⟩

variable {p : Text} {calls : List Call} {state : State}

theorem free_not_in_change {held : Option Held}
    (hcounted : Counted state (calls.map (·.scope))) (h : ¬ InFlight ⟨state, calls, held⟩ p) :
    state.inChange p = false := by
  rw [← Bool.not_eq_true, in_change_iff hcounted]
  rintro ⟨scope, hscope, hcovers⟩
  obtain ⟨c, hc, rfl⟩ := List.mem_map.mp hscope
  exact h (.inl ⟨c, hc, hcovers⟩)

theorem InFlight.not_covers {v : Service} (h : ¬ InFlight v p) {c : Call} (hc : c ∈ v.calls) :
    c.scope.covers p = false :=
  Bool.eq_false_iff.mpr fun hcovers => h (.inl ⟨c, hc, hcovers⟩)

theorem saved_standing {r : AnchorRecord}
    (hr : state.record = some r) (hversion : r.version = recordVersion)
    (hcounted : Counted state (calls.map (·.scope))) (hfree : ∀ c ∈ calls, c.scope.covers p = false)
    (hdiffers : r.active.lookup p ≠ s.active.lookup p) :
    Standing C key (s.saved C key state calls) p := by
  have hnot : ¬ InFlight ⟨state, calls, none⟩ p := by
    rintro (⟨c, hc, hcovers⟩ | ⟨scope, found, hheld, -⟩)
    · rw [hfree c hc] at hcovers
      cases hcovers
    · cases hheld
  refine ⟨saved_synced hr hversion hcounted, ⟨_, saved_kept hr hversion calls, ?_, ?_⟩, ?_⟩
  · rw [marked_pending]
    exact free_not_in_change hcounted hnot
  · rw [saved_eq hr]
    exact hdiffers
  · intro v hv
    rw [saved_eq hr] at hv
    cases hv
    exact hnot

theorem standing_step {t : System} {a : Action} (h : Standing C key s p) (hlegible : Legible s a)
    (hack : ¬ Acknowledges C key p s a) (hstep : s.step C key a = some t) : Standing C key t p := by
  have hsynced := synced_step h.synced hlegible.2 hstep
  obtain ⟨r, hr, hpending, hdiffers⟩ := h.differs
  cases step_stepped C key hstep with
  | enter scope hs =>
    refine saved_standing ((raise_record _ scope).trans (hr.held _ hs)) hr.version
      (raised_counted (h.synced.counted _ hs) scope false) ?_ hdiffers
    intro c hc
    rcases List.mem_append.mp hc with hc | hc
    · exact InFlight.not_covers (h.free _ hs) hc
    · rw [List.mem_singleton.mp hc]
      exact Bool.not_eq_true _ ▸ hack
  | commit hs hc hagrees =>
    have hfree := h.free _ hs
    have hout := InFlight.not_covers hfree (List.mem_of_getElem? hc)
    refine ⟨hsynced, ⟨r, hr.moved hs rfl, hpending, ?_⟩, ?_⟩
    · rw [← agrees_outside_lookup hagrees hout]
      exact hdiffers
    · rintro v hv (⟨c, hc', hcovers⟩ | hheld)
      · cases hv
        rcases List.mem_or_eq_of_mem_set hc' with hc' | rfl
        · exact hfree (.inl ⟨c, hc', hcovers⟩)
        · rw [hout] at hcovers
          cases hcovers
      · cases hv
        exact hfree (.inr hheld)
  | finish readable hs hc =>
    have hfree := h.free _ hs
    refine ⟨hsynced, ⟨r, hr.moved hs (lower_record _ _), hpending, hdiffers⟩, ?_⟩
    rintro v hv (⟨c, hc', hcovers⟩ | ⟨scope', found, hheld, hcovers⟩)
    · cases hv
      exact hfree (.inl ⟨c, List.mem_of_mem_eraseIdx hc', hcovers⟩)
    · cases hv
      cases readable with
      | false => cases hheld
      | true =>
        cases hheld
        exact hfree (.inl ⟨_, List.mem_of_getElem? hc, hcovers⟩)
  | reRecord readable hs =>
    refine ⟨hsynced, ⟨r, hr.moved hs rfl, hpending, hdiffers⟩, ?_⟩
    rintro v hv (hcalls | ⟨scope', found, hheld, -⟩)
    · cases hv
      exact h.free _ hs (.inl hcalls)
    · cases hv
      cases readable <;> cases hheld
  | @write held state _ hs =>
    -- the holder of the lock is a change of other principals
    have hfree := h.free _ hs
    cases held with
    | reRecording found => exact absurd ⟨_, found, hs, rfl⟩ hack
    | finishing scope found =>
      have hrecord : (recordHeld state (.finishing scope found)).record =
          some (r.touch scope found) := by
        rw [recordHeld, hr.held _ hs]
        rfl
      refine saved_standing hrecord hr.version
        (record_held_counted (h.synced.counted _ hs) _) (fun c => InFlight.not_covers hfree) ?_
      rw [touch_lookup, if_neg fun hcovers => hfree (.inr ⟨scope, found, rfl, hcovers⟩)]
      exact hdiffers
  | lose _ => exact ⟨hsynced, ⟨r, kept_down rfl hr.stored hr.version, hpending, hdiffers⟩,
      fun _ hv => by cases hv⟩
  | boot _ =>
    -- pending principals alone are settled
    obtain ⟨r', hstart, -, hnone, hall, hlook, -, -⟩ := boot_kept hr (hlegible.2 rfl)
    refine ⟨hsynced, ⟨r', booted_kept h.synced (hlegible.2 rfl) hstart, ?_, ?_⟩, ?_⟩
    · simp [AnchorRecord.isPending, hnone, hall]
    · rw [hlook p, hpending]
      exact hdiffers
    · rintro v hv (⟨c, hc, -⟩ | ⟨scope, found, hheld, -⟩)
      · rw [booted_service] at hv
        cases hv
        cases hc
      · rw [booted_service] at hv
        cases hv
        cases hheld
  | tamper active =>
    refine ⟨hsynced, ⟨r, ⟨hr.stored, hr.version, hr.held⟩, hpending, ?_⟩, h.free⟩
    intro hsame
    exact hack ⟨r, hr.stored, hsame.symm⟩

theorem standing_named (h : Standing C key s p) : NamedNow s p := by
  intro v hv _
  obtain ⟨r, hr, hpending, hdiffers⟩ := h.differs
  have hchange := free_not_in_change (h.synced.counted v hv) (h.free v hv)
  rw [State.disagreementsNow, hr.held v hv]
  refine names_disagreements.mpr ⟨?_, hdiffers⟩
  simp only [AnchorRecord.isPending, State.inChange, Bool.or_eq_false_iff, decide_eq_false_iff_not,
    Finset.mem_union, Finmap.mem_keys, not_or] at hpending hchange ⊢
  exact ⟨⟨hpending.1, hchange.2⟩, hpending.2, hchange.1⟩

theorem standing_named_at_boot (h : Standing C key s p) : NamedAtBoot C key s p ↔ Fits s := by
  obtain ⟨r, hr, hpending, hdiffers⟩ := h.differs
  constructor
  · rintro ⟨ds, halert, -⟩
    by_contra hfits
    obtain ⟨fingerprint, hboot⟩ := boot_unfit hr hfits
    rw [hboot] at halert
    cases halert
  · intro hfits
    obtain ⟨r', -, -, -, -, -, -, halert⟩ := boot_kept hr hfits
    have hnames : names p (disagreements r s.active) :=
      names_disagreements.mpr ⟨hpending, hdiffers⟩
    refine ⟨disagreements r s.active, ?_, hnames⟩
    rw [halert, if_neg]
    intro hnil
    rw [hnil] at hnames
    obtain ⟨d, hd, -⟩ := hnames
    cases hd

/-- Rules changed past the service are named at every later moment and by every later boot that
can read the record, until they are acknowledged or put back. -/
theorem outside_change_stays_named {start s t u : System} {p : Text} {active : ActiveSet}
    {r : AnchorRecord} (hstart : Begins C key start)
    (hs : Reached (System.step C key) Legible start s)
    (hr : s.stored = some (r.encode C key)) (hpending : r.isPending p = false)
    (hfree : ∀ v, s.service = some v → ¬ InFlight v p)
    (haway : active.lookup p ≠ r.active.lookup p)
    (ht : s.step C key (.tamper active) = some t)
    (hu : Reached (System.step C key) (fun s a => Legible s a ∧ ¬ Acknowledges C key p s a) t u) :
    NamedNow u p ∧ (NamedAtBoot C key u p ↔ Fits u) := by
  have hsynced : Synced C key s :=
    hs.keeps (begins_synced hstart) fun _ _ _ hinv hlegible hstep =>
      synced_step hinv hlegible.2 hstep
  have hkept : Kept C key s r := by
    rcases hsynced.record with ⟨hnone, -⟩ | ⟨r', hr'⟩
    · rw [hr] at hnone
      cases hnone
    · rw [encode_record_injective (Option.some.inj (hr.symm.trans hr'.stored))]
      exact hr'
  have hstanding : Standing C key t p := by
    have hsynced' := synced_step hsynced (a := .tamper active) nofun ht
    cases ht
    exact ⟨hsynced', ⟨r, ⟨hkept.stored, hkept.version, hkept.held⟩, hpending, haway.symm⟩, hfree⟩
  have hlast : Standing C key u p :=
    hu.keeps hstanding fun _ _ _ hinv hallowed hstep =>
      standing_step hinv hallowed.1 hallowed.2 hstep
  exact ⟨standing_named hlast, standing_named_at_boot hlast⟩

noncomputable def firstBoot (active : ActiveSet) : System :=
  System.booted sampleCodec [] ⟨active, none, none⟩

variable (active : ActiveSet)
include active

theorem first_boot_stored :
    (firstBoot active).stored = some ((AnchorRecord.of active).encode sampleCodec []) := rfl

theorem first_boot_free (p : Text) :
    ∀ v, (firstBoot active).service = some v → ¬ InFlight v p := by
  rintro v hv (⟨c, hc, -⟩ | ⟨scope, found, hheld, -⟩)
  · cases hv
    cases hc
  · cases hv
    cases hheld

theorem first_boot_reached {Allowed : System → Action → Prop}
    (h : Allowed ⟨active, none, none⟩ .boot) :
    Reached (System.step sampleCodec []) Allowed ⟨active, none, none⟩ (firstBoot active) :=
  Reached.rest.next h rfl

def ownRules (active : ActiveSet) : ActiveSet := active.insert ['a'] ⟨['1'], ['x']⟩

def foreignRules (active : ActiveSet) : ActiveSet := active.insert ['a'] ⟨['2'], ['y']⟩

theorem foreign_rules_differ :
    (foreignRules active).lookup ['a'] ≠ (AnchorRecord.of (ownRules active)).active.lookup ['a'] := by
  simp [foreignRules, ownRules, AnchorRecord.of]

theorem first_record_not_pending (p : Text) :
    (AnchorRecord.of active).isPending p = false := rfl

omit active

def otherRules : ActiveSet := (foreignRules ∅).insert ['b'] ⟨['3'], ['z']⟩

/-- After the change from outside the service changes the rules of another principal. -/
theorem foreign_rules_named :
    ∃ u, Reached (System.step sampleCodec [])
        (fun s a => Legible s a ∧ ¬ Acknowledges sampleCodec [] ['a'] s a)
        { firstBoot (ownRules ∅) with active := foreignRules ∅ } u ∧ u.active = otherRules ∧
      NamedNow u ['a'] ∧ (NamedAtBoot sampleCodec [] u ['a'] ↔ Fits u) := by
  have hagrees : AnchorScope.agreesOutside (.of [['b']]) (foreignRules ∅) otherRules := by
    decide +kernel
  have hentered : Reached (System.step sampleCodec [])
      (fun s a => Legible s a ∧ ¬ Acknowledges sampleCodec [] ['a'] s a)
      { firstBoot (ownRules ∅) with active := foreignRules ∅ } _ :=
    Reached.rest.next (a := .enter (.of [['b']])) ⟨⟨trivial, nofun⟩, Bool.false_ne_true⟩ rfl
  have hfinished := (hentered.next (a := Action.commit 0 otherRules) ⟨⟨trivial, nofun⟩, id⟩
    (step_commit _ _ rfl rfl hagrees)).next (a := Action.finish 0 true) ⟨⟨rfl, nofun⟩, id⟩ rfl
  have hwritten := hfinished.next (a := Action.write) ⟨⟨trivial, nofun⟩, by
    rintro ⟨v, found, hv, hheld⟩
    cases hv
    cases hheld⟩ rfl
  refine ⟨_, hwritten, rfl, outside_change_stays_named ⟨rfl, .inl rfl⟩
    (first_boot_reached (ownRules ∅) ?_) (first_boot_stored _) (first_record_not_pending _ _)
    (first_boot_free _ _) (foreign_rules_differ ∅) rfl hwritten⟩
  exact ⟨trivial, fun _ bytes hbytes => by cases hbytes⟩

def longName : Text := List.replicate maxRecordBytes 'z'

def longRules : ActiveSet := (∅ : ActiveSet).insert longName ⟨['1'], ['x']⟩

theorem long_record_unfit : ¬ Fits (firstBoot (ownRules longRules)) := by
  intro hfits
  have hlen := hfits _ (first_boot_stored _)
  have hlook : (AnchorRecord.of (ownRules longRules)).active.lookup longName =
      some ⟨['1'], ['x']⟩ := by
    have hne : longName ≠ ['a'] := by
      intro h
      have hlast := congrArg List.length h
      rw [longName, List.length_replicate] at hlast
      exact absurd hlast (by decide)
    rw [AnchorRecord.of, ownRules, longRules, lookup_insert, if_neg hne, lookup_insert, if_pos rfl]
  have hname := name_le_record hlook
  rw [longName, List.length_replicate] at hname
  rw [encode_length] at hlen
  have hvec : sampleCodec.toVec (AnchorRecord.of (ownRules longRules)) =
      Utf8.encode (recordText (AnchorRecord.of (ownRules longRules))) := rfl
  rw [hvec, hmacByteLen] at hlen
  omega

/-- The rules of a principal are changed past the service beside a record too long to be read. -/
theorem long_record_hides_change :
    ¬ ∀ start s t u p active r, Begins sampleCodec [] start →
      Reached (System.step sampleCodec []) Reads start s →
      s.stored = some (AnchorRecord.encode sampleCodec r []) → r.isPending p = false →
      (∀ v, s.service = some v → ¬ InFlight v p) → active.lookup p ≠ r.active.lookup p →
      s.step sampleCodec [] (.tamper active) = some t →
      Reached (System.step sampleCodec [])
        (fun s a => Reads s a ∧ ¬ Acknowledges sampleCodec [] p s a) t u →
      NamedNow u p ∧ NamedAtBoot sampleCodec [] u p := by
  intro hall
  obtain ⟨-, hboot⟩ := hall ⟨ownRules longRules, none, none⟩ (firstBoot (ownRules longRules)) _ _
    ['a'] (foreignRules longRules) _ ⟨rfl, .inl rfl⟩ (first_boot_reached _ trivial)
    (first_boot_stored _) (first_record_not_pending _ _) (first_boot_free _ _)
    (foreign_rules_differ longRules) rfl .rest
  have hkept : Kept sampleCodec []
      { firstBoot (ownRules longRules) with active := foreignRules longRules }
      (.of (ownRules longRules)) := by
    refine ⟨rfl, rfl, fun v hv => ?_⟩
    cases hv
    rfl
  obtain ⟨fingerprint, hcheck⟩ := boot_unfit hkept long_record_unfit
  obtain ⟨ds, halert, -⟩ := hboot
  rw [hcheck] at halert
  cases halert

/-- The boot after a process lost in the middle of changes takes the rules it finds for the
principals they cover and names none of them, where saves succeed. -/
theorem lost_changes_settled {start s : System} {v : Service} {c : Call}
    (hstart : Begins C key start)
    (hs : Reached (System.step C key) (fun s a => a = .boot → Fits s) start s) (hfits : Fits s)
    (hv : s.service = some v) (hc : c ∈ v.calls) (hp : c.scope.covers p = true) :
    ¬ NamedAtBoot C key s p ∧ ∃ r, (checkAtBoot C s.active s.stored key).start = some r ∧
      r.active.lookup p = s.active.lookup p := by
  have hsynced := hs.keeps (begins_synced hstart) fun _ _ _ => synced_step
  obtain ⟨r, hr, hrecord⟩ := synced_running hsynced hv
  have hpending : r.isPending p = true := hsynced.marked v r hv hrecord p
    ((in_change_iff (hsynced.counted v hv) p).mpr ⟨_, List.mem_map_of_mem hc, hp⟩)
  obtain ⟨r', hbooted, -, -, -, hlook, -, halert⟩ := boot_kept hr hfits
  refine ⟨?_, r', hbooted, by rw [hlook, if_pos hpending]⟩
  rintro ⟨ds, hds, hnames⟩
  rw [halert] at hds
  split at hds
  · cases hds
  · cases hds
    rw [(names_disagreements.mp hnames).1] at hpending
    cases hpending

/-- The process is lost after a change of all principals has committed. -/
theorem lost_change_of_all_settled : ∃ t,
    Reached (System.step sampleCodec []) (fun s a => a = .boot → Fits s) ⟨ownRules ∅, none, none⟩ t ∧
    t.active = foreignRules ∅ ∧ ¬ NamedAtBoot sampleCodec [] t ['a'] ∧
    ∃ r, (checkAtBoot sampleCodec t.active t.stored []).start = some r ∧
      r.active.lookup ['a'] = some ⟨['2'], ['y']⟩ := by
  have hagrees : AnchorScope.agreesOutside .every (ownRules ∅) (foreignRules ∅) := by
    decide +kernel
  have hbooted : Reached (System.step sampleCodec []) (fun s a => a = .boot → Fits s)
      ⟨ownRules ∅, none, none⟩ (firstBoot (ownRules ∅)) :=
    first_boot_reached _ fun _ bytes h => by cases h
  have hcommitted := (hbooted.next (a := Action.enter .every) nofun rfl).next
    (a := Action.commit 0 (foreignRules ∅)) nofun (step_commit _ _ rfl rfl hagrees)
  have hsettled := fun hfits => @lost_changes_settled sampleCodec [] ['a'] _ _ _ _ ⟨rfl, .inl rfl⟩
    hcommitted hfits rfl List.mem_cons_self rfl
  obtain ⟨hquiet, r, hr, hlook⟩ := hsettled fun bytes h => by
    cases h
    rw [encode_length]
    decide +kernel
  exact ⟨_, hcommitted, rfl, hquiet, r, hr, hlook.trans (by simp [foreignRules])⟩

end NetRuleRouter.AnchorReports
