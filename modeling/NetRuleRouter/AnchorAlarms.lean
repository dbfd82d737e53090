import NetRuleRouter.AnchorJson
import NetRuleRouter.AnchorSync

/-!
# No alarm over the service's own changes

While only the service writes, the record is behind the database at pending
principals alone, so neither the running service nor a boot finds a
disagreement. A change that could not read the rules back breaks this: the
next write takes its pending principals from the counters and so forgets those
of that change.
-/

set_option autoImplicit false

namespace NetRuleRouter.AnchorAlarms
open TextOps Utf8 Runs RulesAnchor AnchorRuns AnchorSync AnchorJson

variable (C : AnchorCodec) (key : Bytes)

/-- A service that is not running, and a record that is behind the database at pending principals
alone, if there is one. -/
structure Starts (s : System) : Prop where
  down : s.service = none
  record : s.stored = none ∨ ∃ r : AnchorRecord, s.stored = some (r.encode C key) ∧
    r.version = recordVersion ∧
    ∀ p, r.active.lookup p ≠ s.active.lookup p → r.isPending p = true

def Undisturbed (_ : System) (a : Action) : Prop := ∀ active, a ≠ .tamper active

/-- A running service that is free to look finds no disagreement, whether or not it can read. -/
def Quiet (s : System) : Prop :=
  ∀ v, s.service = some v → v.held = none →
    v.state.disagreementsNow (some s.active) = [] ∧ v.state.disagreementsNow none = []

/-- A boot on what is on disk now raises no alert and starts from the rules in the database. -/
def CleanBoot (s : System) : Prop :=
  (checkAtBoot C s.active s.stored key).alert = none ∧
    ∃ r, (checkAtBoot C s.active s.stored key).start = some r ∧ r.active = s.active ∧
      r.pending = ∅ ∧ r.pendingAll = false

/-- The recorded rules of the principal are not those in the database, and no call in flight
covers it: what a change leaves that could not read the rules back. -/
def Behind (s : System) (v : Service) (p : Text) : Prop :=
  v.state.inChange p = false ∧
    ∃ r, v.state.record = some r ∧ r.active.lookup p ≠ s.active.lookup p

/-- A change writes the record, when it enters and when it has read the rules back, only while no
principal it does not take care of itself is behind; a boot finds a record it can read. -/
def Spared (s : System) : Action → Prop
  | .enter scope => ∀ v, s.service = some v → ∀ p, Behind s v p → scope.covers p = true
  | .finish _ true => ∀ v, s.service = some v → ∀ p, ¬ Behind s v p
  | .boot => Fits s
  | .tamper _ => False
  | _ => True

structure Covered (s : System) : Prop where
  synced : Synced C key s
  pending : ∀ r, Kept C key s r → ∀ p, r.active.lookup p ≠ s.active.lookup p →
    r.isPending p = true
  held : ∀ v held r, s.service = some v → v.held = some held →
    (recordHeld v.state held).record = some r → ∀ p, r.active.lookup p ≠ s.active.lookup p →
      v.state.inChange p = true

variable {C key} {s : System} {r : AnchorRecord}

theorem kept_pending (hr : Kept C key s r)
    (h : ∀ p, r.active.lookup p ≠ s.active.lookup p → r.isPending p = true) :
    ∀ r', Kept C key s r' → ∀ p, r'.active.lookup p ≠ s.active.lookup p →
      r'.isPending p = true := by
  intro r' hr'
  rwa [kept_unique hr' hr]

theorem covered_clean_boot (h : Covered C key s) : CleanBoot C key s ↔ Fits s := by
  rcases h.synced.record with ⟨hnone, -⟩ | ⟨r, hr⟩
  · rw [CleanBoot, boot_first hnone]
    refine ⟨fun _ => ?_, fun _ => ⟨rfl, _, rfl, rfl, rfl, rfl⟩⟩
    intro bytes hbytes
    rw [hnone] at hbytes
    cases hbytes
  · constructor
    · intro hclean
      by_contra hfits
      obtain ⟨fingerprint, hboot⟩ := boot_unfit hr hfits
      rw [CleanBoot, hboot] at hclean
      cases hclean.1
    · intro hfits
      obtain ⟨r', hstart, -, hpending, hall, hlook, -, halert⟩ := boot_kept hr hfits
      refine ⟨?_, r', hstart, ?_, hpending, hall⟩
      · rw [halert, if_pos (disagreements_eq_nil.mpr (h.pending r hr))]
      · apply Finmap.ext_lookup
        intro p
        rw [hlook p]
        split
        · rfl
        · rename_i hnot
          by_contra hne
          exact hnot (h.pending r hr p hne)

theorem starts_covered (h : Starts C key s) : Covered C key s := by
  refine ⟨synced_down h.down (h.record.imp_right ?_), ?_, fun v held r hv => ?_⟩
  · rintro ⟨r, hr, hversion, -⟩
    exact ⟨r, kept_down h.down hr hversion⟩
  · intro r hr p hp
    rcases h.record with hnone | ⟨r', hr', hversion, hpending⟩
    · rw [hr.stored] at hnone
      cases hnone
    · exact kept_pending (kept_down h.down hr' hversion) hpending r hr p hp
  · simp [h.down] at hv

variable {state : State} {calls : List Call}

theorem saved_covered (hr : state.record = some r)
    (hversion : r.version = recordVersion) (hcounted : Counted state (calls.map (·.scope)))
    (hbehind : ∀ p, r.active.lookup p ≠ s.active.lookup p → state.inChange p = true) :
    Covered C key (s.saved C key state calls) := by
  refine ⟨saved_synced hr hversion hcounted,
    kept_pending (saved_kept hr hversion calls) fun p hp => ?_, ?_⟩
  · rw [marked_pending]
    refine hbehind p ?_
    rwa [saved_eq hr] at hp
  · intro v held r' hv hheld
    rw [saved_eq hr] at hv
    cases hv
    cases hheld

variable {scope : AnchorScope} {p : Text}

theorem raised_in_change {scopes : List AnchorScope} (h : Counted state scopes)
    (hp : state.inChange p = true ∨ scope.covers p = true) :
    (state.raise scope).inChange p = true := by
  rw [in_change_iff (counted_raise h scope)]
  rcases hp with hp | hp
  · obtain ⟨scope', hscope, hcovers⟩ := (in_change_iff h p).mp hp
    exact ⟨scope', List.mem_cons_of_mem _ hscope, hcovers⟩
  · exact ⟨scope, List.mem_cons_self, hp⟩

theorem lowered_keeps {i : ℕ} {c : Call} (h : Counted state (calls.map (·.scope)))
    (hc : calls[i]? = some c) (hp : state.inChange p = true)
    (hout : c.scope.covers p = false) : (state.lower c.scope).inChange p = true := by
  obtain ⟨scope, hscope, hcovers⟩ := (in_change_iff h p).mp hp
  refine (in_change_iff (lowered_counted h hc) p).mpr ⟨scope, ?_, hcovers⟩
  rcases List.mem_cons.mp ((scopes_perm hc).mem_iff.mp hscope) with rfl | hmem
  · rw [hcovers] at hout
    cases hout
  · exact hmem

theorem record_held_read {r' : AnchorRecord} {found : ActiveSet} (hr : state.record = some r)
    (hr' : (recordHeld state (.finishing scope found)).record = some r') (p : Text) :
    r'.active.lookup p = if scope.covers p then found.lookup p else r.active.lookup p := by
  rw [recordHeld, hr] at hr'
  cases hr'
  exact touch_lookup r scope found p

variable (h : Covered C key s)
include h

theorem covered_commit {i : ℕ} {new : ActiveSet} {held : Option Held}
    (hs : s.service = some ⟨state, calls, held⟩) (hc : calls[i]? = some ⟨scope, false⟩)
    (hagrees : AnchorScope.agreesOutside scope s.active new) (r : AnchorRecord) (p : Text)
    (hp : r.active.lookup p ≠ new.lookup p) :
    state.inChange p = true ∨ r.active.lookup p ≠ s.active.lookup p := by
  by_cases hcovers : scope.covers p = true
  · refine .inl ((in_change_iff (h.synced.counted _ hs) p).mpr ⟨scope, ?_, hcovers⟩)
    exact (scopes_perm hc).mem_iff.mpr List.mem_cons_self
  · rw [← agrees_outside_lookup hagrees (by simpa using hcovers)] at hp
    exact .inr hp

theorem covered_step {t : System} {a : Action} (hspared : Spared s a)
    (hstep : s.step C key a = some t) : Covered C key t := by
  have hsynced : Synced C key t := by
    refine synced_step h.synced ?_ hstep
    rintro rfl
    exact hspared
  cases step_stepped C key hstep with
  | @enter scope state _ hs =>
    -- whoever is behind is now in change
    obtain ⟨r, hr, hstate⟩ := synced_running h.synced hs
    have hcounted := h.synced.counted _ hs
    refine saved_covered ((raise_record _ scope).trans hstate) hr.version
      (raised_counted hcounted scope false) fun p hp => ?_
    refine raised_in_change hcounted ?_
    by_cases hin : state.inChange p = true
    · exact .inl hin
    · exact .inr (hspared _ hs p ⟨by simpa using hin, r, hstate, hp⟩)
  | commit hs hc hagrees =>
    -- what changes is in change, and so pending
    obtain ⟨r, hr, hstate⟩ := synced_running h.synced hs
    refine ⟨hsynced, kept_pending (hr.moved hs rfl) fun p hp => ?_, ?_⟩
    · rcases covered_commit h hs hc hagrees r p hp with hin | hp
      · exact h.synced.marked _ r hs hstate p hin
      · exact h.pending r hr p hp
    · intro v held' r hv hheld hr p hp
      cases hv
      rcases covered_commit h hs hc hagrees r p hp with hin | hp
      · exact hin
      · exact h.held _ held' r hs hheld hr p hp
  | @finish _ readable state _ scope hs hc =>
    obtain ⟨r, hr, hstate⟩ := synced_running h.synced hs
    refine ⟨hsynced, kept_pending (hr.moved hs (lower_record state scope)) (h.pending r hr), ?_⟩
    intro v held r' hv hheld hr' p hp
    cases hv
    cases readable with
    | false => cases hheld
    | true =>
      cases hheld
      rw [record_held_read ((lower_record state scope).trans hstate) hr' p] at hp
      split at hp
      · exact absurd rfl hp
      · rename_i hout
        refine lowered_keeps (h.synced.counted _ hs) hc ?_ (by simpa using hout)
        by_contra hin
        exact hspared _ hs p ⟨by simpa using hin, r, hstate, hp⟩
  | reRecord readable hs =>
    obtain ⟨r, hr, -⟩ := synced_running h.synced hs
    refine ⟨hsynced, kept_pending (hr.moved hs rfl) (h.pending r hr), ?_⟩
    intro v held r' hv hheld hr' p hp
    cases hv
    cases readable with
    | false => cases hheld
    | true =>
      cases hheld
      cases hr'
      exact absurd rfl hp
  | write held hs =>
    obtain ⟨r, hr, hstate⟩ := synced_running h.synced hs
    obtain ⟨r', hr'⟩ := record_held_some hstate held
    refine saved_covered hr' (record_held_version hstate hr.version hr')
      (record_held_counted (h.synced.counted _ hs) held) fun p hp => ?_
    rw [record_held_in_change]
    exact h.held _ held r' hs rfl hr' p hp
  | lose hs =>
    obtain ⟨r, hr, -⟩ := synced_running h.synced hs
    exact ⟨hsynced, kept_pending (kept_down rfl hr.stored hr.version) (h.pending r hr), nofun⟩
  | boot _ =>
    -- it starts from the database
    obtain ⟨-, r, hstart, hactive, -⟩ := (covered_clean_boot h).mpr hspared
    refine ⟨hsynced, kept_pending (booted_kept h.synced hspared hstart) fun p hp => ?_, ?_⟩
    · rw [hactive] at hp
      exact absurd rfl hp
    · intro v held r' hv hheld
      rw [booted_service] at hv
      cases hv
      cases hheld
  | tamper _ => exact absurd hspared not_false

omit h

theorem covered_quiet (h : Covered C key s) : Quiet s := by
  intro v hv _
  obtain ⟨r, hr, hstate⟩ := synced_running h.synced hv
  constructor
  · rw [State.disagreementsNow, hstate]
    refine disagreements_eq_nil.mpr fun p hp => ?_
    have hpending := h.pending r hr p hp
    rw [AnchorRecord.isPending, Bool.or_eq_true, decide_eq_true_eq] at hpending ⊢
    rcases hpending with hall | hmem
    · exact .inl (by simp [hall])
    · exact .inr (by simp [hmem])
  · rw [State.disagreementsNow, hstate]

/-- In a run of the service alone in which no change writes the record over principals left
behind, the service finds no disagreement at any moment, and a boot at any moment finds none and
starts from the database, as long as it can read the record. -/
theorem own_changes_raise_no_alarm {start s : System} (hstart : Starts C key start)
    (h : Reached (System.step C key) Spared start s) :
    Quiet s ∧ (CleanBoot C key s ↔ Fits s) := by
  have hcovered : Covered C key s :=
    h.keeps (starts_covered hstart) fun _ _ _ hinv hspared hstep => covered_step hinv hspared hstep
  exact ⟨covered_quiet hcovered, covered_clean_boot hcovered⟩

def before : ActiveSet := (∅ : ActiveSet).insert ['a'] ⟨['1'], ['x']⟩

def after : ActiveSet := (∅ : ActiveSet).insert ['a'] ⟨['2'], ['y']⟩

def sampleStart : System := ⟨before, none, none⟩

theorem sample_starts : Starts sampleCodec [] sampleStart := ⟨rfl, .inl rfl⟩

theorem sample_agrees : AnchorScope.agreesOutside (.of [['a']]) before after := by
  decide +kernel

def raised : State := State.raise { record := some (.of before) } (.of [['a']])

def entered : State := { raised with record := some (raised.marked (.of before)) }

noncomputable def changing : System :=
  (sampleStart.booted sampleCodec []).saved sampleCodec [] raised [⟨.of [['a']], false⟩]

/-- The change has committed and could not read the rules back. -/
noncomputable def unread : System :=
  ⟨after, changing.stored, some ⟨entered.lower (.of [['a']]), [], none⟩⟩

noncomputable def overtaken : System :=
  unread.saved sampleCodec [] ((entered.lower (.of [['a']])).raise (.of [['b']]))
    [⟨.of [['b']], false⟩]

theorem unread_reached {Allowed : System → Action → Prop} (hboot : Allowed sampleStart .boot)
    (henter : Allowed (sampleStart.booted sampleCodec []) (.enter (.of [['a']])))
    (hcommit : ∀ s, Allowed s (.commit 0 after)) (hfinish : ∀ s, Allowed s (.finish 0 false)) :
    Reached (System.step sampleCodec []) Allowed sampleStart unread := by
  have hbooted : Reached (System.step sampleCodec []) Allowed sampleStart
      (sampleStart.booted sampleCodec []) := Reached.rest.next hboot rfl
  have hchanging : Reached (System.step sampleCodec []) Allowed sampleStart changing :=
    hbooted.next henter rfl
  exact (hchanging.next (hcommit _) (step_commit _ _ rfl rfl sample_agrees)).next (hfinish _) rfl

theorem unread_raises_no_alarm :
    (Starts sampleCodec [] sampleStart ∧
      Reached (System.step sampleCodec []) Spared sampleStart unread) ∧
    Quiet unread ∧ (CleanBoot sampleCodec [] unread ↔ Fits unread) := by
  have hreached : Reached (System.step sampleCodec []) Spared sampleStart unread := by
    refine unread_reached ?_ ?_ (fun _ => trivial) (fun _ => trivial)
    · exact fun bytes h => by cases h
    · intro v hv p hp
      cases hv
      obtain ⟨-, r, hr, hne⟩ := hp
      cases hr
      exact absurd rfl hne
  exact ⟨⟨sample_starts, hreached⟩, own_changes_raise_no_alarm sample_starts hreached⟩

theorem overtaken_names :
    ∀ v, overtaken.service = some v →
      names ['a'] (v.state.disagreementsNow (some overtaken.active)) := by
  intro v hv
  cases hv
  refine names_disagreements.mpr ⟨?_, ?_⟩
  · decide +kernel
  · decide +kernel

/-- A change whose rules could not be read back, and a change of other rules after it. -/
theorem unread_change_forgotten :
    ¬ ∀ start s, Starts sampleCodec [] start →
      Reached (System.step sampleCodec []) Undisturbed start s →
      Quiet s ∧ CleanBoot sampleCodec [] s := by
  intro hall
  have hunread : Reached (System.step sampleCodec []) Undisturbed sampleStart unread :=
    unread_reached nofun nofun (fun _ => nofun) (fun _ => nofun)
  have hovertaken : Reached (System.step sampleCodec []) Undisturbed sampleStart overtaken :=
    hunread.next (a := .enter (.of [['b']])) nofun rfl
  obtain ⟨hquiet, -⟩ := hall _ _ sample_starts hovertaken
  have hnames := overtaken_names _ rfl
  rw [(hquiet _ rfl rfl).1] at hnames
  obtain ⟨d, hd, -⟩ := hnames
  cases hd

end NetRuleRouter.AnchorAlarms
