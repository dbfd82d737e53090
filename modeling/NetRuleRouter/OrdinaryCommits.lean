import NetRuleRouter.CoordinatorCalls

/-!
# Commits that confirm nothing and activate nothing

Most of what the coordinator commits leaves the confirmation tokens alone and
makes no revision active. Sessions made of such commits are followed by any
watcher of tokens without its moving.
-/

set_option autoImplicit false

namespace NetRuleRouter.OrdinaryCommits
open TextOps Utf8 RevisionRecords RevisionStore Sessions Sessions.Session Activation
open CoordinatorCalls

def ActiveAt (t : Tables) (principal revisionId : Text) : Prop :=
  ∃ row ∈ t.revisions, row.principal = principal ∧ row.revisionId = revisionId ∧
    row.isActive = true

structure Moves (K : Set (Text × Text)) (t t' : Tables) : Prop where
  tokens : t'.tokens = t.tokens
  active : ∀ principal revisionId, ActiveAt t' principal revisionId →
    ActiveAt t principal revisionId ∨ (principal, revisionId) ∈ K

def ordinary : Commit → Prop
  | .tokenIssued .. | .tokenConsumed .. | .activation .. => False
  | _ => True

def ordinaryStep (K : Set (Text × Text)) (_ : Unit) (t : Tables) (l : Commit) (t' : Tables)
    (_ : Unit) : Prop :=
  ordinary l ∧ Moves K t t'

def Calm (K : Set (Text × Text)) {κ β : Type} (x : Session Tables Commit κ β) : Prop :=
  x.Tracks (ordinaryStep K) () fun _ _ => True

variable {K : Set (Text × Text)} {change : RevisionRecord → RevisionRecord}
variable {which : RevisionRow → Bool} {label : Commit}

theorem Moves.refl (t : Tables) : Moves K t t := ⟨rfl, fun _ _ h => Or.inl h⟩

theorem Moves.trans {t u v : Tables} (h : Moves K t u) (h' : Moves K u v) : Moves K t v := by
  refine ⟨h'.tokens.trans h.tokens, fun principal revisionId hv => ?_⟩
  rcases h'.active principal revisionId hv with hu | hK
  · exact h.active principal revisionId hu
  · exact Or.inr hK

theorem moves_walk {n m : Unit} {t : Tables} {cs : List (Commit × Tables)}
    (h : Walks (ordinaryStep K) n t cs m) : Moves K t (final t cs) := by
  induction h with
  | nil => exact Moves.refl _
  | cons hstep _ ih =>
    rw [final_cons]
    exact hstep.2.trans ih

section Rules
variable {κ β γ : Type} {x : Session Tables Commit κ β}

theorem calm_answering (r : Except κ β) : Calm K (answering r : Session Tables Commit κ β) :=
  tracks_answering trivial

theorem calm_read (f : Tables → Except κ β) : Calm K (Session.read f : Session Tables Commit κ β) :=
  tracks_read fun _ => trivial

theorem calm_bind {f : β → Session Tables Commit κ γ} (hx : Calm K x)
    (hf : ∀ b, Calm K (f b)) : Calm K (x >>= f) :=
  tracks_bind hx (fun _ _ _ => trivial) fun b _ _ => hf b

theorem calm_attempt (h : Calm K x) : Calm K (attempt x) :=
  tracks_attempt h fun _ _ _ => trivial

theorem calm_execute {f : Tables → Except κ (β × Option (Commit × Tables))}
    (h : ∀ t b l t', f t = .ok (b, some (l, t')) → ordinary l ∧ Moves K t t') :
    Calm K (execute f) :=
  tracks_execute (fun _ _ _ => trivial) (fun _ _ _ => trivial) fun t b l t' hf =>
    ⟨(), h t b l t' hf, trivial⟩

theorem Calm.moves (h : Calm K x) (t : Tables) :
    Moves K t (x.after t) := by
  obtain ⟨m, hwalk, -⟩ := h t
  exact moves_walk hwalk

theorem calm_transaction (hlabel : ordinary label) (hx : Calm K x) : Calm K (transaction label x) :=
  tracks_transaction (fun _ => trivial) fun t _ _ => ⟨(), ⟨hlabel, hx.moves t⟩, trivial⟩

theorem calm_during {x : StoreSession β} (operation : String) (h : Calm K x) :
    Calm K (during operation x) :=
  tracks_map_error h fun _ _ _ => trivial

end Rules

/-- An update that keeps the keys of rows and makes none of them active but those in `K`. -/
structure MakesActive (K : Set (Text × Text)) (which : RevisionRow → Bool)
    (change : RevisionRow → RevisionRow) : Prop where
  principal : ∀ row, (change row).principal = row.principal
  revisionId : ∀ row, (change row).revisionId = row.revisionId
  active : ∀ row, which row = true → (change row).isActive = true → row.isActive = true ∨
    (row.principal, row.revisionId) ∈ K

theorem calm_update {change : RevisionRow → RevisionRow} (hlabel : ordinary label)
    (h : MakesActive K which change) : Calm K (updateRevisions label which change) := by
  refine calm_execute fun t n l t' hf => ?_
  simp only [Except.ok.injEq, Prod.mk.injEq] at hf
  obtain ⟨-, hf⟩ := hf
  split_ifs at hf
  cases hf
  refine ⟨hlabel, rfl, ?_⟩
  rintro principal revisionId ⟨row, hrow, rfl, rfl, hactive⟩
  obtain ⟨old, hold, rfl⟩ := List.mem_map.mp hrow
  by_cases hw : which old = true
  · rw [if_pos hw] at hactive ⊢
    rw [h.principal, h.revisionId]
    rcases h.active old hw hactive with ha | hK
    · exact Or.inl ⟨old, hold, rfl, rfl, ha⟩
    · exact Or.inr hK
  · rw [if_neg hw] at hactive ⊢
    exact Or.inl ⟨old, hold, rfl, rfl, hactive⟩

theorem makes_inactive (hid : ∀ record, (change record).revisionId = record.revisionId)
    (hstatus : ∀ record, (change record).status ≠ .active) :
    MakesActive K which fun row => { row with record := change row.record } := by
  refine ⟨fun _ => rfl, fun row => hid row.record, fun row _ hactive => ?_⟩
  exact absurd (of_decide_eq_true hactive) (hstatus row.record)

variable (H : Digests) (key : Option Bytes)

theorem calm_verdict (revisionId : Text) : Calm K (verdictBeforeTransition H key revisionId) := by
  cases key with
  | none => exact calm_answering _
  | some key => exact calm_read _

theorem calm_re_sign (revisionId : Text) (before : Option HmacVerification) :
    Calm K (reSignAfterTransition H key revisionId before) := by
  have hrow : Calm K (reSignRow H key revisionId) := by
    cases key with
    | none => exact calm_answering _
    | some key =>
      refine calm_bind (calm_read _) fun found => ?_
      cases found with
      | none => exact calm_answering _
      | some r =>
        refine calm_bind (calm_update trivial ⟨fun _ => rfl, fun _ => rfl, ?_⟩) fun _ =>
          calm_answering _
        exact fun row _ hactive => Or.inl hactive
  unfold reSignAfterTransition
  split_ifs
  · exact calm_bind hrow fun _ => calm_answering _
  · exact calm_answering _

theorem calm_transition {context : String} {principal revisionId : Text} {old new : RevisionStatus}
    (hid : ∀ record, (change record).revisionId = record.revisionId)
    (hstatus : ∀ record, (change record).status ≠ .active) :
    Calm K (transition H key context principal revisionId old new change) := by
  refine calm_bind (calm_verdict H key revisionId) fun before => ?_
  refine calm_bind (calm_update trivial (makes_inactive hid hstatus)) fun updated => ?_
  split_ifs
  · exact calm_answering _
  · exact calm_re_sign H key revisionId before

theorem calm_reject (principal revisionId reason : Text) :
    Calm K (markApplyFailedFor H key principal revisionId reason) :=
  calm_transition H key (fun _ => rfl) fun _ => by simp

theorem calm_roll_back (principal revisionId : Text) (now : Int64) :
    Calm K (markRolledBackFor H key principal revisionId now) :=
  calm_transition H key (fun _ => rfl) fun _ => by simp

theorem calm_supersede (principal targetId previousId : Text) (now : Int64) :
    Calm K (supersedePrevious principal targetId previousId now) := by
  refine calm_bind (calm_update trivial ?_) fun _ => calm_bind (calm_read _) fun _ => ?_
  · exact ⟨fun _ => rfl, fun _ => rfl, fun row _ hactive => by simp [RevisionRow.isActive] at hactive⟩
  · split_ifs
    · exact calm_answering _
    · exact calm_answering _

theorem calm_activate (principal targetId : Text) (now : Int64) :
    Calm {(principal, targetId)} (activateTarget principal targetId now) := by
  refine calm_bind (calm_read _) fun taken => ?_
  split_ifs
  · exact calm_answering _
  · refine calm_bind (calm_update trivial ⟨fun _ => rfl, fun _ => rfl, fun row hrow _ => ?_⟩)
      fun updated => ?_
    · simp only [inStatus, ofRevision, Bool.and_eq_true, decide_eq_true_eq] at hrow
      exact Or.inr (by rw [hrow.1.1, hrow.1.2]; rfl)
    · split_ifs
      · exact calm_answering _
      · exact calm_answering _

theorem calm_mark_succeeded (principal targetId : Text) (previousId : Option Text) (now : Int64) :
    Calm {(principal, targetId)}
      (markApplySucceededFor H key principal targetId previousId now) := by
  refine calm_bind (calm_verdict H key _) fun targetBefore => ?_
  cases previousId with
  | none =>
    exact calm_bind (calm_activate principal targetId now) fun _ => calm_re_sign H key _ _
  | some previous =>
    refine calm_bind (calm_verdict H key _) fun previousBefore => ?_
    refine calm_bind (calm_supersede principal targetId previous now) fun _ => ?_
    refine calm_bind (calm_activate principal targetId now) fun _ => ?_
    exact calm_bind (calm_re_sign H key _ _) fun _ => calm_re_sign H key _ _

theorem calm_verdicts (ids : List Text) : Calm K (verdictsBefore H key ids) := by
  induction ids with
  | nil => exact calm_answering _
  | cons id rest ih =>
    exact calm_bind (calm_verdict H key id) fun _ => calm_bind ih fun _ => calm_answering _

theorem calm_re_sign_all (verdicts : List (Text × Option HmacVerification)) :
    Calm K (reSignAll H key verdicts) := by
  induction verdicts with
  | nil => exact calm_answering _
  | cons v rest ih => exact calm_bind (calm_re_sign H key v.1 v.2) fun _ => ih

theorem calm_reject_orphans (reason : Text) : Calm K (rejectOrphanedCandidates H key reason) := by
  refine calm_transaction trivial (calm_bind (calm_read _) fun ids => ?_)
  refine calm_bind (calm_verdicts H key ids) fun verdicts => ?_
  refine calm_bind (calm_update trivial ?_) fun _ =>
    calm_bind (calm_re_sign_all H key verdicts) fun _ => calm_answering _
  exact ⟨fun _ => rfl, fun _ => rfl, fun row _ hactive => by simp [RevisionRow.isActive] at hactive⟩

theorem calm_insert (principal : Text) (record : RevisionRecord) :
    Calm K (insertCandidateFor H key principal record) := by
  unfold insertCandidateFor
  split_ifs
  · exact calm_answering _
  · exact calm_answering _
  · exact calm_answering _
  · refine calm_execute fun t b l t' hf => ?_
    split_ifs at hf
    cases hf
    refine ⟨trivial, rfl, ?_⟩
    rintro principal revisionId ⟨row, hrow, rfl, rfl, hactive⟩
    rcases List.mem_append.mp hrow with hrow | hrow
    · exact Or.inl ⟨row, hrow, rfl, rfl, hactive⟩
    · obtain rfl := List.mem_singleton.mp hrow
      cases hactive

theorem calm_set_pointer (principal : Text) (pointer : ActiveRevisionPointer) :
    Calm K (setActivePointerFor H key principal pointer) := by
  refine calm_execute fun t b l t' hf => ?_
  split_ifs at hf
  cases hf
  exact ⟨trivial, rfl, fun _ _ h => Or.inl h⟩

theorem calm_clear_pointer (principal : Text) : Calm K (clearActivePointerFor principal) := by
  refine calm_execute fun t b l t' hf => ?_
  cases hf
  exact ⟨trivial, rfl, fun _ _ h => Or.inl h⟩

theorem calm_delete (principal : Text) : Calm K (deleteAllRevisionsFor principal) := by
  unfold deleteAllRevisionsFor
  split_ifs
  · exact calm_answering _
  · refine calm_bind (calm_clear_pointer principal) fun _ => calm_execute fun t b l t' hf => ?_
    cases hf
    refine ⟨trivial, rfl, ?_⟩
    rintro principal revisionId ⟨row, hrow, rfl, rfl, hactive⟩
    exact Or.inl ⟨row, List.mem_of_mem_filter hrow, rfl, rfl, hactive⟩

variable (C : Coordinator)

theorem calm_find_or_insert (submission : CandidateSubmission) (record : RevisionRecord) :
    Calm K (findOrInsert C submission record) := by
  refine calm_bind (calm_during _ (calm_read _)) fun existing => ?_
  cases existing with
  | some record => exact calm_answering _
  | none => exact calm_bind (calm_during _ (calm_insert _ _ _ _)) fun _ => calm_answering _

theorem calm_align_pointer (principal : Text) (active : Option RevisionRecord) (now : Int64) :
    Calm K (alignPointer C principal active now) := by
  have hmove : Calm K (movePointer C principal active now) := by
    cases active with
    | none => exact calm_during _ (calm_clear_pointer principal)
    | some record => exact calm_during _ (calm_set_pointer _ _ _ _)
  refine calm_bind (calm_during _ (calm_read _)) fun pointer => ?_
  refine calm_bind (calm_during _ (calm_read _)) fun verdicts => ?_
  dsimp only
  split_ifs
  · exact calm_answering _
  · exact calm_bind hmove fun _ => calm_answering _

theorem calm_retire (principal revisionId : Text) (now : Int64) :
    Calm K (retireActive C principal revisionId now) :=
  calm_transaction trivial <| calm_bind (calm_during _ (calm_roll_back _ _ _ _ _)) fun _ =>
    calm_during _ (calm_clear_pointer principal)

end NetRuleRouter.OrdinaryCommits
