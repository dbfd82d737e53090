import NetRuleRouter.CoordinatorCalls

/-!
# Rules for the coordinator's programs

What is to be shown of every program of the coordinator is shown of its
sessions with the tables. A property that holds of what is done, of asking and
of reading, and goes over to programs put together of such that have it, is
carried here from the sessions that write to every call.
-/

set_option autoImplicit false

namespace NetRuleRouter.CoordinatorRules
open TextOps RevisionRecords RevisionStore Activation CoordinatorCalls

structure Rules (K : (α : Type) → Op α → Prop) : Prop where
  done : ∀ {α : Type} (r : Except PolicyError α), K α (.done r)
  bind : ∀ {α β : Type} {p : Op α} {f : α → Op β}, K α p → (∀ a, K β (f a)) → K β (p >>= f)
  query : ∀ q : Query, K q.Answer (.query q)
  attempt : ∀ {α : Type} {p : Op α}, K α p → K (Except PolicyError α) p.attempt
  reads : ∀ {β : Type} (operation : String) (f : Tables → Except StorageError β),
    K β (withTables operation (.read f))

variable {C : Coordinator} {K : (α : Type) → Op α → Prop}

namespace Rules
variable (h : Rules K)
include h

theorem verify_revision_integrity (record : RevisionRecord) :
    K _ (verifyRevisionIntegrity C record) := by
  unfold verifyRevisionIntegrity
  split_ifs
  · exact h.done _
  · refine h.bind (h.reads _ _) fun verification => ?_
    split
    · exact h.done _
    · exact h.bind (h.done _) fun _ => h.done _

theorem load_record (revisionId : Text) : K _ (loadRecord C revisionId) := by
  refine h.bind (h.reads _ _) fun found => ?_
  cases found with
  | none => exact h.done _
  | some record => exact h.bind (h.verify_revision_integrity record) fun _ => h.done _

theorem owner_of (revisionId : Text) : K _ (ownerOf revisionId) := by
  refine h.bind (h.reads _ _) fun found => ?_
  cases found with
  | none | some principal => exact h.done _

theorem current_active_for (principal : Text) : K _ (currentActiveFor principal) := h.reads _ _

theorem expect_candidate (revisionId : Text) (record : RevisionRecord) :
    K _ (expectCandidate revisionId record) := by
  unfold expectCandidate
  split_ifs
  · exact h.done _
  · exact h.done _

theorem inheriting (sids : List Text) : K _ (inheriting sids) := by
  induction sids with
  | nil => exact h.done _
  | cons sid rest ih =>
    exact h.bind (h.attempt (h.current_active_for sid)) fun _ => h.bind ih fun _ => h.done _

theorem apply_target_sids (principal : Text) : K _ (applyTargetSids principal) := by
  refine h.bind (h.query Query.registeredSids) fun active => ?_
  split_ifs
  · exact h.done _
  · exact h.inheriting active

theorem still_inheriting (principal : Text) (sids : List Text) :
    K _ (stillInheriting principal sids) := by
  unfold stillInheriting
  split_ifs
  · exact h.done _
  · exact h.inheriting sids

theorem confirmed (outcome : ConsumeOutcome) : K _ (confirmed outcome) := by
  cases outcome with
  | consumed payloadJson | unknown | alreadyConsumed | expired | payloadRejected => exact h.done _

theorem run_pre_flight (registeredNow : List Text) (rulesJson : Text) (sids : List Text) :
    K _ (runPreFlight registeredNow rulesJson sids) := by
  induction sids with
  | nil => exact h.done _
  | cons sid rest ih =>
    unfold runPreFlight
    split_ifs
    · exact h.bind (h.query (Query.preFlightForSid sid rulesJson)) fun _ =>
        h.bind ih fun _ => h.done _
    · exact h.bind ih fun _ => h.done _

theorem phase2_apply (rulesJson : Text) (sids : List Text) : K _ (phase2Apply rulesJson sids) := by
  induction sids with
  | nil => exact h.done _
  | cons sid rest ih =>
    exact h.bind (h.query (Query.applyForSid sid rulesJson)) fun _ =>
      h.bind ih fun _ => h.done _

theorem revert_to_previous (rulesJson : Text) (sids : List Text) :
    K _ (revertToPrevious rulesJson sids) := by
  induction sids with
  | nil => exact h.done _
  | cons sid rest ih =>
    exact h.bind (h.query (Query.revertForSid sid rulesJson)) fun _ =>
      h.bind ih fun _ => h.done _

theorem marker_cleared : K _ markerCleared := by
  refine h.bind (h.query Query.clearMarker) fun failed => ?_
  cases failed with
  | none | some message => exact h.done _

theorem find_rollback_target (principal : Text) (target : RollbackTarget) :
    K _ (findRollbackTarget principal target) := by
  cases target with
  | lkg =>
    refine h.bind (h.reads _ _) fun found => ?_
    cases found with
    | none | some record => exact h.done _
  | specific id =>
    refine h.bind (h.reads _ _) fun found => ?_
    cases found with
    | none => exact h.done _
    | some record =>
      dsimp only
      split_ifs
      · exact h.done _
      · exact h.done _

theorem resolve_rollback_target (principal : Text) (target : RollbackTarget) :
    K _ (resolveRollbackTarget C principal target) :=
  h.bind (h.find_rollback_target principal target) fun record =>
    h.bind (h.verify_revision_integrity record) fun _ => h.done _

theorem for_each {α β : Type} {f : α → Op β} (hf : ∀ a, K _ (f a)) (l : List α) :
    K _ (.forEach f l) := by
  induction l with
  | nil => exact h.done _
  | cons a l ih => exact h.bind (hf a) fun _ => h.bind ih fun _ => h.done _

end Rules

variable (C K) in
structure Writes : Prop extends Rules K where
  entering : K Unit enterGate
  leaving : K Unit leaveGate
  findsOrInserts : ∀ submission record, K (Option Text) (underLock (findOrInsert C submission record))
  inserts : ∀ (operation : String) (principal : Text) (record : RevisionRecord),
    K Unit (withTables operation (insertCandidateFor C.digests C.signingKey principal record))
  issues : ∀ (principal token revisionId : Text) (issuedAt expiresAt : Int64),
    K Unit (withTables "issue_token"
      (issueFor principal token (C.payloads.activatePayload revisionId) issuedAt expiresAt))
  rejects : ∀ principal revisionId reason, K Unit (rejectCandidate C principal revisionId reason)
  deletes : ∀ principal,
    K ℕ (withTables "delete_all_revisions(reset)" (deleteAllRevisionsFor principal))
  sweeps : ∀ reason, K ℕ (rejectOrphans C reason)
  aligns : ∀ principal active now,
    K (Option ActiveIntegrityOutcome) (underLock (alignPointer C principal active now))
  retires : ∀ principal revisionId now, K Unit (underLock (retireActive C principal revisionId now))

namespace Writes
variable (h : Writes C K)
include h

theorem with_pass {α : Type} {work : Op α} (hwork : K α work) : K α (withPass work) :=
  h.bind h.entering fun _ => h.bind (h.attempt hwork) fun _ => h.bind h.leaving fun _ => h.done _

theorem submit_candidate (submission : CandidateSubmission) :
    K _ (submitCandidate C submission) := by
  refine h.bind (h.query (Query.refusal submission)) fun refused => ?_
  cases refused with
  | some detail => exact h.done _
  | none =>
    refine h.bind (h.query Query.newRevisionId) fun _ => h.bind (h.query Query.now) fun _ => ?_
    refine h.bind (h.findsOrInserts submission _) fun existing => ?_
    cases existing with
    | some id | none => exact h.done _

theorem issue_confirmation_token (revisionId : Text) (ttlSecs : Int64) :
    K _ (issueConfirmationToken C revisionId ttlSecs) := by
  unfold issueConfirmationToken
  split_ifs
  · exact h.done _
  · refine h.bind (h.load_record revisionId) fun record => ?_
    refine h.bind (h.expect_candidate revisionId record) fun _ => ?_
    refine h.bind (h.owner_of revisionId) fun _ => ?_
    refine h.bind (h.query Query.newToken) fun _ => h.bind (h.query Query.now) fun _ => ?_
    exact h.bind (h.issues _ _ _ _ _) fun _ => h.done _

theorem phase3b_revert_and_reject (principal revisionId : Text) (phase1 : Phase1Outcome)
    (phase2 : Phase2Outcome) :
    K _ (phase3bRevertAndReject C principal revisionId phase1 phase2) :=
  h.bind (h.revert_to_previous _ _) fun _ => h.bind (h.rejects _ _ _) fun _ =>
    h.bind h.marker_cleared fun _ => h.done _

theorem phase3b_pre_flight_failed (principal revisionId : Text) (failures : List SidFailure) :
    K _ (phase3bPreFlightFailed C principal revisionId failures) :=
  h.bind (h.rejects _ _ _) fun _ => h.bind h.marker_cleared fun _ => h.done _

theorem phase3a_unrecorded {α : Type} (principal revisionId : Text) (phase1 : Phase1Outcome)
    (touched : List Text) (error : PolicyError) :
    K α (phase3aUnrecorded C principal revisionId phase1 touched error) :=
  h.bind (h.revert_to_previous _ _) fun _ => h.bind (h.attempt (h.rejects _ _ _)) fun _ =>
    h.bind (h.query Query.clearMarker) fun _ => h.done _

theorem refuse_if_rules_moved (principal revisionId base : Text) :
    K _ (refuseIfRulesMoved C principal revisionId base) := by
  refine h.bind (h.query (Query.baseRevision principal)) fun current => ?_
  cases current with
  | error message => exact h.done _
  | ok current =>
    dsimp only
    split_ifs
    · exact h.done _
    · exact h.bind (h.attempt (h.rejects _ _ _)) fun _ => h.done _

theorem check_base (principal revisionId : Text) (base : Option Text) :
    K _ (checkBase C principal revisionId base) := by
  cases base with
  | none => exact h.done _
  | some base => exact h.refuse_if_rules_moved principal revisionId base

theorem prepare_rollback_candidate (principal : Text) (target : RollbackTarget)
    (correlationId : Text) : K _ (prepareRollbackCandidate C principal target correlationId) := by
  refine h.bind (h.resolve_rollback_target principal target) fun _ => ?_
  refine h.bind (h.query Query.newRevisionId) fun _ => h.bind (h.query Query.now) fun _ => ?_
  exact h.bind (h.inserts _ _ _) fun _ => h.done _

theorem realign_pointer (principal : Text) (active : Option RevisionRecord) :
    K _ (realignPointer C principal active) :=
  h.bind (h.query Query.now) fun _ => h.aligns _ _ _

variable (hactivate : ∀ revisionId token base, K _ (activateOver C revisionId token base))
include hactivate

theorem rollback_to_over (principal : Text) (target : RollbackTarget) (correlationId : Text)
    (base : Option Text) : K _ (rollbackToOver C principal target correlationId base) := by
  refine h.bind (h.prepare_rollback_candidate principal target correlationId) fun newId => ?_
  refine h.bind (h.issue_confirmation_token newId _) fun token => ?_
  refine h.bind (hactivate newId token base) fun outcome => ?_
  cases outcome with
  | activated _ _ | appliedWithDrift _ _ _ =>
    exact h.bind (h.current_active_for principal) fun _ => h.done _
  | rolledBackOnFailure _ _ _ | preFlightFailed _ _ => exact h.done _

theorem replace_rejected (principal correlationId rejectedId : Text)
    (reason : RevisionRejectReason) (earlier : List VerifiedHistoryEntry) :
    K _ (replaceRejected C principal correlationId rejectedId reason earlier) := by
  unfold replaceRejected
  split
  · refine h.bind (h.done _) fun trustedId => ?_
    refine h.bind (h.rollback_to_over hactivate _ _ _ _) fun outcome => ?_
    cases outcome with
    | activated _ _ | appliedWithDrift _ _ _ | rolledBackOnFailure _ _ _ | preFlightFailed _ _ =>
      exact h.done _
  · exact h.bind (h.query Query.now) fun _ => h.bind (h.retires _ _ _) fun _ => h.done _

theorem enforce_active_integrity_for (principal correlationId : Text) :
    K _ (enforceActiveIntegrityFor C principal correlationId) := by
  have hrealign (active : Option RevisionRecord) (other : ActiveIntegrityOutcome) :
      K _ (do let realigned ← realignPointer C principal active; pure (realigned.getD other)) :=
    h.bind (h.realign_pointer principal active) fun _ => h.done _
  unfold enforceActiveIntegrityFor
  split_ifs
  · exact h.done _
  · refine h.bind (h.reads _ _) fun history => ?_
    cases history with
    | nil => exact hrealign _ _
    | cons entry earlier =>
      dsimp only
      split_ifs
      · exact hrealign _ _
      · split
        · exact hrealign _ _
        · exact h.replace_rejected hactivate _ _ _ _ _

theorem enforce_active_integrity_all (correlationId : Text) :
    K _ (enforceActiveIntegrityAll C correlationId) := by
  unfold enforceActiveIntegrityAll
  split_ifs
  · exact h.done _
  · refine h.bind (h.reads _ _) fun _ => h.bind (h.reads _ _) fun _ => ?_
    refine h.for_each (fun principal => ?_) _
    exact h.bind (h.attempt (h.enforce_active_integrity_for hactivate _ _)) fun _ => h.done _

theorem program (call : Call) : K _ (program C call) := by
  have hdiscard {α : Type} {p : Op α} (hp : K α p) : K Unit (CoordinatorCalls.discard p) :=
    h.bind hp fun _ => h.done _
  cases call with
  | submitCandidate submission => exact hdiscard (h.submit_candidate submission)
  | issueConfirmationToken revisionId ttlSecs =>
    exact hdiscard (h.issue_confirmation_token revisionId ttlSecs)
  | activateOver revisionId token base => exact hdiscard (hactivate revisionId token base)
  | rollbackTo principal target correlationId base =>
    exact hdiscard (h.rollback_to_over hactivate principal target correlationId base)
  | resetPrincipalToBaseline principal => exact hdiscard (h.with_pass (h.deletes principal))
  | rejectOrphanedCandidates reason => exact hdiscard (h.sweeps reason)
  | enforceActiveIntegrityAll correlationId =>
    exact hdiscard (h.enforce_active_integrity_all hactivate correlationId)

end Writes

end NetRuleRouter.CoordinatorRules
