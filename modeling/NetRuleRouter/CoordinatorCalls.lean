import NetRuleRouter.Activation

/-!
# What the coordinator is called for

Going back to an earlier revision is an activation of a copy of it; a reset
drops a principal's revisions; a start sweeps up candidates a lost process
left and checks every active revision, replacing one it cannot trust by the
newest it can.
-/

set_option autoImplicit false

namespace NetRuleRouter.CoordinatorCalls
open TextOps RevisionRecords RevisionStore Sessions LockedPrograms Activation

variable (C : Coordinator)

def reactivatable (status : RevisionStatus) : Bool :=
  status = .superseded || status = .rolledBack || status = .rejected

def findRollbackTarget (principal : Text) : RollbackTarget → Op RevisionRecord
  | .lkg => do
    let found ← withTables "last_known_good" (.read fun t => lastKnownGoodFor t principal)
    match found with
    | none => .fail .noLastKnownGood
    | some record => pure record
  | .specific id => do
    let found ← withTables "get_by_id_for" (.read fun t => getByIdFor t principal id)
    match found with
    | none => .fail (.revisionNotFound id)
    | some record =>
      if reactivatable record.status then pure record
      else .fail (.revisionNotInExpectedStatus id record.status
        "superseded|rolled-back|rejected".toList)

def resolveRollbackTarget (principal : Text) (target : RollbackTarget) : Op RevisionRecord := do
  let record ← findRollbackTarget principal target
  verifyRevisionIntegrity C record
  pure record

def prepareRollbackCandidate (principal : Text) (target : RollbackTarget) (correlationId : Text) :
    Op Text := do
  let targetRecord ← resolveRollbackTarget C principal target
  let newId ← newRevisionId
  let now ← askNow
  let newRecord : RevisionRecord :=
    { revisionId := newId, contentHash := targetRecord.contentHash
      rulesJson := targetRecord.rulesJson, status := .candidate, source := .rollback
      correlationId := correlationId, createdAt := now, activatedAt := none
      supersededAt := none, supersededBy := none, rejectedReason := none
      reviewSummaryJson := targetRecord.reviewSummaryJson, riskLevel := targetRecord.riskLevel }
  withTables "insert_candidate(rollback)" <|
    insertCandidateFor C.digests C.signingKey principal newRecord
  pure newId

def rollbackTtlSecs : Int64 := 300

def rollbackToOver (principal : Text) (target : RollbackTarget) (correlationId : Text)
    (base : Option Text) : Op ActivationOutcome := do
  let newId ← prepareRollbackCandidate C principal target correlationId
  let token ← issueConfirmationToken C newId rollbackTtlSecs
  let outcome ← activateOver C newId token base
  match outcome with
  | .activated _ _ | .appliedWithDrift _ _ _ => do
    -- read for the audit record alone, but its failure is the caller's
    let _ ← currentActiveFor principal
    pure outcome
  | _ => pure outcome

def resetPrincipalToBaseline (principal : Text) : Op ℕ :=
  withPass (withTables "delete_all_revisions(reset)" (deleteAllRevisionsFor principal))

def rejectOrphans (reason : Text) : Op ℕ :=
  withTables "reject_orphaned_candidates" <|
    rejectOrphanedCandidates C.digests C.signingKey reason

def movePointer (principal : Text) (active : Option RevisionRecord) (now : Int64) :
    Session Tables Commit PolicyError Unit :=
  match active with
  | some record =>
    during "set_active_pointer(integrity)" <| setActivePointerFor C.digests C.signingKey
      principal ⟨record.revisionId, record.activatedAt.getD now, none⟩
  | none => during "clear_active_pointer(integrity)" (clearActivePointerFor principal)

/-- The pointer follows the status; nothing is done where they agree and the tag holds. -/
def alignPointer (principal : Text) (active : Option RevisionRecord) (now : Int64) :
    Session Tables Commit PolicyError (Option ActiveIntegrityOutcome) := do
  let pointer ← during "get_active_pointer(integrity)" <|
    .read fun t => getActivePointerFor t principal
  let verdicts ← during "verify_all_pointers(integrity)" <|
    .read fun t => verifyAllPointers C.digests C.signingKey t
  let pointerWas := pointer.map ActiveRevisionPointer.revisionId
  let activeId := active.map RevisionRecord.revisionId
  if pointerWas = activeId ∧ ¬verdicts.contains (principal, .tampered) then pure none
  else do
    movePointer C principal active now
    pure (some (.pointerRealigned pointerWas activeId))

def realignPointer (principal : Text) (active : Option RevisionRecord) :
    Op (Option ActiveIntegrityOutcome) := do
  let now ← askNow
  underLock (alignPointer C principal active now)

/-- The row goes out of force and its pointer with it. -/
def retireActive (principal revisionId : Text) (now : Int64) :
    Session Tables Commit PolicyError Unit :=
  .transaction (.retirement principal revisionId) do
    during "mark_rolled_back(integrity)" <|
      markRolledBackFor C.digests C.signingKey principal revisionId now
    during "clear_active_pointer(integrity)" (clearActivePointerFor principal)

def trustedEntry (entry : VerifiedHistoryEntry) : Bool :=
  entry.verification = .verified && !exceedsFreeRuleCap C entry.record.rulesJson

/-- The rejected row gives way to the newest trusted one before it, or to nothing. -/
def replaceRejected (principal correlationId : Text) (rejectedId : Text)
    (reason : RevisionRejectReason) (earlier : List VerifiedHistoryEntry) :
    Op ActiveIntegrityOutcome :=
  match earlier.find? (trustedEntry C) with
  | some entry => do
    let trustedId ← .done (parseRevisionId entry.record.revisionId)
    let outcome ← rollbackToOver C principal (.specific trustedId) correlationId none
    match outcome with
    | .activated newId _ | .appliedWithDrift newId _ _ =>
      pure (.rolledBack rejectedId reason trustedId newId)
    | _ => .fail (.storageFailure "enforce_active_integrity(rollback_to)".toList
        (.internal "trusted fallback failed to apply".toList))
  | none => do
    let now ← askNow
    underLock (retireActive C principal rejectedId now)
    pure (.clearedNoTrustedFallback rejectedId reason)

def enforceActiveIntegrityFor (principal correlationId : Text) : Op ActiveIntegrityOutcome :=
  if C.signingKey = none then pure .skippedNoKey
  else do
    let history ← withTables "activation_history_for" <|
      .read fun t => activationHistoryFor C.digests C.signingKey t principal
    match history with
    | [] => do
      let realigned ← realignPointer C principal none
      pure (realigned.getD .noActiveRevision)
    | entry :: earlier =>
      if entry.record.status ≠ .active then do
        let realigned ← realignPointer C principal none
        pure (realigned.getD .noActiveRevision)
      else match classifyRejectReason C entry.record entry.verification with
        | none => do
          let realigned ← realignPointer C principal (some entry.record)
          pure (realigned.getD (.trusted entry.record.revisionId))
        | some reason =>
          replaceRejected C principal correlationId entry.record.revisionId reason earlier

def addMissing (principals : List Text) : List Text → List Text
  | [] => principals
  | p :: rest => addMissing (if p ∈ principals then principals else principals ++ [p]) rest

def enforceActiveIntegrityAll (correlationId : Text) :
    Op (List (Text × ActiveIntegrityOutcome)) :=
  if C.signingKey = none then pure []
  else do
    let withRows ← withTables "distinct_principals" (.read fun t => .ok (distinctPrincipals t))
    let withPointer ← withTables "verify_all_pointers" <|
      .read fun t => verifyAllPointers C.digests C.signingKey t
    let principals := addMissing withRows (withPointer.map Prod.fst ++ [baselinePrincipal])
    .forEach (fun principal => do
      -- one principal's failure leaves the others to be checked
      let outcome ← (enforceActiveIntegrityFor C principal correlationId).attempt
      pure (principal, match outcome with
        | .ok outcome => outcome
        | .error error => .checkFailed error)) principals

inductive Call where
  | submitCandidate (submission : CandidateSubmission)
  | issueConfirmationToken (revisionId : Text) (ttlSecs : Int64)
  | activateOver (revisionId token : Text) (base : Option Text)
  | rollbackTo (principal : Text) (target : RollbackTarget) (correlationId : Text)
      (base : Option Text)
  | resetPrincipalToBaseline (principal : Text)
  | rejectOrphanedCandidates (reason : Text)
  | enforceActiveIntegrityAll (correlationId : Text)

def discard {α : Type} (p : Op α) : Op Unit := do
  let _ ← p
  pure ()

def program : Call → Op Unit
  | .submitCandidate submission => discard (submitCandidate C submission)
  | .issueConfirmationToken revisionId ttlSecs =>
    discard (issueConfirmationToken C revisionId ttlSecs)
  | .activateOver revisionId token base => discard (activateOver C revisionId token base)
  | .rollbackTo principal target correlationId base =>
    discard (rollbackToOver C principal target correlationId base)
  | .resetPrincipalToBaseline principal => discard (resetPrincipalToBaseline principal)
  | .rejectOrphanedCandidates reason => discard (rejectOrphans C reason)
  | .enforceActiveIntegrityAll correlationId =>
    discard (enforceActiveIntegrityAll C correlationId)

abbrev ServicePool := Pool Service Commit Query Query.Answer PolicyError

abbrev ServiceAct := Act Query Query.Answer Call

def serviceStep (p : ServicePool) (a : ServiceAct) : Option ServicePool :=
  step (program C) restart p a

/-- The payload as it is written for ids in which JSON escapes nothing. -/
def plainPayloads : TokenPayloads where
  activatePayload revisionId :=
    "\x7b\"op\":\"activate\",\"revision_id\":\"".toList ++ (revisionId ++ "\"\x7d".toList)
  tokenRevisionOf payload := some ((payload.drop 32).dropLast.dropLast)
  revision_of_payload revisionId := by
    rw [List.drop_append]
    simp

def sampleCoordinator : Coordinator where
  digests := sha2Digests
  signingKey := some [7]
  payloads := plainPayloads
  userRuleCount _ := 0
  display _ := []

def sampleCandidate : RevisionRow :=
  candidateRow sha2Digests (some [7]) "S-1-5-21-1".toList
    { revisionId := "rev-1".toList, contentHash := "h".toList, rulesJson := "\x7b\x7d".toList
      status := .candidate, source := .guiRulesEdit, correlationId := [], createdAt := 0
      activatedAt := none, supersededAt := none, supersededBy := none, rejectedReason := none
      reviewSummaryJson := none, riskLevel := none }

def sampleService : Service := ⟨⟨[sampleCandidate], [], []⟩, false⟩

/-- Nothing fails; the rules in force are called `base-2`. -/
def sampleAnswers : (q : Query) → q.Answer
  | .now => (1 : Int64)
  | .newRevisionId => "rev-2".toList
  | .newToken => "token".toList
  | .registeredSids => ([] : List Text)
  | .failurePolicy => ApplyFailurePolicy.allOrNothing
  | .writeMarker => (none : Option Text)
  | .clearMarker => (none : Option Text)
  | .preFlightForSid _ _ => (.ok [] : Except SidFailure (List PreFlightWarning))
  | .applyForSid _ _ => (none : Option SidFailure)
  | .revertForSid _ _ => (none : Option SidFailure)
  | .refusal _ => (none : Option Text)
  | .baseRevision _ => (.ok "base-2".toList : Except Text Text)

end NetRuleRouter.CoordinatorCalls
