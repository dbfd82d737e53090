import NetRuleRouter.LockedPrograms
import NetRuleRouter.RevisionStore

/-!
# The activation coordinator

A candidate becomes the active revision in phases: a token the user confirmed
it with is spent, the rules are applied to every account they are for, and the
change of status is committed together with the pointer; what fails is
reverted and the candidate rejected. What the coordinator hears from its
surroundings are answers to queries.
-/

set_option autoImplicit false

namespace NetRuleRouter.Activation
open TextOps Utf8 Numerals RevisionRecords RevisionStore Sessions LockedPrograms

inductive RevisionRejectReason where
  | unsigned
  | tampered
  | ruleCapExceeded (userRuleCount cap : ℕ)
  deriving DecidableEq

inductive PolicyError where
  | storageFailure (operation : Text) (error : StorageError)
  | confirmationTokenUnknown
  | confirmationTokenAlreadyUsed
  | confirmationTokenExpired
  | confirmationTokenForOtherRevision
  | revisionNotFound (revisionId : Text)
  | revisionNotInExpectedStatus (revisionId : Text) (actual : RevisionStatus) (expected : Text)
  | noLastKnownGood
  | markerWriteFailed (message : Text)
  | revisionIntegrityRejected (revisionId : Text) (reason : RevisionRejectReason)
  /-- One of the refusals of a submitted book for what its rules say. -/
  | submissionRefused (detail : Text)
  | activationBusy
  | rulesChangedElsewhere
  | activationNotRecorded (revisionId detail : Text)
  deriving DecidableEq

abbrev SidFailure := Text × Text

inductive ActivationOutcome where
  | activated (revisionId : Text) (appliedAtSecs : Int64)
  | appliedWithDrift (revisionId : Text) (succeededSids : List Text) (failedSids : List SidFailure)
  | rolledBackOnFailure (rejectedRevision : Text) (revertedSids : List Text) (reason : Text)
  | preFlightFailed (rejectedRevision : Text) (sidFailures : List SidFailure)
  deriving DecidableEq

inductive ActiveIntegrityOutcome where
  | skippedNoKey
  | noActiveRevision
  | trusted (revisionId : Text)
  | pointerRealigned (pointerWas revisionId : Option Text)
  | rolledBack (rejectedRevisionId : Text) (reason : RevisionRejectReason)
      (trustedSourceRevisionId newActiveRevisionId : Text)
  | clearedNoTrustedFallback (rejectedRevisionId : Text) (reason : RevisionRejectReason)
  | checkFailed (error : PolicyError)
  deriving DecidableEq

inductive ApplyFailurePolicy where
  | allOrNothing
  | bestEffort
  | preFlightThenAllOrNothing
  deriving DecidableEq

inductive RollbackTarget where
  | lkg
  | specific (revisionId : Text)
  deriving DecidableEq

structure CandidateSubmission where
  principal : Text
  contentHash : Text
  rulesJson : Text
  source : RulesRevisionSource
  correlationId : Text
  reviewSummaryJson : Option Text
  riskLevel : Option RiskLevel

structure PreFlightWarning where
  sid : Text
  message : Text
  blocksActivation : Bool

inductive Query where
  | now
  | newRevisionId
  | newToken
  | registeredSids
  | failurePolicy
  | writeMarker
  | clearMarker
  | preFlightForSid (sid rulesJson : Text)
  | applyForSid (sid rulesJson : Text)
  | revertForSid (sid rulesJson : Text)
  /-- The checks of a submitted book against the one in force. -/
  | refusal (submission : CandidateSubmission)
  /-- The name of the rules in force for a principal. -/
  | baseRevision (principal : Text)

/-- What an answer to a query is; a failure is told, a success of nothing to tell is `none`. -/
def Query.Answer : Query → Type
  | now => Int64
  | newRevisionId => Text
  | newToken => Text
  | registeredSids => List Text
  | failurePolicy => ApplyFailurePolicy
  | writeMarker => Option Text
  | clearMarker => Option Text
  | preFlightForSid _ _ => Except SidFailure (List PreFlightWarning)
  | applyForSid _ _ => Option SidFailure
  | revertForSid _ _ => Option SidFailure
  | refusal _ => Option Text
  | baseRevision _ => Except Text Text

structure Service where
  tables : Tables
  gateBusy : Bool

def restart (s : Service) : Service := { s with gateBusy := false }

/-- The payload of a token is JSON text naming the revision it is for. -/
structure TokenPayloads where
  activatePayload : Text → Text
  tokenRevisionOf : Text → Option Text
  revision_of_payload : ∀ revisionId,
    tokenRevisionOf (activatePayload revisionId) = some revisionId

structure Coordinator where
  digests : Digests
  signingKey : Option Bytes
  payloads : TokenPayloads
  /-- User rules in a canonical rules text; none in a text that does not decode. -/
  userRuleCount : Text → ℕ
  display : PolicyError → Text

abbrev Op (α : Type) := Program Service Commit Query Query.Answer PolicyError α

def askNow : Op Int64 := .query Query.now
def newRevisionId : Op Text := .query Query.newRevisionId
def newToken : Op Text := .query Query.newToken
def registeredSids : Op (List Text) := .query Query.registeredSids
def failurePolicy : Op ApplyFailurePolicy := .query Query.failurePolicy
def writeMarker : Op (Option Text) := .query Query.writeMarker
def clearMarker : Op (Option Text) := .query Query.clearMarker

def preFlightForSid (sid rulesJson : Text) : Op (Except SidFailure (List PreFlightWarning)) :=
  .query (Query.preFlightForSid sid rulesJson)

def applyForSid (sid rulesJson : Text) : Op (Option SidFailure) :=
  .query (Query.applyForSid sid rulesJson)

def revertForSid (sid rulesJson : Text) : Op (Option SidFailure) :=
  .query (Query.revertForSid sid rulesJson)

def refusal (submission : CandidateSubmission) : Op (Option Text) :=
  .query (Query.refusal submission)

def baseRevisionFor (principal : Text) : Op (Except Text Text) :=
  .query (Query.baseRevision principal)

def during {β : Type} (operation : String) (x : StoreSession β) :
    Session Tables Commit PolicyError β :=
  x.mapError (.storageFailure operation.toList)

def underLock {β : Type} (x : Session Tables Commit PolicyError β) : Op β :=
  .session (.within Service.tables (fun s t => { s with tables := t }) x)

def withTables {β : Type} (operation : String) (x : StoreSession β) : Op β :=
  underLock (during operation x)

def enterGate : Op Unit :=
  .session <| .execute fun s =>
    if s.gateBusy then .error .activationBusy
    else .ok ((), some (.gate, { s with gateBusy := true }))

def leaveGate : Op Unit :=
  .session <| .execute fun s => .ok ((), some (.gate, { s with gateBusy := false }))

/-- Holding the gate, which is let go however the work ends. -/
def withPass {α : Type} (work : Op α) : Op α := do
  enterGate
  let result ← work.attempt
  leaveGate
  .done result

def revisionPrefix : Text := "rev-".toList

def parseRevisionId (s : Text) : Except PolicyError Text :=
  if revisionPrefix.isPrefixOf s && s ≠ revisionPrefix then .ok s
  else .error (.storageFailure "parse_revision_id".toList (.internal s))

def freeMaxRules : ℕ := 9999

variable (C : Coordinator)

def exceedsFreeRuleCap (rulesJson : Text) : Bool := freeMaxRules < C.userRuleCount rulesJson

def classifyRejectReason (record : RevisionRecord) :
    HmacVerification → Option RevisionRejectReason
  | .verified =>
    if exceedsFreeRuleCap C record.rulesJson then
      some (.ruleCapExceeded (C.userRuleCount record.rulesJson) freeMaxRules)
    else none
  | .unsigned => some .unsigned
  | .tampered => some .tampered

def verifyRevisionIntegrity (record : RevisionRecord) : Op Unit :=
  if C.signingKey = none then pure ()
  else do
    let verification ← withTables "verify_row_hmac" <|
      .read fun t => verifyRowHmac C.digests C.signingKey t record.revisionId
    match classifyRejectReason C record (verification.getD .unsigned) with
    | none => pure ()
    | some reason => do
      let revisionId ← .done (parseRevisionId record.revisionId)
      .fail (.revisionIntegrityRejected revisionId reason)

def loadRecord (revisionId : Text) : Op RevisionRecord := do
  let found ← withTables "get_by_id" (.read fun t => getById t revisionId)
  match found with
  | none => .fail (.revisionNotFound revisionId)
  | some record => do
    verifyRevisionIntegrity C record
    pure record

def ownerOf (revisionId : Text) : Op Text := do
  let found ← withTables "principal_of" (.read fun t => .ok (principalOf t revisionId))
  match found with
  | none => .fail (.revisionNotFound revisionId)
  | some principal => pure principal

def currentActiveFor (principal : Text) : Op (Option RevisionRecord) :=
  withTables "get_active" (.read fun t => getActiveFor t principal)

def expectCandidate (revisionId : Text) (record : RevisionRecord) : Op Unit :=
  if record.status = .candidate then pure ()
  else .fail (.revisionNotInExpectedStatus revisionId record.status "candidate".toList)

def inheriting : List Text → Op (List Text)
  | [] => pure []
  | sid :: rest => do
    let own ← (currentActiveFor sid).attempt
    let kept ← inheriting rest
    pure (match own with
      | .ok none => sid :: kept
      | _ => kept)

def applyTargetSids (principal : Text) : Op (List Text) := do
  let active ← registeredSids
  if principal ≠ baselinePrincipal then pure (active.filter fun sid => sid = principal)
  else inheriting active

/-- Submitting the same content again finds the revision it became. -/
def findOrInsert (submission : CandidateSubmission) (record : RevisionRecord) :
    Session Tables Commit PolicyError (Option Text) := do
  let existing ← during "find_by_content_hash" <| .read fun t =>
    findByContentHashFor t submission.principal submission.contentHash
  match existing with
  | some record => pure (some record.revisionId)
  | none => do
    during "insert_candidate" <|
      insertCandidateFor C.digests C.signingKey submission.principal record
    pure none

def submitCandidate (submission : CandidateSubmission) : Op Text := do
  let refused ← refusal submission
  match refused with
  | some detail => .fail (.submissionRefused detail)
  | none => do
    -- asked ahead of the lock they are used under
    let newId ← newRevisionId
    let now ← askNow
    let record : RevisionRecord :=
      { revisionId := newId, contentHash := submission.contentHash
        rulesJson := submission.rulesJson, status := .candidate, source := submission.source
        correlationId := submission.correlationId, createdAt := now, activatedAt := none
        supersededAt := none, supersededBy := none, rejectedReason := none
        reviewSummaryJson := submission.reviewSummaryJson, riskLevel := submission.riskLevel }
    let existing ← underLock (findOrInsert C submission record)
    match existing with
    | some id => .done (parseRevisionId id)
    | none => pure newId

def issueConfirmationToken (revisionId : Text) (ttlSecs : Int64) : Op Text := do
  if ttlSecs ≤ 0 then
    .fail (.storageFailure "issue_token".toList (.internal "ttl must be positive".toList))
  else do
    let record ← loadRecord C revisionId
    expectCandidate revisionId record
    let principal ← ownerOf revisionId
    let token ← newToken
    let now ← askNow
    withTables "issue_token" <|
      issueFor principal token (C.payloads.activatePayload revisionId) now (now + ttlSecs)
    pure token

structure Phase1Outcome where
  sids : List Text
  previousRevision : Option RevisionRecord

/-- The token is spent on this revision and nothing else; the active revision is read under
the same lock. -/
def spendToken (principal revisionId token : Text) (now : Int64) :
    StoreSession (ConsumeOutcome × Except StorageError (Option RevisionRecord)) := do
  let outcome ← consumeForMatching principal token now fun payload =>
    C.payloads.tokenRevisionOf payload = some revisionId
  match outcome with
  | .consumed _ => do
    let previous ← .attempt (.read fun t => getActiveFor t principal)
    pure (outcome, previous)
  | _ => pure (outcome, .ok none)

def confirmed (outcome : ConsumeOutcome) : Op Unit :=
  match outcome with
  | .consumed _ => pure ()
  | .payloadRejected => .fail .confirmationTokenForOtherRevision
  | .unknown => .fail .confirmationTokenUnknown
  | .alreadyConsumed => .fail .confirmationTokenAlreadyUsed
  | .expired => .fail .confirmationTokenExpired

def phase1ConsumeAndMark (principal revisionId token : Text) (now : Int64) :
    Op Phase1Outcome := do
  let (outcome, previous) ← withTables "consume_token" (spendToken C principal revisionId token now)
  confirmed outcome
  let previous ← .done (previous.mapError (.storageFailure "get_active".toList))
  let sids ← applyTargetSids principal
  let failed ← writeMarker
  match failed with
  | some message => .fail (.markerWriteFailed message)
  | none => pure ⟨sids, previous⟩

def runPreFlight (registeredNow : List Text) (rulesJson : Text) : List Text → Op (List SidFailure)
  | [] => pure []
  | sid :: rest => do
    if sid ∈ registeredNow then do
      let answer ← preFlightForSid sid rulesJson
      let failures ← runPreFlight registeredNow rulesJson rest
      pure (match answer with
        | .ok warnings =>
          (warnings.filter PreFlightWarning.blocksActivation).map (fun w => (w.sid, w.message)) ++
            failures
        | .error failure => failure :: failures)
    else do
      let failures ← runPreFlight registeredNow rulesJson rest
      pure ((sid, "SID left ActiveSidRegistry between Phase 1 and pre-flight".toList) :: failures)

def stillInheriting (principal : Text) (sids : List Text) : Op (List Text) :=
  if principal ≠ baselinePrincipal then pure sids else inheriting sids

structure Phase2Outcome where
  succeeded : List Text
  failed : List SidFailure

def Phase2Outcome.touched (phase2 : Phase2Outcome) : List Text :=
  (phase2.succeeded ++ phase2.failed.map Prod.fst).dedup

def phase2Apply (rulesJson : Text) : List Text → Op Phase2Outcome
  | [] => pure ⟨[], []⟩
  | sid :: rest => do
    let answer ← applyForSid sid rulesJson
    let others ← phase2Apply rulesJson rest
    pure (match answer with
      | none => { others with succeeded := sid :: others.succeeded }
      | some failure => { others with failed := failure :: others.failed })

def revertToPrevious (previousRulesJson : Text) : List Text → Op (List Text × List SidFailure)
  | [] => pure ([], [])
  | sid :: rest => do
    let answer ← revertForSid sid previousRulesJson
    let (reverted, failures) ← revertToPrevious previousRulesJson rest
    pure (match answer with
      | none => (sid :: reverted, failures)
      | some failure => (reverted, failure :: failures))

def Phase1Outcome.previousRules (phase1 : Phase1Outcome) : Text :=
  (phase1.previousRevision.map RevisionRecord.rulesJson).getD ['{', '}']

def joinFailures (failures : List SidFailure) : Text :=
  "; ".toList.intercalate (failures.map fun (sid, message) => sid ++ '=' :: message)

def revertFailures (failures : List SidFailure) : Text :=
  if failures = [] then []
  else "; revert failed for ".toList ++ numeral 10 failures.length ++ " SID(s): ".toList ++
    joinFailures failures

/-- The change of status and the pointer are one commit. -/
def recordActivation (principal revisionId : Text) (previousId : Option Text) (now : Int64) :
    Session Tables Commit PolicyError Unit :=
  .transaction (.activation principal revisionId) do
    during "mark_apply_succeeded" <|
      markApplySucceededFor C.digests C.signingKey principal revisionId previousId now
    during "set_active_pointer" <|
      setActivePointerFor C.digests C.signingKey principal ⟨revisionId, now, none⟩

def phase3aSuccess (principal revisionId : Text) (phase1 : Phase1Outcome)
    (drift : List SidFailure) (now : Int64) : Op ActivationOutcome := do
  let verdict ← withTables "verify_row_hmac" <|
    .read fun t => verifyRowHmac C.digests C.signingKey t revisionId
  if verdict = some .tampered then
    .fail (.storageFailure "verify_row_hmac".toList (.internal revisionId))
  else do
  underLock <| recordActivation C principal revisionId
    (phase1.previousRevision.map RevisionRecord.revisionId) now
  let _ ← clearMarker
  if drift = [] then pure (.activated revisionId now)
  else pure (.appliedWithDrift revisionId
    (phase1.sids.filter fun sid => drift.all fun failure => failure.1 ≠ sid) drift)

def rejectCandidate (principal revisionId reason : Text) : Op Unit :=
  withTables "mark_apply_failed" <|
    markApplyFailedFor C.digests C.signingKey principal revisionId reason

def markerCleared : Op Unit := do
  let failed ← clearMarker
  match failed with
  | some message => .fail (.markerWriteFailed message)
  | none => pure ()

def phase3bRevertAndReject (principal revisionId : Text) (phase1 : Phase1Outcome)
    (phase2 : Phase2Outcome) : Op ActivationOutcome := do
  let (reverted, failures) ← revertToPrevious phase1.previousRules phase2.touched
  let reason := numeral 10 phase2.failed.length ++ " SID(s) failed Phase 2: ".toList ++
    joinFailures phase2.failed ++ revertFailures failures
  rejectCandidate C principal revisionId reason
  markerCleared
  pure (.rolledBackOnFailure revisionId reverted reason)

def phase3bPreFlightFailed (principal revisionId : Text) (sidFailures : List SidFailure) :
    Op ActivationOutcome := do
  rejectCandidate C principal revisionId
    ("pre-flight rejected ".toList ++ numeral 10 sidFailures.length ++ " SID(s)".toList)
  markerCleared
  pure (.preFlightFailed revisionId sidFailures)

def phase3aUnrecorded {α : Type} (principal revisionId : Text) (phase1 : Phase1Outcome)
    (touched : List Text) (error : PolicyError) : Op α := do
  let (_, failures) ← revertToPrevious phase1.previousRules touched
  let reason := "activation could not be recorded: ".toList ++ C.display error ++
    revertFailures failures
  let _ ← (rejectCandidate C principal revisionId reason).attempt
  let _ ← clearMarker
  .fail (.activationNotRecorded revisionId reason)

def rulesChangedElsewhere : Text := "rules-changed-elsewhere".toList

def refuseIfRulesMoved (principal revisionId base : Text) : Op Unit := do
  let current ← baseRevisionFor principal
  match current with
  | .error message => .fail (.storageFailure "base_revision".toList (.internal message))
  | .ok current =>
    if current = base then pure ()
    else do
      let _ ← (rejectCandidate C principal revisionId rulesChangedElsewhere).attempt
      .fail .rulesChangedElsewhere

/-- A caller that does not say what its write is based on is not held to it. -/
def checkBase (principal revisionId : Text) : Option Text → Op Unit
  | none => pure ()
  | some base => refuseIfRulesMoved C principal revisionId base

def applyAndSettle (principal revisionId : Text) (record : RevisionRecord)
    (phase1 : Phase1Outcome) (policy : ApplyFailurePolicy) (now : Int64) :
    Op ActivationOutcome := do
  let targets ← stillInheriting principal phase1.sids
  let phase2 ← phase2Apply record.rulesJson targets
  if policy ≠ .bestEffort ∧ phase2.failed ≠ [] then
    phase3bRevertAndReject C principal revisionId phase1 phase2
  else do
    let drift := if policy = .bestEffort then phase2.failed else []
    let committed ← (phase3aSuccess C principal revisionId phase1 drift now).attempt
    match committed with
    | .ok outcome => pure outcome
    | .error error => phase3aUnrecorded C principal revisionId phase1 phase2.touched error

def activateOver (revisionId token : Text) (base : Option Text) : Op ActivationOutcome :=
  withPass do
    let record ← loadRecord C revisionId
    expectCandidate revisionId record
    let principal ← ownerOf revisionId
    checkBase C principal revisionId base
    let now ← askNow
    let phase1 ← phase1ConsumeAndMark C principal revisionId token now
    let policy ← failurePolicy
    if policy = .preFlightThenAllOrNothing then do
      let registeredNow ← applyTargetSids principal
      let failures ← runPreFlight registeredNow record.rulesJson phase1.sids
      if failures ≠ [] then phase3bPreFlightFailed C principal revisionId failures
      else applyAndSettle C principal revisionId record phase1 policy now
    else applyAndSettle C principal revisionId record phase1 policy now

end NetRuleRouter.Activation
