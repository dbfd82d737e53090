import NetRuleRouter.RevisionRecords
import NetRuleRouter.Sessions

/-!
# The revisions repository

Queries over the tables and the statements that move a revision through its
states. Every such statement rewrites signed columns, so the row is signed
again by a statement of its own.
-/

set_option autoImplicit false

namespace NetRuleRouter.RevisionStore
open TextOps Utf8 RevisionRecords Sorting Sessions

inductive StorageError where
  | internal (context : Text)
  /-- An update that was to move one row moved another number of them. -/
  | notOneRow (context : Text) (updated : ℕ) (revisionId principal : Text)
  /-- `IntegrityFailed(PolicyRevisionCorrupt)`. -/
  | integrityFailed
  deriving DecidableEq

/-- What is committed to the tables, by one statement or by a transaction, and passing the
gate in front of an activation, which stores nothing. -/
inductive Commit where
  | gate
  | candidateInserted (principal revisionId : Text)
  | statusSet (principal revisionId : Text) (status : RevisionStatus)
  | candidatesRejected
  | rowSigned (principal revisionId : Text)
  | rowsDeleted (principal : Text)
  | pointerSet (principal revisionId : Text)
  | pointerCleared (principal : Text)
  | tokenIssued (principal token payload : Text) (expiresAt : Int64)
  | tokenConsumed (principal token payload : Text) (now : Int64)
  | activation (principal revisionId : Text)
  | retirement (principal revisionId : Text)
  | orphansRejected
  deriving DecidableEq

abbrev StoreSession (β : Type) := Session Tables Commit StorageError β

def rowToRecord (context : String) (row : RevisionRow) : Except StorageError RevisionRecord :=
  if row.typed then .ok row.record else .error (.internal context.toList)

def readRow (context : String) (row : RevisionRow) :
    Except StorageError (Text × RevisionRecord × Bytes) :=
  match rowToRecord context row, row.rowHmac with
  | .error e, _ => .error e
  | .ok _, .notBlob => .error (.internal context.toList)
  | .ok record, .blob tag => .ok (row.principal, record, tag)

def queryRow (context : String) : Option RevisionRow → Except StorageError (Option RevisionRecord)
  | none => .ok none
  | some row => (rowToRecord context row).map some

def getById (t : Tables) (revisionId : Text) : Except StorageError (Option RevisionRecord) :=
  queryRow "revisions get_by_id" (t.revisions.find? fun row => row.revisionId = revisionId)

def principalOf (t : Tables) (revisionId : Text) : Option Text :=
  (t.revisions.find? fun row => row.revisionId = revisionId).map RevisionRow.principal

def getByIdFor (t : Tables) (principal revisionId : Text) :
    Except StorageError (Option RevisionRecord) :=
  queryRow "revisions get_by_id_for"
    (t.revisions.find? fun row => row.principal = principal && row.revisionId = revisionId)

def findByContentHashFor (t : Tables) (principal hash : Text) :
    Except StorageError (Option RevisionRecord) :=
  let found := t.revisions.filter fun row =>
    row.principal = principal && row.record.contentHash = hash
  queryRow "revisions find_by_content_hash"
    (sortBy (fun a b => compare b.record.createdAt a.record.createdAt) found).head?

def activeRow (t : Tables) (principal : Text) : Option RevisionRow :=
  t.revisions.find? fun row => row.principal = principal && row.isActive

def getActiveFor (t : Tables) (principal : Text) : Except StorageError (Option RevisionRecord) :=
  queryRow "revisions get_active" (activeRow t principal)

def activeIdentityFor (t : Tables) (principal : Text) :
    Except StorageError (Option (Text × Text)) :=
  (queryRow "revisions active_identity_for" (activeRow t principal)).map
    (Option.map fun record => (record.revisionId, record.contentHash))

def laterFirst (a b : Option Int64) : Ordering :=
  match a, b with
  | none, none => .eq
  | none, some _ => .gt
  | some _, none => .lt
  | some x, some y => compare y x

def newestSuperseded (rows : List RevisionRow) : Option RevisionRow :=
  (sortBy (fun a b => laterFirst a.record.supersededAt b.record.supersededAt)
    rows.reverse).head?

def lastKnownGoodFor (t : Tables) (principal : Text) :
    Except StorageError (Option RevisionRecord) :=
  let superseded := t.revisions.filter fun row =>
    row.principal = principal && row.record.status = .superseded
  let activeIds := (t.revisions.filter fun row =>
    row.principal = principal && row.isActive).map RevisionRow.revisionId
  let byActive := newestSuperseded <| superseded.filter fun row =>
    row.record.supersededBy.any fun id => activeIds.contains id
  queryRow "revisions last_known_good" (byActive.or (newestSuperseded superseded))

def distinctPrincipals (t : Tables) : List Text :=
  sortBy compare (t.revisions.map RevisionRow.principal).dedup

variable (H : Digests) (key : Option Bytes)

def verdict (principal : Text) (record : RevisionRecord) (stored : Bytes) : HmacVerification :=
  match key with
  | none => .unsigned
  | some key => verify H principal record stored key

def rowWithPrincipalAndHmac (t : Tables) (revisionId : Text) :
    Except StorageError (Option (Text × RevisionRecord × Bytes)) := do
  let rows ← ((t.revisions.filter fun row => row.revisionId = revisionId).take 2).mapM
    (readRow "revisions row_with_principal_and_hmac")
  if rows.length > 1 then .error .integrityFailed else .ok rows.getLast?

def verifyRowHmac (t : Tables) (revisionId : Text) :
    Except StorageError (Option HmacVerification) := do
  let found ← rowWithPrincipalAndHmac t revisionId
  .ok (found.map fun (principal, record, stored) => verdict H key principal record stored)

def verifyAll (t : Tables) : Except StorageError (List (Text × HmacVerification)) := do
  let byAge := sortBy (fun a b => (compare a.record.createdAt b.record.createdAt).then
    (compare a.revisionId b.revisionId)) t.revisions
  let rows ← byAge.mapM (readRow "revisions verify_all")
  .ok (rows.map fun (principal, record, stored) =>
    (record.revisionId, verdict H key principal record stored))

def pointerVerdict (row : PointerRow) (stored : Bytes) : HmacVerification :=
  match key with
  | none => .unsigned
  | some key => verifyPointer H row.principal row.pointer stored key

def readPointer (context : String) (row : PointerRow) :
    Except StorageError ActiveRevisionPointer :=
  if row.typed then .ok row.pointer else .error (.internal context.toList)

def verifyAllPointers (t : Tables) : Except StorageError (List (Text × HmacVerification)) :=
  (sortBy (fun a b => compare a.principal b.principal) t.pointers).mapM fun row =>
    match readPointer "pointer verify_all" row, row.rowHmac with
    | .error e, _ => .error e
    | .ok _, .notBlob => .error (.internal "pointer verify_all".toList)
    | .ok _, .blob stored => .ok (row.principal, pointerVerdict H key row stored)

structure VerifiedHistoryEntry where
  record : RevisionRecord
  verification : HmacVerification
  deriving DecidableEq

def everEnforced (row : RevisionRow) : Bool :=
  row.record.status = .active || row.record.status = .superseded ||
    row.record.status = .rolledBack

/-- When a row stopped being active, or the best that is known of it. -/
def RevisionRecord.endedAt (record : RevisionRecord) : Int64 :=
  (record.supersededAt.or record.activatedAt).getD record.createdAt

/-- The active row first, then by when they stopped being active. -/
def historyOrder (a b : RevisionRow) : Ordering :=
  (compare (if a.isActive then 0 else 1) (if b.isActive then 0 else 1)).then
    (compare (RevisionRecord.endedAt b.record) (RevisionRecord.endedAt a.record))

def activationHistoryFor (t : Tables) (principal : Text) :
    Except StorageError (List VerifiedHistoryEntry) := do
  let found := sortBy historyOrder <| t.revisions.filter fun row =>
    row.principal = principal && everEnforced row
  let rows ← found.mapM (readRow "activation_history_for")
  .ok (rows.map fun (rowPrincipal, record, stored) =>
    ⟨record, verdict H key rowPrincipal record stored⟩)

def updateRevisions (label : Commit) (which : RevisionRow → Bool)
    (change : RevisionRow → RevisionRow) : StoreSession ℕ :=
  Session.execute fun t =>
    let n := t.revisions.countP which
    .ok (n, if n = 0 then none else some (label, { t with
      revisions := t.revisions.map fun row => if which row then change row else row }))

def ofRevision (principal revisionId : Text) (row : RevisionRow) : Bool :=
  row.principal = principal && row.revisionId = revisionId

def inStatus (principal revisionId : Text) (status : RevisionStatus) (row : RevisionRow) : Bool :=
  ofRevision principal revisionId row && row.record.status = status

def reSignRow (revisionId : Text) : StoreSession (Option HmacVerification) :=
  match key with
  | none => pure none
  | some key => do
    let found ← Session.read fun t => rowWithPrincipalAndHmac t revisionId
    match found with
    | none => pure none
    | some (principal, record, stored) => do
      let _ ← updateRevisions (.rowSigned principal revisionId) (ofRevision principal revisionId)
        fun row => { row with rowHmac := .blob (computeHmac H principal record key) }
      pure (some (verify H principal record stored key))

def verdictBeforeTransition (revisionId : Text) : StoreSession (Option HmacVerification) :=
  match key with
  | none => pure none
  | some key => Session.read fun t => verifyRowHmac H (some key) t revisionId

def reSignAfterTransition (revisionId : Text) (before : Option HmacVerification) :
    StoreSession Unit :=
  if before = some .verified ∨ before = some .unsigned then do
    let _ ← reSignRow H key revisionId
    pure ()
  else pure ()

def RevisionRecord.asCandidate (record : RevisionRecord) : RevisionRecord :=
  { record with
    status := .candidate, activatedAt := none, supersededAt := none, supersededBy := none
    rejectedReason := none }

def candidateRow (principal : Text) (record : RevisionRecord) : RevisionRow where
  principal := principal
  record := RevisionRecord.asCandidate record
  rowHmac := .blob <| match key with
    | none => []
    | some key => computeHmac H principal (RevisionRecord.asCandidate record) key
  typed := true

def insertCandidateFor (principal : Text) (record : RevisionRecord) : StoreSession Unit :=
  if principal = [] then
    Session.fail (.internal "insert_candidate: empty principal".toList)
  else if record.revisionId = [] then
    Session.fail (.internal "insert_candidate: empty revision_id".toList)
  else if record.contentHash = [] then
    Session.fail (.internal "insert_candidate: empty content_hash".toList)
  else Session.execute fun t =>
    -- the primary key
    if t.revisions.any (ofRevision principal record.revisionId) then
      .error (.internal "revisions insert".toList)
    else .ok ((), some (.candidateInserted principal record.revisionId,
      { t with revisions := t.revisions ++ [candidateRow H key principal record] }))

def alreadySupersededBy (t : Tables) (principal revisionId targetId : Text) : Bool :=
  t.revisions.any fun row =>
    inStatus principal revisionId .superseded row && row.record.supersededBy = some targetId

def supersedePrevious (principal targetId previousId : Text) (now : Int64) : StoreSession Unit := do
  let superseded ← updateRevisions (.statusSet principal previousId .superseded)
    (inStatus principal previousId .active) fun row => { row with record := { row.record with
      status := .superseded, supersededAt := some now, supersededBy := some targetId } }
  let already ← Session.read fun t => .ok (alreadySupersededBy t principal previousId targetId)
  if superseded ≠ 1 ∧ already = false then
    Session.fail (.notOneRow "revisions supersede previous".toList superseded previousId principal)
  else pure ()

/-- The update fails on the index of active rows when the principal has one already. -/
def activateTarget (principal targetId : Text) (now : Int64) : StoreSession Unit := do
  let taken ← Session.read fun t => .ok ((activeRow t principal).isSome &&
    t.revisions.any (inStatus principal targetId .candidate))
  if taken then Session.fail (.internal "revisions activate target".toList) else do
  let updated ← updateRevisions (.statusSet principal targetId .active)
    (inStatus principal targetId .candidate) fun row => { row with record := { row.record with
      status := .active, activatedAt := some now } }
  if updated ≠ 1 then
    Session.fail (.notOneRow "revisions activate target".toList updated targetId principal)
  else pure ()

def markApplySucceededFor (principal targetId : Text) (previousId : Option Text) (now : Int64) :
    StoreSession Unit := do
  let targetBefore ← verdictBeforeTransition H key targetId
  match previousId with
  | none => do
    activateTarget principal targetId now
    reSignAfterTransition H key targetId targetBefore
  | some previous => do
    let previousBefore ← verdictBeforeTransition H key previous
    supersedePrevious principal targetId previous now
    activateTarget principal targetId now
    reSignAfterTransition H key targetId targetBefore
    reSignAfterTransition H key previous previousBefore

def transition (context : String) (principal revisionId : Text) (old new : RevisionStatus)
    (change : RevisionRecord → RevisionRecord) : StoreSession Unit := do
  let before ← verdictBeforeTransition H key revisionId
  let updated ← updateRevisions (.statusSet principal revisionId new)
    (inStatus principal revisionId old) fun row => { row with record := change row.record }
  if updated ≠ 1 then
    Session.fail (.notOneRow context.toList updated revisionId principal)
  else reSignAfterTransition H key revisionId before

def markApplyFailedFor (principal targetId reason : Text) : StoreSession Unit :=
  transition H key "revisions reject target" principal targetId .candidate .rejected fun record =>
    { record with status := .rejected, rejectedReason := some reason }

def markRolledBackFor (principal revisionId : Text) (now : Int64) : StoreSession Unit :=
  transition H key "revisions rolled_back" principal revisionId .active .rolledBack fun record =>
    { record with status := .rolledBack, supersededAt := some now }

/-- Without a key only rows that carry no tag are touched. -/
def orphaned (row : RevisionRow) : Bool :=
  row.record.status = .candidate && (key.isSome || row.rowHmac = .blob [])

def reSignAll : List (Text × Option HmacVerification) → StoreSession Unit
  | [] => pure ()
  | (id, before) :: rest => do
    reSignAfterTransition H key id before
    reSignAll rest

def verdictsBefore : List Text → StoreSession (List (Text × Option HmacVerification))
  | [] => pure []
  | id :: rest => do
    let before ← verdictBeforeTransition H key id
    let others ← verdictsBefore rest
    pure ((id, before) :: others)

def rejectOrphanedCandidates (reason : Text) : StoreSession ℕ :=
  Session.transaction .orphansRejected do
    let orphanIds ← Session.read fun t =>
      .ok ((t.revisions.filter (orphaned key)).map RevisionRow.revisionId)
    let verdicts ← verdictsBefore H key orphanIds
    let rejected ← updateRevisions .candidatesRejected (orphaned key) fun row =>
      { row with record := { row.record with status := .rejected, rejectedReason := some reason } }
    reSignAll H key verdicts
    pure rejected

def pointerRow (t : Tables) (principal : Text) : Option PointerRow :=
  t.pointers.find? fun row => row.principal = principal

def getActivePointerFor (t : Tables) (principal : Text) :
    Except StorageError (Option ActiveRevisionPointer) :=
  match pointerRow t principal with
  | none => .ok none
  | some row => (readPointer "active_revision_pointer get" row).map some

def signedPointer (principal : Text) (pointer : ActiveRevisionPointer) : PointerRow where
  principal := principal
  pointer := pointer
  rowHmac := .blob <| match key with
    | none => []
    | some key => computePointerHmac H principal pointer key
  typed := true

def upsertPointer (row : PointerRow) (rows : List PointerRow) : List PointerRow :=
  if rows.any fun old => old.principal = row.principal then
    rows.map fun old => if old.principal = row.principal then row else old
  else rows ++ [row]

def setActivePointerFor (principal : Text) (pointer : ActiveRevisionPointer) : StoreSession Unit :=
  Session.execute fun t =>
    -- the reference to the revision
    if t.revisions.any (ofRevision principal pointer.revisionId) then
      .ok ((), some (.pointerSet principal pointer.revisionId,
        { t with pointers := upsertPointer (signedPointer H key principal pointer) t.pointers }))
    else .error (.internal "active_revision_pointer set".toList)

def clearActivePointerFor (principal : Text) : StoreSession Unit :=
  Session.execute fun t => .ok ((), some (.pointerCleared principal,
    { t with pointers := t.pointers.filter fun row => row.principal ≠ principal }))

def deleteAllRevisionsFor (principal : Text) : StoreSession ℕ :=
  if principal = baselinePrincipal then
    Session.fail (.internal "refusing to delete the baseline principal's revisions".toList)
  else do
    clearActivePointerFor principal
    Session.execute fun t =>
      .ok (t.revisions.countP fun row => row.principal = principal,
        some (.rowsDeleted principal,
          { t with revisions := t.revisions.filter fun row => row.principal ≠ principal }))

inductive ConsumeOutcome where
  | consumed (payloadJson : Text)
  | unknown
  | alreadyConsumed
  | expired
  | payloadRejected
  deriving DecidableEq

def getToken (t : Tables) (token : Text) : Option StoredMutationToken :=
  t.tokens.find? fun row => row.token = token

def issueFor (principal token payloadJson : Text) (issuedAt expiresAt : Int64) :
    StoreSession Unit :=
  if principal = [] then Session.fail (.internal "issue: empty principal".toList)
  else if token = [] then Session.fail (.internal "issue: empty token".toList)
  else if expiresAt ≤ issuedAt then
    Session.fail (.internal
      "issue: expires_at must be strictly greater than issued_at".toList)
  else Session.execute fun t =>
    -- the primary key
    if (getToken t token).isSome then .error (.internal "mutation_tokens issue".toList)
    else .ok ((), some (.tokenIssued principal token payloadJson expiresAt, { t with
      tokens := t.tokens ++ [⟨token, principal, payloadJson, issuedAt, expiresAt, false⟩] }))

def burnToken (token : Text) (rows : List StoredMutationToken) : List StoredMutationToken :=
  rows.map fun row => if row.token = token then { row with consumed := true } else row

def consumeForMatching (principal token : Text) (now : Int64) (accepts : Text → Bool) :
    StoreSession ConsumeOutcome :=
  Session.execute fun t =>
    match getToken t token with
    | none => .ok (.unknown, none)
    | some record =>
      if principal ≠ record.principal then .ok (.unknown, none)
      else if record.consumed then .ok (.alreadyConsumed, none)
      else if record.expiresAt < now then .ok (.expired, none)
      else
        let burned := (Commit.tokenConsumed principal token record.mutationPayloadJson now,
          { t with tokens := burnToken token t.tokens })
        if accepts record.mutationPayloadJson then
          .ok (.consumed record.mutationPayloadJson, some burned)
        else .ok (.payloadRejected, some burned)

end NetRuleRouter.RevisionStore
