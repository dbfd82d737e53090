import NetRuleRouter.FlatJson
import NetRuleRouter.Sha256
import NetRuleRouter.Sorting

/-!
# Stored revisions and their tags

The tables of the state database that rules are kept in: revisions, the
pointer to the active one, and the tokens a user confirmed a change with. A
tag is the keyed hash of every field with its name and its length in front.
SQLite keeps in a column whatever was written there, so a row another program
wrote may hold a value the service cannot read.
-/

set_option autoImplicit false

namespace NetRuleRouter.RevisionRecords
open TextOps Utf8

def hmacByteLen : ℕ := 32

/-- HMAC-SHA256, key first, and SHA-256. -/
structure Digests where
  hmac : Bytes → Bytes → Bytes
  sha256 : Bytes → Bytes
  hmac_length : ∀ key data, (hmac key data).length = hmacByteLen

def sha2Digests : Digests := ⟨Sha256.hmac, Sha256.sha256, fun _ _ => Sha256.sha256_length _⟩

def beBytes (n : UInt64) : Bytes :=
  ([56, 48, 40, 32, 24, 16, 8, 0] : List UInt64).map fun shift => (n >>> shift).toUInt8

def feedLabel (label : Bytes) : Bytes := beBytes (.ofNat label.length) ++ label

def feedFieldBytes (label value : Bytes) : Bytes :=
  feedLabel label ++ 1 :: (beBytes (.ofNat value.length) ++ value)

def feedFieldStrOpt (label : Bytes) : Option Text → Bytes
  | some v => feedFieldBytes label (encode v)
  | none => feedLabel label ++ [0]

def feedFieldI64 (label : Bytes) (value : Int64) : Bytes :=
  feedLabel label ++ 1 :: beBytes value.toUInt64

def feedFieldI64Opt (label : Bytes) : Option Int64 → Bytes
  | some v => feedFieldI64 label v
  | none => feedLabel label ++ [0]

inductive HmacVerification where
  | verified
  | unsigned
  | tampered
  deriving DecidableEq, Repr

section
variable (H : Digests)

def verifyTag (storedHmac key fed : Bytes) : HmacVerification :=
  if storedHmac = [] then .unsigned
  else if H.hmac key fed = storedHmac then .verified
  else .tampered

theorem hmac_ne_nil (key fed : Bytes) : H.hmac key fed ≠ [] := by
  intro h
  have hlen := H.hmac_length key fed
  rw [h] at hlen
  cases hlen

theorem verify_tag_own (key fed : Bytes) : verifyTag H (H.hmac key fed) key fed = .verified := by
  rw [verifyTag, if_neg (hmac_ne_nil H key fed), if_pos rfl]

theorem verify_tag_verified {storedHmac key fed : Bytes} :
    verifyTag H storedHmac key fed = .verified ↔ H.hmac key fed = storedHmac := by
  constructor
  · intro h
    unfold verifyTag at h
    split_ifs at h with h1 h2
    exact h2
  · rintro rfl
    exact verify_tag_own H key fed

theorem verify_tag_tampered {storedHmac key fed : Bytes} :
    verifyTag H storedHmac key fed = .tampered ↔
      storedHmac ≠ [] ∧ H.hmac key fed ≠ storedHmac := by
  unfold verifyTag
  split_ifs with h1 h2
  · simp [h1]
  · simp [h2]
  · simp [h1, h2]

def rulesAnchorDomain : Text := "rules-anchor-v1".toList

def feedRulesAnchor (record : Bytes) : Bytes :=
  feedLabel (encode rulesAnchorDomain) ++ feedLabel record

def computeRulesAnchorHmac (record key : Bytes) : Bytes := H.hmac key (feedRulesAnchor record)

def verifyRulesAnchor (record stored key : Bytes) : HmacVerification :=
  verifyTag H stored key (feedRulesAnchor record)

end

def baselinePrincipal : Text := "__baseline__".toList

inductive RevisionStatus where
  | candidate
  | active
  | superseded
  | rolledBack
  | rejected
  deriving DecidableEq, Repr

def RevisionStatus.asSlug : RevisionStatus → Text
  | candidate => "candidate".toList
  | active => "active".toList
  | superseded => "superseded".toList
  | rolledBack => "rolled-back".toList
  | rejected => "rejected".toList

inductive RulesRevisionSource where
  | guiRulesEdit
  | presetImport
  | recoveryLkg
  | rollback
  deriving DecidableEq, Repr

def RulesRevisionSource.asSlug : RulesRevisionSource → Text
  | guiRulesEdit => "gui-rules-edit".toList
  | presetImport => "preset-import".toList
  | recoveryLkg => "recovery-lkg".toList
  | rollback => "rollback".toList

inductive RiskLevel where
  | low
  | medium
  | high
  | critical
  deriving DecidableEq, Repr

def riskLevelToSlug : RiskLevel → Text
  | .low => "low".toList
  | .medium => "medium".toList
  | .high => "high".toList
  | .critical => "critical".toList

structure RevisionRecord where
  revisionId : Text
  contentHash : Text
  rulesJson : Text
  status : RevisionStatus
  source : RulesRevisionSource
  correlationId : Text
  createdAt : Int64
  activatedAt : Option Int64
  supersededAt : Option Int64
  supersededBy : Option Text
  rejectedReason : Option Text
  reviewSummaryJson : Option Text
  riskLevel : Option RiskLevel
  deriving DecidableEq

structure ActiveRevisionPointer where
  revisionId : Text
  activatedAt : Int64
  applyAttemptId : Option Text
  deriving DecidableEq

structure StoredMutationToken where
  token : Text
  principal : Text
  mutationPayloadJson : Text
  issuedAt : Int64
  expiresAt : Int64
  consumed : Bool
  deriving DecidableEq

def feedText (label : String) (value : Text) : Bytes :=
  feedFieldBytes (encode label.toList) (encode value)

def feedTextOpt (label : String) (value : Option Text) : Bytes :=
  feedFieldStrOpt (encode label.toList) value

def feedTime (label : String) (value : Int64) : Bytes := feedFieldI64 (encode label.toList) value

def feedTimeOpt (label : String) (value : Option Int64) : Bytes :=
  feedFieldI64Opt (encode label.toList) value

def feedRow (principal : Text) (record : RevisionRecord) : Bytes :=
  feedTimeOpt "activated_at" record.activatedAt ++
  feedText "content_hash" record.contentHash ++
  feedText "correlation_id" record.correlationId ++
  feedTime "created_at" record.createdAt ++
  feedText "principal" principal ++
  feedTextOpt "rejected_reason" record.rejectedReason ++
  feedTextOpt "review_summary_json" record.reviewSummaryJson ++
  feedText "revision_id" record.revisionId ++
  feedTextOpt "risk_level" (record.riskLevel.map riskLevelToSlug) ++
  feedText "rules_json" record.rulesJson ++
  feedText "source" record.source.asSlug ++
  feedText "status" record.status.asSlug ++
  feedTimeOpt "superseded_at" record.supersededAt ++
  feedTextOpt "superseded_by" record.supersededBy

def pointerDomain : Text := "active-revision-pointer-v1".toList

def decimal (n : Int64) : Text := FlatJson.printInt n.toInt

def feedPointer (principal : Text) (pointer : ActiveRevisionPointer) : Bytes :=
  [pointerDomain, principal, pointer.revisionId, decimal pointer.activatedAt,
    pointer.applyAttemptId.getD []].flatMap fun part => feedLabel (encode part)

variable (H : Digests)

def computeHmac (principal : Text) (record : RevisionRecord) (key : Bytes) : Bytes :=
  H.hmac key (feedRow principal record)

def verify (principal : Text) (record : RevisionRecord) (storedHmac key : Bytes) :
    HmacVerification :=
  verifyTag H storedHmac key (feedRow principal record)

def computePointerHmac (principal : Text) (pointer : ActiveRevisionPointer) (key : Bytes) :
    Bytes :=
  H.hmac key (feedPointer principal pointer)

def verifyPointer (principal : Text) (pointer : ActiveRevisionPointer) (storedHmac key : Bytes) :
    HmacVerification :=
  verifyTag H storedHmac key (feedPointer principal pointer)

/-- What stands in a tag column. Nothing holds a writer to a blob. -/
inductive TagColumn where
  | blob (bytes : Bytes)
  | notBlob
  deriving DecidableEq

structure RevisionRow where
  principal : Text
  record : RevisionRecord
  rowHmac : TagColumn
  /-- Whether every other column holds a value of the type it is read as. -/
  typed : Bool
  deriving DecidableEq

structure PointerRow where
  principal : Text
  pointer : ActiveRevisionPointer
  rowHmac : TagColumn
  typed : Bool
  deriving DecidableEq

structure Tables where
  revisions : List RevisionRow
  pointers : List PointerRow
  tokens : List StoredMutationToken
  deriving DecidableEq

def RevisionRow.revisionId (row : RevisionRow) : Text := row.record.revisionId

def RevisionRow.isActive (row : RevisionRow) : Bool := row.record.status = .active

/-- What the declarations of the tables keep of their rows, whoever writes them. The
reference from a pointer to its revision is not held by a writer that leaves it off. -/
structure Tables.Schema (t : Tables) : Prop where
  revision_key : (t.revisions.map fun row => (row.principal, row.revisionId)).Nodup
  one_active : ((t.revisions.filter RevisionRow.isActive).map RevisionRow.principal).Nodup
  pointer_key : (t.pointers.map PointerRow.principal).Nodup
  token_key : (t.tokens.map StoredMutationToken.token).Nodup

def RevisionRow.Signed (key : Bytes) (row : RevisionRow) : Prop :=
  row.typed = true ∧ row.rowHmac = .blob (computeHmac H row.principal row.record key)

def PointerRow.Signed (key : Bytes) (row : PointerRow) : Prop :=
  row.typed = true ∧ row.rowHmac = .blob (computePointerHmac H row.principal row.pointer key)

/-- Something stands in the tag column, and it is not the tag of the row. -/
def RevisionRow.Forged (key : Bytes) (row : RevisionRow) : Prop :=
  row.rowHmac ≠ .blob [] ∧ row.rowHmac ≠ .blob (computeHmac H row.principal row.record key)

instance (key : Bytes) (row : RevisionRow) : Decidable (row.Signed H key) :=
  inferInstanceAs (Decidable (_ ∧ _))

instance (key : Bytes) (row : PointerRow) : Decidable (row.Signed H key) :=
  inferInstanceAs (Decidable (_ ∧ _))

instance (key : Bytes) (row : RevisionRow) : Decidable (row.Forged H key) :=
  inferInstanceAs (Decidable (_ ∧ _))

theorem verify_own (principal : Text) (record : RevisionRecord) (key : Bytes) :
    verify H principal record (computeHmac H principal record key) key = .verified :=
  verify_tag_own H key _

variable {principal : Text} {storedHmac key : Bytes} {record : RevisionRecord}

theorem verify_verified :
    verify H principal record storedHmac key = .verified ↔
      storedHmac = computeHmac H principal record key := by
  rw [verify, verify_tag_verified, computeHmac, eq_comm]

theorem verify_tampered :
    verify H principal record storedHmac key = .tampered ↔
      storedHmac ≠ [] ∧ storedHmac ≠ computeHmac H principal record key := by
  rw [verify, verify_tag_tampered, computeHmac, ne_comm (a := H.hmac key _)]

theorem verify_pointer_verified {pointer : ActiveRevisionPointer} :
    verifyPointer H principal pointer storedHmac key = .verified ↔
      storedHmac = computePointerHmac H principal pointer key := by
  rw [verifyPointer, verify_tag_verified, computePointerHmac, eq_comm]

end NetRuleRouter.RevisionRecords
