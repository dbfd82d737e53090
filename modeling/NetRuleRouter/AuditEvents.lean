import NetRuleRouter.Numerals
import NetRuleRouter.TextLines
import NetRuleRouter.Utf8

/-!
# Audit events and their hashes

An audit event is one line of JSON that carries the hash of the event before
it and its own. The hash covers the line as it was written with its own hash
emptied, where that place is spelled once, and a fresh rendering of the event
otherwise; for a line the writer wrote the two are one text.
-/

set_option autoImplicit false

namespace NetRuleRouter.AuditEvents
open TextOps Numerals TextLines Utf8

structure AuditEvent where
  schemaVersion : UInt16
  seq : UInt64
  eventId : Text
  kind : Text
  createdAt : Int64
  actorKind : Text
  actorIdHash : Option Text
  revisionId : Option Text
  riskLevel : Option Text
  result : Text
  reasonCode : Text
  payloadSummaryJson : Option Text
  sealText : Option Text
  prevHash : Option Text
  eventHash : Text
  deriving DecidableEq, Repr

def auditEventSchemaVersion : UInt16 := 1

def auditChainGenesis : Text := List.replicate 64 '0'

inductive AuditEventKind where
  | importCreated
  | reviewApproved
  | reviewRejected
  | revisionActivated
  | rollbackStarted
  | rollbackCompleted
  | tamperAlertRaised
  | tamperAlertAcknowledged
  | tamperAlertResolved
  | integrityFailureDetected
  | recoveryActionRequested
  | privilegedRequestAdmitted
  | dbTamperDetected
  | keyResetWithExistingData
  | untrustedRevisionRejected
  | auditChainRestarted
  | integrityCheckUnavailable
  | provisioningRefused
  | protectionOverrideGranted
  | protectionOverrideRevoked
  | rulesStoreRolledBack
  deriving DecidableEq, Repr

def AuditEventKind.asStr : AuditEventKind → Text
  | .importCreated => "import_created".toList
  | .reviewApproved => "review_approved".toList
  | .reviewRejected => "review_rejected".toList
  | .revisionActivated => "revision_activated".toList
  | .rollbackStarted => "rollback_started".toList
  | .rollbackCompleted => "rollback_completed".toList
  | .tamperAlertRaised => "tamper_alert_raised".toList
  | .tamperAlertAcknowledged => "tamper_alert_acknowledged".toList
  | .tamperAlertResolved => "tamper_alert_resolved".toList
  | .integrityFailureDetected => "integrity_failure_detected".toList
  | .recoveryActionRequested => "recovery_action_requested".toList
  | .privilegedRequestAdmitted => "privileged_request_admitted".toList
  | .dbTamperDetected => "db_tamper_detected".toList
  | .keyResetWithExistingData => "key_reset_with_existing_data".toList
  | .untrustedRevisionRejected => "untrusted_revision_rejected".toList
  | .auditChainRestarted => "audit_chain_restarted".toList
  | .integrityCheckUnavailable => "integrity_check_unavailable".toList
  | .provisioningRefused => "provisioning_refused".toList
  | .protectionOverrideGranted => "protection_override_granted".toList
  | .protectionOverrideRevoked => "protection_override_revoked".toList
  | .rulesStoreRolledBack => "rules_store_rolled_back".toList

inductive ActorKind where
  | user
  | service
  | system
  deriving DecidableEq, Repr

def ActorKind.asStr : ActorKind → Text
  | .user => "user".toList
  | .service => "service".toList
  | .system => "system".toList

inductive AuditEventResult where
  | success
  | failure
  | blocked
  deriving DecidableEq, Repr

def AuditEventResult.asStr : AuditEventResult → Text
  | .success => "success".toList
  | .failure => "failure".toList
  | .blocked => "blocked".toList

structure AuditEventInput where
  eventId : Text
  kind : AuditEventKind
  createdAt : Int64
  actorKind : ActorKind
  actorIdHash : Option Text
  revisionId : Option Text
  riskLevel : Option Text
  result : AuditEventResult
  reasonCode : Text
  payloadSummaryJson : Option Text
  deriving DecidableEq, Repr

structure AuditRestartKey where
  bytes : Bytes
  deriving DecidableEq, Repr

def hashKey : Text := "\"event_hash\":\"".toList

def hashField (hash : Text) : Text := hashKey ++ hash ++ ['"']

def isHexText (t : Text) : Bool := t.all (isDigit 16)

/-- What the trail takes from the JSON and hash libraries: a reader and a writer of events, the
SHA-256 of a text in lowercase hexadecimal and the HMAC of a text under a key. -/
structure AuditCodec where
  parse : Text → Option AuditEvent
  render : AuditEvent → Text
  sha256 : Text → Text
  mac : AuditRestartKey → Text → Bytes
  /-- An event is read back from its rendering. -/
  parse_render : ∀ e, parse (render e) = some e
  /-- The hash is the last member, and no other member depends on it. -/
  render_hash : ∀ e : AuditEvent, ∃ front, ∀ hash, isHexText hash = true →
    render { e with eventHash := hash } = front ++ ',' :: (hashField hash ++ ['}'])
  render_one_line : ∀ e, '\n' ∉ render e
  /-- A rendering cut short is no event. -/
  parse_cut : ∀ e t, t <+: render e → t ≠ render e → parse t = none
  /-- Emptying the hash where a line spells it once leaves every other member as it is. -/
  parse_emptied : ∀ line e, parse line = some e → isHexText e.eventHash = true →
    occurrences (hashField e.eventHash) line = 1 → ∃ hash,
      parse (replaceFirst (hashField e.eventHash) (hashField []) line) =
        some { e with eventHash := hash }
  sha256_length : ∀ t, (sha256 t).length = 64
  sha256_hex : ∀ t, isHexText (sha256 t) = true

variable (C : AuditCodec)

def computeChainHash (prevHash canonicalJson : Text) : Text := C.sha256 (prevHash ++ canonicalJson)

def parseEvent (line : Text) : Option (AuditEvent × Text) :=
  (C.parse line).map fun event =>
    (event,
      if event.eventHash ≠ [] ∧ occurrences (hashField event.eventHash) line = 1 then
        replaceFirst (hashField event.eventHash) (hashField []) line
      else C.render { event with eventHash := [] })

def claimedPrev (event : AuditEvent) : Text := event.prevHash.getD auditChainGenesis

def blankEvent (input : AuditEventInput) (seq : UInt64) (prevHash : Text) : AuditEvent where
  schemaVersion := auditEventSchemaVersion
  seq := seq
  eventId := input.eventId
  kind := input.kind.asStr
  createdAt := input.createdAt
  actorKind := input.actorKind.asStr
  actorIdHash := input.actorIdHash
  revisionId := input.revisionId
  riskLevel := input.riskLevel
  result := input.result.asStr
  reasonCode := input.reasonCode
  payloadSummaryJson := input.payloadSummaryJson
  sealText := none
  prevHash := if prevHash = auditChainGenesis then none else some prevHash
  eventHash := []

def hashed (event : AuditEvent) (prevHash : Text) : AuditEvent :=
  { event with
    eventHash := computeChainHash C prevHash (C.render { event with eventHash := [] }) }

def buildEvent (input : AuditEventInput) (seq : UInt64) (prevHash : Text) : AuditEvent :=
  hashed C (blankEvent input seq prevHash) prevHash

def hexByte (b : UInt8) : Text := [digitChar (b.toNat / 16), digitChar (b.toNat % 16)]

/-- Two characters of a seal, as `u8::from_str_radix` reads them: a plus sign may lead. -/
def byteOfHex (a b : Char) : Option UInt8 :=
  if a = '+' then (toDigit 16 b).map UInt8.ofNat
  else (toDigit 16 a).bind fun h => (toDigit 16 b).map fun l => UInt8.ofNat (16 * h + l)

def decodeHex : Text → Option Bytes
  | [] => some []
  | [_] => none
  | a :: b :: rest => (byteOfHex a b).bind fun x => (decodeHex rest).map (x :: ·)

def unsealedBytes (event : AuditEvent) : Text :=
  C.render { event with sealText := none, eventHash := [] }

def sealEvent (event : AuditEvent) (key : AuditRestartKey) : AuditEvent :=
  { event with sealText := some ((C.mac key (unsealedBytes C event)).flatMap hexByte) }

def isSealedRestart (event : AuditEvent) (key : Option AuditRestartKey) : Bool :=
  match key, event.sealText with
  | some key, some tag =>
    event.kind == AuditEventKind.auditChainRestarted.asStr &&
      decodeHex tag == some (C.mac key (unsealedBytes C event))
  | _, _ => false

def buildSealedEvent (input : AuditEventInput) (seq : UInt64) (prevHash : Text)
    (key : AuditRestartKey) : AuditEvent :=
  hashed C (sealEvent C (blankEvent input seq prevHash) key) prevHash

variable {C} {event : AuditEvent}

theorem comma_not_in_hash_key : ',' ∉ hashKey := by decide

theorem hex_digits {t : Text} (h : isHexText t = true) : ∀ c ∈ t, isDigit 16 c = true := by
  unfold isHexText at h
  exact List.all_eq_true.mp h

theorem comma_not_in_hash_field {hash : Text} (h : isHexText hash = true) :
    ',' ∉ hashField hash := by
  have hcomma : isDigit 16 ',' = false := by decide
  intro hmem
  rw [hashField, List.mem_append, List.mem_append] at hmem
  rcases hmem with (hmem | hmem) | hmem
  · exact comma_not_in_hash_key hmem
  · simp [hex_digits h _ hmem] at hcomma
  · simp at hmem

theorem hash_field_ne_nil (hash : Text) : hashField hash ≠ [] :=
  List.append_ne_nil_of_right_ne_nil _ (by simp)

theorem parse_event_render {e : AuditEvent} (hhex : isHexText e.eventHash = true) :
    parseEvent C (C.render e) = some (e, C.render { e with eventHash := [] }) := by
  obtain ⟨front, hfront⟩ := C.render_hash e
  rw [parseEvent, C.parse_render, Option.map_some]
  split
  · rename_i honce
    have hself : C.render e = front ++ ',' :: (hashField e.eventHash ++ ['}']) :=
      hfront e.eventHash hhex
    rw [hself] at honce ⊢
    rw [replace_only_place (comma_not_in_hash_field hhex) (hash_field_ne_nil _) _ _ honce.2,
      hfront [] rfl]
  · rfl

theorem render_ne_nil (e : AuditEvent) : C.render e ≠ [] := by
  intro h
  have hnone := C.parse_cut { e with seq := e.seq + 1 } [] List.nil_prefix ?_
  · have hsome := C.parse_render e
    rw [h, hnone] at hsome
    cases hsome
  · intro hnil
    have hsome := C.parse_render { e with seq := e.seq + 1 }
    rw [← hnil, ← h, C.parse_render] at hsome
    have hseq : e.seq = e.seq + 1 := congrArg AuditEvent.seq (Option.some.inj hsome)
    simp at hseq

theorem hashed_hex (event : AuditEvent) (prevHash : Text) :
    isHexText (hashed C event prevHash).eventHash = true := C.sha256_hex _

theorem hashed_hash (event : AuditEvent) (prevHash : Text) :
    (hashed C event prevHash).eventHash =
      computeChainHash C prevHash (C.render { hashed C event prevHash with eventHash := [] }) := rfl

theorem blank_event_claims (input : AuditEventInput) (seq : UInt64) (prevHash : Text) :
    claimedPrev (blankEvent input seq prevHash) = prevHash := by
  unfold claimedPrev blankEvent
  dsimp only
  split
  · rename_i h
    exact h.symm
  · rfl

theorem unsealed_not_restart (h : event.sealText = none)
    (key : Option AuditRestartKey) : isSealedRestart C event key = false := by
  unfold isSealedRestart
  rw [h]
  cases key <;> rfl

theorem decode_hex_bytes (bytes : Bytes) : decodeHex (bytes.flatMap hexByte) = some bytes := by
  induction bytes with
  | nil => rfl
  | cons b bytes ih =>
    have hb : b.toNat < 256 := b.toNat_lt
    have hhigh := to_digit_digit_char 16 (by simp) (b.toNat / 16) (by omega)
    have hlow := to_digit_digit_char 16 (by simp) (b.toNat % 16) (by omega)
    have hplus : digitChar (b.toNat / 16) ≠ '+' := by
      intro h
      rw [h] at hhigh
      revert hhigh
      simp [toDigit]
    have hsum : 16 * (b.toNat / 16) + b.toNat % 16 = b.toNat := by omega
    rw [List.flatMap_cons]
    simp only [hexByte, List.cons_append, List.nil_append, decodeHex, byteOfHex, if_neg hplus,
      hhigh, hlow, Option.bind_some, Option.map_some, hsum]
    rw [show List.flatMap _ bytes = bytes.flatMap hexByte from rfl, ih]
    simp

theorem sealed_restart
    (hkind : event.kind = AuditEventKind.auditChainRestarted.asStr) (key : AuditRestartKey)
    (prevHash : Text) :
    isSealedRestart C (hashed C (sealEvent C event key) prevHash) (some key) = true := by
  simp [isSealedRestart, hashed, sealEvent, unsealedBytes, hkind, decode_hex_bytes]

end NetRuleRouter.AuditEvents
