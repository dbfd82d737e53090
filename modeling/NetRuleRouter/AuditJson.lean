import NetRuleRouter.AuditEvents
import NetRuleRouter.FlatJson

/-!
# Audit events in their own spelling

The rendering of an audit event as the JSON library writes it, members in
order and absent ones left out, and a reader of exactly these renderings. The
pair keeps every law the trail asks of its libraries, with any table of
hashes in place of SHA-256.
-/

set_option autoImplicit false

namespace NetRuleRouter.AuditJson
open TextOps Numerals TextLines Utf8 FlatJson AuditEvents

inductive EventMember where
  | schemaVersion
  | seq
  | eventId
  | kind
  | createdAt
  | actorKind
  | actorIdHash
  | revisionId
  | riskLevel
  | result
  | reasonCode
  | payloadSummaryJson
  | sealText
  | prevHash
  | eventHash
  deriving DecidableEq, Repr

namespace EventMember

def all : List EventMember :=
  [schemaVersion, seq, eventId, kind, createdAt, actorKind, actorIdHash, revisionId, riskLevel,
    result, reasonCode, payloadSummaryJson, sealText, prevHash, eventHash]

def text : EventMember → Text
  | schemaVersion => "schema_version".toList
  | seq => "seq".toList
  | eventId => "event_id".toList
  | kind => "kind".toList
  | createdAt => "created_at".toList
  | actorKind => "actor_kind".toList
  | actorIdHash => "actor_id_hash".toList
  | revisionId => "revision_id".toList
  | riskLevel => "risk_level".toList
  | result => "result".toList
  | reasonCode => "reason_code".toList
  | payloadSummaryJson => "payload_summary_json".toList
  | sealText => "seal".toList
  | prevHash => "prev_hash".toList
  | eventHash => "event_hash".toList

def ofText (t : Text) : Option EventMember := all.find? (·.text == t)

theorem of_text_text (m : EventMember) : ofText m.text = some m := by
  have hall : ∀ m ∈ all, ofText m.text = some m := by decide +kernel
  exact hall m (by cases m <;> simp [all])

end EventMember

abbrev Members := List (EventMember × Scalar)

def optional (m : EventMember) (value : Option Text) : Members :=
  (value.map fun s => (m, Scalar.str s)).toList

def always (m : EventMember) (value : Scalar) : Members := [(m, value)]

def frontMembers (e : AuditEvent) : Members :=
  List.flatten [
    always .schemaVersion (.num e.schemaVersion.toNat), always .seq (.num e.seq.toNat),
    always .eventId (.str e.eventId), always .kind (.str e.kind),
    always .createdAt (.num e.createdAt.toInt), always .actorKind (.str e.actorKind),
    optional .actorIdHash e.actorIdHash, optional .revisionId e.revisionId,
    optional .riskLevel e.riskLevel, always .result (.str e.result),
    always .reasonCode (.str e.reasonCode), optional .payloadSummaryJson e.payloadSummaryJson,
    optional .sealText e.sealText, optional .prevHash e.prevHash]

def membersOf (e : AuditEvent) : Members := frontMembers e ++ [(.eventHash, .str e.eventHash)]

def spelled (ms : Members) : List Member := ms.map fun m => (m.1.text, m.2)

def renderEvent (e : AuditEvent) : Text := printObject (spelled (membersOf e))

def numberAt (ms : Members) (m : EventMember) : Option ℤ :=
  match ms.lookup m with
  | some (.num n) => some n
  | _ => none

def textAt (ms : Members) (m : EventMember) : Option Text :=
  match ms.lookup m with
  | some (.str s) => some s
  | _ => none

def eventOf (ms : Members) : Option AuditEvent := do
  let schemaVersion ← numberAt ms .schemaVersion
  let seq ← numberAt ms .seq
  let eventId ← textAt ms .eventId
  let kind ← textAt ms .kind
  let createdAt ← numberAt ms .createdAt
  let actorKind ← textAt ms .actorKind
  let result ← textAt ms .result
  let reasonCode ← textAt ms .reasonCode
  let eventHash ← textAt ms .eventHash
  return {
    schemaVersion := .ofNat schemaVersion.toNat
    seq := .ofNat seq.toNat
    eventId := eventId
    kind := kind
    createdAt := .ofInt createdAt
    actorKind := actorKind
    actorIdHash := textAt ms .actorIdHash
    revisionId := textAt ms .revisionId
    riskLevel := textAt ms .riskLevel
    result := result
    reasonCode := reasonCode
    payloadSummaryJson := textAt ms .payloadSummaryJson
    sealText := textAt ms .sealText
    prevHash := textAt ms .prevHash
    eventHash := eventHash }

def memberOf (m : Member) : Option (EventMember × Scalar) :=
  (EventMember.ofText m.1).map fun k => (k, m.2)

def readEvent (t : Text) : Option AuditEvent :=
  ((readObject t).bind fun p => (p.1.mapM memberOf).bind eventOf).filter
    fun e => renderEvent e == t

theorem lookup_member (k m : EventMember) (value : Scalar) (ms : Members) :
    List.lookup k ((m, value) :: ms) = if k = m then some value else ms.lookup k := by
  by_cases h : k = m
  · simp [h]
  · have hne : (k == m) = false := by simpa using h
    rw [List.lookup_cons, hne, if_neg h]

theorem lookup_optional (k m : EventMember) (value : Option Text) :
    (optional m value).lookup k = if k = m then value.map Scalar.str else none := by
  cases value with
  | none => simp [optional]
  | some s => simp [optional, lookup_member]

def Scalar.number? : Scalar → Option ℤ
  | .num n => some n
  | .str _ => none

def Scalar.text? : Scalar → Option Text
  | .num _ => none
  | .str s => some s

theorem number_at_eq (ms : Members) (k : EventMember) :
    numberAt ms k = (ms.lookup k).bind Scalar.number? := by
  unfold numberAt
  rcases ms.lookup k with _ | _ | _ <;> rfl

theorem text_at_eq (ms : Members) (k : EventMember) :
    textAt ms k = (ms.lookup k).bind Scalar.text? := by
  unfold textAt
  rcases ms.lookup k with _ | _ | _ <;> rfl

theorem text_of_map (value : Option Text) : (value.map Scalar.str).bind Scalar.text? = value := by
  cases value <;> rfl

theorem event_of_members (e : AuditEvent) : eventOf (membersOf e) = some e := by
  simp [eventOf, number_at_eq, text_at_eq, membersOf, frontMembers, always, List.lookup_append,
    lookup_optional, lookup_member, text_of_map, Scalar.number?, Scalar.text?]

theorem members_spelled (ms : Members) : (spelled ms).mapM memberOf = some ms := by
  induction ms with
  | nil => rfl
  | cons m ms ih =>
    rw [spelled, List.map_cons, List.mapM_cons, memberOf, EventMember.of_text_text]
    change (do
      let rest ← (spelled ms).mapM memberOf
      pure (m :: rest)) = some (m :: ms)
    rw [ih]
    rfl

theorem spelled_ne_nil (e : AuditEvent) : spelled (membersOf e) ≠ [] := by
  simp [spelled, membersOf]

theorem read_event_iff {t : Text} {e : AuditEvent} : readEvent t = some e ↔ renderEvent e = t := by
  rw [readEvent, Option.filter_eq_some_iff, beq_iff_eq]
  constructor
  · exact fun h => h.2
  · intro h
    refine ⟨?_, h⟩
    have hread := read_object (spelled (membersOf e)) (spelled_ne_nil e) []
    rw [List.append_nil] at hread
    rw [← h, renderEvent, hread, Option.bind_some, members_spelled, Option.bind_some,
      event_of_members]

theorem render_event_inj {e e' : AuditEvent} {s t : Text}
    (h : renderEvent e ++ s = renderEvent e' ++ t) : e = e' ∧ s = t := by
  obtain ⟨hms, hst⟩ := print_object_inj (spelled_ne_nil e) (spelled_ne_nil e') h
  refine ⟨?_, hst⟩
  have hmembers := members_spelled (membersOf e)
  rw [hms, members_spelled, Option.some.injEq] at hmembers
  have hevent := event_of_members e
  rw [← hmembers, event_of_members] at hevent
  exact (Option.some.inj hevent).symm

theorem escape_hex {hash : Text} (h : isHexText hash = true) : hash.flatMap escapeChar = hash := by
  have hplain : ∀ c, isDigit 16 c = true → escapeChar c = [c] := by
    intro c hc
    have hrange : 48 ≤ c.toNat := by
      unfold isDigit toDigit at hc
      split_ifs at hc with h1 h2 h3
      · simp only [Bool.and_eq_true, decide_eq_true_eq] at h1
        omega
      · simp only [Bool.and_eq_true, decide_eq_true_eq] at h2
        omega
      · simp only [Bool.and_eq_true, decide_eq_true_eq] at h3
        omega
      · simp at hc
    have hquote : c ≠ '"' := by
      rintro rfl
      revert hc
      decide
    have hslash : c ≠ '\\' := by
      rintro rfl
      revert hc
      decide
    unfold escapeChar escapeOf
    rw [if_neg hquote, if_neg hslash, if_neg (by omega), if_neg (by omega), if_neg (by omega),
      if_neg (by omega), if_neg (by omega), if_neg (by omega)]
  have hdigits := hex_digits h
  clear h
  induction hash with
  | nil => rfl
  | cons c hash ih =>
    rw [List.flatMap_cons, hplain c (hdigits c (by simp)),
      ih fun d hd => hdigits d (by simp [hd])]
    rfl

theorem quoted_hash_key : quote EventMember.eventHash.text ++ [':', '"'] = hashKey := by decide

theorem print_hash_member {hash : Text} (h : isHexText hash = true) :
    printMember (EventMember.eventHash.text, .str hash) = hashField hash := by
  rw [printMember, printScalar, hashField, ← quoted_hash_key]
  simp [quote, escape_hex h]

theorem render_event_hash (e : AuditEvent) : ∃ front, ∀ hash, isHexText hash = true →
    renderEvent { e with eventHash := hash } = front ++ ',' :: (hashField hash ++ ['}']) := by
  have hne : spelled (frontMembers e) ≠ [] := by simp [spelled, frontMembers, always]
  obtain ⟨front, hfront⟩ := print_members_concat (spelled (frontMembers e)) hne
  refine ⟨'{' :: front, fun hash hhex => ?_⟩
  have hmembers : spelled (membersOf { e with eventHash := hash }) =
      spelled (frontMembers e) ++ [(EventMember.eventHash.text, .str hash)] := by
    simp [spelled, membersOf, frontMembers]
  rw [renderEvent, hmembers, printObject, hfront, print_hash_member hhex]
  simp

theorem read_event_emptied {line : Text} {e : AuditEvent} (h : readEvent line = some e)
    (hhex : isHexText e.eventHash = true) (honce : occurrences (hashField e.eventHash) line = 1) :
    readEvent (replaceFirst (hashField e.eventHash) (hashField []) line) =
      some { e with eventHash := [] } := by
  obtain ⟨front, hfront⟩ := render_event_hash e
  rw [read_event_iff] at h ⊢
  have hself : renderEvent e = front ++ ',' :: (hashField e.eventHash ++ ['}']) :=
    hfront e.eventHash hhex
  rw [← h, hself] at honce ⊢
  rw [replace_only_place (comma_not_in_hash_field hhex) (hash_field_ne_nil _) _ _ honce,
    hfront [] rfl]

/-- Hashes as a table gives them, zeros for a text it does not hold. -/
structure HashTable where
  entries : List (Text × Text)
  sound : ∀ e ∈ entries, e.2.length = 64 ∧ isHexText e.2 = true

def HashTable.hashOf (table : HashTable) (t : Text) : Text :=
  (table.entries.lookup t).getD auditChainGenesis

theorem hash_of_sound (table : HashTable) (t : Text) :
    (table.hashOf t).length = 64 ∧ isHexText (table.hashOf t) = true := by
  unfold HashTable.hashOf
  cases h : table.entries.lookup t with
  | none => exact ⟨rfl, by decide⟩
  | some hash =>
    obtain ⟨before, after, hsplit, -⟩ := List.lookup_eq_some_iff.mp h
    exact table.sound (t, hash) (by simp [hsplit])

def tableCodec (table : HashTable) (mac : AuditRestartKey → Text → Bytes) : AuditCodec where
  parse := readEvent
  render := renderEvent
  sha256 := table.hashOf
  mac := mac
  parse_render e := read_event_iff.mpr rfl
  render_hash := render_event_hash
  render_one_line e := print_object_one_line _
  parse_cut e t hcut hne := by
    cases hread : readEvent t with
    | none => rfl
    | some e' =>
      obtain ⟨rest, hrest⟩ := hcut
      rw [read_event_iff] at hread
      rw [← hread, ← List.append_nil (renderEvent e)] at hrest
      obtain ⟨rfl, -⟩ := render_event_inj hrest
      exact absurd hread.symm hne
  parse_emptied line e h hhex honce := ⟨[], read_event_emptied h hhex honce⟩
  sha256_length t := (hash_of_sound table t).1
  sha256_hex t := (hash_of_sound table t).2

def sampleInput (n : ℕ) : AuditEventInput where
  eventId := "adt-000".toList ++ numeral 10 n
  kind := .revisionActivated
  createdAt := 1745000000000
  actorKind := .user
  actorIdHash := none
  revisionId := none
  riskLevel := none
  result := .success
  reasonCode := "review.approved".toList
  payloadSummaryJson := none

/-- The hash of the first sample event, and of the second and third as they follow it in its file
or in files of their own. -/
def firstHash : Text :=
  "e6617f6f51c17caa18220cabde1b87320847090691e98212196cd75e97cdcc27".toList

def secondHash : Text :=
  "4600ec963178347bf26d5d8165f226cd6c968b5624d7d930a219270181499342".toList

def secondFileHash : Text :=
  "08ec0aae7d5fa9e05fd55a19d2e1bd26294d3de930f40efa67fb36ea66f58967".toList

def thirdFileHash : Text :=
  "7d363eb1b026c5dfc7400994d3cd589e4868e4af0f4426d220145db922285960".toList

def forkedHash : Text :=
  "5c8dcd9cb04cc6a7c5d4fe35bfdc33a2ce8718ee4e4be76e6f381ba657ace4d3".toList

def sampleCovered (n : ℕ) (seq : UInt64) (prevHash : Text) : Text :=
  prevHash ++ renderEvent (blankEvent (sampleInput n) seq prevHash)

def sampleHashes : HashTable where
  entries :=
    [(sampleCovered 1 1 auditChainGenesis, firstHash), (sampleCovered 2 2 firstHash, secondHash),
      (sampleCovered 2 1 firstHash, secondFileHash),
      (sampleCovered 3 1 secondFileHash, thirdFileHash), (sampleCovered 3 1 firstHash, forkedHash)]
  sound := by
    have h : ∀ hash ∈ [firstHash, secondHash, secondFileHash, thirdFileHash, forkedHash],
        hash.length = 64 ∧ isHexText hash = true := by decide +kernel
    intro e he
    apply h
    simp only [List.mem_cons, List.not_mem_nil, or_false] at he
    rcases he with rfl | rfl | rfl | rfl | rfl <;> simp

def sampleCodec : AuditCodec := tableCodec sampleHashes fun _ _ => []

def sampleLine (n : ℕ) (seq : UInt64) (prevHash : Text) : Text :=
  renderEvent (buildEvent sampleCodec (sampleInput n) seq prevHash) ++ ['\n']

end NetRuleRouter.AuditJson
