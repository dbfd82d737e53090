import NetRuleRouter.RevisionLookup

/-!
# Reading the rules in force

The rules provider answers with the book of the principal's active revision,
or of the baseline's where the principal has none. Before it enforces a stored
book it checks the tag of its row, looked up by the revision id alone.
-/

set_option autoImplicit false

namespace NetRuleRouter.BookReads
open TextOps Utf8 RevisionRecords RevisionStore RevisionLookup

inductive Source where
  | applying (principal rulesJson : Text)
  | stored (principal revisionId contentHash : Text)
  deriving DecidableEq

/-- What an enforcement read widens the stored book by, beside the book itself. -/
structure Widening where
  includeSubdomains : Bool
  verifyGeneration : UInt64
  anyZoneGeneration : UInt64
  overrideGeneration : UInt64
  deriving DecidableEq

structure ReadKey where
  source : Source
  widening : Widening
  deriving DecidableEq

structure DecodedRead (β : Type) where
  key : ReadKey
  snapshot : Option β
  staleAtMs : Option UInt64

structure SignatureCheck where
  key : Bytes
  resignPending : Bool

structure Provider (β : Type) where
  applying : Text → Option Text
  decoded : Text → Option (DecodedRead β)
  signatureCheck : Option SignatureCheck

inductive RulesRead (β : Type) where
  | rules (snapshot : β)
  | noPolicy
  | unreadable

/-- The codec, and what the surroundings have to say at the moment of a read. -/
structure Surroundings (β : Type) where
  decode : Text → Option β
  widening : Text → Widening
  widen : Text → Widening → β → β
  earliestEnd : Text → Option UInt64
  nowMs : UInt64

variable (H : Digests) {row : RevisionRow} {principal : Text}

def storedBookIsForged (check : Option SignatureCheck) (t : Tables) (revisionId : Text) : Bool :=
  match check with
  | none => false
  | some check =>
    (match verifyRowHmac H (some check.key) t revisionId with
      | .ok (some .tampered) => true
      | _ => false) && !check.resignPending

section Reading
variable {β : Type}

def resolve (provider : Provider β) (t : Tables) (principal : Text) :
    Except StorageError (Option Source) :=
  match provider.applying principal with
  | some rulesJson => .ok (some (.applying principal rulesJson))
  | none => (activeIdentityFor t principal).map
      (Option.map fun (revisionId, contentHash) => .stored principal revisionId contentHash)

def resolveThrough (provider : Provider β) (t : Tables) (principal : Text) :
    Except StorageError (Option Source) :=
  match resolve provider t principal with
  | .ok none =>
    if principal = baselinePrincipal then .ok none else resolve provider t baselinePrincipal
  | found => found

def cached (provider : Provider β) (env : Surroundings β) (principal : Text) (key : ReadKey) :
    Option (DecodedRead β) :=
  (provider.decoded principal).filter fun d =>
    d.key = key && d.staleAtMs.all fun at_ => env.nowMs < at_

def noWidening : Widening := ⟨false, 0, 0, 0⟩

def decodeSource (provider : Provider β) (env : Surroundings β) (t : Tables)
    (forEnforcement : Bool) : Source → RulesRead (Source × β)
  | .applying principal rulesJson =>
    match env.decode rulesJson with
    | some book => .rules (.applying principal rulesJson, book)
    | none => .unreadable
  | .stored principal _ _ =>
    match getActiveFor t principal with
    | .error _ => .unreadable
    | .ok none => .noPolicy
    | .ok (some record) =>
      if forEnforcement && storedBookIsForged H provider.signatureCheck t record.revisionId then
        .unreadable
      else match env.decode record.rulesJson with
        | some book => .rules (.stored principal record.revisionId record.contentHash, book)
        | none => .unreadable

def readRulesOutcome (provider : Provider β) (env : Surroundings β) (t : Tables)
    (principal : Text) (forEnforcement : Bool) : RulesRead β × Provider β :=
  match resolveThrough provider t principal with
  | .error _ => (.unreadable, provider)
  | .ok none => (.noPolicy, provider)
  | .ok (some source) =>
    let widening := if forEnforcement then env.widening principal else noWidening
    match if forEnforcement then cached provider env principal ⟨source, widening⟩ else none with
    | some hit =>
      (match hit.snapshot with
        | some snapshot => .rules snapshot
        | none => .noPolicy, provider)
    | none =>
      match decodeSource H provider env t forEnforcement source with
      | .unreadable => (.unreadable, provider)
      | .noPolicy => (.noPolicy, provider)
      | .rules (decodedFrom, book) =>
        if forEnforcement then
          let snapshot := env.widen principal widening book
          let kept : DecodedRead β :=
            ⟨⟨decodedFrom, widening⟩, some snapshot, env.earliestEnd principal⟩
          (.rules snapshot,
            { provider with decoded := Function.update provider.decoded principal (some kept) })
        else (.rules book, provider)

/-- Nothing decoded yet, no revision mid-activation, tags checked under the key. -/
def freshProvider (key : Bytes) : Provider β where
  applying _ := none
  decoded _ := none
  signatureCheck := some ⟨key, false⟩

/-- A first enforcement read answers with rules decoded from the row. -/
def AnswersFrom (key : Bytes) (env : Surroundings β) (t : Tables) (principal : Text)
    (row : RevisionRow) : Prop :=
  ∃ snapshot provider,
    readRulesOutcome H (freshProvider key) env t principal true = (.rules snapshot, provider) ∧
    (provider.decoded principal).map (fun d => d.key.source) =
      some (.stored row.principal row.revisionId row.record.contentHash)

variable {H} {key : Bytes} {env : Surroundings β} {t : Tables}

def bookRow (t : Tables) (principal : Text) : Option RevisionRow :=
  (activeRow t principal).or (activeRow t baselinePrincipal)

def sourceOf (row : RevisionRow) : Source :=
  .stored row.principal row.revisionId row.record.contentHash

def sourceRead (row : RevisionRow) : Except StorageError (Option Source) :=
  if row.typed then .ok (some (sourceOf row))
  else .error (.internal "revisions active_identity_for".toList)

theorem active_row_principal
    (h : activeRow t principal = some row) : row.principal = principal := by
  have hrow := List.find?_some h
  rw [Bool.and_eq_true, decide_eq_true_eq] at hrow
  exact hrow.1

theorem resolve_fresh_none (h : activeRow t principal = none) :
    resolve (freshProvider key : Provider β) t principal = .ok none := by
  simp only [resolve, freshProvider, activeIdentityFor, h]
  rfl

theorem resolve_fresh_some (h : activeRow t principal = some row) :
    resolve (freshProvider key : Provider β) t principal = sourceRead row := by
  simp only [resolve, freshProvider, activeIdentityFor, h, queryRow, rowToRecord, sourceRead,
    sourceOf, active_row_principal h]
  cases row.typed <;> rfl

theorem resolve_through_fresh (h : bookRow t principal = some row) :
    resolveThrough (freshProvider key : Provider β) t principal = sourceRead row ∧
      activeRow t row.principal = some row := by
  unfold resolveThrough
  cases hown : activeRow t principal with
  | some own =>
    rw [bookRow, hown, Option.some_or, Option.some.injEq] at h
    subst h
    rw [resolve_fresh_some hown, sourceRead, active_row_principal hown]
    refine ⟨?_, hown⟩
    split_ifs <;> rfl
  | none =>
    rw [bookRow, hown, Option.none_or] at h
    have hother : principal ≠ baselinePrincipal := by
      rintro rfl
      rw [hown] at h
      cases h
    rw [resolve_fresh_none hown, resolve_fresh_some h, active_row_principal h]
    exact ⟨if_neg hother, h⟩

theorem resolve_through_nobody (h : bookRow t principal = none) :
    resolveThrough (freshProvider key : Provider β) t principal = .ok none := by
  obtain ⟨hown, hbase⟩ := Option.or_eq_none_iff.mp h
  unfold resolveThrough
  rw [resolve_fresh_none hown, resolve_fresh_none hbase]
  exact ite_self _

theorem decode_stored (h : activeRow t row.principal = some row) (htyped : row.typed = true) :
    decodeSource H (freshProvider key) env t true (sourceOf row) =
      if storedBookIsForged H (some ⟨key, false⟩) t row.revisionId then .unreadable
      else match env.decode row.record.rulesJson with
        | some book => .rules (sourceOf row, book)
        | none => .unreadable := by
  have hactive : getActiveFor t row.principal = .ok (some row.record) := by
    simp only [getActiveFor, h, queryRow, rowToRecord, if_pos htyped]
    rfl
  simp only [sourceOf, decodeSource, hactive, Bool.true_and]
  rfl

theorem stored_book_forged_iff (hmem : row ∈ t.revisions) :
    storedBookIsForged H (some ⟨key, false⟩) t row.revisionId = true ↔
      Alone t row ∧ row.typed = true ∧ (∃ tag, row.rowHmac = .blob tag) ∧ row.Forged H key := by
  constructor
  · intro h
    rw [storedBookIsForged, Bool.and_eq_true] at h
    split at h
    · rename_i hverdict
      obtain ⟨-, hv⟩ | ⟨found, tag, hfound, htyped, htag, hv⟩ := verify_row_hmac_ok H hverdict
      · cases hv
      have hin : row ∈ carriers t row.revisionId := mem_carriers.mpr ⟨hmem, rfl⟩
      rw [hfound, List.mem_singleton] at hin
      subst hin
      obtain ⟨hne, hown⟩ := (verify_tampered H).mp (Option.some.inj hv.symm)
      exact ⟨hfound, htyped, ⟨tag, htag⟩, by simpa [htag] using hne, by simpa [htag] using hown⟩
    · simp at h
  · rintro ⟨halone, htyped, ⟨tag, htag⟩, hforged⟩
    have htampered : verify H row.principal row.record tag key = .tampered :=
      (verify_tampered H).mpr (by simpa [RevisionRow.Forged, htag] using hforged)
    rw [storedBookIsForged, verify_row_hmac_alone H halone htyped htag, htampered]
    rfl

def keptRead (env : Surroundings β) (principal : Text) (row : RevisionRow) (book : β) :
    DecodedRead β where
  key := ⟨sourceOf row, env.widening principal⟩
  snapshot := some (env.widen principal (env.widening principal) book)
  staleAtMs := env.earliestEnd principal

theorem read_fresh_rules {book : β}
    (hbook : bookRow t principal = some row) (htyped : row.typed = true)
    (hpassed : storedBookIsForged H (some ⟨key, false⟩) t row.revisionId = false)
    (hdecode : env.decode row.record.rulesJson = some book) :
    readRulesOutcome H (freshProvider key) env t principal true =
      (.rules (env.widen principal (env.widening principal) book),
        { (freshProvider key : Provider β) with
          decoded := Function.update (fun _ => none) principal
            (some (keptRead env principal row book)) }) := by
  obtain ⟨hthrough, hactive⟩ := @resolve_through_fresh _ _ β key t hbook
  have hdecoded := @decode_stored H row β key env t hactive htyped
  rw [hpassed, hdecode] at hdecoded
  rw [sourceRead, if_pos htyped] at hthrough
  unfold readRulesOutcome
  rw [hthrough]
  simp only [if_true, hdecoded]
  rfl

theorem read_fresh_refused (hbook : bookRow t principal = some row)
    (h : row.typed = false ∨ storedBookIsForged H (some ⟨key, false⟩) t row.revisionId = true ∨
      env.decode row.record.rulesJson = none) :
    readRulesOutcome H (freshProvider key) env t principal true =
      (.unreadable, freshProvider key) := by
  obtain ⟨hthrough, hactive⟩ := @resolve_through_fresh _ _ β key t hbook
  unfold readRulesOutcome
  cases htyped : row.typed with
  | false =>
    rw [sourceRead, htyped] at hthrough
    rw [hthrough]
    rfl
  | true =>
    have hdecoded : decodeSource H (freshProvider key) env t true (sourceOf row) =
        .unreadable := by
      rw [decode_stored hactive htyped]
      rcases h with h | h | h
      · rw [htyped] at h
        cases h
      · exact if_pos h
      · rw [h]
        exact ite_self _
    rw [sourceRead, if_pos htyped] at hthrough
    rw [hthrough]
    simp only [if_true, hdecoded]
    rfl

theorem answers_from_iff (hschema : t.Schema)
    (hmem : row ∈ t.revisions) : AnswersFrom H key env t principal row ↔
      bookRow t principal = some row ∧ row.typed = true ∧
      storedBookIsForged H (some ⟨key, false⟩) t row.revisionId = false ∧
      (env.decode row.record.rulesJson).isSome = true := by
  constructor
  · rintro ⟨snapshot, provider, hread, hsource⟩
    cases hbook : bookRow t principal with
    | none =>
      rw [readRulesOutcome, resolve_through_nobody hbook] at hread
      cases hread
    | some found =>
      by_cases hrefused : found.typed = false ∨
          storedBookIsForged H (some ⟨key, false⟩) t found.revisionId = true ∨
          env.decode found.record.rulesJson = none
      · rw [read_fresh_refused hbook hrefused] at hread
        cases hread
      · simp only [not_or, Bool.not_eq_false, Bool.not_eq_true] at hrefused
        obtain ⟨htyped, hpassed, hdecode⟩ := hrefused
        obtain ⟨book, hdecode⟩ := Option.ne_none_iff_exists'.mp hdecode
        rw [read_fresh_rules hbook htyped hpassed hdecode] at hread
        cases hread
        -- the source kept beside the decoded book names the row it came from
        have hkey : sourceOf found = sourceOf row := by simpa [keptRead, sourceOf] using hsource
        have hactive := (@resolve_through_fresh _ _ β key t hbook).2
        rw [sourceOf, sourceOf, Source.stored.injEq] at hkey
        have hfound : found = row :=
          row_of_key hschema (List.mem_of_find?_eq_some hactive) hmem hkey.1 hkey.2.1
        subst hfound
        exact ⟨rfl, htyped, hpassed, by rw [hdecode]; rfl⟩
  · rintro ⟨hbook, htyped, hpassed, hdecode⟩
    obtain ⟨book, hdecode⟩ := Option.isSome_iff_exists.mp hdecode
    exact ⟨_, _, read_fresh_rules hbook htyped hpassed hdecode, by simp [keptRead, sourceOf]⟩

/-- No first read enforces a forged book exactly when every forged active row that could be
enforced at all holds a blob for a tag and shares its id with no other row. -/
theorem forged_book_never_enforced (H : Digests) (key : Bytes) (env : Surroundings β) (t : Tables)
    (hschema : t.Schema) :
    (∀ principal, ∀ row ∈ t.revisions, row.isActive = true → row.Forged H key →
      ¬AnswersFrom H key env t principal row) ↔
    ∀ row ∈ t.revisions, row.isActive = true → row.Forged H key → row.typed = true →
      (env.decode row.record.rulesJson).isSome = true →
      (∃ tag, row.rowHmac = .blob tag) ∧ ∀ other ∈ t.revisions,
        other.revisionId = row.revisionId → other = row := by
  constructor
  · intro h row hmem hactive hforged htyped hdecode
    have hbook : bookRow t row.principal = some row := by
      rw [bookRow, (active_row_iff hschema).mpr ⟨hmem, rfl, hactive⟩, Option.some_or]
    have hcaught : storedBookIsForged H (some ⟨key, false⟩) t row.revisionId = true := by
      by_contra hpassed
      exact h row.principal row hmem hactive hforged ((answers_from_iff hschema hmem).mpr
        ⟨hbook, htyped, Bool.eq_false_iff.mpr hpassed, hdecode⟩)
    obtain ⟨halone, -, htag, -⟩ := (stored_book_forged_iff hmem).mp hcaught
    refine ⟨htag, fun other hother hid => ?_⟩
    have hin : other ∈ carriers t row.revisionId := mem_carriers.mpr ⟨hother, hid⟩
    rwa [halone, List.mem_singleton] at hin
  · intro h principal row hmem hactive hforged hanswers
    obtain ⟨-, htyped, hpassed, hdecode⟩ := (answers_from_iff hschema hmem).mp hanswers
    obtain ⟨htag, honly⟩ := h row hmem hactive hforged htyped hdecode
    have halone : Alone t row := alone_of_only hschema hmem honly
    have hcaught := (stored_book_forged_iff hmem).mpr ⟨halone, htyped, htag, hforged⟩
    rw [hpassed] at hcaught
    cases hcaught

end Reading

def samplePrincipal : Text := "S-1-5-21-1".toList

def forgedRow : RevisionRow where
  principal := samplePrincipal
  record :=
    { revisionId := "rev-1".toList, contentHash := "h".toList, rulesJson := "{}".toList
      status := .active, source := .guiRulesEdit, correlationId := [], createdAt := 0
      activatedAt := some 0, supersededAt := none, supersededBy := none, rejectedReason := none
      reviewSummaryJson := none, riskLevel := none }
  rowHmac := .blob [1]
  typed := true

/-- A row of the same id under another principal, which need not even be active. -/
def shadowRow : RevisionRow :=
  { forgedRow with
    principal := "S-1-5-21-2".toList, record := { forgedRow.record with status := .rejected } }

def lenientSurroundings : Surroundings Unit where
  decode _ := some ()
  widening _ := noWidening
  widen _ _ book := book
  earliestEnd _ := none
  nowMs := 0

theorem forged_row_caught :
    ¬AnswersFrom sha2Digests [7] lenientSurroundings ⟨[forgedRow], [], []⟩ samplePrincipal
      forgedRow := by
  have hschema : (⟨[forgedRow], [], []⟩ : Tables).Schema := by constructor <;> decide +kernel
  refine (forged_book_never_enforced sha2Digests [7] lenientSurroundings _ hschema).mpr ?_
    samplePrincipal forgedRow (by simp) (by decide +kernel) (by decide +kernel)
  intro row hrow _ _ _ _
  obtain rfl : row = forgedRow := by simpa using hrow
  exact ⟨⟨[1], rfl⟩, fun other hother _ => by simpa using hother⟩

/-- A row put beside the forged one lets it pass the check. -/
theorem shadowed_book_enforced :
    (⟨[forgedRow, shadowRow], [], []⟩ : Tables).Schema ∧
    forgedRow.isActive = true ∧ forgedRow.Forged sha2Digests [7] ∧
    AnswersFrom sha2Digests [7] lenientSurroundings ⟨[forgedRow, shadowRow], [], []⟩
      samplePrincipal forgedRow := by
  have hschema : (⟨[forgedRow, shadowRow], [], []⟩ : Tables).Schema := by
    constructor <;> decide +kernel
  refine ⟨hschema, by decide +kernel, by decide +kernel, ?_⟩
  rw [answers_from_iff hschema (by simp)]
  refine ⟨by decide +kernel, rfl, by decide +kernel, rfl⟩

end NetRuleRouter.BookReads
