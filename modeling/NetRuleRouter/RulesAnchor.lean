import NetRuleRouter.Lookups
import NetRuleRouter.RevisionRecords

/-!
# The record of the active rules

Which revision every principal has active, kept outside the database and
signed. A change of the rules marks its principals pending before it commits
and records what the database holds for them afterwards; the boot and the
running service compare the database with the record, except where it is
pending.
-/

set_option autoImplicit false

namespace NetRuleRouter.RulesAnchor
open TextOps Utf8 Lookups Numerals RevisionRecords

def maxRecordBytes : ℕ := 4 * 1024 * 1024

def recordVersion : UInt32 := 1

structure ActiveRules where
  revision : Text
  hash : Text
  deriving DecidableEq, Repr

abbrev ActiveSet := Map Text ActiveRules

def keysOf {β : Type} (m : Map Text β) : List Text := m.keys.sort (· ≤ ·)

structure AnchorRecord where
  version : UInt32
  generation : UInt64
  pending : Finset Text
  pendingAll : Bool
  active : ActiveSet

def AnchorRecord.pendingNames (r : AnchorRecord) : List Text := r.pending.sort (· ≤ ·)

def AnchorRecord.of (active : ActiveSet) : AnchorRecord where
  version := recordVersion
  generation := 1
  pending := ∅
  pendingAll := false
  active := active

def AnchorRecord.isPending (r : AnchorRecord) (principal : Text) : Bool :=
  r.pendingAll || decide (principal ∈ r.pending)

/-- The hashes, and the JSON of the record as `serde_json` writes and reads it. -/
structure AnchorCodec extends Digests where
  toVec : AnchorRecord → Bytes
  fromSlice : Bytes → Option AnchorRecord
  from_to : ∀ r, fromSlice (toVec r) = some r
  to_vec_ne_nil : ∀ r, toVec r ≠ []

variable (C : AnchorCodec)

def AnchorRecord.encode (r : AnchorRecord) (key : Bytes) : Bytes :=
  computeRulesAnchorHmac C.toDigests (C.toVec r) key ++ C.toVec r

def AnchorRecord.decode (bytes key : Bytes) : Option AnchorRecord :=
  if bytes.length ≤ hmacByteLen ∨ maxRecordBytes < bytes.length then none
  else
    let tag := bytes.take hmacByteLen
    let payload := bytes.drop hmacByteLen
    if verifyRulesAnchor C.toDigests payload tag key ≠ .verified then none
    else (C.fromSlice payload).filter fun r => r.version == recordVersion

structure Disagreement where
  principal : Text
  recorded : Option ActiveRules
  found : Option ActiveRules
  deriving DecidableEq

def disagreements (record : AnchorRecord) (found : ActiveSet) : List Disagreement :=
  (((record.active.keys ∪ found.keys).sort (· ≤ ·)).filter fun p => !record.isPending p).filterMap
    fun p =>
      if record.active.lookup p ≠ found.lookup p then
        some ⟨p, record.active.lookup p, found.lookup p⟩
      else none

inductive AnchorAlert where
  | disagrees (found : List Disagreement)
  | unverifiable (fingerprint : Text)
  deriving DecidableEq

def shortHex (digest : Bytes) : Text :=
  (digest.take 8).flatMap fun b => paddedNumeral 2 16 b.toNat

structure BootCheck where
  start : Option AnchorRecord
  rewrite : Bool
  alert : Option AnchorAlert

/-- The recorded rules with those of `principals` taken from `found`, one after the other. -/
def takeFound (active found : ActiveSet) (principals : List Text) : ActiveSet :=
  principals.foldl (fun active p =>
    match found.lookup p with
    | some rules => active.insert p rules
    | none => active.erase p) active

def checkAtBoot (found : ActiveSet) (stored : Option Bytes) (key : Bytes) : BootCheck :=
  match stored with
  | none => { start := some (.of found), rewrite := true, alert := none }
  | some bytes =>
    match AnchorRecord.decode C bytes key with
    | none =>
      { start := none, rewrite := false, alert := some (.unverifiable (shortHex (C.sha256 bytes))) }
    | some record =>
      let disagree := disagreements record found
      let rewrite := record.pendingAll || !decide (record.pending = ∅)
      let settled :=
        if record.pendingAll then keysOf record.active ++ keysOf found
        else record.pending.sort (· ≤ ·)
      { start := some (
          if rewrite then
            { record with
              active := takeFound record.active found settled
              pending := ∅
              pendingAll := false
              generation := record.generation + 1 }
          else record)
        rewrite := rewrite
        alert := if disagree = [] then none else some (.disagrees disagree) }

inductive AnchorScope where
  | of (principals : List Text)
  | every
  deriving DecidableEq

structure State where
  record : Option AnchorRecord := none
  inFlight : Map Text ℕ := ∅
  everyInFlight : ℕ := 0

def State.raise (s : State) : AnchorScope → State
  | .of principals =>
    { s with inFlight := principals.foldl (fun counts p =>
        counts.insert p ((counts.lookup p).getD 0 + 1)) s.inFlight }
  | .every => { s with everyInFlight := s.everyInFlight + 1 }

def lowerOne (counts : Map Text ℕ) (p : Text) : Map Text ℕ :=
  match counts.lookup p with
  | some n => if n - 1 = 0 then counts.erase p else counts.insert p (n - 1)
  | none => counts

def State.lower (s : State) : AnchorScope → State
  | .of principals => { s with inFlight := principals.foldl lowerOne s.inFlight }
  | .every => { s with everyInFlight := s.everyInFlight - 1 }

def State.marked (s : State) (record : AnchorRecord) : AnchorRecord :=
  { record with
    generation := record.generation + 1
    pending := s.inFlight.keys
    pendingAll := decide (0 < s.everyInFlight) }

def State.tryWrite (s : State) (key : Bytes) : State × Option Bytes :=
  match s.record with
  | none => (s, none)
  | some record =>
    ({ s with record := some (s.marked record) }, some ((s.marked record).encode C key))

def AnchorRecord.touch (record : AnchorRecord) (scope : AnchorScope) (found : ActiveSet) :
    AnchorRecord :=
  let touched :=
    match scope with
    | .of principals => principals
    | .every => keysOf record.active ++ keysOf found
  { record with active := takeFound record.active found touched }

/-- The record `re_record` puts in place of the one the state holds. -/
def State.reRecorded (s : State) (found : ActiveSet) : State :=
  let generation := (s.record.map (·.generation)).getD 0
  { s with record := some { AnchorRecord.of found with generation := generation } }

/-- `read` is what the active rules were read as, if they could be read. -/
def State.disagreementsNow (s : State) (read : Option ActiveSet) : List Disagreement :=
  match s.record with
  | none => []
  | some record =>
    let view := { record with
      pending := record.pending ∪ s.inFlight.keys
      pendingAll := record.pendingAll || decide (0 < s.everyInFlight) }
    match read with
    | some found => disagreements view found
    | none => []

def AnchorScope.covers : AnchorScope → Text → Bool
  | .of principals, p => decide (p ∈ principals)
  | .every, _ => true

def AnchorScope.times : AnchorScope → Text → ℕ
  | .of principals, p => principals.count p
  | .every, _ => 0

def State.inChange (s : State) (p : Text) : Bool :=
  decide (p ∈ s.inFlight) || decide (0 < s.everyInFlight)

theorem marked_pending (s : State) (record : AnchorRecord) (p : Text) :
    (s.marked record).isPending p = s.inChange p := by
  simp [State.marked, AnchorRecord.isPending, State.inChange, Finmap.mem_keys, Bool.or_comm]

theorem mem_keys_of {β : Type} (m : Map Text β) (p : Text) : p ∈ keysOf m ↔ p ∈ m := by
  rw [keysOf, Finset.mem_sort, Finmap.mem_keys]

theorem lookup_take_found (active found : ActiveSet) (principals : List Text) (p : Text) :
    (takeFound active found principals).lookup p =
      if p ∈ principals then found.lookup p else active.lookup p := by
  induction principals generalizing active with
  | nil => rfl
  | cons q principals ih =>
    rw [takeFound, List.foldl_cons]
    refine (ih _).trans ?_
    by_cases hmem : p ∈ principals
    · simp [hmem]
    · by_cases hpq : p = q
      · subst hpq
        cases hfound : found.lookup p with
        | none | some rules => simp [hmem]
      · cases hfound : found.lookup q with
        | none | some rules => simp [hmem, hpq]

theorem take_found_every (active found : ActiveSet) :
    takeFound active found (keysOf active ++ keysOf found) = found := by
  apply Finmap.ext_lookup
  intro p
  rw [lookup_take_found]
  split
  · rfl
  · rename_i hmem
    simp only [List.mem_append, mem_keys_of, not_or] at hmem
    rw [Finmap.lookup_eq_none.mpr hmem.1, Finmap.lookup_eq_none.mpr hmem.2]

theorem touch_lookup (record : AnchorRecord) (scope : AnchorScope) (found : ActiveSet) (p : Text) :
    (record.touch scope found).active.lookup p =
      if scope.covers p then found.lookup p else record.active.lookup p := by
  cases scope with
  | of principals =>
    have h := lookup_take_found record.active found principals p
    simpa [AnchorRecord.touch, AnchorScope.covers] using h
  | every =>
    simp [AnchorRecord.touch, AnchorScope.covers, take_found_every]

variable {record : AnchorRecord} {found : ActiveSet}

theorem mem_disagreements {d : Disagreement} :
    d ∈ disagreements record found ↔
      record.isPending d.principal = false ∧
        d.recorded = record.active.lookup d.principal ∧ d.found = found.lookup d.principal ∧
        d.recorded ≠ d.found := by
  simp only [disagreements, List.mem_filterMap, List.mem_filter, Finset.mem_sort, Finset.mem_union,
    Finmap.mem_keys, Bool.not_eq_true']
  constructor
  · rintro ⟨p, ⟨-, hpending⟩, hd⟩
    split at hd
    · rename_i hne
      cases hd
      exact ⟨hpending, rfl, rfl, hne⟩
    · cases hd
  · rintro ⟨hpending, hrecorded, hfound, hne⟩
    rw [hrecorded, hfound] at hne
    refine ⟨d.principal, ⟨?_, hpending⟩, ?_⟩
    · by_contra hnot
      rw [not_or] at hnot
      rw [Finmap.lookup_eq_none.mpr hnot.1, Finmap.lookup_eq_none.mpr hnot.2] at hne
      exact hne rfl
    · rw [if_pos hne, ← hrecorded, ← hfound]

theorem disagreements_eq_nil :
    disagreements record found = [] ↔
      ∀ p, record.active.lookup p ≠ found.lookup p → record.isPending p = true := by
  rw [List.eq_nil_iff_forall_not_mem]
  constructor
  · intro h p hne
    have hnot := h ⟨p, record.active.lookup p, found.lookup p⟩
    rw [mem_disagreements] at hnot
    by_contra hpending
    exact hnot ⟨by simpa using hpending, rfl, rfl, hne⟩
  · intro h d hd
    obtain ⟨hpending, hrecorded, hfound, hne⟩ := mem_disagreements.mp hd
    rw [hrecorded, hfound] at hne
    rw [h _ hne] at hpending
    cases hpending

def names (p : Text) (ds : List Disagreement) : Prop := ∃ d ∈ ds, d.principal = p

theorem names_disagreements {p : Text} :
    names p (disagreements record found) ↔
      record.isPending p = false ∧ record.active.lookup p ≠ found.lookup p := by
  constructor
  · rintro ⟨d, hd, rfl⟩
    obtain ⟨hpending, hrecorded, hfound, hne⟩ := mem_disagreements.mp hd
    rw [hrecorded, hfound] at hne
    exact ⟨hpending, hne⟩
  · rintro ⟨hpending, hne⟩
    exact ⟨⟨p, _, _⟩, mem_disagreements.mpr ⟨hpending, rfl, rfl, hne⟩, rfl⟩

variable {C}

theorem encode_length (r : AnchorRecord) (key : Bytes) :
    (r.encode C key).length = hmacByteLen + (C.toVec r).length := by
  rw [AnchorRecord.encode, List.length_append, computeRulesAnchorHmac, C.hmac_length]

theorem encode_record_injective {r r' : AnchorRecord} {key : Bytes}
    (h : r.encode C key = r'.encode C key) : r = r' := by
  have hlen : ∀ r : AnchorRecord,
      (computeRulesAnchorHmac C.toDigests (C.toVec r) key).length = hmacByteLen :=
    fun _ => C.hmac_length _ _
  have hvec := congrArg (List.drop hmacByteLen) h
  rw [AnchorRecord.encode, AnchorRecord.encode, List.drop_left' (hlen r),
    List.drop_left' (hlen r')] at hvec
  exact Option.some.inj ((C.from_to r).symm.trans ((congrArg C.fromSlice hvec).trans (C.from_to r')))

theorem decode_encode {r : AnchorRecord} (hversion : r.version = recordVersion) (key : Bytes) :
    AnchorRecord.decode C (r.encode C key) key =
      if (r.encode C key).length ≤ maxRecordBytes then some r else none := by
  have hlen := encode_length (C := C) r key
  have hpos : 0 < (C.toVec r).length := List.length_pos_of_ne_nil (C.to_vec_ne_nil r)
  have htag : (computeRulesAnchorHmac C.toDigests (C.toVec r) key).length = hmacByteLen :=
    C.hmac_length _ _
  have htake : (r.encode C key).take hmacByteLen =
      computeRulesAnchorHmac C.toDigests (C.toVec r) key := by
    rw [AnchorRecord.encode, ← htag, List.take_left]
  have hdrop : (r.encode C key).drop hmacByteLen = C.toVec r := by
    rw [AnchorRecord.encode, ← htag, List.drop_left]
  have hverified : verifyRulesAnchor C.toDigests (C.toVec r)
      (computeRulesAnchorHmac C.toDigests (C.toVec r) key) key = .verified :=
    verify_tag_own C.toDigests key _
  unfold AnchorRecord.decode
  by_cases hfits : (r.encode C key).length ≤ maxRecordBytes
  · rw [if_pos hfits, if_neg (by omega), htake, hdrop]
    simp [hverified, C.from_to, hversion]
  · rw [if_neg hfits, if_pos (by omega)]

theorem lookup_raise (ps : List Text) (counts : Map Text ℕ) (p : Text) :
    ((ps.foldl (fun counts p => counts.insert p ((counts.lookup p).getD 0 + 1)) counts).lookup
      p).getD 0 = (counts.lookup p).getD 0 + ps.count p := by
  induction ps generalizing counts with
  | nil => simp
  | cons q ps ih =>
    rw [List.foldl_cons, ih, lookup_insert, List.count_cons]
    by_cases hpq : p = q
    · subst hpq
      simp only [if_true, Option.getD_some, beq_self_eq_true]
      omega
    · simp [hpq, Ne.symm hpq]

/-- No principal is kept with a count of nothing. -/
def Positive (counts : Map Text ℕ) : Prop := ∀ p n, counts.lookup p = some n → 0 < n

variable {counts : Map Text ℕ}

theorem positive_mem (h : Positive counts) (p : Text) :
    p ∈ counts ↔ 0 < (counts.lookup p).getD 0 := by
  cases hlook : counts.lookup p with
  | none => simp [Finmap.lookup_eq_none.mp hlook]
  | some n =>
    have hmem : p ∈ counts := Finmap.mem_of_lookup_eq_some hlook
    simp [hmem, h p n hlook]

theorem positive_raise (ps : List Text) (h : Positive counts) :
    Positive (ps.foldl (fun counts p => counts.insert p ((counts.lookup p).getD 0 + 1)) counts) := by
  induction ps generalizing counts with
  | nil => exact h
  | cons q ps ih =>
    refine ih ?_
    intro p n hlook
    rw [lookup_insert] at hlook
    split at hlook
    · cases hlook
      omega
    · exact h p n hlook

theorem lookup_lower_one (q p : Text) :
    ((lowerOne counts q).lookup p).getD 0 =
      (counts.lookup p).getD 0 - if p = q then 1 else 0 := by
  unfold lowerOne
  by_cases hpq : p = q
  · subst hpq
    cases hlook : counts.lookup p with
    | none => simp [hlook]
    | some n => by_cases hn : n - 1 = 0 <;> simp [hn]
  · cases counts.lookup q with
    | none => simp [hpq]
    | some n => by_cases hn : n - 1 = 0 <;> simp [hn, hpq]

theorem positive_lower_one (h : Positive counts) (q : Text) : Positive (lowerOne counts q) := by
  intro p n hlook
  unfold lowerOne at hlook
  cases hq : counts.lookup q with
  | none =>
    rw [hq] at hlook
    exact h p n hlook
  | some m =>
    rw [hq] at hlook
    dsimp only at hlook
    split at hlook
    · rw [lookup_erase] at hlook
      split at hlook
      · cases hlook
      · exact h p n hlook
    · rw [lookup_insert] at hlook
      split at hlook
      · cases hlook
        omega
      · exact h p n hlook

theorem lookup_lower (ps : List Text) (counts : Map Text ℕ) (p : Text) :
    ((ps.foldl lowerOne counts).lookup p).getD 0 = (counts.lookup p).getD 0 - ps.count p := by
  induction ps generalizing counts with
  | nil => simp
  | cons q ps ih =>
    rw [List.foldl_cons, ih, lookup_lower_one, List.count_cons]
    by_cases hpq : p = q
    · subst hpq
      simp only [if_true, beq_self_eq_true]
      omega
    · simp [hpq, Ne.symm hpq]

theorem positive_lower (ps : List Text) (h : Positive counts) :
    Positive (ps.foldl lowerOne counts) := by
  induction ps generalizing counts with
  | nil => exact h
  | cons q ps ih => exact ih (positive_lower_one h q)

end NetRuleRouter.RulesAnchor
