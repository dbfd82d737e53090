import NetRuleRouter.RevisionStore

/-!
# Looking a revision up

An id alone may stand in rows of several principals. What a lookup by id finds
follows from the rows that carry it: none, one, or too many to tell apart.
-/

set_option autoImplicit false

namespace NetRuleRouter.RevisionLookup
open TextOps Utf8 RevisionRecords RevisionStore Sessions

def carriers (t : Tables) (revisionId : Text) : List RevisionRow :=
  t.revisions.filter fun row => row.revisionId = revisionId

variable {revisionId : Text} {row : RevisionRow}

theorem mem_carriers {t : Tables} :
    row ∈ carriers t revisionId ↔ row ∈ t.revisions ∧ row.revisionId = revisionId := by
  rw [carriers, List.mem_filter, decide_eq_true_eq]

def Alone (t : Tables) (row : RevisionRow) : Prop := carriers t row.revisionId = [row]

instance (t : Tables) (row : RevisionRow) : Decidable (Alone t row) :=
  inferInstanceAs (Decidable (_ = _))

theorem lookup_none {t : Tables} (h : carriers t revisionId = []) :
    rowWithPrincipalAndHmac t revisionId = .ok none := by
  rw [carriers] at h
  rw [rowWithPrincipalAndHmac, h]
  rfl

theorem lookup_one {t : Tables} (h : carriers t revisionId = [row]) :
    rowWithPrincipalAndHmac t revisionId =
      (readRow "revisions row_with_principal_and_hmac" row).map some := by
  rw [carriers] at h
  rw [rowWithPrincipalAndHmac, h, List.take_of_length_le (by simp), List.mapM_cons, List.mapM_nil]
  cases readRow "revisions row_with_principal_and_hmac" row <;> rfl

theorem lookup_many {t : Tables} {other : RevisionRow} {rest : List RevisionRow}
    (h : carriers t revisionId = row :: other :: rest) :
    ∃ e, rowWithPrincipalAndHmac t revisionId = .error e := by
  rw [carriers] at h
  rw [rowWithPrincipalAndHmac, h, List.take_succ_cons, List.take_succ_cons, List.take_zero,
    List.mapM_cons, List.mapM_cons, List.mapM_nil]
  cases readRow "revisions row_with_principal_and_hmac" row with
  | error e => exact ⟨e, rfl⟩
  | ok a =>
    cases readRow "revisions row_with_principal_and_hmac" other with
    | error e => exact ⟨e, rfl⟩
    | ok b => exact ⟨_, rfl⟩

theorem map_m_all {α β κ : Type} {f : α → Except κ β} {l : List α} {P : β → Prop} :
    (∃ bs, l.mapM f = .ok bs ∧ ∀ b ∈ bs, P b) ↔ ∀ a ∈ l, ∃ b, f a = .ok b ∧ P b := by
  induction l with
  | nil => simp [pure, Except.pure]
  | cons a l ih =>
    rw [List.mapM_cons, List.forall_mem_cons, ← ih]
    cases f a with
    | error e => simp [bind, Except.bind]
    | ok b =>
      cases l.mapM f with
      | error e => simp [bind, Except.bind]
      | ok bs => simp [bind, Except.bind, pure, Except.pure]

theorem read_row_ok {context : String} {r : Text × RevisionRecord × Bytes} :
    readRow context row = .ok r ↔
      row.typed = true ∧ r.1 = row.principal ∧ r.2.1 = row.record ∧ row.rowHmac = .blob r.2.2 := by
  obtain ⟨principal, record, tag⟩ := r
  unfold readRow rowToRecord
  cases row.typed with
  | false => simp
  | true =>
    cases row.rowHmac with
    | notBlob => simp
    | blob b =>
      simp only [if_true, Except.ok.injEq, Prod.mk.injEq, true_and, TagColumn.blob.injEq,
        eq_comm (a := row.principal), eq_comm (a := row.record)]

variable (H : Digests)

theorem lookup_ok {t : Tables} {r : Option (Text × RevisionRecord × Bytes)}
    (h : rowWithPrincipalAndHmac t revisionId = .ok r) :
    (carriers t revisionId = [] ∧ r = none) ∨
    ∃ row tag, carriers t revisionId = [row] ∧ row.typed = true ∧ row.rowHmac = .blob tag ∧
      r = some (row.principal, row.record, tag) := by
  rcases hrows : carriers t revisionId with _ | ⟨row, _ | ⟨other, rest⟩⟩
  · rw [lookup_none hrows] at h
    cases h
    exact Or.inl ⟨rfl, rfl⟩
  · rw [lookup_one hrows] at h
    cases hread : readRow "revisions row_with_principal_and_hmac" row with
    | error e =>
      rw [hread] at h
      cases h
    | ok found =>
      rw [hread] at h
      cases h
      obtain ⟨htyped, hp, hr, htag⟩ := read_row_ok.mp hread
      exact Or.inr ⟨row, found.2.2, rfl, htyped, htag, by rw [← hp, ← hr]⟩
  · obtain ⟨e, he⟩ := lookup_many hrows
    rw [he] at h
    cases h

variable {tag : Bytes}

theorem lookup_alone {t : Tables} (h : Alone t row) (htyped : row.typed = true)
    (htag : row.rowHmac = .blob tag) :
    rowWithPrincipalAndHmac t row.revisionId = .ok (some (row.principal, row.record, tag)) := by
  have hread : readRow "revisions row_with_principal_and_hmac" row =
      .ok (row.principal, row.record, tag) := read_row_ok.mpr ⟨htyped, rfl, rfl, htag⟩
  rw [lookup_one h, hread]
  rfl

variable {key : Bytes}

theorem verify_row_hmac_alone {t : Tables} (h : Alone t row) (htyped : row.typed = true)
    (htag : row.rowHmac = .blob tag) :
    verifyRowHmac H (some key) t row.revisionId =
      .ok (some (verify H row.principal row.record tag key)) := by
  rw [verifyRowHmac, lookup_alone h htyped htag]
  rfl

theorem verify_row_hmac_ok {t : Tables} {v : Option HmacVerification}
    (h : verifyRowHmac H (some key) t revisionId = .ok v) :
    (carriers t revisionId = [] ∧ v = none) ∨
    ∃ row tag, carriers t revisionId = [row] ∧ row.typed = true ∧ row.rowHmac = .blob tag ∧
      v = some (verify H row.principal row.record tag key) := by
  rw [verifyRowHmac] at h
  cases hfound : rowWithPrincipalAndHmac t revisionId with
  | error e =>
    rw [hfound] at h
    cases h
  | ok r =>
    rw [hfound] at h
    obtain ⟨hrows, rfl⟩ | ⟨row, tag, hrows, htyped, htag, rfl⟩ := lookup_ok hfound
    · cases h
      exact .inl ⟨hrows, rfl⟩
    · cases h
      exact .inr ⟨row, tag, hrows, htyped, htag, rfl⟩

def changed (which : RevisionRow → Bool) (change : RevisionRow → RevisionRow) (t : Tables) :
    Tables :=
  { t with revisions := t.revisions.map fun row => if which row then change row else row }

theorem update_some {label : Commit} {which : RevisionRow → Bool}
    {change : RevisionRow → RevisionRow} {t : Tables} (h : t.revisions.countP which ≠ 0) :
    (updateRevisions label which change).run t =
      ⟨.ok (t.revisions.countP which), [(label, changed which change t)]⟩ := by
  simp only [updateRevisions, Session.execute, if_neg h, Option.toList_some]
  rfl

def signedAgain (key : Bytes) (row : RevisionRow) (t : Tables) : Tables :=
  changed (ofRevision row.principal row.revisionId)
    (fun r => { r with rowHmac := .blob (computeHmac H row.principal row.record key) }) t

theorem re_sign_alone {t : Tables} (h : Alone t row) (htyped : row.typed = true)
    (htag : row.rowHmac = .blob tag) :
    (reSignRow H (some key) row.revisionId).run t =
      ⟨.ok (some (verify H row.principal row.record tag key)),
        [(.rowSigned row.principal row.revisionId, signedAgain H key row t)]⟩ := by
  have hsome : t.revisions.countP (ofRevision row.principal row.revisionId) ≠ 0 := by
    have hin : row ∈ carriers t row.revisionId := by rw [h, List.mem_singleton]
    rw [ne_eq, List.countP_eq_zero, not_forall₂]
    exact ⟨row, (mem_carriers.mp hin).1, by simp [ofRevision]⟩
  unfold reSignRow
  dsimp only
  rw [Session.read_ok (f := fun t => rowWithPrincipalAndHmac t row.revisionId)
    (lookup_alone h htyped htag), Session.bind_ok (update_some hsome)]
  rfl

theorem re_sign_after_alone {t : Tables} {before : HmacVerification} (h : Alone t row)
    (htyped : row.typed = true) (htag : row.rowHmac = .blob tag) (hbefore : before ≠ .tampered) :
    (reSignAfterTransition H (some key) row.revisionId (some before)).run t =
      ⟨.ok (), [(.rowSigned row.principal row.revisionId, signedAgain H key row t)]⟩ := by
  have hre : some before = some HmacVerification.verified ∨ some before = some .unsigned := by
    cases before with
    | verified => exact Or.inl rfl
    | unsigned => exact Or.inr rfl
    | tampered => exact absurd rfl hbefore
  rw [reSignAfterTransition, if_pos hre, Session.bind_ok (re_sign_alone H h htyped htag)]
  rfl

section Keyed
variable {t : Tables} (hschema : t.Schema)
include hschema

theorem row_of_key {a b : RevisionRow} (ha : a ∈ t.revisions) (hb : b ∈ t.revisions)
    (hp : a.principal = b.principal) (hid : a.revisionId = b.revisionId) : a = b :=
  List.inj_on_of_nodup_map hschema.revision_key ha hb (Prod.ext hp hid)

theorem active_of_principal {a b : RevisionRow} (ha : a ∈ t.revisions) (hb : b ∈ t.revisions)
    (haa : a.isActive = true) (hba : b.isActive = true) (hp : a.principal = b.principal) :
    a = b :=
  List.inj_on_of_nodup_map hschema.one_active (List.mem_filter.mpr ⟨ha, haa⟩)
    (List.mem_filter.mpr ⟨hb, hba⟩) hp

theorem active_row_iff {principal : Text} :
    activeRow t principal = some row ↔
      row ∈ t.revisions ∧ row.principal = principal ∧ row.isActive = true := by
  constructor
  · intro h
    have hrow := List.find?_some h
    rw [Bool.and_eq_true, decide_eq_true_eq] at hrow
    exact ⟨List.mem_of_find?_eq_some h, hrow.1, hrow.2⟩
  · rintro ⟨hmem, hp, hactive⟩
    cases hfound : activeRow t principal with
    | none =>
      have hno := List.find?_eq_none.mp hfound row hmem
      simp [hp, hactive] at hno
    | some other =>
      have hother := List.find?_some hfound
      rw [Bool.and_eq_true, decide_eq_true_eq] at hother
      rw [active_of_principal hschema (List.mem_of_find?_eq_some hfound) hmem hother.2 hactive
        (hother.1.trans hp.symm)]

theorem alone_of_only (hmem : row ∈ t.revisions)
    (h : ∀ other ∈ t.revisions, other.revisionId = row.revisionId → other = row) : Alone t row := by
  have hnodup : (carriers t row.revisionId).Nodup := (hschema.revision_key.of_map _).filter _
  have hin : row ∈ carriers t row.revisionId := mem_carriers.mpr ⟨hmem, rfl⟩
  apply List.perm_singleton.mp
  rw [List.perm_ext_iff_of_nodup hnodup (List.nodup_singleton row)]
  intro other
  rw [List.mem_singleton]
  constructor
  · intro hother
    obtain ⟨hother, hid⟩ := mem_carriers.mp hother
    exact h other hother hid
  · rintro rfl
    exact hin

end Keyed

end NetRuleRouter.RevisionLookup
