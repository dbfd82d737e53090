import NetRuleRouter.RevisionLookup

/-!
# Rows that carry their own tag

A transition rewrites signed columns, so between its statements the row it
moves carries the tag of what it was. Every repository call that ends leaves
all rows signed again, given that it found them so: the tag is checked before
the row is touched, and a row whose id is not its own is not touched at all.
-/

set_option autoImplicit false

namespace NetRuleRouter.SignedRows
open TextOps Utf8 RevisionRecords RevisionStore RevisionLookup Sessions
open Sessions.Session

variable (H : Digests) (key : Bytes)

/-- Every row can be read, and is signed unless its id is among those excepted; every pointer
is signed. -/
structure SignedBut (excepted : Set Text) (t : Tables) : Prop where
  readable : ∀ row ∈ t.revisions, row.typed = true ∧ ∃ tag, row.rowHmac = .blob tag
  rows : ∀ row ∈ t.revisions, row.revisionId ∉ excepted → row.Signed H key
  pointers : ∀ row ∈ t.pointers, row.Signed H key

def AllSigned (t : Tables) : Prop := SignedBut H key ∅ t

def idsOf (t : Tables) : List Text := t.revisions.map RevisionRow.revisionId

def Held (ids : List Text) (excepted : Set Text) (t : Tables) : Prop :=
  idsOf t = ids ∧ SignedBut H key excepted t

/-- What a verdict under a transition says of its id: one signed row, or no row. -/
def Known (ids : List Text) (revisionId : Text) (before : Option HmacVerification) : Prop :=
  (before = some .verified ∧ ids.count revisionId = 1) ∨
    (before = none ∧ ids.count revisionId = 0)

variable {H key} {change : RevisionRow → RevisionRow} {which : RevisionRow → Bool}
variable {revisionId : Text} {t : Tables} {principal : Text} {status : RevisionStatus}

theorem count_ids (t : Tables) (revisionId : Text) :
    (idsOf t).count revisionId = (carriers t revisionId).length := by
  rw [idsOf, carriers, List.count_eq_countP, List.countP_map, List.countP_eq_length_filter]
  congr 2
  funext row
  exact beq_eq_decide row.revisionId revisionId

theorem SignedBut.mono {S S' : Set Text} (h : SignedBut H key S t) (hS : S ⊆ S') :
    SignedBut H key S' t :=
  ⟨h.readable, fun row hrow hid => h.rows row hrow fun hin => hid (hS hin), h.pointers⟩

theorem SignedBut.drop {S : Set Text}
    (h : SignedBut H key (insert revisionId S) t) (hnone : (idsOf t).count revisionId = 0) :
    SignedBut H key S t := by
  refine ⟨h.readable, fun row hrow hid => h.rows row hrow ?_, h.pointers⟩
  rintro (heq | hin)
  · have hcount := List.count_eq_zero.mp hnone
    exact hcount (heq ▸ List.mem_map_of_mem hrow)
  · exact hid hin

section Statements
variable {ids : List Text} {S S' : Set Text} {good : Commit → Tables → Prop} {P : Tables → Prop}

theorem ids_changed (hchange : ∀ row, (change row).revisionId = row.revisionId) (t : Tables) :
    idsOf (changed which change t) = idsOf t := by
  rw [idsOf, changed, List.map_map, idsOf]
  refine List.map_congr_left fun row _ => ?_
  rw [Function.comp_apply]
  split_ifs
  · exact hchange row
  · rfl

/-- A change of a row that leaves its key, its tag and the types of its columns alone. -/
structure KeepsTag (change : RevisionRow → RevisionRow) : Prop where
  revisionId : ∀ row, (change row).revisionId = row.revisionId
  rowHmac : ∀ row, (change row).rowHmac = row.rowHmac
  typed : ∀ row, (change row).typed = row.typed

theorem held_update (hchange : KeepsTag change) (hwhich : ∀ row ∈ t.revisions, which row = true →
      row.revisionId ∈ S') (h : Held H key ids S t) :
    Held H key ids (S ∪ S') (changed which change t) := by
  obtain ⟨hids, hsigned⟩ := h
  refine ⟨(ids_changed hchange.revisionId t).trans hids, ?_, ?_, hsigned.pointers⟩
  · intro row hmem
    obtain ⟨old, hold, rfl⟩ := List.mem_map.mp hmem
    obtain ⟨htyped, tag, htag⟩ := hsigned.readable old hold
    split_ifs
    · exact ⟨(hchange.typed old).trans htyped, tag, (hchange.rowHmac old).trans htag⟩
    · exact ⟨htyped, tag, htag⟩
  · intro row hmem hid
    obtain ⟨old, hold, rfl⟩ := List.mem_map.mp hmem
    by_cases hw : which old = true
    · rw [if_pos hw, hchange.revisionId] at hid
      exact absurd (Set.mem_union_right S (hwhich old hold hw)) hid
    · rw [if_neg hw] at hid ⊢
      exact hsigned.rows old hold fun hin => hid (Set.mem_union_left S' hin)

/-- An update changes no row, or it changes some and excepts them. -/
def Updated (H : Digests) (key : Bytes) (ids : List Text) (S S' : Set Text) (bound : ℕ) :
    Except StorageError ℕ → Tables → Prop
  | .error _, _ => False
  | .ok n, t =>
    n ≤ bound ∧ ((n = 0 ∧ Held H key ids S t) ∨ (0 < n ∧ Held H key ids S' t))

theorem keeps_update {label : Commit} {bound : ℕ} (hchange : KeepsTag change)
    (hP : ∀ t, P t → Held H key ids S t ∧ t.revisions.countP which ≤ bound ∧
      ∀ row ∈ t.revisions, which row = true → row.revisionId ∈ S')
    (hgood : ∀ t, Held H key ids (S ∪ S') t → good label t) :
    Keeps good P (updateRevisions label which change)
      (Updated H key ids S (S ∪ S') bound) := by
  refine keeps_execute ?_ ?_ ?_
  · intro t e _ he
    cases he
  · intro t n ht hn
    simp only [Except.ok.injEq, Prod.mk.injEq, ite_eq_left_iff, reduceCtorEq, imp_false,
      not_not] at hn
    obtain ⟨hheld, hbound, -⟩ := hP t ht
    exact ⟨hn.1 ▸ hbound, Or.inl ⟨hn.1 ▸ hn.2, hheld⟩⟩
  · intro t n l t' ht hn
    simp only [Except.ok.injEq, Prod.mk.injEq] at hn
    obtain ⟨hn, hcommit⟩ := hn
    split_ifs at hcommit with hzero
    simp only [Option.some.injEq, Prod.mk.injEq] at hcommit
    obtain ⟨rfl, rfl⟩ := hcommit
    obtain ⟨hheld, hbound, hwhich⟩ := hP t ht
    have hupdated := held_update hchange hwhich hheld
    exact ⟨⟨hn ▸ hbound, Or.inr ⟨hn ▸ Nat.pos_of_ne_zero hzero, hupdated⟩⟩, hgood _ hupdated⟩

theorem in_status_id {row : RevisionRow}
    (h : inStatus principal revisionId status row = true) : row.revisionId = revisionId := by
  simp only [inStatus, ofRevision, Bool.and_eq_true, decide_eq_true_eq] at h
  exact h.1.2

theorem count_one_id (hwhich : ∀ row, which row = true → row.revisionId = revisionId) :
    t.revisions.countP which ≤ (idsOf t).count revisionId := by
  rw [idsOf, List.count_eq_countP, List.countP_map]
  refine List.countP_mono_left fun row _ h => ?_
  simpa using hwhich row h

theorem keeps_update_one {label : Commit} (hchange : KeepsTag change)
    (hgood : ∀ t, Held H key ids (insert revisionId S) t → good label t) :
    Keeps good (Held H key ids S)
      (updateRevisions label (inStatus principal revisionId status) change)
      (Updated H key ids S (insert revisionId S) (ids.count revisionId)) := by
  have hinsert : insert revisionId S = S ∪ {revisionId} := Set.union_singleton.symm
  rw [hinsert] at hgood ⊢
  refine keeps_update hchange (fun t ht => ⟨ht, ?_, fun row _ hrow => in_status_id hrow⟩) hgood
  exact ht.1 ▸ count_one_id fun row => in_status_id

theorem keeps_tag_record {change : RevisionRecord → RevisionRecord}
    (hchange : ∀ record, (change record).revisionId = record.revisionId) :
    KeepsTag fun row => { row with record := change row.record } :=
  ⟨fun row => hchange row.record, fun _ => rfl, fun _ => rfl⟩

theorem keeps_verdict (revisionId : Text) (hP : ∀ t, P t → Held H key ids ∅ t) :
    Keeps good P (verdictBeforeTransition H (some key) revisionId) fun r t =>
      P t ∧ ∀ before, r = .ok before → Known ids revisionId before := by
  refine keeps_read fun t ht => ⟨ht, fun before hbefore => ?_⟩
  obtain ⟨hids, hsigned⟩ := hP t ht
  rw [Known, ← hids, count_ids]
  obtain ⟨hnone, rfl⟩ | ⟨row, tag, hrows, -, htag, rfl⟩ := verify_row_hmac_ok H hbefore
  · exact Or.inr ⟨rfl, by rw [hnone, List.length_nil]⟩
  · refine Or.inl ⟨?_, by rw [hrows, List.length_singleton]⟩
    have hmem : row ∈ t.revisions := by
      have hin : row ∈ carriers t revisionId := by rw [hrows, List.mem_singleton]
      exact (mem_carriers.mp hin).1
    obtain ⟨-, hown⟩ := hsigned.rows row hmem (Set.notMem_empty _)
    rw [htag, TagColumn.blob.injEq] at hown
    rw [hown, verify_own]

theorem held_signed {row : RevisionRow} (halone : Alone t row)
    (h : Held H key ids (insert row.revisionId S) t) :
    Held H key ids S (signedAgain H key row t) := by
  obtain ⟨hids, hsigned⟩ := h
  have honly (r : RevisionRow) (hr : r ∈ t.revisions) (hid : r.revisionId = row.revisionId) :
      r = row := by
    have hin : r ∈ carriers t row.revisionId := mem_carriers.mpr ⟨hr, hid⟩
    rwa [halone, List.mem_singleton] at hin
  have hids' : idsOf (signedAgain H key row t) = ids := by
    rw [signedAgain, ids_changed (by intro r; rfl), hids]
  refine ⟨hids', ?_, ?_, hsigned.pointers⟩
  · intro r hr
    obtain ⟨old, hold, rfl⟩ := List.mem_map.mp hr
    obtain ⟨htyped, tag, htag⟩ := hsigned.readable old hold
    split_ifs
    · exact ⟨htyped, _, rfl⟩
    · exact ⟨htyped, tag, htag⟩
  · intro r hr hid
    obtain ⟨old, hold, rfl⟩ := List.mem_map.mp hr
    by_cases hsame : old.revisionId = row.revisionId
    · -- the row signed anew
      obtain rfl := honly old hold hsame
      rw [if_pos (by simp [ofRevision])]
      exact ⟨(hsigned.readable old hold).1, rfl⟩
    · rw [if_neg (by simp [ofRevision, hsame])] at hid ⊢
      refine hsigned.rows old hold ?_
      rintro (heq | hin)
      · exact hsame heq
      · exact hid hin

theorem keeps_re_sign {before : Option HmacVerification} (hknown : Known ids revisionId before)
    (hgood : ∀ principal t, Held H key ids S t → good (.rowSigned principal revisionId) t) :
    Keeps good (Held H key ids (insert revisionId S))
      (reSignAfterTransition H (some key) revisionId before) fun r t =>
      r = .ok () ∧ Held H key ids S t := by
  obtain ⟨rfl, hcount⟩ | ⟨rfl, hcount⟩ := hknown
  · intro t ht
    have hlength := ht.1 ▸ count_ids t revisionId
    rw [hcount] at hlength
    obtain ⟨row, hrows⟩ := List.length_eq_one_iff.mp hlength.symm
    have hin : row ∈ carriers t revisionId := by rw [hrows, List.mem_singleton]
    obtain ⟨hmem, rfl⟩ := mem_carriers.mp hin
    obtain ⟨htyped, tag, htag⟩ := ht.2.readable row hmem
    have hsigned := held_signed hrows ht
    rw [after, re_sign_after_alone H hrows htyped htag (by simp)]
    exact ⟨⟨rfl, hsigned⟩, by simpa using hgood _ _ hsigned⟩
  · rw [reSignAfterTransition, if_neg (by simp)]
    exact keeps_answering fun t ht => ⟨rfl, ht.1, ht.2.drop (ht.1 ▸ hcount)⟩

end Statements

/-- The process may be lost behind any commit but a bare change of status. -/
def cut (l : Commit) : Prop :=
  ∀ principal revisionId status, l ≠ .statusSet principal revisionId status

/-- A commit is fit to be the last one if its tables are signed throughout. -/
def fit (H : Digests) (key : Bytes) (l : Commit) (t : Tables) : Prop := cut l → AllSigned H key t

/-- A call that finds all rows signed leaves them signed, and is fit to be lost behind any of
its commits but a bare change of status. -/
def Settled (H : Digests) (key : Bytes) {κ β : Type} (x : Session Tables Commit κ β) : Prop :=
  Keeps (fit H key) (AllSigned H key) x fun _ => AllSigned H key

theorem settled_pure {κ β : Type} (r : Except κ β) :
    Settled H key (answering r : Session Tables Commit κ β) :=
  keeps_answering fun _ ht => ht

theorem settled_read {κ β : Type} (f : Tables → Except κ β) :
    Settled H key (Session.read f : Session Tables Commit κ β) :=
  keeps_read fun _ ht => ht

theorem settled_bind {κ β γ : Type} {x : Session Tables Commit κ β}
    {f : β → Session Tables Commit κ γ} (hx : Settled H key x) (hf : ∀ b, Settled H key (f b)) :
    Settled H key (x >>= f) :=
  keeps_bind hx (fun _ _ ht => ht) hf

theorem settled_execute {κ β : Type} {f : Tables → Except κ (β × Option (Commit × Tables))}
    (h : ∀ t b l t', AllSigned H key t → f t = .ok (b, some (l, t')) → AllSigned H key t') :
    Settled H key (Session.execute f : Session Tables Commit κ β) :=
  keeps_execute (fun _ _ ht _ => ht) (fun _ _ ht _ => ht) fun t b l t' ht hf =>
    ⟨h t b l t' ht hf, fun _ => h t b l t' ht hf⟩

theorem settled_transition {context : String}
    {old new : RevisionStatus} {change : RevisionRecord → RevisionRecord}
    (hchange : ∀ record, (change record).revisionId = record.revisionId) :
    Settled H key (transition H (some key) context principal revisionId old new change) := by
  intro t ht
  have hkeeps : Keeps (fit H key) (Held H key (idsOf t) ∅)
      (transition H (some key) context principal revisionId old new change)
      fun _ => AllSigned H key := by
    refine keeps_bind (keeps_verdict revisionId fun _ h => h) (fun _ _ h => h.1.2) fun before => ?_
    refine Keeps.assume (fun t h => h.2 before rfl) fun hknown => ?_
    have hcount : (idsOf t).count revisionId ≤ 1 := by
      obtain ⟨-, h⟩ | ⟨-, h⟩ := hknown <;> omega
    have hupdate := @keeps_update_one H key _ revisionId principal old (idsOf t) ∅
      (fit H key) (.statusSet principal revisionId new) (keeps_tag_record hchange) fun _ _ hcut => absurd rfl (hcut _ _ _)
    refine keeps_bind (hupdate.weaken (fun _ h => h.1) fun _ _ h => h) (fun _ _ h => h.elim)
      fun n => ?_
    split_ifs with hn
    · refine keeps_answering ?_
      rintro t ⟨hle, ⟨-, hheld⟩ | ⟨hpos, -⟩⟩
      · exact hheld.2
      · omega
    · refine (keeps_re_sign hknown fun _ t h _ => h.2).weaken ?_ fun _ _ h => h.2.2
      rintro t ⟨-, ⟨hzero, -⟩ | ⟨-, hheld⟩⟩
      · omega
      · exact hheld
  exact hkeeps t ⟨rfl, ht⟩

end NetRuleRouter.SignedRows
