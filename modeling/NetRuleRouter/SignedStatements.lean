import NetRuleRouter.SignedRows

/-!
# Repository calls leave signed rows

A transaction may pass through rows whose tags are out of date, as long as it
comes to rows that are signed again. The other statements add rows with their
tag, take rows away, or leave revisions and pointers alone.
-/

set_option autoImplicit false

namespace NetRuleRouter.SignedStatements
open TextOps Utf8 RevisionRecords RevisionStore SignedRows Sessions Sessions.Session

variable {H : Digests} {key : Bytes}

variable {P : Tables → Prop} {label : Commit} {principal revisionId : Text}
variable {change : RevisionRow → RevisionRow} {now : Int64}

section Transactions
variable {ids : List Text} {S S' : Set Text}

/-- What a part of a transaction comes to, if it does not fail. -/
def Comes (P Q : Tables → Prop) {κ β : Type} (x : Session Tables Commit κ β) : Prop :=
  Keeps (fun _ _ => True) P x fun r t => ∀ b, r = .ok b → Q t

variable {Q R : Tables → Prop} {κ β γ : Type} {x : Session Tables Commit κ β}

theorem comes_bind {f : β → Session Tables Commit κ γ} (hx : Comes P Q x)
    (hf : ∀ b, Comes Q R (f b)) : Comes P R (x >>= f) := by
  refine keeps_bind hx (fun e t _ b hb => by cases hb) fun b => ?_
  exact (hf b).weaken (fun t h => h b rfl) fun _ _ h => h

theorem comes_answering (r : Except κ β) :
    Comes P P (answering r : Session Tables Commit κ β) :=
  keeps_answering fun _ ht _ _ => ht

theorem comes_read (f : Tables → Except κ β) :
    Comes P P (Session.read f : Session Tables Commit κ β) :=
  keeps_read fun _ ht _ _ => ht

theorem settled_comes (h : Settled H key x) :
    Comes (AllSigned H key) (AllSigned H key) x := by
  intro t ht
  exact ⟨fun _ _ => (h t ht).1, fun _ _ => trivial⟩

theorem settled_transaction (h : ∀ ids, Comes (Held H key ids ∅) (AllSigned H key) x) :
    Settled H key (transaction label x) := by
  have hx : Comes (AllSigned H key) (AllSigned H key) x := fun t ht => h (idsOf t) t ⟨rfl, ht⟩
  exact keeps_transaction hx (fun _ _ ht => ht) fun _ _ ht _ => ht

theorem comes_update {which : RevisionRow → Bool}
    (hchange : KeepsTag change) (hP : ∀ t, P t → Held H key ids S t ∧
      ∀ row ∈ t.revisions, which row = true → row.revisionId ∈ S') :
    Comes P (Held H key ids (S ∪ S')) (updateRevisions label which change) := by
  have hbound : ∀ t, P t → Held H key ids S t ∧ t.revisions.countP which ≤ ids.length ∧
      ∀ row ∈ t.revisions, which row = true → row.revisionId ∈ S' := by
    intro t ht
    obtain ⟨hheld, hwhich⟩ := hP t ht
    refine ⟨hheld, ?_, hwhich⟩
    rw [← hheld.1, idsOf, List.length_map]
    exact List.countP_le_length
  have hupdate : Keeps (fun _ _ => True) P (updateRevisions label which change)
      (Updated H key ids S (S ∪ S') ids.length) :=
    keeps_update hchange hbound fun _ _ => trivial
  refine hupdate.weaken (fun _ h => h) fun r t h b hb => ?_
  subst hb
  obtain ⟨-, ⟨-, hids, hsigned⟩ | ⟨-, hheld⟩⟩ := h
  · exact ⟨hids, hsigned.mono Set.subset_union_left⟩
  · exact hheld

theorem comes_update_one {status : RevisionStatus} (hchange : KeepsTag change) :
    Comes (Held H key ids S) (Held H key ids (insert revisionId S))
      (updateRevisions label (inStatus principal revisionId status) change) := by
  rw [Set.insert_eq, Set.union_comm]
  exact comes_update hchange fun t ht => ⟨ht, fun row _ hrow => in_status_id hrow⟩

theorem comes_supersede {targetId previousId : Text} :
    Comes (Held H key ids S) (Held H key ids (insert previousId S))
      (supersedePrevious principal targetId previousId now) := by
  refine comes_bind (comes_update_one ⟨fun _ => rfl, fun _ => rfl, fun _ => rfl⟩)
    fun _ => comes_bind (comes_read _) fun _ => ?_
  split_ifs
  · exact comes_answering _
  · exact comes_answering _

theorem comes_activate {targetId : Text} :
    Comes (Held H key ids S) (Held H key ids (insert targetId S))
      (activateTarget principal targetId now) := by
  refine comes_bind (comes_read _) fun taken => ?_
  split_ifs
  · exact keeps_answering fun _ _ _ hb => by cases hb
  · refine comes_bind (comes_update_one ⟨fun _ => rfl, fun _ => rfl, fun _ => rfl⟩) fun _ => ?_
    split_ifs
    · exact comes_answering _
    · exact comes_answering _

theorem comes_verdict {f : Option HmacVerification → StoreSession β}
    (hf : ∀ before, Known ids revisionId before → Comes (Held H key ids ∅) Q (f before)) :
    Comes (Held H key ids ∅) Q (verdictBeforeTransition H (some key) revisionId >>= f) := by
  refine keeps_bind (keeps_verdict revisionId fun _ h => h) (fun _ _ _ _ hb => by cases hb)
    fun before => Keeps.assume (fun _ h => h.2 before rfl) fun hknown => ?_
  exact (hf before hknown).weaken (fun _ h => h.1) fun _ _ h => h

theorem comes_re_sign {before : Option HmacVerification} (hknown : Known ids revisionId before) :
    Comes (Held H key ids (insert revisionId S)) (Held H key ids S)
      (reSignAfterTransition H (some key) revisionId before) :=
  (keeps_re_sign hknown fun _ _ _ => trivial).weaken (fun _ h => h) fun _ _ h _ _ => h.2

theorem comes_mark_succeeded (principal targetId : Text) (previousId : Option Text) (now : Int64) :
    Comes (Held H key ids ∅) (Held H key ids ∅)
      (markApplySucceededFor H (some key) principal targetId previousId now) := by
  refine comes_verdict fun targetBefore htarget => ?_
  cases previousId with
  | none => exact comes_bind comes_activate fun _ => comes_re_sign htarget
  | some previous =>
    refine comes_verdict fun previousBefore hprevious => ?_
    refine comes_bind comes_supersede fun _ => comes_bind comes_activate fun _ => ?_
    exact comes_bind (comes_re_sign htarget) fun _ => comes_re_sign hprevious

theorem keeps_verdicts (hP : ∀ t, P t → Held H key ids ∅ t) (l : List Text) :
    Keeps (fun _ _ => True) P (verdictsBefore H (some key) l) fun r t => P t ∧ ∀ verdicts,
      r = .ok verdicts → verdicts.map Prod.fst = l ∧ ∀ v ∈ verdicts, Known ids v.1 v.2 := by
  induction l with
  | nil =>
    refine keeps_answering fun t ht => ⟨ht, fun verdicts hv => ?_⟩
    cases hv
    exact ⟨rfl, by simp⟩
  | cons id l ih =>
    refine keeps_bind (keeps_verdict id hP) (fun _ _ h => ⟨h.1, fun _ hv => by cases hv⟩)
      fun before => Keeps.assume (fun _ h => h.2 before rfl) fun hknown => ?_
    refine keeps_bind (ih.weaken (fun _ h => h.1) fun _ _ h => h)
      (fun _ _ h => ⟨h.1, fun _ hv => by cases hv⟩) fun others => ?_
    refine keeps_answering fun t ht => ⟨ht.1, fun verdicts hv => ?_⟩
    cases hv
    obtain ⟨hids, hothers⟩ := ht.2 others rfl
    refine ⟨by rw [List.map_cons, hids], fun v hv => ?_⟩
    obtain rfl | hv := List.mem_cons.mp hv
    · exact hknown
    · exact hothers v hv

theorem comes_re_sign_all {verdicts : List (Text × Option HmacVerification)}
    (hknown : ∀ v ∈ verdicts, Known ids v.1 v.2) :
    Comes (Held H key ids { id | id ∈ verdicts.map Prod.fst }) (Held H key ids ∅)
      (reSignAll H (some key) verdicts) := by
  induction verdicts with
  | nil =>
    have hset : { id | id ∈ ([] : List (Text × Option HmacVerification)).map Prod.fst } = ∅ := by
      simp
    rw [hset]
    exact comes_answering (.ok ())
  | cons v verdicts ih =>
    have hset : { id | id ∈ (v :: verdicts).map Prod.fst } =
        insert v.1 { id | id ∈ verdicts.map Prod.fst } := by
      ext id
      simp
    rw [hset]
    exact comes_bind (comes_re_sign (hknown v (by simp))) fun _ =>
      ih fun w hw => hknown w (by simp [hw])

theorem settled_reject_orphans (reason : Text) :
    Settled H key (rejectOrphanedCandidates H (some key) reason) := by
  refine settled_transaction fun ids => ?_
  -- the ids read are those of all the rows the update is going to match
  let Listed (l : List Text) (t : Tables) : Prop := Held H key ids ∅ t ∧
    ∀ row ∈ t.revisions, orphaned (some key) row = true → row.revisionId ∈ { id | id ∈ l }
  have hread : Keeps (fun _ _ => True) (Held H key ids ∅)
      (Session.read fun t =>
        .ok ((t.revisions.filter (orphaned (some key))).map RevisionRow.revisionId) :
        StoreSession (List Text)) fun r t => ∀ l, r = .ok l → Listed l t := by
    refine keeps_read fun t ht l hl => ⟨ht, fun row hrow ho => ?_⟩
    cases hl
    exact List.mem_map_of_mem (List.mem_filter.mpr ⟨hrow, ho⟩)
  refine keeps_bind hread (fun _ _ _ _ hb => by cases hb) fun l => ?_
  refine keeps_bind ((keeps_verdicts (P := Listed l) (fun _ h => h.1) l).weaken
    (fun _ h => h l rfl) fun _ _ h => h) (fun _ _ _ _ hb => by cases hb) fun verdicts => ?_
  refine Keeps.assume (fun _ h => h.2 verdicts rfl) ?_
  rintro ⟨rfl, hknown⟩
  have hupdate : Comes (Listed (verdicts.map Prod.fst))
      (Held H key ids { id | id ∈ verdicts.map Prod.fst })
      (updateRevisions .candidatesRejected (orphaned (some key)) fun row => { row with
        record := { row.record with status := .rejected, rejectedReason := some reason } }) := by
    rw [← Set.empty_union { id | id ∈ verdicts.map Prod.fst }]
    exact comes_update ⟨fun _ => rfl, fun _ => rfl, fun _ => rfl⟩ fun _ h => h
  have hrest := comes_bind hupdate fun n => comes_bind (comes_re_sign_all hknown) fun _ =>
    comes_answering (.ok n)
  exact hrest.weaken (fun _ h => h.1) fun _ _ h b hb => (h b hb).2

end Transactions

theorem settled_insert (principal : Text) (record : RevisionRecord) :
    Settled H key (insertCandidateFor H (some key) principal record) := by
  unfold insertCandidateFor
  split_ifs
  · exact settled_pure _
  · exact settled_pure _
  · exact settled_pure _
  · refine settled_execute fun t b l t' ht hf => ?_
    split_ifs at hf
    cases hf
    refine ⟨fun row hrow => ?_, fun row hrow hid => ?_, ht.pointers⟩
    · rcases List.mem_append.mp hrow with hrow | hrow
      · exact ht.readable row hrow
      · obtain rfl := List.mem_singleton.mp hrow
        exact ⟨rfl, _, rfl⟩
    · rcases List.mem_append.mp hrow with hrow | hrow
      · exact ht.rows row hrow hid
      · obtain rfl := List.mem_singleton.mp hrow
        exact ⟨rfl, rfl⟩

theorem settled_set_pointer (principal : Text) (pointer : ActiveRevisionPointer) :
    Settled H key (setActivePointerFor H (some key) principal pointer) := by
  refine settled_execute fun t b l t' ht hf => ?_
  split_ifs at hf
  cases hf
  refine ⟨ht.readable, ht.rows, fun row hrow => ?_⟩
  have hown : (signedPointer H (some key) principal pointer).Signed H key := ⟨rfl, rfl⟩
  dsimp only [upsertPointer] at hrow
  split_ifs at hrow
  · obtain ⟨old, hold, rfl⟩ := List.mem_map.mp hrow
    split_ifs
    · exact hown
    · exact ht.pointers old hold
  · rcases List.mem_append.mp hrow with hrow | hrow
    · exact ht.pointers row hrow
    · obtain rfl := List.mem_singleton.mp hrow
      exact hown

theorem settled_clear_pointer (principal : Text) :
    Settled H key (clearActivePointerFor principal) := by
  refine settled_execute fun t b l t' ht hf => ?_
  cases hf
  exact ⟨ht.readable, ht.rows, fun row hrow => ht.pointers row (List.mem_of_mem_filter hrow)⟩

theorem settled_delete (principal : Text) : Settled H key (deleteAllRevisionsFor principal) := by
  unfold deleteAllRevisionsFor
  split_ifs
  · exact settled_pure _
  · refine settled_bind (settled_clear_pointer principal) fun _ => ?_
    refine settled_execute fun t b l t' ht hf => ?_
    cases hf
    exact ⟨fun row hrow => ht.readable row (List.mem_of_mem_filter hrow),
      fun row hrow => ht.rows row (List.mem_of_mem_filter hrow), ht.pointers⟩

theorem settled_issue (principal token payloadJson : Text) (issuedAt expiresAt : Int64) :
    Settled H key (issueFor principal token payloadJson issuedAt expiresAt) := by
  unfold issueFor
  split_ifs
  · exact settled_pure _
  · exact settled_pure _
  · exact settled_pure _
  · refine settled_execute fun t b l t' ht hf => ?_
    split_ifs at hf
    cases hf
    exact ⟨ht.readable, ht.rows, ht.pointers⟩

theorem settled_consume (principal token : Text) (now : Int64) (accepts : Text → Bool) :
    Settled H key (consumeForMatching principal token now accepts) := by
  refine settled_execute fun t b l t' ht hf => ?_
  have hsame : t'.revisions = t.revisions ∧ t'.pointers = t.pointers := by
    split at hf
    · cases hf
    · split_ifs at hf <;> cases hf <;> exact ⟨rfl, rfl⟩
  refine ⟨?_, ?_, ?_⟩
  · rw [hsame.1]
    exact ht.readable
  · rw [hsame.1]
    exact ht.rows
  · rw [hsame.2]
    exact ht.pointers

end NetRuleRouter.SignedStatements
