import NetRuleRouter.CoordinatorRules
import NetRuleRouter.SignedStatements

/-!
# The service and its own tags

Every session of the coordinator finds all rows signed and leaves them so. A
candidate is rejected by two statements outside a transaction, though: the
update of its status, and the signing of the row it changed. A process lost
between the two leaves a row that reads as tampered with.
-/

set_option autoImplicit false

namespace NetRuleRouter.SignedRuns
open TextOps Utf8 Sorting RevisionRecords RevisionStore RevisionLookup SignedRows
open SignedStatements Sessions Sessions.Session LockedPrograms Runs Activation CoordinatorCalls
open CoordinatorRules

section Sessions
variable {H : Digests} {key : Bytes} {β : Type} {x : StoreSession β}

theorem settled_during (operation : String) (h : Settled H key x) :
    Settled H key (during operation x) :=
  keeps_map_error h fun _ _ ht => ht

theorem comes_during {P Q : Tables → Prop} (operation : String)
    (h : Comes P Q x) : Comes P Q (during operation x) := by
  refine keeps_map_error h fun r t hr b hb => ?_
  cases r with
  | error e => cases hb
  | ok b => exact hr b rfl

variable {C : Coordinator} (hkey : C.signingKey = some key)
include hkey

theorem settled_find_or_insert (submission : CandidateSubmission) (record : RevisionRecord) :
    Settled C.digests key (findOrInsert C submission record) := by
  refine settled_bind (settled_during _ (settled_read _)) fun existing => ?_
  cases existing with
  | some record => exact settled_pure _
  | none =>
    dsimp only
    rw [hkey]
    exact settled_bind (settled_during _ (settled_insert _ record)) fun _ => settled_pure _

theorem settled_record_activation (principal revisionId : Text) (previousId : Option Text)
    (now : Int64) :
    Settled C.digests key (recordActivation C principal revisionId previousId now) := by
  unfold recordActivation
  rw [hkey]
  refine settled_transaction fun ids => ?_
  refine comes_bind (comes_during _ (comes_mark_succeeded _ _ _ _)) fun _ => comes_during _ ?_
  exact (settled_comes (settled_set_pointer _ _)).weaken (fun _ h => h.2) fun _ _ h => h

theorem settled_reject (principal revisionId reason : Text) :
    Settled C.digests key
      (markApplyFailedFor C.digests C.signingKey principal revisionId reason) := by
  rw [hkey]
  exact settled_transition fun _ => rfl

theorem settled_move_pointer (principal : Text) (active : Option RevisionRecord) (now : Int64) :
    Settled C.digests key (movePointer C principal active now) := by
  cases active with
  | none => exact settled_during _ (settled_clear_pointer principal)
  | some record =>
    unfold movePointer
    rw [hkey]
    exact settled_during _ (settled_set_pointer principal _)

theorem settled_align_pointer (principal : Text) (active : Option RevisionRecord) (now : Int64) :
    Settled C.digests key (alignPointer C principal active now) := by
  refine settled_bind (settled_during _ (settled_read _)) fun pointer => ?_
  refine settled_bind (settled_during _ (settled_read _)) fun verdicts => ?_
  dsimp only
  split_ifs
  · exact settled_pure _
  · exact settled_bind (settled_move_pointer hkey principal active now) fun _ => settled_pure _

theorem settled_retire (principal revisionId : Text) (now : Int64) :
    Settled C.digests key (retireActive C principal revisionId now) := by
  refine settled_transaction fun ids => ?_
  have hrolled : Settled C.digests key
      (markRolledBackFor C.digests C.signingKey principal revisionId now) := by
    rw [hkey]
    exact settled_transition fun _ => rfl
  refine comes_bind (comes_during _ ((settled_comes hrolled).weaken (fun _ h => h.2) ?_)) fun _ =>
    comes_during _ (settled_comes (settled_clear_pointer principal))
  exact fun _ _ h => h

end Sessions

section Programs
variable (H : Digests) (key : Bytes)

def LeavesSigned (α : Type) (p : Op α) : Prop :=
  p.Keeps (fun s => AllSigned H key s.tables) fun l s => fit H key l s.tables

variable {H key} {β : Type}

theorem leaves_signed_under_lock {x : Session Tables Commit PolicyError β}
    (h : Settled H key x) : LeavesSigned H key β (underLock x) :=
  Program.keeps_session (keeps_within (fun _ _ => rfl) h)

theorem leaves_signed_with_tables {x : StoreSession β} (operation : String)
    (h : Settled H key x) : LeavesSigned H key β (withTables operation x) :=
  leaves_signed_under_lock (settled_during operation h)

theorem leaves_signed_gate {f : Service → Except PolicyError (Unit × Option (Commit × Service))}
    (hf : ∀ s b l t, f s = .ok (b, some (l, t)) → t.tables = s.tables) :
    LeavesSigned H key Unit (.session (.execute f)) := by
  refine Program.keeps_session (keeps_execute (fun s e hs _ => hs) (fun s b hs _ => hs) ?_)
  intro s b l t hs h
  rw [hf s b l t h]
  exact ⟨hs, fun _ => hs⟩

theorem leaves_signed_rules : Rules (LeavesSigned H key) where
  done _ := trivial
  bind := Program.keeps_bind
  query := Program.keeps_query
  attempt := Program.keeps_attempt
  reads operation f := leaves_signed_with_tables operation (settled_read f)

variable {C : Coordinator} (hkey : C.signingKey = some key)
include hkey

theorem leaves_signed_writes : Writes C (LeavesSigned C.digests key) where
  toRules := leaves_signed_rules
  entering := by
    refine leaves_signed_gate fun s b l t h => ?_
    split_ifs at h
    cases h
    rfl
  leaving := by
    refine leaves_signed_gate fun s b l t h => ?_
    cases h
    rfl
  findsOrInserts submission record :=
    leaves_signed_under_lock (settled_find_or_insert hkey submission record)
  inserts operation principal record := by
    rw [hkey]
    exact leaves_signed_with_tables operation (settled_insert principal record)
  issues _ _ _ _ _ := leaves_signed_with_tables _ (settled_issue _ _ _ _ _)
  rejects principal revisionId reason :=
    leaves_signed_with_tables _ (settled_reject hkey principal revisionId reason)
  deletes principal := leaves_signed_with_tables _ (settled_delete principal)
  sweeps reason := by
    unfold rejectOrphans
    rw [hkey]
    exact leaves_signed_with_tables _ (settled_reject_orphans reason)
  aligns principal active now :=
    leaves_signed_under_lock (settled_align_pointer hkey principal active now)
  retires principal revisionId now :=
    leaves_signed_under_lock (settled_retire hkey principal revisionId now)

theorem leaves_signed_phase1 (principal revisionId token : Text) (now : Int64) :
    LeavesSigned C.digests key _ (phase1ConsumeAndMark C principal revisionId token now) := by
  have h := leaves_signed_writes hkey
  have hspend : Settled C.digests key (spendToken C principal revisionId token now) := by
    refine settled_bind (settled_consume _ _ _ _) fun outcome => ?_
    cases outcome with
    | consumed payloadJson =>
      refine settled_bind ?_ fun _ => settled_pure _
      exact Session.keeps_attempt (settled_read _) fun _ _ ht => ht
    | unknown | alreadyConsumed | expired | payloadRejected => exact settled_pure _
  refine h.bind (leaves_signed_with_tables _ hspend) fun spent => ?_
  refine h.bind (h.confirmed _) fun _ => h.bind (h.done _) fun _ => ?_
  refine h.bind (h.apply_target_sids principal) fun _ => ?_
  refine h.bind (h.query Query.writeMarker) fun failed => ?_
  cases failed with
  | none | some message => exact h.done _

theorem leaves_signed_phase3a (principal revisionId : Text) (phase1 : Phase1Outcome)
    (drift : List SidFailure) (now : Int64) :
    LeavesSigned C.digests key _ (phase3aSuccess C principal revisionId phase1 drift now) := by
  have h := leaves_signed_writes hkey
  refine h.bind (h.reads _ _) fun verdict => ?_
  by_cases hverdict : verdict = some .tampered
  · rw [if_pos hverdict]
    exact h.done _
  · rw [if_neg hverdict]
    refine h.bind (leaves_signed_under_lock (settled_record_activation hkey _ _ _ _)) fun _ => ?_
    refine h.bind (h.query Query.clearMarker) fun _ => ?_
    split_ifs
    · exact h.done _
    · exact h.done _

theorem leaves_signed_settle (principal revisionId : Text) (record : RevisionRecord)
    (phase1 : Phase1Outcome) (policy : ApplyFailurePolicy) (now : Int64) :
    LeavesSigned C.digests key _
      (applyAndSettle C principal revisionId record phase1 policy now) := by
  have h := leaves_signed_writes hkey
  refine h.bind (h.still_inheriting _ _) fun _ => h.bind (h.phase2_apply _ _) fun phase2 => ?_
  by_cases hfailed : policy ≠ .bestEffort ∧ phase2.failed ≠ []
  · rw [if_pos hfailed]
    exact h.phase3b_revert_and_reject _ _ _ _
  · rw [if_neg hfailed]
    refine h.bind (h.attempt (leaves_signed_phase3a hkey _ _ _ _ _)) fun committed => ?_
    cases committed with
    | ok outcome => exact h.done _
    | error error => exact h.phase3a_unrecorded _ _ _ _ _

theorem leaves_signed_activate (revisionId token : Text) (base : Option Text) :
    LeavesSigned C.digests key _ (activateOver C revisionId token base) := by
  have h := leaves_signed_writes hkey
  refine h.with_pass (h.bind (h.load_record revisionId) fun record => ?_)
  refine h.bind (h.expect_candidate revisionId record) fun _ => ?_
  refine h.bind (h.owner_of revisionId) fun principal => ?_
  refine h.bind (h.check_base principal revisionId base) fun _ => ?_
  refine h.bind (h.query Query.now) fun now => ?_
  refine h.bind (leaves_signed_phase1 hkey principal revisionId token now) fun phase1 => ?_
  refine h.bind (h.query Query.failurePolicy) fun policy => ?_
  have hsettle := leaves_signed_settle hkey principal revisionId record phase1 policy now
  split_ifs
  · refine h.bind (h.apply_target_sids principal) fun _ => ?_
    refine h.bind (h.run_pre_flight _ _ _) fun failures => ?_
    split_ifs
    · exact h.phase3b_pre_flight_failed _ _ _
    · exact hsettle
  · exact hsettle

theorem leaves_signed_program (call : Call) :
    LeavesSigned C.digests key Unit (program C call) :=
  (leaves_signed_writes hkey).program (leaves_signed_activate hkey) call

end Programs

section Reports
variable (H : Digests) (key : Bytes) (t : Tables)

theorem verify_all_verified :
    (∃ rows, verifyAll H (some key) t = .ok rows ∧ ∀ v ∈ rows, v.2 = .verified) ↔
      ∀ row ∈ t.revisions, row.Signed H key := by
  have hread : (∃ rows, verifyAll H (some key) t = .ok rows ∧ ∀ v ∈ rows, v.2 = .verified) ↔
      ∃ rows, (sortBy (fun a b => (compare a.record.createdAt b.record.createdAt).then
          (compare a.revisionId b.revisionId)) t.revisions).mapM
          (readRow "revisions verify_all") = .ok rows ∧
        ∀ r ∈ rows, verify H r.1 r.2.1 r.2.2 key = .verified := by
    unfold verifyAll
    dsimp only
    generalize List.mapM (readRow "revisions verify_all") _ = found
    cases found with
    | error e => simp [bind, Except.bind]
    | ok rows =>
      simp only [bind, Except.bind, verdict, Except.ok.injEq, exists_eq_left']
      exact List.forall_mem_map
  rw [hread, map_m_all]
  simp only [mem_sort_by, read_row_ok, verify_verified]
  refine forall₂_congr fun row _ => ⟨?_, fun h => ?_⟩
  · rintro ⟨⟨principal, record, tag⟩, ⟨htyped, rfl, rfl, htag⟩, hown⟩
    exact ⟨htyped, htag.trans (congrArg TagColumn.blob hown)⟩
  · exact ⟨(row.principal, row.record, computeHmac H row.principal row.record key),
      ⟨h.1, rfl, rfl, h.2⟩, rfl⟩

theorem verify_all_pointers_verified :
    (∃ rows, verifyAllPointers H (some key) t = .ok rows ∧ ∀ v ∈ rows, v.2 = .verified) ↔
      ∀ row ∈ t.pointers, row.Signed H key := by
  unfold verifyAllPointers
  rw [map_m_all]
  simp only [mem_sort_by]
  refine forall₂_congr fun row _ => ?_
  unfold readPointer PointerRow.Signed
  cases row.typed with
  | false => simp
  | true =>
    cases row.rowHmac with
    | notBlob => simp
    | blob tag => simp [pointerVerdict, verify_pointer_verified]

def Verifies : Prop :=
  (∃ rows, verifyAll H (some key) t = .ok rows ∧ ∀ v ∈ rows, v.2 = .verified) ∧
    ∃ rows, verifyAllPointers H (some key) t = .ok rows ∧ ∀ v ∈ rows, v.2 = .verified

def Untampered : Prop :=
  (∃ rows, verifyAll H (some key) t = .ok rows ∧ ∀ v ∈ rows, v.2 ≠ .tampered) ∧
    ∃ rows, verifyAllPointers H (some key) t = .ok rows ∧ ∀ v ∈ rows, v.2 ≠ .tampered

variable {H key t}

theorem verifies_iff : Verifies H key t ↔ AllSigned H key t := by
  rw [Verifies, verify_all_verified, verify_all_pointers_verified]
  refine ⟨fun h => ⟨fun row hrow => ?_, fun row hrow _ => h.1 row hrow, h.2⟩, fun h => ?_⟩
  · exact ⟨(h.1 row hrow).1, _, (h.1 row hrow).2⟩
  · exact ⟨fun row hrow => h.rows row hrow (Set.notMem_empty _), h.pointers⟩

theorem Verifies.untampered (h : Verifies H key t) : Untampered H key t := by
  have hverified {v : Text × HmacVerification} (hv : v.2 = .verified) : v.2 ≠ .tampered := by
    simp [hv]
  obtain ⟨⟨rows, hrows, hv⟩, pointers, hpointers, hw⟩ := h
  exact ⟨⟨rows, hrows, fun v h => hverified (hv v h)⟩,
    pointers, hpointers, fun v h => hverified (hw v h)⟩

end Reports

/-- The process is not lost between the update that rejects a candidate and the signing of the
row behind it: the one status update that commits on its own. -/
def RejectedAndSigned (p : ServicePool) (a : ServiceAct) : Prop :=
  ∀ l, lostAfter p a = some l → cut l

/-- A service that loses no process between the two statements of a rejection never makes its
own rows read as tampered with. -/
theorem own_rows_never_tampered (C : Coordinator) (key : Bytes) (hkey : C.signingKey = some key)
    (s : Service) (hs : Verifies C.digests key s.tables) (p : ServicePool)
    (h : Reached (serviceStep C) RejectedAndSigned (fresh s) p) :
    Untampered C.digests key p.store.tables := by
  have hrestart (s : Service) (hs : AllSigned C.digests key s.tables) :
      AllSigned C.digests key (restart s).tables := hs
  have hsigned : AllSigned C.digests key p.store.tables :=
    pool_keeps (leaves_signed_program hkey) hrestart (fun _ _ hfit hcut => hfit hcut)
      (verifies_iff.mp hs) h
  exact (verifies_iff.mpr hsigned).untampered

def movedRun : List ServiceAct :=
  [.start (.activateOver "rev-1".toList "token".toList (some "base-1".toList)), .run 0, .run 0,
    .run 0, .run 0, .answer 0 sampleAnswers]

theorem sample_service_verifies : Verifies sha2Digests [7] sampleService.tables := by
  refine verifies_iff.mpr ⟨fun row hrow => ?_, fun row hrow _ => ?_, by simp [sampleService]⟩
  · obtain rfl : row = sampleCandidate := by simpa [sampleService] using hrow
    exact ⟨rfl, _, rfl⟩
  · obtain rfl : row = sampleCandidate := by simpa [sampleService] using hrow
    exact ⟨rfl, rfl⟩

theorem rejected_whole_untampered :
    ∃ p, runActions (serviceStep sampleCoordinator) (fresh sampleService)
        (movedRun ++ [.run 0, .stop]) = some p ∧
      Untampered sha2Digests [7] p.store.tables := by
  have hrun : (runActions (serviceStep sampleCoordinator) (fresh sampleService)
      (movedRun ++ [.run 0, .stop])).isSome = true := by decide +kernel
  obtain ⟨p, hp⟩ := Option.isSome_iff_exists.mp hrun
  refine ⟨p, hp, own_rows_never_tampered sampleCoordinator [7] rfl sampleService
    sample_service_verifies p (Reached.rest.of_run ?_ hp)⟩
  intro q a ha l hl
  simp only [movedRun, List.cons_append, List.nil_append, List.mem_cons, List.not_mem_nil,
    or_false] at ha
  obtain rfl | rfl | rfl | rfl | rfl | rfl | rfl | rfl := ha <;> cases hl

/-- The process is lost behind the update that rejects the candidate. -/
theorem half_rejected_tampered :
    Verifies sha2Digests [7] sampleService.tables ∧
    ∃ p, Reached (serviceStep sampleCoordinator) (fun _ _ => True) (fresh sampleService) p ∧
      ¬Untampered sha2Digests [7] p.store.tables := by
  refine ⟨sample_service_verifies, ?_⟩
  have hrun : (runActions (serviceStep sampleCoordinator) (fresh sampleService)
      (movedRun ++ [.lose 0 1])).map (fun p =>
        (verifyAll sha2Digests (some [7]) p.store.tables).toOption) =
      some (some [("rev-1".toList, .tampered)]) := by decide +kernel
  obtain ⟨p, hp, hrows⟩ := Option.map_eq_some_iff.mp hrun
  refine ⟨p, Reached.rest.of_run (fun _ _ _ => trivial) hp, ?_⟩
  rintro ⟨⟨rows, hok, hnone⟩, -⟩
  rw [hok] at hrows
  obtain rfl : rows = [("rev-1".toList, .tampered)] := by simpa [Except.toOption] using hrows
  exact hnone _ (List.mem_singleton_self _) rfl

end NetRuleRouter.SignedRuns
