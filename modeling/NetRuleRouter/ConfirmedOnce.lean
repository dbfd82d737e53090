import NetRuleRouter.CoordinatorRules
import NetRuleRouter.TokenLedger

/-!
# Every activation was confirmed once

The commit that makes a revision active comes behind the spending of a token
in the same call, with nothing in between but reading and asking. So in any
run each activation has a token of its own, issued for that revision of that
principal and presented in time.
-/

set_option autoImplicit false

namespace NetRuleRouter.ConfirmedOnce
open TextOps RevisionRecords RevisionStore Sessions Sessions.Session LockedPrograms Runs
open Activation CoordinatorCalls CoordinatorRules OrdinaryCommits TokenLedger

variable (C : Coordinator)

theorem calm_walks {n m : Unit} {t : Tables} {cs : List (Commit × Tables)}
    (h : Walks (ordinaryStep ∅) n t cs m) (w : Option Presented) : Walks (Watch C) w t cs w := by
  induction h with
  | nil => exact Walks.nil
  | cons hstep _ ih => exact Walks.cons (Watch.ordinary hstep.1 hstep.2) ih

theorem calm_tracks {κ β : Type} {x : Session Tables Commit κ β} (h : Calm ∅ x)
    (w : Option Presented) : x.Tracks (Watch C) w fun _ m => m = w := by
  intro t
  obtain ⟨_, hwalk, -⟩ := h t
  exact ⟨w, calm_walks C hwalk w, rfl⟩

theorem issue_tracks (principal token revisionId : Text) (issuedAt expiresAt : Int64)
    (w : Option Presented) :
    (issueFor principal token (C.payloads.activatePayload revisionId) issuedAt expiresAt).Tracks
      (Watch C) w fun _ m => m = w := by
  unfold issueFor
  split_ifs
  · exact tracks_answering rfl
  · exact tracks_answering rfl
  · exact tracks_answering rfl
  · refine tracks_execute (fun _ _ _ => rfl) (fun _ _ _ => rfl) fun t b l t' hf => ?_
    split_ifs at hf with hnone
    cases hf
    exact ⟨w, Watch.issued (Option.not_isSome_iff_eq_none.mp hnone), rfl⟩

def Ready (principal revisionId : Text) (w : Option Presented) : Prop :=
  ∃ p, w = some p ∧ p.principal = principal ∧
    C.payloads.tokenRevisionOf p.payload = some revisionId

theorem consume_tracks (principal revisionId token : Text) (now : Int64) (w : Option Presented) :
    (consumeForMatching principal token now fun payload =>
      C.payloads.tokenRevisionOf payload = some revisionId).Tracks (Watch C) w
      fun r m => ∀ payload, r = .ok (.consumed payload) → Ready C principal revisionId m := by
  refine tracks_execute (fun _ _ _ _ h => by cases h) (fun t b hf payload hb => ?_)
    fun t b l t' hf => ?_
  · cases hb
    dsimp only at hf
    split at hf
    · cases hf
    · split_ifs at hf <;> cases hf
  · dsimp only at hf
    split at hf
    · cases hf
    · rename_i row hrow
      by_cases hprincipal : principal = row.principal
      · subst hprincipal
        split_ifs at hf with hown hconsumed hexpired hrevision
        · exact absurd rfl hown
        · cases hf
        · cases hf
        · cases hf
          exact ⟨_, Watch.consumed hrow (by simpa using hconsumed) (Int64.not_lt.mp hexpired),
            fun _ _ => ⟨_, rfl, rfl, of_decide_eq_true hrevision⟩⟩
        · cases hf
          exact ⟨_, Watch.consumed hrow (by simpa using hconsumed) (Int64.not_lt.mp hexpired),
            fun _ h => by cases h⟩
      · rw [if_pos hprincipal] at hf
        cases hf

variable {w : Option Presented}

theorem activation_tracks {principal revisionId : Text} (h : Ready C principal revisionId w)
    (previousId : Option Text) (now : Int64) :
    (recordActivation C principal revisionId previousId now).Tracks (Watch C) w
      fun _ _ => True := by
  obtain ⟨p, rfl, rfl, hrevision⟩ := h
  refine tracks_transaction (fun _ => trivial) fun t b _ => ⟨none, ?_, trivial⟩
  refine Watch.activation hrevision (Calm.moves (calm_bind ?_ fun _ => ?_) t)
  · exact calm_during _ (calm_mark_succeeded _ _ _ _ _ _)
  · exact calm_during _ (calm_set_pointer _ _ _ _)

def watchStep (n : Option Presented) (s : Service) (l : Commit) (s' : Service)
    (m : Option Presented) : Prop :=
  Watch C n s.tables l s'.tables m

def Stays (α : Type) (p : Op α) : Prop :=
  ∀ w, p.Tracks (watchStep C) w fun _ m => m = w

def Follows (α : Type) (p : Op α) : Prop :=
  ∀ w, p.Tracks (watchStep C) w fun _ _ => True

variable {C} {β : Type} {x : Session Tables Commit PolicyError β}

theorem Stays.follows {α : Type} {p : Op α} (h : Stays C α p) : Follows C α p :=
  fun w => (h w).weaken fun _ _ _ => trivial

theorem tracks_under_lock {post : Except PolicyError β → Option Presented → Prop}
    (h : x.Tracks (Watch C) w post) : (underLock x).Tracks (watchStep C) w post :=
  Program.tracks_session (tracks_within (fun _ _ => rfl) h)

theorem stays_under_lock (h : Calm ∅ x) :
    Stays C β (underLock x) :=
  fun w => tracks_under_lock (calm_tracks C h w)

theorem stays_with_tables {x : StoreSession β} (operation : String) (h : Calm ∅ x) :
    Stays C β (withTables operation x) :=
  stays_under_lock (calm_during operation h)

theorem stays_gate {f : Service → Except PolicyError (Unit × Option (Commit × Service))}
    (hf : ∀ s b l t, f s = .ok (b, some (l, t)) → l = .gate ∧ t.tables = s.tables) :
    Stays C Unit (.session (.execute f)) := by
  refine fun w => Program.tracks_session (tracks_execute (fun _ _ _ => rfl) (fun _ _ _ => rfl) ?_)
  intro s b l t h
  obtain ⟨rfl, htables⟩ := hf s b l t h
  refine ⟨w, Watch.ordinary trivial ?_, rfl⟩
  rw [htables]
  exact Moves.refl _

theorem stays_rules : Rules (Stays C) where
  done _ _ := rfl
  bind hp hf w := Program.tracks_bind (hp w) (fun _ _ h => h) fun a m hm => by
    subst hm
    exact hf a m
  query _ _ _ := rfl
  attempt hp w := Program.tracks_attempt (hp w) fun _ _ h => h
  reads operation f := stays_with_tables operation (calm_read f)

theorem follows_rules : Rules (Follows C) where
  done _ _ := trivial
  bind hp hf w := Program.tracks_bind (hp w) (fun _ _ h => h) fun a m _ => hf a m
  query _ _ _ := trivial
  attempt hp w := Program.tracks_attempt (hp w) fun _ _ h => h
  reads operation f := (stays_rules.reads operation f).follows

theorem stays_entering : Stays C Unit enterGate := by
  refine stays_gate fun s b l t h => ?_
  split_ifs at h
  cases h
  exact ⟨rfl, rfl⟩

theorem stays_leaving : Stays C Unit leaveGate := by
  refine stays_gate fun s b l t h => ?_
  cases h
  exact ⟨rfl, rfl⟩

theorem follows_writes : Writes C (Follows C) where
  toRules := follows_rules
  entering := stays_entering.follows
  leaving := stays_leaving.follows
  findsOrInserts _ _ := (stays_under_lock (calm_find_or_insert C _ _)).follows
  inserts operation _ _ := (stays_with_tables operation (calm_insert _ _ _ _)).follows
  issues _ _ _ _ _ w :=
    tracks_under_lock (tracks_map_error (issue_tracks C _ _ _ _ _ w) fun _ _ _ => trivial)
  rejects _ _ _ := (stays_with_tables _ (calm_reject _ _ _ _ _)).follows
  deletes _ := (stays_with_tables _ (calm_delete _)).follows
  sweeps _ := (stays_with_tables _ (calm_reject_orphans _ _ _)).follows
  aligns _ _ _ := (stays_under_lock (calm_align_pointer C _ _ _)).follows
  retires _ _ _ := (stays_under_lock (calm_retire C _ _ _)).follows

section Activation
variable {principal revisionId : Text}

theorem Stays.ready {α : Type} {p : Op α} (h : Stays C α p) (hw : Ready C principal revisionId w) :
    p.Tracks (watchStep C) w fun r m => ∀ a, r = .ok a → Ready C principal revisionId m := by
  refine (h w).weaken fun _ m hm _ _ => ?_
  subst hm
  exact hw

theorem spend_tracks (token : Text) (now : Int64) (w : Option Presented) :
    (spendToken C principal revisionId token now).Tracks (Watch C) w fun r m =>
      ∀ payload previous, r = .ok (.consumed payload, previous) →
        Ready C principal revisionId m := by
  refine tracks_bind (consume_tracks C principal revisionId token now w)
    (fun _ _ _ _ _ h => by cases h) fun outcome m hm => ?_
  cases outcome with
  | consumed payload =>
    refine tracks_bind (calm_tracks C (calm_attempt (calm_read _)) m)
      (fun _ _ _ _ _ h => by cases h) fun previous m' hm' => ?_
    subst hm'
    exact tracks_answering fun _ _ _ => hm payload rfl
  | unknown | alreadyConsumed | expired | payloadRejected =>
    exact tracks_answering fun _ _ h => by cases h

theorem phase1_tracks (token : Text) (now : Int64) (w : Option Presented) :
    (phase1ConsumeAndMark C principal revisionId token now).Tracks (watchStep C) w
      fun r m => ∀ phase1, r = .ok phase1 → Ready C principal revisionId m := by
  have hspend : (withTables "consume_token" (spendToken C principal revisionId token now)).Tracks
      (watchStep C) w fun r m => ∀ payload previous, r = .ok (.consumed payload, previous) →
        Ready C principal revisionId m := by
    refine tracks_under_lock (tracks_map_error (spend_tracks token now w) fun r m hr => ?_)
    cases r with
    | error e => exact fun _ _ h => by cases h
    | ok b => exact fun payload previous h => hr payload previous (by cases h; rfl)
  refine Program.tracks_bind hspend (fun _ _ _ _ h => by cases h) ?_
  rintro ⟨outcome, previous⟩ m hm
  cases outcome with
  | unknown | alreadyConsumed | expired | payloadRejected => exact fun _ h => by cases h
  | consumed payload =>
    have hr := stays_rules (C := C)
    refine Stays.ready ?_ (hm payload previous rfl)
    refine hr.bind (hr.confirmed _) fun _ => hr.bind (hr.done _) fun _ => ?_
    refine hr.bind (hr.apply_target_sids principal) fun _ => ?_
    refine hr.bind (hr.query Query.writeMarker) fun failed => ?_
    cases failed with
    | none | some message => exact hr.done _

theorem phase3a_tracks (hw : Ready C principal revisionId w) (phase1 : Phase1Outcome)
    (drift : List SidFailure) (now : Int64) :
    (phase3aSuccess C principal revisionId phase1 drift now).Tracks (watchStep C) w
      fun _ _ => True := by
  have hr := follows_rules (C := C)
  refine Program.tracks_bind (stays_rules.reads _ _ w) (fun _ _ _ => trivial) ?_
  rintro verdict _ rfl
  by_cases hverdict : verdict = some .tampered
  · rw [if_pos hverdict]
    trivial
  · rw [if_neg hverdict]
    refine Program.tracks_bind (tracks_under_lock (activation_tracks C hw _ now))
      (fun _ _ _ => trivial) fun _ m _ => ?_
    refine hr.bind (hr.query Query.clearMarker) (fun _ => ?_) m
    split_ifs
    · exact hr.done _
    · exact hr.done _

theorem settle_tracks (hw : Ready C principal revisionId w) (record : RevisionRecord)
    (phase1 : Phase1Outcome) (policy : ApplyFailurePolicy) (now : Int64) :
    (applyAndSettle C principal revisionId record phase1 policy now).Tracks (watchStep C) w
      fun _ _ => True := by
  have h := follows_writes (C := C)
  refine Program.tracks_bind (stays_rules.still_inheriting _ _ w) (fun _ _ _ => trivial) ?_
  rintro targets _ rfl
  refine Program.tracks_bind (stays_rules.phase2_apply _ _ _) (fun _ _ _ => trivial) ?_
  rintro phase2 _ rfl
  by_cases hfailed : policy ≠ .bestEffort ∧ phase2.failed ≠ []
  · rw [if_pos hfailed]
    exact h.phase3b_revert_and_reject _ _ _ _ _
  · rw [if_neg hfailed]
    have hcommit : (phase3aSuccess C principal revisionId phase1
        (if policy = .bestEffort then phase2.failed else []) now).attempt.Tracks (watchStep C) _
        fun _ _ => True :=
      Program.tracks_attempt (phase3a_tracks hw phase1 _ now) fun _ _ _ => trivial
    refine Program.tracks_bind hcommit (fun _ _ _ => trivial) fun committed m _ => ?_
    cases committed with
    | ok outcome => exact h.done _ m
    | error error => exact h.phase3a_unrecorded _ _ _ _ _ m

theorem activate_tracks (revisionId token : Text) (base : Option Text) :
    Follows C _ (activateOver C revisionId token base) := by
  have h := follows_writes (C := C)
  refine h.with_pass (h.bind (h.load_record revisionId) fun record => ?_)
  refine h.bind (h.expect_candidate revisionId record) fun _ => ?_
  refine h.bind (h.owner_of revisionId) fun principal => ?_
  refine h.bind (h.check_base principal revisionId base) fun _ => ?_
  refine h.bind (h.query Query.now) fun now w => ?_
  refine Program.tracks_bind (phase1_tracks token now w) (fun _ _ _ => trivial) ?_
  intro phase1 m hm
  have hready := hm phase1 rfl
  refine Program.tracks_bind (stays_rules.query Query.failurePolicy m) (fun _ _ _ => trivial) ?_
  rintro policy _ rfl
  by_cases hpolicy : policy = ApplyFailurePolicy.preFlightThenAllOrNothing
  · rw [if_pos hpolicy]
    refine Program.tracks_bind (stays_rules.apply_target_sids principal _)
      (fun _ _ _ => trivial) ?_
    rintro registered _ rfl
    refine Program.tracks_bind (stays_rules.run_pre_flight _ _ _ _) (fun _ _ _ => trivial) ?_
    rintro failures _ rfl
    by_cases hfailures : failures ≠ []
    · rw [if_pos hfailures]
      exact h.phase3b_pre_flight_failed _ _ _ _
    · rw [if_neg hfailures]
      exact settle_tracks hready record phase1 policy now
  · rw [if_neg hpolicy]
    exact settle_tracks hready record phase1 policy now

end Activation

theorem program_tracks (call : Call) :
    (program C call).Tracks (watchStep C) none fun _ _ => True :=
  (follows_writes (C := C)).program activate_tracks call none

variable {n m : Option Presented} {principal revisionId : Text} {s : Service}
  {cs : List (Commit × Service)}

theorem watch_active {t t' : Tables} {l : Commit} (h : Watch C n t l t' m)
    (hactive : ActiveAt t' principal revisionId) :
    ActiveAt t principal revisionId ∨ l = .activation principal revisionId := by
  cases h with
  | ordinary _ hmoves =>
    rcases hmoves.active _ _ hactive with ht | hnone
    · exact Or.inl ht
    · exact hnone.elim
  | issued _ | consumed _ _ _ => exact Or.inl hactive
  | activation _ hmoves =>
    rcases hmoves.active _ _ hactive with ht | hown
    · exact Or.inl ht
    · cases hown
      exact Or.inr rfl

theorem walks_active (h : Walks (watchStep C) n s cs m)
    (hactive : ActiveAt (final s cs).tables principal revisionId) :
    ActiveAt s.tables principal revisionId ∨
      ∃ c ∈ cs, c.1 = .activation principal revisionId := by
  induction h with
  | nil => exact Or.inl hactive
  | @cons n n' m s s' l cs hstep _ ih =>
    rw [final_cons] at hactive
    rcases ih hactive with hs' | ⟨c, hc, hlabel⟩
    · rcases watch_active hstep hs' with hs | hl
      · exact Or.inl hs
      · exact Or.inr ⟨(l, s'), by simp, hl⟩
    · exact Or.inr ⟨c, List.mem_cons_of_mem _ hc, hlabel⟩

theorem noted_active (h : Walks (watchStep C) n s cs m) (i : ℕ) (tr : Trace)
    (hactive : ActiveAt (final s cs).tables principal revisionId)
    (hbefore : ¬ActiveAt s.tables principal revisionId) :
    ∃ j made, noted i cs tr = made ++ tr ∧ (j, .activation principal revisionId) ∈ made := by
  obtain ⟨c, hc, hlabel⟩ := (walks_active h hactive).resolve_left hbefore
  refine ⟨i, _, noted_eq i cs tr, ?_⟩
  rw [List.mem_reverse, ← hlabel]
  exact List.mem_map_of_mem hc

theorem step_active {p p' : ServicePool} {a : ServiceAct} {g : ℕ → Option Presented}
    (hg : Watched (watchStep C) none p g) (hp : serviceStep C p a = some p')
    (hactive : ActiveAt p'.store.tables principal revisionId)
    (hbefore : ¬ActiveAt p.store.tables principal revisionId) :
    ∃ i made, p'.trace = made ++ p.trace ∧ (i, .activation principal revisionId) ∈ made := by
  cases step_stepped hp with
  | run hcall =>
    obtain ⟨m, hwalk, -⟩ := (hg.running _ _ hcall).2 p.store
    exact noted_active hwalk _ p.trace hactive hbefore
  | @lose _ k _ _ hcall =>
    obtain ⟨m, hwalk, -⟩ := (hg.running _ _ hcall).2 p.store
    obtain ⟨m', hwalk'⟩ := hwalk.take k
    exact noted_active hwalk' _ p.trace hactive hbefore
  | _ => exact absurd hactive hbefore

variable (C) in
/-- What a run has come to under the rule that every activation is confirmed. -/
structure EachConfirmedOnce (p : ServicePool) : Prop where
  /-- A revision becomes active in a step that makes an activation of it. -/
  becomes : ∀ a p', serviceStep C p a = some p' → ∀ principal revisionId,
    ActiveAt p'.store.tables principal revisionId →
    ¬ActiveAt p.store.tables principal revisionId →
    ∃ i made, p'.trace = made ++ p.trace ∧ (i, .activation principal revisionId) ∈ made
  /-- The call that makes an activation has consumed a token that was issued for the revision
  and its principal, and had not expired. -/
  confirmed : ∀ i principal revisionId later past,
    p.trace = later ++ (i, .activation principal revisionId) :: past →
    ∃ token now expiresAt j,
      presented i past =
        some ⟨principal, token, C.payloads.activatePayload revisionId, now⟩ ∧
      (j, .tokenIssued principal token (C.payloads.activatePayload revisionId) expiresAt) ∈ past ∧
      now ≤ expiresAt
  /-- Activations have different tokens. -/
  spentOnce : (spentIn p.trace).Nodup
  /-- Whatever came of it, a token is consumed no second time. -/
  consumedOnce : (consumedIn p.trace).Nodup

theorem activations_confirmed_once (C : Coordinator) (s : Service) (hs : s.tables.tokens = [])
    (p : ServicePool) (h : Reached (serviceStep C) (fun _ _ => True) (fresh s) p) :
    EachConfirmedOnce C p := by
  have hcommit (tr : Trace) (s : Service) (g : ℕ → Option Presented) (i : ℕ) (l : Commit)
      (s' : Service) (m : Option Presented) (hT : Ledger C tr s.tables g)
      (hw : watchStep C (g i) s l s' m) :
      Ledger C ((i, l) :: tr) s'.tables (Function.update g i m) := ledger_commit hT hw
  have hrestart (tr : Trace) (s : Service) (g : ℕ → Option Presented)
      (hT : Ledger C tr s.tables g) : Ledger C tr (restart s).tables g := hT
  obtain ⟨g, hledger, hwatched⟩ := pool_tracks (T := fun tr s g => Ledger C tr s.tables g)
    program_tracks hcommit hrestart (ledger_start hs) h
  refine ⟨fun a p' hp principal revisionId => step_active hwatched hp, ?_, hledger.once,
    hledger.consumedOnce⟩
  intro i principal revisionId later past htrace
  have hall := hledger.confirmed
  rw [htrace] at hall
  obtain ⟨⟨_, token, _, now⟩, hpresented, rfl, rfl, _, expiresAt, j, -, hissued, hnow⟩ :=
    confirmed_of_split hall
  exact ⟨token, now, expiresAt, j, hpresented, hissued, hnow⟩

def confirmedRun : List ServiceAct :=
  [.start (.issueConfirmationToken "rev-1".toList 300), .run 0, .run 0, .run 0,
    .answer 0 sampleAnswers, .answer 0 sampleAnswers, .run 0,
    .start (.activateOver "rev-1".toList "token".toList none), .run 1, .run 1, .run 1, .run 1,
    .answer 1 sampleAnswers, .run 1, .answer 1 sampleAnswers, .answer 1 sampleAnswers,
    .answer 1 sampleAnswers, .run 1, .run 1]

theorem sample_activation_confirmed :
    ∃ p, runActions (serviceStep sampleCoordinator) (fresh sampleService) confirmedRun = some p ∧
      (1, .activation "S-1-5-21-1".toList "rev-1".toList) ∈ p.trace ∧
      EachConfirmedOnce sampleCoordinator p := by
  have hrun : (runActions (serviceStep sampleCoordinator) (fresh sampleService) confirmedRun).map
      (fun p => decide ((1, .activation "S-1-5-21-1".toList "rev-1".toList) ∈ p.trace)) =
      some true := by decide +kernel
  obtain ⟨p, hp, hmem⟩ := Option.map_eq_some_iff.mp hrun
  exact ⟨p, hp, of_decide_eq_true hmem,
    activations_confirmed_once sampleCoordinator sampleService rfl p
      (Reached.rest.of_run (fun _ _ _ => trivial) hp)⟩

end NetRuleRouter.ConfirmedOnce
