import NetRuleRouter.OrdinaryCommits

/-!
# Tokens and what they were spent on

Beside every call stands a watcher that knows which token the call has
presented and not yet used. Read together with the trace of all commits, the
watchers show that a token is issued before it is presented, presented once,
and used for one activation at most.
-/

set_option autoImplicit false

namespace NetRuleRouter.TokenLedger
open TextOps RevisionRecords RevisionStore Activation OrdinaryCommits

abbrev Trace := List (ℕ × Commit)

structure Presented where
  principal : Text
  token : Text
  payload : Text
  now : Int64

variable (C : Coordinator)

inductive Watch : Option Presented → Tables → Commit → Tables → Option Presented → Prop where
  | ordinary {n : Option Presented} {t t' : Tables} {l : Commit} :
      ordinary l → Moves ∅ t t' → Watch n t l t' n
  | issued {n : Option Presented} {t : Tables} {principal token revisionId : Text}
      {issuedAt expiresAt : Int64} : getToken t token = none →
      Watch n t (.tokenIssued principal token (C.payloads.activatePayload revisionId) expiresAt)
        { t with tokens := t.tokens ++ [⟨token, principal, C.payloads.activatePayload revisionId,
          issuedAt, expiresAt, false⟩] } n
  | consumed {n : Option Presented} {t : Tables} {token : Text} {row : StoredMutationToken}
      {now : Int64} : getToken t token = some row → row.consumed = false → now ≤ row.expiresAt →
      Watch n t (.tokenConsumed row.principal token row.mutationPayloadJson now)
        { t with tokens := burnToken token t.tokens }
        (some ⟨row.principal, token, row.mutationPayloadJson, now⟩)
  | activation {t t' : Tables} {presented : Presented} {revisionId : Text} :
      C.payloads.tokenRevisionOf presented.payload = some revisionId →
      Moves {(presented.principal, revisionId)} t t' →
      Watch (some presented) t (.activation presented.principal revisionId) t' none

def next (n : Option Presented) : Commit → Option Presented
  | .tokenConsumed principal token payload now => some ⟨principal, token, payload, now⟩
  | .activation _ _ => none
  | _ => n

/-- The token a call has presented last, unless it was used already. -/
def presented (i : ℕ) : Trace → Option Presented
  | [] => none
  | (j, l) :: past => if j = i then next (presented i past) l else presented i past

def consumedIn : Trace → List Text
  | [] => []
  | (_, .tokenConsumed _ token _ _) :: past => token :: consumedIn past
  | _ :: past => consumedIn past

def spentIn : Trace → List Text
  | [] => []
  | (i, .activation _ _) :: past => ((presented i past).map Presented.token).toList ++ spentIn past
  | _ :: past => spentIn past

/-- The token was issued, for a revision, and presented in time. -/
def Issued (tr : Trace) (p : Presented) : Prop :=
  ∃ revisionId expiresAt j, p.payload = C.payloads.activatePayload revisionId ∧
    (j, .tokenIssued p.principal p.token p.payload expiresAt) ∈ tr ∧ p.now ≤ expiresAt

def Confirmed (i : ℕ) (principal revisionId : Text) (past : Trace) : Prop :=
  ∃ p, presented i past = some p ∧ p.principal = principal ∧
    p.payload = C.payloads.activatePayload revisionId ∧ Issued C past p

def AllConfirmed : Trace → Prop
  | [] => True
  | (i, .activation principal revisionId) :: past =>
    Confirmed C i principal revisionId past ∧ AllConfirmed past
  | _ :: past => AllConfirmed past

structure Ledger (tr : Trace) (t : Tables) (watchers : ℕ → Option Presented) : Prop where
  follows : ∀ i, watchers i = presented i tr
  rows : ∀ row ∈ t.tokens, ∃ revisionId j,
    row.mutationPayloadJson = C.payloads.activatePayload revisionId ∧
    (j, .tokenIssued row.principal row.token row.mutationPayloadJson row.expiresAt) ∈ tr
  burned : ∀ token ∈ consumedIn tr, ∃ row, getToken t token = some row ∧ row.consumed = true
  issued : ∀ i p, presented i tr = some p → Issued C tr p
  held : ∀ i p, presented i tr = some p → p.token ∈ consumedIn tr
  own : ∀ i j p q, presented i tr = some p → presented j tr = some q → p.token = q.token → i = j
  unspent : ∀ i p, presented i tr = some p → p.token ∉ spentIn tr
  spent : ∀ token ∈ spentIn tr, token ∈ consumedIn tr
  once : (spentIn tr).Nodup
  consumedOnce : (consumedIn tr).Nodup
  confirmed : AllConfirmed C tr

variable {C} {tr : Trace} {t : Tables} {watchers : ℕ → Option Presented}

theorem presented_self (i : ℕ) (l : Commit) (past : Trace) :
    presented i ((i, l) :: past) = next (presented i past) l := if_pos rfl

variable {i : ℕ}

theorem presented_other {j : ℕ} (h : j ≠ i) (l : Commit) (past : Trace) :
    presented i ((j, l) :: past) = presented i past := if_neg h

variable {revisionId : Text} {principal : Text} {p : Presented}

theorem confirmed_of_split {later past : Trace}
    (h : AllConfirmed C (later ++ (i, .activation principal revisionId) :: past)) :
    Confirmed C i principal revisionId past := by
  induction later with
  | nil => exact h.1
  | cons e later ih =>
    obtain ⟨j, l⟩ := e
    cases l with
    | activation _ _ => exact ih h.2
    | _ => exact ih h

theorem Issued.mono (h : Issued C tr p) (e : ℕ × Commit) :
    Issued C (e :: tr) p := by
  obtain ⟨revisionId, expiresAt, j, hpayload, hmem, hnow⟩ := h
  exact ⟨revisionId, expiresAt, j, hpayload, List.mem_cons_of_mem e hmem, hnow⟩

variable (C) in
/-- A commit that neither consumes a token nor activates. -/
structure Passing (l : Commit) : Prop where
  next : ∀ n, next n l = n
  consumed : ∀ i past, consumedIn ((i, l) :: past) = consumedIn past
  spent : ∀ i past, spentIn ((i, l) :: past) = spentIn past
  confirmed : ∀ i past, AllConfirmed C past → AllConfirmed C ((i, l) :: past)

variable {l : Commit} {m : Option Presented}

theorem passing_ordinary (h : ordinary l) : Passing C l := by
  cases l with
  | tokenIssued _ _ _ _ | tokenConsumed _ _ _ _ | activation _ _ => exact h.elim
  | _ => exact ⟨fun _ => rfl, fun _ _ => rfl, fun _ _ => rfl, fun _ _ h => h⟩

theorem passing_issued (principal token payload : Text) (expiresAt : Int64) :
    Passing C (.tokenIssued principal token payload expiresAt) :=
  ⟨fun _ => rfl, fun _ _ => rfl, fun _ _ => rfl, fun _ _ h => h⟩

theorem Passing.presented (h : Passing C l) (i j : ℕ) (past : Trace) :
    presented i ((j, l) :: past) = TokenLedger.presented i past := by
  by_cases hij : j = i
  · subst hij
    rw [presented_self, h.next]
  · exact presented_other hij l past

theorem follows_update (h : ∀ j, watchers j = presented j tr)
    (hm : m = next (watchers i) l) (j : ℕ) :
    Function.update watchers i m j = presented j ((i, l) :: tr) := by
  by_cases hij : j = i
  · subst hij
    rw [Function.update_self, presented_self, hm, h]
  · rw [Function.update_of_ne hij, presented_other (Ne.symm hij), h]

variable {t' : Tables}

theorem ledger_passing (h : Ledger C tr t watchers) (hl : Passing C l)
    (hrows : ∀ row ∈ t'.tokens, row ∈ t.tokens ∨ ∃ revisionId,
      row.mutationPayloadJson = C.payloads.activatePayload revisionId ∧
      l = .tokenIssued row.principal row.token row.mutationPayloadJson row.expiresAt)
    (hget : ∀ token row, getToken t token = some row → getToken t' token = some row) :
    Ledger C ((i, l) :: tr) t' (Function.update watchers i (watchers i)) where
  follows := follows_update h.follows (hl.next _).symm
  rows row hrow := by
    rcases hrows row hrow with hold | ⟨revisionId, hpayload, rfl⟩
    · obtain ⟨revisionId, j, hpayload, hmem⟩ := h.rows row hold
      exact ⟨revisionId, j, hpayload, List.mem_cons_of_mem _ hmem⟩
    · exact ⟨revisionId, i, hpayload, List.mem_cons_self⟩
  burned token htoken := by
    rw [hl.consumed] at htoken
    obtain ⟨row, hrow, hconsumed⟩ := h.burned token htoken
    exact ⟨row, hget token row hrow, hconsumed⟩
  issued j p hp := by
    rw [hl.presented] at hp
    exact (h.issued j p hp).mono _
  held j p hp := by
    rw [hl.presented] at hp
    rw [hl.consumed]
    exact h.held j p hp
  own j k p q hp hq := by
    rw [hl.presented] at hp hq
    exact h.own j k p q hp hq
  unspent j p hp := by
    rw [hl.presented] at hp
    rw [hl.spent]
    exact h.unspent j p hp
  spent := by
    rw [hl.spent, hl.consumed]
    exact h.spent
  once := by
    rw [hl.spent]
    exact h.once
  consumedOnce := by
    rw [hl.consumed]
    exact h.consumedOnce
  confirmed := hl.confirmed i tr h.confirmed

theorem ledger_ordinary (h : Ledger C tr t watchers) (hl : ordinary l) (hmoves : Moves ∅ t t') :
    Ledger C ((i, l) :: tr) t' (Function.update watchers i (watchers i)) := by
  refine ledger_passing h (passing_ordinary hl) (fun row hrow => ?_) fun token row hrow => ?_
  · rw [hmoves.tokens] at hrow
    exact Or.inl hrow
  · rw [getToken, hmoves.tokens]
    exact hrow

variable {token : Text} {row : StoredMutationToken}

theorem ledger_issued {issuedAt expiresAt : Int64} (h : Ledger C tr t watchers) :
    Ledger C ((i, .tokenIssued principal token (C.payloads.activatePayload revisionId) expiresAt) ::
        tr)
      { t with tokens := t.tokens ++ [⟨token, principal, C.payloads.activatePayload revisionId,
        issuedAt, expiresAt, false⟩] }
      (Function.update watchers i (watchers i)) := by
  refine ledger_passing h (passing_issued _ _ _ _) (fun row hrow => ?_) fun other row hrow => ?_
  · rcases List.mem_append.mp hrow with hrow | hrow
    · exact Or.inl hrow
    · obtain rfl := List.mem_singleton.mp hrow
      exact Or.inr ⟨revisionId, rfl, rfl⟩
  · rw [getToken] at hrow ⊢
    rw [List.find?_append, hrow]
    rfl

theorem get_token_burned (t : Tables) (token other : Text) :
    getToken { t with tokens := burnToken token t.tokens } other =
      (getToken t other).map fun row =>
        if row.token = token then { row with consumed := true } else row := by
  rw [getToken, burnToken, List.find?_map, getToken]
  congr 2
  funext row
  dsimp only [Function.comp]
  split_ifs <;> rfl

theorem get_token_some (h : getToken t token = some row) :
    row ∈ t.tokens ∧ row.token = token := by
  have hfound := List.find?_some h
  exact ⟨List.mem_of_find?_eq_some h, of_decide_eq_true hfound⟩

theorem ledger_consumed {now : Int64} (h : Ledger C tr t watchers)
    (hrow : getToken t token = some row) (hfresh : row.consumed = false)
    (hnow : now ≤ row.expiresAt) :
    Ledger C ((i, .tokenConsumed row.principal token row.mutationPayloadJson now) :: tr)
      { t with tokens := burnToken token t.tokens }
      (Function.update watchers i
        (some ⟨row.principal, token, row.mutationPayloadJson, now⟩)) := by
  obtain ⟨hmem, rfl⟩ := get_token_some hrow
  -- nobody presented this token before
  have hnew : row.token ∉ consumedIn tr := by
    intro hin
    obtain ⟨burned, hburned, hconsumed⟩ := h.burned row.token hin
    rw [hrow, Option.some.injEq] at hburned
    rw [hburned, hconsumed] at hfresh
    cases hfresh
  have hold {j : ℕ} {p : Presented} (hp : presented j tr = some p) : p.token ≠ row.token :=
    fun heq => hnew (heq ▸ h.held j p hp)
  have hself : presented i ((i, .tokenConsumed row.principal row.token row.mutationPayloadJson
      now) :: tr) = some ⟨row.principal, row.token, row.mutationPayloadJson, now⟩ :=
    presented_self _ _ _
  have hcases {j : ℕ} {p : Presented} (hp : presented j ((i, .tokenConsumed row.principal row.token
      row.mutationPayloadJson now) :: tr) = some p) :
      (j = i ∧ p = ⟨row.principal, row.token, row.mutationPayloadJson, now⟩) ∨
        presented j tr = some p := by
    by_cases hij : j = i
    · subst hij
      rw [hself, Option.some.injEq] at hp
      exact Or.inl ⟨rfl, hp.symm⟩
    · rw [presented_other (Ne.symm hij)] at hp
      exact Or.inr hp
  refine ⟨follows_update h.follows rfl, ?_, ?_, ?_, ?_, ?_, ?_, ?_, h.once,
    List.nodup_cons.mpr ⟨hnew, h.consumedOnce⟩, h.confirmed⟩
  · intro r hr
    obtain ⟨old, hmemold, rfl⟩ := List.mem_map.mp hr
    obtain ⟨revisionId, j, hpayload, hissued⟩ := h.rows old hmemold
    refine ⟨revisionId, j, ?_⟩
    split_ifs
    · exact ⟨hpayload, List.mem_cons_of_mem _ hissued⟩
    · exact ⟨hpayload, List.mem_cons_of_mem _ hissued⟩
  · intro other hother
    rw [get_token_burned]
    rcases List.mem_cons.mp hother with rfl | hother
    · exact ⟨_, by rw [hrow, Option.map_some, if_pos rfl], rfl⟩
    · obtain ⟨burned, hburned, hconsumed⟩ := h.burned other hother
      refine ⟨_, by rw [hburned, Option.map_some], ?_⟩
      split_ifs
      · rfl
      · exact hconsumed
  · intro j p hp
    rcases hcases hp with ⟨-, rfl⟩ | hp
    · obtain ⟨revisionId, k, hpayload, hissued⟩ := h.rows row hmem
      exact ⟨revisionId, row.expiresAt, k, hpayload, List.mem_cons_of_mem _ hissued, hnow⟩
    · exact (h.issued j p hp).mono _
  · intro j p hp
    rcases hcases hp with ⟨-, rfl⟩ | hp
    · exact List.mem_cons_self
    · exact List.mem_cons_of_mem _ (h.held j p hp)
  · intro j k p q hp hq hpq
    rcases hcases hp with ⟨rfl, rfl⟩ | hp' <;> rcases hcases hq with ⟨rfl, rfl⟩ | hq'
    · rfl
    · exact absurd hpq.symm (hold hq')
    · exact absurd hpq (hold hp')
    · exact h.own j k p q hp' hq' hpq
  · intro j p hp
    rcases hcases hp with ⟨-, rfl⟩ | hp
    · exact fun hin => hnew (h.spent _ hin)
    · exact h.unspent j p hp
  · exact fun other hother => List.mem_cons_of_mem _ (h.spent other hother)

theorem ledger_activation (h : Ledger C tr t watchers) (hi : watchers i = some p)
    (hrevision : C.payloads.tokenRevisionOf p.payload = some revisionId)
    (htokens : t'.tokens = t.tokens) :
    Ledger C ((i, .activation p.principal revisionId) :: tr) t'
      (Function.update watchers i none) := by
  rw [h.follows] at hi
  have hspent : spentIn ((i, .activation p.principal revisionId) :: tr) = p.token :: spentIn tr := by
    rw [spentIn, hi]
    rfl
  have hcases {j : ℕ} {q : Presented}
      (hq : presented j ((i, .activation p.principal revisionId) :: tr) = some q) :
      j ≠ i ∧ presented j tr = some q := by
    by_cases hij : j = i
    · subst hij
      rw [presented_self] at hq
      cases hq
    · rw [presented_other (Ne.symm hij)] at hq
      exact ⟨hij, hq⟩
  refine ⟨follows_update h.follows rfl, ?_, ?_, ?_, ?_, ?_, ?_, ?_, ?_, h.consumedOnce, ?_,
    h.confirmed⟩
  · rw [htokens]
    intro row hrow
    obtain ⟨revisionId, j, hpayload, hissued⟩ := h.rows row hrow
    exact ⟨revisionId, j, hpayload, List.mem_cons_of_mem _ hissued⟩
  · intro token htoken
    rw [getToken, htokens]
    exact h.burned token htoken
  · exact fun j q hq => (h.issued j q (hcases hq).2).mono _
  · exact fun j q hq => h.held j q (hcases hq).2
  · exact fun j k q r hq hr => h.own j k q r (hcases hq).2 (hcases hr).2
  · intro j q hq
    obtain ⟨hji, hq⟩ := hcases hq
    rw [hspent, List.mem_cons, not_or]
    exact ⟨fun heq => hji (h.own j i q p hq hi heq), h.unspent j q hq⟩
  · intro token htoken
    rw [hspent] at htoken
    rcases List.mem_cons.mp htoken with rfl | htoken
    · exact h.held i p hi
    · exact h.spent token htoken
  · rw [hspent]
    exact List.nodup_cons.mpr ⟨h.unspent i p hi, h.once⟩
  · obtain ⟨issuedFor, expiresAt, j, hpayload, hissued, hnow⟩ := h.issued i p hi
    -- the payload names one revision only
    have hsame : issuedFor = revisionId := by
      rw [hpayload, C.payloads.revision_of_payload, Option.some.injEq] at hrevision
      exact hrevision
    subst hsame
    exact ⟨p, hi, rfl, hpayload, issuedFor, expiresAt, j, hpayload, hissued, hnow⟩

theorem ledger_commit (h : Ledger C tr t watchers) (hw : Watch C (watchers i) t l t' m) :
    Ledger C ((i, l) :: tr) t' (Function.update watchers i m) := by
  generalize hn : watchers i = n at hw
  cases hw with
  | ordinary hl hmoves => exact hn ▸ ledger_ordinary h hl hmoves
  | issued _ => exact hn ▸ ledger_issued h
  | consumed hrow hfresh hnow => exact ledger_consumed h hrow hfresh hnow
  | activation hrevision hmoves => exact ledger_activation h hn hrevision hmoves.tokens

theorem ledger_start (ht : t.tokens = []) : Ledger C [] t fun _ => none where
  follows _ := rfl
  rows row hrow := by simp [ht] at hrow
  burned _ h := by cases h
  issued _ _ h := by cases h
  held _ _ h := by cases h
  own _ _ _ _ h := by cases h
  unspent _ _ h := by cases h
  spent _ h := by cases h
  once := List.nodup_nil
  consumedOnce := List.nodup_nil
  confirmed := trivial

end NetRuleRouter.TokenLedger
