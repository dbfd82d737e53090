import NetRuleRouter.DnsMessages

/-!
# Host names, records and aliases of a message

What the walks over an answer section find, told without them: a host's name
at an offset, the records at the front of the section that are all there, and
the names that passes over the aliases lead to.
-/

set_option autoImplicit false

namespace NetRuleRouter.DnsRecords
open TextOps Utf8 DnsNames DnsMessages

/-- The name of a host at an offset: learnable labels, 255 octets and 32 pointers at most. -/
def HostName (packet : Bytes) (off : ℕ) (name : Text) : Prop :=
  ∃ n labels, NameAt packet off n labels ∧ n ≤ 32 ∧ labels ≠ [] ∧
    (∀ label ∈ labels, isLearnableLabel label = true) ∧ wireLength labels ≤ 255 ∧
    dotted labels = name

variable {packet : Bytes} {off : ℕ} {name : Text}

theorem decode_name_some : decodeName packet off = some name ↔ HostName packet off name := by
  unfold decodeName HostName
  constructor
  · intro h
    split at h
    · cases h
    · rename_i labels hlabels
      obtain ⟨n, hname, hn, hlearnable, hlength⟩ := follow_labels_some.mp hlabels
      split_ifs at h with hnil
      exact ⟨n, labels, hname, hn, hnil, hlearnable, hlength, Option.some.inj h⟩
  · rintro ⟨n, labels, hname, hn, hnil, hlearnable, hlength, rfl⟩
    rw [follow_labels_some.mpr ⟨n, hname, hn, hlearnable, hlength⟩]
    exact if_neg hnil

theorem host_name_ne_nil (h : HostName packet off name) : name ≠ [] := by
  obtain ⟨n, labels, -, -, hnil, hlearnable, -, rfl⟩ := h
  cases labels with
  | nil => exact absurd rfl hnil
  | cons label rest =>
    have hlabel := hlearnable label List.mem_cons_self
    have htext : labelText label ≠ [] := by
      rintro hempty
      simp only [labelText, toAsciiLowercase, List.map_eq_nil_iff] at hempty
      rw [hempty] at hlabel
      cases hlabel
    cases rest with
    | nil => simpa [dotted] using htext
    | cons next rest => simp [dotted, List.intercalate, htext]

/-- A record of the answer section, with all its bytes in the packet. -/
inductive RecordAt (packet : Bytes) (off : ℕ) : AnswerRr → Prop where
  | mk {afterName rdlen : ℕ} {owner : Option Text} : EndsAt packet off afterName →
      (∀ name, owner = some name ↔ HostName packet off name) →
      (u16At packet (afterName + 8)).toNat = rdlen → afterName + 10 + rdlen ≤ packet.length →
      RecordAt packet off ⟨owner, u16At packet afterName, u16At packet (afterName + 2),
        u32At packet (afterName + 4), afterName + 10, rdlen⟩

/-- The records at the front of the answer section: as many as were announced, or up to the
first place where there is none. -/
inductive WellFormedPrefix (packet : Bytes) : ℕ → ℕ → List AnswerRr → Prop where
  | all {off : ℕ} : WellFormedPrefix packet off 0 []
  | stop {off n : ℕ} : (∀ rr, ¬RecordAt packet off rr) → WellFormedPrefix packet off (n + 1) []
  | next {off n : ℕ} {rr : AnswerRr} {rest : List AnswerRr} : RecordAt packet off rr →
      WellFormedPrefix packet (rr.rdataStart + rr.rdlen) n rest →
      WellFormedPrefix packet off (n + 1) (rr :: rest)

variable {rr : AnswerRr}

theorem answer_at_some : answerAt packet off = some rr ↔ RecordAt packet off rr := by
  unfold answerAt
  constructor
  · intro h
    split at h
    · cases h
    · rename_i afterName hskip
      dsimp only at h
      split_ifs at h with hfixed hdata
      cases h
      exact RecordAt.mk (skip_encoded_name_some.mp hskip) (fun _ => decode_name_some) rfl
        (by omega)
  · rintro ⟨hends, howner, rfl, hle⟩
    rename_i afterName owner
    have hdecode : decodeName packet off = owner := by
      cases h : decodeName packet off with
      | some name => exact ((howner name).mpr (decode_name_some.mp h)).symm
      | none =>
        cases owner with
        | none => rfl
        | some name =>
          rw [decode_name_some.mpr ((howner name).mp rfl)] at h
          cases h
    rw [skip_encoded_name_some.mpr hends, hdecode]
    dsimp only
    rw [if_neg (by omega), if_neg (by omega)]

theorem read_answer_records_prefix (packet : Bytes) (off n : ℕ) :
    WellFormedPrefix packet off n (readAnswerRecords packet off n) := by
  induction n generalizing off with
  | zero => exact WellFormedPrefix.all
  | succ n ih =>
    rw [readAnswerRecords]
    split
    · rename_i hnone
      refine WellFormedPrefix.stop fun rr hrr => ?_
      rw [answer_at_some.mpr hrr] at hnone
      cases hnone
    · rename_i rr hrr
      exact WellFormedPrefix.next (answer_at_some.mp hrr) (ih _)

variable {records : List AnswerRr} {n : ℕ}
variable (h : WellFormedPrefix packet off n records) {qname : Text}
include h

theorem record_of_mem (hrr : rr ∈ records) :
    ∃ start, RecordAt packet start rr := by
  induction h with
  | all | stop _ => cases hrr
  | next hrecord _ ih =>
    rcases List.mem_cons.mp hrr with rfl | hrr
    · exact ⟨_, hrecord⟩
    · exact ih hrr

theorem prefix_inside (hrr : rr ∈ records) :
    rr.rdataStart + rr.rdlen ≤ packet.length := by
  obtain ⟨_, hrecord⟩ := record_of_mem h hrr
  cases hrecord
  assumption

theorem owner_ne_nil (hrr : rr ∈ records) (howner : rr.owner = some name) : name ≠ [] := by
  obtain ⟨_, hrecord⟩ := record_of_mem h hrr
  cases hrecord with
  | mk _ hname _ _ => exact host_name_ne_nil ((hname name).mp howner)

omit h

/-- The record makes `owner` an alias of the name that its data hold. -/
def Aliases (packet : Bytes) (rr : AnswerRr) (owner target : Text) : Prop :=
  rr.rtype = qtypeCname ∧ rr.rclass = classIn ∧ rr.owner = some owner ∧
    HostName packet rr.rdataStart target

/-- The names known after the records are gone through once, in their order. -/
def sweep (packet : Bytes) (records : List AnswerRr) (names : Set Text) : Set Text :=
  records.foldl (fun names rr =>
    { name | name ∈ names ∨ ∃ owner ∈ names, Aliases packet rr owner name }) names

def rounds (packet : Bytes) (records : List AnswerRr) (qname : Text) (k : ℕ) : Set Text :=
  (sweep packet records)^[k] {qname}

theorem aliases_of_cons (packet : Bytes) (rr : AnswerRr) (rest : List AnswerRr) :
    (aliasesOf packet (rr :: rest) = aliasesOf packet rest ∧
      ∀ owner target, ¬ Aliases packet rr owner target) ∨
    ∃ o t, aliasesOf packet (rr :: rest) = (o, t) :: aliasesOf packet rest ∧
      ∀ owner target, Aliases packet rr owner target ↔ owner = o ∧ target = t := by
  unfold aliasesOf Aliases
  by_cases hcname : rr.rtype = qtypeCname ∧ rr.rclass = classIn
  · simp only [List.filter_cons, hcname, decide_true, Bool.and_self, if_true, true_and,
      ← decode_name_some]
    cases howner : rr.owner with
    | none => simp [howner]
    | some o =>
      cases htarget : decodeName packet rr.rdataStart with
      | none => simp [howner, htarget]
      | some t => exact Or.inr ⟨o, t, by simp [howner, htarget], by simp [eq_comm]⟩
  · refine Or.inl ⟨?_, fun owner target h => hcname ⟨h.1, h.2.1⟩⟩
    rw [List.filter_cons_of_neg (by simpa using hcname)]

theorem closure_pass_mem (packet : Bytes) (records : List AnswerRr) (names : List Text) (grew : Bool) :
    { name | name ∈ (closurePass (aliasesOf packet records) names grew).1 } =
      sweep packet records { name | name ∈ names } := by
  induction records generalizing names grew with
  | nil => rfl
  | cons rr rest ih =>
    rw [sweep, List.foldl_cons]
    rcases aliases_of_cons packet rr rest with ⟨hsame, hnone⟩ | ⟨owner, target, hcons, hone⟩
    · rw [hsame, ih, sweep]
      simp [hnone]
    · rw [hcons, closurePass]
      split_ifs with h
      · rw [Bool.and_eq_true, List.contains_iff_mem] at h
        rw [ih, sweep]
        congr 1
        ext name
        simp [hone, h.1, or_comm]
      · rw [ih, sweep]
        congr 1
        ext name
        simp only [hone, Set.mem_ofPred_eq]
        refine ⟨Or.inl, ?_⟩
        rintro (hname | ⟨_, howner, rfl, rfl⟩)
        · exact hname
        · simpa [howner] using h

theorem closure_pass_same {aliases : List (Text × Text)} {names : List Text} {grew : Bool}
    (h : (closurePass aliases names grew).2 = false) :
    grew = false ∧ (closurePass aliases names grew).1 = names := by
  induction aliases generalizing names grew with
  | nil => exact ⟨h, rfl⟩
  | cons a rest ih =>
    rw [closurePass] at h ⊢
    split_ifs at h ⊢
    · cases (ih h).1
    · exact ih h

theorem closure_rounds_mem (packet : Bytes) (records : List AnswerRr) (k : ℕ)
    (names : List Text) :
    { name | name ∈ closureRounds (aliasesOf packet records) k names } =
      (sweep packet records)^[k] { name | name ∈ names } := by
  induction k generalizing names with
  | zero => rfl
  | succ k ih =>
    have hpass := closure_pass_mem packet records names false
    rw [closureRounds, Function.iterate_succ_apply]
    rcases hp : closurePass (aliasesOf packet records) names false with ⟨names', grew⟩
    rw [hp] at hpass
    cases grew with
    | true =>
      dsimp only
      rw [ih, hpass]
    | false =>
      have hgrew : (closurePass (aliasesOf packet records) names false).2 = false := by rw [hp]
      have hsame := (closure_pass_same hgrew).2
      rw [hp] at hsame
      dsimp only at hsame ⊢
      subst hsame
      rw [← hpass]
      exact (Function.iterate_fixed hpass.symm k).symm

theorem mem_answer_owner_closure :
    name ∈ answerOwnerClosure packet records qname ↔
      name ∈ rounds packet records qname maxCnameChain := by
  have h := closure_rounds_mem packet records maxCnameChain [qname]
  rw [show { name | name ∈ [qname] } = {qname} by ext; simp] at h
  exact Set.ext_iff.mp h name

theorem rounds_root (h : ∀ rr ∈ records, rr.owner ≠ some []) (k : ℕ) :
    rounds packet records [] k = {[]} := by
  refine Function.iterate_fixed ?_ k
  induction records with
  | nil => rfl
  | cons rr rest ih =>
    rw [List.forall_mem_cons] at h
    rw [sweep, List.foldl_cons]
    refine Eq.trans (congrArg (sweep packet rest) ?_) (ih h.2)
    ext name
    simp [Aliases, h.1]

end NetRuleRouter.DnsRecords
