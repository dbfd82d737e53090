import NetRuleRouter.DnsRecords

/-!
# Only answers to the question are learned

A response is taken for an answer where it echoes the question, and what is
learned from it are the addresses of the records under the asked name or a
name that the response's aliases lead to from there.
-/

set_option autoImplicit false

namespace NetRuleRouter.DnsAnswers
open TextOps Utf8 DnsNames DnsMessages DnsRecords IpNetwork

/-- A record this question may be answered with: an address of the asked type and width, under
the asked name or one the aliases lead to. -/
def Answering (packet : Bytes) (qtype : UInt16) (width : ℕ) (records : List AnswerRr)
    (qname : Text) (rr : AnswerRr) : Prop :=
  rr.rtype = qtype ∧ rr.rclass = classIn ∧ rr.rdlen = width ∧
    ∃ name ∈ rounds packet records qname maxCnameChain, rr.owner = some name

/-- The octets are the digits of the address, the most significant first. -/
def OctetsOf (octets : Bytes) : IpAddr → Prop
  | .v4 x => octets.length = 4 ∧ x.toNat = Nat.ofDigits 256 (octets.reverse.map UInt8.toNat)
  | .v6 x => octets.length = 16 ∧ x.toNat = Nat.ofDigits 256 (octets.reverse.map UInt8.toNat)

def HoldsAddress (packet : Bytes) (rr : AnswerRr) (address : IpAddr) : Prop :=
  OctetsOf ((packet.drop rr.rdataStart).take rr.rdlen) address

theorem from_be_digits (bytes : Bytes) :
    fromBe bytes = Nat.ofDigits 256 (bytes.reverse.map UInt8.toNat) := by
  induction bytes using List.reverseRecOn with
  | nil => rfl
  | append_singleton bytes b ih =>
    have hstep : fromBe (bytes ++ [b]) = fromBe bytes * 256 + b.toNat := by simp [fromBe]
    rw [hstep, ih, List.reverse_concat, List.map_cons, Nat.ofDigits_cons]
    omega

theorem from_be_lt (bytes : Bytes) : fromBe bytes < 256 ^ bytes.length := by
  rw [from_be_digits]
  refine (Nat.ofDigits_lt_base_pow_length (by omega) fun d hd => ?_).trans_eq (by simp)
  obtain ⟨b, -, rfl⟩ := List.mem_map.mp hd
  exact b.toNat_lt

theorem address_octets {rdata : Bytes} {address : IpAddr}
    (h : addressFromRdata rdata = some address) : OctetsOf rdata address := by
  have hlt := from_be_lt rdata
  unfold addressFromRdata at h
  split_ifs at h with h4 h16
  · cases h
    rw [h4] at hlt
    exact ⟨h4, by rw [BitVec.toNat_ofNat, Nat.mod_eq_of_lt (by omega), from_be_digits]⟩
  · cases h
    rw [h16] at hlt
    exact ⟨h16, by rw [BitVec.toNat_ofNat, Nat.mod_eq_of_lt (by omega), from_be_digits]⟩

variable {packet : Bytes} {owners : List Text} {width : ℕ} {q : ParsedQuestion} {rr : AnswerRr}

theorem collect_fold (records : List AnswerRr) (addresses : List IpAddr) (ttl : UInt32) :
    records.foldl (fun (addresses, minTtl) rr =>
        match acceptedAddress packet owners width rr with
        | none => (addresses, minTtl)
        | some address => (addresses ++ [address], min minTtl rr.ttl)) (addresses, ttl) =
      (addresses ++ records.filterMap (acceptedAddress packet owners width),
        ((records.filter fun rr => (acceptedAddress packet owners width rr).isSome).map
          AnswerRr.ttl).foldl min ttl) := by
  induction records generalizing addresses ttl with
  | nil => simp
  | cons rr rest ih =>
    rw [List.foldl_cons]
    cases h : acceptedAddress packet owners width rr with
    | none => simp [h, ih]
    | some address => simp [h, ih, List.append_assoc]

theorem collect_addresses (records : List AnswerRr) :
    collectAddresses packet owners width records =
      (records.filterMap (acceptedAddress packet owners width),
        ((records.filter fun rr => (acceptedAddress packet owners width rr).isSome).map
          AnswerRr.ttl).foldl min 0xFFFFFFFF) :=
  (collect_fold records [] _).trans (by rw [List.nil_append])

theorem fold_min_le (l : List UInt32) (m : UInt32) :
    l.foldl min m ≤ m ∧ (∀ x ∈ l, l.foldl min m ≤ x) ∧ (l.foldl min m = m ∨ l.foldl min m ∈ l) := by
  induction l generalizing m with
  | nil => simp
  | cons x l ih =>
    obtain ⟨hle, hall, hmem⟩ := ih (min m x)
    rw [List.foldl_cons]
    refine ⟨UInt32.le_trans hle Std.min_le_left, ?_, ?_⟩
    · rintro y (_ | ⟨_, hy⟩)
      · exact UInt32.le_trans hle Std.min_le_right
      · exact hall y hy
    · rcases hmem with hmem | hmem
      · rcases Std.MinEqOr.min_eq_or m x with hm | hx
        · exact Or.inl (hmem.trans hm)
        · exact Or.inr (by rw [hmem, hx]; exact List.mem_cons_self)
      · exact Or.inr (List.mem_cons_of_mem x hmem)

/-- The packet is a response without error, all of it, to the question of this id, name and
type, which ends at `stop`. -/
structure Echoes (expectId : UInt16) (expectQname : Text) (qtype : UInt16) (packet : Bytes)
    (stop : ℕ) : Prop where
  header : dnsHeaderLen ≤ packet.length
  id : u16At packet 0 = expectId
  response : packet.getD 2 0 &&& 0x80 ≠ 0
  whole : packet.getD 2 0 &&& 0x02 = 0
  rcode : packet.getD 3 0 &&& 0x0F = 0
  counted : u16At packet 4 ≠ 0
  qname : HostName packet dnsHeaderLen (expectedName expectQname)
  nameEnds : EndsAt packet dnsHeaderLen stop
  questionEnds : stop + 4 ≤ packet.length
  qtype : u16At packet stop = qtype

theorem question_name_some {qname : Text} {stop : ℕ}
    (h : questionName packet = some (qname, stop)) :
    EndsAt packet dnsHeaderLen stop ∧ (qname = [] ∨ HostName packet dnsHeaderLen qname) := by
  unfold questionName at h
  split at h
  · rename_i parsed hparse
    cases h
    obtain ⟨⟨labels, stop'⟩, hlabels, heq⟩ := Option.map_eq_some_iff.mp hparse
    cases heq
    obtain ⟨hname, hends, hlearnable, hlength⟩ := qname_labels_some hlabels (by omega)
    refine ⟨hends, ?_⟩
    by_cases hnil : labels = []
    · subst hnil
      exact Or.inl rfl
    · exact Or.inr ⟨0, labels, hname, by omega, hnil, hlearnable, by omega, rfl⟩
  · split at h
    · rename_i name stop' hdecode hskip
      cases h
      exact ⟨skip_encoded_name_some.mp hskip, Or.inr (decode_name_some.mp hdecode)⟩
    · cases h

theorem parse_question_some (h : parseQuestion packet = some q) :
    ∃ stop, q.questionEnd = stop + 4 ∧
      dnsHeaderLen ≤ packet.length ∧ u16At packet 4 ≠ 0 ∧ stop + 4 ≤ packet.length ∧
      q.qtype = u16At packet stop ∧ EndsAt packet dnsHeaderLen stop ∧
      (q.qname = [] ∨ HostName packet dnsHeaderLen q.qname) := by
  unfold parseQuestion at h
  split_ifs at h with hlength hcount
  split at h
  · cases h
  · rename_i qname stop hname
    split_ifs at h with hend
    cases h
    obtain ⟨hends, hqname⟩ := question_name_some hname
    exact ⟨stop, rfl, by omega, hcount, by omega, rfl, hends, hqname⟩

theorem accepted_some {address : IpAddr}
    (h : acceptedAddress packet owners width rr = some address) :
    (∃ name ∈ owners, rr.owner = some name) ∧
      addressFromRdata ((packet.drop rr.rdataStart).take width) = some address := by
  unfold acceptedAddress at h
  split_ifs at h with howner
  obtain ⟨rdata, hslice, haddress⟩ := Option.bind_eq_some_iff.mp h
  obtain ⟨-, rfl⟩ := slice_some.mp hslice
  obtain ⟨name, hname, hcontains⟩ := Option.any_eq_true _ _ |>.mp howner
  exact ⟨⟨name, List.contains_iff_mem.mp hcontains, hname⟩, haddress⟩

variable {qtype : UInt16} {addresses : List IpAddr} {minTtl : UInt32}

theorem accepted_iff {off n : ℕ} {qname : Text} {records : List AnswerRr}
    (hrecords : WellFormedPrefix packet off n records) (hwidth : addressRdlen qtype = some width)
    (hrr : rr ∈ records) :
    (rr.rtype = qtype ∧ rr.rclass = classIn ∧ rr.rdlen = width) ∧
      (acceptedAddress packet (answerOwnerClosure packet records qname) width rr).isSome = true ↔
    Answering packet qtype width records qname rr := by
  constructor
  · rintro ⟨⟨htype, hclass, hrdlen⟩, hsome⟩
    obtain ⟨address, haddress⟩ := Option.isSome_iff_exists.mp hsome
    obtain ⟨⟨name, hname, howner⟩, -⟩ := accepted_some haddress
    exact ⟨htype, hclass, hrdlen, name, mem_answer_owner_closure.mp hname, howner⟩
  · rintro ⟨htype, hclass, rfl, name, hname, howner⟩
    refine ⟨⟨htype, hclass, rfl⟩, ?_⟩
    have hcontains : rr.owner.any (answerOwnerClosure packet records qname).contains = true := by
      rw [howner, Option.any_some, List.contains_iff_mem]
      exact mem_answer_owner_closure.mpr hname
    have hslice : slice packet rr.rdataStart rr.rdlen =
        some ((packet.drop rr.rdataStart).take rr.rdlen) :=
      slice_some.mpr ⟨prefix_inside hrecords hrr, rfl⟩
    have hlength := slice_length hslice
    rw [acceptedAddress, if_pos hcontains, hslice, Option.bind_some, addressFromRdata, hlength]
    unfold addressRdlen at hwidth
    split_ifs at hwidth with hA hAaaa
    · rw [if_pos (Option.some.inj hwidth).symm]
      rfl
    · obtain h16 := (Option.some.inj hwidth).symm
      rw [if_neg (by omega), if_pos h16]
      rfl

theorem forall₂_filter_map {α β : Type} (f : α → Option β) (l : List α) :
    List.Forall₂ (fun a b => f a = some b) (l.filter fun a => (f a).isSome) (l.filterMap f) := by
  induction l with
  | nil => exact .nil
  | cons a l ih =>
    cases h : f a with
    | none | some b => simpa [h] using ih

theorem least_ttl {kept : List AnswerRr} (hsome : kept ≠ [])
    (hbelow : ∀ rr ∈ kept, rr.ttl ≠ 0xFFFFFFFF) :
    let least := (kept.map AnswerRr.ttl).foldl min 0xFFFFFFFF
    least ≠ 0xFFFFFFFF ∧ (∀ rr ∈ kept, least ≤ rr.ttl) ∧ ∃ rr ∈ kept, rr.ttl = least := by
  obtain ⟨-, hall, hmem⟩ := fold_min_le (kept.map AnswerRr.ttl) 0xFFFFFFFF
  -- the fold cannot have stayed at its start: every record is below it
  have hne : (kept.map AnswerRr.ttl).foldl min 0xFFFFFFFF ≠ 0xFFFFFFFF := by
    intro hmax
    obtain ⟨rr, hrr⟩ := List.exists_mem_of_ne_nil _ hsome
    have hle := hall rr.ttl (List.mem_map_of_mem hrr)
    rw [hmax] at hle
    have hmaximum : rr.ttl ≤ 0xFFFFFFFF := by
      rw [UInt32.le_iff_toNat_le]
      exact Nat.le_of_lt_succ rr.ttl.toNat_lt
    exact hbelow rr hrr (UInt32.le_antisymm hmaximum hle)
  exact ⟨hne, fun rr hrr => hall _ (List.mem_map_of_mem hrr),
    List.mem_map.mp (hmem.resolve_left hne)⟩

open Classical in
theorem asked_accepted {off n : ℕ} {qname : Text} {records : List AnswerRr}
    (hrecords : WellFormedPrefix packet off n records)
    (hwidth : addressRdlen qtype = some width) :
    (records.filter fun r => r.rtype = qtype && r.rclass = classIn && r.rdlen = width).filter
        (fun rr =>
          (acceptedAddress packet (answerOwnerClosure packet records qname) width rr).isSome) =
      records.filter fun rr => decide (Answering packet qtype width records qname rr) := by
  rw [List.filter_filter]
  refine List.filter_congr fun rr hrr => ?_
  rw [Bool.eq_iff_iff, decide_eq_true_iff, ← accepted_iff hrecords hwidth hrr]
  simp only [Bool.and_eq_true, decide_eq_true_eq]
  constructor
  · rintro ⟨hsome, ⟨htype, hclass⟩, hrdlen⟩
    exact ⟨⟨htype, hclass, hrdlen⟩, hsome⟩
  · rintro ⟨⟨htype, hclass, hrdlen⟩, hsome⟩
    exact ⟨hsome, ⟨htype, hclass⟩, hrdlen⟩

open Classical in
theorem read_addresses_answers
    {records kept : List AnswerRr} (hwidth : addressRdlen qtype = some width)
    (hrecords : records = readAnswerRecords packet q.questionEnd (u16At packet 6).toNat)
    (hkept : kept = records.filter fun rr => decide (Answering packet qtype width records q.qname rr))
    (h : readAddresses qtype width packet q = .answers addresses minTtl) :
    kept ≠ [] ∧ List.Forall₂ (HoldsAddress packet) kept addresses ∧
      ((∀ rr ∈ kept, rr.ttl ≠ 0xFFFFFFFF) →
        (∀ rr ∈ kept, minTtl ≤ rr.ttl) ∧ ∃ rr ∈ kept, rr.ttl = minTtl) := by
  have hprefix := read_answer_records_prefix packet q.questionEnd (u16At packet 6).toNat
  rw [← hrecords] at hprefix
  let accepted := acceptedAddress packet (answerOwnerClosure packet records q.qname) width
  let asked := records.filter fun r => r.rtype = qtype && r.rclass = classIn && r.rdlen = width
  have hsame : asked.filter (fun rr => (accepted rr).isSome) = kept :=
    hkept ▸ asked_accepted hprefix hwidth
  have hpairs := forall₂_filter_map accepted asked
  rw [hsame] at hpairs
  unfold readAddresses at h
  dsimp only at h
  rw [← hrecords, collect_addresses] at h
  change (if asked.filterMap accepted = [] then _ else AddressResponseOutcome.answers _
    (if ((asked.filter fun rr => (accepted rr).isSome).map AnswerRr.ttl).foldl min 0xFFFFFFFF =
      0xFFFFFFFF then 0 else _)) = _ at h
  rw [hsame] at h
  by_cases hnil : asked.filterMap accepted = []
  · rw [if_pos hnil] at h
    cases h
  rw [if_neg hnil, AddressResponseOutcome.answers.injEq] at h
  obtain ⟨rfl, httl⟩ := h
  have hsome : kept ≠ [] := by
    rintro rfl
    rw [List.forall₂_nil_left_iff] at hpairs
    exact hnil hpairs
  refine ⟨hsome, ?_, fun hbelow => ?_⟩
  · have hwidths : ∀ rr ∈ kept, rr.rdlen = width := by
      intro rr hrr
      rw [hkept, List.mem_filter, decide_eq_true_iff] at hrr
      exact hrr.2.2.2.1
    refine ((List.forall₂_and_left _ _).mpr ⟨hwidths, hpairs⟩).imp fun rr address hrr => ?_
    obtain ⟨rfl, haddress⟩ := hrr
    exact address_octets (accepted_some haddress).2
  · obtain ⟨hne, hleast⟩ := least_ttl hsome hbelow
    rw [if_neg hne] at httl
    exact httl ▸ hleast

theorem parse_response_answers {expectId : UInt16} {expectQname : Text}
    (h : parseAddressResponse expectId expectQname qtype packet = .answers addresses minTtl) :
    ∃ width q, addressRdlen qtype = some width ∧ parseQuestion packet = some q ∧
      u16At packet 0 = expectId ∧ packet.getD 2 0 &&& 0x80 ≠ 0 ∧ packet.getD 2 0 &&& 0x02 = 0 ∧
      packet.getD 3 0 &&& 0x0F = 0 ∧ q.qname = expectedName expectQname ∧ q.qtype = qtype ∧
      readAddresses qtype width packet q = .answers addresses minTtl := by
  unfold parseAddressResponse at h
  split at h
  · cases h
  rename_i width hwidth
  cases hq : parseQuestion packet with
  | none => simp [hq] at h
  | some q =>
    rw [hq] at h
    dsimp only at h
    split_ifs at h with hlength hid hresponse hquestion hwhole hnxdomain hrcode
    rw [not_not] at hid hwhole hrcode
    rw [not_or, not_not, not_not] at hquestion
    exact ⟨width, q, hwidth, rfl, hid, hresponse, hwhole, hrcode, hquestion.1, hquestion.2, h⟩

open Classical in
/-- Of a response taken for an answer, the addresses are those of the records that answer the
question, and the time to live the smallest of theirs. -/
theorem only_answers_learned {expectId qtype : UInt16} {expectQname : Text} {packet : Bytes}
    {addresses : List IpAddr} {minTtl : UInt32}
    (h : parseAddressResponse expectId expectQname qtype packet = .answers addresses minTtl) :
    ∃ stop width records, Echoes expectId expectQname qtype packet stop ∧
      addressRdlen qtype = some width ∧
      WellFormedPrefix packet (stop + 4) (u16At packet 6).toNat records ∧
      let kept := records.filter fun rr =>
        decide (Answering packet qtype width records (expectedName expectQname) rr)
      List.Forall₂ (HoldsAddress packet) kept addresses ∧
      ((∀ rr ∈ kept, rr.ttl ≠ 0xFFFFFFFF) →
        (∀ rr ∈ kept, minTtl ≤ rr.ttl) ∧ ∃ rr ∈ kept, rr.ttl = minTtl) := by
  obtain ⟨width, q, hwidth, hq, hid, hresponse, hwhole, hrcode, hname, hqtype, hread⟩ :=
    parse_response_answers h
  obtain ⟨stop, hend, hheader, hcount, hinside, hqtypeAt, hends, hqname⟩ := parse_question_some hq
  obtain ⟨hne, haddresses, httl⟩ := read_addresses_answers hwidth rfl rfl hread
  have hprefix := read_answer_records_prefix packet q.questionEnd (u16At packet 6).toNat
  rw [hname] at hne haddresses httl hqname
  -- a record that answers has a host's name, and no alias leads there from the root
  have hhost : expectedName expectQname ≠ [] := by
    intro hroot
    obtain ⟨rr, hrr⟩ := List.exists_mem_of_ne_nil _ hne
    rw [List.mem_filter, decide_eq_true_iff] at hrr
    obtain ⟨hmem, -, -, -, name, hrounds, howner⟩ := hrr
    rw [hroot, rounds_root fun rr hrr hnil => owner_ne_nil hprefix hrr hnil rfl] at hrounds
    exact owner_ne_nil hprefix hmem howner hrounds
  rw [hend] at hprefix haddresses httl
  exact ⟨stop, width, _, ⟨hheader, hid, hresponse, hwhole, hrcode, hcount,
    hqname.resolve_left hhost, hends, hinside, hqtypeAt.symm.trans hqtype⟩, hwidth, hprefix,
    haddresses, httl⟩

def aliasedResponse : Bytes :=
  [0, 7, 0x81, 0x80, 0, 1, 0, 2, 0, 0, 0, 0, 1, 97, 0, 0, 1, 0, 1,
    0xC0, 12, 0, 5, 0, 1, 0, 0, 0, 60, 0, 3, 1, 98, 0,
    0xC0, 31, 0, 1, 0, 1, 0, 0, 0, 30, 0, 4, 192, 0, 2, 1]

theorem aliased_address_learned :
    parseAddressResponse 7 ['A', '.'] qtypeA aliasedResponse = .answers [.v4 0xC0000201] 30 ∧
    ∃ stop, Echoes 7 ['A', '.'] qtypeA aliasedResponse stop := by
  have h : parseAddressResponse 7 ['A', '.'] qtypeA aliasedResponse =
      .answers [.v4 0xC0000201] 30 := by decide +kernel
  obtain ⟨stop, -, -, hechoes, -⟩ := only_answers_learned h
  exact ⟨h, stop, hechoes⟩

end NetRuleRouter.DnsAnswers
