import NetRuleRouter.DnsMessages

/-!
# Whether two packets ask the same

A reply is matched to a query by a key made of the first question of each. The
labels of a name may hold any byte, and the key runs them together with dots:
names that differ only in which of their dots separate labels get one key.
-/

set_option autoImplicit false

namespace NetRuleRouter.QuestionKeys
open Utf8 DnsNames DnsMessages

/-- The first question of a packet: the labels of its name, its type and class. -/
structure FirstQuestion (packet : Bytes) (labels : List Bytes) (qtype qclass : UInt16) : Prop where
  name : ∃ jumps, NameAt packet dnsHeaderLen jumps labels
  fixed : ∃ stop, EndsAt packet dnsHeaderLen stop ∧ stop + 4 ≤ packet.length ∧
    u16At packet stop = qtype ∧ u16At packet (stop + 2) = qclass

def lowered (labels : List Bytes) : List Bytes := labels.map fun label => label.map lowerByte

def SameQuestion (p q : Bytes) : Prop :=
  ∃ labels labels' qtype qclass, FirstQuestion p labels qtype qclass ∧
    FirstQuestion q labels' qtype qclass ∧ lowered labels = lowered labels'

def pieces (labels : List Bytes) : List Bytes := labels.flatMap fun label => label.splitOn 46

/-- The names have the same pieces up to case, and other labels; type and class are the same. -/
def Regrouped (p q : Bytes) : Prop :=
  ∃ labels labels' qtype qclass, FirstQuestion p labels qtype qclass ∧
    FirstQuestion q labels' qtype qclass ∧ lowered labels ≠ lowered labels' ∧
    pieces (lowered labels) = pieces (lowered labels')

variable {packet : Bytes} {labels : List Bytes} {labels' : List Bytes}

theorem FirstQuestion.unique
    {qtype qtype' qclass qclass' : UInt16} (h : FirstQuestion packet labels qtype qclass)
    (h' : FirstQuestion packet labels' qtype' qclass') :
    labels = labels' ∧ qtype = qtype' ∧ qclass = qclass' := by
  obtain ⟨⟨_, hname⟩, stop, hends, -, hqtype, hqclass⟩ := h
  obtain ⟨⟨_, hname'⟩, stop', hends', -, hqtype', hqclass'⟩ := h'
  have hstop : stop = stop' := by
    have h := skip_encoded_name_some.mpr hends
    rw [skip_encoded_name_some.mpr hends', Option.some.injEq] at h
    exact h.symm
  subst hstop
  exact ⟨(hname.unique hname').2, hqtype.symm.trans hqtype', hqclass.symm.trans hqclass'⟩

theorem FirstQuestion.both_iff {p q : Bytes}
    {qtype qtype' qclass qclass' : UInt16} {rel : List Bytes → List Bytes → Prop}
    (h : FirstQuestion p labels qtype qclass) (h' : FirstQuestion q labels' qtype' qclass') :
    (∃ l l' t c, FirstQuestion p l t c ∧ FirstQuestion q l' t c ∧ rel l l') ↔
      rel labels labels' ∧ qtype = qtype' ∧ qclass = qclass' := by
  constructor
  · rintro ⟨l, l', t, c, hl, hl', hrel⟩
    obtain ⟨rfl, rfl, rfl⟩ := h.unique hl
    obtain ⟨rfl, rfl, rfl⟩ := h'.unique hl'
    exact ⟨hrel, rfl, rfl⟩
  · rintro ⟨hrel, rfl, rfl⟩
    exact ⟨labels, labels', _, _, h, h', hrel⟩

theorem question_key_some {key : Bytes × UInt16 × UInt16} (h : questionKey packet = some key) :
    ∃ labels, FirstQuestion packet labels key.2.1 key.2.2 ∧ key.1 = dottedKey labels := by
  unfold questionKey at h
  split_ifs at h with hheader
  split at h
  · rename_i labels stop hlabels hskip
    split_ifs at h with hfixed
    cases h
    obtain ⟨jumps, hname, -⟩ := follow_labels_some.mp hlabels
    exact ⟨labels, ⟨⟨jumps, hname⟩, stop, skip_encoded_name_some.mp hskip, by omega, rfl, rfl⟩, rfl⟩
  · cases h

theorem split_dotted_key (labels : List Bytes) :
    (dottedKey labels).splitOn 46 = pieces (lowered labels) ++ [[]] := by
  induction labels with
  | nil => rfl
  | cons label rest ih =>
    have hcons : dottedKey (label :: rest) = label.map lowerByte ++ 46 :: dottedKey rest := by
      simp [dottedKey]
    rw [hcons, List.splitOn_append_cons_self, ih]
    simp [pieces, lowered]

theorem dotted_key_eq :
    dottedKey labels = dottedKey labels' ↔ pieces (lowered labels) = pieces (lowered labels') := by
  constructor
  · intro h
    have hsplit := split_dotted_key labels
    rw [h, split_dotted_key labels'] at hsplit
    exact (List.append_cancel_right hsplit).symm
  · intro h
    rw [← @List.intercalate_splitOn _ (dottedKey labels) _ _ 46, split_dotted_key, h,
      ← split_dotted_key, List.intercalate_splitOn]

theorem pieces_of_dot_free (h : ∀ label ∈ labels, 46 ∉ label) :
    pieces labels = labels := by
  induction labels with
  | nil => rfl
  | cons label rest ih =>
    have hone := List.splitOn_eq_singleton (h label List.mem_cons_self)
    rw [pieces, List.flatMap_cons, hone]
    exact congrArg _ (ih fun l hl => h l (List.mem_cons_of_mem _ hl))

/-- Two packets with a key have the same one exactly for the same question, except where their
names are the same pieces grouped into other labels. -/
theorem key_identifies_unless_regrouped {p q : Bytes} (hp : (questionKey p).isSome = true)
    (hq : (questionKey q).isSome = true) :
    (questionKey p = questionKey q ↔ SameQuestion p q) ↔ ¬Regrouped p q := by
  obtain ⟨⟨key, qtype, qclass⟩, hkey⟩ := Option.isSome_iff_exists.mp hp
  obtain ⟨⟨key', qtype', qclass'⟩, hkey'⟩ := Option.isSome_iff_exists.mp hq
  obtain ⟨labels, hfirst, rfl⟩ := question_key_some hkey
  obtain ⟨labels', hfirst', rfl⟩ := question_key_some hkey'
  dsimp only at hfirst hfirst'
  have hsame : SameQuestion p q ↔
      lowered labels = lowered labels' ∧ qtype = qtype' ∧ qclass = qclass' :=
    @FirstQuestion.both_iff _ _ _ _ _ _ _ _ (fun l l' => lowered l = lowered l') hfirst hfirst'
  have hregrouped : Regrouped p q ↔ lowered labels ≠ lowered labels' ∧
      pieces (lowered labels) = pieces (lowered labels') ∧ qtype = qtype' ∧ qclass = qclass' :=
    ((@FirstQuestion.both_iff _ _ _ _ _ _ _ _ (fun l l' => lowered l ≠ lowered l' ∧
      pieces (lowered l) = pieces (lowered l')) hfirst hfirst')).trans and_assoc
  have hkeys : questionKey p = questionKey q ↔
      pieces (lowered labels) = pieces (lowered labels') ∧ qtype = qtype' ∧ qclass = qclass' := by
    rw [hkey, hkey', Option.some.injEq, Prod.mk.injEq, Prod.mk.injEq, dotted_key_eq]
  rw [hkeys, hsame, hregrouped]
  constructor
  · rintro h ⟨hne, hpieces, htypes⟩
    exact hne (h.mp ⟨hpieces, htypes⟩).1
  · intro h
    constructor
    · rintro ⟨hpieces, htypes⟩
      exact ⟨not_not.mp fun hne => h ⟨hne, hpieces, htypes⟩, htypes⟩
    · rintro ⟨hlabels, htypes⟩
      exact ⟨by rw [hlabels], htypes⟩

theorem FirstQuestion.labels_eq {read : List Bytes} {qtype qclass : UInt16}
    (h : FirstQuestion packet labels qtype qclass) (hread : questionLabels packet = some read) :
    labels = read := by
  obtain ⟨⟨_, hname⟩, -⟩ := h
  obtain ⟨_, hone, -⟩ := follow_labels_some.mp hread
  exact (hname.unique hone).2

theorem dot_free_not_regrouped {p q : Bytes}
    (hp : ∀ labels qtype qclass, FirstQuestion p labels qtype qclass →
      ∀ label ∈ lowered labels, 46 ∉ label)
    (hq : ∀ labels qtype qclass, FirstQuestion q labels qtype qclass →
      ∀ label ∈ lowered labels, 46 ∉ label) : ¬Regrouped p q := by
  rintro ⟨labels, labels', qtype, qclass, hl, hl', hne, heq⟩
  rw [pieces_of_dot_free (hp _ _ _ hl), pieces_of_dot_free (hq _ _ _ hl')] at heq
  exact hne heq

def oneLabelQuery : Bytes :=
  [0, 7, 1, 0, 0, 1, 0, 0, 0, 0, 0, 0, 3, 97, 46, 98, 0, 0, 1, 0, 1]

def twoLabelReply : Bytes :=
  [0, 7, 0x81, 0x80, 0, 1, 0, 0, 0, 0, 0, 0, 1, 97, 1, 98, 0, 0, 1, 0, 1]

theorem other_labels_same_key :
    (questionKey oneLabelQuery).isSome = true ∧
      questionKey oneLabelQuery = questionKey twoLabelReply ∧
      ¬SameQuestion oneLabelQuery twoLabelReply := by
  have hlabels : questionLabels oneLabelQuery = some [[97, 46, 98]] := by decide +kernel
  have hlabels' : questionLabels twoLabelReply = some [[97], [98]] := by decide +kernel
  refine ⟨by decide +kernel, by decide +kernel, ?_⟩
  rintro ⟨l, l', _, _, hl, hl', heq⟩
  rw [hl.labels_eq hlabels, hl'.labels_eq hlabels'] at heq
  exact absurd heq (by decide)

def echoedReply : Bytes :=
  [0, 7, 0x81, 0x80, 0, 1, 0, 0, 0, 0, 0, 0, 1, 65, 1, 98, 0, 0, 1, 0, 1]

theorem echoed_reply_same_question : SameQuestion echoedReply twoLabelReply := by
  have hlabels : questionLabels echoedReply = some [[65], [98]] := by decide +kernel
  have hlabels' : questionLabels twoLabelReply = some [[97], [98]] := by decide +kernel
  have hnot : ¬Regrouped echoedReply twoLabelReply := by
    refine dot_free_not_regrouped ?_ ?_
    · intro l _ _ hl
      rw [hl.labels_eq hlabels]
      decide
    · intro l _ _ hl
      rw [hl.labels_eq hlabels']
      decide
  exact ((key_identifies_unless_regrouped (by decide +kernel) (by decide +kernel)).mpr hnot).mp
    (by decide +kernel)

end NetRuleRouter.QuestionKeys
