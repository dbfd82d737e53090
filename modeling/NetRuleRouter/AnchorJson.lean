import NetRuleRouter.RulesAnchor
import NetRuleRouter.Spellings

/-!
# The record of the active rules in JSON

The record as the JSON library writes it, with the members of the structure
in order and the entries of its maps and sets sorted. No two records are
written alike, so a reader that takes each text for the record it is of keeps
the laws the record asks of its library.
-/

set_option autoImplicit false

namespace NetRuleRouter.AnchorJson
open TextOps Numerals Utf8 FlatJson Spellings RevisionRecords RulesAnchor

def numberText (n : ℕ) : Text := printInt n ++ [',']

def boolText (b : Bool) : Text := if b then "true".toList else "false".toList

def namesText (names : List Text) : Text := '[' :: spellItems quote ',' ']' names

/-- The fixed words of the record, each up to the value that follows it. -/
inductive Word where
  | version
  | generation
  | pending
  | pendingAll
  | active
  | revision
  | hash

def Word.text : Word → Text
  | .version => "\x7b\"version\":".toList
  | .generation => "\"generation\":".toList
  | .pending => "\"pending\":".toList
  | .pendingAll => ",\"pending_all\":".toList
  | .active => ",\"active\":".toList
  | .revision => ":\x7b\"revision\":".toList
  | .hash => ",\"hash\":".toList

def entryText (e : Text × ActiveRules) : Text :=
  quote e.1 ++ (Word.revision.text ++
    (quote e.2.revision ++ (Word.hash.text ++ (quote e.2.hash ++ ['}']))))

def entriesText (entries : List (Text × ActiveRules)) : Text :=
  '{' :: spellItems entryText ',' '}' entries

def entriesOf (m : ActiveSet) : List (Text × ActiveRules) :=
  (keysOf m).filterMap fun p => (m.lookup p).map (p, ·)

def recordText (r : AnchorRecord) : Text :=
  (Word.version.text ++ numberText r.version.toNat) ++
    ((Word.generation.text ++ numberText r.generation.toNat) ++
      ((Word.pending.text ++ namesText r.pendingNames) ++
        ((Word.pendingAll.text ++ boolText r.pendingAll) ++
          (Word.active.text ++ (entriesText (entriesOf r.active) ++ ['}'])))))

theorem quote_unambiguous : Unambiguous quote := by
  intro a b s t h
  have hread := read_text a s
  rw [h, read_text b t] at hread
  simpa [eq_comm] using hread

theorem number_unambiguous : Unambiguous numberText := by
  intro a b s t h
  have hcomma : isDigit 10 ',' = false := by decide
  have hread := @read_int (',' :: s) a (by simp [hcomma])
  simp only [numberText, List.append_assoc, List.singleton_append] at h
  rw [h, read_int (b : ℤ) (by simp [hcomma])] at hread
  simpa [eq_comm] using hread

theorem bool_unambiguous : Unambiguous boolText := by
  intro a b s t h
  cases a <;> cases b <;> simp_all [boolText]

theorem names_unambiguous : Unambiguous namesText :=
  (quote_unambiguous.items (by decide) fun a => ⟨'"', _, rfl, by decide⟩).after ['[']

theorem entry_unambiguous : Unambiguous entryText := by
  have hparts : Unambiguous fun e : Text × Text × Text =>
      quote e.1 ++ (Word.revision.text ++
        (quote e.2.1 ++ (Word.hash.text ++ (quote e.2.2 ++ ['}'])))) :=
    quote_unambiguous.pair ((quote_unambiguous.pair
      ((quote_unambiguous.before ['}']).after _)).after _)
  have hinj : Function.Injective fun e : Text × ActiveRules => (e.1, e.2.revision, e.2.hash) := by
    rintro ⟨p, ⟨r, h⟩⟩ ⟨p', ⟨r', h'⟩⟩ heq
    simp_all
  exact hparts.comap hinj

theorem entries_unambiguous : Unambiguous entriesText :=
  (entry_unambiguous.items (by decide) fun a => ⟨'"', _, rfl, by decide⟩).after ['{']

variable {rules : ActiveRules} {p : Text}

theorem mem_entries_of {m : ActiveSet} :
    (p, rules) ∈ entriesOf m ↔ m.lookup p = some rules := by
  simp only [entriesOf, List.mem_filterMap, mem_keys_of, Option.map_eq_some_iff, Prod.mk.injEq]
  constructor
  · rintro ⟨q, -, rules', hlook, rfl, rfl⟩
    exact hlook
  · intro h
    exact ⟨p, Finmap.mem_of_lookup_eq_some h, rules, h, rfl, rfl⟩

theorem entries_of_injective : Function.Injective entriesOf := by
  intro m m' h
  apply Finmap.ext_lookup
  intro p
  have hsame : ∀ rules, m.lookup p = some rules ↔ m'.lookup p = some rules := by
    intro rules
    rw [← mem_entries_of, ← mem_entries_of, h]
  exact Option.ext hsame

theorem sort_injective : Function.Injective fun s : Finset Text => s.sort (· ≤ ·) := by
  intro s t h
  ext a
  have hmem : a ∈ s.sort (· ≤ ·) ↔ a ∈ t.sort (· ≤ ·) := by rw [show s.sort (· ≤ ·) = _ from h]
  simpa [Finset.mem_sort] using hmem

theorem record_text_injective : Function.Injective recordText := by
  have hparts := (number_unambiguous.after Word.version.text).pair
    ((number_unambiguous.after Word.generation.text).pair
      ((names_unambiguous.after Word.pending.text).pair
        ((bool_unambiguous.after Word.pendingAll.text).pair
          ((entries_unambiguous.before ['}']).after Word.active.text))))
  intro r r' h
  have hfields : (r.version.toNat, r.generation.toNat, r.pending.sort (· ≤ ·), r.pendingAll,
      entriesOf r.active) = (r'.version.toNat, r'.generation.toNat, r'.pending.sort (· ≤ ·),
      r'.pendingAll, entriesOf r'.active) := hparts.injective h
  simp only [Prod.mk.injEq] at hfields
  obtain ⟨hversion, hgeneration, hpending, hall, hactive⟩ := hfields
  obtain ⟨version, generation, pending, pendingAll, active⟩ := r
  obtain ⟨version', generation', pending', pendingAll', active'⟩ := r'
  simp only at hversion hgeneration hpending hall hactive
  rw [UInt32.toNat_inj.mp hversion, UInt64.toNat_inj.mp hgeneration, sort_injective hpending, hall,
    entries_of_injective hactive]

theorem encode_injective : Function.Injective encode := by
  intro s t h
  exact Option.some.inj ((decode_encode s).symm.trans ((congrArg decode h).trans (decode_encode t)))

theorem length_le_encode (t : Text) : t.length ≤ (encode t).length := by
  induction t with
  | nil => simp
  | cons c t ih =>
    have hpos := List.length_pos_of_ne_nil (encode_char_ne_nil c)
    rw [encode_cons, List.length_append, List.length_cons]
    omega

noncomputable def readRecord (bytes : Bytes) : Option AnchorRecord :=
  open Classical in
  if h : ∃ r, encode (recordText r) = bytes then some h.choose else none

theorem read_record_text (r : AnchorRecord) : readRecord (encode (recordText r)) = some r := by
  have hex : ∃ r', encode (recordText r') = encode (recordText r) := ⟨r, rfl⟩
  rw [readRecord, dif_pos hex, Option.some.injEq]
  exact record_text_injective (encode_injective hex.choose_spec)

theorem record_text_ne_nil (r : AnchorRecord) : encode (recordText r) ≠ [] := by
  intro h
  have hnil : recordText r = [] := encode_injective (h.trans encode_nil.symm)
  rw [recordText, List.append_eq_nil_iff, List.append_eq_nil_iff] at hnil
  exact absurd hnil.1.1 (by decide)

noncomputable def anchorCodec (H : Digests) : AnchorCodec where
  toDigests := H
  toVec r := encode (recordText r)
  fromSlice := readRecord
  from_to := read_record_text
  to_vec_ne_nil := record_text_ne_nil

noncomputable def sampleCodec : AnchorCodec := anchorCodec sha2Digests

theorem name_le_record {r : AnchorRecord}
    (h : r.active.lookup p = some rules) : p.length ≤ (encode (recordText r)).length := by
  have hentry : p.length ≤ (entryText (p, rules)).length := by
    have hquote := quoted_length p
    simp only [entryText, quote, List.length_append, List.length_cons]
    omega
  have hitems := item_sublist (f := entryText) (mem_entries_of.mpr h) ',' '}'
  have hbytes := length_le_encode (recordText r)
  have htext : (spellItems entryText ',' '}' (entriesOf r.active)).length ≤
      (recordText r).length := by
    simp only [recordText, entriesText, List.length_append, List.length_cons]
    omega
  omega

end NetRuleRouter.AnchorJson
