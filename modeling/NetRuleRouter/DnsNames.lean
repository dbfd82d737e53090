import NetRuleRouter.Utf8

/-!
# Names in DNS messages

A name is a sequence of labels, each behind its length, and ends with a zero
or with a pointer to where the rest of it stands. The decoders follow pointers
a bounded number of times and give up on long names, so they end on every
packet; what they read is told here by a relation of its own.
-/

set_option autoImplicit false

namespace NetRuleRouter.DnsNames
open TextOps Utf8

def slice (bytes : Bytes) (off len : ℕ) : Option Bytes :=
  if off + len ≤ bytes.length then some ((bytes.drop off).take len) else none

def fromBe (bytes : Bytes) : ℕ := bytes.foldl (fun n b => n * 256 + b.toNat) 0

theorem slice_some {bytes s : Bytes} {off len : ℕ} :
    slice bytes off len = some s ↔
      off + len ≤ bytes.length ∧ (bytes.drop off).take len = s := by
  unfold slice
  split_ifs with h
  · simp [h]
  · simp [h]

theorem slice_length {bytes s : Bytes} {off len : ℕ} (h : slice bytes off len = some s) :
    s.length = len := by
  obtain ⟨hle, rfl⟩ := slice_some.mp h
  rw [List.length_take, List.length_drop]
  omega

def isAsciiAlphanumeric (b : UInt8) : Bool :=
  (48 ≤ b && b ≤ 57) || (65 ≤ b && b ≤ 90) || (97 ≤ b && b ≤ 122)

def isLearnableLabel (label : Bytes) : Bool :=
  label ≠ [] && label.all fun b => isAsciiAlphanumeric b || b = 45 || b = 95

def lowerByte (b : UInt8) : UInt8 := if 65 ≤ b ∧ b ≤ 90 then b + 32 else b

def labelText (label : Bytes) : Text :=
  toAsciiLowercase (label.map fun b => Char.ofNat b.toNat)

def dotted (labels : List Bytes) : Text := ['.'].intercalate (labels.map labelText)

def wireLength (labels : List Bytes) : ℕ := (labels.map fun label => label.length + 1).sum

def pointsTo (len low : UInt8) : ℕ := (len &&& 0x3F).toNat * 256 + low.toNat

/-- The labels of a name, pointers followed; one that `keeps` refuses ends the walk, as a name
of more than 255 octets and a 33rd pointer do. -/
def followLabels (keeps : Bytes → Bool) (packet : Bytes) (off jumps total : ℕ) :
    Option (List Bytes) :=
  match packet[off]? with
  | none => none
  | some len =>
    if len = 0 then some []
    else if len &&& 0xC0 = 0xC0 then
      match packet[off + 1]? with
      | none => none
      | some low =>
        if 32 < jumps + 1 ∨ packet.length ≤ pointsTo len low then none
        else followLabels keeps packet (pointsTo len low) (jumps + 1) total
    -- a reserved type of label
    else if len &&& 0xC0 ≠ 0 then none
    else
      match slice packet (off + 1) len.toNat with
      | none => none
      | some label =>
        if keeps label = false then none
        else if 255 < total + (len.toNat + 1) then none
        else (followLabels keeps packet (off + 1 + len.toNat) jumps
          (total + (len.toNat + 1))).map (label :: ·)
termination_by (33 - jumps) * 256 + (256 - total)
decreasing_by
  all_goals omega

def decodeName (packet : Bytes) (off : ℕ) : Option Text :=
  match followLabels isLearnableLabel packet off 0 0 with
  | none => none
  | some labels => if labels = [] then none else some (dotted labels)

/-- The labels of a name without pointers, and where it ends. -/
def qnameLabels (packet : Bytes) (off total : ℕ) : Option (List Bytes × ℕ) :=
  match packet[off]? with
  | none => none
  | some len =>
    if len = 0 then some ([], off + 1)
    else if len &&& 0xC0 ≠ 0 then none
    else
      match slice packet (off + 1) len.toNat with
      | none => none
      | some label =>
        if isLearnableLabel label = false then none
        else if 255 < total + (len.toNat + 1) then none
        else (qnameLabels packet (off + 1 + len.toNat) (total + (len.toNat + 1))).map
          fun r => (label :: r.1, r.2)
termination_by 256 - total
decreasing_by
  omega

def parseQname (packet : Bytes) (off : ℕ) : Option (Text × ℕ) :=
  (qnameLabels packet off 0).map fun r => (dotted r.1, r.2)

def skipEncodedName (packet : Bytes) (off : ℕ) : Option ℕ :=
  match _h : packet[off]? with
  | none => none
  | some len =>
    if len = 0 then some (off + 1)
    else if len &&& 0xC0 = 0xC0 then
      match packet[off + 1]? with
      | none => none
      | some _ => some (off + 2)
    else if len &&& 0xC0 ≠ 0 then none
    else skipEncodedName packet (off + 1 + len.toNat)
termination_by packet.length - off
decreasing_by
  obtain ⟨hlt, -⟩ := List.getElem?_eq_some_iff.mp _h
  omega

/-- The name at an offset, and how many pointers lead through it. -/
inductive NameAt (packet : Bytes) : ℕ → ℕ → List Bytes → Prop where
  | root {off : ℕ} : packet[off]? = some 0 → NameAt packet off 0 []
  | label {off jumps : ℕ} {len : UInt8} {label : Bytes} {labels : List Bytes} :
      packet[off]? = some len → len ≠ 0 → len &&& 0xC0 = 0 →
      slice packet (off + 1) len.toNat = some label →
      NameAt packet (off + 1 + len.toNat) jumps labels → NameAt packet off jumps (label :: labels)
  | pointer {off jumps : ℕ} {len low : UInt8} {labels : List Bytes} :
      packet[off]? = some len → len &&& 0xC0 = 0xC0 → packet[off + 1]? = some low →
      NameAt packet (pointsTo len low) jumps labels → NameAt packet off (jumps + 1) labels

inductive EndsAt (packet : Bytes) : ℕ → ℕ → Prop where
  | root {off : ℕ} : packet[off]? = some 0 → EndsAt packet off (off + 1)
  | label {off stop : ℕ} {len : UInt8} : packet[off]? = some len → len ≠ 0 → len &&& 0xC0 = 0 →
      EndsAt packet (off + 1 + len.toNat) stop → EndsAt packet off stop
  | pointer {off : ℕ} {len low : UInt8} : packet[off]? = some len → len &&& 0xC0 = 0xC0 →
      packet[off + 1]? = some low → EndsAt packet off (off + 2)

theorem pointer_ne_zero {len : UInt8} (h : len &&& 0xC0 = 0xC0) : len ≠ 0 := by
  rintro rfl
  exact absurd h (by decide)

theorem plain_not_pointer {len : UInt8} (h : len &&& 0xC0 = 0) : len &&& 0xC0 ≠ 0xC0 := by
  rw [h]
  decide

variable {labels : List Bytes}

theorem NameAt.unique {packet : Bytes} {off jumps jumps' : ℕ} {labels' : List Bytes}
    (h : NameAt packet off jumps labels) (h' : NameAt packet off jumps' labels') :
    jumps = jumps' ∧ labels = labels' := by
  induction h generalizing jumps' labels' with
  | root hzero =>
    cases h' with
    | root _ => exact ⟨rfl, rfl⟩
    | label hlen hne _ _ _ =>
      rw [hzero, Option.some.injEq] at hlen
      exact absurd hlen.symm hne
    | pointer hlen hp _ _ =>
      rw [hzero, Option.some.injEq] at hlen
      exact absurd hlen.symm (pointer_ne_zero hp)
  | label hlen hne hplain hslice _ ih =>
    cases h' with
    | root hzero =>
      rw [hlen, Option.some.injEq] at hzero
      exact absurd hzero hne
    | label hlen' _ _ hslice' hrest =>
      rw [hlen, Option.some.injEq] at hlen'
      subst hlen'
      rw [hslice, Option.some.injEq] at hslice'
      obtain ⟨hjumps, hlabels⟩ := ih hrest
      exact ⟨hjumps, by rw [hslice', hlabels]⟩
    | pointer hlen' hp _ _ =>
      rw [hlen, Option.some.injEq] at hlen'
      exact absurd (hlen' ▸ hp) (plain_not_pointer hplain)
  | pointer hlen hp hlow _ ih =>
    cases h' with
    | root hzero =>
      rw [hlen, Option.some.injEq] at hzero
      exact absurd hzero (pointer_ne_zero hp)
    | label hlen' _ hplain _ _ =>
      rw [hlen, Option.some.injEq] at hlen'
      exact absurd hp (plain_not_pointer (hlen' ▸ hplain))
    | pointer hlen' _ hlow' hrest =>
      rw [hlen, Option.some.injEq] at hlen'
      subst hlen'
      rw [hlow, Option.some.injEq] at hlow'
      subst hlow'
      obtain ⟨hjumps, hlabels⟩ := ih hrest
      exact ⟨by rw [hjumps], hlabels⟩

section Follow
variable {keeps : Bytes → Bool} {packet : Bytes} {off jumps total : ℕ} {len : UInt8}

theorem follow_root (h : packet[off]? = some 0) :
    followLabels keeps packet off jumps total = some [] := by
  rw [followLabels, h]
  rfl

theorem follow_pointer {low : UInt8} (hlen : packet[off]? = some len)
    (hp : len &&& 0xC0 = 0xC0) (hlow : packet[off + 1]? = some low) :
    followLabels keeps packet off jumps total =
      if 32 < jumps + 1 ∨ packet.length ≤ pointsTo len low then none
      else followLabels keeps packet (pointsTo len low) (jumps + 1) total := by
  rw [followLabels, hlen]
  dsimp only
  rw [if_neg (pointer_ne_zero hp), if_pos hp, hlow]

theorem follow_label {label : Bytes} (hlen : packet[off]? = some len) (hne : len ≠ 0)
    (hplain : len &&& 0xC0 = 0) (hslice : slice packet (off + 1) len.toNat = some label) :
    followLabels keeps packet off jumps total =
      if keeps label = false then none
      else if 255 < total + (len.toNat + 1) then none
      else (followLabels keeps packet (off + 1 + len.toNat) jumps
        (total + (len.toNat + 1))).map (label :: ·) := by
  rw [followLabels, hlen]
  dsimp only
  rw [if_neg hne, if_neg (plain_not_pointer hplain), if_neg (not_not.mpr hplain), hslice]

theorem wire_length_cons (label : Bytes) (labels : List Bytes) :
    wireLength (label :: labels) = label.length + 1 + wireLength labels := rfl

theorem follow_labels_reads {n : ℕ} (h : NameAt packet off n labels) (hjumps : jumps + n ≤ 32)
    (hkeeps : ∀ label ∈ labels, keeps label = true) (htotal : total + wireLength labels ≤ 255) :
    followLabels keeps packet off jumps total = some labels := by
  induction h generalizing jumps total with
  | root hzero => exact follow_root hzero
  | label hlen hne hplain hslice _ ih =>
    have hlabel := slice_length hslice
    rw [wire_length_cons] at htotal
    have hkept := hkeeps _ List.mem_cons_self
    rw [follow_label hlen hne hplain hslice, if_neg (by simp [hkept]), if_neg (by omega),
      ih hjumps (fun l hl => hkeeps l (by simp [hl])) (by omega)]
    rfl
  | @pointer off n len low labels hlen hp hlow hrest ih =>
    have htarget : pointsTo len low < packet.length := by
      cases hrest with
      | root h | label h _ _ _ _ | pointer h _ _ _ => exact (List.getElem?_eq_some_iff.mp h).1
    rw [follow_pointer hlen hp hlow, if_neg (by omega)]
    exact ih (by omega) hkeeps htotal

theorem reads_follow_labels (htotal : total ≤ 255)
    (h : followLabels keeps packet off jumps total = some labels) (hjumps : jumps ≤ 32) :
    ∃ n, NameAt packet off n labels ∧ jumps + n ≤ 32 ∧
      (∀ label ∈ labels, keeps label = true) ∧ total + wireLength labels ≤ 255 := by
  fun_induction followLabels keeps packet off jumps total generalizing labels with
  | case2 off jumps total hzero =>
    cases h
    exact ⟨0, NameAt.root hzero, hjumps, by simp, htotal⟩
  | case5 off jumps total len hlen hne hp low hlow hin ih =>
    obtain ⟨n, hname, hn, hkeeps, hlength⟩ := ih htotal h (by omega)
    exact ⟨n + 1, NameAt.pointer hlen hp hlow hname, by omega, hkeeps, hlength⟩
  | case10 off jumps total len hlen hne _ hplain label hslice hkept hin ih =>
    obtain ⟨rest, hrest, rfl⟩ := Option.map_eq_some_iff.mp h
    obtain ⟨n, hname, hn, hkeeps, hlength⟩ := ih (by omega) hrest hjumps
    have hlabel := slice_length hslice
    refine ⟨n, NameAt.label hlen hne (not_not.mp hplain) hslice hname, hn, ?_, ?_⟩
    · rintro l (_ | ⟨_, hl⟩)
      · exact Bool.eq_true_of_not_eq_false hkept
      · exact hkeeps l hl
    · rw [wire_length_cons]
      omega
  | _ => cases h

theorem follow_labels_some :
    followLabels keeps packet off 0 0 = some labels ↔ ∃ n, NameAt packet off n labels ∧ n ≤ 32 ∧
      (∀ label ∈ labels, keeps label = true) ∧ wireLength labels ≤ 255 := by
  constructor
  · intro h
    obtain ⟨n, hname, hn, hkeeps, hlength⟩ := reads_follow_labels (by omega) h (by omega)
    exact ⟨n, hname, by omega, hkeeps, by omega⟩
  · rintro ⟨n, hname, hn, hkeeps, hlength⟩
    exact follow_labels_reads hname (by omega) hkeeps (by omega)

end Follow

theorem qname_labels_some {packet : Bytes} {off total stop : ℕ}
    (h : qnameLabels packet off total = some (labels, stop)) (htotal : total ≤ 255) :
    NameAt packet off 0 labels ∧ EndsAt packet off stop ∧
      (∀ label ∈ labels, isLearnableLabel label = true) ∧ total + wireLength labels ≤ 255 := by
  fun_induction qnameLabels packet off total generalizing labels stop with
  | case2 off total hzero =>
    cases h
    exact ⟨NameAt.root hzero, EndsAt.root hzero, by simp, htotal⟩
  | case7 off total len hlen hne hplain label hslice hkept hin ih =>
    obtain ⟨⟨rest, stop'⟩, hrest, heq⟩ := Option.map_eq_some_iff.mp h
    cases heq
    obtain ⟨hname, hends, hkeeps, hlength⟩ := ih hrest (by omega)
    have hlabel := slice_length hslice
    rw [not_not] at hplain
    refine ⟨NameAt.label hlen hne hplain hslice hname, EndsAt.label hlen hne hplain hends, ?_, ?_⟩
    · rintro l (_ | ⟨_, hl⟩)
      · exact Bool.eq_true_of_not_eq_false hkept
      · exact hkeeps l hl
    · rw [wire_length_cons]
      dsimp only
      omega
  | _ => cases h

theorem skip_of_byte {packet : Bytes} {off : ℕ} {len : UInt8} (hlen : packet[off]? = some len) :
    skipEncodedName packet off =
      if len = 0 then some (off + 1)
      else if len &&& 0xC0 = 0xC0 then packet[off + 1]?.map fun _ => off + 2
      else if len &&& 0xC0 ≠ 0 then none
      else skipEncodedName packet (off + 1 + len.toNat) := by
  rw [skipEncodedName]
  split
  · rename_i hnone
    rw [hlen] at hnone
    cases hnone
  · rename_i len' hlen'
    rw [hlen, Option.some.injEq] at hlen'
    subst hlen'
    cases packet[off + 1]? <;> rfl

theorem skip_encoded_name_some {packet : Bytes} {off stop : ℕ} :
    skipEncodedName packet off = some stop ↔ EndsAt packet off stop := by
  constructor
  · intro h
    fun_induction skipEncodedName packet off with
    | case2 off hzero =>
      cases h
      exact EndsAt.root hzero
    | case4 off len hlen hne hp low hlow =>
      cases h
      exact EndsAt.pointer hlen hp hlow
    | case6 off len hlen hne _ hplain ih => exact EndsAt.label hlen hne (not_not.mp hplain) (ih h)
    | _ => cases h
  · intro h
    induction h with
    | root hzero => rw [skip_of_byte hzero, if_pos rfl]
    | label hlen hne hplain _ ih =>
      rw [skip_of_byte hlen, if_neg hne, if_neg (plain_not_pointer hplain),
        if_neg (not_not.mpr hplain), ih]
    | pointer hlen hp hlow =>
      rw [skip_of_byte hlen, if_neg (pointer_ne_zero hp), if_pos hp, hlow, Option.map_some]

end NetRuleRouter.DnsNames
