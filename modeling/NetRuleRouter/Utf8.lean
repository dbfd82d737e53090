import NetRuleRouter.TextOps

/-!
# Text as bytes

The UTF-8 encoding of a text and its strict reader. The reader takes the
length of a character from its first byte, computes the character and keeps
it only where its own encoding is what was read, so what is read is exactly
what was written.
-/

set_option autoImplicit false

namespace NetRuleRouter.Utf8
open TextOps

abbrev Bytes := List UInt8

def encodeChar (c : Char) : Bytes :=
  let n := c.toNat
  if n < 0x80 then [.ofNat n]
  else if n < 0x800 then [.ofNat (0xC0 + n / 64), .ofNat (0x80 + n % 64)]
  else if n < 0x10000 then
    [.ofNat (0xE0 + n / 4096), .ofNat (0x80 + n / 64 % 64), .ofNat (0x80 + n % 64)]
  else
    [.ofNat (0xF0 + n / 262144), .ofNat (0x80 + n / 4096 % 64), .ofNat (0x80 + n / 64 % 64),
      .ofNat (0x80 + n % 64)]

def encode (t : Text) : Bytes := t.flatMap encodeChar

def scalarAt : Bytes → ℕ
  | [] => 0
  | a :: rest =>
    if a.toNat < 0x80 then a.toNat
    else
      let tail (k : ℕ) : ℕ := (rest.getD k 0).toNat - 0x80
      if a.toNat < 0xE0 then (a.toNat - 0xC0) * 64 + tail 0
      else if a.toNat < 0xF0 then (a.toNat - 0xE0) * 4096 + tail 0 * 64 + tail 1
      else (a.toNat - 0xF0) * 262144 + tail 0 * 4096 + tail 1 * 64 + tail 2

def decodeChar (bytes : Bytes) : Option (Char × Bytes) :=
  let c := Char.ofNat (scalarAt bytes)
  if (encodeChar c).isPrefixOf bytes then some (c, bytes.drop (encodeChar c).length) else none

def decodeWithin : ℕ → Bytes → Option Text
  | _, [] => some []
  | 0, _ :: _ => none
  | fuel + 1, b :: bytes =>
    (decodeChar (b :: bytes)).bind fun e => (decodeWithin fuel e.2).map (e.1 :: ·)

/-- `str::from_utf8`; every character takes a byte at least. -/
def decode (bytes : Bytes) : Option Text := decodeWithin bytes.length bytes

theorem encode_char_ne_nil (c : Char) : encodeChar c ≠ [] := by
  unfold encodeChar
  dsimp only
  split_ifs <;> simp

theorem encode_nil : encode [] = [] := rfl

theorem encode_cons (c : Char) (t : Text) : encode (c :: t) = encodeChar c ++ encode t := rfl

theorem encode_append (s t : Text) : encode (s ++ t) = encode s ++ encode t :=
  List.flatMap_append

theorem char_lt (c : Char) : c.toNat < 0x110000 := by
  rcases c.valid with h | ⟨-, h⟩
  · exact lt_trans h (by decide)
  · exact h

theorem scalar_at_encode (c : Char) (rest : Bytes) :
    scalarAt (encodeChar c ++ rest) = c.toNat := by
  have hc := char_lt c
  unfold encodeChar
  dsimp only
  split_ifs with h1 h2 h3
  · simp only [List.cons_append, scalarAt, UInt8.toNat_ofNat']
    rw [if_pos (by omega)]
    omega
  · simp only [List.cons_append, scalarAt, UInt8.toNat_ofNat', List.getD_cons_zero]
    rw [if_neg (by omega), if_pos (by omega)]
    omega
  · simp only [List.cons_append, scalarAt, UInt8.toNat_ofNat', List.getD_cons_zero,
      List.getD_cons_succ]
    rw [if_neg (by omega), if_neg (by omega), if_pos (by omega)]
    omega
  · simp only [List.cons_append, scalarAt, UInt8.toNat_ofNat', List.getD_cons_zero,
      List.getD_cons_succ]
    rw [if_neg (by omega), if_neg (by omega), if_neg (by omega)]
    omega

theorem decode_char_encode (c : Char) (rest : Bytes) :
    decodeChar (encodeChar c ++ rest) = some (c, rest) := by
  simp [decodeChar, scalar_at_encode]

variable {bytes : Bytes} {c : Char} {fuel : ℕ} {t : Text}

theorem decode_char_some {rest : Bytes}
    (h : decodeChar bytes = some (c, rest)) : bytes = encodeChar c ++ rest := by
  unfold decodeChar at h
  dsimp only at h
  split at h
  · rename_i hpre
    simp only [Option.some.injEq, Prod.mk.injEq] at h
    obtain ⟨hc, hrest⟩ := h
    rw [hc] at hpre hrest
    rw [← hrest]
    exact List.prefix_append_drop (List.isPrefixOf_iff_prefix.mp hpre)
  · simp at h

theorem encode_char_inj {d : Char} {s t : Bytes} (h : encodeChar c ++ s = encodeChar d ++ t) :
    c = d ∧ s = t := by
  have hd := decode_char_encode c s
  rw [h, decode_char_encode] at hd
  simpa [eq_comm] using hd

theorem decode_within_encode (t : Text) (hfuel : (encode t).length ≤ fuel) :
    decodeWithin fuel (encode t) = some t := by
  induction t generalizing fuel with
  | nil => cases fuel <;> rfl
  | cons c t ih =>
    have hlen : 0 < (encodeChar c).length := List.length_pos_iff.mpr (encode_char_ne_nil c)
    rw [encode_cons, List.length_append] at hfuel
    cases fuel with
    | zero => omega
    | succ fuel =>
      rw [encode_cons]
      cases hb : encodeChar c ++ encode t with
      | nil => simp [encode_char_ne_nil] at hb
      | cons b bytes =>
        rw [decodeWithin, ← hb, decode_char_encode, Option.bind_some, ih (by omega)]
        rfl

theorem decode_encode (t : Text) : decode (encode t) = some t := decode_within_encode t le_rfl

theorem decode_within_some (h : decodeWithin fuel bytes = some t) : bytes = encode t := by
  induction fuel generalizing bytes t with
  | zero =>
    cases bytes with
    | nil =>
      cases h
      rfl
    | cons b bytes => simp [decodeWithin] at h
  | succ fuel ih =>
    cases bytes with
    | nil =>
      cases h
      rfl
    | cons b bytes =>
      rw [decodeWithin, Option.bind_eq_some_iff] at h
      obtain ⟨⟨c, rest⟩, hc, ht⟩ := h
      obtain ⟨t', ht', rfl⟩ := Option.map_eq_some_iff.mp ht
      rw [decode_char_some hc, encode_cons, ← ih ht']

theorem decode_some_iff : decode bytes = some t ↔ bytes = encode t := by
  constructor
  · exact decode_within_some
  · intro h
    rw [h, decode_encode]

theorem encode_prefix {s : Text} (h : encode s <+: encode t) : s <+: t := by
  induction s generalizing t with
  | nil => exact List.nil_prefix
  | cons c s ih =>
    obtain ⟨rest, hrest⟩ := h
    cases t with
    | nil => simp [encode_nil, encode_cons, encode_char_ne_nil] at hrest
    | cons d t =>
      rw [encode_cons, encode_cons, List.append_assoc] at hrest
      obtain ⟨rfl, htail⟩ := encode_char_inj hrest
      exact List.cons_prefix_cons.mpr ⟨rfl, ih ⟨rest, htail⟩⟩

theorem encode_char_ascii (h : isAscii c = true) : (encodeChar c).length = 1 := by
  have hlt : c.toNat < 128 := by simpa [isAscii] using h
  simp [encodeChar, hlt]

theorem encode_drop_ascii {u : Text} (h : ∀ c ∈ u, isAscii c = true) (k : ℕ) :
    (encode u).drop k = encode (u.drop k) := by
  induction u generalizing k with
  | nil => simp [encode_nil]
  | cons c u ih =>
    cases k with
    | zero => rfl
    | succ k =>
      have hone := encode_char_ascii (h c (by simp))
      have hrest := ih (fun d hd => h d (by simp [hd])) k
      rw [encode_cons, List.drop_append, hone, Nat.add_sub_cancel, hrest,
        List.drop_of_length_le (by omega), List.drop_succ_cons, List.nil_append]

end NetRuleRouter.Utf8
