import NetRuleRouter.Bisection

/-!
# Ranges as blocks

A range is cut from its first address upwards, each time by the largest
aligned block that starts there and ends within the range. The loop works on
128-bit words; it never overflows, and no list of blocks that covers the range
is shorter.
-/

set_option autoImplicit false

namespace NetRuleRouter.RangeBlocks
open IpNetwork BlockGeometry Bisection

def IpRange.contains (r : IpRange) (address : IpAddr) : Bool :=
  address.isIpv4 == r.first.isIpv4 &&
    decide (toBits r.first ≤ toBits address ∧ toBits address ≤ toBits r.last)

def u128 (n : ℕ) : Option ℕ := if n < 2 ^ 128 then some n else none

def subU128 (a b : ℕ) : Option ℕ := if b ≤ a then some (a - b) else none

def trailingZeros (n : ℕ) : ℕ := Nat.findGreatest (fun k => 2 ^ k ∣ n) 128

def blockEnd (cur size : ℕ) : Option ℕ :=
  if 128 ≤ size then some (2 ^ 128 - 1) else u128 (cur + (2 ^ size - 1))

/-- The loop of the decomposition with every operation checked; the fuel bounds its turns. -/
def decomposeLoop (first : IpAddr) (last : ℕ) : ℕ → ℕ → List (IpAddr × ℕ) →
    Option (List (IpAddr × ℕ))
  | 0, _, _ => none
  | fuel + 1, cur, out => do
    let bits := familyBits first
    let align := if cur = 0 then bits else min (trailingZeros cur) bits
    let span ← subU128 last cur
    let fit := match u128 (span + 1) with
      | some count => Nat.log2 count
      | none => 128
    let size := min align fit
    let len ← subU128 bits size
    let blockLast ← blockEnd cur size
    if last ≤ blockLast then some (out ++ [(fromBits first cur, len)])
    else do
      let next ← u128 (blockLast + 1)
      decomposeLoop first last fuel next (out ++ [(fromBits first cur, len)])

section
variable {like first : IpAddr} {bits cur last fuel : ℕ} {ip : IpAddr}

theorem family_le (a : IpAddr) : familyBits a ≤ 128 := by
  unfold familyBits
  split <;> omega

theorem le_size_bits {k : ℕ} (hk : k ≤ bits) (hdvd : 2 ^ k ∣ cur) (hfit : 2 ^ k ≤ last - cur + 1) :
    k ≤ sizeBits bits cur last :=
  le_min (Nat.le_findGreatest hk hdvd) ((Nat.le_log2 (by omega)).mpr hfit)

theorem size_bits_fit : 2 ^ sizeBits bits cur last ≤ last - cur + 1 :=
  (Nat.le_log2 (by omega)).mp (Nat.min_le_right _ _)

theorem align_eq (hbits : bits ≤ 128) :
    (if cur = 0 then bits else min (trailingZeros cur) bits) =
      Nat.findGreatest (fun k => 2 ^ k ∣ cur) bits := by
  have hspec (n : ℕ) : 2 ^ Nat.findGreatest (fun k => 2 ^ k ∣ cur) n ∣ cur :=
    Nat.findGreatest_spec (P := fun k => 2 ^ k ∣ cur) (Nat.zero_le n) (by simp)
  split
  · rename_i h0
    subst h0
    exact (@Nat.findGreatest_eq (fun k => 2 ^ k ∣ 0) _ bits (dvd_zero _)).symm
  · refine le_antisymm ?_ (le_min ?_ (Nat.findGreatest_le bits))
    · refine Nat.le_findGreatest (Nat.min_le_right _ _) ?_
      exact dvd_trans (pow_dvd_pow 2 (Nat.min_le_left _ _)) (hspec 128)
    · exact Nat.findGreatest_mono_right _ hbits

theorem fit_eq (hlast : last < 2 ^ 128) :
    (match u128 (last - cur + 1) with
      | some count => Nat.log2 count
      | none => 128) = Nat.log2 (last - cur + 1) := by
  unfold u128
  split_ifs with hlt
  · rfl
  · have hall : last - cur + 1 = 2 ^ 128 := by omega
    rw [hall, Nat.log2_two_pow]

theorem decompose_loop_eq (hlast : last < 2 ^ familyBits first) (hcur : cur ≤ last)
    (hfuel : last - cur < fuel) (out : List (IpAddr × ℕ)) :
    decomposeLoop first last fuel cur out =
      some (out ++ (decomposeFrom first last fuel cur).map fun b => (b.network, b.prefixLen)) := by
  induction fuel generalizing cur out with
  | zero => omega
  | succ fuel ih =>
    have hbits := family_le first
    have hword : last < 2 ^ 128 := lt_of_lt_of_le hlast (Nat.pow_le_pow_right (by omega) hbits)
    have hle := size_bits_le (familyBits first) cur last
    have hfits := @size_bits_fit (familyBits first) cur last
    have hpos := Nat.two_pow_pos (sizeBits (familyBits first) cur last)
    have hend : blockEnd cur (sizeBits (familyBits first) cur last) =
        some (cur + (2 ^ sizeBits (familyBits first) cur last - 1)) := by
      unfold blockEnd
      split
      · -- only the whole space fills the word
        have hall : sizeBits (familyBits first) cur last = 128 := by omega
        rw [hall] at hfits ⊢
        rw [show cur = 0 by omega]
        simp
      · rw [u128, if_pos (by omega)]
    rw [decomposeLoop, decomposeFrom]
    simp only [subU128, hcur, if_true, Option.bind_eq_bind, Option.bind_some, align_eq hbits,
      fit_eq hword]
    rw [← sizeBits]
    simp only [hle, if_true, Option.bind_some, hend]
    split
    · rfl
    · rename_i hmore
      have hnext : u128 (cur + (2 ^ sizeBits (familyBits first) cur last - 1) + 1) =
          some (cur + 2 ^ sizeBits (familyBits first) cur last) := by
        rw [u128, if_pos (by omega)]
        congr 1
        omega
      rw [hnext, Option.bind_some, ih (by omega) (by omega)]
      simp [blockAt]

variable (hlast : last < 2 ^ familyBits like)
include hlast

theorem range_exact (hcur : cur ≤ last) (hfuel : last - cur < fuel) :
    (∃ b ∈ decomposeFrom like last fuel cur, b.contains ip = true) ↔
      ip.isIpv4 = like.isIpv4 ∧ cur ≤ toBits ip ∧ toBits ip ≤ last := by
  induction fuel generalizing cur with
  | zero => omega
  | succ fuel ih =>
    have hfits := @size_bits_fit (familyBits like) cur last
    have hpos := Nat.two_pow_pos (sizeBits (familyBits like) cur last)
    rw [decomposeFrom, List.exists_mem_cons_iff, block_at_contains _ _ _ _ _ _ (by omega)]
    split
    · simp only [List.not_mem_nil, false_and, exists_false, or_false]
      refine and_congr_right fun _ => ?_
      omega
    · rw [ih (by omega) (by omega), ← and_or_left]
      refine and_congr_right fun _ => ?_
      omega

theorem range_ordered (hcur : cur ≤ last)
    (hfuel : last - cur < fuel) : (decomposeFrom like last fuel cur).Pairwise EndsBefore := by
  induction fuel generalizing cur with
  | zero => omega
  | succ fuel ih =>
    have hpos := Nat.two_pow_pos (sizeBits (familyBits like) cur last)
    rw [decomposeFrom, List.pairwise_cons]
    split
    · simp
    · rename_i hmore
      refine ⟨fun c hc x y hx hy => ?_, ih (by omega) (by omega)⟩
      obtain ⟨hfy, hge, -⟩ := (range_exact hlast (by omega) (by omega)).mp ⟨c, hc, hy⟩
      obtain ⟨hfx, -, hlt⟩ := (block_at_contains like x cur _ _ _ (by omega)).mp hx
      rw [addr_before (hfx.trans hfy.symm)]
      omega

def Between (like : IpAddr) (lo last : ℕ) (ip : IpAddr) : Prop :=
  ip.isIpv4 = like.isIpv4 ∧ lo ≤ toBits ip ∧ toBits ip ≤ last

/-- No block of the range lies across the place reached. -/
def Unstraddled (within : IpAddr → Prop) (cur : ℕ) : Prop :=
  ∀ q : IpBlock, (∀ ip, q.contains ip = true → within ip) → toBits q.network < cur →
    toBits q.network + 2 ^ q.hostBits ≤ cur

theorem range_widest {lo : ℕ} (hcur : cur ≤ last) (hfree : Unstraddled (Between like lo last) cur) :
    ∀ b ∈ decomposeFrom like last fuel cur, Widest (Between like lo last) b := by
  induction fuel generalizing cur with
  | zero => simp [decomposeFrom]
  | succ fuel ih =>
    have hfits := @size_bits_fit (familyBits like) cur last
    have hpos := Nat.two_pow_pos (sizeBits (familyBits like) cur last)
    have hat {a : IpAddr} := block_at_contains like a cur (sizeBits (familyBits like) cur last)
      (size_bits_le _ _ _) (size_bits_dvd _ _ _) (by omega)
    have hfirst : Widest (Between like lo last) (blockAt like cur
        (sizeBits (familyBits like) cur last) (size_bits_le _ _ _) (size_bits_dvd _ _ _)) := by
      intro q hq hwithin
      have hstart : toBits (fromBits like cur) = cur := to_bits_from_bits _ _ (by omega)
      obtain ⟨hf, hle, hlt⟩ := (block_contains_iff q _).mp (covers_iff.mp hq).2
      obtain ⟨-, -, hend⟩ := hwithin _ (contains_last q)
      simp only [blockAt, from_bits_is_ipv4, hstart] at hf hle hlt
      have hnet : toBits q.network = cur := by
        by_contra hne
        have := hfree q hwithin (by omega)
        omega
      have hfam : familyBits q.network = familyBits like := by simp [familyBits, hf]
      have hadd := host_bits_add q
      have hsize : q.hostBits ≤ sizeBits (familyBits like) cur last := by
        rw [last_bits] at hend
        have hqpos := Nat.two_pow_pos q.hostBits
        exact le_size_bits (by omega) (hnet ▸ q.masked) (by omega)
      refine covers_antisymm hq (covers_iff.mpr ⟨?_, hat.mpr ⟨hf.symm, by omega, by omega⟩⟩)
      simp only [blockAt]
      omega
    rw [decomposeFrom]
    intro b hb
    rcases List.mem_cons.mp hb with rfl | hb
    · exact hfirst
    split at hb
    · simp at hb
    refine ih (by omega) (fun q hwithin hlt => ?_) b hb
    rcases Nat.lt_or_ge (toBits q.network) cur with hbefore | hafter
    · have := hfree q hwithin hbefore
      omega
    -- it starts inside the block just taken, so it ends there
    have hin := hat.mpr ⟨(hwithin _ (contains_network q)).1, hafter, hlt⟩
    have hlast : toBits q.last < cur + 2 ^ sizeBits (familyBits like) cur last := by
      rcases covers_or_covers hin (contains_network q) with hcov | hcov
      · exact (hat.mp (contains_of_covers hcov (contains_last q))).2.2
      · rw [hfirst q hcov hwithin]
        exact (hat.mp (contains_last _)).2.2
    rw [last_bits] at hlast
    omega

end

theorem range_last_lt (r : IpRange) : toBits r.last < 2 ^ familyBits r.first := by
  have hbits : familyBits r.first = familyBits r.last := by simp [familyBits, r.family]
  exact hbits ▸ to_bits_lt r.last

theorem range_contains_iff (r : IpRange) {ip : IpAddr} :
    IpRange.contains r ip = true ↔ ∃ b ∈ r.blocks, b.contains ip = true := by
  refine Iff.trans ?_ (range_exact (range_last_lt r) r.ordered (Nat.lt_succ_self _)).symm
  simp [IpRange.contains]

theorem range_blocks_ordered (r : IpRange) : r.blocks.Pairwise EndsBefore :=
  range_ordered (range_last_lt r) r.ordered (Nat.lt_succ_self _)

/-- The decomposition of a range ends without overflow, and its aligned blocks are in address order,
cover exactly the range and are as few as any. -/
theorem range_decomposition_minimal (first last : IpAddr) (hfamily : first.isIpv4 = last.isIpv4)
    (hordered : toBits first ≤ toBits last) :
    ∃ r, IpRange.new first last = some r ∧
      decomposeLoop first (toBits last) (toBits last - toBits first + 1) (toBits first) [] =
        some (r.blocks.map fun b => (b.network, b.prefixLen)) ∧
      r.blocks.Pairwise EndsBefore ∧
      (∀ ip, (∃ b ∈ r.blocks, b.contains ip = true) ↔
        ip.isIpv4 = first.isIpv4 ∧ toBits first ≤ toBits ip ∧ toBits ip ≤ toBits last) ∧
      (∀ others : List IpBlock, (∀ ip, (∃ b ∈ others, b.contains ip = true) ↔
        ∃ b ∈ r.blocks, b.contains ip = true) → r.blocks.length ≤ others.length) ∧
      ∀ ip, IpRange.contains r ip = true ↔ ∃ b ∈ r.blocks, b.contains ip = true := by
  have hlast : toBits last < 2 ^ familyBits first := by
    have hbits : familyBits first = familyBits last := by simp [familyBits, hfamily]
    exact hbits ▸ to_bits_lt last
  have hfuel : toBits last - toBits first < toBits last - toBits first + 1 := Nat.lt_succ_self _
  have hexact {ip : IpAddr} := @range_exact first _ _ _ ip hlast hordered hfuel
  refine ⟨⟨first, last, hfamily, hordered⟩, by simp [IpRange.new, hfamily, hordered],
    decompose_loop_eq hlast hordered hfuel [],
    range_ordered hlast hordered hfuel, fun ip => hexact, fun others hsame => ?_,
    fun ip => range_contains_iff _⟩
  -- nothing of the range lies before its first address
  have hfree : Unstraddled (Between first (toBits first) (toBits last)) (toBits first) :=
    fun q hwithin hlt => absurd (hwithin _ (contains_network q)).2.1 (not_le.mpr hlt)
  exact widest_fewest (range_ordered hlast hordered hfuel) (range_widest hlast hordered hfree)
    (fun b hb ip hip => hexact.mp ⟨b, hb, hip⟩) fun ip => (hsame ip).trans hexact

/-- A range up to the last address of its family. -/
theorem range_to_family_end :
    ∃ r, IpRange.new (.v6 1) (.v6 (BitVec.allOnes 128)) = some r ∧ r.blocks.Pairwise EndsBefore := by
  obtain ⟨r, hr, -, hblocks, -⟩ :=
    range_decomposition_minimal (.v6 1) (.v6 (BitVec.allOnes 128)) rfl (by decide)
  exact ⟨r, hr, hblocks⟩

end NetRuleRouter.RangeBlocks
