import NetRuleRouter.FilterPacking

/-!
# How far one address changes the packing

A slot within the bound is one chunk, so one more address rewrites that chunk
alone. A slot past the bound is cut at fixed places of its sorted members, and
one more address moves every boundary above it.
-/

set_option autoImplicit false

namespace NetRuleRouter.SlotLocality
open Sorting FilterPacking

section
variable {α : Type} {size : ℕ} {xs : List α}

theorem parts_get (hs : 0 < size) {fuel : ℕ} (hf : xs.length ≤ fuel) (j : ℕ) :
    (partsOf size fuel xs)[j]? =
      if size * j < xs.length then some ((xs.drop (size * j)).take size) else none := by
  induction fuel generalizing xs j with
  | zero =>
    obtain rfl := List.length_eq_zero_iff.mp (Nat.le_zero.mp hf)
    simp [partsOf]
  | succ fuel ih =>
    cases xs with
    | nil => simp [partsOf]
    | cons x xs =>
      rw [partsOf]
      cases j with
      | zero => simp
      | succ j =>
        rw [List.getElem?_cons_succ, ih (by simp at hf ⊢; omega), List.drop_drop,
          List.length_drop, Nat.mul_succ, Nat.add_comm size]
        refine if_congr ?_ rfl rfl
        omega

theorem chunks_get (hs : 0 < size) (j : ℕ) : (chunksOf size xs)[j]? =
    if size * j < xs.length then some ((xs.drop (size * j)).take size) else none :=
  parts_get hs le_rfl j

theorem chunks_length (hs : 0 < size) (j : ℕ) :
    j < (chunksOf size xs).length ↔ size * j < xs.length := by
  rw [← not_le, ← List.getElem?_eq_none_iff, chunks_get hs]
  simp

theorem chunks_flatten (hs : 0 < size) (xs : List α) : (chunksOf size xs).flatten = xs := by
  have hparts (fuel : ℕ) (xs : List α) (hf : xs.length ≤ fuel) :
      (partsOf size fuel xs).flatten = xs := by
    induction fuel generalizing xs with
    | zero => simp [List.length_eq_zero_iff.mp (Nat.le_zero.mp hf), partsOf]
    | succ fuel ih =>
      cases xs with
      | nil => simp [partsOf]
      | cons x xs =>
        rw [partsOf, List.flatten_cons, ih _ (by simp at hf ⊢; omega), List.take_append_drop]
  exact hparts _ xs le_rfl

end

section
variable {w : ℕ}

def Ascending (l : List (BitVec w)) : Prop := l.Pairwise fun x y => x.toNat < y.toNat

def slotSet (ips : List (BitVec w)) (slot : ℕ) : List (BitVec w) :=
  (ips.filter fun ip => slotOf ip == slot).dedup

def slotMembers (ips : List (BitVec w)) (slot : ℕ) : List (BitVec w) :=
  (sortBy (compareOn BitVec.toNat) (ips.filter fun ip => slotOf ip == slot)).dedup

def chunkAt (slot j : ℕ) (members : List (BitVec w)) : SlotChunk w :=
  ⟨slot, j % 2 ^ 16, members, fnv1a (members.flatMap slotOctets) fnvOffset⟩

variable {ips ips' l l' : List (BitVec w)} {ip a : BitVec w} {slot j : ℕ} {c : SlotChunk w}

theorem ascending_ext (h : Ascending l) (h' : Ascending l') (hmem : ∀ x, x ∈ l ↔ x ∈ l') :
    l = l' := by
  have hnodup {m : List (BitVec w)} (hm : Ascending m) : m.Nodup :=
    hm.imp fun hlt heq => by simp [heq] at hlt
  refine List.Perm.eq_of_pairwise (fun x y _ _ hxy hyx => ?_) h h'
    ((List.perm_ext_iff_of_nodup (hnodup h) (hnodup h')).mpr hmem)
  exact absurd hxy (Nat.lt_asymm hyx)

theorem mem_slot_members : ip ∈ slotMembers ips slot ↔ ip ∈ ips ∧ slotOf ip = slot := by
  simp [slotMembers]

theorem slot_members_ascending (ips : List (BitVec w)) (slot : ℕ) :
    Ascending (slotMembers ips slot) := by
  have hsorted := (sort_by_sorted (compareOn (BitVec.toNat (w := w)))
    (ips.filter fun ip => slotOf ip == slot)).sublist (List.dedup_sublist _)
  refine (hsorted.and (List.nodup_dedup _)).imp fun {x y} h => ?_
  have hle : x.toNat ≤ y.toNat := Nat.isLE_compare.mp h.1
  exact lt_of_le_of_ne hle fun heq => h.2 (BitVec.eq_of_toNat_eq heq)

theorem slot_members_perm (ips : List (BitVec w)) (slot : ℕ) :
    (slotMembers ips slot).Perm (slotSet ips slot) :=
  (sort_by_perm _ _).dedup

theorem slot_members_congr (h : ∀ x, slotOf x = slot → (x ∈ ips ↔ x ∈ ips')) :
    slotMembers ips slot = slotMembers ips' slot := by
  refine ascending_ext (slot_members_ascending _ _) (slot_members_ascending _ _) fun x => ?_
  rw [mem_slot_members, mem_slot_members]
  exact and_congr_left fun hx => h x hx

theorem mem_slot_chunks : c ∈ slotChunks ips slot ↔
    ∃ j, setMaxConditions * j < (slotMembers ips slot).length ∧
      c = chunkAt slot j (((slotMembers ips slot).drop (setMaxConditions * j)).take
        setMaxConditions) := by
  have hslot : slotChunks ips slot = (chunksOf setMaxConditions (slotMembers ips slot)).zipIdx.map
    fun e => chunkAt slot e.2 e.1 := rfl
  simp only [hslot, List.mem_map, Prod.exists, List.mem_zipIdx_iff_getElem?,
    chunks_get (show 0 < setMaxConditions by decide), Option.ite_none_right_eq_some,
    Option.some.injEq]
  constructor
  · rintro ⟨m, j, ⟨hj, rfl⟩, rfl⟩
    exact ⟨j, hj, rfl⟩
  · rintro ⟨j, hj, rfl⟩
    exact ⟨_, j, ⟨hj, rfl⟩, rfl⟩

theorem mem_pack : c ∈ pack ips ↔ ∃ slot < slotCount, c ∈ slotChunks ips slot := by
  simp [pack]

theorem slot_lt (ip : BitVec w) : slotOf ip < slotCount := Nat.mod_lt _ (by decide)

theorem chunks_pos : 0 < setMaxConditions := by decide

theorem pack_members (ips : List (BitVec w)) :
    (pack ips).flatMap SlotChunk.members = (List.range slotCount).flatMap (slotMembers ips) := by
  rw [pack, List.flatMap_assoc]
  refine List.flatMap_congr fun slot _ => ?_
  have hmembers : (slotChunks ips slot).map SlotChunk.members =
      chunksOf setMaxConditions (slotMembers ips slot) := by
    rw [slotChunks, List.map_map]
    exact List.zipIdx_map_fst 0 _
  rw [List.flatMap_def, hmembers, chunks_flatten chunks_pos]

theorem pack_partitions (ips : List (BitVec w)) :
    ((pack ips).flatMap SlotChunk.members).Perm ips.dedup := by
  rw [pack_members]
  have hnodup : ((List.range slotCount).flatMap (slotMembers ips)).Nodup := by
    refine List.nodup_flatMap.mpr ⟨fun slot _ => List.nodup_dedup _, ?_⟩
    refine List.nodup_range.imp fun {s t} hne x hs ht => hne ?_
    exact (mem_slot_members.mp hs).2.symm.trans (mem_slot_members.mp ht).2
  refine (List.perm_ext_iff_of_nodup hnodup (List.nodup_dedup _)).mpr fun x => ?_
  simp [mem_slot_members, slot_lt]

theorem chunk_sorted (h : c ∈ pack ips) :
    Ascending c.members ∧ c.members.length ≤ setMaxConditions := by
  obtain ⟨slot, -, hc⟩ := mem_pack.mp h
  obtain ⟨j, -, rfl⟩ := mem_slot_chunks.mp hc
  refine ⟨(slot_members_ascending ips slot).sublist ?_, List.length_take_le _ _⟩
  exact (List.take_sublist _ _).trans (List.drop_sublist _ _)

theorem pack_congr (h : ∀ x, x ∈ ips ↔ x ∈ ips') : pack ips = pack ips' := by
  refine List.flatMap_congr fun slot _ => ?_
  show (chunksOf _ (slotMembers ips slot)).zipIdx.map _ =
    (chunksOf _ (slotMembers ips' slot)).zipIdx.map _
  rw [slot_members_congr fun x _ => h x]

theorem parts_distinct (ips : List (BitVec w)) :
    ((pack ips).map fun c => (c.slot, c.part)).Nodup ↔
      ∀ slot < slotCount, (slotSet ips slot).length ≤ setMaxConditions * 2 ^ 16 := by
  have hkeys (slot : ℕ) : (slotChunks ips slot).map (fun c => (c.slot, c.part)) =
      (List.range' 0 (chunksOf setMaxConditions (slotMembers ips slot)).length).map
        fun j => (slot, j % 2 ^ 16) := by
    rw [← List.zipIdx_map_snd, List.map_map, slotChunks, List.map_map]
    rfl
  rw [pack, List.map_flatMap, List.nodup_flatMap]
  simp only [hkeys, List.mem_range]
  have hapart : List.Pairwise (Function.onFun List.Disjoint fun slot =>
      (List.range' 0 (chunksOf setMaxConditions (slotMembers ips slot)).length).map
        fun j => (slot, j % 2 ^ 16)) (List.range slotCount) := by
    refine List.nodup_range.imp fun {s t} hne e hs ht => hne ?_
    obtain ⟨j, -, rfl⟩ := List.mem_map.mp hs
    obtain ⟨j', -, heq⟩ := List.mem_map.mp ht
    exact (Prod.mk.inj heq).1.symm
  rw [and_iff_left hapart]
  refine forall₂_congr fun slot _ => ?_
  rw [List.nodup_map_iff_inj_on List.nodup_range', ← (slot_members_perm ips slot).length_eq,
    ← not_lt, ← chunks_length chunks_pos, not_lt]
  constructor
  · intro h
    by_contra hlong
    have heq := h 0 (by simp; omega) (2 ^ 16) (by simp; omega) (by simp)
    exact absurd heq (by decide)
  · intro h x hx y hy heq
    simp only [List.mem_range'_1, Prod.mk.injEq, true_and] at hx hy heq
    rwa [Nat.mod_eq_of_lt (by omega), Nat.mod_eq_of_lt (by omega)] at heq

end

section
variable {w : ℕ} {ips : List (BitVec w)} {a : BitVec w} {c : SlotChunk w}

def membersBelow (ips : List (BitVec w)) (a : BitVec w) : List (BitVec w) :=
  (slotMembers ips (slotOf a)).filter fun ip => ip.toNat < a.toNat

def membersAbove (ips : List (BitVec w)) (a : BitVec w) : List (BitVec w) :=
  (slotMembers ips (slotOf a)).filter fun ip => !decide (ip.toNat < a.toNat)

theorem members_split (ha : a ∉ ips) :
    slotMembers ips (slotOf a) = membersBelow ips a ++ membersAbove ips a ∧
      slotMembers (a :: ips) (slotOf a) = membersBelow ips a ++ a :: membersAbove ips a := by
  have hasc := slot_members_ascending ips (slotOf a)
  have hbelow {x : BitVec w} (hx : x ∈ membersBelow ips a) : x.toNat < a.toNat := by
    simpa using (List.mem_filter.mp hx).2
  have habove {x : BitVec w} (hx : x ∈ membersAbove ips a) : a.toNat < x.toNat := by
    obtain ⟨hin, hge⟩ := List.mem_filter.mp hx
    have hne : a.toNat ≠ x.toNat := fun heq =>
      ha (BitVec.eq_of_toNat_eq heq ▸ (mem_slot_members.mp hin).1)
    simp at hge
    omega
  have hlow : Ascending (membersBelow ips a) := hasc.sublist List.filter_sublist
  have hhigh : Ascending (membersAbove ips a) := hasc.sublist List.filter_sublist
  have hmem (x : BitVec w) : x ∈ slotMembers ips (slotOf a) ↔
      x ∈ membersBelow ips a ∨ x ∈ membersAbove ips a := by
    simp only [membersBelow, membersAbove, List.mem_filter, ← and_or_left]
    by_cases hlt : x.toNat < a.toNat <;> simp [hlt]
  constructor
  · refine ascending_ext hasc (List.pairwise_append.mpr ⟨hlow, hhigh, fun x hx y hy => ?_⟩)
      fun x => by rw [List.mem_append, hmem]
    exact (hbelow hx).trans (habove hy)
  · refine ascending_ext (slot_members_ascending _ _) (List.pairwise_append.mpr
      ⟨hlow, List.pairwise_cons.mpr ⟨fun y hy => habove hy, hhigh⟩, fun x hx y hy => ?_⟩)
      fun x => ?_
    · rcases List.mem_cons.mp hy with rfl | hy
      · exact hbelow hx
      · exact (hbelow hx).trans (habove hy)
    · rw [List.mem_append, List.mem_cons, or_left_comm, ← hmem, mem_slot_members,
        mem_slot_members, List.mem_cons, or_and_right]
      refine or_congr_left ?_
      simp only [and_iff_left_iff_imp]
      rintro rfl
      rfl

end

section
variable {α : Type} {low high : List α} {a : α} {size j : ℕ}

theorem slice_before (h : size * (j + 1) ≤ low.length) (rest : List α) :
    ((low ++ rest).drop (size * j)).take size = (low.drop (size * j)).take size := by
  rw [Nat.mul_succ] at h
  rw [List.drop_append_of_le_length (by omega),
    List.take_append_of_le_length (by rw [List.length_drop]; omega)]

theorem new_in_slice (hle : size * j ≤ low.length) (hlt : low.length < size * j + size) :
    a ∈ ((low ++ a :: high).drop (size * j)).take size := by
  refine List.mem_of_getElem? (i := low.length - size * j) ?_
  rw [List.getElem?_take, if_pos (by omega), List.getElem?_drop, Nat.add_sub_cancel' hle,
    List.getElem?_append_right le_rfl]
  simp

theorem slice_moved (hs : 1 < size) (hnodup : (low ++ a :: high).Nodup)
    (hj : low.length < size * (j + 1)) (hlt : size * j < (low ++ high).length) (j' : ℕ) :
    ((low ++ high).drop (size * j)).take size ≠
      ((low ++ a :: high).drop (size * j')).take size := by
  intro heq
  have ha : a ∉ low ++ high := (List.nodup_middle.mp hnodup).notMem
  have hhead := congrArg List.head? heq
  simp only [List.head?_take, show size ≠ 0 by omega, if_false, List.head?_drop] at hhead
  rw [Nat.mul_succ] at hj
  rcases Nat.lt_or_ge (size * j) low.length with hin | hout
  · -- the part that starts below holds the new member
    rw [List.getElem?_append_left hin, ← List.getElem?_append_left hin] at hhead
    have hsame : size * j = size * j' :=
      (List.getElem?_inj (by simp; omega) hnodup).mp hhead
    have hmem : a ∈ ((low ++ a :: high).drop (size * j)).take size := new_in_slice hin.le hj
    rw [hsame, ← heq] at hmem
    exact ha (List.mem_of_mem_drop (List.mem_of_mem_take hmem))
  · have hshift : (low ++ high)[size * j]? = (low ++ a :: high)[size * j + 1]? := by
      rw [List.getElem?_append_right hout, List.getElem?_append_right (by omega),
        Nat.succ_sub hout, List.getElem?_cons_succ]
    rw [hshift] at hhead
    have hsame : size * j + 1 = size * j' :=
      (List.getElem?_inj (by simp at hlt ⊢; omega) hnodup).mp hhead
    have hdvd : size ∣ 1 := (Nat.dvd_add_right (dvd_mul_right size j)).mp
      (hsame ▸ dvd_mul_right size j')
    have := Nat.le_of_dvd one_pos hdvd
    omega

end

section
variable {w : ℕ} {ips : List (BitVec w)} {a : BitVec w} {c : SlotChunk w}

def partAt (ips : List (BitVec w)) (slot j : ℕ) : SlotChunk w :=
  chunkAt slot j (((slotMembers ips slot).drop (setMaxConditions * j)).take setMaxConditions)

theorem missing_iff (ha : a ∉ ips) :
    c ∈ pack ips ∧ c ∉ pack (a :: ips) ↔
      ∃ j, (membersBelow ips a).length < setMaxConditions * (j + 1) ∧
        setMaxConditions * j < (slotMembers ips (slotOf a)).length ∧
          c = partAt ips (slotOf a) j := by
  obtain ⟨hold, hnew⟩ := members_split ha
  constructor
  · intro h
    obtain ⟨slot, hslot, hc⟩ := mem_pack.mp h.1
    obtain ⟨j, hj, rfl⟩ := mem_slot_chunks.mp hc
    have hother : slot = slotOf a := by
      by_contra hne
      refine h.2 (mem_pack.mpr ⟨slot, hslot, mem_slot_chunks.mpr ⟨j, ?_⟩⟩)
      have hsame : slotMembers (a :: ips) slot = slotMembers ips slot := by
        refine slot_members_congr fun x hx => ?_
        rw [List.mem_cons, or_iff_right]
        rintro rfl
        exact hne hx.symm
      rw [hsame]
      exact ⟨hj, rfl⟩
    subst hother
    refine ⟨j, ?_, hj, rfl⟩
    by_contra hbefore
    rw [not_lt] at hbefore
    refine h.2 (mem_pack.mpr ⟨_, hslot, mem_slot_chunks.mpr ⟨j, ?_⟩⟩)
    rw [Nat.mul_succ] at hbefore
    have hpos := chunks_pos
    rw [hold, hnew, slice_before (by rw [Nat.mul_succ]; omega),
      slice_before (by rw [Nat.mul_succ]; omega)]
    exact ⟨by simp; omega, rfl⟩
  · rintro ⟨j, hbelow, hlt, rfl⟩
    refine ⟨mem_pack.mpr ⟨_, slot_lt a, mem_slot_chunks.mpr ⟨j, hlt, rfl⟩⟩, fun hin => ?_⟩
    obtain ⟨slot, -, hc⟩ := mem_pack.mp hin
    obtain ⟨j', -, heq⟩ := mem_slot_chunks.mp hc
    obtain rfl : slotOf a = slot := congrArg SlotChunk.slot heq
    have hmembers := congrArg SlotChunk.members heq
    simp only [partAt, chunkAt] at hmembers
    rw [hold] at hlt hmembers
    rw [hnew] at hmembers
    exact slice_moved (by decide) (hnew ▸ List.nodup_dedup _) hbelow hlt j' hmembers

theorem part_inj {slot j j' : ℕ} (hj : setMaxConditions * j < (slotMembers ips slot).length)
    (h : partAt ips slot j = partAt ips slot j') : j = j' := by
  have hhead := congrArg List.head? (congrArg SlotChunk.members h)
  simp only [partAt, chunkAt, List.head?_take, chunks_pos.ne', if_false, List.head?_drop] at hhead
  have hidx := (List.getElem?_inj hj (List.nodup_dedup _)).mp hhead
  exact Nat.eq_of_mul_eq_mul_left chunks_pos hidx

theorem one_missing_iff (ha : a ∉ ips) :
    (∀ c c' : SlotChunk w, c ∈ pack ips ∧ c ∉ pack (a :: ips) →
      c' ∈ pack ips ∧ c' ∉ pack (a :: ips) → c = c') ↔
      (slotMembers ips (slotOf a)).length ≤
        setMaxConditions * ((membersBelow ips a).length / setMaxConditions + 1) := by
  have hdiv := Nat.div_add_mod (membersBelow ips a).length setMaxConditions
  have hmod := Nat.mod_lt (membersBelow ips a).length chunks_pos
  constructor
  · intro h
    by_contra hlong
    rw [not_le] at hlong
    -- the part the address lands in and the next one are both rewritten
    have hnext := (missing_iff ha).mpr ⟨(membersBelow ips a).length / setMaxConditions + 1, by
      rw [Nat.mul_succ, Nat.mul_succ]; omega, hlong, rfl⟩
    have hland := (missing_iff ha).mpr ⟨(membersBelow ips a).length / setMaxConditions, by
      rw [Nat.mul_succ]; omega, by rw [Nat.mul_succ] at hlong; omega, rfl⟩
    have heq := part_inj hlong (h _ _ hnext hland)
    omega
  · intro h c c' hc hc'
    have hat {c : SlotChunk w} (hc : c ∈ pack ips ∧ c ∉ pack (a :: ips)) :
        c = partAt ips (slotOf a) ((membersBelow ips a).length / setMaxConditions) := by
      obtain ⟨j, hbelow, hlt, rfl⟩ := (missing_iff ha).mp hc
      have hup : j < (membersBelow ips a).length / setMaxConditions + 1 :=
        Nat.lt_of_mul_lt_mul_left (lt_of_lt_of_le hlt h)
      have hdown : (membersBelow ips a).length / setMaxConditions < j + 1 :=
        (Nat.div_lt_iff_lt_mul chunks_pos).mpr (by rw [mul_comm]; exact hbelow)
      rw [show j = (membersBelow ips a).length / setMaxConditions by omega]
    rw [hat hc, hat hc']

/-- The addresses are cut into sorted chunks of distinct places whatever order they come in, and
one more of them rewrites at most the chunk it lands in. -/
structure PacksLocally (ips : List (BitVec w)) (a : BitVec w) : Prop where
  partitions : ((pack ips).flatMap SlotChunk.members).Perm ips.dedup
  bounded : ∀ c ∈ pack ips, Ascending c.members ∧ c.members.length ≤ setMaxConditions
  distinct : ((pack ips).map fun c => (c.slot, c.part)).Nodup
  ofSet : ∀ ips' : List (BitVec w), (∀ x, x ∈ ips' ↔ x ∈ ips) → pack ips' = pack ips
  oneMissing : ∀ c c' : SlotChunk w, c ∈ pack ips ∧ c ∉ pack (a :: ips) →
    c' ∈ pack ips ∧ c' ∉ pack (a :: ips) → c = c'
  landed : ∀ c ∈ pack ips, c ∉ pack (a :: ips) →
    ∃ c' ∈ pack (a :: ips), a ∈ c'.members ∧ c'.slot = c.slot ∧ c'.part = c.part

end

/-- Packing is local exactly when no slot is past the numbers a part can have and nothing of the
address's slot lies past the next boundary above it. -/
theorem packs_locally_iff {w : ℕ} (ips : List (BitVec w)) (a : BitVec w) (ha : a ∉ ips) :
    PacksLocally ips a ↔
      (∀ slot < slotCount, (slotSet ips slot).length ≤ setMaxConditions * 2 ^ 16) ∧
        (slotSet ips (slotOf a)).length ≤ setMaxConditions *
          (((slotSet ips (slotOf a)).filter fun ip => ip.toNat < a.toNat).length /
            setMaxConditions + 1) := by
  have hperm := slot_members_perm ips (slotOf a)
  have hbelow : ((slotSet ips (slotOf a)).filter fun ip => ip.toNat < a.toNat).length =
      (membersBelow ips a).length := (hperm.filter _).length_eq.symm
  rw [← hperm.length_eq, hbelow, ← parts_distinct, ← one_missing_iff ha]
  refine ⟨fun h => ⟨h.distinct, h.oneMissing⟩, fun h => ⟨pack_partitions ips,
    fun c hc => chunk_sorted hc, h.1, fun ips' hsame => pack_congr hsame, h.2,
    fun c hc hmissing => ?_⟩⟩
  obtain ⟨-, hnew⟩ := members_split ha
  obtain ⟨j, hin, hlt, rfl⟩ := (missing_iff ha).mp ⟨hc, hmissing⟩
  have hshort := (one_missing_iff ha).mp h.2
  have hup : j < (membersBelow ips a).length / setMaxConditions + 1 :=
    Nat.lt_of_mul_lt_mul_left (lt_of_lt_of_le hlt hshort)
  have hdown : setMaxConditions * j ≤ (membersBelow ips a).length := by
    rw [mul_comm]
    exact (Nat.le_div_iff_mul_le chunks_pos).mp (by omega)
  rw [Nat.mul_succ] at hin
  refine ⟨partAt (a :: ips) (slotOf a) j, mem_pack.mpr ⟨_, slot_lt a,
    mem_slot_chunks.mpr ⟨j, ?_, rfl⟩⟩, ?_, rfl, rfl⟩
  · rw [hnew]
    simp
    omega
  · simp only [partAt, chunkAt, hnew]
    exact new_in_slice hdown hin

/-- A slot of one chunk, which holds an address on either side of the new one. -/
theorem small_slot_packs_locally :
    (slotSet [0xCB007101#32, 0xCB007102#32, 0xCB007121#32] (slotOf 0xCB007111#32)).length = 2 ∧
      PacksLocally [0xCB007101#32, 0xCB007102#32, 0xCB007121#32] 0xCB007111#32 :=
  ⟨by decide +kernel,
    (packs_locally_iff _ _ (by decide)).mpr ⟨by decide +kernel, by decide +kernel⟩⟩

/-- Addresses that agree in the low half of every octet, so in their slot. -/
def crowdedSlot : List (BitVec 32) :=
  (List.range 65).map fun i => BitVec.ofNat 32 (0xCB100000 + 4096 * (i / 16) + 16 * (i % 16))

/-- One address below a full part moves the boundary to the next. -/
theorem crowded_slot_rewrites_two_chunks :
    0xCB000000#32 ∉ crowdedSlot ∧ ¬ PacksLocally crowdedSlot 0xCB000000#32 := by
  have hnot : 0xCB000000#32 ∉ crowdedSlot := by decide +kernel
  refine ⟨hnot, fun h => ?_⟩
  have hshort := (one_missing_iff hnot).mp h.oneMissing
  have hperm := slot_members_perm crowdedSlot (slotOf 0xCB000000#32)
  have hbelow := (hperm.filter fun ip => ip.toNat < 0xCB000000).length_eq
  rw [hperm.length_eq,
    show (membersBelow crowdedSlot 0xCB000000#32).length = _ from hbelow] at hshort
  revert hshort
  decide +kernel

end NetRuleRouter.SlotLocality
