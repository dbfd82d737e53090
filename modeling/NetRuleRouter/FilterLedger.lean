import NetRuleRouter.RotationNames
import NetRuleRouter.Sessions

/-!
# The ledger of installed filters

`wfp_filter_ledger.rs` appends the id of every filter the service installs to
a file, one on a line, so that a later process can remove what an earlier one
left behind. A write can fail after some of its bytes reached the file, and
the next one goes on in the line it left.
-/

set_option autoImplicit false

namespace NetRuleRouter.FilterLedger
open TextOps Numerals TextLines RotationNames Runs

structure WfpFilterId where
  raw : ℕ
  fits : raw < 2 ^ 64

/-- The file, empty where there is none, and the ids this process has written. -/
structure WfpFilterLedger where
  file : Text := []
  written : Finset ℕ := ∅

/-- What comes of an append: an error leaves the first so many of its bytes, none where the file
does not open. -/
inductive Outcome where
  | ok
  | failed (kept : ℕ)

def buf (fresh : List ℕ) : Text := fresh.flatMap fun raw => numeral 10 raw ++ ['\n']

def readIds (file : Text) : Finset ℕ :=
  ((lines file).filterMap fun line => parseUnsigned (2 ^ 64) (trim line)).toFinset

namespace WfpFilterLedger

def fresh (l : WfpFilterLedger) (ids : List WfpFilterId) : List ℕ :=
  (ids.map WfpFilterId.raw).filter (· ∉ l.written)

def record (l : WfpFilterLedger) (ids : List WfpFilterId) (outcome : Outcome) : WfpFilterLedger :=
  if l.fresh ids = [] then l
  else match outcome with
    | .ok => ⟨l.file ++ buf (l.fresh ids), l.written ∪ (l.fresh ids).toFinset⟩
    | .failed kept => { l with file := l.file ++ (buf (l.fresh ids)).take kept }

def drain (l : WfpFilterLedger) : WfpFilterLedger × Finset ℕ := ({}, readIds l.file)

def read (l : WfpFilterLedger) : WfpFilterLedger × Finset ℕ :=
  ({ l with written := l.written ∪ readIds l.file }, readIds l.file)

end WfpFilterLedger

inductive Action where
  | record (ids : List WfpFilterId) (outcome : Outcome)
  | read
  | restart

/-- The ledger, the ids passed to a call of `record` so far, and those of the calls whose write
succeeded. -/
structure System where
  ledger : WfpFilterLedger := {}
  passed : Finset ℕ := ∅
  landed : Finset ℕ := ∅

def System.step (s : System) : Action → Option System
  | .record ids outcome =>
    let raws := (ids.map WfpFilterId.raw).toFinset
    some ⟨s.ledger.record ids outcome, s.passed ∪ raws,
      match outcome with
      | .ok => if s.ledger.fresh ids = [] then s.landed else s.landed ∪ raws
      | .failed _ => s.landed⟩
  | .read => some { s with ledger := s.ledger.read.1 }
  | .restart => some { s with ledger := { s.ledger with written := ∅ } }

/-- Nothing recorded is lost and nothing is invented. -/
def Faithful (s : System) : Prop :=
  ∀ ids ∈ [s.ledger.read.2, s.ledger.drain.2], s.landed ⊆ ids ∧ ids ⊆ s.passed

/-- A write that fails stops one of `cuts` many bytes into a line. -/
def Leaves (cuts : Set ℕ) (s : System) : Action → Prop
  | .record ids (.failed kept) =>
    (cutLines ((buf (s.ledger.fresh ids)).take kept)).2.length ∈ cuts
  | _ => True

theorem digit_not_space {c : Char} (h : isDigit 10 c = true) : isWhitespace c = false := by
  unfold isDigit toDigit at h
  unfold isWhitespace
  split_ifs at h <;> simp_all <;> omega

theorem trim_numeral (n : ℕ) : trim (numeral 10 n) = numeral 10 n := by
  have hspace : ∀ c ∈ numeral 10 n, isWhitespace c = false :=
    fun c hc => digit_not_space (numeral_digits (by simp) n c hc)
  have hstart : trimStart (numeral 10 n) = numeral 10 n :=
    List.dropWhile_eq_self_iff.mpr fun h => by simp [hspace _ (List.getElem_mem h)]
  rw [trim, hstart, trimEnd, List.rdropWhile_eq_self_iff]
  exact fun h => by simp [hspace _ (List.getLast_mem h)]

theorem numeral_short {n : ℕ} (h : n < 2 ^ 64) : (numeral 10 n).length ≤ 20 := by
  unfold numeral
  split
  · simp
  · rw [List.length_map, List.length_reverse, Nat.digits_length_le_iff (by omega)]
    omega

theorem read_append {file : Text} (h : Ended file) (t : Text) :
    readIds (file ++ t) = readIds file ∪ readIds t := by
  rw [readIds, lines_append h, List.filterMap_append, List.toFinset_append]
  rfl

theorem buf_spec {l : List ℕ} (h : ∀ n ∈ l, n < 2 ^ 64) :
    Ended (buf l) ∧ readIds (buf l) = l.toFinset := by
  induction l with
  | nil => exact ⟨rfl, rfl⟩
  | cons n l ih =>
    obtain ⟨hend, hread⟩ := ih fun m hm => h m (List.mem_cons_of_mem _ hm)
    have hn : '\n' ∉ numeral 10 n := digit_not_in_numeral (by decide) n
    have hr : (numeral 10 n).getLast? ≠ some '\r' :=
      fun hlast => digit_not_in_numeral (by decide) n (List.mem_of_getLast? hlast)
    have hline : readIds (numeral 10 n ++ ['\n']) = {n} := by
      rw [readIds, lines_line hn hr, List.filterMap_cons, trim_numeral,
        parse_unsigned_numeral (h n (by simp))]
      rfl
    have hcons : buf (n :: l) = numeral 10 n ++ ['\n'] ++ buf l := rfl
    rw [hcons, read_append (ended_line hn), hline, hread, List.toFinset_cons]
    exact ⟨ended_append (ended_line hn) hend, rfl⟩

theorem rest_short {l : List ℕ} (h : ∀ n ∈ l, n < 2 ^ 64) (kept : ℕ) :
    (cutLines ((buf l).take kept)).2.length ≤ 20 := by
  induction l generalizing kept with
  | nil => simp [buf, cutLines]
  | cons n l ih =>
    have hn : '\n' ∉ numeral 10 n := digit_not_in_numeral (by decide) n
    have hcons : buf (n :: l) = numeral 10 n ++ ['\n'] ++ buf l := rfl
    rw [hcons]
    rcases le_or_gt kept (numeral 10 n).length with hk | hk
    · rw [List.append_assoc, List.take_append_of_le_length hk,
        cut_lines_plain fun h => hn (List.mem_of_mem_take h)]
      exact (List.length_take_le' kept _).trans (numeral_short (h n (by simp)))
    · rw [List.take_append, List.take_of_length_le (by simpa using hk),
        cut_lines_append (ended_line hn)]
      exact ih (fun m hm => h m (by simp [hm])) _

/-- Between the calls the file holds whole lines, with every id that is owed and none beside. -/
structure Whole (s : System) : Prop where
  ended : Ended s.ledger.file
  written : s.ledger.written ⊆ readIds s.ledger.file
  landed : s.landed ⊆ readIds s.ledger.file
  passed : readIds s.ledger.file ⊆ s.passed

theorem Whole.append {s : System} {u : Text} {written ids landed : Finset ℕ} (h : Whole s)
    (hu : Ended u) (hwritten : written ⊆ readIds s.ledger.file ∪ readIds u)
    (hlanded : landed ⊆ readIds s.ledger.file ∪ readIds u) (hids : readIds u ⊆ ids) :
    Whole ⟨⟨s.ledger.file ++ u, written⟩, s.passed ∪ ids, landed⟩ := by
  have hread := read_append h.ended u
  refine ⟨ended_append h.ended hu, hread ▸ hwritten, hread ▸ hlanded, ?_⟩
  rw [hread]
  exact Finset.union_subset_union h.passed hids

theorem record_eq (l : WfpFilterLedger) (ids : List WfpFilterId) (outcome : Outcome) :
    l.record ids outcome = match outcome with
      | .ok => ⟨l.file ++ buf (l.fresh ids), l.written ∪ (l.fresh ids).toFinset⟩
      | .failed kept => { l with file := l.file ++ (buf (l.fresh ids)).take kept } := by
  unfold WfpFilterLedger.record
  split
  · rename_i h
    cases outcome <;> simp [h, buf]
  · rfl

theorem whole_step {cuts : Set ℕ} (hcuts : ∀ k ∈ cuts, k = 0 ∨ 20 < k) {s t : System} {a : Action}
    (h : Whole s) (hleaves : Leaves cuts s a) (hstep : s.step a = some t) : Whole t := by
  cases a with
  | record ids outcome =>
    have hfresh : (s.ledger.fresh ids).toFinset ⊆ (ids.map WfpFilterId.raw).toFinset :=
      fun n hn => by simp_all [WfpFilterLedger.fresh]
    have hfit : ∀ n ∈ s.ledger.fresh ids, n < 2 ^ 64 := by
      intro n hn
      obtain ⟨id, -, rfl⟩ := List.mem_map.mp (List.mem_of_mem_filter hn)
      exact id.fits
    obtain ⟨hend, hread⟩ := buf_spec hfit
    cases hstep
    rw [record_eq]
    cases outcome with
    | ok =>
      have hids : (ids.map WfpFilterId.raw).toFinset ⊆
          s.ledger.written ∪ (s.ledger.fresh ids).toFinset := by
        intro n hn
        simp_all [WfpFilterLedger.fresh]
        tauto
      have hall := Finset.union_subset_union h.written (subset_refl (s.ledger.fresh ids).toFinset)
      rw [← hread] at hall hids hfresh
      refine h.append hend (hread ▸ hall) ?_ hfresh
      dsimp only
      split
      · exact h.landed.trans Finset.subset_union_left
      · exact Finset.union_subset (h.landed.trans Finset.subset_union_left) (hids.trans hall)
    | failed kept =>
      have hcut : Ended ((buf (s.ledger.fresh ids)).take kept) := by
        have hshort := rest_short hfit kept
        exact List.eq_nil_of_length_eq_zero ((hcuts _ hleaves).resolve_right (by omega))
      have hpart :
          readIds ((buf (s.ledger.fresh ids)).take kept) ⊆ (s.ledger.fresh ids).toFinset := by
        have hsplit := read_append hcut ((buf (s.ledger.fresh ids)).drop kept)
        rw [List.take_append_drop, hread] at hsplit
        rw [hsplit]
        exact Finset.subset_union_left
      exact h.append hcut (h.written.trans Finset.subset_union_left)
        (h.landed.trans Finset.subset_union_left) (hpart.trans hfresh)
  | read =>
    cases hstep
    exact ⟨h.ended, Finset.union_subset h.written subset_rfl, h.landed, h.passed⟩
  | restart =>
    cases hstep
    exact ⟨h.ended, Finset.empty_subset _, h.landed, h.passed⟩

/-- A power of ten is cut before its line ends, and a one is written behind it. -/
theorem cut_id_runs_on {cuts : Set ℕ} {k : ℕ} (hk : k ∈ cuts) (hpos : k ≠ 0) (hle : k ≤ 20) :
    ∃ s, Reached System.step (Leaves cuts) {} s ∧ ¬ Faithful s := by
  have hruns : ∀ k ≤ 20, k ≠ 0 → 10 ^ (k - 1) < 2 ^ 64 ∧
      (cutLines ((buf [10 ^ (k - 1)]).take k)).2.length = k ∧
      1 ∉ readIds ((buf [10 ^ (k - 1)]).take k ++ buf [1]) := by
    decide +kernel
  obtain ⟨hfit, hcut, hlost⟩ := hruns k hle hpos
  have hleaves : Leaves cuts {} (.record [⟨10 ^ (k - 1), hfit⟩] (.failed k)) := by
    change (cutLines ((buf [10 ^ (k - 1)]).take k)).2.length ∈ cuts
    rwa [hcut]
  refine ⟨_, (Reached.rest.next hleaves rfl).next (a := .record [⟨1, by decide⟩] .ok) trivial rfl,
    fun h => hlost ?_⟩
  exact (h _ List.mem_cons_self).1 (Finset.mem_singleton_self 1)

/-- Every run of the ledger keeps the ids it was told of, and no others, exactly when no write
can stop within an id. -/
theorem ledger_faithful_iff (cuts : Set ℕ) :
    (∀ s, Reached System.step (Leaves cuts) {} s → Faithful s) ↔ ∀ k ∈ cuts, k = 0 ∨ 20 < k := by
  constructor
  · intro hall k hk
    by_contra hnot
    rw [not_or, not_lt] at hnot
    obtain ⟨s, hs, hunfaithful⟩ := cut_id_runs_on hk hnot.1 hnot.2
    exact hunfaithful (hall s hs)
  · intro hcuts s hs
    have hwhole : Whole s := by
      refine hs.keeps ⟨rfl, by simp, by simp, by simp [readIds, lines_nil]⟩ ?_
      exact fun _ _ _ hinv hleaves hstep => whole_step hcuts hinv hleaves hstep
    simpa [Faithful, WfpFilterLedger.read, WfpFilterLedger.drain] using
      And.intro hwhole.landed hwhole.passed

/-- A write of the id 12 fails after its two digits, and the id 345 is written behind them. -/
theorem torn_line_runs_on : ∃ s, Reached System.step (Leaves Set.univ) {} s ∧ 345 ∈ s.landed ∧
    345 ∉ s.ledger.drain.2 ∧ 12345 ∈ s.ledger.drain.2 ∧ 12345 ∉ s.passed := by
  have hcut : Leaves Set.univ {} (.record [⟨12, by decide⟩] (.failed 2)) := trivial
  exact ⟨_, (Reached.rest.next hcut rfl).next (a := .record [⟨345, by decide⟩] .ok) trivial rfl,
    by decide +kernel⟩

end NetRuleRouter.FilterLedger
