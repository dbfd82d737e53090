import NetRuleRouter.AuditWriter
import NetRuleRouter.TrailLinks

/-!
# What a commit leaves behind

Events that each claim the hash before them make files that are linked. What
is left of a line the writer did not finish reads as nothing or as the whole
event, and it is read on its own, since every line before it was ended.
-/

set_option autoImplicit false

namespace NetRuleRouter.CommittedLines
open TextOps TextLines Utf8 AuditEvents AuditTrail RotationNames TrailLinks AuditWriter

variable {C : AuditCodec}

def Follows (C : AuditCodec) : Text → List Covered → Prop
  | _, [] => True
  | prev, e :: events =>
    claimedPrev e.1 = prev ∧ e.1.eventHash = computeChainHash C prev e.2 ∧
      Follows C e.1.eventHash events

def lastHash (events : List Covered) : Text := (tailOf none events).getD auditChainGenesis

theorem last_hash_concat (events : List Covered) (e : Covered) :
    lastHash (events ++ [e]) = e.1.eventHash := by
  simp [lastHash, tailOf]

variable {prev : Text} {files : Directory}

theorem follows_append {a b : List Covered} :
    Follows C prev (a ++ b) ↔ Follows C prev a ∧ Follows C ((tailOf none a).getD prev) b := by
  induction a generalizing prev with
  | nil => simp [Follows, tailOf]
  | cons e a ih =>
    have htail : (tailOf none (e :: a)).getD prev = (tailOf none a).getD e.1.eventHash := by
      rw [tail_of_cons, tail_of_or]
      cases tailOf none a <;> rfl
    rw [List.cons_append, Follows, Follows, ih, htail, and_assoc, and_assoc]

theorem follows_chained {events : List Covered} (h : Follows C prev events) :
    HashChains.Chained (computeChainHash C) prev (events.map chainLink) := by
  induction events generalizing prev with
  | nil => trivial
  | cons e events ih => exact ⟨h.2.1, ih h.2.2⟩

theorem follows_linked {tail : Option Text}
    (h : Follows C prev (trailEvents C files)) (htail : tail.all (· == prev) = true) :
    Linked C tail files := by
  induction files generalizing tail prev with
  | nil => trivial
  | cons f files ih =>
    rw [trailEvents, List.flatMap_cons, follows_append] at h
    cases hev : fileEvents C f with
    | nil =>
      rw [hev] at h
      refine ⟨by simp [hev], by simp [hev, HashChains.Chained], ?_⟩
      rw [hev]
      exact ih h.2 (by simpa [tailOf] using htail)
    | cons e events =>
      rw [hev] at h
      have hclaim : claimedPrev e.1 = prev := h.1.1
      refine ⟨?_, ?_, ?_⟩
      · rw [hev]
        simpa [hclaim] using htail
      · have hstart : chainStart none (fileEvents C f) = prev := by rw [hev, ← hclaim]; rfl
        rw [hstart, hev]
        exact follows_chained h.1
      · rw [hev]
        refine ih h.2 ?_
        rw [tail_of_or tail]
        cases ht : tailOf none (e :: events) with
        | none => simp [tailOf] at ht
        | some t => simp

theorem trail_events_concat (front : Directory) (f : AuditFile) :
    trailEvents C (front ++ [f]) = trailEvents C front ++ fileEvents C f := by
  simp [trailEvents]

theorem last_event_hash (f : AuditFile) :
    lastEventHashInFile C f = tailOf none (fileEvents C f) := by
  unfold lastEventHashInFile fileEvents fileLines
  cases decode f.bytes with
  | none => rfl
  | some content =>
    have hparse (l : Text) : (C.parse l).map AuditEvent.eventHash =
        (parseEvent C l).map fun e => e.1.eventHash := by
      rw [parseEvent, Option.map_map]
      rfl
    rw [Option.bind_some, Option.elim_some, parsedLines, tailOf, Option.or_none]
    induction (lines content) using List.reverseRecOn with
    | nil => rfl
    | append_singleton ls l ih =>
      rw [List.reverse_append, List.reverse_singleton, List.singleton_append, List.filter_append,
        List.filterMap_append]
      cases hb : isBlank l with
      | true => simpa [hb] using ih
      | false =>
        cases hp : parseEvent C l with
        | none => simpa [hb, hparse, hp] using ih
        | some e => simp [hb, hparse, hp]

theorem resume_chain_state_eq (dir : Directory) :
    (resumeChainState C dir).1 = lastHash (trailEvents C (listAuditFiles dir)) := by
  rw [resumeChainState, lastHash, trailEvents]
  induction listAuditFiles dir using List.reverseRecOn with
  | nil => rfl
  | append_singleton files f ih =>
    rw [List.reverse_append, List.reverse_singleton, List.singleton_append, List.findSome?_cons,
      last_event_hash, List.flatMap_append, tail_of_append, List.flatMap_singleton,
      tail_of_or (tailOf _ _)]
    cases tailOf none (fileEvents C f) with
    | none => exact ih
    | some t => rfl

theorem write_at_end (data old : Bytes) : writeBytes old.length data old = old ++ data := by
  unfold writeBytes
  split
  · rename_i h
    rw [h, List.append_nil]
  · simp

theorem set_len_append (a b : Bytes) : setLen a.length (a ++ b) = a := by simp [setLen]

variable {f : AuditFile}

theorem change_last {front : Directory} (change : Bytes → Bytes)
    (h : (front ++ [f]).Pairwise FileBefore) :
    changeFile (some f.name) change (front ++ [f]) =
      front ++ [{ f with bytes := change f.bytes }] := by
  rw [changeFile, List.map_append, List.map_singleton, if_pos rfl]
  congr 1
  rw [List.pairwise_append] at h
  conv_rhs => rw [← List.map_id front]
  refine List.map_congr_left fun g hg => if_neg fun heq => ?_
  exact names_differ (h.2.2 g hg f (by simp)) (Option.some.inj heq)

variable {e : AuditEvent} (h : isHexText e.eventHash = true) {left : Bytes} {u : Text}
include h

theorem render_last : (C.render e).getLast? = some '}' := by
  obtain ⟨front, hfront⟩ := C.render_hash e
  rw [show C.render e = _ from hfront e.eventHash h, ← List.cons_append, ← List.append_assoc]
  exact List.getLast?_concat

theorem render_not_blank : isBlank (C.render e) = false := by
  rw [Bool.eq_false_iff, ne_eq, is_blank_iff]
  intro hall
  have hbrace := hall '}' (List.mem_of_getLast? (render_last h))
  revert hbrace
  decide

theorem parsed_whole (hu : u = C.render e ∨ u = C.render e ++ ['\n']) :
    parsedLines C (lines u) = [(e, C.render { e with eventHash := [] })] := by
  have hlast := render_last (C := C) h
  have hlines : lines u = [C.render e] := by
    rcases hu with rfl | rfl
    · exact lines_plain (C.render_one_line e) (render_ne_nil e)
    · exact lines_line (C.render_one_line e) (by simp [hlast])
  simp [hlines, parsedLines, render_not_blank h, parse_event_render h]

omit h

theorem parsed_cut (hu : u <+: C.render e) (hne : u ≠ C.render e) :
    parsedLines C (lines u) = [] := by
  by_cases hnil : u = []
  · rw [hnil, lines_nil]
    rfl
  · have hline : '\n' ∉ u := fun h => C.render_one_line e (hu.subset h)
    have hparse : parseEvent C u = none := by rw [parseEvent, C.parse_cut e u hu hne]; rfl
    rw [lines_plain hline hnil, parsed_lines_cons, hparse]
    split <;> rfl

theorem left_events (h : isHexText e.eventHash = true) (hleft : left <+: lineOf C e) (name : Text) :
    fileEvents C ⟨name, left⟩ = [] ∨
      fileEvents C ⟨name, left⟩ = [(e, C.render { e with eventHash := [] })] := by
  unfold fileEvents fileLines
  cases hd : decode left with
  | none => exact Or.inl rfl
  | some u =>
    rw [decode_some_iff] at hd
    rw [hd] at hleft
    have hu := encode_prefix hleft
    rw [Option.elim_some]
    rcases List.prefix_concat_iff.mp hu with hu | hu
    · exact Or.inr (parsed_whole h (Or.inr hu))
    · by_cases hne : u = C.render e
      · exact Or.inr (parsed_whole h (Or.inl hne))
      · exact Or.inl (parsed_cut hu hne)

theorem file_events_append {t : Text} (hf : f.bytes = encode t) (ht : Ended t)
    (hwhole : (decode left).isSome = true ∨ f.bytes = []) :
    fileEvents C { f with bytes := f.bytes ++ left } =
      fileEvents C f ++ fileEvents C ⟨f.name, left⟩ := by
  have hdecode : decode f.bytes = some t := by rw [hf, decode_encode]
  cases hd : decode left with
  | some u =>
    have hboth : decode (f.bytes ++ left) = some (t ++ u) := by
      rw [decode_some_iff] at hd
      rw [hf, hd, ← encode_append, decode_encode]
    simp only [fileEvents, fileLines, hboth, hdecode, hd, Option.elim_some]
    rw [lines_append ht, parsed_lines_append]
  | none =>
    have hnil : f.bytes = [] := by
      rcases hwhole with hwhole | hwhole
      · simp [hd] at hwhole
      · exact hwhole
    have hempty : fileEvents C f = [] := by simp [fileEvents, fileLines, hnil]; rfl
    rw [hempty, hnil]
    rfl

theorem anchored_intact {e : Covered} {a : AuditChainAnchor}
    (hfile : fileNamed files a.fileName = some f) (he : e ∈ fileEvents C f)
    (hseq : e.1.seq = a.seq) (hhash : e.1.eventHash = a.eventHash) :
    checkTail C files (some a) = .intact := by
  cases hd : decode f.bytes with
  | none => simp [fileEvents, fileLines, hd, parsedLines] at he
  | some content =>
    have hread : readToString files a.fileName = some content := by
      rw [readToString, hfile, Option.bind_some, hd]
    have hmem : e.1 ∈ eventsOfText C content := by
      simp only [fileEvents, fileLines, hd, Option.elim_some, parsedLines, List.mem_filterMap] at he
      obtain ⟨l, hl, hp⟩ := he
      refine List.mem_filterMap.mpr ⟨l, hl, ?_⟩
      obtain ⟨d, hd, rfl⟩ := Option.map_eq_some_iff.mp hp
      exact hd
    have hany : (eventsOfText C content).any
        (fun e => e.seq == a.seq && e.eventHash == a.eventHash) = true :=
      List.any_eq_true.mpr ⟨e.1, hmem, by simp [hseq, hhash]⟩
    simp only [checkTail, hread, hany, if_true]

end NetRuleRouter.CommittedLines
