import NetRuleRouter.AuditJson
import NetRuleRouter.RotationNames

/-!
# The verifier that remembers

The verifier lives as long as the service and keeps each file's link under the
digest of the bytes it was read from, and the whole verdict under the files,
their digests and the anchor. As long as no two contents it was shown share a
digest, no answer depends on what it was asked before.
-/

set_option autoImplicit false

namespace NetRuleRouter.CachedVerdicts
open TextOps Utf8 AuditEvents AuditJson AuditTrail RotationNames

structure AuditDir where
  files : Directory
  readable : Text → Bool
  distinct : (files.map AuditFile.name).Nodup

def AuditDir.read (d : AuditDir) (f : AuditFile) : Option Bytes :=
  if d.readable f.name then some f.bytes else none

def AuditDir.opened (d : AuditDir) : Directory := d.files.filter fun f => d.readable f.name

def AuditDir.entries (d : AuditDir) : List (Text × Option Bytes) :=
  (listAuditFiles d.files).map fun f => (f.name, d.read f)

def AuditDir.contents (d : AuditDir) : Set Bytes := {bytes | ∃ name, (name, some bytes) ∈ d.entries}

variable {δ : Type} [DecidableEq δ] (C : AuditCodec) (digest : Bytes → δ)

structure LastVerdict (δ : Type) where
  files : List Text
  digests : List δ
  anchor : Option AuditChainAnchor
  verdict : AuditChainVerification

abbrev Links (δ : Type) := Text → Option (δ × FileLink)

structure AuditChainVerifier (δ : Type) where
  restartKey : Option AuditRestartKey
  links : Links δ := fun _ => none
  last : Option (LastVerdict δ) := none

def AuditChainVerifier.new (key : Option AuditRestartKey) : AuditChainVerifier δ :=
  { restartKey := key }

def readAndVerify (key : Option AuditRestartKey) (entry : Text × Option Bytes) :
    Option δ × FileLink :=
  (entry.2.map digest, verifyFileLink C entry.1 (entry.2.bind decode) key)

def linkFile (key : Option AuditRestartKey) (links : Links δ) (entry : Text × Option Bytes) :
    (Option δ × FileLink) × Links δ :=
  let verified := readAndVerify C digest key entry
  let read := (verified, Function.update links entry.1 (verified.1.map (·, verified.2)))
  match links entry.1 with
  | some (cached, link) =>
    if some cached = entry.2.map digest then ((some cached, link), links) else read
  | none => read

def linkFiles (key : Option AuditRestartKey) :
    Links δ → List (Text × Option Bytes) → List (Option δ × FileLink) × Links δ
  | links, [] => ([], links)
  | links, entry :: entries =>
    let (found, links) := linkFile C digest key links entry
    let (rest, links) := linkFiles key links entries
    (found :: rest, links)

def AuditChainVerifier.read (v : AuditChainVerifier δ) (d : AuditDir)
    (anchor : Option AuditChainAnchor) : AuditChainVerification × AuditChainVerifier δ :=
  let files := d.entries.map Prod.fst
  let retained : Links δ := fun name => if name ∈ files then v.links name else none
  let (found, links) := linkFiles C digest v.restartKey retained d.entries
  let verdict := verdictOf C (files.zip (found.map Prod.snd)) anchor (checkTail C d.opened anchor)
  (verdict,
    { v with
      links := links
      -- An unreadable file has no digest, so the next call looks at it again.
      last := ((found.map Prod.fst).mapM id).map (⟨files, ·, anchor, verdict⟩) })

def AuditChainVerifier.verify (v : AuditChainVerifier δ) (d : AuditDir)
    (anchor : Option AuditChainAnchor) : AuditChainVerification × AuditChainVerifier δ :=
  match v.last with
  | some last =>
    if last.files = d.entries.map Prod.fst ∧
        last.digests.map some = d.entries.map (·.2.map digest) ∧ last.anchor = anchor then
      (last.verdict, v)
    else v.read C digest d anchor
  | none => v.read C digest d anchor

def AuditChainVerifier.verdicts (v : AuditChainVerifier δ) :
    List (AuditDir × Option AuditChainAnchor) → List AuditChainVerification
  | [] => []
  | (d, anchor) :: calls =>
    let (verdict, v) := v.verify C digest d anchor
    verdict :: v.verdicts calls

def reread (key : Option AuditRestartKey) (d : AuditDir) (anchor : Option AuditChainAnchor) :
    AuditChainVerification :=
  verdictOf C (d.entries.map fun e => (e.1, verifyFileLink C e.1 (e.2.bind decode) key)) anchor
    (checkTail C d.opened anchor)

def NamesAuditFile (anchor : AuditChainAnchor) : Prop := isAuditFile ⟨anchor.fileName, []⟩

section
variable (seen : Set Bytes)

def LinksHeld (key : Option AuditRestartKey) (links : Links δ) : Prop :=
  ∀ name, ∀ held ∈ links name,
    ∃ bytes ∈ seen, held = (digest bytes, verifyFileLink C name (decode bytes) key)

/-- The verdict was reached in a state with the files, the digests and the anchor kept with it. -/
def LastHeld (key : Option AuditRestartKey) (last : LastVerdict δ) : Prop :=
  ∃ d : AuditDir, d.contents ⊆ seen ∧ last.files = d.entries.map Prod.fst ∧
    last.digests.map some = d.entries.map (·.2.map digest) ∧
    last.verdict = reread C key d last.anchor

structure Holds (key : Option AuditRestartKey) (v : AuditChainVerifier δ) : Prop where
  keyed : v.restartKey = key
  links : LinksHeld C digest seen key v.links
  last : ∀ last ∈ v.last, LastHeld C digest seen key last

omit [DecidableEq δ] in
theorem new_holds (key : Option AuditRestartKey) : Holds C digest seen key (.new key) :=
  ⟨rfl, fun _ _ => nofun, nofun⟩

end

variable {C} {digest} {key : Option AuditRestartKey} {anchor : Option AuditChainAnchor}
variable {v : AuditChainVerifier δ}

theorem all_some {α : Type} {l : List (Option α)} {l' : List α} (h : l.mapM id = some l') :
    l'.map some = l := by
  induction l generalizing l' with
  | nil => simp_all
  | cons o l ih =>
    simp only [List.mapM_cons, id_eq, Option.bind_eq_bind, Option.bind_eq_some_iff] at h
    obtain ⟨a, rfl, rest, hrest, ha⟩ := h
    obtain rfl := Option.some.inj ha
    rw [List.map_cons, ih hrest]

section
variable {seen : Set Bytes} (hdigest : Set.InjOn digest seen)
include hdigest

theorem link_file_held {links : Links δ} (h : LinksHeld C digest seen key links)
    {entry : Text × Option Bytes} (hseen : ∀ bytes ∈ entry.2, bytes ∈ seen) :
    (linkFile C digest key links entry).1 = readAndVerify C digest key entry ∧
      LinksHeld C digest seen key (linkFile C digest key links entry).2 := by
  obtain ⟨name, bytes⟩ := entry
  have hread : LinksHeld C digest seen key (Function.update links name
      ((bytes.map digest).map (·, verifyFileLink C name (bytes.bind decode) key))) := by
    intro other held hheld
    by_cases hname : other = name
    · subst hname
      cases bytes with
      | none => simp at hheld
      | some bytes => exact ⟨bytes, hseen bytes rfl, by simpa [eq_comm] using hheld⟩
    · rw [Function.update_of_ne hname] at hheld
      exact h other held hheld
  unfold linkFile
  cases hheld : links name with
  | none => exact ⟨rfl, hread⟩
  | some held =>
    obtain ⟨cached, link⟩ := held
    dsimp only
    split_ifs with hsame
    · obtain ⟨was, hin, hwas⟩ := h name _ hheld
      obtain ⟨now, rfl, hnow⟩ := Option.map_eq_some_iff.mp hsame.symm
      simp only [Prod.mk.injEq] at hwas
      obtain rfl : was = now := hdigest hin (hseen now rfl) (hwas.1.symm.trans hnow.symm)
      exact ⟨by simp [readAndVerify, hwas], h⟩
    · exact ⟨rfl, hread⟩

theorem link_files_held {entries : List (Text × Option Bytes)}
    (hseen : ∀ entry ∈ entries, ∀ bytes ∈ entry.2, bytes ∈ seen) :
    ∀ {links : Links δ}, LinksHeld C digest seen key links →
      (linkFiles C digest key links entries).1 = entries.map (readAndVerify C digest key) ∧
        LinksHeld C digest seen key (linkFiles C digest key links entries).2 := by
  induction entries with
  | nil => exact fun h => ⟨rfl, h⟩
  | cons entry entries ih =>
    intro links h
    obtain ⟨hhere, hthere⟩ := List.forall_mem_cons.mp hseen
    obtain ⟨hfound, hlinks⟩ := link_file_held hdigest h hhere
    obtain ⟨hrest, hlinks⟩ := ih hthere hlinks
    exact ⟨by simp [linkFiles, hfound, hrest], hlinks⟩

theorem read_holds (h : Holds C digest seen key v) {d : AuditDir} (hseen : d.contents ⊆ seen)
    (anchor : Option AuditChainAnchor) :
    (v.read C digest d anchor).1 = reread C key d anchor ∧
      Holds C digest seen key (v.read C digest d anchor).2 := by
  have hretained : LinksHeld C digest seen key
      fun name => if name ∈ d.entries.map Prod.fst then v.links name else none := by
    intro name held hheld
    dsimp only at hheld
    split_ifs at hheld with hin
    · exact h.links name held hheld
    · exact nomatch hheld
  have hentries : ∀ entry ∈ d.entries, ∀ bytes ∈ entry.2, bytes ∈ seen :=
    fun entry he bytes hb => hseen ⟨entry.1, hb ▸ he⟩
  obtain ⟨hfound, hlinks⟩ := link_files_held hdigest hentries hretained
  have hverdict : (v.read C digest d anchor).1 = reread C key d anchor := by
    simp only [AuditChainVerifier.read, h.keyed, hfound, reread, List.map_map]
    congr 1
    rw [List.zip_map']
    rfl
  refine ⟨hverdict, h.keyed, by simpa only [AuditChainVerifier.read, h.keyed] using hlinks, ?_⟩
  intro last hlast
  obtain ⟨digests, hdigests, rfl⟩ := Option.map_eq_some_iff.mp hlast
  refine ⟨d, hseen, rfl, ?_, hverdict⟩
  rw [h.keyed, hfound] at hdigests
  rw [all_some hdigests, List.map_map]
  rfl

omit [DecidableEq δ] in
theorem entries_eq {d d' : AuditDir} (hseen : d.contents ⊆ seen) (hseen' : d'.contents ⊆ seen)
    (hfiles : d.entries.map Prod.fst = d'.entries.map Prod.fst)
    (hdigests : d.entries.map (·.2.map digest) = d'.entries.map (·.2.map digest)) :
    d.entries = d'.entries := by
  refine List.ext_getElem (by simpa using congrArg List.length hfiles) fun i hi hi' => ?_
  have hname := congrArg (·[i]?) hfiles
  have hsame := congrArg (·[i]?) hdigests
  have hmem := List.getElem_mem hi
  have hmem' := List.getElem_mem hi'
  simp only [List.getElem?_map, List.getElem?_eq_getElem hi, List.getElem?_eq_getElem hi',
    Option.map_some, Option.some.injEq] at hname hsame
  generalize d.entries[i] = entry at *
  generalize d'.entries[i] = entry' at *
  obtain ⟨name, _ | bytes⟩ := entry
  · obtain ⟨name', _ | bytes'⟩ := entry'
    · exact Prod.ext hname rfl
    · simp at hsame
  · obtain ⟨name', _ | bytes'⟩ := entry'
    · simp at hsame
    · simp only [Option.map_some, Option.some.injEq] at hname hsame
      rw [hname, hdigest (hseen ⟨name, hmem⟩) (hseen' ⟨name', hmem'⟩) hsame]

end

theorem mem_entries {d : AuditDir} {name : Text} {bytes : Bytes} (haudit : isAuditFile ⟨name, []⟩) :
    (name, some bytes) ∈ d.entries ↔ ⟨name, bytes⟩ ∈ d.opened := by
  simp only [AuditDir.entries, AuditDir.opened, listAuditFiles, sortChronologically, List.mem_map,
    Sorting.mem_sort_by, List.mem_filter, AuditDir.read, Prod.mk.injEq]
  constructor
  · rintro ⟨f, ⟨hf, -⟩, rfl, hread⟩
    split_ifs at hread with hreadable
    exact ⟨Option.some.inj hread ▸ hf, hreadable⟩
  · rintro ⟨hf, hreadable⟩
    exact ⟨_, ⟨hf, haudit⟩, rfl, if_pos hreadable⟩

theorem read_opened (d : AuditDir) {name text : Text} (haudit : isAuditFile ⟨name, []⟩) :
    readToString d.opened name = some text ↔
      ∃ bytes, (name, some bytes) ∈ d.entries ∧ decode bytes = some text := by
  have hnodup : (d.opened.map AuditFile.name).Nodup :=
    d.distinct.sublist (List.filter_sublist.map _)
  simp only [readToString, Option.bind_eq_some_iff, mem_entries haudit]
  constructor
  · rintro ⟨f, hf, htext⟩
    obtain rfl : f.name = name := by simpa using List.find?_some hf
    exact ⟨f.bytes, List.mem_of_find?_eq_some hf, htext⟩
  · rintro ⟨bytes, hf, htext⟩
    exact ⟨_, file_named_eq hnodup hf, htext⟩

theorem reread_congr {d d' : AuditDir} (h : d.entries = d'.entries)
    (hanchor : ∀ a ∈ anchor, NamesAuditFile a) :
    reread C key d anchor = reread C key d' anchor := by
  have htail : checkTail C d.opened anchor = checkTail C d'.opened anchor := by
    cases anchor with
    | none => rfl
    | some a =>
      have hread : readToString d.opened a.fileName = readToString d'.opened a.fileName :=
        Option.ext fun text => by
          rw [read_opened d (hanchor a rfl), h, read_opened d' (hanchor a rfl)]
      simp only [checkTail, hread]
  simp only [reread, h, htail]

section
variable {seen : Set Bytes} (hdigest : Set.InjOn digest seen)
include hdigest

theorem verify_holds (h : Holds C digest seen key v) {d : AuditDir} (hseen : d.contents ⊆ seen)
    (hanchor : ∀ a ∈ anchor, NamesAuditFile a) :
    (v.verify C digest d anchor).1 = reread C key d anchor ∧
      Holds C digest seen key (v.verify C digest d anchor).2 := by
  unfold AuditChainVerifier.verify
  cases hlast : v.last with
  | none => exact read_holds hdigest h hseen anchor
  | some last =>
    dsimp only
    split_ifs with hsame
    · obtain ⟨hfiles, hdigests, rfl⟩ := hsame
      obtain ⟨was, hin, hwas, hheld, hverdict⟩ := h.last last hlast
      have hentries := entries_eq hdigest hin hseen (hwas.symm.trans hfiles)
        (hheld.symm.trans hdigests)
      exact ⟨hverdict.trans (reread_congr hentries hanchor), h⟩
    · exact read_holds hdigest h hseen anchor

theorem verdicts_held (calls : List (AuditDir × Option AuditChainAnchor))
    (hseen : ∀ call ∈ calls, call.1.contents ⊆ seen)
    (hanchor : ∀ call ∈ calls, ∀ a ∈ call.2, NamesAuditFile a) :
    ∀ {v : AuditChainVerifier δ}, Holds C digest seen key v →
      v.verdicts C digest calls = calls.map fun call => reread C key call.1 call.2 := by
  induction calls with
  | nil => exact fun _ => rfl
  | cons call calls ih =>
    intro v h
    obtain ⟨hin, hthere⟩ := List.forall_mem_cons.mp hseen
    obtain ⟨hhere, hrest⟩ := List.forall_mem_cons.mp hanchor
    obtain ⟨hverdict, hholds⟩ := verify_holds hdigest h hin hhere
    rw [AuditChainVerifier.verdicts, List.map_cons, ← hverdict, ← ih hthere hrest hholds]

end

/-- A verifier that is kept answers every call as one built for that call would, unless two of the
contents it was shown share a digest. -/
theorem kept_verifier_transparent (C : AuditCodec) {digest : Bytes → δ}
    (key : Option AuditRestartKey) (calls : List (AuditDir × Option AuditChainAnchor))
    (hdigest : Set.InjOn digest {bytes | ∃ call ∈ calls, bytes ∈ call.1.contents})
    (hanchor : ∀ call ∈ calls, ∀ a ∈ call.2, NamesAuditFile a) :
    AuditChainVerifier.verdicts C digest (.new key) calls =
      calls.map fun call => (AuditChainVerifier.verify C digest (.new key) call.1 call.2).1 := by
  have hseen (call) (hcall : call ∈ calls) :
      call.1.contents ⊆ {bytes | ∃ call ∈ calls, bytes ∈ call.1.contents} :=
    fun bytes hbytes => ⟨call, hcall, hbytes⟩
  rw [verdicts_held hdigest calls hseen hanchor (new_holds C digest _ key)]
  refine List.map_congr_left fun call hcall => ?_
  exact (verify_holds hdigest (new_holds C digest _ key) (hseen call hcall)
    (hanchor call hcall)).1.symm

def firstFile : Text := "nrr_audit_20250418-1.ndjson".toList

def secondFile : Text := "nrr_audit_20250418-2.ndjson".toList

/-- Two files with an event each; the second may be out of reach. -/
def trail (second : Text) (readable : Bool) : AuditDir where
  files := [⟨firstFile, encode (sampleLine 1 1 auditChainGenesis)⟩, ⟨secondFile, encode second⟩]
  readable name := readable || name == firstFile
  distinct := (by decide : [firstFile, secondFile].Nodup)

/-- The SHA-256 of the contents below. -/
def fileDigest (bytes : Bytes) : Text :=
  let known : List (Text × String) :=
    [(sampleLine 1 1 auditChainGenesis,
        "95bf600338d88cb680fd2e57f0ca5bae412a75dd85d014683d8f2d80e3113f76"),
      (sampleLine 2 1 firstHash,
        "88ba8188e7d0214c9958f3dc00d8b78510fd9babd38587464d5a0cb05da38d52"),
      (sampleLine 3 1 firstHash,
        "cc2714082a371ec60dd33a2633d2a2e888f7f51ac7ad4a3fd9c655cbed0c8c5b")]
  ((known.find? fun e => encode e.1 == bytes).elim "" Prod.snd).toList

/-- The same state twice, then with the second file out of reach, replaced, and as before. -/
def keptCalls : List (AuditDir × Option AuditChainAnchor) :=
  let anchor := some ⟨secondFile, 1, secondFileHash⟩
  [(trail (sampleLine 2 1 firstHash) true, anchor), (trail (sampleLine 2 1 firstHash) true, anchor),
    (trail (sampleLine 2 1 firstHash) false, anchor), (trail (sampleLine 3 1 firstHash) true, anchor),
    (trail (sampleLine 2 1 firstHash) true, none)]

theorem replaced_file_transparent :
    AuditChainVerifier.verdicts sampleCodec fileDigest (.new none) keptCalls =
      keptCalls.map fun call =>
        (AuditChainVerifier.verify sampleCodec fileDigest (.new none) call.1 call.2).1 := by
  have hcontents : ∀ bytes, (∃ call ∈ keptCalls, bytes ∈ call.1.contents) →
      bytes ∈ (keptCalls.flatMap fun call => call.1.entries.filterMap Prod.snd) := by
    rintro bytes ⟨call, hcall, name, hname⟩
    exact List.mem_flatMap.mpr ⟨call, hcall, List.mem_filterMap.mpr ⟨_, hname, rfl⟩⟩
  have hapart : ∀ a ∈ keptCalls.flatMap fun call => call.1.entries.filterMap Prod.snd,
      ∀ b ∈ keptCalls.flatMap fun call => call.1.entries.filterMap Prod.snd,
        fileDigest a = fileDigest b → a = b := by decide +kernel
  refine kept_verifier_transparent sampleCodec none keptCalls
    (fun a ha b hb => hapart a (hcontents a ha) b (hcontents b hb)) ?_
  unfold NamesAuditFile isAuditFile
  decide +kernel

end NetRuleRouter.CachedVerdicts
