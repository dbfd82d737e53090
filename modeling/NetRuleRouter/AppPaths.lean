import NetRuleRouter.Unicode

/-!
# Programs an application rule names

One reading of a path for every reader of one: segments as the platform
compares them, the kinds of place a path names, and its canonical spelling.
A path under a folder of the owner's profile keeps that folder symbolic. A
name is reduced to one key for both sides of a match. A protected place the
disk reveals is refused unless the rule asks to apply anyway, names that place
itself, and its owner confirmed what it takes.
-/

set_option autoImplicit false

namespace NetRuleRouter.AppPaths
open TextOps Unicode

inductive PathStyle where
  | windows
  | linux
  | macOS
  deriving DecidableEq, Repr

def PathStyle.caseInsensitive : PathStyle → Bool
  | .windows | .macOS => true
  | .linux => false

def PathStyle.separator : PathStyle → Char
  | .windows => '\\'
  | .linux | .macOS => '/'

def PathStyle.rootLen : PathStyle → ℕ
  | .windows => 1
  | .linux | .macOS => 0

def PathStyle.isSeparator : PathStyle → Char → Bool
  | .windows, c => c == '\\' || c == '/'
  | .linux, c | .macOS, c => c == '/'

def maxPathBytes : ℕ := 32 * 1024

def maxPathSegments : ℕ := 256

def maxPathValueBytes : ℕ := 1024

def maxRuleValueBytes : ℕ := 260

def isPathValue (raw : Text) (style : PathStyle) : Bool := raw.any style.isSeparator

/-- The root of an absolute Windows path and what follows it: a drive or a
share, the device prefixes dropped first. -/
def windowsRoot (path : Text) : Option (Text × Text) :=
  let unified := path.map fun c => if c = '/' then '\\' else c
  let unified := match stripPre "\\\\?\\unc\\".toList unified with
    | some unc => "\\\\".toList ++ unc
    | none => ((stripPre "\\\\?\\".toList unified).orElse fun _ =>
        stripPre "\\\\.\\".toList unified).getD unified
  match stripPre "\\\\".toList unified with
  | some share =>
    match (share.splitOn '\\').filter (· ≠ []) with
    | server :: name :: more =>
      if [server, name].any fun part => part == ['.'] || part == ['.', '.'] then none
      else some ("\\\\".toList ++ server ++ ['\\'] ++ name, ['\\'].intercalate more)
    | _ => none
  | none =>
    match unified with
    | drive :: ':' :: rest =>
      if drive.isAlpha && (rest == [] || rest.head? == some '\\') then
        some ([drive, ':'], rest)
      else none
    | _ => none

def cleanSegment (style : PathStyle) (raw : Text) : Option Text :=
  match style with
  | .windows =>
    if raw.contains ':' then none
    else match raw.rdropWhile (fun c => c == '.' || c == ' ') with
      | [] => none
      | trimmed => some trimmed
  | .linux | .macOS => some raw

def collectSegments (style : PathStyle) (pattern : Bool) :
    List Text → List Text → Option (List Text)
  | segments, [] => some segments
  | segments, raw :: rest =>
    if raw == [] || raw == ['.'] then collectSegments style pattern segments rest
    else if raw == ['.', '.'] then none
    else match cleanSegment style raw with
      | none => none
      | some segment =>
        if !pattern && segment.contains '*' then none
        else if maxPathSegments < segments.length + 1 then none
        else collectSegments style pattern (segments ++ [segment]) rest

/-- The segments of an absolute path; refused for a path that is relative,
climbs, is oversized, holds a control character or, unless `pattern`, a star. -/
def pathSegments (path : Text) (style : PathStyle) (pattern : Bool) : Option (List Text) :=
  if maxPathBytes < byteLen path || path.any isControl then none
  else
    let path := trim path
    let path := if style.caseInsensitive then toLowercase path else path
    match style with
    | .windows => (windowsRoot path).bind fun root =>
        collectSegments style pattern [root.1] (root.2.splitOn '\\')
    | .linux | .macOS => (stripPre ['/'] path).bind fun rest =>
        collectSegments style pattern [] (rest.splitOn '/')

inductive ProfileFolder where
  | localAppData
  | appData
  | userProfile
  | home
  deriving DecidableEq, Repr

def ProfileFolder.all : List ProfileFolder := [.localAppData, .appData, .userProfile, .home]

def ProfileFolder.token : ProfileFolder → Text
  | .localAppData => "%localappdata%".toList
  | .appData => "%appdata%".toList
  | .userProfile => "%userprofile%".toList
  | .home => "~".toList

def ProfileFolder.on : ProfileFolder → PathStyle → Bool
  | .home, style => style != .windows
  | .localAppData, style | .appData, style | .userProfile, style => style == .windows

def ProfileFolder.belowProfile : ProfileFolder → List Text
  | .localAppData => ["appdata".toList, "local".toList]
  | .appData => ["appdata".toList, "roaming".toList]
  | .userProfile | .home => []

inductive AppPathError where
  | starNotLast
  | notAbsolute
  | malformed
  | unknownVariable
  deriving DecidableEq, Repr

/-- The folder named by `head`, provided a separator or nothing follows. -/
def profileNamed (head rest : Text) (style : PathStyle) :
    Except AppPathError (Option (ProfileFolder × Text)) :=
  match ProfileFolder.all.find? fun f => f.on style && eqIgnoreAsciiCase f.token head with
  | none => .error .unknownVariable
  | some folder =>
    if rest.head?.any fun c => !style.isSeparator c then .error .unknownVariable
    else .ok (some (folder, rest))

/-- The profile folder `body` starts from and what follows it; a variable the
platform does not read is an error, never a name. -/
def profilePrefix (body : Text) (style : PathStyle) :
    Except AppPathError (Option (ProfileFolder × Text)) :=
  match body with
  | '%' :: tail =>
    match splitOnce '%' tail with
    | none => .error .unknownVariable
    | some (name, rest) => profileNamed ('%' :: name ++ ['%']) rest style
  | '~' :: rest => profileNamed ['~'] rest style
  | '$' :: _ => .error .unknownVariable
  | _ => .ok none

def probeRoot : PathStyle → List Text
  | .windows => ["c:".toList, "users".toList, "<profile>".toList]
  | .linux => ["home".toList, "<profile>".toList]
  | .macOS => ["users".toList, "<profile>".toList]

inductive AppPathKind where
  | file
  | folder
  | folderTree
  | fileOrFolder
  deriving DecidableEq, Repr

structure AppPath where
  style : PathStyle
  kind : AppPathKind
  segments : List Text
  text : Text
  profile : Option ProfileFolder
  probe : Option Text
  deriving DecidableEq, Repr

def startsAbsolute (body : Text) (style : PathStyle) : Bool :=
  match style with
  | .windows =>
    match body with
    | a :: b :: rest =>
      (a.isAlpha && b == ':' && (rest == [] || rest.head?.any PathStyle.windows.isSeparator)) ||
        (PathStyle.windows.isSeparator a && PathStyle.windows.isSeparator b)
    | _ => false
  | .linux | .macOS => body.head? == some '/'

def endsInSeparator (style : PathStyle) (body : Text) : Bool := body.getLast?.any style.isSeparator

def kindSuffix (sep : Char) : AppPathKind → Text
  | .file | .fileOrFolder => []
  | .folder => [sep]
  | .folderTree => [sep, '*']

def render (style : PathStyle) (kind : AppPathKind) (segments : List Text) : Text :=
  let sep := style.separator
  let text := (if style.rootLen = 0 then [sep] else []) ++ [sep].intercalate segments
  if text.getLast? = some sep then
    match kind with
    | .file | .fileOrFolder | .folder => text
    | .folderTree => text ++ ['*']
  else text ++ kindSuffix sep kind

/-- The kind of a path below a root: `short` when nothing is below it. -/
def kindOf (style : PathStyle) (tree trailing short : Bool) (last : Option Text) : AppPathKind :=
  if tree then .folderTree
  else if trailing || short then .folder
  else match style with
    | .windows => if last.any (endsWith ".exe".toList) then .file else .folder
    | .linux | .macOS => .fileOrFolder

/-- A path below `folder`; `rest` is empty or starts with a separator. -/
def underProfile (folder : ProfileFolder) (rest : Text) (tree : Bool) (style : PathStyle) :
    Except AppPathError AppPath :=
  let rooted := match style with
    | .windows => "c:".toList ++ rest
    | .linux | .macOS => if rest = [] then ['/'] else rest
  match pathSegments rooted style false with
  | none => .error .malformed
  | some full =>
    let below := full.drop style.rootLen
    let kind := kindOf style tree (endsInSeparator style rest) (below == []) below.getLast?
    let segments := probeRoot style ++ folder.belowProfile ++ below
    if maxPathSegments < segments.length then .error .malformed
    else .ok {
      style, kind, segments
      text := folder.token ++ below.flatMap (fun s => style.separator :: s) ++
        kindSuffix style.separator kind
      profile := some folder
      probe := some (render style kind segments) }

def treeBody (trimmed : Text) (style : PathStyle) : Option Text :=
  (stripSuf ['*'] trimmed).filter (endsInSeparator style)

def AppPath.parse (raw : Text) (style : PathStyle) : Except AppPathError AppPath :=
  if maxPathBytes < byteLen raw || raw.any isControl then .error .malformed
  else
    let trimmed := trim raw
    let body := (treeBody trimmed style).getD trimmed
    let tree := (treeBody trimmed style).isSome
    if body.contains '*' then .error .starNotLast
    else match profilePrefix body style with
      | .error e => .error e
      | .ok (some (folder, rest)) => underProfile folder rest tree style
      | .ok none =>
        if !startsAbsolute body style then .error .notAbsolute
        else match pathSegments body style false with
          | none => .error .malformed
          | some segments =>
            let kind := kindOf style tree (endsInSeparator style body)
              (segments.length ≤ style.rootLen) segments.getLast?
            .ok { style, kind, segments, text := render style kind segments,
                  profile := none, probe := none }

def AppPath.depth (p : AppPath) : ℕ := p.segments.length - p.style.rootLen

/-- Whether the program whose image is `image` is one this path names, and
how. An unresolved profile path names no image. -/
def AppPath.matchImage (p : AppPath) (image : Text) : Option AppPathKind :=
  if p.profile.isSome then none
  else match pathSegments image p.style false with
    | none | some [] => none
    | some (s :: ss) =>
      let observed := s :: ss
      let folder := observed.dropLast
      if folder.length < p.style.rootLen then none
      else match p.kind with
        | .file => if observed = p.segments then some .file else none
        | .folder => if folder = p.segments then some .folder else none
        | .folderTree => if p.segments.isPrefixOf folder then some .folderTree else none
        | .fileOrFolder =>
          if observed = p.segments then some .file
          else if folder = p.segments then some .folder else none

inductive ExecutableNaming where
  | windowsExe
  | asNamed
  deriving DecidableEq, Repr

structure ExactNameChanges where
  strippedPathFrom : Option Text
  appendedExeTo : Option Text
  deriving DecidableEq, Repr

def isNameSeparator (c : Char) : Bool := c == '/' || c == '\\'

def fileNamePart (raw : Text) : Text :=
  ((raw.splitOnP isNameSeparator).reverse.find? (· ≠ [])).getD raw

def exeSuffix : Text := ".exe".toList

def canonicalExactProcessName (raw : Text) (naming : ExecutableNaming) :
    Text × ExactNameChanges :=
  let raw := trim raw
  let hasPath := raw.any isNameSeparator
  let filename := if hasPath then fileNamePart raw else raw
  let strippedPathFrom := if hasPath then some raw else none
  let lowercased := toLowercase filename
  if naming = .asNamed || endsWith exeSuffix lowercased then
    (lowercased, ⟨strippedPathFrom, none⟩)
  else (lowercased ++ exeSuffix, ⟨strippedPathFrom, some filename⟩)

def canonicalGlobProcessPattern (raw : Text) : Text := toLowercase (trim raw)

def appMatchKey (raw : Text) : Text :=
  let lowered := toLowercase (((trim raw).splitOnP isNameSeparator).getLast?.getD (trim raw))
  match stripSuf exeSuffix lowered with
  | some (c :: stem) => c :: stem
  | _ => lowered

def foldSigma (c : Char) : Char := if c = '\u03C2' then '\u03C3' else c

def foldEq (a b : Char) : Bool :=
  a == b || (lowerChar a).map foldSigma == (lowerChar b).map foldSigma

def globCharEq (a b : Char) : Bool :=
  if isAscii a && isAscii b then a.toLower == b.toLower else foldEq a b

theorem glob_star_shorter {pat : Text} (h : pat.head? = some '*') :
    (pat.dropWhile (· == '*')).length < pat.length := by
  cases pat with
  | nil => simp at h
  | cons c pat =>
    simp only [List.head?_cons, Option.some.injEq] at h
    subst h
    have := (List.dropWhile_suffix (l := pat) (· == '*')).length_le
    simp
    omega

def globLoop (pat txt : Text) (star : Option (Text × Text))
    (inv : ∀ s ∈ star, txt.length ≤ s.2.length) : Bool :=
  if h : pat.head? = some '*' then
    if pat.dropWhile (· == '*') = [] then true
    else globLoop (pat.dropWhile (· == '*')) txt (some (pat.dropWhile (· == '*'), txt)) (by simp)
  else
    match pat, txt, inv with
    | pc :: ps, tc :: ts, inv =>
      if globCharEq pc tc then
        globLoop ps ts star (fun s hs => by have := inv s hs; simp at this; omega)
      else match star with
        | some (rp, _ :: rt) => globLoop rp rt (some (rp, rt)) (by simp)
        | _ => false
    | [], [], _ => true
    | _, _, _ => match star with
      | some (rp, _ :: rt) => globLoop rp rt (some (rp, rt)) (by simp)
      | _ => false
  termination_by (star.elim (txt.length + 1) fun s => s.2.length, pat.length)
  decreasing_by
    · cases star with
      | none => exact Prod.Lex.left _ _ (by simp)
      | some s =>
        have hs := inv s rfl
        rcases hs.lt_or_eq with hlt | heq
        · exact Prod.Lex.left _ _ hlt
        · simp only [Option.elim, heq]
          exact Prod.Lex.right _ (glob_star_shorter h)
    · cases star with
      | none => exact Prod.Lex.left _ _ (by simp)
      | some s => exact Prod.Lex.right _ (by simp)
    · exact Prod.Lex.left _ _ (by simp)
    · exact Prod.Lex.left _ _ (by simp)

def globMatch (pattern text : Text) : Bool := globLoop pattern text none (by simp)

inductive RuleEffect where
  | deny
  | primaryRoute
  | secondaryRoute
  deriving DecidableEq, Repr

inductive ProtectionReason where
  | criticalProcess
  | ownProgram
  | diskRoot
  | systemFolder
  | sharedFolder
  | searchPathFolder
  | fileInSystemFolder
  | notAPlainPath
  | appPathUnsupported
  deriving DecidableEq, Repr

def ProtectionReason.overridable : ProtectionReason → Bool
  | .diskRoot | .ownProgram | .notAPlainPath | .appPathUnsupported => false
  | _ => true

inductive PathOutcome where
  | found
  | missing
  | otherUsersFolder
  | unsupported
  deriving DecidableEq, Repr

structure PathPrograms where
  outcome : PathOutcome
  place : Option AppPath
  programs : List Text
  overCap : Bool

/-- Which programs a name, a mask or a path stands for on this machine. -/
structure AppPathResolver where
  resolve : Text → List Text
  pathPrograms : AppPath → Text → PathPrograms

/-- The judgement of places: the reason a place is refused under an effect, the critical programs
among those it holds, and whether the owner's confirmation still covers them. -/
structure PlaceProtection where
  refusal : AppPath → RuleEffect → Option ProtectionReason
  criticalCovered : AppPath → List Text → List Text
  honoured : Text → Text → RuleEffect → ProtectionReason → List Text → Bool

structure PathRuleTargets where
  key : Text
  programs : List Text
  overCap : Bool
  outcome : PathOutcome
  refused : Option ProtectionReason
  overridePending : Bool

/-- The rule asks to apply anyway and the place it names is refused for the same reason. -/
def pendingOverride (path : AppPath) (effect : RuleEffect) (overrideRequested : Bool)
    (protection : PlaceProtection) (reason : ProtectionReason) : Bool :=
  overrideRequested && reason.overridable && protection.refusal path effect == some reason

/-- The refusal that stands, with whether it waits for a confirmation. -/
def standingRefusal (path : AppPath) (owner : Text) (effect : RuleEffect)
    (overrideRequested : Bool) (protection : PlaceProtection) (found : PathPrograms) :
    Option (ProtectionReason × Bool) :=
  found.place.bind fun place => (protection.refusal place effect).bind fun reason =>
    let pending := pendingOverride path effect overrideRequested protection reason
    if pending && protection.honoured owner path.text effect reason
        (protection.criticalCovered place found.programs) then none
    else some (reason, pending)

def pathRuleTargets (path : AppPath) (owner : Text) (effect : RuleEffect)
    (overrideRequested : Bool) (resolver : AppPathResolver) (protection : PlaceProtection) :
    PathRuleTargets :=
  let found := resolver.pathPrograms path owner
  match standingRefusal path owner effect overrideRequested protection found with
  | some (reason, pending) => ⟨path.text, [], false, found.outcome, some reason, pending⟩
  | none =>
    ⟨path.text, if found.outcome = .found then found.programs else [], found.overCap,
      found.outcome, none, false⟩

section
variable {path : AppPath} {owner : Text} {effect : RuleEffect} {overrideRequested : Bool}
variable {resolver : AppPathResolver} {protection : PlaceProtection}

theorem refused_programs {reason : ProtectionReason}
    (h : (pathRuleTargets path owner effect overrideRequested resolver protection).refused =
      some reason) :
    (pathRuleTargets path owner effect overrideRequested resolver protection).programs = [] := by
  unfold pathRuleTargets at h ⊢
  dsimp only at h ⊢
  split at h
  · rfl
  · cases h

theorem unfound_programs
    (h : (pathRuleTargets path owner effect overrideRequested resolver protection).outcome ≠
      .found) :
    (pathRuleTargets path owner effect overrideRequested resolver protection).programs = [] := by
  unfold pathRuleTargets at h ⊢
  dsimp only at h ⊢
  split at h
  · rfl
  · exact if_neg h

end

end NetRuleRouter.AppPaths
