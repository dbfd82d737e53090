import NetRuleRouter.TextOps

/-!
# Provenance of rules the application wrote

The reason, anchor and date of such a rule, and the structured comment that
carries them on a line of a rules file. The tokens may come in any order; the
first word that is none of them begins the ordinary note.
-/

set_option autoImplicit false

namespace NetRuleRouter.AutoRule
open TextOps

inductive AutoRuleReason where
  | siteCompanion
  | vpnClientBootstrap
  | userConfirmed
  | blockNoticeRouted
  | other (slug : Text)
  deriving DecidableEq, Repr

def reasonSlugSiteCompanion : Text := "site-companion".toList

def reasonSlugVpnClientBootstrap : Text := "vpn-client-bootstrap".toList

def reasonSlugUserConfirmed : Text := "user-confirmed".toList

def reasonSlugBlockNoticeRouted : Text := "block-notice-routed".toList

def AutoRuleReason.asSlug : AutoRuleReason → Text
  | .siteCompanion => reasonSlugSiteCompanion
  | .vpnClientBootstrap => reasonSlugVpnClientBootstrap
  | .userConfirmed => reasonSlugUserConfirmed
  | .blockNoticeRouted => reasonSlugBlockNoticeRouted
  | .other slug => slug

def words (s : Text) : List Text := (s.splitOnP isWhitespace).filter (· ≠ [])

def sanitizeToken (value : Text) : Text :=
  let trimmed := trim value
  if trimmed.any isWhitespace then ['-'].intercalate (words trimmed) else trimmed

def AutoRuleReason.fromSlug (slug : Text) : AutoRuleReason :=
  if slug = reasonSlugSiteCompanion then .siteCompanion
  else if slug = reasonSlugVpnClientBootstrap then .vpnClientBootstrap
  else if slug = reasonSlugUserConfirmed then .userConfirmed
  else if slug = reasonSlugBlockNoticeRouted then .blockNoticeRouted
  else .other (sanitizeToken slug)

structure RuleOrigin where
  reason : AutoRuleReason
  anchor : Text
  added : Text
  deriving DecidableEq, Repr

end NetRuleRouter.AutoRule
