import NetRuleRouter.AcceptedNetworks
import NetRuleRouter.AnchorAlarms
import NetRuleRouter.AnchorReports
import NetRuleRouter.BandedPermits
import NetRuleRouter.BindingMirror
import NetRuleRouter.BindingRecency
import NetRuleRouter.BlockResults
import NetRuleRouter.BlockedNetworks
import NetRuleRouter.BookReads
import NetRuleRouter.BookRewrites
import NetRuleRouter.CensusAgreement
import NetRuleRouter.ChainWalk
import NetRuleRouter.Coalescer
import NetRuleRouter.ConfirmedOnce
import NetRuleRouter.DnsAnswers
import NetRuleRouter.Entrances
import NetRuleRouter.FilterLedger
import NetRuleRouter.HeldAddresses
import NetRuleRouter.InertRules
import NetRuleRouter.KeptDrops
import NetRuleRouter.LineOrder
import NetRuleRouter.QuestionKeys
import NetRuleRouter.RecentLines
import NetRuleRouter.RefusalSearch
import NetRuleRouter.CachedVerdicts
import NetRuleRouter.RestartCounts
import NetRuleRouter.RetainedChain
import NetRuleRouter.ReviewDiff
import NetRuleRouter.ShadowedAddresses
import NetRuleRouter.SharedTable
import NetRuleRouter.SignedRuns
import NetRuleRouter.SiteExpansion
import NetRuleRouter.SlotLocality
import NetRuleRouter.SteadyFlows
import NetRuleRouter.TamperEvidence
import NetRuleRouter.WireOrder
import NetRuleRouter.MergeInvariant
