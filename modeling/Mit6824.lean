import Mit6824.RaftTerms
import Mit6824.RaftIndex
import Mit6824.RaftCommit
import Mit6824.RaftSingle
import Mit6824.RaftApply
import Mit6824.KvApply
import Mit6824.KvLinear
import Mit6824.KvModel
import Mit6824.MrRefinement
import Mit6824.RaftFreshVote
import Mit6824.LinEvents
import Mit6824.RaftBackoff
import Mit6824.RaftOrder
import Mit6824.KvStuck
import Mit6824.Labrpc
import Mit6824.LinStops
import Mit6824.BitsetRuns
import Mit6824.LinRenumber
import Mit6824.MrCleanup
import Mit6824.GoRunes
import Mit6824.Labgob
import Mit6824.MrIndex
import Mit6824.RaftOrigin
import Mit6824.RaftDelivery
import Mit6824.KvStack
import Mit6824.KvReplicated
import Mit6824.RaftDurable
import Mit6824.Probing
import Mit6824.RaftCalls
import Mit6824.RaftProgress
import Mit6824.RaftAgreement
import Mit6824.RaftCandidacy
import Mit6824.MrFailures
import Mit6824.LabrpcProgress
import Mit6824.RaftPartition
import Mit6824.RaftTester
import Mit6824.KvTest
import Mit6824.MrWordCount
