import Jamsesh.AddOnly
import Jamsesh.Membership
import Jamsesh.HereDoc
import Jamsesh.Fencing
import Jamsesh.Postreceive
import Jamsesh.WsTickets
import Jamsesh.Eviction
import Jamsesh.FirstRequests
import Jamsesh.ReadOnly
import Jamsesh.FileOrDir
import Jamsesh.Gateway
import Jamsesh.Survival
import Jamsesh.Freshness
import Jamsesh.Retry
import Jamsesh.ScopeCheck
import Jamsesh.TokenUse
import Jamsesh.ProxyRetry
import Jamsesh.SessionGuards
import Jamsesh.SweepRace
import Jamsesh.HardCap
import Jamsesh.ShortIds
import Jamsesh.ReportStatus
import Jamsesh.MergeMessage
import Jamsesh.Additions
import Jamsesh.StaleRefs
import Jamsesh.Reacquire
import Jamsesh.Comments
import Jamsesh.AuthStore
import Jamsesh.ConflictRanges
import Jamsesh.CurationSaves
import Jamsesh.Hooks
import Jamsesh.Archive
