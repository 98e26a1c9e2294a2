import AflNv.WarmUp
import AflNv.JournalReplay
import AflNv.PendingArm
import AflNv.Attribution
import AflNv.FavoredCover
import AflNv.FastResume
import AflNv.ReadbackRun
import AflNv.HostileFiles
import AflNv.TargetEnv
import AflNv.Gating
import AflNv.ExecSeq
import AflNv.SaveEntries
import AflNv.StatusPublication
import AflNv.NewBits
import AflNv.TrimFile
import AflNv.SanDedup
import AflNv.SeedPicker
import AflNv.AliasTable
import AflNv.MainNode
import AflNv.Campaign
import AflNv.SecurityScore
import AflNv.QueryMutation
import AflNv.UrlQuery
import AflNv.JsonMutator
import AflNv.StateTrace
import AflNv.Hashmap
import AflNv.SubmitRequest
import AflNv.BoundedProtocol
import AflNv.SecretGuard
import AflNv.StateProbe
import AflNv.ScorerDecision
import AflNv.IjonMax
import AflNv.PeerSync
import AflNv.DictStages
import AflNv.DetCover
import AflNv.Calibration
import AflNv.SkipDet
import AflNv.EvalReportWrites
import AflNv.TaskCommand
import AflNv.TextCheck
import AflNv.SpliceCount
import AflNv.ThresholdCalibration
import AflNv.ApiServer
import AflNv.ApiQueries
import AflNv.RunnerFallback
import AflNv.Minimize
import AflNv.ForkServerRuns
import AflNv.Colorization
import AflNv.DictLoad
import AflNv.HavocStage
