import Quire.RunHistory
import Quire.LifecycleConstraints
import Quire.SupersedeRace
import Quire.BootstrapRace
import Quire.Redaction
import Quire.JobHistory
import Quire.RunUpgrade
import Quire.GitArguments
import Quire.RunExecute
import Quire.CrashedRun
import Quire.IngestProjection
import Quire.GraphVerdict
import Quire.CompiledOrder
import Quire.FinishedInputs
import Quire.TokenLifetime
import Quire.RunTrigger
import Quire.Mirroring
import Quire.NewestPush
import Quire.RecordedOutput
import Quire.RegistryHistory
import Quire.RedactionOrder
import Quire.LineRedaction
import Quire.RedactionReading
import Quire.NamedInputs
import Quire.CreateFailure
import Quire.EventCodec
import Quire.SshExec
import Quire.RepoTree
import Quire.CommitPage
import Quire.FilePage
import Quire.FileScript
import Quire.LogFiles
import Quire.SecretFetch
import Quire.RepoLinks
import Quire.RunPage
import Quire.ErrorLabels
import Quire.DisplayIds
import Quire.LogDump
import Quire.Telemetry
import Quire.TreeLinks
import Quire.PushHandoff
import Quire.RepoListing
import Quire.RunLinks
import Quire.LineSelection
import Quire.MirrorAccount
import Quire.HistoryWalk
import Quire.ServerRestart
import Quire.EventRuns
import Quire.RunDelivery
import Quire.ValidateCommand
import Quire.LocalRun
