import Kitakami.Base.Runs
import Kitakami.Base.Strings
import Kitakami.Gps.MsgQ
import Kitakami.Gps.DmnConnMsg
import Kitakami.Gps.NmeaSv
import Kitakami.Gps.LocCfgUpdate
import Kitakami.Fm.Commands
import Kitakami.Camera.Faces
import Kitakami.Camera.Exposure
import Kitakami.Camera.Sessions
import Kitakami.Camera.Memory
import Kitakami.Fm.Tune
import Kitakami.Fm.Events
import Kitakami.Fm.Client
import Kitakami.Fm.Daemon
import Kitakami.Xlate.Reloc
import Kitakami.Xlate.Room
import Kitakami.Xlate.Verbatim
import Kitakami.Gps.Ni
import Kitakami.Gps.NiRuns
import Kitakami.Gps.NiAnswers
import Kitakami.Gps.LocHeap
import Kitakami.Gps.LocTimerArmed
import Kitakami.Agps.Restart
import Kitakami.Agps.Swallowed
import Kitakami.Agps.Connection
import Kitakami.Gps.LocEngMode
import Kitakami.Gps.LocEngAiding
import Kitakami.Gps.LocEngMute
import Kitakami.Ril.WakeLock
import Kitakami.Ril.TimerRuns
import Kitakami.Ril.RequestLedger
import Kitakami.Ril.WatchRuns
import Kitakami.Ril.RadioServiceRuns
import Kitakami.Ril.Formats
import Kitakami.Ril.Nitz
import Kitakami.Gps.LocHeapQueue
import Kitakami.Camera.ParamText
import Kitakami.Camera.FixupGet
import Kitakami.Fm.Uart
import Kitakami.Fm.Firmware
import Kitakami.Fm.Scan
import Kitakami.Xlate.DriverKey
import Kitakami.Camera.Frames
import Kitakami.Agps.Retries
import Kitakami.Agps.Broadcast
import Kitakami.Agps.BitClients
import Kitakami.Gps.LocApiBase
import Kitakami.Gps.UserAgent
import Kitakami.Gps.MsgTaskRuns
import Kitakami.Camera.ProviderOpens
import Kitakami.Camera.PreviewWindow
