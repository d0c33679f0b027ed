import Xnbd.Framing
import Xnbd.TargetRead
import Xnbd.CowRefine
import Xnbd.Durability
import Xnbd.Teardown
import Xnbd.Fragments
import Xnbd.Replies
import Xnbd.CowRace
import Xnbd.CowWorkers
import Xnbd.MemUsage
import Xnbd.Notice
import Xnbd.Descriptors
import Xnbd.Negotiate
import Xnbd.Wrapper
import Xnbd.Autosave
import Xnbd.Compose
import Xnbd.CowInterrupt
import Xnbd.ReadReply
import Xnbd.ReplyLength
import Xnbd.Percent
import Xnbd.BgctlArgv
import Xnbd.Listing
import Xnbd.ForkLock
import Xnbd.CtlDescriptors
import Xnbd.CacheAll
import Xnbd.Unicolor
import Xnbd.Mapping
import Xnbd.BitmapReuse
import Xnbd.ReadRuns
import Xnbd.IovArray
import Xnbd.CacheQueue
import Xnbd.Migration
import Xnbd.Children
import Xnbd.CowServers
import Xnbd.ExecServer
import Xnbd.Remote
import Xnbd.Snapshot
import Xnbd.Completion
import Xnbd.Connection
