import PortableShell.Transport
import PortableShell.PartialWrites
import PortableShell.Tokenizer
import PortableShell.InPlace
import PortableShell.Ansi
import PortableShell.Segmentation
import PortableShell.History
import PortableShell.Registry
import PortableShell.Forest
import PortableShell.Help
import PortableShell.Handler
import PortableShell.Command
import PortableShell.Display
import PortableShell.Editor
import PortableShell.Completion
import PortableShell.Execute
import PortableShell.HistoryList
import PortableShell.Steps
import PortableShell.WellFormed
import PortableShell.Accesses
import PortableShell.Acts
import PortableShell.Invariant
import PortableShell.Trace
import PortableShell.Dispatch
import PortableShell.CommandPath
import PortableShell.Simulation
import PortableShell.CommandSets
import PortableShell.Offers
import PortableShell.Terminators
import PortableShell.World
import PortableShell.Alike
import PortableShell.Typing
import PortableShell.Keys
import PortableShell.TwoListEditor
import PortableShell.Secrets
import PortableShell.Replay
import PortableShell.HistoryWalk
import PortableShell.Masking
import PortableShell.Rescan
import PortableShell.MaskedHistory
import PortableShell.Neighbours
import PortableShell.CompletionParse
import PortableShell.TabKey
import PortableShell.MemoryBounds
import PortableShell.StorageReuse
import PortableShell.LineEndings
import PortableShell.TerminalView
import PortableShell.HistoryListing
import PortableShell.CleanOutput
import PortableShell.Surroundings
import PortableShell.Delivery
import PortableShell.Devices
import PortableShell.Port.BareMetal
import PortableShell.Port.Host
import PortableShell.Port.HostWindows
import PortableShell.Port.HostModes
import PortableShell.Port.HostPosix
import PortableShell.Port.HostScript
import PortableShell.Port.HostShell
import PortableShell.Port.Tcp
import PortableShell.Port.TcpLifecycle
import PortableShell.Port.TcpStream
import PortableShell.Port.FreeRtos
import PortableShell.Port.FreeRtosTasks
import PortableShell.Port.FreeRtosCounters
import PortableShell.Port.FreeRtosTx
