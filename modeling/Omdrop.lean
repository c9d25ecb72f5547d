import Omdrop.Receiver.Table
import Omdrop.Receiver.Ask
import Omdrop.Send.Chunked
import Omdrop.Proto.DvzipAccept
import Omdrop.Proto.FalseEnd
import Omdrop.Proto.DvzipEncode
import Omdrop.Proto.CpioTrace
import Omdrop.Proto.CpioGrammar
import Omdrop.Proto.Ceilings
import Omdrop.Proto.NameLimits
import Omdrop.Proto.Dest
import Omdrop.Proto.AllOrNothing
import Omdrop.Identity.Import
import Omdrop.Identity.Lifetime
import Omdrop.Cli.Settings
import Omdrop.Cli.OffWins
import Omdrop.Send.Listing
import Omdrop.Mdns.Respond
import Omdrop.Plist.DebugDump
import Omdrop.Send.Bounded
import Omdrop.Send.Unsplit
import Omdrop.Stream.OnesComplement
import Omdrop.Mdns.Packet
import Omdrop.Mdns.Names
import Omdrop.Mdns.FollowUp
import Omdrop.Identity.Payload
import Omdrop.Identity.Keyring
import Omdrop.Identity.Resolver
import Omdrop.Identity.SelfSigned
import Omdrop.Send.Choose
import Omdrop.Machine.Inevitable
import Omdrop.Send.Naming
import Omdrop.Cli.Glob
import Omdrop.Radio.Announce
import Omdrop.Proto.Date
import Omdrop.Cli.Desktop
import Omdrop.Send.Paste
import Omdrop.Radio.Killing
import Omdrop.Send.Scan
import Omdrop.Cli.Links
import Omdrop.Cli.WatchingLinks
import Omdrop.Radio.WindowAgreement
import Omdrop.Radio.StopFinal
import Omdrop.Receiver.KeepAlive
