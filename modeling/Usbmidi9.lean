import Usbmidi9.Classic.Drain
import Usbmidi9.Classic.Finish
import Usbmidi9.Classic.Framing
import Usbmidi9.Classic.Hooks
import Usbmidi9.Classic.Ledger
import Usbmidi9.Classic.Poll
import Usbmidi9.Classic.Queue
import Usbmidi9.Core.Limits
import Usbmidi9.Core.Table41
import Usbmidi9.Core.Brackets
import Usbmidi9.Core.Grammar
import Usbmidi9.Core.RoundTrip
import Usbmidi9.Core.Verdict
import Usbmidi9.Oms.Conserve
import Usbmidi9.Oms.Refnums
import Usbmidi9.Oms.Balance
import Usbmidi9.Oms.Unhook
import Usbmidi9.Oms.Wire
import Usbmidi9.Pef.Prefix
import Usbmidi9.Pef.PyUnpack
import Usbmidi9.Pef.Main
import Usbmidi9.Pef.Trapcheck
import Usbmidi9.Pef.Vector
import Usbmidi9.Probe.Poll
import Usbmidi9.Tools.Hqx
import Usbmidi9.Tools.Lzh13
