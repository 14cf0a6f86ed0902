import Afxdp.BufVec
import Afxdp.Capacity
import Afxdp.Channels
import Afxdp.CursorWrap
import Afxdp.Descriptor
import Afxdp.FillFlow
import Afxdp.Grid
import Afxdp.PoolWorkers
import Afxdp.RingLifetime
import Afxdp.RingSize
import Afxdp.Slices
import Afxdp.Wakeup
import Afxdp.BackPressure
import Afxdp.Balance
import Afxdp.Lib.Backlog
import Afxdp.Stall
import Afxdp.L2fwd
import Afxdp.SwapOnce
import Afxdp.TwoLink
import Afxdp.Refill
import Afxdp.Relay
import Afxdp.Isolation
import Afxdp.Panics
import Afxdp.Multicore
import Afxdp.Receiver
import Afxdp.Verdict
import Afxdp.Dump
import Afxdp.RxDrop
