import Yggdrasil.Alloc.Boot
import Yggdrasil.Alloc.FirstFit
import Yggdrasil.Asm.Exact
import Yggdrasil.Interp.IntExact
import Yggdrasil.Interp.SentinelSafe
import Yggdrasil.Jit.DecodersAgree
import Yggdrasil.Jit.HelpersAgree
import Yggdrasil.Jit.Linking
import Yggdrasil.Jit.MapRetry
import Yggdrasil.Modload.Instances
import Yggdrasil.Modload.Resolve
import Yggdrasil.Modload.Stash
import Yggdrasil.Ports.Attach
import Yggdrasil.Ports.Order
import Yggdrasil.Ports.Pins
import Yggdrasil.Ports.SurfaceSafe
import Yggdrasil.Proc.CompactSpec
import Yggdrasil.Proc.Frames
import Yggdrasil.Proc.Receive
import Yggdrasil.Rings.Spsc
import Yggdrasil.Sched.SpawnMonitor
import Yggdrasil.Sched.TimerBound
import Yggdrasil.Smp.ShootdownSafe
import Yggdrasil.Term.Equal
import Yggdrasil.Term.Sessions
