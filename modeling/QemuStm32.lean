import QemuStm32.Stm32.SetReset
import QemuStm32.Stm32.Button
import QemuStm32.BitBand
import QemuStm32.Gic.Bounds
import QemuStm32.Nvic.SystickTime
import QemuStm32.V7m.ControlState
import QemuStm32.V7m.Entry
import QemuStm32.Memory.Coalesced
import QemuStm32.Memory.Listener
import QemuStm32.Memory.Ioeventfd
import QemuStm32.Tcg.Refinement
import QemuStm32.Tcg.DeadArgs
import QemuStm32.Json.Escapes
import QemuStm32.Json.RoundTrip
import QemuStm32.Qdict.Map
import QemuStm32.Qcow2.InFlight
import QemuStm32.Acl
import QemuStm32.Options
import QemuStm32.Multiwrite
import QemuStm32.Net.Purge
import QemuStm32.Coroutine.Safety
import QemuStm32.Qed.Errors
import QemuStm32.Timers
import QemuStm32.Ptimer
import QemuStm32.HostUtils
import QemuStm32.Cutils
import QemuStm32.Int128
import QemuStm32.Block.Commit
import QemuStm32.Virtio.Load
import QemuStm32.Virtio.Fill
import QemuStm32.Virtio.Signals
import QemuStm32.Virtio.Heads
import QemuStm32.Savevm.PutFile
import QemuStm32.Savevm.Chunks
import QemuStm32.Migration.Buffered
import QemuStm32.Migration.RamSync
import QemuStm32.Exec.Unmap
import QemuStm32.Exec.PhysDispatch
