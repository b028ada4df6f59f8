import Aeryk.Slab.Runs
import Aeryk.Pipe.Preempt
import Aeryk.Proc.PipeEnds
import Aeryk.Proc.NoLostProcess
import Aeryk.Proc.Lifetime
import Aeryk.Proc.Allotment
import Aeryk.Mem.Init
import Aeryk.User.Pointers
import Aeryk.Vm.Atomic
import Aeryk.Fs.Initramfs
import Aeryk.Compositor.Redraw
import Aeryk.Vm.Overlap
import Aeryk.Proc.Switch
import Aeryk.Proc.Wait
import Aeryk.Pipe.Counts
import Aeryk.Proc.Dup
import Aeryk.Elf.Bounds
import Aeryk.Elf.Image
import Aeryk.Libc.Sizes
import Aeryk.Libc.Printf
import Aeryk.Drivers.Mouse
import Aeryk.Drivers.Lines
import Aeryk.Drivers.KeyWakeup
import Aeryk.Elf.Startup
import Aeryk.Compositor.Finish
import Aeryk.Tty.Terminal
import Aeryk.Vm.Translation
import Aeryk.Vm.Counts
import Aeryk.Str.Filling
import Aeryk.Fs.Listing
import Aeryk.Proc.Relink
import Aeryk.Proc.Reap
import Aeryk.Proc.Sleep
import Aeryk.User.Shell
import Aeryk.Boot.Modules
