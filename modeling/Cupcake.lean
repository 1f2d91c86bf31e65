import Cupcake.Ashmem.Pages
import Cupcake.Binder.Alloc.BestFit
import Cupcake.Selinux.Sidtab.Runs
import Cupcake.Selinux.Conditional.Runs
import Cupcake.Selinux.Conditional.Formulas
import Cupcake.Selinux.Ebitmap.Netlbl
import Cupcake.Selinux.Mls.RoundTrip
import Cupcake.Selinux.Bounds
import Cupcake.Net.Xfrm.Fresh
import Cupcake.Net.Filter.Refinement
import Cupcake.Fs.Locks.Deadlock
import Cupcake.Fs.Locks.Flock
import Cupcake.Fs.Locks.Close
import Cupcake.Sysenv.Runs
import Cupcake.Mlog.Runs
import Cupcake.Hps.Averages
import Cupcake.Net.Iptables.Verdicts
import Cupcake.Fs.Ext4.Delayed
import Cupcake.Hid.RoundTrip
import Cupcake.Fs.Jbd2.RevokeRuns
import Cupcake.Mtd.Ubi.AttachRuns
import Cupcake.Plist.Runs
import Cupcake.ListSort.Counter
import Cupcake.Sound.Periods
import Cupcake.Binder.Refs
import Cupcake.Ashmem.Failures
import Cupcake.Mm.Memblock.Totals
import Cupcake.Sched.Averages
import Cupcake.Fs.Ubifs.Numbers
import Cupcake.Fs.Ubifs.Packing
