import Irix.Lib.Bits
import Irix.Lib.Run
import Irix.Lib.Ledger
import Irix.Lib.Scatter
import Irix.Lib.Tally
import Irix.Lib.Growing
import Irix.Lib.Linked
import Irix.ExtentFs.Types
import Irix.ExtentFs.Summary
import Irix.ExtentFs.Alloc
import Irix.ExtentFs.Accounting
import Irix.ExtentFs.DiskFull
import Irix.ExtentFs.Inode
import Irix.ExtentFs.Shape
import Irix.ExtentFs.Ownership
import Irix.ExtentFs.Owners
import Irix.ExtentFs.Content
import Irix.ExtentFs.Dinode
import Irix.Fsck.Traverse
import Irix.Fsck.Blocks
import Irix.Fsck.Agree
import Irix.Fsck.Phase1
import Irix.Fsck.Clear
import Irix.Chunk.Runs
import Irix.Callout.Table
import Irix.Callout.Book
import Irix.Callout.Refine
import Irix.Callout.Runs
import Irix.Inst.Product
import Irix.Inst.ProductFormat
import Irix.Inst.RecordFormat
import Irix.Inst.Parsespec
import Irix.Inst.SpecText
import Irix.Inst.SpecRead
import Irix.Inst.SpecFit
import Irix.Textport.Reference
import Irix.Mex.Window
import Irix.Mex.Pieces
import Irix.Mex.Coalesce
import Irix.Mex.Promote
import Irix.Mex.Stack
import Irix.Mex.Visible
import Irix.Mex.Manager
import Irix.Mex.Pairs
import Irix.Mex.Repaint
import Irix.Mex.Ledger
import Irix.Imglib.RleLoops
import Irix.Retrace.Waiters
import Irix.ExtentFs.Window
import Irix.ExtentFs.Truncate
import Irix.ExtentFs.Runs
import Irix.ExtentFs.InodeChunk
import Irix.BellDir.Getdents
import Irix.Toyfs.Dkalloc
import Irix.Toyfs.Rbmap
import Irix.Toyfs.Wbmap
import Irix.Bio.Buckets
import Irix.ExtentFs.MountChecks
import Irix.Malloc.Alloc
import Irix.Malloc.Search
import Irix.Malloc.Failure
import Irix.Rmap.Conserve
import Irix.Bio.Counts
import Irix.Inst.Iob
import Irix.InodeLock.Ilock2
import Irix.Clock.Slew
import Irix.Inst.Breakpath
import Irix.Mex.Links
import Irix.Gl2.Makeroom
import Irix.Gl2.Items
import Irix.Gl2.Compactify
import Irix.Gl2.Delete
import Irix.Disk.Disksort
import Irix.Pncc.Runs
import Irix.Xns.RouteRuns
