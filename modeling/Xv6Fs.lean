import Xv6Fs.Param
import Xv6Fs.State
import Xv6Fs.Balloc
import Xv6Fs.Bmap
import Xv6Fs.Slots
import Xv6Fs.Grows
import Xv6Fs.BmapSpec
import Xv6Fs.Content
import Xv6Fs.ContentSpec
import Xv6Fs.Inode
import Xv6Fs.Truncate
import Xv6Fs.System
import Xv6Fs.CString
import Xv6Fs.Dir
import Xv6Fs.Path
import Xv6Fs.Readlink
import Xv6Fs.Password
import Xv6Fs.Ownership
import Xv6Fs.DirSpec
import Xv6Fs.FileTable
import Xv6Fs.Handles
import Xv6Fs.Accounting
import Xv6Fs.Exemptions
import Xv6Fs.PathSpec
import Xv6Fs.PathParse
import Xv6Fs.ReadlinkSpec
import Xv6Fs.ReadlinkRun
import Xv6Fs.FileWrite
import Xv6Fs.LogBound
import Xv6Fs.FileRead
import Xv6Fs.FileRuns
import Xv6Fs.NoLeaks
import Xv6Fs.FileLayer
import Xv6Fs.Faults
import Xv6Fs.Offsets
