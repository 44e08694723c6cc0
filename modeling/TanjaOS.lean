import TanjaOS.Lib.Mem
import TanjaOS.Lib.Tiling
import TanjaOS.Lib.Run
import TanjaOS.Lib.Split
import TanjaOS.Fs.Pool.Impl
import TanjaOS.Fs.Pool.Lemmas
import TanjaOS.Fs.Basic
import TanjaOS.Fs.Path.Impl
import TanjaOS.Fs.Path.Lemmas
import TanjaOS.Fs.Lemmas
import TanjaOS.Fs.Ops.Impl
import TanjaOS.Fs.Delete.Impl
import TanjaOS.Fs.Delete.Listing
import TanjaOS.Fs.Ops.Prim
import TanjaOS.Fs.Ops.Lemmas
import TanjaOS.Fs.Namespace
import TanjaOS.Fs.Delete.Paths
import TanjaOS.Fs.Delete.Lemmas
import TanjaOS.Fs.Delete.Success
import TanjaOS.Fs.Delete.Root
import TanjaOS.Fs.Data
import TanjaOS.Fs.Run
import TanjaOS.Fs.Tree
import TanjaOS.Fs.Authority
import TanjaOS.Fs.Content
import TanjaOS.Fs.Atomic
import TanjaOS.Fs.Listing
import TanjaOS.Fs.Delete.Subtree
import TanjaOS.Fs.Image.Impl
import TanjaOS.Fs.Image.Lemmas
import TanjaOS.Fs.Image.Reload
import TanjaOS.Fs.Image.Reject
import TanjaOS.Fs.Access
import TanjaOS.Fs.Image.Access
import TanjaOS.Account.Impl
import TanjaOS.Account.Config
import TanjaOS.Account.Lemmas
import TanjaOS.Account.Run
import TanjaOS.Account.Reload
import TanjaOS.Account.Invariants
import TanjaOS.Account.Identity
import TanjaOS.Account.Groups
import TanjaOS.Fs.Home
import TanjaOS.Fs.HomeTree
import TanjaOS.Fs.Seed
import TanjaOS.Fs.Recursive
import TanjaOS.Fs.ReadFile
import TanjaOS.Account.Homes
import TanjaOS.Account.Passwd
import TanjaOS.Shell.Expand
import TanjaOS.Shell.Words
import TanjaOS.Lib.Wildcard
import TanjaOS.Shell.Glob
import TanjaOS.Shell.Wildcards
import TanjaOS.Shell.Vars
import TanjaOS.Shell.Impl
import TanjaOS.Shell.Session
import TanjaOS.Shell.Lock
import TanjaOS.Shell.Dispatch
import TanjaOS.Shell.Sudo
import TanjaOS.Shell.Quotes
import TanjaOS.Lib.Checked
import TanjaOS.Lib.Ring
import TanjaOS.Lib.Seq
import TanjaOS.Net.Tcp.Impl
import TanjaOS.Net.Tcp.Lemmas
import TanjaOS.Net.Tcp.Conn
import TanjaOS.Net.Tcp.Receive
import TanjaOS.Net.Tcp.Send
import TanjaOS.Lib.Csum
import TanjaOS.Net.Impl
import TanjaOS.Net.Stack
import TanjaOS.Net.Lemmas
import TanjaOS.Net.Step
import TanjaOS.Net.Safe
import TanjaOS.Net.Emit
import TanjaOS.Net.Dhcp
import TanjaOS.Exec.Unwind
import TanjaOS.Exec.Script
import TanjaOS.Exec.Elf.Safe
import TanjaOS.Linux.Impl
import TanjaOS.Linux.Lemmas
import TanjaOS.Linux.Slots
import TanjaOS.Linux.Bounds
import TanjaOS.Linux.Opened
import TanjaOS.Linux.ReadOnly
import TanjaOS.Linux.Denotes
import TanjaOS.Linux.Shared
import TanjaOS.Libc.Heap
import TanjaOS.Vi.Buffer
import TanjaOS.Vi.Save
import TanjaOS.Store.Read
import TanjaOS.Store.Size
import TanjaOS.Fs.Path.Reference
import TanjaOS.Kbd.Keys
import TanjaOS.Console.Feed
import TanjaOS.Shell.Chmod
import TanjaOS.Boot.Layout
import TanjaOS.Net.Checksum
import TanjaOS.Net.Tcp.Progress
import TanjaOS.Net.Resolve
import TanjaOS.Kbd.ReadLine
import TanjaOS.Net.Http.Chunked
import TanjaOS.Net.Http.Url
import TanjaOS.Libc.Sizes
import TanjaOS.Libc.Aligned
import TanjaOS.Linux.Mmap
import TanjaOS.Linux.Getdents
import TanjaOS.Linux.Flags
import TanjaOS.Linux.Rename
import TanjaOS.Exec.Elf.Linked
import TanjaOS.Libc.Strtok
import TanjaOS.Libc.Calendar
import TanjaOS.Libc.Numeral
import TanjaOS.Libc.Strtol
import TanjaOS.Libc.Qsort
import TanjaOS.Libc.Fmt
import TanjaOS.Libc.Vsnprintf
import TanjaOS.Libc.Formats
import TanjaOS.Libc.Scan
import TanjaOS.Libc.ScanText
import TanjaOS.Libc.ScanLong
import TanjaOS.Libc.ScanPrinted
import TanjaOS.Libc.ScanTake
import TanjaOS.Libc.ScanOnce
import TanjaOS.Lib.LongDivision
import TanjaOS.Tcc.Divide
import TanjaOS.Exec.Args
import TanjaOS.Exec.Atexit
import TanjaOS.Vi.Regex
import TanjaOS.Vi.Match
import TanjaOS.Lib.Lines
import TanjaOS.Vi.Motion
import TanjaOS.Vi.Command
import TanjaOS.Vi.Text
import TanjaOS.Vi.Transfer
import TanjaOS.Vi.Put
import TanjaOS.Vi.Repeat
import TanjaOS.Vi.Cursor
import TanjaOS.Vi.Substitute
import TanjaOS.Lib.Fifo
import TanjaOS.Lib.Returns
import TanjaOS.Lib.Nesting
import TanjaOS.Vi.Bracket
import TanjaOS.Net.Arp
import TanjaOS.Libc.Template
import TanjaOS.Net.Config
import TanjaOS.Lib.History
import TanjaOS.Vi.Undo
import TanjaOS.Net.Clock
import TanjaOS.Bin.Args
import TanjaOS.Bin.Cat
import TanjaOS.Bin.Echo
import TanjaOS.Lib.Trace
import TanjaOS.Lib.Splice
import TanjaOS.Libc.Stream
import TanjaOS.Libc.Descriptors
import TanjaOS.Libc.Written
