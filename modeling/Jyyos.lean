import Jyyos.Algorithm.ArrayStack
import Jyyos.Algorithm.Bfs
import Jyyos.Algorithm.Bits
import Jyyos.Algorithm.Bytes
import Jyyos.Algorithm.Dfs
import Jyyos.Algorithm.Dict
import Jyyos.Algorithm.Equiv.Bfs
import Jyyos.Algorithm.Equiv.Dfs
import Jyyos.Algorithm.Equiv.PreorderWalk
import Jyyos.Algorithm.Exec
import Jyyos.Algorithm.Itertools
import Jyyos.Algorithm.Layout
import Jyyos.Algorithm.Machine
import Jyyos.Algorithm.PreorderWalk
import Jyyos.Algorithm.Runs
import Jyyos.CStr
import Jyyos.Decimal
import Jyyos.Fle.Basic
import Jyyos.Fle.Cc
import Jyyos.Fle.ElfToFle
import Jyyos.Fle.Equiv.Cc
import Jyyos.Fle.Equiv.ElfToFle
import Jyyos.Fle.Equiv.Exec
import Jyyos.Fle.Equiv.Ld
import Jyyos.Fle.Equiv.Pass
import Jyyos.Fle.Equiv.Relocs
import Jyyos.Fle.Equiv.Sections
import Jyyos.Fle.Equiv.Toolchain
import Jyyos.Fle.Exec
import Jyyos.Fle.Layout
import Jyyos.Fle.Ld
import Jyyos.Fle.Relocs
import Jyyos.Fle.Toolchain
import Jyyos.Getopt
import Jyyos.Hanoi.Basic
import Jyyos.Hanoi.Equiv.Basic
import Jyyos.Hanoi.Equiv.Puzzle
import Jyyos.Hanoi.Equiv.Stack
import Jyyos.Hanoi.Equiv.Staged
import Jyyos.Hanoi.Stack
import Jyyos.Hanoi.Staged
import Jyyos.Labyrinth.Basic
import Jyyos.Labyrinth.Dfs
import Jyyos.Labyrinth.Equiv.Basic
import Jyyos.Labyrinth.Equiv.Commute
import Jyyos.Labyrinth.Equiv.Connected
import Jyyos.Labyrinth.Equiv.Dfs
import Jyyos.Labyrinth.Equiv.Exit
import Jyyos.Labyrinth.Equiv.Leftover
import Jyyos.Labyrinth.Equiv.Lines
import Jyyos.Labyrinth.Equiv.LoadMap
import Jyyos.Labyrinth.Equiv.Main
import Jyyos.Labyrinth.Equiv.Move
import Jyyos.Labyrinth.Equiv.Options
import Jyyos.Labyrinth.Equiv.Paths
import Jyyos.Labyrinth.Equiv.Print
import Jyyos.Labyrinth.Equiv.Usage
import Jyyos.Labyrinth.Equiv.Walk
import Jyyos.Labyrinth.LoadMap
import Jyyos.Labyrinth.Main
import Jyyos.Labyrinth.Print
import Jyyos.Lines
import Jyyos.Minilibc.Equiv.Heap
import Jyyos.Minilibc.Equiv.Malloc
import Jyyos.Minilibc.Equiv.Stdio
import Jyyos.Minilibc.Heap
import Jyyos.Minilibc.Malloc
import Jyyos.Minilibc.Stdio
import Jyyos.Mosaic.App
import Jyyos.Mosaic.CondVar
import Jyyos.Mosaic.Device
import Jyyos.Mosaic.Equiv.CondVar
import Jyyos.Mosaic.Equiv.CondVarSafe
import Jyyos.Mosaic.Equiv.CondVarWake
import Jyyos.Mosaic.Equiv.Device
import Jyyos.Mosaic.Equiv.Explore
import Jyyos.Mosaic.Equiv.Faithful
import Jyyos.Mosaic.Equiv.Fork
import Jyyos.Mosaic.Equiv.ForkBuf
import Jyyos.Mosaic.Equiv.FsCrash
import Jyyos.Mosaic.Equiv.HeapNumber
import Jyyos.Mosaic.Equiv.OneHeap
import Jyyos.Mosaic.Equiv.Reference
import Jyyos.Mosaic.Equiv.Send
import Jyyos.Mosaic.Equiv.Sim
import Jyyos.Mosaic.Equiv.Solo
import Jyyos.Mosaic.Equiv.StateDump
import Jyyos.Mosaic.Equiv.Terminal
import Jyyos.Mosaic.Equiv.Threads
import Jyyos.Mosaic.Equiv.Transformer
import Jyyos.Mosaic.Equiv.Xv6Log
import Jyyos.Mosaic.Explore
import Jyyos.Mosaic.ForkBuf
import Jyyos.Mosaic.FsCrash
import Jyyos.Mosaic.OperatingSystem
import Jyyos.Mosaic.Reference
import Jyyos.Mosaic.Send
import Jyyos.Mosaic.StateDump
import Jyyos.Mosaic.Transformer
import Jyyos.Mosaic.Xv6Log
import Jyyos.Online.Equiv.Map
import Jyyos.Online.Equiv.Server
import Jyyos.Online.Server
import Jyyos.OsModel.Basic
import Jyyos.OsModel.Equiv.Run
import Jyyos.Pstree.Basic
import Jyyos.Pstree.Children
import Jyyos.Pstree.Equiv.Children
import Jyyos.Pstree.Equiv.Main
import Jyyos.Pstree.Equiv.Print
import Jyyos.Pstree.Main
import Jyyos.PyStr
import Jyyos.Qsort
import Jyyos.Rv32ima.Basic
import Jyyos.Rv32ima.Equiv.Alu
import Jyyos.Rv32ima.Equiv.Decode
import Jyyos.Rv32ima.Equiv.Hart
import Jyyos.Rv32ima.Equiv.Main
import Jyyos.Rv32ima.Equiv.Run
import Jyyos.Rv32ima.Equiv.Step
import Jyyos.Rv32ima.Isa
import Jyyos.Rv32ima.Main
import Jyyos.Sh.Equiv.Accept
import Jyyos.Sh.Equiv.Main
import Jyyos.Sh.Equiv.Order
import Jyyos.Sh.Equiv.Parse
import Jyyos.Sh.Equiv.Processes
import Jyyos.Sh.Equiv.Redir
import Jyyos.Sh.Equiv.Run
import Jyyos.Sh.Equiv.Spans
import Jyyos.Sh.Equiv.Token
import Jyyos.Sh.Grammar
import Jyyos.Sh.Main
import Jyyos.Sh.Parse
import Jyyos.Sh.Processes
import Jyyos.Sh.Run
import Jyyos.Testkit.Basic
import Jyyos.Testkit.Equiv.Basic
