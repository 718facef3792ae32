import SpacePony.Compiler.Paint
import SpacePony.Compiler.Lexer.Run
import SpacePony.Runtime.Cycle.Links
import SpacePony.Runtime.Orca.Safety
import SpacePony.Compiler.Ctfe.Cache
import SpacePony.Compiler.Ctfe.Loops
import SpacePony.Compiler.Ctfe.Propagate
import SpacePony.Compiler.Ctfe.Assign
import SpacePony.Compiler.Type.Soundness
import SpacePony.Compiler.Type.Frame
import SpacePony.Packages.Collections.ListRuns
import SpacePony.Packages.Collections.HashMapRuns
import SpacePony.Packages.Iregex.Simulation
import SpacePony.Packages.Iregex.Negate
import SpacePony.Compiler.Pkg.Ifdef
import SpacePony.Runtime.Sched.Mute
import SpacePony.Runtime.Sched.Shutdown
import SpacePony.Packages.Buffered.Writer
import SpacePony.Packages.Promises.Settled
import SpacePony.Packages.Time.NoLeak
import SpacePony.Compiler.Lexer.Integers
import SpacePony.Compiler.Lexer.Normalise
import SpacePony.Runtime.Mem.PagemapOwners
import SpacePony.Runtime.Mem.PoolRealloc
import SpacePony.Runtime.Actor.Messageq
import SpacePony.Runtime.Hash.Optimize
import SpacePony.Runtime.Cycle.Detection
import SpacePony.Compiler.Ast.LexintDouble
import SpacePony.Compiler.Pkg.Enumerate
import SpacePony.Compiler.Ctfe.Literal
import SpacePony.Compiler.Ctfe.PointerViews
import SpacePony.Compiler.Ctfe.Match
import SpacePony.Compiler.Jumps.Sound
import SpacePony.Compiler.Type.Reflexive
import SpacePony.Packages.Collections.BinaryHeapRuns
import SpacePony.Packages.Collections.SortCorrect
import SpacePony.Compiler.Type.Alternatives
import SpacePony.Compiler.Type.CyclePath
import SpacePony.Compiler.Type.ParamUse
import SpacePony.Packages.Collections.ListReaders
import SpacePony.Packages.Persistent.MapIter
import SpacePony.Packages.Persistent.VecBulk
import SpacePony.Compiler.Type.Reify
import SpacePony.Packages.Collections.Range
import SpacePony.Packages.Collections.RingBuffer
import SpacePony.Packages.Files.Rel
import SpacePony.Packages.Files.Split
import SpacePony.Packages.Format.FormatInt
import SpacePony.Packages.Json.Lens
import SpacePony.Packages.Json.Slice
import SpacePony.Packages.Promises.FlattenNext
import SpacePony.Packages.Builtin.Runes
import SpacePony.Packages.Encode.RoundTrip
