import Castle.Cache
import Castle.Objects.Key
import Castle.Objects.KeyCompare
import Castle.Objects.RangeQuery
import Castle.Objects.Stream
import Castle.Objects.GetPipeline
import Castle.Objects.Slice
import Castle.Versions.Registry
import Castle.Versions.Shape
import Castle.Versions.Numbering
import Castle.Versions.TreeDelete
import Castle.Versions.Insert
import Castle.Versions.Reachable
import Castle.Versions.ChainTree
import Castle.Versions.Ordering
import Castle.Versions.Restore
import Castle.Transfer.Engine
import Castle.Transfer.Progress
import Castle.Transfer.Registry
import Castle.Main.FsInit
import Castle.Main.Slaves
