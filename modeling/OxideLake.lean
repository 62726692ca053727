import OxideLake.Compute.DeviceBuildCache
import OxideLake.Compute.JoinLimits
import OxideLake.Compute.HiddenBytes
import OxideLake.Device.Cuda.MinMaxFloat
import OxideLake.Memory.SpillFailures
import OxideLake.Planner.AggregateExact
import OxideLake.Planner.Collapse
import OxideLake.Planner.DeclaredPartitioning
import OxideLake.Planner.DistanceLowering
import OxideLake.Planner.ReplacedOrder
import OxideLake.Planner.Partitioning
import OxideLake.Planner.SharedBuild
import OxideLake.Planner.Soundness
import OxideLake.Storage.UringVersions
import OxideLake.Memory.AlignedBuf
import OxideLake.Runtime.Dashboard
import OxideLake.Runtime.QuotedNames
import OxideLake.Compute.FallbackCounts
import OxideLake.Storage.Datagen
import OxideLake.Planner.SecondPass
