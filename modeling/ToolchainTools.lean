import ToolchainTools.Download.Arrivals
import ToolchainTools.Download.Confinement
import ToolchainTools.Download.Deletion
import ToolchainTools.Download.Errors
import ToolchainTools.Download.Hashing
import ToolchainTools.Download.Iteration
import ToolchainTools.Download.MapPieces
import ToolchainTools.Download.MapRuns
import ToolchainTools.Download.Ninja
import ToolchainTools.Download.Order
import ToolchainTools.Download.Histories
import ToolchainTools.Download.Pins
import ToolchainTools.Download.Packages
import ToolchainTools.Download.SecondRun
import ToolchainTools.Download.Truncation
import ToolchainTools.Download.Truth
import ToolchainTools.Download.Catalog
import ToolchainTools.Download.Ledger
import ToolchainTools.Download.Deployments
import ToolchainTools.Download.Unzipping
import ToolchainTools.Stream.Feeds
import ToolchainTools.Stream.Buffer
import ToolchainTools.Stream.File
import ToolchainTools.Stream.HttpRedirects
import ToolchainTools.Stream.TarNames
import ToolchainTools.Stream.TarResync
import ToolchainTools.Stream.TarSizes
import ToolchainTools.Stream.XzRuns
import ToolchainTools.Stream.ZipLocate
import ToolchainTools.Stream.ZlibRuns
import ToolchainTools.Trees.Overlay
import ToolchainTools.Vcxproj.RelativePath
import ToolchainTools.Vcxproj.Replace
import ToolchainTools.Vcxproj.Output
import ToolchainTools.Vcxproj.WellFormed
