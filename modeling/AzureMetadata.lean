import AzureMetadata.Analysis.DynstringFailures
import AzureMetadata.Analysis.DynstringStrings
import AzureMetadata.Analysis.DynstringBounds
import AzureMetadata.Analysis.Download
import AzureMetadata.Analysis.DownloadBuffer
import AzureMetadata.Analysis.Secrets
import AzureMetadata.Analysis.PartialTransfers
import AzureMetadata.Analysis.WalkTree
import AzureMetadata.Analysis.WalkBuffer
import AzureMetadata.Analysis.WalkBounds
import AzureMetadata.Analysis.Base64Stream
import AzureMetadata.Analysis.Base64Forgiving
import AzureMetadata.Analysis.Base64Sizes
import AzureMetadata.Analysis.TimeOfMillis
import AzureMetadata.Analysis.TimeZones
import AzureMetadata.Analysis.TimeParsing
import AzureMetadata.Analysis.Base64Bounds
import AzureMetadata.Analysis.Base64Accumulator
import AzureMetadata.Analysis.Base64Lines
import AzureMetadata.Analysis.Base64Counts
import AzureMetadata.Analysis.FileAge
import AzureMetadata.Clib.Scanner
import AzureMetadata.Clib.Utf8
import AzureMetadata.Model.JsonUnicode
import AzureMetadata.Analysis.JsonHex
import AzureMetadata.Model.JsonTree
import AzureMetadata.Clib.Strtod
import AzureMetadata.Model.JsonBuffer
import AzureMetadata.Model.JsonParse
import AzureMetadata.Interface.JsonGrammar
import AzureMetadata.Analysis.JsonBuffer
import AzureMetadata.Analysis.JsonStrings
import AzureMetadata.Analysis.JsonNumbers
import AzureMetadata.Analysis.JsonSoundness
import AzureMetadata.Analysis.JsonCompleteness
import AzureMetadata.Analysis.JsonDecoding
import AzureMetadata.Model.JsonEmit
import AzureMetadata.Interface.JsonValues
import AzureMetadata.Analysis.JsonEmission
import AzureMetadata.Analysis.JsonEmitStrings
import AzureMetadata.Analysis.JsonEmit
import AzureMetadata.Analysis.JsonRoundTrip
import AzureMetadata.Clib.Siblings
import AzureMetadata.Clib.Descent
import AzureMetadata.Analysis.ProgramOwnership
import AzureMetadata.Model.JsonNodes
import AzureMetadata.Interface.JsonForest
import AzureMetadata.Analysis.JsonNodeCalls
import AzureMetadata.Analysis.JsonForest
import AzureMetadata.Analysis.JsonDelete
import AzureMetadata.Analysis.JsonNodeRuns
import AzureMetadata.Analysis.JsonNodeTrees
import AzureMetadata.Analysis.JsonNodeLookup
import AzureMetadata.Analysis.FileBlocks
import AzureMetadata.Analysis.JsonCheck
import AzureMetadata.Analysis.JsonCheckedTrees
import AzureMetadata.Analysis.Program
import AzureMetadata.Analysis.JsonReachable
import AzureMetadata.Analysis.JsonBuilding
