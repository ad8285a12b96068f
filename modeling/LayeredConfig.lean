import LayeredConfig.Action
import LayeredConfig.Agent.Config
import LayeredConfig.Agent.Loader
import LayeredConfig.Assoc
import LayeredConfig.Code.Enum
import LayeredConfig.Code.Line
import LayeredConfig.Code.Module
import LayeredConfig.Code.Overlay
import LayeredConfig.Code.Record
import LayeredConfig.CommandLine
import LayeredConfig.ConfigError
import LayeredConfig.ConfigFile
import LayeredConfig.Environment
import LayeredConfig.Event
import LayeredConfig.FilePath
import LayeredConfig.FileSystem
import LayeredConfig.Generation
import LayeredConfig.Json.Basic
import LayeredConfig.Json.Merge
import LayeredConfig.Json.Path
import LayeredConfig.Json.Reader
import LayeredConfig.Json.Writer
import LayeredConfig.Loader
import LayeredConfig.Main
import LayeredConfig.Message.Access
import LayeredConfig.Message.Clean
import LayeredConfig.Message.Decode
import LayeredConfig.Message.Encode
import LayeredConfig.Message.Fields
import LayeredConfig.Message.Listing
import LayeredConfig.Message.Overlay
import LayeredConfig.Message.Tree
import LayeredConfig.Message.ValueType
import LayeredConfig.Number.Binary64
import LayeredConfig.Number.Int32
import LayeredConfig.Number.Power
import LayeredConfig.Number.Shortest
import LayeredConfig.Number.Text
import LayeredConfig.Schema.Basic
import LayeredConfig.Schema.Cycle
import LayeredConfig.Schema.Name
import LayeredConfig.Schema.Raw
import LayeredConfig.Schema.Resolve
import LayeredConfig.Schema.TypeText
import LayeredConfig.Schema.Unfold
import LayeredConfig.SortedMap
import LayeredConfig.Specimen
import LayeredConfig.Text.Quoted
import LayeredConfig.Text.Split
import LayeredConfig.Text.Unprintable
import LayeredConfig.Text.WhiteSpace
import LayeredConfig.Toml.Reader
import LayeredConfig.Toml.Scalar
import LayeredConfig.Toml.Text
import LayeredConfig.Toml.Value
import LayeredConfig.Yaml.Block
import LayeredConfig.Yaml.Cursor
import LayeredConfig.Yaml.Document
import LayeredConfig.Yaml.Flow
import LayeredConfig.Yaml.Lexer
import LayeredConfig.Yaml.Node
import LayeredConfig.Yaml.Scalar
import LayeredConfig.Yaml.Tag
import LayeredConfig.Yaml.Token
import LayeredConfig.Proofs.Assoc
import LayeredConfig.Proofs.Number.Decimal
import LayeredConfig.Proofs.SortedMap
import LayeredConfig.Proofs.Message.Place
import LayeredConfig.Proofs.Message.Precedence
import LayeredConfig.Proofs.Except
import LayeredConfig.Proofs.Json.Merge
import LayeredConfig.Proofs.Json.MergePath
import LayeredConfig.Proofs.Message.Decode
import LayeredConfig.Proofs.Message.Value
import LayeredConfig.Proofs.Message.Encode
import LayeredConfig.Proofs.Message.RoundTrip
import LayeredConfig.Proofs.Message.Merge
import LayeredConfig.Proofs.Message.Addressable
import LayeredConfig.Proofs.Schema.Distinct
import LayeredConfig.Proofs.ConfigFile.Overlay
import LayeredConfig.Proofs.Json.Ordered
import LayeredConfig.Proofs.Json.Trim
import LayeredConfig.Proofs.Message.Clean
import LayeredConfig.Proofs.Message.Gather
import LayeredConfig.Proofs.Message.Chain
import LayeredConfig.Proofs.Json.Without
import LayeredConfig.Proofs.Message.Report
import LayeredConfig.Proofs.Message.Readable
import LayeredConfig.Proofs.ConfigFile.Load
import LayeredConfig.Proofs.ConfigFile.Respelled
import LayeredConfig.Proofs.Json.Reader
import LayeredConfig.Proofs.FileSystem
import LayeredConfig.Proofs.Directories
import LayeredConfig.Proofs.Message.Setting
import LayeredConfig.Proofs.Message.Listed
import LayeredConfig.Proofs.Message.Layers
import LayeredConfig.Proofs.Message.Taken
import LayeredConfig.Proofs.Message.Removed
import LayeredConfig.Proofs.Message.Unknown
import LayeredConfig.Proofs.Message.Respelled
import LayeredConfig.Proofs.Message.Reload
import LayeredConfig.Proofs.Json.Written
import LayeredConfig.Proofs.ConfigFile.Positional
import LayeredConfig.Proofs.ConfigFile.Reload
import LayeredConfig.Proofs.Loader.Variables
import LayeredConfig.Proofs.Loader.Layers
import LayeredConfig.Proofs.Message.Frozen
import LayeredConfig.Proofs.Message.Part
import LayeredConfig.Proofs.Text.Trim
import LayeredConfig.Proofs.Text.Split
import LayeredConfig.Proofs.Json.Path
import LayeredConfig.Proofs.Schema.Spelling
import LayeredConfig.Proofs.Schema.Cycle
import LayeredConfig.Proofs.Schema.TypeText
import LayeredConfig.Proofs.Schema.Written
import LayeredConfig.Proofs.Schema.Resolve
import LayeredConfig.Proofs.Code.Level
import LayeredConfig.Proofs.Code.Declared
import LayeredConfig.Proofs.Schema.Total
import LayeredConfig.Proofs.Schema.Keys
import LayeredConfig.Proofs.ConfigFile.Keys
import LayeredConfig.Proofs.Message.Flat
import LayeredConfig.Proofs.Loader.Separate
import LayeredConfig.Proofs.Message.Site
import LayeredConfig.Proofs.Message.Listing
import LayeredConfig.Proofs.Code.Identifier
import LayeredConfig.Proofs.Schema.Search
import LayeredConfig.Proofs.Message.KeyVariable
import LayeredConfig.Proofs.Code.Comment
import LayeredConfig.Proofs.Code.EnumTable
import LayeredConfig.Proofs.Environment
import LayeredConfig.Proofs.FilePath
import LayeredConfig.Proofs.Generation
import LayeredConfig.Proofs.Loader.Generation
import LayeredConfig.Proofs.Schema.Suffix
import LayeredConfig.Proofs.Code.Emission
