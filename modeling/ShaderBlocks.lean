import ShaderBlocks.Block
import ShaderBlocks.CommandLine.FileTree
import ShaderBlocks.CommandLine.Files
import ShaderBlocks.CommandLine.Options
import ShaderBlocks.CommandLine.Run
import ShaderBlocks.Decimal.Shortest
import ShaderBlocks.Document.Basic
import ShaderBlocks.Document.Build
import ShaderBlocks.Document.Reader
import ShaderBlocks.Document.Writer
import ShaderBlocks.Emission
import ShaderBlocks.Fragment.Basic
import ShaderBlocks.Fragment.Render
import ShaderBlocks.Graph.Basic
import ShaderBlocks.Graph.Error
import ShaderBlocks.Graph.Grouping
import ShaderBlocks.Graph.Reach
import ShaderBlocks.Json.Basic
import ShaderBlocks.Json.Decoder
import ShaderBlocks.Json.Reader
import ShaderBlocks.Json.Scan
import ShaderBlocks.Json.Writer
import ShaderBlocks.Main
import ShaderBlocks.Node
import ShaderBlocks.Outlet
import ShaderBlocks.Program.Basic
import ShaderBlocks.Program.Json
import ShaderBlocks.Program.Render
import ShaderBlocks.Shader.Phase
import ShaderBlocks.Shader.ValueType
import ShaderBlocks.Source.Declaration
import ShaderBlocks.Source.DeclaredName
import ShaderBlocks.Source.Error
import ShaderBlocks.Source.RawItem
import ShaderBlocks.Text.Blank
import ShaderBlocks.Text.Comment
import ShaderBlocks.Text.Identifier
import ShaderBlocks.Text.Token
import ShaderBlocks.Proofs.Construction
import ShaderBlocks.Proofs.Dependency
import ShaderBlocks.Proofs.EmissionRun
import ShaderBlocks.Proofs.EmissionInvariant
import ShaderBlocks.Proofs.CallOrder
import ShaderBlocks.Proofs.CallArguments
import ShaderBlocks.Proofs.Dataflow
import ShaderBlocks.Proofs.CompileSuccess
import ShaderBlocks.Proofs.CompileErrors
import ShaderBlocks.Proofs.CallTyping
import ShaderBlocks.Proofs.ProgramHistory
import ShaderBlocks.Proofs.PlainEmission
import ShaderBlocks.Proofs.CommentFree
import ShaderBlocks.Proofs.CommentDivision
import ShaderBlocks.Proofs.Respelling
import ShaderBlocks.Proofs.Substitution
import ShaderBlocks.Proofs.ItemGrammar
import ShaderBlocks.Proofs.ItemText
import ShaderBlocks.Proofs.FragmentSource
import ShaderBlocks.Proofs.FragmentText
import ShaderBlocks.Proofs.UniformText
import ShaderBlocks.Proofs.ProgramText
import ShaderBlocks.Proofs.LinkedText
import ShaderBlocks.Proofs.Reachability
import ShaderBlocks.Proofs.UpstreamOnly
import ShaderBlocks.Proofs.CallSiteNames
import ShaderBlocks.Proofs.SharedProgram
import ShaderBlocks.Proofs.DefinedNames
import ShaderBlocks.Proofs.TopLevelParts
import ShaderBlocks.Proofs.DeclaratorText
import ShaderBlocks.Proofs.WrittenDeclaration
import ShaderBlocks.Proofs.CallNames
import ShaderBlocks.Proofs.GeneratedNames
import ShaderBlocks.Proofs.GraphEdits
import ShaderBlocks.Proofs.Grouping
import ShaderBlocks.Proofs.GroupingHistory
import ShaderBlocks.Proofs.Linking
import ShaderBlocks.Proofs.Outcome
import ShaderBlocks.Proofs.DocumentMeaning
import ShaderBlocks.Proofs.DocumentPasses
import ShaderBlocks.Proofs.DocumentBuild
import ShaderBlocks.Proofs.Renumbering
import ShaderBlocks.Proofs.Lockstep
import ShaderBlocks.Proofs.DocumentOrder
import ShaderBlocks.Proofs.FragmentReread
import ShaderBlocks.Proofs.SignatureSource
import ShaderBlocks.Proofs.JsonRoundTrip
import ShaderBlocks.Proofs.JsonTidiness
import ShaderBlocks.Proofs.DocumentRoundTrip
import ShaderBlocks.Proofs.EmissionMachine
import ShaderBlocks.Proofs.EmissionStack
import ShaderBlocks.Proofs.EmissionSession
import ShaderBlocks.Proofs.ItemSequence
import ShaderBlocks.Proofs.MaterialOutlets
