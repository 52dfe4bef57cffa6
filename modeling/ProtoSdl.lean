import ProtoSdl.CommandLine.Memory
import ProtoSdl.Main
import ProtoSdl.Proofs.ClosedSchema
import ProtoSdl.Proofs.BlockStrings
import ProtoSdl.Proofs.MemberTexts
import ProtoSdl.Proofs.Likeness
import ProtoSdl.Proofs.SchemaReading
import ProtoSdl.Proofs.VisitLogs
import ProtoSdl.Proofs.MemoizedBuilding
import ProtoSdl.Proofs.MovedFiles
import ProtoSdl.Proofs.FileOrder
import ProtoSdl.Proofs.NamePlaces
import ProtoSdl.Proofs.TypeWords
import ProtoSdl.Proofs.UniqueNames
import ProtoSdl.Proofs.CommentPaths
import ProtoSdl.Proofs.StrayComments
import ProtoSdl.Proofs.CommentTargets
import ProtoSdl.Proofs.AttachedComments
import ProtoSdl.Proofs.ReadFiles
import ProtoSdl.Proofs.DeclarationOrigins
import ProtoSdl.Proofs.SingleEmission
import ProtoSdl.Proofs.WrittenSchemas
import ProtoSdl.Proofs.Defects
import ProtoSdl.Proofs.DependencyClosures
import ProtoSdl.Proofs.DependencyCycles
import ProtoSdl.Proofs.OneofMembers
import ProtoSdl.Proofs.DeclaredOneofs
import ProtoSdl.Proofs.MisusedOptions
import ProtoSdl.Proofs.MappingDefects
import ProtoSdl.Proofs.PluginAnswers
import ProtoSdl.Proofs.MessageShapes
import ProtoSdl.Proofs.FieldMarks
import ProtoSdl.Proofs.RootFields
import ProtoSdl.Proofs.FilledDeclarations
import ProtoSdl.Proofs.DeclarationTrees
import ProtoSdl.Proofs.FlattenedFiles
import ProtoSdl.Proofs.CollapsedFields
import ProtoSdl.Proofs.FieldNames
import ProtoSdl.Proofs.MapEntries
import ProtoSdl.Proofs.BlockStringValues
import ProtoSdl.Proofs.PathNames
import ProtoSdl.Proofs.LegalNames
import ProtoSdl.Proofs.CanonicalWords
import ProtoSdl.Proofs.CamelCaseForms
import ProtoSdl.Proofs.ComposedSettings
import ProtoSdl.Proofs.OptionDocuments
import ProtoSdl.Proofs.MethodNames
import ProtoSdl.Proofs.ReferenceTexts
