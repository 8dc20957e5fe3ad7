import ApiSurface.FileTree
import ApiSurface.Main
import ApiSurface.Proofs.Concatenation
import ApiSurface.Proofs.Independence
import ApiSurface.Proofs.Multiplicity
import ApiSurface.Proofs.PathDifference
import ApiSurface.Proofs.Rearrangement
import ApiSurface.Proofs.WrittenVersions
import ApiSurface.Proofs.JsonText
import ApiSurface.Proofs.StoredDocument
import ApiSurface.Proofs.Reading
import ApiSurface.Proofs.SourceOrder
import ApiSurface.Proofs.TypeTrees
import ApiSurface.Proofs.RenderedTypes
import ApiSurface.Proofs.Witnesses
import ApiSurface.Proofs.Reversal
import ApiSurface.Proofs.PageTags
import ApiSurface.Proofs.Successions
import ApiSurface.Proofs.DeclarationShapes
import ApiSurface.Proofs.StoredChanges
import ApiSurface.Proofs.RunEffects
import ApiSurface.Proofs.RepeatedRuns
import ApiSurface.Proofs.EnumScripts
import ApiSurface.Proofs.LoneDeclarations
import ApiSurface.Proofs.RelaidSources
import ApiSurface.Proofs.VersionTags
import ApiSurface.Proofs.MemberNames
import ApiSurface.Proofs.MethodTexts
import ApiSurface.Proofs.Separators
import ApiSurface.Proofs.ColorCodes
import ApiSurface.Proofs.RestatedDocuments
import ApiSurface.Proofs.ReportLines
import ApiSurface.Proofs.PageLines
import ApiSurface.Proofs.ArgumentGroups
import ApiSurface.Proofs.NormalRuns
import ApiSurface.Proofs.SiblingNames
import ApiSurface.Proofs.SourcePlaces
