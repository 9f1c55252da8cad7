import DocTopics.Main
import DocTopics.Proofs.AliasAgreement
import DocTopics.Proofs.AliasTable
import DocTopics.Proofs.Path
import DocTopics.Proofs.UnitOrder
import DocTopics.Proofs.FileTree
import DocTopics.Proofs.OutputDir
import DocTopics.Proofs.CompiledScope
import DocTopics.Proofs.MarkerRuns
import DocTopics.Proofs.SourceOrder
import DocTopics.Proofs.Coverage
import DocTopics.Proofs.IncludeOrder
import DocTopics.Proofs.WrittenComments
import DocTopics.Proofs.FileContents
import DocTopics.Proofs.BuildTree
import DocTopics.Proofs.Rebuild
import DocTopics.Proofs.DocumentNames
import DocTopics.Proofs.FirstOccurrences
import DocTopics.Proofs.TopicSums
import DocTopics.Proofs.KeyClaims
import DocTopics.Proofs.SignatureMatch
import DocTopics.Proofs.LeastOrder
import DocTopics.Proofs.ReportedCircle
import DocTopics.Proofs.InheritedParams
import DocTopics.Proofs.RunOutcomes
import DocTopics.Proofs.TagReading
import DocTopics.Proofs.TagOrder
import DocTopics.Proofs.ReachableKeys
import DocTopics.Proofs.SourceIdentifiers
import DocTopics.Proofs.GroupTitles
import DocTopics.Proofs.EscapedText
import DocTopics.Proofs.SectionTrees
import DocTopics.Proofs.TextCuts
import DocTopics.Proofs.BraceBalance
import DocTopics.Proofs.Preambles
import DocTopics.Proofs.Parentheses
import DocTopics.Proofs.Readers
import DocTopics.Proofs.FunctionHeaders
import DocTopics.Proofs.HeaderComments
import DocTopics.Proofs.CommaLists
import DocTopics.Proofs.DispatchLists
import DocTopics.Proofs.FormalNames
import DocTopics.Proofs.FamilyLinks
import DocTopics.Proofs.MergedExports
import DocTopics.Proofs.CombinationKeys
import DocTopics.Proofs.JsonText
import DocTopics.Proofs.JsonDocuments
