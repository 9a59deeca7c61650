import RecordGrammar.Workbench
import RecordGrammar.Main
import RecordGrammar.Derivation
import RecordGrammar.Proofs.FailedCompilation
import RecordGrammar.Proofs.SharedTable
import RecordGrammar.Proofs.DecodedTexts
import RecordGrammar.Proofs.DerivedPayloads
import RecordGrammar.Proofs.AppendOnlyTables
import RecordGrammar.Proofs.RuleSetPrograms
import RecordGrammar.Proofs.WorkbenchHistories
import RecordGrammar.Proofs.RepeatedCompilation
import RecordGrammar.Proofs.GrammarText
import RecordGrammar.Proofs.DecodingErrors
import RecordGrammar.Proofs.CompiledDecoding
import RecordGrammar.Proofs.PayloadDepth
import RecordGrammar.Proofs.VisibleSchemas
import RecordGrammar.Proofs.CycleDetection
import RecordGrammar.Proofs.FactoryConstructions
import RecordGrammar.Proofs.CompilerConstructions
import RecordGrammar.Proofs.ForwardClosure
import RecordGrammar.Proofs.HandOffs
import RecordGrammar.Proofs.NullableRules
import RecordGrammar.Proofs.CompileLedgers
import RecordGrammar.Proofs.KeptLedgers
import RecordGrammar.Proofs.NullableTexts
import RecordGrammar.Proofs.DepthLimits
import RecordGrammar.Proofs.ReencodedPayloads
import RecordGrammar.Proofs.EnumerationKeys
import RecordGrammar.Proofs.HashedTexts
import RecordGrammar.Proofs.RecordShapes
import RecordGrammar.Proofs.StructuralSharing
import RecordGrammar.Proofs.TrimmedPayloads
import RecordGrammar.Proofs.AscendingKeys
import RecordGrammar.Proofs.ConformingPayloads
import RecordGrammar.Proofs.ErrorPaths
import RecordGrammar.Proofs.NumeralTexts
import RecordGrammar.Proofs.RenderedValues
import RecordGrammar.Proofs.LeadingReferences
import RecordGrammar.Proofs.CompilerFailures
import RecordGrammar.Proofs.ReservationProtocol
import RecordGrammar.Proofs.MemoizedBuilds
import RecordGrammar.Proofs.CompilerRecursion
import RecordGrammar.Proofs.BlockCalls
import RecordGrammar.Proofs.BlockOutcomes
import RecordGrammar.Proofs.BlockDecisions
import RecordGrammar.Proofs.RepeatedCalls
import RecordGrammar.Proofs.ObjectKeys
import RecordGrammar.Proofs.TextLayouts
import RecordGrammar.Proofs.ValueTexts
import RecordGrammar.Proofs.DocumentTexts
import RecordGrammar.Proofs.TerminalQuoting
import RecordGrammar.Proofs.ScopedBuilds
import RecordGrammar.Proofs.BlockTables
import RecordGrammar.Proofs.QuotedTexts
import RecordGrammar.Proofs.ReachedFields
import RecordGrammar.Proofs.IntegerTexts
import RecordGrammar.Proofs.IntegerFields
import RecordGrammar.Proofs.MaskTexts
import RecordGrammar.Proofs.MaskedFields
import RecordGrammar.Proofs.SignedNumbers
import RecordGrammar.Proofs.MailTexts
import RecordGrammar.Proofs.MaskCalls
import RecordGrammar.Proofs.ContainerCalls
import RecordGrammar.Proofs.AutomaticIds
import RecordGrammar.Proofs.RepeatedElements
import RecordGrammar.Proofs.GroupedProductions
import RecordGrammar.Proofs.KeyTerminals
