import ListQuery.Draft
import ListQuery.Settings
import ListQuery.Proofs.LiveRecords
import ListQuery.Proofs.Clauses
import ListQuery.Proofs.Occurrence
import ListQuery.Proofs.PatternGate
import ListQuery.Proofs.WellFormed
import ListQuery.Proofs.Overwriting
import ListQuery.Proofs.FirstViolation
import ListQuery.Proofs.KeyGrammar
import ListQuery.Proofs.Blanks
import ListQuery.Proofs.Groups
import ListQuery.Proofs.PatternSwitch
import ListQuery.Proofs.DistinctKeys
import ListQuery.Proofs.Outline
import ListQuery.Proofs.KeyOrder
import ListQuery.Proofs.LastArguments
import ListQuery.Proofs.Numerals
import ListQuery.Proofs.SettingsReach
import ListQuery.Proofs.Targets
import ListQuery.Proofs.EntityFields
import ListQuery.Proofs.EntityQueries
import ListQuery.Proofs.Edits
import ListQuery.Proofs.MergeAlgebra
import ListQuery.Proofs.Overlay
import ListQuery.Proofs.ReferenceFields
import ListQuery.Proofs.Ranges
import ListQuery.Proofs.CaseSensitivity
import ListQuery.Proofs.PatternMeaning
import ListQuery.Proofs.PatternSearch
import ListQuery.Proofs.IdentifierText
import ListQuery.Proofs.JsonPassage
import ListQuery.Proofs.OrderTokens
import ListQuery.Proofs.TextCoercion
import ListQuery.Proofs.WordGroups
import ListQuery.Proofs.Encodings
