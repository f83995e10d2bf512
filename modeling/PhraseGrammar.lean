import PhraseGrammar.Demo.Failure
import PhraseGrammar.Files.Tree
import PhraseGrammar.Main
import PhraseGrammar.Server.Basic
import PhraseGrammar.Server.Settings
import PhraseGrammar.Proofs.Replacement
import PhraseGrammar.Proofs.Steps
import PhraseGrammar.Proofs.Unproductive
import PhraseGrammar.Proofs.Letters
import PhraseGrammar.Proofs.Marks
import PhraseGrammar.Proofs.WellFormed
import PhraseGrammar.Proofs.Filling
import PhraseGrammar.Proofs.Agenda
import PhraseGrammar.Proofs.TagValues
import PhraseGrammar.Proofs.SingleTag
import PhraseGrammar.Proofs.Articles
import PhraseGrammar.Proofs.Limits
import PhraseGrammar.Proofs.Faults
import PhraseGrammar.Proofs.Acyclic
import PhraseGrammar.Proofs.Sources
import PhraseGrammar.Proofs.Sessions
import PhraseGrammar.Proofs.Folders
import PhraseGrammar.Proofs.Interleavings
import PhraseGrammar.Proofs.Runs
import PhraseGrammar.Proofs.Counts
import PhraseGrammar.Proofs.OptionBound
import PhraseGrammar.Proofs.FlatCounts
import PhraseGrammar.Proofs.TagsInOrder
import PhraseGrammar.Proofs.Forced
import PhraseGrammar.Proofs.SizeLimit
import PhraseGrammar.Proofs.Totals
import PhraseGrammar.Proofs.EarlyCalls
import PhraseGrammar.Proofs.TagSyntax
import PhraseGrammar.Proofs.ByteOrder
import PhraseGrammar.Proofs.EntryOrder
import PhraseGrammar.Proofs.LoadHistories
import PhraseGrammar.Proofs.PostedQueries
import PhraseGrammar.Proofs.BracketColumns
import PhraseGrammar.Proofs.CountedExpansions
import PhraseGrammar.Proofs.WordStreams
import PhraseGrammar.Proofs.Labels
import PhraseGrammar.Proofs.Numerals
import PhraseGrammar.Proofs.Variables
import PhraseGrammar.Proofs.Turns
import PhraseGrammar.Proofs.WrittenValues
import PhraseGrammar.Proofs.Exports
import PhraseGrammar.Proofs.Listings
