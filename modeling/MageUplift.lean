import MageUplift.Main
import MageUplift.Settings.LogFilter
import MageUplift.Proofs.LosslessLexing
import MageUplift.Proofs.SimultaneousEdits
import MageUplift.Proofs.ExhaustiveScan
import MageUplift.Proofs.RecordedRequirements
import MageUplift.Proofs.MigratedFiles
import MageUplift.Proofs.ConvertedBrackets
import MageUplift.Proofs.Idempotence
import MageUplift.Proofs.ParameterOrder
import MageUplift.Proofs.ScopedReads
import MageUplift.Proofs.StoredParameters
import MageUplift.Proofs.HeredocLines
import MageUplift.Proofs.InjectedNames
import MageUplift.Proofs.ValidSettings
import MageUplift.Proofs.AliasUpdates
import MageUplift.Proofs.LinePositions
import MageUplift.Proofs.HandleCase
import MageUplift.Proofs.FragmentReading
import MageUplift.Proofs.CommaSplitting
