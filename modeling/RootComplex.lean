import RootComplex.Register.Catalogue
import RootComplex.Recording
import RootComplex.WordBuffer
import RootComplex.Json.Writer
import RootComplex.DeviceTree.Tree
import RootComplex.Host
import RootComplex.Proofs.Admission
import RootComplex.Proofs.Path
import RootComplex.Proofs.Stages
import RootComplex.Proofs.WindowPlan
import RootComplex.Proofs.Footprint
import RootComplex.Proofs.Training
import RootComplex.Proofs.Lifecycle
import RootComplex.Proofs.TranslationUnit
import RootComplex.Proofs.ApertureMap
import RootComplex.Proofs.ConfigSpace
import RootComplex.Proofs.PropertyValue
import RootComplex.Proofs.WellFormed
import RootComplex.Proofs.FirstClaim
import RootComplex.Proofs.Separation
import RootComplex.Proofs.RegionUpdate
import RootComplex.Proofs.WindowOrder
import RootComplex.Proofs.ResetSequence
import RootComplex.Proofs.ReadOnlyScope
import RootComplex.Proofs.Updates
import RootComplex.Proofs.BringUpUpdates
import RootComplex.Proofs.FinalContents
import RootComplex.Proofs.SharedBits
import RootComplex.Proofs.RetrainTurn
import RootComplex.Proofs.RetrainReports
import RootComplex.Proofs.LinkControl
import RootComplex.Proofs.Spending
import RootComplex.Proofs.BootBudget
import RootComplex.Proofs.PublishedState
import RootComplex.Proofs.RetrainEnds
import RootComplex.Proofs.Reach
import RootComplex.Proofs.BlockSharing
import RootComplex.Proofs.Alignment
import RootComplex.Proofs.DecodedWindows
import RootComplex.Proofs.MemoryApertures
import RootComplex.Proofs.Listening
import RootComplex.Proofs.WindowArithmetic
import RootComplex.Proofs.PropertyCodec
import RootComplex.Proofs.RetrainAttempts
import RootComplex.Proofs.JsonGrammar
import RootComplex.Proofs.JsonReading
import RootComplex.Proofs.SnapshotForm
import RootComplex.Proofs.CapabilityChain
import RootComplex.Proofs.PhyHandshake
import RootComplex.Proofs.PhyRegisters
import RootComplex.Proofs.FilterProbe
import RootComplex.Proofs.RegionNames
import RootComplex.Proofs.RegisterLayouts
