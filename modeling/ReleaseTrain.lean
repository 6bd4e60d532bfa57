import ReleaseTrain.Main
import ReleaseTrain.Proofs.Exchange
import ReleaseTrain.Proofs.InTurn
import ReleaseTrain.Proofs.PackagingSteps
import ReleaseTrain.Proofs.ImageCourse
import ReleaseTrain.Proofs.RunCourse
import ReleaseTrain.Proofs.RunSequence
import ReleaseTrain.Proofs.IssuedCommands
import ReleaseTrain.Proofs.Authorisation
import ReleaseTrain.Proofs.Promotion
import ReleaseTrain.Proofs.Registry
import ReleaseTrain.Proofs.RegistryHistory
import ReleaseTrain.Proofs.PushAccount
import ReleaseTrain.Proofs.Resolution
import ReleaseTrain.Proofs.PathNames
import ReleaseTrain.Proofs.Routes
import ReleaseTrain.Proofs.Places
import ReleaseTrain.Proofs.FileEffects
import ReleaseTrain.Proofs.ArchivedTree
import ReleaseTrain.Proofs.PackagingFrames
import ReleaseTrain.Proofs.Faithful
import ReleaseTrain.Proofs.BuildGate
import ReleaseTrain.Proofs.PackagingPlaces
import ReleaseTrain.Proofs.PlatformStages
import ReleaseTrain.Proofs.PackageAccount
import ReleaseTrain.Proofs.Freshness
import ReleaseTrain.Proofs.InputGate
import ReleaseTrain.Proofs.Accountability
import ReleaseTrain.Proofs.Blame
import ReleaseTrain.Proofs.ErrorAttribution
import ReleaseTrain.Proofs.Interruption
import ReleaseTrain.Proofs.CommitPoint
import ReleaseTrain.Proofs.PublishedExecutables
import ReleaseTrain.Proofs.MarkerHistory
import ReleaseTrain.Proofs.MarkerPromise
import ReleaseTrain.Proofs.PlatformFrame
import ReleaseTrain.Proofs.Cleaning
import ReleaseTrain.Proofs.ArchiveWalk
import ReleaseTrain.Proofs.Archiving
import ReleaseTrain.Proofs.HandedArchive
import ReleaseTrain.Proofs.AcceptedReference
import ReleaseTrain.Proofs.StreamedOutput
import ReleaseTrain.Proofs.RecoveryAdvice
import ReleaseTrain.Proofs.ExecutablePlace
import ReleaseTrain.Proofs.VersionReading
import ReleaseTrain.Proofs.TagGrammar
import ReleaseTrain.Proofs.RegistryHost
import ReleaseTrain.Proofs.JsonText
import ReleaseTrain.Proofs.JsonWords
import ReleaseTrain.Proofs.JsonReading
import ReleaseTrain.Proofs.JsonSkipping
import ReleaseTrain.Proofs.CredentialLookup
import ReleaseTrain.Proofs.Lookup
import ReleaseTrain.Proofs.OptionWords
import ReleaseTrain.Proofs.WrittenArguments
import ReleaseTrain.Proofs.LevelWords
import ReleaseTrain.Proofs.VerbosityFlags
import ReleaseTrain.Proofs.Rounding
import ReleaseTrain.Proofs.PrintedSize
import ReleaseTrain.Proofs.SecureHash
import ReleaseTrain.Proofs.CompressedBlock
import ReleaseTrain.Proofs.StreamedDigest
import ReleaseTrain.Proofs.DistinctKeys
import ReleaseTrain.Proofs.SectionFields
import ReleaseTrain.Proofs.ConfigOverlay
import ReleaseTrain.Proofs.SubcommandPlans
import ReleaseTrain.Proofs.LexicalPaths
import ReleaseTrain.Proofs.RootedPaths
