import ConfigRecovery.Proofs.Attempts
import ConfigRecovery.Proofs.PageFiles
import ConfigRecovery.Proofs.Refusal
import ConfigRecovery.Store.Directory
import ConfigRecovery.Proofs.Lifecycle
import ConfigRecovery.Proofs.Containment
import ConfigRecovery.Proofs.Places
import ConfigRecovery.Proofs.Repetition
import ConfigRecovery.Proofs.DirectoryFiles
import ConfigRecovery.Proofs.Descriptors
import ConfigRecovery.Proofs.Roots
import ConfigRecovery.Proofs.EntryPage
import ConfigRecovery.Proofs.RoundTrip
import ConfigRecovery.Proofs.RootDirectory
import ConfigRecovery.Proofs.Specifiers
import ConfigRecovery.Proofs.Visits
import ConfigRecovery.Proofs.InlineData
import ConfigRecovery.Proofs.ListingOrder
import ConfigRecovery.Proofs.Extensions
import ConfigRecovery.Proofs.Requests
import ConfigRecovery.Proofs.Separators
