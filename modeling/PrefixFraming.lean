import PrefixFraming.Config.Document
import PrefixFraming.Stream
import PrefixFraming.Timeline
import PrefixFraming.Proofs.Forwarding
import PrefixFraming.Proofs.Parsing
import PrefixFraming.Proofs.Persisting
import PrefixFraming.Proofs.Poisoning
import PrefixFraming.Proofs.Resuming
import PrefixFraming.Proofs.Sharing
import PrefixFraming.Proofs.Documents
import PrefixFraming.Proofs.Refusals
import PrefixFraming.Proofs.Forgetting
import PrefixFraming.Proofs.Ending
import PrefixFraming.Proofs.Raising
import PrefixFraming.Proofs.Looping
import PrefixFraming.Proofs.Reads
import PrefixFraming.Proofs.Conserving
import PrefixFraming.Proofs.Deadlines
import PrefixFraming.Proofs.Arriving
