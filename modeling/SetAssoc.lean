import SetAssoc.Main
import SetAssoc.Store.Recorded
import SetAssoc.Trace.Synthetic
import SetAssoc.Proofs.Address
import SetAssoc.Proofs.Rows
import SetAssoc.Proofs.Serving
import SetAssoc.Proofs.Invariant
import SetAssoc.Proofs.Traffic
import SetAssoc.Proofs.Transparency
import SetAssoc.Proofs.Recency
import SetAssoc.Proofs.Reuse
import SetAssoc.Proofs.Calls
import SetAssoc.Proofs.Inclusion
import SetAssoc.Proofs.Handover
import SetAssoc.Proofs.Recording
import SetAssoc.Proofs.Placement
import SetAssoc.Proofs.Census
import SetAssoc.Proofs.Sessions
import SetAssoc.Proofs.Accounting
import SetAssoc.Proofs.Numerals
import SetAssoc.Proofs.Entries
import SetAssoc.Proofs.Lines
import SetAssoc.Proofs.Renderings
import SetAssoc.Proofs.Replays
import SetAssoc.Proofs.Concatenation
import SetAssoc.Proofs.Independence
import SetAssoc.Proofs.Slots
import SetAssoc.Proofs.Changes
import SetAssoc.Proofs.Fields
import SetAssoc.Proofs.Checked
import SetAssoc.Proofs.Faultless
import SetAssoc.Trace.Reader
import SetAssoc.Proofs.Readers
import SetAssoc.Proofs.Transfers
import SetAssoc.Proofs.Protocol
import SetAssoc.Proofs.Patterns
import SetAssoc.Proofs.Occupancy
import SetAssoc.Proofs.Shuffles
import SetAssoc.Proofs.Stripping
import SetAssoc.Proofs.Interference
import SetAssoc.Proofs.Records
import SetAssoc.Proofs.Synthetic
import SetAssoc.Proofs.Grammar
import SetAssoc.Proofs.Lexemes
import SetAssoc.Proofs.Touches
import SetAssoc.Proofs.Configurations
import SetAssoc.Proofs.Reports
