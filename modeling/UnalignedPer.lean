import UnalignedPer.ChoiceIndex
import UnalignedPer.Descriptor
import UnalignedPer.Json.Parser
import UnalignedPer.Json.Printer
import UnalignedPer.Presence
import UnalignedPer.Settings
import UnalignedPer.Text.CharacterString
import UnalignedPer.Value
import UnalignedPer.Message.Writer
import UnalignedPer.Message.Reader
import UnalignedPer.Message.Encode
import UnalignedPer.Message.Decode
import UnalignedPer.Message.WriteScript
import UnalignedPer.Message.ReadScript
import UnalignedPer.Schema.Parser
import UnalignedPer.Value.OfJson
import UnalignedPer.Value.ToJson
import UnalignedPer.Main
import UnalignedPer.Proofs.Octets.Bits
import UnalignedPer.Proofs.Octets.Copy
import UnalignedPer.Proofs.Octets.Access
import UnalignedPer.Proofs.BitBuffer
import UnalignedPer.Proofs.BitSource
import UnalignedPer.Proofs.BitBuffer.Slices
import UnalignedPer.Proofs.Width
import UnalignedPer.Proofs.LengthDeterminant
import UnalignedPer.Proofs.ChoiceIndex
import UnalignedPer.Proofs.Bounds
import UnalignedPer.Proofs.SizedContent
import UnalignedPer.Proofs.SizedContent.Chunking
import UnalignedPer.Proofs.SizedContent.Tiling
import UnalignedPer.Proofs.OctetString
import UnalignedPer.Proofs.BitString
import UnalignedPer.Proofs.Text.CharacterString
import UnalignedPer.Proofs.Descriptor
import UnalignedPer.Proofs.Message.Form
import UnalignedPer.Proofs.Message.Conformance
import UnalignedPer.Proofs.Message.Writing
import UnalignedPer.Proofs.Presence
import UnalignedPer.Proofs.Message.WritingSequence
import UnalignedPer.Proofs.Message.Encoding
import UnalignedPer.Proofs.Message.Reading
import UnalignedPer.Proofs.Message.ReadingEntries
import UnalignedPer.Proofs.Message.ReadingExtensions
import UnalignedPer.Proofs.Message.ReadingSequence
import UnalignedPer.Proofs.Message.Decoding
import UnalignedPer.Proofs.Message.Compatibility
import UnalignedPer.Proofs.Message.Admission
import UnalignedPer.Proofs.Message.AdmissionContainers
import UnalignedPer.Proofs.Message.Normalization
import UnalignedPer.Proofs.Message.Locality
import UnalignedPer.Proofs.Message.LocalityContents
import UnalignedPer.Proofs.Message.LocalityContainers
import UnalignedPer.Proofs.Schema.Grammar
import UnalignedPer.Proofs.Schema.Spelling
import UnalignedPer.Proofs.Octets.Hex
import UnalignedPer.Proofs.Json
import UnalignedPer.Proofs.Text.Utf8
import UnalignedPer.Proofs.Value.Json
import UnalignedPer.Proofs.Command.Options
import UnalignedPer.Proofs.Command
import UnalignedPer.Proofs.Schema.SpellingSound
import UnalignedPer.Proofs.Schema.Agreement
import UnalignedPer.Proofs.Schema.AgreementNodes
import UnalignedPer.Proofs.Schema.Resolution
import UnalignedPer.Proofs.Schema.Acceptance
import UnalignedPer.Proofs.Schema.WellFormed
import UnalignedPer.Proofs.Schema.Origin
import UnalignedPer.Proofs.Message.Naming
import UnalignedPer.Proofs.Schema.Expansion
import UnalignedPer.Proofs.Cost
import UnalignedPer.Proofs.Message.AdmissionTypes
import UnalignedPer.Proofs.Value.Shape
import UnalignedPer.Proofs.Value.RoundTrip
import UnalignedPer.Proofs.Message.Shifting
import UnalignedPer.Proofs.Message.Calls
import UnalignedPer.Proofs.Message.Limits
import UnalignedPer.Proofs.Message.LimitsTypes
import UnalignedPer.Proofs.Message.Uniqueness
import UnalignedPer.Proofs.Message.Sameness
import UnalignedPer.Proofs.Message.Excess
import UnalignedPer.Proofs.Message.ExcessTypes
import UnalignedPer.Proofs.Value.Fitting
import UnalignedPer.Proofs.InStep
import UnalignedPer.Proofs.Message.Restoration
import UnalignedPer.Proofs.Message.Placement
import UnalignedPer.Proofs.Message.Rechunking
import UnalignedPer.Proofs.BitBuffer.Steps
import UnalignedPer.Proofs.BitBuffer.Adopted
import UnalignedPer.Proofs.Presence.Visits
import UnalignedPer.Proofs.Message.Failure
import UnalignedPer.Proofs.Message.StoppingEarly
import UnalignedPer.Proofs.SizedContent.Recovery
import UnalignedPer.Proofs.Message.Seclusion
import UnalignedPer.Proofs.Message.OpenTypes
import UnalignedPer.Proofs.WholeNumber.RoundTrip
import UnalignedPer.Proofs.WholeNumber.Shortest
import UnalignedPer.Proofs.SizedContent.Requests
import UnalignedPer.Proofs.Message.Entering
import UnalignedPer.Proofs.Message.Screening
import UnalignedPer.Proofs.Message.AddedMembers
import UnalignedPer.Proofs.BitSource.Interchange
import UnalignedPer.Proofs.Text.Permission
import UnalignedPer.Proofs.Value.Equality
import UnalignedPer.Proofs.Value.Looking
import UnalignedPer.Proofs.WholeNumber.Within
import UnalignedPer.Proofs.Settings
import UnalignedPer.Proofs.Schema.Reporting
import UnalignedPer.Proofs.Schema.Watching
import UnalignedPer.Proofs.Schema.Visiting
import UnalignedPer.Proofs.Schema.Termination
