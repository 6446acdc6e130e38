import Interchange.Engine
import Interchange.Json.Descriptor
import Interchange.Json.Literal
import Interchange.Proofs.Entries
import Interchange.Proofs.Tlv.Layout
import Interchange.Proofs.Tlv.Norm
import Interchange.Tlv.Literal
import Interchange.Proofs.Tlv.Descriptor
import Interchange.Proofs.Tlv.Literal
import Interchange.Proofs.Attempt
import Interchange.Proofs.Tlv.Reading
import Interchange.Proofs.Tlv.RoundTrip
import Interchange.Proofs.Conversion.Described
import Interchange.Proofs.Conversion.Describe
import Interchange.Proofs.Session
import Interchange.Proofs.Conversion.Keeping
import Interchange.Proofs.Conversion.Untyped
import Interchange.Proofs.Conversion.Writes
import Interchange.Proofs.Engine
import Interchange.Proofs.Conversion.Conformance
import Interchange.Proofs.Conversion.Canon
import Interchange.Proofs.Conversion.Strict
import Interchange.Proofs.Conversion.Anew
import Interchange.Proofs.Conversion.Forgetting
import Interchange.Proofs.Conversion.Pervading
import Interchange.Proofs.Conversion.Guess
import Interchange.Proofs.Conversion.Sent
import Interchange.Proofs.Conversion.Stranding
import Interchange.Proofs.Conversion.Checks
import Interchange.Proofs.Conversion.Snags
import Interchange.Proofs.Conversion.Encoding
import Interchange.Proofs.Conversion.Storing
import Interchange.Proofs.Conversion.Predicting
import Interchange.Proofs.Conversion.Recursion
import Interchange.Proofs.Conversion.Culprits
import Interchange.Proofs.Conversion.Shape
import Interchange.Proofs.Conversion.Soundness
import Interchange.Proofs.Conversion.Decoding
import Interchange.Proofs.Conversion.Agreement
import Interchange.Proofs.Tlv.Parsing
import Interchange.Proofs.Tlv.Acceptance
import Interchange.Proofs.Tlv.Calls
import Interchange.Proofs.Tlv.Release
import Interchange.Proofs.Tlv.Forward
import Interchange.Proofs.Tlv.Extent
import Interchange.Proofs.Tlv.Success
import Interchange.Proofs.Tlv.Delimiting
import Interchange.Proofs.Conversion.Depth
import Interchange.Proofs.Conversion.Levels
import Interchange.Proofs.Conversion.Bounds
import Interchange.Proofs.Registry.History
import Interchange.Proofs.Conversion.Usable
import Interchange.Proofs.Registry.Ancestors
import Interchange.Proofs.Registry.Lasting
import Interchange.Proofs.Registry.Resolution
import Interchange.Proofs.Conversion.Nominal
import Interchange.Proofs.Conversion.Members
import Interchange.Proofs.Conversion.Steady
import Interchange.Proofs.Conversion.Unions
import Interchange.Proofs.Conversion.Evolution
import Interchange.Proofs.Conversion.Duplicates
import Interchange.Proofs.Number.Shortest
import Interchange.Proofs.Json.Numeral
import Interchange.Proofs.Json.Document
import Interchange.Proofs.Json.Reading
import Interchange.Proofs.Json.Text
import Interchange.Proofs.Json.Value
import Interchange.Proofs.Json.Parts
import Interchange.Proofs.Text.Utf8
import Interchange.Proofs.Lines
import Interchange.Proofs.Streams
import Interchange.Proofs.Conversion.Filing
import Interchange.Proofs.Conversion.Retrieval
import Interchange.Proofs.Conversion.Inputs
import Interchange.Proofs.Conversion.Publishing
import Interchange.Proofs.Native
import Interchange.Proofs.Time.Span
import Interchange.Proofs.Time.Calendar
import Interchange.Proofs.Time.Regular
import Interchange.Proofs.Time.Rfc3339
import Interchange.Proofs.Json.Descriptor
import Interchange.Proofs.Json.Literal
import Interchange.Proofs.Conversion.Unwrapping
import Interchange.Proofs.Conversion.Documents
import Interchange.Proofs.Storage.Store
import Interchange.Proofs.Storage.Sharing
import Interchange.Proofs.Storage.Confinement
import Interchange.Proofs.Storage.Minting
import Interchange.Proofs.Conversion.Formatting
import Interchange.Proofs.Conversion.Streaming
