import ReportDescriptor.Descriptor.Output
import ReportDescriptor.Outline
import ReportDescriptor.Proofs.Emission.Attributes
import ReportDescriptor.Proofs.Emission.Bytes
import ReportDescriptor.Proofs.Emission.Elements
import ReportDescriptor.Proofs.Emission.Elision
import ReportDescriptor.Proofs.Emission.IsolatedPairs
import ReportDescriptor.Proofs.Emission.Limits
import ReportDescriptor.Proofs.Emission.Listing
import ReportDescriptor.Proofs.Emission.MaximalRuns
import ReportDescriptor.Proofs.Field.MinimalWidth
import ReportDescriptor.Proofs.Field.Scaling
import ReportDescriptor.Proofs.Field.Values
import ReportDescriptor.Proofs.Field.WellFormed
import ReportDescriptor.Proofs.Item.Decoding
import ReportDescriptor.Proofs.Layout.Addressing
import ReportDescriptor.Proofs.Layout.Appending
import ReportDescriptor.Proofs.Layout.Frame
import ReportDescriptor.Proofs.Layout.Gathering
import ReportDescriptor.Proofs.Layout.Greedy
import ReportDescriptor.Proofs.Layout.Growth
import ReportDescriptor.Proofs.Layout.Legality
import ReportDescriptor.Proofs.Layout.Periodicity
import ReportDescriptor.Proofs.Layout.Refusal
import ReportDescriptor.Proofs.Layout.Script
import ReportDescriptor.Proofs.Layout.Shape
import ReportDescriptor.Proofs.Layout.Stability
import ReportDescriptor.Proofs.Outline.Remarks
import ReportDescriptor.Proofs.Reading.RoundTrip
import ReportDescriptor.Proofs.Unit.Word
import ReportDescriptor.Unit.Multiplier
