import IsaCodec.Condition.Printer
import IsaCodec.Decoder.Batch
import IsaCodec.Decoder.Scalar
import IsaCodec.Decoder.Stream
import IsaCodec.Description.Value
import IsaCodec.Listing.Run
import IsaCodec.Report
import IsaCodec.Sample
import IsaCodec.Proofs.Traced.Lanes
import IsaCodec.Proofs.Condition.Lanes
import IsaCodec.Proofs.DecisionTree.Routing
import IsaCodec.Proofs.DecisionTree.Discriminators
import IsaCodec.Proofs.DecisionTree.Scoring
import IsaCodec.Proofs.DecisionTree.Nodes
import IsaCodec.Proofs.DecisionTree.Scan
import IsaCodec.Proofs.Decoder.LinearScan
import IsaCodec.Proofs.Decoder.Trees
import IsaCodec.Proofs.Decoder.Batch
import IsaCodec.Proofs.Layout.Bits
import IsaCodec.Proofs.Layout.Subfields
import IsaCodec.Proofs.Format.Shape
import IsaCodec.Proofs.Layout.Owners
import IsaCodec.Proofs.Layout.Compiled
import IsaCodec.Proofs.Instruction.Meaning
import IsaCodec.Proofs.Layout.Writing
import IsaCodec.Proofs.Instruction.Assignment
import IsaCodec.Proofs.Instruction.Encoding
import IsaCodec.Proofs.Reading
import IsaCodec.Proofs.Text.Numeral
import IsaCodec.Proofs.Condition.Pieces
import IsaCodec.Proofs.Condition.Scanning
import IsaCodec.Proofs.Condition.Grammar
import IsaCodec.Proofs.Condition.Parsing
import IsaCodec.Proofs.Condition.Printing
import IsaCodec.Proofs.Format.Grammar
import IsaCodec.Proofs.Format.Parsing
import IsaCodec.Proofs.Bytes.Assembly
import IsaCodec.Proofs.Traced.Filter
import IsaCodec.Proofs.Decoder.Bytes
import IsaCodec.Proofs.Decoder.Stream
import IsaCodec.Proofs.Decoder.FirstMatch
import IsaCodec.Proofs.Decoder.Faults
import IsaCodec.Proofs.Traced.Faults
import IsaCodec.Proofs.Condition.Faults
import IsaCodec.Proofs.Instruction.Checked
import IsaCodec.Proofs.DecisionTree.Representation
import IsaCodec.Proofs.DecisionTree.Precision
import IsaCodec.Proofs.Layout.Legal
import IsaCodec.Layout.Machine
import IsaCodec.Proofs.Layout.Machine
import IsaCodec.Proofs.Instruction.Acceptance
import IsaCodec.Proofs.Decoder.Scalar
import IsaCodec.Proofs.Instruction.FixedBits
import IsaCodec.Proofs.Decoder.Truncation
import IsaCodec.Proofs.Bytes.Bijection
import IsaCodec.Proofs.DecisionTree.Numbering
import IsaCodec.Proofs.Layout.Elements
import IsaCodec.Proofs.Instruction.Elements
import IsaCodec.Proofs.Condition.References
import IsaCodec.Proofs.DecisionTree.Size
import IsaCodec.Proofs.Description.RoundTrip
import IsaCodec.Proofs.Text.White
import IsaCodec.Proofs.Listing.Normal
import IsaCodec.Proofs.Listing.Grammar
import IsaCodec.Proofs.Listing.Lines
import IsaCodec.Proofs.Listing.Reading
import IsaCodec.Proofs.Listing.Running
import IsaCodec.Proofs.Listing.Rendering
