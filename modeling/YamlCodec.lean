import YamlCodec.Host
import YamlCodec.Json.Read
import YamlCodec.Json.Write
import YamlCodec.Main
import YamlCodec.Proofs.Budget.Accounting
import YamlCodec.Proofs.Budget.Agreement
import YamlCodec.Proofs.Budget.Amplification
import YamlCodec.Proofs.Budget.Reencoding
import YamlCodec.Proofs.Budget.Relaxation
import YamlCodec.Proofs.Decode.Root
import YamlCodec.Proofs.Decode.Stream
import YamlCodec.Proofs.Documents
import YamlCodec.Proofs.Host
import YamlCodec.Proofs.Json.Number
import YamlCodec.Proofs.Json.RoundTrip
import YamlCodec.Proofs.Json.Text
import YamlCodec.Proofs.PlainText
import YamlCodec.Proofs.RepeatedKeys
import YamlCodec.Proofs.RoundTrip
import YamlCodec.Proofs.Scalar.DoubleText
import YamlCodec.Proofs.Scalar.HexExact
import YamlCodec.Proofs.Scalar.Tag
import YamlCodec.Proofs.Token.Kept
import YamlCodec.Proofs.Token.Root
import YamlCodec.Proofs.Token.Seam
import YamlCodec.Proofs.Token.Stream
import YamlCodec.Proofs.Value.Column
import YamlCodec.Proofs.Value.Denoted
import YamlCodec.Proofs.Value.Equality
import YamlCodec.Proofs.Value.Insertion
import YamlCodec.Proofs.Value.Layout
import YamlCodec.Proofs.Value.Nulled
import YamlCodec.Proofs.Value.Outcome
import YamlCodec.Proofs.Value.Parts
import YamlCodec.Proofs.Writer.Acceptance
import YamlCodec.Proofs.Writer.Failure
import YamlCodec.Proofs.Writer.Nesting
import YamlCodec.Proofs.Writer.Refusal
import YamlCodec.Proofs.Writer.Room
import YamlCodec.Value.Access
import YamlCodec.Value.Construct
import YamlCodec.Value.Equality
