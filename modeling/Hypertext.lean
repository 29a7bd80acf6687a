import Hypertext.AttributeList
import Hypertext.Source
import Hypertext.Template.Call
import Hypertext.Template.CallText
import Hypertext.Proofs.AttributeList
import Hypertext.Proofs.AttributeList.Confined
import Hypertext.Proofs.AttributeSlot
import Hypertext.Proofs.Component
import Hypertext.Proofs.Compose
import Hypertext.Proofs.Compose.Nested
import Hypertext.Proofs.Indent
import Hypertext.Proofs.Indent.Space
import Hypertext.Proofs.Node.Hidden
import Hypertext.Proofs.Node.ImpliedEnd
import Hypertext.Proofs.Node.OptionalEnd
import Hypertext.Proofs.Node.Orderly
import Hypertext.Proofs.Node.Spacing
import Hypertext.Proofs.Scan.CloseTag
import Hypertext.Proofs.Scan.Tokens
import Hypertext.Proofs.Template.Call
import Hypertext.Proofs.Template.CallText
import Hypertext.Proofs.Template.Written
import Hypertext.Proofs.Text.Escaped
import Hypertext.Proofs.Text.NormalForm
