import ClassAsm.Main
import ClassAsm.Proofs.Machine.Soundness
import ClassAsm.Proofs.Correctness.Calls
import ClassAsm.Proofs.Locality.Isolation
import ClassAsm.Proofs.Machine.Gas
import ClassAsm.Proofs.Machine.Reuse
import ClassAsm.Proofs.Machine.Escape
import ClassAsm.Proofs.Session.Units
import ClassAsm.Proofs.Session.Loading
import ClassAsm.Proofs.Repl.Units
import ClassAsm.Proofs.Token.Comments
import ClassAsm.Proofs.Token.Numerals
import ClassAsm.Proofs.Files.Listing
import ClassAsm.Proofs.Codegen.Passes
import ClassAsm.Proofs.Codegen.Precision
import ClassAsm.Proofs.Codegen.Unresolved
import ClassAsm.Proofs.Machine.NumericDefaults
