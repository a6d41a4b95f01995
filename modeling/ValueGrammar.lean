import ValueGrammar.Json.Reader
import ValueGrammar.Main
import ValueGrammar.Proofs.Bracketing
import ValueGrammar.Proofs.Definitions
import ValueGrammar.Proofs.Depth
import ValueGrammar.Proofs.Drawing
import ValueGrammar.Proofs.Expansion
import ValueGrammar.Proofs.Faults
import ValueGrammar.Proofs.Joining
import ValueGrammar.Proofs.Layout
import ValueGrammar.Proofs.Limiting
import ValueGrammar.Proofs.Listing
import ValueGrammar.Proofs.Mention
import ValueGrammar.Proofs.Raising
import ValueGrammar.Proofs.Reordering
import ValueGrammar.Proofs.Splicing
import ValueGrammar.Proofs.Surplus
import ValueGrammar.Proofs.Tallying
import ValueGrammar.Proofs.Tiling
import ValueGrammar.Proofs.Verbosity
import ValueGrammar.Proofs.Viability
import ValueGrammar.Token.Lexer
