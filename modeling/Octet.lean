import Octet.Ring
import Octet.Token.Lexer
import Octet.Tree.Parser
import Octet.Walker
import Octet.Assembly.Reader
import Octet.Machine
import Octet.Compiler
import Octet.Report
import Octet.Toolchain
import Octet.CommandLine.Arguments
import Octet.CommandLine.Disk
import Octet.CommandLine.Folder
import Octet.CommandLine.Session
import Octet.Main
import Octet.Proofs.Assembly.Spelling
import Octet.Proofs.Compiler.Overflow
import Octet.Proofs.Toolchain.Agreement
import Octet.Proofs.Tree.Grammar
import Octet.Proofs.Tree.Reading
import Octet.Proofs.Tree.Acceptance
import Octet.Proofs.Token.Stream
import Octet.Proofs.Tree.Viable
import Octet.Proofs.Machine.Renumbering
import Octet.Proofs.Toolchain.Naming
import Octet.Proofs.Compiler.Verdicts
import Octet.Proofs.Compiler.Consistency
import Octet.Proofs.Machine.Exposure
import Octet.Proofs.Compiler.Scratch
import Octet.Proofs.Toolchain.Secrecy
import Octet.Proofs.Assembly.Forms
import Octet.Proofs.Assembly.Lines
import Octet.Proofs.Assembly.Sections
import Octet.Proofs.Assembly.Format
import Octet.Proofs.Assembly.Verdict
import Octet.Proofs.Assembly.Confined
import Octet.Proofs.Assembly.Opening
import Octet.Proofs.Console.Pace
import Octet.Proofs.Toolchain.Mileage
import Octet.Proofs.Toolchain.Origins
import Octet.Proofs.Toolchain.Hearing
import Octet.Proofs.CommandLine.Spelling
import Octet.Proofs.CommandLine.Terminal
import Octet.Proofs.CommandLine.Separate
import Octet.Proofs.Compiler.Blame
import Octet.Proofs.Report.Quotation
import Octet.Proofs.Toolchain.Placement
import Octet.Proofs.Ring.Stack
import Octet.Proofs.Ring.History
import Octet.Proofs.Machine.Limit
import Octet.Proofs.Walker.Rounds
import Octet.Proofs.Walker.Invocation
import Octet.Proofs.Console.Phosphor
import Octet.Proofs.Token.Writing
import Octet.Proofs.Toolchain.Rereading
import Octet.Proofs.Assembly.Entries
import Octet.Proofs.Assembly.Keys
import Octet.Proofs.Assembly.Display
import Octet.Proofs.Toolchain.Exactness
import Octet.Proofs.Toolchain.Sums
import Octet.Proofs.Compiler.Folding
import Octet.Proofs.Value.Canonical
